import ProOS.Framework.CellArray

namespace ProOS.Framework

open List

abbrev Mem := Nat → UInt8

/-- `memcpy` of `bs` to the address `a`. -/
def writeBytes (m : Mem) (a : Nat) (bs : List UInt8) : Mem :=
  fun i => if a ≤ i then (bs[i - a]?).getD (m i) else m i

def get16 (m : Mem) (a : Nat) : Nat := (m a).toNat + 256 * (m (a + 1)).toNat

def get32 (m : Mem) (a : Nat) : Nat := get16 m a + 65536 * get16 m (a + 2)

def bytes16 (x : Nat) : List UInt8 := [UInt8.ofNat x, UInt8.ofNat (x / 256)]

def bytes32 (x : Nat) : List UInt8 := bytes16 x ++ bytes16 (x / 65536)

/-- A 16-bit store, least significant byte first; higher bits of `x` are cut off. -/
def put16 (m : Mem) (a x : Nat) : Mem := writeBytes m a (bytes16 x)

def put32 (m : Mem) (a x : Nat) : Mem := writeBytes m a (bytes32 x)

section Bytes

variable {m m' : Mem} {a i k : Nat} {bs : List UInt8}

/-- The two memories agree outside of the `n` bytes from `a` on. -/
def AgreeOff (a n : Nat) (m m' : Mem) : Prop := ∀ i, i < a ∨ a + n ≤ i → m' i = m i

theorem writeBytes_before (h : i < a) : writeBytes m a bs i = m i := by
  rw [writeBytes, if_neg (by omega)]

theorem writeBytes_after (h : a + bs.length ≤ i) : writeBytes m a bs i = m i := by
  rw [writeBytes, if_pos (by omega), getElem?_eq_none (by omega), Option.getD_none]

theorem writeBytes_at (h : k < bs.length) : writeBytes m a bs (a + k) = bs[k] := by
  rw [writeBytes, if_pos (by omega), Nat.add_sub_cancel_left, getElem?_eq_getElem h,
    Option.getD_some]

theorem writeBytes_agreeOff : AgreeOff a bs.length m (writeBytes m a bs) := by
  intro i hi
  rcases hi with hi | hi
  · exact writeBytes_before hi
  · exact writeBytes_after hi

@[simp] theorem writeBytes_nil : writeBytes m a [] = m := by
  funext i
  simp [writeBytes]

theorem cells_writeBytes : cells (fun i => writeBytes m a bs (a + i)) bs.length = bs := by
  apply ext_getElem
  · simp
  · intro i h₁ h₂
    rw [getElem_cells]
    exact writeBytes_at h₂

theorem AgreeOff.refl (a n : Nat) (m : Mem) : AgreeOff a n m m := fun _ _ => rfl

theorem AgreeOff.trans {n : Nat} {m₁ m₂ m₃ : Mem} (h : AgreeOff a n m₁ m₂) (h' : AgreeOff a n m₂ m₃) :
    AgreeOff a n m₁ m₃ := fun i hi => (h' i hi).trans (h i hi)

theorem AgreeOff.mono {n n' a' : Nat} (h : AgreeOff a n m m') (ha : a' ≤ a) (hn : a + n ≤ a' + n') :
    AgreeOff a' n' m m' := by
  intro i hi
  apply h
  omega

@[simp] theorem length_bytes16 (x : Nat) : (bytes16 x).length = 2 := rfl
@[simp] theorem length_bytes32 (x : Nat) : (bytes32 x).length = 4 := rfl

theorem put16_agreeOff (x : Nat) : AgreeOff a 2 m (put16 m a x) := by
  have h : AgreeOff a (bytes16 x).length m (writeBytes m a (bytes16 x)) := writeBytes_agreeOff
  exact h

theorem put32_agreeOff (x : Nat) : AgreeOff a 4 m (put32 m a x) := by
  have h : AgreeOff a (bytes32 x).length m (writeBytes m a (bytes32 x)) := writeBytes_agreeOff
  exact h

theorem get16_congr (h : ∀ i, a ≤ i → i < a + 2 → m' i = m i) : get16 m' a = get16 m a := by
  rw [get16, get16, h a (by omega) (by omega), h (a + 1) (by omega) (by omega)]

theorem get32_congr (h : ∀ i, a ≤ i → i < a + 4 → m' i = m i) : get32 m' a = get32 m a := by
  rw [get32, get32, get16_congr (fun i h₁ h₂ => h i h₁ (by omega)),
    get16_congr (fun i h₁ h₂ => h i (by omega) (by omega))]

theorem get16_lt (m : Mem) (a : Nat) : get16 m a < 65536 := by
  have h₁ := (m a).toNat_lt
  have h₂ := (m (a + 1)).toNat_lt
  rw [get16]
  omega

theorem get32_lt (m : Mem) (a : Nat) : get32 m a < 2 ^ 32 := by
  have h₁ := get16_lt m a
  have h₂ := get16_lt m (a + 2)
  rw [get32]
  omega

theorem get16_eq_of_bytes {x : Nat} (h₀ : m a = UInt8.ofNat x) (h₁ : m (a + 1) = UInt8.ofNat (x / 256)) :
    get16 m a = x % 65536 := by
  rw [get16, h₀, h₁, UInt8.toNat_ofNat', UInt8.toNat_ofNat']
  omega

theorem get16_put16 (x : Nat) : get16 (put16 m a x) a = x % 65536 :=
  get16_eq_of_bytes (writeBytes_at (k := 0) (by simp)) (writeBytes_at (k := 1) (by simp))

theorem get32_writeBytes (x : Nat) : get32 (writeBytes m a (bytes32 x ++ bs)) a = x % 2 ^ 32 := by
  have hlow : get16 (writeBytes m a (bytes32 x ++ bs)) a = x % 65536 :=
    get16_eq_of_bytes (writeBytes_at (k := 0) (by simp)) (writeBytes_at (k := 1) (by simp; omega))
  have hhigh : get16 (writeBytes m a (bytes32 x ++ bs)) (a + 2) = x / 65536 % 65536 :=
    get16_eq_of_bytes (writeBytes_at (k := 2) (by simp; omega)) (writeBytes_at (k := 3) (by simp; omega))
  rw [get32, hlow, hhigh]
  omega

theorem get32_put32 (x : Nat) : get32 (put32 m a x) a = x % 2 ^ 32 := by
  have h : get32 (writeBytes m a (bytes32 x ++ [])) a = x % 2 ^ 32 := get32_writeBytes x
  rwa [append_nil] at h

/-! ## Words changed one after another -/

/-- A place and what becomes of the word there. -/
structure Patch where
  addr : Nat
  word : Nat → Nat

def Patch.Apart (p q : Patch) : Prop := p.addr + 4 ≤ q.addr ∨ q.addr + 4 ≤ p.addr

def Patch.apply (m : Mem) (p : Patch) : Mem := put32 m p.addr (p.word (get32 m p.addr))

theorem patches_other (ps : List Patch) (h : ∀ p ∈ ps, i < p.addr ∨ p.addr + 4 ≤ i) : ps.foldl Patch.apply m i = m i := by
  induction ps generalizing m with
  | nil => rfl
  | cons p ps ih =>
    rw [foldl_cons, ih (fun q hq => h q (mem_cons_of_mem p hq))]
    exact put32_agreeOff _ i (h p mem_cons_self)

theorem patches_at {ps : List Patch} (hapart : ps.Pairwise Patch.Apart) {p : Patch} (hp : p ∈ ps) :
    get32 (ps.foldl Patch.apply m) p.addr = p.word (get32 m p.addr) % 2 ^ 32 := by
  induction ps generalizing m with
  | nil => cases hp
  | cons q ps ih =>
    rw [pairwise_cons] at hapart
    rw [foldl_cons]
    rcases mem_cons.mp hp with rfl | hp
    · rw [← get32_put32 (m := m) (a := p.addr)]
      refine get32_congr (fun i hle hlt => patches_other ps (fun q hq => ?_))
      have hq := hapart.1 q hq
      rw [Patch.Apart] at hq
      omega
    · have hq := hapart.1 p hp
      rw [Patch.Apart] at hq
      have hsame : get32 (Patch.apply m q) p.addr = get32 m p.addr := get32_congr (fun i _ _ => put32_agreeOff _ i (by omega))
      rw [ih hapart.2 hp, hsame]

end Bytes

end ProOS.Framework
