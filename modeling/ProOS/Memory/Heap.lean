import ProOS.Framework.Alignment
import ProOS.Framework.Exec

namespace ProOS.Memory

open ProOS.Framework List

/-! ## The kernel heap (`memory.c`) -/

def heapStart : UInt32 := 0x00300000
def heapSizeBytes : UInt32 := 0x00100000
def heapEnd : UInt32 := heapStart + heapSizeBytes

/-- `heap_ptr` and the bytes of the address space. -/
structure Heap where
  ptr : UInt32
  bytes : UInt32 → UInt8

def memoryInit (bytes : UInt32 → UInt8) : Heap := ⟨heapStart, bytes⟩

def alignUp (value alignment : UInt32) : UInt32 :=
  let mask := alignment - 1
  (value + mask) &&& ~~~mask

def kalloc (h : Heap) (size : UInt32) : Option UInt32 × Heap :=
  if size = 0 then (none, h)
  else
    let size := alignUp size 16
    if heapEnd < h.ptr + size then (none, h) else (some h.ptr, { h with ptr := h.ptr + size })

def kallocZero (h : Heap) (size : UInt32) : Option UInt32 × Heap :=
  match kalloc h size with
  | (none, h) => (none, h)
  | (some p, h) => (some p, { h with bytes := fun a => if a - p < size then 0 else h.bytes a })

inductive Request
  | kalloc (size : UInt32)
  | kallocZero (size : UInt32)
  deriving DecidableEq, Repr

def Request.size : Request → UInt32
  | .kalloc size => size
  | .kallocZero size => size

def Request.run (h : Heap) : Request → Option UInt32 × Heap
  | .kalloc size => Memory.kalloc h size
  | .kallocZero size => Memory.kallocZero h size

/-- A request goes into the trace together with its result. -/
def perform (h : Heap) (req : Request) : Option ((Request × Option UInt32) × Heap) :=
  some ((req, (req.run h).1), (req.run h).2)

abbrev Step : Heap → Request × Option UInt32 → Heap → Prop := Performs perform

/-! ## Blocks -/

/-- An address and a number of bytes, as exact integers. -/
abbrev Block := Nat × Nat

def block (e : Request × Option UInt32) : Option Block := e.2.map (fun p => (p.toNat, e.1.size.toNat))

def blocks (tr : List (Request × Option UInt32)) : List Block := tr.filterMap block

def Apart (a b : Block) : Prop := a.1 + a.2 ≤ b.1 ∨ b.1 + b.2 ≤ a.1

structure WellPlaced (bs : List Block) : Prop where
  aligned : ∀ b ∈ bs, 16 ∣ b.1
  inside : ∀ b ∈ bs, heapStart.toNat ≤ b.1 ∧ b.1 + b.2 ≤ heapEnd.toNat
  apart : bs.Pairwise Apart

/-- Neither the rounding of the size nor the sum with `heap_ptr` wraps. -/
def Unwrapped (h : Heap) (req : Request) : Prop := h.ptr.toNat + roundUp req.size.toNat 16 < 2 ^ 32

instance (h : Heap) (req : Request) : Decidable (Unwrapped h req) :=
  inferInstanceAs (Decidable (_ < _))

section Requests

variable {h : Heap} {req : Request} {size p : UInt32}

theorem toNat_alignUp (size : UInt32) : (alignUp size 16).toNat = roundUp size.toNat 16 % 2 ^ 32 := by
  have hmask : (~~~(15 : UInt32)).toNat = 2 ^ 32 - 2 ^ 4 := by decide
  have hlt : (size.toNat + 15) % 2 ^ 32 < 2 ^ 32 := Nat.mod_lt _ (by decide)
  have hsize := size.toNat_lt
  show ((size + 15) &&& ~~~(15 : UInt32)).toNat = _
  rw [UInt32.toNat_and, UInt32.toNat_add, hmask]
  show (size.toNat + 15) % 2 ^ 32 &&& (2 ^ 32 - 2 ^ 4) = _
  rw [and_two_pow_sub hlt (by decide), roundUp]
  omega

theorem run_eq (h : Heap) (req : Request) :
    (req.run h).1 = (kalloc h req.size).1 ∧ (req.run h).2.ptr = (kalloc h req.size).2.ptr := by
  cases req with
  | kalloc size => exact ⟨rfl, rfl⟩
  | kallocZero size =>
    show (kallocZero h size).1 = (kalloc h size).1 ∧ (kallocZero h size).2.ptr = (kalloc h size).2.ptr
    unfold kallocZero
    split
    · rename_i heq
      rw [heq]
      exact ⟨rfl, rfl⟩
    · rename_i heq
      rw [heq]
      exact ⟨rfl, rfl⟩

theorem kalloc_null (hn : (kalloc h size).1 = none) : (kalloc h size).2 = h := by
  unfold kalloc at hn ⊢
  split
  · rfl
  · rename_i hsize
    rw [if_neg hsize] at hn
    dsimp only at hn ⊢
    split
    · rfl
    · rename_i hend
      rw [if_neg hend] at hn
      cases hn

theorem run_null (hn : (req.run h).1 = none) : (req.run h).2 = h := by
  cases req with
  | kalloc size => exact kalloc_null hn
  | kallocZero size =>
    have hk : (kalloc h size).1 = none := (run_eq h (.kallocZero size)).1 ▸ hn
    show (kallocZero h size).2 = h
    rw [kallocZero, show kalloc h size = (none, h) from Prod.ext hk (kalloc_null hk)]

theorem kalloc_some (hp : (kalloc h size).1 = some p) : size ≠ 0 ∧ p = h.ptr ∧
    (kalloc h size).2.ptr = h.ptr + alignUp size 16 ∧ h.ptr + alignUp size 16 ≤ heapEnd := by
  unfold kalloc at hp ⊢
  split
  · rename_i hsize
    rw [if_pos hsize] at hp
    cases hp
  · rename_i hsize
    rw [if_neg hsize] at hp
    dsimp only at hp ⊢
    split
    · rename_i hend
      rw [if_pos hend] at hp
      cases hp
    · rename_i hend
      rw [if_neg hend] at hp
      exact ⟨hsize, (Option.some.inj hp).symm, rfl, UInt32.not_lt.mp hend⟩

theorem kalloc_returns (hsize : size ≠ 0) (hend : h.ptr + alignUp size 16 ≤ heapEnd) :
    (kalloc h size).1 = some h.ptr := by
  rw [kalloc, if_neg hsize]
  dsimp only
  rw [if_neg (UInt32.not_lt.mpr hend)]

theorem toNat_sum (h : Heap) (size : UInt32) :
    (h.ptr + alignUp size 16).toNat = (h.ptr.toNat + roundUp size.toNat 16) % 2 ^ 32 := by
  rw [UInt32.toNat_add, toNat_alignUp]
  omega

end Requests

/-! ## Runs -/

structure Placed (tr : List (Request × Option UInt32)) (h : Heap) : Prop extends WellPlaced (blocks tr) where
  start : heapStart.toNat ≤ h.ptr.toNat
  limit : h.ptr.toNat ≤ heapEnd.toNat
  ptrAligned : 16 ∣ h.ptr.toNat
  before : ∀ b ∈ blocks tr, b.1 + b.2 ≤ h.ptr.toNat

section Runs

variable {h h' : Heap} {req : Request} {r : Option UInt32} {tr : List (Request × Option UInt32)}

theorem blocks_append (tr : List (Request × Option UInt32)) (e : Request × Option UInt32) :
    blocks (tr ++ [e]) = blocks tr ++ (block e).toList := by
  rw [blocks, filterMap_append]
  cases he : block e with
  | none => simp [blocks, he]
  | some b => simp [blocks, he]

theorem step_iff : Step h (req, r) h' ↔ r = (req.run h).1 ∧ h' = (req.run h).2 := by
  constructor
  · rintro ⟨req', heq⟩
    obtain ⟨he, rfl⟩ := Prod.mk.inj (Option.some.inj heq)
    obtain ⟨rfl, rfl⟩ := Prod.mk.inj he
    exact ⟨rfl, rfl⟩
  · rintro ⟨rfl, rfl⟩
    exact ⟨req, rfl⟩

theorem Placed.init (bytes : UInt32 → UInt8) : Placed [] (memoryInit bytes) where
  aligned := by simp [blocks]
  inside := by simp [blocks]
  apart := by simp [blocks]
  start := le_rfl
  limit := by
    show heapStart.toNat ≤ heapEnd.toNat
    decide
  ptrAligned := by
    show 16 ∣ heapStart.toNat
    decide
  before := by simp [blocks]

theorem Placed.extend (hp : Placed tr h) {n : Nat} (hn : n ≤ h'.ptr.toNat - h.ptr.toNat) (hle : h.ptr.toNat ≤ h'.ptr.toNat)
    (hlimit : h'.ptr.toNat ≤ heapEnd.toNat) (haligned : 16 ∣ h'.ptr.toNat) {e : Request × Option UInt32}
    (he : block e = some (h.ptr.toNat, n)) : Placed (tr ++ [e]) h' := by
  have hblocks : blocks (tr ++ [e]) = blocks tr ++ [(h.ptr.toNat, n)] := by
    rw [blocks_append, he]
    rfl
  have hmem : ∀ b ∈ blocks (tr ++ [e]), b ∈ blocks tr ∨ b = (h.ptr.toNat, n) := by
    intro b hb
    rw [hblocks] at hb
    simpa using hb
  refine ⟨⟨?_, ?_, ?_⟩, hp.start.trans hle, hlimit, haligned, ?_⟩
  · intro b hb
    rcases hmem b hb with hb | rfl
    · exact hp.aligned b hb
    · exact hp.ptrAligned
  · intro b hb
    rcases hmem b hb with hb | rfl
    · exact hp.inside b hb
    · have hs := hp.start
      refine ⟨hs, ?_⟩
      show h.ptr.toNat + n ≤ _
      omega
  · rw [hblocks, pairwise_append]
    refine ⟨hp.apart, pairwise_singleton _ _, ?_⟩
    intro a ha b hb
    rw [mem_singleton.mp hb]
    exact .inl (hp.before a ha)
  · intro b hb
    rcases hmem b hb with hb | rfl
    · exact (hp.before b hb).trans hle
    · show h.ptr.toNat + n ≤ _
      omega

theorem Placed.step (hp : Placed tr h) (hs : Step h (req, r) h') (hc : Unwrapped h req) : Placed (tr ++ [(req, r)]) h' := by
  obtain ⟨rfl, rfl⟩ := step_iff.mp hs
  obtain ⟨hres, hptr⟩ := run_eq h req
  cases hr : (req.run h).1 with
  | none =>
    have hsame : blocks (tr ++ [(req, none)]) = blocks tr := by
      rw [blocks_append]
      exact append_nil _
    rw [run_null hr]
    refine ⟨?_, hp.start, hp.limit, hp.ptrAligned, ?_⟩
    · rw [hsame]
      exact hp.toWellPlaced
    · rw [hsame]
      exact hp.before
  | some p =>
    rw [hres] at hr
    obtain ⟨-, rfl, hnew, hend⟩ := kalloc_some hr
    have hsum : (h.ptr + alignUp req.size 16).toNat = h.ptr.toNat + roundUp req.size.toNat 16 := by
      rw [toNat_sum, Nat.mod_eq_of_lt hc]
    have hround := le_roundUp req.size.toNat (by decide : 0 < 16)
    have hto : (req.run h).2.ptr.toNat = h.ptr.toNat + roundUp req.size.toNat 16 := by rw [hptr, hnew, hsum]
    refine hp.extend (n := req.size.toNat) (by omega) (by omega) ?_ ?_ rfl
    · rw [hptr, hnew]
      exact UInt32.le_iff_toNat_le.mp hend
    · rw [hto]
      exact Nat.dvd_add hp.ptrAligned (dvd_roundUp _ _)

theorem Placed.wrapped (hp : Placed tr h) (hs : Step h (req, r) h') (hc : ¬Unwrapped h req) :
    ¬WellPlaced (blocks (tr ++ [(req, r)])) := by
  obtain ⟨rfl, rfl⟩ := step_iff.mp hs
  have hlimit := hp.limit
  have hend : heapEnd.toNat = 0x400000 := by decide
  have hlt := req.size.toNat_lt
  have hround : roundUp req.size.toNat 16 ≤ req.size.toNat + 15 := Nat.div_mul_le_self _ _
  have hsum : 2 ^ 32 ≤ h.ptr.toNat + roundUp req.size.toNat 16 := not_lt.mp hc
  have hsize : req.size ≠ 0 := by
    intro h0
    rw [h0, show roundUp (0 : UInt32).toNat 16 = 0 by decide] at hsum
    omega
  obtain ⟨k, hk⟩ := dvd_roundUp req.size.toNat 16
  have hle : h.ptr + alignUp req.size 16 ≤ heapEnd := by
    rw [UInt32.le_iff_toNat_le, toNat_sum]
    omega
  intro hw
  have hmem : (h.ptr.toNat, req.size.toNat) ∈ blocks (tr ++ [(req, (req.run h).1)]) := by
    rw [blocks_append, (run_eq h req).1, kalloc_returns hsize hle]
    exact mem_append_right _ (mem_singleton.mpr rfl)
  have hin := (hw.inside _ hmem).2
  dsimp only at hin
  omega

/-- The blocks of a run are well placed all the time if and only if no request makes the arithmetic wrap; `NULL` leaves the
heap as it is. -/
theorem heap_blocks_wellPlaced_iff (bytes : UInt32 → UInt8) (tr : List (Request × Option UInt32)) (s : Heap) :
    (Always Step (memoryInit bytes) tr s (fun tr _ => WellPlaced (blocks tr)) ∧
        ∀ h req, (Request.run h req).1 = none → (Request.run h req).2 = h) ↔
      EachStep Step (memoryInit bytes) tr s (fun h e => Unwrapped h e.1) := by
  rw [and_iff_left (fun h req => run_null)]
  refine always_iff_eachStep (I := Placed) (.init bytes) ?_ ?_ ?_
  · exact fun tr h hp => hp.toWellPlaced
  · exact fun tr h e h' hp hstep hc => hp.step hstep hc
  · exact fun tr h e h' hp hstep hc => hp.wrapped hstep hc

/-- The size is rounded to 0, and the next request gets the same address. -/
theorem huge_request_overlaps : ∃ tr s, Exec Step (memoryInit fun _ => 0) tr s ∧
    tr = [(.kalloc 0xFFFFFFF1, some heapStart), (.kallocZero 16, some heapStart)] ∧ ¬WellPlaced (blocks tr) := by
  have hrun : Exec Step (memoryInit fun _ => 0) [(.kalloc 0xFFFFFFF1, some heapStart), (.kallocZero 16, some heapStart)]
      _ := performAll_exec perform [.kalloc 0xFFFFFFF1, .kallocZero 16] _ _ _ rfl
  refine ⟨_, _, hrun, rfl, ?_⟩
  intro hw
  have hin := (hw.inside (heapStart.toNat, 0xFFFFFFF1) (by decide)).2
  revert hin
  decide

end Runs

end ProOS.Memory
