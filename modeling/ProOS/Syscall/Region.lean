import ProOS.Syscall.Authority

/-! Where the regions lie that processes share. -/

namespace ProOS.Syscall

open ProOS.Framework ProOS.Kernel

/-- Over the exact integers: whole pages, at least one, below the limit of user space. -/
def InUserSpace (record : ShareRecord) : Prop :=
  record.addr % configIpcPageSize = 0 ∧ 0 < record.pages ∧
    record.addr + record.pages * configIpcPageSize ≤ configUserSpaceLimit

instance (record : ShareRecord) : Decidable (InUserSpace record) := by
  unfold InUserSpace
  infer_instance

/-- `p` shares `pages` pages at `addr` with `target`: by a call of `ipc_share`, whose arguments are
words, or by the system call. -/
inductive Asks (p target : Pid) (addr pages : Nat) : Prop
  | call (haddr : addr < 2 ^ 32) (hpages : pages < 2 ^ 32) : Asks p target addr pages
  | syscall (msg : Envelope)
      (h : (sysIpcShareHandler msg).MayCall (fun c => Issued p c (.share p target addr pages))) :
      Asks p target addr pages

/-- The region that a call is about is given by words. -/
def KernelCall.Worded : {α : Type} → KernelCall α → Prop
  | _, .ipcShare _ addr pages => addr < 2 ^ 32 ∧ pages < 2 ^ 32
  | _, _ => True

section Share

variable {k : State} {p target : Pid} {addr pages i : Nat}

theorem Issued.words {α : Type} {c : KernelCall α} {q : Pid} (h : Issued q c (.share p target addr pages))
    (hc : c.Worded) : addr < 2 ^ 32 ∧ pages < 2 ^ 32 := by
  cases h
  exact hc

theorem Asks.words (h : Asks p target addr pages) : addr < 2 ^ 32 ∧ pages < 2 ^ 32 := by
  cases h with
  | call haddr hpages => exact ⟨haddr, hpages⟩
  | syscall msg h =>
    unfold sysIpcShareHandler at h
    dsimp only at h
    split_ifs at h
    all_goals first
      | exact h.elim
      | skip
    obtain hissued | ⟨answer, h⟩ := h
    · exact hissued.words ⟨msg.arg1.toNat_lt, msg.arg2.toNat_lt⟩
    · exact h.elim

/-- What a share call must have passed to have made a record. -/
theorem ipcShare_record (hfree : (k.shareTable i).used = false)
    (hused : ((ipcShare k p target addr pages).1.shareTable i).used = true) :
    (ipcShare k p target addr pages).1.shareTable i = ⟨true, p, target, addr, pages, 0⟩ ∧
      addr % configIpcPageSize = 0 ∧ pages ≠ 0 ∧ addr ≤ (addr + pages * configIpcPageSize % 2 ^ 32) % 2 ^ 32 ∧
      (addr + pages * configIpcPageSize % 2 ^ 32) % 2 ^ 32 ≤ configUserSpaceLimit := by
  have hcontra : ∀ {k' : State}, k'.shareTable i = k.shareTable i → ¬(k'.shareTable i).used = true := by
    intro k' hsame
    rw [hsame, hfree]
    exact Bool.false_ne_true
  revert hused
  unfold ipcShare
  split
  · exact fun hused => absurd hused (hcontra rfl)
  split
  · exact fun hused => absurd hused (hcontra rfl)
  rename_i hargs
  split
  · exact fun hused => absurd hused (hcontra rfl)
  rename_i haligned
  dsimp only
  split
  · exact fun hused => absurd hused (hcontra rfl)
  rename_i hlimit
  rw [not_or, not_lt, not_lt] at hlimit
  split
  · exact fun hused => absurd hused (hcontra rfl)
  split
  · exact fun hused => absurd hused (hcontra rfl)
  split
  · exact fun hused => absurd hused (hcontra rfl)
  split
  · exact fun hused => absurd hused (hcontra rfl)
  rename_i slot hslot
  have hundone : ∀ {k' : State}, k'.shareTable = (k.setShare slot ⟨true, p, target, addr, pages, 0⟩).shareTable →
      ¬((k'.unshare p target slot).shareTable i).used = true := by
    intro k' htab
    rw [unshare_table, htab, setShare_table]
    split_ifs
    · exact Bool.false_ne_true
    · rw [hfree]
      exact Bool.false_ne_true
  split
  · exact fun hused => absurd hused (hundone rfl)
  rename_i k₁ h₁
  split
  · exact fun hused => absurd hused (hundone (attach_shares h₁))
  rename_i k₂ h₂
  dsimp only
  rw [attach_shares h₂, attach_shares h₁, setShare_table]
  split_ifs
  · intro _
    refine ⟨rfl, not_ne_iff.mp haligned, ?_, hlimit⟩
    rintro rfl
    exact hargs (.inr (.inr rfl))
  · intro hused
    rw [hfree] at hused
    cases hused

/-- The wrapped end of a region lies behind its start and below the limit; so does its exact end, if and
only if the length of the region is a word. -/
theorem limit_iff (haddr : addr < 2 ^ 32) (hpages : pages < 2 ^ 32)
    (hle : addr ≤ (addr + pages * configIpcPageSize % 2 ^ 32) % 2 ^ 32)
    (hlimit : (addr + pages * configIpcPageSize % 2 ^ 32) % 2 ^ 32 ≤ configUserSpaceLimit) :
    addr + pages * configIpcPageSize ≤ configUserSpaceLimit ↔ pages < 2 ^ 20 := by
  unfold configIpcPageSize configUserSpaceLimit at *
  omega

end Share

/-- A record made by a share call describes a region of user space exactly when it has fewer than 2^20
pages: from there on the length of the region is no word. -/
theorem shared_region_iff {k : State} {p target : Pid} {addr pages i : Nat} (hask : Asks p target addr pages)
    (hfree : (k.shareTable i).used = false)
    (hused : ((ipcShare k p target addr pages).1.shareTable i).used = true) :
    InUserSpace ((ipcShare k p target addr pages).1.shareTable i) ↔ pages < 2 ^ 20 := by
  obtain ⟨haddr, hpages⟩ := hask.words
  obtain ⟨hrecord, haligned, hpos, hle, hlimit⟩ := ipcShare_record hfree hused
  rw [hrecord, ← limit_iff haddr hpages hle hlimit]
  unfold InUserSpace
  exact ⟨fun h => h.2.2, fun h => ⟨haligned, Nat.pos_of_ne_zero hpos, h⟩⟩

/-- Process 1 may share memory with process 2. -/
def sharerActs : List Action :=
  [.create .user blankMailbox, .create .user blankMailbox, .grant 1 2 4]

theorem sharerActs_isSome : (performAll (labelled act) (boot blankChannels) sharerActs).isSome = true := by
  decide +kernel

def sharer : State := ((performAll (labelled act) (boot blankChannels) sharerActs).get sharerActs_isSome).2

/-- The envelope of `sys_ipc_share` for `pages` pages at 0x1000 and process 2. -/
def shareEnvelope (pages : UInt32) : Envelope where
  address := 0
  number := 14
  argc := 3
  arg0 := 2
  arg1 := 0x1000
  arg2 := pages
  arg3 := 0

theorem sharer_shares_one : (sharer.shareTable 0).used = false ∧
    ((ipcShare sharer 1 2 0x1000 1).1.shareTable 0).used = true := by
  decide +kernel

theorem shared_region_one : InUserSpace ((ipcShare sharer 1 2 0x1000 1).1.shareTable 0) := by
  have hask : Asks 1 2 0x1000 1 := .syscall (shareEnvelope 1) (.inl (.share 2 0x1000 1))
  exact (shared_region_iff hask sharer_shares_one.1 sharer_shares_one.2).mpr (by decide)

/-- A region of 2^20 pages: its end wraps to its start. -/
theorem sharer_shares_all : (sharer.shareTable 0).used = false ∧
    ((ipcShare sharer 1 2 0x1000 0x100000).1.shareTable 0).used = true ∧
    ¬InUserSpace ((ipcShare sharer 1 2 0x1000 0x100000).1.shareTable 0) := by
  decide +kernel

theorem shared_region_wraps :
    ¬∀ channels tr k, Run (boot channels) tr k → ∀ p target addr pages i, Asks p target addr pages →
      (k.shareTable i).used = false → ((ipcShare k p target addr pages).1.shareTable i).used = true →
      InUserSpace ((ipcShare k p target addr pages).1.shareTable i) := by
  intro hall
  have hrun : Run (boot blankChannels) sharerActs sharer := performAll_labelled_exec _ _ sharerActs_isSome
  obtain ⟨hfree, hused, hout⟩ := sharer_shares_all
  have hask : Asks 1 2 0x1000 0x100000 := .syscall (shareEnvelope 0x100000) (.inl (.share 2 0x1000 0x100000))
  exact hout (hall _ _ _ hrun 1 2 0x1000 0x100000 0 hask hfree hused)

end ProOS.Syscall
