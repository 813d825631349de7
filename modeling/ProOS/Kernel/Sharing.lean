import ProOS.Kernel.Tables

namespace ProOS.Kernel

open ProOS.Framework Option List

/-! ## Shared regions -/

def Proc.stripped (a : Proc) : Proc :=
  { a with ipcShares := clearLinks, ipcShareCount := 0, ipcWaiting := false }

/-- Nothing that the tables say has changed, links and share records apart. -/
structure ShareOnly (k k' : State) : Prop where
  rest : { k' with shareTable := k.shareTable, procs := k.procs } = k
  procs : ∀ q, (k'.procs q).map Proc.stripped = (k.procs q).map Proc.stripped

namespace ShareOnly

variable {k k' k'' : State}

theorem refl (k : State) : ShareOnly k k := ⟨rfl, fun _ => rfl⟩

section

variable (h : ShareOnly k k')

include h

theorem initialized : k'.initialized = k.initialized := (congrArg State.initialized h.rest :)
theorem nextPid : k'.nextPid = k.nextPid := (congrArg State.nextPid h.rest :)
theorem services : k'.serviceTable = k.serviceTable := (congrArg State.serviceTable h.rest :)
theorem channels : k'.channels = k.channels := (congrArg State.channels h.rest :)
theorem mutexes : k'.mutexes = k.mutexes := (congrArg State.mutexes h.rest :)
theorem nextChannelId : k'.nextChannelId = k.nextChannelId :=
  (congrArg State.nextChannelId h.rest :)

theorem trans (h' : ShareOnly k' k'') : ShareOnly k k'' where
  rest := by
    have h1 := congrArg (fun x : State => { x with shareTable := k.shareTable, procs := k.procs }) h'.rest
    exact h1.trans h.rest
  procs := fun q => (h'.procs q).trans (h.procs q)

end

theorem set {p : Pid} {a b : Proc} (hp : k.procs p = some a) (hb : b.stripped = a.stripped) :
    ShareOnly k (k.setProc p (some b)) where
  rest := rfl
  procs := by
    intro q
    rw [setProc_lookup]
    split_ifs with hq
    · rw [hq, hp, map_some, map_some, hb]
    · rfl

theorem setShare (k : State) (i : Nat) (r : ShareRecord) : ShareOnly k (k.setShare i r) :=
  ⟨rfl, fun _ => rfl⟩

theorem detach (k : State) (p : Pid) (shareId : Int) : ShareOnly k (k.detach p shareId) := by
  unfold State.detach
  split
  · exact refl k
  · rename_i a ha
    apply set (processLookup_some ha)
    unfold shareDetachFromProcess
    split <;> rfl

theorem attach {p : Pid} {shareId : Int} (h : k.attach p shareId = some k') : ShareOnly k k' := by
  unfold State.attach at h
  split at h
  · cases h
  · rename_i a ha
    obtain ⟨b, hb, rfl⟩ := map_eq_some_iff.mp h
    obtain ⟨j, -, rfl⟩ := map_eq_some_iff.mp hb
    exact set ha rfl

section

variable (h : ShareOnly k k')

include h

theorem stripped_of {q : Pid} {b : Proc} (hb : k'.procs q = some b) :
    ∃ a, k.procs q = some a ∧ b.stripped = a.stripped := by
  have he := h.procs q
  rw [hb, map_some] at he
  obtain ⟨a, ha, hs⟩ := map_eq_some_iff.mp he.symm
  exact ⟨a, ha, hs.symm⟩

theorem stripped_to {q : Pid} {a : Proc} (ha : k.procs q = some a) :
    ∃ b, k'.procs q = some b ∧ b.stripped = a.stripped := by
  have he := h.procs q
  rw [ha, map_some] at he
  obtain ⟨b, hb, hs⟩ := map_eq_some_iff.mp he
  exact ⟨b, hb, hs⟩

theorem isSome (q : Pid) : (k'.procs q).isSome = (k.procs q).isSome := by
  have he := congrArg Option.isSome (h.procs q)
  rwa [isSome_map, isSome_map] at he

theorem numbered (hn : Numbered k) : Numbered k' := by
  refine hn.of_procs h.initialized h.nextPid (fun q b hb => ?_)
  obtain ⟨a, ha, -⟩ := h.stripped_of hb
  exact ⟨a, ha⟩

theorem channel : k'.channel = k.channel := by
  have hprocs : k'.channel.procs = k.channel.procs := by
    funext q
    have he := congrArg (Option.map Proc.channel) (h.procs q)
    rwa [Option.map_map, Option.map_map] at he
  rw [State.channel, State.channel, h.channels, h.nextChannelId]
  exact congrArg (Channel.State.mk k.channels k.nextChannelId) hprocs

theorem booked (hb : Booked k) (hl : Linked k') : Booked k' := by
  refine ⟨?_, h.numbered hb.numbered, hl, h.channel ▸ hb.roster, hb.served.of_table h.services h.nextPid⟩
  refine hb.waiting.of_same (fun q => ?_) h.channels h.mutexes (congrArg State.semaphores h.rest :)
  have he := congrArg (Option.map Proc.stance) (h.procs q)
  rwa [Option.map_map, Option.map_map] at he

end

end ShareOnly

theorem noShare_parties (q : Pid) : noShare.parties q = 0 := rfl

theorem parties_unused {r : ShareRecord} (h : r.used = false) (q : Pid) : r.parties q = 0 := by
  simp [ShareRecord.parties, h]

theorem parties_new (p target : Pid) (addr pages : Nat) (q : Pid) :
    (ShareRecord.mk true p target addr pages 0).parties q =
      (if q = p then 1 else 0) + (if q = target then 1 else 0) := by
  simp [ShareRecord.parties, eq_comm]

section Shares

variable {k k' : State}

theorem Numbered.nonpos (hn : Numbered k) {q : Pid} (hq : q ≤ 0) : k.procs q = none := by
  cases h : k.procs q with
  | none => rfl
  | some a =>
    exact absurd hq (not_le.mpr (hn.pids q a h).1)

theorem setShare_table (k : State) (i j : Nat) (r : ShareRecord) :
    (k.setShare i r).shareTable j = if j = i then r else k.shareTable j := by
  simp [State.setShare, Function.update_apply]

theorem detach_shares (k : State) (p : Pid) (shareId : Int) : (k.detach p shareId).shareTable = k.shareTable := by
  unfold State.detach
  split <;> rfl

theorem attach_shares {p : Pid} {shareId : Int} (h : k.attach p shareId = some k') : k'.shareTable = k.shareTable := by
  unfold State.attach at h
  split at h
  · cases h
  · obtain ⟨b, -, rfl⟩ := map_eq_some_iff.mp h
    rfl

/-- Both parties of record `slot` lose a link to it, and the record is freed. -/
def State.unshare (k : State) (p target : Pid) (slot : Nat) : State :=
  ((k.detach p slot).detach target slot).setShare slot noShare

theorem unshare_only (k : State) (p target : Pid) (slot : Nat) : ShareOnly k (k.unshare p target slot) :=
  ((ShareOnly.detach _ _ _).trans (ShareOnly.detach _ _ _)).trans (ShareOnly.setShare _ _ _)

theorem unshare_table (k : State) (p target : Pid) (slot j : Nat) :
    (k.unshare p target slot).shareTable j = if j = slot then noShare else k.shareTable j := by
  rw [State.unshare, setShare_table, detach_shares, detach_shares]

theorem unshare_linkCount (hn : Numbered k) (p target : Pid) (slot : Nat) (q : Pid) (i : Nat) :
    (k.unshare p target slot).linkCount q i =
      k.linkCount q i - (if q = p ∧ i = slot then 1 else 0) - (if q = target ∧ i = slot then 1 else 0) := by
  have hpos : q ≤ 0 → k.procs q = none := hn.nonpos
  have hpos' : q ≤ 0 → (k.detach p slot).procs q = none := by
    intro hq
    exact ((ShareOnly.detach k p slot).numbered hn).nonpos hq
  show ((k.detach p slot).detach target slot).linkCount q i = _
  rw [detach_linkCount _ _ _ _ hpos', detach_linkCount _ _ _ _ hpos]
  simp only [Int.natCast_inj]

theorem Linked.unshare (hl : Linked k) (hn : Numbered k) {p target : Pid} {slot : Nat}
    (hcount : ∀ q, (k.procs q).isSome = true →
      k.linkCount q slot ≤ (if q = p then 1 else 0) + (if q = target then 1 else 0)) :
    Linked (k.unshare p target slot) where
  parties := by
    intro i hi
    rw [unshare_table] at hi ⊢
    split_ifs at hi ⊢ with he
    · cases hi
    · rw [(unshare_only k p target slot).nextPid]
      exact hl.parties i hi
  links := by
    intro q i hq
    rw [(unshare_only k p target slot).isSome] at hq
    rw [unshare_linkCount hn, unshare_table]
    by_cases hi : i = slot
    · subst hi
      have hle := hcount q hq
      simp only [and_true, if_true, noShare_parties]
      omega
    · have hsame := hl.links q i hq
      simp only [hi, and_false, if_false]
      omega

theorem parties_of {r : ShareRecord} (h : r.used = true) (q : Pid) :
    r.parties q = (if q = r.owner then 1 else 0) + (if q = r.target then 1 else 0) := by
  simp [ShareRecord.parties, h, eq_comm]

theorem shareDropAt_eq (pid : Pid) (k : State) (i : Nat) :
    shareDropAt pid k i =
      if (k.shareTable i).used = true ∧ ((k.shareTable i).owner = pid ∨ (k.shareTable i).target = pid) then
        k.unshare (k.shareTable i).owner (k.shareTable i).target i else k := by
  unfold shareDropAt
  dsimp only
  cases hu : (k.shareTable i).used with
  | false => simp
  | true =>
    by_cases ho : (k.shareTable i).owner = pid
    · simp [ho, State.unshare]
    · by_cases ht : (k.shareTable i).target = pid
      · simp [ho, ht, State.unshare]
      · simp [ho, ht]

theorem Linked.dropAt (hl : Linked k) (hn : Numbered k) (pid : Pid) (i : Nat) : Linked (shareDropAt pid k i) := by
  rw [shareDropAt_eq]
  split_ifs with h
  · apply hl.unshare hn
    intro q hq
    rw [hl.links q i hq, parties_of h.1]
  · exact hl

theorem shareDropAt_only (pid : Pid) (k : State) (i : Nat) : ShareOnly k (shareDropAt pid k i) := by
  rw [shareDropAt_eq]
  split_ifs
  · exact unshare_only _ _ _ _
  · exact .refl k

def ShareRecord.Names (r : ShareRecord) (pid : Pid) : Prop :=
  r.used = true ∧ (r.owner = pid ∨ r.target = pid)

theorem shareDropAt_table (pid : Pid) (k : State) (i j : Nat) :
    ((k.shareTable j).Names pid → j = i → (shareDropAt pid k i).shareTable j = noShare) ∧
      ((shareDropAt pid k i).shareTable j = noShare ∨ (shareDropAt pid k i).shareTable j = k.shareTable j) := by
  rw [shareDropAt_eq]
  split_ifs with h
  · rw [unshare_table]
    by_cases hj : j = i
    · simp [hj]
    · simp [hj]
  · refine ⟨?_, .inr rfl⟩
    rintro hnames rfl
    exact absurd hnames h

theorem drops_only (pid : Pid) (l : List Nat) (k : State) : ShareOnly k (l.foldl (shareDropAt pid) k) := by
  induction l generalizing k with
  | nil => exact .refl k
  | cons i l ih => exact (shareDropAt_only pid k i).trans (ih _)

theorem Linked.drops (hl : Linked k) (hn : Numbered k) (pid : Pid) (l : List Nat) :
    Linked (l.foldl (shareDropAt pid) k) := by
  induction l generalizing k with
  | nil => exact hl
  | cons i l ih => exact ih (hl.dropAt hn pid i) ((shareDropAt_only pid k i).numbered hn)

theorem drops_table (pid : Pid) (l : List Nat) (k : State) (j : Nat) :
    ((k.shareTable j).Names pid → j ∈ l → (l.foldl (shareDropAt pid) k).shareTable j = noShare) ∧
      ((l.foldl (shareDropAt pid) k).shareTable j = noShare ∨
        (l.foldl (shareDropAt pid) k).shareTable j = k.shareTable j) := by
  induction l generalizing k with
  | nil => exact ⟨fun _ hj => by simp at hj, .inr rfl⟩
  | cons i l ih =>
    obtain ⟨hdrop, hkeep⟩ := shareDropAt_table pid k i j
    obtain ⟨hrest, hkeep'⟩ := ih (shareDropAt pid k i)
    rw [foldl_cons]
    constructor
    · intro hnames hj
      by_cases hji : j = i
      · -- freed here, and a freed record stays as it is
        have hfree := hdrop hnames hji
        rcases hkeep' with h | h
        · exact h
        · exact h.trans hfree
      · have hmem : j ∈ l := by
          rcases mem_cons.mp hj with h | h
          · exact absurd h hji
          · exact h
        rcases hkeep with h | h
        · rcases hkeep' with h' | h'
          · exact h'
          · exact h'.trans h
        · exact hrest (by rw [h]; exact hnames) hmem
    · rcases hkeep' with h' | h'
      · exact .inl h'
      · rcases hkeep with h | h
        · exact .inl (h'.trans h)
        · exact .inr (h'.trans h)

end Shares

/-- What becomes of a call of `ipc_share` whose record is in `slot` of `k₀`. -/
inductive Linking (k₀ : State) (p target : Pid) (slot : Nat) : State × Int → Prop
  | undone {k' : State} (h : k' = k₀ ∨ k₀.attach p slot = some k') :
      Linking k₀ p target slot (k'.unshare p target slot, -1)
  | made {k₁ k₂ : State} (h₁ : k₀.attach p slot = some k₁) (h₂ : k₁.attach target slot = some k₂) :
      Linking k₀ p target slot (k₂, 0)

inductive Sharing (k : State) (p target : Pid) (addr pages : Nat) : State × Int → Prop
  | refused : Sharing k p target addr pages (k, -1)
  | tried {slot : Nat} {a b : Proc} {r : State × Int} (hp : k.procs p = some a) (hpos : 0 < target)
      (hcheck : Ipc.capabilityCheck p a.ipc target ipcRightShare = true) (ht : k.procs target = some b)
      (hfree : (k.shareTable slot).used = false) (hlt : slot < configIpcMaxSharedRegions)
      (h : Linking (k.setShare slot ⟨true, p, target, addr, pages, 0⟩) p target slot r) :
      Sharing k p target addr pages r

theorem ipcShare_sharing (k : State) (p target : Pid) (addr pages : Nat) :
    Sharing k p target addr pages (ipcShare k p target addr pages) := by
  unfold ipcShare
  split
  · exact .refused
  split
  · exact .refused
  rename_i hargs
  split
  · exact .refused
  dsimp only
  split
  · exact .refused
  split
  · exact .refused
  rename_i hp
  split
  · exact .refused
  rename_i hcheck
  split
  · exact .refused
  rename_i htarget
  split
  · exact .refused
  rename_i slot hslot
  have hfree := find?_some hslot
  have hlt := mem_range.mp (mem_of_find?_eq_some hslot)
  refine .tried hp (not_le.mp (fun h => hargs (.inl h))) (by simpa using hcheck)
    (processLookup_some htarget) (by simpa using hfree) hlt ?_
  split
  · exact .undone (.inl rfl)
  · rename_i k₁ h₁
    split
    · exact .undone (.inr h₁)
    · rename_i k₂ h₂
      exact .made h₁ h₂

theorem Booked.ipcShare {k : State} (hb : Booked k) (p target : Pid) (addr pages : Nat) :
    Booked (ipcShare k p target addr pages).1 := by
  have hsharing := ipcShare_sharing k p target addr pages
  generalize Kernel.ipcShare k p target addr pages = r at hsharing ⊢
  cases hsharing with
  | refused => exact hb
  | @tried slot a b _ hp _ _ ht hfree hlt h =>
  generalize hk₀ : k.setShare slot ⟨true, p, target, addr, pages, 0⟩ = k₀ at h
  have honly₀ : ShareOnly k k₀ := by rw [← hk₀]; exact .setShare _ _ _
  have hcount₀ : ∀ q i, k₀.linkCount q i = k.linkCount q i := by
    intro q i
    rw [← hk₀]
    rfl
  have htable₀ : ∀ j, k₀.shareTable j = if j = slot then ⟨true, p, target, addr, pages, 0⟩ else k.shareTable j := by
    intro j
    rw [← hk₀, setShare_table]
  have hzero : ∀ q, (k.procs q).isSome = true → k.linkCount q slot = 0 := by
    intro q hq
    rw [hb.linked.links q slot hq, parties_unused hfree]
  have hcount₁ {k₁ : State} (h₁ : k₀.attach p slot = some k₁) (q : Pid) (i : Nat) :
      k₁.linkCount q i = k.linkCount q i + if q = p ∧ i = slot then 1 else 0 := by
    rw [attach_linkCount h₁, hcount₀]
    simp only [Int.natCast_inj]
  cases h with
  | @undone k' h =>
    -- giving up frees the record and takes back whatever link was made
    have honly : ShareOnly k k' := by
      rcases h with rfl | h₁
      · exact honly₀
      · exact honly₀.trans (.attach h₁)
    have htab (j : Nat) : k'.shareTable j =
        if j = slot then ⟨true, p, target, addr, pages, 0⟩ else k.shareTable j := by
      rcases h with rfl | h₁
      · exact htable₀ j
      · rw [attach_shares h₁]
        exact htable₀ j
    have hcount (q : Pid) (i : Nat) : k.linkCount q i ≤ k'.linkCount q i ∧
        k'.linkCount q i ≤ k.linkCount q i + if q = p ∧ i = slot then 1 else 0 := by
      rcases h with rfl | h₁
      · rw [hcount₀]
        omega
      · rw [hcount₁ h₁]
        omega
    refine (honly.trans (unshare_only k' p target slot)).booked hb ⟨?_, ?_⟩
    · intro i hi
      rw [unshare_table, htab] at hi
      rw [unshare_table, htab, (unshare_only k' p target slot).nextPid, honly.nextPid]
      split_ifs at hi ⊢ with he
      · cases hi
      · exact hb.linked.parties i hi
    · intro q i hq
      rw [(unshare_only k' p target slot).isSome, honly.isSome] at hq
      rw [unshare_linkCount (honly.numbered hb.numbered), unshare_table, htab]
      have hle := hcount q i
      by_cases hi : i = slot
      · subst hi
        rw [hzero q hq] at hle
        simp only [and_true, if_true, noShare_parties] at hle ⊢
        omega
      · have hlinks := hb.linked.links q i hq
        simp only [hi, and_false, if_false] at hle ⊢
        omega
  | @made k₁ k₂ h₁ h₂ =>
    have honly₂ := (honly₀.trans (.attach h₁)).trans (.attach h₂)
    have htab : k₂.shareTable = k₀.shareTable := (attach_shares h₂).trans (attach_shares h₁)
    refine honly₂.booked hb ⟨?_, ?_⟩
    · intro i hi
      rw [htab, htable₀] at hi ⊢
      rw [honly₂.nextPid]
      split_ifs at hi ⊢ with he
      · exact ⟨he ▸ hlt, (hb.numbered.pids p a hp).2, (hb.numbered.pids target b ht).2⟩
      · exact hb.linked.parties i hi
    · intro q i hq
      rw [honly₂.isSome] at hq
      rw [attach_linkCount h₂, hcount₁ h₁, htab, htable₀]
      simp only [Int.natCast_inj]
      by_cases hi : i = slot
      · subst hi
        rw [hzero q hq, if_pos rfl, parties_new]
        simp only [and_true]
        omega
      · rw [if_neg hi, hb.linked.links q i hq]
        simp [hi]

end ProOS.Kernel
