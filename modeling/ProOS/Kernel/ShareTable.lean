import ProOS.Kernel.Cleanup

namespace ProOS.Kernel

open ProOS.Framework Function Option List

/-! ## Link tables -/

/-- A link table as it is kept: places are blank or refer to a record, and the count is right. -/
structure LinkRow (a : Proc) : Prop where
  ids : ∀ j, (a.ipcShares j).used = true → ∃ i : Nat, (a.ipcShares j).shareId = i
  blank : ∀ j, (a.ipcShares j).used = false → a.ipcShares j = ⟨false, -1⟩
  count : a.ipcShareCount =
    (List.range configIpcMaxSharedPerProc).countP (fun j => (a.ipcShares j).used)

variable {j : Nat} {links : Nat → ShareLink} {k k' : State} {a : Proc}

section Rows

variable {a b : Proc} {i : Nat}

theorem LinkRow.of_links (h : LinkRow a) (hs : b.ipcShares = a.ipcShares)
    (hc : b.ipcShareCount = a.ipcShareCount) : LinkRow b := by
  refine ⟨?_, ?_, ?_⟩
  · rw [hs]
    exact h.ids
  · rw [hs]
    exact h.blank
  · rw [hs, hc]
    exact h.count

theorem LinkRow.cleared (hs : b.ipcShares = clearLinks) (hc : b.ipcShareCount = 0) : LinkRow b := by
  refine ⟨?_, ?_, ?_⟩
  · rw [hs]
    intro j hj
    cases hj
  · rw [hs]
    exact fun _ _ => rfl
  · rw [hs, hc]
    rfl

theorem countP_used_update (links : Nat → ShareLink) (hj : j < configIpcMaxSharedPerProc) (l : ShareLink) :
    (List.range configIpcMaxSharedPerProc).countP (fun x => (update links j l x).used) +
        (if (links j).used then 1 else 0) =
      (List.range configIpcMaxSharedPerProc).countP (fun x => (links x).used) + (if l.used then 1 else 0) := by
  have hc := countP_change nodup_range (mem_range.mpr hj)
    (f := fun x => (links x).used) (g := fun x => (update links j l x).used)
    (fun x hx => by rw [update_of_ne hx])
  simpa using hc

theorem freeLink_some (h : freeLink links = some j) : j < configIpcMaxSharedPerProc ∧ (links j).used = false := by
  have hfree := find?_some h
  exact ⟨mem_range.mp (mem_of_find?_eq_some h), by simpa using hfree⟩

theorem linkTo_some {shareId : Int} (h : linkTo links shareId = some j) :
    j < configIpcMaxSharedPerProc ∧ (links j).used = true ∧ (links j).shareId = shareId := by
  have hlink := find?_some h
  exact ⟨mem_range.mp (mem_of_find?_eq_some h), by simpa using hlink⟩

theorem linkTo_none {shareId : Int} (h : linkCount links shareId = 0) : linkTo links shareId = none := by
  exact find?_eq_none.mpr (countP_eq_zero.mp h)

theorem LinkRow.count_lt (h : LinkRow a) (hj : freeLink a.ipcShares = some j) :
    a.ipcShareCount < configIpcMaxSharedPerProc := by
  obtain ⟨hlt, hfree⟩ := freeLink_some hj
  have hc := countP_used_update a.ipcShares hlt ⟨true, 0⟩
  have hle := countP_le_length (l := List.range configIpcMaxSharedPerProc)
    (p := fun x => (update a.ipcShares j ⟨true, 0⟩ x).used)
  rw [length_range] at hle
  rw [hfree, ← h.count] at hc
  simp only [Bool.false_eq_true, if_false, if_true] at hc
  omega

theorem LinkRow.attach (h : LinkRow a) (hb : shareAttachToProcess a i = some b) : LinkRow b := by
  obtain ⟨j, hj, rfl⟩ := map_eq_some_iff.mp hb
  obtain ⟨hlt, hfree⟩ := freeLink_some hj
  refine ⟨?_, ?_, ?_⟩
  · intro x hx
    by_cases hxj : x = j
    · exact ⟨i, by simp [hxj]⟩
    · simp only [update_of_ne hxj] at hx ⊢
      exact h.ids x hx
  · intro x hx
    by_cases hxj : x = j
    · simp [hxj] at hx
    · simp only [update_of_ne hxj] at hx ⊢
      exact h.blank x hx
  · have hc := countP_used_update a.ipcShares hlt ⟨true, i⟩
    have hroom := h.count_lt hj
    rw [hfree, ← h.count] at hc
    simp only [Bool.false_eq_true, if_false, if_true] at hc
    simp only [if_pos hroom]
    omega

theorem LinkRow.detach (h : LinkRow a) (shareId : Int) : LinkRow (shareDetachFromProcess a shareId) := by
  unfold shareDetachFromProcess
  cases hl : linkTo a.ipcShares shareId with
  | none => exact h
  | some j =>
    obtain ⟨hlt, hused, -⟩ := linkTo_some hl
    refine ⟨?_, ?_, ?_⟩
    · intro x hx
      by_cases hxj : x = j
      · simp [hxj] at hx
      · simp only [update_of_ne hxj] at hx ⊢
        exact h.ids x hx
    · intro x hx
      by_cases hxj : x = j
      · simp [hxj]
      · simp only [update_of_ne hxj] at hx ⊢
        exact h.blank x hx
    · have hc := countP_used_update a.ipcShares hlt ⟨false, -1⟩
      rw [hused, ← h.count] at hc
      simp only [Bool.false_eq_true, if_false, if_true] at hc
      dsimp only
      omega

theorem detach_absent (h : linkCount a.ipcShares i = 0) : shareDetachFromProcess a i = a := by
  rw [shareDetachFromProcess, linkTo_none h]

theorem LinkRow.detach_attach (h : LinkRow a) (hnone : linkCount a.ipcShares i = 0)
    (hb : shareAttachToProcess a i = some b) : shareDetachFromProcess b i = a := by
  obtain ⟨j, hj, rfl⟩ := map_eq_some_iff.mp hb
  obtain ⟨hlt, hfree⟩ := freeLink_some hj
  have hroom := h.count_lt hj
  have hlink : linkTo (update a.ipcShares j ⟨true, i⟩) i = some j := by
    cases hl : linkTo (update a.ipcShares j ⟨true, i⟩) i with
    | none =>
      have hno := find?_eq_none.mp hl j (mem_range.mpr hlt)
      simp at hno
    | some x =>
      obtain ⟨hx, hu, hid⟩ := linkTo_some hl
      by_cases hxj : x = j
      · rw [hxj]
      · -- a link elsewhere was there before
        rw [update_of_ne hxj] at hu hid
        have hno := countP_eq_zero.mp hnone x (mem_range.mpr hx)
        simp [hu, hid] at hno
  have hback : update (update a.ipcShares j ⟨true, i⟩) j ⟨false, -1⟩ =
      a.ipcShares := by
    rw [update_idem, ← h.blank j hfree, update_eq_self]
  unfold shareDetachFromProcess
  simp only [hlink, hback, if_pos hroom, Nat.add_sub_cancel]

end Rows

/-! ## The tables as a whole -/

/-- Every record has its parties among the processes, and unused places are blank. -/
structure Accounted (k : State) : Prop where
  live : ∀ i, (k.shareTable i).used = true →
    (k.procs (k.shareTable i).owner).isSome ∧ (k.procs (k.shareTable i).target).isSome
  spare : ∀ i, (k.shareTable i).used = false → k.shareTable i = noShare
  rows : ∀ q a, k.procs q = some a → LinkRow a

theorem Accounted.of_links (ha : Accounted k) (hs : k'.shareTable = k.shareTable)
    (hl : ∀ q, (k'.procs q).map Proc.links = (k.procs q).map Proc.links) : Accounted k' where
  live := by
    have hsome (q : Pid) : (k'.procs q).isSome = (k.procs q).isSome := by
      rw [← isSome_map (f := Proc.links), hl, isSome_map]
    intro i hi
    rw [hs] at hi ⊢
    rw [hsome, hsome]
    exact ha.live i hi
  spare := by
    rw [hs]
    exact ha.spare
  rows := by
    intro q b hb
    have he := hl q
    rw [hb, map_some] at he
    obtain ⟨a, hq, hab⟩ := map_eq_some_iff.mp he.symm
    exact (ha.rows q a hq).of_links (Prod.mk.inj hab).1.symm (Prod.mk.inj hab).2.symm

theorem Accounted.keeps (ha : Accounted k) (h : Keeps k k') : Accounted k' :=
  ha.of_links h.shares h.links

theorem Accounted.setService (ha : Accounted k) (i : Nat) (e : ServiceEntry) : Accounted (k.setService i e) :=
  ha.of_links rfl (fun _ => rfl)

section Moves

variable {p target : Pid} {slot : Nat}

theorem Accounted.absent (hb : Booked k) (hfree : (k.shareTable slot).used = false)
    (hp : k.procs p = some a) : linkCount a.ipcShares slot = 0 := by
  rw [← linkCount_of hp, hb.linked.links p slot (by rw [hp]; rfl), parties_unused hfree]

theorem setProc_self (hp : k.procs p = some a) : k.setProc p (some a) = k := by
  rw [State.setProc, ← hp, update_eq_self]

theorem setProc_setProc (a b : Option Proc) : (k.setProc p a).setProc p b = k.setProc p b := by
  simp [State.setProc]

theorem detach_of_absent (h : ∀ a, k.procs p = some a → linkCount a.ipcShares slot = 0) : k.detach p slot = k := by
  unfold State.detach
  split
  · rfl
  · rename_i a ha
    have hp := processLookup_some ha
    rw [detach_absent (h a hp), setProc_self hp]

theorem detach_of_attach (hrow : ∀ a, k.procs p = some a → LinkRow a)
    (hnone : ∀ a, k.procs p = some a → linkCount a.ipcShares slot = 0) (hpos : 0 < p)
    (h : k.attach p slot = some k') : k'.detach p slot = k := by
  unfold State.attach at h
  split at h
  · cases h
  · rename_i a ha
    obtain ⟨b, hb, rfl⟩ := map_eq_some_iff.mp h
    have hlook : processLookup (k.setProc p (some b)) p = some b := by
      rw [processLookup, if_neg (not_le.mpr hpos), setProc_lookup, if_pos rfl]
    rw [State.detach, hlook]
    simp only [(hrow a ha).detach_attach (hnone a ha) hb]
    rw [setProc_setProc, setProc_self ha]

theorem Accounted.rows_detach (hrow : ∀ q a, k.procs q = some a → LinkRow a) (p : Pid) (shareId : Int) :
    ∀ q a, (k.detach p shareId).procs q = some a → LinkRow a := by
  intro q a hq
  unfold State.detach at hq
  split at hq
  · exact hrow q a hq
  · rename_i b hb
    rw [setProc_lookup] at hq
    split_ifs at hq with hqp
    · cases hq
      exact (hrow p b (processLookup_some hb)).detach shareId
    · exact hrow q a hq

theorem Accounted.rows_attach (hrow : ∀ q a, k.procs q = some a → LinkRow a)
    (h : k.attach p slot = some k') : ∀ q a, k'.procs q = some a → LinkRow a := by
  intro q a hq
  unfold State.attach at h
  split at h
  · cases h
  · rename_i b hb
    obtain ⟨c, hc, rfl⟩ := map_eq_some_iff.mp h
    rw [setProc_lookup] at hq
    split_ifs at hq with hqp
    · cases hq
      exact (hrow p b hb).attach hc
    · exact hrow q a hq

theorem Accounted.unshare (h : Accounted k) (p target : Pid) (slot : Nat) :
    Accounted (k.unshare p target slot) where
  live := by
    intro i hi
    rw [unshare_table] at hi
    rw [unshare_table, (unshare_only k p target slot).isSome, (unshare_only k p target slot).isSome]
    split_ifs at hi ⊢ with he
    · cases hi
    · exact h.live i hi
  spare := by
    intro i hi
    rw [unshare_table] at hi ⊢
    split_ifs at hi ⊢ with he
    · rfl
    · exact h.spare i hi
  rows := by
    exact Accounted.rows_detach (Accounted.rows_detach h.rows p slot) target slot

theorem Accounted.drops (h : Accounted k) (pid : Pid) (l : List Nat) : Accounted (l.foldl (shareDropAt pid) k) := by
  induction l generalizing k with
  | nil => exact h
  | cons i l ih =>
    apply ih
    rw [shareDropAt_eq]
    split_ifs
    · exact h.unshare _ _ _
    · exact h

theorem Accounted.shareDrop (h : Accounted k) (pid : Pid) : Accounted (shareDropForPid k pid) := by
  unfold shareDropForPid
  split_ifs
  · exact h
  · exact h.drops pid _

theorem Accounted.clear (h : Accounted k) {b : Proc} (hp : k.procs p = some a)
    (hs : b.ipcShares = clearLinks) (hc : b.ipcShareCount = 0) : Accounted (k.setProc p (some b)) where
  live := by
    intro i hi
    have hsome : ∀ q, ((k.setProc p (some b)).procs q).isSome = (k.procs q).isSome := by
      intro q
      rw [setProc_lookup]
      split_ifs with hq
      · rw [hq, hp]
        rfl
      · rfl
    rw [hsome, hsome]
    exact h.live i hi
  spare := h.spare
  rows := by
    intro q c hq
    rw [setProc_lookup] at hq
    split_ifs at hq with hqp
    · cases hq
      exact LinkRow.cleared hs hc
    · exact h.rows q c hq

end Moves

/-! ## ipc_share -/

theorem ipcShare_cases (hb : Booked k) (ha : Accounted k) (p target : Pid) (addr pages : Nat) :
    ipcShare k p target addr pages = (k, -1) ∨ ∃ slot k₁ k₂ a b, k.procs p = some a ∧ k.procs target = some b ∧
        (k.shareTable slot).used = false ∧ (k.setShare slot ⟨true, p, target, addr, pages, 0⟩).attach p slot = some k₁ ∧
        k₁.attach target slot = some k₂ ∧ ipcShare k p target addr pages = (k₂, 0) := by
  have hsharing := ipcShare_sharing k p target addr pages
  generalize ipcShare k p target addr pages = r at hsharing ⊢
  cases hsharing with
  | refused => exact .inl rfl
  | @tried slot a b _ hp _ _ ht hfree _ h =>
  cases h with
  | made h₁ h₂ => exact .inr ⟨slot, _, _, a, b, hp, ht, hfree, h₁, h₂, rfl⟩
  | undone h =>
    generalize hk₀ : k.setShare slot ⟨true, p, target, addr, pages, 0⟩ = k₀ at h
    have hprocs : k₀.procs = k.procs := by rw [← hk₀]; rfl
    have hrow : ∀ q a, k₀.procs q = some a → LinkRow a := by rw [hprocs]; exact ha.rows
    have hnone : ∀ q a, k₀.procs q = some a → linkCount a.ipcShares slot = 0 := by
      rw [hprocs]
      exact fun q a hq => Accounted.absent hb hfree hq
    -- the record goes back to what an unused one is
    have hundo : (k₀.detach target slot).setShare slot noShare = k := by
      rw [detach_of_absent (hnone target), ← hk₀, ← ha.spare slot hfree]
      simp [State.setShare]
    rcases h with rfl | h₁
    · rw [State.unshare, detach_of_absent (hnone p), hundo]
      exact .inl rfl
    · rw [State.unshare, detach_of_attach (hrow p) (hnone p) (hb.numbered.pids p a hp).1 h₁, hundo]
      exact .inl rfl

theorem Accounted.ipcShare (hb : Booked k) (ha : Accounted k) (p target : Pid)
    (addr pages : Nat) : Accounted (ipcShare k p target addr pages).1 := by
  rcases ipcShare_cases hb ha p target addr pages with
    h | ⟨slot, k₁, k₂, a, b, hp, ht, hfree, h₁, h₂, h⟩
  · rw [h]
    exact ha
  · rw [h]
    have hsome : ∀ q, (k₂.procs q).isSome = (k.procs q).isSome := fun q =>
      ((ShareOnly.attach h₂).isSome q).trans ((ShareOnly.attach h₁).isSome q)
    have htable : ∀ i, k₂.shareTable i =
        if i = slot then ⟨true, p, target, addr, pages, 0⟩ else k.shareTable i := by
      intro i
      rw [attach_shares h₂, attach_shares h₁, setShare_table]
    refine ⟨?_, ?_, ?_⟩
    · intro i hi
      rw [htable] at hi ⊢
      rw [hsome, hsome]
      split_ifs at hi ⊢ with he
      · simp [hp, ht]
      · exact ha.live i hi
    · intro i hi
      rw [htable] at hi ⊢
      split_ifs at hi ⊢ with he
      · exact ha.spare i hi
    · have hrow₀ : ∀ q c, (k.setShare slot ⟨true, p, target, addr, pages, 0⟩).procs q = some c →
          LinkRow c := ha.rows
      exact Accounted.rows_attach (Accounted.rows_attach hrow₀ h₁) h₂

/-! ## Creation and exit -/

section Leaving

variable {p : Pid}

theorem Accounted.processCreate (ha : Accounted k) (kind : ThreadKind)
    (memory : Ipc.Mailbox) : Accounted (processCreate k kind memory).1 := by
  unfold Kernel.processCreate
  split_ifs
  · have hlook : ∀ q, (k.setProc k.nextPid (some (freshProc kind memory))).procs q =
        if q = k.nextPid then some (freshProc kind memory) else k.procs q :=
      fun q => setProc_lookup _ _ _ _
    have hmono : ∀ q, (k.procs q).isSome = true →
        ((k.setProc k.nextPid (some (freshProc kind memory))).procs q).isSome = true := by
      intro q hq
      rw [hlook]
      split_ifs
      · rfl
      · exact hq
    refine ⟨fun i hi => ⟨hmono _ (ha.live i hi).1, hmono _ (ha.live i hi).2⟩, ha.spare, ?_⟩
    intro q b hq
    have hq' := (hlook q).symm.trans hq
    split_ifs at hq'
    · cases hq'
      exact LinkRow.cleared rfl rfl
    · exact ha.rows q b hq'
  · exact ha

theorem Accounted.serviceStart (ha : Accounted k) (service : Nat)
    (memory : Ipc.Mailbox) : Accounted (serviceStart k service memory).1 := by
  have hcreate := ha.processCreate .user memory
  unfold Kernel.serviceStart
  iterate 3
    split
    · exact ha
  dsimp only
  split
  · exact hcreate.setService _ _
  · exact hcreate

theorem Accounted.serviceGrant (hb : Booked k) (ha : Accounted k) (requester : Pid) (service : Nat)
    (rights : UInt32) (memory : Ipc.Mailbox) :
    Accounted (serviceGrantCapabilities k requester service rights memory).1 := by
  have hboth := serviceGrant_rule (P := fun k => Waiting k ∧ Accounted k) requester rights ⟨hb.waiting, ha⟩
    ⟨(hb.serviceStart service memory).waiting, ha.serviceStart service memory⟩ ?_ ?_
  · exact hboth.2
  · rintro k owner target rights ⟨hw, ha⟩
    have hturn := Turn.capEdit hw (Ipc.ipcCapGrant_edit k.ipc owner target rights)
    exact ⟨hturn.waiting, ha.keeps hturn.toKeeps⟩
  · rintro k e ⟨hw, ha⟩ -
    exact ⟨hw.of_same (fun _ => rfl) rfl rfl rfl, ha.setService service e⟩

theorem Accounted.ipcDetachProcess (ha : Accounted k) (hp : k.procs p = some a) :
    Accounted (ipcDetachProcess k p a) := by
  unfold Kernel.ipcDetachProcess
  dsimp only
  have h₁ : Accounted (k.setProc p (some { a with mailbox := Ipc.mailboxInit a.mailbox, caps := clearCaps,
                                                  capCount := 0 })) :=
    ha.keeps (.set hp rfl)
  generalize k.setProc p _ = k₁ at h₁ ⊢
  have h₂ : Accounted (if k₁.initialized then shareDropForPid k₁ p else k₁) := by
    split
    · exact h₁.shareDrop p
    · exact h₁
  generalize (if k₁.initialized then shareDropForPid k₁ p else k₁) = k₂ at h₂ ⊢
  split
  · exact h₂
  · rename_i b hbp
    exact h₂.clear hbp rfl rfl

theorem Accounted.serviceHandleExit (ha : Accounted k) (pid : Pid) : Accounted (serviceHandleExit k pid) := by
  unfold Kernel.serviceHandleExit
  split
  · exact ha
  · split
    · exact ha
    · exact ha.setService _ _

theorem Accounted.ipcProcessCleanup (ha : Accounted k) (hp : k.procs p = some a) :
    Accounted (ipcProcessCleanup k p a) := by
  have h₁ := ha.ipcDetachProcess hp
  unfold Kernel.ipcProcessCleanup
  dsimp only
  generalize Kernel.ipcDetachProcess k p a = k₁ at h₁ ⊢
  split
  · exact h₁
  · rename_i b hbp
    have hrest := channelDrops_rest p b.channelSlots k₁
    generalize b.channelSlots.foldl (channelDrop p) k₁ = k₂ at hrest ⊢
    have hprocs : k₂.procs = k₁.procs := (congrArg State.procs hrest :)
    have h₂ : Accounted k₂ := h₁.of_links (congrArg State.shareTable hrest :) (fun q => by rw [hprocs])
    exact h₂.keeps (.set (hprocs.symm ▸ hbp : k₂.procs p = some b) rfl)

theorem Accounted.processExit (hb : Booked k) (ha : Accounted k) (hp : k.procs p = some a) (hf : a.Free)
    (posts : List Post) : Accounted (processExit k p a posts) := by
  have hgone := departed hb hp hf
  rw [processExit_posts]
  refine Accounted.keeps ?_ (Posted.posts hgone.booked.waiting (some p) posts).toKeeps
  have h₁ := (ha.ipcProcessCleanup hp).serviceHandleExit p
  unfold Kernel.processExit
  dsimp only [foldl_nil]
  split
  · exact h₁
  · rename_i b hbp
    exact h₁.keeps (.set hbp rfl)

theorem Accounted.remove (ha : Accounted k) (hno : ∀ i, ¬(k.shareTable i).Names p) (n : Nat) :
    Accounted { k.setProc p none with processCount := n } := by
  have hlook : ∀ q, (k.setProc p none).procs q = if q = p then none else k.procs q :=
    fun q => setProc_lookup _ _ _ _
  refine ⟨?_, ha.spare, ?_⟩
  · intro i hi
    have hused : (k.shareTable i).used = true := hi
    have howner : (k.shareTable i).owner ≠ p := fun he => hno i ⟨hused, .inl he⟩
    have htarget : (k.shareTable i).target ≠ p := fun he => hno i ⟨hused, .inr he⟩
    have h := ha.live i hused
    show ((k.setProc p none).procs (k.shareTable i).owner).isSome ∧
      ((k.setProc p none).procs (k.shareTable i).target).isSome
    rw [hlook, hlook, if_neg howner, if_neg htarget]
    exact h
  · intro q b hq
    have hq' := (hlook q).symm.trans hq
    split_ifs at hq'
    exact ha.rows q b hq'

end Leaving

/-! ## Whole calls -/

/-- A call of the kernel that runs to its end, or to the point where it blocks: `process_exit` goes on
into the scheduler, which reclaims the process before it runs another. -/
inductive Call
  | action (x : Action)
  | exit (p : Pid) (posts : List Post)

/-- Actions that are a call by themselves. -/
def Action.whole : Action → Bool
  | .exit .. => false
  | .reclaim .. => false
  | _ => true

def call (k : State) : Call → Option State
  | .action x => if x.whole then act k x else none
  | .exit p posts => (act k (.exit p posts)).bind (fun k => act k (.reclaim p))

abbrev Calls : State → List Call → State → Prop := Exec (Performs (labelled call))

theorem Booked.call (hb : Booked k) {x : Call} (h : call k x = some k') : Booked k' := by
  cases x with
  | action x =>
    simp only [Kernel.call] at h
    split_ifs at h
    exact hb.act h
  | exit p posts =>
    obtain ⟨k₁, h₁, h₂⟩ := bind_eq_some_iff.mp h
    exact (hb.act h₁).act h₂

theorem Accounted.action (hb : Booked k) (ha : Accounted k) {x : Action}
    (hx : x.whole = true) (h : act k x = some k') : Accounted k' := by
  cases hb.acted h with
  | kept h _ => exact ha.keeps h
  | create kind memory => exact ha.processCreate kind memory
  | share p target addr pages => exact Accounted.ipcShare hb ha p target addr pages
  | serviceRegister service defaultRights =>
    unfold serviceRegister
    split
    · exact ha
    · exact ha.setService _ _
  | serviceStart service memory => exact ha.serviceStart service memory
  | serviceGrant requester service rights memory => exact .serviceGrant hb ha requester service rights memory
  | exit => cases hx
  | reclaim => cases hx

theorem Accounted.call (hb : Booked k) (ha : Accounted k) {x : Call} (h : call k x = some k') : Accounted k' := by
  cases x with
  | action x =>
    simp only [Kernel.call] at h
    split_ifs at h with hx
    exact Accounted.action hb ha hx h
  | exit p posts =>
    obtain ⟨k₁, h₁, h₂⟩ := bind_eq_some_iff.mp h
    obtain ⟨a, hfree, rfl⟩ := map_eq_some_iff.mp h₁
    obtain ⟨hp, hf⟩ := free_some hfree
    have hgone := departed_posts hb hp hf posts
    have ha₁ := Accounted.processExit hb ha hp hf posts
    simp only [Kernel.act] at h₂
    split at h₂
    · cases h₂
    · split at h₂
      · cases h₂
        exact ha₁.remove hgone.shares _
      · cases h₂

theorem boot_accounted (memory : Channel.Index → Channel.IpcChannel) : Accounted (boot memory) :=
  ⟨fun _ h => (nomatch h), fun _ _ => rfl, fun _ _ h => nomatch h⟩

theorem Calls.booked {memory : Channel.Index → Channel.IpcChannel} {tr : List Call}
    (hrun : Calls (boot memory) tr k) : Booked k ∧ Accounted k :=
  hrun.invariant (P := fun k => Booked k ∧ Accounted k) ⟨boot_booked memory, boot_accounted memory⟩
    (fun _ _ _ h hstep =>
      ⟨h.1.call (performs_labelled.mp hstep), Accounted.call h.1 h.2 (performs_labelled.mp hstep)⟩)

/-! ## What the tables say of each other -/

end ProOS.Kernel
