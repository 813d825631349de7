import ProOS.Ipc.Authority
import ProOS.Kernel.Cleanup

/-! Capabilities, messages and shared regions stay within a relation of who may reach whom. -/

namespace ProOS.Kernel

open ProOS.Framework Option List

structure State.Within (A : Pid → Pid → Prop) (k : State) : Prop where
  procs : ∀ p a, k.procs p = some a → a.ipc.Within A p
  shares : ∀ i, (k.shareTable i).used = true → A (k.shareTable i).owner (k.shareTable i).target

/-- Only a registered service has a pid. -/
def State.Registered (k : State) : Prop :=
  ∀ i, 0 < (k.serviceTable i).pid → (k.serviceTable i).registered = true

/-- No process is new, and what one has gained is in `A`. -/
structure Passes (A : Pid → Pid → Prop) (k k' : State) : Prop where
  next : k'.nextPid = k.nextPid
  procs : ∀ p b, k'.procs p = some b → ∃ a, k.procs p = some a ∧ Ipc.Inherits A p a.ipc b.ipc
  shares : ∀ i, (k'.shareTable i).used = true → k'.shareTable i = k.shareTable i ∨
    A (k'.shareTable i).owner (k'.shareTable i).target
  services : k.Registered → k'.Registered

section Relations

variable {A : Pid → Pid → Prop} {k k' k'' : State} {p : Pid} {a b : Proc}

theorem Passes.refl (A : Pid → Pid → Prop) (k : State) : Passes A k k :=
  ⟨rfl, fun p a ha => ⟨a, ha, .refl A p a.ipc⟩, fun _ _ => .inl rfl, id⟩

theorem Passes.trans (h : Passes A k k') (h' : Passes A k' k'') : Passes A k k'' where
  next := h'.next.trans h.next
  procs := by
    intro p c hc
    obtain ⟨b, hb, hbc⟩ := h'.procs p c hc
    obtain ⟨a, ha, hab⟩ := h.procs p b hb
    exact ⟨a, ha, hab.trans hbc⟩
  shares := by
    intro i hi
    rcases h'.shares i hi with he | hA
    · rw [he] at hi ⊢
      exact h.shares i hi
    · exact .inr hA
  services := h'.services ∘ h.services

theorem State.Within.passes (hk : k.Within A) (h : Passes A k k') : k'.Within A where
  procs := by
    intro p b hb
    obtain ⟨a, ha, hab⟩ := h.procs p b hb
    exact (hk.procs p a ha).inherits hab
  shares := by
    intro i hi
    rcases h.shares i hi with he | hA
    · rw [he] at hi ⊢
      exact hk.shares i hi
    · exact hA

theorem State.Within.ipc (hk : k.Within A) : k.ipc.Within A := by
  intro p b hb
  obtain ⟨a, ha, rfl⟩ := map_eq_some_iff.mp hb
  exact hk.procs p a ha

theorem Passes.set (hp : k.procs p = some a) (h : Ipc.Inherits A p a.ipc b.ipc) :
    Passes A k (k.setProc p (some b)) where
  next := rfl
  procs := by
    intro q c hc
    rw [setProc_lookup] at hc
    split_ifs at hc with hq
    · cases hc
      rw [hq]
      exact ⟨a, hp, h⟩
    · exact ⟨c, hc, .refl A q c.ipc⟩
  shares := fun _ _ => .inl rfl
  services := id

theorem Passes.setIpc {s : Ipc.State} (h : Ipc.Passes A k.ipc s) : Passes A k (k.setIpc s) where
  next := rfl
  procs := by
    intro p c hc
    obtain ⟨a, ha, hsome⟩ := bind_eq_some_iff.mp hc
    obtain ⟨b, hb, rfl⟩ := map_eq_some_iff.mp hsome
    obtain ⟨a', ha', hab⟩ := h p b hb
    obtain rfl : a.ipc = a' := by simpa [State.ipc, ha] using ha'
    exact ⟨a, ha, rfl, hab.caps, hab.mail⟩
  shares := fun _ _ => .inl rfl
  services := id

theorem Passes.setChannel (k : State) (s : Channel.State) : Passes A k (k.setChannel s) where
  next := rfl
  procs := by
    intro p c hc
    obtain ⟨a, ha, hsome⟩ := bind_eq_some_iff.mp hc
    obtain ⟨b, hb, rfl⟩ := map_eq_some_iff.mp hsome
    exact ⟨a, ha, .of_same rfl rfl rfl⟩
  shares := fun _ _ => .inl rfl
  services := id

theorem Passes.setSync (k : State) (s : Sync.State) : Passes A k (k.setSync s) where
  next := rfl
  procs := by
    intro p c hc
    obtain ⟨a, ha, rfl⟩ := map_eq_some_iff.mp hc
    exact ⟨a, ha, .of_same rfl rfl rfl⟩
  shares := fun _ _ => .inl rfl
  services := id

theorem Passes.setService (k : State) (i : Nat) {e : ServiceEntry}
    (he : k.Registered → 0 < e.pid → e.registered = true) : Passes A k (k.setService i e) where
  next := rfl
  procs := (Passes.refl A k).procs
  shares := fun _ _ => .inl rfl
  services := by
    intro hk j hj
    rw [setService_table] at hj ⊢
    split_ifs at hj ⊢
    · exact he hk hj
    · exact hk j hj

theorem Passes.shareOnly (h : ShareOnly k k')
    (hs : ∀ i, (k'.shareTable i).used = true → k'.shareTable i = k.shareTable i ∨
      A (k'.shareTable i).owner (k'.shareTable i).target) : Passes A k k' where
  next := h.nextPid
  procs := by
    intro p b hb
    obtain ⟨a, ha, he⟩ := h.stripped_of hb
    have hk : b.kind = a.kind := (congrArg Proc.kind he :)
    have hc : b.caps = a.caps := (congrArg Proc.caps he :)
    have hm : b.mailbox = a.mailbox := (congrArg Proc.mailbox he :)
    exact ⟨a, ha, .of_same hk hc (congrArg Ipc.Mailbox.queue hm)⟩
  shares := hs
  services := by
    intro hk i hi
    rw [h.services] at hi ⊢
    exact hk i hi

end Relations

section Operations

variable {A : Pid → Pid → Prop} {k k' : State} {p : Pid} {a : Proc}

theorem noShare_unused {r : ShareRecord} (h : r = noShare) : ¬r.used = true := by
  rw [h]
  decide

theorem Passes.shareDrop (k : State) (pid : Pid) : Passes A k (shareDropForPid k pid) := by
  unfold shareDropForPid
  split_ifs
  · exact .refl A k
  · refine .shareOnly (drops_only pid _ k) ?_
    intro i hi
    rcases (drops_table pid (List.range configIpcMaxSharedRegions) k i).2 with h | h
    · exact absurd hi (noShare_unused h)
    · exact .inl h

theorem Passes.unshare (k : State) (p target : Pid) (slot : Nat) : Passes A k (k.unshare p target slot) := by
  refine .shareOnly (unshare_only k p target slot) ?_
  intro i hi
  rw [unshare_table] at hi ⊢
  split_ifs at hi ⊢
  · exact absurd hi (noShare_unused rfl)
  · exact .inl rfl

theorem Passes.attach {shareId : Int} (h : k.attach p shareId = some k') : Passes A k k' :=
  .shareOnly (.attach h) (fun i _ => .inl (by rw [attach_shares h]))

theorem Passes.ipcShare (hA : Ipc.Closed A) (hk : k.Within A) (p target : Pid) (addr pages : Nat) :
    Passes A k (ipcShare k p target addr pages).1 := by
  have hsharing := ipcShare_sharing k p target addr pages
  generalize Kernel.ipcShare k p target addr pages = r at hsharing ⊢
  cases hsharing with
  | refused => exact .refl A k
  | @tried slot _ _ _ hp hpos hcheck _ _ _ h =>
    have hreach : A p target := (hk.procs p _ hp).reaches hA (by decide) hpos hcheck
    have hset : Passes A k (k.setShare slot ⟨true, p, target, addr, pages, 0⟩) := by
      refine .shareOnly (.setShare k slot _) ?_
      intro i hi
      rw [setShare_table] at hi ⊢
      split_ifs at hi ⊢
      · exact .inr hreach
      · exact .inl rfl
    cases h with
    | undone h =>
      rcases h with rfl | h₁
      · exact hset.trans (.unshare _ p target slot)
      · exact (hset.trans (.attach h₁)).trans (.unshare _ p target slot)
    | made h₁ h₂ => exact (hset.trans (.attach h₁)).trans (.attach h₂)

theorem Passes.post (hA : Ipc.Closed A) (hk : k.Within A) {current : Option Pid}
    (hcur : ∀ p, current = some p → (k.procs p).isSome) (m : Post) : Passes A k (k.post current m) := by
  cases m with
  | mail target msg size =>
    refine .setIpc (.ipcSend hA hk.ipc ?_ target msg size)
    intro p hp
    rw [State.ipc, isSome_map]
    exact hcur p hp
  | channel channelId header type payload size => exact .setChannel k _

theorem Passes.posts (hA : Ipc.Closed A) (hk : k.Within A) (hw : Waiting k) (hp : (k.procs p).isSome)
    (ms : List Post) : Passes A k (ms.foldl (State.post (some p)) k) := by
  induction ms generalizing k with
  | nil => exact .refl A k
  | cons m ms ih =>
    have hpost : Passes A k (k.post (some p) m) := .post hA hk (by rintro q ⟨⟩; exact hp) m
    have hposted := Posted.post hw (some p) m
    exact hpost.trans (ih (hk.passes hpost) hposted.waiting (by rwa [hposted.isSome]))

theorem Passes.channels (h : { k' with channels := k.channels } = k) : Passes A k k' where
  next := (congrArg State.nextPid h :)
  procs := by
    rw [show k'.procs = k.procs from (congrArg State.procs h :)]
    exact (Passes.refl A k).procs
  shares := by
    have hs : k'.shareTable = k.shareTable := (congrArg State.shareTable h :)
    exact fun i _ => .inl (congrFun hs i)
  services := by
    have hs : k'.serviceTable = k.serviceTable := (congrArg State.serviceTable h :)
    intro hk i
    rw [hs]
    exact hk i

theorem Passes.serviceHandleExit (k : State) (pid : Pid) : Passes A k (serviceHandleExit k pid) := by
  unfold Kernel.serviceHandleExit
  split
  · exact .refl A k
  split
  · exact .refl A k
  · exact .setService k _ (fun _ h => absurd h (by simp))

theorem Passes.cleared (hp : k.procs p = some a) :
    Passes A k (k.setProc p (some { a with mailbox := Ipc.mailboxInit a.mailbox, caps := clearCaps, capCount := 0 })) :=
  .set hp ⟨rfl, fun _ hn => absurd hn Bool.false_ne_true, fun _ hslot => absurd hslot not_mem_nil⟩

theorem Passes.ipcDetachProcess (hp : k.procs p = some a) : Passes A k (ipcDetachProcess k p a) := by
  unfold Kernel.ipcDetachProcess
  dsimp only
  have hclear : Passes A k _ := .cleared hp
  refine hclear.trans ?_
  generalize k.setProc p _ = k₁
  have hdrop : Passes A k₁ (if k₁.initialized then shareDropForPid k₁ p else k₁) := by
    split_ifs
    · exact .shareDrop k₁ p
    · exact .refl A k₁
  refine hdrop.trans ?_
  generalize (if k₁.initialized then shareDropForPid k₁ p else k₁) = k₂
  split
  · exact .refl A k₂
  · rename_i b hb
    exact .set hb (.of_same rfl rfl rfl)

theorem Passes.processExit (hb : Booked k) (hp : k.procs p = some a) (hf : a.Free) :
    Passes A k (processExit k p a []) ∧ ((processExit k p a []).procs p).isSome := by
  obtain ⟨-, ⟨b, hbp, -⟩, -⟩ := ipcDetachProcess_spec hb hp hf
  have hdetach : Passes A k (Kernel.ipcDetachProcess k p a) := .ipcDetachProcess hp
  unfold Kernel.processExit ipcProcessCleanup
  dsimp only [foldl_nil]
  generalize Kernel.ipcDetachProcess k p a = k₁ at hbp hdetach ⊢
  rw [hbp]
  simp only
  have hrest := channelDrops_rest p b.channelSlots k₁
  generalize b.channelSlots.foldl (channelDrop p) k₁ = k₂ at hrest ⊢
  have hb₂ : k₂.procs p = some b := by rw [show k₂.procs = k₁.procs from (congrArg State.procs hrest :), hbp]
  have hleft : Passes A k (k₂.setProc p (some { b with channelSlots := [], waitChannel := -1 })) :=
    (hdetach.trans (.channels hrest)).trans (.set hb₂ (.of_same rfl rfl rfl))
  have hself : (k₂.setProc p (some { b with channelSlots := [], waitChannel := -1 })).procs p =
      some { b with channelSlots := [], waitChannel := -1 } := by rw [setProc_lookup, if_pos rfl]
  generalize k₂.setProc p (some { b with channelSlots := [], waitChannel := -1 }) = k₃ at hleft hself ⊢
  have hserved : Passes A k₃ (Kernel.serviceHandleExit k₃ p) := .serviceHandleExit k₃ p
  have hprocs : (Kernel.serviceHandleExit k₃ p).procs = k₃.procs := by
    unfold Kernel.serviceHandleExit
    split
    · rfl
    · split <;> rfl
  generalize Kernel.serviceHandleExit k₃ p = k₄ at hserved hprocs ⊢
  have hself₄ := (congrFun hprocs p).trans hself
  rw [hself₄]
  simp only
  refine ⟨(hleft.trans hserved).trans (.set hself₄ (.of_same rfl rfl rfl)), ?_⟩
  rw [setProc_lookup, if_pos rfl]
  rfl

theorem Passes.capGrant {owner target : Pid} (hot : A owner target) (rights : UInt32) :
    Passes A k (capGrant k owner target rights).1 :=
  .setIpc (.ipcCapGrant hot rights)

theorem Passes.resume (hA : Ipc.Closed A) (hk : k.Within A) (hp : k.procs p = some a)
    {logs : Nat → Option Ipc.LogSend} (h : k.resume p a logs = some k') : Passes A k k' := by
  have hlook : k.ipc.procs p = some a.ipc := by simp [State.ipc, hp]
  unfold State.resume at h
  split at h
  · obtain ⟨r, hr, rfl⟩ := map_eq_some_iff.mp h
    exact .setIpc (.recvPass hA hk.ipc hlook hr)
  · cases h
    exact .setChannel k _
  · obtain ⟨r, hr, rfl⟩ := map_eq_some_iff.mp h
    exact .setSync k _
  · cases h
    exact .set hp (.of_same rfl rfl rfl)
  · cases h

end Operations

/-- At most one process is new. -/
inductive Creates (k : State) : State → Prop
  | none : Creates k k
  | proc (kind : ThreadKind) (memory : Ipc.Mailbox) : Creates k (processCreate k kind memory).1

theorem processCreate_services (k : State) (kind : ThreadKind) (memory : Ipc.Mailbox) :
    (processCreate k kind memory).1.serviceTable = k.serviceTable := by
  unfold processCreate
  split <;> rfl

section Services

variable {A : Pid → Pid → Prop} (k : State)

theorem serviceStart_passes (service : Nat) (memory : Ipc.Mailbox) :
    ∃ k₁, Creates k k₁ ∧ Passes A k₁ (serviceStart k service memory).1 := by
  unfold serviceStart
  split
  · exact ⟨k, .none, .refl A k⟩
  split
  · exact ⟨k, .none, .refl A k⟩
  rename_i hreg
  split
  · exact ⟨k, .none, .refl A k⟩
  dsimp only
  refine ⟨_, .proc .user memory, ?_⟩
  split
  · refine .setService _ service (fun _ _ => ?_)
    rw [processCreate_services]
    simpa using hreg
  · exact .refl A _

theorem serviceGrant_passes (requester : Pid) (service : Nat) (rights : UInt32) (memory : Ipc.Mailbox)
    (hsvc : ∀ i, 0 < ((serviceGrantCapabilities k requester service rights memory).1.serviceTable i).pid →
      ∀ q, A ((serviceGrantCapabilities k requester service rights memory).1.serviceTable i).pid q ∧
        A q ((serviceGrantCapabilities k requester service rights memory).1.serviceTable i).pid) :
    ∃ k₁, Creates k k₁ ∧ Passes A k₁ (serviceGrantCapabilities k requester service rights memory).1 := by
  revert hsvc
  unfold serviceGrantCapabilities
  split
  · exact fun _ => ⟨k, .none, .refl A k⟩
  split
  · exact fun _ => ⟨k, .none, .refl A k⟩
  dsimp only
  generalize hstarted : (if (k.serviceTable service).pid ≤ 0 then serviceStart k service memory
    else (k, (k.serviceTable service).pid)) = started
  have hstart : ∃ k₁, Creates k k₁ ∧ Passes A k₁ started.1 := by
    rw [← hstarted]
    split
    · exact serviceStart_passes k service memory
    · exact ⟨k, .none, .refl A k⟩
  obtain ⟨k₁, hnew, hpass⟩ := hstart
  split
  · exact fun _ => ⟨k₁, hnew, hpass⟩
  split
  · exact fun _ => ⟨k₁, hnew, hpass⟩
  rename_i hpid
  have hpos := not_le.mp hpid
  have hgrant : ∀ {k₂ : State}, Passes A k₁ k₂ → ∀ {owner target : Pid}, A owner target →
      Passes A k₁ (capGrant k₂ owner target ((k.serviceTable service).rightsDefault ||| rights)).1 :=
    fun h _ _ hot => h.trans (.capGrant hot _)
  split
  · intro hsvc
    exact ⟨k₁, hnew, hgrant hpass (hsvc service hpos requester).2⟩
  split
  · intro hsvc
    have hboth := hsvc service hpos requester
    exact ⟨k₁, hnew, hgrant (hgrant hpass hboth.2) hboth.1⟩
  split
  · intro hsvc
    have hboth := hsvc service
    rw [setService_table, if_pos rfl] at hboth
    have hboth := hboth hpos requester
    refine ⟨k₁, hnew, (hgrant (hgrant hpass hboth.2) hboth.1).trans (.setService _ service ?_)⟩
    exact fun hreg => hreg service
  · intro hsvc
    have hboth := hsvc service hpos requester
    exact ⟨k₁, hnew, hgrant (hgrant hpass hboth.2) hboth.1⟩

end Services

/-- An action other than a bare `ipc_cap_grant` creates a process at most, and then hands on only what
`A` has, if `A` has everything that involves a service. -/
theorem act_passes {A : Pid → Pid → Prop} (hA : Ipc.Closed A) {k k' : State} (hb : Booked k)
    (hk : k.Within A) {x : Action} (h : act k x = some k') (hx : ∀ owner target rights, x ≠ .grant owner target rights)
    (hsvc : ∀ i, 0 < (k'.serviceTable i).pid → ∀ q, A (k'.serviceTable i).pid q ∧ A q (k'.serviceTable i).pid) :
    ∃ k₁, Creates k k₁ ∧ Passes A k₁ k' := by
  cases x with
  | create kind memory =>
    cases h
    exact ⟨_, .proc kind memory, .refl A _⟩
  | post current m =>
    cases current with
    | none =>
      cases h
      exact ⟨k, .none, .post hA hk (by rintro p ⟨⟩) m⟩
    | some p =>
      obtain ⟨a, ha, rfl⟩ := map_eq_some_iff.mp h
      refine ⟨k, .none, .post hA hk ?_ m⟩
      rintro q ⟨⟩
      rw [(free_some ha).1]
      rfl
  | recv p call logs =>
    obtain ⟨a, ha, hr⟩ := bind_eq_some_iff.mp h
    obtain ⟨r, hrecv, rfl⟩ := map_eq_some_iff.mp hr
    have hlook : k.ipc.procs p = some a.ipc := by simp [State.ipc, (free_some ha).1]
    exact ⟨k, .none, .setIpc (.ipcRecv hA hk.ipc hlook hrecv)⟩
  | grant owner target rights => exact absurd rfl (hx owner target rights)
  | revoke owner target rights =>
    cases h
    exact ⟨k, .none, .setIpc (.ipcCapRevoke owner target rights)⟩
  | share p target addr pages =>
    obtain ⟨a, -, rfl⟩ := map_eq_some_iff.mp h
    exact ⟨k, .none, .ipcShare hA hk p target addr pages⟩
  | channelCreate flags =>
    cases h
    exact ⟨k, .none, .setChannel k _⟩
  | channelJoin p channelId =>
    obtain ⟨a, -, rfl⟩ := map_eq_some_iff.mp h
    exact ⟨k, .none, .setChannel k _⟩
  | channelLeave p channelId =>
    obtain ⟨a, -, rfl⟩ := map_eq_some_iff.mp h
    exact ⟨k, .none, .setChannel k _⟩
  | channelSend channelId senderPid header type data size flags =>
    cases h
    exact ⟨k, .none, .setChannel k _⟩
  | channelReceive p call =>
    obtain ⟨a, -, rfl⟩ := map_eq_some_iff.mp h
    exact ⟨k, .none, .setChannel k _⟩
  | sync p call =>
    obtain ⟨a, -, rfl⟩ := map_eq_some_iff.mp h
    exact ⟨k, .none, .setSync k _⟩
  | sleep p =>
    obtain ⟨a, ha, rfl⟩ := map_eq_some_iff.mp h
    exact ⟨k, .none, .set (free_some ha).1 (.of_same rfl rfl rfl)⟩
  | timer p =>
    simp only [Kernel.act] at h
    split at h
    · cases h
    · rename_i a hp
      split at h
      · cases h
        exact ⟨k, .none, .set hp (.of_same rfl rfl rfl)⟩
      · cases h
  | resume p logs =>
    simp only [Kernel.act] at h
    split at h
    · cases h
    · rename_i a hp
      split at h
      · exact ⟨k, .none, .resume hA hk hp h⟩
      · cases h
  | serviceRegister service defaultRights =>
    cases h
    unfold serviceRegister
    split
    · exact ⟨k, .none, .refl A k⟩
    · exact ⟨k, .none, .setService k service (fun _ _ => rfl)⟩
  | serviceStart service memory =>
    cases h
    exact serviceStart_passes k service memory
  | serviceGrant requester service rights memory =>
    cases h
    exact serviceGrant_passes k requester service rights memory hsvc
  | exit p posts =>
    obtain ⟨a, ha, rfl⟩ := map_eq_some_iff.mp h
    obtain ⟨hp, hf⟩ := free_some ha
    obtain ⟨hexit, hthere⟩ := Passes.processExit hb hp hf
    have hw := (departed hb hp hf).booked.waiting
    rw [processExit_posts]
    exact ⟨k, .none, hexit.trans (.posts hA (hk.passes hexit) hw hthere posts)⟩
  | reclaim p =>
    simp only [Kernel.act] at h
    split at h
    · cases h
    · split at h
      · cases h
        refine ⟨k, .none, rfl, ?_, fun _ _ => .inl rfl, id⟩
        intro q b hq
        have hq : (k.setProc p none).procs q = some b := hq
        rw [setProc_lookup] at hq
        split_ifs at hq
        exact ⟨b, hq, .refl A q b.ipc⟩
      · cases h

/-! ## Over a run -/

/-- The table names `p` as the process of a registered service. -/
def State.Serves (k : State) (p : Pid) : Prop :=
  ∃ i, (k.serviceTable i).registered = true ∧ (k.serviceTable i).pid = p

def State.HasKind (k : State) (kind : ThreadKind) (p : Pid) : Prop :=
  ∃ a, k.procs p = some a ∧ a.kind = kind

section History

variable (memory : Channel.Index → Channel.IpcChannel) (tr : List Action)

/-- `P` held in some state since the start. -/
abbrev Been (P : State → Prop) : Prop := Once (Performs (labelled act)) (boot memory) tr P

/-- Who may reach whom by what has happened: anybody itself, the kernel and its threads everybody,
and a service and its clients each other. -/
def Reach (p q : Pid) : Prop :=
  p = q ∨ p ≤ 0 ∨ Been memory tr (·.HasKind .kernel p) ∨ Been memory tr (·.Serves p) ∨
    Been memory tr (·.Serves q)

/-- What holds all along: authority is within reach, and a pid has one kind for ever. -/
structure Chronicle (k : State) : Prop where
  within : k.Within (Reach memory tr)
  registered : k.Registered
  born : ∀ kind p, Been memory tr (·.HasKind kind p) → 0 < p ∧ p < k.nextPid
  kinds : ∀ kind p a, Been memory tr (·.HasKind kind p) → k.procs p = some a → a.kind = kind
  single : ∀ p, Been memory tr (·.HasKind .user p) → ¬Been memory tr (·.HasKind .kernel p)

variable {memory tr} {k k' : State} {x : Action}

theorem reach_closed : Ipc.Closed (Reach memory tr) := ⟨fun _ => .inl rfl, fun _ _ h => .inr (.inl h)⟩

theorem Reach.later {p q : Pid} (h : Reach memory tr p q) (x : Action) : Reach memory (tr ++ [x]) p q := by
  rcases h with h | h | h | h | h
  · exact .inl h
  · exact .inr (.inl h)
  · exact .inr (.inr (.inl (h.later x)))
  · exact .inr (.inr (.inr (.inl (h.later x))))
  · exact .inr (.inr (.inr (.inr (h.later x))))

theorem act_unique (k : State) (x : Action) (k₁ k₂ : State) (h₁ : Performs (labelled act) k x k₁)
    (h₂ : Performs (labelled act) k x k₂) : k₁ = k₂ := by
  rw [performs_labelled] at h₁ h₂
  exact some.inj (h₁.symm.trans h₂)

theorem been_snoc {P : State → Prop} (hrun : Run (boot memory) (tr ++ [x]) k')
    (h : Been memory (tr ++ [x]) P) : P k' ∨ Been memory tr P := by
  rcases h.cases with ⟨k₁, hk₁, hP⟩ | h
  · rw [hrun.unique act_unique hk₁]
    exact .inl hP
  · exact .inr h

theorem State.Within.mono {A B : Pid → Pid → Prop} (hk : k.Within A) (h : ∀ p q, A p q → B p q) :
    k.Within B where
  procs := by
    intro p a ha
    have hp := hk.procs p a ha
    exact ⟨⟨fun n hn => h _ _ (hp.caps n hn), fun slot hs => h _ _ (hp.mail slot hs)⟩,
      fun hkind q => h _ _ (hp.kernel hkind q)⟩
  shares := fun i hi => h _ _ (hk.shares i hi)

theorem Creates.procs (h : Creates k k') {p : Pid} {b : Proc} (hb : k'.procs p = some b) :
    k.procs p = some b ∨ (p = k.nextPid ∧ ∀ A, b.ipc.Earned A p) := by
  cases h with
  | none => exact .inl hb
  | proc kind memory =>
    unfold processCreate at hb
    split at hb
    · have hb : (k.setProc k.nextPid (some (freshProc kind memory))).procs p = some b := hb
      rw [setProc_lookup] at hb
      split_ifs at hb with hp
      · cases hb
        exact .inr ⟨hp, fun A =>
          ⟨fun _ hn => absurd hn Bool.false_ne_true, fun _ hslot => absurd hslot not_mem_nil⟩⟩
      · exact .inl hb
    · exact .inl hb

theorem Creates.frame (h : Creates k k') :
    k.nextPid ≤ k'.nextPid ∧ k'.shareTable = k.shareTable ∧ k'.serviceTable = k.serviceTable := by
  cases h with
  | none => exact ⟨le_rfl, rfl, rfl⟩
  | proc kind memory =>
    unfold processCreate
    split
    · exact ⟨Int.le_add_one le_rfl, rfl, rfl⟩
    · exact ⟨le_rfl, rfl, rfl⟩

theorem act_registered (hb : Booked k) (hk : k.Registered) (h : act k x = some k')
    (hx : ∀ owner target rights, x ≠ .grant owner target rights) : k'.Registered := by
  have hA : Ipc.Closed (fun _ _ => True) := ⟨fun _ => trivial, fun _ _ _ => trivial⟩
  have hall : k.Within (fun _ _ => True) :=
    ⟨fun _ _ _ => ⟨⟨fun _ _ => trivial, fun _ _ => trivial⟩, fun _ _ => trivial⟩, fun _ _ => trivial⟩
  obtain ⟨k₁, hnew, hpass⟩ := act_passes hA hb hall h hx (fun _ _ _ => ⟨trivial, trivial⟩)
  apply hpass.services
  intro i
  rw [hnew.frame.2.2]
  exact hk i

theorem Chronicle.step (hc : Chronicle memory tr k) (hb : Booked k)
    (hrun : Run (boot memory) (tr ++ [x]) k') (h : act k x = some k')
    (hx : ∀ owner target rights, x ≠ .grant owner target rights) : Chronicle memory (tr ++ [x]) k' := by
  have hreg := act_registered hb hc.registered h hx
  have hold : k.Within (Reach memory (tr ++ [x])) := hc.within.mono (fun p q hpq => hpq.later x)
  have hsvc : ∀ i, 0 < (k'.serviceTable i).pid → ∀ q,
      Reach memory (tr ++ [x]) (k'.serviceTable i).pid q ∧
        Reach memory (tr ++ [x]) q (k'.serviceTable i).pid := by
    intro i hi q
    have hserves : Been memory (tr ++ [x]) (·.Serves (k'.serviceTable i).pid) :=
      .now hrun ⟨i, hreg i hi, rfl⟩
    exact ⟨.inr (.inr (.inr (.inl hserves))), .inr (.inr (.inr (.inr hserves)))⟩
  obtain ⟨k₁, hnew, hpass⟩ := act_passes reach_closed hb hold h hx hsvc
  have hkinds : ∀ kind p a, Been memory (tr ++ [x]) (·.HasKind kind p) → k'.procs p = some a →
      a.kind = kind := by
    intro kind p c hbeen hp
    rcases been_snoc hrun hbeen with ⟨a, ha, hkind⟩ | hbefore
    · obtain rfl := some.inj (hp.symm.trans ha)
      exact hkind
    · obtain ⟨b, hb₁, hbc⟩ := hpass.procs p c hp
      have hbk : c.kind = b.kind := hbc.kind
      rcases hnew.procs hb₁ with hk | ⟨hfresh, -⟩
      · rw [hbk]
        exact hc.kinds kind p b hbefore hk
      · exact absurd (hc.born kind p hbefore).2 (by rw [hfresh]; exact lt_irrefl _)
  refine ⟨⟨?_, ?_⟩, hreg, ?_, hkinds, ?_⟩
  · intro p c hp
    refine ⟨?_, fun hkind q => .inr (.inr (.inl (.now hrun ⟨c, hp, hkind⟩)))⟩
    obtain ⟨b, hb₁, hbc⟩ := hpass.procs p c hp
    rcases hnew.procs hb₁ with hk | ⟨-, hblank⟩
    · exact (hold.procs p b hk).toEarned.inherits hbc
    · exact (hblank _).inherits hbc
  · intro i hi
    rcases hpass.shares i hi with he | hA
    · rw [he, hnew.frame.2.1] at hi ⊢
      exact hold.shares i hi
    · exact hA
  · intro kind p hbeen
    rcases been_snoc hrun hbeen with ⟨a, ha, -⟩ | hbefore
    · exact hrun.booked.numbered.pids p a ha
    · obtain ⟨hpos, hlt⟩ := hc.born kind p hbefore
      refine ⟨hpos, ?_⟩
      rw [hpass.next]
      exact lt_of_lt_of_le hlt hnew.frame.1
  · intro p huser hkernel
    rcases been_snoc hrun huser with ⟨a, ha, hkind⟩ | hu
    · exact absurd (hkind.symm.trans (hkinds .kernel p a hkernel ha)) (by decide)
    · rcases been_snoc hrun hkernel with ⟨a, ha, hkind⟩ | hk
      · exact absurd (hkind.symm.trans (hkinds .user p a huser ha)) (by decide)
      · exact hc.single p hu hk

theorem Chronicle.boot : Chronicle memory [] (boot memory) := by
  have hnone : ∀ kind p, ¬Been memory [] (·.HasKind kind p) := by
    rintro kind p ⟨pre, post, k, ht, hx, a, ha, -⟩
    obtain ⟨rfl, -⟩ := append_eq_nil_iff.mp ht.symm
    rw [hx.of_nil] at ha
    cases ha
  refine ⟨⟨?_, ?_⟩, ?_, fun kind p h => absurd h (hnone kind p), fun kind p _ h => absurd h (hnone kind p),
    fun p h => absurd h (hnone .user p)⟩
  · intro p a ha
    cases ha
  · intro i hi
    exact absurd hi (noShare_unused rfl)
  · intro i hi
    exact absurd hi (by simp [Kernel.boot])

/-- Nothing but a bare `ipc_cap_grant` leads out of reach. -/
theorem Run.chronicle (hrun : Run (Kernel.boot memory) tr k)
    (hx : ∀ owner target rights, .grant owner target rights ∉ tr) : Chronicle memory tr k := by
  induction hrun with
  | nil => exact .boot
  | @snoc tr k₁ k₂ x hpre hstep ih =>
    refine (ih ?_).step (Run.booked hpre) (hpre.snoc hstep) (performs_labelled.mp hstep) ?_
    · exact fun owner target rights hm => hx owner target rights (mem_append_left _ hm)
    · rintro owner target rights rfl
      exact hx owner target rights (mem_append_right _ (mem_singleton_self _))

end History

end ProOS.Kernel
