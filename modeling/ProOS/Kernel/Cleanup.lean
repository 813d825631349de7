import ProOS.Kernel.Membership

namespace ProOS.Kernel

open ProOS.Framework Option List

variable {k k' : State} {p : Pid} {a : Proc}

/-! ## Leaving -/

theorem Turn.setAwake (hw : Waiting k) {b : Proc} (hp : k.procs p = some a)
    (ha : a.state ≠ .waiting) (hl : b.links = a.links) (hs : b.channelSlots = a.channelSlots)
    (hz : b.state ≠ .zombie) (hi : ∀ i call, b.inside = some (.channel i call) → a.inside = some (.channel i call))
    (hm : b.mailbox.waiting.Sublist a.mailbox.waiting) : Turn k (k.setProc p (some b)) := by
  refine .set hp hl hs (fun h => absurd h hz) hi (hw.setAwake (awake_of hp ha) ?_)
  rw [State.waitList, hp]
  exact hm

theorem Booked.shareDrop (hb : Booked k) (hpos : 0 < p) :
    Booked (shareDropForPid k p) ∧ ShareOnly k (shareDropForPid k p) ∧
      (∀ i, ¬((shareDropForPid k p).shareTable i).Names p) ∧
      ∀ i, (k.shareTable i).Names p → (shareDropForPid k p).shareTable i = noShare := by
  unfold shareDropForPid
  rw [if_neg (not_le.mpr hpos)]
  have honly := drops_only p (List.range configIpcMaxSharedRegions) k
  have hlinked := hb.linked.drops hb.numbered p (List.range configIpcMaxSharedRegions)
  have hgone : ∀ i, (k.shareTable i).Names p →
      ((List.range configIpcMaxSharedRegions).foldl (shareDropAt p) k).shareTable i = noShare := by
    intro i hi
    exact (drops_table p _ k i).1 hi (mem_range.mpr (hb.linked.parties i hi.1).1)
  refine ⟨honly.booked hb hlinked, honly, ?_, hgone⟩
  intro i hi
  rcases (drops_table p (List.range configIpcMaxSharedRegions) k i).2 with h | h
  · rw [h] at hi
    cases hi.1
  · have hold : (k.shareTable i).Names p := h ▸ hi
    rw [hgone i hold] at hi
    cases hi.1

theorem parties_of_not_names {r : ShareRecord} (h : ¬r.Names p) : r.parties p = 0 := by
  rw [ShareRecord.parties, if_neg, if_neg]
  · rintro ⟨hu, ht⟩
    exact h ⟨hu, .inr ht⟩
  · rintro ⟨hu, ho⟩
    exact h ⟨hu, .inl ho⟩

/-- What is left of `p` after `ipc_detach_process`; nothing else but share records and links to
them has changed. -/
theorem ipcDetachProcess_spec (hb : Booked k) (hp : k.procs p = some a) (hf : a.Free) :
    Booked (ipcDetachProcess k p a) ∧
      (∃ b, (ipcDetachProcess k p a).procs p = some b ∧ b.state = .running ∧ b.inside = none ∧
        b.channelSlots = a.channelSlots) ∧
      ShareOnly (k.setProc p (some { a with mailbox := Ipc.mailboxInit a.mailbox, caps := clearCaps,
                                            capCount := 0 })) (ipcDetachProcess k p a) ∧
      (∀ i, ¬((ipcDetachProcess k p a).shareTable i).Names p) ∧
      ∀ i, (k.shareTable i).Names p → (ipcDetachProcess k p a).shareTable i = noShare := by
  have hpos := (hb.numbered.pids p a hp).1
  have hst : a.state = .running := hf.2
  unfold ipcDetachProcess
  dsimp only
  generalize ha₁ : ({ a with mailbox := Ipc.mailboxInit a.mailbox, caps := clearCaps, capCount := 0 } : Proc) =
    a₁
  have hb₁ : Booked (k.setProc p (some a₁)) := by
    rw [← ha₁]
    exact hb.turn (.setAwake hb.waiting hp (by rw [hst]; simp) rfl rfl (by rw [hst]; simp)
      (fun _ _ => id) (nil_sublist _))
  rw [if_pos hb₁.numbered.initialized]
  obtain ⟨hb₂, honly, hno, hgone⟩ := hb₁.shareDrop hpos
  generalize shareDropForPid (k.setProc p (some a₁)) p = k₂ at hb₂ honly hno hgone ⊢
  have hself : (k.setProc p (some a₁)).procs p = some a₁ := by rw [setProc_lookup, if_pos rfl]
  obtain ⟨b, hbp, hstrip⟩ := honly.stripped_to hself
  have hbs : b.state = .running := by
    have h : b.state = a₁.state := (congrArg Proc.state hstrip :)
    rw [h, ← ha₁]
    exact hst
  have hbi : b.inside = none := by
    have h : b.inside = a₁.inside := (congrArg Proc.inside hstrip :)
    rw [h, ← ha₁]
    exact hf.1
  have hbc : b.channelSlots = a.channelSlots := by
    have h : b.channelSlots = a₁.channelSlots := (congrArg Proc.channelSlots hstrip :)
    rw [h, ← ha₁]
  rw [hbp]
  simp only
  generalize hb₃ : ({ b with ipcShares := clearLinks, ipcShareCount := 0, ipcWaiting := false } : Proc) = b₃
  have honly₃ : ShareOnly k₂ (k₂.setProc p (some b₃)) := by
    apply ShareOnly.set hbp
    rw [← hb₃]
    rfl
  refine ⟨honly₃.booked hb₂ ⟨hb₂.linked.parties, ?_⟩, ⟨b₃, ?_, ?_⟩, honly.trans honly₃, hno, hgone⟩
  · intro q i hq
    rw [honly₃.isSome] at hq
    rw [setProc_linkCount]
    split_ifs with hqp
    · rw [← hb₃, linkCount_clear]
      show 0 = (k₂.shareTable i).parties q
      rw [hqp, parties_of_not_names (hno i)]
    · exact hb₂.linked.links q i hq
  · rw [setProc_lookup, if_pos rfl]
  · rw [← hb₃]
    exact ⟨hbs, hbi, hbc⟩

theorem channelDrops_channel (p : Pid) (l : List Int) (k : State) :
    (l.foldl (channelDrop p) k).channel = l.foldl (Channel.channelDrop p) k.channel := by
  induction l generalizing k with
  | nil => rfl
  | cons c l ih =>
    rw [foldl_cons, foldl_cons, ih]
    congr 1
    unfold channelDrop Channel.channelDrop
    cases Channel.findChannel k.channel c <;> rfl

theorem channelDrops_rest (p : Pid) (l : List Int) (k : State) :
    { l.foldl (channelDrop p) k with channels := k.channels } = k := by
  induction l generalizing k with
  | nil => rfl
  | cons c l ih =>
    have hone : { channelDrop p k c with channels := k.channels } = k := by
      unfold channelDrop
      split <;> rfl
    have hrest := congrArg (fun x : State => { x with channels := k.channels }) (ih (channelDrop p k c))
    exact hrest.trans hone

/-- What a process has left behind when it is gone: nobody lists it and no table names it. -/
structure Departed (k k' : State) (p : Pid) : Prop where
  booked : Booked k'
  lists : ∀ place, p ∉ k'.waitList place
  subscribers : ∀ i, p ∉ (k'.channels i).subscribers
  shares : ∀ i, ¬(k'.shareTable i).Names p
  freed : ∀ i, (k.shareTable i).Names p → k'.shareTable i = noShare
  services : ∀ i, (k'.serviceTable i).pid ≠ p
  caps : ∀ q, q ≠ p → (k'.procs q).map Proc.caps = (k.procs q).map Proc.caps
  mutexes : k'.mutexes = k.mutexes

theorem serviceHandleExit_spec (hb : Booked k) (hpos : 0 < p) :
    Booked (serviceHandleExit k p) ∧ (∀ i, ((serviceHandleExit k p).serviceTable i).pid ≠ p) ∧
      { serviceHandleExit k p with serviceTable := k.serviceTable } = k := by
  unfold serviceHandleExit
  rw [if_neg (not_le.mpr hpos)]
  cases hf : serviceOf k.serviceTable p with
  | none =>
    refine ⟨hb, ?_, rfl⟩
    intro i hi
    have hlt := hb.served.range i (hi ▸ hpos)
    have hno := find?_eq_none.mp hf i (mem_range.mpr hlt)
    simp [hi] at hno
  | some i =>
    have hfound := find?_some hf
    simp only [beq_iff_eq] at hfound
    refine ⟨?_, ?_, rfl⟩
    · refine hb.setService ?_ ?_
      · have := hb.numbered.next
        show (-1 : Int) < k.nextPid
        omega
      · intro h
        exact absurd h (by simp)
    · intro j hj
      rw [setService_table] at hj
      split_ifs at hj with he
      · rw [← hj] at hpos
        exact absurd hpos (by simp)
      · exact he (hb.served.unique j i (hj ▸ hpos) (hj.trans hfound.symm))

theorem departed (hb : Booked k) (hp : k.procs p = some a) (hf : a.Free) : Departed k (processExit k p a []) p := by
  have hpos := (hb.numbered.pids p a hp).1
  unfold processExit ipcProcessCleanup
  dsimp only [foldl_nil]
  obtain ⟨hb₁, ⟨b, hbp, hbs, hbi, hbc⟩, honly, hno, hgone⟩ := ipcDetachProcess_spec hb hp hf
  generalize ipcDetachProcess k p a = k₁ at hb₁ hbp honly hno hgone ⊢
  rw [hbp]
  simp only
  -- the channels lose `p`, and `p` its channels
  have hdrop := hb₁.roster.toTable.foldl_channelDrop p b.channelSlots
  rw [← channelDrops_channel] at hdrop
  have hrest₂ := channelDrops_rest p b.channelSlots k₁
  have hw₂ := hb₁.waiting.foldl_channelDrop p b.channelSlots
  generalize b.channelSlots.foldl (channelDrop p) k₁ = k₂ at hdrop hrest₂ hw₂ ⊢
  have hprocs₂ : k₂.procs = k₁.procs := (congrArg State.procs hrest₂ :)
  have hshare₂ : k₂.shareTable = k₁.shareTable := (congrArg State.shareTable hrest₂ :)
  have hmutex₂ : k₂.mutexes = k₁.mutexes := (congrArg State.mutexes hrest₂ :)
  have hbp₂ : k₂.procs p = some b := by rw [hprocs₂, hbp]
  have hsubs : ∀ i, p ∉ (k₂.channels i).subscribers := by
    intro i hm
    obtain ⟨hold, hstay⟩ := (hdrop.self i).mp hm
    obtain ⟨d, hd, hid⟩ := hb₁.roster.known i p hold
    rw [channel_procs hbp] at hd
    cases hd
    exact hstay hid
  generalize hc : ({ b with channelSlots := [], waitChannel := -1 } : Proc) = c
  have hcs : c.state = .running ∧ c.channelSlots = [] ∧ c.inside = none := by
    rw [← hc]
    exact ⟨hbs, rfl, hbi⟩
  have hb₃ : Booked (k₂.setProc p (some c)) := by
    have hkeeps : Keeps k₁ (k₂.setProc p (some c)) := by
      refine .trans ⟨?_, fun q => by rw [hprocs₂]⟩ (.set hbp₂ (by rw [← hc]; rfl))
      exact congrArg (fun x : State => { x with procs := k₁.procs, processCount := k₁.processCount, channels := k₁.channels, nextChannelId := k₁.nextChannelId, mutexes := k₁.mutexes, semaphores := k₁.semaphores }) hrest₂
    refine hb₁.keeps hkeeps (hw₂.setAwake (awake_of hbp₂ (by rw [hbs]; simp)) ?_) ?_
    · rw [State.waitList, hbp₂, ← hc]
      exact .refl _
    · rw [setProc_channel]
      refine hb₁.roster.parted hdrop (channel_procs hbp) ?_ ?_ ?_ ?_
      · rw [← hc]
        exact nil_sublist _
      · intro x
        rw [← hc]
        simp [Proc.channel]
      · rw [← hc]
        rfl
      · exact fun _ => hcs.2.1
  obtain ⟨hb₄, hsvc, hrest₄⟩ := serviceHandleExit_spec hb₃ hpos
  generalize serviceHandleExit (k₂.setProc p (some c)) p = k₄ at hb₄ hsvc hrest₄ ⊢
  have hprocs₄ : k₄.procs = (k₂.setProc p (some c)).procs := (congrArg State.procs hrest₄ :)
  have hchan₄ : k₄.channels = k₂.channels := (congrArg State.channels hrest₄ :)
  have hshare₄ : k₄.shareTable = k₂.shareTable := (congrArg State.shareTable hrest₄ :)
  have hmutex₄ : k₄.mutexes = k₂.mutexes := (congrArg State.mutexes hrest₄ :)
  have hself₄ : k₄.procs p = some c := by rw [hprocs₄, setProc_lookup, if_pos rfl]
  rw [hself₄]
  simp only
  -- the last change makes it a zombie, which nobody lists
  have hzself : (k₄.setProc p (some { c with state := .zombie })).procs p =
      some { c with state := .zombie } := by rw [setProc_lookup, if_pos rfl]
  have hw₅ : Waiting (k₄.setProc p (some { c with state := .zombie })) := by
    refine hb₄.waiting.setAwake (awake_of hself₄ (by rw [hcs.1]; simp)) ?_
    rw [State.waitList, hself₄]
    exact .refl _
  refine ⟨hb₄.keeps (.set hself₄ rfl) hw₅ ?_, ?_, ?_, ?_, ?_, hsvc, ?_, ?_⟩
  · rw [setProc_channel]
    refine hb₄.roster.setProcs ?_ ?_
    · intro d hd
      rw [channel_procs hself₄] at hd
      cases hd
      exact hcs.2.1
    · rintro _ ⟨⟩
      refine ⟨hcs.2.1, ?_⟩
      rw [Proc.channel]
      simp [hcs.2.2]
  · intro place
    exact hw₅.notMem (standing_of hzself) (by simp)
  · intro i hm
    have hm' : p ∈ (k₄.channels i).subscribers := hm
    rw [hchan₄] at hm'
    exact hsubs i hm'
  · intro i
    show ¬(k₄.shareTable i).Names p
    rw [hshare₄, hshare₂]
    exact hno i
  · intro i hi
    show k₄.shareTable i = noShare
    rw [hshare₄, hshare₂]
    exact hgone i hi
  · intro q hq
    rw [setProc_lookup, if_neg hq, hprocs₄, setProc_lookup, if_neg hq, hprocs₂]
    have he := honly.procs q
    rw [setProc_lookup, if_neg hq] at he
    have hcaps := congrArg (Option.map Proc.caps) he
    rw [Option.map_map, Option.map_map] at hcaps
    exact hcaps
  · show k₄.mutexes = k.mutexes
    rw [hmutex₄, hmutex₂]
    exact honly.mutexes

theorem processExit_posts (k : State) (p : Pid) (a : Proc) (posts : List Post) :
    processExit k p a posts = posts.foldl (State.post (some p)) (processExit k p a []) := rfl

theorem departed_posts (hb : Booked k) (hp : k.procs p = some a)
    (hf : a.Free) (posts : List Post) : Departed k (processExit k p a posts) p := by
  have hgone := departed hb hp hf
  rw [processExit_posts]
  have hposted := Posted.posts hgone.booked.waiting (some p) posts
  generalize processExit k p a [] = k₁ at hgone hposted
  refine ⟨hgone.booked.turn hposted.toTurn, ?_, ?_, ?_, ?_, ?_, ?_, ?_⟩
  · intro place hm
    exact hgone.lists place ((hposted.lists place).subset hm)
  · intro i hm
    have hsame := hposted.framed.subscribers i
    exact hgone.subscribers i (hsame ▸ hm)
  · intro i
    rw [hposted.shares]
    exact hgone.shares i
  · intro i hi
    rw [hposted.shares]
    exact hgone.freed i hi
  · intro i
    rw [hposted.services]
    exact hgone.services i
  · intro q hq
    rw [hposted.caps, hgone.caps q hq]
  · rw [hposted.mutexes, hgone.mutexes]

/-! ## Whole runs -/

theorem Booked.reclaim (hb : Booked k) (hp : k.procs p = some a)
    (hz : a.state = .zombie) (n : Nat) : Booked { k.setProc p none with processCount := n } := by
  have hw : Waiting (k.setProc p none) :=
    hb.waiting.setAwake (awake_of hp (by rw [hz]; simp)) (nil_sublist _)
  refine hb.of_procs rfl ?_ (hw.of_same (fun _ => rfl) rfl rfl rfl) ?_
  · refine update_forall ?_ ?_
    · exact fun q b _ hq => ⟨b, hq, rfl⟩
    · exact fun _ h => nomatch h
  · show Channel.Roster (k.setProc p none).channel
    rw [setProc_channel]
    exact hb.roster.setProcs (fun d hd => hb.roster.shed p d hd (by
      rw [channel_procs hp] at hd
      cases hd
      exact hz)) (fun _ h => nomatch h)

theorem Turn.timer (hw : Waiting k) (hp : k.procs p = some a)
    (hin : a.inside = some .sleep) : Turn k (k.setProc p (some { a with state := .ready })) := by
  refine .set hp rfl rfl (by simp) (fun _ _ => id) (hw.unlisted (p := p) ?_ ?_ ?_)
  · intro place hm
    obtain ⟨x, hx, hpl⟩ := hw.listed place p hm
    rw [standing_of hp, hin] at hx
    obtain rfl := some.inj (Prod.mk.inj (some.inj hx)).2
    cases hpl
  · intro place
    rw [setProc_waitList]
    split_ifs with he
    · rw [he, State.waitList, hp]
      exact .refl _
    · exact .refl _
  · intro q hq
    rw [setProc_standing, if_neg hq]

theorem SyncCall.run_effect (s : Sync.State) (p : Pid) (call : SyncCall) : Sync.Effect s p (call.run s p) := by
  cases call with
  | mutexCreate =>
    simp only [SyncCall.run, Sync.syncMutexCreate]
    split
    · exact Sync.Effect.setMutex s p (nil_sublist _)
    · exact .refl s p
  | semaphoreCreate n =>
    simp only [SyncCall.run, Sync.syncSemaphoreCreate]
    split
    · exact .refl s p
    split
    · exact Sync.Effect.setSemaphore s p (nil_sublist _)
    · exact .refl s p
  | mutexLock id =>
    simp only [SyncCall.run, Sync.syncMutexLock]
    split
    · exact .refl s p
    · exact Sync.lockPassEvent_effect s p _ _
  | semaphoreWait id =>
    simp only [SyncCall.run, Sync.syncSemaphoreWait]
    split
    · exact .refl s p
    · exact Sync.waitPassEvent_effect s p _ _
  | mutexUnlock id => exact Sync.syncMutexUnlock_effect s p id
  | semaphorePost id => exact Sync.syncSemaphorePost_effect s p id

theorem Booked.resumed (hb : Booked k) (hp : k.procs p = some a)
    (hr : a.state = .ready) {logs : Nat → Option Ipc.LogSend} (h : k.resume p a logs = some k') : Turn k k' := by
  have hawake : a.state ≠ .waiting := by rw [hr]; simp
  unfold State.resume at h
  split at h
  · obtain ⟨⟨e, s'⟩, hpass, rfl⟩ := map_eq_some_iff.mp h
    exact .recvPass hb.waiting hp hawake hpass
  · rename_i i call hin
    cases h
    have hu := hb.roster.inside p a.channel i call (channel_procs hp) (by simp [Proc.channel, hin, Inside.channel?])
    exact .receivePass hb.waiting hp hawake hu call
  · obtain ⟨r, hres, rfl⟩ := map_eq_some_iff.mp h
    exact .syncEffect hb.waiting hp hawake (Sync.resumeCall_effect k.sync p hres)
  · cases h
    exact .setAwake hb.waiting hp hawake rfl rfl (by simp) (by simp) (.refl _)
  · cases h

/-- Most actions keep the tables of shares and services. -/
inductive Acted (k : State) : Action → State → Prop
  | kept {x : Action} {k' : State} (h : Keeps k k') (hb : Booked k') : Acted k x k'
  | create (kind : ThreadKind) (memory : Ipc.Mailbox) :
      Acted k (.create kind memory) (processCreate k kind memory).1
  | share (p target : Pid) (addr pages : Nat) :
      Acted k (.share p target addr pages) (ipcShare k p target addr pages).1
  | serviceRegister (service : Nat) (defaultRights : UInt32) :
      Acted k (.serviceRegister service defaultRights) (serviceRegister k service defaultRights).1
  | serviceStart (service : Nat) (memory : Ipc.Mailbox) :
      Acted k (.serviceStart service memory) (serviceStart k service memory).1
  | serviceGrant (requester : Pid) (service : Nat) (rights : UInt32) (memory : Ipc.Mailbox) :
      Acted k (.serviceGrant requester service rights memory)
        (serviceGrantCapabilities k requester service rights memory).1
  | exit {p : Pid} {a : Proc} (hp : k.procs p = some a) (hf : a.Free) (posts : List Post) :
      Acted k (.exit p posts) (processExit k p a posts)
  | reclaim {p : Pid} {a : Proc} (hp : k.procs p = some a) (hz : a.state = .zombie) :
      Acted k (.reclaim p) { k.setProc p none with processCount := k.processCount - 1 }

theorem Booked.acted (hb : Booked k) {x : Action} (h : act k x = some k') : Acted k x k' := by
  have hw := hb.waiting
  have turn {x : Action} {k' : State} (h : Turn k k') : Acted k x k' := .kept h.toKeeps (hb.turn h)
  have channel {x : Action} {s : Channel.State} (hfit : Fits k s.procs) (hw : Waiting (k.setChannel s))
      (hr : Channel.Roster s) : Acted k x (k.setChannel s) := .kept (.setChannel hfit) (hb.setChannel hfit hw hr)
  have hawake {a : Proc} (hf : a.Free) : a.state ≠ .waiting := by rw [hf.2]; simp
  have halive {a : Proc} (hf : a.Free) : a.channel.state ≠ .zombie := by rw [Proc.channel, hf.2]; simp
  cases x with
  | create kind memory =>
    cases h
    exact .create kind memory
  | post current m =>
    cases current with
    | none =>
      cases h
      exact turn (Posted.post hw none m).toTurn
    | some p =>
      obtain ⟨a, -, rfl⟩ := map_eq_some_iff.mp h
      exact turn (Posted.post hw (some p) m).toTurn
  | recv p call logs =>
    obtain ⟨a, ha, hr⟩ := bind_eq_some_iff.mp h
    obtain ⟨hp, hf⟩ := free_some ha
    obtain ⟨r, hrecv, rfl⟩ := map_eq_some_iff.mp hr
    have hrefl : Turn k (k.setIpc k.ipc) := by
      rw [State.setIpc_ipc]
      exact .refl hw
    unfold Ipc.ipcRecv at hrecv
    split at hrecv
    · cases hrecv
      exact turn hrefl
    · split at hrecv
      · cases hrecv
        exact turn hrefl
      · exact turn (.recvPass hw hp (hawake hf) hrecv)
  | grant owner target rights =>
    cases h
    exact turn (.capEdit hw (Ipc.ipcCapGrant_edit k.ipc owner target rights))
  | revoke owner target rights =>
    cases h
    exact turn (.capEdit hw (Ipc.ipcCapRevoke_edit k.ipc owner target rights))
  | share p target addr pages =>
    obtain ⟨a, -, rfl⟩ := map_eq_some_iff.mp h
    exact .share p target addr pages
  | channelCreate flags =>
    cases h
    refine channel ?_ (hw.ipcChannelCreate flags) (hb.roster.ipcChannelCreate flags)
    unfold Channel.ipcChannelCreate
    split <;> exact .view k Proc.channel
  | channelJoin p channelId =>
    obtain ⟨a, ha, rfl⟩ := map_eq_some_iff.mp h
    obtain ⟨hp, hf⟩ := free_some ha
    have hjoin := Channel.ipcChannelJoin_enrols k.channel p channelId
    exact channel (.enrols hjoin) (hw.enrols hjoin) (hb.roster.ipcChannelJoin (channel_procs hp) (halive hf) channelId)
  | channelLeave p channelId =>
    obtain ⟨a, ha, rfl⟩ := map_eq_some_iff.mp h
    obtain ⟨hp, hf⟩ := free_some ha
    have hleave := Channel.ipcChannelLeave_enrols k.channel p channelId
    exact channel (.enrols hleave) (hw.enrols hleave)
      (hb.roster.ipcChannelLeave (channel_procs hp) (halive hf) channelId)
  | channelSend channelId senderPid header type data size flags =>
    cases h
    exact turn (Posted.send hw channelId senderPid header type data size flags).toTurn
  | channelReceive p call =>
    obtain ⟨a, ha, rfl⟩ := map_eq_some_iff.mp h
    obtain ⟨hp, hf⟩ := free_some ha
    have hrefl : Turn k (k.setChannel k.channel) := by
      rw [State.setChannel_channel]
      exact .refl hw
    unfold Channel.ipcChannelReceive
    split
    · exact turn hrefl
    rename_i i hfind
    split
    · exact turn hrefl
    · exact turn (.receivePass hw hp (hawake hf) (Channel.findChannel_some hfind).1 call)
  | sync p call =>
    obtain ⟨a, ha, rfl⟩ := map_eq_some_iff.mp h
    obtain ⟨hp, hf⟩ := free_some ha
    exact turn (.syncEffect hw hp (hawake hf) (call.run_effect k.sync p))
  | sleep p =>
    obtain ⟨a, ha, rfl⟩ := map_eq_some_iff.mp h
    obtain ⟨hp, hf⟩ := free_some ha
    exact turn (.setAwake hw hp (hawake hf) rfl rfl (by simp) (by simp) (.refl _))
  | timer p =>
    simp only [Kernel.act] at h
    split at h
    · cases h
    · rename_i a hp
      split at h
      · rename_i hs
        cases h
        exact turn (.timer hw hp hs.1)
      · cases h
  | resume p logs =>
    simp only [Kernel.act] at h
    split at h
    · cases h
    · rename_i a hp
      split at h
      · rename_i hs
        exact turn (hb.resumed hp hs h)
      · cases h
  | serviceRegister service defaultRights =>
    cases h
    exact .serviceRegister service defaultRights
  | serviceStart service memory =>
    cases h
    exact .serviceStart service memory
  | serviceGrant requester service rights memory =>
    cases h
    exact .serviceGrant requester service rights memory
  | exit p posts =>
    obtain ⟨a, ha, rfl⟩ := map_eq_some_iff.mp h
    obtain ⟨hp, hf⟩ := free_some ha
    exact .exit hp hf posts
  | reclaim p =>
    simp only [Kernel.act] at h
    split at h
    · cases h
    · rename_i a hp
      split at h
      · rename_i hs
        cases h
        exact .reclaim hp hs
      · cases h

theorem Booked.act (hb : Booked k) {x : Action} (h : act k x = some k') : Booked k' := by
  cases hb.acted h with
  | kept _ hb' => exact hb'
  | create kind memory => exact hb.processCreate kind memory
  | share p target addr pages => exact hb.ipcShare p target addr pages
  | serviceRegister service defaultRights =>
    unfold serviceRegister
    split
    · exact hb
    · refine hb.setService ?_ ?_
      · have := hb.numbered.next
        show (-1 : Int) < k.nextPid
        omega
      · intro hpos
        exact absurd hpos (by simp)
  | serviceStart service memory => exact hb.serviceStart service memory
  | serviceGrant requester service rights memory => exact hb.serviceGrant requester service rights memory
  | exit hp hf posts => exact (departed_posts hb hp hf posts).booked
  | reclaim hp hz => exact hb.reclaim hp hz _

theorem boot_booked (memory : Channel.Index → Channel.IpcChannel) : Booked (boot memory) where
  waiting := by
    have hnil : ∀ place, (boot memory).waitList place = [] := by
      intro place
      cases place with
      | mailbox q => rfl
      | channel i => rfl
      | sync c => cases c <;> rfl
    constructor
    · intro place q hq
      rw [hnil place] at hq
      cases hq
    · intro place
      rw [hnil place]
      exact nodup_nil
  numbered := ⟨rfl, Int.one_pos, fun _ _ h => nomatch h⟩
  linked := ⟨fun _ h => (nomatch h), fun _ _ h => (nomatch h)⟩
  roster := Channel.init_roster memory
  served := by
    refine ⟨?_, ?_, ?_⟩
    · intro i
      show (-1 : Int) < 1
      omega
    · intro i j hi
      exact absurd hi (by simp [boot])
    · intro i hi
      exact absurd hi (by simp [boot])

theorem Run.booked {memory : Channel.Index → Channel.IpcChannel} {tr : List Action}
    (hrun : Run (boot memory) tr k) : Booked k :=
  hrun.invariant (boot_booked memory) (fun _ _ _ hb h => hb.act (performs_labelled.mp h))

/-- A listed process sleeps, in the one call that lists it, and is listed once. -/
theorem waiters_listed_once (memory : Channel.Index → Channel.IpcChannel) (tr : List Action) (k : State) :
    Always (Performs (labelled act)) (boot memory) tr k (fun _ k => ∀ place q, q ∈ k.waitList place →
      k.AsleepAt q place ∧ (k.waitList place).Nodup ∧ ∀ place', q ∈ k.waitList place' → place' = place) := by
  intro pre post k _ hrun _ place q hq
  have hw := (Run.booked hrun).waiting
  have hasleep := hw.listed place q hq
  exact ⟨hasleep, hw.nodup place, fun place' h => (hw.listed place' q h).unique hasleep⟩

/-! ## What an exit leaves behind -/

def State.Owns (k : State) (p : Pid) : Prop :=
  ∃ i, (k.mutexes i).locked = true ∧ (k.mutexes i).owner = p

theorem Departed.links (h : Departed k k' p) {i : Nat}
    (hi : (k.shareTable i).Names p) (q : Pid) : k'.linkCount q i = 0 := by
  cases hq : k'.procs q with
  | none => simp [State.linkCount, hq]
  | some b =>
    rw [h.booked.linked.links q i (by rw [hq]; rfl), h.freed i hi]
    exact noShare_parties q

def blankChannels : Channel.Index → Channel.IpcChannel := fun _ =>
  ⟨false, 0, 0, fun _ => ⟨0, 0, 0, 0, 0, fun _ => 0⟩, 0, 0, 0, [], []⟩

def blankMailbox : Ipc.Mailbox := ⟨fun _ => ⟨false, 0, 0, 0, fun _ => 0⟩, 0, fun _ => 0, 0⟩

/-- Process 1 may send to process 2, which takes a mutex. -/
def heldActs : List Action :=
  [.create .user blankMailbox, .create .user blankMailbox, .grant 1 2 1, .sync 2 .mutexCreate,
    .sync 2 (.mutexLock 0)]

theorem heldActs_isSome : (performAll (labelled act) (boot blankChannels) heldActs).isSome = true := by
  decide +kernel

def held : State := ((performAll (labelled act) (boot blankChannels) heldActs).get heldActs_isSome).2

end ProOS.Kernel
