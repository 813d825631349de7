import ProOS.Kernel.Waiting

namespace ProOS.Kernel

open ProOS.Framework Function Option List

/-! ## Links to shared regions -/

theorem countP_change {l : List Nat} (hl : l.Nodup) {j : Nat} (hj : j ∈ l) {f g : Nat → Bool}
    (h : ∀ x, x ≠ j → g x = f x) : l.countP g + (if f j then 1 else 0) = l.countP f + (if g j then 1 else 0) := by
  induction l with
  | nil => cases hj
  | cons x l ih =>
    obtain ⟨hx, hl'⟩ := nodup_cons.mp hl
    rw [countP_cons, countP_cons]
    by_cases hxj : x = j
    · subst hxj
      have hsame : l.countP g = l.countP f := by
        apply countP_congr
        intro y hy
        have hne : y ≠ x := fun he => hx (he ▸ hy)
        rw [h y hne]
      rw [hsame]
      omega
    · have hmem : j ∈ l := by
        rcases mem_cons.mp hj with he | he
        · exact absurd he.symm hxj
        · exact he
      have := ih hl' hmem
      rw [h x hxj]
      omega

def linkCount (links : Nat → ShareLink) (shareId : Int) : Nat :=
  (List.range configIpcMaxSharedPerProc).countP (fun j => (links j).used && (links j).shareId == shareId)

theorem linkCount_attach {links : Nat → ShareLink} {j : Nat} (h : freeLink links = some j) (shareId i : Int) :
    linkCount (update links j ⟨true, shareId⟩) i = linkCount links i + if i = shareId then 1 else 0 := by
  have hj := mem_of_find?_eq_some h
  have hfree := find?_some h
  simp only [Bool.not_eq_true'] at hfree
  have hc := countP_change nodup_range hj
    (f := fun x => (links x).used && (links x).shareId == i)
    (g := fun x => (update links j ⟨true, shareId⟩ x).used &&
      (update links j ⟨true, shareId⟩ x).shareId == i)
    (fun x hx => by simp [update_of_ne hx])
  simp only [update_self, hfree, Bool.false_and, Bool.true_and, beq_iff_eq] at hc
  rw [linkCount, linkCount]
  simp only [eq_comm (a := i)]
  simpa using hc

theorem linkCount_detach (a : Proc) (shareId i : Int) :
    linkCount (shareDetachFromProcess a shareId).ipcShares i =
      linkCount a.ipcShares i - if i = shareId then 1 else 0 := by
  unfold shareDetachFromProcess
  cases h : linkTo a.ipcShares shareId with
  | none =>
    have hzero : linkCount a.ipcShares shareId = 0 := by
      rw [linkCount, countP_eq_zero]
      intro j hj
      exact find?_eq_none.mp h j hj
    by_cases hi : i = shareId
    · rw [hi, hzero]
      simp
    · simp [hi]
  | some j =>
    have hj := mem_of_find?_eq_some h
    have hfound := find?_some h
    simp only [Bool.and_eq_true, beq_iff_eq] at hfound
    have hc := countP_change nodup_range hj
      (f := fun x => (a.ipcShares x).used && (a.ipcShares x).shareId == i)
      (g := fun x => (update a.ipcShares j ⟨false, -1⟩ x).used &&
        (update a.ipcShares j ⟨false, -1⟩ x).shareId == i)
      (fun x hx => by simp [update_of_ne hx])
    simp only [update_self, Bool.false_and, hfound.1, hfound.2, Bool.true_and, beq_iff_eq] at hc
    dsimp only
    rw [linkCount, linkCount]
    simp only [eq_comm (a := i)]
    simp only [Bool.false_eq_true, if_false] at hc
    omega

/-- How often a process takes part in a shared region. -/
def ShareRecord.parties (r : ShareRecord) (q : Pid) : Nat :=
  (if r.used = true ∧ r.owner = q then 1 else 0) + (if r.used = true ∧ r.target = q then 1 else 0)

def State.linkCount (k : State) (q : Pid) (i : Int) : Nat :=
  ((k.procs q).map (fun a => Kernel.linkCount a.ipcShares i)).getD 0

variable {k : State} {a : Proc} {p : Pid} {s : Channel.State}

theorem linkCount_of {q : Pid} (h : k.procs q = some a) (i : Int) :
    k.linkCount q i = Kernel.linkCount a.ipcShares i := by rw [State.linkCount, h]; rfl

theorem setProc_linkCount (k : State) (p q : Pid) (b : Proc) (i : Int) :
    (k.setProc p (some b)).linkCount q i = if q = p then Kernel.linkCount b.ipcShares i else k.linkCount q i := by
  rw [State.linkCount, setProc_lookup]
  split_ifs <;> rfl

theorem attach_linkCount {k' : State} {shareId : Int} (h : k.attach p shareId = some k') (q : Pid) (i : Int) :
    k'.linkCount q i = k.linkCount q i + if q = p ∧ i = shareId then 1 else 0 := by
  unfold State.attach at h
  split at h
  · cases h
  · rename_i a ha
    obtain ⟨b, hb, rfl⟩ := map_eq_some_iff.mp h
    obtain ⟨j, hj, rfl⟩ := map_eq_some_iff.mp hb
    rw [setProc_linkCount]
    by_cases hq : q = p
    · rw [if_pos hq, hq, linkCount_of ha, linkCount_attach hj]
      simp
    · simp [hq]

theorem detach_linkCount (p : Pid) (shareId : Int) (q : Pid) (i : Int) (hpos : q ≤ 0 → k.procs q = none) :
    (k.detach p shareId).linkCount q i = k.linkCount q i - if q = p ∧ i = shareId then 1 else 0 := by
  unfold State.detach
  cases hl : processLookup k p with
  | none =>
    by_cases hq : q = p
    · have hnone : k.procs q = none := by
        unfold processLookup at hl
        split at hl
        · rename_i hle
          exact hpos (hq ▸ hle)
        · rw [hq]
          exact hl
      simp [State.linkCount, hnone]
    · simp [hq]
  | some a =>
    rw [setProc_linkCount]
    by_cases hq : q = p
    · rw [if_pos hq, hq, linkCount_of (processLookup_some hl), linkCount_detach]
      simp
    · simp [hq]

/-! ## The tables -/

/-- Pids are given out in order, once the kernel is up. -/
structure Numbered (k : State) : Prop where
  initialized : k.initialized = true
  next : 0 < k.nextPid
  pids : ∀ q a, k.procs q = some a → 0 < q ∧ q < k.nextPid

/-- A live process has a link for every part it takes in a shared region, and no other. -/
structure Linked (k : State) : Prop where
  parties : ∀ i, (k.shareTable i).used = true → i < configIpcMaxSharedRegions ∧
    (k.shareTable i).owner < k.nextPid ∧ (k.shareTable i).target < k.nextPid
  links : ∀ q (i : Nat), (k.procs q).isSome = true → k.linkCount q i = (k.shareTable i).parties q

structure Served (k : State) : Prop where
  pids : ∀ i, (k.serviceTable i).pid < k.nextPid
  unique : ∀ i j, 0 < (k.serviceTable i).pid → (k.serviceTable i).pid = (k.serviceTable j).pid → i = j
  range : ∀ i, 0 < (k.serviceTable i).pid → i < systemServiceCount

structure Booked (k : State) : Prop where
  waiting : Waiting k
  numbered : Numbered k
  linked : Linked k
  roster : Channel.Roster k.channel
  served : Served k

/-! ## Calls that leave the tables alone -/

def Proc.links (a : Proc) : (Nat → ShareLink) × Nat := (a.ipcShares, a.ipcShareCount)

/-- Only processes, channels and locks have changed, and the links of no process. -/
structure Keeps (k k' : State) : Prop where
  rest : { k' with
    procs := k.procs, processCount := k.processCount, channels := k.channels
    nextChannelId := k.nextChannelId, mutexes := k.mutexes, semaphores := k.semaphores } = k
  links : ∀ q, (k'.procs q).map Proc.links = (k.procs q).map Proc.links

/-- Processes may run, sleep and be woken, but the tables stay. -/
structure Turn (k k' : State) : Prop extends Keeps k k' where
  framed : Channel.Framed k.channel k'.channel
  waiting : Waiting k'

/-- Messages of the log and of the scheduler take waiters off arrays and leave all else alone. -/
structure Posted (k k' : State) : Prop extends Turn k k' where
  lists : ∀ place, (k'.waitList place).Sublist (k.waitList place)
  caps : ∀ q, (k'.procs q).map Proc.caps = (k.procs q).map Proc.caps
  mutexes : k'.mutexes = k.mutexes

section Tables

variable {k' k'' : State} {b : Proc}

theorem Numbered.of_procs (hn : Numbered k) (hin : k'.initialized = k.initialized)
    (hnp : k'.nextPid = k.nextPid) (hp : ∀ q b, k'.procs q = some b → ∃ a, k.procs q = some a) :
    Numbered k' where
  initialized := hin.trans hn.initialized
  next := hnp ▸ hn.next
  pids := by
    intro q b hb
    obtain ⟨a, ha⟩ := hp q b hb
    rw [hnp]
    exact hn.pids q a ha

theorem Served.of_table (hs : Served k) (hsv : k'.serviceTable = k.serviceTable)
    (hnp : k'.nextPid = k.nextPid) : Served k' where
  pids := by
    rw [hsv, hnp]
    exact hs.pids
  unique := by
    rw [hsv]
    exact hs.unique
  range := by
    rw [hsv]
    exact hs.range

theorem Booked.of_procs (hb : Booked k) (hrest : { k' with
      procs := k.procs, processCount := k.processCount, channels := k.channels
      nextChannelId := k.nextChannelId, mutexes := k.mutexes, semaphores := k.semaphores } = k)
    (hp : ∀ q b, k'.procs q = some b → ∃ a, k.procs q = some a ∧ b.ipcShares = a.ipcShares)
    (hw : Waiting k') (hr : Channel.Roster k'.channel) : Booked k' := by
  have hnp : k'.nextPid = k.nextPid := (congrArg State.nextPid hrest :)
  have hst : k'.shareTable = k.shareTable := (congrArg State.shareTable hrest :)
  refine ⟨hw, hb.numbered.of_procs (congrArg State.initialized hrest :) hnp ?_, ⟨?_, ?_⟩, hr,
    hb.served.of_table (congrArg State.serviceTable hrest :) hnp⟩
  · intro q b hq
    obtain ⟨a, ha, -⟩ := hp q b hq
    exact ⟨a, ha⟩
  · rw [hst, hnp]
    exact hb.linked.parties
  · intro q i hq
    obtain ⟨b, hbq⟩ := isSome_iff_exists.mp hq
    obtain ⟨a, ha, hs⟩ := hp q b hbq
    rw [linkCount_of hbq, hs, ← linkCount_of ha, hst]
    exact hb.linked.links q i (by rw [ha]; rfl)

theorem Keeps.refl (k : State) : Keeps k k := ⟨rfl, fun _ => rfl⟩

theorem Keeps.trans (h : Keeps k k') (h' : Keeps k' k'') : Keeps k k'' where
  rest := by
    have h1 := congrArg (fun x : State => { x with
      procs := k.procs, processCount := k.processCount, channels := k.channels
      nextChannelId := k.nextChannelId, mutexes := k.mutexes, semaphores := k.semaphores }) h'.rest
    exact h1.trans h.rest
  links := fun q => (h'.links q).trans (h.links q)

theorem Keeps.shares (h : Keeps k k') : k'.shareTable = k.shareTable := (congrArg State.shareTable h.rest :)

theorem Keeps.services (h : Keeps k k') : k'.serviceTable = k.serviceTable :=
  (congrArg State.serviceTable h.rest :)

theorem Keeps.isSome (h : Keeps k k') (q : Pid) : (k'.procs q).isSome = (k.procs q).isSome := by
  have he := congrArg Option.isSome (h.links q)
  rwa [isSome_map, isSome_map] at he

theorem Keeps.links_of (h : Keeps k k') {q : Pid} (hb : k'.procs q = some b) :
    ∃ a, k.procs q = some a ∧ b.links = a.links := by
  have he := h.links q
  rw [hb, map_some] at he
  obtain ⟨a, ha, hl⟩ := map_eq_some_iff.mp he.symm
  exact ⟨a, ha, hl.symm⟩

theorem Booked.keeps (hb : Booked k) (h : Keeps k k') (hw : Waiting k') (hr : Channel.Roster k'.channel) :
    Booked k' := by
  refine hb.of_procs h.rest (fun q b hq => ?_) hw hr
  obtain ⟨a, ha, hl⟩ := h.links_of hq
  exact ⟨a, ha, (Prod.mk.inj hl).1⟩

theorem Booked.turn (hb : Booked k) (h : Turn k k') : Booked k' :=
  hb.keeps h.toKeeps h.waiting (hb.roster.framed h.framed)

theorem Keeps.set (hp : k.procs p = some a) (hb : b.links = a.links) : Keeps k (k.setProc p (some b)) where
  rest := rfl
  links := by
    intro q
    rw [setProc_lookup]
    split_ifs with hq
    · rw [hq, hp, map_some, map_some, hb]
    · rfl

theorem Keeps.setIpc {s : Ipc.State} (hfit : Fits k s.procs) : Keeps k (k.setIpc s) :=
  ⟨rfl, hfit.map_bind Proc.setIpc Proc.links (fun _ _ => rfl)⟩

theorem Keeps.setChannel (hfit : Fits k s.procs) : Keeps k (k.setChannel s) :=
  ⟨rfl, hfit.map_bind Proc.setChannel Proc.links (fun _ _ => rfl)⟩

theorem Keeps.setSync (k : State) (s : Sync.State) : Keeps k (k.setSync s) := by
  refine ⟨rfl, fun q => ?_⟩
  rw [State.setSync, Option.map_map]
  rfl

end Tables

/-! What the channels see of a call. -/

section Views

variable {k' : State} {b : Proc}

theorem mergeInside_read {α : Type} (read : Inside → Option α) (write : α → Inside)
    (hwr : ∀ c, read (write c) = some c) (old : Option Inside) (new : Option α) :
    (mergeInside read write old new).bind read = new := by
  cases new with
  | some c => exact hwr c
  | none =>
    cases hr : old.bind read with
    | none => simp [mergeInside, hr]
    | some c => simp [mergeInside, hr]

theorem mergeInside_kept {α : Type} (read : Inside → Option α) (write : α → Inside)
    (hwr : ∀ c, read (write c) = some c) {old : Option Inside} {new : Option α} {x : Inside}
    (hx : read x = none) (h : mergeInside read write old new = some x) : old = some x := by
  cases new with
  | some c =>
    cases h
    rw [hwr] at hx
    cases hx
  | none =>
    simp only [mergeInside] at h
    split_ifs at h
    exact h

theorem setChannel_read (h : Fits k s.procs) : (k.setChannel s).channel = s := by
  have hprocs : (k.setChannel s).channel.procs = s.procs := by
    funext q
    have hq := h q
    cases hk : k.procs q with
    | none =>
      rw [hk] at hq
      have hs := isNone_iff_eq_none.mp (isSome_eq_false_iff.mp (show (s.procs q).isSome = false from hq))
      simp [State.channel, State.setChannel, hk, hs]
    | some a =>
      rw [hk] at hq
      obtain ⟨b, hb⟩ := isSome_iff_exists.mp hq
      have hin := mergeInside_read Inside.channel? (fun c => Inside.channel c.1 c.2) (fun _ => rfl)
      simp only [State.channel, State.setChannel, hk, hb, bind_some, map_some, Proc.channel,
        Proc.setChannel, hin]
  exact congrArg (Channel.State.mk s.channels s.nextChannelId) hprocs

theorem setProc_channel (k : State) (p : Pid) (o : Option Proc) : (k.setProc p o).channel =
    { k.channel with procs := update k.channel.procs p (o.map Proc.channel) } := by
  have hprocs : (k.setProc p o).channel.procs = update k.channel.procs p (o.map Proc.channel) := by
    funext q
    rw [State.channel, update_apply]
    dsimp only
    rw [setProc_lookup]
    split_ifs <;> rfl
  exact congrArg (Channel.State.mk k.channels k.nextChannelId) hprocs

theorem channel_inside {i : Channel.Index} {call : Channel.ReceiveCall} (h : a.channel.inside = some (i, call)) :
    a.inside = some (.channel i call) := by
  obtain ⟨x, hx, hr⟩ := bind_eq_some_iff.mp h
  rw [hx, ← channel_write x (i, call) hr]

theorem ipc_procs (hp : k.procs p = some a) : k.ipc.procs p = some a.ipc := by
  simp [State.ipc, hp]

theorem channel_procs (hp : k.procs p = some a) : k.channel.procs p = some a.channel := by
  simp [State.channel, hp]

theorem framed_of (hc : k'.channels = k.channels) (hn : k'.nextChannelId = k.nextChannelId)
    (hslots : ∀ q, (k'.procs q).map Proc.channelSlots = (k.procs q).map Proc.channelSlots)
    (hp : ∀ q b, k'.procs q = some b → ∃ a, k.procs q = some a ∧ (b.state = .zombie → a.state = .zombie) ∧
      ∀ i call, b.inside = some (.channel i call) → a.inside = some (.channel i call)) :
    Channel.Framed k.channel k'.channel := by
  have hch (i : Channel.Index) : k'.channel.channels i = k.channel.channels i := congrFun hc i
  have hof (q : Pid) (b : Channel.Proc) (hb : k'.channel.procs q = some b) :
      ∃ a, ∃ c : Proc, k.procs q = some a ∧ b = c.channel ∧ (c.state = .zombie → a.state = .zombie) ∧
      ∀ i call, c.inside = some (.channel i call) → a.inside = some (.channel i call) := by
    obtain ⟨c, hc, rfl⟩ := map_eq_some_iff.mp hb
    obtain ⟨a, ha, hz, hi⟩ := hp q c hc
    exact ⟨a, c, ha, rfl, hz, hi⟩
  refine ⟨hn, fun i => by rw [hch], fun i => by rw [hch], fun i => by rw [hch], fun i _ => by rw [hch], ?_, ?_, ?_⟩
  · intro q
    rw [State.channel, State.channel, Option.map_map, Option.map_map]
    exact hslots q
  · intro q b i call hb hi
    obtain ⟨a, c, ha, rfl, -, hin⟩ := hof q b hb
    refine .inr ⟨a.channel, channel_procs ha, ?_⟩
    rw [Proc.channel, hin i call (channel_inside hi)]
    rfl
  · intro q b hb hz
    obtain ⟨a, c, ha, rfl, hzc, -⟩ := hof q b hb
    exact ⟨a.channel, channel_procs ha, hzc hz⟩

theorem framed_setIpc {s : Ipc.State} (hfit : Fits k s.procs) (hz : Ipc.NoNewZombie k.ipc s) :
    Channel.Framed k.channel (k.setIpc s).channel := by
  refine framed_of rfl rfl (hfit.map_bind Proc.setIpc Proc.channelSlots (fun _ _ => rfl)) ?_
  intro q c hc
  obtain ⟨a, ha, hsome⟩ := bind_eq_some_iff.mp hc
  obtain ⟨b, hb, rfl⟩ := map_eq_some_iff.mp hsome
  refine ⟨a, ha, ?_, fun i call h => mergeInside_kept Inside.recv? .recv (fun _ => rfl) rfl h⟩
  intro hzb
  obtain ⟨d, hd, hdz⟩ := hz q b hb hzb
  obtain ⟨a', ha', rfl⟩ := map_eq_some_iff.mp hd
  rw [ha] at ha'
  cases ha'
  exact hdz

theorem Fits.framed (h : Channel.Framed k.channel s) : Fits k s.procs :=
  fun q => (h.isSome q).trans (Fits.view k Proc.channel q)

end Views

section Calls

variable (hw : Waiting k)

theorem Turn.setChannel (h : Channel.Framed k.channel s) (hw : Waiting (k.setChannel s)) : Turn k (k.setChannel s) :=
  ⟨.setChannel (.framed h), by rwa [setChannel_read (.framed h)], hw⟩

theorem Turn.set {b : Proc} (hp : k.procs p = some a) (hl : b.links = a.links)
    (hs : b.channelSlots = a.channelSlots) (hz : b.state = .zombie → a.state = .zombie)
    (hi : ∀ i call, b.inside = some (.channel i call) → a.inside = some (.channel i call))
    (hw : Waiting (k.setProc p (some b))) : Turn k (k.setProc p (some b)) := by
  refine ⟨.set hp hl, framed_of rfl rfl ?_ ?_, hw⟩
  · intro q
    rw [setProc_lookup]
    split_ifs with hq
    · rw [hq, hp, map_some, map_some, hs]
    · rfl
  · refine update_forall ?_ ?_
    · exact fun q c _ hc => ⟨c, hc, id, fun _ _ => id⟩
    · rintro _ ⟨⟩
      exact ⟨a, hp, hz, hi⟩

include hw

theorem Turn.refl : Turn k k := ⟨.refl k, .refl _, hw⟩

theorem Posted.mail (current : Option Pid) (target : Pid) (msg : Option Ipc.Buffer) (size : Nat) :
    Posted k (k.setIpc (Ipc.ipcSend k.ipc current target msg size).1) := by
  have hstart : Waiting (k.setIpc k.ipc) := by rwa [State.setIpc_ipc]
  have hlose := Ipc.Loses.ipcSend (fun q => ipc_waitList k q ▸ hw.nodup _) current target msg size
  have hview := Fits.view k Proc.ipc
  have hfit := hview.frame hlose.frame
  refine ⟨⟨.setIpc hfit, framed_setIpc hfit hlose.zombies, hstart.loses hview hlose⟩, ?_, ?_, rfl⟩
  · have hl := setIpc_lists hview hfit hlose.lists
    rwa [State.setIpc_ipc] at hl
  · intro q
    have hframe := hlose.frame.2 q
    generalize Ipc.ipcSend k.ipc current target msg size = r at hframe ⊢
    cases hk : k.procs q with
    | none => simp [State.setIpc, hk]
    | some a =>
      rw [ipc_procs hk, map_some] at hframe
      obtain ⟨b, hb, he⟩ := map_eq_some_iff.mp hframe
      have hcaps : b.caps = a.caps := (congrArg (fun c => c.2.1) he :)
      simp [State.setIpc, hk, hb, Proc.setIpc, hcaps]

theorem Posted.send (channelId : Int) (senderPid : Pid) (header type : UInt32) (data : Option Channel.Buffer)
    (size : Nat) (flags : UInt32) : Posted k (k.setChannel
      (Channel.ipcChannelSend k.channel channelId senderPid header type data size flags).1) := by
  have hr := Channel.ipcChannelSend_sending k.channel channelId senderPid header type data size flags
  obtain ⟨hw', hl⟩ := hw.sending hr
  exact ⟨.setChannel hr.framed hw', hl,
    (Fits.framed hr.framed).map_bind Proc.setChannel Proc.caps (fun _ _ => rfl), rfl⟩

theorem Posted.post (current : Option Pid) (m : Post) : Posted k (k.post current m) := by
  cases m with
  | mail target msg size => exact .mail hw current target msg size
  | channel channelId header type payload size => exact .send hw channelId 0 header type _ size 0

theorem Turn.recvPass (hp : k.procs p = some a) (ha : a.state ≠ .waiting)
    {call : Ipc.RecvCall} {logs : Nat → Option Ipc.LogSend} {e : Ipc.Event} {s' : Ipc.State}
    (hpass : Ipc.recvPass k.ipc p a.ipc call logs = some (e, s')) : Turn k (k.setIpc s') := by
  have hlook := ipc_procs hp
  have hview := Fits.view k Proc.ipc
  have hstart : Waiting (k.setIpc k.ipc) := by rwa [State.setIpc_ipc]
  obtain ⟨s₁, b, hlose, hb, hend⟩ :=
    Ipc.recvPass_loses (fun q => ipc_waitList k q ▸ hw.nodup _) hlook hpass
  generalize hrun : ({ a.ipc with state := .running, ipcWaiting := false } : Ipc.Proc) = run at hlose
  have hstate : run.state = .running := by rw [← hrun]
  have hself : (k.ipc.setProc p (some run)).procs p = some run := by rw [Ipc.setProc_procs, if_pos rfl]
  have hfit₀ : Fits k (k.ipc.setProc p (some run)).procs := hview.update hlook run
  have h₀ := hstart.setRunning hview hlook ha (b := run) (by rw [← hrun])
  have h₁ := h₀.loses hfit₀ hlose
  have hfit₁ := hfit₀.frame hlose.frame
  have hz₁ : Ipc.NoNewZombie k.ipc s₁ :=
    (Ipc.NoNewZombie.set hlook (by rw [hstate]; simp)).trans hlose.zombies
  -- the process itself still runs: nobody lists a process that does
  have hrunning : b.state = .running := by
    rcases hlose.standing p with he | ⟨r, hin, -⟩
    · rw [Ipc.standing_of hself, Ipc.standing_of hb] at he
      exact (Prod.mk.inj (some.inj he)).1.trans hstate
    · rw [← setIpc_mailbox hfit₀] at hin
      obtain ⟨x, hx, -⟩ := h₀.listed _ p hin
      exact absurd ⟨_, hx⟩ (setIpc_awake k hself (by rw [hstate]; simp))
  have hawake : b.state ≠ .waiting := by rw [hrunning]; simp
  rcases hend with ⟨w, rfl⟩ | rfl
  · exact ⟨.setIpc (hfit₁.update hb _), framed_setIpc (hfit₁.update hb _) (hz₁.trans (.set hb (by simp))),
      h₁.setRunning hfit₁ hb hawake rfl⟩
  · refine ⟨.setIpc (hfit₁.update hb _), framed_setIpc (hfit₁.update hb _) (hz₁.trans (.set hb (by simp))), ?_⟩
    rcases Ipc.mailboxPushWaiter_list b.mailbox p with hl | hl
    · exact h₁.setRunning hfit₁ hb hawake hl
    · exact h₁.setAsleep hfit₁ hb hawake hl rfl rfl

theorem Turn.receivePass (hp : k.procs p = some a) (ha : a.state ≠ .waiting)
    {i : Channel.Index} (hu : (k.channels i).used = true) (call : Channel.ReceiveCall) :
    Turn k (k.setChannel (Channel.receivePass k.channel p a.channel i call).1) := by
  exact .setChannel (Channel.receivePass_framed (channel_procs hp) hu call) (hw.receivePass hp ha i call)

theorem Turn.syncEffect (hp : k.procs p = some a) (ha : a.state ≠ .waiting)
    {s : Sync.State} (he : Sync.Effect k.sync p s) : Turn k (k.setSync s) := by
  refine ⟨.setSync k s, framed_of rfl rfl ?_ ?_, hw.syncEffect hp ha he⟩
  · intro q
    rw [State.setSync, Option.map_map]
    rfl
  · intro q c hc
    obtain ⟨b, hb, rfl⟩ := map_eq_some_iff.mp hc
    refine ⟨b, hb, ?_, fun i call h => mergeInside_kept Inside.sync? .sync (fun _ => rfl) rfl h⟩
    intro hz
    have hold : (k.sync.procs q).state = .zombie := he.zombie hz
    simpa [State.sync, Proc.sync, hb] using hold

theorem Turn.capEdit {owner : Pid} {new : Pid → Prop} {s : Ipc.State} (h : Ipc.CapEdit k.ipc owner new s) :
    Turn k (k.setIpc s) := by
  have hwait := hw.capEdit h
  have hview := Fits.view k Proc.ipc
  cases h with
  | same => exact ⟨.setIpc hview, framed_setIpc hview (.refl _), hwait⟩
  | entry hp =>
    exact ⟨.setIpc (hview.update hp _), framed_setIpc (hview.update hp _) (.set hp id), hwait⟩

end Calls

theorem Posted.posts (hw : Waiting k) (current : Option Pid) (ms : List Post) :
    Posted k (ms.foldl (State.post current) k) := by
  induction ms generalizing k with
  | nil => exact ⟨.refl hw, fun _ => .refl _, fun _ => rfl, rfl⟩
  | cons m ms ih =>
    have hpost := Posted.post hw current m
    have hrest := ih hpost.waiting
    exact ⟨⟨hpost.toKeeps.trans hrest.toKeeps, hpost.framed.trans hrest.framed, hrest.waiting⟩,
      fun place => (hrest.lists place).trans (hpost.lists place),
      fun q => (hrest.caps q).trans (hpost.caps q), hrest.mutexes.trans hpost.mutexes⟩

end ProOS.Kernel
