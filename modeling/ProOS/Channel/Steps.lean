import ProOS.Channel.Model

/-! What each call can do to the channels and the processes, said once. -/

namespace ProOS.Channel

open ProOS.Framework Function Option

section Writes

variable (s : State) (p q : Pid) (i j : Index)

theorem setProc_procs (proc : Proc) : (s.setProc p proc).procs q = if q = p then some proc else s.procs q := by
  simp [State.setProc, update_apply]

theorem setChannel_channels (c : IpcChannel) : (s.setChannel i c).channels j = if j = i then c else s.channels j := by
  simp [State.setChannel, update_apply]

theorem setChannel_self : s.setChannel i (s.channels i) = s := by
  rw [State.setChannel, update_eq_self]

theorem setProc_self {s : State} {p : Pid} {proc : Proc} (hp : s.procs p = some proc) : s.setProc p proc = s := by
  rw [State.setProc, ← hp, update_eq_self]

@[simp] theorem rouse_channels : (s.rouse p).channels = s.channels := by
  rw [State.rouse]
  split <;> rfl

end Writes

theorem findChannel_some {s : State} {channelId : Int} {i : Index} (h : findChannel s channelId = some i) :
    (s.channels i).used = true ∧ (s.channels i).id = channelId := by
  rw [findChannel] at h
  split_ifs at h
  have hi := List.find?_some h
  simpa using hi

theorem processAddChannel_spec {proc b : Proc} {channelId : Int}
    (h : processAddChannel proc channelId = some b) : b = { proc with channelSlots := b.channelSlots } := by
  rw [processAddChannel] at h
  split_ifs at h
  · cases h
    rfl
  · cases h
    rfl

/-! ## Ids -/

/-- Channels in use have ids of their own, and the next one is not among them. -/
structure Ids (s : State) : Prop where
  next : 0 < s.nextChannelId
  ids : ∀ i, (s.channels i).used = true → 0 < (s.channels i).id ∧ (s.channels i).id < s.nextChannelId
  distinct : ∀ i j, (s.channels i).used = true → (s.channels j).used = true →
    (s.channels i).id = (s.channels j).id → i = j

section Ids

variable {s s' : State} {i : Index}

theorem Ids.of_same (h : Ids s) (hnext : s'.nextChannelId = s.nextChannelId)
    (hused : ∀ i, (s'.channels i).used = (s.channels i).used)
    (hid : ∀ i, (s'.channels i).id = (s.channels i).id) : Ids s' where
  next := hnext ▸ h.next
  ids := by
    intro i hi
    rw [hid, hnext]
    exact h.ids i (hused i ▸ hi)
  distinct := by
    intro i j hi hj he
    rw [hid, hid] at he
    exact h.distinct i j (hused i ▸ hi) (hused j ▸ hj) he

theorem Ids.findChannel (h : Ids s) (hi : (s.channels i).used = true) : findChannel s (s.channels i).id = some i := by
  cases hf : Channel.findChannel s (s.channels i).id with
  | none =>
    have hpos := (h.ids i hi).1
    rw [Channel.findChannel, if_neg (not_le.mpr hpos)] at hf
    have hno := List.find?_eq_none.mp hf i (List.mem_finRange i)
    simp [hi] at hno
  | some j =>
    obtain ⟨hu, hid⟩ := findChannel_some hf
    rw [h.distinct j i hu hi hid]

theorem Ids.created (h : Ids s) {c : IpcChannel} (hc : c.id = s.nextChannelId) :
    Ids { s.setChannel i c with nextChannelId := s.nextChannelId + 1 } := by
  have hnext := h.next
  -- a channel in use is the new one, under the new id, or an old one
  have hcases (j : Index) (hj : ((s.setChannel i c).channels j).used = true) :
      j = i ∧ ((s.setChannel i c).channels j).id = s.nextChannelId ∨
        (s.channels j).used = true ∧ ((s.setChannel i c).channels j).id = (s.channels j).id := by
    rw [setChannel_channels] at hj ⊢
    split_ifs at hj ⊢ with hji
    · exact .inl ⟨hji, hc⟩
    · exact .inr ⟨hj, rfl⟩
  refine ⟨Int.lt_add_one_of_le hnext.le, ?_, ?_⟩
  · intro j hj
    show 0 < ((s.setChannel i c).channels j).id ∧ ((s.setChannel i c).channels j).id < s.nextChannelId + 1
    rcases hcases j hj with ⟨-, hid⟩ | ⟨hu, hid⟩
    · omega
    · have := h.ids j hu
      omega
  · intro j l hj hl hjl
    have hjl : ((s.setChannel i c).channels j).id = ((s.setChannel i c).channels l).id := hjl
    rcases hcases j hj with ⟨hji, hid⟩ | ⟨hu, hid⟩
    · rcases hcases l hl with ⟨hli, -⟩ | ⟨hul, hidl⟩
      · rw [hji, hli]
      · have := h.ids l hul
        omega
    · rcases hcases l hl with ⟨-, hidl⟩ | ⟨hul, hidl⟩
      · have := h.ids j hu
        omega
      · exact h.distinct j l hu hul (hid.symm.trans (hjl.trans hidl))

end Ids

/-! ## Joining and leaving -/

/-- What joining or leaving a channel comes to: the slots of `p` and the arrays of one channel. -/
inductive Enrols (s : State) (p : Pid) : State → Prop
  | same : Enrols s p s
  | set {a : Proc} {i : Index} (hp : s.procs p = some a) (slots : List Int) (subscribers ws : List Pid)
      (hw : ws = (s.channels i).waiters ∨ ws = (s.channels i).waiters.erase p) :
      Enrols s p ((s.setProc p { a with channelSlots := slots }).setChannel i
        { s.channels i with subscribers := subscribers, waiters := ws })

theorem ipcChannelJoin_enrols (s : State) (p : Pid) (channelId : Int) :
    Enrols s p (ipcChannelJoin s p channelId).1 := by
  unfold ipcChannelJoin
  split
  · exact .same
  rename_i a hp
  split
  · exact .same
  rename_i i _
  split
  · exact .same
  rename_i joined hadd
  have hj := processAddChannel_spec hadd
  -- a call that leaves the channel alone writes it back as it was
  have hback (slots : List Int) : Enrols s p (s.setProc p { a with channelSlots := slots }) := by
    rw [← setChannel_self (s.setProc p _) i]
    exact .set hp slots (s.channels i).subscribers (s.channels i).waiters (.inl rfl)
  dsimp only
  split_ifs
  · rw [hj]
    exact hback _
  · rw [hj]
    exact hback _
  · rw [hj]
    exact .set hp _ _ _ (.inl rfl)

theorem ipcChannelLeave_enrols (s : State) (p : Pid) (channelId : Int) :
    Enrols s p (ipcChannelLeave s p channelId).1 := by
  unfold ipcChannelLeave
  split
  · exact .same
  rename_i a hp
  split
  · exact .same
  · exact .set hp _ _ _ (.inr rfl)

/-! ## Sending and receiving -/

/-- What a send comes to: nothing, a message in the ring, or one for the first that waits. -/
inductive Sending (s : State) (channelId : Int) (m : Buffer → Message) (data : Option Buffer) :
    State × Int → Prop
  | refused : Sending s channelId m data (s, -1)
  | stored {i : Index} {slot : Slot} {n : Nat} (hf : findChannel s channelId = some i)
      (hc : (s.channels i).count < configIpcChannelQueueLen) (hw : (s.channels i).waiters = [])
      (hm : ∀ payload, data = some payload → slot.message = m payload) :
      Sending s channelId m data (s.setChannel i ((s.channels i).push slot), n)
  | handed {i : Index} {slot : Slot} {n : Nat} {p : Pid} {rest : List Pid}
      (hf : findChannel s channelId = some i) (hc : (s.channels i).count < configIpcChannelQueueLen)
      (hw : (s.channels i).waiters = p :: rest)
      (hm : ∀ payload, data = some payload → slot.message = m payload) :
      Sending s channelId m data ((s.setChannel i { (s.channels i).push slot with waiters := rest }).rouse p, n)

theorem ipcChannelSend_sending (s : State) (channelId : Int) (senderPid : Pid) (header type : UInt32)
    (data : Option Buffer) (size : Nat) (flags : UInt32) :
    Sending s channelId (fun payload => ⟨header, type, senderPid, size, cells payload size⟩) data
      (ipcChannelSend s channelId senderPid header type data size flags) := by
  unfold ipcChannelSend
  split
  · exact .refused
  split
  · exact .refused
  rename_i i hf
  dsimp only
  split
  · exact .refused
  split
  · exact .refused
  rename_i hfull
  generalize hslot : Slot.mk header type size flags senderPid _ = slot
  have hm : ∀ payload, data = some payload →
      slot.message = ⟨header, type, senderPid, size, cells payload size⟩ := by
    rintro payload rfl
    rw [← hslot, Slot.message]
    congr 1
    apply cells_congr
    intro k hk
    simp [hk]
  split
  · rename_i hw
    exact .stored hf (not_le.mp hfull) hw hm
  · rename_i p rest hw
    exact .handed hf (not_le.mp hfull) hw hm

/-- What a pass through the receive loop leaves of channel `i` and of the process. -/
structure Passage (old : IpcChannel) (p : Pid) (proc : Proc) (i : Index) (call : ReceiveCall)
    (c : IpcChannel) (b : Proc) : Prop where
  used : c.used = old.used
  id : c.id = old.id
  subscribers : c.subscribers = old.subscribers
  slots : b.channelSlots = proc.channelSlots
  state : b.state ≠ .zombie
  inside : b.inside = none ∨ b.inside = some (i, call)
  waiters : c.waiters = old.waiters ∨
    c.waiters = old.waiters ++ [p] ∧ b.state = .waiting ∧ b.inside = some (i, call)

theorem receivePass_passage (s : State) (p : Pid) (proc : Proc) (i : Index) (call : ReceiveCall) :
    ∃ c b, (receivePass s p proc i call).1 = (s.setChannel i c).setProc p b ∧
      Passage (s.channels i) p proc i call c b := by
  have hsame (b : Proc) : s.setProc p b = (s.setChannel i (s.channels i)).setProc p b := by
    rw [setChannel_self]
  unfold receivePass
  dsimp only
  split
  · exact ⟨_, _, rfl, rfl, rfl, rfl, rfl, by simp, .inl rfl, .inl rfl⟩
  split
  · exact ⟨_, _, hsame _, rfl, rfl, rfl, rfl, by simp, .inl rfl, .inl rfl⟩
  split
  · exact ⟨_, _, hsame _, rfl, rfl, rfl, rfl, by simp, .inr rfl, .inl rfl⟩
  split
  · exact ⟨_, _, hsame _, rfl, rfl, rfl, rfl, by simp, .inl rfl, .inl rfl⟩
  · exact ⟨_, _, rfl, rfl, rfl, rfl, rfl, by simp, .inr rfl, .inr ⟨rfl, rfl, rfl⟩⟩

/-! ## Frames -/

/-- Messages and waiters change, members do not. -/
structure Framed (s s' : State) : Prop where
  next : s'.nextChannelId = s.nextChannelId
  used : ∀ i, (s'.channels i).used = (s.channels i).used
  id : ∀ i, (s'.channels i).id = (s.channels i).id
  subscribers : ∀ i, (s'.channels i).subscribers = (s.channels i).subscribers
  waiters : ∀ i, (s.channels i).used = false → (s'.channels i).waiters = (s.channels i).waiters
  slots : ∀ q, (s'.procs q).map Proc.channelSlots = (s.procs q).map Proc.channelSlots
  inside : ∀ q b i call, s'.procs q = some b → b.inside = some (i, call) →
    (s.channels i).used = true ∨ ∃ a, s.procs q = some a ∧ a.inside = some (i, call)
  zombies : ∀ q b, s'.procs q = some b → b.state = .zombie → ∃ a, s.procs q = some a ∧ a.state = .zombie

section Framed

variable {s s' s'' : State} {p : Pid} {a b : Proc} {i : Index} {c : IpcChannel}

theorem Framed.refl (s : State) : Framed s s :=
  ⟨rfl, fun _ => rfl, fun _ => rfl, fun _ => rfl, fun _ _ => rfl, fun _ => rfl,
    fun _ b _ _ hb hi => .inr ⟨b, hb, hi⟩, fun _ b hb hz => ⟨b, hb, hz⟩⟩

theorem Framed.trans (h : Framed s s') (h' : Framed s' s'') : Framed s s'' where
  next := h'.next.trans h.next
  used := fun i => (h'.used i).trans (h.used i)
  id := fun i => (h'.id i).trans (h.id i)
  subscribers := fun i => (h'.subscribers i).trans (h.subscribers i)
  waiters := fun i hi => (h'.waiters i ((h.used i).trans hi)).trans (h.waiters i hi)
  slots := fun q => (h'.slots q).trans (h.slots q)
  inside := by
    intro q b i call hb hi
    rcases h'.inside q b i call hb hi with hu | ⟨a, ha, hai⟩
    · exact .inl (h.used i ▸ hu)
    · exact h.inside q a i call ha hai
  zombies := by
    intro q c hc hz
    obtain ⟨b, hb, hbz⟩ := h'.zombies q c hc hz
    exact h.zombies q b hb hbz

theorem Framed.isSome (h : Framed s s') (q : Pid) : (s'.procs q).isSome = (s.procs q).isSome := by
  have he := congrArg Option.isSome (h.slots q)
  rwa [isSome_map, isSome_map] at he

theorem Framed.setProc (hp : s.procs p = some a) (hb : b.channelSlots = a.channelSlots)
    (hin : ∀ i call, b.inside = some (i, call) → (s.channels i).used = true ∨ a.inside = some (i, call))
    (hz : b.state = .zombie → a.state = .zombie) : Framed s (s.setProc p b) where
  next := rfl
  used := fun _ => rfl
  id := fun _ => rfl
  subscribers := fun _ => rfl
  waiters := fun _ _ => rfl
  slots := by
    intro q
    rw [setProc_procs]
    split_ifs with hq
    · rw [hq, hp, map_some, map_some, hb]
    · rfl
  inside := by
    intro q c i call hq hc
    rw [setProc_procs] at hq
    split_ifs at hq with hqp
    · cases hq
      rcases hin i call hc with hu | ha
      · exact .inl hu
      · exact .inr ⟨a, hqp ▸ hp, ha⟩
    · exact .inr ⟨c, hq, hc⟩
  zombies := by
    refine update_forall ?_ ?_
    · exact fun q c _ hc h => ⟨c, hc, h⟩
    · rintro _ ⟨⟩ h
      exact ⟨a, hp, hz h⟩

theorem Framed.setChannel (hu : (s.channels i).used = true) (hcu : c.used = (s.channels i).used)
    (hid : c.id = (s.channels i).id) (hs : c.subscribers = (s.channels i).subscribers) :
    Framed s (s.setChannel i c) := by
  have hch (j : Index) : ((s.setChannel i c).channels j).used = (s.channels j).used ∧
      ((s.setChannel i c).channels j).id = (s.channels j).id ∧
      ((s.setChannel i c).channels j).subscribers = (s.channels j).subscribers := by
    rw [setChannel_channels]
    split_ifs with hj
    · rw [hj]
      exact ⟨hcu, hid, hs⟩
    · exact ⟨rfl, rfl, rfl⟩
  refine ⟨rfl, fun j => (hch j).1, fun j => (hch j).2.1, fun j => (hch j).2.2, ?_, fun _ => rfl,
    fun _ b _ _ hb hi => .inr ⟨b, hb, hi⟩, fun _ b hb hz => ⟨b, hb, hz⟩⟩
  intro j hj
  have hne : j ≠ i := by
    rintro rfl
    rw [hu] at hj
    cases hj
  rw [setChannel_channels, if_neg hne]

theorem Framed.rouse (s : State) (p : Pid) : Framed s (s.rouse p) := by
  rw [State.rouse]
  split
  · exact .refl s
  · rename_i proc hp
    refine .setProc hp rfl (fun _ _ h => .inr h) ?_
    dsimp only
    split_ifs
    · exact fun h => nomatch h
    · exact fun h => h

theorem Sending.framed {channelId : Int} {m : Buffer → Message} {data : Option Buffer} {r : State × Int}
    (h : Sending s channelId m data r) : Framed s r.1 := by
  cases h with
  | refused => exact .refl s
  | stored hf _ _ _ => exact .setChannel (findChannel_some hf).1 rfl rfl rfl
  | handed hf _ _ _ =>
    refine Framed.trans ?_ (.rouse _ _)
    exact .setChannel (findChannel_some hf).1 rfl rfl rfl

theorem receivePass_framed (hp : s.procs p = some a) (hu : (s.channels i).used = true) (call : ReceiveCall) :
    Framed s (receivePass s p a i call).1 := by
  obtain ⟨c, b, he, h⟩ := receivePass_passage s p a i call
  rw [he]
  refine (Framed.setChannel hu h.used h.id h.subscribers).trans (.setProc hp h.slots ?_ (fun hz => absurd hz h.state))
  intro j call' hj
  rw [setChannel_channels]
  rcases h.inside with hn | hn
  · rw [hn] at hj
    cases hj
  · rw [hn] at hj
    cases hj
    exact .inl (by rw [if_pos rfl, h.used, hu])

end Framed

end ProOS.Channel
