import ProOS.Channel.Arrays

namespace ProOS.Channel

open ProOS.Framework Option List

/-! ## Membership, on lists -/

/-- What holds of the channel table whatever the processes say. -/
structure Table (s : State) : Prop extends Ids s where
  idle : s.Idle
  once : ∀ i, (s.channels i).subscribers.Nodup
  room : ∀ i, (s.channels i).subscribers.length ≤ configIpcChannelSubscribers

/-- Channels list their members and members their channels. -/
structure Members (s : State) : Prop extends Table s where
  slotsOnce : ∀ p a, s.procs p = some a → a.channelSlots.Nodup
  slotsRoom : ∀ p a, s.procs p = some a → a.channelSlots.length ≤ configProcessChannelSlots
  joined : ∀ p a channelId, s.procs p = some a → channelId ∈ a.channelSlots →
    ∃ i, (s.channels i).used = true ∧ (s.channels i).id = channelId ∧ p ∈ (s.channels i).subscribers
  known : ∀ i p, p ∈ (s.channels i).subscribers →
    ∃ a, s.procs p = some a ∧ (s.channels i).id ∈ a.channelSlots
  inside : ∀ p a i call, s.procs p = some a → a.inside = some (i, call) → (s.channels i).used = true

/-- And no zombie has a slot left. -/
structure Roster (s : State) : Prop extends Members s where
  shed : ∀ p a, s.procs p = some a → a.state = .zombie → a.channelSlots = []

section Table

variable {s s' s'' : State} {p : Pid} {i : Index} {channelId : Int}

theorem Table.used_of_mem (ht : Table s) (h : p ∈ (s.channels i).subscribers) : (s.channels i).used = true := by
  cases hu : (s.channels i).used with
  | true => rfl
  | false =>
    rw [(ht.idle i hu).2] at h
    cases h

/-- `p` is taken off the channels whose ids are `gone`; nothing else changes but waiters that leave. -/
structure Dropped (p : Pid) (gone : Int → Prop) (s s' : State) : Prop where
  next : s'.nextChannelId = s.nextChannelId
  procs : s'.procs = s.procs
  used : ∀ i, (s'.channels i).used = (s.channels i).used
  id : ∀ i, (s'.channels i).id = (s.channels i).id
  waiters : ∀ i, (s'.channels i).waiters.Sublist (s.channels i).waiters
  subscribers : ∀ i, (s'.channels i).subscribers.Sublist (s.channels i).subscribers
  others : ∀ i q, q ≠ p → (q ∈ (s'.channels i).subscribers ↔ q ∈ (s.channels i).subscribers)
  self : ∀ i, p ∈ (s'.channels i).subscribers ↔ p ∈ (s.channels i).subscribers ∧ ¬gone (s.channels i).id

theorem Dropped.table {gone : Int → Prop} (h : Dropped p gone s s') (ht : Table s) : Table s' where
  toIds := ht.toIds.of_same h.next h.used h.id
  idle := by
    intro i hi
    rw [h.used] at hi
    obtain ⟨hw, hs⟩ := ht.idle i hi
    have hw' := h.waiters i
    have hs' := h.subscribers i
    rw [hw] at hw'
    rw [hs] at hs'
    exact ⟨sublist_nil.mp hw', sublist_nil.mp hs'⟩
  once := fun i => (h.subscribers i).nodup (ht.once i)
  room := fun i => (h.subscribers i).length_le.trans (ht.room i)

theorem Dropped.trans {gone gone' : Int → Prop} (h : Dropped p gone s s') (h' : Dropped p gone' s' s'') :
    Dropped p (fun c => gone c ∨ gone' c) s s'' where
  next := h'.next.trans h.next
  procs := h'.procs.trans h.procs
  used := fun i => (h'.used i).trans (h.used i)
  id := fun i => (h'.id i).trans (h.id i)
  waiters := fun i => (h'.waiters i).trans (h.waiters i)
  subscribers := fun i => (h'.subscribers i).trans (h.subscribers i)
  others := fun i q hq => (h'.others i q hq).trans (h.others i q hq)
  self := by
    intro i
    rw [h'.self, h.self, h.id, not_or, and_assoc]

theorem Table.channelDrop (ht : Table s) (p : Pid) (channelId : Int) :
    Dropped p (· = channelId) s (channelDrop p s channelId) := by
  unfold Channel.channelDrop
  cases hf : Channel.findChannel s channelId with
  | none =>
    refine ⟨rfl, rfl, fun _ => rfl, fun _ => rfl, fun _ => .refl _, fun _ => .refl _,
      fun _ _ _ => Iff.rfl, ?_⟩
    -- a channel with this id would have been found
    intro i
    refine ⟨fun hmem => ⟨hmem, ?_⟩, And.left⟩
    intro hid
    have hfound := ht.toIds.findChannel (ht.used_of_mem hmem)
    rw [hid, hf] at hfound
    cases hfound
  | some i =>
    obtain ⟨hu, hid⟩ := findChannel_some hf
    dsimp only
    generalize hc : channelRemoveWaiter (channelRemoveSubscriber (s.channels i) p) p = c
    have hother (j : Index) (hj : j ≠ i) : (s.setChannel i c).channels j = s.channels j := by
      rw [setChannel_channels, if_neg hj]
    have hself : (s.setChannel i c).channels i = channelRemoveWaiter
        (channelRemoveSubscriber (s.channels i) p) p := by
      rw [setChannel_channels, if_pos rfl, hc]
    -- one channel at a time, and every other is as it was
    have hall (j : Index) : ((s.setChannel i c).channels j).used = (s.channels j).used ∧
        ((s.setChannel i c).channels j).id = (s.channels j).id ∧
        ((s.setChannel i c).channels j).waiters.Sublist (s.channels j).waiters ∧
        ((s.setChannel i c).channels j).subscribers.Sublist (s.channels j).subscribers ∧
        (∀ q, q ≠ p → (q ∈ ((s.setChannel i c).channels j).subscribers ↔ q ∈ (s.channels j).subscribers)) ∧
        (p ∈ ((s.setChannel i c).channels j).subscribers ↔
          p ∈ (s.channels j).subscribers ∧ (s.channels j).id ≠ channelId) := by
      by_cases hj : j = i
      · have hgone : p ∉ (s.channels i).subscribers.erase p := (ht.once i).not_mem_erase
        rw [hj, hself]
        exact ⟨rfl, rfl, erase_sublist, erase_sublist, fun q hq => mem_erase_of_ne hq,
          fun hmem => absurd hmem hgone, fun hmem => absurd hid hmem.2⟩
      · rw [hother j hj]
        refine ⟨rfl, rfl, .refl _, .refl _, fun _ _ => Iff.rfl, fun hmem => ⟨hmem, ?_⟩, And.left⟩
        intro hjd
        exact hj (ht.distinct j i (ht.used_of_mem hmem) hu (hjd.trans hid.symm))
    exact ⟨rfl, rfl, fun j => (hall j).1, fun j => (hall j).2.1, fun j => (hall j).2.2.1,
      fun j => (hall j).2.2.2.1, fun j => (hall j).2.2.2.2.1, fun j => (hall j).2.2.2.2.2⟩

theorem Table.foldl_channelDrop (ht : Table s) (p : Pid) (l : List Int) :
    Dropped p (· ∈ l) s (l.foldl (Channel.channelDrop p) s) := by
  induction l generalizing s with
  | nil =>
    exact ⟨rfl, rfl, fun _ => rfl, fun _ => rfl, fun _ => .refl _, fun _ => .refl _,
      fun _ _ _ => Iff.rfl, fun _ => by simp⟩
  | cons channelId l ih =>
    have hone := ht.channelDrop p channelId
    have hrest := hone.trans (ih (hone.table ht))
    simpa only [mem_cons, foldl_cons] using hrest

end Table

section Steps

variable {s s' : State} {p : Pid} {a b : Proc} {i : Index} {channelId : Int}

theorem Members.findChannel_id (hm : Members s) (hf : findChannel s channelId = some i)
    (hp : s.procs p = some a) : channelId ∈ a.channelSlots ↔ p ∈ (s.channels i).subscribers := by
  obtain ⟨hu, hid⟩ := findChannel_some hf
  constructor
  · intro hmem
    obtain ⟨j, hj, hjd, hsub⟩ := hm.joined p a channelId hp hmem
    rwa [← hm.distinct j i hj hu (hjd.trans hid.symm)]
  · intro hsub
    obtain ⟨a', ha', hmem⟩ := hm.known i p hsub
    obtain rfl : a = a' := by simpa [hp] using ha'
    rwa [← hid]

theorem Roster.parted (hm : Roster s) {gone : Int → Prop} (h : Dropped p gone s s')
    (hp : s.procs p = some a) (hsub : b.channelSlots.Sublist a.channelSlots)
    (hmem : ∀ c, c ∈ b.channelSlots ↔ c ∈ a.channelSlots ∧ ¬gone c)
    (hin : b.inside = a.inside) (hz : b.state = .zombie → b.channelSlots = []) : Roster (s'.setProc p b) := by
  have hlook : (s'.setProc p b).procs = Function.update s.procs p (some b) := by rw [← h.procs]; rfl
  have ht := h.table hm.toTable
  refine ⟨⟨⟨⟨ht.next, ht.ids, ht.distinct⟩, ht.idle, ht.once, ht.room⟩, ?_, ?_, ?_, ?_, ?_⟩, ?_⟩
  · rw [hlook]
    apply update_forall (fun q c _ => hm.slotsOnce q c)
    rintro _ ⟨⟩
    exact hsub.nodup (hm.slotsOnce p a hp)
  · rw [hlook]
    apply update_forall (fun q c _ => hm.slotsRoom q c)
    rintro _ ⟨⟩
    exact hsub.length_le.trans (hm.slotsRoom p a hp)
  · intro q c channelId hq hc
    rw [setProc_procs, h.procs] at hq
    split_ifs at hq with hqp
    · cases hq
      obtain ⟨hold, hstay⟩ := (hmem channelId).mp hc
      obtain ⟨i, hu, hid, hsubs⟩ := hm.joined p a channelId hp hold
      refine ⟨i, (h.used i).trans hu, (h.id i).trans hid, ?_⟩
      rw [hqp]
      exact (h.self i).mpr ⟨hsubs, by rw [hid]; exact hstay⟩
    · obtain ⟨i, hu, hid, hsubs⟩ := hm.joined q c channelId hq hc
      exact ⟨i, (h.used i).trans hu, (h.id i).trans hid, (h.others i q hqp).mpr hsubs⟩
  · intro i q hq
    show ∃ c, (s'.setProc p b).procs q = some c ∧ (s'.channels i).id ∈ c.channelSlots
    rw [setProc_procs, h.procs, h.id]
    by_cases hqp : q = p
    · have hq' : q ∈ (s'.channels i).subscribers := hq
      rw [hqp] at hq'
      obtain ⟨hsubs, hstay⟩ := (h.self i).mp hq'
      obtain ⟨a', ha', hid⟩ := hm.known i p hsubs
      obtain rfl : a = a' := by simpa [hp] using ha'
      rw [if_pos hqp]
      exact ⟨b, rfl, (hmem _).mpr ⟨hid, hstay⟩⟩
    · rw [if_neg hqp]
      exact hm.known i q ((h.others i q hqp).mp hq)
  · intro q c i call hq hc
    refine (h.used i).trans ?_
    rw [setProc_procs, h.procs] at hq
    split_ifs at hq with hqp
    · cases hq
      exact hm.inside p a i call hp (hin ▸ hc)
    · exact hm.inside q c i call hq hc
  · rw [hlook]
    apply update_forall (fun q c _ => hm.shed q c)
    rintro _ ⟨⟩
    exact hz

theorem Roster.ipcChannelLeave (hm : Roster s) (hp : s.procs p = some a) (hz : a.state ≠ .zombie)
    (channelId : Int) : Roster (ipcChannelLeave s p channelId).1 := by
  have hdrop := hm.toTable.channelDrop p channelId
  unfold channelDrop at hdrop
  unfold Channel.ipcChannelLeave
  rw [hp]
  dsimp only
  split
  · exact hm
  · rename_i i hf
    simp only [hf] at hdrop
    have hnd := hm.slotsOnce p a hp
    refine hm.parted (b := processRemoveChannel a channelId) hdrop hp erase_sublist ?_ rfl
      (fun h => absurd h hz)
    intro c
    rw [processRemoveChannel, hnd.mem_erase_iff]
    exact and_comm

theorem Roster.processExit (hm : Roster s) (hp : s.procs p = some a) : Roster (processExit s p a) := by
  have hdrop := hm.toTable.foldl_channelDrop p a.channelSlots
  exact hm.parted (b := { a with channelSlots := [], waitChannel := -1, state := .zombie }) hdrop hp
    (nil_sublist _) (fun c => by simp) rfl (fun _ => rfl)

theorem Members.join_cases (hm : Members s) (p : Pid) (channelId : Int) :
    ipcChannelJoin s p channelId = (s, -1) ∨ ipcChannelJoin s p channelId = (s, 0) ∨
      ∃ a i, s.procs p = some a ∧ findChannel s channelId = some i ∧
        channelId ∉ a.channelSlots ∧ p ∉ (s.channels i).subscribers ∧
        a.channelSlots.length < configProcessChannelSlots ∧
        (s.channels i).subscribers.length < configIpcChannelSubscribers ∧
        ipcChannelJoin s p channelId =
          ((s.setProc p { a with channelSlots := a.channelSlots ++ [channelId] }).setChannel i
            { s.channels i with subscribers := (s.channels i).subscribers ++ [p] }, 0) := by
  unfold ipcChannelJoin
  cases hp : s.procs p with
  | none => exact .inl rfl
  | some a =>
    have hself := setProc_self hp
    cases hf : findChannel s channelId with
    | none => exact .inl rfl
    | some i =>
      have hiff := hm.findChannel_id hf hp
      dsimp only
      by_cases hhas : channelId ∈ a.channelSlots
      · -- already a member, on both sides
        have hadd : processAddChannel a channelId = some a := by
          rw [processAddChannel, processHasChannel, if_pos (by simpa using hhas)]
        rw [hadd]
        refine .inr (.inl ?_)
        simp only [if_pos (hiff.mp hhas), hself]
      · have hsub : p ∉ (s.channels i).subscribers := fun h => hhas (hiff.mpr h)
        by_cases hfull : configProcessChannelSlots ≤ a.channelSlots.length
        · have hadd : processAddChannel a channelId = none := by
            rw [processAddChannel, processHasChannel, if_neg (by simpa using hhas), if_pos hfull]
          rw [hadd]
          exact .inl rfl
        · have hadd : processAddChannel a channelId =
              some { a with channelSlots := a.channelSlots ++ [channelId] } := by
            rw [processAddChannel, processHasChannel, if_neg (by simpa using hhas), if_neg hfull]
          rw [hadd]
          simp only [if_neg hsub]
          by_cases hroom : configIpcChannelSubscribers ≤ (s.channels i).subscribers.length
          · -- the slot that was taken is given back
            have hback : processRemoveChannel { a with channelSlots := a.channelSlots ++ [channelId] }
                channelId = a := by
              rw [processRemoveChannel, erase_append_right _ hhas, erase_cons_head,
                append_nil]
            rw [if_pos hroom, hback, hself]
            exact .inl rfl
          · rw [if_neg hroom]
            exact .inr (.inr ⟨a, i, rfl, rfl, hhas, hsub, by omega, by omega, rfl⟩)

theorem Roster.ipcChannelJoin (hm : Roster s) (hp : s.procs p = some a) (hz : a.state ≠ .zombie)
    (channelId : Int) : Roster (ipcChannelJoin s p channelId).1 := by
  rcases hm.join_cases p channelId with h | h | ⟨a', i, hp', hf, hnew, hsub, hslots, hroom, h⟩
  · rw [h]
    exact hm
  · rw [h]
    exact hm
  obtain rfl : a = a' := by simpa [hp] using hp'
  rw [h]
  dsimp only
  obtain ⟨hu, hid⟩ := findChannel_some hf
  generalize hb : ({ a with channelSlots := a.channelSlots ++ [channelId] } : Proc) = b
  generalize hc : ({ s.channels i with subscribers := (s.channels i).subscribers ++ [p] } : IpcChannel) = c
  have hcs : c.subscribers = (s.channels i).subscribers ++ [p] := by rw [← hc]
  have hbs : b.channelSlots = a.channelSlots ++ [channelId] := by rw [← hb]
  have hch (j : Index) : ((s.setProc p b).setChannel i c).channels j = if j = i then c else s.channels j :=
    setChannel_channels _ _ _ _
  have hused (j : Index) : (((s.setProc p b).setChannel i c).channels j).used = (s.channels j).used := by
    rw [hch]
    split_ifs with hj
    · rw [hj, ← hc]
    · rfl
  have hids (j : Index) : (((s.setProc p b).setChannel i c).channels j).id = (s.channels j).id := by
    rw [hch]
    split_ifs with hj
    · rw [hj, ← hc]
    · rfl
  have hlook (q : Pid) : ((s.setProc p b).setChannel i c).procs q = if q = p then some b else s.procs q :=
    setProc_procs _ _ _ _
  -- the channel and the process each gain one entry, at the end
  have hend {α : Type} {l : List α} {x : α} (hl : l.Nodup) (hx : x ∉ l) : (l ++ [x]).Nodup := by
    rw [nodup_append_comm]
    exact nodup_cons.mpr ⟨hx, hl⟩
  have hgain (j : Index) (q : Pid) : q ∈ (((s.setProc p b).setChannel i c).channels j).subscribers ↔
      q ∈ (s.channels j).subscribers ∨ j = i ∧ q = p := by
    rw [hch]
    split_ifs with hj
    · rw [hcs, hj, mem_append, mem_singleton]
      simp
    · simp [hj]
  refine ⟨⟨⟨hm.toIds.of_same rfl hused hids, ?_, ?_, ?_⟩, ?_, ?_, ?_, ?_, ?_⟩, ?_⟩
  · intro j hj
    rw [hused] at hj
    have hne : j ≠ i := by
      rintro rfl
      rw [hu] at hj
      cases hj
    rw [hch, if_neg hne]
    exact hm.idle j hj
  · intro j
    rw [hch]
    split_ifs with hj
    · rw [hcs]
      exact hend (hm.once i) hsub
    · exact hm.once j
  · intro j
    rw [hch]
    split_ifs with hj
    · rw [hcs, length_append, length_singleton]
      omega
    · exact hm.room j
  · apply update_forall (fun q d _ => hm.slotsOnce q d)
    rintro _ ⟨⟩
    rw [hbs]
    exact hend (hm.slotsOnce p a hp) hnew
  · apply update_forall (fun q d _ => hm.slotsRoom q d)
    rintro _ ⟨⟩
    rw [hbs, length_append, length_singleton]
    omega
  · intro q d x hq hx
    have hold : ∀ e, s.procs q = some e → x ∈ e.channelSlots →
        ∃ j, (((s.setProc p b).setChannel i c).channels j).used = true ∧
          (((s.setProc p b).setChannel i c).channels j).id = x ∧
          q ∈ (((s.setProc p b).setChannel i c).channels j).subscribers := by
      intro e he hxe
      obtain ⟨j, hj, hjd, hjs⟩ := hm.joined q e x he hxe
      exact ⟨j, (hused j).trans hj, (hids j).trans hjd, (hgain j q).mpr (.inl hjs)⟩
    rw [hlook] at hq
    split_ifs at hq with hqp
    · cases hq
      rw [hbs] at hx
      rcases mem_append.mp hx with hx | hx
      · exact hold a (hqp ▸ hp) hx
      · rw [mem_singleton.mp hx]
        exact ⟨i, (hused i).trans hu, (hids i).trans hid, (hgain i q).mpr (.inr ⟨rfl, hqp⟩)⟩
    · exact hold d hq hx
  · intro j q hq
    rw [hids, hlook]
    rcases (hgain j q).mp hq with hqs | ⟨rfl, rfl⟩
    · obtain ⟨d, hd, hjd⟩ := hm.known j q hqs
      split_ifs with hqp
      · obtain rfl : a = d := by
          rw [hqp, hp] at hd
          exact some.inj hd
        exact ⟨b, rfl, by rw [hbs]; exact mem_append_left _ hjd⟩
      · exact ⟨d, hd, hjd⟩
    · rw [if_pos rfl, hid]
      exact ⟨b, rfl, by rw [hbs]; exact mem_append_right _ (mem_singleton_self _)⟩
  · intro q d j call hq hd
    rw [hused]
    rw [hlook] at hq
    split_ifs at hq with hqp
    · cases hq
      rw [← hb] at hd
      exact hm.inside p a j call hp hd
    · exact hm.inside q d j call hq hd
  · apply update_forall (fun q d _ => hm.shed q d)
    rintro _ ⟨⟩ hzb
    rw [← hb] at hzb
    exact absurd hzb hz

theorem Roster.framed (hm : Roster s) (h : Framed s s') : Roster s' := by
  have hof : ∀ q b, s'.procs q = some b → ∃ a, s.procs q = some a ∧ b.channelSlots = a.channelSlots := by
    intro q b hq
    have he := h.slots q
    rw [hq, map_some] at he
    obtain ⟨a, ha, hs⟩ := map_eq_some_iff.mp he.symm
    exact ⟨a, ha, hs.symm⟩
  refine ⟨⟨⟨hm.toIds.of_same h.next h.used h.id, ?_, ?_, ?_⟩, ?_, ?_, ?_, ?_, ?_⟩, ?_⟩
  · intro i hi
    rw [h.used] at hi
    rw [h.waiters i hi, h.subscribers]
    exact hm.idle i hi
  · intro i
    rw [h.subscribers]
    exact hm.once i
  · intro i
    rw [h.subscribers]
    exact hm.room i
  · intro q b hq
    obtain ⟨a, ha, hs⟩ := hof q b hq
    rw [hs]
    exact hm.slotsOnce q a ha
  · intro q b hq
    obtain ⟨a, ha, hs⟩ := hof q b hq
    rw [hs]
    exact hm.slotsRoom q a ha
  · intro q b x hq hx
    obtain ⟨a, ha, hs⟩ := hof q b hq
    rw [hs] at hx
    obtain ⟨i, hu, hid, hsubs⟩ := hm.joined q a x ha hx
    exact ⟨i, (h.used i).trans hu, (h.id i).trans hid, by rw [h.subscribers]; exact hsubs⟩
  · intro i q hq
    rw [h.subscribers] at hq
    obtain ⟨a, ha, hid⟩ := hm.known i q hq
    have he := h.slots q
    rw [ha, map_some] at he
    obtain ⟨b, hb, hs⟩ := map_eq_some_iff.mp he
    exact ⟨b, hb, by rw [h.id, hs]; exact hid⟩
  · intro q b i call hq hi
    rw [h.used]
    rcases h.inside q b i call hq hi with hu | ⟨a, ha, hai⟩
    · exact hu
    · exact hm.inside q a i call ha hai
  · intro q b hq hz
    obtain ⟨a, ha, haz⟩ := h.zombies q b hq hz
    obtain ⟨a', ha', hs⟩ := hof q b hq
    obtain rfl : a = a' := by simpa [ha] using ha'
    rw [hs]
    exact hm.shed q a ha haz

theorem Roster.setProcs (hm : Roster s) {o : Option Proc} (hold : ∀ a, s.procs p = some a → a.channelSlots = [])
    (hnew : ∀ b, o = some b → b.channelSlots = [] ∧ b.inside = none) :
    Roster { s with procs := Function.update s.procs p o } := by
  refine ⟨⟨⟨⟨hm.next, hm.ids, hm.distinct⟩, hm.idle, hm.once, hm.room⟩, ?_, ?_, ?_, ?_, ?_⟩, ?_⟩
  · apply update_forall (fun q b _ => hm.slotsOnce q b)
    intro b hb
    rw [(hnew b hb).1]
    exact nodup_nil
  · apply update_forall (fun q b _ => hm.slotsRoom q b)
    intro b hb
    rw [(hnew b hb).1]
    exact Nat.zero_le _
  · intro q b x
    revert q b
    apply update_forall (fun q b _ => hm.joined q b x)
    intro b hb hx
    rw [(hnew b hb).1] at hx
    cases hx
  · intro i q hq
    obtain ⟨a, ha, hid⟩ := hm.known i q hq
    have hqp : q ≠ p := by
      rintro rfl
      rw [hold a ha] at hid
      cases hid
    exact ⟨a, (Function.update_of_ne hqp _ _).trans ha, hid⟩
  · intro q b i call
    revert q b
    apply update_forall (fun q b _ => hm.inside q b i call)
    intro b hb hi
    rw [(hnew b hb).2] at hi
    cases hi
  · apply update_forall (fun q b _ => hm.shed q b)
    exact fun b hb _ => (hnew b hb).1

theorem Roster.ipcChannelCreate (hm : Roster s) (flags : UInt32) : Roster (ipcChannelCreate s flags).1 := by
  generalize hs' : (Channel.ipcChannelCreate s flags).1 = s'
  unfold Channel.ipcChannelCreate at hs'
  cases hf : (List.finRange configIpcMaxChannels).find? (fun i => !(s.channels i).used) with
  | none =>
    simp only [hf] at hs'
    exact hs' ▸ hm
  | some i =>
    have hfree : (s.channels i).used = false := by
      have hfound := find?_some hf
      simpa using hfound
    simp only [hf] at hs'
    have hids : Ids s' := by
      rw [← hs']
      exact hm.toIds.created rfl
    have hprocs : s'.procs = s.procs := by rw [← hs']; rfl
    have hother (j : Index) (hj : j ≠ i) : s'.channels j = s.channels j := by
      rw [← hs']
      exact Function.update_of_ne hj _ _
    have hnew : (s'.channels i).used = true ∧ (s'.channels i).subscribers = [] := by
      rw [← hs']
      simp [State.setChannel]
    have hsubs (j : Index) : (s'.channels j).subscribers = (s.channels j).subscribers := by
      by_cases hj : j = i
      · rw [hj, hnew.2, (hm.idle i hfree).2]
      · rw [hother j hj]
    have hold (j : Index) (hj : (s.channels j).used = true) : s'.channels j = s.channels j := by
      refine hother j ?_
      rintro rfl
      rw [hfree] at hj
      cases hj
    refine ⟨⟨⟨hids, ?_, ?_, ?_⟩, hprocs ▸ hm.slotsOnce, hprocs ▸ hm.slotsRoom, ?_, ?_, ?_⟩, hprocs ▸ hm.shed⟩
    · intro j hj
      have hne : j ≠ i := by
        rintro rfl
        rw [hnew.1] at hj
        cases hj
      rw [hother j hne] at hj ⊢
      exact hm.idle j hj
    · intro j
      rw [hsubs]
      exact hm.once j
    · intro j
      rw [hsubs]
      exact hm.room j
    · intro q b x hq hx
      rw [hprocs] at hq
      obtain ⟨j, hu, hid, hmem⟩ := hm.joined q b x hq hx
      refine ⟨j, ?_⟩
      rw [hold j hu]
      exact ⟨hu, hid, hmem⟩
    · intro j q hq
      rw [hsubs] at hq
      rw [hold j (hm.used_of_mem hq), hprocs]
      exact hm.known j q hq
    · intro q b j call hq hi
      rw [hprocs] at hq
      have hu := hm.inside q b j call hq hi
      rw [hold j hu]
      exact hu

theorem Roster.ipcChannelReceive (hm : Roster s) (hp : s.procs p = some a) (call : ReceiveCall) :
    Roster (ipcChannelReceive s p a call).1 := by
  unfold Channel.ipcChannelReceive
  split
  · exact hm
  rename_i i hf
  split
  · exact hm
  · exact hm.framed (receivePass_framed hp (findChannel_some hf).1 call)

end Steps

/-! ## Runs -/

theorem Roster.performAct {s s' : State} (hm : Roster s) {x : Act} {e : Event}
    (h : performAct s x = some (e, s')) : Roster s' := by
  cases x with
  | call a =>
    cases Effect.of_step ⟨a, h⟩ with
    | attached hnone =>
      refine hm.setProcs (fun a ha => ?_) ?_
      · rw [hnone] at ha
        cases ha
      · rintro _ ⟨⟩
        exact ⟨rfl, rfl⟩
    | created flags => exact hm.ipcChannelCreate flags
    | joined channelId hp hf => exact hm.ipcChannelJoin hp (by rw [hf.2]; simp) channelId
    | left channelId hp hf => exact hm.ipcChannelLeave hp (by rw [hf.2]; simp) channelId
    | sent _ _ _ _ _ _ _ => exact hm.framed (ipcChannelSend_sending _ _ _ _ _ _ _ _).framed
    | received call hp _ => exact hm.ipcChannelReceive hp call
    | resumed hp hi _ => exact hm.framed (receivePass_framed hp (hm.inside _ _ _ _ hp hi) _)
  | exit p =>
    simp only [Channel.performAct] at h
    split at h
    · cases h
    · rename_i proc hp
      split_ifs at h
      obtain ⟨-, rfl⟩ := Prod.mk.inj (some.inj h)
      exact hm.processExit hp
  | reclaim p =>
    simp only [Channel.performAct] at h
    split at h
    · cases h
    · rename_i proc hp
      split_ifs at h with hs
      obtain ⟨-, rfl⟩ := Prod.mk.inj (some.inj h)
      refine hm.setProcs ?_ (fun b hb => by cases hb)
      intro a ha
      obtain rfl : proc = a := by simpa [hp] using ha
      exact hm.shed p proc hp hs

/-- A list state whose arrays are those of `memory` after `ipc_system_init`. -/
def freshLists (memory : Index → Arrays.IpcChannel) : State :=
  ipcSystemInit (fun i => ⟨false, 0, 0, (memory i).queue, 0, 0, 0, [], []⟩)

theorem freshLists_arrays (memory : Index → Arrays.IpcChannel) :
    (freshLists memory).arrays = Arrays.ipcSystemInit memory := by
  simp only [freshLists, ipcSystemInit, State.arrays, IpcChannel.arrays, Arrays.ipcSystemInit, pad_nil,
    length_nil, map_none]

theorem init_roster (memory : Index → IpcChannel) : Roster (ipcSystemInit memory) := by
  refine ⟨⟨⟨.init _, fun _ _ => ⟨rfl, rfl⟩, fun _ => nodup_nil, fun _ => Nat.zero_le _⟩,
    ?_, ?_, ?_, ?_, ?_⟩, fun _ _ h => nomatch h⟩
  · intro p a hp
    cases hp
  · intro p a hp
    cases hp
  · intro p a x hp
    cases hp
  · intro i p hp
    cases hp
  · intro p a i call hp
    cases hp

theorem exec_arrays {memory : Index → Arrays.IpcChannel} {tr : List Event} {c : Arrays.State}
    (hx : Exec Arrays.Step (Arrays.ipcSystemInit memory) tr c) : ∃ s : State, c = s.arrays ∧ Roster s := by
  apply hx.invariant (P := fun c => ∃ s : State, c = s.arrays ∧ Roster s)
  · exact ⟨freshLists memory, (freshLists_arrays memory).symm, init_roster _⟩
  · rintro _ e c' ⟨s, rfl, hm⟩ ⟨x, hstep⟩
    rw [perform_arrays hm.idle] at hstep
    obtain ⟨⟨e', s'⟩, hs', he⟩ := map_eq_some_iff.mp hstep
    cases he
    exact ⟨s', rfl, hm.performAct hs'⟩

/-- Subscriber arrays and channel slots are inverse to each other, without duplicates, and counted. -/
structure Symmetric (c : Arrays.State) : Prop where
  inverse : ∀ i p, (c.channels i).used = true →
    ((∃ j < configIpcChannelSubscribers, (c.channels i).subscribers j = some p) ↔
      ∃ a, c.procs p = some a ∧ ∃ j < configProcessChannelSlots, a.channelSlots j = (c.channels i).id)
  subscribersOnce : ∀ i j l, (c.channels i).subscribers j ≠ none →
    (c.channels i).subscribers j = (c.channels i).subscribers l → j = l
  slotsOnce : ∀ p a j l, c.procs p = some a → a.channelSlots j ≠ -1 →
    a.channelSlots j = a.channelSlots l → j = l
  subscriberCount : ∀ i, (c.channels i).subscriberCount =
    (List.range configIpcChannelSubscribers).countP (fun j => (c.channels i).subscribers j != none)
  channelCount : ∀ p a, c.procs p = some a → a.channelCount =
    (List.range configProcessChannelSlots).countP (fun j => a.channelSlots j != -1)

theorem Members.symmetric {s : State} (hm : Members s) : Symmetric s.arrays := by
  have hof : ∀ p b, s.arrays.procs p = some b → ∃ a, s.procs p = some a ∧ b = a.arrays := by
    intro p b hb
    obtain ⟨a, ha, rfl⟩ := map_eq_some_iff.mp hb
    exact ⟨a, ha, rfl⟩
  -- ids are positive, so none is taken for an empty slot
  have hid : ∀ p a, s.procs p = some a → ∀ x ∈ a.channelSlots, id x ≠ -1 := by
    intro p a ha x hx
    obtain ⟨i, hu, rfl, -⟩ := hm.joined p a x ha hx
    have := (hm.ids i hu).1
    rw [id_eq]
    omega
  refine ⟨?_, ?_, ?_, ?_, ?_⟩
  · intro i p hu
    have hui : (s.channels i).used = true := hu
    have hpos : id (s.channels i).id ≠ -1 := by
      have := (hm.ids i hui).1
      rw [id_eq]
      omega
    have hsubs : (∃ j < configIpcChannelSubscribers, (s.arrays.channels i).subscribers j = some p) ↔
        p ∈ (s.channels i).subscribers :=
      exists_pad_iff (some_injective _) (some_ne_none p) (hm.room i)
    rw [hsubs]
    constructor
    · intro hmem
      obtain ⟨a, ha, hslot⟩ := hm.known i p hmem
      refine ⟨a.arrays, by simp [State.arrays, ha], ?_⟩
      exact (exists_pad_iff Function.injective_id hpos (hm.slotsRoom p a ha)).mpr hslot
    · rintro ⟨b, hb, hslot⟩
      obtain ⟨a, ha, rfl⟩ := hof p b hb
      have hmem := (exists_pad_iff Function.injective_id hpos (hm.slotsRoom p a ha)).mp hslot
      obtain ⟨j, hj, hjd, hjs⟩ := hm.joined p a _ ha hmem
      rwa [← hm.distinct j i hj hui hjd]
  · intro i j l hj hjl
    exact pad_injective (some_injective _) (hm.once i) hj hjl
  · intro p b j l hb hj hjl
    obtain ⟨a, ha, rfl⟩ := hof p b hb
    exact pad_injective Function.injective_id (hm.slotsOnce p a ha) hj hjl
  · intro i
    refine (countP_pad (fun x _ => some_ne_none x) (hm.room i)).symm.trans ?_
    apply countP_congr
    intro j _
    simp [State.arrays, IpcChannel.arrays]
  · intro p b hb
    obtain ⟨a, ha, rfl⟩ := hof p b hb
    exact (countP_pad (hid p a ha) (hm.slotsRoom p a ha)).symm

/-- In every state that calls and exits lead to, the two sides of every membership agree, and a join
that fails has changed neither of them. -/
theorem channel_membership_symmetric (memory : Index → Arrays.IpcChannel) (tr : List Event)
    (c : Arrays.State) (hx : Exec Arrays.Step (Arrays.ipcSystemInit memory) tr c) :
    Symmetric c ∧ ∀ p channelId, (Arrays.ipcChannelJoin c p channelId).2 = -1 →
      (Arrays.ipcChannelJoin c p channelId).1 = c := by
  obtain ⟨s, rfl, hm⟩ := exec_arrays hx
  refine ⟨hm.toMembers.symmetric, ?_⟩
  intro p channelId hfail
  rw [ipcChannelJoin_arrays] at hfail ⊢
  rcases hm.join_cases p channelId with h | h | ⟨a, i, -, -, -, -, -, -, h⟩
  · rw [h]
  · rw [h]
  · rw [h] at hfail
    cases hfail

/-- Processes 1 to 9 join a channel that has eight places, and process 2 leaves the kernel. -/
def crowdActs : List Act :=
  .call (.create 0) :: (List.range 9).flatMap (fun n =>
    [.call (.attach (n + 1)), .call (.join (n + 1) 1)]) ++ [.exit 2, .reclaim 2]

def blankRows : Index → Arrays.IpcChannel := fun _ =>
  ⟨false, 0, 0, fun _ => ⟨0, 0, 0, 0, 0, fun _ => 0⟩, 0, 0, 0, fun _ => none, 0, fun _ => none, 0⟩

theorem crowdActs_isSome : (performAll Arrays.perform (Arrays.ipcSystemInit blankRows) crowdActs).isSome = true := by
  decide +kernel

theorem channel_membership_symmetric_crowd :
    (((performAll Arrays.perform (Arrays.ipcSystemInit blankRows) crowdActs).get
        crowdActs_isSome).2.channels ⟨0, by decide⟩).subscriberCount = 7 ∧
      Symmetric ((performAll Arrays.perform (Arrays.ipcSystemInit blankRows) crowdActs).get
        crowdActs_isSome).2 :=
  ⟨by decide +kernel, (channel_membership_symmetric blankRows _ _
    (performAll_get_exec Arrays.perform crowdActs _ crowdActs_isSome)).1⟩

end ProOS.Channel
