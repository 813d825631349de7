import ProOS.Kernel.Model
import ProOS.Ipc.Waiters
import ProOS.Channel.Symmetry
import ProOS.Sync.Waiters

namespace ProOS.Kernel

open ProOS.Framework Function Option List

inductive Place
  | mailbox (q : Pid)
  | channel (i : Channel.Index)
  | sync (c : Sync.Call)
  deriving DecidableEq

def State.waitList (k : State) : Place → List Pid
  | .mailbox q => ((k.procs q).map (fun a => a.mailbox.waiting)).getD []
  | .channel i => (k.channels i).waiters
  | .sync c => k.sync.waiters c

/-- The array that a process inside a call is listed in, if it had to block there. -/
def Inside.place (p : Pid) : Inside → Option Place
  | .recv _ => some (.mailbox p)
  | .channel i _ => some (.channel i)
  | .sync c => some (.sync c)
  | .sleep => none

def State.standing (k : State) (q : Pid) : Option (ProcState × Option Inside) :=
  (k.procs q).map (fun a => (a.state, a.inside))

/-- `q` sleeps in a call that lists it at `place`. -/
def State.AsleepAt (k : State) (q : Pid) (place : Place) : Prop :=
  ∃ x, k.standing q = some (.waiting, some x) ∧ x.place q = some place

/-- Only sleepers are listed, each in the array of the call it sleeps in, and once. -/
structure Waiting (k : State) : Prop where
  listed : ∀ place q, q ∈ k.waitList place → k.AsleepAt q place
  nodup : ∀ place, (k.waitList place).Nodup

section Rules

variable {k k' : State} {p q : Pid} {place place' : Place}

theorem State.AsleepAt.unique (h : k.AsleepAt q place) (h' : k.AsleepAt q place') : place = place' := by
  obtain ⟨x, hx, hp⟩ := h
  obtain ⟨y, hy, hp'⟩ := h'
  rw [hx] at hy
  obtain ⟨-, hxy⟩ := Prod.mk.inj (some.inj hy)
  cases hxy
  rw [hp] at hp'
  exact some.inj hp'

theorem Waiting.notMem (h : Waiting k) {st : ProcState} {x : Option Inside}
    (hq : k.standing q = some (st, x)) (hst : st ≠ .waiting) : q ∉ k.waitList place := by
  intro hm
  obtain ⟨y, hy, -⟩ := h.listed place q hm
  rw [hq] at hy
  exact hst (Prod.mk.inj (some.inj hy)).1

theorem Waiting.drops (h : Waiting k) (hl : ∀ place, (k'.waitList place).Sublist (k.waitList place))
    (hs : ∀ q, k'.standing q = k.standing q ∨
      ∃ place, q ∈ k.waitList place ∧ q ∉ k'.waitList place) : Waiting k' where
  listed := by
    intro place q hq
    have hold := (hl place).subset hq
    have hasleep := h.listed place q hold
    rcases hs q with hsame | ⟨place', hin, hout⟩
    · obtain ⟨x, hx, hp⟩ := hasleep
      exact ⟨x, hsame.trans hx, hp⟩
    · obtain rfl := hasleep.unique (h.listed place' q hin)
      exact absurd hq hout
  nodup := fun place => (hl place).nodup (h.nodup place)

theorem Waiting.unlisted (h : Waiting k) (hp : ∀ place, p ∉ k.waitList place)
    (hl : ∀ place, (k'.waitList place).Sublist (k.waitList place))
    (hs : ∀ q, q ≠ p → k'.standing q = k.standing q) : Waiting k' where
  listed := by
    intro place q hq
    have hold := (hl place).subset hq
    have hne : q ≠ p := by
      rintro rfl
      exact hp place hold
    obtain ⟨x, hx, hpl⟩ := h.listed place q hold
    exact ⟨x, (hs q hne).trans hx, hpl⟩
  nodup := fun place => (hl place).nodup (h.nodup place)

theorem Waiting.stepped (h : Waiting k) (hp : ¬∃ x, k.standing p = some (.waiting, x))
    (hl : ∀ place, (k'.waitList place).Sublist (k.waitList place))
    (hs : ∀ q, q ≠ p → k'.standing q = k.standing q) : Waiting k' := by
  apply h.unlisted _ hl hs
  intro place hm
  obtain ⟨x, hx, -⟩ := h.listed place p hm
  exact hp ⟨_, hx⟩

theorem Waiting.slept (h : Waiting k) (place : Place) (hp : ¬∃ x, k.standing p = some (.waiting, x))
    (hl : ∀ place', place' ≠ place → k'.waitList place' = k.waitList place')
    (hplace : k'.waitList place = k.waitList place ++ [p]) (hasleep : k'.AsleepAt p place)
    (hs : ∀ q, q ≠ p → k'.standing q = k.standing q) : Waiting k' where
  listed := by
    intro place' q hq
    by_cases hqp : q = p
    · subst hqp
      by_cases he : place' = place
      · rw [he]
        exact hasleep
      · rw [hl place' he] at hq
        obtain ⟨x, hx, -⟩ := h.listed place' q hq
        exact absurd ⟨_, hx⟩ hp
    · have hold : q ∈ k.waitList place' := by
        by_cases he : place' = place
        · subst he
          rw [hplace, mem_append, mem_singleton] at hq
          exact hq.resolve_right hqp
        · rw [hl place' he] at hq
          exact hq
      obtain ⟨x, hx, hpl⟩ := h.listed place' q hold
      exact ⟨x, (hs q hqp).trans hx, hpl⟩
  nodup := by
    intro place'
    by_cases he : place' = place
    · subst he
      rw [hplace, nodup_append_comm]
      refine nodup_cons.mpr ⟨?_, h.nodup place'⟩
      intro hm
      obtain ⟨x, hx, -⟩ := h.listed place' p hm
      exact hp ⟨_, hx⟩
    · rw [hl place' he]
      exact h.nodup place'

end Rules

theorem setProc_lookup (k : State) (p q : Pid) (b : Option Proc) :
    (k.setProc p b).procs q = if q = p then b else k.procs q := by
  simp [State.setProc, update_apply]

variable {k : State} {p : Pid} {a : Proc} {b : Ipc.Proc}

theorem processLookup_some (h : processLookup k p = some a) : k.procs p = some a := by
  unfold processLookup at h
  split at h
  · cases h
  · exact h

theorem standing_of (h : k.procs p = some a) :
    k.standing p = some (a.state, a.inside) := by rw [State.standing, h]; rfl

theorem awake_of (h : k.procs p = some a) (hs : a.state ≠ .waiting) : ¬∃ x, k.standing p = some (.waiting, x) := by
  rintro ⟨x, hx⟩
  rw [standing_of h] at hx
  exact hs (Prod.mk.inj (some.inj hx)).1

theorem free_some (h : k.free p = some a) : k.procs p = some a ∧ a.Free := by
  obtain ⟨h1, h2⟩ := filter_eq_some_iff.mp h
  exact ⟨h1, of_decide_eq_true h2⟩

/-! What the subsystems read back after they have written. -/

theorem mergeInside_same {α : Type} {read : Inside → Option α} {write : α → Inside}
    (hrw : ∀ x c, read x = some c → write c = x) (old : Option Inside) :
    mergeInside read write old (old.bind read) = old := by
  cases old with
  | none => rfl
  | some x =>
    cases hr : read x with
    | none => simp [mergeInside, hr]
    | some c => simp [mergeInside, hr, hrw x c hr]

theorem recv_write (x : Inside) (c : Ipc.RecvCall) (h : x.recv? = some c) : .recv c = x := by
  cases x <;> simp_all [Inside.recv?]

theorem channel_write (x : Inside) (c : Channel.Index × Channel.ReceiveCall) (h : x.channel? = some c) :
    .channel c.1 c.2 = x := by
  cases x with
  | channel i call =>
    cases h
    rfl
  | _ => cases h

theorem sync_write (x : Inside) (c : Sync.Call) (h : x.sync? = some c) : .sync c = x := by
  cases x <;> simp_all [Inside.sync?]

theorem Proc.setIpc_ipc (a : Proc) : a.setIpc a.ipc = a := by
  simp only [Proc.setIpc, Proc.ipc, mergeInside_same recv_write]

theorem Proc.setChannel_channel (a : Proc) : a.setChannel a.channel = a := by
  simp only [Proc.setChannel, Proc.channel, mergeInside_same channel_write]

theorem Proc.setSync_sync (a : Proc) : a.setSync a.sync = a := by
  simp only [Proc.setSync, Proc.sync, mergeInside_same sync_write]

theorem State.setIpc_ipc (k : State) : k.setIpc k.ipc = k := by
  have h : (fun q => (k.procs q).bind (fun a => (k.ipc.procs q).map a.setIpc)) = k.procs := by
    funext q
    cases hq : k.procs q with
    | none => rfl
    | some a => simp [State.ipc, hq, Proc.setIpc_ipc]
  rw [State.setIpc, h]

theorem State.setChannel_channel (k : State) : k.setChannel k.channel = k := by
  have h : (fun q => (k.procs q).bind (fun a => (k.channel.procs q).map a.setChannel)) = k.procs := by
    funext q
    cases hq : k.procs q with
    | none => rfl
    | some a => simp [State.channel, hq, Proc.setChannel_channel]
  rw [State.setChannel, h]
  rfl

theorem State.setSync_sync (k : State) : k.setSync k.sync = k := by
  have h : (fun q => (k.procs q).map (fun a => a.setSync (k.sync.procs q))) = k.procs := by
    funext q
    cases hq : k.procs q with
    | none => rfl
    | some a => simp [State.sync, hq, Proc.setSync_sync]
  rw [State.setSync, h]
  rfl

/-- The subsystem has the processes that the kernel has. -/
def Fits {α : Type} (k : State) (f : Pid → Option α) : Prop := ∀ q, (f q).isSome = (k.procs q).isSome

section Fits

variable {α β : Type} {f : Pid → Option α} {q : Pid}

theorem Fits.view (k : State) (g : Proc → α) : Fits k (fun q => (k.procs q).map g) :=
  fun _ => isSome_map

theorem Fits.update (h : Fits k f) {a : α} (hp : f p = some a) (b : α) : Fits k (update f p (some b)) := by
  intro q
  rw [update_apply]
  split_ifs with hq
  · rw [hq, ← h p, hp]
    rfl
  · exact h q

theorem Fits.map_bind (h : Fits k f) (write : Proc → α → Proc) (read : Proc → β)
    (hrw : ∀ a b, read (write a b) = read a) (q : Pid) :
    ((k.procs q).bind (fun a => (f q).map (write a))).map read = (k.procs q).map read := by
  have hq := h q
  cases hk : k.procs q with
  | none => rfl
  | some a =>
    rw [hk] at hq
    obtain ⟨b, hb⟩ := isSome_iff_exists.mp hq
    simp [hb, hrw]

end Fits

/-! ## Mailboxes -/

section Mail

variable {s s' : Ipc.State} {q : Pid}

theorem Fits.frame (h : Fits k s.procs) (hf : Ipc.Frame s s') : Fits k s'.procs := by
  intro q
  have he := congrArg Option.isSome (hf.2 q)
  rw [isSome_map, isSome_map] at he
  rw [he]
  exact h q

theorem setIpc_mailbox (h : Fits k s.procs) (q : Pid) : (k.setIpc s).waitList (.mailbox q) = s.waitList q := by
  have hq := h q
  cases hk : k.procs q with
  | none =>
    rw [hk] at hq
    have hs := isSome_eq_false_iff.mp (show (s.procs q).isSome = false from hq)
    rw [isNone_iff_eq_none] at hs
    simp [State.waitList, State.setIpc, hk, Ipc.State.waitList, hs]
  | some a =>
    rw [hk] at hq
    obtain ⟨b, hb⟩ := isSome_iff_exists.mp hq
    simp [State.waitList, State.setIpc, hk, Ipc.State.waitList, hb, Proc.setIpc]

theorem ipc_waitList (k : State) (q : Pid) : k.ipc.waitList q = k.waitList (.mailbox q) := by
  rw [← setIpc_mailbox (Fits.view k Proc.ipc), State.setIpc_ipc]

theorem setIpc_standing (k : State) (s : Ipc.State) (q : Pid) :
    (k.setIpc s).standing q = (k.procs q).bind (fun a => (s.standing q).map
      (fun c => (c.1, mergeInside Inside.recv? .recv a.inside c.2))) := by
  cases hk : k.procs q with
  | none => simp [State.standing, State.setIpc, hk]
  | some a => cases hs : s.procs q <;>
      simp [State.standing, State.setIpc, hk, Ipc.State.standing, hs, Proc.setIpc]

theorem setIpc_lists (h : Fits k s.procs) (h' : Fits k s'.procs)
    (hl : ∀ q, (s'.waitList q).Sublist (s.waitList q)) (place : Place) :
    ((k.setIpc s').waitList place).Sublist ((k.setIpc s).waitList place) := by
  cases place with
  | mailbox q =>
    rw [setIpc_mailbox h', setIpc_mailbox h]
    exact hl q
  | channel i => exact .refl _
  | sync c => cases c <;> exact .refl _

theorem Waiting.loses (h : Waiting (k.setIpc s)) (hfit : Fits k s.procs) (hl : Ipc.Loses s s') :
    Waiting (k.setIpc s') := by
  have hfit' := hfit.frame hl.frame
  refine h.drops (setIpc_lists hfit hfit' hl.lists) ?_
  intro q
  rcases hl.standing q with he | ⟨r, hin, hout⟩
  · left
    rw [setIpc_standing, setIpc_standing, he]
  · right
    refine ⟨.mailbox r, ?_, ?_⟩
    · rw [setIpc_mailbox hfit]
      exact hin
    · rw [setIpc_mailbox hfit']
      exact hout

theorem setIpc_waitList_set (hfit : Fits k s.procs) {a : Ipc.Proc} (hp : s.procs p = some a) (place : Place) :
    (k.setIpc (s.setProc p (some b))).waitList place =
      if place = .mailbox p then b.mailbox.waiting else (k.setIpc s).waitList place := by
  cases place with
  | mailbox q =>
    rw [setIpc_mailbox (hfit.update hp b), setIpc_mailbox hfit, Ipc.setProc_waitList]
    by_cases hq : q = p
    · simp [hq]
    · simp [hq]
  | channel i => rw [if_neg (by simp)]; rfl
  | sync c => cases c <;> rw [if_neg (by simp)] <;> rfl

theorem setIpc_standing_set (k : State) (s : Ipc.State) (b : Ipc.Proc) (hq : q ≠ p) :
    (k.setIpc (s.setProc p (some b))).standing q = (k.setIpc s).standing q := by
  rw [setIpc_standing, setIpc_standing, Ipc.setProc_standing, if_neg hq]

theorem setIpc_awake (k : State) {a : Ipc.Proc} (hp : s.procs p = some a) (ha : a.state ≠ .waiting) :
    ¬∃ x, (k.setIpc s).standing p = some (.waiting, x) := by
  rintro ⟨x, hx⟩
  rw [setIpc_standing, Ipc.standing_of hp] at hx
  obtain ⟨c, -, hc⟩ := bind_eq_some_iff.mp hx
  exact ha (Prod.mk.inj (some.inj hc)).1

theorem Waiting.setRunning (h : Waiting (k.setIpc s)) (hfit : Fits k s.procs) {a : Ipc.Proc}
    (hp : s.procs p = some a) (ha : a.state ≠ .waiting) (hw : b.mailbox.waiting = a.mailbox.waiting) :
    Waiting (k.setIpc (s.setProc p (some b))) := by
  refine h.stepped (setIpc_awake k hp ha) ?_ (fun q hq => setIpc_standing_set k s b hq)
  intro place
  rw [setIpc_waitList_set hfit hp]
  split_ifs with he
  · rw [he, setIpc_mailbox hfit, Ipc.waitList_of hp, hw]
  · exact .refl _

theorem Waiting.setAsleep (h : Waiting (k.setIpc s)) (hfit : Fits k s.procs) {a : Ipc.Proc}
    (hp : s.procs p = some a) (ha : a.state ≠ .waiting) (hw : b.mailbox.waiting = a.mailbox.waiting ++ [p])
    (hb : b.state = .waiting) {call : Ipc.RecvCall} (hi : b.inside = some call) :
    Waiting (k.setIpc (s.setProc p (some b))) := by
  refine h.slept (.mailbox p) (setIpc_awake k hp ha) ?_ ?_ ?_ (fun q hq => setIpc_standing_set k s b hq)
  · intro place' hne
    rw [setIpc_waitList_set hfit hp, if_neg hne]
  · rw [setIpc_waitList_set hfit hp, if_pos rfl, setIpc_mailbox hfit, Ipc.waitList_of hp, hw]
  · have hk : (k.procs p).isSome := by rw [← hfit p, hp]; rfl
    obtain ⟨c, hc⟩ := isSome_iff_exists.mp hk
    refine ⟨.recv call, ?_, rfl⟩
    rw [setIpc_standing, hc, Ipc.setProc_standing, if_pos rfl, hb, hi]
    rfl

end Mail

/-! ## Channels -/

section Channels

variable {s : Channel.State} {q : Pid} {i : Channel.Index}

def chanStanding (s : Channel.State) (q : Pid) :
    Option (ProcState × Option (Channel.Index × Channel.ReceiveCall)) :=
  (s.procs q).map (fun a => (a.state, a.inside))

theorem chanStanding_set (s : Channel.State) (p q : Pid) (b : Channel.Proc) :
    chanStanding (s.setProc p b) q = if q = p then some (b.state, b.inside) else chanStanding s q := by
  rw [chanStanding, Channel.setProc_procs]
  split_ifs
  · rfl
  · rfl

theorem setChannel_mailbox (h : Fits k s.procs) (q : Pid) :
    (k.setChannel s).waitList (.mailbox q) = k.waitList (.mailbox q) := by
  have he := h.map_bind Proc.setChannel (fun a => a.mailbox.waiting) (fun _ _ => rfl) q
  exact congrArg (fun o => o.getD []) he

theorem setChannel_standing (k : State) (s : Channel.State) (q : Pid) :
    (k.setChannel s).standing q = (k.procs q).bind (fun a => (chanStanding s q).map
      (fun c => (c.1, mergeInside Inside.channel? (fun c => .channel c.1 c.2) a.inside c.2))) := by
  cases hk : k.procs q with
  | none => simp [State.standing, State.setChannel, hk]
  | some a => cases hs : s.procs q <;>
      simp [State.standing, State.setChannel, hk, chanStanding, hs, Proc.setChannel]

theorem setChannel_standing_same (h : chanStanding s q = chanStanding k.channel q) :
    (k.setChannel s).standing q = k.standing q := by
  rw [setChannel_standing, h, ← setChannel_standing, State.setChannel_channel]

theorem setChannel_lists (h : Fits k s.procs)
    (hl : ∀ i, (s.channels i).waiters.Sublist (k.channels i).waiters) (place : Place) :
    ((k.setChannel s).waitList place).Sublist (k.waitList place) := by
  cases place with
  | mailbox q => rw [setChannel_mailbox h]
  | channel i => exact hl i
  | sync c => cases c <;> exact .refl _

theorem Waiting.channelLoses (h : Waiting k) (hfit : Fits k s.procs)
    (hl : ∀ i, (s.channels i).waiters.Sublist (k.channels i).waiters)
    (hs : ∀ q, chanStanding s q = chanStanding k.channel q ∨
      ∃ i, q ∈ (k.channels i).waiters ∧ q ∉ (s.channels i).waiters) : Waiting (k.setChannel s) := by
  refine h.drops (setChannel_lists hfit hl) ?_
  intro q
  rcases hs q with he | ⟨i, hin, hout⟩
  · exact .inl (setChannel_standing_same he)
  · exact .inr ⟨.channel i, hin, hout⟩

theorem setChannel_waiters_at (s : Channel.State) (i : Channel.Index) {c : Channel.IpcChannel}
    (hc : c.waiters.Sublist (s.channels i).waiters) (j : Channel.Index) :
    ((s.setChannel i c).channels j).waiters.Sublist (s.channels j).waiters := by
  rw [Channel.setChannel_channels]
  split_ifs with hj
  · rw [hj]
    exact hc
  · exact .refl _

theorem rouse_standing (s : Channel.State) (hq : q ≠ p) : chanStanding (s.rouse p) q = chanStanding s q := by
  rw [Channel.State.rouse]
  split
  · rfl
  · rw [chanStanding_set, if_neg hq]

theorem Waiting.sending (h : Waiting k) {channelId : Int} {m : Channel.Buffer → Channel.Message}
    {data : Option Channel.Buffer} {r : Channel.State × Int}
    (hr : Channel.Sending k.channel channelId m data r) : Waiting (k.setChannel r.1) ∧
      ∀ place, ((k.setChannel r.1).waitList place).Sublist (k.waitList place) := by
  have hfit : Fits k r.1.procs := fun q => (hr.framed.isSome q).trans (Fits.view k Proc.channel q)
  cases hr with
  | refused =>
    rw [State.setChannel_channel]
    exact ⟨h, fun _ => .refl _⟩
  | @stored i slot n =>
    have hl := setChannel_waiters_at k.channel i (c := (k.channel.channels i).push slot) (.refl _)
    exact ⟨h.channelLoses hfit hl (fun _ => .inl rfl), setChannel_lists hfit hl⟩
  | @handed i slot n w rest hf hc hw hm =>
    generalize hd : ({ (k.channel.channels i).push slot with waiters := rest } : Channel.IpcChannel) = d at hfit ⊢
    have hdw : d.waiters = rest := by rw [← hd]
    have hw : (k.channels i).waiters = w :: rest := hw
    have hl (j : Channel.Index) : (((k.channel.setChannel i d).rouse w).channels j).waiters.Sublist
        (k.channels j).waiters := by
      rw [Channel.rouse_channels]
      refine setChannel_waiters_at k.channel i ?_ j
      show d.waiters.Sublist (k.channels i).waiters
      rw [hdw, hw]
      exact sublist_cons_self w rest
    refine ⟨h.channelLoses hfit hl ?_, setChannel_lists hfit hl⟩
    intro q
    by_cases hq : q = w
    · refine .inr ⟨i, by rw [hw, hq]; exact mem_cons_self, ?_⟩
      rw [Channel.rouse_channels, Channel.setChannel_channels, if_pos rfl, hdw, hq]
      exact (nodup_cons.mp (hw ▸ h.nodup (.channel i))).1
    · exact .inl (rouse_standing _ hq)

theorem Waiting.receivePass (h : Waiting k) (hp : k.procs p = some a) (ha : a.state ≠ .waiting)
    (i : Channel.Index) (call : Channel.ReceiveCall) :
    Waiting (k.setChannel (Channel.receivePass k.channel p a.channel i call).1) := by
  obtain ⟨c, b, he, hpass⟩ := Channel.receivePass_passage k.channel p a.channel i call
  rw [he]
  have hlook : k.channel.procs p = some a.channel := by simp [State.channel, hp]
  have hfit : Fits k ((k.channel.setChannel i c).setProc p b).procs :=
    (Fits.view k Proc.channel).update hlook b
  have hother (q : Pid) (hq : q ≠ p) :
      (k.setChannel ((k.channel.setChannel i c).setProc p b)).standing q = k.standing q := by
    apply setChannel_standing_same
    rw [chanStanding_set, if_neg hq]
    rfl
  rcases hpass.waiters with hw | ⟨hw, hs, hi⟩
  · refine h.stepped (awake_of hp ha) (setChannel_lists hfit ?_) hother
    exact setChannel_waiters_at k.channel i (by rw [hw])
  · refine h.slept (.channel i) (awake_of hp ha) ?_ ?_ ⟨.channel i call, ?_, rfl⟩ hother
    · intro place' hne
      cases place' with
      | mailbox q => rw [setChannel_mailbox hfit]
      | channel j =>
        have hj : j ≠ i := fun he => hne (by rw [he])
        show ((k.channel.setChannel i c).channels j).waiters = _
        rw [Channel.setChannel_channels, if_neg hj]
        rfl
      | sync c => cases c <;> rfl
    · show ((k.channel.setChannel i c).channels i).waiters = _
      rw [Channel.setChannel_channels, if_pos rfl, hw]
      rfl
    · rw [setChannel_standing, hp, chanStanding_set, if_pos rfl, hs, hi]
      rfl

theorem Waiting.ipcChannelCreate (h : Waiting k) (flags : UInt32) :
    Waiting (k.setChannel (Channel.ipcChannelCreate k.channel flags).1) := by
  unfold Channel.ipcChannelCreate
  split
  · rwa [State.setChannel_channel]
  · refine h.channelLoses (Fits.view k Proc.channel) ?_ (fun q => .inl rfl)
    exact setChannel_waiters_at k.channel _ (nil_sublist _)

theorem Fits.enrols (h : Channel.Enrols k.channel p s) : Fits k s.procs := by
  cases h with
  | same => exact Fits.view k Proc.channel
  | set hp => exact (Fits.view k Proc.channel).update hp _

theorem Waiting.enrols (h : Waiting k) (hs : Channel.Enrols k.channel p s) : Waiting (k.setChannel s) := by
  have hfit := Fits.enrols hs
  cases hs with
  | same => rwa [State.setChannel_channel]
  | @set a i hp slots subscribers ws hw =>
    refine h.channelLoses hfit (setChannel_waiters_at (k.channel.setProc p _) i ?_) (fun q => .inl ?_)
    · rcases hw with rfl | rfl
      · exact .refl _
      · exact erase_sublist
    · show chanStanding (k.channel.setProc p _) q = _
      rw [chanStanding_set]
      split_ifs with hq
      · rw [hq, chanStanding, hp]
        rfl
      · rfl

end Channels

/-! ## Mutexes and semaphores -/

section Locks

variable {s : Sync.State} {q : Pid}

theorem setSync_mailbox (k : State) (s : Sync.State) (q : Pid) :
    (k.setSync s).waitList (.mailbox q) = k.waitList (.mailbox q) := by
  cases hk : k.procs q <;> simp [State.waitList, State.setSync, hk, Proc.setSync]

theorem setSync_standing (k : State) (s : Sync.State) (q : Pid) :
    (k.setSync s).standing q = (k.procs q).map (fun a =>
      ((s.procs q).state, mergeInside Inside.sync? .sync a.inside (s.procs q).inside)) := by
  cases hk : k.procs q <;> simp [State.standing, State.setSync, hk, Proc.setSync]

theorem setSync_standing_same (h : s.procs q = k.sync.procs q) : (k.setSync s).standing q = k.standing q := by
  rw [setSync_standing, h, ← setSync_standing, State.setSync_sync]

theorem setSync_locks (k : State) (s : Sync.State) (c : Sync.Call) :
    (k.setSync s).waitList (.sync c) = s.waiters c := by cases c <;> rfl

theorem setSync_lists (hl : ∀ c, (s.waiters c).Sublist (k.sync.waiters c)) (place : Place) :
    ((k.setSync s).waitList place).Sublist (k.waitList place) := by
  cases place with
  | mailbox q => rw [setSync_mailbox]
  | channel i => exact .refl _
  | sync c =>
    rw [setSync_locks]
    exact hl c

theorem Waiting.syncEffect (h : Waiting k) (hp : k.procs p = some a) (ha : a.state ≠ .waiting)
    (he : Sync.Effect k.sync p s) : Waiting (k.setSync s) := by
  cases he with
  | quiet hl hs => exact h.drops (setSync_lists hl) (fun q => .inl (setSync_standing_same (congrFun hs q)))
  | @take s c w ws hw hc ho hs =>
    have hout : w ∉ ws := (nodup_cons.mp (hw ▸ h.nodup (.sync c))).1
    refine h.drops (setSync_lists ?_) ?_
    · intro d
      rw [Sync.processWake_waiters]
      by_cases hd : d = c
      · rw [hd, hc, hw]
        exact sublist_cons_self w ws
      · rw [ho d hd]
    · intro q
      by_cases hq : q = w
      · refine .inr ⟨.sync c, ?_, ?_⟩
        · show q ∈ k.sync.waiters c
          rw [hw, hq]
          exact mem_cons_self
        · rw [setSync_locks, Sync.processWake_waiters, hc, hq]
          exact hout
      · exact .inl (setSync_standing_same (by rw [Sync.processWake_other hq, hs]))
  | @pass s c o hs ho hc =>
    have hother : ∀ q, q ≠ p → (k.setSync (s.finish p c o)).standing q = k.standing q := by
      intro q hq
      apply setSync_standing_same
      rw [Sync.finish_procs, update_of_ne hq, hs]
    rcases hc with hkeep | ⟨⟨x, rfl⟩, hadd⟩
    · refine h.stepped (awake_of hp ha) (setSync_lists ?_) hother
      intro d
      rw [Sync.finish_waiters]
      by_cases hd : d = c
      · rw [hd, hkeep]
      · rw [ho d hd]
    · refine h.slept (.sync c) (awake_of hp ha) ?_ ?_ ⟨.sync c, ?_, rfl⟩ hother
      · intro place' hne
        cases place' with
        | mailbox q => rw [setSync_mailbox]
        | channel i => rfl
        | sync d =>
          have hd : d ≠ c := fun he => hne (by rw [he])
          rw [setSync_locks, Sync.finish_waiters, ho d hd]
          rfl
      · rw [setSync_locks, Sync.finish_waiters, hadd]
        rfl
      · rw [setSync_standing, hp, Sync.finish_procs, update_self]
        rfl

end Locks

/-! ## The rest of the kernel -/

/-- What the arrays of waiters say about a process. -/
def Proc.stance (a : Proc) : List Pid × ProcState × Option Inside := (a.mailbox.waiting, a.state, a.inside)

theorem Waiting.of_same {k' : State} (h : Waiting k)
    (hp : ∀ q, (k'.procs q).map Proc.stance = (k.procs q).map Proc.stance)
    (hc : k'.channels = k.channels) (hm : k'.mutexes = k.mutexes) (hs : k'.semaphores = k.semaphores) : Waiting k' := by
  have hlists (place : Place) : k'.waitList place = k.waitList place := by
    cases place with
    | mailbox q =>
      have he := congrArg (fun o => (Option.map Prod.fst o).getD []) (hp q)
      rwa [Option.map_map, Option.map_map] at he
    | channel i => exact congrArg Channel.IpcChannel.waiters (congrFun hc i)
    | sync c =>
      cases c with
      | lock i => exact congrArg Sync.Mutex.waiters (congrFun hm i)
      | wait i => exact congrArg Sync.Semaphore.waiters (congrFun hs i)
  refine h.drops (fun place => hlists place ▸ .refl _) (fun q => .inl ?_)
  · have he := congrArg (Option.map Prod.snd) (hp q)
    rw [Option.map_map, Option.map_map] at he
    exact he

theorem setProc_waitList (k : State) (p : Pid) (b : Option Proc) (place : Place) :
    (k.setProc p b).waitList place =
      if place = .mailbox p then (b.map (fun a => a.mailbox.waiting)).getD [] else k.waitList place := by
  cases place with
  | mailbox q =>
    by_cases hq : q = p
    · simp [State.waitList, setProc_lookup, hq]
    · simp [State.waitList, setProc_lookup, hq]
  | channel i => simp [State.waitList, State.setProc]
  | sync c => cases c <;> simp [State.waitList, State.setProc, State.sync, Sync.State.waiters]

theorem setProc_standing (k : State) (p q : Pid) (b : Option Proc) :
    (k.setProc p b).standing q = if q = p then b.map (fun a => (a.state, a.inside)) else k.standing q := by
  rw [State.standing, setProc_lookup]
  split_ifs <;> rfl

theorem Waiting.setAwake {b : Option Proc} (h : Waiting k) (hp : ¬∃ x, k.standing p = some (.waiting, x))
    (hw : ((b.map (fun a => a.mailbox.waiting)).getD []).Sublist (k.waitList (.mailbox p))) :
    Waiting (k.setProc p b) := by
  refine h.stepped hp ?_ ?_
  · intro place
    rw [setProc_waitList]
    split_ifs with he
    · rw [he]
      exact hw
    · exact .refl _
  · intro q hq
    rw [setProc_standing, if_neg hq]

theorem Waiting.capEdit (h : Waiting k) {owner : Pid} {new : Pid → Prop} {s : Ipc.State}
    (he : Ipc.CapEdit k.ipc owner new s) : Waiting (k.setIpc s) := by
  cases he with
  | same => rwa [State.setIpc_ipc]
  | @entry proc hp i e n _ =>
    refine h.of_same (fun q => ?_) rfl rfl rfl
    cases hk : k.procs q with
    | none => simp [State.setIpc, hk]
    | some a =>
      by_cases hq : q = owner
      · subst hq
        obtain rfl : a.ipc = proc := by simpa [State.ipc, hk] using hp
        have hin : (a.setIpc a.ipc).inside = a.inside := by rw [Proc.setIpc_ipc]
        simp [State.setIpc, hk, Ipc.setProc_procs, Proc.stance]
        exact ⟨rfl, rfl, hin⟩
      · simp [State.setIpc, State.ipc, hk, Ipc.setProc_procs, hq, Proc.setIpc_ipc]

/-- New processes are under pids that no process has. -/
def State.Fresh (k : State) : Prop := ∀ q, k.nextPid ≤ q → k.procs q = none

theorem Waiting.processCreate (h : Waiting k) (hf : k.Fresh) (kind : ThreadKind)
    (memory : Ipc.Mailbox) : Waiting (processCreate k kind memory).1 := by
  unfold Kernel.processCreate
  split
  · have hnone : k.procs k.nextPid = none := hf k.nextPid le_rfl
    have hset : Waiting (k.setProc k.nextPid (some (freshProc kind memory))) := by
      refine h.setAwake ?_ (nil_sublist _)
      rintro ⟨x, hx⟩
      rw [State.standing, hnone] at hx
      cases hx
    exact hset.of_same (fun _ => rfl) rfl rfl rfl
  · exact h

theorem Waiting.channelDrop (h : Waiting k) (p : Pid) (channelId : Int) : Waiting (channelDrop p k channelId) := by
  unfold Kernel.channelDrop
  split
  · exact h
  · rename_i i _
    refine h.drops ?_ (fun q => .inl rfl)
    intro place
    cases place with
    | mailbox q => exact .refl _
    | channel j =>
      show (update k.channels i _ j).waiters.Sublist _
      by_cases hj : j = i
      · subst hj
        rw [update_self]
        exact erase_sublist (l := (k.channels j).waiters) (a := p)
      · rw [update_of_ne hj]
        exact .refl _
    | sync c => cases c <;> exact .refl _

theorem Waiting.foldl_channelDrop (h : Waiting k) (p : Pid) (l : List Int) :
    Waiting (l.foldl (Kernel.channelDrop p) k) := by
  induction l generalizing k with
  | nil => exact h
  | cons c l ih => exact ih (h.channelDrop p c)

end ProOS.Kernel
