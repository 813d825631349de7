import ProOS.Framework.SelectiveQueue
import ProOS.Ipc.Mailbox

namespace ProOS.Ipc

open ProOS.Framework Function Option List

/-- What the trace says about one mailbox since its process was attached: the messages that
`ipc_send` accepted for it and those its owner has taken out, each in order. -/
structure History where
  accepted : List Message
  dequeued : List Message
  deriving DecidableEq, Repr

abbrev Books := Pid → History
def Books.empty : Books := fun _ => ⟨[], []⟩

def Books.accept (B : Books) (q : Pid) (m : Message) : Books :=
  update B q { B q with accepted := (B q).accepted ++ [m] }

def Books.dequeue (B : Books) (q : Pid) (m : Message) : Books :=
  update B q { B q with dequeued := (B q).dequeued ++ [m] }

def Books.reset (B : Books) (q : Pid) : Books := update B q ⟨[], []⟩

/-- A send counts as accepted when it returned a size. -/
def Books.offer (B : Books) (q : Pid) (m : Message) (rc : Int) : Books :=
  if 0 ≤ rc then B.accept q m else B

def Deed.record (p : Pid) (B : Books) : Deed → Books
  | .dropped m => B.dequeue p m
  | .logged target m rc => B.offer target m rc

def Outcome.record (p : Pid) (B : Books) : Outcome → Books
  | .delivered m _ => B.dequeue p m
  | _ => B

def Event.record (B : Books) : Event → Books
  | .attached p => B.reset p
  | .detached p => B.reset p
  | .sent target m rc => B.offer target m rc
  | .recv p _ deeds o => o.record p (deeds.foldl (Deed.record p) B)
  | _ => B

def books (tr : List Event) : Books := tr.foldl Event.record .empty

@[simp] theorem books_snoc (tr : List Event) (e : Event) :
    books (tr ++ [e]) = Event.record (books tr) e := by simp [books]

/-- The mailbox of `q` agrees with its history; nobody but `q` ever waits at it; and while `q`
sleeps in `ipc_recv` it is listed there and nothing that it asked for is queued. -/
structure Kept (q : Pid) (H : History) (proc : Proc) : Prop where
  history : ∃ taken,
    Selective Message.sender H.accepted taken (proc.mailbox.queue.map Slot.message) ∧
      H.dequeued.map some = taken.map (fun d => H.accepted[d]?)
  used : ∀ slot ∈ proc.mailbox.queue, slot.used = true
  waiters : ∀ w ∈ proc.mailbox.waiting, w = q
  asleep : proc.state = .waiting → ∀ call, proc.inside = some call →
    q ∈ proc.mailbox.waiting ∧ ∀ slot ∈ proc.mailbox.queue, slotMatches call.source slot = false

def Inv (B : Books) (s : State) : Prop :=
  ∀ q proc, s.procs q = some proc → 0 < q ∧ Kept q (B q) proc

variable {p q : Pid} {H : History} {a b proc : Proc} {B : Books} {s s' : State}

theorem Kept.of_mailbox (h : Kept q H a)
    (hm : b.mailbox = a.mailbox) (hs : b.state = .waiting → a.state = .waiting ∧ b.inside = a.inside) :
    Kept q H b where
  history := by rw [hm]; exact h.history
  used := by rw [hm]; exact h.used
  waiters := by rw [hm]; exact h.waiters
  asleep := by
    intro hb call hc
    obtain ⟨ha, hi⟩ := hs hb
    rw [hm]
    exact h.asleep ha call (hi ▸ hc)

theorem Kept.roused (h : Kept q H a) (hr : Roused a b) : Kept q H b := by
  rcases hr with rfl | ⟨-, rfl⟩
  · exact h
  · exact h.of_mailbox rfl (by simp)

theorem Kept.empty (hq : proc.mailbox.queue = [])
    (hw : proc.mailbox.waiting = []) (hi : proc.inside = none) : Kept q ⟨[], []⟩ proc where
  history := ⟨[], by rw [hq]; exact Selective.empty _, rfl⟩
  used := by simp [hq]
  waiters := by simp [hw]
  asleep := by
    intro _ call hc
    rw [hi] at hc
    cases hc

theorem Inv.set (inv : Inv B s) (hp : 0 < p) (hk : Kept p H proc) : Inv (update B p H) (s.setProc p (some proc)) := by
  intro q pr hq
  rw [setProc_procs] at hq
  by_cases hqp : q = p
  · subst hqp
    rw [if_pos rfl] at hq
    cases hq
    rw [update_self]
    exact ⟨hp, hk⟩
  · rw [if_neg hqp] at hq
    rw [update_of_ne hqp]
    exact inv q pr hq

theorem Inv.set_same (inv : Inv B s) (hp : 0 < p) (hk : Kept p (B p) proc) : Inv B (s.setProc p (some proc)) := by
  have h := inv.set hp hk
  rwa [update_eq_self] at h

theorem Inv.processWake (inv : Inv B s) (p : Pid) : Inv B (processWake s p) := by
  intro q b hb
  obtain ⟨a, ha, hr⟩ := processWake_roused s p q hb
  exact ⟨(inv q a ha).1, (inv q a ha).2.roused hr⟩

theorem Kept.push {slot : Slot} {mailbox : Mailbox} (h : Kept q H proc) (hpos : 0 < q) (hu : slot.used = true)
    (hq : mailbox.queue = proc.mailbox.queue ++ [slot]) (hw : ∀ w ∈ mailbox.waiting, w ∈ proc.mailbox.waiting)
    (hb : Roused { proc with mailbox := mailbox } b)
    (hwake : ∀ ws, proc.mailbox.waiting = q :: ws → 0 < q → b.state ≠ .waiting) :
    Kept q { H with accepted := H.accepted ++ [slot.message] } b := by
  have hbm : b.mailbox = mailbox := by rcases hb with rfl | ⟨-, rfl⟩ <;> rfl
  have hbs : b.state = .waiting → proc.state = .waiting ∧ b.inside = proc.inside := by
    intro hwait
    rcases hb with rfl | ⟨-, rfl⟩
    · exact ⟨hwait, rfl⟩
    · cases hwait
  refine ⟨?_, ?_, ?_, ?_⟩
  · obtain ⟨taken, hsel, hdeq⟩ := h.history
    refine ⟨taken, ?_, ?_⟩
    · rw [hbm, hq, map_append]
      exact hsel.push slot.message
    · rw [hdeq]
      apply map_congr_left
      intro d hd
      exact (getElem?_append_left (hsel.bound d hd)).symm
  · intro x hx
    rw [hbm, hq] at hx
    rcases mem_append.mp hx with hx | hx
    · exact h.used x hx
    · rw [mem_singleton.mp hx, hu]
  · intro w hmem
    rw [hbm] at hmem
    exact h.waiters w (hw w hmem)
  · -- the owner was the first waiter if it slept here, and has been woken
    intro hwait call hcall
    obtain ⟨hs, hi⟩ := hbs hwait
    have hmem := (h.asleep hs call (hi ▸ hcall)).1
    cases hlist : proc.mailbox.waiting with
    | nil =>
      rw [hlist] at hmem
      cases hmem
    | cons w ws =>
      obtain rfl : w = q := h.waiters w (by simp [hlist])
      exact absurd hwait (hwake ws hlist hpos)

theorem Inv.enqueued {target : Pid} {m : Message} {rc : Int}
    (inv : Inv B s) (hp : s.procs target = some proc) (h : Enqueued s target proc m s' rc) :
    Inv (B.offer target m rc) s' := by
  cases h with
  | full hf => exact inv
  | stored slot mailbox b hm hu hq hw ht hb hwake hothers _ =>
    obtain ⟨hpos, hk⟩ := inv target proc hp
    rw [Books.offer, if_pos (Int.natCast_nonneg _), Books.accept]
    intro q pr hq'
    by_cases hqt : q = target
    · subst hqt
      rw [ht] at hq'
      cases hq'
      rw [update_self, ← hm]
      exact ⟨hpos, hk.push hpos hu hq hw hb hwake⟩
    · rw [update_of_ne hqt]
      obtain ⟨a, ha, hr⟩ := hothers q pr hqt hq'
      exact ⟨(inv q a ha).1, (inv q a ha).2.roused hr⟩

theorem Inv.ipcSend (inv : Inv B s) (current : Option Pid) (target : Pid) (msg : Option Buffer) (size : Nat) :
    Inv (B.offer target (.sent current msg size) (ipcSend s current target msg size).2)
      (ipcSend s current target msg size).1 := by
  rcases ipcSend_spec s current target msg size with h | ⟨proc, hp, -, h⟩
  · rw [h]
    exact inv
  · exact inv.enqueued hp h

theorem Kept.take {source : Pid} {slot : Slot} {mailbox : Mailbox}
    (h : Kept q H proc) (hd : mailboxTryDequeue proc.mailbox source = some (slot, mailbox))
    (hs : proc.state ≠ .waiting) :
    Kept q { H with dequeued := H.dequeued ++ [slot.message] } { proc with mailbox := mailbox } := by
  obtain ⟨i, hi, hm, hfirst, hq, hw⟩ := mailboxTryDequeue_some hd
  have hsub : ∀ x ∈ mailbox.queue, x ∈ proc.mailbox.queue := by
    intro x hx
    rw [hq] at hx
    exact mem_of_mem_eraseIdx hx
  refine ⟨?_, ?_, ?_, ?_⟩
  · obtain ⟨taken, hsel, hdeq⟩ := h.history
    -- the filter looks at the sender only, since every queued slot is in use
    obtain ⟨d, -, hdx, hsel'⟩ := hsel.take
      (p := fun m : Message => source = ipcAnyProcess ∨ m.sender = source) (i := i) (x := slot.message)
      (by
        intro y z hkey hy
        rcases hy with hy | hy
        · exact .inl hy
        · exact .inr (hkey ▸ hy))
      (by rw [getElem?_map, hi, map_some])
      (by
        simp only [slotMatches, Bool.and_eq_true, Bool.or_eq_true, beq_iff_eq] at hm
        exact hm.2)
      (by
        intro j y hj hy hmatch
        rw [getElem?_map] at hy
        obtain ⟨other, ho, rfl⟩ := map_eq_some_iff.mp hy
        have hno := hfirst j other hj ho
        have hu := h.used other (mem_of_getElem? ho)
        have hyes : slotMatches source other = true := by
          simp only [slotMatches, Bool.and_eq_true, Bool.or_eq_true, beq_iff_eq]
          exact ⟨hu, hmatch⟩
        rw [hyes] at hno
        cases hno)
    refine ⟨taken ++ [d], ?_, ?_⟩
    · rw [hq, ← eraseIdx_map]
      exact hsel'
    · rw [map_append, map_append, hdeq, map_singleton, map_singleton, hdx]
  · intro x hx
    exact h.used x (hsub x hx)
  · intro w hmem
    rw [hw] at hmem
    exact h.waiters w hmem
  · intro hwait
    exact absurd hwait hs

def State.Awake (s : State) (p : Pid) : Prop := ∀ proc, s.procs p = some proc → proc.state ≠ .waiting

theorem Roused.not_waiting (h : Roused a b) (ha : a.state ≠ .waiting) : b.state ≠ .waiting := by
  rcases h with rfl | ⟨hw, -⟩
  · exact ha
  · exact absurd hw ha

theorem Awake.ipcSend (h : s.Awake p) (current : Option Pid) (target : Pid)
    (msg : Option Buffer) (size : Nat) : (ipcSend s current target msg size).1.Awake p := by
  rcases ipcSend_spec s current target msg size with heq | ⟨proc, hp, -, henq⟩
  · rw [heq]
    exact h
  · generalize Ipc.ipcSend s current target msg size = r at henq ⊢
    obtain ⟨s', rc⟩ := r
    cases henq with
    | full => exact h
    | stored slot mailbox b hm hu hq hw ht hb hwake hothers _ =>
      intro b' hb'
      by_cases hpt : p = target
      · subst hpt
        rw [ht] at hb'
        cases hb'
        exact hb.not_waiting (h proc hp)
      · obtain ⟨a, ha, hr⟩ := hothers p b' hpt hb'
        exact hr.not_waiting (h a ha)

theorem Awake.setProc (h : proc.state ≠ .waiting) : (s.setProc p (some proc)).Awake p := by
  intro b hb
  rw [setProc_self] at hb
  cases hb
  exact h

/-- Where a pass through the loop ended: `p` is still in the table, and if it is going to
block it is listed as a waiter and nothing queued matches its filter. -/
def PassEnd (p : Pid) (call : RecvCall) (o : Outcome) (s : State) : Prop :=
  ∃ proc, s.procs p = some proc ∧ proc.state ≠ .waiting ∧
    (o = .blocked → p ∈ proc.mailbox.waiting ∧
      ∀ slot ∈ proc.mailbox.queue, slotMatches call.source slot = false)

theorem Kept.pushed (h : Kept q H proc) (hs : proc.state ≠ .waiting)
    (w : Bool) : Kept q H { proc with mailbox := (mailboxPushWaiter proc.mailbox q).1, ipcWaiting := w } where
  history := by
    rw [mailboxPushWaiter_queue]
    exact h.history
  used := by
    rw [mailboxPushWaiter_queue]
    exact h.used
  waiters := by
    intro x hx
    rcases (mailboxPushWaiter_waiting proc.mailbox q).1 x hx with hold | hself
    · exact h.waiters x hold
    · exact hself
  asleep := fun hw => absurd hw hs

theorem RecvRun.inv {call : RecvCall} {logs : Nat → Option LogSend} {k : Nat}
    {deeds : List Deed} {o : Outcome} (h : RecvRun p call logs k s deeds o s') :
    ∀ {B : Books}, Inv B s → s.Awake p → Inv (o.record p (deeds.foldl (Deed.record p) B)) s' ∧ PassEnd p call o s' := by
  have htake : ∀ {B : Books} {s : State} {proc : Proc} {slot : Slot} {mailbox : Mailbox}, Inv B s → s.Awake p →
      s.procs p = some proc → mailboxTryDequeue proc.mailbox call.source = some (slot, mailbox) → ∀ w : Bool,
      Inv (B.dequeue p slot.message) (s.setProc p (some { proc with mailbox := mailbox, ipcWaiting := w })) := by
    intro B s proc slot mailbox inv hawake hp hd w
    obtain ⟨hpos, hk⟩ := inv p proc hp
    exact inv.set hpos ((hk.take hd (hawake proc hp)).of_mailbox rfl (fun hw => ⟨hw, rfl⟩))
  induction h with
  | idle hp hd rc =>
    intro B inv hawake
    exact ⟨inv, _, hp, hawake _ hp, by simp⟩
  | @block k s proc hp hd hw =>
    intro B inv hawake
    have hst := hawake proc hp
    obtain ⟨hpos, hk⟩ := inv p proc hp
    refine ⟨inv.set_same hpos (hk.pushed hst true), _, setProc_self _ _ _, hst, fun _ => ⟨?_, ?_⟩⟩
    · exact (mailboxPushWaiter_waiting proc.mailbox p).2 hw
    · dsimp only
      rw [mailboxPushWaiter_queue]
      exact mailboxTryDequeue_none hd
  | deliver hp hd hc =>
    intro B inv hawake
    have hst := hawake _ hp
    exact ⟨htake inv hawake hp hd false, _, setProc_self _ _ _, hst, by simp⟩
  | drop hp hd hc hrest ih =>
    intro B inv hawake
    have hst := hawake _ hp
    exact ih (htake inv hawake hp hd _) (Awake.setProc hst)
  | log hp hd hc l hsent hrest ih =>
    intro B inv hawake
    have hst := hawake _ hp
    subst hsent
    refine ih ((htake inv hawake hp hd _).ipcSend (some p) l.target (some l.msg) l.size) ?_
    apply Awake.ipcSend
    exact Awake.setProc hst

theorem recvPass_inv {call : RecvCall} {logs : Nat → Option LogSend} {e : Event} (inv : Inv B s)
    (hp : s.procs p = some proc) (h : recvPass s p proc call logs = some (e, s')) : Inv (Event.record B e) s' := by
  obtain ⟨hpos, hk⟩ := inv p proc hp
  obtain ⟨deeds, o, s₁, b, hrun, hb, rfl, rfl⟩ := recvPass_run h
  have hentered : Kept p (B p) { proc with state := .running, ipcWaiting := false } :=
    hk.of_mailbox rfl (by simp)
  obtain ⟨inv₁, pr, hpr, hst, hblocked⟩ := hrun.inv (inv.set_same hpos hentered) (Awake.setProc (by simp))
  obtain rfl := some.inj (hb.symm.trans hpr)
  have hkept := (inv₁ p b hb).2
  apply inv₁.set_same hpos
  cases o with
  | delivered m copied => exact hkept.of_mailbox rfl (by simp [Proc.leave])
  | returned rc => exact hkept.of_mailbox rfl (by simp [Proc.leave])
  | blocked =>
    obtain ⟨hmem, hnone⟩ := hblocked rfl
    refine ⟨hkept.history, hkept.used, hkept.waiters, ?_⟩
    intro _ c hc
    cases hc
    exact ⟨hmem, hnone⟩

theorem Inv.capEdit {owner : Pid} {new : Pid → Prop} (inv : Inv B s) (h : CapEdit s owner new s') : Inv B s' := by
  cases h with
  | same => exact inv
  | entry hp i e n _ =>
    obtain ⟨hpos, hk⟩ := inv owner _ hp
    exact inv.set_same hpos (hk.of_mailbox rfl (fun hw => ⟨hw, rfl⟩))

theorem Inv.step {e : Event} (inv : Inv B s) (h : Step s e s') : Inv (Event.record B e) s' := by
  obtain ⟨a, ha⟩ := h
  cases perform_took ha with
  | attach hpos => exact inv.set hpos (Kept.empty rfl rfl rfl)
  | detach hp hf => exact inv.set (inv _ _ hp).1 (Kept.empty rfl rfl hf.1)
  | reclaim p =>
    intro q proc hq
    rw [setProc_procs] at hq
    split at hq
    · cases hq
    · exact inv q proc hq
  | grant owner target rights => exact inv.capEdit (ipcCapGrant_edit s owner target rights)
  | revoke owner target rights => exact inv.capEdit (ipcCapRevoke_edit s owner target rights)
  | send current target msg size => exact inv.ipcSend current target msg size
  | refused => exact inv
  | recv hp _ hpass => exact recvPass_inv inv hp hpass
  | resume hp _ hpass => exact recvPass_inv inv hp hpass
  | wake p => exact inv.processWake p

theorem exec_inv {tr : List Event} (hx : Exec Step ipcSystemInit tr s) : Inv (books tr) s := by
  apply hx.historyInvariant (P := fun tr s => Inv (books tr) s)
  · intro q proc hq
    cases hq
  · intro tr s e s' _ inv h
    rw [books_snoc]
    exact inv.step h

/-- Every mailbox in every run. `taken` lists the positions, among the accepted messages, of
those that the owner has taken out, in the order in which it took them. -/
theorem mailbox_delivery {tr : List Event} {s : State} {q : Pid} {proc : Proc}
    (hx : Exec Step ipcSystemInit tr s) (hq : s.procs q = some proc) :
    ∃ taken : List Nat,
      taken.Nodup ∧ (∀ d ∈ taken, d < (books tr q).accepted.length) ∧
      (books tr q).dequeued.map some = taken.map (fun d => (books tr q).accepted[d]?) ∧
      (proc.mailbox.queue.map Slot.message).map some =
        (untaken (books tr q).accepted.length taken).map (fun i => (books tr q).accepted[i]?) ∧
      taken.Pairwise (fun d e => ((books tr q).accepted[d]?).map Message.sender =
        ((books tr q).accepted[e]?).map Message.sender → d < e) ∧
      (proc.state = .waiting → ∀ call, proc.inside = some call → ∀ slot ∈ proc.mailbox.queue,
        call.source ≠ ipcAnyProcess ∧ slot.sender ≠ call.source) := by
  have hk := (exec_inv hx q proc hq).2
  obtain ⟨taken, hsel, hdeq⟩ := hk.history
  refine ⟨taken, hsel.nodup, hsel.bound, hdeq, hsel.left_eq, hsel.ordered, ?_⟩
  intro hw call hc slot hslot
  have hno := (hk.asleep hw call hc).2 slot hslot
  have hu := hk.used slot hslot
  simpa [slotMatches, hu] using hno

def letters (n : Nat) : Buffer := fun i => if i < n then 97 else 0

/-- Processes 1 and 3 send to process 2, which then asks for what process 3 sent. -/
def filtered : List Action :=
  let memory : Mailbox := ⟨fun _ => ⟨false, 0, 0, 0, letters 4⟩, 0, fun _ => 0, 0⟩
  [.attach 1 .kernel memory, .attach 2 .kernel memory, .attach 3 .kernel memory,
    .send (some 1) 2 (some (letters 2)) 2, .send (some 3) 2 (some (letters 1)) 3,
    .recv 2 ⟨3, true, 8⟩ (fun _ => none)]

theorem filtered_isSome : (performAll perform ipcSystemInit filtered).isSome = true := by decide

def filteredRun : List Event × State :=
  (performAll perform ipcSystemInit filtered).get filtered_isSome

theorem mailbox_delivery_filtered :
    (books filteredRun.1 2).accepted = [⟨1, 2, [97, 97]⟩, ⟨3, 3, [97, 0, 0]⟩] ∧
      (books filteredRun.1 2).dequeued = [⟨3, 3, [97, 0, 0]⟩] ∧
      ∃ (proc : Proc) (taken : List Nat), filteredRun.2.procs 2 = some proc ∧ taken.Nodup ∧
        [some ⟨3, 3, [97, 0, 0]⟩] = taken.map (fun d => (books filteredRun.1 2).accepted[d]?) := by
  have hrun : Exec Step ipcSystemInit filteredRun.1 filteredRun.2 :=
    performAll_exec perform filtered _ _ _ (some_get filtered_isSome).symm
  have hlive : (filteredRun.2.procs 2).isSome = true := by decide
  obtain ⟨taken, hnd, -, hdeq, -⟩ := mailbox_delivery hrun (some_get hlive).symm
  have haccepted : (books filteredRun.1 2).accepted = [⟨1, 2, [97, 97]⟩, ⟨3, 3, [97, 0, 0]⟩] := by
    decide
  have hdequeued : (books filteredRun.1 2).dequeued = [⟨3, 3, [97, 0, 0]⟩] := by decide
  refine ⟨haccepted, hdequeued, _, taken, (some_get hlive).symm, hnd, ?_⟩
  rw [← hdeq, hdequeued]
  rfl

end ProOS.Ipc
