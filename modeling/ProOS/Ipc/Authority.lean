import ProOS.Ipc.Rights

/-! Who can reach whom through capabilities and mailboxes, against a relation `A` of who may. -/

namespace ProOS.Ipc

open ProOS.Framework Option

/-- Nobody has to be allowed to reach itself, and what the kernel sends in its own name is free. -/
structure Closed (A : Pid → Pid → Prop) : Prop where
  self : ∀ p, A p p
  nobody : ∀ p q, p ≤ 0 → A p q

/-- What process `p` has, it may have: every peer of a capability and every sender of a message. -/
structure Proc.Earned (A : Pid → Pid → Prop) (p : Pid) (a : Proc) : Prop where
  caps : ∀ n, (a.caps n).used = true → A p (a.caps n).peer
  mail : ∀ slot ∈ a.mailbox.queue, A slot.sender p

/-- A kernel thread may reach anybody. -/
structure Proc.Within (A : Pid → Pid → Prop) (p : Pid) (a : Proc) : Prop extends Proc.Earned A p a where
  kernel : a.kind = .kernel → ∀ q, A p q

/-- `b` is `a` later on: what it has gained is in `A`. -/
structure Inherits (A : Pid → Pid → Prop) (p : Pid) (a b : Proc) : Prop where
  kind : b.kind = a.kind
  caps : ∀ n, (b.caps n).used = true →
    (∃ m, (a.caps m).used = true ∧ (a.caps m).peer = (b.caps n).peer) ∨ A p (b.caps n).peer
  mail : ∀ slot ∈ b.mailbox.queue, slot ∈ a.mailbox.queue ∨ A slot.sender p

def State.Within (A : Pid → Pid → Prop) (s : State) : Prop := ∀ p a, s.procs p = some a → a.Within A p

def Passes (A : Pid → Pid → Prop) (s s' : State) : Prop :=
  ∀ p b, s'.procs p = some b → ∃ a, s.procs p = some a ∧ Inherits A p a b

section Relations

variable {A : Pid → Pid → Prop} {p : Pid} {a b c : Proc} {s s' s'' : State}

theorem Inherits.of_same (hk : b.kind = a.kind) (hc : b.caps = a.caps)
    (hm : b.mailbox.queue = a.mailbox.queue) : Inherits A p a b where
  kind := hk
  caps := by
    intro n hn
    rw [hc] at hn ⊢
    exact .inl ⟨n, hn, rfl⟩
  mail := by
    intro slot hslot
    rw [hm] at hslot
    exact .inl hslot

theorem Inherits.refl (A : Pid → Pid → Prop) (p : Pid) (a : Proc) : Inherits A p a a := .of_same rfl rfl rfl

theorem Inherits.trans (h : Inherits A p a b) (h' : Inherits A p b c) : Inherits A p a c where
  kind := h'.kind.trans h.kind
  caps := by
    intro n hn
    rcases h'.caps n hn with ⟨m, hm, hpeer⟩ | hA
    · rw [← hpeer]
      exact h.caps m hm
    · exact .inr hA
  mail := by
    intro slot hslot
    exact (h'.mail slot hslot).elim (h.mail slot) .inr

theorem Proc.Earned.inherits (ha : a.Earned A p) (h : Inherits A p a b) : b.Earned A p where
  caps := by
    intro n hn
    rcases h.caps n hn with ⟨m, hm, hpeer⟩ | hA
    · rw [← hpeer]
      exact ha.caps m hm
    · exact hA
  mail := fun slot hslot => (h.mail slot hslot).elim (ha.mail slot) id

theorem Proc.Within.inherits (ha : a.Within A p) (h : Inherits A p a b) : b.Within A p :=
  ⟨ha.toEarned.inherits h, fun hk => ha.kernel (h.kind ▸ hk)⟩

theorem Roused.inherits (h : Roused a b) : Inherits A p a b := by
  rcases h with rfl | ⟨-, rfl⟩ <;> exact .of_same rfl rfl rfl

theorem Passes.refl (A : Pid → Pid → Prop) (s : State) : Passes A s s := fun p a ha => ⟨a, ha, .refl A p a⟩

theorem Passes.trans (h : Passes A s s') (h' : Passes A s' s'') : Passes A s s'' := by
  intro p c hc
  obtain ⟨b, hb, hbc⟩ := h' p c hc
  obtain ⟨a, ha, hab⟩ := h p b hb
  exact ⟨a, ha, hab.trans hbc⟩

theorem State.Within.passes (hs : s.Within A) (h : Passes A s s') : s'.Within A := by
  intro p b hb
  obtain ⟨a, ha, hab⟩ := h p b hb
  exact (hs p a ha).inherits hab

theorem Passes.set (hp : s.procs p = some a) (h : Inherits A p a b) : Passes A s (s.setProc p (some b)) := by
  intro q c hc
  rw [setProc_procs] at hc
  split_ifs at hc with hq
  · cases hc
    rw [hq]
    exact ⟨a, hp, h⟩
  · exact ⟨c, hc, .refl A q c⟩

theorem Proc.Within.reaches (hA : Closed A) (ha : a.Within A p) {peer : Pid} {rights : UInt32}
    (hr : rights ≠ 0) (hpeer : 0 < peer) (h : capabilityCheck p a peer rights = true) : A p peer := by
  unfold capabilityCheck at h
  rw [if_neg hr] at h
  split_ifs at h with hk hn hself
  · exact ha.kernel hk peer
  · exact absurd hn (not_le.mpr hpeer)
  · rw [hself]
    exact hA.self peer
  · cases hf : capabilityFindSlot a peer with
    | none =>
      rw [hf] at h
      exact absurd (by simpa using h : 0 = rights).symm hr
    | some i =>
      have hi := List.find?_some hf
      simp only [Bool.and_eq_true, beq_iff_eq] at hi
      rw [← hi.2]
      exact ha.caps i hi.1

end Relations

variable {proc : Proc} {call : RecvCall} {logs : Nat → Option LogSend}

section Operations

variable {A : Pid → Pid → Prop} {p : Pid} {s s' : State}

theorem Enqueued.passes {target : Pid} {m : Message} {rc : Int}
    (h : Enqueued s target proc m s' rc) (hp : s.procs target = some proc) (hm : A m.sender target) :
    Passes A s s' := by
  cases h with
  | full _ => exact .refl A s
  | stored slot mailbox b hmsg _ hq _ htarget hb _ hothers _ =>
    intro r c hc
    by_cases hr : r = target
    · subst hr
      obtain rfl := some.inj (htarget.symm.trans hc)
      have hfilled : Inherits A r proc { proc with mailbox := mailbox } := by
        refine ⟨rfl, fun n hn => .inl ⟨n, hn, rfl⟩, ?_⟩
        intro other hother
        rw [hq] at hother
        rcases List.mem_append.mp hother with hold | hnew
        · exact .inl hold
        · obtain rfl := List.mem_singleton.mp hnew
          rw [← hmsg] at hm
          exact .inr hm
      exact ⟨proc, hp, hfilled.trans hb.inherits⟩
    · obtain ⟨a, ha, hroused⟩ := hothers r c hr hc
      exact ⟨a, ha, hroused.inherits⟩

theorem Passes.ipcSend (hA : Closed A) (hs : s.Within A) {current : Option Pid}
    (hcur : ∀ p, current = some p → (s.procs p).isSome) (target : Pid) (msg : Option Buffer) (size : Nat) :
    Passes A s (ipcSend s current target msg size).1 := by
  rcases ipcSend_spec s current target msg size with h | ⟨proc, hp, hpos, h⟩
  · rw [h]
    exact .refl A s
  rcases ipcSend_cases s current target msg size with h' | ⟨-, -, -, -, hperm, -⟩
  · rw [h']
    exact .refl A s
  · refine h.passes hp ?_
    cases current with
    | none => exact hA.nobody 0 target le_rfl
    | some p =>
      obtain ⟨a, ha⟩ := isSome_iff_exists.mp (hcur p rfl)
      rw [sendPermitted] at hperm
      simp only [ha] at hperm
      exact (hs p a ha).reaches hA (by decide) hpos hperm

theorem Inherits.dequeued {source : Pid} {slot : Slot} {mailbox : Mailbox}
    (h : mailboxTryDequeue proc.mailbox source = some (slot, mailbox)) (w : Bool) :
    Inherits A p proc { proc with mailbox := mailbox, ipcWaiting := w } := by
  obtain ⟨i, -, -, -, hq, -⟩ := mailboxTryDequeue_some h
  refine ⟨rfl, fun n hn => .inl ⟨n, hn, rfl⟩, ?_⟩
  intro other hother
  rw [hq] at hother
  exact .inl (List.mem_of_mem_eraseIdx hother)

theorem Inherits.pushed (proc : Proc) (q : Pid) (w : Bool) :
    Inherits A p proc { proc with mailbox := (mailboxPushWaiter proc.mailbox q).1, ipcWaiting := w } :=
  .of_same rfl rfl (mailboxPushWaiter_queue proc.mailbox q)

theorem RecvRun.passes (hA : Closed A) {k : Nat}
    {deeds : List Deed} {o : Outcome} (h : RecvRun p call logs k s deeds o s') : s.Within A → Passes A s s' := by
  induction h with
  | idle => exact fun _ => .refl A _
  | @block k s proc hp _ _ => exact fun _ => .set hp (.pushed proc p true)
  | deliver hp hd _ => exact fun _ => .set hp (.dequeued hd false)
  | @drop k s s' proc slot mailbox _ _ hp hd _ _ ih =>
    intro hs
    have htake : Passes A s (s.setProc p (some { proc with mailbox := mailbox })) :=
      .set hp (.dequeued hd proc.ipcWaiting)
    exact htake.trans (ih (hs.passes htake))
  | @log k s s' proc slot mailbox _ _ hp hd _ l sent hsent _ ih =>
    intro hs
    have htake : Passes A s (s.setProc p (some { proc with mailbox := mailbox })) :=
      .set hp (.dequeued hd proc.ipcWaiting)
    -- the record of the drop goes out in the name of the receiver, and only to whom it may reach
    have hcur : ∀ q, some p = some q → ((s.setProc p (some { proc with mailbox := mailbox })).procs q).isSome := by
      rintro q ⟨⟩
      rw [setProc_self]
      rfl
    have hsend := Passes.ipcSend hA (hs.passes htake) hcur l.target (some l.msg) l.size
    rw [hsent] at hsend
    exact htake.trans (hsend.trans (ih ((hs.passes htake).passes hsend)))

theorem Passes.recvPass (hA : Closed A) (hs : s.Within A) {e : Event} (hp : s.procs p = some proc)
    (h : recvPass s p proc call logs = some (e, s')) : Passes A s s' := by
  obtain ⟨deeds, o, s₁, b, hrun, hb, -, rfl⟩ := recvPass_run h
  have henter : Passes A s (s.setProc p (some { proc with state := .running, ipcWaiting := false })) :=
    .set hp (.of_same rfl rfl rfl)
  refine (henter.trans (hrun.passes hA (hs.passes henter))).trans (.set hb ?_)
  cases o <;> exact .of_same rfl rfl rfl

theorem Passes.ipcRecv (hA : Closed A) (hs : s.Within A) {e : Event} (hp : s.procs p = some proc)
    (h : ipcRecv s p proc call logs = some (e, s')) : Passes A s s' := by
  unfold Ipc.ipcRecv at h
  split_ifs at h
  · obtain ⟨-, rfl⟩ := Prod.mk.inj (some.inj h)
    exact .refl A s
  · obtain ⟨-, rfl⟩ := Prod.mk.inj (some.inj h)
    exact .refl A s
  · exact .recvPass hA hs hp h

theorem Inherits.capSet {i : Nat} {entry : CapEntry} (n : Nat)
    (h : entry.used = true → ((proc.caps i).used = true ∧ (proc.caps i).peer = entry.peer) ∨ A p entry.peer) :
    Inherits A p proc { proc with caps := Function.update proc.caps i entry, capCount := n } where
  kind := rfl
  caps := by
    intro m hm
    dsimp only at hm ⊢
    by_cases hmi : m = i
    · subst hmi
      rw [Function.update_self] at hm ⊢
      exact (h hm).imp_left (fun hold => ⟨m, hold⟩)
    · rw [Function.update_of_ne hmi] at hm ⊢
      exact .inl ⟨m, hm, rfl⟩
  mail := fun _ hslot => .inl hslot

theorem CapEdit.passes {owner : Pid} {new : Pid → Prop} (h : CapEdit s owner new s')
    (hnew : ∀ q, new q → A owner q) : Passes A s s' := by
  cases h with
  | same => exact .refl A s
  | entry hp i e n he => exact .set hp (.capSet n (fun hu => (he hu).imp_right (hnew _)))

theorem Passes.ipcCapGrant {owner target : Pid} (hot : A owner target) (rights : UInt32) :
    Passes A s (ipcCapGrant s owner target rights).1 :=
  (ipcCapGrant_edit s owner target rights).passes (fun _ hq => hq ▸ hot)

theorem Passes.ipcCapRevoke (owner target : Pid) (rights : UInt32) :
    Passes A s (ipcCapRevoke s owner target rights).1 :=
  (ipcCapRevoke_edit s owner target rights).passes (fun _ hq => hq.elim)

end Operations

end ProOS.Ipc
