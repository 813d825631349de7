import ProOS.Kernel.Sharing

namespace ProOS.Kernel

open ProOS.Framework

variable {k : State}

/-! ## Processes and services -/

theorem Numbered.fresh (hn : Numbered k) : k.Fresh := by
  intro q hq
  cases h : k.procs q with
  | none => rfl
  | some a => exact absurd (hn.pids q a h).2 (not_lt.mpr hq)

theorem linkCount_clear (i : Int) : linkCount clearLinks i = 0 := by
  simp [linkCount, clearLinks]

theorem Booked.processCreate (hb : Booked k) (kind : ThreadKind) (memory : Ipc.Mailbox) :
    Booked (processCreate k kind memory).1 := by
  have hw := hb.waiting.processCreate hb.numbered.fresh kind memory
  have hnone : k.procs k.nextPid = none := hb.numbered.fresh k.nextPid le_rfl
  revert hw
  unfold Kernel.processCreate
  split
  · intro hw
    refine ⟨hw, ⟨hb.numbered.initialized, ?_, ?_⟩, ⟨?_, ?_⟩, ?_, ⟨?_, hb.served.unique, hb.served.range⟩⟩
    · show 0 < k.nextPid + 1
      have := hb.numbered.next
      omega
    · show ∀ q a, Function.update k.procs k.nextPid _ q = some a → 0 < q ∧ q < k.nextPid + 1
      apply update_forall
      · intro q a _ ha
        have h := hb.numbered.pids q a ha
        exact ⟨h.1, h.2.trans (lt_add_one _)⟩
      · exact fun _ _ => ⟨hb.numbered.next, lt_add_one _⟩
    · intro i hi
      obtain ⟨hlt, ho, ht⟩ := hb.linked.parties i hi
      exact ⟨hlt, ho.trans (lt_add_one _), ht.trans (lt_add_one _)⟩
    · intro q i hq
      show (k.setProc k.nextPid (some (freshProc kind memory))).linkCount q i = _
      rw [setProc_linkCount]
      split_ifs with he
      · -- nobody has named the new pid yet
        rw [show (freshProc kind memory).ipcShares = clearLinks from rfl, linkCount_clear]
        cases hu : (k.shareTable i).used with
        | false => exact (parties_unused hu q).symm
        | true =>
          obtain ⟨-, ho, ht⟩ := hb.linked.parties i hu
          show 0 = (k.shareTable i).parties q
          rw [parties_of hu, he, if_neg (ne_of_gt ho), if_neg (ne_of_gt ht)]
      · apply hb.linked.links q i
        have hlook := setProc_lookup k k.nextPid q (some (freshProc kind memory))
        rw [if_neg he] at hlook
        exact hlook ▸ hq
    · show Channel.Roster (k.setProc k.nextPid (some (freshProc kind memory))).channel
      rw [setProc_channel]
      refine hb.roster.setProcs ?_ ?_
      · intro a ha
        simp [State.channel, hnone] at ha
      · rintro _ ⟨⟩
        exact ⟨rfl, rfl⟩
    · intro i
      exact (hb.served.pids i).trans (lt_add_one _)
  · exact fun _ => hb

theorem setService_table (k : State) (i j : Nat) (e : ServiceEntry) :
    (k.setService i e).serviceTable j = if j = i then e else k.serviceTable j := by
  simp [State.setService, Function.update_apply]

theorem Booked.setService (hb : Booked k) {i : Nat} {e : ServiceEntry} (hlt : e.pid < k.nextPid)
    (hnew : 0 < e.pid → i < systemServiceCount ∧ ∀ j, j ≠ i → (k.serviceTable j).pid ≠ e.pid) :
    Booked (k.setService i e) := by
  refine ⟨hb.waiting.of_same (fun _ => rfl) rfl rfl rfl,
    ⟨hb.numbered.initialized, hb.numbered.next, hb.numbered.pids⟩, ⟨hb.linked.parties, hb.linked.links⟩,
    hb.roster, ⟨?_, ?_, ?_⟩⟩
  · intro j
    rw [setService_table]
    split_ifs
    · exact hlt
    · exact hb.served.pids j
  · intro j l hpos he
    rw [setService_table] at hpos he
    rw [setService_table] at he
    split_ifs at hpos he with hj hl
    · rw [hj, hl]
    · exact absurd he.symm ((hnew hpos).2 l hl)
    · rename_i hl
      rw [he] at hpos
      exact absurd he ((hnew hpos).2 j hj)
    · exact hb.served.unique j l hpos he
  · intro j hpos
    rw [setService_table] at hpos
    split_ifs at hpos with hj
    · rw [hj]
      exact (hnew hpos).1
    · exact hb.served.range j hpos

theorem Booked.serviceStart (hb : Booked k) (service : Nat) (memory : Ipc.Mailbox) :
    Booked (serviceStart k service memory).1 := by
  unfold Kernel.serviceStart
  split
  · exact hb
  rename_i hrange
  split
  · exact hb
  split
  · exact hb
  dsimp only
  have hcreated := hb.processCreate .user memory
  split
  · rename_i hpos
    -- the pid is new, so no entry can have it
    have hpid : (Kernel.processCreate k .user memory).2 = k.nextPid ∧
        (Kernel.processCreate k .user memory).1.serviceTable = k.serviceTable ∧
        (Kernel.processCreate k .user memory).1.nextPid = k.nextPid + 1 := by
      revert hpos
      unfold Kernel.processCreate
      split
      · exact fun _ => ⟨rfl, rfl, rfl⟩
      · intro h
        exact absurd h (by simp)
    refine hcreated.setService ?_ ?_
    · show (Kernel.processCreate k .user memory).2 < _
      rw [hpid.1, hpid.2.2]
      exact lt_add_one _
    · intro _
      refine ⟨not_le.mp hrange, ?_⟩
      intro j _
      show ((Kernel.processCreate k .user memory).1.serviceTable j).pid ≠ (Kernel.processCreate k .user memory).2
      rw [hpid.1, hpid.2.1]
      exact ne_of_lt (hb.served.pids j)
  · exact hcreated

theorem Booked.capGrant (hb : Booked k) (owner target : Pid) (rights : UInt32) :
    Booked (capGrant k owner target rights).1 :=
  hb.turn (.capEdit hb.waiting (Ipc.ipcCapGrant_edit k.ipc owner target rights))

theorem serviceGrant_rule {P : State → Prop} (requester : Pid) {service : Nat} (rights : UInt32)
    {memory : Ipc.Mailbox} (h : P k) (hstart : P (serviceStart k service memory).1)
    (hgrant : ∀ k owner target rights, P k → P (capGrant k owner target rights).1)
    (hset : ∀ k e, P k → e.pid = (k.serviceTable service).pid → P (k.setService service e)) :
    P (serviceGrantCapabilities k requester service rights memory).1 := by
  unfold serviceGrantCapabilities
  split
  · exact h
  split
  · exact h
  dsimp only
  generalize hstarted : (if (k.serviceTable service).pid ≤ 0 then Kernel.serviceStart k service memory
    else (k, (k.serviceTable service).pid)) = started
  have h₁ : P started.1 := by
    rw [← hstarted]
    split
    · exact hstart
    · exact h
  split
  · exact h₁
  split
  · exact h₁
  have h₂ := hgrant started.1 requester (started.1.serviceTable service).pid
    ((k.serviceTable service).rightsDefault ||| rights) h₁
  split
  · exact h₂
  have h₃ := hgrant _ (started.1.serviceTable service).pid requester
    ((k.serviceTable service).rightsDefault ||| rights) h₂
  split
  · exact h₃
  split
  · -- the client's rights are recorded, the pid of the entry stays
    exact hset _ _ h₃ rfl
  · exact h₃

theorem Booked.serviceGrant (hb : Booked k) (requester : Pid) (service : Nat) (rights : UInt32)
    (memory : Ipc.Mailbox) : Booked (serviceGrantCapabilities k requester service rights memory).1 := by
  refine serviceGrant_rule requester rights hb (hb.serviceStart service memory)
    (fun k owner target rights hb => hb.capGrant owner target rights) ?_
  intro k e hb he
  refine hb.setService (he ▸ hb.served.pids service) ?_
  rw [he]
  intro hpos
  refine ⟨hb.served.range service hpos, ?_⟩
  intro j hj he
  exact hj (hb.served.unique service j hpos he.symm).symm

/-! ## Joining and leaving channels -/

theorem Booked.setChannel (hb : Booked k) {s : Channel.State} (hfit : Fits k s.procs)
    (hw : Waiting (k.setChannel s)) (hr : Channel.Roster s) : Booked (k.setChannel s) :=
  hb.keeps (.setChannel hfit) hw (by rwa [setChannel_read hfit])

end ProOS.Kernel
