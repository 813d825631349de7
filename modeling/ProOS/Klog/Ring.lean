import ProOS.Framework.Exec
import ProOS.Framework.RingBuffer
import ProOS.Framework.SlotTable
import ProOS.Kernel.Types

/-! The kernel log (`klog.c`): a ring of the last messages that passed the threshold of their module. -/

namespace ProOS.Klog

open ProOS.Framework Function List

def configKlogCapacity : Nat := 128
def configKlogEntryLen : Nat := 96
def configKlogModuleNameLen : Nat := 24
def configKlogMaxModules : Nat := 32
def configKlogDefaultLevel : Int := 1
def klogDebug : Int := 0
def klogError : Int := 3
def klogLevelInherit : Int := -1

structure LogEntry where
  seq : UInt32
  level : Int
  module : Str
  text : Str
deriving DecidableEq, Repr

structure ModuleEntry where
  used : Bool
  level : Int
  name : Str
deriving DecidableEq, Repr

def ModuleEntry.key (e : ModuleEntry) : Option Str := if e.used then some e.name else none

structure State where
  buffer : Nat → LogEntry
  count : Nat
  head : Nat
  sequence : UInt32
  currentLevel : Int
  ready : Bool
  modules : Fin configKlogMaxModules → ModuleEntry

def clampLevel (level : Int) : Int :=
  let level := if level < klogDebug then klogDebug else level
  if klogError < level then klogError else level

def klogInit : State where
  buffer := fun _ => ⟨0, 1, [], []⟩
  count := 0
  head := 0
  sequence := 0
  currentLevel := clampLevel configKlogDefaultLevel
  ready := true
  modules := fun _ => ⟨false, klogLevelInherit, []⟩

def ensureReady (s : State) : State := if s.ready then s else klogInit

/-- A null pointer and the empty name stand for `"kernel"`. -/
def sanitizeModule (module : Str) : Str := if module = [] then [107, 101, 114, 110, 101, 108] else module

def effectiveThresholdFor (s : State) (tag : Str) : Int :=
  match lookup ModuleEntry.key s.modules tag with
  | none => s.currentLevel
  | some entry => if entry.level ≠ klogLevelInherit then entry.level else s.currentLevel

def klogSetLevel (s : State) (level : Int) : State := { s with currentLevel := clampLevel level }

/-- `klog_module_set_level`; `find_module_entry` allocates a slot if it finds none. -/
def klogModuleSetLevel (s : State) (module : Str) (level : Int) : State × Int :=
  let tag := sanitizeModule module
  let level := if level ≠ klogLevelInherit then clampLevel level else level
  match slotOf ModuleEntry.key s.modules tag with
  | some i => ({ s with modules := update s.modules i { s.modules i with level := level } }, 0)
  | none =>
    match freeSlot ModuleEntry.key s.modules with
    | none => (s, -1)
    | some i => ({ s with modules := update s.modules i ⟨true, level, tag.take (configKlogModuleNameLen - 1)⟩ }, 0)

def klogStoreEntry (s : State) (module : Str) (level : Int) (message : Str) (seq : UInt32) : State :=
  { s with
    buffer := update s.buffer s.head
      ⟨seq, level, module.take (configKlogModuleNameLen - 1), message.take (configKlogEntryLen - 1)⟩
    head := (s.head + 1) % configKlogCapacity
    count := if s.count < configKlogCapacity then s.count + 1 else s.count }

/-- `klog_emit_tagged`, as far as the log itself goes; the message may be a null pointer. -/
def klogEmitTagged (s : State) (module : Str) (level : Int) (message : Option Str) : State :=
  match message with
  | none => s
  | some message =>
    let tag := sanitizeModule module
    if level < effectiveThresholdFor s tag then s
    else klogStoreEntry { s with sequence := s.sequence + 1 } tag (clampLevel level) message s.sequence

/-- `klog_copy` with room for `max` entries. -/
def klogCopy (s : State) (max : Nat) : List LogEntry :=
  let s := ensureReady s
  let available := if max < s.count then max else s.count
  ring s.buffer configKlogCapacity ((s.head + configKlogCapacity - s.count) % configKlogCapacity) available

inductive Call
  | emitTagged (module : Str) (level : Int) (message : Option Str)
  | setLevel (level : Int)
  | moduleSetLevel (module : Str) (level : Int)
deriving DecidableEq, Repr

structure Event where
  call : Call
  result : Int
deriving DecidableEq, Repr

def call (s : State) : Call → State × Int
  | .emitTagged module level message => (klogEmitTagged (ensureReady s) module level message, 0)
  | .setLevel level => (klogSetLevel (ensureReady s) level, 0)
  | .moduleSetLevel module level => klogModuleSetLevel (ensureReady s) module level

def Step (s : State) (e : Event) (s' : State) : Prop := call s e.call = (s', e.result)

/-! ## What the log is to hold -/

/-- The levels that have been set, and the messages that have passed. -/
structure Log where
  level : Int
  own : Str → Int
  messages : List LogEntry

def Log.threshold (l : Log) (tag : Str) : Int := if l.own tag ≠ klogLevelInherit then l.own tag else l.level

def Log.start : Log := ⟨configKlogDefaultLevel, fun _ => klogLevelInherit, []⟩

def Log.apply (l : Log) (e : Event) : Log :=
  match e.call with
  | .emitTagged _ _ none => l
  | .emitTagged module level (some message) =>
    let tag := sanitizeModule module
    if l.threshold tag ≤ level then
      { l with messages := l.messages ++
          [⟨UInt32.ofNat l.messages.length, clampLevel level, tag.take (configKlogModuleNameLen - 1),
            message.take (configKlogEntryLen - 1)⟩] }
    else l
  | .setLevel level => { l with level := clampLevel level }
  | .moduleSetLevel module level =>
    if e.result = 0 then
      { l with own := update l.own (sanitizeModule module) (if level ≠ klogLevelInherit then clampLevel level else level) }
    else l

def logOf (tr : List Event) : Log := tr.foldl Log.apply .start

/-- A module that is given a level has a name that fits. -/
def Event.Short (e : Event) : Prop :=
  match e.call with
  | .moduleSetLevel module _ => module.length < configKlogModuleNameLen
  | _ => True

instance (e : Event) : Decidable e.Short := by
  obtain ⟨c, r⟩ := e
  cases c <;> unfold Event.Short <;> infer_instance

/-- The ring holds the newest of the messages, and the sequence number counts them. -/
structure Stored (messages : List LogEntry) (s : State) : Prop where
  head : s.head < configKlogCapacity
  count : s.count = min messages.length configKlogCapacity
  sequence : s.sequence = UInt32.ofNat messages.length
  entries : ring s.buffer configKlogCapacity ((s.head + configKlogCapacity - s.count) % configKlogCapacity) s.count =
    newest configKlogCapacity messages

/-- The state of the log, once it is ready, is as the history says. -/
structure Holds (l : Log) (s : State) : Prop where
  ready : s.ready = true
  level : s.currentLevel = l.level
  keyed : Keyed ModuleEntry.key s.modules
  own : (fun tag => (lookup ModuleEntry.key s.modules tag).elim klogLevelInherit ModuleEntry.level) = l.own
  stored : Stored l.messages s

variable {l : Log} {s s' : State} {tr : List Event} {e : Event} {messages : List LogEntry}

theorem logOf_snoc (tr : List Event) (e : Event) : logOf (tr ++ [e]) = (logOf tr).apply e := by
  rw [logOf, foldl_append]
  rfl

theorem Holds.threshold (h : Holds l s) (tag : Str) : effectiveThresholdFor s tag = l.threshold tag := by
  have hown := congrFun h.own tag
  rw [effectiveThresholdFor, Log.threshold, ← hown, h.level]
  cases lookup ModuleEntry.key s.modules tag with
  | none => simp
  | some entry => rfl

theorem Stored.count_le (h : Stored messages s) : s.count ≤ configKlogCapacity := by
  rw [h.count]
  exact Nat.min_le_right _ _

theorem Stored.store (h : Stored messages s) (module message : Str) (level : Int) :
    Stored (messages ++
        [⟨UInt32.ofNat messages.length, level, module.take (configKlogModuleNameLen - 1), message.take (configKlogEntryLen - 1)⟩])
      (klogStoreEntry { s with sequence := s.sequence + 1 } module level message s.sequence) := by
  have hhead := h.head
  have hcount := h.count_le
  have hnext : (if s.count < configKlogCapacity then s.count + 1 else s.count) =
      if s.count = configKlogCapacity then s.count else s.count + 1 := by
    split_ifs <;> omega
  obtain ⟨start, hstart⟩ : ∃ start, (s.head + configKlogCapacity - s.count) % configKlogCapacity = start := ⟨_, rfl⟩
  -- where the ring starts afterwards
  have hplaces : (start + s.count) % configKlogCapacity = s.head ∧
      ((s.head + 1) % configKlogCapacity + configKlogCapacity - (if s.count = configKlogCapacity then s.count else s.count + 1)) %
        configKlogCapacity = if s.count = configKlogCapacity then (start + 1) % configKlogCapacity else start := by
    rw [configKlogCapacity] at *
    split_ifs <;> omega
  have hlt : start < configKlogCapacity := by
    rw [← hstart]
    exact Nat.mod_lt _ (by decide)
  have hpush := ring_push_newest s.buffer hlt hcount
    ⟨s.sequence, level, module.take (configKlogModuleNameLen - 1), message.take (configKlogEntryLen - 1)⟩
  refine ⟨Nat.mod_lt _ (by decide), ?_, ?_, ?_⟩
  · simp only [klogStoreEntry, h.count, length_append, length_singleton]
    split <;> omega
  · simp [klogStoreEntry, h.sequence]
  · simp only [klogStoreEntry, hnext, hplaces.2]
    rw [← hplaces.1, hpush, ← hstart, h.entries, newest_append, h.sequence]

theorem Holds.setModule (h : Holds l s) {tag : Str} {i : Fin configKlogMaxModules} (entry : ModuleEntry) (hk : entry.key = some tag)
    (hold : ∀ k, (s.modules i).key = some k → k = tag) (hother : ∀ j, j ≠ i → (s.modules j).key ≠ some tag) :
    Holds { l with own := update l.own tag entry.level } { s with modules := update s.modules i entry } := by
  refine ⟨h.ready, h.level, h.keyed.update (fun k hk' => Option.some.inj (hk'.symm.trans hk)) hother, ?_,
    ⟨h.stored.head, h.stored.count, h.stored.sequence, h.stored.entries⟩⟩
  funext k
  dsimp only
  rw [h.keyed.lookup_put hk hold hother, ← h.own]
  by_cases hkt : k = tag
  · rw [hkt, update_self, update_self]
    rfl
  · rw [update_of_ne hkt, update_of_ne hkt]

theorem ensureReady_of_ready (h : s.ready = true) : ensureReady s = s := if_pos h

theorem Holds.step (h : Holds l (ensureReady s)) (hstep : Step s e s') (hshort : e.Short) : Holds (l.apply e) (ensureReady s') := by
  obtain ⟨c, result⟩ := e
  obtain ⟨r, hr⟩ : ∃ r, ensureReady s = r := ⟨_, rfl⟩
  simp only [Step, call, hr] at hstep
  rw [hr] at h
  suffices hs : Holds (l.apply ⟨c, result⟩) s' by rwa [ensureReady_of_ready hs.ready]
  cases c with
  | emitTagged module level message =>
    cases hstep
    cases message with
    | none => exact h
    | some message =>
      rw [klogEmitTagged, Log.apply]
      dsimp only
      rw [h.threshold]
      by_cases hlevel : level < l.threshold (sanitizeModule module)
      · rw [if_pos hlevel, if_neg (not_le.mpr hlevel)]
        exact h
      · rw [if_neg hlevel, if_pos (not_lt.mp hlevel)]
        exact ⟨h.ready, h.level, h.keyed, h.own, h.stored.store _ _ _⟩
  | setLevel level =>
    cases hstep
    exact ⟨h.ready, rfl, h.keyed, h.own, ⟨h.stored.head, h.stored.count, h.stored.sequence, h.stored.entries⟩⟩
  | moduleSetLevel module level =>
    have htag : (sanitizeModule module).take (configKlogModuleNameLen - 1) = sanitizeModule module := by
      apply take_of_length_le
      simp only [sanitizeModule, Event.Short, configKlogModuleNameLen] at *
      split_ifs
      · simp
      · omega
    simp only [klogModuleSetLevel] at hstep
    cases hslot : slotOf ModuleEntry.key r.modules (sanitizeModule module) with
    | some i =>
      have hk := key_of_slotOf hslot
      rw [hslot] at hstep
      cases hstep
      exact h.setModule { r.modules i with level := if level ≠ klogLevelInherit then clampLevel level else level } hk (fun k hk' => Option.some.inj (hk'.symm.trans hk))
        (fun j hj hjk => hj (h.keyed j i _ hjk hk))
    | none =>
      cases hfree : freeSlot ModuleEntry.key r.modules with
      | none =>
        rw [hslot, hfree] at hstep
        cases hstep
        exact h
      | some i =>
        rw [hslot, hfree, htag] at hstep
        cases hstep
        exact h.setModule ⟨true, _, _⟩ rfl (fun k hk => by rw [key_of_freeSlot hfree] at hk; cases hk) (fun j _ => slotOf_eq_none.mp hslot j)

def boot : State := { klogInit with ready := false }

theorem holds_logOf (hx : Exec Step boot tr s) (hshort : ∀ e ∈ tr, e.Short) : Holds (logOf tr) (ensureReady s) := by
  induction hx with
  | nil =>
    have hfree (i) : (klogInit.modules i).key = none := rfl
    refine ⟨rfl, rfl, fun i j k hk _ => ?_, rfl, ⟨Nat.zero_lt_succ 127, rfl, rfl, rfl⟩⟩
    cases (hfree i).symm.trans hk
  | snoc _ hstep ih =>
    rw [logOf_snoc]
    exact (ih (fun e he => hshort e (mem_append_left _ he))).step hstep (hshort _ (by simp))

theorem Stored.klogCopy (h : Stored messages (ensureReady s)) :
    klogCopy s configKlogCapacity = newest configKlogCapacity messages := by
  rw [Klog.klogCopy, if_neg (not_lt.mpr h.count_le), h.entries]

/-- The log holds the last 128 of the messages that passed the threshold of their module when they were emitted. -/
theorem klog_copy_newest (hx : Exec Step boot tr s) (hshort : ∀ e ∈ tr, e.Short) :
    klogCopy s configKlogCapacity = newest configKlogCapacity (logOf tr).messages :=
  (holds_logOf hx hshort).stored.klogCopy

/-- A message of the module `n` that is below the level set for all, and another once `n` has a level of its own. -/
def someEvents : List Event :=
  [⟨.setLevel 2, 0⟩, ⟨.emitTagged [110] 1 (some [104]), 0⟩, ⟨.moduleSetLevel [110] 0, 0⟩, ⟨.emitTagged [110] 1 (some [105]), 0⟩]

theorem klog_copy_newest_some :
    ∃ s, Exec Step boot someEvents s ∧ (logOf someEvents).messages = [⟨0, 1, [110], [105]⟩] ∧
      klogCopy s configKlogCapacity = newest configKlogCapacity (logOf someEvents).messages := by
  have hrun : Exec Step boot someEvents _ := Exec.snoc (.snoc (.snoc (.snoc .nil rfl) rfl) rfl) rfl
  exact ⟨_, hrun, by decide +kernel, klog_copy_newest hrun (by decide)⟩

end ProOS.Klog
