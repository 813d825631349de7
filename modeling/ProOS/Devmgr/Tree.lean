import ProOS.Devmgr.Model
import ProOS.Framework.SlotTable

namespace ProOS.Devmgr

open ProOS.Framework Function Option

def State.usedSlots (s : State) : Finset Slot := Finset.univ.filter (fun i => (s.table i).used = true)

/-- The used devices are a tree with the root device at its top. -/
structure Tree (s : State) : Prop where
  root : ∃ r, s.rootDevice = some r ∧ (s.table r).used = true ∧ s.parentOf r = none
  parent : ∀ i, (s.table i).used = true → s.rootDevice ≠ some i →
    ∃ p, s.parentOf i = some p ∧ (s.table p).used = true
  rooted : ∀ i r, (s.table i).used = true → s.rootDevice = some r → Rooted s.parentOf r i
  count : s.deviceCount = s.usedSlots.card

/-- The device `t` is gone, its children hang below its parent, and the others are as they were. -/
structure Reattached (s s' : State) (t : Slot) : Prop where
  gone : (s'.table t).used = false
  used : ∀ i, i ≠ t → (s'.table i).used = (s.table i).used
  parent : ∀ i, i ≠ t → (s.table i).used = true →
    s'.parentOf i = if s.parentOf i = some t then s.parentOf t else s.parentOf i

structure Healthy (s : State) : Prop where
  tree : Tree s
  depth : ∀ i, (s.table i).used = true → Terminates (fun n => deviceDepth s n i)
  refresh : Terminates (fun n => devmgrRefreshRamfs s n)
  reattach : ∀ name s', devmgrUnregisterDevice s (some name) = (0, s') →
    ∃ t, findDeviceByName s name = some t ∧ Reattached s s' t

/-- The registration can succeed: the name is new, there is a free slot, and the device starts. -/
def Registers (s : State) (desc : Descriptor) (name : Str) (f : Slot) : Prop :=
  desc.name = some name ∧ desc.type.isSome ∧ findDeviceByName s name = none ∧ freeDevice s = some f ∧
    ¬(desc.ops.bind DeviceOps.start).any (· < 0)

/-- The name of the parent does not lead to the new device itself: it is another name than the one that is stored, or a
device in a slot before the new one's has it, too. -/
def Action.ParentApart (s : State) : Action → Prop
  | .register (some desc) => ∀ name f, Registers s desc name f → desc.parent = some (strCopy devmgrNameMax name) →
      ∃ i, i < f ∧ (s.table i).used = true ∧ (s.table i).node.name = strCopy devmgrNameMax name
  | _ => True

section Lookup

variable {s : State} {i j f : Slot} {name : Str} {node : DeviceNode}

theorem used_of_find (h : findDeviceByName s name = some i) :
    (s.table i).used = true ∧ (s.table i).node.name = name := by
  have hp : ((s.table i).used && (s.table i).node.name == name) = true :=
    List.find?_some (p := fun i => (s.table i).used && (s.table i).node.name == name) h
  simpa using hp

theorem free_unused (h : freeDevice s = some f) : (s.table f).used = false := by
  have hp : (!(s.table f).used) = true := List.find?_some (p := fun i => !(s.table i).used) h
  simpa using hp

theorem put_table (s : State) (i : Slot) (node : DeviceNode) (j : Slot) :
    (s.put i node).table j = if j = i then ⟨true, node⟩ else s.table j := update_apply _ _ _ _

end Lookup

/-! ## A new leaf -/

/-- The slot `f`, which was free, has got a device with the parent `o`. -/
structure Grown (s s' : State) (f : Slot) (o : Option Slot) : Prop where
  free : (s.table f).used = false
  root : s'.rootDevice = s.rootDevice
  used : ∀ i, (s'.table i).used = true ↔ i = f ∨ (s.table i).used = true
  leaf : s'.parentOf f = o
  others : ∀ i, i ≠ f → s'.parentOf i = s.parentOf i
  count : s'.deviceCount = s.deviceCount + 1

section Tree

variable {s s' : State} {i f p t : Slot}

theorem Tree.parent_used (h : Tree s) {r : Slot} (hr : s.rootDevice = some r) (hi : (s.table i).used = true) (hne : i ≠ r)
    (hp : s.parentOf i = some p) : (s.table p).used = true := by
  have hroot : s.rootDevice ≠ some i := by
    rw [hr]
    exact fun he => hne (some.inj he).symm
  obtain ⟨q, hq, hused⟩ := h.parent i hi hroot
  obtain rfl := some.inj (hp.symm.trans hq)
  exact hused

theorem Grown.tree (g : Grown s s' f (some p)) (hp : (s.table p).used = true) (h : Tree s) : Tree s' := by
  obtain ⟨r, hr, hrused, hrnone⟩ := h.root
  have hne : ∀ {i}, (s.table i).used = true → i ≠ f := by
    rintro i hi rfl
    rw [g.free] at hi
    cases hi
  have hkept : ∀ i, (s.table i).used = true → Rooted s'.parentOf r i := by
    intro i hi
    exact (h.rooted i r hi hr).congr (S := fun i => (s.table i).used = true) hi
      (fun i q hi hne hq => h.parent_used hr hi hne hq) (fun i hi => g.others i (hne hi))
  constructor
  · exact ⟨r, g.root.trans hr, (g.used r).mpr (.inr hrused), (g.others r (hne hrused)).trans hrnone⟩
  · intro i hi hnot
    rw [g.root] at hnot
    rcases (g.used i).mp hi with rfl | hi
    · exact ⟨p, g.leaf, (g.used p).mpr (.inr hp)⟩
    · obtain ⟨q, hq, hqused⟩ := h.parent i hi hnot
      exact ⟨q, (g.others i (hne hi)).trans hq, (g.used q).mpr (.inr hqused)⟩
  · intro i r' hi hr'
    rw [g.root, hr] at hr'
    cases hr'
    rcases (g.used i).mp hi with rfl | hi
    · exact .child g.leaf (hkept p hp)
    · exact hkept i hi
  · have hset : s'.usedSlots = insert f s.usedSlots := by
      ext i
      simp [State.usedSlots, g.used i]
    rw [g.count, h.count, hset, Finset.card_insert_of_notMem]
    simp [State.usedSlots, g.free]

/-! ## A device taken out -/

theorem Reattached.tree (g : Reattached s s' t) (h : Tree s) (ht : (s.table t).used = true)
    (hroot : s.rootDevice ≠ some t) (hsame : s'.rootDevice = s.rootDevice) (hcount : s'.deviceCount = s.deviceCount - 1) :
    Tree s' := by
  obtain ⟨r, hr, hrused, hrnone⟩ := h.root
  have htr : t ≠ r := by
    rintro rfl
    exact hroot hr
  have hstays : ∀ {i}, i ≠ t → (s.table i).used = true → (s'.table i).used = true := by
    intro i hi hu
    rw [g.used i hi]
    exact hu
  have hwas : ∀ {i}, (s'.table i).used = true → i ≠ t ∧ (s.table i).used = true := by
    intro i hu
    have hi : i ≠ t := by
      rintro rfl
      rw [g.gone] at hu
      cases hu
    exact ⟨hi, by rwa [g.used i hi] at hu⟩
  obtain ⟨q, hq, hqused⟩ := h.parent t ht hroot
  have hqt : q ≠ t := by
    rintro rfl
    exact htr ((h.rooted q r ht hr).eq_root_of_self hq)
  have hparent : ∀ i, i ≠ t → (s.table i).used = true → i ≠ r →
      ∃ p, splice s.parentOf t i = some p ∧ p ≠ t ∧ (s.table p).used = true := by
    intro i hi hu hir
    rw [splice]
    split_ifs with hchild
    · exact ⟨q, hq, hqt, hqused⟩
    · obtain ⟨p, hp, hpused⟩ := h.parent i hu (by rw [hr]; exact fun he => hir (some.inj he).symm)
      exact ⟨p, hp, fun he => hchild (he ▸ hp), hpused⟩
  constructor
  · refine ⟨r, hsame.trans hr, hstays htr.symm hrused, ?_⟩
    rw [g.parent r htr.symm hrused, hrnone]
    rfl
  · intro i hi hnot
    obtain ⟨hit, hu⟩ := hwas hi
    have hir : i ≠ r := by
      rintro rfl
      exact hnot (hsame.trans hr)
    obtain ⟨p, hp, hpt, hpused⟩ := hparent i hit hu hir
    exact ⟨p, (g.parent i hit hu).trans hp, hstays hpt hpused⟩
  · intro i r' hi hr'
    rw [hsame, hr] at hr'
    cases hr'
    obtain ⟨hit, hu⟩ := hwas hi
    refine ((h.rooted i r hu hr).splice htr.symm.symm hit).congr (S := fun i => i ≠ t ∧ (s.table i).used = true)
      ⟨hit, hu⟩ ?_ (fun i hi => g.parent i hi.1 hi.2)
    intro i p hi hir hp
    obtain ⟨p', hp', hpt, hpused⟩ := hparent i hi.1 hi.2 hir
    obtain rfl := some.inj (hp.symm.trans hp')
    exact ⟨hpt, hpused⟩
  · have hset : s'.usedSlots = s.usedSlots.erase t := by
      ext i
      simp only [State.usedSlots, Finset.mem_filter, Finset.mem_univ, true_and, Finset.mem_erase]
      exact ⟨hwas, fun hi => hstays hi.1 hi.2⟩
    rw [hcount, h.count, hset, Finset.card_erase_of_mem]
    simp [State.usedSlots, ht]

/-- Nothing of the tree has changed. -/
structure SameTree (s s' : State) : Prop where
  root : s'.rootDevice = s.rootDevice
  used : ∀ i, (s'.table i).used = (s.table i).used
  parent : ∀ i, (s.table i).used = true → s'.parentOf i = s.parentOf i
  count : s'.deviceCount = s.deviceCount

theorem SameTree.tree (g : SameTree s s') (h : Tree s) : Tree s' := by
  obtain ⟨r, hr, hrused, hrnone⟩ := h.root
  constructor
  · exact ⟨r, g.root.trans hr, (g.used r).trans hrused, (g.parent r hrused).trans hrnone⟩
  · intro i hi hnot
    rw [g.used] at hi
    rw [g.root] at hnot
    obtain ⟨p, hp, hpused⟩ := h.parent i hi hnot
    exact ⟨p, (g.parent i hi).trans hp, (g.used p).trans hpused⟩
  · intro i r' hi hr'
    rw [g.used] at hi
    rw [g.root, hr] at hr'
    cases hr'
    exact (h.rooted i r hi hr).congr (S := fun i => (s.table i).used = true) hi
      (fun i q hi hne hq => h.parent_used hr hi hne hq) g.parent
  · have hset : s'.usedSlots = s.usedSlots := by
      ext i
      simp [State.usedSlots, g.used i]
    rw [g.count, h.count, hset]

/-! ## What the tree is for -/

theorem Tree.depth (h : Tree s) (hi : (s.table i).used = true) : Terminates (fun n => deviceDepth s n i) := by
  obtain ⟨r, hr, -, -⟩ := h.root
  have hd := (h.rooted i r hi hr).depth
  unfold deviceDepth
  rw [hr]
  exact hd

theorem Tree.refreshLoop (h : Tree s) (is : List Slot) (out : Str) : Terminates (fun n => refreshLoop s n is out) := by
  induction is generalizing out with
  | nil => exact .of_some out
  | cons i is ih =>
    by_cases hskip : (!(s.table i).used || s.rootDevice == some i) = true
    · simp only [Devmgr.refreshLoop, if_pos hskip]
      exact ih out
    · simp only [Devmgr.refreshLoop, if_neg hskip]
      have hused : (s.table i).used = true := by
        cases hu : (s.table i).used with
        | true => rfl
        | false => simp [hu] at hskip
      exact (h.depth hused).bind (fun d _ => ih _)

theorem Tree.refresh (h : Tree s) : Terminates (fun n => devmgrRefreshRamfs s n) := h.refreshLoop _ _

/-! ## The calls -/

theorem unregister_cases (s : State) (name : Option Str) : devmgrUnregisterDevice s name = (-1, s) ∨
    ∃ t, name.bind (findDeviceByName s) = some t ∧ (s.table t).used = true ∧ s.rootDevice ≠ some t ∧
      devmgrUnregisterDevice s name = (0, releaseSlot (detachChildren s t ((s.table t).node.parent.or s.rootDevice)) t) := by
  unfold devmgrUnregisterDevice
  cases hf : name.bind (findDeviceByName s) with
  | none => exact .inl rfl
  | some t =>
    obtain ⟨n, -, hn⟩ := bind_eq_some_iff.mp hf
    by_cases hroot : s.rootDevice = some t
    · exact .inl (if_pos hroot)
    · exact .inr ⟨t, rfl, (used_of_find hn).1, hroot, if_neg hroot⟩

theorem detachChildren_used (s : State) (t : Slot) (o : Option Slot) (i : Slot) :
    ((detachChildren s t o).table i).used = (s.table i).used := by
  cases hu : (s.table i).used with
  | false => simp [detachChildren, hu]
  | true =>
    simp only [detachChildren, hu, Bool.true_and]
    split
    · rfl
    · exact hu

theorem detachChildren_parentOf (hu : (s.table i).used = true) (o : Option Slot) :
    (detachChildren s t o).parentOf i = if s.parentOf i = some t then o else s.parentOf i := by
  by_cases hchild : s.parentOf i = some t
  · have hc : (s.table i).node.parent = some t := hchild
    rw [if_pos hchild]
    simp [State.parentOf, detachChildren, hu, hc]
  · have hc : (s.table i).node.parent ≠ some t := hchild
    rw [if_neg hchild]
    simp [State.parentOf, detachChildren, hu, hc]

theorem releaseSlot_eq (hu : (s.table t).used = true) : releaseSlot s t =
    { s with table := update s.table t .empty, deviceCount := s.deviceCount - 1 } := by
  rw [releaseSlot, hu]
  rfl

theorem release_detach (h : Tree s) (ht : (s.table t).used = true) (hroot : s.rootDevice ≠ some t) :
    Reattached s (releaseSlot (detachChildren s t ((s.table t).node.parent.or s.rootDevice)) t) t ∧
      (releaseSlot (detachChildren s t ((s.table t).node.parent.or s.rootDevice)) t).deviceCount = s.deviceCount - 1 ∧
      (releaseSlot (detachChildren s t ((s.table t).node.parent.or s.rootDevice)) t).rootDevice = s.rootDevice := by
  obtain ⟨q, hq, -⟩ := h.parent t ht hroot
  have hor : (s.table t).node.parent.or s.rootDevice = s.parentOf t := by
    have hq' : (s.table t).node.parent = some q := hq
    rw [hq, hq', some_or]
  rw [hor, releaseSlot_eq ((detachChildren_used s t _ t).trans ht)]
  refine ⟨⟨?_, ?_, ?_⟩, rfl, rfl⟩
  · dsimp only
    rw [update_self]
    rfl
  · intro i hi
    dsimp only
    rw [update_of_ne hi, detachChildren_used]
  · intro i hi hu
    rw [← detachChildren_parentOf hu, State.parentOf]
    dsimp only
    rw [update_of_ne hi]
    rfl

/-- The parent that a new device in the slot `f` gets. -/
def newParent (s : State) (f : Slot) (desc : Descriptor) (name type : Str) : Option Slot :=
  (desc.parent.bind (findDeviceByName (s.put f (newNode s desc name type)))).or s.rootDevice

def State.withNew (s : State) (f : Slot) (desc : Descriptor) (name type : Str) : State where
  table := update s.table f ⟨true, { newNode s desc name type with parent := newParent s f desc name type }⟩
  deviceCount := s.deviceCount + 1
  nextDeviceId := s.nextDeviceId + 1
  rootDevice := s.rootDevice

theorem register_eq {desc : Descriptor} {name type : Str} (hname : desc.name = some name) (htype : desc.type = some type)
    (hnew : findDeviceByName s name = none) (hfree : freeDevice s = some f) :
    devmgrRegisterDevice s (some desc) =
      if (desc.ops.bind DeviceOps.start).any (· < 0) then (-1, releaseSlot (s.withNew f desc name type) f)
      else (0, s.withNew f desc name type) := by
  simp only [devmgrRegisterDevice, hname, htype, hnew, isSome_none, Bool.false_eq_true, if_false, allocateSlot,
    hfree, map_some, State.put, update_idem, update_self]
  rfl

theorem withNew_grown (hfree : freeDevice s = some f) (desc : Descriptor) (name type : Str) :
    Grown s (s.withNew f desc name type) f (newParent s f desc name type) := by
  refine ⟨free_unused hfree, rfl, ?_, ?_, ?_, rfl⟩
  · intro i
    by_cases hi : i = f
    · simp [State.withNew, hi]
    · simp [State.withNew, hi]
  · simp [State.parentOf, State.withNew]
  · intro i hi
    simp [State.parentOf, State.withNew, hi]

theorem withNew_release (hfree : freeDevice s = some f) (desc : Descriptor) (name type : Str) :
    SameTree s (releaseSlot (s.withNew f desc name type) f) := by
  have hunused := free_unused hfree
  rw [releaseSlot_eq (by simp [State.withNew])]
  refine ⟨rfl, ?_, ?_, by simp [State.withNew]⟩
  · intro i
    by_cases hi : i = f
    · simp [hi, DeviceEntry.empty, hunused]
    · simp [State.withNew, hi]
  · intro i hu
    have hi : i ≠ f := by
      rintro rfl
      rw [hunused] at hu
      cases hu
    simp [State.parentOf, State.withNew, hi]

theorem register_cases (s : State) (desc : Descriptor) : devmgrRegisterDevice s (some desc) = (-1, s) ∨
    ∃ name type f, freeDevice s = some f ∧
      (devmgrRegisterDevice s (some desc) = (-1, releaseSlot (s.withNew f desc name type) f) ∨
        Registers s desc name f ∧ devmgrRegisterDevice s (some desc) = (0, s.withNew f desc name type)) := by
  cases hname : desc.name with
  | none => exact .inl (by simp only [devmgrRegisterDevice, hname])
  | some name =>
    cases htype : desc.type with
    | none => exact .inl (by simp only [devmgrRegisterDevice, hname, htype])
    | some type =>
      cases hnew : findDeviceByName s name with
      | some i => exact .inl (by simp only [devmgrRegisterDevice, hname, htype, hnew, isSome_some, if_true])
      | none =>
        cases hfree : freeDevice s with
        | none =>
          refine .inl ?_
          simp only [devmgrRegisterDevice, hname, htype, hnew, isSome_none, Bool.false_eq_true, if_false,
            allocateSlot, hfree, map_none]
        | some f =>
          refine .inr ⟨name, type, f, rfl, ?_⟩
          rw [register_eq hname htype hnew hfree]
          split_ifs with hstart
          · exact .inl rfl
          · exact .inr ⟨⟨hname, by rw [htype]; rfl, hnew, hfree, hstart⟩, rfl⟩

theorem find_put_self {node : DeviceNode} {parent : Str} :
    findDeviceByName (s.put f node) parent = some f ↔
      node.name = parent ∧ ∀ i, i < f → (s.table i).used = true → (s.table i).node.name ≠ parent := by
  constructor
  · intro hf
    obtain ⟨-, hname⟩ := used_of_find hf
    rw [put_table, if_pos rfl] at hname
    refine ⟨hname, ?_⟩
    intro i hi hu hn
    have hle := find?_finRange_le hf (i := i) (by simp [put_table, hi.ne, hu, hn])
    exact absurd hi (not_lt.mpr hle)
  · rintro ⟨hname, hbefore⟩
    have hself : ((s.put f node).table f).used && ((s.put f node).table f).node.name == parent := by
      simp [put_table, hname]
    cases hf : findDeviceByName (s.put f node) parent with
    | none => exact absurd hself (List.find?_eq_none.mp hf f (List.mem_finRange f))
    | some g =>
      have hle := find?_finRange_le hf hself
      by_contra hne
      have hlt : g < f := lt_of_le_of_ne hle (fun he => hne (congrArg some he))
      obtain ⟨hu, hn⟩ := used_of_find hf
      rw [put_table, if_neg hlt.ne] at hu hn
      exact hbefore g hlt hu hn

theorem newParent_eq (h : Tree s) {desc : Descriptor} {name : Str} (type : Str)
    (hapart : desc.parent = some (strCopy devmgrNameMax name) →
      ∃ i, i < f ∧ (s.table i).used = true ∧ (s.table i).node.name = strCopy devmgrNameMax name) :
    ∃ p, newParent s f desc name type = some p ∧ (s.table p).used = true := by
  obtain ⟨r, hr, hrused, -⟩ := h.root
  rw [newParent]
  cases hf : desc.parent.bind (findDeviceByName (s.put f (newNode s desc name type))) with
  | none => exact ⟨r, hr, hrused⟩
  | some p =>
    refine ⟨p, rfl, ?_⟩
    obtain ⟨parent, hparent, hfind⟩ := bind_eq_some_iff.mp hf
    have hpf : p ≠ f := by
      rintro rfl
      obtain ⟨hname, hbefore⟩ := find_put_self.mp hfind
      obtain ⟨i, hi, hu, hn⟩ := hapart (by rw [hparent, ← hname]; rfl)
      exact hbefore i hi hu (hn.trans hname)
    have hu := (used_of_find hfind).1
    rwa [put_table, if_neg hpf] at hu

theorem step_iff {a : Action} : Step s a s' ↔ (a.run s).2 = s' := by
  unfold Step
  rw [performs_labelled, act, some_inj]

theorem Tree.step {a : Action} (h : Tree s) (hs : Step s a s') (hc : a.ParentApart s) : Tree s' := by
  obtain rfl := step_iff.mp hs
  cases a with
  | register desc =>
    cases desc with
    | none => exact h
    | some desc =>
      show Tree (devmgrRegisterDevice s (some desc)).2
      rcases register_cases s desc with hr | ⟨name, type, f, hfree, hr | ⟨hreg, hr⟩⟩
      · rw [hr]
        exact h
      · rw [hr]
        exact (withNew_release hfree desc name type).tree h
      · obtain ⟨p, hp, hpused⟩ := newParent_eq h type (hc name f hreg)
        have hg := withNew_grown hfree desc name type
        rw [hp] at hg
        rw [hr]
        exact hg.tree hpused h
  | unregister name =>
    show Tree (devmgrUnregisterDevice s name).2
    rcases unregister_cases s name with hr | ⟨t, -, ht, hroot, hr⟩
    · rw [hr]
      exact h
    · rw [hr]
      obtain ⟨hre, hcount, hsame⟩ := release_detach h ht hroot
      exact hre.tree h ht hroot hsame hcount

theorem Tree.not_apart {a : Action} (h : Tree s) (hs : Step s a s') (hc : ¬a.ParentApart s) :
    ∃ f, (s'.table f).used = true ∧ s'.parentOf f = some f ∧ s'.rootDevice ≠ some f := by
  obtain rfl := step_iff.mp hs
  cases a with
  | unregister name => exact absurd trivial hc
  | register desc =>
    cases desc with
    | none => exact absurd trivial hc
    | some desc =>
      simp only [Action.ParentApart] at hc
      push Not at hc
      obtain ⟨name, f, hreg, hparent, hbefore⟩ := hc
      obtain ⟨hname, htype, hnew, hfree, hstart⟩ := hreg
      obtain ⟨type, htype⟩ := isSome_iff_exists.mp htype
      have hr := register_eq hname htype hnew hfree
      rw [if_neg hstart] at hr
      have hfind : findDeviceByName (s.put f (newNode s desc name type)) (strCopy devmgrNameMax name) = some f :=
        find_put_self.mpr ⟨rfl, hbefore⟩
      have hg := withNew_grown hfree desc name type
      rw [newParent, hparent, bind_some, hfind, some_or] at hg
      obtain ⟨r, hroot, hrused, -⟩ := h.root
      refine ⟨f, ?_, ?_, ?_⟩
      · show ((devmgrRegisterDevice s (some desc)).2.table f).used = true
        rw [hr]
        exact (hg.used f).mpr (.inl rfl)
      · show (devmgrRegisterDevice s (some desc)).2.parentOf f = some f
        rw [hr]
        exact hg.leaf
      · show (devmgrRegisterDevice s (some desc)).2.rootDevice ≠ some f
        rw [hr]
        show s.rootDevice ≠ some f
        rw [hroot]
        intro he
        rw [some.inj he, hg.free] at hrused
        cases hrused

theorem Tree.healthy (h : Tree s) : Healthy s := by
  refine ⟨h, fun i hi => h.depth hi, h.refresh, ?_⟩
  intro name s' hrun
  rcases unregister_cases s (some name) with hr | ⟨t, hfind, ht, hroot, hr⟩
  · rw [hr] at hrun
    cases hrun
  · rw [hr] at hrun
    obtain ⟨-, rfl⟩ := Prod.mk.inj hrun
    exact ⟨t, hfind, (release_detach h ht hroot).1⟩

end Tree

theorem devmgrInit_tree : Tree devmgrInit := by
  have hroot : devmgrInit.rootDevice = some 0 := by decide +kernel
  have hbus : devmgrInit.parentOf 1 = some 0 := by decide +kernel
  have hparent : ∀ i, (devmgrInit.table i).used = true → i ≠ 0 →
      devmgrInit.parentOf i = some 0 ∨ devmgrInit.parentOf i = some 1 := by decide +kernel
  constructor
  · exact ⟨0, hroot, by decide +kernel, by decide +kernel⟩
  · intro i hi hne
    have hi0 : i ≠ 0 := fun he => hne (hroot.trans (congrArg some he.symm))
    rcases hparent i hi hi0 with hp | hp
    · exact ⟨0, hp, by decide +kernel⟩
    · exact ⟨1, hp, by decide +kernel⟩
  · intro i r hi hr
    obtain rfl := some.inj (hroot.symm.trans hr)
    by_cases hi0 : i = 0
    · rw [hi0]
      exact .root
    · rcases hparent i hi hi0 with hp | hp
      · exact .child hp .root
      · exact .child hp (.child hbus .root)
  · decide +kernel

/-- The device tree is sound all along a run if and only if no device is registered below itself. -/
theorem device_tree_healthy_iff (acts : List Action) (s : State) :
    Always Step devmgrInit acts s (fun _ s => Healthy s) ↔ EachStep Step devmgrInit acts s (fun s a => a.ParentApart s) := by
  refine always_iff_eachStep (I := fun _ s => Tree s) devmgrInit_tree ?_ ?_ ?_
  · exact fun _ s h => h.healthy
  · exact fun _ s a s' h hstep hc => h.step hstep hc
  · intro _ s a s' h hstep hc hh
    obtain ⟨f, hu, hself, hroot⟩ := h.not_apart hstep hc
    obtain ⟨r, hr, -, -⟩ := hh.tree.root
    have hf := (hh.tree.rooted f r hu hr).eq_root_of_self hself
    rw [hf] at hroot
    exact hroot hr

/-- "a", below "a" -/
def selfParented : Descriptor where
  name := some [97]
  type := some [97]
  parent := some [97]
  ops := none
  flags := 0

/-- The device is its own parent, and its depth is never found. -/
theorem own_parent_never_returns :
    ∃ s f, Exec Step devmgrInit [.register (some selfParented)] s ∧
      (devmgrRegisterDevice devmgrInit (some selfParented)).1 = 0 ∧ (s.table f).used = true ∧ s.parentOf f = some f ∧
      (∀ n, deviceDepth s n f = none) ∧ ¬Healthy s := by
  have hself : (devmgrRegisterDevice devmgrInit (some selfParented)).2.parentOf 4 = some 4 := by decide +kernel
  have hnone : ∀ n, deviceDepth (devmgrRegisterDevice devmgrInit (some selfParented)).2 n 4 = none :=
    fun n => depthFrom_self hself (by decide +kernel) n
  refine ⟨_, 4, .single (step_iff.mpr rfl), by decide +kernel, by decide +kernel, hself, hnone, ?_⟩
  intro h
  obtain ⟨d, n, hd⟩ := h.depth 4 (by decide +kernel)
  have hsome := (hnone n).symm.trans (hd n le_rfl)
  cases hsome

end ProOS.Devmgr
