import ProOS.Fat.Tree
import ProOS.Fat.Generated
import ProOS.Framework.Exec

namespace ProOS.Fat

open ProOS.Framework Function Option List
open Rechains (Other)

/-! ## One entry changes -/

/-- The entry `s` for the name `n` of the directory `h` comes, goes or changes, and no directory that it stands for before or
after has anything in it. -/
structure SlotEdit (v : Volume) (d d' : Disk) (h : Nat) (n : Name) (s : Slot) : Prop where
  short : ShortName n
  frame : Frame v d d' s (fun a => look v d h n ≠ some (.inl a))
  back : ∀ a, Reach v d' a → Reach v d a ∧ look v d h n ≠ some (.inl a) ∨ look v d' h n = some (.inl a)
  old : ∀ a, Reach v d a → s ∈ kids v d a → a = h ∧ (d.entry s).name = n
  new : ∀ a, Reach v d' a → s ∈ kids v d' a → a = h ∧ (d'.entry s).name = n
  before : ∀ c, look v d h n = some (.inl c) → kids v d c = []
  after : ∀ c, look v d' h n = some (.inl c) → kids v d' c = []
  dir : s ∈ kids v d' h → (d'.entry s).isDirectory = true → 2 ≤ (d'.entry s).firstCluster

section Edits

variable {v : Volume} {m m₁ : Mem} {d d₁ d' : Disk} {a c h : Nat} {n n' : Name} {s t : Slot}
  {new : List Nat} {data : List UInt8}

section

variable (e : SlotEdit v d d' h n s)

include e

theorem SlotEdit.find_same (hs : Sound v d) (hs' : Sound v d') (hr : Reach v d a)
    (hkeep : look v d h n ≠ some (.inl a)) (hne : ¬(a = h ∧ n' = n)) :
    findEntry v d' a n' = findEntry v d a n' ∧ ∀ t, findEntry v d a n' = some t → t ≠ s := by
  have hr' := e.frame.reach a hr hkeep
  have hold : ∀ t, findEntry v d a n' = some t → t ≠ s := by
    rintro t hf rfl
    obtain ⟨hk, hname⟩ := mem_of_findEntry hf
    obtain ⟨ha, hn⟩ := e.old a hr hk
    exact hne ⟨ha, hname.symm.trans hn⟩
  refine ⟨Option.ext (fun t => ?_), hold⟩
  rw [hs'.findEntry_kid hr', hs.findEntry_kid hr]
  by_cases hts : t = s
  · subst hts
    constructor
    · rintro ⟨hk, hname⟩
      obtain ⟨ha, hn⟩ := e.new a hr' hk
      exact absurd ⟨ha, hname.symm.trans hn⟩ hne
    · rintro ⟨hk, hname⟩
      exact absurd rfl (hold t ((hs.findEntry_kid hr).mpr ⟨hk, hname⟩))
  · rw [e.frame.kid a t hr hkeep hts]
    refine and_congr_right (fun hk => ?_)
    rw [e.frame.entry a t hr hkeep hk hts]

theorem SlotEdit.look_same (hs : Sound v d) (hs' : Sound v d') (hr : Reach v d a)
    (hkeep : look v d h n ≠ some (.inl a)) (hne : ¬(a = h ∧ n' = n)) : look v d' a n' = look v d a n' := by
  obtain ⟨hfind, hother⟩ := e.find_same hs hs' hr hkeep hne
  rw [look, look, hfind]
  cases hf : findEntry v d a n' with
  | none => rfl
  | some t =>
    obtain ⟨hk, -⟩ := mem_of_findEntry hf
    have hentry := e.frame.entry a t hr hkeep hk (hother t hf)
    rw [map_some, map_some, hentry]
    cases hdir : (d.entry t).isDirectory with
    | true => rfl
    | false =>
      have hbytes := e.frame.bytes a t hr hkeep hk (hother t hf) hdir
      rw [content, content, hbytes, hentry]

theorem SlotEdit.editAt (ho : Orderly v d) (hs' : Sound v d') :
    EditAt (look v d) (look v d') (rootDirectory v) h n where
  same _ _ _ hd hkeep hne := e.look_same ho.toSound hs' (ho.reach .root hd) hkeep hne
  before c hc := look_empty (e.before c hc)
  after c hc := look_empty (e.after c hc)

theorem SlotEdit.entries (hr' : Reach v d' a) (hk : t ∈ kids v d' a) :
    t = s ∧ a = h ∧ (d'.entry t).name = n ∨ Reach v d a ∧ t ∈ kids v d a ∧ d'.entry t = d.entry t := by
  rcases e.back a hr' with ⟨hr, hkeep⟩ | hnew
  · by_cases hts : t = s
    · subst hts
      exact .inl ⟨rfl, e.new a hr' hk⟩
    · have hk₀ := (e.frame.kid a t hr hkeep hts).mp hk
      exact .inr ⟨hr, hk₀, e.frame.entry a t hr hkeep hk₀ hts⟩
  · rw [e.after a hnew] at hk
    cases hk

theorem SlotEdit.orderly (ho : Orderly v d) (hs' : Sound v d') : Orderly v d' where
  toSound := hs'
  named a t hr' hk := by
    rcases e.entries hr' hk with ⟨-, -, hname⟩ | ⟨hr, hk₀, hentry⟩
    · rw [hname]
      exact e.short
    · rw [hentry]
      exact ho.named a t hr hk₀
  dirs a t hr' hk hdir := by
    rcases e.entries hr' hk with ⟨rfl, rfl, -⟩ | ⟨hr, hk₀, hentry⟩
    · exact e.dir hk hdir
    · rw [hentry] at hdir ⊢
      exact ho.dirs a t hr hk₀ hdir

end

/-! ## The calls -/

section

variable (ht : Target v m m₁ h s n)

include ht

theorem Target.not_dir (hfile : ((view v m₁).entry s).isDirectory = false) : look v (view v m) h n ≠ some (.inl a) := by
  intro hl
  obtain ⟨t, hf, hdir, -⟩ := look_eq_inl.mp hl
  cases ht with
  | found hm hfind =>
    subst hm
    obtain rfl := some.inj (hf.symm.trans hfind)
    rw [hfile] at hdir
    cases hdir
  | made hmade =>
    rw [hmade.missing] at hf
    cases hf

theorem Target.name : ((view v m₁).entry s).name = n := by
  cases ht with
  | found hm hfind =>
    subst hm
    exact (mem_of_findEntry hfind).2
  | made hmade => rw [hmade.entry]

theorem Target.old (hv : v.Fits) (ho : Owned v (view v m)) (hh : Resolved v (view v m) h)
    (hr : Reach v (view v m) a) (hk : s ∈ kids v (view v m) a) : a = h ∧ ((view v m).entry s).name = n := by
  cases ht with
  | found hm hfind =>
    obtain ⟨hk', hname⟩ := mem_of_findEntry hfind
    exact ⟨ho.slot_unique hr (hh.of_kid hk') (mem_kids_slot hk) (mem_kids_slot hk'), hname⟩
  | made hmade => exact absurd hk (hmade.not_kid hv ho hr)

theorem SlotEdit.of_replaced {d₂ : Disk} (hv : v.Fits) (ho : Owned v (view v m))
    (hs' : Sound v d') (hh : Resolved v (view v m) h) (hn : ShortName n)
    (hfile : ((view v m₁).entry s).isDirectory = false) (hrep : Replaced v (view v m₁) d₂ d' h s new data true) :
    SlotEdit v (view v m) d' h n s ∧ look v d' h n = some (.inr data) := by
  have ho₁ := ht.owned hv ho
  have hfile₂ : (d₂.entry s).isDirectory = false := by
    rw [Entry.isDirectory_congr hrep.released.attr]
    exact hfile
  have hfile' : (d'.entry s).isDirectory = false := by
    rw [Entry.isDirectory_congr hrep.chained.attr]
    exact hfile₂
  have ho₂ := hrep.released.file_owned ho₁ hfile
  have hreach : ∀ a, Reach v d' a ↔ Reach v (view v m) a := by
    intro a
    rw [hrep.chained.file_reach ho₂ hfile₂, hrep.released.file_reach ho₁ hfile, ht.reach_iff hv ho]
  have hkid := hrep.chained.kid_kept ho₂
  have hname : (d'.entry s).name = n := by rw [hrep.chained.name, hrep.released.name, ht.name]
  have hr' : Reach v d' h := (hrep.chained.file_reach ho₂ hfile₂).mpr hrep.chained.reach
  have hframe := (ht.frame hv ho).trans ((hrep.released.file_frame ho₁ hfile).trans
    (hrep.chained.file_frame ho₂ hfile₂) (fun _ _ h => h)) (fun _ _ h => h)
  have hcontent : content v d' s = data := by
    have hsize : (d'.entry s).fileSize = data.length := by rw [hrep.entry, if_pos rfl]
    rcases hrep.chained.chain with ⟨hnil, hbare⟩ | ⟨-, hchain⟩
    · exact content_of_stores hv (hrep.stores rfl) ((if_pos hbare).trans hnil.symm) hsize
    · exact content_of_stores hv (hrep.stores rfl) hchain hsize
  have hlook : look v d' h n = some (.inr data) := by
    rw [look_file ((hs'.findEntry_kid hr').mpr ⟨hkid, hname⟩) hfile', hcontent]
  refine ⟨⟨hn, hframe.mono (fun _ _ _ => trivial), ?_, ?_, ?_, ?_, ?_, ?_⟩, hlook⟩
  · exact fun a hra => .inl ⟨(hreach a).mp hra, ht.not_dir hfile⟩
  · exact fun a hra hk => ht.old hv ho hh hra hk
  · exact fun a hra hk => ⟨hs'.slot_unique hra hr' (mem_kids_slot hk) (mem_kids_slot hkid), hname⟩
  · exact fun c hc => absurd hc (ht.not_dir hfile)
  · intro c hc
    rw [hlook] at hc
    cases hc
  · intro _ hdir
    rw [hfile'] at hdir
    cases hdir

end

theorem SlotEdit.of_made (hm : Made v d d₁ h s n attrDirectory) (hv : v.Fits) (ho : Owned v d) (hs' : Sound v d')
    (hf : FirstCluster v d₁ d' h s n c) : SlotEdit v d d' h n s ∧ look v d' h n = some (.inl c) := by
  have ho₁ := hm.owned hv ho
  have hbare : ¬2 ≤ (d₁.entry s).firstCluster := by
    rw [hm.entry]
    exact Nat.not_succ_le_zero 1
  have hdir : (d'.entry s).isDirectory = true := by
    rw [hf.entry]
    show (attrDirectory &&& attrDirectory != 0) = true
    decide
  have hfirst : (d'.entry s).firstCluster = c := by rw [hf.entry]
  have hold : (d₁.entry s).isDirectory = true → 2 ≤ (d₁.entry s).firstCluster →
      kids v d₁ (d₁.entry s).firstCluster = [] := fun _ hge => absurd hge hbare
  have hnew : (d₁.entry s).isDirectory = true → 2 ≤ (d'.entry s).firstCluster →
      EmptyDir v d' (d'.entry s).firstCluster := by
    intro _ _
    rw [hfirst]
    exact hf.empty
  have hframe := (hm.frame hv ho).trans (hf.rechains.frame ho₁ hold hnew) (fun _ _ _ _ hge => absurd hge hbare)
  have hr' : Reach v d' h :=
    (hf.rechains.frame ho₁ hold hnew).reach h hf.rechains.reach (fun _ hge => absurd hge hbare)
  have hkid := hf.rechains.kid_kept ho₁
  have hname : (d'.entry s).name = n := by rw [hf.entry]
  have hlook : look v d' h n = some (.inl c) := by
    rw [look_dir ((hs'.findEntry_kid hr').mpr ⟨hkid, hname⟩) hdir, hfirst]
  have hmissing : look v d h n = none := look_eq_none.mpr hm.missing
  have hnot : ∀ a, look v d h n ≠ some (.inl a) := fun a ha => by rw [hmissing] at ha; cases ha
  refine ⟨⟨hm.short, hframe.mono (fun _ _ _ => trivial), ?_, ?_, ?_, ?_, ?_, ?_⟩, hlook⟩
  · intro a hra
    rcases (hf.rechains.reach_iff ho₁ hold (fun hd hge => (hnew hd hge).kids)).mp hra with ⟨hra₁, -⟩ | ⟨-, -, ha⟩
    · exact .inl ⟨(hm.reach_iff hv ho).mp hra₁, hnot a⟩
    · rw [hfirst] at ha
      exact .inr (ha ▸ hlook)
  · exact fun a hra hk => absurd hk (hm.not_kid hv ho hra)
  · exact fun a hra hk => ⟨hs'.slot_unique hra hr' (mem_kids_slot hk) (mem_kids_slot hkid), hname⟩
  · exact fun a ha => absurd ha (hnot a)
  · intro a ha
    rw [hlook] at ha
    obtain rfl := Sum.inl.inj (some.inj ha)
    exact hf.empty.kids
  · intro _ _
    have hchain := (hf.rechains.chain.resolve_left (fun hnil => by cases hnil.1)).1
    exact hchain.two_le

theorem SlotEdit.of_removed (ho : Orderly v d) (hr : Reach v d h) (hn : ShortName n) (hfind : findEntry v d h n = some s)
    (hrem : Removed v d d₁ d' h s) : SlotEdit v d d' h n s ∧ look v d' h n = none := by
  have ho₁ := hrem.owned₁ ho.toOwned
  have hbare : ¬2 ≤ (d₁.entry s).firstCluster := by
    rw [hrem.entry]
    exact Nat.not_succ_le_zero 1
  have hnew : (d.entry s).isDirectory = true → 2 ≤ (d₁.entry s).firstCluster →
      EmptyDir v d₁ (d₁.entry s).firstCluster := fun _ hge => absurd hge hbare
  obtain ⟨hk, hname⟩ := mem_of_findEntry hfind
  -- the directory of the entry, if it is one, is what the name led to
  have hother : ∀ a, look v d h n ≠ some (.inl a) ↔ Other d s a := by
    intro a
    rw [Ne, look_eq_inl]
    constructor
    · rintro hnot hdir - rfl
      exact hnot ⟨s, hfind, hdir, rfl⟩
    · rintro hoth ⟨t, hf, hdir, rfl⟩
      obtain rfl := some.inj (hfind.symm.trans hf)
      exact hoth hdir (ho.dirs h s hr hk hdir) rfl
  have hframe := (hrem.released.frame ho.toOwned hrem.empty hnew).trans
    (hrem.freed.unowned.frame ho₁ (fun _ => True)) (fun _ _ _ => trivial)
  have hgone : ∀ a, s ∉ kids v d' a := by
    intro a hk'
    have hfree := isFree_not_live hrem.freed.freed
    rw [isKid_isLive (mem_kids_isKid hk')] at hfree
    cases hfree
  have hlook : look v d' h n = none := by
    rw [look_eq_none, eq_none_iff_forall_ne_some]
    intro t hf
    obtain ⟨hkt, hnt⟩ := mem_of_findEntry hf
    have hts : t ≠ s := fun he => hgone h (he ▸ hkt)
    have hkeep := hrem.released.other_parent ho.toOwned
    have hkt₀ := (hframe.kid h t hr hkeep hts).mp hkt
    rw [hframe.entry h t hr hkeep hkt₀ hts] at hnt
    exact hts (some.inj (((ho.toSound.findEntry_kid hr).mpr ⟨hkt₀, hnt⟩).symm.trans hfind))
  refine ⟨⟨hn, hframe.mono (fun a _ ha => (hother a).mp ha), ?_, ?_, ?_, ?_, ?_, ?_⟩, hlook⟩
  · intro a hra
    have hra₁ := (hrem.freed.unowned.reach_iff ho₁).mp hra
    rcases (hrem.released.reach_iff ho.toOwned hrem.empty (fun _ hge => absurd hge hbare)).mp hra₁ with
      ⟨hra₀, hoth⟩ | ⟨-, hge, -⟩
    · exact .inl ⟨hra₀, (hother a).mpr hoth⟩
    · exact absurd hge hbare
  · exact fun a hra hka => ⟨ho.slot_unique hra hr (mem_kids_slot hka) (mem_kids_slot hk), hname⟩
  · exact fun a _ hka => absurd hka (hgone a)
  · intro c hc
    obtain ⟨t, hf, hdir, rfl⟩ := look_eq_inl.mp hc
    obtain rfl := some.inj (hfind.symm.trans hf)
    exact hrem.empty hdir (ho.dirs h s hr hk hdir)
  · intro c hc
    rw [hlook] at hc
    cases hc
  · exact fun hk' => absurd hk' (hgone h)

end Edits

/-! ## Runs of calls that succeed -/

def Call.path : Call → Str
  | .write path _ _ _ => path
  | .remove path => path
  | .mkdir path => path

def Call.place : Call → Option (Place (List UInt8))
  | .write _ _ data _ => some (.file data)
  | .remove _ => none
  | .mkdir _ => some .dir

def Call.Replaces : Call → Prop
  | .write _ _ _ mode => mode = .replace
  | _ => True

/-- The call is on a path of short names and returns 0. -/
structure Succeeds (v : Volume) (m : Mem) (call : Call) (m' : Mem) : Prop where
  spelled : ∃ ms, SpellsLeaf call.path ms
  replaces : call.Replaces
  returned : Returns (fun k => call.run v k m) (m', true)

section Calls

variable {v : Volume} {m m' : Mem} {call : Call} {ms : List Name} {h : Nat} {n : Name}

theorem Succeeds.slotEdit (hc : Succeeds v m call m') (hv : v.Fits) (hcs : 64 ≤ clusterSizeBytes v)
    (ho : Orderly v (view v m)) : Sound v (view v m') ∧ ∃ h n s,
      walkLeaf v (view v m) call.path = some (h, n) ∧ SlotEdit v (view v m) (view v m') h n s ∧
      (look v (view v m') h n).map placeOf = call.place := by
  have hret := hc.returned
  cases call with
  | write path isNull data mode =>
    obtain rfl : mode = .replace := hc.replaces
    obtain ⟨r, hret', hrun, -⟩ := fatfsWrite_spec hv (by omega) ho.toOwned path isNull data .replace
    obtain rfl := hret.unique hret'
    have hs' := hrun.sound hv ho.toSound
    refine ⟨hs', ?_⟩
    cases hrun with
    | idle _ hok => cases hok
    | nulled _ _ _ hok => cases hok
    | appended _ _ _ hmode _ _ => cases hmode
    | @replaced m₁ h s n d₁ new hleaf htarget hfile _ hrep =>
      obtain ⟨hh, hn⟩ := walkLeaf_spec hleaf
      obtain ⟨e, hlook⟩ := SlotEdit.of_replaced htarget hv ho.toOwned hs' hh hn hfile hrep
      exact ⟨h, n, s, hleaf, e, by rw [hlook]; rfl⟩
  | remove path =>
    obtain ⟨r, hret', hrun, -⟩ := fatfsRemove_spec hv ho.toOwned path
    obtain rfl := hret.unique hret'
    refine ⟨hrun.sound ho.toSound, ?_⟩
    cases hrun with
    | idle _ hok => cases hok
    | @removed h s n d₁ hleaf hfind hrem _ =>
      obtain ⟨hh, hn⟩ := walkLeaf_spec hleaf
      obtain ⟨e, hlook⟩ := SlotEdit.of_removed ho (hh.of_kid (mem_of_findEntry hfind).1) hn hfind hrem
      exact ⟨h, n, s, hleaf, e, by rw [hlook]; rfl⟩
  | mkdir path =>
    obtain ⟨r, hret', hrun, -⟩ := fatfsMkdir_spec hv (by omega) ho.toOwned path
    obtain rfl := hret.unique hret'
    have hs' := hrun.sound hv hcs ho.toSound
    refine ⟨hs', ?_⟩
    cases hrun with
    | idle _ hok => cases hok
    | stuck _ _ _ hok => cases hok
    | @made m₁ h s n hleaf hmade hfirst _ =>
      obtain ⟨c, hf⟩ := hfirst hcs
      obtain ⟨e, hlook⟩ := SlotEdit.of_made hmade hv ho.toOwned hs' hf
      exact ⟨h, n, s, hleaf, e, by rw [hlook]; rfl⟩

theorem Orderly.ends_with {d : Disk} {path : Str} (ho : Orderly v d) (hp : SpellsLeaf path ms)
    (hw : walkLeaf v d path = some (h, n)) :
    ∃ init, ms = init ++ [n] ∧ descend (look v d) init (rootDirectory v) = some h := by
  rcases eq_nil_or_concat' ms with rfl | ⟨init, last, rfl⟩
  · rw [walkLeaf_nil hp] at hw
    cases hw
  · rw [ho.walkLeaf_concat hp] at hw
    obtain ⟨a, ha, heq⟩ := map_eq_some_iff.mp hw
    cases heq
    exact ⟨init, rfl, ha⟩

/-- A successful call changes the tree at its path only, and leaves nothing below it. -/
theorem Succeeds.tree (hc : Succeeds v m call m') (hv : v.Fits) (hcs : 64 ≤ clusterSizeBytes v)
    (ho : Orderly v (view v m)) : Orderly v (view v m') ∧ ∀ ms, SpellsLeaf call.path ms →
      treeOf v (view v m') = update (treeOf v (view v m)) ms call.place ∧
      ∀ n, treeOf v (view v m') (ms ++ [n]) = none := by
  obtain ⟨hs', h, n, s, hleaf, e, hplace⟩ := hc.slotEdit hv hcs ho
  refine ⟨e.orderly ho hs', fun ms hp => ?_⟩
  obtain ⟨init, rfl, hd⟩ := ho.ends_with hp hleaf
  have hedit := e.editAt ho hs'
  have hupdate : treeOf v (view v m') = update (treeOf v (view v m)) (init ++ [n]) call.place := by
    rw [← hplace]
    exact hedit.treeFrom_eq ho.isTree hd
  refine ⟨hupdate, fun n' => ?_⟩
  have hne : init ++ [n] ++ [n'] ≠ init ++ [n] := fun heq => by simpa using congrArg List.length heq
  rw [hupdate, update_of_ne hne, append_assoc, singleton_append]
  exact treeFrom_below hd hedit.before n' []

end Calls

namespace Image

/-- An image as it is built is orderly: it has files in its root directory, and nothing else. -/
theorem Stocked.orderly {d : Disk} {files : List (Name × List UInt8)} (h : Stocked d files) : Orderly volume d := by
  have hentry : ∀ t ∈ kids volume d 0, ShortName (d.entry t).name ∧ (d.entry t).isDirectory = false := by
    intro t ht
    obtain ⟨i, f, rfl, hf⟩ := h.mem_used (mem_filter.mp ht).1
    obtain ⟨hname, hattr, -, -⟩ := h.entry i f hf
    exact ⟨hname ▸ h.short f (mem_of_getElem? hf), isDirectory_archive_attr hattr⟩
  have hroot : ∀ a, Reach volume d a → a = 0 := by
    intro a hr
    induction hr with
    | root => rfl
    | child _ hk hdir _ ih =>
      subst ih
      rw [(hentry _ hk).2] at hdir
      cases hdir
  refine ⟨h.sound, ?_, ?_⟩
  · intro a t hr ht
    obtain rfl := hroot a hr
    exact (hentry t ht).1
  · intro a t hr ht hdir
    obtain rfl := hroot a hr
    rw [(hentry t ht).2] at hdir
    cases hdir

/-- From an image with any files in it, the file system is a tree, and every successful call changes it at one path. -/
theorem fat_refines_tree (m : Mem) (files : List (Name × List UInt8)) (hshort : ∀ f ∈ files, ShortName f.1)
    (hnames : (files.map Prod.fst).Nodup) (hsize : ∀ f ∈ files, f.2.length + imageSize ≤ 2 ^ 32) :
    ∃ v, fatfsInit (appendFiles (filesystemInit m) files).image imageSize = some v ∧
      ∃ tree : Mem → List Name → Option (Place (List UInt8)), ∀ calls m',
        Exec (Succeeds v) (appendFiles (filesystemInit m) files).image calls m' →
        Represents v m' (tree m') ∧
        ∀ call ms m'', Succeeds v m' call m'' → SpellsLeaf call.path ms →
          tree m'' = update (tree m') ms call.place ∧ ∀ n, tree m'' (ms ++ [n]) = none := by
  obtain ⟨stored, hholds⟩ := (holds_init m).appendAny hshort hnames hsize (Nat.zero_le _)
  have hcs : 64 ≤ clusterSizeBytes volume := by decide
  refine ⟨volume, hholds.boot, fun m' => treeOf volume (view volume m'), fun calls m' hrun => ?_⟩
  have ho : Orderly volume (view volume m') :=
    hrun.invariant hholds.orderly (fun _ _ _ ho hc => (hc.tree volume_fits hcs ho).1)
  exact ⟨ho.represents volume_fits, fun call ms m'' hc hp => (hc.tree volume_fits hcs ho).2 ms hp⟩

/-- The image with the file `A` of one byte. -/
def oneFile : Mem := (appendFiles (filesystemInit (fun _ => 0)) [(65 :: List.replicate 10 space, [7])]).image

/-- What is left when the directory `D` is made. -/
def oneFileAndDir : Mem × Bool := (fatfsMkdir volume 0 oneFile [68]).getD (oneFile, false)

theorem oneFileAndDir_succeeds : Succeeds volume oneFile (.mkdir [68]) oneFileAndDir.1 := by
  have hret : Returns (fun k => (Call.mkdir [68]).run volume k oneFile) oneFileAndDir :=
    mkdir_fixedRoot rfl (by decide) (by decide +kernel) _
  have htrue : oneFileAndDir = (oneFileAndDir.1, true) := Prod.ext rfl (by decide +kernel)
  rw [htrue] at hret
  exact ⟨⟨[68 :: List.replicate 10 space], ⟨by decide, by decide⟩, by decide⟩, trivial, hret⟩

theorem fat_refines_tree_one : ∃ v, fatfsInit oneFile imageSize = some v ∧
    ∃ tree : Mem → List Name → Option (Place (List UInt8)), Represents v oneFileAndDir.1 (tree oneFileAndDir.1) ∧
      tree oneFileAndDir.1 = update (tree oneFile) [68 :: List.replicate 10 space] (some .dir) := by
  have hmade : makeShortName [65] = some (65 :: List.replicate 10 space) := by decide
  have hshort : ∀ f ∈ [((65 :: List.replicate 10 space : Name), ([7] : List UInt8))], ShortName f.1 := by
    intro f hf
    rw [mem_singleton.mp hf]
    exact shortName_of_make hmade
  obtain ⟨v, hv, tree, htree⟩ := fat_refines_tree (fun _ => 0) _ hshort (by decide) (by decide +kernel)
  obtain rfl : v = volume := some.inj (hv.symm.trans (by decide +kernel))
  have hc := oneFileAndDir_succeeds
  have hp : SpellsLeaf (Call.mkdir [68]).path [68 :: List.replicate 10 space] := ⟨⟨by decide, by decide⟩, by decide⟩
  exact ⟨volume, hv, tree, (htree _ _ (Exec.single hc)).1, ((htree [] _ .nil).2 _ _ _ hc hp).1⟩

end Image

end ProOS.Fat
