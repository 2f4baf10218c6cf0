-- SUMMARY: The directory tree of fs.c under creating, renaming and removing entries.
import OpenSys.Fs.Lookup
import OpenSys.Lib.Run

/-!
# The directory tree

Every call changes the flags and the name of one entry at most; the directories whose
indexes it updates keep theirs. `fs_mkdir` does not look whether the path exists, nothing
looks whether a parent is a directory, and `fs_rename` does not look whether the new path
lies below the old one, so the tree is kept under conditions on the calls.
-/

namespace OpenSys

open OpenSys.Tree Run Option List Mem Fs

variable {s s' s'' : Fs} {i j p : Nat} {name path : List UInt8}

/-! ## Entries that a call leaves alone -/

/-- From `s` to `s'` no entry but `i` changes its flags or its name. -/
structure HeadsKept (s s' : Fs) (i : Nat) : Prop where
  boot : s'.boot = s.boot
  zone : s'.mftZone = s.mftZone
  flags : ∀ j, j ≠ i → mftFlags s'.mem (s.slot j) = mftFlags s.mem (s.slot j)
  head : ∀ j, j ≠ i → Named s.mem (s.slot j) → HeadKept s.mem s'.mem (s.slot j)

/-- Moreover none but `i` and the directories change at all. -/
structure EntriesKept (s s' : Fs) (i : Nat) : Prop extends HeadsKept s s' i where
  file : ∀ j, j ≠ i → s.isDirectory j = false → Mem.Agree s.mem s'.mem (s.slot j) 4096

namespace HeadsKept

theorem slot_eq (h : HeadsKept s s' i) (j : Nat) : s'.slot j = s.slot j := Fs.slot_eq h.zone j

theorem trans (h : HeadsKept s s' i) (h' : HeadsKept s' s'' i) : HeadsKept s s'' i := by
  refine ⟨h'.boot.trans h.boot, h'.zone.trans h.zone, fun j hj => ?_, fun j hj hn => ?_⟩
  · rw [← h.slot_eq j, h'.flags j hj, h.slot_eq j, h.flags j hj]
  · have hhead := h.head j hj hn
    have hnext := h'.head j hj (h.slot_eq j ▸ hhead.named hn)
    rw [h.slot_eq j] at hnext
    exact hhead.trans hnext

/-- An update of an index, in whatever entry it is. -/
theorem of_edit (hboot : s'.boot = s.boot) (hzone : s'.mftZone = s.mftZone)
    (hedit : IndexEdit s.mem s'.mem (s.slot p)) : HeadsKept s s' i := by
  have hagree : ∀ j, j ≠ p → Mem.Agree s.mem s'.mem (s.slot j) 4096 := fun j hj =>
    slot_agree hj hedit.frame (by omega)
  refine ⟨hboot, hzone, fun j _ => ?_, fun j _ hn => ?_⟩
  · by_cases hj : j = p
    · exact hj ▸ hedit.headKept.flags_eq
    · exact ((hagree j hj).mono (by omega)).readLE_eq
  · by_cases hj : j = p
    · exact hj ▸ hedit.headKept
    · exact .of_agree hn (hagree j hj)

variable (h : HeadsKept s s' i)

include h

theorem userSlots_eq : s'.userSlots = s.userSlots := by rw [userSlots, userSlots, h.boot]

theorem inUse_eq (hj : j ≠ i) : s'.inUse j = s.inUse j := by
  rw [inUse, inUse, mftInUse, mftInUse, h.slot_eq, h.flags j hj]

theorem isDirectory_eq (hj : j ≠ i) : s'.isDirectory j = s.isDirectory j := by
  rw [isDirectory, isDirectory, mftIsDirectory, mftIsDirectory, h.slot_eq, h.flags j hj]

theorem named (hj : j ≠ i) (hn : Named s.mem (s.slot j)) : Named s'.mem (s'.slot j) :=
  h.slot_eq j ▸ (h.head j hj hn).named hn

theorem parentOf_eq (hj : j ≠ i) (hn : Named s.mem (s.slot j)) : s'.parentOf j = s.parentOf j := by
  rw [(h.named hj hn).parentOf, hn.parentOf, h.slot_eq, (h.head j hj hn).parent_eq]

theorem nameOf_eq (hj : j ≠ i) (hn : Named s.mem (s.slot j)) : s'.nameOf j = s.nameOf j := by
  rw [(h.named hj hn).nameOf, hn.nameOf, h.slot_eq, (h.head j hj hn).name_eq]

theorem live_iff (hj : j ≠ i) : s'.forest.live j ↔ s.forest.live j := by
  change _ ∧ _ ↔ _ ∧ _
  rw [h.userSlots_eq, h.inUse_eq hj]

/-- What is left to show for the entries after a change of the user entry `i`. -/
theorem fsEntries (ht : FsEntries s) (hroot : i ≠ mftRoot)
    (hn : s'.forest.live i → Named s'.mem (s'.slot i)) : FsEntries s' where
  root_lt := h.boot ▸ ht.root_lt
  size_lt := h.boot ▸ ht.size_lt
  root_inUse := (h.inUse_eq hroot.symm).trans ht.root_inUse
  root_dir := (h.isDirectory_eq hroot.symm).trans ht.root_dir
  named := by
    intro j hj
    by_cases hji : j = i
    · subst hji
      exact hn (hj.resolve_left hroot)
    · exact h.named hji (ht.named j (hj.imp_right (h.live_iff hji).mp))

/-- The lookup of another entry, when `i` does not stand in for it. -/
theorem findChild_eq (ht : FsEntries s) (ht' : FsEntries s') {n : List UInt8} {c : Nat}
    (hp : s.node p) (hpi : p ≠ i) (hci : c ≠ i) (hi : s'.isChild p n i = false)
    (hc : findChild s p n = some c) : findChild s' p n = some c := by
  have hother : ∀ j ∈ s.userSlots, j ≠ i → s'.isChild p n j = s.isChild p n j := by
    intro j hj hji
    rw [Bool.eq_iff_iff, ht.isChild_iff hj, ht'.isChild_iff (h.userSlots_eq ▸ hj), h.inUse_eq hji]
    refine and_congr_right fun huse => ?_
    have hn := ht.named j (.inr ⟨hj, huse⟩)
    rw [h.parentOf_eq hji hn, h.nameOf_eq hji hn]
  rw [ht.findChild_eq hp, find?_eq_some_iff_append] at hc
  obtain ⟨hchild, front, rest, hsplit, hfront⟩ := hc
  rw [ht'.findChild_eq (hp.imp_right (h.live_iff hpi).mpr), h.userSlots_eq, find?_eq_some_iff_append]
  refine ⟨(hother c (by simp [hsplit]) hci).trans hchild, front, rest, hsplit, fun j hj => ?_⟩
  by_cases hji : j = i
  · rw [hji, hi]
    rfl
  · rw [hother j (by simp [hsplit, hj]) hji]
    exact hfront j hj

end HeadsKept

namespace EntriesKept

/-- A change inside the slot of the entry. -/
theorem of_slot (hboot : s'.boot = s.boot) (hzone : s'.mftZone = s.mftZone)
    (hframe : Mem.Frame (fun x => s.slot i ≤ x ∧ x < s.slot i + 4096) s.mem s'.mem) :
    EntriesKept s s' i := by
  have hagree : ∀ j, j ≠ i → Mem.Agree s.mem s'.mem (s.slot j) 4096 := fun j hj =>
    slot_agree hj hframe fun _ => id
  exact ⟨⟨hboot, hzone, fun j hj => ((hagree j hj).mono (by omega)).readLE_eq,
    fun j hj hn => .of_agree hn (hagree j hj)⟩, fun j hj _ => hagree j hj⟩

/-- An update of the index of a directory. -/
theorem of_edit (hboot : s'.boot = s.boot) (hzone : s'.mftZone = s.mftZone)
    (hdir : s.isDirectory p = true) (hedit : IndexEdit s.mem s'.mem (s.slot p)) : EntriesKept s s' i := by
  refine ⟨.of_edit hboot hzone hedit, fun j _ hfile => ?_⟩
  refine slot_agree (i := p) ?_ hedit.frame (by omega)
  rintro rfl
  rw [hdir] at hfile
  cases hfile

theorem refl (hboot : s'.boot = s.boot) (hzone : s'.mftZone = s.mftZone) (hmem : s'.mem = s.mem) :
    EntriesKept s s' i :=
  of_slot hboot hzone (hmem ▸ Frame.refl _ _)

theorem trans (h : EntriesKept s s' i) (h' : EntriesKept s' s'' i) : EntriesKept s s'' i := by
  refine ⟨h.toHeadsKept.trans h'.toHeadsKept, fun j hj hfile => ?_⟩
  have hnext := h'.file j hj ((h.isDirectory_eq hj).trans hfile)
  rw [h.slot_eq j] at hnext
  exact (h.file j hj hfile).trans hnext

variable (h : EntriesKept s s' i)

include h

theorem sameBut (ht : FsTree s) : SameBut s.forest s'.forest i where
  live := fun _ hj => h.live_iff hj
  dir := fun _ hj hd => (h.isDirectory_eq hj).trans hd
  parent := fun _ hj hl => h.parentOf_eq hj (ht.named _ (.inr hl))
  name := fun _ hj hl => h.nameOf_eq hj (ht.named _ (.inr hl))

/-- The tree after a change of the user entry `i`, when it is still one and `i` has a name. -/
theorem fsTree (ht : FsTree s) (hroot : i ≠ mftRoot)
    (hn : s'.forest.live i → Named s'.mem (s'.slot i)) (hw : WellFormed s'.forest mftRoot) :
    FsTree s' :=
  ⟨h.fsEntries ht.toFsEntries hroot hn, hw⟩

end EntriesKept

theorem FsTree.firstUser_ne_root (hi : i ∈ s.userSlots) : i ≠ mftRoot := by
  have hle := (mem_userSlots.mp hi).1
  rintro rfl
  exact absurd hle (by decide)

/-! ## Creating -/

/-- The memory of `createEntry` before the parent is updated. -/
def newEntryMem (s : Fs) (i p flags : Nat) (name : List UInt8) : Mem :=
  let m := initMftEntry s.mem (s.slot i) i flags
  let m := addFilenameAttr m s.now (s.slot i) name p
  if flags = mftFlagDirectory then addIndexRootAttr m (s.slot i) else m

section Create

variable {flags : Nat}

theorem createEntry_mem : (createEntry s i p flags name).mem =
    (addDirEntry (newEntryMem s i p flags name) s.tick.now (s.slot p) i name).2 := rfl

theorem createEntry_boot : (createEntry s i p flags name).boot = s.boot := by
  unfold createEntry
  dsimp only
  split_ifs <;> rfl

theorem createEntry_zone : (createEntry s i p flags name).mftZone = s.mftZone := by
  unfold createEntry
  dsimp only
  split_ifs <;> rfl

variable (hi : i < 2 ^ 32) (hp : p < 2 ^ 64) (hflags : flags < 2 ^ 16)

include hi hflags

theorem newEntryMem_frame : Mem.Frame (fun x => s.slot i ≤ x ∧ x < s.slot i + 4096) s.mem
    (newEntryMem s i p flags name) := by
  have hused := (initMftEntry_spec (m := s.mem) (e := s.slot i) hi hflags).used
  have hframe : Mem.Frame (fun x => s.slot i ≤ x ∧ x < s.slot i + 4096) s.mem
      (addFilenameAttr _ s.now (s.slot i) name p) :=
    (initMftEntry_frame.mono (by omega)).trans ((addFilenameAttr_frame hused).mono (by omega))
  unfold newEntryMem
  dsimp only
  split_ifs
  · exact hframe.trans ((addIndexRootAttr_frame (addFilenameAttr_used hused)).mono (by omega))
  · exact hframe

theorem newEntryMem_other (hne : j ≠ i) :
    Mem.Agree s.mem (newEntryMem s i p flags name) (s.slot j) 4096 :=
  slot_agree hne (newEntryMem_frame hi hflags) fun _ => id

section

variable (hn : Named s.mem (s.slot p)) (hdir : s.isDirectory p = true) (hne : p ≠ i)

include hn hne

theorem createEntry_edit : IndexEdit (newEntryMem s i p flags name)
    (createEntry s i p flags name).mem (s.slot p) := by
  rw [createEntry_mem]
  exact addDirEntry_edit ((HeadKept.of_agree hn (newEntryMem_other hi hflags hne)).named hn)

/-- The update of the parent's index leaves the other slots as they are. -/
theorem createEntry_other (hj : j ≠ p) : Mem.Agree (newEntryMem s i p flags name)
    (createEntry s i p flags name).mem (s.slot j) 4096 :=
  slot_agree hj (createEntry_edit hi hflags hn hne).frame (by omega)

include hdir

theorem createEntry_kept : EntriesKept s (createEntry s i p flags name) i := by
  have h₁ : EntriesKept s { s with mem := newEntryMem s i p flags name } i :=
    .of_slot rfl rfl (newEntryMem_frame hi hflags)
  exact h₁.trans (.of_edit (p := p) createEntry_boot createEntry_zone
    ((h₁.isDirectory_eq hne).trans hdir) (createEntry_edit hi hflags hn hne))

end

include hp

theorem newEntryMem_spec : NewEntry (newEntryMem s i p flags name) (s.slot i) i
    (flags ||| mftFlagInUse) p (name.take maxFilenameLen) := by
  have hinit := initMftEntry_spec (m := s.mem) (e := s.slot i) hi hflags
  have hnew : NewEntry (addFilenameAttr _ s.now (s.slot i) name p) _ _ _ _ _ :=
    addFilenameAttr_spec hinit hp
  unfold newEntryMem
  dsimp only
  split_ifs
  · have hused : mftUsedSize (addFilenameAttr _ s.now (s.slot i) name p) (s.slot i) = 369 :=
      addFilenameAttr_used hinit.used
    have hframe := addIndexRootAttr_frame hused
    have hindex := (addIndexRootAttr_spec hused).used
    refine ⟨?_, ?_, ?_, ?_⟩
    · exact ⟨(hframe.readLE (by omega)).trans hnew.named.offset, by omega, by omega,
        (hframe.readLE (by omega)).trans hnew.named.type,
        (hframe.readLE (by omega)).trans hnew.named.length⟩
    · exact (hframe.readLE (by omega)).trans hnew.flags
    · exact (hframe.readLE (by omega)).trans hnew.number
    · exact hnew.record.of_agree (hframe.agree (by omega))
  · exact hnew

omit hp hflags in
/-- A new file has no attribute but its name. -/
theorem newEntryMem_used : mftUsedSize (newEntryMem s i p 0 name) (s.slot i) = 369 := by
  have hinit : Initialised (initMftEntry s.mem (s.slot i) i 0) (s.slot i) i _ :=
    initMftEntry_spec hi (by decide)
  rw [newEntryMem, if_neg (by decide)]
  exact addFilenameAttr_used hinit.used

omit hp hflags in
/-- A new directory has an empty index. -/
theorem newEntryMem_index : EmptyIndex (newEntryMem s i p mftFlagDirectory name) (s.slot i) := by
  have hinit : Initialised (initMftEntry s.mem (s.slot i) i mftFlagDirectory) (s.slot i) i _ :=
    initMftEntry_spec hi (by decide)
  rw [newEntryMem, if_pos rfl]
  exact addIndexRootAttr_spec (addFilenameAttr_used hinit.used)

theorem createEntry_new (hn : Named s.mem (s.slot p)) (hne : p ≠ i) :
    NewEntry (createEntry s i p flags name).mem (s.slot i) i (flags ||| mftFlagInUse) p
      (name.take maxFilenameLen) := by
  have hnew : NewEntry (newEntryMem s i p flags name) _ _ _ _ _ := newEntryMem_spec hi hp hflags
  exact hnew.of_headKept (.of_agree hnew.named (createEntry_other hi hflags hn hne hne.symm))

end Create

/-- The tree depends on the memory and where the MFT is. -/
theorem FsTree.of_eq (h : FsTree s) (hboot : s'.boot = s.boot) (hzone : s'.mftZone = s.mftZone)
    (hmem : s'.mem = s.mem) : FsTree s' := by
  obtain ⟨boot, mem, zone⟩ := s
  obtain ⟨boot', mem', zone'⟩ := s'
  dsimp only at hboot hzone hmem
  subst hboot hzone hmem
  exact ⟨⟨h.root_lt, h.size_lt, h.root_inUse, h.root_dir, h.named⟩, h.tree⟩

theorem FsTree.writeMftEntry (h : FsTree s) (i : Nat) : FsTree (OpenSys.writeMftEntry s i).2 :=
  h.of_eq rfl rfl rfl

variable {flags e fn now q : Nat} {m : Mem} {new : List UInt8} {s₀ : Fs}

/-- A new entry in a directory that has none of its name. -/
theorem FsTree.add (h : FsTree s) (hkept : EntriesKept s s' i)
    (hnew : NewEntry s'.mem (s'.slot i) i (flags ||| mftFlagInUse) p name) (hi : i ∈ s.userSlots)
    (hfree : s.inUse i = false) (hp : s.node p) (hdir : s.isDirectory p = true)
    (hflags : flags = 0 ∨ flags = mftFlagDirectory)
    (hfresh : ∀ j, s.forest.live j → s.parentOf j = p → s.nameOf j ≠ name) : FsTree s' := by
  have huse : s'.inUse i = true := by
    rw [inUse, mftInUse, hnew.flags]
    rcases hflags with rfl | rfl <;> rfl
  have hpar : s'.parentOf i = p := hnew.named.parentOf.trans hnew.record.parent
  have hname : s'.nameOf i = name := hnew.named.nameOf.trans hnew.record.name
  have hroot := FsTree.firstUser_ne_root hi
  have hdead : ¬ s.forest.live i := fun hl => by simp [hl.2] at hfree
  refine hkept.fsTree h hroot (fun _ => hnew.named) ?_
  refine h.tree.add (hkept.sameBut h) hroot hdead ⟨hkept.userSlots_eq ▸ hi, huse⟩ ?_ ?_ ?_
  · rwa [show s'.forest.parent i = p from hpar]
  · rwa [show s'.forest.parent i = p from hpar]
  · exact fun j hj hjp heq => hfresh j hj (hjp.trans hpar) (heq.trans hname)

/-! ## New paths -/

/-- What a path has to be like for a new entry: absolute, its last component not empty
    and short enough for the lookup, its parent part short enough for `parent_path`, and
    its parent a directory where there is one. -/
structure NewPath (s : Fs) (path : List UInt8) : Prop where
  absolute : path.head? = some slash
  short : lastSlash path ≤ 255
  name : (splitPath path).2 ≠ []
  name_le : (splitPath path).2.length ≤ 254
  parent_dir : (findFile s (splitPath path).1).all s.isDirectory = true

/-- A path that leads nowhere has a parent without a child of that name. -/
theorem FsEntries.fresh (h : FsEntries s) (habs : path.head? = some slash)
    (hname : (splitPath path).2 ≠ []) (hlen : (splitPath path).2.length ≤ 254)
    (hnone : findFile s path = none) (hp : findFile s (splitPath path).1 = some p) :
    ∀ j, s.forest.live j → s.parentOf j = p → s.nameOf j ≠ (splitPath path).2 := by
  rw [findFile_split habs hname hlen, hp] at hnone
  exact (h.findChild_eq_none (findFile_node hp)).mp hnone

theorem allocMftEntry_some (h : allocMftEntry s = some i) : i ∈ s.userSlots ∧ s.inUse i = false :=
  ⟨mem_of_find?_eq_some h, by simpa using find?_some h⟩

/-- The path leads nowhere, and a call can make the free entry `i` a child of `p` for it. -/
structure Creates (s : Fs) (path : List UInt8) (i p : Nat) : Prop where
  new : NewPath s path
  fresh : findFile s path = none
  slot : allocMftEntry s = some i
  parent : findFile s (splitPath path).1 = some p

/-- What the tree says about a creation. -/
structure Fits (s : Fs) (i p : Nat) (name : List UInt8) : Prop where
  user : i ∈ s.userSlots
  free : s.inUse i = false
  node : s.node p
  dir : s.isDirectory p = true
  name_le : name.length ≤ 255
  fresh : ∀ j, s.forest.live j → s.parentOf j = p → s.nameOf j ≠ name

theorem FsEntries.fits (h : FsEntries s) (hc : Creates s path i p) : Fits s i p (splitPath path).2 := by
  obtain ⟨hmem, hfree⟩ := allocMftEntry_some hc.slot
  have hlen := hc.new.name_le
  have hdir := hc.new.parent_dir
  rw [hc.parent, all_some] at hdir
  exact ⟨hmem, hfree, findFile_node hc.parent, hdir, by omega,
    h.fresh hc.new.absolute hc.new.name hlen hc.fresh hc.parent⟩

theorem Fits.parent_ne (hf : Fits s i p name) (h : FsEntries s) : p ≠ i := by
  rintro rfl
  have huse := h.node_inUse hf.node
  rw [hf.free] at huse
  cases huse

/-- What a creation leaves. -/
structure CreateDone (s s' : Fs) (i flags p : Nat) (name : List UInt8) : Prop where
  kept : EntriesKept s s' i
  new : NewEntry s'.mem (s'.slot i) i (flags ||| mftFlagInUse) p name
  used : flags = 0 → mftUsedSize s'.mem (s'.slot i) = 369

theorem CreateDone.of_eq {s₁ : Fs} (h : CreateDone s s₁ i flags p name) (hboot : s'.boot = s₁.boot)
    (hzone : s'.mftZone = s₁.mftZone) (hmem : s'.mem = s₁.mem) :
    CreateDone s s' i flags p name := by
  obtain ⟨boot, mem, zone⟩ := s₁
  obtain ⟨boot', mem', zone'⟩ := s'
  dsimp only at hboot hzone hmem
  subst hboot hzone hmem
  exact ⟨⟨⟨h.kept.boot, h.kept.zone, h.kept.flags, h.kept.head⟩, h.kept.file⟩, h.new, h.used⟩

theorem FsEntries.create_done (h : FsEntries s) (hf : Fits s i p name)
    (hflags : flags = 0 ∨ flags = mftFlagDirectory) :
    CreateDone s (createEntry s i p flags name) i flags p name := by
  have hlt := h.size_lt
  have hi' : i < 2 ^ 32 := by
    have := (mem_userSlots.mp hf.user).2
    omega
  have hp' : p < 2 ^ 64 := by
    have := h.node_lt hf.node
    omega
  have hflags' : flags < 2 ^ 16 := by rcases hflags with rfl | rfl <;> decide
  have hn := h.named p hf.node
  have hkept : EntriesKept s (createEntry s i p flags name) i :=
    createEntry_kept hi' hflags' hn hf.dir (hf.parent_ne h)
  have hnew : NewEntry (createEntry s i p flags name).mem (s.slot i) i _ p _ :=
    createEntry_new hi' hp' hflags' hn (hf.parent_ne h)
  have hname : name.take maxFilenameLen = name := take_of_length_le hf.name_le
  rw [← hkept.slot_eq, hname] at hnew
  refine ⟨hkept, hnew, fun hfile => ?_⟩
  subst hfile
  have hother : Mem.Agree (newEntryMem s i p 0 name) (createEntry s i p 0 name).mem (s.slot i)
      4096 := createEntry_other hi' hflags' hn (hf.parent_ne h) (hf.parent_ne h).symm
  rw [hkept.slot_eq]
  exact (hother.readLE (by omega)).trans (newEntryMem_used hi')

theorem FsTree.create (h : FsTree s) (hf : Fits s i p name)
    (hflags : flags = 0 ∨ flags = mftFlagDirectory) : FsTree (createEntry s i p flags name) :=
  have hd := h.create_done hf hflags
  h.add hd.kept hd.new hf.user hf.free hf.node hf.dir hflags hf.fresh

/-- Two entries go to the disk. -/
def stored (s : Fs) (i p : Nat) : Fs := (writeMftEntry (writeMftEntry s i).2 p).2

protected theorem FsTree.stored (h : FsTree s) (i p : Nat) : FsTree (stored s i p) :=
  (h.writeMftEntry i).writeMftEntry p

theorem fsOpen_cases {mode : Nat}
    (hok : (findFile s path).isSome = true ∨ mode = 0 ∨ NewPath s path) :
    (∃ f, fsOpen s path mode = some (f, s)) ∨ ∃ i p s₁, Creates s path i p ∧
      s₁ = stored (createEntry s i p 0 (splitPath path).2) i p ∧
      fsOpen s path mode = some (openEntry s₁ i mode, s₁) := by
  rw [fsOpen]
  cases hfind : findFile s path with
  | some i => exact .inl ⟨_, rfl⟩
  | none =>
    dsimp only
    by_cases hmode : mode = 0
    · rw [if_pos hmode]
      exact .inl ⟨_, rfl⟩
    rw [if_neg hmode]
    have hpath : NewPath s path := by simpa [hfind, hmode] using hok
    have hshort : ¬ (path = [] ∨ 255 < lastSlash path) := by
      rintro (rfl | hlong)
      · simpa using hpath.absolute
      · exact absurd hpath.short (by omega)
    cases halloc : allocMftEntry s with
    | none => exact .inl ⟨_, rfl⟩
    | some i =>
      dsimp only
      rw [if_neg hshort]
      cases hp : findFile s (splitPath path).1 with
      | none => exact .inl ⟨_, rfl⟩
      | some p =>
        dsimp only
        generalize hs₁ : createEntry s i p 0 (splitPath path).2 = s₁
        exact .inr ⟨i, p, stored s₁ i p, ⟨hpath, hfind, halloc, hp⟩, by rw [hs₁], rfl⟩

theorem fsMkdir_cases (hnone : findFile s path = none) (hpath : NewPath s path) :
    fsMkdir s path = some (-1, s) ∨ ∃ i p s₁ r, Creates s path i p ∧
      s₁ = createEntry s i p mftFlagDirectory (splitPath path).2 ∧ fsMkdir s path = some r ∧
      (r.1 = -1 ∧ r.2 = (writeMftEntry s₁ i).2 ∨ r.2 = stored s₁ i p) := by
  have hshort := hpath.short
  have hnil : path ≠ [] := by
    rintro rfl
    simpa using hpath.absolute
  rw [fsMkdir, if_neg hnil]
  cases halloc : allocMftEntry s with
  | none => exact .inl rfl
  | some i =>
    dsimp only
    rw [if_neg (by omega)]
    cases hp : findFile s (splitPath path).1 with
    | none => exact .inl rfl
    | some p =>
      dsimp only
      generalize hs₁ : createEntry s i p mftFlagDirectory (splitPath path).2 = s₁
      have hc : Creates s path i p := ⟨hpath, hnone, halloc, hp⟩
      by_cases hfail : (writeMftEntry s₁ i).1 < 0
      · rw [if_pos hfail]
        exact .inr ⟨i, p, s₁, _, hc, hs₁.symm, rfl, .inl ⟨rfl, rfl⟩⟩
      · rw [if_neg hfail]
        exact .inr ⟨i, p, s₁, _, hc, hs₁.symm, rfl, .inr rfl⟩

protected theorem FsTree.fsOpen (h : FsTree s) {mode : Nat}
    (hok : (findFile s path).isSome = true ∨ mode = 0 ∨ NewPath s path) :
    ∃ r, fsOpen s path mode = some r ∧ FsTree r.2 := by
  rcases fsOpen_cases hok with ⟨f, heq⟩ | ⟨i, p, s₁, hc, hs₁, heq⟩
  · exact ⟨_, heq, h⟩
  have hnew : FsTree s₁ := by
    rw [hs₁]
    exact (h.create (h.fits hc) (.inl rfl)).stored i p
  exact ⟨_, heq, hnew⟩

theorem FsTree.fsMkdir (h : FsTree s) (hnone : findFile s path = none) (hpath : NewPath s path) :
    ∃ r, OpenSys.fsMkdir s path = some r ∧ FsTree r.2 := by
  rcases fsMkdir_cases hnone hpath with heq | ⟨i, p, s₁, r, hc, hs₁, heq, hr⟩
  · exact ⟨_, heq, h⟩
  have hnew : FsTree s₁ := by
    rw [hs₁]
    exact h.create (h.fits hc) (.inr rfl)
  refine ⟨r, heq, ?_⟩
  rcases hr with ⟨-, hr⟩ | hr
  · rw [hr]
    exact hnew.writeMftEntry i
  · rw [hr]
    exact hnew.stored i p

/-! ## Removing -/

/-- The end of `dropEntry`, from the memory `m`: the entry is cleared. -/
theorem clear_frame : Mem.Frame (fun x => e ≤ x ∧ x < e + 4096) m
    ((clearEntry m e).writeLE (e + 8) 4 0) := by
  unfold clearEntry
  repeat refine Frame.writeLE ?_ (by omega)
  exact Frame.refl _ _

theorem clear_flags : mftFlags ((clearEntry m e).writeLE (e + 8) 4 0) e = 0 := by
  simp (disch := omega) only [clearEntry, mftFlags, readLE_writeLE_of_disjoint]
  exact readLE_writeLE (by omega)

/-- An entry is taken out of the index of a directory. -/
def dropFromDir (s : Fs) (p i : Nat) : Fs :=
  (writeMftEntry { s with mem := removeIndexEntry s.mem (s.slot p) i } p).2

theorem dropFromDir_kept (hn : Named s.mem (s.slot p)) (hdir : s.isDirectory p = true) :
    EntriesKept s (dropFromDir s p i) j :=
  .of_edit (p := p) rfl rfl hdir (removeIndexEntry_edit hn)

/-- The index update of `dropEntry`. -/
def dropIndex (s : Fs) (i : Nat) : Fs :=
  match s.filename i with
  | none => s
  | some fn =>
    let parent := fnParentMft s.mem fn
    if parent ≠ fsNone ∧ parent < s.boot.mftSize then dropFromDir s parent i else s

theorem dropEntry_eq : (dropEntry s i).2 = (writeMftEntry { dropIndex s i with
    mem := (clearEntry (dropIndex s i).mem ((dropIndex s i).slot i)).writeLE
      ((dropIndex s i).slot i + 8) 4 0 } i).2 := rfl

protected theorem FsTree.dropIndex (h : FsTree s) (hi : s.forest.live i) :
    EntriesKept s (dropIndex s i) j := by
  have hn := h.named i (.inr hi)
  have hp := h.tree.parent_node i hi
  have hdir := h.tree.parent_dir i hi
  change s.node (s.parentOf i) at hp
  change s.isDirectory (s.parentOf i) = true at hdir
  have hlt := h.node_lt hp
  have hsize := h.size_lt
  have hnone : s.parentOf i ≠ fsNone := by
    rw [fsNone]
    omega
  rw [dropIndex, hn.filename]
  dsimp only
  rw [← hn.parentOf, if_pos ⟨hnone, hlt⟩]
  exact dropFromDir_kept (h.named _ hp) hdir

theorem FsTree.dropEntry_kept (h : FsTree s) (hi : s.forest.live i) :
    EntriesKept s (dropEntry s i).2 i ∧ (dropEntry s i).2.inUse i = false := by
  have h₁ : EntriesKept s (dropIndex s i) i := h.dropIndex hi
  rw [dropEntry_eq]
  generalize dropIndex s i = s₁ at h₁
  refine ⟨h₁.trans (.of_slot rfl rfl clear_frame), ?_⟩
  change mftInUse ((clearEntry s₁.mem (s₁.slot i)).writeLE (s₁.slot i + 8) 4 0) (s₁.slot i) = false
  rw [mftInUse, clear_flags]
  rfl

protected theorem FsTree.dropEntry (h : FsTree s) (hi : s.forest.live i)
    (hkids : ∀ j, s.forest.live j → s.parentOf j ≠ i) : FsTree (dropEntry s i).2 := by
  obtain ⟨hkept, hfree⟩ := h.dropEntry_kept hi
  generalize (dropEntry s i).2 = s' at hkept hfree
  have hdead : ¬ s'.forest.live i := fun hl => by simp [hl.2] at hfree
  exact hkept.fsTree h (h.tree.ne_root hi) (fun hl => absurd hl hdead)
    (h.tree.remove (hkept.sameBut h) hdead hkids)

/-- The path leads to an entry without children. -/
structure Removes (s : Fs) (path : List UInt8) (i : Nat) : Prop where
  target : findFile s path = some i
  live : s.forest.live i
  kids : ∀ j, s.forest.live j → s.parentOf j ≠ i

theorem FsTree.fsRmdir_cases (h : FsTree s) (hroot : findFile s path ≠ some mftRoot) :
    fsRmdir s path = (-1, s) ∨ ∃ i, Removes s path i ∧ fsRmdir s path = dropEntry s i := by
  rw [fsRmdir]
  cases hfind : findFile s path with
  | none => exact .inl rfl
  | some i =>
    have hi : s.forest.live i := (findFile_node hfind).resolve_left fun heq =>
      hroot (heq ▸ hfind)
    dsimp only
    split_ifs with hdir hro hkids
    · exact .inl rfl
    · exact .inl rfl
    · exact .inl rfl
    · refine .inr ⟨i, ⟨hfind, hi, fun j hj hpar => hkids (any_eq_true.mpr ⟨j, hj.1, ?_⟩)⟩, rfl⟩
      have hn := h.named j (.inr hj)
      rw [hn.parentOf] at hpar
      rw [hn.filename]
      simp [hj.2, hpar]

theorem FsTree.fsRmdir (h : FsTree s) (hroot : findFile s path ≠ some mftRoot) :
    FsTree (OpenSys.fsRmdir s path).2 := by
  rcases h.fsRmdir_cases hroot with heq | ⟨i, hr, heq⟩
  · rwa [heq]
  · rw [heq]
    exact h.dropEntry hr.live hr.kids

/-- Only the bitmap changes. -/
theorem freeCluster_eq (c : Nat) : ∃ b, freeCluster s c = { s with bitmap := b } := by
  rw [freeCluster]
  split_ifs
  · exact ⟨_, rfl⟩
  · exact ⟨s.bitmap, rfl⟩

theorem freeFold_eq {runs c : Nat} (l : List Nat) : ∃ b,
    l.foldl (fun s j => freeCluster s (u64 (runStart s.mem runs c + j))) s =
      { s with bitmap := b } := by
  induction l generalizing s with
  | nil => exact ⟨s.bitmap, rfl⟩
  | cons j l ih =>
    rw [foldl_cons]
    obtain ⟨b, hb⟩ := freeCluster_eq (s := s) (u64 (runStart s.mem runs c + j))
    rw [hb]
    exact ih (s := { s with bitmap := b })

theorem freeRuns_eq {runs n k : Nat} : ∃ b, freeRuns s runs n k = { s with bitmap := b } := by
  induction k generalizing s n with
  | zero => exact ⟨s.bitmap, rfl⟩
  | succ k ih =>
    rw [freeRuns]
    split_ifs
    · exact ⟨s.bitmap, rfl⟩
    dsimp only
    obtain ⟨b, hb⟩ := freeFold_eq (s := s) (List.range (runLength s.mem runs n))
    rw [hb]
    exact ih (s := { s with bitmap := b })

/-- `fs_unlink` before it drops the entry: the clusters are freed. -/
def unlinkData (s : Fs) (i : Nat) : Fs :=
  match findAttr s.mem (s.slot i) attrData with
  | none => s
  | some attr =>
    if attrNonResident s.mem attr = 0 then s
    else
      let nr := attr + attrHeaderSize
      freeRuns s (attr + nrRunOffset s.mem nr) 0 (unlinkRunCount s.mem attr nr)

theorem unlinkData_eq : ∃ b, unlinkData s i = { s with bitmap := b } := by
  unfold unlinkData
  split
  · exact ⟨s.bitmap, rfl⟩
  · split_ifs
    · exact ⟨s.bitmap, rfl⟩
    · exact freeRuns_eq

theorem fsUnlink_eq : fsUnlink s path = match findFile s path with
    | none => (-1, s)
    | some i =>
      if mftIsReadonly s.mem (s.slot i) then (-1, s)
      else if mftIsDirectory s.mem (s.slot i) then (-1, s)
      else OpenSys.dropEntry (unlinkData s i) i := rfl

theorem FsTree.fsUnlink_cases (h : FsTree s) (path : List UInt8) : fsUnlink s path = (-1, s) ∨
    ∃ i, Removes s path i ∧ s.isDirectory i = false ∧ mftIsReadonly s.mem (s.slot i) = false ∧
      fsUnlink s path = dropEntry (unlinkData s i) i := by
  rw [fsUnlink_eq]
  cases hfind : findFile s path with
  | none => exact .inl rfl
  | some i =>
    dsimp only
    split_ifs with hro hdir
    · exact .inl rfl
    · exact .inl rfl
    have hi : s.forest.live i := (findFile_node hfind).resolve_left fun heq =>
      hdir (heq ▸ h.root_dir)
    refine .inr ⟨i, ⟨hfind, hi, fun j hj hpar => hdir ?_⟩, Bool.eq_false_iff.mpr hdir,
      Bool.eq_false_iff.mpr hro, rfl⟩
    have hpdir := h.tree.parent_dir j hj
    rw [show s.forest.parent j = i from hpar] at hpdir
    exact hpdir

protected theorem FsTree.fsUnlink (h : FsTree s) : FsTree (fsUnlink s path).2 := by
  rcases h.fsUnlink_cases path with heq | ⟨i, hr, -, -, heq⟩
  · rwa [heq]
  obtain ⟨b, hb⟩ := unlinkData_eq (s := s) (i := i)
  rw [heq, hb]
  have h' : FsTree { s with bitmap := b } := h.of_eq rfl rfl rfl
  exact h'.dropEntry hr.live hr.kids

/-! ## Renaming -/

/-- The index of the directory ends inside its slot. -/
def indexInSlot (m : Mem) (e : Nat) : Bool :=
  (findAttr m e attrIndexRoot).all fun a => decide (a + attrLength m a ≤ e + mftEntrySize)

theorem indexInSlot_congr {m' : Mem} (h : Mem.Agree m m' e 4096) :
    indexInSlot m' e = indexInSlot m e := by
  rw [indexInSlot, indexInSlot, findAttr_congr h]
  cases hattr : findAttr m e attrIndexRoot with
  | none => rw [all_none, all_none]
  | some a =>
    obtain ⟨hlo, hhi, hle⟩ := findAttr_bounds hattr
    have hlen : attrLength m' a = attrLength m a := h.readLE (by omega)
    rw [all_some, all_some, hlen]

theorem findIndexWalk_bounds {child stop fuel a : Nat}
    (h : findIndexWalk m child stop fuel e = some a) : e ≤ a ∧ a + 329 ≤ stop := by
  induction fuel generalizing e with
  | zero => cases h
  | succ fuel ih =>
    rw [findIndexWalk] at h
    split_ifs at h with hend href hlast hlen
    · cases h
      rw [indexEntrySize] at hend
      omega
    · have := ih h
      omega

/-- An index entry that lies in the slot is found behind the name of the directory. -/
theorem findIndexEntry_bounds {child a : Nat} (hn : Named m e) (hin : indexInSlot m e = true)
    (h : findIndexEntry m e child = some a) :
    e + 361 ≤ a ∧ a + 329 ≤ e + 4096 := by
  rw [findIndexEntry] at h
  obtain ⟨attr, hattr, hwalk⟩ := bind_eq_some_iff.mp h
  rw [indexInSlot, hattr, all_some, decide_eq_true_iff, mftEntrySize] at hin
  have hlo := (hn.findAttr_index hattr).1
  have hbounds := findIndexWalk_bounds hwalk
  omega

theorem renameFilename_frame (hlen : name.length ≤ 255) :
    Mem.Frame (fun x => fn ≤ x ∧ x < fn + 313) m (renameFilename m fn p now name) := by
  unfold renameFilename
  refine Frame.writeLE (Frame.writeLE (Frame.writeBytes ?_ (by omega)) (by omega))
    (by omega)
  exact (Frame.refl _ _).writeLE (by omega)

theorem renameFilename_parent (hp : p < 2 ^ 64) :
    fnParentMft (renameFilename m fn p now name) fn = p := by
  simp (disch := omega) only [renameFilename, fnParentMft, readLE_writeLE_of_disjoint]
  exact readLE_writeLE hp

theorem renameFilename_name (hlen : name.length ≤ 255) :
    fnFilename (renameFilename m fn p now name) fn = name := by
  have hlength : fnFilenameLength (renameFilename m fn p now name) fn = name.length := by
    simp (disch := omega) only [renameFilename, fnFilenameLength, readLE_writeLE_of_disjoint,
      readLE_writeBytes_of_disjoint]
    exact readLE_writeLE (by omega)
  have hkeep : Mem.Agree ((m.writeLE (fn + 56) 1 name.length).writeBytes (fn + 58) name)
      (renameFilename m fn p now name) (fn + 58) name.length := by
    unfold renameFilename
    exact (agree_writeLE (by omega)).trans (agree_writeLE (by omega))
  rw [fnFilename, hlength, hkeep.readBytes_eq]
  exact readBytes_writeBytes

/-- The state of `fs_rename` before the indexes are updated. -/
def renamed (s : Fs) (i q : Nat) (name : List UInt8) : Fs :=
  (writeMftEntry { s.tick with
    mem := renameFilename s.mem (s.slot i + 48) q s.now (name.take maxFilenameLen) } i).2

/-- The state that `fs_rename` leaves. -/
def renamedIn (s : Fs) (i q : Nat) (name : List UInt8) : Fs :=
  renameIndex (renamed s i q name) i (s.parentOf i) q name

/-- The entry after it has got its new name. -/
structure Renamed (s s' : Fs) (i q : Nat) (name : List UInt8) : Prop where
  kept : EntriesKept s s' i
  frame : Mem.Frame (fun x => s.slot i + 48 ≤ x ∧ x < s.slot i + 361) s.mem s'.mem
  parent : fnParentMft s'.mem (s.slot i + 48) = q
  name : fnFilename s'.mem (s.slot i + 48) = name

theorem renamed_spec (hq : q < 2 ^ 64) :
    Renamed s (renamed s i q name) i q (name.take maxFilenameLen) := by
  have hlen : (name.take maxFilenameLen).length ≤ 255 := length_take_le _ _
  have hmem : (renamed s i q name).mem =
      renameFilename s.mem (s.slot i + 48) q s.now (name.take maxFilenameLen) := rfl
  have hframe : Mem.Frame (fun x => s.slot i + 48 ≤ x ∧ x < s.slot i + 361) s.mem
      (renamed s i q name).mem := hmem ▸ ((renameFilename_frame hlen).mono (by omega))
  exact ⟨.of_slot rfl rfl (hframe.mono (by omega)), hframe, hmem ▸ renameFilename_parent hq,
    hmem ▸ renameFilename_name hlen⟩

theorem Renamed.named (h : Renamed s s' i q name) (hn : Named s.mem (s.slot i)) :
    Named s'.mem (s.slot i) := by
  have hused : mftUsedSize s'.mem (s.slot i) = mftUsedSize s.mem (s.slot i) := h.frame.readLE (by omega)
  exact ⟨(h.frame.readLE (by omega)).trans hn.offset, hused ▸ hn.used,
    hused ▸ hn.used_le, (h.frame.readLE (by omega)).trans hn.type,
    (h.frame.readLE (by omega)).trans hn.length⟩

/-- An entry is put into the index of a directory. -/
def addToDir (s : Fs) (p i : Nat) (name : List UInt8) : Fs :=
  match addDirEntry s.mem s.now (s.slot p) i name with
  | (added, m) => (writeMftEntry { (if added then s.tick else s) with mem := m } p).2

theorem addToDir_heads (hn : Named s.mem (s.slot p)) : HeadsKept s (addToDir s p i name) j := by
  refine .of_edit (p := p) ?_ ?_ (addDirEntry_edit hn)
  · unfold addToDir
    dsimp only
    split_ifs <;> rfl
  · unfold addToDir
    dsimp only
    split_ifs <;> rfl

theorem addToDir_kept (hn : Named s.mem (s.slot p)) (hdir : s.isDirectory p = true) :
    EntriesKept s (addToDir s p i name) j :=
  have h : HeadsKept s (addToDir s p i name) j := addToDir_heads hn
  .of_edit h.boot h.zone hdir (addDirEntry_edit hn)

theorem renameIndex_move {op np : Nat} (h : op ≠ np) :
    renameIndex s i op np name = addToDir (dropFromDir s op i) np i name := by
  unfold renameIndex addToDir dropFromDir
  rw [if_neg h]

/-- The index updates of `fs_rename` keep the flags and the names of all entries. -/
theorem renameIndex_kept {op np k : Nat} (hop : Named s.mem (s.slot op))
    (hnp : Named s.mem (s.slot np)) (hopdir : s.isDirectory op = true)
    (hnpdir : s.isDirectory np = true)
    (hin : op = np → indexInSlot s.mem (s.slot np) = true) :
    EntriesKept s (renameIndex s i op np name) k := by
  have hlen : (name.take maxFilenameLen).length ≤ 255 := length_take_le _ _
  by_cases heq : op = np
  · subst heq
    rw [renameIndex, if_pos rfl]
    cases hfind : findIndexEntry s.mem (s.slot op) i with
    | none => exact .refl rfl rfl rfl
    | some e =>
      obtain ⟨hlo, hhi⟩ := findIndexEntry_bounds hop (hin rfl) hfind
      refine .of_edit (p := op) rfl rfl hopdir (.of_frame hop ?_)
      exact ((Frame.refl _ _).writeLE (by omega)).writeBytes (by omega)
  · rw [renameIndex_move heq]
    have hdrop : ∀ k, EntriesKept s (dropFromDir s op i) k := fun _ => dropFromDir_kept hop hopdir
    have hne : np ≠ op := fun h => heq h.symm
    exact (hdrop k).trans (addToDir_kept ((hdrop op).named hne hnp)
      (((hdrop op).isDirectory_eq hne).trans hnpdir))

/-- What `fs_rename` does not check: that the new name is short enough for the lookup and
    its parent part for `parent_path`, that the new parent is a directory, that the new
    path does not lie below the old one, and, in the same directory, that the index ends
    inside its slot. -/
structure RenameOk (s : Fs) (old new : List UInt8) : Prop where
  short : lastSlash new ≤ 254
  name_le : (splitPath new).2.length ≤ 254
  parent_dir : (findFile s (splitPath new).1).all s.isDirectory = true
  outside : ¬ absComponents old <+: absComponents new
  index : (findFile s old).all (fun i => findFile s (splitPath new).1 != some (s.parentOf i) ||
    indexInSlot s.mem (s.slot (s.parentOf i))) = true

/-- What a rename that goes through has found. -/
structure RenameFound (s : Fs) (old new : List UInt8) (i q : Nat) : Prop where
  old_abs : old.head? = some slash
  new_abs : new.head? = some slash
  target : findFile s old = some i
  name : (splitPath new).2 ≠ []
  parent : findFile s (splitPath new).1 = some q
  free : findFile s new = none

theorem fsRename_short {old : List UInt8} (h : fsRename s old new = some (0, s')) :
    lastSlash new ≤ 254 := by
  by_contra hlong
  rw [fsRename] at h
  by_cases habs : old.head? ≠ some slash ∨ new.head? ≠ some slash
  · rw [if_pos habs] at h
    cases h
  rw [if_neg habs] at h
  cases hold : findFile s old with
  | none =>
    rw [hold] at h
    cases h
  | some i =>
    rw [hold] at h
    dsimp only at h
    by_cases hname : (splitPath new).2 = []
    · rw [if_pos hname] at h
      cases h
    · rw [if_neg hname, if_pos (not_le.mp hlong)] at h
      cases h

theorem FsTree.fsRename_cases (h : FsTree s) (old : List UInt8) (hshort : lastSlash new ≤ 254) :
    fsRename s old new = some (-1, s) ∨ ∃ i q, RenameFound s old new i q ∧
      fsRename s old new = some (0, renamedIn s i q (splitPath new).2) := by
  rw [fsRename]
  by_cases habs : old.head? ≠ some slash ∨ new.head? ≠ some slash
  · rw [if_pos habs]
    exact .inl rfl
  rw [if_neg habs]
  cases hold : findFile s old with
  | none => exact .inl rfl
  | some i =>
    dsimp only
    by_cases hname : (splitPath new).2 = []
    · rw [if_pos hname]
      exact .inl rfl
    rw [if_neg hname, if_neg (by omega)]
    cases hp : findFile s (splitPath new).1 with
    | none => exact .inl rfl
    | some q =>
      dsimp only
      cases hnew : findFile s new with
      | some j =>
        rw [if_pos (by rfl)]
        exact .inl rfl
      | none =>
        rw [if_neg (by simp)]
        have hn := h.named i (findFile_node hold)
        refine .inr ⟨i, q, ⟨by tauto, by tauto, hold, hname, hp, hnew⟩, ?_⟩
        rw [renamedIn, hn.filename, hn.parentOf, renamed]

namespace RenameFound

variable {old new : List UInt8} {q : Nat} (hf : RenameFound s old new i q) (h : FsTree s)

include hf h

theorem outside (hout : ¬ absComponents old <+: absComponents new)
    (hlen : (splitPath new).2.length ≤ 254) : s.forest.live i ∧ ¬ OnChain s.forest i q := by
  obtain ⟨-, hi⟩ := h.findFile_eq_some.mp hf.target
  obtain ⟨-, hq⟩ := h.findFile_eq_some.mp hf.parent
  have hcomps := absComponents_split hf.new_abs hf.name hlen
  constructor
  · rcases hi.live_or_eq with hl | ⟨hnil, -⟩
    · exact hl
    · exact absurd (hnil ▸ List.nil_prefix) hout
  · intro hon
    have hpre := h.tree.path_of_onChain hon hi hq
    exact hout (hcomps ▸ hpre.trans (prefix_append _ _))

end RenameFound

/-- The state behind a rename: one entry has a new parent and a new name. -/
structure RenameDone (s s' : Fs) (i q : Nat) (name : List UInt8) : Prop where
  kept : EntriesKept s s' i
  named : Named s'.mem (s'.slot i)
  flags : mftFlags s'.mem (s'.slot i) = mftFlags s.mem (s.slot i)
  realSize : fnRealSize s'.mem (s'.slot i + 48) = fnRealSize s.mem (s.slot i + 48)
  parent : s'.parentOf i = q
  name : s'.nameOf i = name
  data : s.isDirectory i = false → mftUsedSize s'.mem (s.slot i) = mftUsedSize s.mem (s.slot i) ∧
    Mem.Agree s.mem s'.mem (s.slot i + 361) 3735

theorem FsTree.rename_done (h : FsTree s) (hi : s.forest.live i) (hq : s.node q)
    (hqdir : s.isDirectory q = true) (hne : q ≠ i) (hlen : name.length ≤ 254)
    (hin : s.parentOf i = q → indexInSlot s.mem (s.slot q) = true) :
    RenameDone s (renamedIn s i q name) i q name := by
  have hqlt : q < 2 ^ 64 := by
    have := h.node_lt hq
    have := h.size_lt
    omega
  have hn := h.named i (.inr hi)
  have htake : name.take maxFilenameLen = name := take_of_length_le (hlen.trans (by decide))
  have hspec : Renamed s (renamed s i q name) i q (name.take maxFilenameLen) := renamed_spec hqlt
  rw [htake] at hspec
  have hsize : fnRealSize (renamed s i q name).mem (s.slot i + 48) =
      fnRealSize s.mem (s.slot i + 48) := by
    change Mem.readLE (renameFilename s.mem (s.slot i + 48) q s.now _) _ _ = _
    simp (disch := omega) only [renameFilename, readLE_writeLE_of_disjoint]
    rw [readLE_writeBytes_of_disjoint (by omega), readLE_writeLE_of_disjoint (by omega)]
    rfl
  rw [renamedIn]
  generalize renamed s i q name = s₁ at hspec hsize ⊢
  have hn₁ : Named s₁.mem (s₁.slot i) := by
    rw [hspec.kept.slot_eq]
    exact hspec.named hn
  have hop := h.tree.parent_node i hi
  change s.node (s.parentOf i) at hop
  have hopdir : s.isDirectory (s.parentOf i) = true := h.tree.parent_dir i hi
  have hopne : s.parentOf i ≠ i := h.tree.parent_ne hi
  have hidx : ∀ k, EntriesKept s₁ (renameIndex s₁ i (s.parentOf i) q name) k := by
    intro k
    refine renameIndex_kept (hspec.kept.named hopne (h.named _ hop))
      (hspec.kept.named hne (h.named _ hq)) ((hspec.kept.isDirectory_eq hopne).trans hopdir)
      ((hspec.kept.isDirectory_eq hne).trans hqdir) fun heq => ?_
    have hagree : Mem.Agree s.mem s₁.mem (s.slot q) 4096 := slot_agree hne hspec.frame (by omega)
    rw [hspec.kept.slot_eq]
    exact (indexInSlot_congr hagree).trans (hin heq)
  have hhead := (hidx q).head i hne.symm hn₁
  have hslot : (renameIndex s₁ i (s.parentOf i) q name).slot i = s.slot i :=
    ((hidx q).slot_eq i).trans (hspec.kept.slot_eq i)
  have hn₂ := (hidx q).named hne.symm hn₁
  rw [hspec.kept.slot_eq] at hhead
  refine ⟨hspec.kept.trans (hidx i), hn₂, ?_, ?_, ?_, ?_, fun hfile => ?_⟩
  · rw [hslot, hhead.flags_eq]
    exact hspec.frame.readLE (by omega)
  · rw [hslot, hhead.realSize_eq, hsize]
  · rw [hn₂.parentOf, hslot, hhead.parent_eq, hspec.parent]
  · rw [hn₂.nameOf, hslot, hhead.name_eq, hspec.name]
  · have hflags : mftFlags s₁.mem (s.slot i) = mftFlags s.mem (s.slot i) := hspec.frame.readLE (by omega)
    have hfile₁ : s₁.isDirectory i = false := by
      rw [isDirectory, mftIsDirectory, hspec.kept.slot_eq, hflags]
      exact hfile
    have hagree := (hidx q).file i hne.symm hfile₁
    rw [hspec.kept.slot_eq] at hagree
    exact ⟨(hagree.readLE (by omega)).trans (hspec.frame.readLE (by omega)),
      (hspec.frame.agree (by omega)).trans (hagree.mono (by omega))⟩

theorem FsTree.rename (h : FsTree s) (hi : s.forest.live i) (hq : s.node q)
    (hqdir : s.isDirectory q = true) (hoff : ¬ OnChain s.forest i q)
    (hfresh : ∀ j, s.forest.live j → s.parentOf j = q → s.nameOf j ≠ name)
    (hd : RenameDone s s' i q name) : FsTree s' := by
  have hlive : s'.forest.live i := by
    refine ⟨hd.kept.userSlots_eq ▸ hi.1, ?_⟩
    rw [inUse, mftInUse, hd.flags]
    exact hi.2
  refine hd.kept.fsTree h (h.tree.ne_root hi) (fun _ => hd.named) ?_
  have hpar : s'.forest.parent i = q := hd.parent
  refine h.tree.move (hd.kept.sameBut h) hi hlive (fun hdir => ?_) (by rwa [hpar]) (by rwa [hpar])
    (fun j hj hjp heq => hfresh j hj (hjp.trans hpar) (heq.trans hd.name)) (by rwa [hpar])
  change s'.isDirectory i = true
  rw [isDirectory, mftIsDirectory, hd.flags]
  exact hdir

theorem FsTree.rename_found (h : FsTree s) {old : List UInt8} (hf : RenameFound s old new i q)
    (hok : RenameOk s old new) :
    RenameDone s (renamedIn s i q (splitPath new).2) i q (splitPath new).2 := by
  obtain ⟨hi, hoff⟩ := hf.outside h hok.outside hok.name_le
  have hqdir := hok.parent_dir
  rw [hf.parent, all_some] at hqdir
  have hne : q ≠ i := fun heq => hoff (heq ▸ .here)
  have hindex := hok.index
  rw [hf.target, all_some, hf.parent] at hindex
  exact h.rename_done hi (findFile_node hf.parent) hqdir hne hok.name_le fun heq => by
    simpa [heq] using hindex

protected theorem FsTree.fsRename (h : FsTree s) {old : List UInt8} (hok : RenameOk s old new) :
    ∃ r, fsRename s old new = some r ∧ FsTree r.2 := by
  rcases h.fsRename_cases old hok.short with hfail | ⟨i, q, hf, hdone⟩
  · exact ⟨_, hfail, h⟩
  obtain ⟨hi, hoff⟩ := hf.outside h hok.outside hok.name_le
  have hqdir := hok.parent_dir
  rw [hf.parent, all_some] at hqdir
  have hd := h.rename_found hf hok
  generalize renamedIn s i q (splitPath new).2 = s' at hdone hd
  exact ⟨_, hdone, h.rename hi (findFile_node hf.parent) hqdir hoff
    (h.fresh hf.new_abs hf.name hok.name_le hf.free hf.parent) hd⟩

/-! ## Format -/

theorem clearEntry_flags {e' : Nat} (h : e' = e ∨ e' + 8 ≤ e ∨ e + 8 ≤ e')
    (hm : e' = e ∨ mftFlags m e' = 0) : mftFlags (clearEntry m e) e' = 0 := by
  unfold clearEntry mftFlags
  by_cases heq : e' = e
  · subst heq
    exact readLE_writeLE (by omega)
  · rw [readLE_writeLE_of_disjoint (by omega), readLE_writeLE_of_disjoint (by omega)]
    exact hm.resolve_left heq

/-- The loop of `fs_format` that marks the entries as unused. -/
theorem clearEntries_flags {l : List Nat} (h : i ∈ l ∨ mftFlags m (s.slot i) = 0) :
    mftFlags (l.foldl (fun m i => clearEntry m (s.slot i)) m) (s.slot i) = 0 := by
  induction l generalizing m with
  | nil => simpa using h
  | cons j l ih =>
    rw [foldl_cons]
    refine ih ?_
    by_cases hil : i ∈ l
    · exact .inl hil
    refine .inr (clearEntry_flags ?_ ?_)
    · simp only [slot, mftEntrySize]
      omega
    · by_cases hij : i = j
      · exact .inl (by rw [hij])
      · exact .inr (h.resolve_left (by simp [hij, hil]))

theorem writeMftEntries_keep (l : List Nat) :
    (l.foldl (fun s i => (writeMftEntry s i).2) s).mem = s.mem ∧
      (l.foldl (fun s i => (writeMftEntry s i).2) s).boot = s.boot ∧
      (l.foldl (fun s i => (writeMftEntry s i).2) s).mftZone = s.mftZone := by
  induction l generalizing s with
  | nil => exact ⟨rfl, rfl, rfl⟩
  | cons i l ih => exact ih

/-- The entries of `fs_format`: the root directory and nothing else. -/
structure Formatted (s : Fs) : Prop where
  size : s.boot.mftSize = 128
  root : NewEntry s.mem (s.slot mftRoot) mftRoot (mftFlagDirectory ||| mftFlagInUse) mftRoot []
  index : EmptyIndex s.mem (s.slot mftRoot)
  free : ∀ i ∈ s.userSlots, s.inUse i = false

theorem Formatted.no_entry (h : Formatted s) : ¬ s.forest.live i := by
  rintro ⟨hi, huse⟩
  simp [h.free i hi] at huse

theorem Formatted.fsTree (h : Formatted s) : FsTree s where
  root_lt := by rw [h.size]; decide
  size_lt := by rw [h.size]; decide
  root_inUse := by rw [inUse, mftInUse, h.root.flags]; rfl
  root_dir := by rw [isDirectory, mftIsDirectory, h.root.flags]; rfl
  named := by
    rintro i (rfl | hl)
    · exact h.root.named
    · exact absurd hl h.no_entry
  tree := ⟨h.no_entry, fun _ _ hl => absurd hl h.no_entry, fun _ hl => absurd hl h.no_entry,
    fun _ hl => absurd hl h.no_entry, fun _ hl => absurd hl h.no_entry⟩

/-- The root directory, made in the memory of `s₀` without entries in use. -/
structure RootMade (s₀ s : Fs) : Prop where
  size : s.boot.mftSize = 128
  zone : s.mftZone = s₀.mftZone
  free : ∀ i < 128, mftFlags s₀.mem (s₀.slot i) = 0
  mem : s.mem = newEntryMem s₀ mftRoot mftRoot mftFlagDirectory []

theorem RootMade.of_eq (h : RootMade s₀ s) (hmem : s'.mem = s.mem) (hboot : s'.boot = s.boot)
    (hzone : s'.mftZone = s.mftZone) : RootMade s₀ s' :=
  ⟨hboot ▸ h.size, hzone.trans h.zone, h.free, hmem.trans h.mem⟩

theorem RootMade.slot_eq (h : RootMade s₀ s) (i : Nat) : s.slot i = s₀.slot i := Fs.slot_eq h.zone i

/-- No other entry is in use. -/
theorem RootMade.free_other (h : RootMade s₀ s) (hi : i < 128) (hne : i ≠ mftRoot) :
    s.inUse i = false := by
  have hother : Mem.Agree s₀.mem s.mem (s₀.slot i) 4096 :=
    h.mem ▸ newEntryMem_other (by decide) (by decide) hne
  have hflags : mftFlags s.mem (s.slot i) = 0 := by
    rw [h.slot_eq]
    exact (hother.readLE (by omega)).trans (h.free i hi)
  rw [inUse, mftInUse, hflags]
  rfl

theorem RootMade.formatted (h : RootMade s₀ s) : Formatted s := by
  refine ⟨h.size, ?_, ?_, fun i hi => ?_⟩
  · rw [h.mem, h.slot_eq]
    exact newEntryMem_spec (by decide) (by decide) (by decide)
  · rw [h.mem, h.slot_eq]
    exact newEntryMem_index (by decide)
  · exact h.free_other (h.size ▸ (mem_userSlots.mp hi).2) (FsTree.firstUser_ne_root hi)

theorem rootMem_eq {boot : FsBoot} {d : Disk} : addIndexRootAttr (addFilenameAttr
      (initMftEntry m (s.slot mftRoot) mftRoot mftFlagDirectory) s.now (s.slot mftRoot) [] mftRoot)
      (s.slot mftRoot) = newEntryMem (Fs.mk boot m s.mftZone s.bitmap d s.baseLba s.clock s.ticks
        s.uninit) mftRoot mftRoot mftFlagDirectory [] := by
  rw [newEntryMem, if_pos rfl]
  rfl

theorem fsFormat_rootMade (s : Fs) (volumeSectors diskSize : Nat) (diskReady : Bool) :
    ∃ s₀, RootMade s₀ (fsFormat s volumeSectors diskSize diskReady) := by
  unfold fsFormat
  dsimp only
  generalize hboot : FsBoot.mk _ _ _ _ _ = boot
  have hsize : boot.mftSize = 128 := hboot ▸ rfl
  generalize hl : List.range 128 = l
  -- Before the root directory is made, no entry is in use.
  have hfree : ∀ i < 128, mftFlags (l.foldl (fun m i => clearEntry m (s.slot i)) s.mem)
      (s.slot i) = 0 := fun i hi => clearEntries_flags (.inl (hl ▸ mem_range.mpr hi))
  have hroot : ∀ d : Disk, RootMade (mk boot (l.foldl (fun m i => clearEntry m (s.slot i)) s.mem)
      s.mftZone s.bitmap d s.baseLba s.clock s.ticks s.uninit) (mk boot (addIndexRootAttr
      (addFilenameAttr (initMftEntry (l.foldl (fun m i => clearEntry m (s.slot i)) s.mem)
        (s.slot mftRoot) mftRoot mftFlagDirectory) s.now (s.slot mftRoot) [] mftRoot)
      (s.slot mftRoot)) s.mftZone s.bitmap d s.baseLba s.clock (s.ticks + 1) s.uninit) := fun d =>
    ⟨hsize, rfl, hfree, rootMem_eq⟩
  split_ifs
  · obtain ⟨hm, hb, hz⟩ := writeMftEntries_keep l
    exact ⟨_, (hroot _).of_eq hm hb hz⟩
  · exact ⟨_, hroot _⟩

theorem fsFormat_formatted (volumeSectors diskSize : Nat) (diskReady : Bool) :
    Formatted (fsFormat s volumeSectors diskSize diskReady) := by
  obtain ⟨s₀, h⟩ := fsFormat_rootMade s volumeSectors diskSize diskReady
  exact h.formatted

/-! ## Runs -/

inductive DirCall where
  | open (path : List UInt8) (mode : Nat)
  | mkdir (path : List UInt8)
  | rename (old new : List UInt8)
  | unlink (path : List UInt8)
  | rmdir (path : List UInt8)

/-- The state behind a call. -/
def dirStep (s : Fs) : DirCall → Option Fs
  | .open path mode => (fsOpen s path mode).map Prod.snd
  | .mkdir path => (fsMkdir s path).map Prod.snd
  | .rename old new => (fsRename s old new).map Prod.snd
  | .unlink path => some (fsUnlink s path).2
  | .rmdir path => some (fsRmdir s path).2

/-- What the calls do not check. -/
def DirCall.Ok (s : Fs) : DirCall → Prop
  | .open path mode => (findFile s path).isSome = true ∨ mode = 0 ∨ NewPath s path
  | .mkdir path => findFile s path = none ∧ NewPath s path
  | .rename old new => RenameOk s old new
  | .unlink _ => True
  | .rmdir path => findFile s path ≠ some mftRoot

/-- Siblings have different names, parents are directories in use, and the parents of an
    entry lead to the root directory. -/
structure Fs.TreeShape (s : Fs) : Prop where
  unique : ∀ i j, s.forest.live i → s.forest.live j → s.parentOf i = s.parentOf j →
    s.nameOf i = s.nameOf j → i = j
  parent : ∀ i, s.forest.live i → s.parentOf i < s.boot.mftSize ∧ s.inUse (s.parentOf i) = true ∧
    s.isDirectory (s.parentOf i) = true
  reaches : ∀ i, s.forest.live i → ∃ k, s.parentOf^[k] i = mftRoot

theorem FsTree.shape (h : FsTree s) : s.TreeShape where
  unique := h.tree.unique
  parent := fun i hi => ⟨h.node_lt (h.tree.parent_node i hi), h.node_inUse (h.tree.parent_node i hi),
    h.tree.parent_dir i hi⟩
  reaches := fun i hi => (h.tree.reaches i hi).iterate

/-- One call keeps the tree. -/
theorem FsTree.step (h : FsTree s) (call : DirCall) (hok : call.Ok s) :
    ∃ s', dirStep s call = some s' ∧ FsTree s' := by
  cases call with
  | «open» path mode =>
    obtain ⟨r, hr, ht⟩ := h.fsOpen hok
    exact ⟨r.2, by rw [dirStep, hr]; rfl, ht⟩
  | mkdir path =>
    obtain ⟨r, hr, ht⟩ := h.fsMkdir hok.1 hok.2
    exact ⟨r.2, by rw [dirStep, hr]; rfl, ht⟩
  | rename old new =>
    obtain ⟨r, hr, ht⟩ := h.fsRename hok
    exact ⟨r.2, by rw [dirStep, hr]; rfl, ht⟩
  | unlink path => exact ⟨_, rfl, h.fsUnlink⟩
  | rmdir path => exact ⟨_, rfl, h.fsRmdir hok⟩

/-- In every run from a formatted volume whose calls meet their conditions, the entries
    form a tree in every state. -/
theorem entries_form_tree (s : Fs) (volumeSectors diskSize : Nat) (diskReady : Bool)
    (calls : List DirCall)
    (hok : AllOk dirStep DirCall.Ok (fsFormat s volumeSectors diskSize diskReady) calls) :
    Always dirStep Fs.TreeShape (fsFormat s volumeSectors diskSize diskReady) calls :=
  (always_of_allOk (fun _ call h => h.step call) (fsFormat_formatted _ _ _).fsTree hok).mono
    fun _ => FsTree.shape

/-- A machine with nothing in its memory and on its disk. -/
def emptyFs : Fs where
  boot := ⟨0, 0, 0, 0, 0⟩
  mem := fun _ => 0
  mftZone := 0
  bitmap := fun _ => 0
  disk := ⟨fun _ => 0, fun _ => false, 0, []⟩
  baseLba := 0
  clock := fun _ => 0
  ticks := 0
  uninit := fun _ => 0

/-- `/a` -/
def pathA : List UInt8 := [47, 97]

theorem Formatted.findFile_none (h : Formatted s) (hpath : absComponents path ≠ []) :
    findFile s path = none := by
  refine eq_none_iff_forall_ne_some.mpr fun j hj => ?_
  obtain ⟨-, hres⟩ := h.fsTree.findFile_eq_some.mp hj
  exact hres.live_or_eq.elim h.no_entry fun heq => hpath heq.1

theorem Formatted.findFile_root (h : Formatted s) : findFile s [slash] = some mftRoot :=
  h.fsTree.findFile_eq_some.mpr ⟨rfl, .nil⟩

protected theorem Formatted.allocMftEntry (h : Formatted s) : allocMftEntry s = some 16 := by
  have hslots : s.userSlots = 16 :: List.range' 17 111 := by
    rw [userSlots, h.size]
    rfl
  have hfree : s.inUse 16 = false := h.free 16 (by rw [hslots]; exact mem_cons_self)
  rw [allocMftEntry, hslots, find?_cons_of_pos (by rw [hfree]; rfl)]

theorem Formatted.newPath (h : Formatted s) : NewPath s pathA := by
  refine ⟨rfl, by decide, by decide, by decide, ?_⟩
  rw [show (splitPath pathA).1 = [slash] from rfl, h.findFile_root, all_some]
  exact h.fsTree.root_dir

theorem Formatted.mkdir_ok (h : Formatted s) : AllOk dirStep DirCall.Ok s [.mkdir pathA] :=
  ⟨⟨h.findFile_none (by decide), h.newPath⟩, fun _ _ => trivial⟩

theorem entries_form_tree_mkdir :
    AllOk dirStep DirCall.Ok (fsFormat emptyFs 0 (2048 * 512) true) [.mkdir pathA] ∧
      Always dirStep Fs.TreeShape (fsFormat emptyFs 0 (2048 * 512) true) [.mkdir pathA] := by
  have hok := (fsFormat_formatted (s := emptyFs) 0 (2048 * 512) true).mkdir_ok
  exact ⟨hok, entries_form_tree _ _ _ _ _ hok⟩

/-- Making a directory twice gives two entries with the same parent and name. -/
theorem mkdir_twice : ¬ Always dirStep Fs.TreeShape (fsFormat emptyFs 0 (2048 * 512) true)
    [.mkdir pathA, .mkdir pathA] := by
  intro h
  obtain ⟨s, hs, hshape⟩ := h.last
  have hboth : (run dirStep (fsFormat emptyFs 0 (2048 * 512) true)
      [.mkdir pathA, .mkdir pathA]).all (fun s => decide (16 ∈ s.userSlots) && s.inUse 16 &&
        decide (17 ∈ s.userSlots) && s.inUse 17 && s.parentOf 16 == s.parentOf 17 &&
        s.nameOf 16 == s.nameOf 17) = true := by decide +kernel
  rw [hs, all_some] at hboth
  simp only [Bool.and_eq_true, decide_eq_true_eq, beq_iff_eq] at hboth
  obtain ⟨⟨⟨⟨⟨h16, u16⟩, h17⟩, u17⟩, hparent⟩, hname⟩ := hboth
  exact absurd (hshape.unique 16 17 ⟨h16, u16⟩ ⟨h17, u17⟩ hparent hname) (by decide)

end OpenSys
