-- SUMMARY: Listing directories: what fs_readdir reports after creations and removals.
import OpenSys.Fs.Index

/-!
# Reading directories

`fs_readdir` walks the index of a directory, while the lookup goes by the parent pointers
of the entries. The first part shows that the two agree as long as the index had room for
every entry created in the directory. The second part follows a record out of the index:
when the first or the last entry is deleted or moved away, the others stay listed in their
order and later creations are listed behind them; when another one is, those behind it are
no longer listed.
-/

namespace OpenSys

open OpenSys.Tree Run List

/-! ## Creating -/

section Create

variable {s s' : Fs} {d i p flags : Nat} {name path : List UInt8} {x : Nat × List UInt8}
  {l l' pre post : List (Nat × List UInt8)}

/-- `add_dir_entry` has room for a record in the slot. -/
def indexRoom (m : Mem) (e : Nat) : Bool :=
  (findAttr m e attrIndexRoot).all fun a =>
    decide (a + attrLength m a + indexEntrySize + attrHeaderSize ≤ e + mftEntrySize)

/-- There is room for eleven records. -/
theorem IndexOf.room {m : Mem} {e : Nat} (h : IndexOf m e l) :
    indexRoom m e = true ↔ l.length ≤ 10 := by
  rw [indexRoom, h.findAttr, Option.all_some, decide_eq_true_iff, h.length, indexEntrySize,
    attrHeaderSize, mftEntrySize]
  omega

/-- What holds of the records of `d` after a change of the entry `i`. -/
theorem DirIndex.kept (h : DirIndex s d l) (ht : FsEntries s) (hk : HeadsKept s s' i) (hd : d ≠ i)
    (hindex : IndexOf s'.mem (s.slot d) l') (hnodup : (l'.map Prod.fst).Nodup)
    (hl : ∀ x ∈ l', x.1 ≠ i → x ∈ l) (hi : ∀ x ∈ l', x.1 = i → s'.forest.live i ∧ s'.parentOf i = d) :
    DirIndex s' d l' := by
  refine ⟨h.node.imp_right (hk.live_iff hd).mpr, (hk.isDirectory_eq hd).trans h.dir,
    hk.slot_eq d ▸ hindex, hnodup, fun x hx => ?_⟩
  by_cases hxi : x.1 = i
  · rw [hxi]
    exact hi x hx hxi
  · obtain ⟨hlive, hp⟩ := h.child x (hl x hx hxi)
    exact ⟨(hk.live_iff hxi).mpr hlive, (hk.parentOf_eq hxi (ht.named _ (.inr hlive))).trans hp⟩

theorem CreateDone.live (h : CreateDone s s' i flags p name) (hf : Fits s i p name)
    (hflags : flags = 0 ∨ flags = mftFlagDirectory) : s'.forest.live i := by
  refine ⟨h.kept.userSlots_eq ▸ hf.user, ?_⟩
  rw [Fs.inUse, mftInUse, h.new.flags]
  rcases hflags with rfl | rfl <;> rfl

theorem CreateDone.parentOf (h : CreateDone s s' i flags p name) : s'.parentOf i = p :=
  h.new.named.parentOf.trans h.new.record.parent

theorem CreateDone.nameOf (h : CreateDone s s' i flags p name) : s'.nameOf i = name :=
  h.new.named.nameOf.trans h.new.record.name

variable (hf : Fits s i p name) (ht : FsEntries s) (hflags : flags = 0 ∨ flags = mftFlagDirectory)

include hf ht hflags

/-- The records of a directory after a creation. -/
theorem createEntry_index (hd : d ≠ i) (h : IndexOf s.mem (s.slot d) l)
    (hnew : ∀ x ∈ l, x.1 ≠ i) (hroom : p = d → l.length ≤ 10) :
    IndexOf (createEntry s i p flags name).mem (s.slot d)
      (if p = d then l ++ [(i, name)] else l) := by
  have hlt := ht.size_lt
  have hi : i < s.boot.mftSize := (mem_userSlots.mp hf.user).2
  have hflags' : flags < 2 ^ 16 := by rcases hflags with rfl | rfl <;> decide
  have h₁ : IndexOf (newEntryMem s i p flags name) (s.slot d) l :=
    h.of_agree (newEntryMem_other (by omega) hflags' hd)
  rw [createEntry_mem]
  split_ifs with hpd
  · rw [hpd] at h₁ ⊢
    exact h₁.add (hroom hpd) (by omega) hnew hf.name_le
  · exact h₁.of_agree (createEntry_other (by omega) hflags' (ht.named p hf.node) (hf.parent_ne ht)
      (Ne.symm hpd))

theorem DirIndex.create (h : DirIndex s d l) (hroom : p = d → l.length ≤ 10) :
    DirIndex (createEntry s i p flags name) d (if p = d then l ++ [(i, name)] else l) := by
  have hd : d ≠ i := by
    rintro rfl
    exact absurd (ht.node_inUse h.node) (by simp [hf.free])
  have hnew : ∀ x ∈ l, x.1 ≠ i := by
    rintro x hx rfl
    exact absurd (h.child x hx).1.2 (by simp [hf.free])
  have hindex := createEntry_index hf ht hflags hd h.index hnew hroom
  have hdone := ht.create_done hf hflags
  have hlive := hdone.live hf hflags
  refine h.kept ht hdone.kept.toHeadsKept hd hindex ?_ (fun x hx hxi => ?_) fun x hx hxi => ?_
  · split_ifs
    · rw [map_append, nodup_append]
      refine ⟨h.nodup, by simp, ?_⟩
      rintro _ hx _ hy rfl
      obtain ⟨x, hxl, rfl⟩ := mem_map.mp hx
      exact hnew x hxl (by simpa using hy)
    · exact h.nodup
  · split_ifs at hx
    · rcases mem_append.mp hx with hx | hx
      · exact hx
      · rw [mem_singleton.mp hx] at hxi
        exact absurd rfl hxi
    · exact hx
  · split_ifs at hx with hpd
    · exact ⟨hlive, hdone.parentOf.trans hpd⟩
    · exact absurd hxi (hnew x hx)

/-- A new directory. -/
theorem DirIndex.of_create (hnew : flags = mftFlagDirectory) :
    DirIndex (createEntry s i p flags name) i [] := by
  have hlt := ht.size_lt
  have hi : i < s.boot.mftSize := (mem_userSlots.mp hf.user).2
  have hdone := ht.create_done hf hflags
  have hlive := hdone.live hf hflags
  have hempty : IndexOf (newEntryMem s i p flags name) (s.slot i) [] := by
    subst hnew
    exact .empty (newEntryMem_spec (by omega) (by have := ht.node_lt hf.node; omega) (by decide)).named
      (newEntryMem_index (by omega))
  refine ⟨.inr hlive, ?_, ?_, by simp, by simp⟩
  · rw [Fs.isDirectory, mftIsDirectory, hdone.new.flags, hnew]
    rfl
  · rw [hdone.kept.slot_eq]
    refine hempty.of_agree (createEntry_other (by omega) (by rw [hnew]; decide)
      (ht.named p hf.node) (hf.parent_ne ht) (hf.parent_ne ht).symm)

end Create

/-! ## Creation runs -/

section CreationRuns

variable {s s' : Fs} {d i p : Nat} {path : List UInt8} {l : List (Nat × List UInt8)}

/-- The tree, with an index of `d` that lists all its children. -/
structure IndexInv (d : Nat) (s : Fs) : Prop where
  tree : FsTree s
  index : s.node d → s.isDirectory d = true → ∃ l, DirIndex s d l ∧ Complete s d l

theorem IndexInv.of_eq (h : IndexInv d s) (hboot : s'.boot = s.boot)
    (hzone : s'.mftZone = s.mftZone) (hmem : s'.mem = s.mem) : IndexInv d s' := by
  obtain ⟨boot, mem, zone⟩ := s
  obtain ⟨boot', mem', zone'⟩ := s'
  dsimp only at hboot hzone hmem
  subst hboot hzone hmem
  refine ⟨h.tree.of_eq rfl rfl rfl, fun hd hdir => ?_⟩
  obtain ⟨l, hl, hc⟩ := h.index hd hdir
  exact ⟨l, ⟨hl.node, hl.dir, hl.index, hl.nodup, hl.child⟩, hc⟩

theorem IndexInv.create (h : IndexInv d s) {flags : Nat} {name : List UInt8} (hf : Fits s i p name)
    (hflags : flags = 0 ∨ flags = mftFlagDirectory)
    (hroom : p = d → indexRoom s.mem (s.slot d) = true) :
    IndexInv d (createEntry s i p flags name) := by
  have hdone := h.tree.create_done hf hflags
  refine ⟨h.tree.create hf hflags, fun hd hdir => ?_⟩
  by_cases hdi : d = i
  · subst hdi
    have hflag : flags = mftFlagDirectory := by
      refine hflags.resolve_left ?_
      rintro rfl
      rw [Fs.isDirectory, mftIsDirectory, hdone.new.flags] at hdir
      exact absurd hdir (by decide)
    refine ⟨[], .of_create hf h.tree.toFsEntries hflags hflag, fun j hj hjp => ?_⟩
    -- Nobody was a child of the free entry.
    have hjd : j ≠ d := by
      rintro rfl
      exact hf.parent_ne h.tree.toFsEntries (hdone.parentOf.symm.trans hjp)
    have hlive := (hdone.kept.live_iff hjd).mp hj
    have hpar := h.tree.tree.parent_node j hlive
    rw [hdone.kept.parentOf_eq hjd (h.tree.named j (.inr hlive))] at hjp
    rw [show s.forest.parent j = d from hjp] at hpar
    exact absurd (h.tree.node_inUse hpar) (by simp [hf.free])
  · obtain ⟨l, hl, hc⟩ := h.index (hd.imp_right (hdone.kept.live_iff hdi).mp)
      ((hdone.kept.isDirectory_eq hdi).symm.trans hdir)
    refine ⟨_, hl.create hf h.tree.toFsEntries hflags fun hpd => hl.index.room.mp (hroom hpd),
      fun j hj hjp => ?_⟩
    by_cases hji : j = i
    · subst hji
      rw [hdone.nameOf, if_pos (hdone.parentOf.symm.trans hjp)]
      simp
    have hlive := (hdone.kept.live_iff hji).mp hj
    have hn := h.tree.named j (.inr hlive)
    rw [hdone.kept.parentOf_eq hji hn] at hjp
    rw [hdone.kept.nameOf_eq hji hn]
    have hmem := hc j hlive hjp
    split_ifs
    · exact mem_append_left _ hmem
    · exact hmem

theorem Formatted.indexInv (h : Formatted s) : IndexInv d s := by
  refine ⟨h.fsTree, fun hd hdir => ⟨[], ⟨hd, hdir, ?_, by simp, by simp⟩, fun i hi => ?_⟩⟩
  · rw [hd.resolve_right h.no_entry]
    exact .empty h.root.named h.index
  · exact absurd hi h.no_entry

/-- A call that creates an entry for a new path, with room in the index when it goes
    into the directory `d`. -/
structure CreateOk (d : Nat) (s : Fs) (path : List UInt8) : Prop where
  fresh : findFile s path = none
  new : NewPath s path
  room : findFile s (splitPath path).1 = some d → indexRoom s.mem (s.slot d) = true

/-- `CreateOk` for the calls that create. -/
def DirCall.CreateOk (d : Nat) (s : Fs) : DirCall → Prop
  | .open path _ => OpenSys.CreateOk d s path
  | .mkdir path => OpenSys.CreateOk d s path
  | _ => False

/-- What a creating call does. -/
theorem DirCall.create_cases {call : DirCall} (hok : call.CreateOk d s) :
    ∃ s', dirStep s call = some s' ∧ (s' = s ∨ ∃ path i p flags s₁, OpenSys.CreateOk d s path ∧
      Creates s path i p ∧ (flags = 0 ∨ flags = mftFlagDirectory) ∧
      s₁ = createEntry s i p flags (splitPath path).2 ∧
      (s' = (OpenSys.writeMftEntry s₁ i).2 ∨ s' = OpenSys.stored s₁ i p)) := by
  cases call with
  | «open» path mode =>
    rcases fsOpen_cases (.inr (.inr hok.new)) with ⟨f, heq⟩ | ⟨i, p, s₁, hc, hs₁, heq⟩
    · exact ⟨s, by rw [dirStep, heq]; rfl, .inl rfl⟩
    · exact ⟨s₁, by rw [dirStep, heq]; rfl, .inr ⟨path, i, p, 0, _, hok, hc, .inl rfl, rfl, .inr hs₁⟩⟩
  | mkdir path =>
    rcases fsMkdir_cases hok.fresh hok.new with heq | ⟨i, p, s₁, r, hc, hs₁, heq, hr⟩
    · exact ⟨s, by rw [dirStep, heq]; rfl, .inl rfl⟩
    · exact ⟨r.2, by rw [dirStep, heq]; rfl,
        .inr ⟨path, i, p, _, s₁, hok, hc, .inr rfl, hs₁, hr.imp_left And.right⟩⟩
  | rename old new => exact hok.elim
  | unlink path => exact hok.elim
  | rmdir path => exact hok.elim

theorem IndexInv.step (h : IndexInv d s) (call : DirCall) (hok : call.CreateOk d s) :
    ∃ s', dirStep s call = some s' ∧ IndexInv d s' := by
  obtain ⟨s', hstep, rfl | ⟨path, i, p, flags, s₁, hpath, hc, hflags, hs₁, hs'⟩⟩ :=
    DirCall.create_cases hok
  · exact ⟨s', hstep, h⟩
  have hnew : IndexInv d s₁ := by
    rw [hs₁]
    exact h.create (h.tree.fits hc) hflags fun hpd => hpath.room (hpd ▸ hc.parent)
  refine ⟨s', hstep, ?_⟩
  rcases hs' with rfl | rfl
  · exact hnew.of_eq rfl rfl rfl
  · exact hnew.of_eq rfl rfl rfl

/-- `fs_readdir` on the directory `d` reports what the linear search finds, and every
    name once. -/
def ReaddirAgrees (d : Nat) (s : Fs) : Prop :=
  ∀ path, findFile s path = some d → s.isDirectory d = true →
    ∃ items, fsReaddir s path = some items ∧ items.Perm (scanDir s d) ∧
      (items.map Prod.fst).Nodup

theorem IndexInv.readdir (h : IndexInv d s) : ReaddirAgrees d s := by
  intro path hpath hdir
  obtain ⟨l, hl, hc⟩ := h.index (findFile_node hpath) hdir
  have hperm := hl.listDir_perm hc h.tree
  refine ⟨listDir s d, by rw [fsReaddir, hpath]; rfl, hperm, ?_⟩
  exact (hperm.map Prod.fst).nodup_iff.mpr (scanDir_names h.tree)

theorem components_one {c : UInt8} (hc : c ≠ slash) : absComponents [slash, c] = [[c]] :=
  pathComponents_name (by simp) (by simpa using hc.symm) (by simp)

/-- An entry below the root under one letter that is not listed. -/
theorem IndexInv.createOk (h : IndexInv mftRoot s) {c : UInt8} (hc : c ≠ slash)
    (hnew : ∀ x ∈ listDir s mftRoot, x.1 ≠ [c])
    (hroom : indexRoom s.mem (s.slot mftRoot) = true) : OpenSys.CreateOk mftRoot s [slash, c] := by
  obtain ⟨l, hl, hcomplete⟩ := h.index (.inl rfl) h.tree.root_dir
  have hsplit : splitPath [slash, c] = ([slash], [c]) := by
    simp [splitPath, lastSlash, hc.symm]
  have hroot : findFile s [slash] = some mftRoot := rfl
  refine ⟨(h.tree.findFile_eq_none rfl).mpr fun j hj => ?_, ⟨rfl, ?_, ?_, ?_, ?_⟩, fun _ => hroom⟩
  · rw [components_one hc, resolves_cons] at hj
    obtain ⟨i, hlive, hpar, hname, -⟩ := hj
    refine hnew (dirItem s (i, s.nameOf i)) ?_ hname
    rw [hl.listDir_eq h.tree.toFsEntries]
    exact mem_map_of_mem (hcomplete i hlive hpar)
  · simp [lastSlash, hc.symm]
  · rw [hsplit]
    simp
  · rw [hsplit]
    simp
  · rw [hsplit, hroot, Option.all_some]
    exact h.tree.root_dir

theorem Formatted.create_ok (h : Formatted s) :
    AllOk dirStep (DirCall.CreateOk mftRoot) s [.mkdir pathA] :=
  ⟨⟨h.findFile_none (by decide), h.newPath, fun _ =>
    (IndexOf.empty h.root.named h.index).room.mpr (by decide)⟩, fun _ _ => trivial⟩

/-- A directory lists exactly its children, as long as entries are created in it while its
    index has room. -/
theorem readdir_agrees_with_scan (s : Fs) (volumeSectors diskSize : Nat) (diskReady : Bool)
    (d : Nat) (calls : List DirCall)
    (hok : AllOk dirStep (DirCall.CreateOk d) (fsFormat s volumeSectors diskSize diskReady) calls) :
    Always dirStep (ReaddirAgrees d) (fsFormat s volumeSectors diskSize diskReady) calls :=
  (always_of_allOk (fun _ call h hcall => h.step call hcall)
    (fsFormat_formatted volumeSectors diskSize diskReady).indexInv hok).mono fun _ => IndexInv.readdir

theorem readdir_agrees_with_scan_mkdir :
    AllOk dirStep (DirCall.CreateOk mftRoot) (fsFormat emptyFs 0 (2048 * 512) true)
        [.mkdir pathA] ∧
      Always dirStep (ReaddirAgrees mftRoot) (fsFormat emptyFs 0 (2048 * 512) true)
        [.mkdir pathA] := by
  have hok := (fsFormat_formatted (s := emptyFs) 0 (2048 * 512) true).create_ok
  exact ⟨hok, readdir_agrees_with_scan _ _ _ _ _ _ hok⟩

/-- Twelve directories in the root, `/a` to `/l`. -/
def twelveDirs : List DirCall := (List.range 12).map fun k => .mkdir [slash, UInt8.ofNat (97 + k)]

/-- The twelfth directory is found by the linear search but not listed. -/
theorem readdir_misses_twelfth : ¬ Always dirStep (ReaddirAgrees mftRoot)
    (fsFormat emptyFs 0 (2048 * 512) true) twelveDirs := by
  intro h
  obtain ⟨s, hs, hagree⟩ := h.last
  have hlists : (run dirStep (fsFormat emptyFs 0 (2048 * 512) true) twelveDirs).all (fun s =>
      s.isDirectory mftRoot && decide (27 ∈ s.userSlots) &&
        scanItem s mftRoot 27 == some ([108], true, 0) &&
        decide (([108], true, 0) ∉ listDir s mftRoot)) = true := by decide +kernel
  rw [hs, Option.all_some] at hlists
  simp only [Bool.and_eq_true, decide_eq_true_eq, beq_iff_eq] at hlists
  obtain ⟨⟨⟨hdir, h27⟩, hscan⟩, hnot⟩ := hlists
  obtain ⟨items, hitems, hperm, -⟩ := hagree [slash] rfl hdir
  have hlist : listDir s mftRoot = items := Option.some.inj hitems
  exact hnot (hlist ▸ hperm.mem_iff.mpr (mem_filterMap.mpr ⟨27, h27, hscan⟩))

end CreationRuns

/-! ## Removing -/

section Remove

variable {s s' : Fs} {d i q : Nat} {name path old new : List UInt8} {x : Nat × List UInt8}
  {l pre post : List (Nat × List UInt8)}

theorem dropFromDir_index (h : IndexOf s.mem (s.slot d) (pre ++ x :: post))
    (hnodup : ((pre ++ x :: post).map Prod.fst).Nodup) :
    IndexSpan (dropFromDir s d x.1).mem (s.slot d) (pre ++ post).length (inReach pre post) := by
  refine h.remove fun y hy hyx => ?_
  rw [map_append, nodup_append] at hnodup
  exact hnodup.2.2 y.1 (mem_map_of_mem hy) x.1 (by simp) hyx

/-- What is left when the entry `i` between `pre` and `post` has gone from the directory `d`.
    It does not answer to a name that was taken, so the lookup of the others is not misled. -/
structure RemovalDone (s s' : Fs) (d i : Nat) (pre post : List (Nat × List UInt8)) : Prop where
  entries : FsEntries s'
  kept : HeadsKept s s' i
  away : ∀ p n c, n.length ≤ 254 → findChild s p n = some c → s'.isChild p n i = false
  index : IndexSpan s'.mem (s.slot d) (pre ++ post).length (inReach pre post)

theorem DirIndex.dropEntry (h : DirIndex s d (pre ++ x :: post)) (ht : FsTree s) :
    RemovalDone s (OpenSys.dropEntry s x.1).2 d x.1 pre post := by
  obtain ⟨hlive, hpar⟩ := h.child x (by simp)
  have hd : d ≠ x.1 := hpar ▸ ht.tree.parent_ne hlive
  have hn := ht.named _ (.inr hlive)
  have hlt := ht.node_lt h.node
  have hsize := ht.size_lt
  obtain ⟨hkept, hfree⟩ := ht.dropEntry_kept hlive
  refine ⟨hkept.fsEntries ht.toFsEntries (ht.tree.ne_root hlive) fun hl => ?_, hkept.toHeadsKept,
    fun p n c _ _ => by rw [Fs.isChild, hfree, Bool.false_and], ?_⟩
  · exact absurd hl.2 (by simp [hfree])
  have hdrop : dropIndex s x.1 = dropFromDir s d x.1 := by
    rw [dropIndex, hn.filename]
    dsimp only
    rw [← hn.parentOf, hpar, if_pos ⟨by rw [fsNone]; omega, hlt⟩]
  have hindex := dropFromDir_index h.index h.nodup
  have hslot : (dropFromDir s d x.1).slot d = s.slot d := rfl
  rw [dropEntry_eq, hdrop]
  generalize dropFromDir s d x.1 = s₁ at hindex hslot
  rw [← hslot] at hindex ⊢
  exact hindex.of_agree (slot_agree hd clear_frame fun _ => id)

/-- A rename to another directory, which may have no index or be the moved entry itself. -/
theorem DirIndex.moveOut (h : DirIndex s d (pre ++ x :: post)) (ht : FsTree s)
    (hf : RenameFound s old new x.1 q) (hqd : d ≠ q) :
    RemovalDone s (renamedIn s x.1 q (splitPath new).2) d x.1 pre post := by
  obtain ⟨hlive, hpar⟩ := h.child x (by simp)
  have hd : d ≠ x.1 := hpar ▸ ht.tree.parent_ne hlive
  have hq := findFile_node hf.parent
  have hlt := ht.node_lt hq
  have hsize := ht.size_lt
  have hren : Renamed s (renamed s x.1 q (splitPath new).2) x.1 q
      ((splitPath new).2.take maxFilenameLen) := renamed_spec (by omega)
  have hslot : (renamed s x.1 q (splitPath new).2).slot = s.slot := rfl
  rw [renamedIn, hpar, renameIndex_move hqd]
  generalize renamed s x.1 q (splitPath new).2 = s₁ at hren hslot ⊢
  have hnx : Named s₁.mem (s₁.slot x.1) := hslot ▸ hren.named (ht.named _ (.inr hlive))
  have hnq : Named s₁.mem (s₁.slot q) := by
    by_cases hqx : q = x.1
    · rwa [hqx]
    · exact hren.kept.named hqx (ht.named q hq)
  have h₁ : IndexOf s₁.mem (s₁.slot d) (pre ++ x :: post) := by
    rw [hslot]
    exact h.index.of_agree (slot_agree hd hren.frame (by omega))
  -- The record goes out of the index of `d`, which no other name depends on.
  have hdrop : ∀ k, HeadsKept s₁ (dropFromDir s₁ d x.1) k := fun _ =>
    .of_edit (p := d) rfl rfl (removeIndexEntry_edit h₁.named)
  have h₂ := dropFromDir_index h₁ h.nodup
  have hslot₂ : (dropFromDir s₁ d x.1).slot = s₁.slot := rfl
  generalize dropFromDir s₁ d x.1 = s₂ at hdrop h₂ hslot₂ ⊢
  have hedit : IndexEdit s₂.mem (addToDir s₂ q x.1 (splitPath new).2).mem (s₂.slot q) :=
    addDirEntry_edit ((hdrop d).named hqd.symm hnq)
  have hadd : ∀ k, HeadsKept s₂ (addToDir s₂ q x.1 (splitPath new).2) k := fun _ =>
    addToDir_heads ((hdrop d).named hqd.symm hnq)
  generalize addToDir s₂ q x.1 (splitPath new).2 = s' at hedit hadd ⊢
  have hkept : HeadsKept s₁ s' d := (hdrop d).trans (hadd d)
  have hn' : Named s'.mem (s'.slot x.1) := hkept.named hd.symm hnx
  have hparent : s'.parentOf x.1 = q := by
    rw [hkept.parentOf_eq hd.symm hnx, hnx.parentOf, hslot, hren.parent]
  have hname : s'.nameOf x.1 = (splitPath new).2.take maxFilenameLen := by
    rw [hkept.nameOf_eq hd.symm hnx, hnx.nameOf, hslot, hren.name]
  have hall : HeadsKept s s' x.1 :=
    hren.kept.toHeadsKept.trans ((hdrop x.1).trans (hadd x.1))
  refine ⟨hall.fsEntries ht.toFsEntries (ht.tree.ne_root hlive) fun _ => hn', hall,
    fun p n c hlen hc => ?_, ?_⟩
  · rw [Bool.eq_false_iff]
    intro hchild
    obtain ⟨-, rfl, rfl⟩ := hn'.isChild.mp hchild
    rw [hparent, hname] at hc
    rw [hname, length_take, maxFilenameLen] at hlen
    have hshort : (splitPath new).2.length ≤ 254 := by omega
    have htake : (splitPath new).2.take maxFilenameLen = (splitPath new).2 :=
      take_of_length_le (hshort.trans (by decide))
    rw [htake, ht.findChild_eq_some hq] at hc
    exact ht.fresh hf.new_abs hf.name hshort hf.free hf.parent c hc.1 hc.2.1 hc.2.2
  · rw [hslot₂, hslot] at hedit
    rw [hslot] at h₂
    exact h₂.of_agree (slot_agree hqd hedit.frame (by omega))

/-- The entry `i` of the directory `d` is deleted, or moved to another parent. -/
inductive Removal (s : Fs) (d i : Nat) (s' : Fs) : Prop
  | unlink {path : List UInt8} : findFile s path = some i → fsUnlink s path = (0, s') →
      Removal s d i s'
  | rmdir {path : List UInt8} : findFile s path = some i → fsRmdir s path = (0, s') →
      Removal s d i s'
  | rename {old new : List UInt8} : findFile s old = some i →
      findFile s (splitPath new).1 ≠ some d → fsRename s old new = some (0, s') → Removal s d i s'

theorem DirIndex.of_eq (h : DirIndex s d l) (hboot : s'.boot = s.boot)
    (hzone : s'.mftZone = s.mftZone) (hmem : s'.mem = s.mem) : DirIndex s' d l := by
  obtain ⟨boot, mem, zone⟩ := s
  obtain ⟨boot', mem', zone'⟩ := s'
  dsimp only at hboot hzone hmem
  subst hboot hzone hmem
  exact ⟨h.node, h.dir, h.index, h.nodup, h.child⟩

theorem DirIndex.removal (h : DirIndex s d (pre ++ x :: post)) (ht : FsTree s)
    (hr : Removal s d x.1 s') : RemovalDone s s' d x.1 pre post := by
  cases hr with
  | @unlink path hfind hcall =>
    rcases ht.fsUnlink_cases path with heq | ⟨i, hi, -, -, heq⟩
    · rw [hcall] at heq
      cases heq
    obtain ⟨b, hb⟩ := unlinkData_eq (s := s) (i := i)
    obtain rfl : x.1 = i := Option.some.inj (hfind.symm.trans hi.target)
    have ht' : FsTree { s with bitmap := b } := ht.of_eq rfl rfl rfl
    have h' : DirIndex { s with bitmap := b } d (pre ++ x :: post) := h.of_eq rfl rfl rfl
    have hdone := h'.dropEntry ht'
    rw [← hb, ← heq, hcall] at hdone
    rw [hb] at hdone
    exact ⟨hdone.entries, ⟨hdone.kept.boot, hdone.kept.zone, hdone.kept.flags, hdone.kept.head⟩,
      hdone.away, hdone.index⟩
  | @rmdir path hfind hcall =>
    have hne : findFile s path ≠ some mftRoot := by
      rw [hfind]
      exact fun heq => ht.tree.ne_root (h.child x (by simp)).1 (Option.some.inj heq)
    rcases ht.fsRmdir_cases hne with heq | ⟨i, hi, heq⟩
    · rw [hcall] at heq
      cases heq
    obtain rfl : x.1 = i := Option.some.inj (hfind.symm.trans hi.target)
    have hdone := h.dropEntry ht
    rwa [← heq, hcall] at hdone
  | @rename old new hfind hout hcall =>
    have hshort : lastSlash new ≤ 254 := fsRename_short hcall
    rcases ht.fsRename_cases old hshort with heq | ⟨i, q, hf, heq⟩
    · rw [hcall] at heq
      cases heq
    obtain rfl : x.1 = i := Option.some.inj (hfind.symm.trans hf.target)
    have hdone := h.moveOut ht hf fun heq => hout (heq ▸ hf.parent)
    rw [hcall] at heq
    rwa [← (Prod.mk.inj (Option.some.inj heq)).2] at hdone

theorem DirIndex.other (hl : DirIndex s d (pre ++ x :: post)) {y : Nat × List UInt8}
    (hy : y ∈ pre ++ post) : y.1 ≠ x.1 ∧ y ∈ pre ++ x :: post := by
  have hperm : (pre ++ x :: post).Perm (x :: (pre ++ post)) := perm_middle
  have hnodup := (hperm.map Prod.fst).nodup_iff.mp hl.nodup
  rw [map_cons, nodup_cons] at hnodup
  exact ⟨fun heq => hnodup.1 (heq ▸ mem_map_of_mem hy), hperm.mem_iff.mpr (mem_cons_of_mem _ hy)⟩

namespace RemovalDone

variable (h : RemovalDone s s' d x.1 pre post) (ht : FsTree s) (hl : DirIndex s d (pre ++ x :: post))

include h ht hl

/-- The path of the directory does not lead through one of its entries, so it stays. -/
theorem findFile_eq (hpath : findFile s path = some d) : findFile s' path = some d := by
  obtain ⟨hlive, hpar⟩ := hl.child x (by simp)
  refine findFile_kept (fun p => s.node p ∧ p ≠ x.1) (fun p n c ns hp hn hc hrest => ?_)
    ⟨.inl rfl, (ht.tree.ne_root hlive).symm⟩ hpath
  obtain ⟨hclive, -, -⟩ := (ht.findChild_eq_some hp.1).mp hc
  have hcx : c ≠ x.1 := by
    rintro rfl
    obtain ⟨-, hres⟩ := ht.findFile_eq_some.mp hpath
    have hbelow := (ht.foldlM_findChild (.inr hlive)).mp hrest
    have hchild : Resolves s.forest mftRoot (absComponents path ++ [s.nameOf x.1]) x.1 :=
      resolves_concat.mpr ⟨by rwa [show s.forest.parent x.1 = d from hpar], hlive, rfl⟩
    have hlen := congrArg length
      (ht.tree.path_unique hres (resolves_append.mpr ⟨_, hchild, hbelow⟩))
    simp only [length_append, length_singleton] at hlen
    omega
  exact ⟨h.kept.findChild_eq ht.toFsEntries h.entries hp.1 hp.2 hcx (h.away p n c hn hc) hc,
    .inr hclive, hcx⟩

theorem items_eq {l' : List (Nat × List UInt8)} (hsub : l' <+ pre ++ post) :
    l'.map (dirItem s') = l'.map (dirItem s) := by
  refine map_congr_left fun y hy => ?_
  obtain ⟨hne, hmem⟩ := hl.other (hsub.mem hy)
  exact h.kept.dirItem_eq hne (ht.named _ (.inr (hl.child y hmem).1))

/-- `fs_readdir` reports the records in reach. -/
theorem readdir (hpath : findFile s path = some d) :
    fsReaddir s' path = some ((inReach pre post).map (dirItem s)) := by
  have hlist := h.kept.slot_eq d ▸ h.index
  rw [fsReaddir, h.findFile_eq ht hl hpath, Option.map_some, hlist.listDir_eq h.entries,
    h.items_eq ht hl inReach_sublist]
  · intro hnil
    rw [inReach] at hnil
    split_ifs at hnil with hpre
    · rw [hpre, hnil]
      rfl
    · exact absurd hnil hpre
  · intro y hy
    obtain ⟨hne, hmem⟩ := hl.other (inReach_sublist.mem hy)
    exact (h.kept.live_iff hne).mpr (hl.child y hmem).1

/-- The first or the last record has gone. -/
theorem dirIndex (hend : pre = [] ∨ post = []) : DirIndex s' d (pre ++ post) := by
  obtain ⟨hlive, hpar⟩ := hl.child x (by simp)
  have hindex := h.index
  rw [inReach_eq_iff.mpr hend] at hindex
  refine hl.kept ht.toFsEntries h.kept (hpar ▸ ht.tree.parent_ne hlive) hindex ?_
    (fun y hy _ => (hl.other hy).2) fun y hy heq => absurd heq (hl.other hy).1
  exact hl.nodup.sublist (((sublist_cons_self x post).append_left pre).map Prod.fst)

end RemovalDone

/-- The items of entries in `d` that are in use in `t'` but were not in `t`. -/
def newItems (d : Nat) (t t' : Fs) : List DirItem :=
  ((t'.children d).filter fun i => !t.inUse i).map fun i => dirItem t' (i, t'.nameOf i)

theorem DirIndex.newItems_create (h : DirIndex s d l) (ht : FsEntries s) {p flags : Nat}
    (hf : Fits s i p name) (hflags : flags = 0 ∨ flags = mftFlagDirectory)
    (hs' : CreateDone s s' i flags p name)
    (hl : DirIndex s' d (if p = d then l ++ [(i, name)] else l)) (ht' : FsEntries s') :
    listDir s' d = listDir s d ++ newItems d s s' := by
  have hold : l.map (dirItem s') = l.map (dirItem s) := by
    refine map_congr_left fun x hx => ?_
    obtain ⟨hlive, -⟩ := h.child x hx
    refine hs'.kept.dirItem_eq ?_ (ht.named _ (.inr hlive))
    rintro rfl
    exact absurd hlive.2 (by simp [hf.free])
  -- The new entry is the only one that was not in use before.
  have hnew : (s'.children d).filter (fun j => !s.inUse j) = if p = d then [i] else [] := by
    have hone : ∀ j ∈ s'.userSlots, (!s.inUse j && (s'.inUse j && s'.parentOf j == d)) =
        (p == d && j == i) := by
      intro j hj
      by_cases hji : j = i
      · subst hji
        rw [(hs'.live hf hflags).2, hs'.parentOf, hf.free]
        simp
      · rw [hs'.kept.inUse_eq hji]
        cases s.inUse j <;> simp [hji]
    rw [Fs.children, filter_filter, filter_congr hone]
    split_ifs with hpd
    · have hmem : i ∈ s'.userSlots := (hs'.live hf hflags).1
      have hcount : s'.userSlots.count i = 1 := count_eq_one_of_mem (nodup_range' ..) hmem
      simp only [hpd, BEq.rfl, Bool.true_and]
      rw [filter_beq, hcount, replicate_one]
    · simp [hpd]
  rw [hl.listDir_eq ht', h.listDir_eq ht, newItems, hnew]
  split_ifs with hpd
  · rw [map_append, hold, map_singleton, map_singleton, hs'.nameOf]
  · rw [hold, map_nil, append_nil]

/-- The path `path` leads to the directory `d` and its index. -/
structure DirInv (d : Nat) (path : List UInt8) (s : Fs) : Prop where
  entries : FsEntries s
  path : findFile s path = some d
  index : ∃ l, DirIndex s d l

theorem newItems_self : newItems d s s = [] := by
  rw [newItems, map_eq_nil_iff, filter_eq_nil_iff]
  intro i hi
  simp [(mem_children.mp hi).1.2]

/-- A new entry does not stand in for one that is there. -/
theorem CreateDone.findFile_eq {p flags : Nat} (h : CreateDone s s' i flags p name)
    (ht : FsEntries s) (ht' : FsEntries s') (hf : Fits s i p name)
    (hpath : findFile s path = some d) : findFile s' path = some d := by
  have hlive : ∀ j, s.node j → j ≠ i := by
    rintro j hj rfl
    exact absurd (ht.node_inUse hj) (by simp [hf.free])
  refine findFile_kept s.node (fun p' n c ns hp _ hc _ => ?_) (.inl rfl) hpath
  have hcnode : s.node c := by
    rw [ht.findChild_eq hp] at hc
    have hmem := mem_of_find?_eq_some hc
    exact .inr ⟨hmem, ((ht.isChild_iff hmem).mp (find?_some hc)).1⟩
  refine ⟨h.kept.findChild_eq ht ht' hp (hlive _ hp) (hlive _ hcnode) ?_ hc, hcnode⟩
  rw [Bool.eq_false_iff]
  intro hchild
  obtain ⟨-, rfl, rfl⟩ := (ht'.isChild_iff (h.kept.userSlots_eq ▸ hf.user)).mp hchild
  rw [h.parentOf, h.nameOf, (ht.findChild_eq_none hf.node).mpr hf.fresh] at hc
  cases hc

theorem DirInv.create (h : DirInv d path s) {p flags : Nat} (hf : Fits s i p name)
    (hflags : flags = 0 ∨ flags = mftFlagDirectory)
    (hroom : p = d → indexRoom s.mem (s.slot d) = true) {s₁ : Fs}
    (hs₁ : s₁ = createEntry s i p flags name) (hboot : s'.boot = s₁.boot)
    (hzone : s'.mftZone = s₁.mftZone) (hmem : s'.mem = s₁.mem) :
    fsReaddir s' path = (fsReaddir s path).map (· ++ newItems d s s') ∧ DirInv d path s' := by
  obtain ⟨l, hl⟩ := h.index
  have hdone := h.entries.create_done hf hflags
  have hindex := hl.create hf h.entries hflags fun hpd => hl.index.room.mp (hroom hpd)
  rw [← hs₁] at hdone hindex
  replace hdone := hdone.of_eq hboot hzone hmem
  replace hindex := hindex.of_eq hboot hzone hmem
  have hentries : FsEntries s' :=
    hdone.kept.fsEntries h.entries (FsTree.firstUser_ne_root hf.user) fun _ => hdone.new.named
  have hpath := hdone.findFile_eq h.entries hentries hf h.path
  refine ⟨?_, hentries, hpath, _, hindex⟩
  rw [fsReaddir, fsReaddir, hpath, h.path, Option.map_some, Option.map_some, Option.map_some,
    hl.newItems_create h.entries hf hflags hdone hindex hentries]

theorem DirInv.step (h : DirInv d path s) (call : DirCall) (hok : call.CreateOk d s) :
    ∃ s', dirStep s call = some s' ∧
      fsReaddir s' path = (fsReaddir s path).map (· ++ newItems d s s') ∧ DirInv d path s' := by
  obtain ⟨s', hstep, rfl | ⟨new, i, p, flags, s₁, hnew, hc, hflags, hs₁, hs'⟩⟩ :=
    DirCall.create_cases hok
  · refine ⟨s', hstep, ?_, h⟩
    rw [newItems_self]
    simp
  have hroom : p = d → indexRoom s.mem (s.slot d) = true := fun hpd => hnew.room (hpd ▸ hc.parent)
  refine ⟨s', hstep, ?_⟩
  rcases hs' with rfl | rfl
  · exact h.create (h.entries.fits hc) hflags hroom hs₁ rfl rfl rfl
  · exact h.create (h.entries.fits hc) hflags hroom hs₁ rfl rfl rfl

/-- `fs_readdir` reports the items, the index has room for one more, and whatever is
    created in the directory later is listed behind them. -/
structure ListedAfter (d : Nat) (path : List UInt8) (items : List DirItem) (s : Fs) : Prop where
  readdir : fsReaddir s path = some items
  room : indexRoom s.mem (s.slot d) = true
  created : ∀ calls, AllOk dirStep (DirCall.CreateOk d) s calls → Steps dirStep
    (fun t t' => fsReaddir t' path = (fsReaddir t path).map (· ++ newItems d t t')) s calls

/-- An entry of a directory is deleted or moved to another parent. The others stay listed in
    their order, with later creations behind them, exactly when it was the first or the
    last one; otherwise the listing ends with the entry before it. -/
theorem readdir_after_removal (ht : FsTree s) (hpath : findFile s path = some d)
    (hl : DirIndex s d (pre ++ x :: post)) (hr : Removal s d x.1 s') :
    fsReaddir s path = some ((pre ++ x :: post).map (dirItem s)) ∧
      fsReaddir s' path = some ((inReach pre post).map (dirItem s)) ∧
      (ListedAfter d path ((pre ++ post).map (dirItem s)) s' ↔ pre = [] ∨ post = []) := by
  have hdone := hl.removal ht hr
  have hread := hdone.readdir ht hl hpath
  refine ⟨by rw [fsReaddir, hpath, Option.map_some, hl.listDir_eq ht.toFsEntries], hread,
    fun hlist => ?_, fun hend => ?_⟩
  · have hlen := congrArg length (Option.some.inj (hread.symm.trans hlist.readdir))
    rw [length_map, length_map] at hlen
    exact inReach_eq_iff.mp (inReach_sublist.eq_of_length hlen)
  · have hindex := hdone.dirIndex ht hl hend
    have hcap := hl.index.cap
    rw [length_append, length_cons] at hcap
    refine ⟨by rw [hread, inReach_eq_iff.mpr hend], hindex.index.room.mpr ?_, fun calls hok => ?_⟩
    · rw [length_append]
      omega
    · exact steps_of_allOk (fun _ call h hcall => h.step call hcall)
        (⟨hdone.entries, hdone.findFile_eq ht hl hpath, _, hindex⟩ : DirInv d path s') hok

/-- What the three directories `/a`, `/b` and `/c` are listed as. -/
def threeItems : List DirItem := [([97], true, 0), ([98], true, 0), ([99], true, 0)]

/-- The root after `/a`, `/b` and `/c` have been made. -/
theorem threeDirs_index : ∃ s x y z,
    run dirStep (fsFormat emptyFs 0 (2048 * 512) true) (twelveDirs.take 3) = some s ∧ FsTree s ∧
      DirIndex s mftRoot [x, y, z] ∧ [x, y, z].map (dirItem s) = threeItems ∧
      findFile s [slash, 97] = some x.1 ∧ (fsRmdir s [slash, 97]).1 = 0 ∧
      findFile s [slash, 98] = some y.1 ∧ (fsRmdir s [slash, 98]).1 = 0 := by
  have hnew : ∀ k < 3, (run dirStep (fsFormat emptyFs 0 (2048 * 512) true) (twelveDirs.take k)).all
      (fun s => ((listDir s mftRoot).all fun x => x.1 != [UInt8.ofNat (97 + k)]) &&
        indexRoom s.mem (s.slot mftRoot)) = true := by decide +kernel
  have hev : (run dirStep (fsFormat emptyFs 0 (2048 * 512) true) (twelveDirs.take 3)).all (fun s =>
      listDir s mftRoot == threeItems && (fsRmdir s [slash, 97]).1 == 0 &&
        (fsRmdir s [slash, 98]).1 == 0) = true := by decide +kernel
  have hfmt := fsFormat_formatted (s := emptyFs) 0 (2048 * 512) true
  generalize fsFormat emptyFs 0 (2048 * 512) true = f at hfmt hnew hev ⊢
  have htake : ∀ k < 3, UInt8.ofNat (97 + k) ≠ slash ∧ twelveDirs.take (k + 1) =
      twelveDirs.take k ++ [.mkdir [slash, UInt8.ofNat (97 + k)]] := by
    rintro (_ | _ | _ | k) hk
    · exact ⟨by decide, rfl⟩
    · exact ⟨by decide, rfl⟩
    · exact ⟨by decide, rfl⟩
    · omega
  have hrun : ∀ k ≤ 3, ∃ s, run dirStep f (twelveDirs.take k) = some s ∧ IndexInv mftRoot s := by
    intro k hk
    induction k with
    | zero => exact ⟨f, rfl, hfmt.indexInv⟩
    | succ k ih =>
      obtain ⟨s, hs, hinv⟩ := ih (by omega)
      have hk' := hnew k (by omega)
      rw [hs, Option.all_some, Bool.and_eq_true, all_eq_true] at hk'
      obtain ⟨hslash, hlast⟩ := htake k (by omega)
      obtain ⟨s', hs', hinv'⟩ := hinv.step (.mkdir [slash, UInt8.ofNat (97 + k)])
        (hinv.createOk hslash (fun x hx => by simpa using hk'.1 x hx) hk'.2)
      exact ⟨s', by rw [hlast, run_append, hs, Option.bind_some, run_cons, hs']; rfl, hinv'⟩
  obtain ⟨s, hs, hinv⟩ := hrun 3 le_rfl
  rw [hs, Option.all_some] at hev
  simp only [Bool.and_eq_true, beq_iff_eq] at hev
  obtain ⟨⟨hlist, ha⟩, hb⟩ := hev
  obtain ⟨l, hl, hc⟩ := hinv.index (.inl rfl) hinv.tree.root_dir
  have hmap : l.map (dirItem s) = threeItems := (hl.listDir_eq hinv.tree.toFsEntries).symm.trans hlist
  obtain ⟨x, y, z, rfl⟩ := length_eq_three.mp ((length_map _).symm.trans (congrArg length hmap))
  -- The records have the names of the entries, by which the lookup finds them.
  have hfind : ∀ w ∈ [x, y, z], ∀ c, c ≠ slash → w.2 = [c] → findFile s [slash, c] = some w.1 := by
    intro w hw c hslash hone
    obtain ⟨hlive, hpar, hname⟩ := (hl.mem_iff hc).mp hw
    refine hinv.tree.findFile_eq_some.mpr ⟨rfl, ?_⟩
    rw [components_one hslash]
    exact resolves_cons.mpr ⟨w.1, hlive, hpar, hname.trans hone, .nil⟩
  obtain ⟨hx, hrest⟩ := List.cons.inj hmap
  have hy := (List.cons.inj hrest).1
  exact ⟨s, x, y, z, hs, hinv.tree, hl, hmap,
    hfind x (by simp) 97 (by decide) (congrArg Prod.fst hx), ha,
    hfind y (by simp) 98 (by decide) (congrArg Prod.fst hy), hb⟩

/-- The first of the three directories is removed. -/
theorem readdir_after_removal_first : ∃ s s',
    run dirStep (fsFormat emptyFs 0 (2048 * 512) true) (twelveDirs.take 3) = some s ∧
      fsReaddir s [slash] = some threeItems ∧ fsRmdir s [slash, 97] = (0, s') ∧
      ListedAfter mftRoot [slash] [([98], true, 0), ([99], true, 0)] s' := by
  obtain ⟨s, x, y, z, hs, ht, hl, hmap, hfind, hzero, -, -⟩ := threeDirs_index
  have hl' : DirIndex s mftRoot ([] ++ x :: [y, z]) := hl
  have hroot : findFile s [slash] = some mftRoot := rfl
  obtain ⟨hlist, -, hiff⟩ := readdir_after_removal ht hroot hl' (.rmdir hfind (Prod.ext hzero rfl))
  have hafter := hiff.mpr (.inl rfl)
  rw [nil_append, hmap] at hlist
  rw [nil_append, (List.cons.inj hmap).2] at hafter
  exact ⟨s, _, hs, hlist, Prod.ext hzero rfl, hafter⟩

/-- When the second one is removed, the third is not listed any more. -/
theorem readdir_after_middle_removal : ∃ s s',
    run dirStep (fsFormat emptyFs 0 (2048 * 512) true) (twelveDirs.take 3) = some s ∧
      fsReaddir s [slash] = some threeItems ∧ fsRmdir s [slash, 98] = (0, s') ∧
      fsReaddir s' [slash] = some [([97], true, 0)] := by
  obtain ⟨s, x, y, z, hs, ht, hl, hmap, -, -, hfind, hzero⟩ := threeDirs_index
  have hl' : DirIndex s mftRoot ([x] ++ y :: [z]) := hl
  have hroot : findFile s [slash] = some mftRoot := rfl
  have hdone := hl'.removal ht (.rmdir hfind (Prod.ext hzero rfl))
  have hlist : fsReaddir s [slash] = some threeItems := by
    rw [fsReaddir, hroot, Option.map_some, hl.listDir_eq ht.toFsEntries, hmap]
  refine ⟨s, _, hs, hlist, Prod.ext hzero rfl, ?_⟩
  rw [hdone.readdir ht hl' hroot]
  exact congrArg some (congrArg (·.take 1) hmap)

end Remove

end OpenSys
