-- SUMMARY: Which clusters the files own.
import OpenSys.Fs.File

/-!
# Clusters of files

`alloc_cluster` takes the first clear bit of the bitmap, and nothing marks the clusters
that hold the MFT itself. Apart from that the bitmap and the runs of the files agree: a
conversion marks what it takes, and `fs_unlink` frees what the file names. A conversion
does not look whether its runs fit into the entry or whether there are enough clusters.
-/

namespace OpenSys

open OpenSys.Tree Run List Fs

variable {s s' : Fs} {i j p : Nat} {cs : List Nat} {name path : List UInt8}

/-! ## Files and their clusters -/

/-- An entry in use that is no directory. -/
def Fs.isFile (s : Fs) (i : Nat) : Prop := s.forest.live i ∧ s.isDirectory i = false

/-- The clusters that the runs of an entry name. -/
def Fs.clustersOf (s : Fs) (i : Nat) : List Nat := dataClusters s.mem (s.slot i)

/-- A cluster that holds an entry of the MFT. -/
def Fs.mftCluster (s : Fs) (c : Nat) : Prop :=
  s.boot.mftStart ≤ c ∧ c < s.boot.mftStart + s.boot.mftSize

/-- The clusters `cs` of entry `i` are proper data clusters, and no other file names them. -/
structure Owns (s : Fs) (i : Nat) (cs : List Nat) : Prop where
  nodup : cs.Nodup
  below : ∀ c ∈ cs, c < s.boot.totalClusters
  outside : ∀ c ∈ cs, ¬ s.mftCluster c
  apart : ∀ j, j ≠ i → s.isFile j → cs.Disjoint (s.clustersOf j)

/-- Every file has one of the shapes, and its clusters to itself. -/
structure FilesOk (s : Fs) : Prop where
  tree : FsTree s
  total : s.boot.totalClusters ≤ 2 ^ 64
  shape : ∀ i, s.isFile i → FileShape s.mem (s.slot i) (s.clustersOf i)
  owns : ∀ i, s.isFile i → Owns s i (s.clustersOf i)

theorem Owns.nil : Owns s i [] :=
  ⟨nodup_nil, fun _ hc => absurd hc not_mem_nil, fun _ hc => absurd hc not_mem_nil,
    fun _ _ _ => disjoint_nil_left _⟩

theorem EntriesKept.isFile_iff (hk : EntriesKept s s' i) (hj : j ≠ i) :
    s'.isFile j ↔ s.isFile j := by
  rw [isFile, isFile, hk.live_iff hj, hk.isDirectory_eq hj]

/-- An entry that a call leaves alone names the same clusters. -/
theorem FilesOk.shape_kept (h : FilesOk s) (hk : EntriesKept s s' i) (hj : j ≠ i)
    (hf : s.isFile j) : FileShape s'.mem (s'.slot j) (s.clustersOf j) := by
  rw [hk.slot_eq]
  exact (h.shape j hf).of_agree (hk.file j hj hf.2)

theorem FilesOk.clustersOf_kept (h : FilesOk s) (hk : EntriesKept s s' i) (hj : j ≠ i)
    (hf : s.isFile j) : s'.clustersOf j = s.clustersOf j :=
  (h.shape_kept hk hj hf).dataClusters_eq (hk.named hj (h.tree.named j (.inr hf.1)))

/-- A call that leaves all files but `i` alone, and `i` with clusters of its own. -/
theorem FilesOk.update (h : FilesOk s) (ht : FsTree s') (hk : EntriesKept s s' i)
    (hi : s'.isFile i → ∃ cs, FileShape s'.mem (s.slot i) cs ∧ Owns s i cs) : FilesOk s' := by
  have hown : s'.isFile i → FileShape s'.mem (s'.slot i) (s'.clustersOf i) ∧
      Owns s i (s'.clustersOf i) := by
    intro hf
    obtain ⟨cs, hshape, howns⟩ := hi hf
    rw [← hk.slot_eq] at hshape
    rw [show s'.clustersOf i = cs from hshape.dataClusters_eq (ht.named i (.inr hf.1))]
    exact ⟨hshape, howns⟩
  have hold : ∀ j, j ≠ i → s'.isFile j → s.isFile j ∧ s'.clustersOf j = s.clustersOf j := by
    intro j hj hf
    have hf' := (hk.isFile_iff hj).mp hf
    exact ⟨hf', h.clustersOf_kept hk hj hf'⟩
  have hmft : ∀ c, s'.mftCluster c ↔ s.mftCluster c := fun c => by
    rw [mftCluster, mftCluster, hk.boot]
  refine ⟨ht, hk.boot ▸ h.total, fun j hf => ?_, fun j hf => ?_⟩
  · by_cases hj : j = i
    · subst hj
      exact (hown hf).1
    · obtain ⟨hf', heq⟩ := hold j hj hf
      rw [heq]
      exact h.shape_kept hk hj hf'
  by_cases hj : j = i
  · subst hj
    have ho := (hown hf).2
    refine ⟨ho.nodup, hk.boot ▸ ho.below, fun c hc => (hmft c).not.mpr (ho.outside c hc),
      fun k hk' hfk => ?_⟩
    obtain ⟨hfk', heq⟩ := hold k hk' hfk
    rw [heq]
    exact ho.apart k hk' hfk'
  · obtain ⟨hf', heq⟩ := hold j hj hf
    have ho := h.owns j hf'
    rw [heq]
    refine ⟨ho.nodup, hk.boot ▸ ho.below, fun c hc => (hmft c).not.mpr (ho.outside c hc),
      fun k hkj hfk => ?_⟩
    by_cases hki : k = i
    · subst hki
      exact ((hown hfk).2.apart j hj hf').symm
    · obtain ⟨hfk', heqk⟩ := hold k hki hfk
      rw [heqk]
      exact ho.apart k hkj hfk'

/-! ## Calls on directories -/

/-- From `s` to `s'` the data of no file changes: `i` is new or keeps its data attribute,
    and only clusters of a removed `i` leave the bitmap. -/
structure DataKept (s s' : Fs) (i : Nat) : Prop where
  kept : EntriesKept s s' i
  data : s'.isFile i → mftUsedSize s'.mem (s.slot i) = 369 ∨ s.isFile i ∧
    mftUsedSize s'.mem (s.slot i) = mftUsedSize s.mem (s.slot i) ∧
    Mem.Agree s.mem s'.mem (s.slot i + 361) 3735
  marks : ∀ c, s'.bitmap.get c = s.bitmap.get c ∨
    c ∈ s.clustersOf i ∧ s.isFile i ∧ ¬ s'.isFile i

theorem DataKept.refl (s : Fs) (i : Nat) : DataKept s s i where
  kept := .refl rfl rfl rfl
  data := fun hf => .inr ⟨hf, rfl, .refl _ _ _⟩
  marks := fun _ => .inl rfl

theorem FilesOk.dataKept (h : FilesOk s) (ht : FsTree s') (hd : DataKept s s' i) : FilesOk s' := by
  refine h.update ht hd.kept fun hf => ?_
  rcases hd.data hf with hnew | ⟨hf', hused, hagree⟩
  · exact ⟨[], .fresh hnew, .nil⟩
  · exact ⟨_, (h.shape i hf').congr hused hagree, h.owns i hf'⟩

theorem createEntry_bitmap {flags : Nat} : (createEntry s i p flags name).bitmap = s.bitmap := by
  rw [createEntry]
  dsimp only
  split_ifs <;> rfl

theorem dropIndex_bitmap : (dropIndex s i).bitmap = s.bitmap := by
  unfold dropIndex
  split
  · rfl
  · dsimp only
    split_ifs <;> rfl

theorem renameIndex_bitmap {op np : Nat} : (renameIndex s i op np name).bitmap = s.bitmap := by
  unfold renameIndex
  split_ifs
  · split <;> rfl
  · dsimp only
    split_ifs <;> rfl

/-- A new entry, in a state that differs from the one behind `createEntry` on the disk
    only. -/
theorem FsTree.create_dataKept (h : FsTree s) {flags : Nat} (hf : Fits s i p name)
    (hflags : flags = 0 ∨ flags = mftFlagDirectory) {s₁ : Fs}
    (hs₁ : s₁ = createEntry s i p flags name) (hboot : s'.boot = s₁.boot)
    (hzone : s'.mftZone = s₁.mftZone) (hmem : s'.mem = s₁.mem) (hbitmap : s'.bitmap = s₁.bitmap) :
    DataKept s s' i := by
  have hd : CreateDone s s' i flags p name :=
    (hs₁ ▸ h.create_done hf hflags : CreateDone s s₁ i flags p name).of_eq hboot hzone hmem
  refine ⟨hd.kept, fun hfile => .inl ?_, fun c => .inl ?_⟩
  · rcases hflags with rfl | rfl
    · rw [← hd.kept.slot_eq]
      exact hd.used rfl
    · have hdir := hfile.2
      rw [isDirectory, mftIsDirectory, hd.new.flags] at hdir
      cases hdir
  · rw [hbitmap, hs₁, createEntry_bitmap]

variable {c n k mode : Nat} {l : List FsFile} {v : Fs}

theorem freeCluster_get {a : Nat} (ha : a ≠ c) :
    (freeCluster s a).bitmap.get c = s.bitmap.get c := by
  rw [freeCluster]
  split_ifs
  · rw [Bitmap.get_clear, decide_eq_false ha.symm, Bool.not_false, Bool.true_and]
  · rfl

theorem freeFold_get {runs t : Nat} {l : List Nat}
    (hc : ∀ d ∈ l, u64 (runStart s.mem runs t + d) ≠ c) :
    (l.foldl (fun s j => freeCluster s (u64 (runStart s.mem runs t + j))) s).bitmap.get c =
      s.bitmap.get c := by
  induction l generalizing s with
  | nil => rfl
  | cons d l ih =>
    have hmem : (freeCluster s (u64 (runStart s.mem runs t + d))).mem = s.mem := by
      rw [freeCluster]
      split_ifs <;> rfl
    have hrest : ∀ d' ∈ l, u64 (runStart (freeCluster s (u64 (runStart s.mem runs t + d))).mem runs t
        + d') ≠ c := fun d' hd' => by
      rw [hmem]
      exact hc d' (mem_cons_of_mem _ hd')
    rw [foldl_cons, ih hrest, freeCluster_get (hc d mem_cons_self)]

/-- The loop of `fs_unlink` clears no bit but those of the clusters of its runs. -/
theorem freeRuns_get {runs : Nat} (hc : ∀ t, n ≤ t → t < n + k →
    ∀ d < runLength s.mem runs t, u64 (runStart s.mem runs t + d) ≠ c) :
    (freeRuns s runs n k).bitmap.get c = s.bitmap.get c := by
  induction k generalizing s n with
  | zero => rfl
  | succ k ih =>
    rw [freeRuns]
    split_ifs
    · rfl
    dsimp only
    have hone := freeFold_get (s := s) (l := List.range (runLength s.mem runs n)) fun d hd =>
      hc n le_rfl (by omega) d (mem_range.mp hd)
    obtain ⟨b, hb⟩ := freeFold_eq (s := s) (List.range (runLength s.mem runs n))
    rw [hb] at hone ⊢
    exact (ih (s := { s with bitmap := b }) fun t ht htk => hc t (by omega) (by omega)).trans hone

/-- `fs_unlink` frees clusters of the file only. -/
theorem FilesOk.unlinkData_get (h : FilesOk s) (hf : s.isFile i) (hc : c ∉ s.clustersOf i) :
    (unlinkData s i).bitmap.get c = s.bitmap.get c := by
  have hn := h.tree.named i (.inr hf.1)
  have hbelow := (h.owns i hf).below
  have htotal := h.total
  have hshape := h.shape i hf
  generalize s.clustersOf i = cs at hc hshape hbelow
  cases hshape with
  | fresh hused => rw [unlinkData, findAttr_fresh hn hused (by decide)]
  | resident hres =>
    rw [unlinkData, hres.findAttr hn]
    exact congrArg (fun s : Fs => s.bitmap.get c) (if_pos hres.nonResident)
  | runs hruns =>
    rw [unlinkData, hruns.findAttr hn]
    dsimp only
    rw [if_neg hruns.nonResident]
    have hnr : s.slot i + 361 + attrHeaderSize = s.slot i + 377 := rfl
    have hcount : unlinkRunCount s.mem (s.slot i + 361) (s.slot i + 377) ≤ cs.length := by
      rw [unlinkRunCount, hruns.short.runCount]
      split_ifs with hless
      · exact hless.2.le
      · exact le_rfl
    rw [hnr, hruns.offset]
    refine freeRuns_get fun t _ ht d hd heq => hc ?_
    rw [Nat.zero_add] at ht
    have htk : t < cs.length := ht.trans_le hcount
    obtain ⟨hstart, hlen⟩ := hruns.run t htk
    have hd0 : d = 0 := Nat.lt_one_iff.mp (hlen ▸ hd)
    have hmem : cs[t] ∈ cs := getElem_mem htk
    rw [hd0, hstart, Nat.add_zero, u64_of_lt ((hbelow _ hmem).trans_le htotal)] at heq
    exact heq ▸ hmem

theorem FsTree.rename_dataKept (h : FsTree s) {old new : List UInt8} {q : Nat}
    (hf : RenameFound s old new i q) (hok : RenameOk s old new) :
    DataKept s (renamedIn s i q (splitPath new).2) i := by
  have hd := h.rename_found hf hok
  have hmarks : (renamedIn s i q (splitPath new).2).bitmap = s.bitmap := renameIndex_bitmap
  generalize renamedIn s i q (splitPath new).2 = s' at hd hmarks ⊢
  refine ⟨hd.kept, fun hfile => .inr ?_, fun c => .inl (by rw [hmarks])⟩
  have hdir : s.isDirectory i = false := by
    rw [← hfile.2, isDirectory, isDirectory, mftIsDirectory, mftIsDirectory, hd.flags]
  exact ⟨⟨(hf.outside h hok.outside hok.name_le).1, hdir⟩, hd.data hdir⟩

theorem FsTree.drop_dataKept (h : FsTree s) (hi : s.forest.live i) {b : Bitmap 8}
    (hb : ∀ c, b.get c = s.bitmap.get c ∨ c ∈ s.clustersOf i ∧ s.isFile i) :
    DataKept s (dropEntry { s with bitmap := b } i).2 i := by
  have h' : FsTree { s with bitmap := b } := h.of_eq rfl rfl rfl
  obtain ⟨hkept, hfree⟩ := h'.dropEntry_kept hi
  have hmarks : (dropEntry { s with bitmap := b } i).2.bitmap = b := by
    rw [dropEntry_eq]
    exact dropIndex_bitmap
  generalize (dropEntry { s with bitmap := b } i).2 = s' at hkept hfree hmarks ⊢
  have hdead : ¬ s'.isFile i := fun hf => by simp [hf.1.2] at hfree
  refine ⟨⟨⟨hkept.boot, hkept.zone, hkept.flags, hkept.head⟩, hkept.file⟩,
    fun hf => absurd hf hdead, fun c => ?_⟩
  rw [hmarks]
  exact (hb c).imp_right fun hc => ⟨hc.1, hc.2, hdead⟩

/-- Every call on the directories keeps the data of the files. -/
protected theorem FilesOk.dirStep (h : FilesOk s) (call : DirCall) (hok : call.Ok s) :
    ∃ s' i, dirStep s call = some s' ∧ FsTree s' ∧ DataKept s s' i := by
  obtain ⟨s₁, hs₁, ht⟩ := h.tree.step call hok
  suffices hdata : ∃ i, DataKept s s₁ i from ⟨s₁, hdata.choose, hs₁, ht, hdata.choose_spec⟩
  cases call with
  | «open» path mode =>
    rcases fsOpen_cases hok with ⟨f, heq⟩ | ⟨i, p, s₂, hc, hs₂, heq⟩
    · rw [dirStep, heq] at hs₁
      cases hs₁
      exact ⟨mftRoot, .refl _ _⟩
    rw [dirStep, heq] at hs₁
    cases hs₁
    generalize hs₃ : createEntry s i p 0 (splitPath path).2 = s₃ at hs₂
    subst hs₂
    exact ⟨i, h.tree.create_dataKept (h.tree.fits hc) (.inl rfl) hs₃.symm rfl rfl rfl rfl⟩
  | mkdir path =>
    rcases fsMkdir_cases hok.1 hok.2 with heq | ⟨i, p, s₂, r, hc, hs₂, heq, hr⟩
    · rw [dirStep, heq] at hs₁
      cases hs₁
      exact ⟨mftRoot, .refl _ _⟩
    rw [dirStep, heq] at hs₁
    cases hs₁
    have hsame : r.2.boot = s₂.boot ∧ r.2.mftZone = s₂.mftZone ∧ r.2.mem = s₂.mem ∧
        r.2.bitmap = s₂.bitmap := by
      rcases hr with ⟨-, hr⟩ | hr <;> (rw [hr]; exact ⟨rfl, rfl, rfl, rfl⟩)
    obtain ⟨hboot, hzone, hmem, hbitmap⟩ := hsame
    exact ⟨i, h.tree.create_dataKept (h.tree.fits hc) (.inr rfl) hs₂ hboot hzone hmem hbitmap⟩
  | rename old new =>
    rcases h.tree.fsRename_cases old hok.short with heq | ⟨i, q, hf, heq⟩
    · rw [dirStep, heq] at hs₁
      cases hs₁
      exact ⟨mftRoot, .refl _ _⟩
    have hd := h.tree.rename_dataKept hf hok
    generalize renamedIn s i q (splitPath new).2 = s₂ at heq hd
    rw [dirStep, heq] at hs₁
    cases hs₁
    exact ⟨i, hd⟩
  | unlink path =>
    rw [dirStep] at hs₁
    cases hs₁
    rcases h.tree.fsUnlink_cases path with heq | ⟨i, hr, hf, -, heq⟩
    · rw [heq]
      exact ⟨mftRoot, .refl _ _⟩
    obtain ⟨b, hb⟩ := unlinkData_eq (s := s) (i := i)
    rw [heq, hb]
    refine ⟨i, h.tree.drop_dataKept hr.live fun c => ?_⟩
    by_cases hc : c ∈ s.clustersOf i
    · exact .inr ⟨hc, hr.live, hf⟩
    · have hget := h.unlinkData_get ⟨hr.live, hf⟩ hc
      rw [hb] at hget
      exact .inl hget
  | rmdir path =>
    rw [dirStep] at hs₁
    cases hs₁
    rcases h.tree.fsRmdir_cases hok with heq | ⟨i, hr, heq⟩
    · rw [heq]
      exact ⟨mftRoot, .refl _ _⟩
    · rw [heq]
      exact ⟨i, h.tree.drop_dataKept hr.live fun _ => .inl rfl⟩

/-! ## Writing -/

variable {file : FsFile} {data : List UInt8} {taken : List Nat}

theorem Written.kept (hw : Written s s' i cs) : EntriesKept s s' i :=
  .of_slot hw.boot hw.zone (hw.edit.mono (by omega))

theorem Written.flags (hw : Written s s' i cs) :
    mftFlags s'.mem (s'.slot i) = mftFlags s.mem (s.slot i) := by
  rw [hw.kept.slot_eq]
  exact hw.edit.flags_eq

/-- A write leaves the tree alone. -/
theorem Written.fsTree (hw : Written s s' i cs) (h : FsTree s) (hi : s.forest.live i) :
    FsTree s' := by
  have hn := h.named i (.inr hi)
  have hn' : Named s'.mem (s'.slot i) := by
    rw [hw.kept.slot_eq]
    exact hw.edit.named hn hw.shape.used_mem
  have hlive : s'.forest.live i := by
    refine ⟨hw.kept.userSlots_eq ▸ hi.1, ?_⟩
    rw [inUse, mftInUse, hw.flags]
    exact hi.2
  refine hw.kept.fsTree h (h.tree.ne_root hi) (fun _ => hn')
    (h.tree.keep (hw.kept.sameBut h) hi hlive (fun hdir => ?_) ?_ ?_)
  · change s'.isDirectory i = true
    rw [isDirectory, mftIsDirectory, hw.flags]
    exact hdir
  · change s'.parentOf i = s.parentOf i
    rw [hn'.parentOf, hn.parentOf, hw.kept.slot_eq, hw.edit.parent_eq]
  · change s'.nameOf i = s.nameOf i
    rw [hn'.nameOf, hn.nameOf, hw.kept.slot_eq, hw.edit.name_eq]

theorem Written.isFile (hw : Written s s' i cs) (hf : s.isFile i) : s'.isFile i := by
  refine ⟨⟨hw.kept.userSlots_eq ▸ hf.1.1, ?_⟩, ?_⟩
  · rw [inUse, mftInUse, hw.flags]
    exact hf.1.2
  · rw [isDirectory, mftIsDirectory, hw.flags]
    exact hf.2

theorem FilesOk.written (h : FilesOk s) (hf : s.isFile i) (hw : Written s s' i cs)
    (ho : Owns s i cs) : FilesOk s' :=
  h.update (hw.fsTree h.tree hf.1) hw.kept fun _ => ⟨cs, hw.shape, ho⟩

/-- What `fs_write` does not check when it takes clusters: that the handle still belongs to
    a file, that the runs fit into the entry, that there are enough free clusters, and that
    the first of them do not hold the MFT. -/
structure TakeOk (s : Fs) (file : FsFile) (data : List UInt8) : Prop where
  isFile : s.isFile file.mftNumber
  place : file.place + data.length < 2 ^ 64
  cap : clustersToTake s file data ≤ 228
  free : clustersToTake s file data ≤ s.freeClusters.length
  outside : ∀ c ∈ s.freeClusters.take (clustersToTake s file data), ¬ s.mftCluster c

/-- Free clusters that no file names join those of a file. -/
theorem FilesOk.owns_append (h : FilesOk s) (hf : s.isFile i)
    (hout : ∀ c ∈ s.freeClusters.take n, ¬ s.mftCluster c)
    (hapart : ∀ c ∈ s.freeClusters.take n, ∀ j, s.isFile j → c ∉ s.clustersOf j) :
    Owns s i (s.clustersOf i ++ s.freeClusters.take n) := by
  have ho := h.owns i hf
  have hnodup : (s.freeClusters.take n).Nodup := (nodup_freeClusters s).sublist (take_sublist _ _)
  refine ⟨nodup_append'.mpr ⟨ho.nodup, hnodup, fun c hc hc' => hapart c hc' i hf hc⟩,
    fun c hc => ?_, fun c hc => ?_, fun j hj hfj => ?_⟩
  · rcases mem_append.mp hc with hc | hc
    · exact ho.below c hc
    · exact (mem_freeClusters.mp (mem_of_mem_take hc)).1
  · exact (mem_append.mp hc).elim (ho.outside c) (hout c)
  · exact disjoint_append_left.mpr ⟨ho.apart j hj hfj, fun c hc => hapart c hc j hfj⟩

/-! ## Runs -/

/-- The file system with the handles that it has given out. -/
structure FsSys where
  fs : Fs
  handles : List FsFile

inductive FileCall where
  | dir (call : DirCall)
  | write (handle : Nat) (data : List UInt8)

/-- The handle that a call returns. -/
def opened (s : Fs) : DirCall → List FsFile
  | .open path mode => ((fsOpen s path mode).bind Prod.fst).toList
  | _ => []

/-- The state behind a call; a write goes through one of the handles. -/
def fileStep (t : FsSys) : FileCall → Option FsSys
  | .dir call => (dirStep t.fs call).map fun s => ⟨s, t.handles ++ opened t.fs call⟩
  | .write k data =>
    match t.handles[k]? with
    | none => some t
    | some file =>
      let r := fsWrite t.fs file data
      some ⟨r.2.2, t.handles.set k r.2.1⟩

def FileCall.Ok (t : FsSys) : FileCall → Prop
  | .dir call => call.Ok t.fs
  | .write k data => ∀ file, t.handles[k]? = some file → TakeOk t.fs file data

/-- The clusters that the files name are distinct within and across the files, lie on the
    volume, are marked in the bitmap, and hold no entry of the MFT. -/
structure Fs.ClustersOwned (s : Fs) : Prop where
  distinct : ∀ i, s.isFile i → (s.clustersOf i).Nodup
  disjoint : ∀ i j, s.isFile i → s.isFile j → i ≠ j → (s.clustersOf i).Disjoint (s.clustersOf j)
  below : ∀ i, s.isFile i → ∀ c ∈ s.clustersOf i, c < s.boot.totalClusters
  marked : ∀ i, s.isFile i → ∀ c ∈ s.clustersOf i, s.bitmap.get c = true
  outside : ∀ i, s.isFile i → ∀ c ∈ s.clustersOf i, ¬ s.mftCluster c

/-- The files and the bitmap agree. -/
structure ClusterInv (s : Fs) : Prop extends FilesOk s where
  marked : ∀ i, s.isFile i → ∀ c ∈ s.clustersOf i, s.bitmap.get c = true

theorem ClusterInv.clustersOwned (h : ClusterInv s) : s.ClustersOwned where
  distinct := fun i hf => (h.owns i hf).nodup
  disjoint := fun i j hf hf' hne => (h.owns i hf).apart j hne.symm hf'
  below := fun i hf => (h.owns i hf).below
  marked := h.marked
  outside := fun i hf => (h.owns i hf).outside

theorem ClusterInv.dirStep (h : ClusterInv s) (call : DirCall) (hok : call.Ok s) :
    ∃ s', OpenSys.dirStep s call = some s' ∧ ClusterInv s' := by
  obtain ⟨s', i, hs', ht, hd⟩ := h.toFilesOk.dirStep call hok
  have h' := h.toFilesOk.dataKept ht hd
  refine ⟨s', hs', h', fun j hf c hc => ?_⟩
  by_cases hj : j = i
  · subst hj
    rcases hd.data hf with hnew | ⟨hf', hused, hagree⟩
    · have hshape : FileShape s'.mem (s'.slot j) [] := .fresh (hd.kept.slot_eq j ▸ hnew)
      rw [clustersOf, hshape.dataClusters_eq (ht.named j (.inr hf.1))] at hc
      cases hc
    have hshape := (h.shape j hf').congr hused hagree
    rw [← hd.kept.slot_eq] at hshape
    rw [clustersOf, hshape.dataClusters_eq (ht.named j (.inr hf.1))] at hc
    rcases hd.marks c with heq | ⟨-, -, hdead⟩
    · rw [heq]
      exact h.marked j hf' c hc
    · exact absurd hf hdead
  · have hf' := (hd.kept.isFile_iff hj).mp hf
    rw [h.clustersOf_kept hd.kept hj hf'] at hc
    rcases hd.marks c with heq | ⟨hci, hfi, -⟩
    · rw [heq]
      exact h.marked j hf' c hc
    · exact absurd hci ((h.owns j hf').apart i (Ne.symm hj) hfi hc)

theorem ClusterInv.write (h : ClusterInv s) (hok : TakeOk s file data) :
    ClusterInv (fsWrite s file data).2.2 := by
  have hf := hok.isFile
  have hn := h.tree.named _ (.inr hf.1)
  obtain ⟨hw, hbitmap⟩ := (h.shape _ hf).fsWrite rfl hn h.total hok.place rfl hok.cap hok.free
  have hapart : ∀ c ∈ s.freeClusters.take (clustersToTake s file data), ∀ j, s.isFile j →
      c ∉ s.clustersOf j := by
    intro c hc j hfj hcj
    have hclear := (mem_freeClusters.mp (mem_of_mem_take hc)).2
    rw [h.marked j hfj c hcj] at hclear
    cases hclear
  have h' := h.written hf hw (h.owns_append hf hok.outside hapart)
  generalize (fsWrite s file data).2.2 = s' at hw hbitmap h' ⊢
  refine ⟨h', fun j hfj c hc => ?_⟩
  rw [hbitmap, get_foldl_set, Bool.or_eq_true, decide_eq_true_iff]
  by_cases hj : j = file.mftNumber
  · subst hj
    have hshape := hw.shape
    rw [← hw.kept.slot_eq] at hshape
    rw [clustersOf, hshape.dataClusters_eq (h'.tree.named _ (.inr hfj.1))] at hc
    exact (mem_append.mp hc).symm.imp_right (h.marked _ hf c)
  · have hf' := (hw.kept.isFile_iff hj).mp hfj
    rw [h.clustersOf_kept hw.kept hj hf'] at hc
    exact .inr (h.marked j hf' c hc)

/-- One call keeps the clusters of the files apart. -/
theorem ClusterInv.step {t : FsSys} (h : ClusterInv t.fs) (call : FileCall) (hok : call.Ok t) :
    ∃ t', fileStep t call = some t' ∧ ClusterInv t'.fs := by
  cases call with
  | dir call =>
    obtain ⟨s', hs', h'⟩ := h.dirStep call hok
    exact ⟨⟨s', _⟩, by rw [fileStep, hs']; rfl, h'⟩
  | write k data =>
    rw [fileStep]
    cases hk : t.handles[k]? with
    | none => exact ⟨t, rfl, h⟩
    | some file => exact ⟨_, rfl, h.write (hok file hk)⟩

/-- The boot sector that `fs_format` makes. -/
def formatBoot (volumeSectors diskSize : Nat) : FsBoot :=
  let diskSize := if 0 < volumeSectors then min diskSize (u64 (volumeSectors * 512)) else diskSize
  { totalSectors := diskSize / 512
    mftStart := 8
    mftSize := 128
    dataStart := 136
    totalClusters := sub64 (diskSize / 512) 136 / 8 }

theorem fsFormat_boot (volumeSectors diskSize : Nat) (diskReady : Bool) :
    (fsFormat s volumeSectors diskSize diskReady).boot = formatBoot volumeSectors diskSize := by
  unfold fsFormat formatBoot
  dsimp only
  generalize FsBoot.mk _ _ _ _ _ = boot
  generalize List.range 128 = l
  cases diskReady with
  | false => rfl
  | true => exact (writeMftEntries_keep l).2.1

theorem fsFormat_bitmap (volumeSectors diskSize : Nat) (diskReady : Bool) :
    (fsFormat s volumeSectors diskSize diskReady).bitmap = s.bitmap := by
  have hkeep : ∀ (l : List Nat) (s : Fs),
      (l.foldl (fun s i => (writeMftEntry s i).2) s).bitmap = s.bitmap := by
    intro l
    induction l with
    | nil => exact fun _ => rfl
    | cons i l ih => exact fun s => ih _
  unfold fsFormat
  dsimp only
  generalize FsBoot.mk _ _ _ _ _ = boot
  generalize List.range 128 = l
  cases diskReady with
  | false => rfl
  | true => exact hkeep l _

theorem fsFormat_totalClusters (volumeSectors diskSize : Nat) (diskReady : Bool) :
    (fsFormat s volumeSectors diskSize diskReady).boot.totalClusters ≤ 2 ^ 64 := by
  rw [fsFormat_boot]
  exact (Nat.div_le_self _ _).trans (u64_lt _).le

theorem Formatted.clusterInv (h : Formatted s) (htotal : s.boot.totalClusters ≤ 2 ^ 64) :
    ClusterInv s where
  tree := h.fsTree
  total := htotal
  shape := fun _ hf => absurd hf.1 h.no_entry
  owns := fun _ hf => absurd hf.1 h.no_entry
  marked := fun _ hf => absurd hf.1 h.no_entry

/-- In every run from a formatted volume whose writes meet their conditions, the clusters of
    the files are owned in every state. -/
theorem clusters_owned (s : Fs) (volumeSectors diskSize : Nat) (diskReady : Bool)
    (calls : List FileCall)
    (hok : AllOk fileStep FileCall.Ok ⟨fsFormat s volumeSectors diskSize diskReady, []⟩ calls) :
    Always fileStep (fun t => t.fs.ClustersOwned)
      ⟨fsFormat s volumeSectors diskSize diskReady, []⟩ calls :=
  (always_of_allOk (fun _ call h => ClusterInv.step h call)
    ((fsFormat_formatted _ _ _).clusterInv (fsFormat_totalClusters _ _ _)) hok).mono
    fun _ => ClusterInv.clustersOwned

/-! ## A new file -/

/-- What `fs_open` leaves when it makes the file `i`. -/
structure NewFile (s s' : Fs) (i : Nat) : Prop where
  tree : FsTree s'
  data : DataKept s s' i
  isFile : s'.isFile i
  used : mftUsedSize s'.mem (s'.slot i) = 369
  bitmap : s'.bitmap = s.bitmap

theorem FsTree.fsOpen_new (h : FsTree s) (hc : Creates s path i p) (hmode : mode ≠ 0) :
    ∃ s', fsOpen s path mode = some (some ⟨i, 0, 0, mode % 256⟩, s') ∧ NewFile s s' i := by
  have hshort : ¬ (path = [] ∨ 255 < lastSlash path) := by
    rintro (rfl | hlong)
    · simpa using hc.new.absolute
    · exact absurd hc.new.short (by omega)
  have hf := h.fits hc
  have hd : CreateDone s _ i 0 p (splitPath path).2 := h.create_done hf (.inl rfl)
  have ht := h.create hf (.inl rfl)
  have hbitmap : (createEntry s i p 0 (splitPath path).2).bitmap = s.bitmap := createEntry_bitmap
  have hopen : fsOpen s path mode =
      some (openEntry (stored (createEntry s i p 0 (splitPath path).2) i p) i mode,
        stored (createEntry s i p 0 (splitPath path).2) i p) := by
    rw [fsOpen, hc.fresh]
    dsimp only
    rw [if_neg hmode, hc.slot]
    dsimp only
    rw [if_neg hshort, hc.parent]
    rfl
  generalize hs₁ : createEntry s i p 0 (splitPath path).2 = s₁ at hd ht hbitmap hopen
  have hnew : NewEntry s₁.mem (s₁.slot i) i 1 p (splitPath path).2 := hd.new
  have hro : mftIsReadonly s₁.mem (s₁.slot i) = false := by
    rw [mftIsReadonly, hnew.flags]
    rfl
  have hsize : ((s₁.filename i).map (fnRealSize s₁.mem)).getD 0 = 0 := by
    rw [hnew.named.filename]
    exact hnew.record.realSize
  have hhandle : openEntry (stored s₁ i p) i mode = some ⟨i, 0, 0, mode % 256⟩ := by
    change (if mode ≠ 0 ∧ mftIsReadonly s₁.mem (s₁.slot i) = true then none else
      some (FsFile.mk i 0 (((s₁.filename i).map (fnRealSize s₁.mem)).getD 0) (mode % 256))) = _
    rw [hro, hsize, if_neg (by simp)]
  refine ⟨stored s₁ i p, by rw [hopen, hhandle], ht.stored i p,
    h.create_dataKept hf (.inl rfl) hs₁.symm rfl rfl rfl rfl, ⟨⟨?_, ?_⟩, ?_⟩, hd.used rfl, hbitmap⟩
  · exact hd.kept.userSlots_eq ▸ hf.user
  · change mftInUse s₁.mem (s₁.slot i) = true
    rw [mftInUse, hnew.flags]
    rfl
  · change mftIsDirectory s₁.mem (s₁.slot i) = false
    rw [mftIsDirectory, hnew.flags]
    rfl

theorem fileOk_open (h : NewPath s path) :
    FileCall.Ok ⟨s, l⟩ (.dir (.open path mode)) := .inr (.inr h)

theorem fileStep_open (h : fsOpen s path mode = some (some file, s')) :
    fileStep ⟨s, l⟩ (.dir (.open path mode)) = some ⟨s', l ++ [file]⟩ := by
  rw [fileStep, dirStep, opened, h]
  rfl

theorem fileStep_write {file' : FsFile} (hk : l[k]? = some file)
    (h : fsWrite s file data = (n, file', s')) :
    fileStep ⟨s, l⟩ (.write k data) = some ⟨s', l.set k file'⟩ := by
  simp only [fileStep, hk, h]

/-- A formatted volume of 2048 sectors. -/
def smallVolume : Fs := fsFormat emptyFs 0 (2048 * 512) true

theorem smallVolume_formatted : Formatted smallVolume := fsFormat_formatted 0 (2048 * 512) true

theorem Formatted.creates (h : Formatted s) : Creates s pathA 16 mftRoot where
  new := h.newPath
  fresh := h.findFile_none (by decide)
  slot := h.allocMftEntry
  parent := h.findFile_root

/-- The two calls that make `/a` and write its first byte. -/
theorem Formatted.one_byte (hv : Formatted v) : ∃ s s' : Fs,
    fsOpen v pathA 1 = some (some ⟨16, 0, 0, 1⟩, s) ∧ NewFile v s 16 ∧
    fsWrite s ⟨16, 0, 0, 1⟩ [0] = (1, ⟨16, 1, 1, 1⟩, s') ∧ Appends s s' 16 [0] := by
  obtain ⟨s, hopen, hnew⟩ : ∃ s, fsOpen v pathA 1 = some (some ⟨16, 0, 0, 1⟩, s) ∧ NewFile v s 16 :=
    hv.fsTree.fsOpen_new hv.creates (by decide)
  have hn := hnew.tree.named 16 (.inr hnew.isFile.1)
  obtain ⟨s', hwrite, ha⟩ : ∃ s', fsWrite s ⟨16, 0, 0, 1⟩ [0] = (1, ⟨16, 1, 1, 1⟩, s') ∧
      Appends s s' 16 [0] := fsWrite_fresh hnew.used rfl hn rfl (by decide) (by decide)
  exact ⟨s, s', hopen, hnew, hwrite, ha⟩

/-- `/a` is made and gets its first byte. -/
theorem Formatted.first_byte (hv : Formatted v) : ∃ s s' : Fs,
    fileStep ⟨v, []⟩ (.dir (.open pathA 1)) = some ⟨s, [⟨16, 0, 0, 1⟩]⟩ ∧
    TakeOk s ⟨16, 0, 0, 1⟩ [0] ∧
    fileStep ⟨s, [⟨16, 0, 0, 1⟩]⟩ (.write 0 [0]) = some ⟨s', [⟨16, 1, 1, 1⟩]⟩ ∧
    s'.isFile 16 ∧ Named s'.mem (s'.slot 16) ∧ Holds s'.mem (s'.slot 16) [0] ∧
    s'.boot = v.boot ∧ s'.bitmap = v.bitmap := by
  obtain ⟨s, s', hopen, hnew, hwrite, ha⟩ := hv.one_byte
  have hn := hnew.tree.named 16 (.inr hnew.isFile.1)
  have htake : clustersToTake s ⟨16, 0, 0, 1⟩ [0] = 0 := by
    rw [clustersToTake_fresh hnew.used rfl hn (by decide) (by decide)]
    exact if_neg (by decide)
  have hkept := ha.written.kept
  have hfile := ha.written.isFile hnew.isFile
  have hok : TakeOk s ⟨16, 0, 0, 1⟩ [0] := by
    refine ⟨hnew.isFile, by decide, ?_, ?_, ?_⟩ <;> rw [htake]
    · exact Nat.zero_le _
    · exact Nat.zero_le _
    · exact fun _ hc => absurd hc not_mem_nil
  refine ⟨s, s', fileStep_open hopen, hok, fileStep_write rfl hwrite, hfile,
    (ha.written.fsTree hnew.tree hnew.isFile.1).named 16 (.inr hfile.1), ?_,
    hkept.boot.trans hnew.data.kept.boot, ha.bitmap.trans hnew.bitmap⟩
  rw [hkept.slot_eq]
  exact ha.holds

/-- A second write, behind the first byte, that takes the first `k` clusters of the volume. The
    clusters from 8 on are those of the MFT. -/
theorem Formatted.second_write (hv : Formatted v) (hboot : v.boot = formatBoot 0 (2048 * 512))
    (hbitmap : v.bitmap = fun _ => 0) (data : List UInt8) (hbig : 3711 < 1 + data.length)
    (hlen : 1 + data.length < 2 ^ 64) (hk : clustersFor (max (1 + data.length) 1) = k)
    (hcap : k ≤ 228) : ∃ s s' : Fs,
    fileStep ⟨v, []⟩ (.dir (.open pathA 1)) = some ⟨s, [⟨16, 0, 0, 1⟩]⟩ ∧
      TakeOk s ⟨16, 0, 0, 1⟩ [0] ∧
      fileStep ⟨s, [⟨16, 0, 0, 1⟩]⟩ (.write 0 [0]) = some ⟨s', [⟨16, 1, 1, 1⟩]⟩ ∧
      (k ≤ 8 → TakeOk s' ⟨16, 1, 1, 1⟩ data) ∧
      s'.isFile 16 ∧ Named s'.mem (s'.slot 16) ∧ Resident s'.mem (s'.slot 16) 1 ∧
      s'.freeClusters = List.range 239 ∧ s'.boot = v.boot ∧
      Written s' (fsWrite s' ⟨16, 1, 1, 1⟩ data).2.2 16 (List.range k) := by
  obtain ⟨s, s', hopen, hok, hwrite, hf, hn, hholds, hboot', hbitmap'⟩ := hv.first_byte
  have hdata : data ≠ [] := ne_nil_of_length_pos (by omega)
  have htotal : s'.boot.totalClusters = 239 := by
    rw [hboot', hboot]
    decide
  have hfree : s'.freeClusters = List.range 239 := by
    have hclear : ∀ c, s'.bitmap.get c = false := fun c => by
      rw [hbitmap', hbitmap]
      exact BitVec.getLsbD_zero
    rw [freeClusters, htotal]
    exact filter_eq_self.mpr fun c _ => by rw [hclear]; rfl
  have hplace : FsFile.place ⟨16, 1, 1, 1⟩ + data.length < 2 ^ 64 := hlen
  have htake : clustersToTake s' ⟨16, 1, 1, 1⟩ data = k := by
    rw [hholds.clustersToTake_eq rfl hn hdata hplace]
    exact (if_pos hbig).trans hk
  have hroom : k ≤ s'.freeClusters.length := by
    rw [hfree, length_range]
    omega
  have hw := ((FileShape.resident hholds.toResident).fsWrite rfl hn (by rw [htotal]; decide) hplace htake
    hcap hroom).1
  rw [nil_append, hfree, take_range, Nat.min_eq_left (by omega)] at hw
  refine ⟨s, s', hopen, hok, hwrite, fun hlow => ⟨hf, hplace, htake ▸ hcap, htake ▸ hroom, ?_⟩,
    hf, hn, hholds.toResident, hfree, hboot', hw⟩
  have hmft : s'.boot.mftStart = 8 := by
    rw [hboot', hboot]
    decide
  intro c hc hmftc
  rw [htake, hfree, take_range, mem_range] at hc
  have := hmftc.1
  omega

/-- `/a` gets its first byte and then the clusters 0 and 1. -/
theorem Formatted.two_clusters (hv : Formatted v) (hboot : v.boot = formatBoot 0 (2048 * 512))
    (hbitmap : v.bitmap = fun _ => 0) {data : List UInt8} (hlen : data.length = 5000) :
    ∃ s s' s₃ : Fs, ∃ (n : Nat) (file : FsFile),
      fileStep ⟨v, []⟩ (.dir (.open pathA 1)) = some ⟨s, [⟨16, 0, 0, 1⟩]⟩ ∧
      TakeOk s ⟨16, 0, 0, 1⟩ [0] ∧
      fileStep ⟨s, [⟨16, 0, 0, 1⟩]⟩ (.write 0 [0]) = some ⟨s', [⟨16, 1, 1, 1⟩]⟩ ∧
      TakeOk s' ⟨16, 1, 1, 1⟩ data ∧ Named s'.mem (s'.slot 16) ∧
      Resident s'.mem (s'.slot 16) 1 ∧ s'.freeClusters = List.range 239 ∧
      fsWrite s' ⟨16, 1, 1, 1⟩ data = (n, file, s₃) ∧ s₃.isFile 16 ∧
      Named s₃.mem (s₃.slot 16) ∧ FileShape s₃.mem (s₃.slot 16) [0, 1] ∧ s₃.boot = v.boot := by
  obtain ⟨s, s', hopen, hok, hwrite, hok', hf, hn, hres, hfree, hboot', hw⟩ :=
    hv.second_write hboot hbitmap data
    (by omega) (by omega) (by rw [hlen]; decide) (by decide : 2 ≤ 228)
  generalize hr : fsWrite s' ⟨16, 1, 1, 1⟩ data = r at hw
  obtain ⟨n, file, s₃⟩ := r
  have hn₃ := hw.edit.named hn hw.shape.used_mem
  have hshape := hw.shape
  rw [← hw.kept.slot_eq] at hshape hn₃
  exact ⟨s, s', s₃, n, file, hopen, hok, hwrite, hok' (by decide), hn, hres, hfree, hr, hw.isFile hf, hn₃, hshape,
    hw.boot.trans hboot'⟩

/-- A run with a conversion: `/a` has two clusters at its end. -/
theorem clusters_owned_converted : ∃ t, Run.run fileStep ⟨smallVolume, []⟩
      [.dir (.open pathA 1), .write 0 [0], .write 0 (List.replicate 5000 0)] = some t ∧
    t.fs.isFile 16 ∧ t.fs.clustersOf 16 = [0, 1] ∧
    Always fileStep (fun t => t.fs.ClustersOwned) ⟨smallVolume, []⟩
      [.dir (.open pathA 1), .write 0 [0], .write 0 (List.replicate 5000 0)] := by
  obtain ⟨s, s', s₃, n, file, hopen, hok, hwrite, hok', -, -, -, hr, hf, hn, hshape, -⟩ :=
    smallVolume_formatted.two_clusters (fsFormat_boot 0 (2048 * 512) true)
      (fsFormat_bitmap 0 (2048 * 512) true) (@length_replicate _ 5000 (0 : UInt8))
  have hlast : fileStep ⟨s', [⟨16, 1, 1, 1⟩]⟩ (.write 0 (List.replicate 5000 0)) =
      some ⟨s₃, [file]⟩ := fileStep_write rfl hr
  refine ⟨⟨s₃, [file]⟩, ?_, hf, hshape.dataClusters_eq hn,
    clusters_owned emptyFs 0 (2048 * 512) true _ ⟨fileOk_open smallVolume_formatted.creates.new,
      fun t ht => ?_⟩⟩
  · simp only [Run.run, hopen, hwrite, hlast, Option.bind_some]
  obtain rfl : _ = t := Option.some.inj (hopen.symm.trans ht)
  refine ⟨fun file hfile => ?_, fun t ht => ?_⟩
  · obtain rfl : _ = file := Option.some.inj hfile
    exact hok
  obtain rfl : _ = t := Option.some.inj (hwrite.symm.trans ht)
  refine ⟨fun file hfile => ?_, fun _ _ => trivial⟩
  obtain rfl : _ = file := Option.some.inj hfile
  exact hok'

/-- A write of nine clusters more, when the first cluster is free. -/
theorem Formatted.ten_clusters (hv : Formatted v) (hboot : v.boot = formatBoot 0 (2048 * 512))
    (hbitmap : v.bitmap = fun _ => 0) {data : List UInt8} (hlen : data.length = 36864) :
    ¬ Always fileStep (fun t => t.fs.ClustersOwned) ⟨v, []⟩
      [.dir (.open pathA 1), .write 0 [0], .write 0 data] := by
  intro h
  obtain ⟨s, s', hopen, -, hwrite, -, hf, hn, -, -, hboot', hw⟩ := hv.second_write hboot hbitmap data
    (by omega) (by omega) (by rw [hlen]; decide) (by decide : 10 ≤ 228)
  obtain ⟨-, t₁, ht₁, -, t₂, ht₂, -, t₃, ht₃, hown⟩ := h
  obtain rfl : _ = t₁ := Option.some.inj (hopen.symm.trans ht₁)
  obtain rfl : _ = t₂ := Option.some.inj (hwrite.symm.trans ht₂)
  generalize hr : fsWrite s' ⟨16, 1, 1, 1⟩ data = r at hw
  obtain ⟨n, file, s₃⟩ := r
  have ht₃' : fileStep ⟨s', [⟨16, 1, 1, 1⟩]⟩ (.write 0 data) = _ := fileStep_write rfl hr
  obtain rfl : _ = t₃ := Option.some.inj (ht₃'.symm.trans ht₃)
  have hn₃ := hw.edit.named hn hw.shape.used_mem
  have hshape := hw.shape
  rw [← hw.kept.slot_eq] at hshape hn₃
  have hmem : 8 ∈ s₃.clustersOf 16 := by
    rw [clustersOf, hshape.dataClusters_eq hn₃]
    decide
  refine hown.outside 16 (hw.isFile hf) 8 hmem ?_
  rw [mftCluster, hw.boot, hboot', hboot]
  decide

/-- A file of ten clusters gets the clusters 8 and 9 of the MFT. -/
theorem clusters_of_mft_taken : ¬ Always fileStep (fun t => t.fs.ClustersOwned) ⟨smallVolume, []⟩
    [.dir (.open pathA 1), .write 0 [0], .write 0 (List.replicate 36864 0)] :=
  smallVolume_formatted.ten_clusters (fsFormat_boot 0 (2048 * 512) true)
    (fsFormat_bitmap 0 (2048 * 512) true) length_replicate

end OpenSys
