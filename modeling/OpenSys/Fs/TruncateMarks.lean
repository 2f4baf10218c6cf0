-- SUMMARY: Whether the clusters of a file stay marked under fs_truncate.
import OpenSys.Fs.Contents
import OpenSys.Fs.Tiling

/-!
# The clusters of a truncated file

`fs_truncate` on a file in clusters clears the bits of all clusters behind the new size. It writes
the new size into the attribute, and changes neither the runs nor the allocated size. What the file
still names can then be given to another file, and `fs_read`, `fs_write` and `fs_unlink` go on
following the old runs.

A truncation that cuts off no whole cluster leaves the bitmap alone. Calls of that kind can be
added to the calls of `OpenSys.Fs.Clusters` without harm.
-/

namespace OpenSys

open Run Option List Nat

variable {s : Fs} {m m' : Mem} {e i size : Nat} {cs : List Nat} {file : FsFile}

/-- The clusters of all runs in the data attribute of an entry. `fs_read`, `fs_write` and
`fs_unlink` follow these runs or the first of them. -/
def runReach (m : Mem) (entry : Nat) : List Nat :=
  match findAttr m entry attrData with
  | none => []
  | some attr =>
    let nr := attr + attrHeaderSize
    if attrNonResident m attr = 0 then []
    else (List.range (nonresidentRunCount m attr nr)).flatMap (runClusters m (attr + nrRunOffset m nr))

/-- What the files can reach through their runs is marked, and no two files reach the same. -/
structure Fs.RunsHeld (s : Fs) : Prop where
  marked : ∀ i, s.isFile i → ∀ c ∈ runReach s.mem (s.slot i), s.bitmap.get c = true
  apart : ∀ i j, s.isFile i → s.isFile j → i ≠ j →
    (runReach s.mem (s.slot i)).Disjoint (runReach s.mem (s.slot j))

theorem FileShape.runReach_eq (h : FileShape m e cs) (hn : Named m e) : runReach m e = cs := by
  cases h with
  | fresh h => rw [runReach, findAttr_fresh hn h (by decide)]
  | resident h =>
    rw [runReach, h.findAttr hn]
    exact if_pos h.nonResident
  | runs h =>
    have hnr : e + 361 + attrHeaderSize = e + 377 := rfl
    rw [runReach, h.findAttr hn]
    dsimp only
    rw [if_neg h.nonResident, hnr, h.short.runCount, h.offset]
    exact flatMap_runClusters h.run

theorem FilesOk.runReach_eq (h : FilesOk s) (hf : s.isFile i) :
    runReach s.mem (s.slot i) = s.clustersOf i :=
  (h.shape i hf).runReach_eq (h.tree.named i (.inr hf.1))

theorem ClusterInv.runsHeld (h : ClusterInv s) : s.RunsHeld where
  marked := fun i hf c hc => h.marked i hf c (h.runReach_eq hf ▸ hc)
  apart := fun i j hf hf' hne => by
    rw [h.runReach_eq hf, h.runReach_eq hf']
    exact (h.owns i hf).apart j hne.symm hf'

/-! ## A truncation that cuts off no cluster -/

/-- The loop leaves the state alone when all runs are among the clusters to keep. -/
theorem truncateRuns_keeps {runs keep n seen k : Nat}
    (hrun : ∀ t < k, runLength s.mem runs (n + t) = 1) (hkeep : seen + k ≤ keep) :
    truncateRuns s runs keep n seen k = s := by
  induction k generalizing n seen with
  | zero => rfl
  | succ k ih =>
    have hone : runLength s.mem runs n = 1 := hrun 0 (by omega)
    rw [truncateRuns]
    split_ifs
    · rfl
    dsimp only
    rw [hone, range_one, foldl_cons, foldl_nil, if_neg (by omega)]
    refine ih (fun t ht => ?_) (by omega)
    rw [add_assoc, add_comm 1 t]
    exact hrun (t + 1) (by omega)

/-- A change of the recorded sizes leaves the runs alone. -/
theorem DataRuns.resized (h : DataRuns m e cs)
    (hm : Mem.Frame (fun x => e + 409 ≤ x ∧ x < e + 425) m m') : DataRuns m' e cs where
  used := (hm.readLE (by omega)).trans h.used
  cap := h.cap
  type := (hm.readLE (by omega)).trans h.type
  nonResident := by
    rw [attrNonResident, hm.readLE (by omega)]
    exact h.nonResident
  length := (hm.readLE (by omega)).trans h.length
  offset := (hm.readLE (by omega)).trans h.offset
  allocated := (hm.readLE (by omega)).trans h.allocated
  first := (hm.readLE (by omega)).trans h.first
  run := fun j hj => ⟨(hm.readLE (by omega)).trans (h.run j hj).1,
    (hm.readLE (by omega)).trans (h.run j hj).2⟩
  last := (hm.readLE (by omega)).trans h.last

theorem Resident.resized {n : Nat} (h : Resident m e n) (hsize : size ≤ 3711) :
    Resident (m.writeLE (e + 361 + 4) 4 (attrHeaderSize + u32 size)) e size where
  used := (Mem.readLE_writeLE_of_disjoint (by omega)).trans h.used
  type := (Mem.readLE_writeLE_of_disjoint (by omega)).trans h.type
  nonResident := (Mem.readLE_writeLE_of_disjoint (by omega)).trans h.nonResident
  length := by
    have hsmall : u32 size = size := by
      rw [u32]
      omega
    rw [hsmall, attrHeaderSize]
    exact Mem.readLE_writeLE (by omega)
  cap := hsize

theorem DataRuns.unlinkRunCount_le (h : DataRuns m e cs) :
    unlinkRunCount m (e + 361) (e + 377) ≤ cs.length := by
  rw [unlinkRunCount, h.short.runCount]
  split_ifs with hless
  · exact hless.2.le
  · exact le_rfl

theorem DataRuns.unlinkRunCount_pos {c : Nat} (h : DataRuns m e (c :: cs)) :
    0 < unlinkRunCount m (e + 361) (e + 377) := by
  rw [unlinkRunCount, h.short.runCount, h.last, h.first]
  have hcap := h.cap
  rw [length_cons] at hcap ⊢
  have hone : u64 (sub64 (dec64 (cs.length + 1)) 0 + 1) = cs.length + 1 := by
    rw [dec64, sub64, u64, u64, u64]
    omega
  rw [hone, if_neg (by omega)]
  omega

theorem freeCluster_clear {a c : Nat} (h : s.bitmap.get c = false) :
    (freeCluster s a).bitmap.get c = false := by
  rw [freeCluster]
  split_ifs
  · rw [Bitmap.get_clear, h, Bool.and_false]
  · exact h

/-- Once a bit is clear the loop leaves it so. -/
theorem truncateRuns_clear {runs keep n seen k c : Nat} (h : s.bitmap.get c = false) :
    (truncateRuns s runs keep n seen k).bitmap.get c = false := by
  induction k generalizing s n seen with
  | zero => exact h
  | succ k ih =>
    have hfold : ∀ (l : List Nat) (s : Fs), s.bitmap.get c = false →
        (l.foldl (fun s j => if keep ≤ seen + j then freeCluster s (u64 (runStart s.mem runs n + j))
          else s) s).bitmap.get c = false := by
      intro l
      induction l with
      | nil => exact fun _ h => h
      | cons j l ihl =>
        intro s h
        rw [foldl_cons]
        split_ifs
        · exact ihl _ (freeCluster_clear h)
        · exact ihl _ h
    rw [truncateRuns]
    split_ifs
    · exact h
    · exact ih (hfold _ _ h)

/-- A truncation to nothing clears the first cluster. -/
theorem truncateRuns_first {runs k c : Nat} (hstart : runStart s.mem runs 0 = c)
    (hlen : runLength s.mem runs 0 = 1) (hc : c < s.boot.totalClusters)
    (htotal : s.boot.totalClusters ≤ 2 ^ 64) :
    (truncateRuns s runs 0 0 0 (k + 1)).bitmap.get c = false := by
  rw [truncateRuns, hlen, if_neg (by omega)]
  dsimp only
  refine truncateRuns_clear ?_
  rw [range_one, foldl_cons, foldl_nil, if_pos (zero_le _), hstart, add_zero,
    u64_of_lt (by omega), freeCluster, if_pos (by omega), Bitmap.get_clear]
  simp

/-- The size to truncate to keeps every cluster, and fits into the entry if the data is there. -/
structure TruncateOk (s : Fs) (file : FsFile) (size : Nat) : Prop where
  isFile : s.isFile file.mftNumber
  inside : s.clustersOf file.mftNumber = [] → size ≤ 3711
  keeps : (s.clustersOf file.mftNumber).length ≤ u64 (size + fsClusterSize - 1) / fsClusterSize

/-- What a truncation leaves of the bitmap: all of it if no cluster is cut off, and not the first
cluster of a file that is cut to nothing. -/
structure Truncated (s : Fs) (cs : List Nat) (size : Nat) (b : Bitmap 8) : Prop where
  kept : cs.length ≤ u64 (size + fsClusterSize - 1) / fsClusterSize → b = s.bitmap
  cut : ∀ c rest, cs = c :: rest → size = 0 → c < s.boot.totalClusters →
    s.boot.totalClusters ≤ 2 ^ 64 → b.get c = false

/-- What a truncation does to the data attribute: its sizes change, its runs do not. -/
protected theorem FileShape.truncateData (h : FileShape s.mem (s.slot i) cs) {attr : Nat}
    (hn : Named s.mem (s.slot i)) (hattr : findAttr s.mem (s.slot i) attrData = some attr)
    (hinside : cs = [] → size ≤ 3711) :
    ∃ m b, truncateData s attr size = { s with mem := m, bitmap := b } ∧
      DataEdit s.mem m (s.slot i) ∧ FileShape m (s.slot i) cs ∧ Truncated s cs size b := by
  cases h with
  | fresh h =>
    rw [findAttr_fresh hn h (by decide)] at hattr
    cases hattr
  | resident h =>
    obtain rfl : s.slot i + 361 = attr := some.inj ((h.findAttr hn).symm.trans hattr)
    refine ⟨_, s.bitmap, if_neg (not_not.mpr h.nonResident), ?_, .resident (h.resized (hinside rfl)),
      fun _ => rfl, fun c rest hcs => by cases hcs⟩
    exact (DataEdit.refl _ _).writeLE (by omega) (by omega)
  | runs h =>
    obtain rfl : s.slot i + 361 = attr := some.inj ((h.findAttr hn).symm.trans hattr)
    have hnr : s.slot i + 361 + attrHeaderSize = s.slot i + 377 := rfl
    have hframe : Mem.Frame (fun x => s.slot i + 409 ≤ x ∧ x < s.slot i + 425) s.mem
        ((s.mem.writeLE (s.slot i + 377 + 32) 8 size).writeLE (s.slot i + 377 + 40) 8 size) :=
      ((Mem.Frame.refl _ _).writeLE (by omega)).writeLE (by omega)
    have hcount := h.unlinkRunCount_le
    obtain ⟨b, hb⟩ := @truncateRuns_eq s (s.slot i + 361 + 64)
      (u64 (size + fsClusterSize - 1) / fsClusterSize) 0 0
      (unlinkRunCount s.mem (s.slot i + 361) (s.slot i + 377))
    refine ⟨_, b, ?_, .of_tail (hframe.mono (by omega)), .runs (h.resized hframe), ?_, ?_⟩
    · rw [truncateData, if_pos h.nonResident, hnr]
      dsimp only
      rw [h.offset, hb]
    · intro hkeeps
      have hsame := @truncateRuns_keeps s (s.slot i + 361 + 64)
        (u64 (size + fsClusterSize - 1) / fsClusterSize) 0 0
        (unlinkRunCount s.mem (s.slot i + 361) (s.slot i + 377))
        (fun t ht => by rw [zero_add]; exact (h.run t (ht.trans_le hcount)).2) (by omega)
      exact congrArg Fs.bitmap (hb.symm.trans hsame)
    rintro c rest rfl rfl hc htotal
    obtain ⟨hstart, hlen⟩ := h.run 0 (zero_lt_succ _)
    have hpos : unlinkRunCount s.mem (s.slot i + 361) (s.slot i + 377) =
        unlinkRunCount s.mem (s.slot i + 361) (s.slot i + 377) - 1 + 1 := by
      have := h.unlinkRunCount_pos
      omega
    have hkeep : u64 (0 + fsClusterSize - 1) / fsClusterSize = 0 := by decide
    rw [hkeep, hpos] at hb
    have hclear := truncateRuns_first (k := unlinkRunCount s.mem (s.slot i + 361) (s.slot i + 377) - 1)
      hstart hlen hc htotal
    have hruns : s.slot i + 425 = s.slot i + 361 + 64 := rfl
    rw [hruns, hb] at hclear
    exact hclear

/-- The whole call: the runs stay. -/
protected theorem FileShape.fsTruncate (h : FileShape s.mem (s.slot i) cs) (hi : file.mftNumber = i)
    (hn : Named s.mem (s.slot i)) (hinside : cs = [] → size ≤ 3711) (hsize : size < file.size) :
    Written s (fsTruncate s file size).2.2 i cs ∧
      (cs ≠ [] → Truncated s cs size (fsTruncate s file size).2.2.bitmap) ∧
      (cs = [] → (fsTruncate s file size).2.2.bitmap = s.bitmap) := by
  subst hi
  obtain ⟨m, b, hm, hedit, hshape, hb, hempty⟩ : ∃ m b, (fsTruncate s file size).2.2 =
        (writeMftEntry (setRealSize { s with mem := m, bitmap := b } file.mftNumber size)
          file.mftNumber).2 ∧
      DataEdit s.mem m (s.slot file.mftNumber) ∧ FileShape m (s.slot file.mftNumber) cs ∧
      (cs ≠ [] → Truncated s cs size b) ∧ (cs = [] → b = s.bitmap) := by
    rw [fsTruncate, if_neg (by omega)]
    dsimp only
    cases hattr : findAttr s.mem (s.slot file.mftNumber) attrData with
    | none =>
      refine ⟨s.mem, s.bitmap, rfl, .refl _ _, h, fun hne => ?_, fun _ => rfl⟩
      cases h with
      | fresh h => exact absurd rfl hne
      | resident h => exact absurd rfl hne
      | runs h =>
        rw [h.findAttr hn] at hattr
        cases hattr
    | some attr =>
      obtain ⟨m, b, hm, hedit, hshape, hb⟩ := h.truncateData hn hattr hinside
      refine ⟨m, b, by dsimp only; rw [hm], hedit, hshape, fun _ => hb, ?_⟩
      rintro rfl
      exact hb.kept (zero_le _)
  have hn' : Named m (s.slot file.mftNumber) := hedit.named hn hshape.used_mem
  have hreal := setRealSize_eq (s := { s with mem := m, bitmap := b }) hn' size
  rw [hm, hreal]
  exact ⟨⟨rfl, rfl, rfl, rfl, hedit.sizeMem, hshape.sizeMem _ _⟩, hb, hempty⟩

theorem ClusterInv.truncate (h : ClusterInv s) (hok : TruncateOk s file size)
    (hsize : size < file.size) : ClusterInv (fsTruncate s file size).2.2 := by
  have hf := hok.isFile
  obtain ⟨hw, hb, hempty⟩ := (h.shape _ hf).fsTruncate rfl (h.tree.named _ (.inr hf.1)) hok.inside hsize
  have hbitmap : (fsTruncate s file size).2.2.bitmap = s.bitmap := by
    by_cases hne : s.clustersOf file.mftNumber = []
    · exact hempty hne
    · exact (hb hne).kept hok.keeps
  have h' := h.written hf hw (h.owns _ hf)
  generalize (fsTruncate s file size).2.2 = s' at hw hbitmap h' ⊢
  refine ⟨h', fun j hfj c hc => ?_⟩
  rw [hbitmap]
  by_cases hj : j = file.mftNumber
  · subst hj
    have hshape := hw.shape
    rw [← hw.kept.slot_eq] at hshape
    rw [Fs.clustersOf, hshape.dataClusters_eq (h'.tree.named _ (.inr hfj.1))] at hc
    exact h.marked _ hf c hc
  · have hf' := (hw.kept.isFile_iff hj).mp hfj
    rw [h.clustersOf_kept hw.kept hj hf'] at hc
    exact h.marked j hf' c hc

/-! ## Runs -/

/-- The condition on a call: that of `OpenSys.Fs.Clusters`, and for a truncation that it does
nothing or cuts off no cluster. -/
def SlotCall.MarksOk (t : FsSys) : SlotCall → Prop
  | .file call => call.Ok t
  | .truncate k size => ∀ file, t.handles[k]? = some file →
      file.size ≤ size ∨ TruncateOk t.fs file size

protected theorem ClusterInv.slotStep {t : FsSys} (h : ClusterInv t.fs) (call : SlotCall)
    (hok : call.MarksOk t) : ∃ t', slotStep t call = some t' ∧ ClusterInv t'.fs := by
  cases call with
  | file call => exact h.step call hok
  | truncate k size =>
    rw [slotStep]
    cases hk : t.handles[k]? with
    | none => exact ⟨t, rfl, h⟩
    | some file =>
      refine ⟨_, rfl, ?_⟩
      by_cases hsize : file.size ≤ size
      · rw [OpenSys.fsTruncate, if_pos hsize]
        exact h
      · exact h.truncate ((hok file hk).resolve_left hsize) (by omega)

/-- In every run from a formatted volume whose truncations cut off no cluster, and whose other calls
meet their conditions, all that a file reaches through its runs is marked and is its own. -/
theorem truncated_runs_held (s : Fs) (volumeSectors diskSize : Nat) (diskReady : Bool)
    (calls : List SlotCall)
    (hok : AllOk slotStep SlotCall.MarksOk ⟨fsFormat s volumeSectors diskSize diskReady, []⟩ calls) :
    Always slotStep (fun t => t.fs.RunsHeld) ⟨fsFormat s volumeSectors diskSize diskReady, []⟩
      calls :=
  (always_of_allOk (fun _ call h => ClusterInv.slotStep h call)
    ((fsFormat_formatted _ _ _).clusterInv (fsFormat_totalClusters _ _ _)) hok).mono
    fun _ => ClusterInv.runsHeld

/-- The handle behind the write that gives `/a` its two clusters. -/
theorem two_clusters_handle {s s' : Fs} {file : FsFile} {data : List UInt8}
    (hlen : data.length = 5000) (hn : Named s.mem (s.slot 16)) (hres : Resident s.mem (s.slot 16) 1)
    (hfree : s.freeClusters = List.range 239) {n : Nat}
    (hr : fsWrite s ⟨16, 1, 1, 1⟩ data = (n, file, s')) : file = ⟨16, 5001, 5001, 1⟩ := by
  have hdata : data ≠ [] := ne_nil_of_length_pos (by omega)
  have hneed : clustersFor (max (u64 (1 + data.length)) 1) = 2 := by
    rw [hlen]
    decide
  have hcount : n = 5000 := by
    have hfound := @fsWrite_found s ⟨16, 1, 1, 1⟩ data _ hdata (hres.findAttr hn)
    have hplaced : FsFile.placed ⟨16, 1, 1, 1⟩ = ⟨16, 1, 1, 1⟩ := rfl
    rw [hplaced, hres.writeAttr_eq, hres.writeResident_converts rfl (by dsimp only; omega)
      (by dsimp only; omega), hr] at hfound
    have hcount := @Resident.convertResident_count s ⟨16, 1, 1, 1⟩ data 16 1 2 hres rfl hneed
    rw [← hfound, hfree, take_range, length_range, hlen] at hcount
    exact hcount
  have hhandle : HandleMoved ⟨16, 1, 1, 1⟩ (fsWrite s ⟨16, 1, 1, 1⟩ data) := (fsWrite_moves hdata).1
  rw [hr, hcount] at hhandle
  rcases hhandle with hmoved | ⟨hzero, -⟩
  · exact hmoved
  · cases hzero

/-- A truncation inside the second of two clusters: the file keeps both. -/
theorem Formatted.truncate_inside {v : Fs} (hv : Formatted v)
    (hboot : v.boot = formatBoot 0 (2048 * 512)) (hbitmap : v.bitmap = fun _ => 0)
    {data : List UInt8} (hlen : data.length = 5000) {calls : List SlotCall}
    (hcalls : calls = [.file (.dir (.open pathA 1)), .file (.write 0 [0]), .file (.write 0 data),
      .truncate 0 4097]) : AllOk slotStep SlotCall.MarksOk ⟨v, []⟩ calls ∧
      ∃ t, Run.run slotStep ⟨v, []⟩ calls = some t ∧ t.fs.isFile 16 ∧ t.fs.clustersOf 16 = [0, 1] ∧
        t.handles = [⟨16, 4097, 4097, 1⟩] := by
  subst hcalls
  obtain ⟨s, s', s₃, n, file, hopen, hok, hwrite, hok', hn, hres, hfree, hr, hf, hn₃, hshape, -⟩ :=
    hv.two_clusters hboot hbitmap hlen
  obtain rfl := two_clusters_handle hlen hn hres hfree hr
  have hthird : fileStep ⟨s', [⟨16, 1, 1, 1⟩]⟩ (.write 0 data) =
      some ⟨s₃, [⟨16, 5001, 5001, 1⟩]⟩ := fileStep_write rfl hr
  have hclusters : s₃.clustersOf 16 = [0, 1] := hshape.dataClusters_eq hn₃
  have hcut := (@FileShape.fsTruncate s₃ 16 4097 _ ⟨16, 5001, 5001, 1⟩ hshape rfl hn₃
    (fun hnil => by cases hnil) (by decide)).1
  have hlast : ∃ s₄, fsTruncate s₃ ⟨16, 5001, 5001, 1⟩ 4097 = (0, ⟨16, 4097, 4097, 1⟩, s₄) := by
    rw [fsTruncate, if_neg (by decide)]
    exact ⟨_, rfl⟩
  obtain ⟨s₄, hlast⟩ := hlast
  rw [hlast] at hcut
  have hshape' := hcut.shape
  have hn' := hcut.edit.named hn₃ hcut.shape.used_mem
  rw [← hcut.kept.slot_eq] at hshape' hn'
  constructor
  · refine ⟨fileOk_open hv.creates.new, fun t ht => ?_⟩
    obtain rfl : _ = t := some.inj (hopen.symm.trans ht)
    refine ⟨fun file hfile => ?_, fun t ht => ?_⟩
    · obtain rfl : _ = file := some.inj hfile
      exact hok
    obtain rfl : _ = t := some.inj (hwrite.symm.trans ht)
    refine ⟨fun file hfile => ?_, fun t ht => ?_⟩
    · obtain rfl : _ = file := some.inj hfile
      exact hok'
    obtain rfl : _ = t := some.inj (hthird.symm.trans ht)
    refine ⟨fun file hfile => .inr ?_, fun _ _ => trivial⟩
    obtain rfl : _ = file := some.inj hfile
    refine ⟨hf, fun hnil => ?_, by rw [hclusters]; decide⟩
    rw [hclusters] at hnil
    cases hnil
  · refine ⟨⟨s₄, [⟨16, 4097, 4097, 1⟩]⟩, ?_, hcut.isFile hf, hshape'.dataClusters_eq hn', rfl⟩
    simp only [Run.run, slotStep, hopen, hwrite, hthird, Option.bind_some, getElem?_cons_zero, hlast,
      set_cons_zero]

/-- A file of two clusters that is cut inside the second one. -/
theorem truncated_runs_held_inside : ∃ calls : List SlotCall, ∃ t,
    Run.run slotStep ⟨smallVolume, []⟩ calls = some t ∧ t.fs.isFile 16 ∧
      t.fs.clustersOf 16 = [0, 1] ∧ t.handles = [⟨16, 4097, 4097, 1⟩] ∧
      Always slotStep (fun t => t.fs.RunsHeld) ⟨smallVolume, []⟩ calls := by
  obtain ⟨hok, t, hrun, hf, hclusters, hhandles⟩ := smallVolume_formatted.truncate_inside
    (fsFormat_boot 0 (2048 * 512) true) (fsFormat_bitmap 0 (2048 * 512) true)
    (@length_replicate _ 5000 (0 : UInt8)) rfl
  exact ⟨_, t, hrun, hf, hclusters, hhandles, truncated_runs_held emptyFs 0 (2048 * 512) true _ hok⟩

/-- A file of two clusters that is cut to nothing still names both. -/
theorem Formatted.truncate_frees {v : Fs} (hv : Formatted v)
    (hboot : v.boot = formatBoot 0 (2048 * 512)) (hbitmap : v.bitmap = fun _ => 0)
    {data : List UInt8} (hlen : data.length = 5000) :
    ¬ Always slotStep (fun t => t.fs.RunsHeld) ⟨v, []⟩
      [.file (.dir (.open pathA 1)), .file (.write 0 [0]), .file (.write 0 data), .truncate 0 0] := by
  intro h
  obtain ⟨s, s', s₃, n, file, hopen, -, hwrite, -, hn, hres, hfree, hr, hf₃, hn₃, hshape, hboot₃⟩ :=
    hv.two_clusters hboot hbitmap hlen
  obtain rfl := two_clusters_handle hlen hn hres hfree hr
  obtain ⟨-, t₁, ht₁, -, t₂, ht₂, -, t₃, ht₃, -, t₄, ht₄, hheld⟩ := h
  obtain rfl : _ = t₁ := some.inj (hopen.symm.trans ht₁)
  obtain rfl : _ = t₂ := some.inj (hwrite.symm.trans ht₂)
  have ht₃' : fileStep ⟨s', [⟨16, 1, 1, 1⟩]⟩ (.write 0 data) = _ := fileStep_write rfl hr
  obtain rfl : _ = t₃ := some.inj (ht₃'.symm.trans ht₃)
  have hcall := @FileShape.fsTruncate s₃ 16 0 _ ⟨16, 5001, 5001, 1⟩ hshape rfl hn₃
    (fun _ => zero_le _) (by decide)
  have ht₄' : slotStep ⟨s₃, [⟨16, 5001, 5001, 1⟩]⟩ (.truncate 0 0) = _ := rfl
  obtain rfl : _ = t₄ := some.inj (ht₄'.symm.trans ht₄)
  have hheld' : Fs.RunsHeld (fsTruncate s₃ ⟨16, 5001, 5001, 1⟩ 0).2.2 := hheld
  generalize (fsTruncate s₃ ⟨16, 5001, 5001, 1⟩ 0).2.2 = s₄ at hcall hheld'
  obtain ⟨hw, hcut, -⟩ := hcall
  have htotal : s₃.boot.totalClusters = 239 := by
    rw [hboot₃, hboot]
    decide
  have hclear := (hcut (by simp)).cut 0 [1] rfl rfl (by rw [htotal]; decide) (by rw [htotal]; decide)
  have hn₄ := hw.edit.named hn₃ hw.shape.used_mem
  have hshape₄ := hw.shape
  rw [← hw.kept.slot_eq] at hshape₄ hn₄
  have hreach : 0 ∈ runReach s₄.mem (s₄.slot 16) := by
    rw [hshape₄.runReach_eq hn₄]
    exact mem_cons_self
  have hmarked := hheld'.marked 16 (hw.isFile hf₃) 0 hreach
  rw [hclear] at hmarked
  cases hmarked

/-- The two clusters of `/a` are free after `fs_truncate(file, 0)`, and its runs still name them. -/
theorem truncate_frees_named_clusters : ¬ Always slotStep (fun t => t.fs.RunsHeld) ⟨smallVolume, []⟩
    [.file (.dir (.open pathA 1)), .file (.write 0 [0]), .file (.write 0 (List.replicate 5000 0)),
      .truncate 0 0] :=
  smallVolume_formatted.truncate_frees (fsFormat_boot 0 (2048 * 512) true)
    (fsFormat_bitmap 0 (2048 * 512) true) length_replicate

end OpenSys
