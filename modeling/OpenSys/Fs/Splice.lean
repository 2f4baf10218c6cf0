-- SUMMARY: What fs_write leaves of a file when it writes inside it.
import OpenSys.Fs.Conversion

/-!
# Writing into a file

After `fs_write` the recorded size of a file is the place where the write ended, whatever the size
was before: a write inside a file cuts off what lies behind it. Behind this rule, each of the three
ways to write has its own conditions. In the entry every write is exact. A conversion is exact when
there are clusters for all of the data. A write to clusters is exact when it starts in the first
one, since the loop always begins with the first cluster.
-/

namespace OpenSys

open Mem List Option FsFile

variable {s : Fs} {i j n needed : Nat} {cs : List Nat} {file : FsFile} {data content : List UInt8}

/-! ## What a description says about the shapes -/

theorem Fs.Describes.of_fresh (h : s.Describes i content) (hn : Named s.mem (s.slot i))
    (hused : mftUsedSize s.mem (s.slot i) = 369) : content = [] := by
  rw [← h.contents, Fs.contents, Fs.dataBytes, findAttr_fresh hn hused (by decide), take_nil]

theorem Fs.Describes.of_resident (h : s.Describes i content) (hn : Named s.mem (s.slot i))
    (hres : Resident s.mem (s.slot i) n) :
    n = content.length ∧ s.mem.readBytes (s.slot i + 377) n = content := by
  have hlen : attrLength s.mem (s.slot i + 361) - attrHeaderSize = n := by
    rw [hres.length, attrHeaderSize]
    omega
  have hsize : n = content.length := h.attr n (by
    rw [Fs.attrSize, hres.findAttr hn, map_some, if_pos hres.nonResident, hlen])
  have hrecord := h.record
  rw [hn.filename, map_some] at hrecord
  refine ⟨hsize, ?_⟩
  rw [← h.contents, Fs.contents, Fs.dataBytes, hres.findAttr hn, hn.filename, map_some,
    getD_some, some.inj hrecord, ← hsize]
  dsimp only
  rw [if_pos hres.nonResident, hlen, take_of_length_le (length_readBytes ▸ le_rfl)]
  rfl

theorem Fs.Describes.of_runs (h : s.Describes i content) (hn : Named s.mem (s.slot i))
    (hruns : ShortRuns s.mem (s.slot i) needed cs) {p : Nat} (hp : p < content.length) :
    s.diskView (s.slot i + 425) s.disk p = content.getD p 0 := by
  have hrecord := h.record
  rw [hn.filename, map_some] at hrecord
  have hcontent : content = ((List.range (cs.length * 4096)).map
      (s.diskView (s.slot i + 425) s.disk)).take content.length := by
    conv_lhs => rw [← h.contents, Fs.contents, hruns.dataBytes_eq hn, hn.filename, map_some,
      getD_some, some.inj hrecord]
  have hlen : content.length ≤ cs.length * 4096 := by
    have := congrArg List.length hcontent
    rw [length_take, length_map, length_range] at this
    omega
  rw [getD_eq_getElem?_getD, hcontent, getElem?_take, if_pos hp, getElem?_map,
    getElem?_range (by omega)]
  rfl

/-! ## The three ways to write -/

theorem fnRealSize_sizeMem {m : Mem} {e size now : Nat} (hsize : size < 2 ^ 64) :
    fnRealSize (sizeMem m e size now) (e + 48) = size := by
  rw [sizeMem]
  exact (readLE_writeLE_of_disjoint (by omega)).trans (readLE_writeLE hsize)

/-- In the entry: the bytes before the position stay, and what lies behind the new ones is gone. -/
theorem Resident.write_describes (h : Resident s.mem (s.slot j) n) (hj : file.mftNumber = j)
    (hn : Named s.mem (s.slot j)) (hposition : file.position ≤ n)
    (hfit : file.position + data.length ≤ 3711) : ∃ s',
    writeResident s file (s.slot j + 361) data = (data.length, { file with
        position := file.position + data.length, size := file.position + data.length }, s') ∧
      s'.Describes j ((s.mem.readBytes (s.slot j + 377) n).take file.position ++ data) := by
  refine ⟨_, writeResident_eq hj hn h hfit, ?_⟩
  have hholds := h.put hposition hfit s.now
  have hlen : ((s.mem.readBytes (s.slot j + 377) n).take file.position ++ data).length =
      file.position + data.length := by
    rw [length_append, length_take_of_le (by rw [length_readBytes]; exact hposition)]
  have hedit : DataEdit s.mem (residentAttr s.mem (s.slot j) file.position data) (s.slot j) :=
    residentAttr_edit hfit
  have hn' := hedit.sizeMem.named hn (FileShape.resident hholds.toResident).used_mem
  have hdesc := Resident.describes (s := (writeMftEntry { s.tick with
    mem := sizeMem (residentAttr s.mem (s.slot j) file.position data) (s.slot j)
      (file.position + data.length) s.now } j).2) hholds.toResident hn'
    ((fnRealSize_sizeMem (by omega)).trans hlen.symm)
  have hdata := hholds.data
  generalize (s.mem.readBytes (s.slot j + 377) n).take file.position ++ data = bytes at hdata hdesc ⊢
  exact (congrArg _ hdata).mp hdesc

/-- In clusters, from a position in the first one. -/
theorem RunArray.write_describes (h : RunArray s.mem (s.slot j) cs) (hj : file.mftNumber = j)
    (hn : Named s.mem (s.slot j)) (hentry : j < s.boot.mftSize) (hfits : s.DiskFits)
    (hnodup : cs.Nodup) (hbelow : ∀ c ∈ cs, c < s.boot.totalClusters)
    (hout : ∀ c ∈ cs, ¬ s.mftCluster c) (hcontent : s.Describes j content)
    (hposition : file.position ≤ content.length) (hfirst : file.position < 4096)
    (hroom : file.position + data.length ≤ cs.length * 4096) : ∃ s',
    writeNonResident s file (s.slot j + 361) data = (data.length, { file with
        position := file.position + data.length, size := file.position + data.length }, s') ∧
      s'.Describes j (content.take file.position ++ data) := by
  have hcap := h.cap
  have hrun : ∀ k (hk : k < cs.length), runStart s.mem (s.slot j + 425) k = cs[k] :=
    fun k hk => (h.run k hk).1
  have hblocks := hfits.blocks hnodup hbelow hrun
  have hrounds : u64 (file.position + data.length + fsClusterSize - 1) / fsClusterSize =
      (file.position + data.length + 4095) / 4096 := by
    rw [fsClusterSize, u64_of_lt (by omega)]
    congr 1
  obtain ⟨d, hloop, hafter, hview⟩ := @writeRuns_view _ _ _ _ data hblocks file.position
    ((file.position + data.length + 4095) / 4096) 0 0 hfits.works hfirst hroom (Nat.zero_le _)
    (.inl (by rw [if_pos rfl]; omega)) (by omega)
  obtain ⟨w, d', hloop', hwrite⟩ := writeNonResident_eq hj hn h data
  rw [hrounds] at hloop'
  obtain ⟨rfl, hdisk⟩ := Prod.mk.inj (hloop'.symm.trans hloop)
  obtain rfl : d' = d := congrArg Fs.disk hdisk
  rw [u64_of_lt (by omega)] at hwrite
  refine ⟨_, hwrite, ?_⟩
  obtain ⟨stop, hstop⟩ : ∃ stop, stop = file.position + data.length := ⟨_, rfl⟩
  rw [← hstop]
  have hruns : RunArray (rewrittenAttr s.mem (s.slot j) cs.length stop)
      (s.slot j) cs := (h.rewritten _).toRunArray
  have hreal : nrRealSize (rewrittenAttr s.mem (s.slot j) cs.length stop)
      (s.slot j + 377) = stop := by
    rw [rewrittenAttr]
    refine (readLE_writeLE_of_disjoint (by omega)).trans
      ((readLE_writeLE_of_disjoint (by omega)).trans (readLE_writeLE (by omega)))
  have hedit : DataEdit s.mem (rewrittenAttr s.mem (s.slot j) cs.length stop)
      (s.slot j) := rewrittenAttr_frame.mono (by omega)
  generalize rewrittenAttr s.mem (s.slot j) cs.length stop = m₁
    at hruns hreal hedit
  have hframe : Mem.Frame _ m₁ (sizeMem m₁ (s.slot j) stop s.now) := sizeMem_frame
  have hrecord : fnRealSize (sizeMem m₁ (s.slot j) stop s.now)
      (s.slot j + 48) = stop := fnRealSize_sizeMem (by omega)
  have hreal' := (hframe.readLE (by omega)).trans hreal
  have hused : mftUsedSize (sizeMem m₁ (s.slot j) stop s.now) (s.slot j) =
      mftUsedSize m₁ (s.slot j) := hframe.readLE (by omega)
  have hruns' : RunArray (sizeMem m₁ (s.slot j) stop s.now) (s.slot j) cs :=
    hruns.congr hused (hframe.agree (by omega))
  have hn' : Named (sizeMem m₁ (s.slot j) stop s.now) (s.slot j) := by
    have := hruns'.used
    exact hedit.sizeMem.named hn (by omega)
  generalize sizeMem m₁ (s.slot j) stop s.now = m at hrecord hreal' hruns' hn'
  have hlen : (content.take file.position ++ data).length = stop := by
    rw [length_append, length_take]
    omega
  have hfits' : ({ s.tick with mem := m, disk := d' } : Fs).DiskFits :=
    ⟨hfits.mft, hfits.sectors, hfits.works.after hafter⟩
  refine ShortRuns.describes (s := (writeMftEntry { s.tick with mem := m, disk := d' } j).2)
    hruns'.short hn' (hreal'.trans hlen.symm) (hrecord.trans hlen.symm) (by omega)
    fun p hp => ?_
  rw [hlen] at hp
  have hp' : p < cs.length * 4096 := by omega
  refine (@Fs.DiskFits.diskView_stored _ _ _ hfits' (s.slot j + 425) _ hentry hbelow hout
    (fun k hk => (hruns'.run k hk).1) hp').trans ?_
  have hk : p / 4096 < cs.length := by omega
  have hsame : ({ s.tick with mem := m, disk := d' } : Fs).diskView (s.slot j + 425) d' p =
      s.diskView (s.slot j + 425) d' p := diskView_same rfl ((hruns'.run _ hk).1.trans (hrun _ hk).symm)
  refine hsame.trans ((hview p hp').trans ?_)
  rw [Nat.add_zero]
  by_cases hbefore : p < file.position
  · have hview₀ := hcontent.of_runs hn h.short (p := p) (by omega)
    rw [if_neg (by omega)]
    refine Eq.trans hview₀ ?_
    rw [getD_eq_getElem?_getD, getD_eq_getElem?_getD, getElem?_append_left (by
      rw [length_take]
      omega), getElem?_take, if_pos hbefore]
  · rw [if_pos (by omega), getD_eq_getElem?_getD, getD_eq_getElem?_getD,
      getElem?_append_right (by
        rw [length_take]
        omega), length_take, Nat.min_eq_left hposition]

/-! ## The call -/

/-- What `fs_write` does not look at: the files are in one of their shapes and have their clusters
to themselves, the clusters that are taken are there and are no clusters of the MFT, the disk
carries out its operations, the first data of a file fits into its entry, and a write to clusters
starts in the first one and ends in the last. -/
structure PutOk (s : Fs) (file : FsFile) (data : List UInt8) : Prop where
  files : FilesOk s
  take : TakeOk s file data
  fits : s.DiskFits
  small : file.place + data.length + 4095 < 2 ^ 64
  first : findAttr s.mem (s.slot file.mftNumber) attrData = none → data.length ≤ 3703
  early : ∀ attr, findAttr s.mem (s.slot file.mftNumber) attrData = some attr →
    attrNonResident s.mem attr ≠ 0 → file.place < 4096 ∧
      file.place + data.length ≤ (s.clustersOf file.mftNumber).length * 4096

/-- A conversion that finds all its clusters takes all of the data. -/
theorem clustersFor_room {stop k : Nat} (hstop : stop + 4095 < 2 ^ 64) (hk : clustersFor stop = k) :
    stop ≤ k * 4096 := by
  rw [clustersFor, fsClusterSize, u64_of_lt (by omega)] at hk
  split_ifs at hk <;> omega

/-- A resident file, whichever way the write takes. -/
theorem Resident.writeResident_describes {take : Nat} (h : Resident s.mem (s.slot j) n)
    (hj : file.mftNumber = j) (hn : Named s.mem (s.slot j)) (hentry : j < s.boot.mftSize)
    (hfits : s.DiskFits) (hposition : file.position ≤ n)
    (hstop : file.position + data.length + 4095 < 2 ^ 64)
    (htake : take = if 3711 < file.position + data.length then
      clustersFor (max (file.position + data.length) n) else 0)
    (hcap : take ≤ 228) (hfree : take ≤ s.freeClusters.length)
    (hout : ∀ c ∈ s.freeClusters.take take, ¬ s.mftCluster c) : ∃ s',
    writeResident s file (s.slot j + 361) data = (data.length, { file with
        position := file.position + data.length, size := file.position + data.length }, s') ∧
      s'.Describes j ((s.mem.readBytes (s.slot j + 377) n).take file.position ++ data) := by
  by_cases hfit : 3711 < file.position + data.length
  · have hresident := h.cap
    have hmod : u64 (file.position + data.length) = file.position + data.length := u64_of_lt (by omega)
    have hconv := h.writeResident_converts hj (by omega) hfit
    rw [if_pos hfit] at htake
    have hneed : clustersFor (max (u64 (file.position + data.length)) n) = take := by
      rw [hmod, htake]
    have hlen : (s.freeClusters.take take).length = take := length_take_of_le hfree
    have hpos : 0 < take := htake ▸ clustersFor_pos _
    have hroom : file.position + data.length ≤ take * 4096 := by
      have := @clustersFor_room (max (file.position + data.length) n) _ (by omega) htake.symm
      omega
    have hne : s.freeClusters.take take ≠ [] := fun hnil => by
      rw [hnil, length_nil] at hlen
      omega
    obtain ⟨s', heq, hdesc⟩ := h.convert_describes hj hn hentry hfits hneed hcap rfl hne hout hposition
      hfit (w := data.length) (by rw [hlen]; omega)
    rw [take_length] at hdesc
    exact ⟨s', hconv.trans heq, hdesc⟩
  · exact h.write_describes hj hn hposition (by omega)

/-- The first data of a file, in its entry. -/
theorem fresh_fsWrite_describes (hused : mftUsedSize s.mem (s.slot file.mftNumber) = 369)
    (hn : Named s.mem (s.slot file.mftNumber)) (hdata : data ≠ []) (hplace : file.place = 0)
    (hlen : data.length ≤ 3703) : ∃ s',
    fsWrite s file data = (data.length, file.wrote data.length, s') ∧
      s'.Describes file.mftNumber data := by
  have hnumber := file.placed_mftNumber
  have hposition : file.placed.position = 0 := file.placed_position.trans hplace
  obtain ⟨hattr, hedit, hsmall, -⟩ := createDataAttr_spec hused data.length
  have hres := hsmall hlen
  have heq := @fsWrite_eq s file data hdata
  rw [findAttr_fresh hn hused (by decide)] at heq
  generalize createDataAttr s.mem (s.slot file.mftNumber) data.length = r at heq hattr hedit hres
  obtain ⟨attr, m⟩ := r
  dsimp only at heq hattr hedit hres
  subst hattr
  have hn' : Named m (s.slot file.mftNumber) := hedit.named hn (FileShape.resident hres).used_mem
  obtain ⟨s', hwrite, hdesc⟩ := @Resident.write_describes { s with mem := m } _ _ _ data
    hres hnumber hn' (by rw [hposition]) (by rw [hposition]; omega)
  rw [hposition, Nat.zero_add] at hwrite
  rw [hposition, take_zero] at hdesc
  refine ⟨s', ?_, hdesc⟩
  rw [heq, wrote, ← hwrite]
  exact Resident.writeAttr_eq (s := { s with mem := m }) hres

/-- A write whose conditions are met leaves the old bytes up to its place and the new ones behind
them, and nothing else. -/
theorem PutOk.fsWrite_describes (h : PutOk s file data) (hdata : data ≠ [])
    (hcontent : s.Describes file.mftNumber content) (hplace : file.place ≤ content.length) : ∃ s',
    fsWrite s file data = (data.length, file.wrote (file.place + data.length), s') ∧
      s'.Describes file.mftNumber (content.take file.place ++ data) := by
  have hf := h.take.isFile
  have hn := h.files.tree.named _ (.inr hf.1)
  have hentry := h.files.tree.node_lt (.inr hf.1)
  have ho := h.files.owns _ hf
  have hsmall := h.small
  have hshape := h.files.shape _ hf
  have hnumber := file.placed_mftNumber
  have hposition := file.placed_position
  have hearly := h.early
  rw [wrote, ← hposition]
  generalize s.clustersOf file.mftNumber = cs at hshape ho hearly
  cases hshape with
  | fresh hused =>
    obtain rfl := hcontent.of_fresh hn hused
    have hzero : file.place = 0 := Nat.le_zero.mp hplace
    obtain ⟨s', hwrite, hdesc⟩ := fresh_fsWrite_describes hused hn hdata hzero
      (h.first (findAttr_fresh hn hused (by decide)))
    rw [hposition, hzero, Nat.zero_add]
    exact ⟨s', hwrite, hdesc⟩
  | resident hres =>
    obtain ⟨rfl, hbytes⟩ := hcontent.of_resident hn hres
    obtain ⟨s', hwrite, hdesc⟩ := hres.writeResident_describes hnumber hn hentry h.fits
      (by rw [hposition]; exact hplace) (by rw [hposition]; exact hsmall)
      (by
        rw [hposition]
        exact hres.clustersToTake_eq rfl hn hdata (by omega)) h.take.cap h.take.free h.take.outside
    refine ⟨s', ?_, hbytes ▸ hdesc⟩
    rw [fsWrite_found hdata (hres.findAttr hn), hres.writeAttr_eq, hwrite]
  | runs hruns =>
    obtain ⟨hfirst, hroom⟩ := hearly _ (hruns.findAttr hn) hruns.nonResident
    obtain ⟨s', hwrite, hdesc⟩ := @RunArray.write_describes s _ _ file.placed data _ hruns.toRunArray
      hnumber hn hentry h.fits ho.nodup ho.below ho.outside hcontent
      (by rw [hposition]; exact hplace) (by rw [hposition]; exact hfirst)
      (by rw [hposition]; exact hroom)
    refine ⟨s', ?_, hdesc⟩
    rw [fsWrite_found hdata (hruns.findAttr hn), hruns.writeAttr_eq, hwrite]

/-! ## A file of some bytes -/

theorem writeMftEntry_fails : (writeMftEntry s i).2.disk.fails = s.disk.fails := by
  obtain ⟨d, hwrite, hasked, -⟩ := writeCluster_spec s (u64 (s.boot.mftStart + i))
    fun x => s.mem (s.slot i + x)
  rw [writeMftEntry, hwrite]
  exact hasked.fails

/-- `fs_open` leaves the disk's behaviour and its place on the disk alone. -/
theorem fsOpen_volume {s' : Fs} {path : List UInt8} {mode : Nat} {f : Option FsFile}
    (hpath : NewPath s path) (h : fsOpen s path mode = some (f, s')) :
    s'.disk.fails = s.disk.fails ∧ s'.baseLba = s.baseLba := by
  obtain ⟨f', hsame⟩ | ⟨i, p, s₁, -, hs₁, hmade⟩ := @fsOpen_cases s path mode (.inr (.inr hpath))
  · cases hsame.symm.trans h
    exact ⟨rfl, rfl⟩
  cases hmade.symm.trans h
  have hcreate : (createEntry s i p 0 (splitPath path).2).disk = s.disk ∧
      (createEntry s i p 0 (splitPath path).2).baseLba = s.baseLba := by
    rw [createEntry]
    dsimp only
    split_ifs <;> exact ⟨rfl, rfl⟩
  rw [hs₁]
  refine ⟨?_, hcreate.2⟩
  rw [stored, writeMftEntry_fails, writeMftEntry_fails, hcreate.1]

/-- The volume `v` after `/a` was made and has got these bytes. -/
structure FileWith (v s : Fs) (bytes : List UInt8) : Prop where
  files : FilesOk s
  isFile : s.isFile 16
  resident : Resident s.mem (s.slot 16) bytes.length
  describes : s.Describes 16 bytes
  boot : s.boot = v.boot
  base : s.baseLba = v.baseLba
  fails : s.disk.fails = v.disk.fails

/-- A new file `/a` with a few bytes. -/
theorem Formatted.file_with {v : Fs} (hv : Formatted v) (htotal : v.boot.totalClusters ≤ 2 ^ 64)
    {mode : Nat} (hmode : mode = 1 ∨ mode = 2) {bytes : List UInt8} (hbytes : bytes ≠ [])
    (hlen : bytes.length ≤ 3703) : ∃ s s' : Fs,
    fsOpen v pathA mode = some (some ⟨16, 0, 0, mode⟩, s) ∧ NewFile v s 16 ∧
      fsWrite s ⟨16, 0, 0, mode⟩ bytes = (bytes.length, ⟨16, bytes.length, bytes.length, mode⟩, s') ∧
      FileWith v s' bytes := by
  have hmod : mode % 256 = mode := by omega
  have hmode' : mode ≠ 0 := by omega
  obtain ⟨s, hopen, hnew⟩ := hv.fsTree.fsOpen_new hv.creates hmode'
  rw [hmod] at hopen
  have hn := hnew.tree.named 16 (.inr hnew.isFile.1)
  have hplace : place ⟨16, 0, 0, mode⟩ = 0 := by
    rw [place]
    split_ifs <;> rfl
  have hwrote : wrote ⟨16, 0, 0, mode⟩ bytes.length = ⟨16, bytes.length, bytes.length, mode⟩ := by
    rw [wrote, placed]
    split_ifs <;> rfl
  obtain ⟨s', hwrite, ha⟩ := @fsWrite_fresh _ ⟨16, 0, 0, mode⟩ _ _ hnew.used rfl hn hplace hbytes hlen
  obtain ⟨s'', hwrite', hdesc⟩ := @fresh_fsWrite_describes _ ⟨16, 0, 0, mode⟩ _ hnew.used hn hbytes
    hplace hlen
  obtain rfl : s' = s'' := congrArg (fun r => r.2.2) (hwrite.symm.trans hwrite')
  rw [hwrote] at hwrite
  have hfiles := (hv.clusterInv htotal).toFilesOk.dataKept hnew.tree hnew.data
  have hfiles' := hfiles.written hnew.isFile ha.written .nil
  have hfile := ha.written.isFile hnew.isFile
  have hvol := fsOpen_volume hv.newPath hopen
  have hslot : s'.slot 16 = s.slot 16 := ha.written.kept.slot_eq 16
  refine ⟨s, s', hopen, hnew, hwrite, hfiles', hfile, hslot ▸ ha.holds.toResident, hdesc,
    ha.written.boot.trans hnew.data.kept.boot, ha.written.base.trans hvol.2, ?_⟩
  rw [ha.disk, writeMftEntry_fails]
  exact hvol.1

/-- `fs_format` leaves the disk's behaviour and the volume's place on the disk alone. -/
theorem fsFormat_volume (volumeSectors diskSize : Nat) (diskReady : Bool) :
    (fsFormat s volumeSectors diskSize diskReady).disk.fails = s.disk.fails ∧
      (fsFormat s volumeSectors diskSize diskReady).baseLba = s.baseLba := by
  have hkeep : ∀ (l : List Nat) (s : Fs),
      (l.foldl (fun s i => (writeMftEntry s i).2) s).disk.fails = s.disk.fails ∧
        (l.foldl (fun s i => (writeMftEntry s i).2) s).baseLba = s.baseLba := by
    intro l
    induction l with
    | nil => exact fun _ => ⟨rfl, rfl⟩
    | cons i l ih =>
      intro s
      rw [foldl_cons]
      exact ⟨(ih _).1.trans writeMftEntry_fails, (ih _).2⟩
  unfold fsFormat
  dsimp only
  generalize FsBoot.mk _ _ _ _ _ = boot
  generalize List.range 128 = l
  cases diskReady with
  | false => exact ⟨rfl, rfl⟩
  | true =>
    refine ⟨(hkeep l _).1.trans ?_, (hkeep l _).2⟩
    dsimp only
    rw [diskWrite]
    split_ifs <;> rfl

theorem smallVolume_total : smallVolume.boot.totalClusters ≤ 2 ^ 64 := by
  rw [smallVolume]
  exact fsFormat_totalClusters 0 (2048 * 512) true

theorem smallVolume_fails : smallVolume.disk.fails = emptyFs.disk.fails := by
  rw [smallVolume]
  exact (fsFormat_volume 0 (2048 * 512) true).1

theorem smallVolume_base : smallVolume.baseLba = emptyFs.baseLba := by
  rw [smallVolume]
  exact (fsFormat_volume 0 (2048 * 512) true).2

/-- On the small volume, a file `/a` with a few bytes takes some more. -/
theorem FileWith.putOk {s : Fs} {bytes data : List UInt8} {file : FsFile}
    (h : FileWith smallVolume s bytes) (hfile : file.mftNumber = 16)
    (hlen : file.place + data.length ≤ 3711) (hdata : data ≠ []) : PutOk s file data := by
  have hn : Named s.mem (s.slot 16) := h.files.tree.named 16 (.inr h.isFile.1)
  have hboot : s.boot = formatBoot 0 (2048 * 512) :=
    h.boot.trans (fsFormat_boot 0 (2048 * 512) true)
  have htake : clustersToTake s file data = 0 := by
    rw [h.resident.clustersToTake_eq hfile hn hdata (by omega), if_neg (by omega)]
  have hattr := h.resident.findAttr hn
  refine ⟨h.files, ⟨hfile ▸ h.isFile, by omega, by omega, by omega, ?_⟩, ⟨?_, ?_, ?_⟩, by omega, ?_, ?_⟩
  · rw [htake]
    simp
  · rw [hboot]
    decide
  · rw [hboot, h.base, smallVolume_base]
    decide
  · intro k _
    rw [h.fails, smallVolume_fails]
    rfl
  · rw [hfile, hattr]
    intro hnone
    cases hnone
  · rw [hfile, hattr]
    intro attr hsome hnon
    cases hsome
    exact absurd h.resident.nonResident hnon

/-! ## Overwriting -/

/-- A write at position `p` of a file puts the bytes in their place, if it returns their number: what
was before and behind them stays, and every size is that of the result. -/
def Splices (s : Fs) (handle : FsFile) (p : Nat) (data : List UInt8) : Prop :=
  let old := s.contents handle.mftNumber
  let r := fsWrite s (fsSeek handle p 0).2 data
  r.1 = data.length → r.2.2.Describes handle.mftNumber
      (old.take p ++ data ++ old.drop (p + data.length)) ∧
    r.2.1.size = max old.length (p + data.length)

/-- `fs_seek` from the start, to a position within the size. -/
theorem fsSeek_start {handle : FsFile} {p : Nat} (hp : p ≤ handle.size) :
    (fsSeek handle p 0).2 = { handle with position := p } := by
  have hmin : min ((0 : Int) + p).toNat handle.size = p := by omega
  rw [fsSeek, if_pos rfl]
  dsimp only
  rw [hmin]

end OpenSys
