-- SUMMARY: The conversion of a resident file to clusters.
import OpenSys.Fs.Contents

/-!
# Conversion

A write that does not fit into the entry moves the data of the file to clusters. The attribute gets
room for the runs that are needed; when fewer clusters are free, the runs behind them are not
written, and the allocated size tells how many there are. With no free cluster at all the call
returns 0, and the attribute stays as it was made: without clusters, and without the data.
-/

namespace OpenSys

open Mem List Option Fs

variable {s s' : Fs} {m : Mem} {e i j n needed : Nat} {cs : List Nat} {file : FsFile}
  {data content : List UInt8}

/-! ## What is stored and what is recorded -/

/-- The size that the data attribute records. -/
def Fs.attrSize (s : Fs) (i : Nat) : Option Nat :=
  (findAttr s.mem (s.slot i) attrData).map fun attr =>
    if attrNonResident s.mem attr = 0 then attrLength s.mem attr - attrHeaderSize
    else nrRealSize s.mem (attr + attrHeaderSize)

/-- The bytes of the file are these, and every size that is recorded for it is theirs. -/
structure Fs.Describes (s : Fs) (i : Nat) (content : List UInt8) : Prop where
  contents : s.contents i = content
  record : (s.filename i).map (fnRealSize s.mem) = some content.length
  attr : ∀ n, s.attrSize i = some n → n = content.length

theorem Resident.describes (h : Resident s.mem (s.slot i) n) (hn : Named s.mem (s.slot i))
    (hrecord : fnRealSize s.mem (s.slot i + 48) = n) :
    s.Describes i (s.mem.readBytes (s.slot i + 377) n) := by
  have hlen : attrLength s.mem (s.slot i + 361) - attrHeaderSize = n := by
    rw [h.length, attrHeaderSize]
    omega
  refine ⟨?_, ?_, fun k hk => ?_⟩
  · rw [contents, dataBytes, h.findAttr hn, hn.filename, map_some, getD_some, hrecord]
    dsimp only
    rw [if_pos h.nonResident, hlen]
    exact take_of_length_le (length_readBytes ▸ le_rfl)
  · rw [hn.filename, map_some, hrecord, length_readBytes]
  · rw [attrSize, h.findAttr hn, map_some, if_pos h.nonResident, hlen] at hk
    rw [length_readBytes]
    exact (some.inj hk).symm

/-- The bytes in the clusters, in order. -/
theorem ShortRuns.dataBytes_eq (h : ShortRuns s.mem (s.slot i) needed cs)
    (hn : Named s.mem (s.slot i)) :
    s.dataBytes i = (List.range (cs.length * 4096)).map (s.diskView (s.slot i + 425) s.disk) := by
  have hclusters : s.clustersOf i = cs := h.dataClusters_eq hn
  rw [dataBytes, h.findAttr hn]
  dsimp only
  rw [if_neg h.nonResident, hclusters]
  have hcs : cs = (List.range cs.length).map (runStart s.mem (s.slot i + 425)) := by
    refine ext_getElem (by simp) fun k hk hk' => ?_
    rw [getElem_map, getElem_range]
    exact (h.run k hk).1.symm
  conv_lhs => rw [hcs, flatMap_map]
  exact @Blocks.flatMap_readBytes _ _ _ (s.blockAt (s.slot i + 425)) (by decide)

theorem ShortRuns.describes (h : ShortRuns s.mem (s.slot i) needed cs) (hn : Named s.mem (s.slot i))
    (hreal : nrRealSize s.mem (s.slot i + 377) = content.length)
    (hrecord : fnRealSize s.mem (s.slot i + 48) = content.length)
    (hlen : content.length ≤ cs.length * 4096)
    (hbytes : ∀ p < content.length, s.diskView (s.slot i + 425) s.disk p = content.getD p 0) :
    s.Describes i content := by
  refine ⟨?_, ?_, fun k hk => ?_⟩
  · rw [contents, h.dataBytes_eq hn, hn.filename, map_some, getD_some, hrecord,
      ← map_take, take_range, Nat.min_eq_left hlen]
    refine ext_getElem (by simp) fun p hp hp' => ?_
    rw [getElem_map, getElem_range, hbytes p hp', getD_eq_getElem?_getD,
      getElem?_eq_getElem hp', getD_some]
  · rw [hn.filename, map_some, hrecord]
  · rw [attrSize, h.findAttr hn, map_some, if_neg h.nonResident] at hk
    exact (some.inj hk).symm.trans hreal

/-! ## The volume -/

/-- The MFT lies on the volume, the disk reaches all sectors of it, and fails no operation. -/
structure Fs.DiskFits (s : Fs) : Prop where
  mft : s.boot.mftStart + s.boot.mftSize ≤ s.boot.totalClusters
  sectors : s.baseLba + s.boot.dataStart + 8 * s.boot.totalClusters ≤ 2 ^ 28
  works : s.disk.Works

theorem Fs.DiskFits.lba (h : s.DiskFits) {c : Nat} (hc : c < s.boot.totalClusters) :
    s.clusterLba c = s.baseLba + s.boot.dataStart + 8 * c := by
  have hsectors := h.sectors
  rw [clusterLba, u32, u64]
  omega

/-- Different clusters of the volume are different blocks of the disk. -/
theorem Fs.DiskFits.blocks (h : s.DiskFits) {runs : Nat} (hnodup : cs.Nodup)
    (hbelow : ∀ c ∈ cs, c < s.boot.totalClusters)
    (hrun : ∀ j (hj : j < cs.length), runStart s.mem runs j = cs[j]) : s.Blocks runs cs.length := by
  have hsectors := h.sectors
  refine ⟨fun a ha b hb hne => ?_, fun a ha => ?_⟩
  · have hca := hbelow _ (getElem_mem ha)
    have hcb := hbelow _ (getElem_mem hb)
    have hcne : cs[a] ≠ cs[b] := fun heq => hne ((hnodup.getElem_inj_iff).mp heq)
    rw [blockAt, blockAt, hrun a ha, hrun b hb, h.lba hca, h.lba hcb]
    omega
  · rw [hrun a ha, h.lba (hbelow _ (getElem_mem ha))]
    have := hbelow _ (getElem_mem ha)
    omega

/-- Two states that name the same cluster see the same byte of the disk. -/
theorem diskView_same {runs p : Nat} {d : Disk} (hlba : s'.clusterLba = s.clusterLba)
    (hrun : runStart s'.mem runs (p / 4096) = runStart s.mem runs (p / 4096)) :
    s'.diskView runs d p = s.diskView runs d p := by
  have hplace : s'.blockAt runs (p / 4096) = s.blockAt runs (p / 4096) := by
    rw [blockAt, blockAt, hlba, hrun]
  exact congrArg (fun a => d.bytes (a + p % 4096)) hplace

/-- The entry goes to its own cluster when it is stored, and no data is there. -/
theorem Fs.DiskFits.diskView_stored (h : s.DiskFits) {runs p : Nat} (hj : j < s.boot.mftSize)
    (hbelow : ∀ c ∈ cs, c < s.boot.totalClusters) (hout : ∀ c ∈ cs, ¬ s.mftCluster c)
    (hrun : ∀ k (hk : k < cs.length), runStart s.mem runs k = cs[k]) (hp : p < cs.length * 4096) :
    s.diskView runs (writeMftEntry s j).2.disk p = s.diskView runs s.disk p := by
  have hk : p / 4096 < cs.length := by omega
  have hmem := getElem_mem hk
  have hmft := h.mft
  have hsectors := h.sectors
  have hentry : u64 (s.boot.mftStart + j) = s.boot.mftStart + j := u64_of_lt (by omega)
  refine Blocks.view_congr (by decide) fun x hlo hhi => writeMftEntry_outside fun hx => ?_
  have hne : cs[p / 4096] ≠ s.boot.mftStart + j := fun heq => hout _ hmem ⟨by omega, by omega⟩
  have hc := hbelow _ hmem
  rw [blockAt, hrun _ hk, h.lba hc] at hlo hhi
  rw [hentry, Fs.InCluster, h.lba (by omega)] at hx
  omega

/-! ## The call -/

/-- Without a free cluster the attribute is converted and then left. -/
theorem convertResident_none (hj : file.mftNumber = j) (h : Resident s.mem (s.slot j) n)
    (hneed : clustersFor (max (u64 (file.position + data.length)) n) = needed)
    (hfree : s.freeClusters = []) :
    convertResident s file (s.slot j + 361) data =
      (0, file, { s with mem := convertAttr s.mem (s.slot j + 361) needed }) := by
  subst hj
  have hsame : ({ s with mem := convertAttr s.mem (s.slot file.mftNumber + 361) needed } :
      Fs).freeClusters = [] := hfree
  rw [convertResident]
  dsimp only
  rw [h.residentSize_eq, hneed, allocRuns_eq, hsame, take_nil]
  rfl

/-- The clusters that a conversion takes. -/
theorem taken_clusters (hcs : s.freeClusters.take needed = cs) :
    cs.Nodup ∧ ∀ c ∈ cs, c < s.boot.totalClusters := by
  subst hcs
  exact ⟨(nodup_freeClusters s).sublist (take_sublist _ _),
    fun c hc => (mem_freeClusters.mp (mem_of_mem_take hc)).1⟩

/-- A conversion on a disk that works: the data in the entry up to the position, and behind it as
much of the new data as the clusters have room for. -/
theorem Resident.convert_describes (h : Resident s.mem (s.slot j) n) (hj : file.mftNumber = j)
    (hn : Named s.mem (s.slot j)) (hentry : j < s.boot.mftSize) (hfits : s.DiskFits)
    (hneed : clustersFor (max (u64 (file.position + data.length)) n) = needed) (hcap : needed ≤ 228)
    (hcs : s.freeClusters.take needed = cs) (hne : cs ≠ []) (hout : ∀ c ∈ cs, ¬ s.mftCluster c)
    (hposition : file.position ≤ n) (hbig : 3711 < file.position + data.length) {w : Nat}
    (hw : w = min data.length (cs.length * 4096 - file.position)) : ∃ s',
    convertResident s file (s.slot j + 361) data = (w,
        { file with position := file.position + w, size := file.position + w }, s') ∧
      s'.Describes j ((s.mem.readBytes (s.slot j + 377) n).take file.position ++ data.take w) := by
  obtain ⟨hnodup, hbelow⟩ := taken_clusters hcs
  have hresident := h.cap
  have hsectors := hfits.sectors
  have hpos : 0 < cs.length := length_pos_iff.mpr hne
  have hfewer : cs.length ≤ needed := hcs ▸ length_take_le _ _
  have hsmall : ∀ c ∈ cs, c < 2 ^ 64 := fun c hc => by
    have := hbelow c hc
    omega
  have hrun : ∀ k (hk : k < cs.length), runStart (taking s (s.slot j) needed cs).mem
      (s.slot j + 425) k = cs[k] := fun k hk => (taken_runs hsmall hk).1
  have hfits₀ : (taking s (s.slot j) needed cs).DiskFits := ⟨hfits.mft, hfits.sectors, hfits.works⟩
  have hblocks := hfits₀.blocks hnodup hbelow hrun
  obtain ⟨d₁, hmove, hafter₁, hview₁⟩ := moveResident_view hblocks
    (s.mem.readBytes (s.slot j + 377) n) (i := 0) (k := cs.length) hfits₀.works (by omega)
  obtain ⟨d₂, hover, hafter₂, hview₂⟩ := @overlayRuns_view _ _ _ _ data hblocks
    file.position data.length 0 (hfits₀.works.after hafter₁) (Nat.zero_le _) (by omega)
  rw [Nat.zero_max, ← hw] at hover
  have hconv := convertResident_taken hj hn h hneed hcap hcs hne (w := w) (d := d₂) (by
    rw [← hover, ← hmove])
  have hstop : u64 (file.position + w) = file.position + w := u64_of_lt (by omega)
  have hmax : max (file.position + w) n = file.position + w := by omega
  rw [hstop, hmax] at hconv
  refine ⟨_, hconv, ?_⟩
  generalize hm : takenMem s.mem (s.slot j) needed cs (file.position + w) (file.position + w) s.now = m
  have hshort : ShortRuns m (s.slot j) needed cs := hm ▸ takenMem_short hcap hfewer h.type hsmall
  have hsizes : nrRealSize m (s.slot j + 377) = file.position + w ∧
      fnRealSize m (s.slot j + 48) = file.position + w :=
    hm ▸ takenMem_sizes hcap (by omega) (by omega)
  have hn' : Named m (s.slot j) := by
    have hused : mftUsedSize m (s.slot j) = 433 + 16 * needed := hshort.used
    have hedit : DataEdit s.mem m (s.slot j) := hm ▸ takenMem_edit hcap hfewer
    exact hedit.named hn (by omega)
  have hlen : ((s.mem.readBytes (s.slot j + 377) n).take file.position ++ data.take w).length =
      file.position + w := by
    rw [length_append, length_take, length_take, length_readBytes]
    omega
  have hfits₁ : ({ s.tick with mem := m, bitmap := cs.foldl Bitmap.set s.bitmap, disk := d₂ } :
      Fs).DiskFits := ⟨hfits.mft, hfits.sectors, (hfits₀.works.after hafter₁).after hafter₂⟩
  refine ShortRuns.describes (s := (writeMftEntry { s.tick with
    mem := m, bitmap := cs.foldl Bitmap.set s.bitmap, disk := d₂ } j).2) hshort hn'
    (hsizes.1.trans hlen.symm) (hsizes.2.trans hlen.symm) (by rw [hlen]; omega) fun p hp => ?_
  rw [hlen] at hp
  have hp' : p < cs.length * 4096 := by omega
  have hstored := @Fs.DiskFits.diskView_stored _ _ _ hfits₁ (s.slot j + 425) _ hentry hbelow hout
    (fun k hk => (hshort.run k hk).1) hp'
  refine Eq.trans hstored ?_
  have hk : p / 4096 < cs.length := by omega
  have hsame : ({ s.tick with mem := m, bitmap := cs.foldl Bitmap.set s.bitmap, disk := d₂ } :
      Fs).diskView (s.slot j + 425) d₂ p = (taking s (s.slot j) needed cs).diskView (s.slot j + 425) d₂ p :=
    diskView_same rfl ((hshort.run _ hk).1.trans (hrun _ hk).symm)
  refine hsame.trans ((hview₂ p hp').trans ?_)
  rw [Nat.add_zero]
  by_cases hold : p < file.position
  · rw [if_neg (by omega), hview₁ p hp', if_pos (by omega), getD_eq_getElem?_getD,
      getD_eq_getElem?_getD, getElem?_append_left (by
        rw [length_take, length_readBytes]
        omega), getElem?_take, if_pos hold]
  · rw [if_pos (by omega), getD_eq_getElem?_getD, getD_eq_getElem?_getD,
      getElem?_append_right (by
        rw [length_take, length_readBytes]
        omega), length_take, length_readBytes, Nat.min_eq_left hposition, getElem?_take,
      if_pos (by omega)]

end OpenSys
