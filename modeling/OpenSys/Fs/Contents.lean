-- SUMMARY: The bytes stored for a file, and the loops of fs_write on a working disk.
import OpenSys.Fs.Transfer
import OpenSys.Lib.Blocks

/-!
# Contents

The bytes of a file are in its entry or in its clusters, and its recorded size says how many of
them count. The clusters of a file are blocks of the disk. When the disk carries out every
operation, each round of a loop of `fs_write` is one write into one block, whether it reads the
cluster before or not.
-/

namespace OpenSys

open Mem List Nat

/-! ## What is stored for a file -/

/-- The bytes of the data attribute of an entry, wherever they are. -/
def Fs.dataBytes (s : Fs) (i : Nat) : List UInt8 :=
  match findAttr s.mem (s.slot i) attrData with
  | none => []
  | some attr =>
    if attrNonResident s.mem attr = 0 then
      s.mem.readBytes (attr + attrHeaderSize) (attrLength s.mem attr - attrHeaderSize)
    else (s.clustersOf i).flatMap fun c => s.disk.bytes.readBytes (s.clusterLba c * 512) 4096

/-- The bytes of a file, as many as its size says. -/
def Fs.contents (s : Fs) (i : Nat) : List UInt8 :=
  (s.dataBytes i).take (((s.filename i).map (fnRealSize s.mem)).getD 0)

/-! ## A disk that carries out its operations -/

/-- The disk fails none of the operations that are still to come. -/
def Disk.Works (d : Disk) : Prop := ∀ k, d.ops ≤ k → d.fails k = false

/-- One disk after another, with some operations between them that were all carried out. -/
structure Disk.After (d d' : Disk) : Prop where
  fails : d'.fails = d.fails
  ops : d.ops ≤ d'.ops

theorem Disk.After.refl (d : Disk) : d.After d := ⟨rfl, le_rfl⟩

theorem Disk.After.trans {d d' d'' : Disk} (h : d.After d') (h' : d'.After d'') : d.After d'' :=
  ⟨h'.fails.trans h.fails, h.ops.trans h'.ops⟩

theorem Disk.Works.after {d d' : Disk} (h : d.Works) (hd : d.After d') : d'.Works :=
  fun k hk => by
    rw [hd.fails]
    exact h k (hd.ops.trans hk)

section Loops

variable {s : Fs} {d : Disk} {c runs n : Nat} {l data : List UInt8}

theorem carries_of_works (hworks : d.Works) (hreach : s.clusterLba c ≤ 0x0FFFFFFF) {k : Nat}
    (hk : d.ops ≤ k) : ({ s with disk := d } : Fs).Carries c k := ⟨hreach, hworks k hk⟩

/-- A cluster as a buffer with new bytes in it. -/
theorem writeBytes_cluster {m buf : Mem} {a offset : Nat} (hfit : offset + l.length ≤ 4096)
    (hbuf : ∀ x < 4096, x < offset ∨ offset + l.length ≤ x → buf x = m (a + x)) :
    m.writeBytes a ((buf.writeBytes offset l).readBytes 0 4096) = m.writeBytes (a + offset) l := by
  funext x
  by_cases hin : a ≤ x ∧ x < a + 4096
  · obtain ⟨y, rfl⟩ := Nat.exists_eq_add_of_le hin.1
    have hy : y < 4096 := by omega
    have hbyte : ((buf.writeBytes offset l).readBytes 0 4096).getD y 0 = buf.writeBytes offset l y := by
      simp [readBytes, hy]
    rw [writeBytes, length_readBytes, if_pos hin, Nat.add_sub_cancel_left, hbyte]
    by_cases hnew : offset ≤ y ∧ y < offset + l.length
    · rw [writeBytes, if_pos hnew, writeBytes, if_pos (by omega), Nat.add_sub_add_left]
    · rw [writeBytes_outside (by omega), writeBytes_outside (by omega)]
      exact hbuf y hy (by omega)
  · rw [writeBytes_outside (by rw [length_readBytes]; omega), writeBytes_outside (by omega)]

/-- New bytes in a cluster, with the rest as it was on the disk or with nothing left of it. -/
theorem patch_works (hworks : d.Works) (hreach : s.clusterLba c ≤ 0x0FFFFFFF) (offset : Nat)
    (hfit : offset + l.length ≤ 4096) (reads : Prop) [Decidable reads]
    (hreads : ¬ reads → offset = 0 ∧ l.length = 4096) :
    ∃ d', (if reads then
        match readCluster { s with disk := d } c s.uninit with
        | (_, buf, s) => patchCluster s c offset l buf
      else patchCluster { s with disk := d } c offset l s.uninit) = { s with disk := d' } ∧
      d.After d' ∧ d'.bytes = d.bytes.writeBytes (s.clusterLba c * 512 + offset) l := by
  obtain ⟨d₁, buf, hpatch, hfails₁, hops₁, hbytes₁, hbuf⟩ :=
    patch_buffer (s := { s with disk := d }) rfl c offset l reads
  have hafter₁ : d.After d₁ := by
    refine ⟨hfails₁, ?_⟩
    rw [hops₁, Fs.writeOp, Fs.nextOp]
    dsimp only
    split_ifs <;> omega
  obtain ⟨d', hwrite, hasked, hbytes⟩ := writeCluster_spec { s with disk := d₁ } c
    (buf.writeBytes offset l)
  rw [if_pos (carries_of_works (hworks.after hafter₁) hreach le_rfl)] at hbytes
  have hops : d'.ops = d₁.ops + 1 := hasked.ops.trans (if_pos hreach)
  refine ⟨d', hpatch.trans hwrite, hafter₁.trans ⟨hasked.fails, by omega⟩, hbytes.trans ?_⟩
  rw [hbytes₁]
  refine writeBytes_cluster hfit fun x hx hout => ?_
  by_cases hr : reads
  · exact hbuf hr (carries_of_works hworks hreach le_rfl) x hx
  · have := hreads hr
    omega

/-- Where the clusters of the runs are on the disk. -/
def Fs.blockAt (s : Fs) (runs i : Nat) : Nat := s.clusterLba (runStart s.mem runs i) * 512

/-- The first `n` runs name different clusters that the disk can reach. -/
structure Fs.Blocks (s : Fs) (runs n : Nat) : Prop where
  apart : Blocks.Apart 4096 n (s.blockAt runs)
  reach : ∀ i < n, s.clusterLba (runStart s.mem runs i) ≤ 0x0FFFFFFF

/-- The bytes of the clusters of the runs, in order, on the disk `d`. -/
def Fs.diskView (s : Fs) (runs : Nat) (d : Disk) (p : Nat) : UInt8 :=
  Blocks.view 4096 (s.blockAt runs) d.bytes p

/-- One write into cluster `i`. -/
theorem diskView_write (hblocks : s.Blocks runs n) {i offset p : Nat} (hi : i < n)
    (hfit : offset + l.length ≤ 4096) (hp : p < n * 4096) {d' : Disk}
    (hbytes : d'.bytes =
      d.bytes.writeBytes (s.clusterLba (runStart s.mem runs i) * 512 + offset) l) :
    s.diskView runs d' p = if i * 4096 + offset ≤ p ∧ p < i * 4096 + offset + l.length then
      l.getD (p - (i * 4096 + offset)) 0 else s.diskView runs d p := by
  rw [Fs.diskView, hbytes]
  exact Blocks.view_writeBytes (by decide) hblocks.apart hi hfit (by omega)

/-- The loop that moves data out of an entry, from cluster `i` on. -/
theorem moveResident_view (hblocks : s.Blocks runs n) (existing : List UInt8) {k i : Nat}
    (hworks : d.Works) (hk : i + k ≤ n) :
    ∃ d', moveResident runs existing k { s with disk := d } i = { s with disk := d' } ∧ d.After d' ∧
      ∀ p < n * 4096, s.diskView runs d' p =
        if 4096 * i ≤ p ∧ p < 4096 * (i + k) then existing.getD p 0 else s.diskView runs d p := by
  induction k generalizing i d with
  | zero => exact ⟨d, rfl, .refl d, fun p _ => (if_neg (by omega)).symm⟩
  | succ k ih =>
    obtain ⟨d₁, hwrite, hasked, hbytes⟩ := writeCluster_spec { s with disk := d }
      (runStart s.mem runs i) (residentCluster existing i)
    have hreach := hblocks.reach i (by omega)
    rw [if_pos (carries_of_works hworks hreach le_rfl)] at hbytes
    have hops : d₁.ops = d.ops + 1 := hasked.ops.trans (if_pos hreach)
    have hafter : d.After d₁ := ⟨hasked.fails, by omega⟩
    obtain ⟨d', hrun, hafter', hview⟩ := ih (i := i + 1) (hworks.after hafter) (by omega)
    refine ⟨d', ?_, hafter.trans hafter', fun p hp => ?_⟩
    · rw [moveResident]
      rw [hwrite, hrun]
    have hfit : 0 + ((residentCluster existing i).readBytes 0 4096).length ≤ 4096 := by
      rw [length_readBytes, Nat.zero_add]
    rw [← Nat.add_zero (_ * 512)] at hbytes
    have hone := diskView_write (d := d) hblocks (by omega) hfit hp hbytes
    rw [length_readBytes, Nat.add_zero, Nat.mul_comm i] at hone
    rw [hview p hp]
    by_cases hlater : 4096 * (i + 1) ≤ p ∧ p < 4096 * (i + 1 + k)
    · rw [if_pos hlater, if_pos (by omega)]
    rw [if_neg hlater, hone]
    by_cases hhere : 4096 * i ≤ p ∧ p < 4096 * i + 4096
    · rw [if_pos hhere, if_pos (by omega)]
      obtain ⟨x, rfl⟩ := Nat.exists_eq_add_of_le hhere.1
      have hx : x < 4096 := by omega
      rw [Nat.add_sub_cancel_left]
      have hget : ((residentCluster existing i).readBytes 0 4096).getD x 0 =
          residentCluster existing i x := by simp [readBytes, hx]
      rw [hget, residentCluster, writeBytes, fsClusterSize, Nat.mul_comm i]
      simp only [length_take, length_drop, Nat.zero_le, true_and, Nat.zero_add,
        Nat.sub_zero, getD_eq_getElem?_getD, getElem?_take, getElem?_drop]
      split_ifs with hlen
      · rfl
      · rw [getElem?_eq_none (by omega)]
        rfl
    · rw [if_neg hhere, if_neg (by omega)]

/-- The overlay stops at the end of the data or of the clusters; the disk has no part in this. -/
theorem overlayRuns_written {position allocated rounds written : Nat}
    (hwritten : written ≤ data.length)
    (hrounds : data.length ≤ written + rounds) :
    (overlayRuns runs position allocated data rounds s written).1 =
      max written (min data.length (allocated * 4096 - position)) := by
  induction rounds generalizing s written with
  | zero =>
    rw [overlayRuns]
    omega
  | succ rounds ih =>
    rw [overlayRuns]
    by_cases hend : data.length ≤ written
    · rw [if_pos hend]
      omega
    rw [if_neg hend]
    rw [fsClusterSize]
    by_cases hout : allocated ≤ (position + written) / 4096
    · rw [if_pos hout]
      omega
    rw [if_neg hout]
    obtain ⟨status, d, hread, -⟩ := readCluster_spec s
      (runStart s.mem runs ((position + written) / 4096)) s.uninit
    rw [ih (by omega) (by omega)]
    omega

/-- One byte after a round that has put `t` bytes in their place and the rounds behind it. -/
theorem round_byte {position w t p : Nat} {b old : UInt8} (ht : w + t ≤ data.length)
    (hone : b = if position + w ≤ p ∧ p < position + w + t then
      ((data.drop w).take t).getD (p - (position + w)) 0 else old) :
    (if position + (w + t) ≤ p ∧ p < position + data.length then data.getD (p - position) 0 else b) =
      if position + w ≤ p ∧ p < position + data.length then data.getD (p - position) 0 else old := by
  by_cases hlater : position + (w + t) ≤ p ∧ p < position + data.length
  · rw [if_pos hlater, if_pos (by omega)]
  rw [if_neg hlater, hone]
  by_cases hhere : position + w ≤ p ∧ p < position + w + t
  · rw [if_pos hhere, if_pos (by omega)]
    simp only [getD_eq_getElem?_getD, getElem?_take, getElem?_drop]
    rw [if_pos (by omega), show w + (p - (position + w)) = p - position by omega]
  · rw [if_neg hhere, if_neg (by omega)]

/-- The loop that puts new data over the clusters: they get the bytes up to the end of the data or of
the clusters, in their places. -/
theorem overlayRuns_view (hblocks : s.Blocks runs n) {position rounds w : Nat} (hworks : d.Works)
    (hw : w ≤ data.length) (hrounds : data.length ≤ w + rounds) :
    ∃ d', overlayRuns runs position n data rounds { s with disk := d } w =
        (max w (min data.length (n * 4096 - position)), { s with disk := d' }) ∧ d.After d' ∧
      ∀ p < n * 4096, s.diskView runs d' p =
        if position + w ≤ p ∧ p < position + data.length then data.getD (p - position) 0
        else s.diskView runs d p := by
  induction rounds generalizing w d with
  | zero =>
    rw [overlayRuns]
    refine ⟨d, ?_, .refl d, fun p _ => (if_neg (by omega)).symm⟩
    rw [max_eq_left (by omega)]
  | succ rounds ih =>
    rw [overlayRuns]
    by_cases hend : data.length ≤ w
    · rw [if_pos hend, max_eq_left (by omega)]
      exact ⟨d, rfl, .refl d, fun p _ => (if_neg (by omega)).symm⟩
    rw [if_neg hend]
    dsimp only
    rw [fsClusterSize]
    by_cases hout : n ≤ (position + w) / 4096
    · rw [if_pos hout, max_eq_left (by omega)]
      exact ⟨d, rfl, .refl d, fun p hp => (if_neg (by omega)).symm⟩
    rw [if_neg hout]
    generalize hi : (position + w) / 4096 = i at hout
    generalize ho : (position + w) % 4096 = offset
    generalize ht : min (4096 - offset) (data.length - w) = t
    have hplace : position + w = i * 4096 + offset := by omega
    have hlen : ((data.drop w).take t).length = t := by
      rw [length_take, length_drop]
      omega
    obtain ⟨d₁, hpatch, hafter, hbytes⟩ := patch_works (s := s) (l := (data.drop w).take t)
      hworks (hblocks.reach i (by omega)) offset (by omega) True (fun h => absurd trivial h)
    rw [if_pos trivial] at hpatch
    obtain ⟨d', hrun, hafter', hview⟩ := ih (w := w + t) (hworks.after hafter) (by omega) (by omega)
    refine ⟨d', ?_, hafter.trans hafter', fun p hp => ?_⟩
    · have hmax : max w (min data.length (n * 4096 - position)) =
          max (w + t) (min data.length (n * 4096 - position)) := by omega
      rw [hmax, ← hrun, ← hpatch]
    · rw [hview p hp]
      have hone := diskView_write (d := d) hblocks (i := i) (by omega) (by omega) hp hbytes
      rw [hlen, ← hplace] at hone
      exact round_byte (by omega) hone

/-- The loop over the clusters of a file that starts in the first one. -/
theorem writeRuns_view (hblocks : s.Blocks runs n) {position rounds i w : Nat} (hworks : d.Works)
    (hfirst : position < 4096) (hfit : position + data.length ≤ n * 4096) (hw : w ≤ data.length)
    (hplace : position + w = 4096 * i + (if i = 0 then position else 0) ∨ w = data.length)
    (hrounds : position + data.length ≤ 4096 * (i + rounds)) :
    ∃ d', writeRuns runs position data rounds { s with disk := d } i w =
        (data.length, { s with disk := d' }) ∧ d.After d' ∧
      ∀ p < n * 4096, s.diskView runs d' p =
        if position + w ≤ p ∧ p < position + data.length then data.getD (p - position) 0
        else s.diskView runs d p := by
  induction rounds generalizing w d i with
  | zero =>
    have hall : w = data.length := by
      rcases hplace with hplace | hall
      · split_ifs at hplace <;> omega
      · exact hall
    rw [hall]
    exact ⟨d, rfl, .refl d, fun p _ => (if_neg (by omega)).symm⟩
  | succ rounds ih =>
    rw [writeRuns]
    by_cases hend : data.length ≤ w
    · rw [if_pos hend, show w = data.length by omega]
      exact ⟨d, rfl, .refl d, fun p _ => (if_neg (by omega)).symm⟩
    rw [if_neg hend]
    dsimp only
    rw [fsClusterSize, div_eq_of_lt hfirst, mod_eq_of_lt hfirst]
    replace hplace := hplace.resolve_right (by omega)
    generalize ho : (if i = 0 then position else 0) = offset at hplace
    have hoffset : offset < 4096 := by
      rw [← ho]
      split_ifs <;> omega
    generalize ht : min (4096 - offset) (data.length - w) = t
    have hi : i < n := by omega
    have hlen : ((data.drop w).take t).length = t := by
      rw [length_take, length_drop]
      omega
    obtain ⟨d₁, hpatch, hafter, hbytes⟩ := patch_works (s := s) (l := (data.drop w).take t)
      hworks (hblocks.reach i hi) offset (by omega) (0 < offset ∨ t < 4096)
      (fun h => ⟨by omega, by omega⟩)
    have hnext : position + (w + t) = 4096 * (i + 1) + (if i + 1 = 0 then position else 0) ∨
        w + t = data.length := by
      rw [if_neg (succ_ne_zero i)]
      omega
    obtain ⟨d', hrun, hafter', hview⟩ := ih (hworks.after hafter) (by omega) hnext (by omega)
    refine ⟨d', ?_, hafter.trans hafter', fun p hp => ?_⟩
    · rw [← hrun, ← hpatch]
    rw [hview p hp]
    have hone := diskView_write (d := d) hblocks (i := i) hi (by omega) hp hbytes
    rw [hlen, mul_comm i, ← hplace] at hone
    exact round_byte (by omega) hone

end Loops

/-! ## The handle -/

section Handle

variable {s : Fs} {file : FsFile} {attr : Nat} {data : List UInt8}

/-- What the write paths do to a handle: its position and its size are where the write ended,
unless a conversion found no cluster at all. -/
def HandleMoved (file : FsFile) (r : Nat × FsFile × Fs) : Prop :=
  r.2.1 = { file with position := u64 (file.position + r.1), size := u64 (file.position + r.1) } ∨
    r.1 = 0 ∧ r.2.1 = file

theorem HandleMoved.mk (w : Nat) (s : Fs) : HandleMoved file (w, { file with
    position := u64 (file.position + w), size := u64 (file.position + w) }, s) := .inl rfl

theorem HandleMoved.zero (s : Fs) : HandleMoved file (0, file, s) := .inr ⟨rfl, rfl⟩

/-- The loop never counts more than the data. -/
theorem writeRuns_le {runs position rounds k w : Nat} (hw : w ≤ data.length) :
    (writeRuns runs position data rounds s k w).1 ≤ data.length := by
  induction rounds generalizing s k w with
  | zero => exact hw
  | succ rounds ih =>
    rw [writeRuns]
    by_cases hend : data.length ≤ w
    · rw [if_pos hend]
      exact hw
    · rw [if_neg hend]
      exact ih (by omega)

/-- A write that does not fit into the entry. -/
theorem Resident.writeResident_converts {j n : Nat} (h : Resident s.mem (s.slot j) n) (hj : file.mftNumber = j)
    (hsmall : file.position + data.length < 2 ^ 64) (hbig : 3711 < file.position + data.length) :
    writeResident s file (s.slot j + 361) data = convertResident s file (s.slot j + 361) data := by
  subst hj
  rw [writeResident]
  dsimp only
  rw [residentRoom h.used, u64_of_lt hsmall, if_pos hbig]

/-- A conversion takes as many bytes as its clusters have room for behind the position. -/
theorem Resident.convertResident_count {j n needed : Nat} (h : Resident s.mem (s.slot j) n)
    (hj : file.mftNumber = j)
    (hneed : clustersFor (max (u64 (file.position + data.length)) n) = needed) :
    (convertResident s file (s.slot j + 361) data).1 =
      min data.length ((s.freeClusters.take needed).length * 4096 - file.position) := by
  subst hj
  have hsame : ({ s with mem := convertAttr s.mem (s.slot file.mftNumber + 361) needed } :
      Fs).freeClusters = s.freeClusters := rfl
  rw [convertResident]
  dsimp only
  rw [h.residentSize_eq, hneed, allocRuns_eq, hsame, Nat.zero_add]
  dsimp only
  split_ifs with hnone
  · rw [hnone, Nat.zero_mul, Nat.zero_sub, Nat.min_zero]
  · rw [overlayRuns_written (zero_le _) (by omega), Nat.zero_max]

theorem convertResident_moves : HandleMoved file (convertResident s file attr data) ∧
    (convertResident s file attr data).1 ≤ data.length := by
  rw [convertResident]
  dsimp only
  generalize allocRuns _ _ _ _ = r
  obtain ⟨allocated, s₁⟩ := r
  split_ifs
  · exact ⟨.zero _, zero_le _⟩
  refine ⟨.mk _ _, ?_⟩
  rw [overlayRuns_written (zero_le _) (by omega)]
  omega

theorem writeResident_moves : HandleMoved file (writeResident s file attr data) ∧
    (writeResident s file attr data).1 ≤ data.length := by
  rw [writeResident]
  split_ifs
  · exact convertResident_moves
  · exact ⟨.mk _ _, le_rfl⟩

theorem writeNonResident_moves : HandleMoved file (writeNonResident s file attr data) ∧
    (writeNonResident s file attr data).1 ≤ data.length := by
  rw [writeNonResident]
  generalize allocRuns _ _ _ _ = r
  obtain ⟨allocated, s₁⟩ := r
  exact ⟨.mk _ _, writeRuns_le (zero_le _)⟩

/-- The handle is behind the bytes that were written, and these are no more than the data. -/
theorem fsWrite_moves (hdata : data ≠ []) :
    HandleMoved file.placed (fsWrite s file data) ∧ (fsWrite s file data).1 ≤ data.length := by
  have hattr : ∀ s attr, HandleMoved file.placed (writeAttr s file.placed attr data) ∧
      (writeAttr s file.placed attr data).1 ≤ data.length := by
    intro s attr
    rw [writeAttr]
    split_ifs
    · exact writeNonResident_moves
    · exact writeResident_moves
  have heq := @fsWrite_eq s file data hdata
  generalize createDataAttr s.mem (s.slot file.mftNumber) data.length = r at heq
  rw [heq]
  cases findAttr s.mem (s.slot file.mftNumber) attrData with
  | some attr => exact hattr s attr
  | none =>
    obtain ⟨attr, m⟩ := r
    exact hattr { s with mem := m } attr

end Handle

end OpenSys
