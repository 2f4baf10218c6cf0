-- SUMMARY: Where the bytes of fs_read and fs_write go when disk operations may fail.
import OpenSys.Fs.Clusters

/-!
# Transfers that may fail

`fs_read` and `fs_write` of `src/fs/fs.c` on a file in clusters do not look at the results of
`read_cluster` and `write_cluster`. Each round of their loops is for one cluster. A round
counts its bytes in any case; they are really transferred if the disk carries out the
operation of that round. Sectors beyond 28 bits are refused before the disk is asked.
-/

namespace OpenSys

open Mem List Nat Fs

/-! ## One cluster -/

section Cluster

variable {s : Fs} {c : Nat}

/-- Operation `k` of the disk is carried out, when it is for cluster `c`. -/
def Fs.Carries (s : Fs) (c k : Nat) : Prop :=
  s.clusterLba c ≤ 0x0FFFFFFF ∧ s.disk.fails k = false

instance (s : Fs) (c k : Nat) : Decidable (s.Carries c k) :=
  inferInstanceAs (Decidable (_ ∧ _))

/-- The number of the operation behind operation `k`, when that is for cluster `c`. -/
def Fs.nextOp (s : Fs) (c k : Nat) : Nat := if s.clusterLba c ≤ 0x0FFFFFFF then k + 1 else k

/-- The place of byte `x` of a cluster on the disk. -/
def Fs.clusterAddr (s : Fs) (c x : Nat) : Nat := s.clusterLba c * 512 + x

/-- The disk after an operation on cluster `c`, but for its contents. -/
structure Fs.Asked (s : Fs) (c : Nat) (d : Disk) : Prop where
  fails : d.fails = s.disk.fails
  ops : d.ops = s.nextOp c s.disk.ops

theorem readCluster_spec (s : Fs) (c : Nat) (buf : Mem) : ∃ status d,
    readCluster s c buf = (status, if s.Carries c s.disk.ops then
      buf.writeBytes 0 (s.disk.bytes.readBytes (s.clusterLba c * 512) 4096) else buf,
      { s with disk := d }) ∧ d.bytes = s.disk.bytes ∧ s.Asked c d := by
  rw [readCluster, diskRead, show 8 * 512 = 4096 from rfl]
  dsimp only
  by_cases hlba : 0x0FFFFFFF < s.clusterLba c
  · rw [if_pos hlba, if_neg fun h => absurd h.1 (by omega)]
    exact ⟨_, _, rfl, rfl, rfl, (if_neg (by omega)).symm⟩
  rw [if_neg hlba]
  by_cases hf : (s.disk.request (s.clusterLba c) 8).fails
      (s.disk.request (s.clusterLba c) 8).ops = true
  · rw [if_pos hf, if_neg fun h => Bool.false_ne_true (h.2.symm.trans hf)]
    exact ⟨_, _, rfl, rfl, rfl, (if_pos (by omega)).symm⟩
  · rw [if_neg hf, if_pos ⟨by omega, Bool.eq_false_iff.mpr hf⟩]
    dsimp only [Disk.request]
    exact ⟨_, _, rfl, rfl, rfl, (if_pos (by omega)).symm⟩

theorem writeCluster_spec (s : Fs) (c : Nat) (buf : Mem) : ∃ d,
    (writeCluster s c buf).2 = { s with disk := d } ∧ s.Asked c d ∧
      d.bytes = if s.Carries c s.disk.ops then
        s.disk.bytes.writeBytes (s.clusterLba c * 512) (buf.readBytes 0 4096) else s.disk.bytes := by
  rw [writeCluster, diskWrite, show 8 * 512 = 4096 from rfl]
  dsimp only
  by_cases hlba : 0x0FFFFFFF < s.clusterLba c
  · rw [if_pos hlba, if_neg fun h => absurd h.1 (by omega)]
    exact ⟨_, rfl, ⟨rfl, (if_neg (by omega)).symm⟩, rfl⟩
  rw [if_neg hlba]
  by_cases hf : (s.disk.request (s.clusterLba c) 8).fails
      (s.disk.request (s.clusterLba c) 8).ops = true
  · rw [if_pos hf, if_neg fun h => Bool.false_ne_true (h.2.symm.trans hf)]
    exact ⟨_, rfl, ⟨rfl, (if_pos (by omega)).symm⟩, rfl⟩
  · rw [if_neg hf, if_pos ⟨by omega, Bool.eq_false_iff.mpr hf⟩]
    exact ⟨_, rfl, ⟨rfl, (if_pos (by omega)).symm⟩, rfl⟩

theorem Fs.Carries.congr {d : Disk} (h : d.fails = s.disk.fails) (k : Nat) :
    ({ s with disk := d }).Carries c k ↔ s.Carries c k := by
  rw [Fs.Carries, Fs.Carries, h]
  rfl

/-- A cluster that is read: byte by byte what the disk has, or what was in the buffer. -/
theorem readCluster_bytes {d : Disk} (hfails : d.fails = s.disk.fails) (c : Nat) (buf : Mem) :
    ∃ status buf' d', readCluster { s with disk := d } c buf = (status, buf', { s with disk := d' }) ∧
      d'.bytes = d.bytes ∧ d'.fails = s.disk.fails ∧ d'.ops = s.nextOp c d.ops ∧
      ∀ x < 4096, buf' x =
        if s.Carries c d.ops then d.bytes (s.clusterAddr c x) else buf x := by
  obtain ⟨status, d', hread, hbytes, hasked⟩ := readCluster_spec { s with disk := d } c buf
  refine ⟨status, _, d', hread, hbytes, hasked.fails.trans hfails, hasked.ops, fun x hx => ?_⟩
  simp only [Fs.Carries.congr hfails]
  split_ifs
  · rw [writeBytes, length_readBytes, if_pos (by omega), readBytes]
    simp [hx, clusterAddr, clusterLba]
  · rfl

end Cluster

/-! ## Reading -/

section Reading

variable {s : Fs} {file : FsFile} {nr runs available size : Nat} {op : Nat → Nat}

/-- The byte of the file at `p`, as the disk has it. -/
def Fs.fileByte (s : Fs) (runs p : Nat) : UInt8 :=
  s.disk.bytes (s.clusterAddr (runStart s.mem runs (p / 4096)) (p % 4096))

/-- What a round of the loop gives at `p`, when it is for operation `k` of the disk. -/
def Fs.readByte (s : Fs) (runs k p : Nat) : UInt8 :=
  if s.Carries (runStart s.mem runs (p / 4096)) k then s.fileByte runs p else s.uninit (p % 4096)

/-- How many bytes a round of the loop takes. -/
structure ReadStep (available size i offset got n : Nat) : Prop where
  pos : 0 < n
  inside : offset + n ≤ 4096
  most : got + n ≤ size
  full : i + 1 < available → got + n < size → offset + n = 4096

theorem readStep (available position real i : Nat) {offset got : Nat} (hoffset : offset < 4096)
    (hgot : got < size) :
    ReadStep available size i offset got
      (min (if i = available - 1 ∧ position < real then
        min (fsClusterSize - offset) (real - position) else fsClusterSize - offset) (size - got)) := by
  rw [fsClusterSize]
  split_ifs with hlast
  · exact ⟨by omega, by omega, by omega, by omega⟩
  · exact ⟨by omega, by omega, by omega, by omega⟩

/-- The loop of `fs_read` from cluster `i` on, when `op` counts the operations of its rounds:
    what it gives at each place, and that it comes to every cluster with bytes to read. -/
theorem readRuns_spec {rounds i offset : Nat} {got : List UInt8} {d : Disk}
    (hop : ∀ i', i ≤ i' → op (i' + 1) = s.nextOp (runStart s.mem runs i') (op i'))
    (hbytes : d.bytes = s.disk.bytes)
    (hfails : d.fails = s.disk.fails) (hops : d.ops = op i) (hoffset : offset < 4096)
    (hrounds : available ≤ i + rounds)
    (hplace : i < available → got.length < size → file.position + got.length = i * 4096 + offset) :
    ∃ l, (readRuns file nr runs available size rounds { s with disk := d } i offset got).1 =
        got ++ l ∧
      (∀ k (hk : k < l.length), l[k] = s.readByte runs
        (op ((file.position + (got.length + k)) / 4096)) (file.position + (got.length + k))) ∧
      (∀ k < l.length, i ≤ (file.position + (got.length + k)) / 4096 ∧
        (file.position + (got.length + k)) / 4096 < available ∧ got.length + k < size) ∧
      ∀ i', i ≤ i' → i' < available → i' * 4096 < file.position + size → got.length < size →
        ∃ k < l.length, (file.position + (got.length + k)) / 4096 = i' := by
  induction rounds generalizing i offset got d with
  | zero =>
    exact ⟨[], by rw [readRuns, append_nil], fun k hk => absurd hk (by simp),
      fun k hk => absurd hk (by simp), fun i' hi' hlt => by omega⟩
  | succ rounds ih =>
    by_cases hend : available ≤ i ∨ size ≤ got.length
    · refine ⟨[], by rw [readRuns, if_pos hend, append_nil], fun k hk => absurd hk (by simp),
        fun k hk => absurd hk (by simp), fun i' hi' hlt => ?_⟩
      rcases hend with hend | hend <;> omega
    rw [not_or, not_le, not_le] at hend
    have hat := hplace hend.1 hend.2
    rw [readRuns, if_neg (by omega)]
    dsimp only
    have hstep := readStep available file.position (nrRealSize s.mem nr) i hoffset hend.2
    generalize hn : min (if i = available - 1 ∧ file.position < nrRealSize s.mem nr then
      min (fsClusterSize - offset) (nrRealSize s.mem nr - file.position)
      else fsClusterSize - offset) (size - got.length) = n at hstep ⊢
    obtain ⟨status, buf, d', hread, hbytes', hfails', hops', hbuf⟩ :=
      readCluster_bytes hfails (runStart s.mem runs i) s.uninit
    obtain ⟨l, hl, hvalue, hbounds, hreach⟩ := @ih (i + 1) 0 (got ++ buf.readBytes offset n) d'
      (fun i' hi' => hop i' (by omega)) (hbytes'.trans hbytes) hfails'
      (by rw [hops', hop i le_rfl, hops]) (by omega) (by omega) (by
        intro hi hlt
        rw [length_append, length_readBytes] at hlt ⊢
        have := hstep.full hi hlt
        omega)
    have hinside := hstep.inside
    have hmost := hstep.most
    rw [length_append, length_readBytes] at hvalue hbounds hreach
    refine ⟨buf.readBytes offset n ++ l, ?_, fun k hk => ?_, fun k hk => ?_,
      fun i' hi' hlt hsize hgot => ?_⟩
    · rw [← append_assoc, ← hl]
      simp only [hread]
    · rw [length_append, length_readBytes] at hk
      by_cases hfirst : k < n
      · have hdiv : (file.position + (got.length + k)) / 4096 = i := by omega
        have hmod : (file.position + (got.length + k)) % 4096 = offset + k := by omega
        rw [getElem_append_left (by rw [length_readBytes]; exact hfirst), readByte,
          fileByte, hdiv, hmod, ← hops, ← hbytes]
        simp only [readBytes, getElem_map, getElem_range]
        exact hbuf (offset + k) (by omega)
      · rw [getElem_append_right (by rw [length_readBytes]; omega), hvalue]
        simp only [length_readBytes]
        rw [show got.length + n + (k - n) = got.length + k by omega]
    · rw [length_append, length_readBytes] at hk
      by_cases hfirst : k < n
      · omega
      · have hrest := hbounds (k - n) (by omega)
        rw [show got.length + n + (k - n) = got.length + k by omega] at hrest
        omega
    · rw [length_append, length_readBytes]
      by_cases hnext : i' = i
      · have hpos := hstep.pos
        exact ⟨0, by omega, by omega⟩
      · have hfull := hstep.full (by omega)
        obtain ⟨k, hk, hkdiv⟩ := hreach i' (by omega) hlt hsize (by omega)
        exact ⟨n + k, by omega, by rw [← hkdiv, add_assoc]⟩

end Reading

/-! ## Writing -/

section Writing

variable {s : Fs} {runs position : Nat} {data : List UInt8} {op : Nat → Nat}

/-- The first byte of round `i` of the loop of `fs_write`. -/
def roundStart (position i : Nat) : Nat :=
  if position / 4096 < i then i * 4096 - position % 4096 else i * 4096

/-- Where in its cluster round `i` begins. -/
def roundOffset (position i : Nat) : Nat :=
  if i = position / 4096 then position % 4096 else 0

/-- Round `i` reads its cluster first, since it does not write all of it. -/
def RoundReads (position size i : Nat) : Prop :=
  0 < roundOffset position i ∨
    min (4096 - roundOffset position i) (size - min (roundStart position i) size) < 4096

instance (position size i : Nat) : Decidable (RoundReads position size i) :=
  inferInstanceAs (Decidable (_ ∨ _))

/-- The cluster of the file, counted from its start, that byte `k` of the buffer goes to. -/
def writeIndex (position k : Nat) : Nat :=
  (if k < position / 4096 * 4096 then k else k + position % 4096) / 4096

/-- The place of byte `k` in that cluster. -/
def writeOffset (position k : Nat) : Nat :=
  (if k < position / 4096 * 4096 then k else k + position % 4096) % 4096

theorem roundStart_succ (position i : Nat) :
    roundStart position (i + 1) = roundStart position i + (4096 - roundOffset position i) := by
  rw [roundStart, roundStart, roundOffset]
  split_ifs <;> omega

theorem roundStart_mono (position : Nat) {i i' : Nat} (h : i ≤ i') :
    roundStart position i ≤ roundStart position i' := by
  rw [roundStart, roundStart]
  split_ifs <;> omega

theorem roundOffset_lt (position i : Nat) : roundOffset position i < 4096 := by
  rw [roundOffset]
  split_ifs <;> omega

theorem writeIndex_bounds (position k : Nat) : roundStart position (writeIndex position k) ≤ k ∧
      k < roundStart position (writeIndex position k + 1) := by
  rw [roundStart, roundStart, writeIndex]
  split_ifs <;> omega

theorem writeIndex_eq {i k : Nat} (hlo : roundStart position i ≤ k)
    (hhi : k < roundStart position (i + 1)) : writeIndex position k = i := by
  rw [roundStart] at hlo hhi
  rw [writeIndex]
  split_ifs at hlo hhi ⊢ <;> omega

theorem writeOffset_eq {i k : Nat} (hlo : roundStart position i ≤ k)
    (hhi : k < roundStart position (i + 1)) :
    writeOffset position k = roundOffset position i + (k - roundStart position i) := by
  rw [roundStart] at hlo hhi ⊢
  rw [writeOffset, roundOffset]
  split_ifs at hlo hhi ⊢ <;> omega

/-- The byte at `x` of the disk lies in a cluster. -/
def Fs.InCluster (s : Fs) (c x : Nat) : Prop :=
  s.clusterLba c * 512 ≤ x ∧ x < s.clusterLba c * 512 + 4096

/-- The operation that writes in round `i`, when operation `k` is the first of the round. -/
def Fs.writeOp (s : Fs) (reads : Prop) [Decidable reads] (c k : Nat) : Nat :=
  if reads then s.nextOp c k else k

/-- The cluster that a round patches: what is on the disk, when it is read. -/
theorem patch_buffer {d : Disk} (hfails : d.fails = s.disk.fails) (c offset : Nat) (l : List UInt8)
    (reads : Prop) [Decidable reads] : ∃ d₁ buf, (if reads then
        match readCluster { s with disk := d } c s.uninit with
        | (_, buf, s) => patchCluster s c offset l buf
      else patchCluster { s with disk := d } c offset l s.uninit) =
        patchCluster { s with disk := d₁ } c offset l buf ∧ d₁.fails = s.disk.fails ∧
      d₁.ops = s.writeOp reads c d.ops ∧ d₁.bytes = d.bytes ∧
      (reads → s.Carries c d.ops → ∀ x < 4096, buf x = d.bytes (s.clusterAddr c x)) := by
  by_cases hreads : reads
  · obtain ⟨status, buf, d₁, hread, hbytes, hfails₁, hops, hbuf⟩ := readCluster_bytes hfails c s.uninit
    refine ⟨d₁, buf, ?_, hfails₁, by rw [hops, writeOp, if_pos hreads], hbytes,
      fun _ hcarries x hx => (hbuf x hx).trans (if_pos hcarries)⟩
    rw [if_pos hreads, hread]
  · exact ⟨d, s.uninit, by rw [if_neg hreads], hfails, by rw [writeOp, if_neg hreads], rfl,
      fun h => absurd h hreads⟩

/-- One round: its bytes are on the disk if the write is carried out, and other clusters keep
    what they hold. -/
theorem patch_round {d : Disk} (hfails : d.fails = s.disk.fails) (c offset : Nat) {l : List UInt8}
    (hfit : offset + l.length ≤ 4096) (reads : Prop) [Decidable reads] :
    ∃ d', (if reads then
        match readCluster { s with disk := d } c s.uninit with
        | (_, buf, s) => patchCluster s c offset l buf
      else patchCluster { s with disk := d } c offset l s.uninit) = { s with disk := d' } ∧
      d'.fails = s.disk.fails ∧ d'.ops = s.nextOp c (s.writeOp reads c d.ops) ∧
      (∀ x, ¬ s.InCluster c x → d'.bytes x = d.bytes x) ∧
      ∀ x (hx : x < l.length), d'.bytes (s.clusterAddr c (offset + x)) =
        if s.Carries c (s.writeOp reads c d.ops) then l[x]
        else d.bytes (s.clusterAddr c (offset + x)) := by
  obtain ⟨d₁, buf, hd₁, hfails₁, hops₁, hbytes₁, -⟩ := patch_buffer hfails c offset l reads
  obtain ⟨d', hwrite, hasked, hbytes⟩ := writeCluster_spec { s with disk := d₁ } c
    (buf.writeBytes offset l)
  refine ⟨d', by rw [hd₁, patchCluster, hwrite], hasked.fails.trans hfails₁, ?_, fun x hx => ?_,
    fun x hx => ?_⟩
  · rw [hasked.ops, ← hops₁]
    rfl
  · rw [hbytes, ← hbytes₁]
    split_ifs
    · refine writeBytes_outside ?_
      rw [length_readBytes]
      exact not_and_or.mp hx |>.imp not_le.mp not_lt.mp
    · rfl
  rw [hbytes]
  simp only [Fs.Carries.congr hfails₁, hops₁]
  split_ifs
  · rw [clusterAddr, writeBytes, length_readBytes, if_pos (by
      change s.clusterLba c * 512 ≤ _ ∧ _ < s.clusterLba c * 512 + 4096
      omega)]
    have hbyte : (buf.writeBytes offset l) (offset + x) = l[x] := by
      rw [writeBytes, if_pos (by omega), Nat.add_sub_cancel_left, getD_eq_getElem?_getD,
        getElem?_eq_getElem hx, Option.getD_some]
    change ((buf.writeBytes offset l).readBytes 0 4096).getD
      (s.clusterLba c * 512 + (offset + x) - s.clusterLba c * 512) 0 = l[x]
    have hlt : offset + x < 4096 := by omega
    rw [Nat.add_sub_cancel_left, ← hbyte]
    simp [readBytes, hlt]
  · rw [hbytes₁]

/-- The clusters of different rounds do not overlap. -/
def RoundsApart (s : Fs) (runs position size : Nat) : Prop :=
  ∀ i i', i ≠ i' → roundStart position i < size → roundStart position i' < size →
    ∀ x, s.InCluster (runStart s.mem runs i) x → ¬ s.InCluster (runStart s.mem runs i') x

/-- The place on the disk where byte `k` of the buffer goes. -/
def Fs.writeAddr (s : Fs) (runs position k : Nat) : Nat :=
  s.clusterAddr (runStart s.mem runs (writeIndex position k)) (writeOffset position k)

theorem inCluster_clusterAddr {c x : Nat} (h : x < 4096) : s.InCluster c (s.clusterAddr c x) :=
  ⟨Nat.le_add_right _ _, Nat.add_lt_add_left h _⟩

theorem writeOffset_lt (position k : Nat) : writeOffset position k < 4096 :=
  mod_lt _ (by decide)

/-- The loop of `fs_write` from round `i` on, when `op` counts the operations of its rounds:
    each byte is where it goes if the write of its round is carried out, and what no round
    writes stays. -/
theorem writeRuns_spec {rounds i : Nat} {d : Disk}
    (hop : ∀ i', i ≤ i' → op (i' + 1) = s.nextOp (runStart s.mem runs i')
      (s.writeOp (RoundReads position data.length i') (runStart s.mem runs i') (op i')))
    (hfails : d.fails = s.disk.fails) (hops : d.ops = op i)
    (hrounds : data.length ≤ roundStart position (i + rounds)) :
    ∃ d', writeRuns runs position data rounds { s with disk := d } i
        (min (roundStart position i) data.length) = (data.length, { s with disk := d' }) ∧
      d'.fails = s.disk.fails ∧
      (∀ x, (∀ i', i ≤ i' → roundStart position i' < data.length →
        ¬ s.InCluster (runStart s.mem runs i') x) → d'.bytes x = d.bytes x) ∧
      (RoundsApart s runs position data.length → ∀ k (hk : k < data.length),
        roundStart position i ≤ k → d'.bytes (s.writeAddr runs position k) =
          if s.Carries (runStart s.mem runs (writeIndex position k))
              (s.writeOp (RoundReads position data.length (writeIndex position k))
                (runStart s.mem runs (writeIndex position k)) (op (writeIndex position k)))
          then data[k] else d.bytes (s.writeAddr runs position k)) := by
  induction rounds generalizing i d with
  | zero =>
    rw [add_zero] at hrounds
    refine ⟨d, by rw [writeRuns, min_eq_right hrounds], hfails, fun _ _ => rfl,
      fun _ k hk hlo => by omega⟩
  | succ rounds ih =>
    by_cases hdone : data.length ≤ roundStart position i
    · rw [min_eq_right hdone, writeRuns, if_pos le_rfl]
      exact ⟨d, rfl, hfails, fun _ _ => rfl, fun _ k hk hlo => by omega⟩
    rw [not_le] at hdone
    have hsucc := roundStart_succ position i
    have hoffset := roundOffset_lt position i
    have hlen : ((data.drop (roundStart position i)).take (min (4096 - roundOffset position i)
        (data.length - roundStart position i))).length =
        min (4096 - roundOffset position i) (data.length - roundStart position i) := by
      rw [length_take, length_drop]
      omega
    obtain ⟨d₁, hround, hfails₁, hops₁, hkeep₁, hbytes₁⟩ := patch_round hfails
      (runStart s.mem runs i) (roundOffset position i) (l := (data.drop (roundStart position i)).take
        (min (4096 - roundOffset position i) (data.length - roundStart position i)))
      (by rw [hlen]; omega) (RoundReads position data.length i)
    obtain ⟨d', hrun, hfails', hkeep, hbytes⟩ := @ih (i + 1) d₁ (fun i' hi' => hop i' (by omega))
      hfails₁ (by rw [hops₁, hop i le_rfl, hops]) (by
        rw [show i + 1 + rounds = i + (rounds + 1) by omega]
        exact hrounds)
    refine ⟨d', ?_, hfails', fun x hx => ?_, fun hapart k hk hlo => ?_⟩
    · have hnext : roundStart position i + min (4096 - roundOffset position i)
          (data.length - roundStart position i) = min (roundStart position (i + 1)) data.length := by
        omega
      have hreads : RoundReads position data.length i ↔ 0 < roundOffset position i ∨
          min (4096 - roundOffset position i) (data.length - roundStart position i) < 4096 := by
        rw [RoundReads, min_eq_left hdone.le]
      rw [← hrun, ← hnext, ← hround, min_eq_left hdone.le, writeRuns, if_neg (by omega)]
      by_cases hr : RoundReads position data.length i
      · rw [if_pos hr]
        dsimp only
        exact congrArg (fun t => writeRuns runs position data rounds t (i + 1) _)
          (if_pos (hreads.mp hr))
      · rw [if_neg hr]
        dsimp only
        exact congrArg (fun t => writeRuns runs position data rounds t (i + 1) _)
          (if_neg fun h => hr (hreads.mpr h))
    · rw [hkeep x fun i' hi' => hx i' (by omega), hkeep₁ x (hx i le_rfl hdone)]
    · obtain ⟨hstart, hstop⟩ := writeIndex_bounds position k
      have hin : s.InCluster (runStart s.mem runs (writeIndex position k))
          (s.writeAddr runs position k) := inCluster_clusterAddr (writeOffset_lt position k)
      by_cases hnext : roundStart position (i + 1) ≤ k
      · have hne : writeIndex position k ≠ i := fun h => by
          rw [h] at hstop
          omega
        rw [hbytes hapart k hk hnext, hkeep₁ _ (hapart _ i hne (by omega) hdone _ hin)]
      have hindex : writeIndex position k = i := writeIndex_eq hlo (by omega)
      have haddr : s.writeAddr runs position k = s.clusterAddr (runStart s.mem runs i)
          (roundOffset position i + (k - roundStart position i)) := by
        rw [writeAddr, hindex, writeOffset_eq hlo (by omega)]
      rw [hindex] at hin
      rw [hkeep _ fun i' hi' hlt' => hapart i i' (by omega) hdone hlt' _ hin, hindex, haddr,
        hbytes₁ _ (by rw [hlen]; omega), hops]
      congr 1
      rw [getElem_take, getElem_drop]
      congr 1
      omega

end Writing

/-! ## Files in clusters -/

/-- Entry `j` is a file in the clusters `cs`, which are its own, on a volume whose sectors have
    32-bit numbers. -/
structure ClusterFile (s : Fs) (j : Nat) (cs : List Nat) : Prop where
  named : Named s.mem (s.slot j)
  runs : RunArray s.mem (s.slot j) cs
  nodup : cs.Nodup
  below : ∀ c ∈ cs, c < s.boot.totalClusters
  outside : ∀ c ∈ cs, ¬ s.mftCluster c
  entry : j < s.boot.mftSize
  mft : s.boot.mftStart + s.boot.mftSize ≤ s.boot.totalClusters
  sectors : s.baseLba + s.boot.dataStart + 8 * s.boot.totalClusters ≤ 2 ^ 32

/-- Every byte that `fs_read` gives is the one that the disk has for it in a cluster of the
    file, whatever the buffer for clusters held before. -/
def ReadsStored (s : Fs) (file : FsFile) (cs : List Nat) (size : Nat) : Prop :=
  ∀ u k, k < (fsRead { s with uninit := u } file size).1.length →
    ∃ c, cs[(file.position + k) / 4096]? = some c ∧
      (fsRead { s with uninit := u } file size).1[k]? =
        some (s.disk.bytes (s.clusterAddr c ((file.position + k) % 4096)))

/-- The disk carries out the read of every cluster that has bytes to read. -/
def ReadsCarried (s : Fs) (file : FsFile) (cs : List Nat) (size : Nat) : Prop :=
  0 < size → ∀ r c, cs[file.position / 4096 + r]? = some c →
    (file.position / 4096 + r) * 4096 < file.position + size → s.Carries c (s.disk.ops + r)

def Fs.withBytes (s : Fs) (bytes : Mem) : Fs := { s with disk := { s.disk with bytes := bytes } }

/-- Every byte that `fs_write` counts is on the disk behind the call, in the cluster of the
    file that it goes to, whatever the disk held before. -/
def WritesStored (s : Fs) (file : FsFile) (cs : List Nat) (data : List UInt8) : Prop :=
  ∀ bytes k, k < (fsWrite (s.withBytes bytes) file data).1 →
    ∃ c, cs[writeIndex file.place k]? = some c ∧
      (fsWrite (s.withBytes bytes) file data).2.2.disk.bytes
        (s.clusterAddr c (writeOffset file.place k)) = data.getD k 0

/-- The first operation of round `i` of the loop of `fs_write`: only the round that the
    position lies in takes two before the last one. -/
def roundOp (ops position i : Nat) : Nat :=
  ops + i + if position / 4096 < i ∧ 0 < position % 4096 then 1 else 0

/-- There is a cluster for every round, and the disk carries out its write. -/
def WritesCarried (s : Fs) (file : FsFile) (cs : List Nat) (data : List UInt8) : Prop :=
  ∀ i, roundStart file.place i < data.length → ∃ c, cs[i]? = some c ∧
    s.Carries c (roundOp s.disk.ops file.place i +
      if RoundReads file.place data.length i then 1 else 0)

section File

variable {s : Fs} {j : Nat} {cs : List Nat} {file : FsFile} {data : List UInt8}

theorem ClusterFile.runStart_eq (h : ClusterFile s j cs) {i c : Nat} (hi : cs[i]? = some c) :
    runStart s.mem (s.slot j + 425) i = c := by
  obtain ⟨hlt, rfl⟩ := List.getElem?_eq_some_iff.mp hi
  exact (h.runs.run i hlt).1

/-- The operations of rounds one after the other, when round `r` begins with operation `k` and
    the next one with `next r k`. -/
def opCount (start : Nat) (next : Nat → Nat → Nat) : Nat → Nat
  | 0 => start
  | r + 1 => next r (opCount start next r)

/-- The operations that the rounds of a write begin with. -/
theorem exists_writeOps (s : Fs) (runs position size : Nat) : ∃ op : Nat → Nat, op 0 = s.disk.ops ∧
    ∀ i, op (i + 1) = s.nextOp (runStart s.mem runs i)
      (s.writeOp (RoundReads position size i) (runStart s.mem runs i) (op i)) :=
  ⟨opCount s.disk.ops fun i k => s.nextOp (runStart s.mem runs i)
    (s.writeOp (RoundReads position size i) (runStart s.mem runs i) k), rfl, fun _ => rfl⟩

theorem nextOp_of_carries {c k k' : Nat} (h : s.Carries c k) : s.nextOp c k' = k' + 1 := if_pos h.1

/-- The data attribute of the file is the one at `attr`, and its data is in clusters. -/
structure InClusters (s : Fs) (file : FsFile) (attr : Nat) : Prop where
  found : findAttr s.mem (s.slot file.mftNumber) attrData = some attr
  nonResident : attrNonResident s.mem attr ≠ 0

/-- Where the runs are. -/
def Fs.runsAt (s : Fs) (attr : Nat) : Nat := attr + nrRunOffset s.mem (attr + attrHeaderSize)

/-- The number of clusters that `fs_read` goes through. -/
def Fs.clustersAt (s : Fs) (attr : Nat) : Nat :=
  min (nrAllocatedSize s.mem (attr + attrHeaderSize) / fsClusterSize)
    (nonresidentRunCount s.mem attr (attr + attrHeaderSize))

theorem InClusters.withUninit {attr : Nat} (h : InClusters s file attr) (u : Mem) :
    InClusters { s with uninit := u } file attr := ⟨h.found, h.nonResident⟩

theorem InClusters.fsRead_eq {attr size : Nat} (h : InClusters s file attr) (hsize : 0 < size) :
    (fsRead s file size).1 = (readRuns file (attr + attrHeaderSize) (s.runsAt attr)
        (s.clustersAt attr) size (s.clustersAt attr) s (file.position / 4096)
        (file.position % 4096) []).1 ∧
      (fsRead s file size).2.1 =
        { file with position := u64 (file.position + (fsRead s file size).1.length) } := by
  rw [fsRead, if_neg (by omega)]
  simp only [h.found, if_pos h.nonResident]
  exact ⟨rfl, trivial⟩

/-- The bytes of the request: each comes from the disk or from the buffer, as the operation of its
round decides. -/
theorem InClusters.fsRead_bytes {attr size : Nat} (h : InClusters s file attr) (hsize : 0 < size) :
    ∃ op : Nat → Nat, op 0 = s.disk.ops ∧
      (∀ r, op (r + 1) = s.nextOp (runStart s.mem (s.runsAt attr) (file.position / 4096 + r)) (op r)) ∧
      (∀ k < (fsRead s file size).1.length, ∃ r,
        (file.position + k) / 4096 = file.position / 4096 + r ∧
        file.position / 4096 + r < s.clustersAt attr ∧
        (file.position / 4096 + r) * 4096 < file.position + size ∧
        (fsRead s file size).1[k]? = some (s.readByte (s.runsAt attr) (op r) (file.position + k))) ∧
      ∀ r, file.position / 4096 + r < s.clustersAt attr →
        (file.position / 4096 + r) * 4096 < file.position + size →
        ∃ k < (fsRead s file size).1.length,
          (file.position + k) / 4096 = file.position / 4096 + r := by
  obtain ⟨op, hop₀, hop⟩ : ∃ op : Nat → Nat, op 0 = s.disk.ops ∧ ∀ r, op (r + 1) =
      s.nextOp (runStart s.mem (s.runsAt attr) (file.position / 4096 + r)) (op r) :=
    ⟨opCount s.disk.ops fun r k =>
      s.nextOp (runStart s.mem (s.runsAt attr) (file.position / 4096 + r)) k, rfl, fun _ => rfl⟩
  obtain ⟨l, hl, hvalue, hbounds, hreach⟩ := @readRuns_spec s file (attr + attrHeaderSize)
    (s.runsAt attr) (s.clustersAt attr) size (fun i => op (i - file.position / 4096))
    (s.clustersAt attr) (file.position / 4096) (file.position % 4096) [] s.disk
    (fun i hi => by rw [Nat.sub_add_comm hi, hop, Nat.add_sub_cancel' hi])
    rfl rfl (by rw [Nat.sub_self, hop₀]) (by omega) (by omega)
    (fun _ _ => by rw [length_nil]; omega)
  rw [nil_append] at hl
  have hread : (fsRead s file size).1 = l := (h.fsRead_eq hsize).1.trans hl
  rw [hread]
  simp only [length_nil, zero_add] at hvalue hbounds hreach
  refine ⟨op, hop₀, hop, fun k hk => ?_, fun r hr hlt => ?_⟩
  · obtain ⟨hlo, hhi, hlt⟩ := hbounds k hk
    obtain ⟨r, hr⟩ := Nat.exists_eq_add_of_le hlo
    refine ⟨r, hr, by omega, by omega, ?_⟩
    rw [getElem?_eq_getElem hk, hvalue k hk, hr, Nat.add_sub_cancel_left]
  · exact hreach _ (le_add_right _ _) hr hlt hsize

theorem ClusterFile.inClusters (h : ClusterFile s j cs) (hj : file.mftNumber = j) :
    InClusters s file (s.slot j + 361) ∧ s.runsAt (s.slot j + 361) = s.slot j + 425 ∧
      s.clustersAt (s.slot j + 361) = cs.length := by
  subst hj
  have hnr : s.slot file.mftNumber + 361 + attrHeaderSize = s.slot file.mftNumber + 377 := rfl
  refine ⟨⟨h.runs.findAttr h.named, h.runs.nonResident⟩, ?_, ?_⟩
  · rw [runsAt, hnr, h.runs.offset]
  · rw [clustersAt, hnr, h.runs.short.runCount, h.runs.allocated, fsClusterSize,
      Nat.mul_div_cancel _ (by decide), Nat.min_self]

theorem exists_ne_byte (b : UInt8) : ∃ b', b' ≠ b :=
  ⟨if b = 0 then 1 else 0, by split_ifs with h <;> simp [h, Ne.symm]⟩

/-- The disk carries out the operation of every round of the request. -/
def RoundsCarried (s : Fs) (file : FsFile) (attr size : Nat) : Prop :=
  0 < size → ∀ r, file.position / 4096 + r < s.clustersAt attr →
    (file.position / 4096 + r) * 4096 < file.position + size →
    s.Carries (runStart s.mem (s.runsAt attr) (file.position / 4096 + r)) (s.disk.ops + r)

/-- As long as the rounds before are carried out, each takes one operation. -/
theorem carriedOp_eq {op : Nat → Nat} {r : Nat} {c : Nat → Nat} (hop₀ : op 0 = s.disk.ops)
    (hop : ∀ r, op (r + 1) = s.nextOp (c r) (op r))
    (hbefore : ∀ r' < r, ∃ k, s.Carries (c r') k) : op r = s.disk.ops + r := by
  induction r with
  | zero => exact hop₀
  | succ r ih =>
    obtain ⟨k, hcarries⟩ := hbefore r (by omega)
    rw [hop, nextOp_of_carries hcarries, ih fun r' hr' => hbefore r' (by omega)]
    rfl

theorem earlier_round {first r r' n : Nat} (hr : r' < r) (hlt : (first + r) * 4096 < n) :
    (first + r') * 4096 < n :=
  lt_of_le_of_lt (mul_le_mul_right _ (by omega)) hlt

/-- The bytes are those of the file, whatever the buffer held before, if and only if the disk carries
out the operations. -/
theorem InClusters.stored_iff {attr size : Nat} (h : InClusters s file attr) :
    (∀ u, ∀ k < (fsRead { s with uninit := u } file size).1.length,
      (fsRead { s with uninit := u } file size).1[k]? =
        some (s.fileByte (s.runsAt attr) (file.position + k))) ↔ RoundsCarried s file attr size := by
  constructor
  · intro hstored hsize r
    induction r using Nat.strong_induction_on with
    | _ r ih =>
      intro havail hlt
      by_contra hnot
      -- With a buffer that is wrong everywhere the round would show.
      choose u hu using fun x => exists_ne_byte (s.disk.bytes
        (s.clusterAddr (runStart s.mem (s.runsAt attr) (file.position / 4096 + r)) x))
      obtain ⟨op, hop₀, hop, hvalue, hreach⟩ := (h.withUninit u).fsRead_bytes hsize
      have hopr : op r = s.disk.ops + r := carriedOp_eq (c := fun r =>
          runStart s.mem (s.runsAt attr) (file.position / 4096 + r)) hop₀ hop fun r' hr' =>
        ⟨_, ih r' hr' (by omega) (earlier_round hr' hlt)⟩
      obtain ⟨k, hk, hkr⟩ := hreach r havail hlt
      obtain ⟨r₂, hr₂, -, -, hbyte⟩ := hvalue k hk
      obtain rfl : r₂ = r := by omega
      rw [hstored u k hk] at hbyte
      have hwrong : s.fileByte (s.runsAt attr) (file.position + k) =
          if s.Carries (runStart s.mem (s.runsAt attr) ((file.position + k) / 4096)) (op r₂) then
            s.fileByte (s.runsAt attr) (file.position + k) else u ((file.position + k) % 4096) :=
        Option.some.inj hbyte
      rw [hkr, hopr, if_neg hnot, fileByte, hkr] at hwrong
      exact hu _ hwrong.symm
  · intro hcarried u k hk
    have hsize : 0 < size := by
      by_contra h0
      rw [fsRead, if_pos (by omega)] at hk
      exact absurd hk (not_lt_zero k)
    obtain ⟨op, hop₀, hop, hvalue, -⟩ := (h.withUninit u).fsRead_bytes hsize
    obtain ⟨r, hr, havail, hlt, hbyte⟩ := hvalue k hk
    have hopr : op r = s.disk.ops + r := carriedOp_eq (c := fun r =>
        runStart s.mem (s.runsAt attr) (file.position / 4096 + r)) hop₀ hop fun r' hr' =>
      ⟨_, hcarried hsize r' (by change _ < s.clustersAt attr at havail; omega) (earlier_round hr' hlt)⟩
    have hcarries := hcarried hsize r havail hlt
    rw [← hopr, ← hr] at hcarries
    exact hbyte.trans (congrArg some (if_pos hcarries))

theorem ClusterFile.readsStored_iff (h : ClusterFile s j cs) (hj : file.mftNumber = j)
    (size : Nat) : ReadsStored s file cs size ↔ ReadsCarried s file cs size := by
  obtain ⟨hin, hruns, hcount⟩ := h.inClusters hj
  have hcarried : ReadsCarried s file cs size ↔ RoundsCarried s file (s.slot j + 361) size := by
    rw [RoundsCarried, hruns, hcount]
    refine forall_congr' fun _ => forall_congr' fun r => ⟨fun hc hr => ?_, fun hc c hget => ?_⟩
    · have hget := getElem?_eq_getElem hr
      rw [h.runStart_eq hget]
      exact hc _ hget
    · obtain ⟨hr, -⟩ := List.getElem?_eq_some_iff.mp hget
      have := hc hr
      rwa [h.runStart_eq hget] at this
  rw [hcarried, ← hin.stored_iff, hruns]
  refine forall_congr' fun u => forall_congr' fun k => forall_congr' fun hk => ?_
  have hsize : 0 < size := by
    by_contra h0
    rw [fsRead, if_pos (by omega)] at hk
    exact absurd hk (not_lt_zero k)
  obtain ⟨op, -, -, hvalue, -⟩ := (hin.withUninit u).fsRead_bytes hsize
  obtain ⟨r, hr, havail, -⟩ := hvalue k hk
  change _ < s.clustersAt (s.slot j + 361) at havail
  rw [← hr, hcount] at havail
  have hget := getElem?_eq_getElem havail
  rw [fileByte, h.runStart_eq hget, hget]
  simp

theorem ClusterFile.withBytes (h : ClusterFile s j cs) (bytes : Mem) :
    ClusterFile (s.withBytes bytes) j cs :=
  ⟨h.named, h.runs, h.nodup, h.below, h.outside, h.entry, h.mft, h.sectors⟩

/-- The sectors of different clusters are different ones, when they have 32-bit numbers. -/
theorem inCluster_ne (hsectors : s.baseLba + s.boot.dataStart + 8 * s.boot.totalClusters ≤ 2 ^ 32)
    {c c' : Nat} (hc : c < s.boot.totalClusters) (hc' : c' < s.boot.totalClusters) (hne : c ≠ c')
    {x : Nat} (hx : s.InCluster c x) : ¬ s.InCluster c' x := by
  have hlba : ∀ k < s.boot.totalClusters,
      s.clusterLba k = s.baseLba + s.boot.dataStart + 8 * k := fun k hk => by
    rw [clusterLba, u32, u64]
    omega
  rw [Fs.InCluster, hlba c hc] at hx
  rw [Fs.InCluster, hlba c' hc']
  omega

/-- When there is a cluster for every round, the rounds are for different ones. -/
theorem ClusterFile.roundsApart (h : ClusterFile s j cs) {position size : Nat}
    (hcs : ∀ i, roundStart position i < size → ∃ c, cs[i]? = some c) :
    RoundsApart s (s.slot j + 425) position size := by
  intro i i' hne hi hi' x hx
  obtain ⟨c, hc⟩ := hcs i hi
  obtain ⟨c', hc'⟩ := hcs i' hi'
  obtain ⟨hlt, rfl⟩ := List.getElem?_eq_some_iff.mp hc
  obtain ⟨hlt', rfl⟩ := List.getElem?_eq_some_iff.mp hc'
  rw [h.runStart_eq hc] at hx
  rw [h.runStart_eq hc']
  exact inCluster_ne h.sectors (h.below _ (getElem_mem hlt)) (h.below _ (getElem_mem hlt'))
    (fun heq => hne ((h.nodup.getElem_inj_iff).mp heq)) hx

theorem writeMftEntry_outside {i x : Nat}
    (hx : ¬ s.InCluster (u64 (s.boot.mftStart + i)) x) :
    (writeMftEntry s i).2.disk.bytes x = s.disk.bytes x := by
  obtain ⟨d, hwrite, -, hbytes⟩ := writeCluster_spec s (u64 (s.boot.mftStart + i))
    fun x => s.mem (s.slot i + x)
  rw [writeMftEntry, hwrite]
  change d.bytes x = _
  rw [hbytes]
  split_ifs
  · refine writeBytes_outside ?_
    rw [length_readBytes]
    exact (not_and_or.mp hx).imp not_le.mp not_lt.mp
  · rfl

/-- `fs_write` on a file in clusters: what it counts, and what is on the disk in the clusters
    of the file. -/
theorem ClusterFile.fsWrite_spec (h : ClusterFile s j cs) (hj : file.mftNumber = j)
    (hplace : file.place + data.length + 4095 < 2 ^ 64) : ∃ op : Nat → Nat, op 0 = s.disk.ops ∧
      (∀ i c, cs[i]? = some c → op (i + 1) =
        s.nextOp c (s.writeOp (RoundReads file.place data.length i) c (op i))) ∧
      (fsWrite s file data).1 = data.length ∧
      ((∀ i, roundStart file.place i < data.length → ∃ c, cs[i]? = some c) →
        ∀ k (hk : k < data.length) c, cs[writeIndex file.place k]? = some c →
          (fsWrite s file data).2.2.disk.bytes (s.clusterAddr c (writeOffset file.place k)) =
            if s.Carries c (s.writeOp (RoundReads file.place data.length (writeIndex file.place k)) c
              (op (writeIndex file.place k)))
            then data[k] else s.disk.bytes (s.clusterAddr c (writeOffset file.place k))) := by
  obtain ⟨op, hop₀, hop⟩ := exists_writeOps s (s.slot j + 425) file.place data.length
  refine ⟨op, hop₀, fun i c hc => by rw [hop, h.runStart_eq hc], ?_⟩
  rcases eq_or_ne data [] with rfl | hdata
  · exact ⟨rfl, fun _ k hk => absurd hk (by simp)⟩
  have hpos : 0 < data.length := length_pos_iff.mpr hdata
  obtain ⟨d, hrun, -, -, hbytes⟩ := @writeRuns_spec s (s.slot j + 425) file.place data op
    (u64 (file.place + data.length + fsClusterSize - 1) / fsClusterSize) 0 s.disk
    (fun i _ => hop i) rfl hop₀.symm (by
      rw [u64, fsClusterSize, roundStart]
      split_ifs <;> omega)
  have hstart : min (roundStart file.place 0) data.length = 0 := by
    rw [roundStart]
    simp
  rw [hstart] at hrun
  have hfound : fsWrite s file data = writeNonResident s file.placed (s.slot j + 361) data := by
    subst hj
    rw [fsWrite_found hdata (h.runs.findAttr h.named), h.runs.writeAttr_eq]
  have hnumber : file.placed.mftNumber = j := file.placed_mftNumber.trans hj
  obtain ⟨w, d', hrun', hwrite⟩ := writeNonResident_eq hnumber h.named h.runs data
  rw [file.placed_position, hrun] at hrun'
  obtain ⟨rfl, hd⟩ := Prod.mk.inj hrun'
  obtain rfl : d = d' := congrArg disk hd
  rw [hfound, hwrite]
  refine ⟨rfl, fun hcs k hk c hc => ?_⟩
  have hmem : c ∈ cs := mem_of_getElem? hc
  have hentry : u64 (s.boot.mftStart + j) = s.boot.mftStart + j := by
    have hsectors := h.sectors
    have := h.entry
    have := h.mft
    exact u64_of_lt (by omega)
  have hin : s.InCluster c (s.clusterAddr c (writeOffset file.place k)) :=
    inCluster_clusterAddr (writeOffset_lt _ _)
  have hout : ¬ s.InCluster (u64 (s.boot.mftStart + j))
      (s.clusterAddr c (writeOffset file.place k)) := by
    have := h.entry
    have := h.mft
    rw [hentry]
    exact inCluster_ne h.sectors (h.below c hmem) (by omega)
      (fun heq => h.outside c hmem ⟨by omega, by omega⟩) hin
  have hbyte := hbytes (h.roundsApart hcs) k hk (by rw [roundStart]; simp)
  rw [writeAddr, h.runStart_eq hc] at hbyte
  refine Eq.trans (writeMftEntry_outside ?_) hbyte
  exact hout

/-- As long as the clusters before are in reach, only the round of the position takes two
    operations before the last one. -/
theorem writeOp_eq {op : Nat → Nat} {position size i : Nat} (hop₀ : op 0 = s.disk.ops)
    (hop : ∀ i c, cs[i]? = some c → op (i + 1) =
      s.nextOp c (s.writeOp (RoundReads position size i) c (op i)))
    (hi : roundStart position i < size)
    (hbefore : ∀ i' < i, ∃ c k, cs[i']? = some c ∧ s.Carries c k) :
    op i = roundOp s.disk.ops position i := by
  induction i with
  | zero =>
    rw [hop₀, roundOp, if_neg (by omega)]
    rfl
  | succ i ih =>
    obtain ⟨c, k, hc, hcarries⟩ := hbefore i (by omega)
    have hsucc := roundStart_succ position i
    have hoffset := roundOffset_lt position i
    have hop' := ih (by omega) fun i' hi' => hbefore i' (by omega)
    have hreads : RoundReads position size i ↔ i = position / 4096 ∧ 0 < position % 4096 := by
      rw [RoundReads, min_eq_left (by omega)]
      rw [roundOffset] at hoffset hsucc ⊢
      split_ifs at hoffset hsucc ⊢ <;> omega
    rw [hop i c hc, nextOp_of_carries hcarries, writeOp, nextOp_of_carries hcarries, hop',
      roundOp, roundOp]
    simp only [hreads]
    split_ifs <;> omega

theorem carries_writeOp {c k : Nat} (reads : Prop) [Decidable reads] :
    s.Carries c (s.writeOp reads c k) ↔ s.Carries c (k + if reads then 1 else 0) := by
  by_cases hlba : s.clusterLba c ≤ 0x0FFFFFFF
  · rw [writeOp, nextOp, if_pos hlba]
    split_ifs <;> rfl
  · exact iff_of_false (fun h => hlba h.1) fun h => hlba h.1

theorem ClusterFile.writesStored_iff (h : ClusterFile s j cs) (hj : file.mftNumber = j)
    (hplace : file.place + data.length + 4095 < 2 ^ 64) :
    WritesStored s file cs data ↔ WritesCarried s file cs data := by
  constructor
  · intro hstored
    have hstart (i : Nat) (hi : roundStart file.place i < data.length) :
        writeIndex file.place (roundStart file.place i) = i :=
      writeIndex_eq le_rfl (by
        have := roundStart_succ file.place i
        have := roundOffset_lt file.place i
        omega)
    have hcs (i : Nat) (hi : roundStart file.place i < data.length) : ∃ c, cs[i]? = some c := by
      obtain ⟨op, -, -, hcount, -⟩ := (h.withBytes s.disk.bytes).fsWrite_spec hj hplace
      obtain ⟨c, hc, -⟩ := hstored s.disk.bytes (roundStart file.place i) (by rw [hcount]; exact hi)
      rw [hstart i hi] at hc
      exact ⟨c, hc⟩
    intro i
    induction i using Nat.strong_induction_on with
    | _ i ih =>
      intro hi
      obtain ⟨c, hc⟩ := hcs i hi
      refine ⟨c, hc, ?_⟩
      by_contra hnot
      -- on a disk that is wrong everywhere the round would show
      obtain ⟨b, hb⟩ := exists_ne_byte (data.getD (roundStart file.place i) 0)
      obtain ⟨op, hop₀, hop, hcount, hbytes⟩ := (h.withBytes fun _ => b).fsWrite_spec hj hplace
      have hopi : op i = roundOp s.disk.ops file.place i := writeOp_eq hop₀ hop hi fun i' hi' => by
        obtain ⟨c', hc', hcarries⟩ := ih i' hi' ((roundStart_mono _ hi'.le).trans_lt hi)
        exact ⟨c', _, hc', hcarries⟩
      have hbyte := hbytes hcs _ hi c (by rw [hstart i hi]; exact hc)
      have hlost : ¬ (s.withBytes fun _ => b).Carries c ((s.withBytes fun _ => b).writeOp
          (RoundReads file.place data.length i) c (roundOp s.disk.ops file.place i)) :=
        fun hcarries => hnot ((carries_writeOp _).mp hcarries)
      rw [hstart i hi, hopi, if_neg hlost] at hbyte
      obtain ⟨c', hc', hdata⟩ := hstored (fun _ => b) _ (by rw [hcount]; exact hi)
      rw [hstart i hi, hc] at hc'
      obtain rfl := Option.some.inj hc'
      exact hb (hbyte.symm.trans hdata)
  · intro hcarried bytes k hk
    obtain ⟨op, hop₀, hop, hcount, hbytes⟩ := (h.withBytes bytes).fsWrite_spec hj hplace
    rw [hcount] at hk
    obtain ⟨hlo, -⟩ := writeIndex_bounds file.place k
    have hi : roundStart file.place (writeIndex file.place k) < data.length := hlo.trans_lt hk
    obtain ⟨c, hc, hcarries⟩ := hcarried _ hi
    refine ⟨c, hc, ?_⟩
    have hopi : op (writeIndex file.place k) = roundOp s.disk.ops file.place
        (writeIndex file.place k) := writeOp_eq hop₀ hop hi fun i' hi' => by
      obtain ⟨c', hc', hcarries'⟩ := hcarried i' ((roundStart_mono _ hi'.le).trans_lt hi)
      exact ⟨c', _, hc', hcarries'⟩
    have hbyte := hbytes (fun i hi => (hcarried i hi).imp fun _ hc => hc.1) k hk c hc
    have hdone : (s.withBytes bytes).Carries c ((s.withBytes bytes).writeOp
        (RoundReads file.place data.length (writeIndex file.place k)) c
        (roundOp s.disk.ops file.place (writeIndex file.place k))) :=
      (carries_writeOp _).mpr hcarries
    rw [hopi, if_pos hdone] at hbyte
    rw [getD_eq_getElem?_getD, getElem?_eq_getElem hk, Option.getD_some]
    exact hbyte

end File

/-! ## Calls -/

inductive TransferCall where
  | read (size : Nat)
  | write (data : List UInt8)

/-- The call counts only bytes that were transferred. -/
def TransferCall.Honest (s : Fs) (file : FsFile) (cs : List Nat) : TransferCall → Prop
  | .read size => ReadsStored s file cs size
  | .write data => WritesStored s file cs data

/-- The disk carries out what the call asks of it. -/
def TransferCall.Carried (s : Fs) (file : FsFile) (cs : List Nat) : TransferCall → Prop
  | .read size => ReadsCarried s file cs size
  | .write data => WritesCarried s file cs data

/-- The last byte of the call has a 64-bit position. -/
def TransferCall.InRange (file : FsFile) : TransferCall → Prop
  | .read _ => True
  | .write data => file.place + data.length + 4095 < 2 ^ 64

/-- Memory with one entry of the MFT, for a file in cluster 40. -/
def oneClusterMem : Mem :=
  let header : Mem := ((Mem.writeLE (fun _ => 0) 65540 2 32).writeLE 65544 4 449)
  let name : Mem := (header.writeLE 65568 4 attrFilename).writeLE 65572 4 329
  let attr : Mem := ((name.writeLE 65897 4 attrData).writeLE 65901 4 80).writeLE 65905 1 1
  let sizes : Mem := ((attr.writeLE 65929 2 64).writeLE 65937 8 4096).writeLE 65945 8 4096
  (sizes.writeLE 65961 8 40).writeLE 65969 8 1

theorem oneClusterMem_named : Named oneClusterMem 65536 :=
  ⟨by decide, by decide, by decide, by decide, by decide⟩

theorem oneClusterMem_runs : RunArray oneClusterMem 65536 [40] where
  used := by decide
  cap := by decide
  type := by decide
  nonResident := by decide
  length := by decide
  offset := by decide
  allocated := by decide
  first := by decide
  run := fun j hj => by
    obtain rfl : j = 0 := by simpa using hj
    exact ⟨show runStart oneClusterMem (65536 + 425) 0 = 40 by decide, by decide⟩

/-- A volume with that file, on a disk where the operations `fails` fail. -/
def oneCluster (fails : Nat → Bool) : Fs where
  boot := { totalSectors := 2048, mftStart := 4, mftSize := 32, dataStart := 8, totalClusters := 64 }
  mem := oneClusterMem
  mftZone := 0
  bitmap := fun _ => 0
  disk := ⟨fun _ => 7, fails, 0, []⟩
  baseLba := 0
  clock := fun _ => 0
  ticks := 0
  uninit := fun _ => 9

theorem oneCluster_slot (fails : Nat → Bool) : (oneCluster fails).slot 16 = 65536 := by
  rw [slot, mftEntrySize]
  simp [oneCluster]

theorem oneCluster_file (fails : Nat → Bool) : ClusterFile (oneCluster fails) 16 [40] where
  named := by
    rw [oneCluster_slot]
    exact oneClusterMem_named
  runs := by
    rw [oneCluster_slot]
    exact oneClusterMem_runs
  nodup := by simp
  below := by simp [oneCluster]
  outside := by simp [oneCluster, mftCluster]
  entry := by simp [oneCluster]
  mft := by simp [oneCluster]
  sectors := by simp [oneCluster]

/-- A handle on the file, at its start. -/
def startOfFile : FsFile := { mftNumber := 16, position := 0, size := 4096, mode := 0 }

end OpenSys
