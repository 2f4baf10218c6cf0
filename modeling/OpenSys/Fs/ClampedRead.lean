-- SUMMARY: How many bytes fs_read returns, and when that is what the recorded size allows.
import OpenSys.Fs.Transfer

/-!
# Reads and the recorded size

A file in clusters records its real size in its data attribute. `fs_read` looks at it in the round
for the last cluster only, and only if the position is below it; it then takes at most the
difference between the real size and the position the call started at, whatever earlier rounds
have already read. Every other round is bounded by its cluster and by the request alone.

`readLength` is the length that follows from the loop. It is compared with the number of bytes that
are left in the file.
-/

namespace OpenSys

open Mem List Nat

variable {s : Fs} {file : FsFile} {attr size : Nat}

/-- The recorded real size. -/
def Fs.realAt (s : Fs) (attr : Nat) : Nat := nrRealSize s.mem (attr + attrHeaderSize)

/-- The request gives the bytes from the position on, as many as there are up to the recorded size
and no more than asked for, and moves the position behind them; this for everything that the buffer
for clusters may hold before. -/
def ReadsExactly (s : Fs) (file : FsFile) (attr size : Nat) : Prop :=
  let n := min size (s.realAt attr - file.position)
  ∀ u, (fsRead { s with uninit := u } file size).1 =
      (List.range n).map (fun k => s.fileByte (s.runsAt attr) (file.position + k)) ∧
    (fsRead { s with uninit := u } file size).2.1 = { file with position := file.position + n }

/-! ## The length -/

/-- The bytes that the loop returns for `available` clusters and a recorded size `real`. -/
def readLength (available real position size : Nat) : Nat :=
  let last := (available - 1) * 4096
  if available * 4096 ≤ position then 0
  else if position + size ≤ last then size
  else
    let left := 4096 - (position - last)
    let toRead := if position < real then min left (real - position) else left
    last - position + min toRead (size - (last - position))

/-- The request is one for which the loop keeps to the recorded size: nothing is asked for; or
there is no cluster behind the position; or the position is below the recorded size and in the last
cluster, or the request ends within the recorded size, or that size fills the clusters. -/
def KeepsToSize (available real position size : Nat) : Prop :=
  size = 0 ∨ (real ≤ position ∧ available * 4096 ≤ position) ∨
    (position < real ∧
      ((available - 1) * 4096 ≤ position ∨ size ≤ real - position ∨ real = available * 4096))

theorem readLength_eq_iff {available real position size : Nat} (hreal : real ≤ available * 4096) :
    readLength available real position size = min size (real - position) ↔
      KeepsToSize available real position size := by
  unfold readLength KeepsToSize
  dsimp only
  split_ifs <;> omega

/-- What a round that ends the loop takes. -/
theorem readLength_last {available real position size i offset got n : Nat} (hi : i < available)
    (hgot : got < size) (hplace : position + got = i * 4096 + offset) (hoffset : offset < 4096)
    (hfirst : got = 0 ∨ offset = 0)
    (hn : min (if i = available - 1 ∧ position < real then min (4096 - offset) (real - position)
      else 4096 - offset) (size - got) = n)
    (hend : ¬ (i + 1 < available ∧ got + n < size)) :
    got + n = readLength available real position size := by
  obtain ⟨a, rfl⟩ := exists_eq_succ_of_ne_zero (ne_of_gt (zero_lt_of_lt hi))
  unfold readLength
  simp only [succ_eq_add_one] at *
  rw [if_neg (by omega)]
  rcases lt_or_ge i a with hbefore | hlast
  · rw [if_neg (by omega)] at hn
    rw [if_pos (by omega)]
    omega
  obtain rfl : i = a := by omega
  rw [if_neg (by omega)]
  by_cases hreal : position < real
  · rw [if_pos ⟨rfl, hreal⟩] at hn
    rw [if_pos hreal]
    omega
  · rw [if_neg (by omega)] at hn
    rw [if_neg hreal]
    omega

/-- The loop from cluster `i` on. Only its first round starts inside a cluster. -/
theorem readRuns_length {nr runs available rounds i offset : Nat} {got : List UInt8} {d : Disk}
    (hi : i < available) (hgot : got.length < size) (hrounds : available ≤ i + rounds)
    (hplace : file.position + got.length = i * 4096 + offset) (hoffset : offset < 4096)
    (hfirst : got.length = 0 ∨ offset = 0) :
    (readRuns file nr runs available size rounds { s with disk := d } i offset got).1.length =
      readLength available (nrRealSize s.mem nr) file.position size := by
  induction rounds generalizing i offset got d with
  | zero => omega
  | succ rounds ih =>
    rw [readRuns, if_neg (by omega)]
    obtain ⟨status, d', hread, -⟩ := readCluster_spec { s with disk := d } (runStart s.mem runs i) s.uninit
    simp only [hread]
    generalize hn : min (if i = available - 1 ∧ file.position < nrRealSize s.mem nr then
      min (fsClusterSize - offset) (nrRealSize s.mem nr - file.position)
      else fsClusterSize - offset) (size - got.length) = n
    generalize hbuf : (if Fs.Carries { s with disk := d } (runStart s.mem runs i) _ then _ else _) = buf
    have hlen : (got ++ buf.readBytes offset n).length = got.length + n := by
      rw [length_append, length_readBytes]
    rw [fsClusterSize] at hn
    by_cases hnext : i + 1 < available ∧ got.length + n < size
    · -- The cluster was read to its end.
      have hlast : ¬ (i = available - 1 ∧ file.position < nrRealSize s.mem nr) := by omega
      rw [if_neg hlast] at hn
      exact ih hnext.1 (by omega) (by omega) (by omega) (by omega) (.inr rfl)
    · -- The loop ends here.
      have hstop : (readRuns file nr runs available size rounds { s with disk := d' } (i + 1) 0
          (got ++ buf.readBytes offset n)).1 = got ++ buf.readBytes offset n := by
        cases rounds with
        | zero => rfl
        | succ rounds => rw [readRuns, if_pos (by omega)]
      refine (congrArg List.length hstop).trans (hlen.trans ?_)
      exact readLength_last hi hgot hplace hoffset hfirst hn hnext

/-! ## The request as a whole -/

theorem InClusters.fsRead_length (h : InClusters s file attr) (hsize : 0 < size) :
    (fsRead s file size).1.length =
      readLength (s.clustersAt attr) (s.realAt attr) file.position size := by
  rw [(h.fsRead_eq hsize).1]
  by_cases hin : file.position / 4096 < s.clustersAt attr
  · exact readRuns_length (d := s.disk) hin hsize (by omega)
      (by rw [length_nil]; omega) (by omega) (.inl rfl)
  have hnone : (readRuns file (attr + attrHeaderSize) (s.runsAt attr) (s.clustersAt attr) size
      (s.clustersAt attr) s (file.position / 4096) (file.position % 4096) []).1 = [] := by
    generalize s.clustersAt attr = n at hin
    cases n with
    | zero => rfl
    | succ n => rw [readRuns, if_pos (by omega)]
  rw [hnone, readLength, if_pos (by omega)]
  rfl

/-- When every operation is carried out, the bytes are those of the file. -/
theorem RoundsCarried.fsRead_eq (hcarried : RoundsCarried s file attr size)
    (h : InClusters s file attr) (hsize : 0 < size) (u : Mem) :
    (fsRead { s with uninit := u } file size).1 =
      (List.range (readLength (s.clustersAt attr) (s.realAt attr) file.position size)).map
        fun k => s.fileByte (s.runsAt attr) (file.position + k) := by
  have hlen := (h.withUninit u).fsRead_length hsize
  refine ext_getElem? fun k => ?_
  by_cases hk : k < (fsRead { s with uninit := u } file size).1.length
  · have hk' : k < readLength (s.clustersAt attr) (s.realAt attr) file.position size := hlen ▸ hk
    rw [h.stored_iff.mpr hcarried u k hk, getElem?_map, getElem?_range hk', Option.map_some]
  · rw [getElem?_eq_none (not_lt.mp hk), getElem?_eq_none]
    rw [length_map, length_range]
    exact hlen ▸ not_lt.mp hk

theorem realAt_lt : s.realAt attr < 2 ^ 64 := by
  have := readLE_lt s.mem (attr + attrHeaderSize + 32) 8
  exact this

/-- The same volume when the file records 10 bytes. -/
def tenBytes : Fs :=
  { oneCluster fun _ => false with mem := oneClusterMem.writeLE 65945 8 10 }

/-- A handle at the end of that file. -/
def endOfFile : FsFile := { mftNumber := 16, position := 10, size := 10, mode := 0 }

end OpenSys
