-- SUMMARY: The intent builders, none of whose intents passes validate_intent.
import Mathlib.Data.List.OfFn
import Mathlib.Algebra.BigOperators.Group.List.Basic
import Mathlib.Tactic.Linarith

/-!
# Intents

`src/kernel/intent_dispatcher.c`. The checksum is the sum of the bytes of the structure
without its last four. The `checksum` field is not the last one, so it is summed too: as
zero when an intent is built, and with the sum in it when the intent is validated.
-/

namespace OpenSys

open List Nat

/-! ## The structure -/

/-- `intent_t`. Integers are kept as their bit patterns. -/
structure Intent where
  type : BitVec 32
  targetId : BitVec 64
  param1 : Fin 256 → UInt8
  param2 : Fin 256 → UInt8
  intParam1 : BitVec 32
  intParam2 : BitVec 32
  sourceProcessId : BitVec 32
  timestamp : BitVec 64
  sequenceNumber : BitVec 32
  checksum : BitVec 32
  priority : BitVec 8
  data : BitVec 64
  dataSize : BitVec 64

/-- `intent_t intent = {0}`. -/
def Intent.zero : Intent :=
  ⟨0, 0, fun _ => 0, fun _ => 0, 0, 0, 0, 0, 0, 0, 0, 0, 0⟩

/-- The `k` bytes of an integer, the lowest first. -/
def leBytes (k v : Nat) : List UInt8 := (List.range k).map fun i => UInt8.ofNat (v / 256 ^ i)

def padding (k : Nat) : List UInt8 := List.replicate k 0

/-- The fields before the checksum, as they lie in memory. -/
def Intent.front (it : Intent) : List UInt8 :=
  leBytes 4 it.type.toNat ++ padding 4 ++ leBytes 8 it.targetId.toNat ++
    List.ofFn it.param1 ++ List.ofFn it.param2 ++
    leBytes 4 it.intParam1.toNat ++ leBytes 4 it.intParam2.toNat ++
    leBytes 4 it.sourceProcessId.toNat ++ padding 4 ++ leBytes 8 it.timestamp.toNat ++
    leBytes 4 it.sequenceNumber.toNat

/-- The fields behind the checksum. -/
def Intent.back (it : Intent) : List UInt8 :=
  leBytes 1 it.priority.toNat ++ padding 7 ++ leBytes 8 it.data.toNat ++ leBytes 8 it.dataSize.toNat

/-- The 584 bytes of the structure. -/
def Intent.bytes (it : Intent) : List UInt8 :=
  it.front ++ leBytes 4 it.checksum.toNat ++ it.back

/-- `calculate_checksum`, over `sizeof(intent_t) - sizeof(intent->checksum)` bytes. -/
def calculateChecksum (it : Intent) : BitVec 32 :=
  (it.bytes.take (584 - 4)).foldl (fun sum b => sum + BitVec.ofNat 32 b.toNat) 0

/-! ## The dispatcher -/

/-- What the builders and the validation see of the kernel: the next sequence number, and
    whether the state graph has a node. -/
structure Dispatcher where
  nextSequence : BitVec 32
  hasNode : BitVec 64 → Bool

structure RtcTime where
  second : UInt8
  minute : UInt8
  hour : UInt8

def getTimestamp (time : RtcTime) : BitVec 64 :=
  BitVec.ofNat 64 (time.second.toNat + time.minute.toNat * 60 + time.hour.toNat * 3600)

def nodeIdInvalid : BitVec 64 := 0

def validateIntent (d : Dispatcher) (it : Intent) : Bool :=
  if it.checksum ≠ calculateChecksum it then false
  else if it.type.toNat < 100 ∨ 799 < it.type.toNat then false
  else if it.targetId ≠ nodeIdInvalid then d.hasNode it.targetId
  else true

/-! ## Builders -/

/-- `k_strcpy` into a buffer of 256 bytes, null when the string does not fit. -/
def strcpy256 (buf : Fin 256 → UInt8) (str : List UInt8) : Option (Fin 256 → UInt8) :=
  if str.length < 256 then
    some fun i => if i.val < str.length then str.getD i.val 0 else if i.val = str.length then 0 else buf i
  else none

/-- The last lines of every builder. -/
def finishIntent (d : Dispatcher) (time : RtcTime) (priority : BitVec 8) (it : Intent) :
    Intent × Dispatcher :=
  let it := { it with
    sourceProcessId := 0
    timestamp := getTimestamp time
    sequenceNumber := d.nextSequence
    priority := priority }
  ({ it with checksum := calculateChecksum it }, { d with nextSequence := d.nextSequence + 1 })

def intentCreateWindow (d : Dispatcher) (time : RtcTime) (parentId : BitVec 64)
    (title : List UInt8) : Option (Intent × Dispatcher) :=
  (strcpy256 Intent.zero.param1 title).map fun param1 =>
    finishIntent d time 1 { Intent.zero with
      type := 100, targetId := parentId, param1 := param1, intParam1 := 100, intParam2 := 100 }

def intentMoveWindow (d : Dispatcher) (time : RtcTime) (windowId : BitVec 64) (x y : BitVec 32) :
    Option (Intent × Dispatcher) :=
  some (finishIntent d time 1 { Intent.zero with
    type := 102, targetId := windowId, intParam1 := x, intParam2 := y })

def intentClickNode (d : Dispatcher) (time : RtcTime) (nodeId : BitVec 64) :
    Option (Intent × Dispatcher) :=
  some (finishIntent d time 2 { Intent.zero with type := 300, targetId := nodeId })

def intentSetNodeText (d : Dispatcher) (time : RtcTime) (nodeId : BitVec 64)
    (text : List UInt8) : Option (Intent × Dispatcher) :=
  (strcpy256 Intent.zero.param1 text).map fun param1 =>
    finishIntent d time 1 { Intent.zero with type := 204, targetId := nodeId, param1 := param1 }

/-- `if (p) k_strcpy(param, p)`. -/
def copyParam (p : Option (List UInt8)) : Option (Fin 256 → UInt8) :=
  match p with
  | none => some Intent.zero.param1
  | some p => strcpy256 Intent.zero.param1 p

def fsIntentBuild (d : Dispatcher) (time : RtcTime) (type : BitVec 32) (p1 p2 : Option (List UInt8))
    (ip1 : BitVec 32) : Option (Intent × Dispatcher) :=
  (copyParam p1).bind fun param1 => (copyParam p2).map fun param2 =>
    finishIntent d time 1 { Intent.zero with
      type := type, param1 := param1, param2 := param2, intParam1 := ip1 }

def intentFsCreateDir (d : Dispatcher) (time : RtcTime) (path : List UInt8) :=
  fsIntentBuild d time 702 (some path) none 0

def intentFsRemoveDir (d : Dispatcher) (time : RtcTime) (path : List UInt8) :=
  fsIntentBuild d time 703 (some path) none 0

def intentFsCopyFile (d : Dispatcher) (time : RtcTime) (src dst : List UInt8) :=
  fsIntentBuild d time 700 (some src) (some dst) 0

def intentFsMoveFile (d : Dispatcher) (time : RtcTime) (src dst : List UInt8) :=
  fsIntentBuild d time 701 (some src) (some dst) 0

def intentFsChdir (d : Dispatcher) (time : RtcTime) (path : List UInt8) :=
  fsIntentBuild d time 705 (some path) none 0

def intentFsChdirParent (d : Dispatcher) (time : RtcTime) := fsIntentBuild d time 705 none none 1

def intentFsChdirHome (d : Dispatcher) (time : RtcTime) := fsIntentBuild d time 705 none none 2

def intentFsPrintCwd (d : Dispatcher) (time : RtcTime) := fsIntentBuild d time 706 none none 0

def intentFsSearch (d : Dispatcher) (time : RtcTime) (pattern : List UInt8) :=
  fsIntentBuild d time 704 (some pattern) none 0

/-- A call of a builder. -/
inductive IntentCall where
  | createWindow (parentId : BitVec 64) (title : List UInt8)
  | moveWindow (windowId : BitVec 64) (x y : BitVec 32)
  | clickNode (nodeId : BitVec 64)
  | setNodeText (nodeId : BitVec 64) (text : List UInt8)
  | fsCreateDir (path : List UInt8)
  | fsRemoveDir (path : List UInt8)
  | fsCopyFile (src dst : List UInt8)
  | fsMoveFile (src dst : List UInt8)
  | fsChdir (path : List UInt8)
  | fsChdirParent
  | fsChdirHome
  | fsPrintCwd
  | fsSearch (pattern : List UInt8)

def IntentCall.build (d : Dispatcher) (time : RtcTime) : IntentCall → Option (Intent × Dispatcher)
  | .createWindow parentId title => intentCreateWindow d time parentId title
  | .moveWindow windowId x y => intentMoveWindow d time windowId x y
  | .clickNode nodeId => intentClickNode d time nodeId
  | .setNodeText nodeId text => intentSetNodeText d time nodeId text
  | .fsCreateDir path => intentFsCreateDir d time path
  | .fsRemoveDir path => intentFsRemoveDir d time path
  | .fsCopyFile src dst => intentFsCopyFile d time src dst
  | .fsMoveFile src dst => intentFsMoveFile d time src dst
  | .fsChdir path => intentFsChdir d time path
  | .fsChdirParent => intentFsChdirParent d time
  | .fsChdirHome => intentFsChdirHome d time
  | .fsPrintCwd => intentFsPrintCwd d time
  | .fsSearch pattern => intentFsSearch d time pattern

/-- The string arguments of a call. -/
def IntentCall.strings : IntentCall → List (List UInt8)
  | .createWindow _ str | .setNodeText _ str | .fsCreateDir str | .fsRemoveDir str
  | .fsChdir str | .fsSearch str => [str]
  | .fsCopyFile src dst | .fsMoveFile src dst => [src, dst]
  | .moveWindow .. | .clickNode _ | .fsChdirParent | .fsChdirHome | .fsPrintCwd => []

/-! ## Sums of bytes -/

def byteSum (l : List UInt8) : Nat := (l.map UInt8.toNat).sum

theorem byteSum_append (l l' : List UInt8) : byteSum (l ++ l') = byteSum l + byteSum l' := by
  rw [byteSum, map_append, sum_append_nat, byteSum, byteSum]

theorem byteSum_le (l : List UInt8) : byteSum l ≤ 255 * l.length := by
  induction l with
  | nil => exact le_refl _
  | cons b l ih =>
    have hb := b.toNat_lt
    rw [byteSum, map_cons, sum_cons, length_cons]
    change b.toNat + byteSum l ≤ _
    omega

/-- The loop of `calculate_checksum`. -/
theorem foldl_add_toNat (l : List UInt8) (sum : BitVec 32) :
    (l.foldl (fun sum b => sum + BitVec.ofNat 32 b.toNat) sum).toNat =
      (sum.toNat + byteSum l) % 2 ^ 32 := by
  induction l generalizing sum with
  | nil => exact (mod_eq_of_lt sum.isLt).symm
  | cons b l ih =>
    rw [foldl_cons, ih, BitVec.toNat_add, BitVec.toNat_ofNat, mod_add_mod]
    change _ = (sum.toNat + (b.toNat + byteSum l)) % 2 ^ 32
    omega

theorem length_leBytes (k v : Nat) : (leBytes k v).length = k := by
  rw [leBytes, length_map, length_range]

/-- An integer that is not zero has a byte that is not zero. -/
theorem byteSum_leBytes_pos {k v : Nat} (hpos : 0 < v) (hlt : v < 256 ^ k) :
    0 < byteSum (leBytes k v) := by
  induction k generalizing v with
  | zero => omega
  | succ k ih =>
    have hsplit : leBytes (k + 1) v = UInt8.ofNat v :: leBytes k (v / 256) := by
      simp only [leBytes, range_succ_eq_map, map_cons, map_map, Nat.pow_zero,
        Nat.div_one, Function.comp_def, Nat.succ_eq_add_one, Nat.pow_succ', Nat.div_div_eq_div_mul]
    rw [hsplit, byteSum, map_cons, sum_cons]
    change 0 < (UInt8.ofNat v).toNat + byteSum (leBytes k (v / 256))
    by_cases hlow : v % 256 = 0
    · have hhigh := ih (v := v / 256) (by omega) (by
        rw [Nat.pow_succ] at hlt
        exact Nat.div_lt_of_lt_mul (by omega))
      omega
    · have hbyte : (UInt8.ofNat v).toNat = v % 256 := UInt8.toNat_ofNat'
      omega

/-! ## The checksum -/

theorem length_front (it : Intent) : it.front.length = 556 := by
  simp only [Intent.front, length_append, length_leBytes, padding, length_replicate, length_ofFn]

/-- The bytes behind the checksum that are summed. -/
def Intent.summedBack (it : Intent) : List UInt8 := it.back.take 20

theorem take_bytes (it : Intent) : it.bytes.take (584 - 4) =
    it.front ++ leBytes 4 it.checksum.toNat ++ it.summedBack := by
  have hlen : (it.front ++ leBytes 4 it.checksum.toNat).length = 560 := by
    rw [length_append, length_front, length_leBytes]
  rw [Intent.bytes, take_append, hlen, take_of_length_le (by omega)]
  rfl

/-- The sum of all bytes but those of the checksum field. -/
def Intent.base (it : Intent) : Nat := byteSum it.front + byteSum it.summedBack

theorem base_lt (it : Intent) : it.base + byteSum (leBytes 4 it.checksum.toNat) < 2 ^ 32 := by
  have hfront := byteSum_le it.front
  have hback := byteSum_le it.summedBack
  have hsum := byteSum_le (leBytes 4 it.checksum.toNat)
  have hlen : it.summedBack.length ≤ 20 := length_take_le _ _
  rw [length_front] at hfront
  rw [length_leBytes] at hsum
  rw [Intent.base]
  omega

theorem calculateChecksum_toNat (it : Intent) :
    (calculateChecksum it).toNat = it.base + byteSum (leBytes 4 it.checksum.toNat) := by
  have hlt := base_lt it
  rw [calculateChecksum, foldl_add_toNat, take_bytes, byteSum_append, byteSum_append]
  rw [Intent.base] at hlt ⊢
  have hstart : (0 : BitVec 32).toNat = 0 := rfl
  rw [hstart, zero_add]
  omega

/-- An intent with a type sums to more than zero. -/
theorem base_pos {it : Intent} (h : 0 < it.type.toNat) : 0 < it.base := by
  have htype : 0 < byteSum (leBytes 4 it.type.toNat) := byteSum_leBytes_pos h it.type.isLt
  simp only [Intent.base, Intent.front, byteSum_append]
  omega

-- from here on only the sum is known about the checksum
attribute [irreducible] calculateChecksum

theorem byteSum_leBytes_zero : byteSum (leBytes 4 0) = 0 := by decide

/-- The sum grows with the bytes of the process number. -/
theorem base_setSource {it : Intent} (h : it.sourceProcessId = 0) (pid c : BitVec 32) :
    ({ it with checksum := c, sourceProcessId := pid } : Intent).base =
      it.base + byteSum (leBytes 4 pid.toNat) := by
  have hzero : byteSum (leBytes 4 it.sourceProcessId.toNat) = 0 := by
    rw [h]
    exact byteSum_leBytes_zero
  simp only [Intent.base, Intent.front, Intent.summedBack, Intent.back, byteSum_append, hzero]
  omega

/-- A checksum that was computed while its field was zero is wrong as soon as it is in the
    field, whatever process the intent comes from. -/
theorem stored_checksum_wrong (it : Intent) (hzero : it.checksum = 0)
    (hsource : it.sourceProcessId = 0) (htype : 0 < it.type.toNat) (pid : BitVec 32) :
    calculateChecksum it ≠ calculateChecksum
      { it with checksum := calculateChecksum it, sourceProcessId := pid } := by
  intro heq
  have hsum : (calculateChecksum it).toNat = it.base := by
    have hfield : (0 : BitVec 32).toNat = 0 := rfl
    rw [calculateChecksum_toNat, hzero, hfield, byteSum_leBytes_zero, add_zero]
  have hpos := base_pos htype
  have hbytes : 0 < byteSum (leBytes 4 (calculateChecksum it).toNat) :=
    byteSum_leBytes_pos (by omega) (calculateChecksum it).isLt
  have hgrow := base_setSource hsource pid (calculateChecksum it)
  have hagain : (calculateChecksum it).toNat =
      ({ it with checksum := calculateChecksum it, sourceProcessId := pid } : Intent).base +
        byteSum (leBytes 4 (calculateChecksum it).toNat) := by
    conv_lhs => rw [heq]
    exact calculateChecksum_toNat _
  omega

theorem finishIntent_rejected {it : Intent} (hzero : it.checksum = 0) (htype : 0 < it.type.toNat)
    (d d' : Dispatcher) (time : RtcTime) (priority : BitVec 8) (pid : BitVec 32) :
    validateIntent d' { (finishIntent d time priority it).1 with sourceProcessId := pid } = false :=
  if_pos (stored_checksum_wrong { it with
    sourceProcessId := 0
    timestamp := getTimestamp time
    sequenceNumber := d.nextSequence
    priority := priority } hzero rfl htype pid)

/-! ## Every builder -/

theorem strcpy256_of_lt (buf : Fin 256 → UInt8) {str : List UInt8} (h : str.length < 256) :
    ∃ buf', strcpy256 buf str = some buf' := ⟨_, if_pos h⟩

/-- The result of a builder comes out of `finishIntent`. -/
def Finished (d : Dispatcher) (time : RtcTime) (r : Option (Intent × Dispatcher)) : Prop :=
  ∃ it priority, it.checksum = 0 ∧ 0 < it.type.toNat ∧ r = some (finishIntent d time priority it)

theorem fsIntentBuild_finished (d : Dispatcher) (time : RtcTime) {type : BitVec 32}
    {p1 p2 : Option (List UInt8)} (ip1 : BitVec 32) (htype : 0 < type.toNat)
    (h1 : ∀ p ∈ p1, p.length < 256) (h2 : ∀ p ∈ p2, p.length < 256) :
    Finished d time (fsIntentBuild d time type p1 p2 ip1) := by
  have hcopy : ∀ p : Option (List UInt8), (∀ q ∈ p, q.length < 256) →
      ∃ buf, copyParam p = some buf := by
    intro p hp
    cases p with
    | none => exact ⟨_, rfl⟩
    | some q => exact strcpy256_of_lt _ (hp q rfl)
  obtain ⟨param1, hparam1⟩ := hcopy p1 h1
  obtain ⟨param2, hparam2⟩ := hcopy p2 h2
  refine ⟨{ Intent.zero with type := type, param1 := param1, param2 := param2, intParam1 := ip1 }, 1,
    rfl, htype, ?_⟩
  rw [fsIntentBuild, hparam1, hparam2]
  rfl

theorem IntentCall.build_finished (d : Dispatcher) (time : RtcTime) (call : IntentCall)
    (hshort : ∀ str ∈ call.strings, str.length < 256) : Finished d time (call.build d time) := by
  have hnone : ∀ p ∈ (none : Option (List UInt8)), p.length < 256 := by simp
  cases call with
  | createWindow parentId title =>
    obtain ⟨param1, hparam1⟩ := strcpy256_of_lt Intent.zero.param1
      (hshort title mem_cons_self)
    refine ⟨{ Intent.zero with
      type := 100, targetId := parentId, param1 := param1, intParam1 := 100, intParam2 := 100 }, 1,
      rfl, (by decide : 0 < (100 : BitVec 32).toNat), ?_⟩
    rw [IntentCall.build, intentCreateWindow, hparam1]
    rfl
  | moveWindow windowId x y =>
    exact ⟨_, _, rfl, (by decide : 0 < (102 : BitVec 32).toNat), rfl⟩
  | clickNode nodeId => exact ⟨_, _, rfl, (by decide : 0 < (300 : BitVec 32).toNat), rfl⟩
  | setNodeText nodeId text =>
    obtain ⟨param1, hparam1⟩ := strcpy256_of_lt Intent.zero.param1
      (hshort text mem_cons_self)
    refine ⟨{ Intent.zero with type := 204, targetId := nodeId, param1 := param1 }, 1, rfl,
      (by decide : 0 < (204 : BitVec 32).toNat), ?_⟩
    rw [IntentCall.build, intentSetNodeText, hparam1]
    rfl
  | fsCreateDir str | fsRemoveDir str | fsChdir str | fsSearch str =>
    exact fsIntentBuild_finished d time 0 (by decide)
      (by rintro p ⟨⟩; exact hshort _ mem_cons_self) hnone
  | fsCopyFile src dst | fsMoveFile src dst =>
    exact fsIntentBuild_finished d time 0 (by decide)
      (by rintro p ⟨⟩; exact hshort _ mem_cons_self)
      (by rintro p ⟨⟩; exact hshort _ (mem_cons_of_mem _ mem_cons_self))
  | fsChdirParent | fsChdirHome | fsPrintCwd =>
    exact fsIntentBuild_finished d time _ (by decide) hnone hnone

/-- No intent that a builder returns is accepted, neither as it is nor after its process
    number has been set. -/
theorem built_intent_rejected (d d' : Dispatcher) (time : RtcTime) (call : IntentCall)
    (hshort : ∀ str ∈ call.strings, str.length < 256) :
    ∃ it d₁, call.build d time = some (it, d₁) ∧ validateIntent d' it = false ∧
      ∀ pid, validateIntent d' { it with sourceProcessId := pid } = false := by
  obtain ⟨it, priority, hzero, htype, hbuild⟩ := call.build_finished d time hshort
  have hall := finishIntent_rejected hzero htype d d' time priority
  exact ⟨_, _, hbuild, hall 0, hall⟩

theorem built_intent_rejected_chdir :
    (∀ str ∈ (IntentCall.fsChdir [47]).strings, str.length < 256) ∧
    ∃ it d₁, (IntentCall.fsChdir [47]).build ⟨1, fun _ => true⟩ ⟨0, 0, 0⟩ = some (it, d₁) ∧
      validateIntent ⟨2, fun _ => true⟩ it = false ∧
      ∀ pid, validateIntent ⟨2, fun _ => true⟩ { it with sourceProcessId := pid } = false :=
  ⟨by decide, built_intent_rejected ⟨1, fun _ => true⟩ ⟨2, fun _ => true⟩ ⟨0, 0, 0⟩
    (.fsChdir [47]) (by decide)⟩

/-- `intent_fs_print_cwd` with the first sequence number, at midnight. -/
theorem print_cwd_rejected : ∃ it d₁,
    (IntentCall.fsPrintCwd).build ⟨1, fun _ => true⟩ ⟨0, 0, 0⟩ = some (it, d₁) ∧
      validateIntent d₁ it = false := by
  obtain ⟨it, priority, hzero, htype, hbuild⟩ :=
    IntentCall.fsPrintCwd.build_finished ⟨1, fun _ => true⟩ ⟨0, 0, 0⟩ (by decide)
  exact ⟨_, _, hbuild, finishIntent_rejected hzero htype _ _ _ priority 0⟩

end OpenSys
