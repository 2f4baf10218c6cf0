-- SUMMARY: The resource namespace of ns.c: grammar, aliases, classification and translation.
import OpenSys.Lib.Text
import OpenSys.Fs.Model
import Mathlib.Data.FinEnum
import Mathlib.Data.List.DropRight

/-!
# The resource namespace

A path starts with the digit of its resource domain. `ns_parse_valid` scans it once with
counters for the depth and for the current component; `ns_canonical` then replaces a short
alias at the front, and `ns_resolve` walks the components of the result. The scanner accepts
exactly the paths of the grammar in docs/NAMESPACE.md.
-/

namespace OpenSys

open List Text

/-- `NS_MAX_PATH` -/
def nsMaxPath : Nat := 256
/-- `NS_MAX_DEPTH` -/
def nsMaxDepth : Nat := 16

/-- `'.'` -/
def dot : UInt8 := 46

/-! ## Normalisation and grammar -/

/-- A capital letter in lower case. -/
def lowerByte (c : UInt8) : UInt8 :=
  if 'A'.toUInt8 ≤ c ∧ c ≤ 'Z'.toUInt8 then c - 'A'.toUInt8 + 'a'.toUInt8 else c

/-- The text without its trailing slashes. -/
def stripSlashes (s : List UInt8) : List UInt8 := s.rdropWhile (· == slash)

/-- `ns_normalize`: the lower case copy without trailing slashes, or -1 when the text does not
fit the buffer. -/
def nsNormalize (path : List UInt8) : Option (List UInt8) :=
  if nsMaxPath ≤ path.length then none else some (stripSlashes (path.map lowerByte))

/-- An ASCII digit. -/
def nsDigit (c : UInt8) : Bool := decide ('0'.toUInt8 ≤ c) && decide (c ≤ '9'.toUInt8)

/-- `valid_char` -/
def validChar (c : UInt8) : Bool :=
  (decide ('a'.toUInt8 ≤ c) && decide (c ≤ 'z'.toUInt8)) || nsDigit c ||
    c == '-'.toUInt8 || c == '_'.toUInt8 || c == dot

/-- What the scanner does at a slash and at the end of the text: the new depth, or rejection of
an empty component, one of dots only, or one too many. -/
def endComponent (depth compLen : Nat) (nondot : Bool) : Option Nat :=
  if compLen = 0 then none
  else if !nondot then none
  else if nsMaxDepth < depth + 1 then none
  else some (depth + 1)

/-- The loop of `ns_parse_valid`, over what is left of the text. -/
def scanComponents : List UInt8 → (depth compLen : Nat) → (nondot : Bool) → Bool
  | [], depth, compLen, nondot => (endComponent depth compLen nondot).isSome
  | c :: rest, depth, compLen, nondot =>
    if c = slash then
      match endComponent depth compLen nondot with
      | none => false
      | some depth => scanComponents rest depth 0 false
    else if validChar c then scanComponents rest depth (compLen + 1) (nondot || c != dot)
    else false

/-- The checks of `ns_parse_valid` on a normalised text. -/
def scanPath : List UInt8 → Bool
  | [] => false
  | [d] => nsDigit d
  | d :: c :: rest => nsDigit d && c == slash && scanComponents rest 0 0 false

/-- `ns_parse_valid` -/
def nsParseValid (path : List UInt8) : Bool :=
  match nsNormalize path with
  | none => false
  | some norm => scanPath norm

/-! ## Alias expansion -/

/-- `ns_alias_t` -/
structure NsAlias where
  shortPath : List UInt8
  canonical : List UInt8
  deriving DecidableEq

/-- `ns_aliases` -/
def nsAliases : List NsAlias :=
  [ ⟨cstr "0/hmr", cstr "0/hardware/memory/ram"⟩, ⟨cstr "0/hsh", cstr "0/hardware/storage/hdd"⟩,
    ⟨cstr "0/hss", cstr "0/hardware/storage/ssd"⟩ ]

/-- The alias stands at the front of the path and ends at a component boundary. -/
def NsAlias.covers (a : NsAlias) (work : List UInt8) : Bool :=
  a.shortPath.isPrefixOf work &&
    match work.drop a.shortPath.length with
    | [] => true
    | next :: _ => next == slash

/-- One pass over the alias table: the path and whether it was replaced, or nothing when the
expanded path does not fit. -/
def nsExpandOnce (work : List UInt8) : List NsAlias → Option (List UInt8 × Bool)
  | [] => some (work, false)
  | a :: rest =>
    if a.covers work then
      let tail := work.drop a.shortPath.length
      if nsMaxPath ≤ a.canonical.length + tail.length then none
      else some (a.canonical ++ tail, true)
    else nsExpandOnce work rest

/-- The passes of `ns_canonical`. -/
def nsExpand : (passes : Nat) → List UInt8 → Option (List UInt8)
  | 0, work => some work
  | passes + 1, work =>
    match nsExpandOnce work nsAliases with
    | none => none
    | some (work, true) => nsExpand passes work
    | some (work, false) => some work

/-- `ns_canonical`: the canonical spelling, or -1. -/
def nsCanonical (path : List UInt8) (max : Nat) : Option (List UInt8) :=
  match nsNormalize path with
  | none => none
  | some work =>
    if nsParseValid work then
      match nsExpand 8 work with
      | none => none
      | some work => if max ≤ work.length then none else some work
    else none

/-! ## Classification -/

/-- `ns_kind_t`, without `NS_RESOURCE_NONE`, which nothing here uses. -/
inductive NsKind where
  | root | storageDevice | partition | partitionsDir | memoryRam | cpu | hwinfo | hardwareDir
  | systemDir | systemNode | devDir | devShim | userStore | unresolved
  deriving DecidableEq, Repr

/-- `ns_resource_t` -/
structure NsResource where
  kind : NsKind
  domain : Int
  partIndex : Int
  device : Option (List UInt8)
  canonical : List UInt8
  deriving DecidableEq

/-- What the resolver asks the drivers for: the class of the storage device
(`part_storage_device`), the start of each partition that `part_list_partitions` lists (none
when the layer is not ready) and `volume_base_lba`. -/
structure NsEnv where
  owner : Option (List UInt8)
  partStarts : List Nat
  volumeBase : Nat

/-- `ns_split`: at most `max` components. -/
def nsSplit : (max : Nat) → List UInt8 → List (List UInt8)
  | 0, _ => []
  | _ + 1, [] => []
  | max + 1, c :: s =>
    (c :: s).takeWhile (· != slash) :: nsSplit max ((c :: s).dropWhile (· != slash)).tail

/-- The digits of `parse_index`, with its guard against absurd numbers. -/
def parseDigits : List UInt8 → Nat → Option Nat
  | [], v => some v
  | c :: s, v =>
    if nsDigit c then
      let v := v * 10 + (c.toNat - '0'.toNat)
      if 1000000 < v then none else parseDigits s v
    else none

/-- `parse_index` -/
def parseIndex (s : List UInt8) : Option Nat :=
  if s = [] then none
  else match parseDigits s 0 with
    | none => none
    | some v => if v < 1 then none else some v

/-- What `ns_resolve` sets in the resource besides domain and canonical path. -/
structure NsClass where
  kind : NsKind
  partIndex : Int
  device : Option (List UInt8)

/-- A resource that is neither a partition nor a storage node. -/
def NsClass.plain (kind : NsKind) : NsClass := ⟨kind, -1, none⟩

/-- The storage class of a component, when the machine's storage device is of that class. -/
def storageClass (env : NsEnv) (comp : List UInt8) : Option (List UInt8) :=
  if comp = cstr "hdd" ∨ comp = cstr "ssd" then
    if env.owner = some comp then some comp else none
  else none

/-- The walk below a storage device, over the components behind it. -/
def classifyDevice (dev : List UInt8) : List (List UInt8) → NsClass
  | [] => ⟨.storageDevice, -1, some dev⟩
  | comp :: rest =>
    if comp = cstr "partitions" then
      match rest with
      | [] => ⟨.partitionsDir, -1, some dev⟩
      | index :: _ =>
        match parseIndex index with
        | none => .plain .unresolved
        | some idx => ⟨.partition, idx, some dev⟩
    else .plain .unresolved

/-- The walk below `hardware`. -/
def classifyHardware (env : NsEnv) : List (List UInt8) → NsClass
  | [] => .plain .hardwareDir
  | comp :: rest =>
    if comp = cstr "memory" then
      match rest with
      | [] => .plain .hardwareDir
      | [leaf] =>
        if leaf = cstr "ram" then .plain .memoryRam
        else if leaf = cstr "info" then .plain .hwinfo
        else .plain .unresolved
      | _ => .plain .unresolved
    else if comp = cstr "storage" then
      match rest with
      | [] => .plain .hardwareDir
      | cls :: rest =>
        match storageClass env cls with
        | none => .plain .unresolved
        | some dev => classifyDevice dev rest
    else if comp = cstr "cpu" then
      match rest with
      | [] => .plain .cpu
      | [leaf] => if leaf = cstr "id" then .plain .hwinfo else .plain .unresolved
      | _ => .plain .unresolved
    else if rest = [] ∧ (comp = cstr "platform" ∨ comp = cstr "pci") then .plain .hwinfo
    else .plain .unresolved

/-- The walk of `ns_resolve` over the components behind the domain. -/
def classify (env : NsEnv) : List (List UInt8) → NsClass
  | [] => .plain .root
  | comp :: rest =>
    if comp = cstr "hardware" then classifyHardware env rest
    else if comp = cstr "system" then .plain (if rest = [] then .systemDir else .systemNode)
    else if comp = cstr "dev" then .plain (if rest = [] then .devDir else .devShim)
    else if comp = cstr "user" then .plain .userStore
    else .plain .unresolved

/-- The resource that `ns_resolve` fills in for a canonical path. -/
def resourceAt (env : NsEnv) (canon : List UInt8) : NsResource :=
  let comps := nsSplit nsMaxDepth canon
  let c := classify env comps.tail
  ⟨c.kind, ((comps.headD []).headD 0).toNat - '0'.toNat, c.partIndex, c.device, canon⟩

/-- `ns_resolve`: 0 or -2 with the resource, and -1 with nothing written. -/
def nsResolve (env : NsEnv) (path : List UInt8) : Int × Option NsResource :=
  match nsCanonical path nsMaxPath with
  | none => (-1, none)
  | some canon =>
    let r := resourceAt env canon
    (if r.kind = .unresolved then -2 else 0, some r)

/-! ## Translation of shell arguments -/

/-- `skip_components` -/
def skipComponents : (n : Nat) → List UInt8 → List UInt8
  | 0, s => s
  | n + 1, s => skipComponents n (s.dropWhile (· != slash)).tail

/-- The result of `ns_to_fs_path`. -/
inductive NsFs where
  /-- `NS_FS_OK` with the file system path. -/
  | ok (out : List UInt8)
  /-- `NS_FS_NOT_NS` -/
  | notNs
  /-- `NS_FS_EPARSE` -/
  | eParse
  /-- `NS_FS_EUNKNOWN` -/
  | eUnknown
  /-- `NS_FS_EVOLUME` -/
  | eVolume
  /-- `NS_FS_EKIND` -/
  | eKind
  deriving DecidableEq

/-- The text starts with a digit and a slash. -/
def nsShaped : List UInt8 → Bool
  | d :: c :: _ => nsDigit d && c == slash
  | _ => false

/-- The partition is the one the mounted volume lies on. -/
def mountedPartition (env : NsEnv) (idx : Int) : Bool :=
  decide (idx ≤ env.partStarts.length) &&
    env.partStarts[(idx - 1).toNat]? == some env.volumeBase && env.volumeBase != 0

/-- What `ns_to_fs_path` puts behind the leading slash. -/
def nsTail (env : NsEnv) (r : NsResource) : Except NsFs (List UInt8) :=
  match r.kind with
  | .partition =>
    if mountedPartition env r.partIndex then .ok (skipComponents 6 r.canonical) else .error .eVolume
  | .userStore => .ok (skipComponents 2 r.canonical)
  | .systemNode | .devShim | .hwinfo | .memoryRam | .cpu => .ok r.canonical
  | _ => .error .eKind

/-- `ns_to_fs_path`. `max` is the capacity as the `int` that it is compared as. -/
def nsToFsPath (env : NsEnv) (input : List UInt8) (max : Int) : NsFs :=
  if max = 0 then .eParse
  else if !nsShaped input then .notNs
  else match nsResolve env input with
    | (-1, _) | (_, none) => .eParse
    | (-2, _) => .eUnknown
    | (_, some r) =>
      match nsTail env r with
      | .error e => e
      | .ok tail => if max < tail.length + 2 then .eParse else .ok (slash :: tail)

/-! ## The grammar -/

/-- The bytes that components are made of. -/
def componentBytes : List UInt8 := cstr "abcdefghijklmnopqrstuvwxyz0123456789-_."

/-- A component: bytes of the alphabet, at least one of them not a dot. -/
structure IsComponent (c : List UInt8) : Prop where
  alphabet : ∀ b ∈ c, b ∈ componentBytes
  notDots : ∃ b ∈ c, b ≠ dot

/-- A path of the grammar: a digit and at most sixteen components, each introduced by one
slash. -/
def IsNsPath (s : List UInt8) : Prop :=
  ∃ d ∈ cstr "0123456789", ∃ comps : List (List UInt8), comps.length ≤ 16 ∧
    (∀ c ∈ comps, IsComponent c) ∧ s = d :: Text.fielded slash comps

theorem mem_componentBytes (b : UInt8) : b ∈ componentBytes ↔ validChar b = true := by
  revert b
  decide +kernel

theorem mem_digits (b : UInt8) : b ∈ cstr "0123456789" ↔ nsDigit b = true := by
  revert b
  decide +kernel

theorem validChar_slash : validChar slash = false := by decide

theorem IsComponent.slash_notMem {c : List UInt8} (h : IsComponent c) : slash ∉ c := fun hmem => by
  have := (mem_componentBytes slash).mp (h.alphabet slash hmem)
  rw [validChar_slash] at this
  cases this

theorem isComponent_iff {c : List UInt8} :
    IsComponent c ↔ (∀ b ∈ c, validChar b = true) ∧ c.any (· != dot) = true := by
  refine ⟨fun h => ⟨fun b hb => (mem_componentBytes b).mp (h.alphabet b hb), ?_⟩,
    fun h => ⟨fun b hb => (mem_componentBytes b).mpr (h.1 b hb), ?_⟩⟩
  · obtain ⟨b, hb, hne⟩ := h.notDots
    exact any_eq_true.mpr ⟨b, hb, bne_iff_ne.mpr hne⟩
  · obtain ⟨b, hb, hne⟩ := any_eq_true.mp h.2
    exact ⟨b, hb, bne_iff_ne.mp hne⟩

section Scanner

variable {s pre : List UInt8} {d l : Nat} {nd : Bool}

theorem endComponent_eq_some {depth : Nat} : endComponent d l nd = some depth ↔
    l ≠ 0 ∧ nd = true ∧ d + 1 ≤ nsMaxDepth ∧ depth = d + 1 := by
  unfold endComponent
  by_cases hl : l = 0
  · simp [hl]
  cases nd with
  | false => simp
  | true =>
    by_cases hd : nsMaxDepth < d + 1
    · rw [if_neg hl, if_neg (by simp), if_pos hd]
      exact ⟨fun h => absurd h (by simp), fun h => absurd h.2.2.1 (by omega)⟩
    · rw [if_neg hl, if_neg (by simp), if_neg hd, Option.some.injEq]
      exact ⟨fun h => ⟨hl, rfl, by omega, h.symm⟩, fun h => h.2.2.2.symm⟩

/-- The component read so far ends here. -/
theorem endComponent_read (hpre : ∀ b ∈ pre, validChar b = true) {depth : Nat} :
    endComponent d pre.length (pre.any (· != dot)) = some depth ↔
      IsComponent pre ∧ d + 1 ≤ nsMaxDepth ∧ depth = d + 1 := by
  rw [endComponent_eq_some, isComponent_iff]
  refine ⟨fun h => ⟨⟨hpre, h.2.1⟩, h.2.2⟩, fun h => ⟨?_, h.1.2, h.2⟩⟩
  intro hnil
  rw [length_eq_zero_iff.mp hnil] at h
  exact absurd h.1.2 (by simp)

theorem slash_notMem_of_valid (hpre : ∀ b ∈ pre, validChar b = true) : slash ∉ pre := fun hmem => by
  have := hpre slash hmem
  rw [validChar_slash] at this
  cases this

/-- The scanner, with the bytes `pre` of the current component read, accepts the rest when the
whole splits into components within the depth limit. -/
theorem scanComponents_iff (hpre : ∀ b ∈ pre, validChar b = true) :
    scanComponents s d pre.length (pre.any (· != dot)) = true ↔
      ∃ c comps, (∀ x ∈ c :: comps, IsComponent x) ∧ d + (c :: comps).length ≤ nsMaxDepth ∧
        pre ++ s = c ++ Text.fielded slash comps := by
  induction s generalizing pre d with
  | nil =>
    have hslash := slash_notMem_of_valid hpre
    rw [scanComponents, Option.isSome_iff_exists]
    constructor
    · rintro ⟨depth, h⟩
      obtain ⟨hc, hd, -⟩ := (endComponent_read hpre).mp h
      exact ⟨pre, [], by simpa using hc, hd, rfl⟩
    rintro ⟨c, comps, hcs, hd, heq⟩
    have hc := hcs c mem_cons_self
    obtain ⟨rfl, hnil⟩ := append_sep_inj hslash hc.slash_notMem (.inl rfl)
      fielded_starts heq
    exact ⟨d + 1, (endComponent_read hpre).mpr ⟨hc, by simp at hd; omega, rfl⟩⟩
  | cons b s ih =>
    have hslash := slash_notMem_of_valid hpre
    by_cases hb : b = slash
    · subst hb
      rw [scanComponents, if_pos rfl]
      constructor
      · intro h
        cases hend : endComponent d pre.length (pre.any (· != dot)) with
        | none => rw [hend] at h; cases h
        | some depth =>
          rw [hend] at h
          obtain ⟨hc, hd, rfl⟩ := (endComponent_read hpre).mp hend
          obtain ⟨c, comps, hcs, hlen, heq⟩ := (@ih [] (d + 1) (by simp)).mp h
          refine ⟨pre, c :: comps, ?_, by simp at hlen ⊢; omega, ?_⟩
          · exact forall_mem_cons.mpr ⟨hc, hcs⟩
          · rw [fielded_cons, cons_append, ← heq, nil_append]
      · rintro ⟨c, comps, hcs, hlen, heq⟩
        have hc := hcs c mem_cons_self
        obtain ⟨rfl, hrest⟩ := append_sep_inj hslash hc.slash_notMem (.inr rfl)
          fielded_starts heq
        cases comps with
        | nil => cases hrest
        | cons c' comps =>
          rw [fielded_cons, cons_append] at hrest
          have hend := (@endComponent_read pre d hpre (d + 1)).mpr
            ⟨hc, by simp at hlen; omega, rfl⟩
          rw [hend]
          exact (@ih [] (d + 1) (by simp)).mpr ⟨c', comps,
            fun x hx => hcs x (mem_cons_of_mem _ hx), by simp at hlen ⊢; omega,
            (List.cons.inj hrest).2⟩
    · rw [scanComponents, if_neg hb]
      by_cases hv : validChar b = true
      · have hnext : ∀ x ∈ pre ++ [b], validChar x = true := by
          intro x hx
          rcases mem_append.mp hx with hx | hx
          · exact hpre x hx
          · rw [mem_singleton.mp hx]
            exact hv
        have := @ih (pre ++ [b]) d hnext
        rw [length_append, any_append, append_assoc] at this
        rw [if_pos hv]
        simpa using this
      · rw [if_neg hv]
        refine ⟨fun h => absurd h (by simp), ?_⟩
        rintro ⟨c, comps, hcs, -, heq⟩
        -- the byte would be one of a component or a slash
        have hmem : b ∈ c ++ fielded slash comps := heq ▸ by simp
        rcases mem_append.mp hmem with hmem | hmem
        · exact absurd ((mem_componentBytes b).mp ((hcs c mem_cons_self).alphabet b hmem)) hv
        rcases mem_fielded hmem with rfl | ⟨f, hf, hmem⟩
        · exact absurd rfl hb
        · exact absurd ((mem_componentBytes b).mp
            ((hcs f (mem_cons_of_mem _ hf)).alphabet b hmem)) hv

/-- A normalised text passes the checks when it is a path of the grammar. -/
theorem scanPath_iff : scanPath s = true ↔ IsNsPath s := by
  constructor
  · intro h
    match s, h with
    | [d], h => exact ⟨d, (mem_digits d).mpr h, [], by simp, by simp, rfl⟩
    | d :: c :: rest, h =>
      simp only [scanPath, Bool.and_eq_true, beq_iff_eq] at h
      obtain ⟨⟨hd, rfl⟩, hscan⟩ := h
      obtain ⟨c, comps, hcs, hlen, heq⟩ := (@scanComponents_iff rest [] 0 (by simp)).mp hscan
      refine ⟨d, (mem_digits d).mpr hd, c :: comps, by simpa [nsMaxDepth] using hlen, hcs, ?_⟩
      rw [fielded_cons, cons_append, ← heq, nil_append]
  · rintro ⟨d, hd, comps, hlen, hcs, rfl⟩
    have hd := (mem_digits d).mp hd
    cases comps with
    | nil => exact hd
    | cons c comps =>
      have hscan := (@scanComponents_iff (c ++ fielded slash comps) [] 0 (by simp)).mpr
        ⟨c, comps, hcs, by simpa [nsMaxDepth] using hlen, rfl⟩
      rw [fielded_cons, cons_append]
      simp only [scanPath, Bool.and_eq_true, beq_self_eq_true]
      exact ⟨⟨hd, trivial⟩, hscan⟩

end Scanner

/-- `ns_parse_valid` accepts exactly the texts of at most 255 bytes that are, in lower case and
without their trailing slashes, paths of the grammar. -/
theorem nsParseValid_iff (path : List UInt8) : nsParseValid path = true ↔
    path.length ≤ 255 ∧ IsNsPath (stripSlashes (path.map lowerByte)) := by
  unfold nsParseValid nsNormalize
  by_cases hlen : nsMaxPath ≤ path.length
  · rw [if_pos hlen]
    refine ⟨fun h => absurd h (by simp), fun h => absurd h.1 ?_⟩
    rw [nsMaxPath] at hlen
    omega
  · rw [if_neg hlen]
    rw [nsMaxPath] at hlen
    change scanPath _ = true ↔ _
    rw [scanPath_iff]
    exact ⟨fun h => ⟨by omega, h⟩, fun h => h.2⟩

end OpenSys
