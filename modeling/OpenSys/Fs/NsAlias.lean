-- SUMMARY: When an alias of the namespace and its full spelling name one resource.
import OpenSys.Fs.Ns

/-!
# Aliases

`ns_canonical` checks the depth before it expands an alias, and the expansion puts three
components in the place of one. A path of fifteen or sixteen components that starts with an
alias is therefore accepted, while its canonical spelling is not. All other paths have the same
meaning in both spellings.
-/

namespace OpenSys

open List Option

/-! ## Normalised texts -/

/-- The text that a path is normalised to. -/
def nsNormal (path : List UInt8) : List UInt8 := stripSlashes (path.map lowerByte)

/-- How many components a path has behind its domain: its slashes, trailing ones apart. -/
def nsDepth (path : List UInt8) : Nat := (nsNormal path).count slash

theorem lowerByte_lowerByte (c : UInt8) : lowerByte (lowerByte c) = lowerByte c := by
  revert c
  decide +kernel

theorem length_stripSlashes_le (s : List UInt8) : (stripSlashes s).length ≤ s.length :=
  (List.rdropWhile_prefix _ _).length_le

theorem length_nsNormal_le (path : List UInt8) : (nsNormal path).length ≤ path.length := by
  refine (length_stripSlashes_le _).trans ?_
  rw [length_map]

theorem stripSlashes_append {x : List UInt8} (hx : stripSlashes x = x) (s : List UInt8) :
    stripSlashes (x ++ s) = x ++ stripSlashes s := by
  unfold stripSlashes List.rdropWhile at *
  rw [reverse_append, dropWhile_append]
  cases hs : s.reverse.dropWhile (· == slash) with
  | nil => simp [hx]
  | cons c rest => simp

theorem nsNormal_append {x : List UInt8} (hx : nsNormal x = x) (hlower : x.map lowerByte = x)
    (s : List UInt8) : nsNormal (x ++ s) = x ++ nsNormal s := by
  have hstrip : stripSlashes x = x := by rw [nsNormal, hlower] at hx; exact hx
  rw [nsNormal, map_append, hlower, stripSlashes_append hstrip, nsNormal]

theorem map_lowerByte_nsNormal (path : List UInt8) :
    (nsNormal path).map lowerByte = nsNormal path := by
  have hfix : ∀ c ∈ path.map lowerByte, lowerByte c = c := by
    intro c hc
    obtain ⟨b, -, rfl⟩ := mem_map.mp hc
    exact lowerByte_lowerByte b
  have hsub : ∀ c ∈ nsNormal path, lowerByte c = c := fun c hc =>
    hfix c ((List.rdropWhile_prefix _ _).subset hc)
  conv_rhs => rw [← map_id (nsNormal path)]
  exact map_congr_left hsub

theorem nsNormal_nsNormal (path : List UInt8) : nsNormal (nsNormal path) = nsNormal path := by
  rw [nsNormal, map_lowerByte_nsNormal]
  exact rdropWhile_idempotent _ _

variable {path w s c : List UInt8} {a : NsAlias}

theorem nsNormalize_eq (h : path.length < nsMaxPath) : nsNormalize path = some (nsNormal path) := by
  rw [nsNormalize, if_neg (by omega), nsNormal]

theorem nsParseValid_eq (h : path.length < nsMaxPath) :
    nsParseValid path = scanPath (nsNormal path) := by
  rw [nsParseValid, nsNormalize_eq h]

/-! ## Expansion -/

theorem nsExpandOnce_eq (w : List UInt8) (l : List NsAlias) :
    nsExpandOnce w l = match l.find? (·.covers w) with
      | none => some (w, false)
      | some a =>
        if nsMaxPath ≤ a.canonical.length + (w.drop a.shortPath.length).length then none
        else some (a.canonical ++ w.drop a.shortPath.length, true) := by
  induction l with
  | nil => rfl
  | cons a l ih =>
    rw [nsExpandOnce, find?_cons]
    cases hcov : a.covers w with
    | true => rfl
    | false => simpa using ih

/-- The alias that a path starts with. -/
def aliasOf (w : List UInt8) : Option NsAlias := nsAliases.find? (·.covers w)

/-- The text with the alias at its front replaced. -/
def expanded (w : List UInt8) : List UInt8 :=
  match aliasOf w with
  | none => w
  | some a => a.canonical ++ w.drop a.shortPath.length

theorem covers_iff : a.covers w = true ↔
    ∃ t, w = a.shortPath ++ t ∧ (t = [] ∨ t.head? = some slash) := by
  unfold NsAlias.covers
  rw [Bool.and_eq_true, isPrefixOf_iff_prefix]
  constructor
  · rintro ⟨⟨t, rfl⟩, hnext⟩
    rw [drop_left] at hnext
    refine ⟨t, rfl, ?_⟩
    cases t with
    | nil => exact .inl rfl
    | cons c t => exact .inr (by simpa using hnext)
  · rintro ⟨t, rfl, ht⟩
    refine ⟨prefix_append _ _, ?_⟩
    rw [drop_left]
    cases t with
    | nil => rfl
    | cons c t => simpa using ht

theorem covers_of_aliasOf (h : aliasOf w = some a) : a.covers w = true :=
  find?_some (p := fun x : NsAlias => x.covers w) h

section Alias

variable {a : NsAlias} (ha : a ∈ nsAliases) (t : List UInt8)

include ha

/-- No alias stands at the front of a full spelling. -/
theorem aliasOf_canonical : aliasOf (a.canonical ++ t) = none := by
  refine find?_eq_none.mpr fun b hb hcov => ?_
  have hpre : b.shortPath <+: a.canonical ++ t := by
    obtain ⟨r, hr, -⟩ := covers_iff.mp hcov
    exact ⟨r, hr.symm⟩
  have hlen : ∀ a ∈ nsAliases, ∀ b ∈ nsAliases, b.shortPath.length ≤ a.canonical.length := by decide
  have hnot : ∀ a ∈ nsAliases, ∀ b ∈ nsAliases, ¬ b.shortPath <+: a.canonical := by decide
  exact hnot a ha b hb (prefix_of_prefix_length_le hpre (prefix_append _ _) (hlen a ha b hb))

theorem aliasOf_shortPath (ht : t = [] ∨ t.head? = some slash) :
    aliasOf (a.shortPath ++ t) = some a := by
  have hcov : a.covers (a.shortPath ++ t) = true := covers_iff.mpr ⟨t, rfl, ht⟩
  -- the short spellings differ and have one length, so no other entry of the table covers
  have hlen : ∀ a ∈ nsAliases, a.shortPath.length = 5 := by decide
  have hinj : ∀ a ∈ nsAliases, ∀ b ∈ nsAliases, a.shortPath = b.shortPath → a = b := by decide
  obtain ⟨b, hfind⟩ := isSome_iff_exists.mp
    (find?_isSome.mpr ⟨a, ha, hcov⟩ : (aliasOf (a.shortPath ++ t)).isSome)
  have hb := mem_of_find?_eq_some hfind
  obtain ⟨r, hr, -⟩ := covers_iff.mp (covers_of_aliasOf hfind)
  have hsame := (append_inj hr (by rw [hlen a ha, hlen b hb])).1
  rw [hinj a ha b hb hsame]
  rw [hinj a ha b hb hsame] at hfind
  exact hfind

theorem expanded_shortPath (ht : t = [] ∨ t.head? = some slash) :
    expanded (a.shortPath ++ t) = a.canonical ++ t := by
  rw [expanded, aliasOf_shortPath ha t ht]
  exact congrArg _ (drop_left)

theorem expanded_canonical : expanded (a.canonical ++ t) = a.canonical ++ t := by
  rw [expanded, aliasOf_canonical ha]

theorem nsNormal_shortPath (s : List UInt8) :
    nsNormal (a.shortPath ++ s) = a.shortPath ++ nsNormal s := by
  have h : ∀ a ∈ nsAliases, nsNormal a.shortPath = a.shortPath ∧
      a.shortPath.map lowerByte = a.shortPath := by decide
  exact nsNormal_append (h a ha).1 (h a ha).2 s

theorem nsNormal_canonical (s : List UInt8) :
    nsNormal (a.canonical ++ s) = a.canonical ++ nsNormal s := by
  have h : ∀ a ∈ nsAliases, nsNormal a.canonical = a.canonical ∧
      a.canonical.map lowerByte = a.canonical := by decide
  exact nsNormal_append (h a ha).1 (h a ha).2 s

/-- The scanner enters what follows an alias at depth 0, and what follows its full spelling at
depth 2. -/
theorem scanPath_shortPath : scanPath (a.shortPath ++ t) = scanComponents t 0 3 true := by
  simp only [nsAliases, mem_cons, not_mem_nil, or_false] at ha
  rcases ha with rfl | rfl | rfl <;> rfl

theorem scanPath_canonical : scanPath (a.canonical ++ t) = scanComponents t 2 3 true := by
  simp only [nsAliases, mem_cons, not_mem_nil, or_false] at ha
  rcases ha with rfl | rfl | rfl <;> rfl

theorem count_shortPath : (a.shortPath ++ t).count slash = t.count slash + 1 := by
  have h : ∀ a ∈ nsAliases, a.shortPath.count slash = 1 := by decide
  rw [count_append, h a ha]
  omega

end Alias

theorem scanComponents_slash {d l : Nat} {nd : Bool} : scanComponents (slash :: s) d l nd = true ↔
      (l ≠ 0 ∧ nd = true ∧ d + 1 ≤ nsMaxDepth) ∧ scanComponents s (d + 1) 0 false = true := by
  rw [scanComponents, if_pos rfl]
  cases hend : endComponent d l nd with
  | none =>
    refine ⟨fun h => absurd h (by simp), fun h => ?_⟩
    rw [endComponent_eq_some.mpr ⟨h.1.1, h.1.2.1, h.1.2.2, rfl⟩] at hend
    cases hend
  | some depth =>
    obtain ⟨hl, hnd, hd, rfl⟩ := endComponent_eq_some.mp hend
    exact ⟨fun h => ⟨⟨hl, hnd, hd⟩, h⟩, fun h => h.2⟩

/-- A deeper start leaves less room for components, and changes nothing else. -/
theorem scanComponents_deeper {d e l : Nat} {nd : Bool} (hde : d ≤ e) :
    scanComponents s e l nd = true ↔
      scanComponents s d l nd = true ∧ e + s.count slash + 1 ≤ nsMaxDepth := by
  induction s generalizing d e l nd with
  | nil =>
    rw [scanComponents, scanComponents, isSome_iff_exists, isSome_iff_exists]
    constructor
    · rintro ⟨x, hx⟩
      obtain ⟨hl, hnd, he, -⟩ := endComponent_eq_some.mp hx
      exact ⟨⟨d + 1, endComponent_eq_some.mpr ⟨hl, hnd, by omega, rfl⟩⟩, by simpa using he⟩
    · rintro ⟨⟨x, hx⟩, he⟩
      obtain ⟨hl, hnd, -, -⟩ := endComponent_eq_some.mp hx
      exact ⟨e + 1, endComponent_eq_some.mpr ⟨hl, hnd, by simpa using he, rfl⟩⟩
  | cons c s ih =>
    by_cases hc : c = slash
    · subst hc
      rw [scanComponents_slash, scanComponents_slash, count_cons_self,
        ih (Nat.add_le_add_right hde 1)]
      constructor
      · rintro ⟨⟨hl, hnd, -⟩, hs, he⟩
        exact ⟨⟨⟨hl, hnd, by omega⟩, hs⟩, by omega⟩
      · rintro ⟨⟨⟨hl, hnd, -⟩, hs⟩, he⟩
        exact ⟨⟨hl, hnd, by omega⟩, hs, by omega⟩
    · rw [scanComponents, scanComponents, if_neg hc, if_neg hc, count_cons_of_ne (by simpa using hc)]
      by_cases hv : validChar c = true
      · rw [if_pos hv, if_pos hv]
        exact ih hde
      · rw [if_neg hv, if_neg hv]
        simp

/-- A full spelling is accepted when the alias is and two more components fit. -/
theorem scanPath_canonical_iff (ha : a ∈ nsAliases) (t : List UInt8) :
    scanPath (a.canonical ++ t) = true ↔
      scanPath (a.shortPath ++ t) = true ∧ (a.shortPath ++ t).count slash ≤ 14 := by
  rw [scanPath_canonical ha, scanPath_shortPath ha, count_shortPath ha,
    scanComponents_deeper (Nat.zero_le 2)]
  refine and_congr_right fun _ => ?_
  rw [nsMaxDepth]
  omega

/-- What the passes of `ns_canonical` come to. -/
theorem nsExpand_eq (hw : w.length < nsMaxPath) :
    nsExpand 8 w = if (expanded w).length < nsMaxPath then some (expanded w) else none := by
  rw [nsExpand, nsExpandOnce_eq]
  change (match (match aliasOf w with | none => _ | some a => _) with
    | none => none
    | some (work, true) => nsExpand 7 work
    | some (work, false) => some work) = _
  cases halias : aliasOf w with
  | none =>
    have hexp : expanded w = w := by rw [expanded, halias]
    rw [hexp, if_pos hw]
  | some a =>
    have ha := mem_of_find?_eq_some halias
    have hexp : expanded w = a.canonical ++ w.drop a.shortPath.length := by rw [expanded, halias]
    rw [hexp, length_append]
    dsimp only
    by_cases hfits : nsMaxPath ≤ a.canonical.length + (w.drop a.shortPath.length).length
    · rw [if_pos hfits, if_neg (by omega)]
    rw [if_neg hfits, if_pos (by omega)]
    dsimp only
    -- the second pass finds nothing to replace
    rw [nsExpand, nsExpandOnce_eq]
    have hnone := aliasOf_canonical ha (w.drop a.shortPath.length)
    rw [aliasOf] at hnone
    rw [hnone]

/-- `ns_canonical` as a function of the normalised text. -/
theorem nsCanonical_eq_some {max : Nat} : nsCanonical path max = some c ↔
    path.length < nsMaxPath ∧ scanPath (nsNormal path) = true ∧ c = expanded (nsNormal path) ∧
      c.length < nsMaxPath ∧ c.length < max := by
  unfold nsCanonical
  by_cases hlen : path.length < nsMaxPath
  · have hnorm := (length_nsNormal_le path).trans_lt hlen
    rw [nsNormalize_eq hlen]
    dsimp only
    rw [nsParseValid_eq hnorm, nsNormal_nsNormal, nsExpand_eq hnorm]
    by_cases hscan : scanPath (nsNormal path) = true
    · rw [if_pos hscan]
      by_cases hfits : (expanded (nsNormal path)).length < nsMaxPath
      · rw [if_pos hfits]
        dsimp only
        by_cases hmax : max ≤ (expanded (nsNormal path)).length
        · rw [if_pos hmax]
          refine ⟨fun h => absurd h (by simp), ?_⟩
          rintro ⟨-, -, rfl, -, h⟩
          omega
        · rw [if_neg hmax, some.injEq]
          constructor
          · rintro rfl
            exact ⟨hlen, hscan, rfl, hfits, by omega⟩
          · rintro ⟨-, -, rfl, -⟩
            rfl
      · rw [if_neg hfits]
        refine ⟨fun h => absurd h (by simp), ?_⟩
        rintro ⟨-, -, rfl, h, -⟩
        exact absurd h hfits
    · rw [if_neg hscan]
      exact ⟨fun h => absurd h (by simp), fun h => absurd h.2.1 hscan⟩
  · rw [nsNormalize, if_pos (by omega)]
    exact ⟨fun h => absurd h (by simp), fun h => absurd h.1 hlen⟩

/-! ## One resource in both spellings -/

theorem nsResolve_of_canonical {env : NsEnv} (h : nsCanonical path nsMaxPath = some c) :
    nsResolve env path =
      (if (resourceAt env c).kind = .unresolved then -2 else 0, some (resourceAt env c)) := by
  rw [nsResolve, h]

theorem nsResolve_of_rejected {env : NsEnv} (h : scanPath (nsNormal path) = false) :
    nsResolve env path = (-1, none) := by
  have hnone : nsCanonical path nsMaxPath = none := by
    refine eq_none_iff_forall_ne_some.mpr fun c hc => ?_
    have := (nsCanonical_eq_some.mp hc).2.1
    rw [h] at this
    cases this
  rw [nsResolve, hnone]

/-- A canonical path is canonical again unless an alias of more than fourteen components led to
it. -/
theorem nsCanonical_again_iff {max : Nat} (h : nsCanonical path max = some c) :
    nsCanonical c max = some c ↔ (aliasOf (nsNormal path) ≠ none → nsDepth path ≤ 14) := by
  obtain ⟨hlen, hscan, rfl, hfits, hmax⟩ := nsCanonical_eq_some.mp h
  cases halias : aliasOf (nsNormal path) with
  | none =>
    have hexp : expanded (nsNormal path) = nsNormal path := by rw [expanded, halias]
    refine ⟨fun _ hne => absurd rfl hne, fun _ => ?_⟩
    rw [hexp] at hfits hmax ⊢
    refine nsCanonical_eq_some.mpr ⟨hfits, ?_, ?_, hfits, hmax⟩
    · rw [nsNormal_nsNormal]
      exact hscan
    · rw [nsNormal_nsNormal, hexp]
  | some a =>
    have ha := mem_of_find?_eq_some halias
    obtain ⟨t, ht, hstart⟩ := covers_iff.mp (covers_of_aliasOf halias)
    have hexp : expanded (nsNormal path) = a.canonical ++ t := by
      rw [ht, expanded_shortPath ha t hstart]
    -- what follows the alias is itself in normal form
    have hnormal : nsNormal t = t := by
      have := nsNormal_nsNormal path
      rw [ht, nsNormal_shortPath ha] at this
      exact append_cancel_left this
    have hiff := scanPath_canonical_iff ha t
    rw [← ht] at hiff
    rw [hexp] at hfits hmax ⊢
    have hagain : nsNormal (a.canonical ++ t) = a.canonical ++ t := by
      rw [nsNormal_canonical ha, hnormal]
    constructor
    · intro hc _
      have := (nsCanonical_eq_some.mp hc).2.1
      rw [hagain] at this
      exact (hiff.mp this).2
    · intro hdepth
      refine nsCanonical_eq_some.mpr ⟨hfits, ?_, ?_, hfits, hmax⟩
      · rw [hagain]
        exact hiff.mpr ⟨hscan, hdepth (by simp)⟩
      · rw [hagain, expanded_canonical ha]

/-- An alias and its full spelling resolve alike unless the path is well formed under the alias
and has more than fourteen components there. -/
theorem nsResolve_alias_iff (env : NsEnv) (ha : a ∈ nsAliases) (hs : s = [] ∨ s.head? = some slash)
    (hfull : (a.canonical ++ s).length ≤ 255) (hshort : (a.shortPath ++ s).length ≤ 255) :
    nsResolve env (a.canonical ++ s) = nsResolve env (a.shortPath ++ s) ↔
      (nsParseValid (a.shortPath ++ s) = true → nsDepth (a.shortPath ++ s) ≤ 14) := by
  have hstart : nsNormal s = [] ∨ (nsNormal s).head? = some slash := by
    rcases hs with rfl | hs
    · exact .inl rfl
    have hpre : nsNormal s <+: s.map lowerByte := rdropWhile_prefix _ _
    cases hn : nsNormal s with
    | nil => exact .inl rfl
    | cons c rest =>
      obtain ⟨r, hr⟩ := hn ▸ hpre
      cases s with
      | nil => cases hs
      | cons b s =>
        rw [head?_cons, some.injEq] at hs
        subst hs
        exact .inr (congrArg some (List.cons.inj hr).1)
  have hlt : ∀ {n : Nat}, n ≤ 255 → n < nsMaxPath := fun h => by rw [nsMaxPath]; omega
  have hcanonLen : (a.canonical ++ nsNormal s).length < nsMaxPath := by
    refine lt_of_le_of_lt ?_ (hlt hfull)
    rw [length_append, length_append]
    exact Nat.add_le_add_left (length_nsNormal_le s) _
  have hiff := scanPath_canonical_iff ha (nsNormal s)
  rw [nsParseValid_eq (hlt hshort), nsDepth, nsNormal_shortPath ha]
  cases hscan : scanPath (a.shortPath ++ nsNormal s) with
  | false =>
    have hrejected : scanPath (a.canonical ++ nsNormal s) = false := by
      rw [← Bool.not_eq_true, hiff, hscan]
      simp
    rw [nsResolve_of_rejected (by rw [nsNormal_canonical ha]; exact hrejected),
      nsResolve_of_rejected (by rw [nsNormal_shortPath ha]; exact hscan)]
    simp
  | true =>
    have hcanon : nsCanonical (a.shortPath ++ s) nsMaxPath = some (a.canonical ++ nsNormal s) := by
      refine nsCanonical_eq_some.mpr ⟨hlt hshort, ?_, ?_, hcanonLen, hcanonLen⟩
      · rw [nsNormal_shortPath ha]
        exact hscan
      · rw [nsNormal_shortPath ha, expanded_shortPath ha _ hstart]
    rw [nsResolve_of_canonical hcanon]
    constructor
    · intro h _
      by_contra hdeep
      have hrejected : scanPath (a.canonical ++ nsNormal s) = false := by
        rw [← Bool.not_eq_true, hiff]
        exact fun h => hdeep h.2
      rw [nsResolve_of_rejected (by rw [nsNormal_canonical ha]; exact hrejected)] at h
      exact absurd (congrArg Prod.snd h) (by simp)
    · intro hdepth
      have hfullCanon : nsCanonical (a.canonical ++ s) nsMaxPath =
          some (a.canonical ++ nsNormal s) := by
        refine nsCanonical_eq_some.mpr ⟨hlt hfull, ?_, ?_, hcanonLen, hcanonLen⟩
        · rw [nsNormal_canonical ha]
          exact hiff.mpr ⟨hscan, hdepth rfl⟩
        · rw [nsNormal_canonical ha, expanded_canonical ha]
      rw [nsResolve_of_canonical hfullCanon]

/-- Expansion is idempotent and resolution does not see the spelling exactly for paths that do
not start with an alias or have at most fourteen components; an alias and its full spelling
resolve alike exactly for suffixes that are malformed or that leave the alias at most fourteen
components. -/
theorem alias_transparent_iff (env : NsEnv) :
    (∀ (path c : List UInt8) (max : Nat), nsCanonical path max = some c →
      ((nsCanonical c max = some c ∧ nsResolve env path = nsResolve env c) ↔
        (aliasOf (nsNormal path) ≠ none → nsDepth path ≤ 14))) ∧
    (∀ a ∈ nsAliases, ∀ s : List UInt8, (s = [] ∨ s.head? = some slash) →
      (a.canonical ++ s).length ≤ 255 → (a.shortPath ++ s).length ≤ 255 →
      (nsResolve env (a.canonical ++ s) = nsResolve env (a.shortPath ++ s) ↔
        (nsParseValid (a.shortPath ++ s) = true → nsDepth (a.shortPath ++ s) ≤ 14))) := by
  refine ⟨fun path c max h => ?_, fun a ha s hs hfull hshort =>
    nsResolve_alias_iff env ha hs hfull hshort⟩
  rw [← nsCanonical_again_iff h]
  refine ⟨fun hc => hc.1, fun hc => ⟨hc, ?_⟩⟩
  -- the resolver calls `ns_canonical` with room for any path
  have hroom : ∀ {p : List UInt8}, nsCanonical p max = some c →
      nsCanonical p nsMaxPath = some c := fun hp => by
    obtain ⟨hlen, hscan, hexp, hfits, -⟩ := nsCanonical_eq_some.mp hp
    exact nsCanonical_eq_some.mpr ⟨hlen, hscan, hexp, hfits, hfits⟩
  rw [nsResolve_of_canonical (hroom h), nsResolve_of_canonical (hroom hc)]

/-- `0/hss` and `n` more components. -/
def deepAlias (n : Nat) : List UInt8 :=
  cstr "0/hss" ++ Text.fielded slash (List.replicate n (cstr "a"))

/-- A machine with one SSD and no partitions. -/
def ssdMachine : NsEnv := ⟨some (cstr "ssd"), [], 0⟩

/-- The device itself is found under its alias, and at depth fourteen nothing changes. -/
theorem alias_transparent_ssd :
    (nsCanonical (cstr "0/HSS/") 256 = some (cstr "0/hardware/storage/ssd") ∧
      nsCanonical (cstr "0/hardware/storage/ssd") 256 = some (cstr "0/hardware/storage/ssd")) ∧
    nsResolve ssdMachine (cstr "0/hardware/storage/ssd" ++ cstr "/partitions") =
      nsResolve ssdMachine (cstr "0/hss" ++ cstr "/partitions") :=
  ⟨⟨by decide, (((alias_transparent_iff ssdMachine).1 (cstr "0/HSS/")
      (cstr "0/hardware/storage/ssd") 256 (by decide)).mpr (by decide)).1⟩,
    ((alias_transparent_iff ssdMachine).2 ⟨cstr "0/hss", cstr "0/hardware/storage/ssd"⟩
      (by decide) (cstr "/partitions") (.inr (by decide)) (by decide)
      (by decide)).mpr (by decide)⟩

/-- With fifteen components behind it the alias is accepted, and its canonical spelling is
rejected. -/
theorem deep_alias_not_canonical : (nsCanonical (deepAlias 15) 256).isSome = true ∧
    (nsCanonical (deepAlias 15) 256).bind (nsCanonical · 256) = none ∧
    (nsResolve ssdMachine (deepAlias 15)).1 = -2 ∧
    ((nsCanonical (deepAlias 15) 256).map fun c => (nsResolve ssdMachine c).1) = some (-1) := by
  decide

end OpenSys
