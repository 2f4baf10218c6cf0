-- SUMMARY: Radix trees embedded in a memory of tables.
import Mathlib.Algebra.Order.Ring.Nat
import Mathlib.Data.List.Induction
import Mathlib.Data.List.Infix

/-!
# Radix trees in memory

A memory of tables `m : φ → ι → ω` has a row of entries for each frame. An entry
either leads to another table or does not (`next : ω → Option φ`). A path of
indices leads from a root to a table. Paths are restricted to a set `D` that is
closed under dropping the last index: a depth, a part of the root table.
-/

namespace OpenSys.Radix

open Option

variable {φ ι ω : Type*} {next : ω → Option φ} {m m' : φ → ι → ω} {root t f : φ} {i : ι}
  {p q : List ι} {D : List ι → Prop}

/-- The table at the end of a path. -/
def tableAt (next : ω → Option φ) (m : φ → ι → ω) : φ → List ι → Option φ
  | t, [] => some t
  | t, i :: p => (next (m t i)).bind fun t' => tableAt next m t' p

/-- The entry at the end of a path that is not empty. -/
def entryAt (next : ω → Option φ) (m : φ → ι → ω) : φ → List ι → Option ω
  | _, [] => none
  | t, [i] => some (m t i)
  | t, i :: j :: p => (next (m t i)).bind fun t' => entryAt next m t' (j :: p)

@[simp] theorem tableAt_nil : tableAt next m t [] = some t := rfl

@[simp] theorem tableAt_cons :
    tableAt next m t (i :: p) = (next (m t i)).bind fun t' => tableAt next m t' p := rfl

theorem tableAt_append : tableAt next m t (p ++ q) =
    (tableAt next m t p).bind fun t' => tableAt next m t' q := by
  induction p generalizing t with
  | nil => rfl
  | cons i p ih => cases h : next (m t i) <;> simp [h, ih]

theorem tableAt_concat :
    tableAt next m t (p ++ [i]) = (tableAt next m t p).bind fun t' => next (m t' i) := by
  simp [tableAt_append]

theorem entryAt_concat :
    entryAt next m t (p ++ [i]) = (tableAt next m t p).map fun t' => m t' i := by
  induction p generalizing t with
  | nil => rfl
  | cons j p ih =>
    cases p with
    | nil => cases h : next (m t j) <;> simp [entryAt, h]
    | cons k p =>
      rw [tableAt_cons, List.cons_append, List.cons_append, entryAt]
      cases next (m t j) with
      | none => rfl
      | some t' => exact ih

/-- Dropping the last index does not leave `D`. -/
def Closed (D : List ι → Prop) : Prop := ∀ p i, D (p ++ [i]) → D p

/-- No two paths lead to the same table. -/
def IsTree (next : ω → Option φ) (m : φ → ι → ω) (root : φ) (D : List ι → Prop) : Prop :=
  ∀ p q f, D p → D q → tableAt next m root p = some f → tableAt next m root q = some f → p = q

/-- The tables depend only on where the entries on the way lead. -/
theorem tableAt_congr (hD : Closed D)
    (h : ∀ p i t, D (p ++ [i]) → tableAt next m root p = some t → next (m' t i) = next (m t i))
    (hp : D p) : tableAt next m' root p = tableAt next m root p := by
  induction p using List.reverseRecOn with
  | nil => rfl
  | append_singleton p i ih =>
    rw [tableAt_concat, tableAt_concat, ih (hD p i hp)]
    cases ht : tableAt next m root p with
    | none => rfl
    | some t => exact h p i t hp ht

/-- A memory in which the tables of the tree differ at entry `i` of the table at the end of `p`
    only: the paths that do not use it stay. -/
theorem tableAt_elsewhere (hD : Closed D) (htree : IsTree next m root D) (hp : D p)
    (ht : tableAt next m root p = some t)
    (hother : ∀ q g j, D q → tableAt next m root q = some g → (g, j) ≠ (t, i) → m' g j = m g j)
    (hq : D q) (hnot : ¬ p ++ [i] <+: q) : tableAt next m' root q = tableAt next m root q := by
  have hclosed : Closed fun q => D q ∧ ¬ p ++ [i] <+: q := fun q j h =>
    ⟨hD q j h.1, fun hpre => h.2 (hpre.trans (List.prefix_append q [j]))⟩
  refine tableAt_congr hclosed (fun q j g h hg => ?_) ⟨hq, hnot⟩
  have hq' := hD q j h.1
  have hne : (g, j) ≠ (t, i) := by
    intro heq
    cases heq
    exact h.2 (by rw [htree q p _ hq' hp hg ht])
  rw [hother q g j hq' hg hne]

theorem not_concat_prefix : ¬ p ++ [i] <+: p := fun h => by simpa using h.length_le

/-- A memory in which the fresh table `f` has been cleared and then linked at entry
    `i` of the table `t` at the end of `p`: the path to `f` is the only new one. -/
theorem tableAt_link [DecidableEq ι] (hD : Closed D) (htree : IsTree next m root D) (hp : D p)
    (ht : tableAt next m root p = some t) (hfree : next (m t i) = none)
    (hfresh : ∀ q, D q → tableAt next m root q ≠ some f)
    (hclear : ∀ j, next (m' f j) = none) (hlink : next (m' t i) = some f)
    (hother : ∀ g j, g ≠ f → (g, j) ≠ (t, i) → m' g j = m g j) (hq : D q) :
    tableAt next m' root q = if q = p ++ [i] then some f else tableAt next m root q := by
  have hkeep {q : List ι} : D q → ¬ p ++ [i] <+: q →
      tableAt next m' root q = tableAt next m root q :=
    tableAt_elsewhere hD htree hp ht fun q g j hq hg =>
      hother g j (by rintro rfl; exact hfresh q hq hg)
  by_cases hbelow : p ++ [i] <+: q
  · -- Nothing hangs below the cleared table, and nothing did before.
    obtain ⟨r, rfl⟩ := hbelow
    rw [tableAt_append, tableAt_concat, hkeep hp not_concat_prefix, tableAt_append, tableAt_concat, ht]
    cases r with
    | nil => simpa using hlink
    | cons j r => simp [hlink, hclear, hfree]
  · rw [hkeep hq hbelow, if_neg (by rintro rfl; exact hbelow List.prefix_rfl)]

/-- A memory in which entry `i` of the table at the end of `p` leads nowhere any more: the paths
    through it are gone. -/
theorem tableAt_cut [DecidableEq ι] (hD : Closed D) (htree : IsTree next m root D) (hp : D p)
    (ht : tableAt next m root p = some t) (hcut : next (m' t i) = none)
    (hother : ∀ g j, (g, j) ≠ (t, i) → m' g j = m g j) (hq : D q) :
    tableAt next m' root q = if p ++ [i] <+: q then none else tableAt next m root q := by
  have hkeep {q : List ι} : D q → ¬ p ++ [i] <+: q →
      tableAt next m' root q = tableAt next m root q :=
    tableAt_elsewhere hD htree hp ht fun _ g j _ _ => hother g j
  split_ifs with hbelow
  · obtain ⟨r, rfl⟩ := hbelow
    rw [tableAt_append, tableAt_concat, hkeep hp not_concat_prefix, ht, bind_some, hcut]
    rfl
  · exact hkeep hq hbelow

/-! ## Copies of a tree

These follow a tree level by level: `n` is the number of levels of tables below the
one in question. -/

/-- All tables from `t` on satisfy `U`. -/
def Within (next : ω → Option φ) (U : φ → Prop) (m : φ → ι → ω) : Nat → φ → Prop
  | 0, t => U t
  | n + 1, t => U t ∧ ∀ i t', next (m t i) = some t' → Within next U m n t'

/-- `f` is a table of the last level below `t`. -/
def Last (next : ω → Option φ) (m : φ → ι → ω) : Nat → φ → φ → Prop
  | 0, t, f => f = t
  | n + 1, t, f => ∃ i t', next (m t i) = some t' ∧ Last next m n t' f

/-- In `m'` the tree below `d` is a copy, in tables of `N`, of the tree below `t` in
    `m`; the entries of the last level go through `copy`. -/
def Copied (next : ω → Option φ) (copy : ω → ω) (N : φ → Prop) (m m' : φ → ι → ω) :
    Nat → φ → φ → Prop
  | 0, t, d => N d ∧ ∀ i, m' d i = copy (m t i)
  | n + 1, t, d => N d ∧ ∀ i, (next (m t i) = none → next (m' d i) = none) ∧
      ∀ t', next (m t i) = some t' →
        ∃ d', next (m' d i) = some d' ∧ Copied next copy N m m' n t' d'

/-- The number of tables from `t` on, where `is` lists the indices of a row. -/
def tableCount (next : ω → Option φ) (m : φ → ι → ω) (is : List ι) : Nat → φ → Nat
  | 0, _ => 1
  | n + 1, t => 1 + (is.map fun i => (next (m t i)).elim 0 (tableCount next m is n)).sum

variable {copy : ω → ω} {N N' U U' : φ → Prop} {m₁ : φ → ι → ω} {n : Nat} {d : φ}

theorem Within.head (h : Within next U m n t) : U t := by
  cases n with
  | zero => exact h
  | succ n => exact h.1

theorem Within.mono (hU : ∀ f, U f → U' f) (h : Within next U m n t) : Within next U' m n t := by
  induction n generalizing t with
  | zero => exact hU t h
  | succ n ih => exact ⟨hU t h.1, fun i t' hnext => ih (h.2 i t' hnext)⟩

/-- The tree stays where it is as long as its entries lead to the same tables. -/
theorem Within.congr (hm : ∀ f, U f → ∀ i, next (m₁ f i) = next (m f i))
    (h : Within next U m n t) : Within next U m₁ n t := by
  induction n generalizing t with
  | zero => exact h
  | succ n ih => exact ⟨h.1, fun i t' hnext => ih (h.2 i t' (hm t h.1 i ▸ hnext))⟩

theorem Last.mem (hlast : Last next m n t f) (h : Within next U m n t) : U f := by
  induction n generalizing t with
  | zero =>
    cases hlast
    exact h
  | succ n ih =>
    obtain ⟨i, t', hnext, hrest⟩ := hlast
    exact ih hrest (h.2 i t' hnext)

theorem Last.congr (hm : ∀ f, U f → ∀ i, next (m₁ f i) = next (m f i))
    (h : Within next U m n t) : Last next m₁ n t f ↔ Last next m n t f := by
  induction n generalizing t with
  | zero => exact Iff.rfl
  | succ n ih =>
    constructor
    · rintro ⟨i, t', hnext, hrest⟩
      rw [hm t h.1] at hnext
      exact ⟨i, t', hnext, (ih (h.2 i t' hnext)).mp hrest⟩
    · rintro ⟨i, t', hnext, hrest⟩
      exact ⟨i, t', by rw [hm t h.1, hnext], (ih (h.2 i t' hnext)).mpr hrest⟩

theorem tableCount_congr {is : List ι} (hm : ∀ f, U f → ∀ i, next (m₁ f i) = next (m f i))
    (h : Within next U m n t) : tableCount next m₁ is n t = tableCount next m is n t := by
  induction n generalizing t with
  | zero => rfl
  | succ n ih =>
    rw [tableCount, tableCount]
    refine congrArg (fun l => 1 + List.sum l) (List.map_congr_left fun i _ => ?_)
    rw [hm t h.1]
    cases hnext : next (m t i) with
    | none => rfl
    | some t' => exact ih (h.2 i t' hnext)

theorem Copied.head (h : Copied next copy N m m' n t d) : N d := by
  cases n with
  | zero => exact h.1
  | succ n => exact h.1

/-- A copy stays a copy when its own tables do not change. -/
theorem Copied.mono (hN : ∀ f, N f → N' f) (hm : ∀ f, N f → m₁ f = m' f)
    (h : Copied next copy N m m' n t d) : Copied next copy N' m m₁ n t d := by
  induction n generalizing t d with
  | zero => exact ⟨hN d h.1, fun i => by rw [hm d h.1, h.2 i]⟩
  | succ n ih =>
    refine ⟨hN d h.1, fun i => ?_⟩
    rw [hm d h.1]
    refine ⟨(h.2 i).1, fun t' hnext => ?_⟩
    obtain ⟨d', hd', hrest⟩ := (h.2 i).2 t' hnext
    exact ⟨d', hd', ih hrest⟩

/-- A copy of a changed tree is a copy of the tree when the changes do not show in it. -/
theorem Copied.source (hU : Within next U m n t)
    (hm : ∀ f, U f → ∀ i, next (m₁ f i) = next (m f i) ∧ copy (m₁ f i) = copy (m f i))
    (h : Copied next copy N m₁ m' n t d) : Copied next copy N m m' n t d := by
  induction n generalizing t d with
  | zero => exact ⟨h.1, fun i => by rw [h.2 i, (hm t hU i).2]⟩
  | succ n ih =>
    refine ⟨h.1, fun i => ?_⟩
    have hentry := h.2 i
    rw [(hm t hU.1 i).1] at hentry
    refine ⟨hentry.1, fun t' hnext => ?_⟩
    obtain ⟨d', hd', hrest⟩ := hentry.2 t' hnext
    exact ⟨d', hd', ih (hU.2 i t' hnext) hrest⟩

/-! In terms of paths: -/

theorem within_of_tableAt (h : ∀ q f, q.length ≤ n → tableAt next m t q = some f → U f) :
    Within next U m n t := by
  induction n generalizing t with
  | zero => exact h [] t (Nat.zero_le 0) rfl
  | succ n ih =>
    refine ⟨h [] t (Nat.zero_le _) rfl, fun i t' hnext => ih fun q f hq hf => ?_⟩
    exact h (i :: q) f (Nat.succ_le_succ hq) (by rw [tableAt_cons, hnext]; exact hf)

theorem last_iff : Last next m n t f ↔ ∃ q, q.length = n ∧ tableAt next m t q = some f := by
  induction n generalizing t with
  | zero =>
    constructor
    · rintro rfl
      exact ⟨[], rfl, rfl⟩
    · rintro ⟨q, hq, hf⟩
      rw [List.length_eq_zero_iff.mp hq] at hf
      exact (some.inj hf).symm
  | succ n ih =>
    constructor
    · rintro ⟨i, t', hnext, hrest⟩
      obtain ⟨q, hq, hf⟩ := ih.mp hrest
      exact ⟨i :: q, by rw [List.length_cons, hq], by rw [tableAt_cons, hnext]; exact hf⟩
    rintro ⟨q, hq, hf⟩
    cases q with
    | nil => cases hq
    | cons i q =>
      rw [tableAt_cons, bind_eq_some_iff] at hf
      obtain ⟨t', hnext, hf⟩ := hf
      exact ⟨i, t', hnext, ih.mpr ⟨q, Nat.succ.inj hq, hf⟩⟩

/-- The copy has a table exactly where the tree has one. -/
theorem Copied.tableAt_eq (h : Copied next copy N m m' n t d) (hq : q.length ≤ n) :
    (tableAt next m t q = none ∧ tableAt next m' d q = none) ∨
      ∃ f g, tableAt next m t q = some f ∧ tableAt next m' d q = some g ∧ N g ∧
        (q.length = n → ∀ i, m' g i = copy (m f i)) := by
  induction q generalizing n t d with
  | nil =>
    refine .inr ⟨t, d, rfl, rfl, h.head, fun hn i => ?_⟩
    subst hn
    exact h.2 i
  | cons i q ih =>
    cases n with
    | zero => exact absurd hq (Nat.not_succ_le_zero _)
    | succ n =>
      rw [tableAt_cons, tableAt_cons]
      cases hnext : next (m t i) with
      | none => exact .inl ⟨rfl, by rw [(h.2 i).1 hnext]; rfl⟩
      | some t' =>
        obtain ⟨d', hd', hrest⟩ := (h.2 i).2 t' hnext
        rw [hd']
        rcases ih hrest (Nat.le_of_succ_le_succ hq) with hnone | ⟨f, g, hf, hg, hN, hlast⟩
        · exact .inl hnone
        · exact .inr ⟨f, g, hf, hg, hN, fun hlen => hlast (Nat.succ.inj hlen)⟩

/-! ## Copies without sharing -/

/-- The trees below `t` and `d` have no table in common. -/
def Apart (next : ω → Option φ) (m : φ → ι → ω) (n : Nat) (t d : φ) : Prop :=
  ∀ p q f, p.length ≤ n → q.length ≤ n → tableAt next m t p = some f → tableAt next m d q ≠ some f

theorem Within.tableAt (h : Within next U m n t) (hq : q.length ≤ n)
    (hf : tableAt next m t q = some f) : U f := by
  induction q generalizing n t with
  | nil =>
    cases hf
    exact h.head
  | cons i q ih =>
    cases n with
    | zero => exact absurd hq (Nat.not_succ_le_zero _)
    | succ n =>
      rw [tableAt_cons, bind_eq_some_iff] at hf
      obtain ⟨t', hnext, hf⟩ := hf
      exact ih (h.2 i t' hnext) (Nat.le_of_succ_le_succ hq) hf

theorem Copied.within (h : Copied next copy N m m' n t d) : Within next N m' n d := by
  refine within_of_tableAt fun q f hq hf => ?_
  rcases h.tableAt_eq hq with ⟨-, hnone⟩ | ⟨g, g', -, hg', hN, -⟩
  · rw [hnone] at hf
    cases hf
  · rw [hg'] at hf
    cases hf
    exact hN

theorem apart_of_within (h : Within next U m n t) (h' : Within next U' m n d)
    (hdisjoint : ∀ f, U f → ¬ U' f) : Apart next m n t d :=
  fun _ _ f hp hq hf hf' => hdisjoint f (h.tableAt hp hf) (h'.tableAt hq hf')

/-- The tables below `t` when its own tables do not change. -/
theorem Within.tableAt_eq (h : Within next U m n t) (hm : ∀ f, U f → m₁ f = m f)
    (hq : q.length ≤ n) : Radix.tableAt next m₁ t q = Radix.tableAt next m t q := by
  induction q generalizing n t with
  | nil => rfl
  | cons i q ih =>
    cases n with
    | zero => exact absurd hq (Nat.not_succ_le_zero _)
    | succ n =>
      rw [tableAt_cons, tableAt_cons, hm t h.1]
      cases hnext : next (m t i) with
      | none => rfl
      | some t' => exact ih (h.2 i t' hnext) (Nat.le_of_succ_le_succ hq)

theorem IsTree.of_within (h : IsTree next m t fun q => q.length ≤ n)
    (hwithin : Within next U m n t) (hm : ∀ f, U f → m₁ f = m f) :
    IsTree next m₁ t fun q => q.length ≤ n := by
  intro p q f hp hq hpf hqf
  rw [hwithin.tableAt_eq hm hp] at hpf
  rw [hwithin.tableAt_eq hm hq] at hqf
  exact h p q f hp hq hpf hqf

/-- A tree from the trees below the entries `I` of its root. -/
theorem isTree_succ {I : ι → Prop}
    (htree : ∀ i t', I i → next (m t i) = some t' → IsTree next m t' fun q => q.length ≤ n)
    (hapart : ∀ i j t₁ t₂, I i → I j → i ≠ j → next (m t i) = some t₁ → next (m t j) = some t₂ →
      Apart next m n t₁ t₂)
    (hroot : ∀ i t', I i → next (m t i) = some t' → Within next (fun f => f ≠ t) m n t') :
    IsTree next m t fun q => q.length ≤ n + 1 ∧ ∀ i ∈ q.head?, I i := by
  have hbelow : ∀ i q, I i → q.length ≤ n → tableAt next m t (i :: q) ≠ some t := by
    intro i q hi hq hf
    rw [tableAt_cons, bind_eq_some_iff] at hf
    obtain ⟨t', hnext, hf⟩ := hf
    exact (hroot i t' hi hnext).tableAt hq hf rfl
  rintro p q f ⟨hp, hi⟩ ⟨hq, hj⟩ hpf hqf
  cases p with
  | nil =>
    cases hpf
    cases q with
    | nil => rfl
    | cons j q => exact absurd hqf (hbelow j q (hj j rfl) (Nat.le_of_succ_le_succ hq))
  | cons i p =>
    have hp' : p.length ≤ n := Nat.le_of_succ_le_succ hp
    cases q with
    | nil =>
      cases hqf
      exact absurd hpf (hbelow i p (hi i rfl) hp')
    | cons j q =>
      have hq' : q.length ≤ n := Nat.le_of_succ_le_succ hq
      rw [tableAt_cons, bind_eq_some_iff] at hpf hqf
      obtain ⟨t₁, hnext₁, hpf⟩ := hpf
      obtain ⟨t₂, hnext₂, hqf⟩ := hqf
      by_cases hij : i = j
      · subst hij
        obtain rfl : t₁ = t₂ := some.inj (hnext₁.symm.trans hnext₂)
        rw [htree i t₁ (hi i rfl) hnext₁ p q f hp' hq' hpf hqf]
      · exact absurd hqf
          (hapart i j t₁ t₂ (hi i rfl) (hj j rfl) hij hnext₁ hnext₂ p q f hp' hq' hpf)

end OpenSys.Radix
