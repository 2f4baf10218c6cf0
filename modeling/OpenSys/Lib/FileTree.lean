-- SUMMARY: Trees of directories and files: entries, listings, and copied subtrees.
import Mathlib.Algebra.Order.Ring.Nat
import Mathlib.Data.List.Induction
import Mathlib.Data.List.Infix
import Mathlib.Data.List.Nodup

/-!
# File trees

What a correct filesystem holds: at each path nothing, a directory or a file, and for each
directory the order in which its entries are listed. The directories below a root are
enumerated in preorder, and `Overlaid` says that a set of entries has been copied from one
root to another while everything else stayed as it was.
-/

namespace OpenSys

open List

/-- What stands at a path. -/
inductive Item where
  | dir
  | file (bytes : List UInt8)
  deriving DecidableEq

/-- The entries by path, and the listing of each directory. -/
structure FileTree (ν : Type*) where
  item : List ν → Option Item
  names : List ν → List ν

namespace FileTree

variable {ν : Type*} {t t' u : FileTree ν} {S D p q x y z : List ν} {n : ν} {it : Item}

/-- Every entry stands in a directory, which lists it once. -/
structure Ok (t : FileTree ν) : Prop where
  parent : ∀ p n, t.item (p ++ [n]) ≠ none → t.item p = some .dir
  listed : ∀ p n, n ∈ t.names p ↔ t.item p = some .dir ∧ t.item (p ++ [n]) ≠ none
  nodup : ∀ p, (t.names p).Nodup

/-- The ancestors of an entry are directories. -/
theorem Ok.ancestor (h : t.Ok) {n : ν} (hx : t.item (p ++ n :: q) ≠ none) :
    t.item p = some .dir := by
  induction q using List.reverseRecOn with
  | nil => exact h.parent p n hx
  | append_singleton q m ih =>
    have hup := h.parent (p ++ n :: q) m (by simpa using hx)
    exact ih (by simp [hup])

section put

variable [DecidableEq ν]

/-- Makes an entry, or replaces the one that is there. -/
def put (t : FileTree ν) (p : List ν) (it : Item) : FileTree ν where
  item := fun q => if q = p then some it else t.item q
  names := fun q =>
    if t.item p ≠ none then t.names q
    else if q = p then []
    else if q = p.dropLast then t.names q ++ p.getLast?.toList
    else t.names q

@[simp]
theorem put_item_self : (t.put p it).item p = some it := by simp [put]

theorem put_item_of_ne (h : q ≠ p) : (t.put p it).item q = t.item q := by simp [put, h]

end put

/-! ## Trees from a list of entries -/

section ofEntries

variable [DecidableEq ν] {l : List (List ν × Item)}

/-- The tree with these entries below the root, each directory listed in their order. -/
def ofEntries (l : List (List ν × Item)) : FileTree ν where
  item := fun p => if p = [] then some .dir else l.lookup p
  names := fun p => l.filterMap fun e => if e.1.dropLast = p then e.1.getLast? else none

/-- Each path once, none of them the root, and each below a directory of the list. -/
structure EntriesOk (l : List (List ν × Item)) : Prop where
  nodup : (l.map Prod.fst).Nodup
  below : ∀ e ∈ l, e.1 ≠ [] ∧ (e.1.dropLast = [] ∨ (e.1.dropLast, Item.dir) ∈ l)

theorem lookup_ne_none : l.lookup p ≠ none ↔ p ∈ l.map Prod.fst := by
  induction l with
  | nil => simp
  | cons e l ih =>
    rw [lookup_cons, map_cons, mem_cons, ← ih]
    by_cases h : p = e.1
    · simp [h]
    · rw [show (p == e.1) = false by simpa using h]
      simp [h]

theorem lookup_of_mem (h : (l.map Prod.fst).Nodup) (hmem : (p, it) ∈ l) : l.lookup p = some it := by
  induction l with
  | nil => cases hmem
  | cons e l ih =>
    rw [map_cons, nodup_cons] at h
    rw [lookup_cons]
    rcases mem_cons.mp hmem with rfl | hmem
    · simp
    · have hne : p ≠ e.1 := fun he => h.1 (he ▸ mem_map_of_mem hmem)
      rw [show (p == e.1) = false by simpa using hne]
      exact ih h.2 hmem

theorem item_ofEntries_ne_none (h : (ofEntries l).item p ≠ none) : p = [] ∨ p ∈ l.map Prod.fst := by
  unfold ofEntries at h
  dsimp only at h
  split at h
  · next hp => exact .inl hp
  · exact .inr (lookup_ne_none.mp h)

/-- The name that an entry has in a directory. -/
theorem name_eq_some {q : List ν} :
    (if q.dropLast = p then q.getLast? else none) = some n ↔ q = p ++ [n] := by
  constructor
  · intro h
    split at h
    · next hp => exact hp ▸ (dropLast_append_getLast? n h).symm
    · cases h
  · rintro rfl
    simp

theorem mem_names_ofEntries : n ∈ (ofEntries l).names p ↔ p ++ [n] ∈ l.map Prod.fst := by
  simp only [ofEntries, mem_filterMap, name_eq_some, mem_map]

theorem ofEntries_ok (hl : EntriesOk l) : (ofEntries l).Ok := by
  have hitem : ∀ p n, (ofEntries l).item (p ++ [n]) ≠ none ↔ p ++ [n] ∈ l.map Prod.fst := by
    intro p n
    rw [← lookup_ne_none]
    simp [ofEntries]
  have hparent : ∀ p n, p ++ [n] ∈ l.map Prod.fst → (ofEntries l).item p = some .dir := by
    intro p n hp
    obtain ⟨e, he, hep⟩ := mem_map.mp hp
    unfold ofEntries
    dsimp only
    split
    · rfl
    next hne =>
    have hdir := (hl.below e he).2
    rw [hep, dropLast_concat] at hdir
    exact lookup_of_mem hl.nodup (hdir.resolve_left hne)
  refine ⟨fun p n h => hparent p n ((hitem p n).mp h), fun p n => ?_, fun p => ?_⟩
  · rw [mem_names_ofEntries, hitem]
    exact ⟨fun h => ⟨hparent p n h, h⟩, fun h => h.2⟩
  -- equal names of one directory would come from equal paths
  refine pairwise_filterMap.mpr ((pairwise_map.mp hl.nodup).imp ?_)
  rintro e e' hne n hn _ hn' rfl
  exact hne ((name_eq_some.mp hn).trans (name_eq_some.mp hn').symm)

end ofEntries

/-! ## Subtrees that stay -/

/-- Nothing below the root has changed. -/
def Kept (S : List ν) (t t' : FileTree ν) : Prop :=
  ∀ y, t'.item (S ++ y) = t.item (S ++ y) ∧ t'.names (S ++ y) = t.names (S ++ y)

theorem Kept.refl : Kept S t t := fun _ => ⟨rfl, rfl⟩

theorem Kept.trans (h : Kept S t t') (h' : Kept S t' u) : Kept S t u := fun y =>
  ⟨(h' y).1.trans (h y).1, (h' y).2.trans (h y).2⟩

/-- Making an entry outside the root keeps what is below it. -/
theorem put_kept [DecidableEq ν] (h : ¬S <+: p) : Kept S t (t.put p it) := by
  intro y
  have hne : S ++ y ≠ p := by
    rintro rfl
    exact h (prefix_append S y)
  have hup : S ++ y ≠ p.dropLast := by
    intro he
    exact h (((prefix_append S y).trans (by rw [he])).trans (List.dropLast_prefix p))
  refine ⟨put_item_of_ne hne, ?_⟩
  simp [put, hne, hup]

/-! ## Directories in preorder -/

/-- The directories found below the names of a listing. -/
def dirsBelow (t : FileTree ν) (S : List ν) (below : List ν → List (List ν)) (y : List ν)
    (ns : List ν) : List (List ν) :=
  ns.flatMap fun n => if t.item (S ++ (y ++ [n])) = some .dir then below (y ++ [n]) else []

/-- The directories from `y` on, at most `k` levels of them, as paths relative to the root. -/
def dirs (t : FileTree ν) (S : List ν) : (k : Nat) → (y : List ν) → List (List ν)
  | 0, _ => []
  | k + 1, y => y :: t.dirsBelow S (t.dirs S k) y (t.names (S ++ y))

/-- The entries of a directory, as paths relative to the root. -/
def entries (t : FileTree ν) (S y : List ν) : List (List ν) :=
  (t.names (S ++ y)).map fun n => y ++ [n]

theorem dirsBelow_cons {below : List ν → List (List ν)} {ns : List ν} :
    t.dirsBelow S below y (n :: ns) =
      (if t.item (S ++ (y ++ [n])) = some .dir then below (y ++ [n]) else []) ++
        t.dirsBelow S below y ns := by
  rw [dirsBelow, flatMap_cons, ← dirsBelow]

theorem mem_dirsBelow {below : List ν → List (List ν)} {ns : List ν}
    (h : z ∈ t.dirsBelow S below y ns) : ∃ n, z ∈ below (y ++ [n]) := by
  obtain ⟨n, -, hz⟩ := mem_flatMap.mp h
  split at hz
  · exact ⟨n, hz⟩
  · cases hz

theorem prefix_of_mem_dirs {k : Nat} (h : z ∈ t.dirs S k y) : y <+: z := by
  induction k generalizing y with
  | zero => cases h
  | succ k ih =>
    rcases mem_cons.mp h with rfl | h
    · exact prefix_refl z
    · obtain ⟨n, hz⟩ := mem_dirsBelow h
      exact (prefix_append y [n]).trans (ih hz)

/-- Paths that go on differently below one directory are different. -/
theorem eq_of_prefix_snoc {m : ν} (hn : y ++ [n] <+: z) (hm : y ++ [m] <+: z) : n = m := by
  have h := prefix_of_prefix_length_le hn hm (by simp)
  simpa using List.IsPrefix.eq_of_length h (by simp)

/-- No directory is enumerated twice. -/
theorem nodup_dirs (h : t.Ok) (k : Nat) (y : List ν) : (t.dirs S k y).Nodup := by
  induction k generalizing y with
  | zero => exact nodup_nil
  | succ k ih =>
    rw [dirs, nodup_cons]
    constructor
    · intro hy
      obtain ⟨n, hz⟩ := mem_dirsBelow hy
      have hlen := (prefix_of_mem_dirs hz).length_le
      simp at hlen
    rw [dirsBelow, nodup_flatMap]
    constructor
    · intro n _
      split
      · exact ih (y ++ [n])
      · exact nodup_nil
    -- what is found below two names goes on differently after `y`
    refine (h.nodup (S ++ y)).imp ?_
    intro n m hnm z hzn hzm
    dsimp only at hzn hzm
    split at hzn
    · split at hzm
      · exact hnm (eq_of_prefix_snoc (prefix_of_mem_dirs hzn) (prefix_of_mem_dirs hzm))
      · cases hzm
    · cases hzn

/-- Every directory within the levels is enumerated. -/
theorem mem_dirs (h : t.Ok) {k : Nat} {w : List ν} (hw : w.length < k)
    (hz : t.item (S ++ (y ++ w)) = some .dir) : y ++ w ∈ t.dirs S k y := by
  induction k generalizing y w with
  | zero => cases hw
  | succ k ih =>
    cases w with
    | nil => simp [dirs]
    | cons n w =>
      have hsplit : S ++ (y ++ n :: w) = (S ++ (y ++ [n])) ++ w := by simp
      have hn : t.item (S ++ (y ++ [n])) = some .dir := by
        cases w with
        | nil => simpa using hz
        | cons m w => exact h.ancestor (by rw [← hsplit, hz]; simp)
      have hlist : n ∈ t.names (S ++ y) := by
        have hne : t.item (S ++ y ++ [n]) ≠ none := by
          rw [append_assoc, hn]
          simp
        exact (h.listed _ _).mpr ⟨h.parent _ _ hne, hne⟩
      have hin : y ++ [n] ++ w ∈ t.dirs S k (y ++ [n]) := ih (by simpa using hw) (by simpa using hz)
      refine mem_cons_of_mem _ (mem_flatMap.mpr ⟨n, hlist, ?_⟩)
      rw [if_pos hn]
      simpa using hin

/-! ## Copying a subtree -/

/-- `t'` is `t` with the entries `E` of the subtree of `t₀` at `S` laid over the one at `D`. -/
structure Overlaid (t₀ : FileTree ν) (S D : List ν) (E : List (List ν)) (t t' : FileTree ν) :
    Prop where
  copied : ∀ z ∈ E, t'.item (D ++ z) = t₀.item (S ++ z)
  frame : ∀ x, (∀ z ∈ E, x ≠ D ++ z) → t'.item x = t.item x

variable {t₀ : FileTree ν} {E F : List (List ν)}

theorem Overlaid.nil : Overlaid t₀ S D [] t t :=
  ⟨fun _ h => absurd h not_mem_nil, fun _ _ => rfl⟩

theorem Overlaid.append (h : Overlaid t₀ S D E t t') (h' : Overlaid t₀ S D F t' u) :
    Overlaid t₀ S D (E ++ F) t u := by
  constructor
  · intro z hz
    by_cases hF : z ∈ F
    · exact h'.copied z hF
    have hE : z ∈ E := (mem_append.mp hz).resolve_right hF
    rw [h'.frame (D ++ z), h.copied z hE]
    intro w hw he
    exact hF (append_cancel_left he ▸ hw)
  · intro x hx
    rw [h'.frame x fun z hz => hx z (mem_append_right E hz),
      h.frame x fun z hz => hx z (mem_append_left F hz)]

theorem Overlaid.congr (h : Overlaid t₀ S D E t t') (hmem : ∀ z, z ∈ E ↔ z ∈ F) :
    Overlaid t₀ S D F t t' :=
  ⟨fun z hz => h.copied z ((hmem z).mpr hz),
    fun x hx => h.frame x fun z hz => hx z ((hmem z).mp hz)⟩

end FileTree

end OpenSys
