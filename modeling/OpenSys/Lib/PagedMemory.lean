-- SUMMARY: Memory reached through a page map.
import Mathlib.Logic.Function.Basic
import Mathlib.Data.List.Basic
import Mathlib.Tactic.Linarith

/-!
# Paged memory

A page map takes page numbers to frames, and memory holds the contents of the frames. As
long as no two pages share a frame, a store through the map is a store at one address.
-/

namespace OpenSys.Paged

open Function Option

variable {α : Type*} {size : Nat}

structure PagedMem (α : Type*) where
  map : Nat → Option Nat
  ram : Nat → Nat → α

/-- Different pages have different frames. -/
def PagedMem.Distinct (m : PagedMem α) : Prop :=
  ∀ p q f, m.map p = some f → m.map q = some f → p = q

/-- The value at address `v`, for pages of `size` cells. -/
def PagedMem.read (size : Nat) (m : PagedMem α) (v : Nat) : Option α :=
  (m.map (v / size)).map fun f => m.ram f (v % size)

/-- A store at address `v`; `none` is a page fault. -/
def PagedMem.store (size : Nat) (m : PagedMem α) (v : Nat) (a : α) : Option (PagedMem α) :=
  (m.map (v / size)).map fun f =>
    { m with ram := update m.ram f (update (m.ram f) (v % size) a) }

def PagedMem.storeAll (size : Nat) (m : PagedMem α) (v : Nat) : List α → Option (PagedMem α)
  | [] => some m
  | a :: l => (m.store size v a).bind fun m => m.storeAll size (v + 1) l

/-- Stores one after the other up to the first page fault, and whether there was none. -/
def PagedMem.storeEach (size : Nat) : PagedMem α → List (Nat × α) → Bool × PagedMem α
  | m, [] => (true, m)
  | m, (v, a) :: l =>
    match m.store size v a with
    | none => (false, m)
    | some m => m.storeEach size l

def PagedMem.mapPage (m : PagedMem α) (p f : Nat) : PagedMem α :=
  { m with map := update m.map p (some f) }

variable {m m' : PagedMem α} {v : Nat}

theorem eq_of_div_mod {v w : Nat} (hdiv : w / size = v / size) (hmod : w % size = v % size) :
    w = v := by
  rw [← Nat.div_add_mod w size, ← Nat.div_add_mod v size, hdiv, hmod]

theorem store_spec {a : α} (hd : m.Distinct) (hs : m.store size v a = some m') :
    m'.map = m.map ∧ ∀ w, m'.read size w = if w = v then some a else m.read size w := by
  obtain ⟨f, hf, rfl⟩ := map_eq_some_iff.mp hs
  refine ⟨rfl, fun w => ?_⟩
  by_cases hw : w = v
  · subst hw
    simp [PagedMem.read, hf]
  rw [if_neg hw]
  cases hg : m.map (w / size) with
  | none => simp [PagedMem.read, hg]
  | some g =>
    by_cases hgf : g = f
    · subst hgf
      have hdiv : w / size = v / size := hd _ _ _ hg hf
      have hmod : w % size ≠ v % size := fun h => hw (eq_of_div_mod hdiv h)
      simp [PagedMem.read, hg, hmod]
    · simp [PagedMem.read, hg, hgf]

/-- A run of stores that makes no page fault writes the whole list, and nothing else. -/
theorem storeAll_spec {l : List α} (hd : m.Distinct) (hs : m.storeAll size v l = some m') :
    m'.map = m.map ∧ ∀ w, m'.read size w =
      if v ≤ w ∧ w < v + l.length then l[w - v]? else m.read size w := by
  induction l generalizing m v with
  | nil =>
    cases hs
    refine ⟨rfl, fun w => ?_⟩
    rw [if_neg (by simp)]
  | cons a l ih =>
    obtain ⟨m₁, hm₁, hrest⟩ := bind_eq_some_iff.mp hs
    obtain ⟨hmap₁, hread₁⟩ := store_spec hd hm₁
    have hd₁ : m₁.Distinct := by
      rw [PagedMem.Distinct, hmap₁]
      exact hd
    obtain ⟨hmap₂, hread₂⟩ := ih hd₁ hrest
    refine ⟨hmap₂.trans hmap₁, fun w => ?_⟩
    rw [hread₂, hread₁, List.length_cons]
    by_cases hw : w = v
    · subst hw
      simp
    by_cases hin : v ≤ w ∧ w < v + (l.length + 1)
    · rw [if_pos (by omega), if_pos hin, show w - v = (w - (v + 1)) + 1 by omega,
        List.getElem?_cons_succ]
    · rw [if_neg (by omega), if_neg hin, if_neg hw]

/-- There is no page fault when every page is there. -/
theorem storeAll_succeeds {l : List α}
    (hmapped : ∀ w, v ≤ w → w < v + l.length → (m.map (w / size)).isSome) :
    ∃ m', m.storeAll size v l = some m' ∧ m'.map = m.map := by
  induction l generalizing m v with
  | nil => exact ⟨m, rfl, rfl⟩
  | cons a l ih =>
    obtain ⟨f, hf⟩ := isSome_iff_exists.mp (hmapped v le_rfl (by simp))
    obtain ⟨m₁, hm₁, hmap₁⟩ : ∃ m₁, m.store size v a = some m₁ ∧ m₁.map = m.map :=
      ⟨_, congrArg (Option.map _) hf, rfl⟩
    obtain ⟨m₂, hm₂, hmap₂⟩ := ih (m := m₁) (v := v + 1) fun w hw hw' => by
      rw [hmap₁]
      exact hmapped w (by omega) (by rw [List.length_cons]; omega)
    exact ⟨m₂, by rw [PagedMem.storeAll, hm₁]; exact hm₂, hmap₂.trans hmap₁⟩

theorem store_none {a : α} (h : m.map (v / size) = none) : m.store size v a = none := by
  rw [PagedMem.store, h]
  rfl

theorem store_some {f : Nat} {a : α} (h : m.map (v / size) = some f) : m.store size v a =
    some { m with ram := update m.ram f (update (m.ram f) (v % size) a) } := by
  rw [PagedMem.store, h]
  rfl

/-- Stores change frames that the map reaches, and no others. -/
theorem storeEach_frame (m : PagedMem α) (l : List (Nat × α)) {g : Nat}
    (hg : ∀ q, m.map q ≠ some g) : (m.storeEach size l).2.ram g = m.ram g := by
  induction l generalizing m with
  | nil => rfl
  | cons p l ih =>
    obtain ⟨v, a⟩ := p
    cases hf : m.map (v / size) with
    | none => rw [PagedMem.storeEach, store_none hf]
    | some f =>
      rw [PagedMem.storeEach, store_some hf]
      refine (ih { m with ram := update m.ram f _ } hg).trans ?_
      have hne : g ≠ f := fun h => hg _ (h ▸ hf)
      exact update_of_ne hne _ _

/-- Whether there is a page fault does not depend on what is in memory. -/
theorem storeEach_completes_iff (m : PagedMem α) (l : List (Nat × α)) :
    (m.storeEach size l).1 = true ↔ ∀ p ∈ l, (m.map (p.1 / size)).isSome := by
  induction l generalizing m with
  | nil => simp [PagedMem.storeEach]
  | cons p l ih =>
    obtain ⟨v, a⟩ := p
    cases hf : m.map (v / size) with
    | none => simp [PagedMem.storeEach, store_none hf, hf]
    | some f =>
      rw [PagedMem.storeEach, store_some hf]
      simp only [ih, List.forall_mem_cons, hf, isSome_some, true_and]

theorem storeEach_cons {map : Nat → Option Nat} {v f : Nat} {a : α} {l : List (Nat × α)}
    (hf : map (v / size) = some f) (ram : Nat → Nat → α) :
    PagedMem.storeEach size ⟨map, ram⟩ ((v, a) :: l) = PagedMem.storeEach size
      ⟨map, update ram f (update (ram f) (v % size) a)⟩ l := by
  rw [PagedMem.storeEach, store_some hf]

/-- Stores either leave a cell alone or give it a value of their own. -/
theorem storeEach_cell (map : Nat → Option Nat) (l : List (Nat × α)) (f o : Nat) :
    (∃ b, ∀ ram, (PagedMem.storeEach size ⟨map, ram⟩ l).2.ram f o = b) ∨
      ∀ ram, (PagedMem.storeEach size ⟨map, ram⟩ l).2.ram f o = ram f o := by
  induction l with
  | nil => exact Or.inr fun _ => rfl
  | cons p l ih =>
    obtain ⟨v, a⟩ := p
    cases hf : map (v / size) with
    | none =>
      refine Or.inr fun ram => ?_
      rw [PagedMem.storeEach, store_none hf]
    | some g =>
      rcases ih with ⟨b, hb⟩ | hkeep
      · exact Or.inl ⟨b, fun ram => by rw [storeEach_cons hf, hb]⟩
      by_cases hcell : f = g ∧ o = v % size
      · obtain ⟨rfl, rfl⟩ := hcell
        exact Or.inl ⟨a, fun ram => by rw [storeEach_cons hf, hkeep]; simp⟩
      refine Or.inr fun ram => ?_
      rw [storeEach_cons hf, hkeep]
      by_cases hfg : f = g
      · subst hfg
        have ho : o ≠ v % size := fun h => hcell ⟨rfl, h⟩
        simp [ho]
      · simp [hfg]

/-- The cell of the first store ends with a value that does not depend on what was there. -/
theorem storeEach_first {map : Nat → Option Nat} {v f : Nat} {a : α} {l : List (Nat × α)}
    (hf : map (v / size) = some f) :
    ∃ b, ∀ ram, (PagedMem.storeEach size ⟨map, ram⟩ ((v, a) :: l)).2.ram f (v % size) = b := by
  rcases storeEach_cell map l f (v % size) with ⟨b, hb⟩ | hkeep
  · exact ⟨b, fun ram => by rw [storeEach_cons hf, hb]⟩
  · exact ⟨a, fun ram => by rw [storeEach_cons hf, hkeep]; simp⟩

theorem mapPage_distinct (hd : m.Distinct) {p f : Nat} (hf : ∀ q, m.map q ≠ some f) :
    (m.mapPage p f).Distinct := by
  intro a b g ha hb
  by_cases hap : a = p <;> by_cases hbp : b = p
  · rw [hap, hbp]
  · simp only [PagedMem.mapPage, hap, update_self, some.injEq, update_of_ne hbp] at ha hb
    exact absurd (ha ▸ hb) (hf b)
  · simp only [PagedMem.mapPage, hbp, update_self, some.injEq, update_of_ne hap] at ha hb
    exact absurd (hb ▸ ha) (hf a)
  · simp only [PagedMem.mapPage, update_of_ne hap, update_of_ne hbp] at ha hb
    exact hd a b g ha hb

theorem read_mapPage {p f w : Nat} (hw : w / size ≠ p) :
    (m.mapPage p f).read size w = m.read size w := by
  simp [PagedMem.read, PagedMem.mapPage, hw]

end OpenSys.Paged
