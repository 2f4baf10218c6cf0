-- SUMMARY: Trees kept as parent pointers and names, and how paths resolve.
import Mathlib.Data.List.Infix
import Mathlib.Logic.Function.Iterate

/-!
# Trees of named nodes

Every node has a parent and a name, and a path is the list of the names below the
root. The tree is well-formed when siblings have different names, parents are
directories, and the parent pointers lead to the root. A change of the tree is told by
the one node that it touches.
-/

namespace OpenSys.Tree

open List

variable {ι κ : Type*}

/-- The nodes of a tree but for its root are the `live` ones. -/
structure Forest (ι κ : Type*) where
  live : ι → Prop
  dir : ι → Prop
  parent : ι → ι
  name : ι → κ

variable {F F' : Forest ι κ} {root i j p q : ι} {n : κ} {ns ms ps : List κ}

/-- The parent pointers lead from a node to the root. -/
inductive Reaches (F : Forest ι κ) (root : ι) : ι → Prop
  | root : Reaches F root root
  | step {i : ι} : F.live i → Reaches F root (F.parent i) → Reaches F root i

/-- The node `i` is met on the way from `j` to the root. -/
inductive OnChain (F : Forest ι κ) (i : ι) : ι → Prop
  | here : OnChain F i i
  | up {j : ι} : F.live j → OnChain F i (F.parent j) → OnChain F i j

structure WellFormed (F : Forest ι κ) (root : ι) : Prop where
  root_not_live : ¬ F.live root
  unique : ∀ i j, F.live i → F.live j → F.parent i = F.parent j → F.name i = F.name j → i = j
  parent_node : ∀ i, F.live i → F.parent i = root ∨ F.live (F.parent i)
  parent_dir : ∀ i, F.live i → F.dir (F.parent i)
  reaches : ∀ i, F.live i → Reaches F root i

/-- The two trees differ in the node `i` at most. -/
structure SameBut (F F' : Forest ι κ) (i : ι) : Prop where
  live : ∀ j, j ≠ i → (F'.live j ↔ F.live j)
  dir : ∀ j, j ≠ i → F.dir j → F'.dir j
  parent : ∀ j, j ≠ i → F.live j → F'.parent j = F.parent j
  name : ∀ j, j ≠ i → F.live j → F'.name j = F.name j

theorem Reaches.iterate (h : Reaches F root i) : ∃ k, F.parent^[k] i = root := by
  induction h with
  | root => exact ⟨0, rfl⟩
  | step _ _ ih =>
    obtain ⟨k, hk⟩ := ih
    exact ⟨k + 1, by rw [Function.iterate_succ_apply, hk]⟩

theorem WellFormed.ne_root (h : WellFormed F root) (hi : F.live i) : i ≠ root := by
  rintro rfl
  exact h.root_not_live hi

theorem WellFormed.parent_ne (h : WellFormed F root) (hi : F.live i) : F.parent i ≠ i := by
  have hreach := h.reaches i hi
  induction hreach with
  | root => exact absurd hi h.root_not_live
  | step _ _ ih =>
    intro heq
    rw [heq] at ih
    exact ih hi heq

/-! ## Changes -/

/-- A way to the root that does not meet the changed node stays as it is. -/
theorem SameBut.reaches (h : SameBut F F' i) (hj : Reaches F root j) (hi : ¬ OnChain F i j) :
    Reaches F' root j := by
  induction hj with
  | root => exact .root
  | @step j hlive _ ih =>
    have hne : j ≠ i := fun heq => hi (heq ▸ .here)
    refine .step ((h.live j hne).mpr hlive) ?_
    rw [h.parent j hne hlive]
    exact ih fun hup => hi (.up hlive hup)

/-- When the changed node still leads to the root, so do all others. -/
theorem SameBut.reaches_of (h : SameBut F F' i) (hi : Reaches F' root i)
    (hj : Reaches F root j) : Reaches F' root j := by
  induction hj with
  | root => exact .root
  | @step j hlive _ ih =>
    by_cases hne : j = i
    · rwa [hne]
    · exact .step ((h.live j hne).mpr hlive) (by rwa [h.parent j hne hlive])

/-- A node below a directory, with a name that no sibling has. -/
theorem WellFormed.put (h : WellFormed F root) (hb : SameBut F F' i) (hroot : i ≠ root)
    (hlive : F'.live i) (hnode : F'.parent i = root ∨ F.live (F'.parent i))
    (hne : F'.parent i ≠ i) (hdir : F.dir (F'.parent i)) (hkeep : F.live i → F.dir i → F'.dir i)
    (hfresh : ∀ j, j ≠ i → F.live j → F.parent j = F'.parent i → F.name j ≠ F'.name i)
    (hkids : F.live i ∨ ∀ j, F.live j → F.parent j ≠ i)
    (hi : Reaches F' root i) : WellFormed F' root where
  root_not_live := fun hr => h.root_not_live ((hb.live root hroot.symm).mp hr)
  unique := by
    intro j k hj hk hpar hname
    by_cases hji : j = i
    · by_cases hki : k = i
      · rw [hji, hki]
      have hk' := (hb.live k hki).mp hk
      rw [hji, hb.parent k hki hk'] at hpar
      rw [hji, hb.name k hki hk'] at hname
      exact absurd hname.symm (hfresh k hki hk' hpar.symm)
    have hj' := (hb.live j hji).mp hj
    rw [hb.parent j hji hj'] at hpar
    rw [hb.name j hji hj'] at hname
    by_cases hki : k = i
    · rw [hki] at hpar hname
      exact absurd hname (hfresh j hji hj' hpar)
    have hk' := (hb.live k hki).mp hk
    rw [hb.parent k hki hk'] at hpar
    rw [hb.name k hki hk'] at hname
    exact h.unique j k hj' hk' hpar hname
  parent_node := by
    intro j hj
    by_cases hji : j = i
    · rw [hji]
      exact hnode.imp_right (hb.live _ hne).mpr
    have hj' := (hb.live j hji).mp hj
    rw [hb.parent j hji hj']
    refine (h.parent_node j hj').imp_right fun hp => ?_
    by_cases hpi : F.parent j = i
    · rwa [hpi]
    · exact (hb.live _ hpi).mpr hp
  parent_dir := by
    intro j hj
    by_cases hji : j = i
    · rw [hji]
      exact hb.dir _ hne hdir
    have hj' := (hb.live j hji).mp hj
    rw [hb.parent j hji hj']
    by_cases hpi : F.parent j = i
    · rcases hkids with hli | hno
      · have hd := h.parent_dir j hj'
        rw [hpi] at hd ⊢
        exact hkeep hli hd
      · exact absurd hpi (hno j hj')
    · exact hb.dir _ hpi (h.parent_dir j hj')
  reaches := by
    intro j hj
    by_cases hji : j = i
    · rwa [hji]
    · exact hb.reaches_of hi (h.reaches j ((hb.live j hji).mp hj))

/-- A new node. -/
theorem WellFormed.add (h : WellFormed F root) (hb : SameBut F F' i) (hroot : i ≠ root)
    (hfree : ¬ F.live i) (hlive : F'.live i)
    (hnode : F'.parent i = root ∨ F.live (F'.parent i)) (hdir : F.dir (F'.parent i))
    (hfresh : ∀ j, F.live j → F.parent j = F'.parent i → F.name j ≠ F'.name i) :
    WellFormed F' root := by
  have hne : F'.parent i ≠ i := by
    intro heq
    rw [heq] at hnode
    exact hnode.elim hroot hfree
  have hoff : ∀ j, Reaches F root j → j ≠ i → ¬ OnChain F i j := by
    intro j hj hji hon
    induction hon with
    | here => exact hji rfl
    | @up j hj' _ ih =>
      refine ih ?_ fun hpi => ?_
      · cases hj with
        | root => exact absurd hj' h.root_not_live
        | step _ hup => exact hup
      · rcases h.parent_node j hj' with hr | hl
        · exact hroot (hpi.symm.trans hr)
        · exact hfree (hpi ▸ hl)
  have hpar : Reaches F root (F'.parent i) := hnode.elim (fun hr => hr ▸ .root) (h.reaches _)
  refine h.put hb hroot hlive hnode hne hdir (fun hli => absurd hli hfree)
    (fun j _ => hfresh j) (.inr fun j hj hpi => ?_)
    (.step hlive (hb.reaches hpar (hoff _ hpar hne)))
  rcases h.parent_node j hj with hr | hl
  · exact hroot (hpi.symm.trans hr)
  · exact hfree (hpi ▸ hl)

/-- A node with a new parent, outside its own subtree, or with a new name. -/
theorem WellFormed.move (h : WellFormed F root) (hb : SameBut F F' i) (hi : F.live i)
    (hlive : F'.live i) (hkeep : F.dir i → F'.dir i)
    (hnode : F'.parent i = root ∨ F.live (F'.parent i)) (hdir : F.dir (F'.parent i))
    (hfresh : ∀ j, F.live j → F.parent j = F'.parent i → F.name j ≠ F'.name i)
    (hoff : ¬ OnChain F i (F'.parent i)) : WellFormed F' root := by
  have hpar : Reaches F root (F'.parent i) := hnode.elim (fun hr => hr ▸ .root) (h.reaches _)
  exact h.put hb (h.ne_root hi) hlive hnode (fun heq => hoff (by rw [heq]; exact .here)) hdir
    (fun _ => hkeep) (fun j _ => hfresh j) (.inl hi) (.step hlive (hb.reaches hpar hoff))

/-- A node that nothing is below of is taken away. -/
theorem WellFormed.remove (h : WellFormed F root) (hb : SameBut F F' i)
    (hdead : ¬ F'.live i) (hkids : ∀ j, F.live j → F.parent j ≠ i) : WellFormed F' root := by
  have hold : ∀ j, F'.live j → j ≠ i ∧ F.live j := by
    intro j hj
    have hji : j ≠ i := fun heq => hdead (heq ▸ hj)
    exact ⟨hji, (hb.live j hji).mp hj⟩
  have hoff : ∀ j, F.live j → j ≠ i → ¬ OnChain F i j := by
    intro j hj hji hon
    cases hon with
    | here => exact hji rfl
    | up hj' hup =>
      clear hj'
      -- The first node below `i` on the way would have it as its parent.
      generalize hp : F.parent j = p at hup
      induction hup generalizing j with
      | here => exact hkids j hj hp
      | @up p hpl _ ih => exact ih p hpl (hp ▸ hkids j hj) rfl
  refine ⟨fun hr => h.root_not_live (hold root hr).2, ?_, ?_, ?_, ?_⟩
  · intro j k hj hk hpar hname
    obtain ⟨hji, hj'⟩ := hold j hj
    obtain ⟨hki, hk'⟩ := hold k hk
    rw [hb.parent j hji hj', hb.parent k hki hk'] at hpar
    rw [hb.name j hji hj', hb.name k hki hk'] at hname
    exact h.unique j k hj' hk' hpar hname
  · intro j hj
    obtain ⟨hji, hj'⟩ := hold j hj
    rw [hb.parent j hji hj']
    exact (h.parent_node j hj').imp_right (hb.live _ (hkids j hj')).mpr
  · intro j hj
    obtain ⟨hji, hj'⟩ := hold j hj
    rw [hb.parent j hji hj']
    exact hb.dir _ (hkids j hj') (h.parent_dir j hj')
  · intro j hj
    obtain ⟨hji, hj'⟩ := hold j hj
    exact hb.reaches (h.reaches j hj') (hoff j hj' hji)

/-- A node that keeps its place. -/
theorem WellFormed.keep (h : WellFormed F root) (hb : SameBut F F' i) (hi : F.live i)
    (hlive : F'.live i) (hdir : F.dir i → F'.dir i) (hparent : F'.parent i = F.parent i)
    (hname : F'.name i = F.name i) : WellFormed F' root := by
  have hreaches : ∀ j, Reaches F root j → Reaches F' root j := by
    intro j hj
    induction hj with
    | root => exact .root
    | @step j hj _ ih =>
      by_cases hji : j = i
      · subst hji
        exact .step hlive (hparent ▸ ih)
      · exact .step ((hb.live j hji).mpr hj) (hb.parent j hji hj ▸ ih)
  refine h.put hb (h.ne_root hi) hlive (hparent ▸ h.parent_node i hi) (hparent ▸ h.parent_ne hi)
    (hparent ▸ h.parent_dir i hi) (fun _ => hdir) (fun j hji hj hpar heq => hji ?_) (.inl hi)
    (hreaches i (h.reaches i hi))
  exact h.unique j i hj hi (hpar.trans hparent) (heq.trans hname)

/-! ## Paths -/

/-- The names lead from one node down to another. -/
inductive Resolves (F : Forest ι κ) : ι → List κ → ι → Prop
  | nil {p : ι} : Resolves F p [] p
  | cons {p c j : ι} {ns : List κ} : F.live c → F.parent c = p → Resolves F c ns j →
      Resolves F p (F.name c :: ns) j

theorem resolves_nil : Resolves F p [] j ↔ p = j := by
  constructor
  · rintro ⟨⟩
    rfl
  · rintro rfl
    exact .nil

theorem resolves_cons : Resolves F p (n :: ns) j ↔
    ∃ c, F.live c ∧ F.parent c = p ∧ F.name c = n ∧ Resolves F c ns j := by
  constructor
  · rintro ⟨⟩
    exact ⟨_, ‹_›, ‹_›, rfl, ‹_›⟩
  · rintro ⟨c, hc, hp, rfl, hrest⟩
    exact .cons hc hp hrest

theorem resolves_append : Resolves F p (ns ++ ms) j ↔
    ∃ c, Resolves F p ns c ∧ Resolves F c ms j := by
  induction ns generalizing p with
  | nil => simp [resolves_nil]
  | cons n ns ih =>
    simp only [cons_append, resolves_cons, ih]
    constructor
    · rintro ⟨c, hc, hp, hn, d, hd, hj⟩
      exact ⟨d, ⟨c, hc, hp, hn, hd⟩, hj⟩
    · rintro ⟨d, ⟨c, hc, hp, hn, hd⟩, hj⟩
      exact ⟨c, hc, hp, hn, d, hd, hj⟩

theorem resolves_concat : Resolves F p (ns ++ [n]) j ↔
    Resolves F p ns (F.parent j) ∧ F.live j ∧ F.name j = n := by
  rw [resolves_append]
  constructor
  · rintro ⟨c, hc, hstep⟩
    obtain ⟨d, hd, hpar, hname, hnil⟩ := resolves_cons.mp hstep
    obtain rfl := resolves_nil.mp hnil
    exact ⟨hpar ▸ hc, hd, hname⟩
  · rintro ⟨hc, hlive, rfl⟩
    exact ⟨_, hc, .cons hlive rfl .nil⟩

theorem Resolves.live_or_eq (h : Resolves F p ns j) : F.live j ∨ ns = [] ∧ j = p := by
  induction h with
  | nil => exact .inr ⟨rfl, rfl⟩
  | cons hc _ _ ih =>
    rcases ih with hj | ⟨-, rfl⟩
    · exact .inl hj
    · exact .inl hc

namespace WellFormed

variable (h : WellFormed F root)

include h

/-- A path leads to one node only. -/
theorem resolves_unique (hi : Resolves F p ns i) (hj : Resolves F p ns j) : i = j := by
  induction ns generalizing p with
  | nil => exact (resolves_nil.mp hi).symm.trans (resolves_nil.mp hj)
  | cons n ns ih =>
    obtain ⟨c, hc, hcp, hcn, hi⟩ := resolves_cons.mp hi
    obtain ⟨d, hd, hdp, hdn, hj⟩ := resolves_cons.mp hj
    obtain rfl := h.unique c d hc hd (hcp.trans hdp.symm) (hcn.trans hdn.symm)
    exact ih hi hj

/-- A node has one path only. -/
theorem path_unique (hns : Resolves F root ns i) (hms : Resolves F root ms i) : ns = ms := by
  induction ns using reverseRecOn generalizing ms i with
  | nil =>
    obtain rfl := resolves_nil.mp hns
    rcases hms.live_or_eq with hl | ⟨rfl, -⟩
    · exact absurd hl h.root_not_live
    · rfl
  | append_singleton ns n ih =>
    obtain ⟨hup, hl, rfl⟩ := resolves_concat.mp hns
    cases ms using reverseRecOn with
    | nil =>
      obtain rfl := resolves_nil.mp hms
      exact absurd hl h.root_not_live
    | append_singleton ms m =>
      obtain ⟨hup', -, rfl⟩ := resolves_concat.mp hms
      rw [ih hup hup']

/-- What is met on the way up from a node has a prefix of its path. -/
theorem path_of_onChain (hon : OnChain F i j) (hns : Resolves F root ns i)
    (hms : Resolves F root ms j) : ns <+: ms := by
  induction hon generalizing ms with
  | here => rw [h.path_unique hns hms]
  | @up j hl _ ih =>
    cases ms using reverseRecOn with
    | nil =>
      obtain rfl := resolves_nil.mp hms
      exact absurd hl h.root_not_live
    | append_singleton ms m =>
      obtain ⟨hup, -, -⟩ := resolves_concat.mp hms
      exact (ih hup).trans (prefix_append ms [m])

/-- A path that does not go through the changed node still leads where it led. -/
theorem resolves_same (hb : SameBut F F' i) (hns : Resolves F root ns i)
    (hps : Resolves F root ps j) (hoff : ¬ ns <+: ps) : Resolves F' root ps j := by
  induction ps using reverseRecOn generalizing j with
  | nil => rwa [resolves_nil] at hps ⊢
  | append_singleton ps n ih =>
    obtain ⟨hup, hl, hn⟩ := resolves_concat.mp hps
    have hne : j ≠ i := by
      rintro rfl
      exact hoff (by rw [h.path_unique hns hps])
    rw [resolves_concat, hb.parent j hne hl, hb.live j hne, hb.name j hne hl]
    exact ⟨ih hup fun hpre => hoff (hpre.trans (prefix_append ps [n])), hl, hn⟩

end WellFormed

/-- A change of one node, read backwards. -/
theorem SameBut.symm (h : SameBut F F' i) (hdir : ∀ j, j ≠ i → F'.dir j → F.dir j) :
    SameBut F' F i where
  live := fun j hj => (h.live j hj).symm
  dir := hdir
  parent := fun j hj hl => (h.parent j hj ((h.live j hj).mp hl)).symm
  name := fun j hj hl => (h.name j hj ((h.live j hj).mp hl)).symm

/-! ## Paths across a change -/

/-- A new node takes no path away. -/
theorem SameBut.resolves (hb : SameBut F F' i) (hi : ¬ F.live i) (h : Resolves F p ns j) :
    Resolves F' p ns j := by
  induction h with
  | nil => exact .nil
  | @cons p c j ns hc hp _ ih =>
    have hne : c ≠ i := fun heq => hi (heq ▸ hc)
    rw [← hb.name c hne hc]
    exact .cons ((hb.live c hne).mpr hc) ((hb.parent c hne hc).trans hp) ih

end OpenSys.Tree
