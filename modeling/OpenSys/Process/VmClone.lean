-- SUMMARY: What a successful vm_clone_space does.
import OpenSys.Process.VmTree
import Mathlib.Order.Fin.Basic

/-!
# Cloning an address space

`vm_clone_space` copies the tables of the user half level by level, each into a new
page. The entries of the last level are not copied as they are: a writable user page
loses its write permission, in the source as well, and becomes copy-on-write.
-/

namespace OpenSys

open List Function Option

theorem mem_tableEntries (i : Fin 512) : i ∈ tableEntries := by
  unfold tableEntries
  exact mem_finRange i

theorem mem_userEntries {i : Fin 512} : i ∈ userEntries ↔ i.val < 256 := by
  have h : ∀ i : Fin 512, i ∈ (List.finRange 512).take 256 ↔ i.val < 256 := by
    intro i
    rw [mem_take_iff_getElem]
    constructor
    · rintro ⟨k, hk, rfl⟩
      simp only [getElem_finRange, Fin.val_cast]
      omega
    · intro hi
      exact ⟨i.val, by simp; omega, by simp⟩
  unfold userEntries tableEntries
  exact h i

theorem nodup_userEntries : userEntries.Nodup := by
  unfold userEntries tableEntries
  exact (nodup_finRange 512).sublist (take_sublist _ _)

theorem nodup_tableEntries : tableEntries.Nodup := by
  unfold tableEntries
  exact nodup_finRange 512

/-! ## Shared entries -/

/-- A present user page that can be written. -/
def writablePage (e : BitVec 64) : Bool := present e && userWritable e

/-- What cloning makes of an entry of the last level, in the source. -/
def shareEntry (e : BitVec 64) : BitVec 64 := if writablePage e then cowEntry e else e

/-- The entry of the copy. -/
def copyEntry (e : BitVec 64) : BitVec 64 := if present e then shareEntry e else 0

variable {e : BitVec 64}

variable {k d page : Nat}

theorem getLsbD_vmFlagWritable (hk : k < 64) : vmFlagWritable.getLsbD k = decide (k = 1) := by
  have h : ∀ k : Fin 64, vmFlagWritable.getLsbD k = decide (k.val = 1) := by decide
  exact h ⟨k, hk⟩

theorem getLsbD_vmFlagUser (hk : k < 64) : vmFlagUser.getLsbD k = decide (k = 2) := by
  have h : ∀ k : Fin 64, vmFlagUser.getLsbD k = decide (k.val = 2) := by decide
  exact h ⟨k, hk⟩

theorem getLsbD_vmFlagCow (hk : k < 64) : vmFlagCow.getLsbD k = decide (k = 9) := by
  have h : ∀ k : Fin 64, vmFlagCow.getLsbD k = decide (k.val = 9) := by decide
  exact h ⟨k, hk⟩

theorem getLsbD_cowEntry (hk : k < 64) :
    (cowEntry e).getLsbD k = (decide (k = 9) || (e.getLsbD k && !decide (k = 1))) := by
  rw [cowEntry, BitVec.getLsbD_or, BitVec.getLsbD_and, BitVec.getLsbD_not,
    getLsbD_vmFlagWritable hk, getLsbD_vmFlagCow hk]
  simp [hk, Bool.or_comm]

theorem userWritable_eq : userWritable e = (e.getLsbD 1 && e.getLsbD 2) := by
  have hbits : ∀ k < 64, (vmFlagWritable ||| vmFlagUser).getLsbD k = decide (k = 1 ∨ k = 2) := by
    intro k hk
    rw [BitVec.getLsbD_or, getLsbD_vmFlagWritable hk, getLsbD_vmFlagUser hk, Bool.decide_or]
  rw [Bool.eq_iff_iff, userWritable, beq_iff_eq, Bool.and_eq_true]
  constructor
  · intro h
    have hbit : ∀ k < 64, (e.getLsbD k && decide (k = 1 ∨ k = 2)) = decide (k = 1 ∨ k = 2) := by
      intro k hk
      rw [← hbits k hk, ← BitVec.getLsbD_and, h]
    exact ⟨by simpa using hbit 1 (by decide), by simpa using hbit 2 (by decide)⟩
  rintro ⟨h₁, h₂⟩
  apply BitVec.eq_of_getLsbD_eq
  intro k hk
  rw [BitVec.getLsbD_and, hbits k hk]
  by_cases hk₁ : k = 1
  · simp [hk₁, h₁]
  · by_cases hk₂ : k = 2
    · simp [hk₂, h₂]
    · simp [hk₁, hk₂]

theorem present_cowEntry : present (cowEntry e) = present e := by
  rw [present_eq, present_eq, getLsbD_cowEntry (by decide)]
  simp

theorem entryAddr_cowEntry : entryAddr (cowEntry e) = entryAddr e := by
  have hand : cowEntry e &&& addrMask = e &&& addrMask := by
    apply BitVec.eq_of_getLsbD_eq
    intro k hk
    rw [BitVec.getLsbD_and, BitVec.getLsbD_and, getLsbD_cowEntry hk, getLsbD_addrMask hk]
    by_cases hmask : 12 ≤ k ∧ k < 52
    · simp [hmask, show k ≠ 9 by omega, show k ≠ 1 by omega]
    · simp [hmask]
  rw [entryAddr, entryAddr, hand]

theorem userWritable_cowEntry : userWritable (cowEntry e) = false := by
  rw [userWritable_eq, getLsbD_cowEntry (by decide)]
  simp

@[simp] theorem present_shareEntry : present (shareEntry e) = present e := by
  unfold shareEntry
  split
  · exact present_cowEntry
  · rfl

@[simp] theorem entryAddr_shareEntry : entryAddr (shareEntry e) = entryAddr e := by
  unfold shareEntry
  split
  · exact entryAddr_cowEntry
  · rfl

@[simp] theorem entryNext_shareEntry : entryNext (shareEntry e) = entryNext e := by
  rw [entryNext, entryNext, present_shareEntry, entryFrame, entryFrame, entryAddr_shareEntry]

@[simp] theorem writablePage_shareEntry : writablePage (shareEntry e) = false := by
  unfold shareEntry
  split
  · rw [writablePage, userWritable_cowEntry, Bool.and_false]
  · rename_i h
    exact Bool.not_eq_true _ ▸ h

@[simp] theorem shareEntry_shareEntry : shareEntry (shareEntry e) = shareEntry e := by
  conv_lhs => rw [shareEntry, writablePage_shareEntry]
  rfl

@[simp] theorem copyEntry_shareEntry : copyEntry (shareEntry e) = copyEntry e := by
  rw [copyEntry, copyEntry, present_shareEntry, shareEntry_shareEntry]

/-! ## Reference counts -/

variable {p : Pmm} {s s' s'' : Vm} {src dst f t t₀ f₀ n : Nat} {i j i₀ : Fin 512}
  {l : List (Fin 512)}

theorem pmmRefInc_eq (p : Pmm) (addr : Nat) :
    ∃ refs, pmmRefInc p addr = { p with refCounts := refs } := by
  unfold pmmRefInc
  dsimp only
  split
  · exact ⟨_, rfl⟩
  · exact ⟨p.refCounts, rfl⟩

/-- Sharing a page changes nothing in the allocator but reference counts. -/
theorem shareRefs_eq (p : Pmm) (addr : Nat) :
    ∃ refs, shareRefs p addr = { p with refCounts := refs } := by
  unfold shareRefs
  split
  · obtain ⟨r₁, h₁⟩ := pmmRefInc_eq p addr
    obtain ⟨r₂, h₂⟩ := pmmRefInc_eq { p with refCounts := r₁ } addr
    exact ⟨r₂, by rw [h₁, h₂]⟩
  · exact pmmRefInc_eq p addr

theorem PmmOk.withRefs (h : PmmOk p) (refs : Nat → BitVec 32) :
    PmmOk { p with refCounts := refs } :=
  ⟨⟨h.counted.count, h.counted.freeLt, h.counted.high, h.counted.total⟩, h.covers, h.zero⟩

theorem pmmRefInc_of_ne (hf : f₀ ≠ f) :
    (pmmRefInc p (f * pageSize)).refCounts f₀ = p.refCounts f₀ := by
  unfold pmmRefInc
  dsimp only
  rw [frame_address]
  split
  · exact update_of_ne hf _ _
  · rfl

/-- The counts of other pages stay. -/
theorem shareRefs_of_ne (hf : f₀ ≠ f) :
    (shareRefs p (f * pageSize)).refCounts f₀ = p.refCounts f₀ := by
  unfold shareRefs
  rw [pmmRefInc_of_ne hf]
  split
  · exact pmmRefInc_of_ne hf
  · rfl

/-- A page without references gets only one, for two spaces. -/
theorem shareRefs_of_zero (hf : p.refCounts f = 0) : (shareRefs p (f * pageSize)).refCounts f = 0 ∨
      (shareRefs p (f * pageSize)).refCounts f = 1 := by
  have hcount : pmmRefCount p (f * pageSize) ≠ 1 := by
    unfold pmmRefCount
    dsimp only
    rw [frame_address, hf]
    split <;> decide
  rw [shareRefs, if_neg hcount, pmmRefInc, frame_address]
  split
  · right
    dsimp only
    rw [update_self, hf]
    rfl
  · exact .inl hf

/-- The reference count of page `f₀` on the way from `s` to `s'`, when only the entry
    `i₀` of table `t₀` can share it: it does not move unless that entry becomes shared,
    and then a page without references has at most one. -/
structure RefStep (f₀ t₀ : Nat) (i₀ : Fin 512) (s s' : Vm) : Prop where
  mono : writablePage (s'.mem t₀ i₀) = true → writablePage (s.mem t₀ i₀) = true
  refs : s'.pmm.refCounts f₀ = s.pmm.refCounts f₀ ∨
    writablePage (s.mem t₀ i₀) = true ∧ writablePage (s'.mem t₀ i₀) = false ∧
      (s.pmm.refCounts f₀ = 0 → s'.pmm.refCounts f₀ = 0 ∨ s'.pmm.refCounts f₀ = 1)

theorem RefStep.same (hmem : s'.mem t₀ i₀ = s.mem t₀ i₀)
    (hrefs : s'.pmm.refCounts f₀ = s.pmm.refCounts f₀) : RefStep f₀ t₀ i₀ s s' :=
  ⟨fun h => hmem ▸ h, .inl hrefs⟩

theorem RefStep.trans (h : RefStep f₀ t₀ i₀ s s') (h' : RefStep f₀ t₀ i₀ s' s'') :
    RefStep f₀ t₀ i₀ s s'' := by
  refine ⟨fun hw => h.mono (h'.mono hw), ?_⟩
  rcases h.refs with hsame | ⟨hw, hnw, hone⟩
  · rcases h'.refs with hsame' | ⟨hw', hnw', hone'⟩
    · exact .inl (hsame'.trans hsame)
    · exact .inr ⟨h.mono hw', hnw', fun hzero => hone' (hsame.trans hzero)⟩
  rcases h'.refs with hsame' | ⟨hw', -, -⟩
  · refine .inr ⟨hw, ?_, fun hzero => hsame' ▸ hone hzero⟩
    rw [Bool.eq_false_iff]
    intro hw''
    rw [h'.mono hw''] at hnw
    cases hnw
  · rw [hnw] at hw'
    cases hw'

/-! ## The last level -/

theorem cloneEntry_mem (g : Nat) : (cloneEntry src dst s i).mem g j =
    if g = dst ∧ j = i then (if present (s.mem src i) then shareEntry (s.mem src i) else s.mem dst i)
    else if g = src ∧ j = i then shareEntry (s.mem src i) else s.mem g j := by
  unfold cloneEntry
  dsimp only
  cases hp : present (s.mem src i) with
  | false =>
    have hshare : shareEntry (s.mem src i) = s.mem src i := by simp [shareEntry, writablePage, hp]
    rw [if_neg Bool.false_ne_true, if_neg Bool.false_ne_true, hshare]
    by_cases hdst : g = dst ∧ j = i
    · rw [if_pos hdst, hdst.1, hdst.2]
    rw [if_neg hdst]
    by_cases hsrc : g = src ∧ j = i
    · rw [if_pos hsrc, hsrc.1, hsrc.2]
    · rw [if_neg hsrc]
  | true =>
    rw [if_pos rfl, if_pos rfl]
    cases hw : userWritable (s.mem src i) with
    | false =>
      have hshare : shareEntry (s.mem src i) = s.mem src i := by
        simp [shareEntry, writablePage, hw]
      rw [if_neg Bool.false_ne_true]
      dsimp only
      rw [writeEntry_apply, hshare]
      by_cases hdst : g = dst ∧ j = i
      · rw [if_pos hdst, if_pos hdst]
      rw [if_neg hdst, if_neg hdst]
      by_cases hsrc : g = src ∧ j = i
      · rw [if_pos hsrc, hsrc.1, hsrc.2]
      · rw [if_neg hsrc]
    | true =>
      have hshare : shareEntry (s.mem src i) = cowEntry (s.mem src i) := by
        simp [shareEntry, writablePage, hw, hp]
      rw [if_pos rfl]
      dsimp only
      rw [writeEntry_apply, writeEntry_apply, hshare]

theorem cloneEntry_pmm : (cloneEntry src dst s i).pmm =
    if writablePage (s.mem src i) then shareRefs s.pmm (entryAddr (s.mem src i)) else s.pmm := by
  unfold cloneEntry writablePage
  dsimp only
  cases present (s.mem src i) <;> cases userWritable (s.mem src i) <;> rfl

theorem cloneEntry_kernel : (cloneEntry src dst s i).kernelPml4 = s.kernelPml4 := by
  unfold cloneEntry
  dsimp only
  split
  · split <;> rfl
  · rfl

/-- The rows of the two tables after the loop over the entries `l`. -/
structure EntriesCloned (l : List (Fin 512)) (s s' : Vm) (src dst : Nat) : Prop where
  source : ∀ j, s'.mem src j = if j ∈ l then shareEntry (s.mem src j) else s.mem src j
  copy : ∀ j ∈ l, s.mem dst j = 0 → s'.mem dst j = copyEntry (s.mem src j)
  keep : ∀ j ∉ l, s'.mem dst j = s.mem dst j
  others : ∀ g, g ≠ src → g ≠ dst → s'.mem g = s.mem g
  pmm : ∃ refs, s'.pmm = { s.pmm with refCounts := refs }
  refs : ∀ f₀ t₀ i₀, t₀ ≠ dst → (∀ i ∈ l, writablePage (s.mem src i) = true →
    entryFrame (s.mem src i) = f₀ → src = t₀ ∧ i = i₀) → RefStep f₀ t₀ i₀ s s'
  quiet : (∀ i ∈ l, writablePage (s.mem src i) = false) → s'.pmm = s.pmm
  kernel : s'.kernelPml4 = s.kernelPml4

/-- One entry that can share only the page `f₀` does so at the place `t₀`, `i₀`. -/
theorem cloneEntry_refStep (ht₀ : t₀ ≠ dst) (honly : writablePage (s.mem src i) = true →
    entryFrame (s.mem src i) = f₀ → src = t₀ ∧ i = i₀) :
    RefStep f₀ t₀ i₀ s (cloneEntry src dst s i) := by
  have hmem : ∀ j, (cloneEntry src dst s i).mem t₀ j =
      if t₀ = src ∧ j = i then shareEntry (s.mem src i) else s.mem t₀ j := by
    intro j
    rw [cloneEntry_mem, if_neg fun hdst => ht₀ hdst.1]
  have hmono : writablePage ((cloneEntry src dst s i).mem t₀ i₀) = true →
      writablePage (s.mem t₀ i₀) = true := by
    rw [hmem]
    split
    · rw [writablePage_shareEntry]
      exact fun h => absurd h Bool.false_ne_true
    · exact id
  refine ⟨hmono, ?_⟩
  rw [cloneEntry_pmm]
  cases hw : writablePage (s.mem src i) with
  | false => exact .inl rfl
  | true =>
    rw [if_pos rfl, entryAddr_eq]
    by_cases hf : entryFrame (s.mem src i) = f₀
    · obtain ⟨rfl, rfl⟩ := honly hw hf
      refine .inr ⟨hw, ?_, fun hzero => ?_⟩
      · rw [hmem, if_pos ⟨rfl, rfl⟩, writablePage_shareEntry]
      · rw [← hf] at hzero ⊢
        exact shareRefs_of_zero hzero
    · exact .inl (shareRefs_of_ne (Ne.symm hf))

/-- The innermost loop of `vm_clone_space`. -/
theorem entriesCloned (hne : src ≠ dst) (hl : l.Nodup) :
    EntriesCloned l s (l.foldl (cloneEntry src dst) s) src dst := by
  induction l generalizing s with
  | nil =>
    exact ⟨fun j => by simp, by simp, fun _ _ => rfl, fun _ _ _ => rfl, ⟨s.pmm.refCounts, rfl⟩,
      fun _ _ _ _ _ => RefStep.same rfl rfl, fun _ => rfl, rfl⟩
  | cons i l ih =>
    obtain ⟨hi, hl⟩ := nodup_cons.mp hl
    have hrest := ih (s := cloneEntry src dst s i) hl
    set s₁ := cloneEntry src dst s i with hs₁
    have hsrc : ∀ j, s₁.mem src j = if j = i then shareEntry (s.mem src i) else s.mem src j := by
      intro j
      rw [hs₁, cloneEntry_mem, if_neg fun hdst => hne hdst.1]
      by_cases hj : j = i
      · rw [if_pos ⟨rfl, hj⟩, if_pos hj]
      · rw [if_neg fun hboth => hj hboth.2, if_neg hj]
    have hsrc' : ∀ j ∈ l, s₁.mem src j = s.mem src j := by
      intro j hj
      rw [hsrc, if_neg]
      rintro rfl
      exact hi hj
    have hdst : ∀ j, s₁.mem dst j = if j = i then
        (if present (s.mem src i) then shareEntry (s.mem src i) else s.mem dst i) else s.mem dst j := by
      intro j
      rw [hs₁, cloneEntry_mem]
      by_cases hj : j = i
      · rw [if_pos ⟨rfl, hj⟩, if_pos hj]
      · rw [if_neg fun hboth => hj hboth.2, if_neg hj, if_neg fun hboth => hj hboth.2]
    refine ⟨fun j => ?_, fun j hj hzero => ?_, fun j hj => ?_, fun g hgs hgd => ?_, ?_, fun f₀ t₀ i₀ ht₀ honly => ?_,
      fun hquiet => ?_, hrest.kernel.trans cloneEntry_kernel⟩
    · rw [foldl_cons, hrest.source, hsrc]
      by_cases hji : j = i
      · subst hji
        simp [hi]
      · simp [hji]
    · rw [foldl_cons]
      rcases mem_cons.mp hj with hji | hjl
      · rw [hji] at hzero ⊢
        rw [hrest.keep i hi, hdst, if_pos rfl, hzero, copyEntry]
      have hji : j ≠ i := by
        rintro rfl
        exact hi hjl
      rw [hrest.copy j hjl (by rw [hdst, if_neg hji, hzero]), hsrc' j hjl]
    · rw [mem_cons, not_or] at hj
      rw [foldl_cons, hrest.keep j hj.2, hdst, if_neg hj.1]
    · rw [foldl_cons, hrest.others g hgs hgd]
      funext j
      rw [hs₁, cloneEntry_mem, if_neg fun h => hgd h.1, if_neg fun h => hgs h.1]
    · obtain ⟨refs, hrefs⟩ := hrest.pmm
      have hpmm : ∃ refs, s₁.pmm = { s.pmm with refCounts := refs } := by
        rw [hs₁, cloneEntry_pmm]
        split
        · exact shareRefs_eq _ _
        · exact ⟨s.pmm.refCounts, rfl⟩
      obtain ⟨refs', hrefs'⟩ := hpmm
      exact ⟨refs, by rw [foldl_cons, hrefs, hrefs']⟩
    · have hfirst : RefStep f₀ t₀ i₀ s s₁ := cloneEntry_refStep ht₀ (honly i mem_cons_self)
      refine hfirst.trans (hrest.refs f₀ t₀ i₀ ht₀ fun j hj => ?_)
      rw [hsrc' j hj]
      exact honly j (mem_cons_of_mem i hj)
    · rw [foldl_cons, hrest.quiet fun j hj => by
        rw [hsrc' j hj]
        exact hquiet j (mem_cons_of_mem i hj)]
      rw [hs₁, cloneEntry_pmm, hquiet i mem_cons_self]
      rfl

/-! ## Effects of a part of the clone -/

/-- What a part of `vm_clone_space` does to pages in use: the rows of the last level
    `L` become shared, the rows `X` are under construction, and no other row changes.
    The remaining fields are about the allocator. -/
structure Clones (L X : Nat → Prop) (s s' : Vm) : Prop where
  pmm : PmmOk s'.pmm
  subset : pmmClearPages s'.pmm ⊆ pmmClearPages s.pmm
  last : ∀ f, L f → ∀ i, s'.mem f i = shareEntry (s.mem f i)
  rows : ∀ f ∉ pmmClearPages s.pmm, ¬ X f → ¬ L f → s'.mem f = s.mem f
  refs : ∀ f₀ t₀ i₀, t₀ ∉ pmmClearPages s.pmm → ¬ X t₀ →
    (∀ t i, L t → writablePage (s.mem t i) = true → entryFrame (s.mem t i) = f₀ →
      t = t₀ ∧ i = i₀) → RefStep f₀ t₀ i₀ s s'
  quiet : (∀ t i, L t → writablePage (s.mem t i) = false) → s'.pmm.refCounts = s.pmm.refCounts
  total : s'.pmm.totalPages = s.pmm.totalPages
  kernel : s'.kernelPml4 = s.kernelPml4

variable {L L' X X' : Nat → Prop}

/-- A step that shares nothing. -/
theorem Clones.of_rows (hpmm : PmmOk s'.pmm)
    (hsubset : pmmClearPages s'.pmm ⊆ pmmClearPages s.pmm)
    (hrows : ∀ f ∉ pmmClearPages s.pmm, ¬ X f → s'.mem f = s.mem f)
    (hrefs : s'.pmm.refCounts = s.pmm.refCounts) (htotal : s'.pmm.totalPages = s.pmm.totalPages)
    (hkernel : s'.kernelPml4 = s.kernelPml4) : Clones (fun _ => False) X s s' where
  pmm := hpmm
  subset := hsubset
  last := fun _ h => h.elim
  rows := fun f hf hx _ => hrows f hf hx
  refs := fun _ t₀ _ ht₀ hx _ => RefStep.same (by rw [hrows t₀ ht₀ hx]) (by rw [hrefs])
  quiet := fun _ => hrefs
  total := htotal
  kernel := hkernel

/-- Rows under construction may be rows that were not in use. -/
theorem Clones.strengthen (h : Clones L X s s')
    (hX : ∀ f, X f → X' f ∨ f ∈ pmmClearPages s.pmm) : Clones L X' s s' where
  pmm := h.pmm
  subset := h.subset
  last := h.last
  rows := fun f hf hx' => h.rows f hf fun hx => (hX f hx).elim hx' hf
  refs := fun f₀ t₀ i₀ ht₀ hx' => h.refs f₀ t₀ i₀ ht₀ fun hx => (hX t₀ hx).elim hx' ht₀
  quiet := h.quiet
  total := h.total
  kernel := h.kernel

theorem Clones.congr (h : Clones L X s s') (hL : ∀ f, L' f ↔ L f) : Clones L' X s s' := by
  have heq : L' = L := funext fun f => propext (hL f)
  exact heq ▸ h

/-- A row in use is unchanged or shared. -/
theorem Clones.entry (h : Clones L X s s') (hf : f ∉ pmmClearPages s.pmm) (hx : ¬ X f)
    (i : Fin 512) : s'.mem f i = s.mem f i ∨ s'.mem f i = shareEntry (s.mem f i) := by
  by_cases hl : L f
  · exact .inr (h.last f hl i)
  · exact .inl (by rw [h.rows f hf hx hl])

theorem Clones.entryNext_eq (h : Clones L X s s') (hf : f ∉ pmmClearPages s.pmm) (hx : ¬ X f)
    (i : Fin 512) : entryNext (s'.mem f i) = entryNext (s.mem f i) := by
  rcases h.entry hf hx i with heq | heq <;> rw [heq]
  exact entryNext_shareEntry

theorem Clones.copyEntry_eq (h : Clones L X s s') (hf : f ∉ pmmClearPages s.pmm) (hx : ¬ X f)
    (i : Fin 512) : copyEntry (s'.mem f i) = copyEntry (s.mem f i) := by
  rcases h.entry hf hx i with heq | heq <;> rw [heq]
  exact copyEntry_shareEntry

theorem Clones.writable (h : Clones L X s s') (hf : f ∉ pmmClearPages s.pmm) (hx : ¬ X f)
    (hw : writablePage (s'.mem f i) = true) : s'.mem f i = s.mem f i := by
  rcases h.entry hf hx i with heq | heq
  · exact heq
  · rw [heq, writablePage_shareEntry] at hw
    cases hw

theorem Clones.trans (h : Clones L X s s') (h' : Clones L' X s' s'')
    (hL : ∀ f, L f → f ∉ pmmClearPages s.pmm ∧ ¬ X f)
    (hL' : ∀ f, L' f → f ∉ pmmClearPages s.pmm ∧ ¬ X f) :
    Clones (fun f => L f ∨ L' f) X s s'' where
  pmm := h'.pmm
  subset := h'.subset.trans h.subset
  last := by
    intro f hf i
    by_cases hl' : L' f
    · obtain ⟨hused, hx⟩ := hL' f hl'
      rw [h'.last f hl' i]
      rcases h.entry hused hx i with heq | heq <;> rw [heq]
      exact shareEntry_shareEntry
    · have hl := hf.resolve_right hl'
      obtain ⟨hused, hx⟩ := hL f hl
      rw [h'.rows f (fun hmem => hused (h.subset hmem)) hx hl', h.last f hl i]
  rows := by
    intro f hf hx hnot
    rw [not_or] at hnot
    rw [h'.rows f (fun hmem => hf (h.subset hmem)) hx hnot.2, h.rows f hf hx hnot.1]
  refs := by
    intro f₀ t₀ i₀ ht₀ hx honly
    refine (h.refs f₀ t₀ i₀ ht₀ hx fun t i ht => honly t i (.inl ht)).trans
      (h'.refs f₀ t₀ i₀ (fun hmem => ht₀ (h.subset hmem)) hx fun t i ht hw hframe => ?_)
    obtain ⟨hused, hx⟩ := hL' t ht
    have hsame := h.writable hused hx hw
    rw [hsame] at hw hframe
    exact honly t i (.inr ht) hw hframe
  quiet := by
    intro hquiet
    rw [h'.quiet fun t i ht => ?_, h.quiet fun t i ht => hquiet t i (.inl ht)]
    obtain ⟨hused, hx⟩ := hL' t ht
    rw [Bool.eq_false_iff]
    intro hw
    have hsame := h.writable hused hx hw
    rw [hsame, hquiet t i (.inr ht)] at hw
    cases hw
  total := h'.total.trans h.total
  kernel := h'.kernel.trans h.kernel

/-- The innermost loop as such a part. -/
theorem EntriesCloned.clones (h : EntriesCloned tableEntries s s' src dst)
    (hpmm : PmmOk s.pmm) : Clones (fun f => f = src) (fun f => f = dst) s s' := by
  obtain ⟨refs, hrefs⟩ := h.pmm
  refine ⟨hrefs ▸ hpmm.withRefs refs, ?_, ?_, fun f _ hd hs => h.others f hs hd, ?_, ?_, ?_, h.kernel⟩
  · rw [hrefs]
    exact subset_rfl
  · rintro f rfl i
    rw [h.source, if_pos (mem_tableEntries i)]
  · intro f₀ t₀ i₀ _ hd honly
    exact h.refs f₀ t₀ i₀ hd fun i _ => honly src i rfl
  · intro hquiet
    rw [h.quiet fun i _ => hquiet src i rfl]
  · rw [hrefs]

/-! ## Tables -/

/-- The copy lies in pages that were free before and are in use now. -/
def CopyOf (n : Nat) (m : PageMem) (free : Finset Nat) (s' : Vm) (src dst : Nat) : Prop :=
  Radix.Copied entryNext copyEntry (fun f => f ∈ free ∧ f ∉ pmmClearPages s'.pmm) m s'.mem n src dst

/-- The tables of the last level below the entries `l` of `src`. -/
def LastIn (m : PageMem) (n : Nat) (l : List (Fin 512)) (src f : Nat) : Prop :=
  ∃ i ∈ l, ∃ t, entryNext (m src i) = some t ∧ Radix.Last entryNext m n t f

/-- What cloning one table with `n` levels below it achieves. -/
structure TableCloned (n : Nat) (s s' : Vm) (src page : Nat) : Prop where
  clones : Clones (Radix.Last entryNext s.mem n src) (fun _ => False) s s'
  copy : CopyOf n s.mem (pmmClearPages s.pmm) s' src (page / pageSize)
  tree : Radix.IsTree entryNext s'.mem (page / pageSize) fun q => q.length ≤ n
  next : entryNext (tableEntry page) = some (page / pageSize)

/-- What the loop over the entries `l` of a table achieves. -/
structure RowCloned (n : Nat) (l : List (Fin 512)) (s s' : Vm) (src dst : Nat) : Prop where
  clones : Clones (LastIn s.mem n l src) (fun f => f = dst) s s'
  keep : ∀ i ∉ l, s'.mem dst i = s.mem dst i
  absent : ∀ i ∈ l, entryNext (s.mem src i) = none → s'.mem dst i = s.mem dst i
  copy : ∀ i ∈ l, ∀ t, entryNext (s.mem src i) = some t → ∃ d, entryNext (s'.mem dst i) = some d ∧
    CopyOf n s.mem (pmmClearPages s.pmm) s' t d
  trees : ∀ i ∈ l, ∀ d, entryNext (s.mem src i) ≠ none → entryNext (s'.mem dst i) = some d →
    Radix.IsTree entryNext s'.mem d fun q => q.length ≤ n
  apart : ∀ i ∈ l, ∀ j ∈ l, i ≠ j → ∀ d d', entryNext (s.mem src i) ≠ none →
    entryNext (s.mem src j) ≠ none → entryNext (s'.mem dst i) = some d →
    entryNext (s'.mem dst j) = some d' → Radix.Apart entryNext s'.mem n d d'

/-- The copies lie in pages that were free. -/
theorem RowCloned.within (h : RowCloned n l s s' src dst) (hi : i ∈ l)
    (hsome : entryNext (s.mem src i) ≠ none) (hd : entryNext (s'.mem dst i) = some d) :
    Radix.Within entryNext (fun f => f ∈ pmmClearPages s.pmm) s'.mem n d := by
  obtain ⟨t, ht⟩ := ne_none_iff_exists'.mp hsome
  obtain ⟨d', hd', hcopy⟩ := h.copy i hi t ht
  obtain rfl : d = d' := some.inj (hd.symm.trans hd')
  exact hcopy.within.mono fun f hf => hf.1

/-- The source below the entries `l` is in use and not under construction. -/
def SourceOk (n : Nat) (l : List (Fin 512)) (s : Vm) (src dst : Nat) : Prop :=
  ∀ i ∈ l, ∀ t, entryNext (s.mem src i) = some t →
    Radix.Within entryNext (fun f => f ∉ pmmClearPages s.pmm ∧ f ≠ dst) s.mem n t

theorem SourceOk.lastIn (h : SourceOk n l s src dst) (hf : LastIn s.mem n l src f) :
    f ∉ pmmClearPages s.pmm ∧ f ≠ dst := by
  obtain ⟨i, hi, t, ht, hlast⟩ := hf
  exact hlast.mem (h i hi t ht)

/-- The source looks the same after a part of the clone. -/
theorem SourceOk.step (h : SourceOk n l s src dst) (hclones : Clones L (fun f => f = dst) s s')
    (hsrc : src ∉ pmmClearPages s.pmm) (hne : src ≠ dst) :
    SourceOk n l s' src dst ∧ ∀ f, LastIn s'.mem n l src f ↔ LastIn s.mem n l src f := by
  have hnext : ∀ f, f ∉ pmmClearPages s.pmm ∧ f ≠ dst → ∀ i,
      entryNext (s'.mem f i) = entryNext (s.mem f i) := fun f hf i => hclones.entryNext_eq hf.1 hf.2 i
  constructor
  · intro i hi t ht
    rw [hnext src ⟨hsrc, hne⟩] at ht
    refine ((h i hi t ht).congr hnext).mono fun f hf => ?_
    exact ⟨fun hmem => hf.1 (hclones.subset hmem), hf.2⟩
  intro f
  unfold LastIn
  constructor
  · rintro ⟨i, hi, t, ht, hlast⟩
    rw [hnext src ⟨hsrc, hne⟩] at ht
    exact ⟨i, hi, t, ht, (Radix.Last.congr hnext (h i hi t ht)).mp hlast⟩
  · rintro ⟨i, hi, t, ht, hlast⟩
    exact ⟨i, hi, t, by rw [hnext src ⟨hsrc, hne⟩, ht],
      (Radix.Last.congr hnext (h i hi t ht)).mpr hlast⟩

/-- A copy made earlier stays one: later parts write to other pages. -/
theorem CopyOf.later {m : PageMem} {free : Finset Nat} (h : CopyOf n m free s' src d)
    (hclones : Clones L X s' s'') (hdisjoint : ∀ f ∈ free, ¬ X f ∧ ¬ L f) :
    CopyOf n m free s'' src d :=
  Radix.Copied.mono (fun _ hf => ⟨hf.1, fun hmem => hf.2 (hclones.subset hmem)⟩)
    (fun f hf => hclones.rows f hf.2 (hdisjoint f hf.1).1 (hdisjoint f hf.1).2) h

/-- A copy of the source as it was in the middle of the clone. -/
theorem CopyOf.earlier (h : CopyOf n s'.mem (pmmClearPages s'.pmm) s'' src d)
    (hclones : Clones L X s s')
    (hU : Radix.Within entryNext (fun f => f ∉ pmmClearPages s.pmm ∧ ¬ X f) s.mem n src) :
    CopyOf n s.mem (pmmClearPages s.pmm) s'' src d := by
  refine Radix.Copied.source hU (fun f hf i =>
    ⟨hclones.entryNext_eq hf.1 hf.2 i, hclones.copyEntry_eq hf.1 hf.2 i⟩) ?_
  exact Radix.Copied.mono (fun _ hf => ⟨hclones.subset hf.1, hf.2⟩) (fun _ _ => rfl) h

/-- Linking the copy of a table. -/
theorem linkCopy_clones (hpmm : PmmOk s.pmm) (e : BitVec 64) :
    Clones (fun _ => False) (fun f => f = dst) s { s with mem := writeEntry s.mem dst i e } :=
  Clones.of_rows hpmm subset_rfl (fun _ _ hf => update_of_ne hf _ _) rfl rfl rfl

/-- The state after the table below entry `i` has been cloned and linked. -/
def linked (s : Vm) (dst : Nat) (i : Fin 512) (page : Nat) : Vm :=
  { s with mem := writeEntry s.mem dst i (tableEntry page) }

theorem linked_mem : (linked s dst i page).mem = writeEntry s.mem dst i (tableEntry page) := rfl

/-- A table cloned and linked, as a part of the clone. -/
theorem TableCloned.linked_clones (h : TableCloned n s s' t page)
    (hwithin : Radix.Within entryNext (fun f => f ∉ pmmClearPages s.pmm ∧ f ≠ dst) s.mem n t) :
    Clones (Radix.Last entryNext s.mem n t) (fun f => f = dst) s (linked s' dst i page) := by
  have hpart : Clones (Radix.Last entryNext s.mem n t) (fun f => f = dst) s s' :=
    h.clones.strengthen fun _ hfalse => hfalse.elim
  exact (hpart.trans (linkCopy_clones hpart.pmm _) (fun f hf => hf.mem hwithin)
    fun f hf => hf.elim).congr fun f => by simp

/-- The first entry with a table, then the others. -/
theorem RowCloned.cons (hsrc : src ∉ pmmClearPages s.pmm) (hdst : dst ∉ pmmClearPages s.pmm)
    (hne : src ≠ dst) (hsource : SourceOk n (i :: l) s src dst) (hi : i ∉ l)
    (ht : entryNext (s.mem src i) = some t) (htable : TableCloned n s s' t page)
    (hrest : RowCloned n l (linked s' dst i page) s'' src dst) :
    RowCloned n (i :: l) s s'' src dst := by
  have hwithin := hsource i mem_cons_self t ht
  have hfirst := htable.linked_clones (i := i) hwithin
  have hsource' : SourceOk n l s src dst := fun j hj => hsource j (mem_cons_of_mem i hj)
  obtain ⟨-, hlast⟩ := hsource'.step hfirst hsrc hne
  have hlater := hrest.clones.congr fun f => (hlast f).symm
  have hsrcRow : ∀ j, entryNext ((linked s' dst i page).mem src j) = entryNext (s.mem src j) :=
    fun j => hfirst.entryNext_eq hsrc hne j
  have hdstRow : ∀ j, j ≠ i → (linked s' dst i page).mem dst j = s.mem dst j := by
    intro j hj
    have hrow := htable.clones.rows dst hdst id fun hmem => (hmem.mem hwithin).2 rfl
    rw [linked_mem, writeEntry_apply, if_neg fun hboth => hj hboth.2, hrow]
  have hne_of_mem : ∀ j ∈ l, j ≠ i := by
    rintro j hj rfl
    exact hi hj
  have hfree : ∀ f ∈ pmmClearPages s.pmm, ¬ f = dst := by
    rintro f hf rfl
    exact hdst hf
  -- The copy of the first table stays as it is, and the others lie in other pages.
  have hfirstWithin := htable.copy.within
  have hkept : ∀ f, f ∈ pmmClearPages s.pmm ∧ f ∉ pmmClearPages s'.pmm → s''.mem f = s'.mem f := by
    rintro f ⟨hf, hused⟩
    rw [hlater.rows f hused (hfree f hf) fun hmem => (hsource'.lastIn hmem).1 hf, linked_mem,
      writeEntry, update_of_ne (hfree f hf)]
  have hfirstEntry : entryNext (s''.mem dst i) = some (page / pageSize) := by
    rw [hrest.keep i hi, linked_mem, writeEntry_apply, if_pos ⟨rfl, rfl⟩, htable.next]
  have hfirstWithin'' : Radix.Within entryNext (fun f => f ∉ pmmClearPages s'.pmm) s''.mem n
      (page / pageSize) := by
    refine Radix.within_of_tableAt fun q f hq hf => ?_
    rw [hfirstWithin.tableAt_eq hkept hq] at hf
    exact (hfirstWithin.tableAt hq hf).2
  have hrestWithin : ∀ j ∈ l, ∀ d, entryNext (s.mem src j) ≠ none →
      entryNext (s''.mem dst j) = some d →
      Radix.Within entryNext (fun f => f ∈ pmmClearPages s'.pmm) s''.mem n d := by
    intro j hj d hsome hd
    exact hrest.within hj (hsrcRow j ▸ hsome) hd
  refine ⟨?_, fun j hj => ?_, fun j hj hnone => ?_, fun j hj t' ht' => ?_, fun j hj d hsome hd => ?_,
    fun j hj k hk hjk d d' hsome hsome' hd hd' => ?_⟩
  · refine (hfirst.trans hlater (fun f hf => hf.mem hwithin) fun f hf => hsource'.lastIn hf).congr
      fun f => ?_
    simp only [LastIn, mem_cons, exists_eq_or_imp, ht, some.injEq, exists_eq_left']
  · rw [mem_cons, not_or] at hj
    rw [hrest.keep j hj.2, hdstRow j hj.1]
  · rcases mem_cons.mp hj with rfl | hj
    · rw [ht] at hnone
      cases hnone
    · rw [hrest.absent j hj ((hsrcRow j).trans hnone), hdstRow j (hne_of_mem j hj)]
  · rcases mem_cons.mp hj with rfl | hj
    · rw [ht] at ht'
      cases ht'
      refine ⟨page / pageSize, hfirstEntry, ?_⟩
      refine (htable.copy.later (linkCopy_clones htable.clones.pmm _)
        fun f hf => ⟨hfree f hf, id⟩).later hlater fun f hf => ⟨hfree f hf, fun hmem => ?_⟩
      exact (hsource'.lastIn hmem).1 hf
    · obtain ⟨d, hd, hcopy⟩ := hrest.copy j hj t' ((hsrcRow j).trans ht')
      exact ⟨d, hd, hcopy.earlier hfirst (hsource' j hj t' ht')⟩
  · rcases mem_cons.mp hj with rfl | hj
    · obtain rfl := some.inj (hfirstEntry.symm.trans hd)
      exact htable.tree.of_within hfirstWithin hkept
    · exact hrest.trees j hj d (hsrcRow j ▸ hsome) hd
  · rcases mem_cons.mp hj with rfl | hj' <;> rcases mem_cons.mp hk with rfl | hk'
    · exact absurd rfl hjk
    · obtain rfl := some.inj (hfirstEntry.symm.trans hd)
      exact Radix.apart_of_within hfirstWithin'' (hrestWithin k hk' d' hsome' hd') fun f hf => hf
    · obtain rfl := some.inj (hfirstEntry.symm.trans hd')
      exact Radix.apart_of_within (hrestWithin j hj' d hsome hd) hfirstWithin'' fun f hf => not_not.mpr hf
    · exact hrest.apart j hj' k hk' hjk d d' (hsrcRow j ▸ hsome) (hsrcRow k ▸ hsome') hd hd'

theorem cloneEntries_spec
    (hrec : ∀ s s' src page, PmmOk s.pmm →
      Radix.Within entryNext (fun f => f ∉ pmmClearPages s.pmm) s.mem n src →
      cloneTable n s src = (some page, s') → TableCloned n s s' src page)
    (hpmm : PmmOk s.pmm) (hl : l.Nodup) (hsrc : src ∉ pmmClearPages s.pmm)
    (hdst : dst ∉ pmmClearPages s.pmm) (hne : src ≠ dst) (hsource : SourceOk n l s src dst)
    (hrun : cloneEntries (cloneRound (cloneTable n) src dst) l s = (true, s')) :
    RowCloned n l s s' src dst := by
  induction l generalizing s with
  | nil =>
    cases hrun
    refine ⟨?_, fun _ _ => rfl, by simp, by simp, by simp, by simp⟩
    exact (Clones.of_rows hpmm subset_rfl (fun _ _ _ => rfl) rfl rfl rfl).congr fun f => by simp [LastIn]
  | cons i l ih =>
    obtain ⟨hi, hl⟩ := nodup_cons.mp hl
    have hsource' : SourceOk n l s src dst := fun j hj => hsource j (mem_cons_of_mem i hj)
    rw [cloneEntries, cloneRound] at hrun
    cases hpresent : present (s.mem src i) with
    | false =>
      have hnone : entryNext (s.mem src i) = none := by simp [entryNext, hpresent]
      rw [hpresent, if_neg Bool.false_ne_true] at hrun
      have hrest := ih hpmm hl hsrc hdst hsource' hrun
      have hmem : ∀ j ∈ i :: l, entryNext (s.mem src j) ≠ none → j ∈ l := by
        intro j hj hsome
        rcases mem_cons.mp hj with rfl | hj
        · exact absurd hnone hsome
        · exact hj
      refine ⟨hrest.clones.congr fun f => ?_, fun j hj => ?_, fun j hj hj' => ?_,
        fun j hj t ht => hrest.copy j (hmem j hj (by simp [ht])) t ht,
        fun j hj d hsome => hrest.trees j (hmem j hj hsome) d hsome,
        fun j hj k hk hjk d d' hsome hsome' =>
          hrest.apart j (hmem j hj hsome) k (hmem k hk hsome') hjk d d' hsome hsome'⟩
      · simp [LastIn, hnone]
      · exact hrest.keep j fun hmem => hj (mem_cons_of_mem i hmem)
      · rcases mem_cons.mp hj with rfl | hj
        · exact hrest.keep j hi
        · exact hrest.absent j hj hj'
    | true =>
      rw [hpresent, if_pos rfl] at hrun
      obtain ⟨t, ht⟩ : ∃ t, entryNext (s.mem src i) = some t :=
        ⟨_, by rw [entryNext, hpresent, if_pos rfl]⟩
      have htframe : entryFrame (s.mem src i) = t := by
        rw [entryNext, hpresent, if_pos rfl] at ht
        exact some.inj ht
      have hwithin := hsource i mem_cons_self t ht
      rw [htframe] at hrun
      cases hclone : cloneTable n s t with
      | mk result s₁ =>
        rw [hclone] at hrun
        cases result with
        | none => cases hrun
        | some page =>
          have htable := hrec s s₁ t page hpmm (hwithin.mono fun f hf => hf.1) hclone
          have hfirst := htable.linked_clones (i := i) hwithin
          obtain ⟨hsource₁, -⟩ := hsource'.step hfirst hsrc hne
          have hrest := ih hfirst.pmm hl (fun hmem => hsrc (hfirst.subset hmem))
            (fun hmem => hdst (hfirst.subset hmem)) hsource₁ hrun
          exact RowCloned.cons hsrc hdst hne hsource hi ht htable hrest

/-- `s₁` is `s` with the page `f` taken from the allocator and cleared. -/
structure PageCleared (s s₁ : Vm) (f : Nat) : Prop where
  fresh : f ∈ pmmClearPages s.pmm
  start : Clones (fun _ => False) (fun g => g = f) s s₁
  clear : pmmClearPages s₁.pmm = (pmmClearPages s.pmm).erase f
  zero : ∀ i, s₁.mem f i = 0
  others : ∀ g, g ≠ f → s₁.mem g = s.mem g

theorem PageCleared.used (h : PageCleared s s' f) : f ∉ pmmClearPages s'.pmm :=
  h.clear ▸ Finset.notMem_erase f _

/-- A new table starts as a page of its own, if there is one, taken and cleared. -/
theorem newPageTable_cases (hpmm : PmmOk s.pmm) :
    (pmmClearPages s.pmm = ∅ ∧ ∀ fill, newPageTable s fill = (none, s)) ∨
    ∃ f s₁, PageCleared s s₁ f ∧ ∀ fill, newPageTable s fill =
      match fill s₁ f with
      | (true, s) => (some (f * pageSize), s)
      | (false, s) => (none, s) := by
  rcases hpmm.allocPage with ⟨hempty, halloc⟩ | ⟨f, hf, pmm, halloc, hpmm', hclear, hrefs, htotal⟩
  · refine .inl ⟨hempty, fun fill => ?_⟩
    simp [newPageTable, halloc]
  have hne := hpmm.address_ne hf
  have hstart : Clones (fun _ => False) (fun g => g = f) s
      { s with mem := clearTable s.mem f, pmm := pmm } := by
    refine Clones.of_rows hpmm' ?_ (fun g _ hg => update_of_ne hg _ _) hrefs htotal rfl
    exact hclear ▸ Finset.erase_subset f _
  refine .inr ⟨f, _, ⟨hf, hstart, hclear, fun i => (clearTable_apply s.mem f).trans (if_pos rfl),
    fun g hg => update_of_ne hg _ _⟩, fun fill => ?_⟩
  rcases hfill : fill { s with mem := clearTable s.mem f, pmm := pmm } f with ⟨_ | _, t⟩
  · simp only [newPageTable, halloc, if_neg hne, frame_address, hfill]
  · simp only [newPageTable, halloc, if_neg hne, frame_address, hfill]

theorem newPageTable_spec {fill : Vm → Nat → Bool × Vm} (hpmm : PmmOk s.pmm)
    (hrun : newPageTable s fill = (some page, s')) :
    ∃ f s₁, page = f * pageSize ∧ PageCleared s s₁ f ∧ fill s₁ f = (true, s') := by
  rcases newPageTable_cases hpmm with ⟨-, hnone⟩ | ⟨f, s₁, hcleared, heq⟩
  · rw [hnone] at hrun
    simp at hrun
  rw [heq] at hrun
  split at hrun
  · rename_i s₂ hfill
    simp only [Prod.mk.injEq, some.injEq] at hrun
    obtain ⟨rfl, rfl⟩ := hrun
    exact ⟨f, s₁, rfl, hcleared, hfill⟩
  · simp at hrun

theorem cloneTable_spec (n : Nat) (s s' : Vm) (src page : Nat) (hpmm : PmmOk s.pmm)
    (hsource : Radix.Within entryNext (fun f => f ∉ pmmClearPages s.pmm) s.mem n src)
    (hrun : cloneTable n s src = (some page, s')) : TableCloned n s s' src page := by
  have hsrc := hsource.head
  induction n generalizing s s' src page with
  | zero =>
    rw [cloneTable] at hrun
    obtain ⟨f, s₁, rfl, hcleared, hloop⟩ := newPageTable_spec hpmm hrun
    have hused := hcleared.used
    obtain ⟨hf, hstart, -, hzero, hrows⟩ := hcleared
    rw [Prod.mk.injEq] at hloop
    obtain ⟨-, rfl⟩ := hloop
    have hne : src ≠ f := fun heq => hsrc (heq ▸ hf)
    have hentries := entriesCloned (s := s₁) hne nodup_tableEntries
    have hclones := hentries.clones hstart.pmm
    refine ⟨?_, ?_, fun p q _ hp hq _ _ => ?_, ?_⟩
    · refine ((hstart.trans hclones (fun _ h => h.elim) ?_).strengthen fun g hg => .inr ?_).congr
        fun g => by simp [Radix.Last]
      · rintro g rfl
        exact ⟨hsrc, hne⟩
      · exact hg ▸ hf
    · rw [frame_address]
      refine ⟨⟨hf, fun hmem => hused (hclones.subset hmem)⟩, fun i => ?_⟩
      rw [hentries.copy i (mem_tableEntries i) (hzero i), hrows src hne]
    · rw [length_eq_zero_iff.mp (Nat.le_zero.mp hp), length_eq_zero_iff.mp (Nat.le_zero.mp hq)]
    · rw [frame_address]
      exact entryNext_tableEntry (Nat.lt_trans (hpmm.lt hf) (by decide))
  | succ n ih =>
    rw [cloneTable] at hrun
    obtain ⟨f, s₁, rfl, hcleared, hloop⟩ := newPageTable_spec hpmm hrun
    have hused := hcleared.used
    obtain ⟨hf, hstart, -, hzero, hrows⟩ := hcleared
    have hne : src ≠ f := fun heq => hsrc (heq ▸ hf)
    have hfree : ∀ g, g ∉ pmmClearPages s.pmm → g ≠ f := by
      rintro g hg rfl
      exact hg hf
    have hbelow : ∀ i t, entryNext (s.mem src i) = some t →
        Radix.Within entryNext (fun g => g ∉ pmmClearPages s.pmm ∧ ¬ g = f) s.mem n t :=
      fun i t ht => (hsource.2 i t ht).mono fun g hg => ⟨hg, hfree g hg⟩
    have hsource₀ : SourceOk n tableEntries s src f := fun i _ t ht => hbelow i t ht
    obtain ⟨hsource₁, hlast⟩ := hsource₀.step hstart hsrc hne
    have hrow := cloneEntries_spec (fun s s' src page hp hw hr => ih s s' src page hp hw hr hw.head)
      hstart.pmm nodup_tableEntries (fun hmem => hsrc (hstart.subset hmem)) hused hne hsource₁ hloop
    have hclones := hrow.clones.congr fun g => (hlast g).symm
    -- An entry of the new table leads somewhere only where the source's does.
    have hsome : ∀ i d, entryNext (s'.mem f i) = some d → entryNext (s₁.mem src i) ≠ none := by
      intro i d hd hnone
      rw [hrow.absent i (mem_tableEntries i) hnone, hzero, entryNext_zero] at hd
      cases hd
    refine ⟨?_, ?_, ?_, ?_⟩
    · refine ((hstart.trans hclones (fun _ h => h.elim) fun g hg => hsource₀.lastIn hg).strengthen
        fun g hg => .inr (hg ▸ hf)).congr fun g => ?_
      simp [Radix.Last, LastIn, mem_tableEntries]
    · rw [frame_address]
      refine ⟨⟨hf, fun hmem => hused (hrow.clones.subset hmem)⟩, fun i => ⟨fun hnone => ?_, fun t ht => ?_⟩⟩
      · rw [hrow.absent i (mem_tableEntries i) (by rw [hrows src hne, hnone]), hzero, entryNext_zero]
      · obtain ⟨d, hd, hcopy⟩ := hrow.copy i (mem_tableEntries i) t (by rw [hrows src hne, ht])
        exact ⟨d, hd, hcopy.earlier hstart (hbelow i t ht)⟩
    · rw [frame_address]
      have htree : Radix.IsTree entryNext s'.mem f
          fun q => q.length ≤ n + 1 ∧ ∀ i ∈ q.head?, True := by
        refine Radix.isTree_succ (fun i d _ hd => ?_) (fun i j d d' _ _ hij hd hd' => ?_)
          fun i d _ hd => ?_
        · exact hrow.trees i (mem_tableEntries i) d (hsome i d hd) hd
        · exact hrow.apart i (mem_tableEntries i) j (mem_tableEntries j) hij d d' (hsome i d hd)
            (hsome j d' hd') hd hd'
        · exact (hrow.within (mem_tableEntries i) (hsome i d hd) hd).mono
            fun g hg heq => hused (heq ▸ hg)
      exact fun p q g hp hq => htree p q g ⟨hp, fun _ _ => trivial⟩ ⟨hq, fun _ _ => trivial⟩
    · rw [frame_address]
      exact entryNext_tableEntry (Nat.lt_trans (hpmm.lt hf) (by decide))

/-! ## Address spaces -/

/-- What a successful `vm_clone_space` achieves for the user halves of the two spaces. -/
structure SpaceCloned (s s' : Vm) (src dst : Nat) : Prop where
  clones : Clones (fun f => ∃ q, LowPath q ∧ q.length = 3 ∧ s.tableAt src q = some f)
    (fun _ => False) s s'
  fresh : dst ∈ pmmClearPages s.pmm
  tables : ∀ q f, LowPath q → s'.tableAt dst q = some f →
    f ∈ pmmClearPages s.pmm ∧ f ∉ pmmClearPages s'.pmm
  tree : Radix.IsTree entryNext s'.mem dst LowPath
  pages : ∀ q i, LowPath q → q.length = 3 →
    s'.pageAt dst q i = (s.pageAt src q i).map shareEntry

theorem presentEntry_copyEntry (e : BitVec 64) :
    presentEntry (copyEntry e) = (presentEntry e).map shareEntry := by
  unfold presentEntry copyEntry
  cases hp : present e with
  | false => exact if_neg (show ¬ present 0 = true by decide)
  | true => simp [hp]

theorem presentEntry_shareEntry (e : BitVec 64) :
    presentEntry (shareEntry e) = (presentEntry e).map shareEntry := by
  unfold presentEntry
  rw [present_shareEntry]
  split <;> rfl

/-- The tables of an address space are in use. -/
def TablesUsed (s : Vm) (root : Nat) : Prop :=
  ∀ q f, LowPath q → s.tableAt root q = some f → f ∉ pmmClearPages s.pmm

theorem lowPath_cons {i : Fin 512} {q : List (Fin 512)} :
    LowPath (i :: q) ↔ q.length ≤ 2 ∧ i.val < 256 := by
  constructor
  · rintro ⟨hlen, hlow⟩
    rw [length_cons] at hlen
    exact ⟨by omega, hlow i rfl⟩
  · rintro ⟨hlen, hlow⟩
    refine ⟨by rw [length_cons]; omega, fun j hj => ?_⟩
    obtain rfl : i = j := some.inj hj
    exact hlow

theorem TablesUsed.below (h : TablesUsed s src) (hi : i.val < 256)
    (ht : entryNext (s.mem src i) = some t) :
    Radix.Within entryNext (fun f => f ∉ pmmClearPages s.pmm) s.mem 2 t := by
  refine Radix.within_of_tableAt fun q f hq hf => h (i :: q) f (lowPath_cons.mpr ⟨hq, hi⟩) ?_
  rw [Vm.tableAt, Radix.tableAt_cons, ht]
  exact hf

theorem lastIn_userEntries : LastIn s.mem 2 userEntries src f ↔
    ∃ q, LowPath q ∧ q.length = 3 ∧ s.tableAt src q = some f := by
  constructor
  · rintro ⟨i, hi, t, ht, hlast⟩
    obtain ⟨q, hq, hf⟩ := Radix.last_iff.mp hlast
    refine ⟨i :: q, lowPath_cons.mpr ⟨hq.le, mem_userEntries.mp hi⟩, by rw [length_cons, hq], ?_⟩
    rw [Vm.tableAt, Radix.tableAt_cons, ht]
    exact hf
  · rintro ⟨q, hq, hlen, hf⟩
    cases q with
    | nil => cases hlen
    | cons i q =>
      rw [Vm.tableAt, Radix.tableAt_cons, bind_eq_some_iff] at hf
      obtain ⟨t, ht, hf⟩ := hf
      exact ⟨i, mem_userEntries.mpr (lowPath_cons.mp hq).2, t, ht,
        Radix.last_iff.mpr ⟨q, Nat.succ.inj hlen, hf⟩⟩

/-- A new top table, as a part of the clone. -/
theorem NewSpace.clones {space : VmSpace} (h : NewSpace s s' space) :
    Clones (fun _ => False) (fun f => f = space.root) s s' :=
  Clones.of_rows h.pmm (h.clear ▸ Finset.erase_subset _ _) (fun f _ hf => h.others f hf)
    h.refs h.total h.kernel

/-- The loop over the user half of a new address space. -/
theorem NewSpace.cloned {space : VmSpace} (hnew : NewSpace s s' space)
    (hused : TablesUsed s src)
    (hloop : cloneEntries (cloneRound (cloneTable 2) src space.root) userEntries s' = (true, s'')) :
    SpaceCloned s s'' src space.root := by
  have hsrc : src ∉ pmmClearPages s.pmm := hused [] src lowPath_nil rfl
  have hne : src ≠ space.root := fun heq => hsrc (heq ▸ hnew.fresh)
  have hroot : space.root ∉ pmmClearPages s'.pmm := hnew.clear ▸ Finset.notMem_erase _ _
  have hstart := hnew.clones
  have hbelow : ∀ i t, i.val < 256 → entryNext (s.mem src i) = some t →
      Radix.Within entryNext (fun f => f ∉ pmmClearPages s.pmm ∧ ¬ f = space.root) s.mem 2 t :=
    fun i t hi ht => (hused.below hi ht).mono fun f hf => ⟨hf, fun heq => hf (heq ▸ hnew.fresh)⟩
  have hsource : SourceOk 2 userEntries s src space.root :=
    fun i hi t ht => hbelow i t (mem_userEntries.mp hi) ht
  obtain ⟨hsource', hlast⟩ := hsource.step hstart hsrc hne
  have hrow := cloneEntries_spec (cloneTable_spec 2) hstart.pmm nodup_userEntries
    (fun hmem => hsrc (hstart.subset hmem)) hroot hne hsource' hloop
  have hclones : Clones (LastIn s.mem 2 userEntries src) (fun _ => False) s s'' :=
    ((hstart.trans (hrow.clones.congr fun f => (hlast f).symm) (fun _ h => h.elim)
      fun f hf => hsource.lastIn hf).strengthen fun f hf => .inr (hf ▸ hnew.fresh)).congr
        fun f => by simp
  -- Each entry of the user half is empty in both spaces or leads to a table and its copy.
  have hentry : ∀ i : Fin 512, i.val < 256 →
      (entryNext (s.mem src i) = none ∧ entryNext (s''.mem space.root i) = none) ∨
      ∃ t d, entryNext (s.mem src i) = some t ∧ entryNext (s''.mem space.root i) = some d ∧
        CopyOf 2 s.mem (pmmClearPages s.pmm) s'' t d := by
    intro i hi
    have hsame : entryNext (s'.mem src i) = entryNext (s.mem src i) := by rw [hnew.others src hne]
    cases ht : entryNext (s.mem src i) with
    | none =>
      rw [ht] at hsame
      left
      rw [hrow.absent i (mem_userEntries.mpr hi) hsame, hnew.row, if_neg (Nat.not_le.mpr hi)]
      exact ⟨rfl, entryNext_zero⟩
    | some t =>
      rw [ht] at hsame
      obtain ⟨d, hd, hcopy⟩ := hrow.copy i (mem_userEntries.mpr hi) t hsame
      exact .inr ⟨t, d, rfl, hd, hcopy.earlier hstart (hbelow i t hi ht)⟩
  have hsome : ∀ (i : Fin 512) d, i.val < 256 → entryNext (s''.mem space.root i) = some d →
      entryNext (s'.mem src i) ≠ none := by
    intro i d hi hd hnone
    rw [hrow.absent i (mem_userEntries.mpr hi) hnone, hnew.row, if_neg (Nat.not_le.mpr hi),
      entryNext_zero] at hd
    cases hd
  refine ⟨hclones.congr fun f => lastIn_userEntries.symm, hnew.fresh, fun q f hq hf => ?_, ?_,
    fun q j hq hlen => ?_⟩
  · cases q with
    | nil =>
      cases hf
      exact ⟨hnew.fresh, fun hmem => hroot (hrow.clones.subset hmem)⟩
    | cons i q =>
      obtain ⟨hq, hi⟩ := lowPath_cons.mp hq
      rw [Vm.tableAt, Radix.tableAt_cons] at hf
      rcases hentry i hi with ⟨-, hnone⟩ | ⟨t, d, -, hd, hcopy⟩
      · rw [hnone] at hf
        cases hf
      rw [hd, bind_some] at hf
      rcases hcopy.tableAt_eq hq with ⟨-, hnone⟩ | ⟨g, g', -, hg', hN, -⟩
      · rw [hnone] at hf
        cases hf
      · rw [hg'] at hf
        cases hf
        exact hN
  · refine Radix.isTree_succ (fun i d hi hd => ?_) (fun i j d d' hi hj hij hd hd' => ?_)
      fun i d hi hd => ?_
    · exact hrow.trees i (mem_userEntries.mpr hi) d (hsome i d hi hd) hd
    · exact hrow.apart i (mem_userEntries.mpr hi) j (mem_userEntries.mpr hj) hij d d'
        (hsome i d hi hd) (hsome j d' hj hd') hd hd'
    · exact (hrow.within (mem_userEntries.mpr hi) (hsome i d hi hd) hd).mono
        fun g hg heq => hroot (heq ▸ hg)
  · cases q with
    | nil => cases hlen
    | cons i q =>
      obtain ⟨hq, hi⟩ := lowPath_cons.mp hq
      rw [Vm.pageAt, Vm.pageAt, Vm.tableAt, Vm.tableAt, Radix.tableAt_cons, Radix.tableAt_cons]
      rcases hentry i hi with ⟨hnone, hnone'⟩ | ⟨t, d, ht, hd, hcopy⟩
      · rw [hnone, hnone']
        rfl
      rw [ht, hd, bind_some, bind_some]
      rcases hcopy.tableAt_eq hq with ⟨hnone, hnone'⟩ | ⟨g, g', hg, hg', -, hpages⟩
      · rw [hnone, hnone']
        rfl
      · rw [hg, hg', bind_some, bind_some, hpages (Nat.succ.inj hlen) j, presentEntry_copyEntry]

theorem vmCloneSpace_spec {src dst : VmSpace} (hpmm : PmmOk s.pmm)
    (hkernel : s.kernelPml4 / pageSize ∉ pmmClearPages s.pmm) (hused : TablesUsed s src.root)
    (hrun : vmCloneSpace s src = (some dst, s')) : SpaceCloned s s' src.root dst.root := by
  rw [vmCloneSpace] at hrun
  cases hcreate : vmCreateSpace s with
  | mk result s₁ =>
    rw [hcreate] at hrun
    cases result with
    | none => simp at hrun
    | some space =>
      dsimp only at hrun
      have hnew := vmCreateSpace_spec hpmm hkernel hcreate
      cases hloop : cloneEntries (cloneRound (cloneTable 2) src.root space.root) userEntries s₁ with
      | mk done s₂ =>
        rw [hloop] at hrun
        cases done with
        | false => simp at hrun
        | true =>
          simp only [Prod.mk.injEq, some.injEq] at hrun
          obtain ⟨rfl, rfl⟩ := hrun
          exact hnew.cloned hused hloop

variable {root : Nat} {q : List (Fin 512)}

/-- The tables of spaces that were there before stay. -/
theorem SpaceCloned.tableAt_eq (h : SpaceCloned s s' src dst) (hused : TablesUsed s root)
    (hq : LowPath q) : s'.tableAt root q = s.tableAt root q :=
  Radix.tableAt_congr lowPath_closed
    (fun p i f hp hf => h.clones.entryNext_eq (hused p f hp.of_append hf) id i) hq

/-- The pages of the source become shared. -/
theorem SpaceCloned.source (h : SpaceCloned s s' src dst) (hused : TablesUsed s src)
    (hq : LowPath q) (hlen : q.length = 3) :
    s'.pageAt src q j = (s.pageAt src q j).map shareEntry := by
  rw [Vm.pageAt, Vm.pageAt, h.tableAt_eq hused hq]
  cases hf : s.tableAt src q with
  | none => rfl
  | some f =>
    rw [bind_some, bind_some, h.clones.last f ⟨q, hq, hlen, hf⟩, presentEntry_shareEntry]

end OpenSys
