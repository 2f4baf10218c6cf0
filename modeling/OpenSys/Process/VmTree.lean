-- SUMMARY: The user half of an address space as a tree of tables.
import OpenSys.Memory.PmmSpec
import OpenSys.Process.Vm

/-!
# The page tables as a tree

The tables that the user half of an address space reaches form a tree: no two
paths lead to the same page frame, and every frame in it is in use. `get_pte` only
ever hangs new tables, taken from the page allocator, into this tree.
-/

namespace OpenSys

open Option List Finset Radix Vm

/-! ## Bits of entries -/

variable {k virt : Nat} {path : List (Fin 512)} {space : VmSpace}

theorem and_bit_eq_zero_iff (e : BitVec 64) (hk : k < 64) :
    e &&& 1#64 <<< k = 0#64 ↔ e.getLsbD k = false := by
  have h := Bitmap.and_mask_eq_zero_iff (m := fun _ => e) (i := k)
  rwa [Bitmap.mask, Bitmap.get, Nat.mod_eq_of_lt hk] at h

/-- A test of one flag, as the code writes it. -/
theorem and_bit_bne (e : BitVec 64) (hk : k < 64) : (e &&& 1#64 <<< k != 0#64) = e.getLsbD k := by
  rw [Bool.eq_iff_iff, bne_iff_ne, ne_eq, and_bit_eq_zero_iff e hk, Bool.not_eq_false]

theorem present_eq (e : BitVec 64) : present e = e.getLsbD 0 := and_bit_bne e (k := 0) (by decide)

theorem getLsbD_addrMask (hk : k < 64) : addrMask.getLsbD k = decide (12 ≤ k ∧ k < 52) := by
  have h : ∀ k : Fin 64, addrMask.getLsbD k = decide (12 ≤ k.val ∧ k.val < 52) := by decide
  exact h ⟨k, hk⟩

/-- The address of a page frame has address bits only. -/
theorem page_and_addrMask {f : Nat} (hf : f < 2 ^ 40) :
    BitVec.ofNat 64 (f * pageSize) &&& addrMask = BitVec.ofNat 64 (f * pageSize) := by
  apply BitVec.eq_of_getLsbD_eq
  intro k hk
  rw [BitVec.getLsbD_and, getLsbD_addrMask hk, BitVec.getLsbD_ofNat]
  have hbit : (f * pageSize).testBit k = true → 12 ≤ k ∧ k < 52 := by
    intro htest
    rw [show pageSize = 2 ^ 12 from rfl, Nat.testBit_mul_two_pow] at htest
    simp only [Bool.and_eq_true, decide_eq_true_eq] at htest
    refine ⟨htest.1, ?_⟩
    by_contra hlarge
    rw [Nat.testBit_lt_two_pow (Nat.lt_of_lt_of_le hf (Nat.pow_le_pow_right (by decide) (by omega)))]
      at htest
    cases htest.2
  by_cases htest : (f * pageSize).testBit k = true
  · simp [htest, hbit htest]
  · simp [htest]

theorem toNat_page {f : Nat} (hf : f < 2 ^ 40) :
    (BitVec.ofNat 64 (f * pageSize)).toNat = f * pageSize := by
  rw [BitVec.toNat_ofNat]
  exact Nat.mod_eq_of_lt (by unfold pageSize; omega)

/-- An entry built from a page frame and flags leads to the frame. -/
theorem entryAddr_or {f : Nat} {flags : BitVec 64} (hf : f < 2 ^ 40) (hflags : flags &&& addrMask = 0) :
    entryAddr (BitVec.ofNat 64 (f * pageSize) ||| flags) = f * pageSize := by
  have hand : (BitVec.ofNat 64 (f * pageSize) ||| flags) &&& addrMask =
      BitVec.ofNat 64 (f * pageSize) := by
    rw [BitVec.and_comm, BitVec.and_or_distrib_left, BitVec.and_comm addrMask,
      BitVec.and_comm addrMask, page_and_addrMask hf, hflags]
    exact BitVec.or_zero
  rw [entryAddr, hand, toNat_page hf]

theorem entryFrame_tableEntry {f : Nat} (hf : f < 2 ^ 40) :
    entryFrame (tableEntry (f * pageSize)) = f := by
  rw [entryFrame, tableEntry, BitVec.or_assoc, BitVec.or_assoc, entryAddr_or hf (by decide)]
  exact frame_address f

theorem present_tableEntry (page : Nat) : present (tableEntry page) = true := by
  simp [present_eq, tableEntry, vmFlagPresent]

theorem entryAddr_pageEntry {f : Nat} {flags : BitVec 64} (hf : f < 2 ^ 40)
    (hflags : flags &&& addrMask = 0) : entryAddr (pageEntry (f * pageSize) flags) = f * pageSize := by
  rw [pageEntry, page_and_addrMask hf, BitVec.or_assoc, entryAddr_or hf]
  rw [BitVec.and_comm, BitVec.and_or_distrib_left, BitVec.and_comm addrMask, hflags]
  decide

theorem present_pageEntry (phys : Nat) (flags : BitVec 64) :
    present (pageEntry phys flags) = true := by
  simp [present_eq, pageEntry, vmFlagPresent]

/-! ## Tables and pages -/

/-- The table an entry leads to, for the code: it looks at the present bit only. -/
def entryNext (e : BitVec 64) : Option Nat := if present e then some (entryFrame e) else none

/-- The table at the end of a path from the top table `root`. -/
def Vm.tableAt (s : Vm) (root : Nat) (p : List (Fin 512)) : Option Nat :=
  Radix.tableAt entryNext s.mem root p

/-- The entry itself, when present. -/
def presentEntry (e : BitVec 64) : Option (BitVec 64) := if present e then some e else none

/-- The page entry at index `i` of the table at the end of `p`, when present. -/
def Vm.pageAt (s : Vm) (root : Nat) (p : List (Fin 512)) (i : Fin 512) : Option (BitVec 64) :=
  (s.tableAt root p).bind fun t => presentEntry (s.mem t i)

/-- A path of at most three indices into the user half. -/
def LowPath (p : List (Fin 512)) : Prop := p.length ≤ 3 ∧ ∀ i ∈ p.head?, i.val < 256

theorem LowPath.of_append {p q : List (Fin 512)} (h : LowPath (p ++ q)) : LowPath p := by
  obtain ⟨hlen, hlow⟩ := h
  refine ⟨by simp at hlen; omega, fun j hj => hlow j ?_⟩
  cases p with
  | nil => cases hj
  | cons k p => exact hj

theorem lowPath_closed : Radix.Closed LowPath := fun _ _ => LowPath.of_append

/-- The tables of the user half below `root` are a tree of pages in use. -/
structure TreeOk (s : Vm) (root : Nat) : Prop where
  pmm : PmmOk s.pmm
  tree : Radix.IsTree entryNext s.mem root LowPath
  used : ∀ p f, LowPath p → s.tableAt root p = some f → f ∉ pmmClearPages s.pmm

variable {s s' s'' : Vm} {root t f : Nat} {p q : List (Fin 512)} {i j : Fin 512}
  {new new' : Finset (List (Fin 512))} {e : BitVec 64}

@[simp] theorem entryNext_zero : entryNext 0 = none := by decide

theorem entryNext_tableEntry (hf : f < 2 ^ 40) : entryNext (tableEntry (f * pageSize)) = some f := by
  rw [entryNext, present_tableEntry, if_pos rfl, entryFrame_tableEntry hf]

theorem Vm.tableAt_concat :
    s.tableAt root (p ++ [i]) = (s.tableAt root p).bind fun t => entryNext (s.mem t i) :=
  Radix.tableAt_concat

theorem writeEntry_apply (m : PageMem) (g : Nat) :
    writeEntry m t i e g j = if g = t ∧ j = i then e else m g j := by
  unfold writeEntry
  by_cases hg : g = t
  · subst hg
    by_cases hj : j = i
    · subst hj
      simp
    · simp [hj]
  · simp [hg]

theorem clearTable_apply (m : PageMem) (g : Nat) :
    clearTable m t g j = if g = t then 0 else m g j := by
  unfold clearTable
  by_cases hg : g = t <;> simp [hg]

/-! ## Growing the tree -/

/-- From `s` to `s'` the tables at the paths `new` have been added, each on a page of
    its own from the allocator, and nothing else has changed. -/
structure Grows (root : Nat) (s s' : Vm) (new : Finset (List (Fin 512))) : Prop where
  ok : TreeOk s' root
  low : ∀ q ∈ new, LowPath q
  old : ∀ q, LowPath q → q ∉ new → s'.tableAt root q = s.tableAt root q
  absent : ∀ q ∈ new, s.tableAt root q = none
  added : ∀ q ∈ new, ∃ f ∈ pmmClearPages s.pmm, s'.tableAt root q = some f ∧
    (q.length = 3 → ∀ i, s'.mem f i = 0)
  subset : pmmClearPages s'.pmm ⊆ pmmClearPages s.pmm
  card : (pmmClearPages s'.pmm).card + new.card = (pmmClearPages s.pmm).card
  /-- In pages that were in use, only the entries that link new tables change. -/
  rows : ∀ f ∉ pmmClearPages s.pmm, ∀ i, s'.mem f i = s.mem f i ∨
    ∃ q, q ++ [i] ∈ new ∧ s.tableAt root q = some f
  refs : s'.pmm.refCounts = s.pmm.refCounts
  total : s'.pmm.totalPages = s.pmm.totalPages
  kernel : s'.kernelPml4 = s.kernelPml4

theorem Grows.refl (h : TreeOk s root) : Grows root s s ∅ where
  ok := h
  low := by simp
  old := fun _ _ _ => rfl
  absent := by simp
  added := by simp
  subset := subset_rfl
  card := rfl
  rows := fun _ _ _ => .inl rfl
  refs := rfl
  total := rfl
  kernel := rfl

theorem Grows.trans (h : Grows root s s' new) (h' : Grows root s' s'' new') :
    Grows root s s'' (new ∪ new') := by
  have hdisjoint : Disjoint new new' := by
    rw [Finset.disjoint_left]
    intro q hq hq'
    obtain ⟨f, -, hf, -⟩ := h.added q hq
    rw [h'.absent q hq'] at hf
    cases hf
  refine ⟨h'.ok, ?_, ?_, ?_, ?_, h'.subset.trans h.subset, ?_, ?_, h'.refs.trans h.refs,
    h'.total.trans h.total, h'.kernel.trans h.kernel⟩
  · intro q hq
    rcases mem_union.mp hq with hq | hq
    · exact h.low q hq
    · exact h'.low q hq
  · intro q hlow hq
    rw [mem_union, not_or] at hq
    rw [h'.old q hlow hq.2, h.old q hlow hq.1]
  · intro q hq
    rcases mem_union.mp hq with hq | hq
    · exact h.absent q hq
    · have hnot : q ∉ new := disjoint_right.mp hdisjoint hq
      rw [← h.old q (h'.low q hq) hnot]
      exact h'.absent q hq
  · intro q hq
    rcases mem_union.mp hq with hq | hq
    · -- A table of the first part keeps its place, and its row when it is a last one.
      obtain ⟨f, hf, htable, hzero⟩ := h.added q hq
      have hnot : q ∉ new' := disjoint_left.mp hdisjoint hq
      refine ⟨f, hf, by rw [h'.old q (h.low q hq) hnot, htable], fun hlen i => ?_⟩
      rcases h'.rows f (h.ok.used q f (h.low q hq) htable) i with hrow | ⟨q', hq', htable'⟩
      · rw [hrow, hzero hlen i]
      have hlow' := h'.low _ hq'
      have heq := h.ok.tree q' q f (lowPath_closed q' i hlow') (h.low q hq) htable' htable
      have hlong := hlow'.1
      rw [heq, length_append, hlen] at hlong
      simp at hlong
    · obtain ⟨f, hf, hrest⟩ := h'.added q hq
      exact ⟨f, h.subset hf, hrest⟩
  · rw [card_union_of_disjoint hdisjoint, ← h.card, ← h'.card]
    omega
  · intro f hf i
    rcases h'.rows f (fun hf' => hf (h.subset hf')) i with hrow | ⟨q, hq, htable⟩
    · rcases h.rows f hf i with hrow' | ⟨q, hq, htable⟩
      · exact .inl (hrow.trans hrow')
      · exact .inr ⟨q, mem_union_left _ hq, htable⟩
    refine .inr ⟨q, mem_union_right _ hq, ?_⟩
    have hlow := lowPath_closed q i (h'.low _ hq)
    by_cases hnew : q ∈ new
    · obtain ⟨g, hg, hgtable, -⟩ := h.added q hnew
      rw [htable] at hgtable
      cases hgtable
      exact absurd hg hf
    · rw [← h.old q hlow hnew, htable]

/-- A frame in use that is no table yet is cleared and linked. -/
theorem TreeOk.hang (h : TreeOk s root) (hlow : LowPath (p ++ [i])) (ht : s.tableAt root p = some t)
    (habsent : present (s.mem t i) = false) (hf40 : f < 2 ^ 40)
    (hfresh : ∀ q, LowPath q → s.tableAt root q ≠ some f) {pmm : Pmm} (hpmm : PmmOk pmm)
    (hsubset : pmmClearPages pmm ⊆ pmmClearPages s.pmm) (hused : f ∉ pmmClearPages pmm)
    (hs' : s' = { s with
      mem := writeEntry (clearTable s.mem f) t i (tableEntry (f * pageSize)), pmm := pmm }) :
    TreeOk s' root ∧ ∀ q, LowPath q →
      s'.tableAt root q = if q = p ++ [i] then some f else s.tableAt root q := by
  subst hs'
  have hlowp := lowPath_closed p i hlow
  have htf : f ≠ t := fun heq => hfresh p hlowp (heq ▸ ht)
  have hrow : ∀ g j, writeEntry (clearTable s.mem f) t i (tableEntry (f * pageSize)) g j =
      if g = t ∧ j = i then tableEntry (f * pageSize) else if g = f then 0 else s.mem g j := by
    intro g j
    rw [writeEntry_apply, clearTable_apply]
  have htables : ∀ q, LowPath q → tableAt entryNext
      (writeEntry (clearTable s.mem f) t i (tableEntry (f * pageSize))) root q =
        if q = p ++ [i] then some f else s.tableAt root q := by
    intro q hq
    refine tableAt_link lowPath_closed h.tree hlowp ht (by simp [entryNext, habsent]) hfresh ?_ ?_ ?_ hq
    · intro j
      rw [hrow, if_neg (fun hfj => htf hfj.1), if_pos rfl, entryNext_zero]
    · rw [hrow, if_pos ⟨rfl, rfl⟩, entryNext_tableEntry hf40]
    · intro g j hgf hgj
      rw [hrow, if_neg (fun hboth => hgj (by rw [hboth.1, hboth.2])), if_neg hgf]
  refine ⟨⟨hpmm, fun q q' g hq hq' hg hg' => ?_, fun q g hq hg => ?_⟩, htables⟩
  · rw [htables q hq] at hg
    rw [htables q' hq'] at hg'
    split at hg <;> split at hg'
    · simp_all
    · cases hg
      exact absurd hg' (hfresh q' hq')
    · cases hg'
      exact absurd hg (hfresh q hq)
    · exact h.tree q q' g hq hq' hg hg'
  · rw [Vm.tableAt, htables q hq] at hg
    split at hg
    · cases hg
      exact hused
    · exact fun hmem => h.used q g hq hg (hsubset hmem)

/-- Hanging one new table into the tree. -/
theorem TreeOk.link (h : TreeOk s root) (hlow : LowPath (p ++ [i])) (ht : s.tableAt root p = some t)
    (habsent : present (s.mem t i) = false) (hroom : pmmClearPages s.pmm ≠ ∅) :
    ∃ f s', nextTable true s t i = (some f, s') ∧ Grows root s s' {p ++ [i]} ∧
      s'.tableAt root (p ++ [i]) = some f := by
  rcases h.pmm.allocPage with ⟨hempty, -⟩ | ⟨f, hf, pmm, halloc, hpmm, hclear, hrefs, htotal⟩
  · exact absurd hempty hroom
  have hf40 : f < 2 ^ 40 := Nat.lt_trans (h.pmm.lt hf) (by decide)
  have htf : f ≠ t := fun heq => h.used p f (lowPath_closed p i hlow) (heq ▸ ht) hf
  have hsubset : pmmClearPages pmm ⊆ pmmClearPages s.pmm := hclear ▸ erase_subset f _
  set s' : Vm := { s with
    mem := writeEntry (clearTable s.mem f) t i (tableEntry (f * pageSize)), pmm := pmm } with hs'
  obtain ⟨hok, htables⟩ := h.hang hlow ht habsent hf40
    (fun q hq hqf => h.used q f hq hqf hf) hpmm hsubset (hclear ▸ notMem_erase f _) hs'
  have hnew : s'.tableAt root (p ++ [i]) = some f := by rw [htables _ hlow, if_pos rfl]
  refine ⟨f, s', ?_, ⟨hok, ?_, ?_, ?_, ?_, hsubset, ?_, ?_, hrefs, htotal, rfl⟩, hnew⟩
  · rw [nextTable, habsent, if_neg (by simp), if_pos rfl, halloc]
    simp only [frame_address, entryFrame_tableEntry hf40, hs']
  · intro q hq
    rw [Finset.mem_singleton] at hq
    exact hq ▸ hlow
  · intro q hq hne
    rw [Finset.mem_singleton] at hne
    rw [htables q hq, if_neg hne]
  · intro q hq
    rw [Finset.mem_singleton] at hq
    rw [hq, Vm.tableAt_concat, ht]
    simp [entryNext, habsent]
  · intro q hq
    rw [Finset.mem_singleton] at hq
    subst hq
    refine ⟨f, hf, hnew, fun _ j => ?_⟩
    rw [hs']
    dsimp only
    rw [writeEntry_apply, clearTable_apply, if_neg (fun hfj => htf hfj.1), if_pos rfl]
  · rw [hs']
    dsimp only
    rw [hclear, card_singleton, card_erase_add_one hf]
  · intro g hg j
    have hgf : g ≠ f := fun heq => hg (heq ▸ hf)
    by_cases hslot : g = t ∧ j = i
    · obtain ⟨rfl, rfl⟩ := hslot
      exact .inr ⟨p, Finset.mem_singleton_self _, ht⟩
    · rw [hs']
      dsimp only
      rw [writeEntry_apply, clearTable_apply, if_neg hslot, if_neg hgf]
      exact .inl rfl

/-- The tables that `get_pte` has to create on the way along `path` from the table
    at the end of `p`. -/
def missing (s : Vm) (root : Nat) : List (Fin 512) → List (Fin 512) → Finset (List (Fin 512))
  | _, [] => ∅
  | p, i :: path =>
    let rest := missing s root (p ++ [i]) path
    if s.tableAt root (p ++ [i]) = none then insert (p ++ [i]) rest else rest

theorem mem_missing : q ∈ missing s root p path ↔
    s.tableAt root q = none ∧ ∃ n < path.length, q = p ++ path.take (n + 1) := by
  induction path generalizing p with
  | nil => simp [missing]
  | cons i path ih =>
    have hsplit : (∃ n < (i :: path).length, q = p ++ (i :: path).take (n + 1)) ↔
        q = p ++ [i] ∨ ∃ n < path.length, q = p ++ [i] ++ path.take (n + 1) := by
      constructor
      · rintro ⟨n, hn, rfl⟩
        cases n with
        | zero => exact .inl (by simp)
        | succ n => exact .inr ⟨n, by simpa using hn, by simp⟩
      · rintro (rfl | ⟨n, hn, rfl⟩)
        · exact ⟨0, by simp, by simp⟩
        · exact ⟨n + 1, by simpa using hn, by simp⟩
    rw [hsplit, missing]
    split
    · rename_i hnone
      rw [mem_insert, ih]
      constructor
      · rintro (rfl | ⟨h, hmem⟩)
        · exact ⟨hnone, .inl rfl⟩
        · exact ⟨h, .inr hmem⟩
      · rintro ⟨h, rfl | hmem⟩
        · exact .inl rfl
        · exact .inr ⟨h, hmem⟩
    · rename_i hsome
      rw [ih]
      constructor
      · rintro ⟨h, hmem⟩
        exact ⟨h, .inr hmem⟩
      · rintro ⟨h, rfl | hmem⟩
        · exact absurd h hsome
        · exact ⟨h, hmem⟩

theorem missing_congr (hmem : s'.mem = s.mem) : missing s' root p path = missing s root p path := by
  ext q
  rw [mem_missing, mem_missing, Vm.tableAt, Vm.tableAt, hmem]

/-- `get_pte` with a page for every missing table: the tree grows by exactly these. -/
theorem TreeOk.walk (h : TreeOk s root) (hlow : LowPath (p ++ path))
    (ht : s.tableAt root p = some t)
    (hroom : (missing s root p path).card ≤ (pmmClearPages s.pmm).card) :
    ∃ f s', walkTables true path s t = (some f, s') ∧ Grows root s s' (missing s root p path) ∧
      s'.tableAt root (p ++ path) = some f := by
  induction path generalizing s p t with
  | nil => exact ⟨t, s, rfl, Grows.refl h, by simpa using ht⟩
  | cons i path ih =>
    have hpath : p ++ i :: path = p ++ [i] ++ path := by simp
    rw [hpath] at hlow ⊢
    have hnext : s.tableAt root (p ++ [i]) = entryNext (s.mem t i) := by
      rw [Vm.tableAt_concat, ht, bind_some]
    cases hpresent : present (s.mem t i) with
    | true =>
      rw [entryNext, hpresent, if_pos rfl] at hnext
      have hmissing : missing s root p (i :: path) = missing s root (p ++ [i]) path := by
        simp [missing, hnext]
      rw [hmissing] at hroom ⊢
      obtain ⟨f, s', hwalk, hgrows, htable⟩ := ih h hlow hnext hroom
      refine ⟨f, s', ?_, hgrows, htable⟩
      rw [walkTables, nextTable, hpresent, if_pos rfl]
      exact hwalk
    | false =>
      rw [entryNext, hpresent, if_neg (by simp)] at hnext
      have hmissing : missing s root p (i :: path) =
          insert (p ++ [i]) (missing s root (p ++ [i]) path) := by
        simp [missing, hnext]
      have hnotin : p ++ [i] ∉ missing s root (p ++ [i]) path := by
        rw [mem_missing]
        rintro ⟨-, n, hn, heq⟩
        have hlen := congrArg List.length heq
        simp only [length_append, length_take] at hlen
        omega
      rw [hmissing, card_insert_of_notMem hnotin] at hroom
      have hclear : pmmClearPages s.pmm ≠ ∅ := by
        intro hempty
        rw [hempty] at hroom
        simp at hroom
      obtain ⟨f, s', hlink, hgrows, htable⟩ := h.link hlow.of_append ht hpresent hclear
      -- Below the new table nothing was there before and nothing is there now.
      have hsame : missing s' root (p ++ [i]) path = missing s root (p ++ [i]) path := by
        ext q
        rw [mem_missing, mem_missing]
        refine and_congr_left ?_
        rintro ⟨n, hn, rfl⟩
        rw [hgrows.old]
        · rw [← take_append_drop (n + 1) path, ← append_assoc] at hlow
          exact hlow.of_append
        rw [Finset.mem_singleton]
        intro heq
        have hlen := congrArg List.length heq
        simp only [length_append, length_take] at hlen
        omega
      have hcard := hgrows.card
      rw [card_singleton] at hcard
      obtain ⟨g, s'', hwalk, hgrows', htable'⟩ := ih hgrows.ok hlow htable (by rw [hsame]; omega)
      refine ⟨g, s'', ?_, ?_, htable'⟩
      · rw [walkTables, hlink]
        exact hwalk
      · rw [hmissing, Finset.insert_eq, ← hsame]
        exact hgrows.trans hgrows'

/-! ## Pages -/

/-- A last table is not on the way to any table. -/
theorem TreeOk.ne_of_last (h : TreeOk s root) (hp : LowPath p) (hlen : p.length = 3)
    (ht : s.tableAt root p = some t) (hq : LowPath (q ++ [j])) (hf : s.tableAt root q = some f) :
    f ≠ t := by
  rintro rfl
  have heq := h.tree q p f hq.of_append hp hf ht
  have hlong := hq.1
  rw [heq, length_append, hlen] at hlong
  simp at hlong

/-- New tables bring no pages. -/
theorem Grows.pageAt_eq (h : Grows root s s' new) (hs : TreeOk s root) (hq : LowPath q)
    (hlen : q.length = 3) : s'.pageAt root q j = s.pageAt root q j := by
  by_cases hnew : q ∈ new
  · obtain ⟨f, -, htable, hzero⟩ := h.added q hnew
    have hpage : presentEntry 0 = none := by decide
    rw [pageAt, pageAt, htable, h.absent q hnew, bind_some, hzero hlen, hpage]
    rfl
  rw [pageAt, pageAt, h.old q hq hnew]
  cases ht : s.tableAt root q with
  | none => rfl
  | some t =>
    have hrow : s'.mem t j = s.mem t j := by
      rcases h.rows t (hs.used q t hq ht) j with hrow | ⟨q', hq', htable⟩
      · exact hrow
      · exact absurd rfl (hs.ne_of_last hq hlen ht (h.low _ hq') htable)
    rw [bind_some, bind_some, hrow]

/-- Writing an entry of a last table changes one page and no table. -/
theorem TreeOk.writePage (h : TreeOk s root) (hp : LowPath p) (hlen : p.length = 3)
    (ht : s.tableAt root p = some t) (hs' : s' = { s with mem := writeEntry s.mem t i e }) :
    TreeOk s' root ∧ (∀ q, LowPath q → s'.tableAt root q = s.tableAt root q) ∧
      ∀ q j, LowPath q → q.length = 3 → s'.pageAt root q j =
        if q = p ∧ j = i then presentEntry e else s.pageAt root q j := by
  subst hs'
  have htables : ∀ q, LowPath q → tableAt entryNext (writeEntry s.mem t i e) root q =
      s.tableAt root q := by
    intro q hq
    refine tableAt_congr lowPath_closed (fun q' j f hq' hf => ?_) hq
    rw [writeEntry_apply, if_neg (fun hslot => h.ne_of_last hp hlen ht hq' hf hslot.1)]
  refine ⟨⟨h.pmm, ?_, ?_⟩, htables, ?_⟩
  · intro q q' f hq hq' hf hf'
    rw [htables q hq] at hf
    rw [htables q' hq'] at hf'
    exact h.tree q q' f hq hq' hf hf'
  · intro q f hq hf
    rw [Vm.tableAt, htables q hq] at hf
    exact h.used q f hq hf
  intro q j hq hqlen
  rw [Vm.pageAt, Vm.tableAt, htables q hq, Vm.pageAt]
  cases hf : s.tableAt root q with
  | none =>
    have hne : q ≠ p := by
      rintro rfl
      rw [ht] at hf
      cases hf
    simp [hne]
  | some f =>
    rw [bind_some, bind_some]
    dsimp only
    rw [writeEntry_apply]
    have hslot : f = t ∧ j = i ↔ q = p ∧ j = i := by
      refine and_congr_left fun _ => ⟨?_, ?_⟩
      · rintro rfl
        exact h.tree q p f hq hp hf ht
      · rintro rfl
        rw [ht] at hf
        exact (some.inj hf).symm
    by_cases hboth : q = p ∧ j = i
    · rw [if_pos (hslot.mpr hboth), if_pos hboth]
    · rw [if_neg (fun hfj => hboth (hslot.mp hfj)), if_neg hboth]

/-- The tables `get_pte` creates for an address. -/
def missingTables (s : Vm) (root virt : Nat) : Finset (List (Fin 512)) :=
  missing s root [] (virtPath virt)

/-- From `s` to `s'` the page of `virt` has become `e`, with the missing tables. -/
structure Maps (root : Nat) (s s' : Vm) (virt : Nat) (e : BitVec 64) : Prop where
  ok : TreeOk s' root
  tables : ∀ q, LowPath q → q ∉ missingTables s root virt → s'.tableAt root q = s.tableAt root q
  added : ∀ q ∈ missingTables s root virt, ∃ f ∈ pmmClearPages s.pmm, s'.tableAt root q = some f
  pages : ∀ q j, LowPath q → q.length = 3 → s'.pageAt root q j =
    if q = virtPath virt ∧ j = tableIndex virt 0 then some e else s.pageAt root q j
  subset : pmmClearPages s'.pmm ⊆ pmmClearPages s.pmm
  card : (pmmClearPages s'.pmm).card + (missingTables s root virt).card =
    (pmmClearPages s.pmm).card
  rows : ∀ f ∉ pmmClearPages s.pmm, (∀ q, LowPath q → s.tableAt root q ≠ some f) →
    s'.mem f = s.mem f
  upper : ∀ i : Fin 512, 256 ≤ i.val → s'.mem root i = s.mem root i
  refs : s'.pmm.refCounts = s.pmm.refCounts
  total : s'.pmm.totalPages = s.pmm.totalPages
  kernel : s'.kernelPml4 = s.kernelPml4

theorem lowPath_virtPath (h : (tableIndex virt 3).val < 256) : LowPath (virtPath virt) := by
  refine ⟨Nat.le_refl 3, fun i hi => ?_⟩
  rw [virtPath, head?_cons, mem_some_iff] at hi
  exact hi ▸ h

theorem Vm.tableAt_nil : s.tableAt root [] = some root := rfl

theorem lowPath_nil : LowPath [] := ⟨Nat.zero_le 3, by simp⟩

/-- Without creating tables the walk changes nothing. -/
theorem walkTables_false (path : List (Fin 512)) :
    walkTables false path s t = (s.tableAt t path, s) := by
  induction path generalizing t with
  | nil => rfl
  | cons i path ih =>
    rw [walkTables, nextTable, Vm.tableAt, Radix.tableAt_cons, entryNext]
    cases present (s.mem t i) with
    | false => rfl
    | true => exact ih

/-- Nor does it when no table is missing. -/
theorem walkTables_of_some (create : Bool) (h : s.tableAt t path = some f) :
    walkTables create path s t = (some f, s) := by
  induction path generalizing t with
  | nil =>
    rw [Vm.tableAt_nil] at h
    rw [walkTables, h]
  | cons i path ih =>
    rw [Vm.tableAt, Radix.tableAt_cons, entryNext] at h
    rw [walkTables, nextTable]
    cases hpresent : present (s.mem t i) with
    | false =>
      rw [hpresent] at h
      cases h
    | true =>
      rw [hpresent] at h
      exact ih h

/-- The entry of `virt` is at address 0, so `get_pte` gives the null pointer. -/
def NullEntry (s : Vm) (root virt : Nat) : Prop :=
  s.tableAt root (virtPath virt) = some 0 ∧ (tableIndex virt 0).val = 0

instance (s : Vm) (root virt : Nat) : Decidable (NullEntry s root virt) :=
  inferInstanceAs (Decidable (_ ∧ _))

/-- No table of the user half is at address 0. -/
def TablesNonzero (s : Vm) (root : Nat) : Prop := ∀ q, LowPath q → s.tableAt root q ≠ some 0

theorem TablesNonzero.not_null (h : TablesNonzero s root) (hlow : (tableIndex virt 3).val < 256) :
    ¬ NullEntry s root virt :=
  fun hnull => h _ (lowPath_virtPath hlow) hnull.1

theorem vmMapPage_null (h : NullEntry s space.root virt) (phys : Nat) (flags : BitVec 64) :
    vmMapPage s space virt phys flags = (-1, s) := by
  rw [vmMapPage, getPte, walkTables_of_some true h.1]
  dsimp only
  rw [bind_some, entryPointer, if_pos ⟨rfl, h.2⟩]

/-- `vm_map_page` at a user address, with a page for every missing table. -/
theorem TreeOk.mapPage (h : TreeOk s space.root) (phys : Nat) (flags : BitVec 64)
    (hlow : (tableIndex virt 3).val < 256) (hnull : ¬ NullEntry s space.root virt)
    (hroom : (missingTables s space.root virt).card ≤ (pmmClearPages s.pmm).card) :
    ∃ s', vmMapPage s space virt phys flags = (0, s') ∧
      Maps space.root s s' virt (pageEntry phys flags) := by
  have hpath := lowPath_virtPath hlow
  have hpath' : LowPath ([] ++ virtPath virt) := hpath
  obtain ⟨t, s₁, hwalk, hgrows, ht⟩ := h.walk hpath' Vm.tableAt_nil hroom
  rw [nil_append] at ht
  obtain ⟨hok, htables, hpages⟩ := hgrows.ok.writePage (e := pageEntry phys flags)
    (i := tableIndex virt 0) hpath rfl ht rfl
  have hpointer : ¬ (t = 0 ∧ (tableIndex virt 0).val = 0) := by
    rintro ⟨rfl, hindex⟩
    by_cases hnew : virtPath virt ∈ missing s space.root [] (virtPath virt)
    · obtain ⟨f, hf, htable, -⟩ := hgrows.added _ hnew
      rw [ht] at htable
      cases htable
      exact h.pmm.zero hf
    · exact hnull ⟨hgrows.old _ hpath hnew ▸ ht, hindex⟩
  refine ⟨_, ?_, hok, ?_, ?_, ?_, hgrows.subset, hgrows.card, ?_, ?_, hgrows.refs, hgrows.total,
    hgrows.kernel⟩
  · rw [vmMapPage, getPte, hwalk]
    dsimp only
    rw [bind_some, entryPointer, if_neg hpointer]
  · intro q hq hnew
    rw [htables q hq, hgrows.old q hq hnew]
  · intro q hq
    obtain ⟨f, hf, htable, -⟩ := hgrows.added q hq
    exact ⟨f, hf, by rw [htables q (hgrows.low q hq), htable]⟩
  · intro q j hq hlen
    rw [hpages q j hq hlen, presentEntry, present_pageEntry, if_pos rfl, hgrows.pageAt_eq h hq hlen]
  · intro f hf hother
    have hft : f ≠ t := by
      rintro rfl
      by_cases hnew : virtPath virt ∈ missing s space.root [] (virtPath virt)
      · obtain ⟨g, hg, htable, -⟩ := hgrows.added _ hnew
        rw [ht] at htable
        cases htable
        exact hf hg
      · rw [hgrows.old _ hpath hnew] at ht
        exact hother _ hpath ht
    funext i
    dsimp only
    rw [writeEntry_apply, if_neg (fun hslot => hft hslot.1)]
    rcases hgrows.rows f hf i with hrow | ⟨q, hq, htable⟩
    · exact hrow
    · exact absurd htable (hother q (hgrows.low _ hq).of_append)
  · intro i hi
    have hroot : space.root ≠ t :=
      hgrows.ok.ne_of_last (q := []) (j := 0) hpath rfl ht ⟨by simp, by simp⟩ Vm.tableAt_nil
    dsimp only
    rw [writeEntry_apply, if_neg (fun hslot => hroot hslot.1)]
    rcases hgrows.rows space.root (h.used [] _ lowPath_nil Vm.tableAt_nil) i with
      hrow | ⟨q, hq, htable⟩
    · exact hrow
    have hlowq := hgrows.low _ hq
    have hnil := h.tree q [] space.root hlowq.of_append lowPath_nil htable Vm.tableAt_nil
    rw [hnil, nil_append] at hlowq
    have := hlowq.2 i rfl
    omega

/-! ## Looking up a page -/

/-- The page entry of an address. -/
def Vm.virtPage (s : Vm) (root virt : Nat) : Option (BitVec 64) :=
  s.pageAt root (virtPath virt) (tableIndex virt 0)

theorem getPte_null (h : NullEntry s root virt) : getPte s root virt false = (none, s) := by
  rw [getPte, walkTables_false, h.1]
  dsimp only
  rw [bind_some, entryPointer, if_pos ⟨rfl, h.2⟩]

theorem getPte_false (hnull : ¬ NullEntry s root virt) : getPte s root virt false =
    ((s.tableAt root (virtPath virt)).map fun table => (table, tableIndex virt 0), s) := by
  rw [getPte, walkTables_false]
  cases ht : s.tableAt root (virtPath virt) with
  | none => rfl
  | some t =>
    have hpointer : ¬ (t = 0 ∧ (tableIndex virt 0).val = 0) := fun h => hnull ⟨h.1 ▸ ht, h.2⟩
    dsimp only
    rw [bind_some, entryPointer, if_neg hpointer, map_some]

theorem vmGetPhysical_eq (hnull : ¬ NullEntry s space.root virt) :
    vmGetPhysical s space virt = ((s.virtPage space.root virt).map entryAddr).getD 0 := by
  rw [vmGetPhysical, getPte_false hnull, virtPage, pageAt]
  cases s.tableAt space.root (virtPath virt) with
  | none => rfl
  | some t =>
    simp only [map_some, bind_some, presentEntry]
    split <;> rfl

/-- The place of a page entry. -/
theorem Vm.virtPage_eq_some (h : s.virtPage root virt = some e) :
    ∃ t, s.tableAt root (virtPath virt) = some t ∧ s.mem t (tableIndex virt 0) = e ∧
      present e = true := by
  rw [virtPage, pageAt, bind_eq_some_iff] at h
  obtain ⟨t, ht, hentry⟩ := h
  rw [presentEntry] at hentry
  split at hentry
  · rename_i hpresent
    cases hentry
    exact ⟨t, ht, rfl, hpresent⟩
  · cases hentry

theorem vmUnmapPage_of_none (h : s.virtPage space.root virt = none) :
    vmUnmapPage s space virt = (-1, s) := by
  rw [virtPage, pageAt] at h
  by_cases hnull : NullEntry s space.root virt
  · rw [vmUnmapPage, getPte_null hnull]
  rw [vmUnmapPage, getPte_false hnull]
  cases ht : s.tableAt space.root (virtPath virt) with
  | none => rfl
  | some t =>
    rw [ht, bind_some, presentEntry, ite_eq_right_iff] at h
    simp only [map_some]
    rw [if_neg fun hpresent => by cases h hpresent]

theorem vmUnmapPage_of_some (hnull : ¬ NullEntry s space.root virt)
    (ht : s.tableAt space.root (virtPath virt) = some t)
    (hpresent : present (s.mem t (tableIndex virt 0)) = true) :
    vmUnmapPage s space virt = (0, { s with mem := writeEntry s.mem t (tableIndex virt 0) 0 }) := by
  rw [vmUnmapPage, getPte_false hnull, ht]
  simp only [map_some]
  rw [if_pos hpresent]

/-- The address bits of an entry are those of a page frame. -/
theorem entryAddr_eq (e : BitVec 64) : entryAddr e = entryFrame e * pageSize := by
  have hmod : entryAddr e % pageSize = 0 := by
    rw [entryAddr, BitVec.toNat_and, show pageSize = 2 ^ 12 from rfl, Nat.and_mod_two_pow]
    rw [show addrMask.toNat % 2 ^ 12 = 0 by decide, Nat.and_zero]
  rw [entryFrame, Nat.div_mul_cancel (Nat.dvd_of_mod_eq_zero hmod)]

/-! ## New address spaces -/

/-- `space` is a new address space: its top table is a page of its own, empty in the
    user half and with the kernel's entries above. -/
structure NewSpace (s s' : Vm) (space : VmSpace) : Prop where
  fresh : space.root ∈ pmmClearPages s.pmm
  pmm : PmmOk s'.pmm
  clear : pmmClearPages s'.pmm = (pmmClearPages s.pmm).erase space.root
  row : ∀ i : Fin 512, s'.mem space.root i =
    if 256 ≤ i.val then s.mem (s.kernelPml4 / pageSize) i else 0
  others : ∀ f, f ≠ space.root → s'.mem f = s.mem f
  refs : s'.pmm.refCounts = s.pmm.refCounts
  total : s'.pmm.totalPages = s.pmm.totalPages
  kernel : s'.kernelPml4 = s.kernelPml4

theorem vmCreateSpace_spec (hpmm : PmmOk s.pmm)
    (hkernel : s.kernelPml4 / pageSize ∉ pmmClearPages s.pmm)
    (hcreate : vmCreateSpace s = (some space, s')) : NewSpace s s' space := by
  rcases hpmm.allocPage with ⟨-, halloc⟩ | ⟨f, hf, pmm, halloc, hpmm', hclear, hrefs, htotal⟩
  · simp [vmCreateSpace, halloc] at hcreate
  have hf0 := hpmm.address_ne hf
  have hkf : s.kernelPml4 / pageSize ≠ f := fun heq => hkernel (heq ▸ hf)
  rw [vmCreateSpace, halloc] at hcreate
  simp only [if_neg hf0, frame_address, Prod.mk.injEq, some.injEq] at hcreate
  obtain ⟨hspace, rfl⟩ := hcreate
  have hroot : space.root = f := by
    rw [← hspace]
    exact frame_address f
  refine ⟨hroot ▸ hf, hpmm', hroot ▸ hclear, fun i => ?_, fun g hg => ?_, hrefs, htotal, rfl⟩
  · dsimp only
    rw [hroot, Function.update_self, newPml4, clearTable_apply, if_neg hkf]
  · dsimp only
    rw [hroot] at hg
    rw [Function.update_of_ne hg, clearTable, Function.update_of_ne hg]

/-- The user half of a new address space has no tables but the top one. -/
theorem NewSpace.tableAt_eq_some (h : NewSpace s s' space) (hq : LowPath q)
    (ht : s'.tableAt space.root q = some t) : q = [] ∧ t = space.root := by
  cases q with
  | nil => exact ⟨rfl, (some.inj ht).symm⟩
  | cons i q =>
    rw [Vm.tableAt, Radix.tableAt_cons, h.row, if_neg (Nat.not_le.mpr (hq.2 i rfl)),
      entryNext_zero] at ht
    cases ht

theorem NewSpace.pageAt_eq_none (h : NewSpace s s' space) (hq : LowPath q) (hlen : q.length = 3) :
    s'.pageAt space.root q j = none := by
  rw [pageAt, bind_eq_none_iff]
  intro t ht
  rw [(h.tableAt_eq_some hq ht).1] at hlen
  cases hlen

theorem NewSpace.tablesNonzero (h : NewSpace s s' space) (hpmm : PmmOk s.pmm) :
    TablesNonzero s' space.root := fun _ hq hzero =>
  hpmm.zero ((h.tableAt_eq_some hq hzero).2 ▸ h.fresh)

theorem NewSpace.treeOk (h : NewSpace s s' space) : TreeOk s' space.root where
  pmm := h.pmm
  tree := fun q q' t hq hq' ht ht' => by
    rw [(h.tableAt_eq_some hq ht).1, (h.tableAt_eq_some hq' ht').1]
  used := fun q t hq ht => by
    rw [(h.tableAt_eq_some hq ht).2, h.clear]
    exact notMem_erase _ _

end OpenSys
