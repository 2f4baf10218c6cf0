-- SUMMARY: The page allocator as its callers see it.
import OpenSys.Memory.PmmCount

/-!
# The page allocator as a set of pages

Callers see the page allocator as the set of its clear pages. A page comes out of
the set, or the set is empty; a returned page goes back, or is lost when its bit is
in the upper half of a bitmap word.
-/

namespace OpenSys

open Finset

structure PmmOk (p : Pmm) : Prop where
  counted : PmmCounted 0 p
  covers : p.totalPages ≤ p.bitmapSize * 64
  /-- Page 0 is never handed out, so address 0 can mean that there is no page. -/
  zero : 0 ∉ pmmClearPages p

variable {p : Pmm} {page : Nat}

theorem mem_pmmClearPages :
    page ∈ pmmClearPages p ↔ page < p.totalPages ∧ p.bitmap.get page = false :=
  Bitmap.mem_clearBits

theorem PmmOk.lt (h : PmmOk p) (hpage : page ∈ pmmClearPages p) : page < 131072 :=
  Nat.lt_of_lt_of_le (mem_pmmClearPages.mp hpage).1 h.counted.total

/-- The address of a free page is not the one that means that there is none. -/
theorem PmmOk.address_ne (h : PmmOk p) (hpage : page ∈ pmmClearPages p) : page * pageSize ≠ 0 := by
  have : page ≠ 0 := fun hzero => h.zero (hzero ▸ hpage)
  unfold pageSize
  omega

theorem pmmClearPages_put (hlt : page < p.totalPages) (free : Nat) :
    pmmClearPages { bitmapClear p page with freePages := free } = insert page (pmmClearPages p) :=
  Bitmap.clearBits_clear hlt

/-- The search finds a page when there is one. -/
theorem PmmOk.find_ne_none (h : PmmOk p) (hpage : page ∈ pmmClearPages p) :
    pmmFindFree p ≠ none := by
  obtain ⟨hlt, hclear⟩ := mem_pmmClearPages.mp hpage
  have hcovers := h.covers
  have hbit : p.bitmap (page / 64) &&& 1#64 <<< (page % 64) = 0#64 :=
    Bitmap.and_mask_eq_zero_iff.mpr hclear
  have hword : p.bitmap (page / 64) ≠ BitVec.allOnes 64 := by
    intro hones
    rw [Bitmap.get, hones, BitVec.getLsbD_allOnes] at hclear
    simp [Nat.mod_lt page (show 0 < 64 by decide)] at hclear
  intro hnone
  rw [pmmFindFree, List.findSome?_eq_none_iff] at hnone
  have hrow := hnone (page / 64) (List.mem_range.mpr (by omega))
  rw [if_neg hword, List.findSome?_eq_none_iff] at hrow
  have hcell := hrow (page % 64) (List.mem_range.mpr (Nat.mod_lt _ (by decide)))
  rw [if_pos hbit, if_neg (by omega)] at hcell
  cases hcell

/-- `pmm_alloc_page` removes a page from the set, or there is none. -/
theorem PmmOk.allocPage (h : PmmOk p) : (pmmClearPages p = ∅ ∧ pmmAllocPage p = (0, p)) ∨
    ∃ page ∈ pmmClearPages p, ∃ p', pmmAllocPage p = (page * pageSize, p') ∧ PmmOk p' ∧
      pmmClearPages p' = (pmmClearPages p).erase page ∧ p'.refCounts = p.refCounts ∧
      p'.totalPages = p.totalPages := by
  have hcount := h.counted.freePages_eq
  by_cases hzero : p.freePages = 0
  · left
    refine ⟨card_eq_zero.mp (by omega), ?_⟩
    rw [pmmAllocPage, if_pos hzero]
  right
  obtain ⟨some, hsome⟩ := card_pos.mp (Nat.pos_of_ne_zero (hcount ▸ hzero))
  obtain ⟨page, hfind⟩ := Option.ne_none_iff_exists'.mp (h.find_ne_none hsome)
  obtain ⟨hlt, hclear⟩ := pmmFindFree_spec hfind
  have herase : pmmClearPages { bitmapSet p page with freePages := dec64 p.freePages } =
      (pmmClearPages p).erase page := Bitmap.clearBits_set
  refine ⟨page, mem_pmmClearPages.mpr ⟨hlt, hclear⟩, _, ?_, ?_, herase, rfl, rfl⟩
  · rw [pmmAllocPage, if_neg hzero, hfind]
  · refine ⟨h.counted.take hlt hclear, h.covers, fun hmem => h.zero ?_⟩
    exact mem_of_mem_erase (herase ▸ hmem)

theorem pmmFreePage_cases (p : Pmm) (addr : Nat) : pmmFreePage p addr = p ∨
    addr / pageSize < p.totalPages ∧ pmmFreePage p addr =
      { bitmapClear p (addr / pageSize) with freePages := u64 (p.freePages + 1) } := by
  unfold pmmFreePage
  dsimp only
  split
  · exact .inl rfl
  · split
    · exact .inl rfl
    · exact .inr ⟨by omega, rfl⟩

theorem pmmFreePage_refCounts (p : Pmm) (addr : Nat) :
    (pmmFreePage p addr).refCounts = p.refCounts := by
  rcases pmmFreePage_cases p addr with hsame | ⟨-, hclear⟩
  · rw [hsame]
  · rw [hclear]
    rfl

/-- `pmm_free_page` puts the page back into the set, or does nothing. -/
theorem PmmOk.freePage (h : PmmOk p) {addr : Nat} (hne : addr / pageSize ≠ 0) :
    PmmOk (pmmFreePage p addr) ∧
      pmmClearPages (pmmFreePage p addr) ⊆ insert (addr / pageSize) (pmmClearPages p) := by
  have hcounted := h.counted.freePage addr
  rcases pmmFreePage_cases p addr with hsame | ⟨hlt, hclear⟩
  · rw [hsame]
    exact ⟨h, subset_insert _ _⟩
  rw [hclear] at hcounted ⊢
  have hinsert := pmmClearPages_put hlt (u64 (p.freePages + 1))
  refine ⟨⟨hcounted, h.covers, fun hmem => ?_⟩, hinsert.subset⟩
  rcases mem_insert.mp (hinsert ▸ hmem) with heq | hmem
  · exact hne heq.symm
  · exact h.zero hmem

/-- What is clear stays clear. -/
theorem pmmClearPages_subset_free {addr : Nat} :
    pmmClearPages p ⊆ pmmClearPages (pmmFreePage p addr) := by
  rcases pmmFreePage_cases p addr with hsame | ⟨hlt, hclear⟩
  · rw [hsame]
  · rw [hclear, pmmClearPages_put hlt]
    exact subset_insert _ _

/-- A page in the lower half of its bitmap word is clear after it was returned. -/
theorem mem_pmmFreePage {addr : Nat} (hlt : addr / pageSize < p.totalPages)
    (hlow : addr / pageSize % 64 < 32) : addr / pageSize ∈ pmmClearPages (pmmFreePage p addr) := by
  unfold pmmFreePage
  dsimp only
  rw [if_neg (Nat.not_le.mpr hlt)]
  split
  · rename_i htest
    exact mem_pmmClearPages.mpr ⟨hlt, bitmapTest_eq_zero_iff.mp htest hlow⟩
  · rw [pmmClearPages_put hlt]
    exact mem_insert_self _ _

end OpenSys
