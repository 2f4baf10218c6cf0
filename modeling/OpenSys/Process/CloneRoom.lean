-- SUMMARY: vm_clone_space succeeds when there is a free page for every table it copies.
import OpenSys.Process.VmClone

/-!
# Room for a clone

`vm_clone_space` takes one page for each table of the user half. With that many
free pages it does not fail.
-/

namespace OpenSys

open Finset

/-- The number of tables from `t` on, with `n` levels of tables below it. -/
def Vm.tableCount (s : Vm) (n t : Nat) : Nat := Radix.tableCount entryNext s.mem tableEntries n t

/-- The number of tables below the entries `l` of table `t`. -/
def Vm.rowCount (s : Vm) (n : Nat) (l : List (Fin 512)) (t : Nat) : Nat :=
  (l.map fun i => (entryNext (s.mem t i)).elim 0 (s.tableCount n)).sum

variable {s s' : Vm} {n src dst t f : Nat} {i : Fin 512} {l : List (Fin 512)} {L : Nat → Prop}

theorem Vm.tableCount_succ : s.tableCount (n + 1) t = 1 + s.rowCount n tableEntries t := rfl

theorem Vm.rowCount_cons : s.rowCount n (i :: l) t =
    (entryNext (s.mem t i)).elim 0 (s.tableCount n) + s.rowCount n l t := List.sum_cons

/-- A part of the clone does not change how many tables are left to copy. -/
theorem SourceOk.rowCount_eq (h : SourceOk n l s src dst)
    (hclones : Clones L (fun f => f = dst) s s') (hsrc : src ∉ pmmClearPages s.pmm)
    (hne : src ≠ dst) : s'.rowCount n l src = s.rowCount n l src := by
  have hnext : ∀ f, f ∉ pmmClearPages s.pmm ∧ f ≠ dst → ∀ i,
      entryNext (s'.mem f i) = entryNext (s.mem f i) := fun f hf i => hclones.entryNext_eq hf.1 hf.2 i
  refine congrArg List.sum (List.map_congr_left fun i hi => ?_)
  rw [hnext src ⟨hsrc, hne⟩]
  cases ht : entryNext (s.mem src i) with
  | none => rw [Option.elim_none, Option.elim_none]
  | some t => exact Radix.tableCount_congr hnext (h i hi t ht)

/-- The loop over the entries `l` takes a page for each table below them. -/
theorem cloneEntries_room
    (hrec : ∀ s src, PmmOk s.pmm →
      Radix.Within entryNext (fun f => f ∉ pmmClearPages s.pmm) s.mem n src →
      s.tableCount n src ≤ (pmmClearPages s.pmm).card → ∃ page s', cloneTable n s src = (some page, s') ∧
        (pmmClearPages s'.pmm).card + s.tableCount n src = (pmmClearPages s.pmm).card)
    (hpmm : PmmOk s.pmm) (hsrc : src ∉ pmmClearPages s.pmm) (hne : src ≠ dst)
    (hsource : SourceOk n l s src dst) (hroom : s.rowCount n l src ≤ (pmmClearPages s.pmm).card) :
    ∃ s', cloneEntries (cloneRound (cloneTable n) src dst) l s = (true, s') ∧
      (pmmClearPages s'.pmm).card + s.rowCount n l src = (pmmClearPages s.pmm).card := by
  induction l generalizing s with
  | nil => exact ⟨s, rfl, Nat.add_zero _⟩
  | cons i l ih =>
    have hsource' : SourceOk n l s src dst := fun j hj => hsource j (List.mem_cons_of_mem i hj)
    rw [Vm.rowCount_cons] at hroom ⊢
    rw [cloneEntries, cloneRound]
    cases hpresent : present (s.mem src i) with
    | false =>
      have hnone : entryNext (s.mem src i) = none := by simp [entryNext, hpresent]
      rw [hnone, Option.elim_none, Nat.zero_add] at hroom ⊢
      rw [if_neg Bool.false_ne_true]
      exact ih hpmm hsrc hsource' hroom
    | true =>
      have hsome : entryNext (s.mem src i) = some (entryFrame (s.mem src i)) := by
        rw [entryNext, hpresent, if_pos rfl]
      have hwithin := hsource i List.mem_cons_self _ hsome
      have hused := hwithin.mono fun f hf => hf.1
      rw [hsome, Option.elim_some] at hroom ⊢
      rw [if_pos rfl]
      obtain ⟨page, s₁, hclone, hcard⟩ := hrec s _ hpmm hused (by omega)
      rw [hclone]
      have hfirst := (cloneTable_spec n s s₁ _ page hpmm hused hclone).linked_clones (i := i) hwithin
      have hcount := hsource'.rowCount_eq hfirst hsrc hne
      obtain ⟨hsource₁, -⟩ := hsource'.step hfirst hsrc hne
      have hclear : pmmClearPages (linked s₁ dst i page).pmm = pmmClearPages s₁.pmm := rfl
      obtain ⟨s', hrun, hrest⟩ := ih hfirst.pmm (fun hmem => hsrc (hfirst.subset hmem)) hsource₁
        (by rw [hcount, hclear]; omega)
      refine ⟨s', hrun, ?_⟩
      rw [hcount, hclear] at hrest
      omega

theorem cloneTable_room (n : Nat) (s : Vm) (src : Nat) (hpmm : PmmOk s.pmm)
    (hsource : Radix.Within entryNext (fun f => f ∉ pmmClearPages s.pmm) s.mem n src)
    (hroom : s.tableCount n src ≤ (pmmClearPages s.pmm).card) :
    ∃ page s', cloneTable n s src = (some page, s') ∧
      (pmmClearPages s'.pmm).card + s.tableCount n src = (pmmClearPages s.pmm).card := by
  induction n generalizing s src with
  | zero =>
    have hone : s.tableCount 0 src = 1 := rfl
    rw [cloneTable]
    rcases newPageTable_cases hpmm with ⟨hempty, -⟩ | ⟨f, s₁, hcleared, heq⟩
    · rw [hempty, card_empty] at hroom
      omega
    have hne : src ≠ f := fun h => hsource (h ▸ hcleared.fresh)
    obtain ⟨refs, hrefs⟩ := (entriesCloned (s := s₁) hne nodup_tableEntries).pmm
    refine ⟨f * pageSize, _, heq _, ?_⟩
    have hclear : pmmClearPages (tableEntries.foldl (cloneEntry src f) s₁).pmm =
        pmmClearPages s₁.pmm := by
      rw [hrefs]
      rfl
    rw [hclear, hcleared.clear, card_erase_of_mem hcleared.fresh, hone]
    omega
  | succ n ih =>
    rw [Vm.tableCount_succ] at hroom ⊢
    rw [cloneTable]
    rcases newPageTable_cases hpmm with ⟨hempty, -⟩ | ⟨f, s₁, hcleared, heq⟩
    · rw [hempty, card_empty] at hroom
      omega
    have hsrc := hsource.head
    have hne : src ≠ f := fun h => hsrc (h ▸ hcleared.fresh)
    have hsource₀ : SourceOk n tableEntries s src f := fun i _ t ht =>
      (hsource.2 i t ht).mono fun g hg => ⟨hg, fun h => hg (h ▸ hcleared.fresh)⟩
    have hcount := hsource₀.rowCount_eq hcleared.start hsrc hne
    have hcard : (pmmClearPages s₁.pmm).card + 1 = (pmmClearPages s.pmm).card := by
      rw [hcleared.clear, card_erase_add_one hcleared.fresh]
    obtain ⟨s', hrun, hrest⟩ := cloneEntries_room ih hcleared.start.pmm
      (fun hmem => hsrc (hcleared.start.subset hmem)) hne
      (hsource₀.step hcleared.start hsrc hne).1 (by omega)
    refine ⟨f * pageSize, s', ?_, by omega⟩
    rw [heq, hrun]

/-- One page for the top table and one for each table below its user half. -/
theorem vmCloneSpace_room {space : VmSpace} (hpmm : PmmOk s.pmm)
    (hkernel : s.kernelPml4 / pageSize ∉ pmmClearPages s.pmm) (hused : TablesUsed s space.root)
    (hroom : 1 + s.rowCount 2 userEntries space.root ≤ (pmmClearPages s.pmm).card) :
    ∃ dst s', vmCloneSpace s space = (some dst, s') := by
  cases hcreate : vmCreateSpace s with
  | mk result s₁ =>
    cases result with
    | none =>
      rcases hpmm.allocPage with ⟨hempty, -⟩ | ⟨f, hf, pmm, halloc, -, -, -, -⟩
      · rw [hempty, card_empty] at hroom
        omega
      · have hne := hpmm.address_ne hf
        simp [vmCreateSpace, halloc, hne] at hcreate
    | some dst =>
      have hnew := vmCreateSpace_spec hpmm hkernel hcreate
      have hsrc : space.root ∉ pmmClearPages s.pmm := hused [] _ lowPath_nil rfl
      have hne : space.root ≠ dst.root := fun h => hsrc (h ▸ hnew.fresh)
      have hstart := hnew.clones
      have hsource : SourceOk 2 userEntries s space.root dst.root := fun i hi t ht =>
        (hused.below (mem_userEntries.mp hi) ht).mono fun f hf => ⟨hf, fun h => hf (h ▸ hnew.fresh)⟩
      have hcount := hsource.rowCount_eq hstart hsrc hne
      have hcard : (pmmClearPages s₁.pmm).card + 1 = (pmmClearPages s.pmm).card := by
        rw [hnew.clear, card_erase_add_one hnew.fresh]
      obtain ⟨s', hrun, -⟩ := cloneEntries_room (cloneTable_room 2) hnew.pmm
        (fun hmem => hsrc (hstart.subset hmem)) hne (hsource.step hstart hsrc hne).1 (by omega)
      exact ⟨_, s', by rw [vmCloneSpace, hcreate]; dsimp only; rw [hrun]⟩

end OpenSys
