-- SUMMARY: The kernel page tables of paging.c, and when they hold the last mapping.
import OpenSys.Lib.Run
import OpenSys.Process.VmTree

/-!
# Kernel page tables

`src/memory/paging.c`. A walk that creates missing tables looks at the present bit of an entry
only, so below a huge page it takes the memory of the page for a table. Away from that the four
levels of tables are a tree, and a lookup finds what the last call for the address wrote.
-/

namespace OpenSys

open OpenSys.Run List Option Nat BitVec Radix

/-! ## The model -/

/-- Physical memory, the frame of `pml4`, and the answers of `pmm_alloc_page` with the number of
    those that were taken. An answer of 0 means that there is no page. -/
structure Paging where
  mem : PageMem
  pml4 : Nat
  pages : Nat → Nat
  taken : Nat

/-- `0xFFFFFFFFFFFFF000ULL` -/
def pageMask : BitVec 64 := 0xFFFFFFFFFFFFF000

/-- `0xFFFFFFFFFFE00000ULL` -/
def hugeMask : BitVec 64 := 0xFFFFFFFFFFE00000

def isHuge (e : BitVec 64) : Bool := e &&& vmFlagHuge != 0

/-- The entry for a new table at address `page`. -/
def pagingTableEntry (page : Nat) (flags : BitVec 64) : BitVec 64 :=
  BitVec.ofNat 64 page ||| flags ||| vmFlagPresent ||| vmFlagWritable

/-- `get_or_create_table`. The table at address 0 is the null pointer. -/
def getOrCreateTable (s : Paging) (parent : Nat) (index : Fin 512) (flags : BitVec 64) :
    Option Nat × Paging :=
  let e := s.mem parent index
  if present e then (if entryFrame e = 0 then none else some (entryFrame e), s)
  else
    let page := s.pages s.taken
    let s := { s with taken := s.taken + 1 }
    if page = 0 then (none, s)
    else
      let mem := clearTable s.mem (page / pageSize)
      (some (page / pageSize),
        { s with mem := writeEntry mem parent index (pagingTableEntry page flags) })

/-- The tables on the way, one behind the other. -/
def getOrCreateTables (flags : BitVec 64) : List (Fin 512) → Paging → Nat → Option Nat × Paging
  | [], s, table => (some table, s)
  | i :: path, s, table =>
    match getOrCreateTable s table i flags with
    | (none, s) => (none, s)
    | (some table, s) => getOrCreateTables flags path s table

/-- `table[i] = e` -/
def Paging.write (s : Paging) (table : Nat) (i : Fin 512) (e : BitVec 64) : Paging :=
  { s with mem := writeEntry s.mem table i e }

/-- `paddr | flags | PAGE_PRESENT` -/
def smallEntry (paddr flags : BitVec 64) : BitVec 64 := paddr ||| flags ||| vmFlagPresent

/-- `paddr | flags | PAGE_PRESENT | PAGE_HUGE` -/
def hugeEntry (paddr flags : BitVec 64) : BitVec 64 :=
  paddr ||| flags ||| vmFlagPresent ||| vmFlagHuge

/-- `paging_map` -/
def pagingMap (s : Paging) (vaddr paddr flags : BitVec 64) : Paging :=
  let v := (vaddr &&& pageMask).toNat
  let paddr := paddr &&& pageMask
  match getOrCreateTables flags [tableIndex v 3, tableIndex v 2, tableIndex v 1] s s.pml4 with
  | (none, s) => s
  | (some pt, s) => s.write pt (tableIndex v 0) (smallEntry paddr flags)

/-- `paging_map_huge` -/
def pagingMapHuge (s : Paging) (vaddr paddr flags : BitVec 64) : Paging :=
  let v := (vaddr &&& pageMask).toNat
  let paddr := paddr &&& pageMask
  match getOrCreateTables flags [tableIndex v 3, tableIndex v 2] s s.pml4 with
  | (none, s) => s
  | (some pd, s) => s.write pd (tableIndex v 1) (hugeEntry paddr flags)

/-- `paging_get_physical` -/
def pagingGetPhysical (s : Paging) (vaddr : BitVec 64) : Nat :=
  let v := vaddr.toNat
  let e := s.mem s.pml4 (tableIndex v 3)
  if present e = false then 0
  else
    let e := s.mem (entryFrame e) (tableIndex v 2)
    if present e = false then 0
    else
      let e := s.mem (entryFrame e) (tableIndex v 1)
      if isHuge e then u64 ((e &&& hugeMask).toNat + v % 2 ^ 21)
      else if present e = false then 0
      else
        let e := s.mem (entryFrame e) (tableIndex v 0)
        if present e = false then 0 else u64 (entryAddr e + v % 2 ^ 12)

/-! ## What the calls should leave -/

inductive PagingCall where
  | map (vaddr paddr flags : BitVec 64)
  | mapHuge (vaddr paddr flags : BitVec 64)

/-- What a call says about an address: the physical address, when its page covers it. -/
def PagingCall.covers (vaddr : BitVec 64) : PagingCall → Option Nat
  | .map v paddr _ =>
    if v.toNat / 2 ^ 12 = vaddr.toNat / 2 ^ 12 then some (paddr.toNat + vaddr.toNat % 2 ^ 12) else none
  | .mapHuge v paddr _ =>
    if v.toNat / 2 ^ 21 = vaddr.toNat / 2 ^ 21 then some (paddr.toNat + vaddr.toNat % 2 ^ 21) else none

/-- The tables and the calls that made them, the newest first. -/
structure PagingRun where
  tables : Paging
  log : List PagingCall

def PagingCall.apply (s : Paging) : PagingCall → Paging
  | .map vaddr paddr flags => pagingMap s vaddr paddr flags
  | .mapHuge vaddr paddr flags => pagingMapHuge s vaddr paddr flags

def pagingStep (t : PagingRun) (call : PagingCall) : Option PagingRun :=
  some ⟨call.apply t.tables, call :: t.log⟩

/-- The address that the newest call covering `vaddr` gives it. -/
def lastMapped (log : List PagingCall) (vaddr : BitVec 64) : Option Nat :=
  log.findSome? (PagingCall.covers vaddr)

/-- Bits 47 to 63 of a canonical address are equal. -/
def Canonical (vaddr : BitVec 64) : Prop :=
  vaddr.toNat < 2 ^ 47 ∨ 2 ^ 64 - 2 ^ 47 ≤ vaddr.toNat

/-- Flag bits below bit 12, but not the huge bit. -/
def FlagsOk (flags : BitVec 64) : Prop := flags.toNat < 2 ^ 12 ∧ isHuge flags = false

/-- The arguments that the calls are made for. -/
def PagingCall.Proper : PagingCall → Prop
  | .map vaddr paddr flags =>
    Canonical vaddr ∧ paddr.toNat % 2 ^ 12 = 0 ∧ paddr.toNat < 2 ^ 52 ∧ FlagsOk flags
  | .mapHuge vaddr paddr flags =>
    Canonical vaddr ∧ paddr.toNat % 2 ^ 21 = 0 ∧ paddr.toNat < 2 ^ 52 ∧ FlagsOk flags

/-- The page allocator does not run out during a call. -/
def PagingCall.Supplied (s : Paging) (call : PagingCall) : Prop :=
  ∀ k, s.taken ≤ k → k < (call.apply s).taken → s.pages k ≠ 0

/-- A small page does not go where a huge page was mapped. -/
def PagingCall.NotBelowHuge (log : List PagingCall) : PagingCall → Prop
  | .map vaddr _ _ => ∀ v paddr flags, .mapHuge v paddr flags ∈ log →
    v.toNat / 2 ^ 21 ≠ vaddr.toNat / 2 ^ 21
  | .mapHuge _ _ _ => True

/-! ## Bits -/

theorem isHuge_eq (e : BitVec 64) : isHuge e = e.getLsbD 7 := and_bit_bne e (k := 7) (by decide)

theorem flags_and_addrMask {flags : BitVec 64} (h : flags.toNat < 2 ^ 12) : flags &&& addrMask = 0 := by
  apply eq_of_getLsbD_eq
  intro k hk
  rw [getLsbD_and, getLsbD_addrMask hk]
  by_cases hlow : k < 12
  · simp [show ¬ 12 ≤ k by omega]
  · have hbit : flags.getLsbD k = false :=
      Nat.testBit_lt_two_pow (Nat.lt_of_lt_of_le h (Nat.pow_le_pow_right (by decide) (by omega)))
    simp [hbit]

theorem and_pageMask_div (v : BitVec 64) {k : Nat} (hk : 12 ≤ k) :
    (v &&& pageMask).toNat / 2 ^ k = v.toNat / 2 ^ k := by
  have hmask : ∀ j : Fin 64, pageMask.getLsbD j = decide (12 ≤ j.val) := by decide
  apply eq_of_testBit_eq
  intro j
  rw [testBit_div_two_pow, testBit_div_two_pow]
  change (v &&& pageMask).getLsbD (j + k) = v.getLsbD (j + k)
  rw [getLsbD_and]
  by_cases hlt : j + k < 64
  · have := hmask ⟨j + k, hlt⟩
    simp only at this
    simp [this, show 12 ≤ j + k by omega]
  · simp [getLsbD_of_ge v (j + k) (by omega)]

theorem tableIndex_masked (v : BitVec 64) (l : Nat) :
    tableIndex (v &&& pageMask).toNat l = tableIndex v.toNat l := by
  rw [tableIndex, tableIndex, and_pageMask_div v (by omega)]

theorem page_and_pageMask {f : Nat} (hf : f < 2 ^ 40) :
    BitVec.ofNat 64 (f * pageSize) &&& pageMask = BitVec.ofNat 64 (f * pageSize) := by
  rw [← page_and_addrMask hf, BitVec.and_assoc, show addrMask &&& pageMask = addrMask from by decide]

/-- An aligned physical address as a frame. -/
theorem paddr_eq {paddr : BitVec 64} (h : paddr.toNat % 2 ^ 12 = 0) (hlt : paddr.toNat < 2 ^ 52) :
    ∃ f < 2 ^ 40, paddr = BitVec.ofNat 64 (f * pageSize) := by
  refine ⟨paddr.toNat / 2 ^ 12, by omega, ?_⟩
  rw [pageSize, show paddr.toNat / 2 ^ 12 * 4096 = paddr.toNat by omega, ofNat_toNat, setWidth_eq]

theorem flags_or {flags extra : BitVec 64} (h : flags.toNat < 2 ^ 12) (hextra : extra &&& addrMask = 0) :
    (flags ||| extra) &&& addrMask = 0 := by
  rw [BitVec.and_comm, BitVec.and_or_distrib_left, BitVec.and_comm addrMask, BitVec.and_comm addrMask,
    flags_and_addrMask h, hextra]
  rfl

section Entries

variable {f : Nat} {flags paddr : BitVec 64}

theorem frame_pagingTableEntry (hf : f < 2 ^ 40) (hflags : FlagsOk flags) :
    entryFrame (pagingTableEntry (f * pageSize) flags) = f := by
  rw [entryFrame, pagingTableEntry, BitVec.or_assoc, BitVec.or_assoc,
    entryAddr_or hf (flags_or hflags.1 (by decide))]
  exact frame_address f

theorem present_pagingTableEntry (page : Nat) : present (pagingTableEntry page flags) = true := by
  simp [present_eq, pagingTableEntry, vmFlagPresent]

theorem isHuge_pagingTableEntry (hflags : FlagsOk flags) :
    isHuge (pagingTableEntry (f * pageSize) flags) = false := by
  have hpage : (BitVec.ofNat 64 (f * pageSize)).getLsbD 7 = false := by
    rw [getLsbD_ofNat, pageSize, show 4096 = 2 ^ 12 from rfl, testBit_mul_two_pow]
    simp
  have hflag := hflags.2
  rw [isHuge_eq] at hflag ⊢
  rw [pagingTableEntry, getLsbD_or, getLsbD_or, getLsbD_or, hpage, hflag]
  rfl

/-- A small page leads to its frame. -/
theorem addr_smallEntry (hp : paddr.toNat % 2 ^ 12 = 0) (hlt : paddr.toNat < 2 ^ 52)
    (hflags : FlagsOk flags) : entryAddr (smallEntry (paddr &&& pageMask) flags) = paddr.toNat ∧
      present (smallEntry (paddr &&& pageMask) flags) = true := by
  obtain ⟨f, hf, rfl⟩ := paddr_eq hp hlt
  refine ⟨?_, by simp [smallEntry, present_eq, vmFlagPresent]⟩
  rw [page_and_pageMask hf, smallEntry, BitVec.or_assoc, entryAddr_or hf (flags_or hflags.1 (by decide)),
    toNat_page hf]

theorem getLsbD_hugeMask {k : Nat} (hk : k < 64) : hugeMask.getLsbD k = decide (21 ≤ k) := by
  have h : ∀ k : Fin 64, hugeMask.getLsbD k = decide (21 ≤ k.val) := by decide
  exact h ⟨k, hk⟩

/-- A huge page leads to its address. -/
theorem addr_hugeEntry (hp : paddr.toNat % 2 ^ 21 = 0) (hlt : paddr.toNat < 2 ^ 52)
    (hflags : FlagsOk flags) :
    (hugeEntry (paddr &&& pageMask) flags &&& hugeMask).toNat = paddr.toNat ∧
      present (hugeEntry (paddr &&& pageMask) flags) = true ∧
      isHuge (hugeEntry (paddr &&& pageMask) flags) = true := by
  obtain ⟨f, hf, hpage⟩ := paddr_eq (show paddr.toNat % 2 ^ 12 = 0 by omega) hlt
  have hmask : paddr &&& pageMask = paddr := by
    rw [hpage]
    exact page_and_pageMask hf
  rw [hmask, hugeEntry]
  refine ⟨congrArg BitVec.toNat ?_, by simp [present_eq, vmFlagPresent],
    by simp [isHuge_eq, vmFlagHuge]⟩
  apply BitVec.eq_of_getLsbD_eq
  intro k hk
  rw [getLsbD_and, getLsbD_hugeMask hk]
  by_cases hlow : k < 21
  · have hbit : paddr.getLsbD k = false := by
      change paddr.toNat.testBit k = false
      rw [show paddr.toNat = paddr.toNat / 2 ^ 21 * 2 ^ 21 by omega, testBit_mul_two_pow]
      simp [show ¬ 21 ≤ k by omega]
    simp [hbit, show ¬ 21 ≤ k by omega]
  have hflag : flags.getLsbD k = false :=
    Nat.testBit_lt_two_pow (Nat.lt_of_lt_of_le hflags.1 (Nat.pow_le_pow_right (by decide) (by omega)))
  have hp : vmFlagPresent.getLsbD k = false :=
    testBit_lt_two_pow (lt_of_lt_of_le (show 1 < 2 ^ 21 by decide)
      (Nat.pow_le_pow_right (by decide) (by omega)))
  have hh : vmFlagHuge.getLsbD k = false :=
    testBit_lt_two_pow (lt_of_lt_of_le (show 0x80 < 2 ^ 21 by decide)
      (Nat.pow_le_pow_right (by decide) (by omega)))
  rw [getLsbD_or, getLsbD_or, getLsbD_or, hflag, hp, hh]
  simp [show 21 ≤ k by omega]

end Entries

/-! ## The tree of tables -/

/-- The table an entry leads to; a huge page is none. -/
def pagingNext (e : BitVec 64) : Option Nat :=
  if present e && !isHuge e then some (entryFrame e) else none

/-- The table at the end of a path of indices. -/
def Paging.tableAt (s : Paging) (p : List (Fin 512)) : Option Nat :=
  Radix.tableAt pagingNext s.mem s.pml4 p

/-- The entry that decides an address, and whether it is that of a huge page. -/
def Paging.leaf (s : Paging) (a b c d : Fin 512) : Option (BitVec 64 × Bool) :=
  (s.tableAt [a, b]).bind fun pd =>
    if isHuge (s.mem pd c) then some (s.mem pd c, true)
    else (s.tableAt [a, b, c]).bind fun pt => (presentEntry (s.mem pt d)).map fun e => (e, false)

/-- The answers of the page allocator: pages that differ from each other and from the top
    table. -/
structure PagesFresh (s : Paging) : Prop where
  frame : ∀ k, s.pages k ≠ 0 → ∃ f, f < 2 ^ 40 ∧ s.pages k = f * pageSize
  apart : ∀ j k, s.pages j ≠ 0 → s.pages j = s.pages k → j = k
  root : ∀ k, s.pages k ≠ 0 → s.pages k ≠ s.pml4 * pageSize

/-- A path to a table. -/
def ToTable (p : List (Fin 512)) : Prop := p.length ≤ 3

theorem toTable_closed : Radix.Closed ToTable := fun p i h => by
  unfold ToTable at *
  rw [length_append, length_singleton] at h
  omega

/-- The tables are a tree of pages that were taken; what is not present is zero; and there are
    no huge pages above the third level. -/
structure PagingOk (s : Paging) : Prop where
  fresh : PagesFresh s
  tree : Radix.IsTree pagingNext s.mem s.pml4 ToTable
  used : ∀ p f, ToTable p → s.tableAt p = some f →
    f = s.pml4 ∨ f ≠ 0 ∧ ∃ k < s.taken, s.pages k = f * pageSize
  absent : ∀ p t i, ToTable p → s.tableAt p = some t → present (s.mem t i) = false → s.mem t i = 0
  upper : ∀ p t i, p.length ≤ 1 → s.tableAt p = some t → present (s.mem t i) = true →
    isHuge (s.mem t i) = false

section Tree

variable {s s' s'' : Paging} {p q : List (Fin 512)} {i a b c d : Fin 512} {t f : Nat}
  {flags : BitVec 64} {e : BitVec 64}

theorem pagingNext_zero : pagingNext 0 = none := by decide

theorem pagingNext_absent (h : present e = false) : pagingNext e = none := by
  rw [pagingNext, h]
  rfl

theorem Paging.tableAt_concat :
    s.tableAt (p ++ [i]) = (s.tableAt p).bind fun t => pagingNext (s.mem t i) :=
  Radix.tableAt_concat

theorem pagingNext_tableEntry (hf : f < 2 ^ 40) (hflags : FlagsOk flags) :
    pagingNext (pagingTableEntry (f * pageSize) flags) = some f := by
  rw [pagingNext, present_pagingTableEntry, isHuge_pagingTableEntry hflags,
    frame_pagingTableEntry hf hflags]
  rfl

/-- The next page is not a table yet. -/
theorem PagingOk.next_page (h : PagingOk s) (hpage : s.pages s.taken ≠ 0) : ∃ f, f < 2 ^ 40 ∧
    s.pages s.taken = f * pageSize ∧ ∀ q, ToTable q → s.tableAt q ≠ some f := by
  obtain ⟨f, hlt, hf⟩ := h.fresh.frame s.taken hpage
  refine ⟨f, hlt, hf, fun q hq ht => ?_⟩
  rcases h.used q f hq ht with hroot | ⟨-, k, hk, hk'⟩
  · exact h.fresh.root s.taken hpage (by rw [hf, hroot])
  · have := h.fresh.apart s.taken k hpage (by rw [hk', hf])
    omega

/-- A table below the top one is not the null pointer. -/
theorem PagingOk.table_ne_zero (h : PagingOk s) (hp : ToTable (p ++ [i]))
    (ht : s.tableAt (p ++ [i]) = some f) : f ≠ 0 := by
  rcases h.used _ f hp ht with rfl | ⟨hf, -⟩
  · have := h.tree _ [] _ hp (Nat.zero_le _) ht rfl
    simp at this
  · exact hf

/-- The state with a new table at entry `i` of the table `t`. -/
def Paging.linked (s : Paging) (t : Nat) (i : Fin 512) (f : Nat) (flags : BitVec 64) : Paging :=
  { s with
    taken := s.taken + 1
    mem := writeEntry (clearTable s.mem f) t i (pagingTableEntry (f * pageSize) flags) }

/-- What a new table changes. -/
structure Linked (s s' : Paging) (p : List (Fin 512)) (i : Fin 512) (t f : Nat) : Prop where
  table : ∀ q, ToTable q → s'.tableAt q = if q = p ++ [i] then some f else s.tableAt q
  cleared : ∀ j, s'.mem f j = 0
  slot : present (s'.mem t i) = true ∧ isHuge (s'.mem t i) = false
  other : ∀ g j, g ≠ f → (g, j) ≠ (t, i) → s'.mem g j = s.mem g j

theorem PagingOk.linked (h : PagingOk s) (hp : p.length ≤ 2) (ht : s.tableAt p = some t)
    (hfree : present (s.mem t i) = false) (hf : f < 2 ^ 40)
    (hnew : ∀ q, ToTable q → s.tableAt q ≠ some f) (hflags : FlagsOk flags) :
    Linked s (s.linked t i f flags) p i t f := by
  have hp3 : ToTable p := by unfold ToTable; omega
  have htf : t ≠ f := fun heq => hnew p hp3 (heq ▸ ht)
  have hmem : ∀ g j, (s.linked t i f flags).mem g j =
      if g = t ∧ j = i then pagingTableEntry (f * pageSize) flags
      else if g = f then 0 else s.mem g j := fun g j => by
    change writeEntry (clearTable s.mem f) t i _ g j = _
    rw [writeEntry_apply, clearTable_apply]
  have hslot : (s.linked t i f flags).mem t i = pagingTableEntry (f * pageSize) flags := by
    rw [hmem, if_pos ⟨rfl, rfl⟩]
  have hclear : ∀ j, (s.linked t i f flags).mem f j = 0 := fun j => by
    rw [hmem, if_neg fun hc => htf hc.1.symm, if_pos rfl]
  have hother : ∀ g j, g ≠ f → (g, j) ≠ (t, i) → (s.linked t i f flags).mem g j = s.mem g j :=
    fun g j hg hne => by
      rw [hmem, if_neg fun hc => hne (by rw [hc.1, hc.2]), if_neg hg]
  refine ⟨fun q hq => ?_, hclear, ?_, hother⟩
  · exact tableAt_link toTable_closed h.tree hp3 ht (pagingNext_absent hfree) hnew
      (fun j => by rw [hclear, pagingNext_zero]) (by rw [hslot, pagingNext_tableEntry hf hflags])
      hother hq
  · rw [hslot]
    exact ⟨present_pagingTableEntry _, isHuge_pagingTableEntry hflags⟩

theorem Paging.tableAt_three :
    s.tableAt [a, b, c] = (s.tableAt [a, b]).bind fun t => pagingNext (s.mem t c) :=
  Paging.tableAt_concat (p := [a, b])

theorem toTable_two : ToTable [a, b] := le_succ 2

theorem toTable_three : ToTable [a, b, c] := le_rfl

/-- What decides an address: two tables and an entry of each. -/
theorem Paging.leaf_congr (h2 : s'.tableAt [a, b] = s.tableAt [a, b])
    (h3 : s'.tableAt [a, b, c] = s.tableAt [a, b, c])
    (hpd : ∀ pd, s.tableAt [a, b] = some pd → s'.mem pd c = s.mem pd c)
    (hpt : ∀ pt, s.tableAt [a, b, c] = some pt → s'.mem pt d = s.mem pt d) :
    s'.leaf a b c d = s.leaf a b c d := by
  unfold Paging.leaf
  rw [h2, h3]
  cases ht : s.tableAt [a, b] with
  | none => rfl
  | some pd =>
    rw [bind_some, bind_some, hpd pd ht]
    cases hu : s.tableAt [a, b, c] with
    | none => rfl
    | some pt => rw [bind_some, bind_some, hpt pt hu]

/-- A new table maps nothing. -/
theorem Linked.leaf_eq (hl : Linked s s' p i t f) (h : PagingOk s) (hp : p.length ≤ 2)
    (ht : s.tableAt p = some t) (hfree : present (s.mem t i) = false)
    (hnew : ∀ q, ToTable q → s.tableAt q ≠ some f) (a b c d : Fin 512) :
    s'.leaf a b c d = s.leaf a b c d := by
  have hp3 : ToTable p := by unfold ToTable; omega
  have h2 := hl.table _ (toTable_two (a := a) (b := b))
  have h3 := hl.table _ (toTable_three (a := a) (b := b) (c := c))
  by_cases h2p : [a, b] = p ++ [i]
  · -- the new table takes the place of the third level
    have hold : s.tableAt [a, b] = none := by
      rw [h2p, Paging.tableAt_concat, ht, bind_some, pagingNext_absent hfree]
    rw [if_pos h2p] at h2
    rw [Paging.leaf, Paging.leaf, Paging.tableAt_three, h2, hold, bind_some, bind_some, hl.cleared]
    rfl
  by_cases h3p : [a, b, c] = p ++ [i]
  · -- the new table is one of the last level
    obtain ⟨rfl, hci⟩ := append_inj' (show [a, b] ++ [c] = p ++ [i] from h3p) rfl
    cases hci
    have hzero := h.absent _ t i hp3 ht hfree
    rw [if_neg h2p, ht] at h2
    rw [if_pos h3p] at h3
    simp only [Paging.leaf, h2, h3, Paging.tableAt_three (s := s), ht, bind_some, hzero,
      hl.slot.2, hl.cleared]
    rfl
  refine Paging.leaf_congr (h2.trans (if_neg h2p)) (h3.trans (if_neg h3p)) (fun pd hpd => ?_)
    fun pt hpt => ?_
  · refine hl.other pd c (fun heq => hnew _ toTable_two (heq ▸ hpd)) fun heq => ?_
    cases heq
    exact h3p (congrArg (· ++ [i]) (h.tree _ _ _ toTable_two hp3 hpd ht))
  · refine hl.other pt d (fun heq => hnew _ toTable_three (heq ▸ hpt)) fun heq => ?_
    cases heq
    rw [← h.tree _ _ _ toTable_three hp3 hpt ht] at hp
    simp at hp

theorem PagingOk.link (h : PagingOk s) (hf0 : f ≠ 0) (hpage : s.pages s.taken = f * pageSize)
    (hnew : ∀ q, ToTable q → s.tableAt q ≠ some f) (hl : Linked s s' p i t f)
    (hs' : s'.pml4 = s.pml4 ∧ s'.pages = s.pages ∧ s'.taken = s.taken + 1) : PagingOk s' := by
  obtain ⟨hroot, hpages, htaken⟩ := hs'
  refine ⟨⟨hpages ▸ h.fresh.frame, hpages ▸ h.fresh.apart, hpages ▸ hroot ▸ h.fresh.root⟩,
    fun q r g hq hr hqg hrg => ?_, fun q g hq hqg => ?_, fun q g j hq hqg hj => ?_,
    fun q g j hq hqg hj => ?_⟩
  · change s'.tableAt q = some g at hqg
    change s'.tableAt r = some g at hrg
    rw [hl.table q hq] at hqg
    rw [hl.table r hr] at hrg
    split at hqg <;> split at hrg
    · next hq' hr' => rw [hq', hr']
    · cases hqg
      exact absurd hrg (hnew r hr)
    · cases hrg
      exact absurd hqg (hnew q hq)
    · exact h.tree q r g hq hr hqg hrg
  · rw [hl.table q hq] at hqg
    rw [hroot, hpages, htaken]
    split at hqg
    · cases hqg
      exact .inr ⟨hf0, s.taken, lt_succ_self _, hpage⟩
    · exact (h.used q g hq hqg).imp_right fun ⟨hg, k, hk, hk'⟩ =>
        ⟨hg, k, lt_succ_of_lt hk, hk'⟩
  · rw [hl.table q hq] at hqg
    split at hqg
    · cases hqg
      exact hl.cleared j
    have hgf : g ≠ f := fun heq => hnew q hq (heq ▸ hqg)
    by_cases hslot : (g, j) = (t, i)
    · cases hslot
      exact absurd (hl.slot.1.symm.trans hj) (by decide)
    · rw [hl.other g j hgf hslot] at hj ⊢
      exact h.absent q g j hq hqg hj
  · have hq3 : ToTable q := by unfold ToTable; omega
    rw [hl.table q hq3] at hqg
    split at hqg
    · cases hqg
      rw [hl.cleared] at hj
      exact absurd hj (by decide)
    have hgf : g ≠ f := fun heq => hnew q hq3 (heq ▸ hqg)
    by_cases hslot : (g, j) = (t, i)
    · cases hslot
      exact hl.slot.2
    · rw [hl.other g j hgf hslot] at hj ⊢
      exact h.upper q g j hq hqg hj

/-- Tables may be added, but every address keeps its mapping. -/
structure Extends (s s' : Paging) : Prop where
  ok : PagingOk s'
  root : s'.pml4 = s.pml4
  leaf : ∀ a b c d, s'.leaf a b c d = s.leaf a b c d

theorem Extends.refl (h : PagingOk s) : Extends s s := ⟨h, rfl, fun _ _ _ _ => rfl⟩

theorem Extends.trans (h : Extends s s') (h' : Extends s' s'') : Extends s s'' :=
  ⟨h'.ok, h'.root.trans h.root, fun a b c d => (h'.leaf a b c d).trans (h.leaf a b c d)⟩

/-- `get_or_create_table` finds or adds the next table of a path, unless a huge page is there. -/
theorem getOrCreateTable_spec (h : PagingOk s) (hp : p.length ≤ 2) (ht : s.tableAt p = some t)
    (hhuge : p.length = 2 → isHuge (s.mem t i) = false) (hflags : FlagsOk flags)
    (hpages : s.taken < (getOrCreateTable s t i flags).2.taken → s.pages s.taken ≠ 0) :
    ∃ t' s', getOrCreateTable s t i flags = (some t', s') ∧ Extends s s' ∧
      s'.tableAt (p ++ [i]) = some t' := by
  unfold getOrCreateTable at hpages ⊢
  by_cases hpresent : present (s.mem t i) = true
  · have hsmall : isHuge (s.mem t i) = false := by
      by_cases hlast : p.length = 2
      · exact hhuge hlast
      · exact h.upper p t i (by omega) ht hpresent
    have hnext : s.tableAt (p ++ [i]) = some (entryFrame (s.mem t i)) := by
      rw [Paging.tableAt_concat, ht, bind_some, pagingNext, hpresent, hsmall]
      rfl
    refine ⟨_, s, ?_, .refl h, hnext⟩
    rw [if_pos hpresent, if_neg (h.table_ne_zero (by simp [ToTable]; omega) hnext)]
  · have hfree : present (s.mem t i) = false := by simpa using hpresent
    have hne : s.pages s.taken ≠ 0 := by
      refine hpages ?_
      rw [if_neg hpresent]
      dsimp only
      split <;> exact lt_succ_self _
    obtain ⟨f, hf, hpage, hnew⟩ := h.next_page hne
    rw [hpage] at hne
    have hl := h.linked hp ht hfree hf hnew hflags
    have hf0 : f ≠ 0 := fun h0 => hne (by rw [h0, Nat.zero_mul])
    refine ⟨f, s.linked t i f flags, ?_, ⟨h.link hf0 hpage hnew hl ⟨rfl, rfl, rfl⟩, rfl,
      fun a b c d => hl.leaf_eq h hp ht hfree hnew a b c d⟩, ?_⟩
    · rw [if_neg hpresent]
      simp only [hpage, if_neg hne, frame_address]
      rfl
    · rw [hl.table _ (by simp [ToTable]; omega), if_pos rfl]

/-- A huge page at an entry of the third level shows in what it maps. -/
theorem isHuge_of_leaf (ht : s.tableAt [a, b] = some t)
    (h : ∀ d e, s.leaf a b c d ≠ some (e, true)) : isHuge (s.mem t c) = false := by
  by_contra hhuge
  refine h 0 (s.mem t c) ?_
  rw [Paging.leaf, ht, bind_some, if_pos (by simpa using hhuge)]

theorem getOrCreateTable_taken (s : Paging) (t : Nat) (i : Fin 512) (flags : BitVec 64) :
    s.taken ≤ (getOrCreateTable s t i flags).2.taken ∧
      (getOrCreateTable s t i flags).2.pages = s.pages := by
  unfold getOrCreateTable
  dsimp only
  split
  · exact ⟨le_rfl, rfl⟩
  · split <;> exact ⟨le_succ _, rfl⟩

theorem getOrCreateTables_taken (path : List (Fin 512)) (s : Paging) (t : Nat) :
    s.taken ≤ (getOrCreateTables flags path s t).2.taken := by
  induction path generalizing s t with
  | nil => exact le_rfl
  | cons i path ih =>
    have hstep := (getOrCreateTable_taken s t i flags).1
    unfold getOrCreateTables
    split
    · next s₁ heq =>
      rw [heq] at hstep
      exact hstep
    · next t₁ s₁ heq =>
      rw [heq] at hstep
      exact hstep.trans (ih s₁ t₁)

/-- A walk finds or adds the tables of a path that does not go through a huge page. -/
theorem getOrCreateTables_spec (path : List (Fin 512)) (h : PagingOk s)
    (hlen : p.length + path.length ≤ 3) (ht : s.tableAt p = some t) (hflags : FlagsOk flags)
    (hsmall : ∀ a b c, p ++ path = [a, b, c] → ∀ d e, s.leaf a b c d ≠ some (e, true))
    (hpages : ∀ k, s.taken ≤ k → k < (getOrCreateTables flags path s t).2.taken → s.pages k ≠ 0) :
    ∃ t' s', getOrCreateTables flags path s t = (some t', s') ∧ Extends s s' ∧
      s'.tableAt (p ++ path) = some t' := by
  induction path generalizing s t p with
  | nil => exact ⟨t, s, rfl, .refl h, by rw [append_nil]; exact ht⟩
  | cons i path ih =>
    rw [length_cons] at hlen
    obtain ⟨hle, hkept⟩ := getOrCreateTable_taken s t i flags
    have hhuge : p.length = 2 → isHuge (s.mem t i) = false := fun hlast => by
      -- the third level, where a huge page could be
      obtain ⟨a, b, rfl⟩ := length_eq_two.mp hlast
      obtain rfl : path = [] := length_eq_zero_iff.mp (by simp at hlen; omega)
      exact isHuge_of_leaf ht (hsmall a b i rfl)
    have hfirst : (getOrCreateTable s t i flags).2.taken ≤
        (getOrCreateTables flags (i :: path) s t).2.taken := by
      unfold getOrCreateTables
      split
      · next heq => exact (congrArg (fun r => r.2.taken) heq).le
      · next t₁ s₁ heq => rw [heq]; exact getOrCreateTables_taken path s₁ t₁
    obtain ⟨t₁, s₁, hstep, hext, ht₁⟩ := getOrCreateTable_spec h (by omega) ht hhuge hflags
      fun htaken => hpages _ le_rfl (htaken.trans_le hfirst)
    rw [hstep] at hle hkept
    unfold getOrCreateTables at hpages ⊢
    rw [hstep] at hpages ⊢
    obtain ⟨t₂, s₂, hwalk, hext₂, ht₂⟩ := ih (p := p ++ [i]) hext.ok (by simp; omega) ht₁
      (fun a b c hpath d e => by
        rw [hext.leaf]
        exact hsmall a b c (by rw [← hpath]; simp) d e)
      (fun k hk hk' => by
        change s₁.pages = s.pages at hkept
        rw [hkept]
        exact hpages k (hle.trans hk) hk')
    exact ⟨t₂, s₂, hwalk, hext.trans hext₂, by rw [← ht₂]; simp⟩

/-! ## Writing a page -/

/-- Writing a present entry keeps the tables in order, when every table is one from before. -/
theorem PagingOk.write_entry {p : List (Fin 512)} {i : Fin 512} (h : PagingOk s) (hp : ToTable p)
    (hlen : 2 ≤ p.length) (ht : s.tableAt p = some t) (he : present e = true)
    (hmem : ∀ g j, s'.mem g j = if g = t ∧ j = i then e else s.mem g j) (hs' : s' = s.write t i e)
    (hold : ∀ q g, ToTable q → s'.tableAt q = some g → s.tableAt q = some g) : PagingOk s' := by
  refine ⟨?_, fun q r g hq hr hqg hrg => ?_, fun q g hq hqg => ?_, fun q g j hq hqg hj => ?_,
    fun q g j hq hqg hj => ?_⟩
  · rw [hs']
    exact ⟨h.fresh.frame, h.fresh.apart, h.fresh.root⟩
  · exact h.tree q r g hq hr (hold q g hq hqg) (hold r g hr hrg)
  · rw [hs']
    exact h.used q g hq (hold q g hq hqg)
  · rw [hmem] at hj ⊢
    split at hj
    · exact absurd (he.symm.trans hj) (by decide)
    · next hne =>
      rw [if_neg hne]
      exact h.absent q g j hq (hold q g hq hqg) hj
  · have hq3 : ToTable q := by unfold ToTable; omega
    have hgt : ¬ (g = t ∧ j = i) := by
      rintro ⟨rfl, -⟩
      have hsame : q = p := h.tree _ _ _ hq3 hp (hold q g hq3 hqg) ht
      rw [hsame] at hq
      omega
    rw [hmem, if_neg hgt] at hj ⊢
    exact h.upper q g j hq (hold q g hq3 hqg) hj

/-- An entry of a last-level table. -/
theorem PagingOk.writeSmall (h : PagingOk s) (ht : s.tableAt [a, b, c] = some t)
    (he : present e = true) (hs' : s' = s.write t d e) :
    PagingOk s' ∧ ∀ a' b' c' d', s'.leaf a' b' c' d' =
      if [a', b', c', d'] = [a, b, c, d] then some (e, false) else s.leaf a' b' c' d' := by
  have hmem : ∀ g j, s'.mem g j = if g = t ∧ j = d then e else s.mem g j := fun g j => by
    rw [hs']
    exact writeEntry_apply s.mem g
  -- the table is of the last level, so it is not on the way to another one
  have habove : ∀ q g, q.length ≤ 2 → s.tableAt q = some g → ∀ j, s'.mem g j = s.mem g j :=
    fun q g hq hg j => by
      rw [hmem, if_neg]
      rintro ⟨rfl, -⟩
      have := h.tree _ _ _ (by unfold ToTable; omega) toTable_three hg ht
      rw [this] at hq
      simp at hq
  have htable : ∀ q, ToTable q → s'.tableAt q = s.tableAt q := fun q hq => by
    have hroot : s'.pml4 = s.pml4 := by rw [hs']; rfl
    rw [Paging.tableAt, Paging.tableAt, hroot]
    refine tableAt_congr toTable_closed (fun q i g hqi hg => ?_) hq
    have hlen : q.length ≤ 2 := by
      rw [ToTable, length_append, length_singleton] at hqi
      omega
    rw [habove q g hlen hg]
  refine ⟨h.write_entry toTable_three (by simp) ht he hmem hs' fun q g hq hqg => htable q hq ▸ hqg,
    fun a' b' c' d' => ?_⟩
  by_cases hpath : [a', b', c', d'] = [a, b, c, d]
  · cases hpath
    rw [if_pos rfl, Paging.leaf, htable _ toTable_two, htable _ toTable_three, ht, bind_some,
      hmem, if_pos ⟨rfl, rfl⟩]
    obtain ⟨pd, hpd, hpt⟩ := bind_eq_some_iff.mp (Paging.tableAt_three.symm.trans ht)
    have hsmall : isHuge (s.mem pd c) = false := by
      by_contra hhuge
      simp [pagingNext, hhuge] at hpt
    rw [hpd, bind_some, habove _ _ (by simp) hpd, hsmall]
    simp [presentEntry, he]
  · rw [if_neg hpath]
    refine Paging.leaf_congr (htable _ toTable_two) (htable _ toTable_three)
      (fun pd hpd => habove _ _ (by simp) hpd _) fun pt hpt => ?_
    rw [hmem, if_neg]
    rintro ⟨rfl, rfl⟩
    cases h.tree _ _ _ toTable_three toTable_three hpt ht
    exact hpath rfl

/-- A huge entry of a third-level table. -/
theorem PagingOk.writeHuge (h : PagingOk s) (ht : s.tableAt [a, b] = some t)
    (he : present e = true ∧ isHuge e = true) (hs' : s' = s.write t c e) :
    PagingOk s' ∧ ∀ a' b' c' d', s'.leaf a' b' c' d' =
      if [a', b', c'] = [a, b, c] then some (e, true) else s.leaf a' b' c' d' := by
  have hmem : ∀ g j, s'.mem g j = if g = t ∧ j = c then e else s.mem g j := fun g j => by
    rw [hs']
    exact writeEntry_apply s.mem g
  have hslot : s'.mem t c = e := by rw [hmem, if_pos ⟨rfl, rfl⟩]
  have hother : ∀ g j, (g, j) ≠ (t, c) → s'.mem g j = s.mem g j := fun g j hne => by
    rw [hmem, if_neg fun hc => hne (by rw [hc.1, hc.2])]
  have htable : ∀ q, ToTable q → s'.tableAt q = if q = [a, b, c] then none else s.tableAt q :=
    fun q hq => by
      have hroot : s'.pml4 = s.pml4 := by rw [hs']; rfl
      rw [Paging.tableAt, Paging.tableAt, hroot, tableAt_cut toTable_closed h.tree toTable_two ht
        (by rw [hslot, pagingNext, he.2]; simp) hother hq]
      refine if_congr ⟨fun hpre => ?_, fun heq => by rw [heq]; rfl⟩ rfl rfl
      exact (hpre.eq_of_length_le hq).symm
  have hold : ∀ {q g}, ToTable q → s'.tableAt q = some g → s.tableAt q = some g := fun hq hg => by
    rw [htable _ hq] at hg
    split at hg
    · cases hg
    · exact hg
  refine ⟨h.write_entry toTable_two (by simp) ht he.1 hmem hs' fun q g hq hqg => hold hq hqg,
    fun a' b' c' d' => ?_⟩
  have h2 := (htable _ (toTable_two (a := a') (b := b'))).trans (if_neg (by simp))
  have h3 := htable _ (toTable_three (a := a') (b := b') (c := c'))
  by_cases hpath : [a', b', c'] = [a, b, c]
  · cases hpath
    rw [if_pos rfl, Paging.leaf, h2, ht, bind_some, hslot, he.2, if_pos rfl]
  rw [if_neg hpath]
  refine Paging.leaf_congr h2 (h3.trans (if_neg hpath)) (fun pd hpd => hother pd c' fun heq => ?_)
    fun pt hpt => hother pt d' fun heq => ?_
  · cases heq
    cases h.tree _ _ _ toTable_two toTable_two hpd ht
    exact hpath rfl
  · cases heq
    cases h.tree _ _ _ toTable_three toTable_two hpt ht

end Tree

/-! ## Addresses -/

section Addresses

variable {s : Paging} {v v' paddr flags : BitVec 64}

/-- The entry that decides `v`. -/
def Paging.leafOf (s : Paging) (v : BitVec 64) : Option (BitVec 64 × Bool) :=
  s.leaf (tableIndex v.toNat 3) (tableIndex v.toNat 2) (tableIndex v.toNat 1) (tableIndex v.toNat 0)

/-- The physical address of `v` below an entry. -/
def physOf (v : BitVec 64) : BitVec 64 × Bool → Nat
  | (e, true) => u64 ((e &&& hugeMask).toNat + v.toNat % 2 ^ 21)
  | (e, false) => u64 (entryAddr e + v.toNat % 2 ^ 12)

/-- Canonical addresses with the same upper indices lie in the same 2 MB. -/
theorem sameRegion_iff (hv : Canonical v) (hv' : Canonical v') :
    [tableIndex v.toNat 3, tableIndex v.toNat 2, tableIndex v.toNat 1] =
      [tableIndex v'.toNat 3, tableIndex v'.toNat 2, tableIndex v'.toNat 1] ↔
      v'.toNat / 2 ^ 21 = v.toNat / 2 ^ 21 := by
  have h := v.isLt
  have h' := v'.isLt
  unfold Canonical at hv hv'
  simp only [List.cons.injEq, tableIndex, Fin.ext_iff, Fin.ofNat, and_true]
  omega

/-- Canonical addresses with the same indices lie in the same page. -/
theorem samePage_iff (hv : Canonical v) (hv' : Canonical v') :
    [tableIndex v.toNat 3, tableIndex v.toNat 2, tableIndex v.toNat 1, tableIndex v.toNat 0] =
      [tableIndex v'.toNat 3, tableIndex v'.toNat 2, tableIndex v'.toNat 1, tableIndex v'.toNat 0] ↔
      v'.toNat / 2 ^ 12 = v.toNat / 2 ^ 12 := by
  have h := v.isLt
  have h' := v'.isLt
  unfold Canonical at hv hv'
  simp only [List.cons.injEq, tableIndex, Fin.ext_iff, Fin.ofNat, and_true]
  omega

/-- A lookup reads the entry that decides the address. -/
theorem pagingGetPhysical_eq (h : PagingOk s) (v : BitVec 64) :
    pagingGetPhysical s v = ((s.leafOf v).map (physOf v)).getD 0 := by
  have hnext : ∀ e, present e = true → isHuge e = false → pagingNext e = some (entryFrame e) :=
    fun e hp hh => by rw [pagingNext, hp, hh]; rfl
  unfold pagingGetPhysical Paging.leafOf Paging.leaf
  dsimp only
  generalize tableIndex v.toNat 3 = a
  generalize tableIndex v.toNat 2 = b
  generalize tableIndex v.toNat 1 = c
  generalize tableIndex v.toNat 0 = d
  split
  · next habsent =>
    have hnone : s.tableAt [a, b] = none := by
      simp [Paging.tableAt, tableAt, pagingNext_absent habsent]
    rw [hnone]
    rfl
  next hpdpt =>
  rw [Bool.not_eq_false] at hpdpt
  have hpdpt' : s.tableAt [a] = some (entryFrame (s.mem s.pml4 a)) := by
    simp [Paging.tableAt, tableAt, hnext _ hpdpt (h.upper [] s.pml4 a (by simp) rfl hpdpt)]
  generalize entryFrame (s.mem s.pml4 a) = pdpt at hpdpt'
  have hpd := Paging.tableAt_concat (s := s) (p := [a]) (i := b)
  rw [hpdpt', bind_some, singleton_append] at hpd
  split
  · next habsent =>
    rw [hpd, pagingNext_absent habsent]
    rfl
  next hpresent =>
  rw [Bool.not_eq_false] at hpresent
  rw [hnext _ hpresent (h.upper [a] pdpt b (by simp) hpdpt' hpresent)] at hpd
  generalize entryFrame (s.mem pdpt b) = pd at hpd
  have hpt := Paging.tableAt_concat (s := s) (p := [a, b]) (i := c)
  rw [hpd, bind_some] at hpt
  change s.tableAt [a, b, c] = _ at hpt
  rw [hpd, hpt, bind_some]
  split
  · rfl
  next hsmall =>
  rw [Bool.not_eq_true] at hsmall
  split
  · next habsent =>
    rw [pagingNext_absent habsent]
    rfl
  next hthere =>
  rw [Bool.not_eq_false] at hthere
  rw [hnext _ hthere hsmall, bind_some, presentEntry]
  split
  · next habsent =>
    rw [habsent]
    rfl
  · next hpage =>
    rw [Bool.not_eq_false] at hpage
    rw [hpage]
    rfl

/-- A small page takes over its addresses. -/
theorem pagingMap_spec (h : PagingOk s) (hp : (PagingCall.map v paddr flags).Proper)
    (hpages : (PagingCall.map v paddr flags).Supplied s) (hsmall : ∀ e, s.leafOf v ≠ some (e, true)) : PagingOk (pagingMap s v paddr flags) ∧
      ∀ v', Canonical v' → (pagingMap s v paddr flags).leafOf v' =
        if v.toNat / 2 ^ 12 = v'.toNat / 2 ^ 12 then
          some (smallEntry (paddr &&& pageMask) flags, false)
        else s.leafOf v' := by
  obtain ⟨hv, halign, hlt, hflags⟩ := hp
  have hnone : ∀ d e, s.leaf (tableIndex v.toNat 3) (tableIndex v.toNat 2) (tableIndex v.toNat 1) d ≠
      some (e, true) := fun d e hd => by
    refine hsmall e ?_
    unfold Paging.leafOf
    unfold Paging.leaf at hd ⊢
    obtain ⟨pd, hpd, hd⟩ := bind_eq_some_iff.mp hd
    rw [hpd, bind_some]
    split at hd
    · next hhuge => rw [if_pos hhuge, hd]
    · obtain ⟨pt, -, hd⟩ := bind_eq_some_iff.mp hd
      obtain ⟨e', -, hd⟩ := map_eq_some_iff.mp hd
      cases hd
  obtain ⟨pt, s₁, hwalk, hext, ht⟩ := getOrCreateTables_spec (p := [])
    [tableIndex v.toNat 3, tableIndex v.toNat 2, tableIndex v.toNat 1] h (by simp) rfl hflags
    (fun a b c hpath => by cases hpath; exact hnone) fun k hk hk' => hpages k hk (by
      simp only [PagingCall.apply, pagingMap, tableIndex_masked]
      split
      · next heq => rwa [heq] at hk'
      · next heq => rwa [heq] at hk')
  obtain ⟨hok, hleaf⟩ := hext.ok.writeSmall (d := tableIndex v.toNat 0) ht
    (addr_smallEntry halign hlt hflags).2 rfl
  have hmap : pagingMap s v paddr flags =
      s₁.write pt (tableIndex v.toNat 0) (smallEntry (paddr &&& pageMask) flags) := by
    simp only [pagingMap, tableIndex_masked, hwalk]
  rw [hmap]
  refine ⟨hok, fun v' hv' => ?_⟩
  rw [Paging.leafOf, hleaf, hext.leaf]
  exact if_congr (samePage_iff hv' hv) rfl rfl

/-- A huge page takes over its addresses. -/
theorem pagingMapHuge_spec (h : PagingOk s) (hp : (PagingCall.mapHuge v paddr flags).Proper)
    (hpages : (PagingCall.mapHuge v paddr flags).Supplied s) :
    PagingOk (pagingMapHuge s v paddr flags) ∧
      ∀ v', Canonical v' → (pagingMapHuge s v paddr flags).leafOf v' =
        if v.toNat / 2 ^ 21 = v'.toNat / 2 ^ 21 then
          some (hugeEntry (paddr &&& pageMask) flags, true)
        else s.leafOf v' := by
  obtain ⟨hv, halign, hlt, hflags⟩ := hp
  obtain ⟨pd, s₁, hwalk, hext, ht⟩ := getOrCreateTables_spec (p := [])
    [tableIndex v.toNat 3, tableIndex v.toNat 2] h (by simp) rfl hflags
    (fun a b c hpath => by cases hpath) fun k hk hk' => hpages k hk (by
      simp only [PagingCall.apply, pagingMapHuge, tableIndex_masked]
      split
      · next heq => rwa [heq] at hk'
      · next heq => rwa [heq] at hk')
  obtain ⟨hok, hleaf⟩ := hext.ok.writeHuge (c := tableIndex v.toNat 1) ht
    (addr_hugeEntry halign hlt hflags).2 rfl
  have hmap : pagingMapHuge s v paddr flags =
      s₁.write pd (tableIndex v.toNat 1) (hugeEntry (paddr &&& pageMask) flags) := by
    simp only [pagingMapHuge, tableIndex_masked, hwalk]
  rw [hmap]
  refine ⟨hok, fun v' hv' => ?_⟩
  rw [Paging.leafOf, hleaf, hext.leaf]
  exact if_congr (sameRegion_iff hv' hv) rfl rfl

end Addresses

/-! ## Runs -/

/-- The tables refine the log: every address has the mapping of the newest call that covers it,
    and only `paging_map_huge` makes huge pages. -/
structure Refines (t : PagingRun) : Prop where
  ok : PagingOk t.tables
  mapped : ∀ v, Canonical v → (t.tables.leafOf v).map (physOf v) = lastMapped t.log v
  huge : ∀ v e, Canonical v → t.tables.leafOf v = some (e, true) →
    ∃ v' paddr flags, .mapHuge v' paddr flags ∈ t.log ∧ v'.toNat / 2 ^ 21 = v.toNat / 2 ^ 21

/-- The conditions on a call in a run. -/
structure PagingCall.Ok (t : PagingRun) (call : PagingCall) : Prop where
  proper : call.Proper
  supplied : call.Supplied t.tables
  notBelowHuge : call.NotBelowHuge t.log

theorem Refines.step {t : PagingRun} {call : PagingCall} (h : Refines t) (hcall : call.Ok t) :
    ∃ t', pagingStep t call = some t' ∧ Refines t' := by
  obtain ⟨hp, hpages, hfree⟩ := hcall
  cases call with
  | map v paddr flags =>
    obtain ⟨hv, halign, hlt, hflags⟩ := hp
    obtain ⟨hok, hleaf⟩ := pagingMap_spec h.ok ⟨hv, halign, hlt, hflags⟩ hpages fun e he => by
      obtain ⟨v', paddr', flags', hmem, hregion⟩ := h.huge v e hv he
      exact hfree v' paddr' flags' hmem hregion
    refine ⟨_, rfl, hok, fun v' hv' => ?_, fun v' e hv' he => ?_⟩
    · dsimp only [PagingCall.apply]
      rw [hleaf v' hv', lastMapped, findSome?_cons, PagingCall.covers]
      split
      · rw [map_some, physOf, (addr_smallEntry halign hlt hflags).1, u64_of_lt (by omega)]
      · exact h.mapped v' hv'
    · dsimp only [PagingCall.apply] at he
      rw [hleaf v' hv'] at he
      split at he
      · cases he
      · obtain ⟨w, p, f, hmem, hregion⟩ := h.huge v' e hv' he
        exact ⟨w, p, f, mem_cons_of_mem _ hmem, hregion⟩
  | mapHuge v paddr flags =>
    obtain ⟨hv, halign, hlt, hflags⟩ := hp
    obtain ⟨hok, hleaf⟩ := pagingMapHuge_spec h.ok ⟨hv, halign, hlt, hflags⟩ hpages
    refine ⟨_, rfl, hok, fun v' hv' => ?_, fun v' e hv' he => ?_⟩
    · dsimp only [PagingCall.apply]
      rw [hleaf v' hv', lastMapped, findSome?_cons, PagingCall.covers]
      split
      · rw [map_some, physOf, (addr_hugeEntry halign hlt hflags).1, u64_of_lt (by omega)]
      · exact h.mapped v' hv'
    · dsimp only [PagingCall.apply] at he
      rw [hleaf v' hv'] at he
      split at he
      · next hregion => exact ⟨v, paddr, flags, mem_cons_self, hregion⟩
      · obtain ⟨w, p, f, hmem, hregion⟩ := h.huge v' e hv' he
        exact ⟨w, p, f, mem_cons_of_mem _ hmem, hregion⟩

/-- With a cleared top table nothing is mapped. -/
theorem refines_cleared {s : Paging} (hfresh : PagesFresh s) (hclear : ∀ i, s.mem s.pml4 i = 0) :
    Refines ⟨s, []⟩ := by
  have htable : ∀ p f, s.tableAt p = some f → p = [] ∧ f = s.pml4 := fun p f hf => by
    cases p with
    | nil => exact ⟨rfl, (some.inj hf).symm⟩
    | cons i p =>
      rw [Paging.tableAt, tableAt_cons, hclear, pagingNext_zero] at hf
      cases hf
  have hleaf : ∀ v, s.leafOf v = none := fun v => by
    cases hpd : s.tableAt [tableIndex v.toNat 3, tableIndex v.toNat 2] with
    | none => rw [Paging.leafOf, Paging.leaf, hpd]; rfl
    | some pd => cases (htable _ _ hpd).1
  refine ⟨⟨hfresh, fun p q f _ _ hpf hqf => ?_, fun p f _ hf => .inl (htable p f hf).2,
    fun p t i _ ht _ => ?_, fun p t i _ ht hi => ?_⟩, fun v _ => ?_, fun v e _ he => ?_⟩
  · rw [(htable p f hpf).1, (htable q f hqf).1]
  · rw [(htable p t ht).2]
    exact hclear i
  · rw [(htable p t ht).2, hclear i] at hi
    exact absurd hi (by decide)
  · rw [hleaf]
    rfl
  · rw [hleaf] at he
    cases he

/-- In every run whose small pages stay away from huge ones, a lookup gives the address of the
    newest call that covers it, and 0 for an address that none covers. -/
theorem paging_last_mapping (s : Paging) (hfresh : PagesFresh s) (hclear : ∀ i, s.mem s.pml4 i = 0)
    (calls : List PagingCall)
    (hok : AllOk pagingStep (fun t call => call.Ok t) ⟨s, []⟩ calls) :
    Always pagingStep (fun t => ∀ v, Canonical v →
      pagingGetPhysical t.tables v = (lastMapped t.log v).getD 0) ⟨s, []⟩ calls := by
  have hrun := always_of_allOk (fun t call (h : Refines t) hc => h.step hc)
    (refines_cleared hfresh hclear) hok
  exact hrun.mono fun t h v hv => by rw [pagingGetPhysical_eq h.ok, h.mapped v hv]

/-- An empty machine: the top table is page 1, and the allocator has the pages 2 to 9. -/
def emptyPaging : Paging :=
  ⟨fun _ _ => 0, 1, fun k => if k < 8 then (k + 2) * pageSize else 0, 0⟩

theorem emptyPaging_fresh : PagesFresh emptyPaging := by
  have hpage : ∀ k, emptyPaging.pages k ≠ 0 → k < 8 ∧ emptyPaging.pages k = (k + 2) * pageSize :=
    fun k hk => by
      by_cases hlt : k < 8
      · exact ⟨hlt, if_pos hlt⟩
      · exact absurd (if_neg hlt) hk
  refine ⟨fun k hk => ?_, fun j k hj hjk => ?_, fun k hk => ?_⟩
  · obtain ⟨hlt, heq⟩ := hpage k hk
    exact ⟨k + 2, by omega, heq⟩
  · obtain ⟨-, hj'⟩ := hpage j hj
    obtain ⟨-, hk'⟩ := hpage k (hjk ▸ hj)
    rw [hj', hk', pageSize] at hjk
    omega
  · rw [(hpage k hk).2]
    change (k + 2) * pageSize ≠ 1 * pageSize
    rw [pageSize]
    omega

/-- A huge page and a small page apart from it. -/
def apartPages : List PagingCall := [.mapHuge 0x40000000 0x200000 2, .map 0x5000 0x7000 2]

/-- Both are found. -/
theorem paging_last_mapping_apart : Always pagingStep (fun t => ∀ v, Canonical v →
    pagingGetPhysical t.tables v = (lastMapped t.log v).getD 0) ⟨emptyPaging, []⟩ apartPages := by
  -- the two calls take five pages
  have hpages : ∀ s : Paging, s.pages = emptyPaging.pages → ∀ call : PagingCall,
      (call.apply s).taken ≤ 8 → call.Supplied s := fun s hs call hlast k _ hk => by
    rw [hs]
    change (if k < 8 then (k + 2) * pageSize else 0) ≠ 0
    rw [if_pos (by omega), pageSize]
    omega
  refine paging_last_mapping emptyPaging emptyPaging_fresh (fun _ => rfl) apartPages ⟨?_, ?_⟩
  · exact ⟨by unfold PagingCall.Proper Canonical FlagsOk; decide,
      hpages _ rfl _ (by decide), trivial⟩
  rintro t₁ ⟨⟩
  refine ⟨⟨by unfold PagingCall.Proper Canonical FlagsOk; decide,
    hpages (PagingCall.apply emptyPaging (.mapHuge 0x40000000 0x200000 2)) rfl _
      (by decide), ?_⟩, fun _ _ => trivial⟩
  intro v paddr flags hmem
  cases mem_singleton.mp hmem
  decide

/-- A small page inside a huge one. -/
def nestedPages : List PagingCall := [.mapHuge 0x40000000 0x200000 2, .map 0x40000000 0x5000 2]

/-- The small page is written into the memory of the huge one, which is still found. -/
theorem small_page_below_huge : ¬ Always pagingStep (fun t => ∀ v, Canonical v →
    pagingGetPhysical t.tables v = (lastMapped t.log v).getD 0) ⟨emptyPaging, []⟩ nestedPages := by
  rintro ⟨-, t₁, ht₁, -, t₂, ht₂, hlast⟩
  cases ht₁
  cases ht₂
  have hget := hlast 0x40000000 (by unfold Canonical; decide)
  revert hget
  decide

end OpenSys
