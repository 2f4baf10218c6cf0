-- SUMMARY: Copy-on-write isolation over a family of address spaces.
import OpenSys.Lib.Run
import OpenSys.Process.CloneRoom
import OpenSys.Process.VmProtect

/-!
# Isolation of cloned address spaces

After `vm_clone_space` the two spaces share their pages, and a write fault is meant
to give the writer a page of its own. `vm_handle_cow_fault` decides by the reference
count of the page whether to copy it. The allocator hands pages out with count 0, and
the first clone leaves the count at 1 for two spaces, so the first writer gets the
shared page itself.
-/

namespace OpenSys

open List Option

/-! ## User accesses -/

def userPage (e : BitVec 64) : Bool := e &&& vmFlagUser != 0

/-- The contents of the page at `virt` for the user code of a space. All tables on the
    way are open to user code, so the entry of the page decides. -/
def userView (s : Vm) (space : VmSpace) (virt : Nat) : Option (Fin 512 → BitVec 64) :=
  ((s.virtPage space.root virt).filter userPage).map fun e => s.mem (entryFrame e)

/-- The word of its page that an address lies in. -/
def wordIndex (addr : Nat) : Fin 512 := index512 (addr / 8)

/-- A store by user code, which faults unless the page is a writable user page. -/
def userStore (s : Vm) (space : VmSpace) (addr : Nat) (w : BitVec 64) : Option Vm :=
  match s.virtPage space.root addr with
  | none => none
  | some e =>
    if userWritable e then
      some { s with mem := writeEntry s.mem (entryFrame e) (wordIndex addr) w }
    else none

/-- The error code of a write fault in user mode: the first bit says whether there is
    a page. -/
def faultCode (s : Vm) (space : VmSpace) (addr : Nat) : BitVec 64 :=
  if (s.virtPage space.root addr).isSome then 7 else 6

/-- A write by user code. `isr_handler` panics when `vm_handle_cow_fault` does not
    resolve the fault; otherwise the store is repeated. When it faults again the entry
    is not copy-on-write any more, and the second fault is a panic. -/
def userWrite (s : Vm) (space : VmSpace) (addr : Nat) (w : BitVec 64) : Option Vm :=
  match userStore s space addr w with
  | some s => some s
  | none =>
    match vmHandleCowFault s space addr (faultCode s space addr) with
    | (status, s) => if status = 0 then userStore s space addr w else none

/-! ## Runs of writes and clones -/

/-- The address spaces of the machine, by number. -/
structure CowState where
  vm : Vm
  spaces : List VmSpace

inductive CowAct where
  | write (k addr : Nat) (w : BitVec 64)
  | clone (k : Nat)

/-- One act of space `k`. A clone that fails is not a step. -/
def cowStep (c : CowState) : CowAct → Option CowState
  | .write k addr w =>
    (c.spaces[k]?).bind fun space =>
      (userWrite c.vm space addr w).map fun vm => { c with vm := vm }
  | .clone k =>
    (c.spaces[k]?).bind fun space =>
      match vmCloneSpace c.vm space with
      | (none, _) => none
      | (some dst, vm) => some ⟨vm, c.spaces ++ [dst]⟩

/-- Writes go to the user half. -/
def CowAct.User : CowAct → Prop
  | .write _ addr _ => UserVirt addr
  | .clone _ => True

/-- The act is not a write by space `k`. -/
def CowAct.notWriteOf (k : Nat) : CowAct → Bool
  | .write j _ _ => j != k
  | .clone _ => true

/-- No write is visible through another space, in any run of writes and clones, and two
    runs that differ only in the writes of one space give the others the same contents. -/
structure Isolated (c : CowState) : Prop where
  unseen : ∀ acts c₁, (∀ a ∈ acts, a.User) → Run.run cowStep c acts = some c₁ →
    ∀ k addr w c₂, UserVirt addr → cowStep c₁ (.write k addr w) = some c₂ →
    ∀ j space, j ≠ k → c₁.spaces[j]? = some space → ∀ virt, UserVirt virt →
      userView c₂.vm space virt = userView c₁.vm space virt
  twoRuns : ∀ k acts acts' c₁ c₂, (∀ a ∈ acts, a.User) → (∀ a ∈ acts', a.User) →
    acts.filter (·.notWriteOf k) = acts'.filter (·.notWriteOf k) →
    Run.run cowStep c acts = some c₁ → Run.run cowStep c acts' = some c₂ →
    ∀ j space, j ≠ k → c.spaces[j]? = some space → ∀ virt, UserVirt virt →
      userView c₁.vm space virt = userView c₂.vm space virt

/-! ## Resolving a fault in place -/

/-- A page that cloning shares: a user page that is writable or copy-on-write. -/
def sharable (e : BitVec 64) : Bool := userPage e && (userWritable e || e &&& vmFlagCow != 0)

/-- The entry that `vm_handle_cow_fault` writes when it does not copy the page. -/
def ownEntry (e : BitVec 64) : BitVec 64 := e &&& ~~~vmFlagCow ||| vmFlagWritable

variable {s s' : Vm} {space src dst : VmSpace} {root addr virt t f : Nat} {i j : Fin 512}
  {e w : BitVec 64} {q : List (Fin 512)}

theorem userPage_eq : userPage e = e.getLsbD 2 := and_bit_bne e (k := 2) (by decide)

theorem cow_eq : (e &&& vmFlagCow != 0) = e.getLsbD 9 := and_bit_bne e (k := 9) (by decide)

theorem sharable_eq : sharable e = (e.getLsbD 2 && (e.getLsbD 1 || e.getLsbD 9)) := by
  rw [sharable, userPage_eq, userWritable_eq, cow_eq]
  cases e.getLsbD 2 <;> simp

theorem sharable_of_userWritable (h : userWritable e = true) : sharable e = true := by
  rw [userWritable_eq, Bool.and_eq_true] at h
  rw [sharable_eq, h.1, h.2]
  rfl

theorem sharable_of_cow (huser : userPage e = true) (hcow : e.getLsbD 9 = true) :
    sharable e = true := by
  rw [sharable_eq, ← userPage_eq, huser, hcow, Bool.or_true]
  rfl

theorem getLsbD_ownEntry {k : Nat} (hk : k < 64) :
    (ownEntry e).getLsbD k = (decide (k = 1) || (e.getLsbD k && !decide (k = 9))) := by
  rw [ownEntry, BitVec.getLsbD_or, BitVec.getLsbD_and, BitVec.getLsbD_not,
    getLsbD_vmFlagWritable hk, getLsbD_vmFlagCow hk]
  simp [hk, Bool.or_comm]

theorem present_ownEntry : present (ownEntry e) = present e := by
  rw [present_eq, present_eq, getLsbD_ownEntry (by decide)]
  simp

theorem userWritable_ownEntry : userWritable (ownEntry e) = userPage e := by
  rw [userWritable_eq, userPage_eq, getLsbD_ownEntry (by decide), getLsbD_ownEntry (by decide)]
  simp

theorem entryFrame_ownEntry : entryFrame (ownEntry e) = entryFrame e := by
  have hand : ownEntry e &&& addrMask = e &&& addrMask := by
    apply BitVec.eq_of_getLsbD_eq
    intro k hk
    rw [BitVec.getLsbD_and, BitVec.getLsbD_and, getLsbD_ownEntry hk, getLsbD_addrMask hk]
    by_cases hmask : 12 ≤ k ∧ k < 52
    · simp [hmask, show k ≠ 9 by omega, show k ≠ 1 by omega]
    · simp [hmask]
  rw [entryFrame, entryFrame, entryAddr, entryAddr, hand]

theorem entryNext_ownEntry : entryNext (ownEntry e) = entryNext e := by
  rw [entryNext, entryNext, present_ownEntry, entryFrame_ownEntry]

/-- After cloning, a sharable page is copy-on-write and not writable. -/
theorem shareEntry_of_sharable (h : sharable e = true) (hpresent : present e = true) :
    (shareEntry e).getLsbD 9 = true ∧ (shareEntry e).getLsbD 2 = true ∧
      userWritable (shareEntry e) = false := by
  rw [sharable_eq] at h
  cases hw : writablePage e with
  | true =>
    rw [shareEntry, hw, if_pos rfl, getLsbD_cowEntry (by decide), getLsbD_cowEntry (by decide),
      userWritable_cowEntry]
    simp_all
  | false =>
    rw [writablePage, hpresent, Bool.true_and] at hw
    rw [shareEntry, writablePage, hw, Bool.and_false, if_neg Bool.false_ne_true]
    rw [userWritable_eq] at hw ⊢
    simp_all

theorem tableIndex_page (addr level : Nat) :
    tableIndex (addr / pageSize * pageSize) level = tableIndex addr level := by
  have hdiv : addr / pageSize * pageSize / 2 ^ (12 + 9 * level) = addr / 2 ^ (12 + 9 * level) := by
    rw [Nat.pow_add, ← Nat.div_div_eq_div_mul, ← Nat.div_div_eq_div_mul]
    rw [show (2 : Nat) ^ 12 = pageSize from rfl, frame_address]
  rw [tableIndex, tableIndex, hdiv]

theorem virtPath_page (addr : Nat) : virtPath (addr / pageSize * pageSize) = virtPath addr := by
  simp only [virtPath, tableIndex_page]

theorem nullEntry_page : NullEntry s root (addr / pageSize * pageSize) ↔ NullEntry s root addr := by
  rw [NullEntry, NullEntry, virtPath_page, tableIndex_page]

/-- Entries that lead to the same tables give the same paths. -/
theorem Vm.tableAt_congr (h : ∀ f i, entryNext (s'.mem f i) = entryNext (s.mem f i)) :
    s'.tableAt root q = s.tableAt root q :=
  Radix.tableAt_congr (D := fun _ => True) (fun _ _ _ => trivial) (fun _ _ _ _ _ => h _ _) trivial

/-- A fault on a copy-on-write page with at most one reference is resolved in place. -/
theorem vmHandleCowFault_own (hnull : ¬ NullEntry s space.root addr) (ht : s.tableAt space.root (virtPath addr) = some t)
    (he : s.mem t (tableIndex addr 0) = e) (hpresent : present e = true)
    (hcow : e.getLsbD 9 = true) (hrefs : pmmRefCount s.pmm (entryAddr e) ≤ 1) :
    vmHandleCowFault s space addr 7 =
      (0, { s with mem := writeEntry s.mem t (tableIndex addr 0) (ownEntry e) }) := by
  have hcode : ¬ ((7 : BitVec 64) &&& 3 ≠ 3) := by decide
  have hflag : ¬ (e &&& vmFlagCow = 0) := by
    rw [← cow_eq, bne_iff_ne] at hcow
    exact hcow
  rw [vmHandleCowFault, if_neg hcode, getPte_false (nullEntry_page.not.mpr hnull), virtPath_page, ht,
    tableIndex_page]
  simp only [map_some, he, hpresent, Bool.not_true, Bool.false_eq_true, if_false, hflag,
    if_pos hrefs]
  rfl

theorem vmHandleCowFault_null (hnull : NullEntry s space.root addr) :
    vmHandleCowFault s space addr 7 = (-1, s) := by
  have hcode : ¬ ((7 : BitVec 64) &&& 3 ≠ 3) := by decide
  rw [vmHandleCowFault, if_neg hcode, getPte_null (nullEntry_page.mpr hnull)]

/-- Other faults on a page are not resolved. -/
theorem vmHandleCowFault_fails (hnull : ¬ NullEntry s space.root addr) (ht : s.tableAt space.root (virtPath addr) = some t)
    (hcow : (s.mem t (tableIndex addr 0)).getLsbD 9 = false) :
    vmHandleCowFault s space addr 7 = (-1, s) := by
  have hcode : ¬ ((7 : BitVec 64) &&& 3 ≠ 3) := by decide
  have hflag : s.mem t (tableIndex addr 0) &&& vmFlagCow = 0 := by
    rw [← cow_eq, bne_eq_false_iff_eq] at hcow
    exact hcow
  rw [vmHandleCowFault, if_neg hcode, getPte_false (nullEntry_page.not.mpr hnull), virtPath_page, ht,
    tableIndex_page]
  simp only [map_some, hflag, if_true, ite_self]

/-- The tables after a fault that was resolved in place. -/
theorem tableAt_own (he : s.mem t i = e) :
    ({ s with mem := writeEntry s.mem t i (ownEntry e) } : Vm).tableAt root q = s.tableAt root q := by
  refine Vm.tableAt_congr fun g j => ?_
  dsimp only
  rw [writeEntry_apply]
  split
  · rename_i hslot
    rw [entryNext_ownEntry, hslot.1, hslot.2, he]
  · rfl

/-- The page of the fault. -/
theorem virtPage_own (ht : s.tableAt root (virtPath addr) = some t)
    (he : s.mem t (tableIndex addr 0) = e) (hpresent : present e = true) :
    ({ s with mem := writeEntry s.mem t (tableIndex addr 0) (ownEntry e) } : Vm).virtPage root addr =
      some (ownEntry e) := by
  rw [Vm.virtPage, Vm.pageAt, tableAt_own he, ht, bind_some]
  dsimp only
  rw [writeEntry_apply, if_pos ⟨rfl, rfl⟩, presentEntry, present_ownEntry, hpresent, if_pos rfl]

theorem pmmRefCount_le_one {p : Pmm} (h : p.refCounts f = 0 ∨ p.refCounts f = 1) :
    pmmRefCount p (f * pageSize) ≤ 1 := by
  unfold pmmRefCount
  dsimp only
  rw [frame_address f]
  split
  · decide
  · rcases h with h | h <;> rw [h] <;> decide

/-- A page that is not sharable and has no references cannot be written. -/
theorem userWrite_eq_none (h : ∀ e ∈ s.virtPage space.root addr, sharable e = false ∧
    s.pmm.refCounts (entryFrame e) = 0) : userWrite s space addr w = none := by
  cases hpage : s.virtPage space.root addr with
  | none =>
    have hstore : userStore s space addr w = none := by rw [userStore, hpage]
    have hfault : vmHandleCowFault s space addr (faultCode s space addr) = (-1, s) := by
      rw [faultCode, hpage, vmHandleCowFault]
      rfl
    rw [userWrite, hstore, hfault]
    rfl
  | some e =>
    obtain ⟨hsharable, hrefs⟩ := h e hpage
    obtain ⟨t, ht, he, hpresent⟩ := Vm.virtPage_eq_some hpage
    have hcode : faultCode s space addr = 7 := by rw [faultCode, hpage]; rfl
    have hstore : userStore s space addr w = none := by
      rw [userStore, hpage]
      dsimp only
      rw [if_neg fun hw => Bool.false_ne_true (hsharable ▸ sharable_of_userWritable hw)]
    by_cases hnull : NullEntry s space.root addr
    · rw [userWrite, hstore, hcode, vmHandleCowFault_null hnull]
      rfl
    cases hcow : e.getLsbD 9 with
    | false =>
      rw [userWrite, hstore, hcode, vmHandleCowFault_fails hnull ht (he.symm ▸ hcow)]
      rfl
    | true =>
      have hcount : pmmRefCount s.pmm (entryAddr e) ≤ 1 :=
        entryAddr_eq e ▸ pmmRefCount_le_one (.inl hrefs)
      rw [userWrite, hstore, hcode, vmHandleCowFault_own hnull ht he hpresent hcow hcount]
      dsimp only
      rw [if_pos rfl, userStore, virtPage_own ht he hpresent]
      dsimp only
      rw [userWritable_ownEntry]
      rw [if_neg fun huser => Bool.false_ne_true (hsharable ▸ sharable_of_cow huser hcow)]

/-! ## Spaces without sharable pages -/

/-- Cloning shares no page of the user half. -/
def NoSharable (s : Vm) (root : Nat) : Prop :=
  ∀ virt, UserVirt virt → ∀ e ∈ s.virtPage root virt, sharable e = false

/-- Every path into the user half belongs to an address. -/
theorem exists_virt (hq : LowPath q) (hlen : q.length = 3) (i : Fin 512) :
    ∃ virt, UserVirt virt ∧ virtPath virt = q ∧ tableIndex virt 0 = i := by
  obtain ⟨a, b, c, rfl⟩ := length_eq_three.mp hlen
  have ha : a.val < 256 := hq.2 a rfl
  obtain ⟨b, hb⟩ := b
  obtain ⟨c, hc⟩ := c
  obtain ⟨i, hi⟩ := i
  refine ⟨(((a.val * 512 + b) * 512 + c) * 512 + i) * 4096, ?_, ?_, ?_⟩
  · rw [UserVirt, tableIndex_val]
    norm_num
    omega
  · simp only [virtPath, List.cons.injEq, Fin.ext_iff, tableIndex_val, and_true]
    norm_num
    omega
  · rw [Fin.ext_iff, tableIndex_val]
    norm_num
    omega

theorem NoSharable.pageAt (h : NoSharable s root) (hq : LowPath q) (hlen : q.length = 3)
    (he : s.pageAt root q i = some e) : sharable e = false := by
  obtain ⟨virt, huser, rfl, rfl⟩ := exists_virt hq hlen i
  exact h virt huser e he

theorem shareEntry_eq_self (h : sharable e = false) : shareEntry e = e := by
  rw [shareEntry, if_neg]
  intro hw
  rw [writablePage, Bool.and_eq_true] at hw
  rw [sharable_of_userWritable hw.2] at h
  cases h

/-- A space with tables in use and no sharable page, whose pages are in use and not
    counted. -/
structure QuietSpace (s : Vm) (root : Nat) : Prop where
  used : TablesUsed s root
  quiet : NoSharable s root
  pages : ∀ virt, UserVirt virt → ∀ e ∈ s.virtPage root virt,
    entryFrame e ∉ pmmClearPages s.pmm ∧ s.pmm.refCounts (entryFrame e) = 0

variable {r r' : Nat}

/-- Cloning a space without sharable pages changes no page in use and no count. -/
theorem SpaceCloned.unchanged (h : SpaceCloned s s' r r') (hquiet : NoSharable s r) :
    (∀ f ∉ pmmClearPages s.pmm, s'.mem f = s.mem f) ∧ s'.pmm.refCounts = s.pmm.refCounts := by
  have hlast : ∀ t i, (∃ q, LowPath q ∧ q.length = 3 ∧ s.tableAt r q = some t) →
      shareEntry (s.mem t i) = s.mem t i ∧ writablePage (s.mem t i) = false := by
    rintro t i ⟨q, hq, hlen, ht⟩
    have hw : writablePage (s.mem t i) = false := by
      rw [Bool.eq_false_iff]
      intro hw
      obtain ⟨hpresent, hwritable⟩ := Bool.and_eq_true_iff.mp hw
      have hpage : s.pageAt r q i = some (s.mem t i) := by
        rw [Vm.pageAt, ht, bind_some, presentEntry, if_pos hpresent]
      have hno := hquiet.pageAt hq hlen hpage
      rw [sharable_of_userWritable hwritable] at hno
      cases hno
    exact ⟨by rw [shareEntry, hw, if_neg Bool.false_ne_true], hw⟩
  refine ⟨fun f hf => ?_, h.clones.quiet fun t i ht => (hlast t i ht).2⟩
  by_cases hL : ∃ q, LowPath q ∧ q.length = 3 ∧ s.tableAt r q = some f
  · funext i
    rw [h.clones.last f hL i, (hlast f i hL).1]
  · exact h.clones.rows f hf id hL

/-- The page of an address depends on the tables of the space only. -/
theorem Vm.virtPage_congr
    (hrows : ∀ q f, LowPath q → s.tableAt root q = some f → s'.mem f = s.mem f)
    (huser : UserVirt virt) : s'.virtPage root virt = s.virtPage root virt := by
  have hpath := lowPath_virtPath huser
  have htable : s'.tableAt root (virtPath virt) = s.tableAt root (virtPath virt) :=
    Radix.tableAt_congr lowPath_closed
      (fun q i f hq hf => by rw [hrows q f hq.of_append hf]) hpath
  rw [Vm.virtPage, Vm.virtPage, Vm.pageAt, Vm.pageAt, htable]
  cases ht : s.tableAt root (virtPath virt) with
  | none => rfl
  | some t => rw [bind_some, bind_some, hrows _ t hpath ht]

/-- A space with the pages of a quiet one. -/
theorem QuietSpace.of_pages {r' : Nat} (h : QuietSpace s r) (hused : TablesUsed s' r')
    (hpage : ∀ virt, UserVirt virt → s'.virtPage r' virt = s.virtPage r virt)
    (hsubset : pmmClearPages s'.pmm ⊆ pmmClearPages s.pmm)
    (hrefs : s'.pmm.refCounts = s.pmm.refCounts) : QuietSpace s' r' where
  used := hused
  quiet virt huser e he := h.quiet virt huser e (hpage virt huser ▸ he)
  pages virt huser e he := by
    obtain ⟨hused, hzero⟩ := h.pages virt huser e (hpage virt huser ▸ he)
    exact ⟨fun hmem => hused (hsubset hmem), hrefs ▸ hzero⟩

/-- Other spaces do not notice the clone of a space without sharable pages. -/
theorem QuietSpace.cloned (h : QuietSpace s space.root) (hclone : SpaceCloned s s' r r')
    (hquiet : NoSharable s r) : QuietSpace s' space.root ∧
      ∀ virt, UserVirt virt → userView s' space virt = userView s space virt := by
  obtain ⟨hrows, hrefs⟩ := hclone.unchanged hquiet
  have hpage : ∀ virt, UserVirt virt → s'.virtPage space.root virt = s.virtPage space.root virt :=
    fun virt huser => Vm.virtPage_congr (fun q f hq hf => hrows f (h.used q f hq hf)) huser
  refine ⟨h.of_pages (fun q f hq hf hmem => ?_) hpage hclone.clones.subset hrefs, fun virt huser => ?_⟩
  · rw [hclone.tableAt_eq h.used hq] at hf
    exact h.used q f hq hf (hclone.clones.subset hmem)
  rw [userView, userView, hpage virt huser]
  cases he : s.virtPage space.root virt with
  | none => rfl
  | some e =>
    rw [filter_some]
    split
    · rw [map_some, map_some, hrows _ (h.pages virt huser e he).1]
    · rfl

/-- The copy is such a space as well. -/
theorem QuietSpace.copy (h : QuietSpace s r) (hclone : SpaceCloned s s' r r') :
    QuietSpace s' r' := by
  obtain ⟨-, hrefs⟩ := hclone.unchanged h.quiet
  have hpage : ∀ virt, UserVirt virt → s'.virtPage r' virt = s.virtPage r virt := by
    intro virt huser
    rw [Vm.virtPage, Vm.virtPage, hclone.pages _ _ (lowPath_virtPath huser) rfl]
    cases he : s.pageAt r (virtPath virt) (tableIndex virt 0) with
    | none => rfl
    | some e => rw [map_some, shareEntry_eq_self (h.quiet virt huser e he)]
  exact h.of_pages (fun q f hq hf => (hclone.tables q f hq hf).2) hpage hclone.clones.subset hrefs

/-- All spaces of the machine are such spaces. -/
structure QuietInv (c : CowState) : Prop where
  pmm : PmmOk c.vm.pmm
  kernel : c.vm.kernelPml4 / pageSize ∉ pmmClearPages c.vm.pmm
  spaces : ∀ space ∈ c.spaces, QuietSpace c.vm space.root

variable {c c' : CowState} {k : Nat}

/-- No write gets through. -/
theorem QuietInv.write (h : QuietInv c) (huser : UserVirt addr) :
    cowStep c (.write k addr w) = none := by
  rw [cowStep]
  cases hk : c.spaces[k]? with
  | none => rfl
  | some space =>
    have hspace := h.spaces space (mem_of_getElem? hk)
    rw [bind_some, userWrite_eq_none fun e he =>
      ⟨hspace.quiet addr huser e he, (hspace.pages addr huser e he).2⟩]
    rfl

theorem cloneStep_eq_some (h : cowStep c (.clone k) = some c') :
    ∃ space dst, space ∈ c.spaces ∧ vmCloneSpace c.vm space = (some dst, c'.vm) ∧
      c'.spaces = c.spaces ++ [dst] := by
  rw [cowStep, bind_eq_some_iff] at h
  obtain ⟨space, hk, h⟩ := h
  split at h
  · cases h
  · rename_i dst vm hclone
    cases h
    exact ⟨space, dst, mem_of_getElem? hk, hclone, rfl⟩

/-- Clones keep the invariant, and what each space sees. -/
theorem QuietInv.clone (h : QuietInv c) (hstep : cowStep c (.clone k) = some c') :
    QuietInv c' ∧ c.spaces <+: c'.spaces ∧ ∀ space ∈ c.spaces, ∀ virt, UserVirt virt →
      userView c'.vm space virt = userView c.vm space virt := by
  obtain ⟨space, dst, hmem, hclone, hspaces⟩ := cloneStep_eq_some hstep
  have hsrc := h.spaces space hmem
  have hcloned := vmCloneSpace_spec h.pmm h.kernel hsrc.used hclone
  refine ⟨⟨hcloned.clones.pmm, ?_, fun other hother => ?_⟩, ⟨[dst], hspaces.symm⟩, fun other hother =>
    ((h.spaces other hother).cloned hcloned hsrc.quiet).2⟩
  · rw [hcloned.clones.kernel]
    exact fun hclear => h.kernel (hcloned.clones.subset hclear)
  rw [hspaces, mem_append, mem_singleton] at hother
  rcases hother with hold | rfl
  · exact ((h.spaces other hold).cloned hcloned hsrc.quiet).1
  · exact hsrc.copy hcloned

/-- In a run from such a machine only clones happen, and the spaces see what they saw. -/
theorem QuietInv.run {acts : List CowAct} (h : QuietInv c) (huser : ∀ a ∈ acts, a.User)
    (hrun : Run.run cowStep c acts = some c') :
    QuietInv c' ∧ ∀ space ∈ c.spaces, ∀ virt, UserVirt virt →
      userView c'.vm space virt = userView c.vm space virt := by
  induction acts generalizing c with
  | nil =>
    cases hrun
    exact ⟨h, fun _ _ _ _ => rfl⟩
  | cons a acts ih =>
    obtain ⟨c₁, hstep, hrest⟩ := bind_eq_some_iff.mp hrun
    have hacts : ∀ a ∈ acts, a.User := fun b hb => huser b (mem_cons_of_mem a hb)
    cases a with
    | write k addr w =>
      rw [h.write (huser _ mem_cons_self)] at hstep
      cases hstep
    | clone k =>
      obtain ⟨hinv, hgrows, hview⟩ := h.clone hstep
      obtain ⟨hinv', hview'⟩ := ih hinv hacts hrest
      refine ⟨hinv', fun space hspace virt hvirt => ?_⟩
      rw [hview' space (hgrows.subset hspace) virt hvirt, hview space hspace virt hvirt]

theorem QuietInv.isolated (h : QuietInv c) : Isolated c := by
  constructor
  · intro acts c₁ hacts hrun k addr w c₂ huser hwrite
    rw [(h.run hacts hrun).1.write huser] at hwrite
    cases hwrite
  · intro k acts acts' c₁ c₂ hacts hacts' _ hrun hrun' j space _ hspace virt hvirt
    have hmem := mem_of_getElem? hspace
    rw [(h.run hacts hrun).2 space hmem virt hvirt, (h.run hacts' hrun').2 space hmem virt hvirt]

/-! ## Spaces with a sharable page -/

/-- After the clone a page that was not counted has at most one reference. -/
theorem SpaceCloned.refs_le_one (h : SpaceCloned s s' r r') (hused : TablesUsed s r)
    (honce : PagesOnce s r) (huser : UserVirt addr) (hpage : s.virtPage r addr = some e)
    (hzero : s.pmm.refCounts (entryFrame e) = 0) :
    s'.pmm.refCounts (entryFrame e) = 0 ∨ s'.pmm.refCounts (entryFrame e) = 1 := by
  have hpath := lowPath_virtPath huser
  obtain ⟨t, ht, -, -⟩ := Vm.virtPage_eq_some hpage
  have hstep : RefStep (entryFrame e) t (tableIndex addr 0) s s' := by
    refine h.clones.refs _ _ _ (hused _ t hpath ht) id ?_
    rintro t' i ⟨q, hq, hlen, ht'⟩ hw hframe
    have hentry : s.pageAt r q i = some (s.mem t' i) := by
      rw [Vm.pageAt, ht', bind_some, presentEntry, if_pos (Bool.and_eq_true_iff.mp hw).1]
    obtain ⟨rfl, rfl⟩ := honce q i _ _ _ e hq hlen hpath rfl hentry hpage hframe
    rw [ht] at ht'
    exact ⟨(some.inj ht').symm, rfl⟩
  rcases hstep.refs with hsame | ⟨-, -, hone⟩
  · exact .inl (hsame.trans hzero)
  · exact hone hzero

/-- The first write of the source to a shared page shows in the copy. -/
theorem SpaceCloned.leak (h : SpaceCloned s s' src.root dst.root) (hused : TablesUsed s src.root)
    (hnonzero : TablesNonzero s src.root) (honce : PagesOnce s src.root) (huser : UserVirt addr)
    (hpage : s.virtPage src.root addr = some e) (hsharable : sharable e = true)
    (hframe : entryFrame e ∉ pmmClearPages s.pmm) (hzero : s.pmm.refCounts (entryFrame e) = 0)
    (hw : w ≠ s'.mem (entryFrame e) (wordIndex addr)) :
    ∃ s'', userWrite s' src addr w = some s'' ∧ userView s'' dst addr ≠ userView s' dst addr := by
  have hpath := lowPath_virtPath huser
  have hpresent : present e = true := (Vm.virtPage_eq_some hpage).choose_spec.2.2
  obtain ⟨hcow, hbit, hnot⟩ := shareEntry_of_sharable hsharable hpresent
  have hsrc : s'.virtPage src.root addr = some (shareEntry e) := by
    rw [Vm.virtPage, h.source hused hpath rfl]
    exact congrArg (Option.map shareEntry) hpage
  have hdst : s'.virtPage dst.root addr = some (shareEntry e) := by
    rw [Vm.virtPage, h.pages _ _ hpath rfl]
    exact congrArg (Option.map shareEntry) hpage
  have hsame : entryFrame (shareEntry e) = entryFrame e := by
    rw [entryFrame, entryFrame, entryAddr_shareEntry]
  obtain ⟨t, ht, he, hpresent'⟩ := Vm.virtPage_eq_some hsrc
  have htused : t ∉ pmmClearPages s.pmm := hused _ t hpath (h.tableAt_eq hused hpath ▸ ht)
  have hnull : ¬ NullEntry s' src.root addr := fun hnull =>
    hnonzero.not_null huser ⟨h.tableAt_eq hused hpath ▸ hnull.1, hnull.2⟩
  have hcount : pmmRefCount s'.pmm (entryAddr (shareEntry e)) ≤ 1 := by
    rw [entryAddr_eq, hsame]
    exact pmmRefCount_le_one (h.refs_le_one hused honce huser hpage hzero)
  have hstore : userStore s' src addr w = none := by
    rw [userStore, hsrc]
    dsimp only
    rw [hnot, if_neg Bool.false_ne_true]
  have hcode : faultCode s' src addr = 7 := by rw [faultCode, hsrc]; rfl
  -- The state after the fault, and after the store.
  set s₁ : Vm := { s' with mem := writeEntry s'.mem t (tableIndex addr 0) (ownEntry (shareEntry e)) }
    with hs₁
  have hpage₁ : s₁.virtPage src.root addr = some (ownEntry (shareEntry e)) :=
    virtPage_own ht he hpresent'
  set s₂ : Vm := { s₁ with mem := writeEntry s₁.mem (entryFrame e) (wordIndex addr) w } with hs₂
  have hwrite : userWrite s' src addr w = some s₂ := by
    rw [userWrite, hstore, hcode, vmHandleCowFault_own hnull ht he hpresent' hcow hcount, ← hs₁]
    dsimp only
    rw [if_pos rfl, userStore, hpage₁]
    dsimp only
    rw [userWritable_ownEntry, userPage_eq, hbit, if_pos rfl, entryFrame_ownEntry, hsame]
  have hrows : ∀ g ∈ pmmClearPages s.pmm, s₂.mem g = s'.mem g := by
    intro g hg
    have hgt : g ≠ t := fun heq => htused (heq ▸ hg)
    have hgf : g ≠ entryFrame e := fun heq => hframe (heq ▸ hg)
    rw [hs₂, hs₁]
    exact (Function.update_of_ne hgf _ _).trans (Function.update_of_ne hgt _ _)
  have hdst₂ : s₂.virtPage dst.root addr = some (shareEntry e) := by
    rw [← hdst]
    exact Vm.virtPage_congr (fun q g hq hg => hrows g (h.tables q g hq hg).1) huser
  have huserPage : userPage (shareEntry e) = true := userPage_eq.trans hbit
  refine ⟨s₂, hwrite, fun hview => hw ?_⟩
  rw [userView, userView, hdst₂, hdst, filter_some, huserPage, if_pos rfl, map_some,
    map_some, hsame, some.injEq] at hview
  rw [← hview, hs₂]
  dsimp only
  rw [writeEntry_apply, if_pos ⟨rfl, rfl⟩]

/-! ## Building an address space -/

/-- An address space under construction, and the pages taken from `pmm_alloc_page`
    for it. -/
structure BuildState where
  vm : Vm
  space : VmSpace
  pages : List Nat

inductive BuildCall where
  | takePage
  | mapPage (n virt : Nat) (flags : BitVec 64)
  | allocPages (count : Nat) (flags : BitVec 64)

def buildStep (b : BuildState) : BuildCall → Option BuildState
  | .takePage =>
    match pmmAllocPage b.vm.pmm with
    | (page, pmm) =>
      some { b with
        vm := { b.vm with pmm := pmm }
        pages := if page = 0 then b.pages else b.pages ++ [page] }
  | .mapPage n virt flags =>
    (b.pages[n]?).map fun phys => { b with vm := (vmMapPage b.vm b.space virt phys flags).2 }
  | .allocPages count flags =>
    let result := vmAllocPages b.vm b.space count flags
    some { b with vm := result.2.1, space := result.2.2 }

/-- The condition on a call: the address is in the user half, the flags are flags only,
    and there are pages for the tables that are missing. A page may be mapped twice. -/
def BuildCall.Ok (b : BuildState) : BuildCall → Prop
  | .takePage => True
  | .mapPage n virt flags => n < b.pages.length ∧ flags &&& addrMask = 0 ∧ UserVirt virt ∧
      (missingTables b.vm b.space.root virt).card ≤ b.vm.pmm.freePages
  | .allocPages count flags =>
    (∀ k < count, flags &&& addrMask = 0 ∧ UserVirt (pageVirt b.space.heapEnd k)) ∧
      AllocRoom b.vm b.space.root b.space.heapEnd 0 count

def BuildState.frames (b : BuildState) : Finset Nat := (b.pages.map (· / pageSize)).toFinset

/-- The space is well formed, and no page it has or can get is counted. -/
structure BuildInv (b : BuildState) : Prop where
  space : SpaceOk b.frames b.vm b.space.root
  nonzero : TablesNonzero b.vm b.space.root
  kernel : b.vm.kernelPml4 / pageSize ∉ pmmClearPages b.vm.pmm
  aligned : ∀ phys ∈ b.pages, ∃ f < 2 ^ 40, phys = f * pageSize
  free : ∀ f ∈ pmmClearPages b.vm.pmm, b.vm.pmm.refCounts f = 0
  held : ∀ f ∈ b.frames, b.vm.pmm.refCounts f = 0
  mapped : ∀ q i e, LowPath q → q.length = 3 → b.vm.pageAt b.space.root q i = some e →
    b.vm.pmm.refCounts (entryFrame e) = 0

variable {b : BuildState} {n count : Nat} {flags : BitVec 64}

theorem NewSpace.buildInv (h : NewSpace s s' space) (hpmm : PmmOk s.pmm)
    (hkernel : s.kernelPml4 / pageSize ∉ pmmClearPages s.pmm)
    (hrefs : ∀ f ∈ pmmClearPages s.pmm, s.pmm.refCounts f = 0) : BuildInv ⟨s', space, []⟩ where
  space := h.spaceOk (by simp [BuildState.frames])
  nonzero := h.tablesNonzero hpmm
  kernel := by
    dsimp only
    rw [h.kernel, h.clear]
    exact fun hmem => hkernel (Finset.mem_of_mem_erase hmem)
  aligned := by simp
  free := fun f hf => by
    dsimp only at hf ⊢
    rw [h.refs]
    exact hrefs f (Finset.mem_of_mem_erase (h.clear ▸ hf))
  held := by simp [BuildState.frames]
  mapped := fun q i e hq hlen he => by
    dsimp only at he
    rw [h.pageAt_eq_none hq hlen] at he
    cases he

theorem BuildInv.takePage (h : BuildInv b) : ∃ b', buildStep b .takePage = some b' ∧ BuildInv b' := by
  rcases h.space.pmm.allocPage with ⟨-, halloc⟩ | ⟨f, hf, pmm, halloc, hpmm, hclear, hrefs, -⟩
  · exact ⟨b, by rw [buildStep, halloc]; rfl, h⟩
  have hne := h.space.pmm.address_ne hf
  have hsubset : pmmClearPages pmm ⊆ pmmClearPages b.vm.pmm := hclear ▸ Finset.erase_subset f _
  have htake := h.space.takePage hpmm hsubset
  have hstep : buildStep b .takePage =
      some { b with vm := { b.vm with pmm := pmm }, pages := b.pages ++ [f * pageSize] } := by
    rw [buildStep, halloc]
    dsimp only
    rw [if_neg hne]
  have hframes : ∀ g, g ∈ ((b.pages ++ [f * pageSize]).map (· / pageSize)).toFinset ↔
      g ∈ b.frames ∨ g = f := by
    intro g
    simp [BuildState.frames, Nat.mul_div_cancel f (show 0 < pageSize by decide), eq_comm, or_comm]
  refine ⟨_, hstep, ⟨htake.toTreeOk, htake.pageUsed, htake.pageTable, fun g hg => ?_, fun g hg q hq hqg => ?_⟩,
    h.nonzero, fun hmem => h.kernel (hsubset hmem), fun phys hphys => ?_, fun g hg => ?_, fun g hg => ?_, ?_⟩
  · rcases (hframes g).mp hg with hold | rfl
    · exact htake.foreignUsed g hold
    · exact hclear ▸ Finset.notMem_erase g _
  · rcases (hframes g).mp hg with hold | rfl
    · exact htake.foreignTable g hold q hq hqg
    · exact h.space.used q g hq hqg hf
  · rcases mem_append.mp hphys with hold | hnew
    · exact h.aligned phys hold
    · exact ⟨f, Nat.lt_trans (h.space.pmm.lt hf) (by decide), mem_singleton.mp hnew⟩
  · exact (congrFun hrefs g).trans (h.free g (hsubset hg))
  · refine (congrFun hrefs g).trans ?_
    rcases (hframes g).mp hg with hold | rfl
    · exact h.held g hold
    · exact h.free g hf
  · exact fun q i e hq hlen he => (congrFun hrefs _).trans (h.mapped q i e hq hlen he)

/-- A call that draws its pages from the allocator or from those held. -/
theorem BuildInv.draws {space' : VmSpace} (h : BuildInv b) (hroot : space'.root = b.space.root)
    (hspace : SpaceOk b.frames s' b.space.root)
    (htables : ∀ q g, LowPath q → s'.tableAt b.space.root q = some g →
      b.vm.tableAt b.space.root q = some g ∨ g ∈ pmmClearPages b.vm.pmm)
    (hsubset : pmmClearPages s'.pmm ⊆ pmmClearPages b.vm.pmm)
    (hrefs : s'.pmm.refCounts = b.vm.pmm.refCounts) (hkernel : s'.kernelPml4 = b.vm.kernelPml4)
    (hpages : ∀ q i e, LowPath q → q.length = 3 → s'.pageAt b.space.root q i = some e →
      b.vm.pageAt b.space.root q i = some e ∨
        entryFrame e ∈ pmmClearPages b.vm.pmm ∨ entryFrame e ∈ b.frames) :
    BuildInv { b with vm := s', space := space' } := by
  refine ⟨hroot ▸ hspace, fun q hq hzero => ?_, ?_, h.aligned, fun g hg => ?_, fun g hg => ?_,
    fun q i e hq hlen he => ?_⟩
  · rcases htables q 0 hq (hroot ▸ hzero) with hold | hclear
    · exact h.nonzero q hq hold
    · exact h.space.pmm.zero hclear
  · dsimp only
    rw [hkernel]
    exact fun hclear => h.kernel (hsubset hclear)
  · exact (congrFun hrefs g).trans (h.free g (hsubset hg))
  · exact (congrFun hrefs g).trans (h.held g hg)
  · refine (congrFun hrefs _).trans ?_
    rcases hpages q i e hq hlen (hroot ▸ he) with hold | hclear | hheld
    · exact h.mapped q i e hq hlen hold
    · exact h.free _ hclear
    · exact h.held _ hheld

theorem BuildInv.mapPage (h : BuildInv b) (hok : (BuildCall.mapPage n virt flags).Ok b) :
    ∃ b', buildStep b (.mapPage n virt flags) = some b' ∧ BuildInv b' := by
  obtain ⟨hn, hflags, huser, hroom⟩ := hok
  have hphys := getElem?_eq_getElem hn
  have hmem := getElem_mem hn
  obtain ⟨f, hf, hpage⟩ := h.aligned _ hmem
  have hframe : entryFrame (pageEntry (f * pageSize) flags) = f := by
    rw [entryFrame, entryAddr_pageEntry hf hflags]
    exact frame_address f
  have hheld : f ∈ b.frames := by
    refine mem_toFinset.mpr (mem_map.mpr ⟨_, hmem, ?_⟩)
    rw [hpage]
    exact frame_address f
  obtain ⟨s', hmap, hmaps⟩ := h.space.toTreeOk.mapPage (f * pageSize) flags huser
    (h.nonzero.not_null huser) (h.space.pmm.counted.freePages_eq ▸ hroom)
  refine ⟨{ b with vm := s' }, by rw [buildStep, hphys, map_some, hpage, hmap],
    h.draws rfl (h.space.maps hmaps (hframe.symm ▸ h.space.foreignUsed f hheld)
      (hframe.symm ▸ h.space.foreignTable f hheld)) (fun q g hq => hmaps.table_cases hq) hmaps.subset hmaps.refs hmaps.kernel
      fun q i e hq hlen he => ?_⟩
  rcases hmaps.page_cases hq hlen he with ⟨-, -, rfl⟩ | hold
  · exact .inr (.inr (hframe.symm ▸ hheld))
  · exact .inl hold

/-- What `vm_alloc_pages` does to a space under construction. -/
theorem BuildCall.Ok.allocated (hok : (BuildCall.allocPages count flags).Ok b) (hpos : 0 < count)
    (h : SpaceOk b.frames b.vm b.space.root) :
    PagesAllocated b.frames b.space b.space.heapEnd flags 0 count b.vm
      (vmAllocPages b.vm b.space count flags).2.1 := by
  rw [(vmAllocPages_eq b.vm b.space count flags).1]
  refine h.allocLoop (hok.1 0 hpos).1 (fun k hk => ?_) hok.2
  rw [Nat.zero_add]
  exact (hok.1 k hk).2

theorem BuildInv.allocPages (h : BuildInv b) (hok : (BuildCall.allocPages count flags).Ok b) :
    ∃ b', buildStep b (.allocPages count flags) = some b' ∧ BuildInv b' := by
  refine ⟨_, rfl, ?_⟩
  rcases Nat.eq_zero_or_pos count with rfl | hpos
  · exact ⟨h.space, h.nonzero, h.kernel, h.aligned, h.free, h.held, h.mapped⟩
  have halloc := hok.allocated hpos h.space
  obtain ⟨-, hroot⟩ := vmAllocPages_eq b.vm b.space count flags
  have hdraws := halloc.draws
  exact h.draws hroot halloc.ok hdraws.tables hdraws.subset hdraws.refs hdraws.kernel fun q i e hq hlen he =>
    (hdraws.pages q i e hq hlen he).imp_right .inl

theorem BuildInv.step (b : BuildState) (call : BuildCall) (h : BuildInv b) (hok : call.Ok b) :
    ∃ b', buildStep b call = some b' ∧ BuildInv b' := by
  cases call with
  | takePage => exact h.takePage
  | mapPage n virt flags => exact h.mapPage hok
  | allocPages count flags => exact h.allocPages hok

/-! ## Isolation -/

theorem BuildInv.quietSpace (h : BuildInv b) (hno : NoSharable b.vm b.space.root) :
    QuietSpace b.vm b.space.root where
  used := h.space.used
  quiet := hno
  pages := fun _ huser e he =>
    ⟨h.space.pageUsed _ _ e (lowPath_virtPath huser) rfl he,
      h.mapped _ _ e (lowPath_virtPath huser) rfl he⟩

theorem BuildInv.cloned (h : BuildInv b) (hclone : vmCloneSpace b.vm b.space = (some dst, s')) :
    SpaceCloned b.vm s' b.space.root dst.root :=
  vmCloneSpace_spec h.space.pmm h.kernel h.space.used hclone

/-- Without sharable pages the clone is isolated. -/
theorem BuildInv.isolated (h : BuildInv b) (hno : NoSharable b.vm b.space.root)
    (hclone : vmCloneSpace b.vm b.space = (some dst, s')) : Isolated ⟨s', [b.space, dst]⟩ := by
  have hstart : QuietInv ⟨b.vm, [b.space]⟩ := by
    refine ⟨h.space.pmm, h.kernel, fun space hspace => ?_⟩
    rw [mem_singleton.mp hspace]
    exact h.quietSpace hno
  have hstep : cowStep ⟨b.vm, [b.space]⟩ (.clone 0) = some ⟨s', [b.space, dst]⟩ := by
    simp [cowStep, hclone]
  exact (hstart.clone hstep).1.isolated

/-- With a sharable page, mapped once, it is not. -/
theorem BuildInv.not_isolated (h : BuildInv b) (honce : PagesOnce b.vm b.space.root)
    (huser : UserVirt virt) (hpage : b.vm.virtPage b.space.root virt = some e)
    (hsharable : sharable e = true) (hclone : vmCloneSpace b.vm b.space = (some dst, s')) :
    ¬ Isolated ⟨s', [b.space, dst]⟩ := by
  intro hisolated
  have hpath := lowPath_virtPath huser
  set old := s'.mem (entryFrame e) (wordIndex virt) with hold
  have hw : ~~~ old ≠ old := by
    intro heq
    have hbit := congrArg (·.getLsbD 0) heq
    simp at hbit
  obtain ⟨s'', hwrite, hview⟩ := (h.cloned hclone).leak h.space.used h.nonzero honce huser hpage hsharable
    (h.space.pageUsed _ _ e hpath rfl hpage) (h.mapped _ _ e hpath rfl hpage) hw
  refine hview (hisolated.unseen [] _ (by simp) rfl 0 virt (~~~ old) ⟨s'', [b.space, dst]⟩ huser ?_ 1 dst
    (by decide) rfl virt huser)
  simp [cowStep, hwrite]

/-- Copy-on-write isolation of a space and its clone. The space is built with
    `vm_alloc_pages`, `vm_map_page` and `pmm_alloc_page` on a machine whose free pages
    are not counted, and `vm_clone_space` succeeds. The two spaces, and all further
    clones, are isolated when no page of the space is sharable. When each page is mapped
    once, this is the only case in which they are. -/
theorem cow_isolation (s₀ : Vm) (hpmm : PmmOk s₀.pmm)
    (hkernel : s₀.kernelPml4 / pageSize ∉ pmmClearPages s₀.pmm)
    (hrefs : ∀ f ∈ pmmClearPages s₀.pmm, s₀.pmm.refCounts f = 0) (space : VmSpace) (s₁ : Vm)
    (hcreate : vmCreateSpace s₀ = (some space, s₁)) (calls : List BuildCall)
    (hcalls : Run.AllOk buildStep (fun b call => call.Ok b) ⟨s₁, space, []⟩ calls) (b : BuildState)
    (hbuild : Run.run buildStep ⟨s₁, space, []⟩ calls = some b) (dst : VmSpace) (s' : Vm)
    (hclone : vmCloneSpace b.vm b.space = (some dst, s')) :
    (NoSharable b.vm b.space.root → Isolated ⟨s', [b.space, dst]⟩) ∧
      (PagesOnce b.vm b.space.root → Isolated ⟨s', [b.space, dst]⟩ →
        NoSharable b.vm b.space.root) := by
  have hstart := (vmCreateSpace_spec hpmm hkernel hcreate).buildInv hpmm hkernel hrefs
  have hinv : BuildInv b := by
    rw [← append_nil calls] at hcalls
    exact (hcalls.append BuildInv.step hstart hbuild).1
  refine ⟨fun hno => hinv.isolated hno hclone, fun honce hisolated virt huser e he => ?_⟩
  rw [Bool.eq_false_iff]
  exact fun hsharable => hinv.not_isolated honce huser he hsharable hclone hisolated

/-! ## One page -/

/-- A space with one page at the start of its heap. -/
def onePage (flags : BitVec 64) : BuildState :=
  let result := vmAllocPages smallProc.vm smallSpace 1 flags
  ⟨result.2.1, result.2.2, []⟩

instance (b : BuildState) (call : BuildCall) : Decidable (call.Ok b) := by
  cases call <;> unfold BuildCall.Ok <;> infer_instance

theorem onePage_run : Run.run buildStep ⟨smallProc.vm, smallSpace, []⟩ [.allocPages 1 flags] =
    some (onePage flags) := rfl

theorem onePage_ok (hflags : flags &&& addrMask = 0) :
    (BuildCall.allocPages 1 flags).Ok ⟨smallProc.vm, smallSpace, []⟩ := by
  refine ⟨fun k hk => ⟨hflags, ?_⟩, by decide⟩
  rw [Nat.lt_one_iff.mp hk]
  decide

theorem onePage_allocated (hflags : flags &&& addrMask = 0) :
    PagesAllocated ∅ smallSpace smallSpace.heapEnd flags 0 1 smallProc.vm (onePage flags).vm :=
  (onePage_ok hflags).allocated (by decide)
    (smallProc_new.spaceOk fun f hf => absurd hf (Finset.notMem_empty f))

theorem onePage_inv (hflags : flags &&& addrMask = 0) : BuildInv (onePage flags) := by
  have hstart := smallProc_new.buildInv smallVm_pmm (by decide) fun _ _ => rfl
  obtain ⟨b, hstep, hinv⟩ := hstart.allocPages (onePage_ok hflags)
  have hb : onePage flags = b := some.inj hstep
  exact hb ▸ hinv

theorem onePage_once (hflags : flags &&& addrMask = 0) :
    PagesOnce (onePage flags).vm (onePage flags).space.root :=
  (onePage_allocated hflags).once smallProc_new.pagesOnce

/-- The page is the only one. -/
theorem onePage_noSharable (hflags : flags &&& addrMask = 0)
    (hpage : (onePage flags).vm.virtPage smallSpace.root smallSpace.heapEnd = some e)
    (hno : sharable e = false) : NoSharable (onePage flags).vm (onePage flags).space.root := by
  intro virt huser e' he
  by_cases hslot : virtPath virt = virtPath smallSpace.heapEnd ∧
      tableIndex virt 0 = tableIndex smallSpace.heapEnd 0
  · rw [Vm.virtPage, ← hslot.1, ← hslot.2] at hpage
    rw [some.inj (he.symm.trans hpage), hno]
  have hother := (onePage_allocated hflags).others _ (tableIndex virt 0) (lowPath_virtPath huser) rfl
    fun k hk => by rw [Nat.lt_one_iff.mp hk]; exact hslot
  rw [smallProc_new.pageAt_eq_none (lowPath_virtPath huser) rfl] at hother
  cases hother.symm.trans he

/-- A read-only page. -/
theorem cow_isolation_read_only : ∃ dst s',
    vmCloneSpace (onePage 4).vm (onePage 4).space = (some dst, s') ∧
      Isolated ⟨s', [(onePage 4).space, dst]⟩ := by
  have hinv : BuildInv (onePage 4) := onePage_inv (by decide)
  have hpage : (onePage 4).vm.virtPage smallSpace.root smallSpace.heapEnd = some 0x2005 := by
    decide
  obtain ⟨dst, s', hclone⟩ := vmCloneSpace_room hinv.space.pmm hinv.kernel hinv.space.used
    (by decide +kernel)
  refine ⟨dst, s', hclone, ?_⟩
  refine (cow_isolation smallVm smallVm_pmm (by decide) (fun _ _ => rfl) smallSpace _
    smallVm_create [.allocPages 1 4] (by decide) (onePage 4) onePage_run dst s' hclone).1 ?_
  exact onePage_noSharable (by decide) hpage (by decide)

/-- A page that user code can write: the first write after the clone shows in the other
    space. -/
theorem cow_not_isolated : ∃ b dst s',
    Run.run buildStep ⟨smallProc.vm, smallSpace, []⟩ [.allocPages 1 6] = some b ∧
      vmCloneSpace b.vm b.space = (some dst, s') ∧ ¬ Isolated ⟨s', [b.space, dst]⟩ := by
  have hinv : BuildInv (onePage 6) := onePage_inv (by decide)
  have hpage : (onePage 6).vm.virtPage (onePage 6).space.root 0x10000000 = some 0x2007 := by
    decide
  obtain ⟨dst, s', hclone⟩ := vmCloneSpace_room hinv.space.pmm hinv.kernel hinv.space.used
    (by decide +kernel)
  refine ⟨onePage 6, dst, s', onePage_run, hclone, ?_⟩
  exact hinv.not_isolated (onePage_once (by decide)) (by decide) hpage (by decide) hclone

end OpenSys
