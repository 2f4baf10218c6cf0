-- SUMMARY: What the ELF loader leaves in memory, and when this is the image.
import OpenSys.Kernel.Elf
import OpenSys.Lib.PagedMemory
import Mathlib.Data.Nat.Find
import Mathlib.Tactic.IntervalCases

/-!
# The loaded image

`src/kernel/elf.c`, with the memory it works on: the page map of the address space that is
loaded into, which is also the active one, and the contents of the frames. The image lies
outside the pages that are loaded, and the kernel may write to every page that is mapped.

`alloc k` is the answer to the `k`-th `pmm_alloc_page`. The loader does not look at the
result of `vm_map_page`: `takes k` says whether the `k`-th page can be reached after it, that
is, whether its tables were there or could be allocated and its address is canonical.
-/

namespace OpenSys

open Mem Paged Option Nat PagedMem Phdr

abbrev UserMem := PagedMem UInt8

variable {img : Mem} {alloc : Nat → Option Nat} {takes : Nat → Bool} {m m' : UserMem} {h : Phdr}

/-! ## The loader -/

/-- The loop that maps `n` pages from `virt` on, with `k` pages asked for before. -/
def mapSegment (alloc : Nat → Option Nat) (takes : Nat → Bool) :
    (n virt k : Nat) → UserMem → Bool × Nat × UserMem
  | 0, _, k, m => (true, k, m)
  | n + 1, virt, k, m =>
    match alloc k with
    | none => (false, k + 1, m)
    | some f =>
      mapSegment alloc takes n (virt + 4096) (k + 1)
        (if takes k then m.mapPage (u64 virt / 4096) f else m)

/-- The bytes of the file that belong to a segment. -/
def Phdr.fileBytes (img : Mem) (h : Phdr) : List UInt8 :=
  (List.range h.filesz).map fun j => img (u64 (h.offset + j))

/-- Clearing the pages of a segment and copying its data; `none` is a page fault. -/
def fillSegment (img : Mem) (h : Phdr) (m : UserMem) : Option UserMem :=
  (m.storeAll 4096 h.start (List.replicate (h.stop - h.start) 0)).bind fun m =>
    m.storeAll 4096 h.vaddr (h.fileBytes img)

/-- The loop over the program headers: a page fault, a failed allocation, or the memory at
    the end. -/
def loadSegments (img : Mem) (alloc : Nat → Option Nat) (takes : Nat → Bool) :
    (n i k : Nat) → UserMem → Option (Bool × UserMem)
  | 0, _, _, m => some (true, m)
  | n + 1, i, k, m =>
    if (phdrAt img i).type ≠ 1 then loadSegments img alloc takes n (i + 1) k m
    else
      match mapSegment alloc takes (phdrAt img i).pages (phdrAt img i).start k m with
      | (false, _, m) => some (false, m)
      | (true, k, m) =>
        (fillSegment img (phdrAt img i) m).bind fun m => loadSegments img alloc takes n (i + 1) k m

/-- `elf_load` on the memory of the current address space. -/
def elfLoadMem (img : Mem) (size : BitVec 64) (alloc : Nat → Option Nat) (takes : Nat → Bool)
    (m : UserMem) : Option (Int × UserMem) :=
  if size.toNat < 64 then some (-1, m)
  else if !elfValidate img then some (-1, m)
  else (loadSegments img alloc takes (ePhnum img) 0 0 m).map fun r => (if r.1 then 0 else -1, r.2)

/-! ## One segment -/

/-- The pages that are still to be handed out are not mapped. -/
def Fresh (alloc : Nat → Option Nat) (k : Nat) (m : UserMem) : Prop :=
  ∀ j f, k ≤ j → alloc j = some f → ∀ q, m.map q ≠ some f

/-- The allocator never hands out a page twice. -/
def AllocOnce (alloc : Nat → Option Nat) : Prop :=
  ∀ i j f, alloc i = some f → alloc j = some f → i = j

theorem mapPage_fresh (honce : AllocOnce alloc) {k f page : Nat} (hf : alloc k = some f)
    (hfresh : Fresh alloc k m) : Fresh alloc (k + 1) (m.mapPage page f) := by
  intro j g hj hg q hq
  by_cases hqp : q = page
  · simp only [mapPage, hqp, Function.update_self, some.injEq] at hq
    have := honce k j f hf (hq ▸ hg)
    omega
  · simp only [mapPage, Function.update_of_ne hqp] at hq
    exact hfresh j g (by omega) hg q hq

/-- Mapping the pages of a segment leaves every other page alone. -/
theorem mapSegment_spec (honce : AllocOnce alloc) {n virt k k' : Nat} (hd : m.Distinct)
    (hfresh : Fresh alloc k m) (halign : virt % 4096 = 0) (hvirt : virt + n * 4096 < 2 ^ 64)
    (hmap : mapSegment alloc takes n virt k m = (true, k', m')) :
    m'.Distinct ∧ Fresh alloc k' m' ∧
      ∀ w, ¬ (virt ≤ w ∧ w < virt + n * 4096) → m'.read 4096 w = m.read 4096 w := by
  induction n generalizing virt k m with
  | zero =>
    cases hmap
    exact ⟨hd, hfresh, fun w _ => rfl⟩
  | succ n ih =>
    cases hf : alloc k with
    | none => simp [mapSegment, hf] at hmap
    | some f =>
      simp only [mapSegment, hf] at hmap
      have hpage : u64 virt / 4096 = virt / 4096 := by
        rw [u64, mod_eq_of_lt (by omega)]
      rw [hpage] at hmap
      cases ht : takes k with
      | false =>
        simp only [ht, Bool.false_eq_true, if_false] at hmap
        obtain ⟨hd', hfresh', hother⟩ := ih hd (fun j g hj => hfresh j g (by omega)) (by omega)
          (by omega) hmap
        exact ⟨hd', hfresh', fun w hw => hother w (by omega)⟩
      | true =>
        simp only [ht, if_true] at hmap
        obtain ⟨hd', hfresh', hother⟩ := ih (mapPage_distinct hd (hfresh k f le_rfl hf))
          (mapPage_fresh honce hf hfresh) (by omega) (by omega) hmap
        refine ⟨hd', hfresh', fun w hw => ?_⟩
        have hne : w / 4096 ≠ virt / 4096 := by omega
        rw [hother w (by omega), read_mapPage hne]

/-- With memory for every page, all pages of the range are there afterwards. -/
theorem mapSegment_mapped (halloc : ∀ k, (alloc k).isSome) (htakes : ∀ k, takes k = true)
    {n virt k : Nat} (halign : virt % 4096 = 0) (hvirt : virt + n * 4096 < 2 ^ 64) :
    ∃ k' m', mapSegment alloc takes n virt k m = (true, k', m') ∧
      (∀ w, (m.map w).isSome → (m'.map w).isSome) ∧
      ∀ w, virt ≤ w → w < virt + n * 4096 → (m'.map (w / 4096)).isSome := by
  induction n generalizing virt k m with
  | zero => exact ⟨k, m, rfl, fun _ h => h, fun w hw hw' => by omega⟩
  | succ n ih =>
    obtain ⟨f, hf⟩ := isSome_iff_exists.mp (halloc k)
    have hpage : u64 virt / 4096 = virt / 4096 := by
      rw [u64, mod_eq_of_lt (by omega)]
    obtain ⟨k', m', hm', hkeep, hmapped⟩ : ∃ k' m', mapSegment alloc takes n (virt + 4096) (k + 1)
        (m.mapPage (virt / 4096) f) = (true, k', m') ∧ _ ∧ _ := ih (by omega) (by omega)
    refine ⟨k', m', by simp only [mapSegment, hf, htakes, if_true, hpage, hm'],
      fun w hw => hkeep w ?_, fun w hw hw' => ?_⟩
    · by_cases hwp : w = virt / 4096
      · simp [mapPage, hwp]
      · simpa [mapPage, hwp] using hw
    · by_cases hrest : virt + 4096 ≤ w
      · exact hmapped w hrest (by omega)
      · exact hkeep _ (by simp [mapPage, show w / 4096 = virt / 4096 by omega])

/-- A segment whose range, rounded up to pages, is a range of 64-bit numbers. -/
structure Phdr.Plain (h : Phdr) : Prop where
  range : h.vaddr + h.memsz + 4095 < 2 ^ 64
  filesz : h.filesz ≤ h.memsz

theorem Phdr.Plain.stop_eq (hp : h.Plain) : h.stop = (h.vaddr + h.memsz + 4095) / 4096 * 4096 := by
  have := hp.range
  rw [stop, u64, u64, mod_eq_of_lt (by omega), mod_eq_of_lt (by omega)]

theorem Phdr.Plain.bounds (hp : h.Plain) :
    h.start ≤ h.vaddr ∧ h.vaddr + h.memsz ≤ h.stop ∧ h.start % 4096 = 0 ∧
      h.start + h.pages * 4096 = h.stop ∧ h.stop < 2 ^ 64 := by
  have hrange := hp.range
  have hstop := hp.stop_eq
  have hstart : h.start = h.vaddr / 4096 * 4096 := rfl
  have hpages : h.pages = (h.stop + (2 ^ 64 - h.start)) % 2 ^ 64 / 4096 := rfl
  refine ⟨by omega, by omega, by omega, ?_, by omega⟩
  rw [hpages]
  omega

/-- The byte that loading a segment leaves at an address of its pages. -/
def Phdr.byteAt (img : Mem) (h : Phdr) (a : Nat) : UInt8 :=
  if h.vaddr ≤ a ∧ a < h.vaddr + h.filesz then img (u64 (h.offset + (a - h.vaddr))) else 0

/-- The address lies on a page of the segment. -/
def Phdr.OnPages (h : Phdr) (a : Nat) : Prop := h.start ≤ a ∧ a < h.stop

instance (h : Phdr) (a : Nat) : Decidable (h.OnPages a) := inferInstanceAs (Decidable (_ ∧ _))

theorem fillSegment_spec (hp : h.Plain) (hd : m.Distinct) (hfill : fillSegment img h m = some m') :
    m'.map = m.map ∧ ∀ a, m'.read 4096 a =
      if h.OnPages a then some (h.byteAt img a) else m.read 4096 a := by
  obtain ⟨hle, hmem, -, -, -⟩ := hp.bounds
  have hfilesz := hp.filesz
  obtain ⟨m₁, hm₁, hcopy⟩ := bind_eq_some_iff.mp hfill
  obtain ⟨hmap₁, hread₁⟩ := storeAll_spec hd hm₁
  have hd₁ : m₁.Distinct := by
    rw [PagedMem.Distinct, hmap₁]
    exact hd
  obtain ⟨hmap₂, hread₂⟩ := storeAll_spec hd₁ hcopy
  refine ⟨hmap₂.trans hmap₁, fun a => ?_⟩
  have hlength : (h.fileBytes img).length = h.filesz := by simp [fileBytes]
  rw [hread₂, hread₁, hlength, List.length_replicate]
  by_cases hfile : h.vaddr ≤ a ∧ a < h.vaddr + h.filesz
  · have hseg : h.OnPages a := ⟨by omega, by omega⟩
    rw [if_pos hfile, if_pos hseg, Phdr.byteAt, if_pos hfile]
    have hlt : a - h.vaddr < h.filesz := by omega
    simp [fileBytes, hlt]
  · rw [if_neg hfile]
    by_cases hseg : h.OnPages a
    · have hseg' : h.start ≤ a ∧ a < h.stop := hseg
      rw [if_pos (by omega), if_pos hseg, Phdr.byteAt, if_neg hfile]
      have hlt : a - h.start < h.stop - h.start := by omega
      simp [hlt]
    · have hseg' : ¬ (h.start ≤ a ∧ a < h.stop) := hseg
      rw [if_neg (by omega), if_neg hseg]

theorem fillSegment_succeeds (hp : h.Plain)
    (hmapped : ∀ a, h.OnPages a → (m.map (a / 4096)).isSome) :
    ∃ m', fillSegment img h m = some m' := by
  obtain ⟨hle, hmem, -, -, -⟩ := hp.bounds
  have hfilesz := hp.filesz
  obtain ⟨m₁, hm₁, hmap₁⟩ : ∃ m₁, m.storeAll 4096 h.start
      (List.replicate (h.stop - h.start) 0) = some m₁ ∧ m₁.map = m.map :=
    storeAll_succeeds fun a ha ha' =>
      hmapped a ⟨ha, by rw [List.length_replicate] at ha'; omega⟩
  obtain ⟨m₂, hm₂, -⟩ : ∃ m₂, m₁.storeAll 4096 h.vaddr (h.fileBytes img) = some m₂ ∧
      m₂.map = m₁.map := by
    refine storeAll_succeeds fun a ha ha' => ?_
    rw [show (h.fileBytes img).length = h.filesz by simp [fileBytes]] at ha'
    rw [hmap₁]
    exact hmapped a ⟨by omega, by omega⟩
  exact ⟨m₂, by rw [fillSegment, hm₁]; exact hm₂⟩

/-! ## All segments -/

/-- The header of a segment that is loaded, with the address on its pages. -/
def LoadsAt (img : Mem) (i a : Nat) : Prop := (phdrAt img i).type = 1 ∧ (phdrAt img i).OnPages a

instance (img : Mem) (i a : Nat) : Decidable (LoadsAt img i a) :=
  inferInstanceAs (Decidable (_ ∧ _))

/-- The last segment whose pages an address is on decides what is loaded there. -/
theorem loadSegments_spec (honce : AllocOnce alloc) {n i k : Nat}
    (hplain : ∀ j, i ≤ j → j < i + n → (phdrAt img j).type = 1 → (phdrAt img j).Plain)
    (hd : m.Distinct) (hfresh : Fresh alloc k m)
    (hload : loadSegments img alloc takes n i k m = some (true, m')) (a : Nat) :
    ((∀ j, i ≤ j → j < i + n → ¬ LoadsAt img j a) → m'.read 4096 a = m.read 4096 a) ∧
      ∀ j, i ≤ j → j < i + n → LoadsAt img j a → (∀ j', j < j' → j' < i + n → ¬ LoadsAt img j' a) →
        m'.read 4096 a = some ((phdrAt img j).byteAt img a) := by
  induction n generalizing i k m with
  | zero =>
    cases hload
    exact ⟨fun _ => rfl, fun j hj hj' => by omega⟩
  | succ n ih =>
    have hplain' : ∀ j, i + 1 ≤ j → j < i + 1 + n → (phdrAt img j).type = 1 →
        (phdrAt img j).Plain := fun j hj hj' => hplain j (by omega) (by omega)
    rw [loadSegments] at hload
    by_cases htype : (phdrAt img i).type ≠ 1
    · rw [if_pos htype] at hload
      obtain ⟨hnone, hlast⟩ := ih hplain' hd hfresh hload
      refine ⟨fun hno => hnone fun j hj hj' => hno j (by omega) (by omega),
        fun j hj hj' hat hno => ?_⟩
      have hji : j ≠ i := fun h => htype (h ▸ hat.1)
      exact hlast j (by omega) (by omega) hat fun j' hlt hlt' => hno j' hlt (by omega)
    have hp := hplain i le_rfl (by omega) (not_not.mp htype)
    obtain ⟨-, -, halign, hpages, hstop⟩ := hp.bounds
    rw [if_neg htype] at hload
    obtain ⟨⟨ok, k₁, m₁⟩, hmap⟩ : ∃ r, mapSegment alloc takes (phdrAt img i).pages
      (phdrAt img i).start k m = r := ⟨_, rfl⟩
    rw [hmap] at hload
    cases ok with
    | false => cases hload
    | true =>
      obtain ⟨m₂, hfill, hrest⟩ := bind_eq_some_iff.mp hload
      obtain ⟨hd₁, hfresh₁, hother⟩ := mapSegment_spec honce hd hfresh halign (by omega) hmap
      obtain ⟨hmap₂, hread₂⟩ := fillSegment_spec hp hd₁ hfill
      have hd₂ : m₂.Distinct := by
        rw [PagedMem.Distinct, hmap₂]
        exact hd₁
      have hfresh₂ : Fresh alloc k₁ m₂ := by
        rw [Fresh, hmap₂]
        exact hfresh₁
      obtain ⟨hnone, hlast⟩ := ih hplain' hd₂ hfresh₂ hrest
      refine ⟨fun hno => ?_, fun j hj hj' hat hno => ?_⟩
      · have hoff : ¬ (phdrAt img i).OnPages a := fun h =>
          hno i le_rfl (by omega) ⟨not_not.mp htype, h⟩
        rw [hnone fun j hj hj' => hno j (by omega) (by omega), hread₂, if_neg hoff,
          hother a (by rw [hpages]; exact hoff)]
      · rcases hj.lt_or_eq with hlt | rfl
        · exact hlast j (by omega) (by omega) hat fun j' h h' => hno j' h (by omega)
        · rw [hnone fun j' h h' => hno j' (by omega) (by omega), hread₂, if_pos hat.2]

theorem loadSegments_succeeds (halloc : ∀ k, (alloc k).isSome) (htakes : ∀ k, takes k = true)
    {n i k : Nat}
    (hplain : ∀ j, i ≤ j → j < i + n → (phdrAt img j).type = 1 → (phdrAt img j).Plain) :
    ∃ m', loadSegments img alloc takes n i k m = some (true, m') := by
  induction n generalizing i k m with
  | zero => exact ⟨m, rfl⟩
  | succ n ih =>
    have hplain' : ∀ j, i + 1 ≤ j → j < i + 1 + n → (phdrAt img j).type = 1 →
        (phdrAt img j).Plain := fun j hj hj' => hplain j (by omega) (by omega)
    rw [loadSegments]
    by_cases htype : (phdrAt img i).type ≠ 1
    · rw [if_pos htype]
      exact ih hplain'
    have hp := hplain i le_rfl (by omega) (not_not.mp htype)
    obtain ⟨-, -, halign, hpages, hstop⟩ := hp.bounds
    obtain ⟨k₁, m₁, hmap, -, hmapped⟩ :=
      mapSegment_mapped (m := m) (k := k) halloc htakes halign (hpages ▸ hstop)
    obtain ⟨m₂, hm₂⟩ : ∃ m₂, fillSegment img (phdrAt img i) m₁ = some m₂ :=
      fillSegment_succeeds hp fun a ha => hmapped a ha.1 (by rw [hpages]; exact ha.2)
    obtain ⟨m₃, hm₃⟩ := ih (m := m₂) (k := k₁) hplain'
    refine ⟨m₃, ?_⟩
    rw [if_neg htype, hmap]
    simp only [hm₂, bind_some, hm₃]

/-- An image whose segments have ranges of 64-bit addresses that do not overlap, with no more
    data than memory. -/
structure ElfWellFormed (img : Mem) : Prop where
  plain : ∀ i < ePhnum img, (phdrAt img i).type = 1 → (phdrAt img i).Plain
  disjoint : ∀ i < ePhnum img, ∀ j < ePhnum img, i ≠ j → (phdrAt img i).type = 1 →
    (phdrAt img j).type = 1 → ∀ a,
    (phdrAt img i).vaddr ≤ a → a < (phdrAt img i).vaddr + (phdrAt img i).memsz →
    ¬ ((phdrAt img j).vaddr ≤ a ∧ a < (phdrAt img j).vaddr + (phdrAt img j).memsz)

/-- With memory for every page, a well-formed image is loaded. -/
theorem elfLoadMem_succeeds (hwf : ElfWellFormed img) {size : BitVec 64} (hsize : 64 ≤ size.toNat)
    (hvalid : elfValidate img = true) (halloc : ∀ k, (alloc k).isSome)
    (htakes : ∀ k, takes k = true) : ∃ m', elfLoadMem img size alloc takes m = some (0, m') := by
  obtain ⟨m', hm'⟩ : ∃ m', loadSegments img alloc takes (ePhnum img) 0 0 m = some (true, m') :=
    loadSegments_succeeds halloc htakes fun j _ hj => hwf.plain j (by omega)
  refine ⟨m', ?_⟩
  rw [elfLoadMem, if_neg (by omega), if_neg (by simp [hvalid]), hm']
  rfl

theorem elfLoadMem_segments {size : BitVec 64}
    (hload : elfLoadMem img size alloc takes m = some (0, m')) :
    loadSegments img alloc takes (ePhnum img) 0 0 m = some (true, m') := by
  rw [elfLoadMem] at hload
  split at hload
  · cases hload
  split at hload
  · cases hload
  obtain ⟨⟨ok, m₁⟩, hm₁, heq⟩ := map_eq_some_iff.mp hload
  cases ok with
  | false => cases heq
  | true =>
    cases heq
    exact hm₁

/-- Every segment has its data at its address, followed by zeros. -/
def SegmentsLoaded (img : Mem) (m : UserMem) : Prop :=
  ∀ i < ePhnum img, (phdrAt img i).type = 1 → ∀ k < (phdrAt img i).memsz,
    m.read 4096 ((phdrAt img i).vaddr + k) =
      some (if k < (phdrAt img i).filesz then img (u64 ((phdrAt img i).offset + k)) else 0)

/-- What a segment has in the file for the pages of a segment after it is zero. In particular
    this is so when no two segments share a page. -/
def SharedPagesZero (img : Mem) : Prop :=
  ∀ i j, i < j → j < ePhnum img → (phdrAt img i).type = 1 → (phdrAt img j).type = 1 →
    ∀ k < (phdrAt img i).filesz, (phdrAt img j).OnPages ((phdrAt img i).vaddr + k) →
      img (u64 ((phdrAt img i).offset + k)) = 0

theorem sharedPagesZero_of_disjoint
    (h : ∀ i j, i < j → j < ePhnum img → (phdrAt img i).type = 1 → (phdrAt img j).type = 1 →
      (phdrAt img i).stop ≤ (phdrAt img j).start ∨ (phdrAt img j).stop ≤ (phdrAt img i).start)
    (hwf : ElfWellFormed img) : SharedPagesZero img := by
  intro i j hij hj hi₁ hj₁ k hk hon
  have hp := hwf.plain i (by omega) hi₁
  obtain ⟨hle, hmem, -⟩ := hp.bounds
  have hfilesz := hp.filesz
  rw [Phdr.OnPages] at hon
  rcases h i j hij hj hi₁ hj₁ with hlt | hlt <;> omega

/-- The last of the segments with the address on their pages. -/
theorem LoadsAt.exists_last {i n a : Nat} (hin : i < n) (h : LoadsAt img i a) :
    ∃ j, i ≤ j ∧ j < n ∧ LoadsAt img j a ∧ ∀ j', j < j' → j' < n → ¬ LoadsAt img j' a := by
  have hle : findGreatest (fun j => LoadsAt img j a) (n - 1) ≤ n - 1 := findGreatest_le _
  refine ⟨findGreatest (fun j => LoadsAt img j a) (n - 1), le_findGreatest (by omega) h, by omega,
    findGreatest_spec (P := fun j => LoadsAt img j a) (show i ≤ n - 1 by omega) h,
    fun j' hlt hlt' =>
      findGreatest_is_greatest (P := fun j => LoadsAt img j a) hlt (by omega)⟩

/-- A segment clears what segments before it have on its pages. -/
theorem ElfWellFormed.byteAt_later (hwf : ElfWellFormed img) {i j k : Nat}
    (hi : i < ePhnum img) (hj : j < ePhnum img) (hij : i ≠ j) (hi₁ : (phdrAt img i).type = 1)
    (hj₁ : (phdrAt img j).type = 1) (hk : k < (phdrAt img i).memsz) :
    (phdrAt img j).byteAt img ((phdrAt img i).vaddr + k) = 0 := by
  have hout := hwf.disjoint i hi j hj hij hi₁ hj₁ ((phdrAt img i).vaddr + k) (by omega) (by omega)
  have hfilesz := (hwf.plain j hj hj₁).filesz
  rw [Phdr.byteAt, if_neg (by omega)]

theorem Phdr.byteAt_own {k : Nat} : h.byteAt img (h.vaddr + k) =
    if k < h.filesz then img (u64 (h.offset + k)) else 0 := by
  rw [Phdr.byteAt, Nat.add_sub_cancel_left]
  by_cases hk : k < h.filesz
  · rw [if_pos hk, if_pos (by omega)]
  · rw [if_neg hk, if_neg (by omega)]

/-- After a successful call every segment is in memory, if and only if no segment has anything
    but zeros on the pages of a later one. -/
theorem segments_loaded_iff (img : Mem) (size : BitVec 64) (alloc : Nat → Option Nat)
    (takes : Nat → Bool) (m m' : UserMem) (hwf : ElfWellFormed img) (hd : m.Distinct)
    (honce : AllocOnce alloc) (hfresh : Fresh alloc 0 m)
    (hload : elfLoadMem img size alloc takes m = some (0, m')) :
    SegmentsLoaded img m' ↔ SharedPagesZero img := by
  have hspec := fun a => (loadSegments_spec honce
    (fun j _ hj => hwf.plain j (by omega)) hd hfresh (elfLoadMem_segments hload) a).2
  have hon : ∀ i < ePhnum img, (phdrAt img i).type = 1 → ∀ k < (phdrAt img i).memsz,
      LoadsAt img i ((phdrAt img i).vaddr + k) := by
    intro i hi hi₁ k hk
    obtain ⟨hle, hmem, -⟩ := (hwf.plain i hi hi₁).bounds
    exact ⟨hi₁, by omega, by omega⟩
  constructor
  · intro hloaded i j hij hj hi₁ hj₁ k hk hpage
    have hi : i < ePhnum img := by omega
    have hmem : k < (phdrAt img i).memsz := lt_of_lt_of_le hk (hwf.plain i hi hi₁).filesz
    obtain ⟨l, hjl, hl, hat, hlast⟩ := LoadsAt.exists_last hj ⟨hj₁, hpage⟩
    have hread := hspec _ l (by omega) (by omega) hat fun j' h h' => hlast j' h (by omega)
    rw [hloaded i hi hi₁ k hmem, if_pos hk,
      hwf.byteAt_later hi hl (by omega) hi₁ hat.1 hmem] at hread
    exact some.inj hread
  · intro hzero i hi hi₁ k hk
    obtain ⟨l, hil, hl, hat, hlast⟩ := LoadsAt.exists_last hi (hon i hi hi₁ k hk)
    rw [hspec _ l (by omega) (by omega) hat fun j' h h' => hlast j' h (by omega)]
    rcases hil.eq_or_lt with rfl | hlt
    · rw [byteAt_own]
    rw [hwf.byteAt_later hi hl (by omega) hi₁ hat.1 hk]
    by_cases hfile : k < (phdrAt img i).filesz
    · rw [if_pos hfile, hzero i l hlt hl hi₁ hat.1 k hfile hat.2]
    · rw [if_neg hfile]

/-- An image with two segments of one byte, the second one at `v`. -/
def twoSegments (v : Nat) : Mem :=
  let header : Mem := ((((Mem.writeLE (fun _ => 0) 0 4 0x464C457F).writeLE 4 2 0x102).writeLE
    16 2 2).writeLE 18 2 62)
  let header := ((header.writeLE 32 8 64).writeLE 54 2 56).writeLE 56 2 2
  let first := (((header.writeLE 64 4 1).writeLE 72 8 176).writeLE 80 8 0x400000)
  let first := (first.writeLE 96 8 1).writeLE 104 8 1
  let second := (((first.writeLE 120 4 1).writeLE 128 8 177).writeLE 136 8 v)
  ((second.writeLE 152 8 1).writeLE 160 8 1).writeLE 176 2 0x9090

/-- The program headers of such an image. -/
structure TwoSegments (v : Nat) : Prop where
  valid : elfValidate (twoSegments v) = true
  phnum : ePhnum (twoSegments v) = 2
  first : phdrAt (twoSegments v) 0 = ⟨1, 0, 176, 0x400000, 1, 1⟩
  second : phdrAt (twoSegments v) 1 = ⟨1, 0, 177, v, 1, 1⟩

theorem twoSegments_one_page : TwoSegments 0x400800 where
  valid := by decide
  phnum := by decide
  first := rfl
  second := rfl

theorem twoSegments_two_pages : TwoSegments 0x401000 where
  valid := by decide
  phnum := by decide
  first := rfl
  second := rfl

theorem TwoSegments.wellFormed {v : Nat} (hv : TwoSegments v) (hlt : 0x400000 < v)
    (hmax : v < 2 ^ 63) : ElfWellFormed (twoSegments v) := by
  constructor
  · intro i hi _
    rw [hv.phnum] at hi
    interval_cases i
    · rw [hv.first]
      exact ⟨by norm_num, le_rfl⟩
    · rw [hv.second]
      exact ⟨by change v + 1 + 4095 < 2 ^ 64; omega, le_rfl⟩
  · intro i hi j hj hij _ _ a ha ha'
    rw [hv.phnum] at hi hj
    interval_cases i <;> interval_cases j
    · exact absurd rfl hij
    · rw [hv.first] at ha ha'
      rw [hv.second]
      change 0x400000 ≤ a at ha
      change a < 0x400000 + 1 at ha'
      change ¬ (v ≤ a ∧ a < v + 1)
      omega
    · rw [hv.second] at ha ha'
      rw [hv.first]
      change v ≤ a at ha
      change ¬ (0x400000 ≤ a ∧ a < 0x400000 + 1)
      omega
    · exact absurd rfl hij

/-- An address space with nothing mapped. -/
def emptyMem : UserMem := { map := fun _ => none, ram := fun _ _ => 0 }

theorem TwoSegments.succeeds {v : Nat} (hv : TwoSegments v) (hlt : 0x400000 < v)
    (hmax : v < 2 ^ 63) :
    ∃ m', elfLoadMem (twoSegments v) 178 some (fun _ => true) emptyMem = some (0, m') :=
  elfLoadMem_succeeds (hv.wellFormed hlt hmax) (by decide) hv.valid (fun _ => rfl) fun _ => rfl

/-- Two segments on pages of their own are both there. -/
theorem segments_loaded_two_pages :
    ∃ m', elfLoadMem (twoSegments 0x401000) 178 some (fun _ => true) emptyMem = some (0, m') ∧
      SegmentsLoaded (twoSegments 0x401000) m' := by
  have hv := twoSegments_two_pages
  have hwf := hv.wellFormed (by norm_num) (by norm_num)
  obtain ⟨m', hm'⟩ := hv.succeeds (by norm_num) (by norm_num)
  refine ⟨m', hm', (segments_loaded_iff _ _ _ _ _ m' hwf ?_ ?_ ?_ hm').mpr ?_⟩
  · intro p q f hp
    cases hp
  · intro i j f hi hj
    exact (some.inj hi).trans (some.inj hj).symm
  · intro j f _ _ q hq
    cases hq
  · refine sharedPagesZero_of_disjoint (fun i j hij hj _ _ => ?_) hwf
    rw [hv.phnum] at hj
    obtain ⟨rfl, rfl⟩ : i = 0 ∧ j = 1 := by omega
    rw [hv.first, hv.second]
    exact Or.inl (by decide)

/-- When the second segment starts in the middle of the page of the first, the call succeeds
    and the data of the first is gone. -/
theorem shared_page_cleared : ElfWellFormed (twoSegments 0x400800) ∧
      ∃ m', elfLoadMem (twoSegments 0x400800) 178 some (fun _ => true) emptyMem = some (0, m') ∧
        m'.read 4096 0x400000 = some 0 ∧ ¬ SegmentsLoaded (twoSegments 0x400800) m' := by
  have hv := twoSegments_one_page
  have hwf := hv.wellFormed (by norm_num) (by norm_num)
  obtain ⟨m', hm'⟩ := hv.succeeds (by norm_num) (by norm_num)
  have hread : m'.read 4096 0x400000 = some 0 := by
    have hspec := (loadSegments_spec (fun i j f hi hj =>
      (some.inj hi).trans (some.inj hj).symm)
      (fun j _ hj => hwf.plain j (by omega)) (fun p q f hp => by cases hp)
      (fun j f _ _ q hq => by cases hq) (elfLoadMem_segments hm') 0x400000).2 1 (by omega)
      (by rw [hv.phnum]; omega) (by rw [LoadsAt, hv.second]; decide)
      fun j hj hj' => by rw [hv.phnum] at hj'; omega
    rw [hspec, hv.second]
    rfl
  refine ⟨hwf, m', hm', hread, fun hloaded => ?_⟩
  have hfirst := hloaded 0 (by rw [hv.phnum]; omega) (by rw [hv.first]) 0
    (by rw [hv.first]; decide)
  rw [hv.first] at hfirst
  rw [show (0x400000 : Nat) + 0 = 0x400000 from rfl, hread] at hfirst
  exact absurd (some.inj hfirst) (by decide)

end OpenSys
