-- SUMMARY: The ELF loader of elf.c as the accesses it makes.
import OpenSys.Lib.Memory
import OpenSys.Lib.Word
import Mathlib.Data.List.TakeWhile
import Mathlib.Tactic.Linarith

/-!
# Loading ELF images

`src/kernel/elf.c`. The image is a piece of memory with a size; every field of its headers
is arbitrary, and the loader computes with them in 64 bits. The model returns the accesses
in the order in which they are made. `alloc k` says whether the `k`-th page that the loader
asks for is granted.
-/

namespace OpenSys

open Mem List Nat

/-! ## Headers -/

/-- The `k` bytes at `data + off`, as a number; pointers wrap. -/
def imageField (img : Mem) (off k : Nat) : Nat := readLE (fun x => img (u64 x)) off k

def ePhoff (img : Mem) : Nat := imageField img 32 8

def ePhentsize (img : Mem) : Nat := imageField img 54 2

def ePhnum (img : Mem) : Nat := imageField img 56 2

/-- `elf64_phdr_t`, without the fields that the loader does not look at. -/
structure Phdr where
  type : Nat
  flags : Nat
  offset : Nat
  vaddr : Nat
  filesz : Nat
  memsz : Nat

/-- `e_phoff + i * e_phentsize`; the product is an `int`. -/
def phdrOffset (img : Mem) (i : Nat) : Nat :=
  u64 (ePhoff img + ((BitVec.ofNat 32 (i * ePhentsize img)).signExtend 64).toNat)

def phdrAt (img : Mem) (i : Nat) : Phdr :=
  let off := phdrOffset img i
  { type := imageField img off 4
    flags := imageField img (off + 4) 4
    offset := imageField img (off + 8) 8
    vaddr := imageField img (off + 16) 8
    filesz := imageField img (off + 32) 8
    memsz := imageField img (off + 40) 8 }

def elfValidate (img : Mem) : Bool :=
  imageField img 0 4 == 0x464C457F && img 4 == 2 && img 5 == 1 && imageField img 16 2 == 2 &&
    imageField img 18 2 == 62

/-- `p_vaddr & ~0xFFF`. -/
def Phdr.start (h : Phdr) : Nat := h.vaddr / 4096 * 4096

/-- `(p_vaddr + p_memsz + 0xFFF) & ~0xFFF`. -/
def Phdr.stop (h : Phdr) : Nat := u64 (u64 (h.vaddr + h.memsz) + 0xFFF) / 4096 * 4096

def Phdr.pages (h : Phdr) : Nat := sub64 h.stop h.start / 4096

/-! ## Accesses -/

inductive ElfAccess where
  /-- Bytes of the image, by their offset. -/
  | read (off len : Nat)
  | map (virt : Nat)
  | write (virt len : Nat)

/-- How many of the next `n` pages are granted in a row. -/
def granted (alloc : Nat → Bool) (k n : Nat) : Nat :=
  ((List.range n).takeWhile fun p => alloc (k + p)).length

/-- The fields of a program header that are looked at when its segment is loaded, besides
    its type. -/
def Phdr.fields (h : Phdr) : List (Nat × Nat) :=
  [(16, 8), (40, 8)] ++ (if 0 < h.pages then [(4, 4)] else []) ++ [(32, 8)] ++
    (if 0 < h.filesz then [(8, 8)] else [])

/-- The loop that allocates and maps, after `n` pages have been granted. -/
def Phdr.maps (h : Phdr) (off n : Nat) : List ElfAccess :=
  [.read (off + 16) 8, .read (off + 40) 8] ++ (if 0 < n then [.read (off + 4) 4] else []) ++
    (List.range n).map fun p => .map (u64 (h.start + p * 4096))

/-- The loops that clear the pages and copy the file data. -/
def Phdr.fills (h : Phdr) (off : Nat) : List ElfAccess :=
  ((List.range ((h.stop - h.start) / 4096)).map fun q => .write (h.start + q * 4096) 4096) ++
    [.read (off + 32) 8] ++
    (if 0 < h.filesz then
      [.read (off + 8) 8, .read h.offset h.filesz, .write h.vaddr h.filesz] else [])

/-- The loop over the program headers, with `n` left from `i` on and `k` pages asked for so
    far; the result says whether it came to its end. -/
def elfSegments (img : Mem) (alloc : Nat → Bool) : Nat → Nat → Nat → Bool × List ElfAccess
  | 0, _, _ => (true, [])
  | n + 1, i, k =>
    let off := phdrOffset img i
    let h := phdrAt img i
    if h.type ≠ 1 then
      let rest := elfSegments img alloc n (i + 1) k
      (rest.1, .read off 4 :: rest.2)
    else
      let g := granted alloc k h.pages
      if g < h.pages then (false, .read off 4 :: h.maps off g)
      else
        let rest := elfSegments img alloc n (i + 1) (k + h.pages)
        (rest.1, .read off 4 :: h.maps off g ++ h.fills off ++ rest.2)

/-- `elf_load`: the result and the accesses. `space` says whether there is a current address
    space; the entry point is read only where the caller wants it. -/
def elfLoad (img : Mem) (size : BitVec 64) (alloc : Nat → Bool) (space info : Bool) :
    Int × List ElfAccess :=
  if size.toNat < 64 then (-1, [])
  else if !elfValidate img then (-1, [.read 0 20])
  else if !space then (-1, [.read 0 20])
  else
    let r := elfSegments img alloc (ePhnum img) 0 0
    let header := [.read 0 20, .read 32 8, .read 54 2, .read 56 2]
    if r.1 then (0, header ++ r.2 ++ if info then [.read 24 8] else [])
    else (-1, header ++ r.2)

/-! ## What is allowed -/

/-- The byte lies in the segment, rounded to pages. -/
def Phdr.Covers (h : Phdr) (a : Nat) : Prop :=
  h.vaddr / 4096 * 4096 ≤ a ∧ a < (h.vaddr + h.memsz + 4095) / 4096 * 4096

/-- A user address of some segment that is to be loaded. -/
def SegmentByte (img : Mem) (a : Nat) : Prop :=
  a < 2 ^ 47 ∧ ∃ i < ePhnum img, (phdrAt img i).type = 1 ∧ (phdrAt img i).Covers a

def ElfAccess.Safe (img : Mem) (size : BitVec 64) : ElfAccess → Prop
  | .read off len => ∀ j < len, u64 (off + j) < size.toNat
  | .map virt => ∀ j < 4096, SegmentByte img (virt + j)
  | .write virt len => ∀ j < len, SegmentByte img (u64 (virt + j))

/-- `len` bytes at `off` lie in the image. -/
def InImage (size : BitVec 64) (off len : Nat) : Prop := u64 off + len ≤ size.toNat

/-- The header of segment `i` and, if it is to be loaded, its data lie in the image, and its
    pages and the copy of its data in user space. -/
structure SegmentFits (img : Mem) (size : BitVec 64) (i : Nat) : Prop where
  type : InImage size (phdrOffset img i) 4
  fields : (phdrAt img i).type = 1 → ∀ f ∈ (phdrAt img i).fields,
    InImage size (phdrOffset img i + f.1) f.2
  pages : (phdrAt img i).type = 1 → 0 < (phdrAt img i).pages →
    (phdrAt img i).start + (phdrAt img i).pages * 4096 ≤ 2 ^ 47
  data : (phdrAt img i).type = 1 → 0 < (phdrAt img i).filesz →
    InImage size (phdrAt img i).offset (phdrAt img i).filesz
  copy : (phdrAt img i).type = 1 → ∀ j < (phdrAt img i).filesz,
    SegmentByte img (u64 ((phdrAt img i).vaddr + j))

theorem read_safe_iff {img : Mem} {size : BitVec 64} {off len : Nat} :
    (ElfAccess.read off len).Safe img size ↔ (0 < len → InImage size off len) := by
  have hsize := size.isLt
  simp only [ElfAccess.Safe, InImage, u64]
  constructor
  · intro h hlen
    -- the byte at the size itself would be reached before the pointer wraps
    by_contra hout
    have hfirst := h 0 hlen
    have hbad := h (size.toNat - off % 2 ^ 64) (by omega)
    omega
  · intro h j hj
    have := h (by omega)
    omega

/-! ## One segment -/

section Segment

variable {img : Mem} {size : BitVec 64} {i : Nat}

theorem Phdr.start_le_vaddr (h : Phdr) : h.start ≤ h.vaddr := div_mul_le_self _ _

theorem imageField_lt (off k : Nat) : imageField img off k < 256 ^ k := readLE_lt _ _ _

theorem vaddr_lt : (phdrAt img i).vaddr < 2 ^ 64 := imageField_lt _ 8

/-- The pages that are mapped are pages of the segment. -/
theorem covers_page {h : Phdr} (hvaddr : h.vaddr < 2 ^ 64)
    (hfit : h.start + h.pages * 4096 ≤ 2 ^ 47) {a : Nat} (hlow : h.start ≤ a)
    (hhigh : a < h.start + h.pages * 4096) : h.Covers a := by
  refine ⟨hlow, ?_⟩
  by_cases hwrap : h.vaddr + h.memsz + 4095 < 2 ^ 64
  · have hstop : h.stop = (h.vaddr + h.memsz + 4095) / 4096 * 4096 := by
      rw [Phdr.stop, u64, u64, mod_eq_of_lt (by omega), mod_eq_of_lt (by omega)]
    have hle : h.start ≤ h.stop := by
      rw [hstop, Phdr.start]
      omega
    have hpages' : h.pages * 4096 = h.stop - h.start := by
      rw [Phdr.pages, sub64, u64]
      rw [Phdr.start] at hle ⊢
      rw [hstop] at hle ⊢
      omega
    rw [← hstop]
    omega
  · omega

/-- The loop that clears pages passes over the pages that were mapped, or over none. -/
theorem clear_pages {h : Phdr} (hvaddr : h.vaddr < 2 ^ 64) {q : Nat}
    (hq : q < (h.stop - h.start) / 4096) : q < h.pages := by
  have hstop : h.stop < 2 ^ 64 := by
    rw [Phdr.stop, u64]
    omega
  have hstart : h.start ≤ h.vaddr := h.start_le_vaddr
  rw [Phdr.pages, sub64, u64]
  omega

theorem segmentByte_page (hi : i < ePhnum img) (htype : (phdrAt img i).type = 1)
    (hfit : SegmentFits img size i) {p j : Nat} (hp : p < (phdrAt img i).pages) (hj : j < 4096) :
    SegmentByte img ((phdrAt img i).start + p * 4096 + j) := by
  have hpages := hfit.pages htype (by omega)
  have hlt : (phdrAt img i).start + p * 4096 + j <
      (phdrAt img i).start + (phdrAt img i).pages * 4096 := by omega
  exact ⟨by omega, i, hi, htype, covers_page vaddr_lt hpages (by omega) hlt⟩

theorem SegmentFits.maps_safe (hfit : SegmentFits img size i) (hi : i < ePhnum img)
    (htype : (phdrAt img i).type = 1) {n : Nat} (hn : n ≤ (phdrAt img i).pages) :
    ∀ a ∈ (phdrAt img i).maps (phdrOffset img i) n, a.Safe img size := by
  have hfields := hfit.fields htype
  intro a ha
  simp only [Phdr.maps, mem_append, mem_cons, not_mem_nil, or_false, mem_map, mem_range] at ha
  rcases ha with (((rfl | rfl) | ha) | ⟨p, hp, rfl⟩)
  · exact read_safe_iff.mpr fun _ => hfields (16, 8) (by simp [Phdr.fields])
  · exact read_safe_iff.mpr fun _ => hfields (40, 8) (by simp [Phdr.fields])
  · split_ifs at ha with hpos
    · obtain rfl : a = .read (phdrOffset img i + 4) 4 := by simpa using ha
      refine read_safe_iff.mpr fun _ => hfields (4, 4) ?_
      have : 0 < (phdrAt img i).pages := by omega
      simp [Phdr.fields, this]
    · exact absurd ha (by simp)
  · intro j hj
    have hpages := hfit.pages htype (by omega)
    have hlt : (phdrAt img i).start + p * 4096 < 2 ^ 64 := by omega
    rw [u64, mod_eq_of_lt hlt]
    exact segmentByte_page hi htype hfit (by omega) hj

theorem SegmentFits.fills_safe (hfit : SegmentFits img size i) (hi : i < ePhnum img)
    (htype : (phdrAt img i).type = 1) :
    ∀ a ∈ (phdrAt img i).fills (phdrOffset img i), a.Safe img size := by
  have hfields := hfit.fields htype
  intro a ha
  simp only [Phdr.fills, mem_append, mem_map, mem_range, mem_singleton] at ha
  rcases ha with ((⟨q, hq, rfl⟩ | rfl) | ha)
  · intro j hj
    have hq' := clear_pages vaddr_lt hq
    have hpages := hfit.pages htype (by omega)
    have hlt : (phdrAt img i).start + q * 4096 + j < 2 ^ 64 := by omega
    rw [u64, mod_eq_of_lt hlt]
    exact segmentByte_page hi htype hfit hq' hj
  · exact read_safe_iff.mpr fun _ => hfields (32, 8) (by simp [Phdr.fields])
  · split_ifs at ha with hpos
    · simp only [mem_cons, not_mem_nil, or_false] at ha
      rcases ha with rfl | rfl | rfl
      · exact read_safe_iff.mpr fun _ => hfields (8, 8) (by simp [Phdr.fields, hpos])
      · exact read_safe_iff.mpr (hfit.data htype)
      · exact hfit.copy htype
    · exact absurd ha (by simp)

/-- When every page is granted, safe accesses mean that the segment fits. -/
theorem SegmentFits.of_safe (htype : (ElfAccess.read (phdrOffset img i) 4).Safe img size)
    (hsafe : (phdrAt img i).type = 1 →
      ∀ a ∈ (phdrAt img i).maps (phdrOffset img i) (phdrAt img i).pages ++
        (phdrAt img i).fills (phdrOffset img i), a.Safe img size) : SegmentFits img size i := by
  refine ⟨read_safe_iff.mp htype (by decide), fun h f hf => ?_, fun h hpos => ?_,
    fun h hpos => ?_, fun h => ?_⟩
  · have hread (o l : Nat) (hl : 0 < l) (hmem : ElfAccess.read (phdrOffset img i + o) l ∈
        (phdrAt img i).maps (phdrOffset img i) (phdrAt img i).pages ++
          (phdrAt img i).fills (phdrOffset img i)) : InImage size (phdrOffset img i + o) l :=
      read_safe_iff.mp (hsafe h _ hmem) hl
    simp only [Phdr.fields, mem_append, mem_cons, not_mem_nil, or_false] at hf
    rcases hf with (((rfl | rfl) | hf) | rfl) | hf
    · exact hread 16 8 (by decide) (by simp [Phdr.maps])
    · exact hread 40 8 (by decide) (by simp [Phdr.maps])
    · split_ifs at hf with hpos
      · obtain rfl : f = (4, 4) := by simpa using hf
        exact hread 4 4 (by decide) (by simp [Phdr.maps, hpos])
      · exact absurd hf (by simp)
    · exact hread 32 8 (by decide) (by simp [Phdr.fills])
    · split_ifs at hf with hpos
      · obtain rfl : f = (8, 8) := by simpa using hf
        exact hread 8 8 (by decide) (by simp [Phdr.fills, hpos])
      · exact absurd hf (by simp)
  · -- page by page: the next one is still a small number
    have hmapped (p : Nat) (hp : p < (phdrAt img i).pages) :
        u64 ((phdrAt img i).start + p * 4096) < 2 ^ 47 := by
      have hmem : ElfAccess.map (u64 ((phdrAt img i).start + p * 4096)) ∈
          (phdrAt img i).maps (phdrOffset img i) (phdrAt img i).pages :=
        mem_append_right _ (mem_map.mpr ⟨p, mem_range.mpr hp, rfl⟩)
      exact (hsafe h _ (mem_append_left _ hmem) 0 (by omega)).1
    have hstep : ∀ p, p < (phdrAt img i).pages → (phdrAt img i).start + p * 4096 < 2 ^ 47 := by
      intro p
      induction p with
      | zero =>
        intro hp
        have hbyte := hmapped 0 hp
        have hstart := (phdrAt img i).start_le_vaddr
        have hvaddr : (phdrAt img i).vaddr < 2 ^ 64 := vaddr_lt
        rw [u64, mod_eq_of_lt (by omega)] at hbyte
        exact hbyte
      | succ p ih =>
        intro hp
        have hprev := ih (by omega)
        have hbyte := hmapped (p + 1) hp
        have hlt : (phdrAt img i).start + (p + 1) * 4096 < 2 ^ 64 := by linarith
        rw [u64, mod_eq_of_lt hlt] at hbyte
        exact hbyte
    have hlast := hstep ((phdrAt img i).pages - 1) (by omega)
    have halign : (phdrAt img i).start % 4096 = 0 := by
      rw [Phdr.start]
      omega
    omega
  · exact read_safe_iff.mp (hsafe h (.read _ _) (by simp [Phdr.fills, hpos])) hpos
  · intro j hj
    exact hsafe h (.write (phdrAt img i).vaddr (phdrAt img i).filesz)
      (by simp [Phdr.fills, show 0 < (phdrAt img i).filesz by omega]) j hj

end Segment

/-! ## The loop -/

section Load

variable {img : Mem} {size : BitVec 64} {alloc : Nat → Bool}

theorem granted_le (k n : Nat) : granted alloc k n ≤ n := by
  have hsub : ((List.range n).takeWhile fun p => alloc (k + p)).Sublist (List.range n) :=
    takeWhile_sublist _
  simpa [granted] using hsub.length_le

theorem granted_all (k n : Nat) : granted (fun _ => true) k n = n := by
  rw [granted, takeWhile_eq_self_iff.mpr (fun _ _ => rfl), length_range]

/-- Segments that fit are loaded with safe accesses only, however many pages are granted. -/
theorem elfSegments_safe {n i k : Nat} (hn : i + n ≤ ePhnum img)
    (hfit : ∀ j, i ≤ j → j < i + n → SegmentFits img size j) :
    ∀ a ∈ (elfSegments img alloc n i k).2, a.Safe img size := by
  induction n generalizing i k with
  | zero => simp [elfSegments]
  | succ n ih =>
    have hi := hfit i le_rfl (by omega)
    have htype : (ElfAccess.read (phdrOffset img i) 4).Safe img size :=
      read_safe_iff.mpr fun _ => hi.type
    have hrest (k : Nat) : ∀ a ∈ (elfSegments img alloc n (i + 1) k).2, a.Safe img size :=
      ih (by omega) fun j hj hj' => hfit j (by omega) (by omega)
    intro a ha
    rw [elfSegments] at ha
    dsimp only at ha
    split_ifs at ha with hload hshort
    · rcases mem_cons.mp ha with rfl | ha
      · exact htype
      · exact hrest k a ha
    · rcases mem_cons.mp ha with rfl | ha
      · exact htype
      · exact hi.maps_safe (by omega) (not_not.mp hload) hshort.le a ha
    simp only [mem_append, cons_append, mem_cons] at ha
    rcases ha with rfl | (ha | ha) | ha
    · exact htype
    · exact hi.maps_safe (by omega) (not_not.mp hload) (granted_le _ _) a ha
    · exact hi.fills_safe (by omega) (not_not.mp hload) a ha
    · exact hrest _ a ha

/-- When every page is granted, the loop gets to every segment. -/
theorem elfSegments_reaches {n i k : Nat} : (elfSegments img (fun _ => true) n i k).1 = true ∧
      ∀ j, i ≤ j → j < i + n →
        .read (phdrOffset img j) 4 ∈ (elfSegments img (fun _ => true) n i k).2 ∧
        ((phdrAt img j).type = 1 → (phdrAt img j).maps (phdrOffset img j) (phdrAt img j).pages ++
            (phdrAt img j).fills (phdrOffset img j) ⊆
              (elfSegments img (fun _ => true) n i k).2) := by
  induction n generalizing i k with
  | zero => exact ⟨rfl, fun j hj hj' => by omega⟩
  | succ n ih =>
    by_cases hload : (phdrAt img i).type = 1
    · have heq : elfSegments img (fun _ => true) (n + 1) i k =
          ((elfSegments img (fun _ => true) n (i + 1) (k + (phdrAt img i).pages)).1,
            .read (phdrOffset img i) 4 :: (phdrAt img i).maps (phdrOffset img i) (phdrAt img i).pages ++
              (phdrAt img i).fills (phdrOffset img i) ++
              (elfSegments img (fun _ => true) n (i + 1) (k + (phdrAt img i).pages)).2) := by
        simp [elfSegments, hload, granted_all]
      obtain ⟨hdone, hall⟩ := ih (i := i + 1) (k := k + (phdrAt img i).pages)
      rw [heq]
      refine ⟨hdone, fun j hj hj' => ?_⟩
      by_cases hji : j = i
      · subst hji
        refine ⟨by simp, fun _ a ha => ?_⟩
        exact mem_append_left _ (mem_cons_of_mem _ ha)
      · obtain ⟨hread, hsub⟩ := hall j (by omega) (by omega)
        exact ⟨mem_append_right _ hread, fun h a ha => mem_append_right _ (hsub h ha)⟩
    · have heq : elfSegments img (fun _ => true) (n + 1) i k =
          ((elfSegments img (fun _ => true) n (i + 1) k).1,
            .read (phdrOffset img i) 4 :: (elfSegments img (fun _ => true) n (i + 1) k).2) := by
        simp [elfSegments, hload]
      obtain ⟨hdone, hall⟩ := ih (i := i + 1) (k := k)
      rw [heq]
      refine ⟨hdone, fun j hj hj' => ?_⟩
      by_cases hji : j = i
      · subst hji
        exact ⟨mem_cons_self, fun h => absurd h hload⟩
      · obtain ⟨hread, hsub⟩ := hall j (by omega) (by omega)
        exact ⟨mem_cons_of_mem _ hread, fun h a ha => mem_cons_of_mem _ (hsub h ha)⟩

theorem header_safe (hsize : 64 ≤ size.toNat) {off len : Nat} (h : off + len ≤ 64) :
    (ElfAccess.read off len).Safe img size := by
  refine read_safe_iff.mpr fun _ => ?_
  rw [InImage, u64, mod_eq_of_lt (by omega)]
  omega

/-- Every access is to the file header or belongs to the loop over the segments. -/
theorem elfLoad_accesses {space info : Bool} {a : ElfAccess}
    (ha : a ∈ (elfLoad img size alloc space info).2) : 64 ≤ size.toNat ∧
      ((∃ off len, off + len ≤ 64 ∧ a = .read off len) ∨
        (elfValidate img = true ∧ a ∈ (elfSegments img alloc (ePhnum img) 0 0).2)) := by
  by_cases hsmall : size.toNat < 64
  · rw [elfLoad, if_pos hsmall] at ha
    exact absurd ha (by simp)
  refine ⟨by omega, ?_⟩
  rw [elfLoad, if_neg hsmall] at ha
  cases hvalid : elfValidate img with
  | false =>
    rw [hvalid] at ha
    exact .inl ⟨0, 20, by decide, by simpa using ha⟩
  | true =>
    rw [hvalid] at ha
    cases space with
    | false => exact .inl ⟨0, 20, by decide, by simpa using ha⟩
    | true =>
      have hparts : a ∈ [.read 0 20, .read 32 8, .read 54 2, .read 56 2, .read 24 8] ∨
          a ∈ (elfSegments img alloc (ePhnum img) 0 0).2 := by
        cases hdone : (elfSegments img alloc (ePhnum img) 0 0).1 <;> cases info <;>
          simp [hdone] at ha <;> grind
      rcases hparts with hheader | hloop
      · simp only [mem_cons, not_mem_nil, or_false] at hheader
        rcases hheader with rfl | rfl | rfl | rfl | rfl <;> exact .inl ⟨_, _, by decide, rfl⟩
      · exact .inr ⟨rfl, hloop⟩

/-- The loader keeps to the image and to the pages of its segments in user space exactly if
    the image is refused for its header or every segment fits. -/
theorem elf_accesses_safe_iff (img : Mem) (size : BitVec 64) :
    (∀ alloc space info, ∀ a ∈ (elfLoad img size alloc space info).2, a.Safe img size) ↔
      (64 ≤ size.toNat → elfValidate img = true → ∀ i < ePhnum img, SegmentFits img size i) := by
  constructor
  · intro h hsize hvalid i hi
    obtain ⟨hdone, hall⟩ : (elfSegments img (fun _ => true) (ePhnum img) 0 0).1 = true ∧ _ :=
      elfSegments_reaches
    have hload : (elfLoad img size (fun _ => true) true false).2 =
        [.read 0 20, .read 32 8, .read 54 2, .read 56 2] ++
          (elfSegments img (fun _ => true) (ePhnum img) 0 0).2 ++ [] := by
      rw [elfLoad, if_neg (by omega), hvalid]
      simp [hdone]
    have hsafe := h (fun _ => true) true false
    rw [hload] at hsafe
    obtain ⟨hread, hsub⟩ := hall i (zero_le i) (by omega)
    refine .of_safe (hsafe _ ?_) fun htype a ha => hsafe a ?_
    · exact mem_append_left _ (mem_append_right _ hread)
    · exact mem_append_left _ (mem_append_right _ (hsub htype ha))
  · intro h alloc space info a ha
    obtain ⟨hsize, ⟨off, len, hlen, rfl⟩ | ⟨hvalid, hloop⟩⟩ := elfLoad_accesses ha
    · exact header_safe hsize hlen
    · exact elfSegments_safe (by omega) (fun j _ hj => h hsize hvalid j (by omega)) a hloop

end Load

/-- A valid header of 64 bytes that announces one program header right behind it. -/
def headerOnly : Mem :=
  let m : Mem := writeLE (fun _ => 0) 0 4 0x464C457F
  let m : Mem := ((m.writeLE 4 1 2).writeLE 5 1 1).writeLE 16 2 2
  ((m.writeLE 18 2 62).writeLE 32 8 64).writeLE 56 2 1

/-- The loader reads the program header that is not there, and succeeds. -/
theorem header_only_overread : (elfLoad headerOnly 64 (fun _ => true) true true).1 = 0 ∧
      .read 64 4 ∈ (elfLoad headerOnly 64 (fun _ => true) true true).2 ∧
      ¬ (ElfAccess.read 64 4).Safe headerOnly 64 := by
  refine ⟨by decide, ?_, fun h => ?_⟩
  · have hlist : (elfLoad headerOnly 64 (fun _ => true) true true).2 =
        [.read 0 20, .read 32 8, .read 54 2, .read 56 2, .read 64 4, .read 24 8] := by rfl
    rw [hlist]
    simp
  · exact absurd (h 0 (by decide)) (by decide)

end OpenSys
