-- SUMMARY: The physical page allocator of memory.c.
import OpenSys.Lib.Bitmap
import OpenSys.Lib.Word

/-!
# Physical memory manager

`src/memory/memory.c`. One bit per 4 KiB page, set when the page is in use, in
64-bit words; a counter of free pages; one 32-bit reference count per page.
Physical addresses are natural numbers below `2 ^ 64`.
-/

namespace OpenSys

def pageSize : Nat := 4096

/-- The frame at an address. -/
theorem frame_address (f : Nat) : f * pageSize / pageSize = f := Nat.mul_div_cancel f (by decide)

/-- `MBOOT_MEM_AVAILABLE`. -/
def mbootMemAvailable : BitVec 32 := 1

def mbootFlagMem : BitVec 32 := 0x001

def mbootFlagMmap : BitVec 32 := 0x040

/-- `struct mboot_mmap_entry`, in the order the start-up walks them. -/
structure MbootMmapEntry where
  baseLow : BitVec 32
  baseHigh : BitVec 32
  lengthLow : BitVec 32
  lengthHigh : BitVec 32
  type : BitVec 32
  deriving DecidableEq

/-- `((uint64_t)entry->base_high << 32) | entry->base_low`. -/
def MbootMmapEntry.base (e : MbootMmapEntry) : Nat := (e.baseHigh ++ e.baseLow).toNat

def MbootMmapEntry.len (e : MbootMmapEntry) : Nat := (e.lengthHigh ++ e.lengthLow).toNat

/-- The fields of `struct mboot_info` the start-up reads; `mmap` is the sequence
    of entries between `mmap_addr` and `mmap_addr + mmap_length`. -/
structure MbootInfo where
  flags : BitVec 32
  memUpper : BitVec 32
  mmap : List MbootMmapEntry

/-- The static variables of the page allocator. -/
structure Pmm where
  /-- The words at `pmm_bitmap`. -/
  bitmap : Bitmap 64
  /-- The address in `pmm_bitmap`. -/
  bitmapStart : Nat
  bitmapSize : Nat
  totalPages : Nat
  freePages : Nat
  refCounts : Nat → BitVec 32
  refStart : Nat
  refEnd : Nat

/-! ## Bitmap helpers -/

def bitmapSet (p : Pmm) (index : Nat) : Pmm := { p with bitmap := p.bitmap.set index }

def bitmapClear (p : Pmm) (index : Nat) : Pmm := { p with bitmap := p.bitmap.clear index }

/-- The word is masked at 64 bits and returned as an `int`: only the low 32 bits
    of the masked word survive. -/
def bitmapTest (p : Pmm) (index : Nat) : BitVec 32 :=
  (p.bitmap (index / 64) &&& Bitmap.mask 64 index).setWidth 32

/-- What the truncated test answers: a set bit in the upper half of its word
    reads as clear. -/
theorem bitmapTest_eq_zero_iff {p : Pmm} {index : Nat} :
    bitmapTest p index = 0 ↔ (index % 64 < 32 → p.bitmap.get index = false) := by
  rw [bitmapTest, Bitmap.and_mask]
  cases hget : p.bitmap.get index with
  | false => simp
  | true =>
    simp only [if_true, Bool.true_eq_false, imp_false, not_lt]
    constructor
    · intro hzero
      by_contra hlt
      have hbit : ((Bitmap.mask 64 index).setWidth 32).getLsbD (index % 64) = true := by
        simp [Bitmap.getLsbD_mask, Nat.lt_of_not_le hlt]
      rw [hzero] at hbit
      simp at hbit
    · intro hle
      apply BitVec.eq_of_getLsbD_eq
      intro k hk
      have hne : k ≠ index % 64 := by omega
      simp only [BitVec.getLsbD_setWidth, Bitmap.getLsbD_mask, hne, decide_false, Bool.and_false]
      simp

/-! ## Page operations -/

/-- The page the nested search of `pmm_alloc_page` stops at: the first clear bit,
    words in order, skipping full words and indices at or above the page total. -/
def pmmFindFree (p : Pmm) : Option Nat :=
  (List.range p.bitmapSize).findSome? fun i =>
    if p.bitmap i = BitVec.allOnes 64 then none
    else (List.range 64).findSome? fun j =>
      if p.bitmap i &&& 1#64 <<< j = 0#64 then
        if p.totalPages ≤ i * 64 + j then none else some (i * 64 + j)
      else none

/-- `pmm_alloc_page`: the address of the page taken, 0 when there is none. -/
def pmmAllocPage (p : Pmm) : Nat × Pmm :=
  if p.freePages = 0 then (0, p)
  else match pmmFindFree p with
    | none => (0, p)
    | some page =>
      (page * pageSize, { bitmapSet p page with freePages := dec64 p.freePages })

def pmmFreePage (p : Pmm) (addr : Nat) : Pmm :=
  let page := addr / pageSize
  if p.totalPages ≤ page then p
  else if bitmapTest p page = 0 then p
  else { bitmapClear p page with freePages := u64 (p.freePages + 1) }

/-- The body of the loop of `pmm_reserve_range`. -/
def reservePage (p : Pmm) (page : Nat) : Pmm :=
  if bitmapTest p page = 0 then { bitmapSet p page with freePages := dec64 p.freePages } else p

/-- The pages `first, first + 1, ..` below both `last` and the page total, which
    is where the loops of the range functions stop. -/
def rangePages (p : Pmm) (first last : Nat) : List Nat :=
  List.range' first (min last p.totalPages - first)

def reserveFirst (start : Nat) : Nat := start / pageSize

def reserveLast (start length : Nat) : Nat := u64 (start + length + pageSize - 1) / pageSize

def pmmReserveRange (p : Pmm) (start length : Nat) : Pmm :=
  (rangePages p (reserveFirst start) (reserveLast start length)).foldl reservePage p

/-- The two `continue` tests of `pmm_free_range`: pages that overlap the bitmap
    (and one page beyond it) or the reference counts stay in use. -/
def freeSkips (p : Pmm) (page : Nat) : Bool :=
  let pageAddr := u64 (page * pageSize)
  let bitmapEnd := u64 (p.bitmapStart + p.bitmapSize * 8)
  (decide (p.bitmapStart ≤ pageAddr) && decide (pageAddr < u64 (bitmapEnd + pageSize))) ||
    (decide (p.refStart ≤ pageAddr) && decide (pageAddr < p.refEnd))

/-- The body of the loop of `pmm_free_range`. -/
def freePage (p : Pmm) (page : Nat) : Pmm :=
  if freeSkips p page then p
  else if bitmapTest p page = 0 then p
  else { bitmapClear p page with freePages := u64 (p.freePages + 1) }

/-- The loop of `pmm_free_range` starts at the first whole page of the range, but
    never below the bitmap, which sits right after the kernel image. -/
def freeFirst (p : Pmm) (start : Nat) : Nat :=
  max (u64 (start + pageSize - 1) / pageSize) (p.bitmapStart / pageSize)

def freeLast (start length : Nat) : Nat := u64 (start + length) / pageSize

def pmmFreeRange (p : Pmm) (start length : Nat) : Pmm :=
  (rangePages p (freeFirst p start) (freeLast start length)).foldl freePage p

/-! ## Reference counts -/

/-- `pmm_ref_count`, an `int`. -/
def pmmRefCount (p : Pmm) (addr : Nat) : Int :=
  let page := addr / pageSize
  if p.totalPages ≤ page then 0 else (p.refCounts page).toInt

def pmmRefInc (p : Pmm) (addr : Nat) : Pmm :=
  let page := addr / pageSize
  if page < p.totalPages then
    { p with refCounts := Function.update p.refCounts page (p.refCounts page + 1) }
  else p

def pmmRefDec (p : Pmm) (addr : Nat) : Int × Pmm :=
  let page := addr / pageSize
  if p.totalPages ≤ page then (-1, p)
  else if 0 < (p.refCounts page).toNat then
    ((p.refCounts page - 1).toInt,
      { p with refCounts := Function.update p.refCounts page (p.refCounts page - 1) })
  else (0, p)

/-! ## Start-up -/

/-- One round of the scan for the highest available address below 4 GiB. -/
def scanEntry (maxAddr : Nat) (e : MbootMmapEntry) : Nat :=
  if e.type = mbootMemAvailable then
    let top := u64 (e.base + e.len)
    if maxAddr < top ∧ top < 0x100000000 then top else maxAddr
  else maxAddr

/-- `total_mem` after the two optional fields and the cap. The scan of the memory
    map looks at no more than 64 entries. -/
def totalMem (mbi : MbootInfo) : Nat :=
  let fromMem := if mbi.flags &&& mbootFlagMem ≠ 0 then (mbi.memUpper.toNat + 1024) * 1024 else 0
  let total :=
    if mbi.flags &&& mbootFlagMmap ≠ 0 then (mbi.mmap.take 64).foldl scanEntry 0 else fromMem
  if total = 0 ∨ 0x20000000 < total then 128 * 1024 * 1024 else total

/-- `bitmap_start`: the kernel's end rounded up to a page. -/
def bitmapStartOf (kernelEnd : Nat) : Nat := alignUp kernelEnd pageSize

/-- The state before the memory map is walked: every bit set, every count zero.
    `words` is what the memory at the bitmap held before. -/
def pmmReset (kernelEnd : Nat) (words : Bitmap 64) (mbi : MbootInfo) : Pmm :=
  let totalPages := totalMem mbi / pageSize
  let bitmapSize := (totalPages + 63) / 64
  let refStart := u64 (bitmapStartOf kernelEnd + alignUp (bitmapSize * 8) pageSize)
  { bitmap := fun i => if i < min bitmapSize 1048576 then BitVec.allOnes 64 else words i
    bitmapStart := bitmapStartOf kernelEnd
    bitmapSize := bitmapSize
    totalPages := totalPages
    freePages := 0
    refCounts := fun _ => 0
    refStart := refStart
    refEnd := u64 (refStart + alignUp (totalPages * 4) pageSize) }

/-- Free the ranges of the memory map that are available. -/
def freeEntry (p : Pmm) (e : MbootMmapEntry) : Pmm :=
  if e.type = mbootMemAvailable then pmmFreeRange p e.base e.len else p

def pmmInit (kernelEnd : Nat) (words : Bitmap 64) (mbi : MbootInfo) : Pmm :=
  let p := pmmReset kernelEnd words mbi
  if mbi.flags &&& mbootFlagMmap ≠ 0 then mbi.mmap.foldl freeEntry p else p

end OpenSys
