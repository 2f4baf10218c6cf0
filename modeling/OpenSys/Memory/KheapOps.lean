-- SUMMARY: Allocation, release and reallocation on a healthy heap.
import Mathlib.Data.List.Chain
import OpenSys.Memory.KheapShape

/-!
# Heap operations

`HeapOk r h l` is a healthy heap: the blocks `l` tile the region `r`, and the two
byte counters are right. This file follows `kmalloc`, `kfree` and `krealloc`
through their loops on such a heap. Allocation needs a block that is larger than
the request by at least a header: with less, `split_block` computes a wrapped
remainder and writes a header over what follows.
-/

namespace OpenSys

open List Mem

open Mem (Agree)

/-- An address range that can hold a heap: it is larger than one header and does
    not contain the null pointer or leave the address space. -/
structure Region where
  start : Nat
  size : Nat
  start_pos : 0 < start
  size_gt : headerSize < size
  fits : start + size ≤ 2 ^ 64

def Region.stop (r : Region) : Nat := r.start + r.size

structure HeapOk (r : Region) (h : Kheap) (l : List HBlock) : Prop where
  first : h.heapFirst = r.start
  blocks : Blocks h.mem r.stop 0 r.start l
  used : h.bytesUsed = sizeSum true l
  free : h.bytesFree = sizeSum false l

variable {m m' : Mem} {b c : HBlock} {l l₁ l₂ : List HBlock} {next v x : Nat} {r : Region}
  {h h' : Kheap}

/-! ## Header writes -/

theorem HeaderAt.setFlags (hb : HeaderAt m b next) (used : Bool) :
    HeaderAt (setFlags m b.addr (if used then kheapAllocated else 0)) { b with used := used }
      next where
  next_eq := (readLE_writeLE_of_disjoint (by dsimp only; omega)).trans hb.next_eq
  size_eq := (readLE_writeLE_of_disjoint (by dsimp only; omega)).trans hb.size_eq
  flags_eq := readLE_writeLE (by cases used <;> decide)
  magic_eq := (readLE_writeLE_of_disjoint (by dsimp only; omega)).trans hb.magic_eq

theorem HeaderAt.setSize (hb : HeaderAt m b next) (hv : v < 2 ^ 64) :
    HeaderAt (setSize m b.addr v) { b with size := v } next where
  next_eq := (readLE_writeLE_of_disjoint (by dsimp only; omega)).trans hb.next_eq
  size_eq := readLE_writeLE (by simpa using hv)
  flags_eq := (readLE_writeLE_of_disjoint (by dsimp only; omega)).trans hb.flags_eq
  magic_eq := (readLE_writeLE_of_disjoint (by dsimp only; omega)).trans hb.magic_eq

theorem HeaderAt.setNext (hb : HeaderAt m b next) (hv : v < 2 ^ 64) :
    HeaderAt (setNext m b.addr v) b v where
  next_eq := readLE_writeLE (by simpa using hv)
  size_eq := (readLE_writeLE_of_disjoint (by omega)).trans hb.size_eq
  flags_eq := (readLE_writeLE_of_disjoint (by omega)).trans hb.flags_eq
  magic_eq := (readLE_writeLE_of_disjoint (by omega)).trans hb.magic_eq

variable {size p fuel n : Nat}

theorem headerAt_writeHeader (m : Mem) {a : Nat} (hnext : next < 2 ^ 64) (hsize : size < 2 ^ 64) :
    HeaderAt (writeHeader m a next size) ⟨a, size, false⟩ next where
  next_eq := by
    simp only [blockNext, writeHeader, OpenSys.setMagic, OpenSys.setFlags, OpenSys.setSize]
    rw [readLE_writeLE_of_disjoint (by omega), readLE_writeLE_of_disjoint (by omega),
      readLE_writeLE_of_disjoint (by omega)]
    exact readLE_writeLE (by simpa using hnext)
  size_eq := by
    simp only [blockSize, writeHeader, OpenSys.setMagic, OpenSys.setFlags]
    rw [readLE_writeLE_of_disjoint (by omega), readLE_writeLE_of_disjoint (by omega)]
    exact readLE_writeLE (by simpa using hsize)
  flags_eq := by
    simp only [blockFlags, writeHeader, OpenSys.setMagic]
    rw [readLE_writeLE_of_disjoint (by omega)]
    exact readLE_writeLE (by omega)
  magic_eq := readLE_writeLE (by decide)

/-- A header write stays inside the header. -/
theorem writeHeader_outside {a : Nat} (hx : x < a ∨ a + 20 ≤ x) :
    writeHeader m a next size x = m x := by
  simp only [writeHeader, setMagic, setFlags, setSize, setNext]
  rw [writeLE_outside (by omega), writeLE_outside (by omega), writeLE_outside (by omega),
    writeLE_outside (by omega)]

/-! ## Blocks of a region -/

theorem HeapOk.addr_pos (hk : HeapOk r h l) (hb : b ∈ l) : 0 < b.addr :=
  Nat.lt_of_lt_of_le r.start_pos (hk.blocks.mem_bounds hb).1

theorem HeapOk.stop_le (hk : HeapOk r h l) (hb : b ∈ l) : b.stop ≤ 2 ^ 64 :=
  (hk.blocks.mem_bounds hb).2.trans r.fits

theorem HeapOk.ne_nil (hk : HeapOk r h l) : l ≠ [] := by
  rintro rfl
  have hstop : r.start = r.stop := hk.blocks
  have := r.size_gt
  unfold Region.stop at hstop
  omega

/-- The used and the free bytes and the headers make up the region. -/
theorem HeapOk.accounting (hk : HeapOk r h l) :
    h.bytesUsed + h.bytesFree + headerSize * l.length = r.size := by
  have htotal := hk.blocks.total
  rw [hk.used, hk.free]
  unfold Region.stop at htotal
  omega

/-- The pointer to the first block of a list that ends in a null link. -/
def headPtr : List HBlock → Nat
  | [] => 0
  | b :: _ => b.addr

theorem HeapOk.first_eq (hk : HeapOk r h l) : h.heapFirst = headPtr l := by
  cases l with
  | nil => exact absurd rfl hk.ne_nil
  | cons b l => exact hk.first.trans hk.blocks.1.symm

/-- In a heap that ends in a null link, a block links to what follows it. -/
theorem Blocks.link_eq {stop : Nat} (hl : Blocks m stop 0 p (b :: l)) :
    HeaderAt m b (headPtr l) := by
  obtain ⟨-, hb, hrest⟩ := hl
  cases l with
  | nil => exact hb
  | cons c l =>
    rw [headPtr, hrest.1]
    exact hb

/-! ## First fit -/

/-- The block `kmalloc` looks for. -/
def fits (size : Nat) (b : HBlock) : Bool := !b.used && decide (size ≤ b.size)

theorem findFit_eq {stop : Nat} (hl : Blocks m stop 0 p l) (hp : 0 < p) (hfuel : l.length ≤ fuel) :
    findFit m size fuel (headPtr l) = some ((l.find? (fits size)).map HBlock.addr) := by
  induction l generalizing p fuel with
  | nil => cases fuel <;> simp [findFit, headPtr]
  | cons b l ih =>
    have hb := hl.link_eq
    obtain ⟨rfl, -, hrest⟩ := hl
    cases fuel with
    | zero => simp at hfuel
    | succ fuel =>
      have hfit : (isFree m b.addr && decide (size ≤ blockSize m b.addr)) = fits size b := by
        rw [hb.isFree_eq, hb.size_eq, fits]
      rw [headPtr, findFit, if_neg (by omega), if_neg (by simp [hb.magic_eq]), hfit, hb.next_eq]
      cases hf : fits size b with
      | true => simp [hf]
      | false =>
        have hstop : 0 < b.stop := by
          unfold HBlock.stop
          omega
        rw [length_cons] at hfuel
        simpa [hf] using ih hrest hstop (by omega)

/-- There are fewer blocks than addresses. -/
theorem HeapOk.length_le (hk : HeapOk r h l) : l.length ≤ walkFuel := by
  have htotal := hk.blocks.total
  have hfits := r.fits
  unfold Region.stop at htotal
  unfold headerSize walkFuel at *
  omega

theorem HeapOk.findFit_eq (hk : HeapOk r h l) (size : Nat) :
    findFit h.mem size walkFuel h.heapFirst = some ((l.find? (fits size)).map HBlock.addr) := by
  rw [hk.first_eq]
  exact OpenSys.findFit_eq hk.blocks r.start_pos hk.length_le

/-! ## Taking and releasing a block -/

theorem blockNext_lt (m : Mem) (a : Nat) : blockNext m a < 2 ^ 64 := by
  have hlt := m.readLE_lt a 8
  norm_num at hlt
  exact hlt

/-- Blocks over the addresses of `b`, with its link, may take its place. -/
theorem HeapOk.replace (hk : HeapOk r h (l₁ ++ b :: l₂)) :
    ∃ link, HeaderAt h.mem b link ∧ link < 2 ^ 64 ∧ ∀ (m' : Mem) (new : List HBlock), new ≠ [] →
        (∀ x, x < b.addr ∨ b.stop ≤ x → m' x = h.mem x) → Blocks m' b.stop link b.addr new →
        Blocks m' r.stop 0 r.start (l₁ ++ new ++ l₂) := by
  have hblocks : Blocks h.mem r.stop 0 r.start (l₁ ++ [b] ++ l₂) := by
    simpa using hk.blocks
  obtain ⟨q, stop, link, ⟨rfl, hb, hstop⟩, hnew⟩ := hblocks.replace (by simp)
  have hstop' : b.stop = stop := hstop
  subst hstop'
  have hlink : blockNext h.mem b.addr = link := hb.next_eq
  exact ⟨link, hb, hlink ▸ blockNext_lt h.mem b.addr, hnew⟩

/-- What `kmalloc` puts in the place of the free block `b`: a used block of at
    least the requested size, and the rest as a free block if it is large enough. -/
def taken (b : HBlock) (size : Nat) : List HBlock :=
  if b.size - size - headerSize < minBlockSize then [⟨b.addr, b.size, true⟩]
  else [⟨b.addr, size, true⟩, ⟨b.addr + headerSize + size, b.size - size - headerSize, false⟩]

theorem remaining_eq {bsize : Nat} (hsize : size + headerSize ≤ bsize) (hlt : bsize < 2 ^ 64) :
    sub64 (sub64 bsize size) headerSize = bsize - size - headerSize := by
  rw [sub64_of_le (by omega) hlt, sub64_of_le (by omega) (by omega)]

theorem HeapOk.sizeSum_le (hk : HeapOk r h l) :
    sizeSum true l + sizeSum false l + headerSize < 2 ^ 64 := by
  have htotal := hk.blocks.total
  have hfits := r.fits
  have hstart := r.start_pos
  have hlength : headerSize * 1 ≤ headerSize * l.length :=
    Nat.mul_le_mul_left _ (length_pos_iff.mpr hk.ne_nil)
  unfold Region.stop at htotal
  omega

/-- The memory after the two header updates of `split_block`. -/
def splitMem (m : Mem) (block newBlock next remaining size : Nat) : Mem :=
  setNext (setSize (writeHeader m newBlock next remaining) block size) block newBlock

/-- Both headers of a split, and nothing behind the second one is touched. -/
theorem splitMem_headers (hb : HeaderAt m b next) (size remaining : Nat) (hnext : next < 2 ^ 64)
    (hrem : remaining < 2 ^ 64) (hnew : b.addr + headerSize + size < 2 ^ 64) :
    HeaderAt (splitMem m b.addr (b.addr + headerSize + size) next remaining size)
        { b with size := size } (b.addr + headerSize + size) ∧
      HeaderAt (splitMem m b.addr (b.addr + headerSize + size) next remaining size)
        ⟨b.addr + headerSize + size, remaining, false⟩ next ∧
      ∀ x, x < b.addr ∨ b.addr + headerSize + size + 20 ≤ x →
        splitMem m b.addr (b.addr + headerSize + size) next remaining size x = m x := by
  have hheader : headerSize = 24 := rfl
  refine ⟨?_, ?_, ?_⟩
  · have hframe : HeaderAt (writeHeader m (b.addr + headerSize + size) next remaining) b next :=
      hb.frame fun x _ hx => writeHeader_outside (by omega)
    have hsize : HeaderAt _ { b with size := size } next := hframe.setSize (by omega)
    exact hsize.setNext hnew
  · refine (headerAt_writeHeader m hnext hrem).frame fun x hx _ => ?_
    simp only [splitMem, setNext, setSize]
    dsimp only at hx
    rw [writeLE_outside (by omega), writeLE_outside (by omega)]
  · intro x hx
    simp only [splitMem, setNext, setSize]
    rw [writeLE_outside (by omega), writeLE_outside (by omega)]
    exact writeHeader_outside (by omega)

/-- Splitting a free block that exceeds the request by at least a header. The
    first of the resulting blocks starts where `b` did. -/
protected theorem HeapOk.splitBlock (hk : HeapOk r h (l₁ ++ b :: l₂)) (hfree : b.used = false)
    (hsize : size + headerSize ≤ b.size) :
    ∃ c rest, taken b size = { c with used := true } :: rest ∧ c.addr = b.addr ∧
      c.used = false ∧ HeapOk r (splitBlock h b.addr size) (l₁ ++ c :: (rest ++ l₂)) := by
  have hheader : headerSize = 24 := rfl
  have hmin : minBlockSize = 40 := rfl
  obtain ⟨link, hb, hlink, hnew⟩ := hk.replace
  have hmem : b ∈ l₁ ++ b :: l₂ := by simp
  have hstop := hk.stop_le hmem
  have hsum := hk.sizeSum_le
  have hfreeSum := hk.free
  simp only [HBlock.stop] at hstop
  simp only [sizeSum_append, sizeSum, hfree, if_true, Bool.false_eq_true, if_false]
    at hsum hfreeSum
  have hrem : sub64 (sub64 (blockSize h.mem b.addr) size) headerSize =
      b.size - size - headerSize := by
    rw [hb.size_eq]
    exact remaining_eq hsize (by omega)
  by_cases hsmall : b.size - size - headerSize < minBlockSize
  · refine ⟨b, [], by simp [taken, hsmall], rfl, hfree, ?_⟩
    simpa [splitBlock, hrem, hsmall] using hk
  have haddr : u64 (b.addr + headerSize + size) = b.addr + headerSize + size := u64_of_lt (by omega)
  obtain ⟨hfst, hsnd, houtside⟩ := splitMem_headers hb size
    (b.size - size - headerSize) hlink (by omega) (by omega)
  have hsplit : splitBlock h b.addr size = { h with
        mem := splitMem h.mem b.addr (b.addr + headerSize + size) link
          (b.size - size - headerSize) size
        bytesFree := sub64 h.bytesFree headerSize } := by
    simp only [splitBlock, hrem, if_neg hsmall, haddr, hb.next_eq, splitMem]
  refine ⟨{ b with size := size },
    [⟨b.addr + headerSize + size, b.size - size - headerSize, false⟩],
    by simp [taken, hsmall], rfl, hfree, ?_⟩
  rw [hsplit]
  refine ⟨hk.first, ?_, ?_, ?_⟩
  · have hblocks := hnew _ [{ b with size := size },
      ⟨b.addr + headerSize + size, b.size - size - headerSize, false⟩] (by simp)
      (fun x hx => houtside x (by simp only [HBlock.stop] at hx; omega)) ⟨rfl, hfst, rfl, hsnd, by
        simp only [Blocks, HBlock.stop]
        omega⟩
    simpa using hblocks
  · simpa [sizeSum, hfree] using hk.used
  · rw [sub64_of_le (by omega) (by omega)]
    simp only [sizeSum_append, sizeSum, if_true, hfree, hfreeSum]
    omega

/-- Changing the state of a block, with the matching change of the counters. -/
theorem HeapOk.setUsed (hk : HeapOk r h (l₁ ++ b :: l₂)) (used : Bool) (bytesUsed bytesFree : Nat)
    (hused : bytesUsed = sizeSum true (l₁ ++ { b with used := used } :: l₂))
    (hfree : bytesFree = sizeSum false (l₁ ++ { b with used := used } :: l₂)) :
    HeapOk r ⟨setFlags h.mem b.addr (if used then kheapAllocated else 0), h.heapFirst, bytesUsed,
      bytesFree⟩ (l₁ ++ { b with used := used } :: l₂) := by
  have hheader : headerSize = 24 := rfl
  obtain ⟨link, hb, -, hnew⟩ := hk.replace
  refine ⟨hk.first, ?_, hused, hfree⟩
  have hblocks := hnew (setFlags h.mem b.addr (if used then kheapAllocated else 0))
    [{ b with used := used }] (by simp) (fun x hx => ?_) ⟨rfl, hb.setFlags used, rfl⟩
  · simpa using hblocks
  · simp only [HBlock.stop] at hx
    exact writeLE_outside (by omega)

/-- `kmalloc` on the block it found. -/
theorem HeapOk.takeBlock (hk : HeapOk r h (l₁ ++ b :: l₂)) (hfree : b.used = false)
    (hsize : size + headerSize ≤ b.size) :
    HeapOk r (takeBlock h b.addr size) (l₁ ++ taken b size ++ l₂) := by
  obtain ⟨c, rest, htaken, haddr, hcfree, hsplit⟩ := hk.splitBlock hfree hsize
  simp only [OpenSys.takeBlock]
  generalize splitBlock h b.addr size = h₁ at hsplit ⊢
  obtain ⟨link, hheader, -⟩ := hsplit.replace
  have hsum := hsplit.sizeSum_le
  have hused := hsplit.used
  have hfreeSum := hsplit.free
  simp only [sizeSum_append, sizeSum, hcfree, if_true, Bool.false_eq_true, if_false]
    at hsum hused hfreeSum
  have hflags := (hheader.setFlags true).size_eq
  simp only [if_true] at hflags
  have htake := hsplit.setUsed true (u64 (h₁.bytesUsed + c.size)) (sub64 h₁.bytesFree c.size)
    (by
      rw [u64_of_lt (by omega)]
      simp only [sizeSum_append, sizeSum, if_true, hused]
      omega)
    (by
      rw [sub64_of_le (by omega) (by omega)]
      simp only [sizeSum_append, sizeSum, Bool.true_eq_false, if_false, hfreeSum]
      omega)
  rw [htaken, ← haddr, hflags]
  simpa using htake

protected theorem HeapOk.releaseBlock (hk : HeapOk r h (l₁ ++ b :: l₂)) (hused : b.used = true) :
    HeapOk r (releaseBlock h b.addr) (l₁ ++ { b with used := false } :: l₂) := by
  obtain ⟨link, hheader, -⟩ := hk.replace
  have hsum := hk.sizeSum_le
  have husedSum := hk.used
  have hfreeSum := hk.free
  simp only [sizeSum_append, sizeSum, hused, if_true, Bool.true_eq_false, if_false]
    at hsum husedSum hfreeSum
  simp only [releaseBlock, hheader.size_eq]
  refine hk.setUsed false _ _ ?_ ?_
  · rw [sub64_of_le (by omega) (by omega)]
    simp only [sizeSum_append, sizeSum, Bool.false_eq_true, if_false, husedSum]
    omega
  · rw [u64_of_lt (by omega)]
    simp only [sizeSum_append, sizeSum, if_true, hfreeSum]
    omega

/-! ## Merging -/

theorem HeapOk.headerAt (hk : HeapOk r h (l₁ ++ b :: l₂)) : HeaderAt h.mem b (headPtr l₂) := by
  obtain ⟨q, -, hrest⟩ := (blocks_append (cons_ne_nil b l₂)).mp hk.blocks
  exact hrest.link_eq

theorem HeapOk.stop_eq (hk : HeapOk r h (l₁ ++ b :: c :: l₂)) : c.addr = b.stop := by
  obtain ⟨q, -, -, -, hc, -⟩ := (blocks_append (cons_ne_nil b (c :: l₂))).mp hk.blocks
  exact hc

/-- The block that two neighbours become. -/
def merged (b c : HBlock) : HBlock := ⟨b.addr, b.size + headerSize + c.size, false⟩

/-- One merge of `merge_blocks`. -/
def mergeBlock (h : Kheap) (block next : Nat) : Kheap :=
  let m := setSize h.mem block (u64 (blockSize h.mem block + headerSize + blockSize h.mem next))
  { h with
    mem := setNext m block (blockNext m next)
    bytesFree := u64 (h.bytesFree + headerSize) }

protected theorem HeapOk.mergeBlock (hk : HeapOk r h (l₁ ++ b :: c :: l₂)) (hb : b.used = false)
    (hc : c.used = false) :
    HeapOk r (mergeBlock h b.addr c.addr) (l₁ ++ merged b c :: l₂) := by
  have hheader : headerSize = 24 := rfl
  have hsum := hk.sizeSum_le
  have hcstop := hk.stop_le (b := c) (by simp)
  have haddr := hk.stop_eq
  have hused := hk.used
  have hfree := hk.free
  simp only [sizeSum_append, sizeSum, hb, hc, if_true, Bool.false_eq_true, if_false]
    at hsum hused hfree
  simp only [HBlock.stop] at hcstop haddr
  have hblocks : Blocks h.mem r.stop 0 r.start (l₁ ++ [b, c] ++ l₂) := by
    simpa using hk.blocks
  obtain ⟨q, stop, link, ⟨rfl, hbh, -, hch, hstop⟩, hnew⟩ := hblocks.replace (by simp)
  have hstop' : c.stop = stop := hstop
  subst hstop'
  have hlink : link < 2 ^ 64 := by
    have hnext : blockNext h.mem c.addr = link := hch.next_eq
    exact hnext ▸ blockNext_lt h.mem c.addr
  have hsize : u64 (blockSize h.mem b.addr + headerSize + blockSize h.mem c.addr) =
      b.size + headerSize + c.size := by
    rw [hbh.size_eq, hch.size_eq]
    exact u64_of_lt (by omega)
  have hnext : blockNext (setSize h.mem b.addr (b.size + headerSize + c.size)) c.addr = link :=
    (readLE_writeLE_of_disjoint (by omega)).trans hch.next_eq
  have hmerge : mergeBlock h b.addr c.addr = { h with
        mem := setNext (setSize h.mem b.addr (b.size + headerSize + c.size)) b.addr link
        bytesFree := u64 (h.bytesFree + headerSize) } := by
    simp only [mergeBlock, hsize, hnext]
  rw [hmerge]
  refine ⟨hk.first, ?_, ?_, ?_⟩
  · have hset : HeaderAt _ { b with size := b.size + headerSize + c.size } _ :=
      hbh.setSize (by omega)
    have hset' : HeaderAt (setNext (setSize h.mem b.addr (b.size + headerSize + c.size)) b.addr
        link) (merged b c) link := by
      have hlinked := hset.setNext hlink
      rwa [hb] at hlinked
    have hblocks' := hnew _ [merged b c] (by simp) (fun x hx => ?_) ⟨rfl, hset', ?_⟩
    · simpa using hblocks'
    · simp only [HBlock.stop] at hx
      simp only [setNext, setSize]
      rw [writeLE_outside (by omega), writeLE_outside (by omega)]
    · simp only [Blocks, HBlock.stop, merged]
      omega
  · simpa [sizeSum, merged] using hused
  · rw [u64_of_lt (by omega)]
    simp only [sizeSum_append, sizeSum, merged, if_true, hfree]
    omega

theorem ne_of_used (hb : b.used = false) (hc : c.used = true) : c ≠ b := by
  rintro rfl
  rw [hc] at hb
  cases hb

theorem mem_merged (hb : b.used = false) (hc : c.used = false) {d : HBlock} (hd : d.used = true) :
    d ∈ l₁ ++ merged b c :: l₂ ↔ d ∈ l₁ ++ b :: c :: l₂ := by
  simp [ne_of_used hb hd, ne_of_used hc hd, ne_of_used (b := merged b c) rfl hd]

/-- No two neighbouring blocks are both free. -/
def NoFreePair (l : List HBlock) : Prop := l.IsChain fun a b => a.used = true ∨ b.used = true

/-- The used blocks are the same, with all their bytes. -/
structure UsedKept (h : Kheap) (l : List HBlock) (h' : Kheap) (l' : List HBlock) : Prop where
  mem : ∀ d : HBlock, d.used = true → (d ∈ l' ↔ d ∈ l)
  bytes : ∀ d ∈ l, d.used = true → Agree h.mem h'.mem d.addr (headerSize + d.size)
  bytesUsed : h'.bytesUsed = h.bytesUsed

/-- A write to the header of `b` does not reach into another block. -/
theorem HeapOk.agree_header (hk : HeapOk r h l) (hb : b ∈ l) (hc : c ∈ l) (hne : c ≠ b) {i k : Nat}
    (hi : i + k ≤ headerSize) :
    Agree m (m.writeLE (b.addr + i) k v) c.addr (headerSize + c.size) := by
  have hdisjoint := hk.blocks.disjoint hc hb hne
  simp only [HBlock.stop] at hdisjoint
  exact agree_writeLE (by omega)

theorem HeapOk.mergeBlock_kept (hk : HeapOk r h (l₁ ++ b :: c :: l₂)) (hb : b.used = false)
    (hc : c.used = false) : UsedKept h (l₁ ++ b :: c :: l₂)
      (mergeBlock h b.addr c.addr) (l₁ ++ merged b c :: l₂) where
  mem d hd := mem_merged hb hc hd
  bytes d hd hu := by
    have hne := ne_of_used hb hu
    exact (hk.agree_header (by simp) hd hne (by decide)).trans
      (hk.agree_header (i := 0) (by simp) hd hne (by decide))
  bytesUsed := rfl

/-- The loop of `merge_blocks` from a block on: the heap stays healthy, its used blocks stay the
same, and no free block is left in front of another one. -/
protected theorem HeapOk.mergeFrom (hk : HeapOk r h (l₁ ++ b :: l₂)) (hpair : NoFreePair (l₁ ++ [b]))
    {fuel : Nat} (hfuel : l₂.length ≤ fuel) :
    ∃ h' l', mergeFrom h fuel b.addr = some h' ∧ HeapOk r h' l' ∧ NoFreePair l' ∧
      UsedKept h (l₁ ++ b :: l₂) h' l' := by
  induction l₂ generalizing l₁ b h fuel with
  | nil =>
    have hnext : blockNext h.mem b.addr = 0 := hk.headerAt.next_eq
    refine ⟨h, _, ?_, hk, hpair, fun d _ => Iff.rfl, fun d _ _ => .refl _ _ _, rfl⟩
    cases fuel <;> simp [mergeFrom, hnext]
  | cons c l ih =>
    have hbh := hk.headerAt
    have hassoc : l₁ ++ b :: c :: l = (l₁ ++ [b]) ++ c :: l := by simp
    have hk' : HeapOk r h ((l₁ ++ [b]) ++ c :: l) := hassoc ▸ hk
    have hch := hk'.headerAt
    have hbpos := hk.addr_pos (b := b) (by simp)
    have hcpos := hk.addr_pos (b := c) (by simp)
    have hnext : blockNext h.mem b.addr = c.addr := hbh.next_eq
    cases fuel with
    | zero => simp at hfuel
    | succ fuel =>
      rw [length_cons, Nat.add_le_add_iff_right] at hfuel
      have hend : c.addr = blockEnd h.mem b.addr := by
        have hstop := hk.stop_le (b := c) (by simp)
        have haddr := hk.stop_eq
        simp only [HBlock.stop] at hstop haddr
        have hheader : headerSize = 24 := rfl
        rw [blockEnd, hbh.size_eq, ← haddr, u64_of_lt (by omega)]
      by_cases hfree : b.used = false ∧ c.used = false
      · -- the merged block is as free as `b` was
        have hpair' : NoFreePair (l₁ ++ [merged b c]) := by
          rw [NoFreePair, isChain_append] at hpair ⊢
          simpa [merged, hfree.1] using hpair
        have hkept := hk.mergeBlock_kept hfree.1 hfree.2
        obtain ⟨h', l', hrun, hok, hnone, hkept'⟩ := ih (hk.mergeBlock hfree.1 hfree.2) hpair' hfuel
        refine ⟨h', l', ?_, hok, hnone, fun d hd => (hkept'.mem d hd).trans (hkept.mem d hd),
          fun d hd hu => ?_, hkept'.bytesUsed⟩
        · rw [← hrun]
          simp [mergeFrom, hnext, Nat.ne_of_gt hbpos, Nat.ne_of_gt hcpos, hbh.isFree_eq,
            hch.isFree_eq, hfree.1, hfree.2, ← hend, mergeBlock, merged]
        · exact (hkept.bytes d hd hu).trans (hkept'.bytes d ((hkept.mem d hu).mpr hd) hu)
      · have hone : b.used = true ∨ c.used = true := by simpa [or_iff_not_imp_left] using hfree
        have hpair' : NoFreePair ((l₁ ++ [b]) ++ [c]) := by
          rw [NoFreePair, append_assoc, singleton_append, isChain_append_cons_cons]
          exact ⟨hpair, hone, isChain_singleton c⟩
        obtain ⟨h', l', hrun, hok, hnone, hkept⟩ := ih hk' hpair' hfuel
        refine ⟨h', l', ?_, hok, hnone, hassoc ▸ hkept⟩
        rw [← hrun]
        have hnot : (isFree h.mem b.addr && isFree h.mem c.addr && c.addr == blockEnd h.mem b.addr) =
            false := by
          rw [hbh.isFree_eq, hch.isFree_eq]
          rcases hone with hu | hu <;> simp [hu]
        simp [mergeFrom, hnext, Nat.ne_of_gt hbpos, Nat.ne_of_gt hcpos, hnot]

/-! ## `kfree`, `kmalloc` and `krealloc` -/

/-- The header that `kfree` and `krealloc` find for a pointer. -/
theorem block_of_ptr (hptr : b.addr + headerSize < 2 ^ 64) :
    sub64 (b.addr + headerSize) headerSize = b.addr := by
  rw [sub64_of_le (by omega) hptr]
  omega

theorem HeapOk.ptr_lt (hk : HeapOk r h l) (hb : b ∈ l) (hsize : 0 < b.size) :
    b.addr + headerSize < 2 ^ 64 := by
  have hstop := hk.stop_le hb
  simp only [HBlock.stop] at hstop
  omega

theorem HeapOk.header (hk : HeapOk r h l) (hb : b ∈ l) : ∃ next, HeaderAt h.mem b next := by
  obtain ⟨l₁, l₂, rfl⟩ := append_of_mem hb
  exact ⟨_, hk.headerAt⟩

/-- `b` has been freed, and no two neighbouring blocks are free. -/
structure Frees (h : Kheap) (l : List HBlock) (b : HBlock) (h' : Kheap) (l' : List HBlock) :
    Prop where
  mem : ∀ d : HBlock, d.used = true → (d ∈ l' ↔ d ∈ l ∧ d ≠ b)
  noFreePair : NoFreePair l'
  bytes : ∀ d ∈ l', d.used = true → Agree h.mem h'.mem d.addr (headerSize + d.size)
  bytesUsed : h'.bytesUsed + b.size = h.bytesUsed

/-- Freeing a used block removes it from the used ones and touches no other. -/
protected theorem HeapOk.kfree (hk : HeapOk r h l) (hb : b ∈ l) (hused : b.used = true)
    (hptr : b.addr + headerSize < 2 ^ 64) :
    ∃ h' l', kfree h (b.addr + headerSize) = some h' ∧ HeapOk r h' l' ∧ Frees h l b h' l' := by
  have hpos := hk.addr_pos hb
  have hlength := hk.length_le
  have hnodup := hk.blocks.nodup
  have hblock := block_of_ptr hptr
  obtain ⟨l₁, l₂, rfl⟩ := append_of_mem hb
  have hheader := hk.headerAt
  have hrelease := hk.releaseBlock hused
  have hnonempty := hrelease.ne_nil
  have hfirst : h.heapFirst = headPtr (l₁ ++ { b with used := false } :: l₂) := hrelease.first_eq
  have hnonnull : b.addr + headerSize ≠ 0 := by omega
  obtain ⟨c, rest, hlist⟩ := exists_cons_of_ne_nil hnonempty
  have hsum : (releaseBlock h b.addr).bytesUsed + b.size = h.bytesUsed := by
    rw [hrelease.used, hk.used]
    simp only [sizeSum_append, sizeSum, hused, Bool.false_eq_true, if_false, if_true]
    omega
  rw [hlist] at hrelease hfirst
  have hrest : rest.length ≤ walkFuel := by
    have hcount := congrArg List.length hlist
    simp only [length_append, length_cons] at hcount hlength
    omega
  obtain ⟨h', l', hrun, hok, hnone, hkept⟩ :=
    (show HeapOk r _ ([] ++ c :: rest) from hrelease).mergeFrom (isChain_singleton c) hrest
  rw [nil_append, ← hlist] at hkept
  have hmem (d : HBlock) (hd : d.used = true) : d ∈ l' ↔ d ∈ l₁ ++ b :: l₂ ∧ d ≠ b := by
    have hne : d ≠ { b with used := false } := ne_of_used rfl hd
    have hmiddle : d ∈ l₁ ++ b :: l₂ ∧ d ≠ b ↔ d ∈ l₁ ∨ d ∈ l₂ := by
      constructor
      · rintro ⟨hdl, hdb⟩
        simpa [hdb] using hdl
      intro hdl
      obtain ⟨-, hnodup₂, hdisjoint⟩ := nodup_append.mp hnodup
      rcases hdl with hd₁ | hd₂
      · refine ⟨mem_append_left _ hd₁, ?_⟩
        exact hdisjoint d hd₁ b mem_cons_self
      · refine ⟨mem_append_right _ (mem_cons_of_mem b hd₂), ?_⟩
        rintro rfl
        exact (nodup_cons.mp hnodup₂).1 hd₂
    rw [hkept.mem d hd, hmiddle]
    simp [hne]
  refine ⟨h', l', ?_, hok, hmem, hnone, fun d hd hu => ?_, by rw [hkept.bytesUsed, hsum]⟩
  · have hbusy : isFree h.mem b.addr = false := by rw [hheader.isFree_eq, hused]; rfl
    rw [kfree, if_neg hnonnull, hblock, if_neg (by simp [hheader.magic_eq]), hbusy,
      if_neg Bool.false_ne_true, hfirst, headPtr, hrun]
  · obtain ⟨hdl, hdb⟩ := (hmem d hu).mp hd
    exact (hk.agree_header hb hdl hdb (by decide)).trans
      (hkept.bytes d ((hkept.mem d hu).mp hd) hu)

/-- Rounding up does not wrap for the requests that `kmalloc` can serve. -/
theorem le_alignUp (hn : n ≤ 2 ^ 64 - 16) : n ≤ alignUp n 16 := by
  rw [alignUp, u64_of_lt (by omega)]
  omega

/-- The request can be served without a wrapped remainder: the block that first fit
    selects exceeds the rounded request by at least a header. A request that no
    block can serve is refused and needs nothing. -/
def requestFits (h : Kheap) (n : Nat) : Prop :=
  ∀ b, findFit h.mem (alignUp n 16) walkFuel h.heapFirst = some (some b) →
    n ≤ 2 ^ 64 - 16 ∧ alignUp n 16 + headerSize ≤ blockSize h.mem b

/-- `l'` is `l` with the used block `c` at a place that no used block had. -/
structure Allocates (l l' : List HBlock) (c : HBlock) (n : Nat) : Prop where
  mem : c ∈ l'
  used : c.used = true
  size : n ≤ c.size
  others : ∀ d : HBlock, d.used = true → (d ∈ l' ↔ d ∈ l ∨ d = c)
  fresh : ∀ d ∈ l, d.used = true → d.addr ≠ c.addr

theorem taken_eq (b : HBlock) (hn : n ≤ b.size) :
    ∃ c rest, taken b n = c :: rest ∧ c.addr = b.addr ∧ c.used = true ∧ n ≤ c.size ∧
      ∀ d ∈ rest, d.used = false := by
  unfold taken
  split
  · exact ⟨_, _, rfl, rfl, rfl, hn, by simp⟩
  · exact ⟨_, _, rfl, rfl, rfl, Nat.le_refl n, by simp⟩

protected theorem HeapOk.kmalloc (hk : HeapOk r h l) (hn : 0 < n) (hfit : requestFits h n) :
    kmalloc h n = some (0, h) ∨
      ∃ c h' l', kmalloc h n = some (c.addr + headerSize, h') ∧ HeapOk r h' l' ∧
        Allocates l l' c n := by
  have hfind := hk.findFit_eq (alignUp n 16)
  cases hsearch : l.find? (fits (alignUp n 16)) with
  | none =>
    left
    rw [hsearch] at hfind
    simp [kmalloc, Nat.ne_of_gt hn, hfind]
  | some b =>
    right
    rw [hsearch, Option.map_some] at hfind
    obtain ⟨hfits, l₁, l₂, rfl, -⟩ := find?_eq_some_iff_append.mp hsearch
    have hfree : b.used = false := by
      simp only [fits, Bool.and_eq_true, Bool.not_eq_true'] at hfits
      exact hfits.1
    obtain ⟨hle, hroom⟩ := hfit b.addr hfind
    rw [hk.headerAt.size_eq] at hroom
    obtain ⟨c, rest, htaken, haddr, hused, hsize, hrest⟩ :=
      taken_eq b (Nat.le_of_add_right_le hroom)
    have htake := hk.takeBlock hfree hroom
    rw [htaken] at htake
    have hstop := htake.stop_le (b := c) (by simp)
    have hpos := le_alignUp hle
    simp only [HBlock.stop] at hstop
    refine ⟨c, _, _, ?_, htake, by simp, hused, hpos.trans hsize, fun d hd => ?_, fun d hd hdu => ?_⟩
    · have hptr : u64 (b.addr + headerSize) = c.addr + headerSize := by
        rw [← haddr]
        exact u64_of_lt (by omega)
      simp [kmalloc, Nat.ne_of_gt hn, hfind, hptr]
    · have hdb : d ≠ b := by
        rintro rfl
        rw [hd] at hfree
        cases hfree
      have hdr : d ∉ rest := fun hmem => by
        rw [hrest d hmem] at hd
        cases hd
      simp only [mem_append, mem_cons, hdb, hdr, false_or, or_false]
      constructor
      · rintro ((h₁ | h₁) | h₁)
        · exact .inl (.inl h₁)
        · exact .inr h₁
        · exact .inl (.inr h₁)
      · rintro ((h₁ | h₁) | h₁)
        · exact .inl (.inl h₁)
        · exact .inr h₁
        · exact .inl (.inr h₁)
    · intro heq
      have hdb : d = b := hk.blocks.eq_of_addr hd (by simp) (heq.trans haddr)
      rw [hdb, hfree] at hdu
      cases hdu

/-- Writes into the payload of a block leave the heap as it is. -/
theorem HeapOk.writePayload (hk : HeapOk r h l) (hb : b ∈ l)
    (hm : ∀ x, x < b.addr + headerSize ∨ b.stop ≤ x → m' x = h.mem x) :
    HeapOk r { h with mem := m' } l := by
  have hheader : headerSize = 24 := rfl
  refine ⟨hk.first, hk.blocks.frame fun d hd x hx hx' => hm x ?_, hk.used, hk.free⟩
  by_cases hdb : d = b
  · subst hdb
    omega
  · have hdisjoint := hk.blocks.disjoint hd hb hdb
    simp only [HBlock.stop] at hdisjoint ⊢
    omega

/-- The copy loop writes only into the new payload. -/
theorem copyBytes_outside {block src dst i rounds : Nat} (hdst : dst + i + rounds ≤ 2 ^ 64)
    (hx : x < dst ∨ dst + i + rounds ≤ x) : copyBytes m block src dst i rounds x = m x := by
  induction rounds generalizing m i with
  | zero => rfl
  | succ rounds ih =>
    rw [copyBytes]
    split
    · rw [ih (by omega) (by omega), u64_of_lt (by omega), Function.update_of_ne (by omega)]
    · rfl

/-- `krealloc` to a size that the old block does not have: nothing happens, or the
    contents move to a new block and the old one is freed. -/
protected theorem HeapOk.krealloc (hk : HeapOk r h l) (hb : b ∈ l) (hused : b.used = true)
    (hsize : 0 < b.size) (hn : b.size < n) (hfit : requestFits h n) :
    krealloc h (b.addr + headerSize) n = some (0, h) ∨
      ∃ c h' l' l'', krealloc h (b.addr + headerSize) n = some (c.addr + headerSize, h') ∧
        HeapOk r h' l'' ∧ Allocates l l' c n ∧
        ∀ d : HBlock, d.used = true → (d ∈ l'' ↔ d ∈ l' ∧ d ≠ b) := by
  obtain ⟨next, hheader⟩ := hk.header hb
  have hpos := hk.addr_pos hb
  have hunfold : krealloc h (b.addr + headerSize) n = (kmalloc h n).bind fun r =>
        if r.1 = 0 then some (0, r.2)
        else (kfree { r.2 with mem := copyBytes r.2.mem b.addr (b.addr + headerSize) r.1 0 n }
          (b.addr + headerSize)).map fun h => (r.1, h) := by
    rw [krealloc, if_neg (by omega), if_neg (by omega), block_of_ptr (hk.ptr_lt hb hsize),
      if_neg (by simp [hheader.magic_eq]), hheader.size_eq, if_neg (by omega)]
  rw [hunfold]
  rcases hk.kmalloc (Nat.zero_lt_of_lt hn) hfit with hnone | ⟨c, h₁, l', hsome, hk₁, halloc⟩
  · left
    simp [hnone]
  right
  have hcstop := hk₁.stop_le halloc.mem
  have hcsize := halloc.size
  simp only [HBlock.stop] at hcstop
  have hcopy : HeapOk r { h₁ with
      mem := copyBytes h₁.mem b.addr (b.addr + headerSize) (c.addr + headerSize) 0 n } l' :=
    hk₁.writePayload halloc.mem fun x hx => copyBytes_outside (by omega) (by
      simp only [HBlock.stop] at hx
      omega)
  have hb' : b ∈ l' := (halloc.others b hused).mpr (.inl hb)
  obtain ⟨h₂, l'', hfree, hk₂, hothers⟩ := hcopy.kfree hb' hused (hk.ptr_lt hb hsize)
  refine ⟨c, h₂, l', l'', ?_, hk₂, halloc, hothers.mem⟩
  have hcpos := hk₁.addr_pos halloc.mem
  rw [hsome, Option.bind_some]
  dsimp only
  rw [if_neg (by omega), hfree]
  rfl

/-! ## Validation -/

theorem walkBlocks_eq {stop : Nat} (hl : Blocks m stop 0 p l) (hp : 0 < p) (hstop : stop ≤ 2 ^ 64)
    (hfuel : l.length ≤ fuel) (w : HeapWalk) (hw : w.corruptions = 0) :
    ∃ w', walkBlocks m fuel (headPtr l) w = some w' ∧ w'.corruptions = 0 := by
  induction l generalizing p fuel w with
  | nil => exact ⟨w, by cases fuel <;> simp [walkBlocks, headPtr], hw⟩
  | cons b l ih =>
    have hb := hl.link_eq
    obtain ⟨rfl, hheader, hrest⟩ := hl
    cases fuel with
    | zero => simp at hfuel
    | succ fuel =>
      have hflags : ¬ (blockFlags m b.addr ≠ 0 ∧ blockFlags m b.addr ≠ kheapAllocated) := by
        rw [hb.flags_eq]
        cases b.used <;> simp
      have hnext : ¬ (blockNext m b.addr ≠ 0 ∧ blockNext m b.addr ≠ blockEnd m b.addr) := by
        rintro ⟨hne, hend⟩
        cases l with
        | nil => exact hne hb.next_eq
        | cons c l =>
          have hc := (hrest.mem_bounds mem_cons_self)
          have haddr : c.addr = b.stop := hrest.1
          have hsize : headerSize = 24 := rfl
          refine hend (hb.next_eq.trans ?_)
          rw [blockEnd, hb.size_eq, headPtr, haddr]
          simp only [HBlock.stop] at hc haddr ⊢
          exact (u64_of_lt (by omega)).symm
      have hvisit : (visitBlock m b.addr w).corruptions = 0 := by
        simp only [visitBlock, if_neg hflags, if_neg hnext, hw]
      have hbstop : 0 < b.stop := by
        unfold HBlock.stop
        omega
      rw [length_cons] at hfuel
      rw [headPtr, walkBlocks, if_neg (by omega), if_neg (by simp [hb.magic_eq]), hb.next_eq]
      exact ih hrest hbstop (by omega) _ hvisit

theorem HeapOk.kheapValidate (hk : HeapOk r h l) : kheapValidate h = some 0 := by
  obtain ⟨w, hwalk, hzero⟩ := walkBlocks_eq hk.blocks r.start_pos r.fits hk.length_le ⟨0, 0, 0⟩ rfl
  rw [OpenSys.kheapValidate, hk.first_eq, hwalk, Option.map_some, hzero]
  rfl

end OpenSys
