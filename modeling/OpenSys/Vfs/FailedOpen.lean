-- SUMMARY: Which failing calls of vfs_open leave everything as it was.
import OpenSys.Vfs.Calls
import OpenSys.Fs.Ramfs
import OpenSys.Fs.Clusters
import OpenSys.Fs.Index

/-!
# Opens that fail

`vfs_open` of `src/fs/vfs.c` with its backends: `src/fs/ramfs.c`, the adapter
`src/fs/fs_vfs.c` over `src/fs/fs.c`, and the virtual files. The backend opens first. What it
has made or cut by then stays when there is no handle, no node or no descriptor for the file,
and without a descriptor the handle stays taken too.
-/

namespace OpenSys

open Function Option List

/-! ## The backends -/

/-- The files in memory, the volume of `fs.c`, and the handles of `fs_vfs.c`. -/
structure Backends where
  ram : Ramfs
  volume : Fs
  handles : Fin 8 → Option FsFile

def vfsOTrunc : BitVec 32 := 8

/-- The mode `fs_vfs_open` opens with: 1 to write or create, 0 to read. -/
def fsMode (flags : BitVec 32) : Nat :=
  if flags &&& 3 = 1 ∨ flags &&& 3 = 2 ∨ flags &&& vfsOCreat ≠ 0 then 1 else 0

/-- `fs_open`, which asks for the memory of the handle last. -/
def openHandle (memory : Bool) (s : Fs) (path : Path) (mode : Nat) : Option FsFile × Fs :=
  match fsOpen s path mode with
  | none => (none, s)
  | some (file, s) => (if memory then file else none, s)

/-- With `VFS_O_TRUNC` the file is cut to nothing. -/
def truncateHandle (s : Fs) (file : FsFile) (flags : BitVec 32) : FsFile × Fs :=
  if flags &&& vfsOTrunc ≠ 0 then
    let r := fsTruncate s file 0
    ((fsSeek r.2.1 0 0).2, r.2.2)
  else (file, s)

def freeHandle (b : Backends) : Option (Fin 8) :=
  (List.finRange 8).find? fun i => (b.handles i).isNone

def fsVfsOpen (memory : Bool) (b : Backends) (path : Path) (flags : BitVec 32) : Int × Backends :=
  match openHandle memory b.volume path (fsMode flags) with
  | (none, volume) => (-1, { b with volume := volume })
  | (some file, volume) =>
    let r := truncateHandle volume file flags
    match freeHandle b with
    | none => (-1, { b with volume := r.2 })
    | some i => (i.val, ⟨b.ram, r.2, update b.handles i (some r.1)⟩)

def fsVfsClose (b : Backends) (internalFd : Int) : Backends :=
  match intIndex 8 internalFd with
  | none => b
  | some i => { b with handles := update b.handles i none }

def fsVfsSize (b : Backends) (internalFd : Int) : Int :=
  match (intIndex 8 internalFd).bind b.handles with
  | none => 0
  | some file => i32 (u32 file.size)

/-- The backends below `vfs.c`; `memory` is the answer of `kmalloc` for a handle of `fs.c`. -/
def backendExt (memory : Bool) (vfileExists : Vfs Backends → Path → Bool)
    (vfileSize : Vfs Backends → Path → Int) : VfsExt Backends where
  ramfsFind b name := OpenSys.ramfsFind b.ram name
  ramfsCreate b name :=
    ((OpenSys.ramfsCreate b.ram name).1, { b with ram := (OpenSys.ramfsCreate b.ram name).2 })
  ramfsSize b fd := i32 (OpenSys.ramfsSize b.ram fd)
  fsVfsOpen := OpenSys.fsVfsOpen memory
  fsVfsClose := OpenSys.fsVfsClose
  fsVfsSize := OpenSys.fsVfsSize
  vfileExists := vfileExists
  vfileSize := vfileSize

/-! ## No effect -/

/-- The entries in use and their names and contents are the same. -/
structure SameRam (s s' : Ramfs) : Prop where
  inUse : ∀ i, (s'.files i).inUse = (s.files i).inUse
  name : ∀ i, (s.files i).inUse = true → (s'.files i).name = (s.files i).name
  content : ∀ i, (s.files i).inUse = true → s'.content i = s.content i

/-- Handles, nodes, descriptor tables and files are the same. -/
structure Unchanged (s s' : Vfs Backends) : Prop where
  vfileUsed : s'.dev.vfileOpenUsed = s.dev.vfileOpenUsed
  vfilePaths : ∀ i, s.dev.vfileOpenUsed i = true → s'.dev.vfileOpenPaths i = s.dev.vfileOpenPaths i
  handles : s'.dev.rest.handles = s.dev.rest.handles
  nodePool : s'.nodePool = s.nodePool
  tables : s'.tables = s.tables
  live : s'.live = s.live
  procFdTable : s'.procFdTable = s.procFdTable
  ram : SameRam s.dev.rest.ram s'.dev.rest.ram
  mem : s'.dev.rest.volume.mem = s.dev.rest.volume.mem
  disk : s'.dev.rest.volume.disk = s.dev.rest.volume.disk
  bitmap : s'.dev.rest.volume.bitmap = s.dev.rest.volume.bitmap

/-- A file of `fs.c` that `fs_open` does not refuse. -/
def Opens (s : Fs) (i mode : Nat) : Prop := mode = 0 ∨ mftIsReadonly s.mem (s.slot i) = false

/-- The backend makes no file and cuts none. -/
def FilesKept (memory : Bool) (b : Backends) (path : Path) (flags : BitVec 32) : VfsOps → Prop
  | .ramfs => flags &&& vfsOCreat = 0 ∨ ramfsStripSlash path = [] ∨
      b.ram.lookup (ramfsStripSlash path) ≠ none ∨ b.ram.initialized = false ∨
      b.ram.freeSlot = none ∨ (b.ram.heap.alloc 256).1 = none
  | .fs =>
    match findFile b.volume path with
    | none => fsMode flags = 0 ∨ allocMftEntry b.volume = none ∨
        findFile b.volume (splitPath path).1 = none
    | some i => flags &&& vfsOTrunc = 0 ∨ memory = false ∨ ¬ Opens b.volume i (fsMode flags) ∨
        b.volume.sizeOf i = 0
  | _ => True

/-- The backend gives out a handle for a file that exists. -/
def TakesHandle (memory : Bool) (vfileExists : Vfs Backends → Path → Bool) (s : Vfs Backends)
    (path : Path) (flags : BitVec 32) : VfsOps → Prop
  | .fs => memory = true ∧ freeHandle s.dev.rest ≠ none ∧
      ∃ i, findFile s.dev.rest.volume path = some i ∧ Opens s.dev.rest.volume i (fsMode flags)
  | .vfile => flags &&& vfsOCreat = 0 ∧ vfileExists s path = true ∧
      ∃ i, s.dev.vfileOpenUsed i = false
  | _ => False

/-- The backend leaves the files alone, and a handle that it gives out comes back because
    there is no node. -/
def QuietOpen (memory : Bool) (vfileExists : Vfs Backends → Path → Bool) (s : Vfs Backends)
    (path : Option Path) (flags : BitVec 32) : Prop :=
  ∀ p ∈ path, ∀ ops ∈ findOps s.mounts p, FilesKept memory s.dev.rest p flags ops ∧
    (TakesHandle memory vfileExists s p flags ops → findNode s = none)

/-! ## The descriptor layer -/

section Layer

variable {ρ : Type} {ext : VfsExt ρ} {s : Vfs ρ} {path : Option Path} {flags : BitVec 32}
  {kmalloc : Option TableId}

/-- Free nodes are as `vfs_init` and `free_node` leave them. -/
def CleanPool (s : Vfs ρ) : Prop :=
  ∀ n, (s.nodePool n).refCount = 0 → (s.nodePool n).ops = none →
    s.nodePool n = ⟨.none, -1, none, 0, 0, 0, 0⟩

theorem installStdFds_slot {t : TableId} {j : Fin 32} (is : List (Fin 32)) (hj : j ∉ is) :
    ((installStdFds s t is).tables t).fds j = (s.tables t).fds j := by
  refine installStdFds_induction (P := fun s' => (s'.tables t).fds j = (s.tables t).fds j) is rfl
    fun s₁ i s₂ hi h hs₂ => ?_
  have hne : j ≠ i := fun heq => hj (heq ▸ hi)
  obtain ⟨n, s₀, node, -, -, -, rfl⟩ := installStdFd_eq_some hs₂
  simpa [Vfs.setSlot, Vfs.setTable, Vfs.setNode, Vfs.setRef, update_of_ne hne] using h

/-- A table that `fd_table_create` made has a free slot. -/
theorem fdTableAlloc_created (t : TableId) (n : NodeId) (p : Nat) :
    fdTableAlloc (tableCreated s p t) t n ≠ none := by
  have hfree : ((fdTableInstallStd (newTable s t) t).tables t).fds 3 = none := by
    rw [fdTableInstallStd, installStdFds_slot _ (by decide)]
    simp [newTable, Vfs.setTable, emptyTable]
  intro hnone
  have hfull := find?_eq_none.mp (map_eq_none_iff.mp hnone) 3 (mem_finRange 3)
  simp [tableCreated, hfree] at hfull

/-- An open that gets no descriptor gives its node back. -/
theorem openPublish_failed {n : NodeId} (h : (openPublish s n kmalloc).1 < 0) :
    (openPublish s n kmalloc).2 = freeNode s n := by
  obtain heq | ⟨t, fd, s', -, -, heq⟩ := openPublish_cases s n kmalloc <;> rw [heq] at h ⊢
  · obtain ⟨o, htable, -⟩ | ⟨p, t, -, -, -, htable⟩ := openTable_cases s kmalloc
    · rw [htable]
    have hsome := fdTableAlloc_created (s := s) t n p
    cases halloc : fdTableAlloc (tableCreated s p t) t n with
    | none => exact absurd halloc hsome
    | some r =>
      simp only [openPublish, htable, halloc, Prod.mk.injEq] at heq
      omega
  · simp at h
    omega

/-- What a failed open leaves behind the operations tables. -/
def devAfter (ext : VfsExt ρ) (s : Vfs ρ) (path : Option Path) (flags : BitVec 32) : VfsDev ρ :=
  match openBackend ext s path flags with
  | (none, s₁) => s₁.dev
  | (some (ops, fd), s₁) => if findNode s = none then opsClose ext ops s₁.dev fd else s₁.dev

theorem openBackend_dev : (openBackend ext s path flags).2 =
    { s with dev := (openBackend ext s path flags).2.dev } := by
  obtain ⟨dev, h⟩ := openBackend_snd ext s path flags
  rw [h]

theorem freeNode_clean {n : NodeId} {node : VfsNode} (hclean : CleanPool s)
    (hn : findNode s = some n) : freeNode ((s.setRef n 1).setNode n node) n = s := by
  have hfree := find?_some hn
  simp only [Bool.and_eq_true, beq_iff_eq] at hfree
  have hnode := hclean n hfree.1 hfree.2
  unfold freeNode Vfs.setNode Vfs.setRef Vfs.setNode
  simp only [update_idem]
  rw [← hnode, update_eq_self]

/-- A failed open changes nothing but what lies behind the operations tables. -/
theorem vfsOpen_failed (hclean : CleanPool s) (hfail : (vfsOpen ext s path flags kmalloc).1 < 0) :
    (vfsOpen ext s path flags kmalloc).2 = { s with dev := devAfter ext s path flags } := by
  have hdev : (openBackend ext s path flags).2 =
      { s with dev := (openBackend ext s path flags).2.dev } := openBackend_dev
  unfold vfsOpen at hfail ⊢
  unfold devAfter
  cases hopen : openBackend ext s path flags with
  | mk r s₁ =>
    rw [hopen] at hdev hfail
    dsimp only at hdev hfail ⊢
    have hnode : findNode s₁ = findNode s := by rw [hdev]; rfl
    cases r with
    | none => exact hdev
    | some r =>
      obtain ⟨ops, fd⟩ := r
      dsimp only at hfail ⊢
      unfold allocNode at hfail ⊢
      rw [hnode] at hfail ⊢
      cases hfind : findNode s with
      | none =>
        dsimp only [map_none]
        rw [if_pos rfl, hdev]
      | some n =>
        rw [hfind] at hfail
        dsimp only [map_some] at hfail ⊢
        rw [if_neg (by simp), openPublish_failed hfail]
        have hclean₁ : CleanPool s₁ := by rw [hdev]; exact hclean
        rw [freeNode_clean hclean₁ (hnode.trans hfind)]
        exact hdev

end Layer

/-! ## Files in memory -/

theorem SameRam.refl (s : Ramfs) : SameRam s s := ⟨fun _ => rfl, fun _ _ => rfl, fun _ _ => rfl⟩

/-- `ramfs_create` makes a file exactly when there is an entry and memory for it. -/
theorem ramfsCreate_same_iff (s : Ramfs) (name : List UInt8) : SameRam s (ramfsCreate s name).2 ↔
    s.initialized = false ∨ s.freeSlot = none ∨ (s.heap.alloc 256).1 = none := by
  unfold ramfsCreate
  by_cases hinit : s.initialized = false
  · rw [if_pos hinit]
    exact ⟨fun _ => .inl hinit, fun _ => .refl s⟩
  rw [if_neg hinit]
  cases hslot : s.freeSlot with
  | none => exact ⟨fun _ => .inr (.inl rfl), fun _ => .refl s⟩
  | some i =>
    have hfree := (freeSlot_spec hslot).1
    dsimp only
    cases halloc : s.heap.alloc 256 with
    | mk b heap =>
      cases b with
      | some b =>
        refine ⟨fun h => ?_, by rintro (h | h | h) <;> first | exact absurd h hinit | cases h⟩
        have huse := h.inUse i
        rw [hfree] at huse
        simp at huse
      | none =>
        refine ⟨fun _ => .inr (.inr rfl), fun _ => ?_⟩
        have hlive := Buffers.alloc_none halloc
        have hother : ∀ j, (s.files j).inUse = true → j ≠ i := fun j hj heq => by
          rw [heq, hfree] at hj
          cases hj
        refine ⟨fun j => ?_, fun j hj => ?_, fun j hj => ?_⟩
        · by_cases hji : j = i
          · subst hji
            rw [setFile_self]
          · rw [setFile_of_ne _ _ hji]
        · rw [setFile_of_ne _ _ (hother j hj)]
        · rw [Ramfs.content, setFile_of_ne _ _ (hother j hj)]
          change ((Option.bind _ heap.live).getD []).take _ = _
          rw [hlive]
          rfl

/-! ## Files of the volume -/

section Volume

variable {s : Fs} {i p : Nat} {q : Path} {file : FsFile}

/-- Every entry that a path can lead to starts with its name. -/
structure VolumeOk (s : Fs) : Prop where
  size_lt : s.boot.mftSize < 2 ^ 32
  root : Named s.mem (s.slot mftRoot)
  named : ∀ i ∈ s.userSlots, s.inUse i = true → Named s.mem (s.slot i)

theorem VolumeOk.found (h : VolumeOk s) (hi : findFile s q = some i) : Named s.mem (s.slot i) :=
  (findFile_user hi).elim (fun heq => heq ▸ h.root) fun hu => h.named i hu.1 hu.2

/-- What `fs_open` leaves in the entry of a new file. -/
theorem VolumeOk.newEntry (h : VolumeOk s) {name : List UInt8} (hslot : allocMftEntry s = some i)
    (hparent : findFile s q = some p) : NewEntry (createEntry s i p 0 name).mem (s.slot i) i 1 p
      (name.take maxFilenameLen) := by
  obtain ⟨huser, hfree⟩ := allocMftEntry_some hslot
  have hlt := h.size_lt
  have hi := mem_userSlots.mp huser
  have hfirst : mftFirstUser = 16 := rfl
  have hroot : mftRoot = 5 := rfl
  have hne : p ≠ i := by
    rintro rfl
    rcases findFile_user hparent with heq | hu
    · omega
    · rw [hfree] at hu
      cases hu.2
  have hp : p < 2 ^ 64 := by
    rcases findFile_user hparent with rfl | hu
    · decide
    · have := (mem_userSlots.mp hu.1).2
      omega
  exact createEntry_new (by omega) hp (by decide) (h.found hparent) hne

/-- A new file is in use afterwards. -/
theorem VolumeOk.createEntry_ne (h : VolumeOk s) {name : List UInt8}
    (hslot : allocMftEntry s = some i) (hparent : findFile s q = some p) :
    (createEntry s i p 0 name).mem ≠ s.mem := by
  intro heq
  have huse : s.inUse i = true := by
    rw [Fs.inUse, mftInUse, ← heq, (h.newEntry hslot hparent).flags]
    rfl
  rw [(allocMftEntry_some hslot).2] at huse
  cases huse

/-- A file that is cut has the size 0 afterwards. -/
theorem fsTruncate_ne (hn : Named s.mem (s.slot file.mftNumber)) (hpos : 0 < file.size)
    (hsize : fnRealSize s.mem (s.slot file.mftNumber + 48) = file.size) :
    (fsTruncate s file 0).2.2.mem ≠ s.mem := by
  obtain ⟨s₁, hagree, hzone, hs₁⟩ : ∃ s₁ : Fs,
      Mem.Agree s.mem s₁.mem (s.slot file.mftNumber) 361 ∧ s₁.mftZone = s.mftZone ∧
      (fsTruncate s file 0).2.2.mem = (setRealSize s₁ file.mftNumber 0).mem := by
    unfold fsTruncate
    rw [if_neg (by omega)]
    cases hattr : findAttr s.mem (s.slot file.mftNumber) attrData with
    | none => exact ⟨s, Mem.Agree.refl _ _ _, rfl, rfl⟩
    | some a =>
      rw [hn.findAttr_rest (by decide)] at hattr
      have hlo := (findAttrLoop_bounds hattr).1
      obtain ⟨m, b, heq, -, hframe⟩ := truncateData_eq s a 0
      dsimp only
      rw [heq]
      have hagree : Mem.Agree s.mem m (s.slot file.mftNumber) 361 := hframe.agree (by omega)
      exact ⟨{ s with mem := m, bitmap := b }, hagree, rfl, rfl⟩
  have hslot := Fs.slot_eq hzone file.mftNumber
  have hn₁ : Named s₁.mem (s₁.slot file.mftNumber) := by
    rw [hslot]
    exact hn.congr (hagree.mono (by omega))
  have hmem : (fsTruncate s file 0).2.2.mem = sizeMem s₁.mem (s.slot file.mftNumber) 0 s₁.now := by
    rw [hs₁, setRealSize_eq hn₁, hslot]
  intro heq
  have hzero : fnRealSize (fsTruncate s file 0).2.2.mem (s.slot file.mftNumber + 48) = 0 := by
    rw [hmem, sizeMem, fnRealSize, Mem.readLE_writeLE_of_disjoint (by omega)]
    exact Mem.readLE_writeLE (by omega)
  rw [heq, hsize] at hzero
  omega

/-! ## The adapter of fs.c -/

variable {memory : Bool} {b : Backends} {flags : BitVec 32} {path : Path}

theorem truncateHandle_kept (h : flags &&& vfsOTrunc = 0 ∨ file.size = 0) :
    (truncateHandle s file flags).2 = s := by
  unfold truncateHandle
  split
  · next htrunc =>
    have hsize : file.size = 0 := h.resolve_left htrunc
    dsimp only
    rw [fsTruncate, if_pos (by omega)]
  · rfl

theorem openHandle_found {mode : Nat} (hfind : findFile s path = some i) (hmem : memory = true)
    (hopens : Opens s i mode) :
    openHandle memory s path mode = (some ⟨i, 0, s.sizeOf i, mode % 256⟩, s) := by
  have hro : ¬ (mode ≠ 0 ∧ mftIsReadonly s.mem (s.slot i) = true) := by
    rintro ⟨hmode, hro⟩
    rcases hopens with h | h
    · exact hmode h
    · rw [h] at hro
      cases hro
  rw [openHandle, fsOpen, hfind]
  dsimp only
  rw [if_pos hmem, openEntry, if_neg hro]
  rfl

theorem openHandle_refused {mode : Nat} (hfind : findFile s path = some i)
    (h : ¬ (memory = true ∧ Opens s i mode)) : openHandle memory s path mode = (none, s) := by
  rw [openHandle, fsOpen, hfind]
  dsimp only
  split
  · next hmem =>
    have hopens : ¬ Opens s i mode := fun ho => h ⟨hmem, ho⟩
    rw [Opens, not_or, Bool.not_eq_false] at hopens
    rw [openEntry, if_pos hopens]
  · rfl

/-- Without a file that could be made, `fs_open` fails. -/
theorem openHandle_missing {mode : Nat} (hfind : findFile s path = none)
    (h : mode = 0 ∨ allocMftEntry s = none ∨ findFile s (splitPath path).1 = none) :
    openHandle memory s path mode = (none, s) := by
  rw [openHandle, fsOpen, hfind]
  dsimp only
  by_cases hmode : mode = 0
  · rw [if_pos hmode]
    simp
  rw [if_neg hmode]
  cases hslot : allocMftEntry s with
  | none => simp
  | some i =>
    have hparent := (h.resolve_left hmode).resolve_left (by simp [hslot])
    dsimp only
    split
    · next heq =>
      split at heq
      · rfl
      · rw [hparent] at heq
    · next heq =>
      split at heq
      · cases heq
      · rw [hparent] at heq
        cases heq
        simp

theorem openHandle_new {mode : Nat} (hpath : path ≠ [] ∧ lastSlash path ≤ 255) (hmode : mode ≠ 0)
    (hfind : findFile s path = none) (hslot : allocMftEntry s = some i)
    (hparent : findFile s (splitPath path).1 = some p) : openHandle memory s path mode =
      (if memory then openEntry (stored (createEntry s i p 0 (splitPath path).2) i p) i mode else none,
        stored (createEntry s i p 0 (splitPath path).2) i p) := by
  have hshort : ¬ (path = [] ∨ 255 < lastSlash path) := by
    rintro (h | h)
    · exact hpath.1 h
    · omega
  rw [openHandle, fsOpen, hfind]
  dsimp only
  rw [if_neg hmode, hslot]
  dsimp only
  rw [if_neg hshort, hparent]
  rfl

/-- The volume behind `fs_vfs_open`. -/
theorem fsVfsOpen_volume : (fsVfsOpen memory b path flags).2.volume =
    match openHandle memory b.volume path (fsMode flags) with
    | (none, volume) => volume
    | (some file, volume) => (truncateHandle volume file flags).2 := by
  unfold fsVfsOpen
  split
  · rfl
  · dsimp only
    split <;> rfl

theorem fsVfsOpen_changed (hv : VolumeOk b.volume) (hpath : path ≠ [] ∧ lastSlash path ≤ 255)
    (h : ¬ FilesKept memory b path flags .fs) :
    (fsVfsOpen memory b path flags).2.volume.mem ≠ b.volume.mem := by
  rw [fsVfsOpen_volume]
  unfold FilesKept at h
  cases hfind : findFile b.volume path with
  | none =>
    rw [hfind] at h
    simp only [not_or] at h
    obtain ⟨hmode, hslot, hparent⟩ := h
    obtain ⟨i, hslot⟩ := ne_none_iff_exists'.mp hslot
    obtain ⟨p, hparent⟩ := ne_none_iff_exists'.mp hparent
    have hne : (createEntry b.volume i p 0 (splitPath path).2).mem ≠ b.volume.mem :=
      hv.createEntry_ne hslot hparent
    have hnew : NewEntry (createEntry b.volume i p 0 (splitPath path).2).mem _ i _ p _ :=
      hv.newEntry hslot hparent
    have hzone : (createEntry b.volume i p 0 (splitPath path).2).mftZone = b.volume.mftZone :=
      createEntry_zone
    rw [openHandle_new hpath hmode hfind hslot hparent]
    generalize createEntry b.volume i p 0 (splitPath path).2 = s₁ at hne hnew hzone
    split
    · next volume heq =>
      obtain ⟨-, rfl⟩ := Prod.mk.inj heq
      exact hne
    next file volume heq =>
    obtain ⟨hfile, rfl⟩ := Prod.mk.inj heq
    have hsize : file.size = 0 := by
      have hslot₁ := Fs.slot_eq hzone i
      split at hfile
      · unfold openEntry at hfile
        split at hfile
        · cases hfile
        cases hfile
        change ((s₁.filename i).map (fnRealSize s₁.mem)).getD 0 = 0
        rw [← hslot₁] at hnew
        rw [hnew.named.filename]
        exact hnew.record.realSize
      · cases hfile
    rw [truncateHandle_kept (.inr hsize)]
    exact hne
  | some i =>
    rw [hfind] at h
    simp only [not_or, not_not] at h
    obtain ⟨htrunc, hmem, hopens, hsize⟩ := h
    have hn := hv.found hfind
    rw [openHandle_found hfind (by simpa using hmem) hopens]
    dsimp only
    rw [truncateHandle, if_pos htrunc]
    refine fsTruncate_ne hn (Nat.pos_of_ne_zero hsize) ?_
    exact hn.sizeOf.symm

/-- An open that keeps the files and gives out no handle does nothing. -/
theorem fsVfsOpen_refused (hkept : FilesKept memory b path flags .fs)
    (h : ¬ (memory = true ∧ freeHandle b ≠ none ∧
      ∃ i, findFile b.volume path = some i ∧ Opens b.volume i (fsMode flags))) :
    fsVfsOpen memory b path flags = (-1, b) := by
  unfold FilesKept at hkept
  unfold fsVfsOpen
  cases hfind : findFile b.volume path with
  | none =>
    rw [hfind] at hkept
    rw [openHandle_missing hfind hkept]
  | some i =>
    rw [hfind] at hkept
    dsimp only at hkept
    by_cases hopen : memory = true ∧ Opens b.volume i (fsMode flags)
    · have hnone : freeHandle b = none := by
        by_contra hne
        exact h ⟨hopen.1, hne, i, hfind, hopen.2⟩
      rw [openHandle_found hfind hopen.1 hopen.2]
      dsimp only
      rw [hnone]
      dsimp only
      rw [truncateHandle_kept]
      rcases hkept with hk | hk | hk | hk
      · exact .inl hk
      · rw [hopen.1] at hk
        cases hk
      · exact absurd hopen.2 hk
      · exact .inr hk
    · rw [openHandle_refused hfind hopen]

/-- An open that keeps the files and gives out a handle changes just the handles. -/
theorem fsVfsOpen_taken (hkept : FilesKept memory b path flags .fs)
    (h : memory = true ∧ freeHandle b ≠ none ∧
      ∃ i, findFile b.volume path = some i ∧ Opens b.volume i (fsMode flags)) :
    ∃ j file, freeHandle b = some j ∧ fsVfsOpen memory b path flags =
      ((j.val : Int), { b with handles := update b.handles j (some file) }) := by
  obtain ⟨hmem, hfree, i, hfind, hopens⟩ := h
  obtain ⟨j, hj⟩ := ne_none_iff_exists'.mp hfree
  unfold FilesKept at hkept
  rw [hfind] at hkept
  unfold fsVfsOpen
  rw [openHandle_found hfind hmem hopens]
  dsimp only
  rw [hj]
  dsimp only
  rw [truncateHandle_kept]
  · exact ⟨j, _, rfl, rfl⟩
  rcases hkept with hk | hk | hk | hk
  · exact .inl hk
  · rw [hmem] at hk
    cases hk
  · exact absurd hopens hk
  · exact .inr hk

end Volume

/-! ## All backends -/

section Open

variable {memory : Bool} {vfileExists : Vfs Backends → Path → Bool}
  {vfileSize : Vfs Backends → Path → Int} {s : Vfs Backends} {d : VfsDev Backends} {p : Path}
  {flags : BitVec 32} {ops : VfsOps}

theorem Unchanged.refl (s : Vfs Backends) : Unchanged s s :=
  ⟨rfl, fun _ _ => rfl, rfl, rfl, rfl, rfl, rfl, .refl _, rfl, rfl, rfl⟩

theorem devAfter_unrouted {ext : VfsExt Backends} (h : findOps s.mounts p = none) :
    devAfter ext s (some p) flags = s.dev := by
  rw [devAfter, openBackend, h]

theorem devAfter_open {ext : VfsExt Backends} {openFn : Vfs Backends → Path → BitVec 32 →
    Int × VfsDev Backends} (h : findOps s.mounts p = some ops) (hopen : opsOpen ext ops = some openFn) :
    devAfter ext s (some p) flags =
      if 0 ≤ (openFn s p flags).1 ∧ findNode s = none then
        opsClose ext ops (openFn s p flags).2 (openFn s p flags).1
      else (openFn s p flags).2 := by
  rw [devAfter, openBackend, h]
  dsimp only
  rw [hopen]
  dsimp only
  by_cases hneg : (openFn s p flags).1 < 0
  · rw [if_pos hneg, if_neg (by omega)]
  rw [if_neg hneg]
  dsimp only
  by_cases hnode : findNode s = none
  · rw [if_pos hnode, if_pos ⟨by omega, hnode⟩]
  · rw [if_neg hnode, if_neg fun h => hnode h.2]

/-- A change of the files in memory only. -/
theorem unchanged_ram (hd : d = { s.dev with rest := { s.dev.rest with ram := d.rest.ram } }) :
    Unchanged s { s with dev := d } ↔ SameRam s.dev.rest.ram d.rest.ram := by
  refine ⟨fun h => h.ram, fun h => ?_⟩
  rw [hd]
  exact ⟨rfl, fun _ _ => rfl, rfl, rfl, rfl, rfl, rfl, h, rfl, rfl, rfl⟩

theorem ramfs_unchanged_iff : Unchanged s
      { s with dev := (ramfsVfsOpen (backendExt memory vfileExists vfileSize) s.dev p flags).2 } ↔
    FilesKept memory s.dev.rest p flags .ramfs := by
  have hfind : ramfsFind s.dev.rest.ram (ramfsStripSlash p) < 0 ↔
      s.dev.rest.ram.lookup (ramfsStripSlash p) = none := by
    unfold ramfsFind
    cases s.dev.rest.ram.lookup (ramfsStripSlash p) with
    | none => simp
    | some i => simp
  unfold ramfsVfsOpen FilesKept
  dsimp only
  by_cases hname : ramfsStripSlash p = []
  · rw [if_pos hname]
    exact ⟨fun _ => .inr (.inl hname), fun _ => .refl s⟩
  rw [if_neg hname]
  by_cases hnew : flags &&& vfsOCreat ≠ 0 ∧
      (backendExt memory vfileExists vfileSize).ramfsFind s.dev.rest (ramfsStripSlash p) < 0
  · rw [if_pos hnew]
    refine (unchanged_ram rfl).trans ((ramfsCreate_same_iff _ _).trans ?_)
    have hmissing := hfind.mp hnew.2
    constructor
    · exact fun h => .inr (.inr (.inr h))
    rintro (h | h | h | h)
    · exact absurd h hnew.1
    · exact absurd h hname
    · exact absurd hmissing h
    · exact h
  · rw [if_neg hnew]
    refine ⟨fun _ => ?_, fun _ => .refl s⟩
    by_cases hcreat : flags &&& vfsOCreat = 0
    · exact .inl hcreat
    · exact .inr (.inr (.inl fun hnone => hnew ⟨hcreat, hfind.mpr hnone⟩))

theorem freeHandle_none {b : Backends} {j : Fin 8} (h : freeHandle b = some j) :
    b.handles j = none := by
  simpa using find?_some h

/-- What a failed open leaves behind `fs_vfs.c`. -/
def fsAfter (memory : Bool) (s : Vfs Backends) (p : Path) (flags : BitVec 32) : Backends :=
  let r := fsVfsOpen memory s.dev.rest p flags
  if 0 ≤ r.1 ∧ findNode s = none then fsVfsClose r.2 r.1 else r.2

theorem devAfter_fs (h : findOps s.mounts p = some .fs) :
    devAfter (backendExt memory vfileExists vfileSize) s (some p) flags =
      { s.dev with rest := fsAfter memory s p flags } := by
  rw [devAfter_open h rfl]
  change (if 0 ≤ (fsVfsOpen memory s.dev.rest p flags).1 ∧ findNode s = none then _ else _) = _
  unfold fsAfter
  dsimp only
  split <;> rfl

theorem fs_unchanged_iff (hv : VolumeOk s.dev.rest.volume) (hpath : p ≠ [] ∧ lastSlash p ≤ 255)
    (h : findOps s.mounts p = some .fs) : Unchanged s { s with
        dev := devAfter (backendExt memory vfileExists vfileSize) s (some p) flags } ↔
      FilesKept memory s.dev.rest p flags .fs ∧
        (TakesHandle memory vfileExists s p flags .fs → findNode s = none) := by
  rw [devAfter_fs h, fsAfter]
  by_cases hkept : FilesKept memory s.dev.rest p flags .fs
  · by_cases htakes : TakesHandle memory vfileExists s p flags .fs
    · obtain ⟨j, file, hj, hopen⟩ := fsVfsOpen_taken hkept htakes
      have hfree := freeHandle_none hj
      rw [hopen]
      dsimp only
      by_cases hnode : findNode s = none
      · rw [if_pos ⟨by omega, hnode⟩, fsVfsClose, intIndex_self]
        dsimp only
        rw [update_idem, ← hfree, update_eq_self]
        exact ⟨fun _ => ⟨hkept, fun _ => hnode⟩, fun _ => .refl s⟩
      · rw [if_neg fun hc => hnode hc.2]
        refine ⟨fun hu => ?_, fun hq => absurd (hq.2 htakes) hnode⟩
        have hhandle := congrFun hu.handles j
        dsimp only at hhandle
        rw [update_self, hfree] at hhandle
        cases hhandle
    · rw [fsVfsOpen_refused hkept htakes]
      dsimp only
      rw [if_neg (by simp)]
      exact ⟨fun _ => ⟨hkept, fun ht => absurd ht htakes⟩, fun _ => .refl s⟩
  · refine ⟨fun hu => ?_, fun hq => absurd hq.1 hkept⟩
    have hclose : ∀ fd, (fsVfsClose (fsVfsOpen memory s.dev.rest p flags).2 fd).volume =
        (fsVfsOpen memory s.dev.rest p flags).2.volume := fun fd => by
      unfold fsVfsClose
      split <;> rfl
    refine absurd ?_ (fsVfsOpen_changed hv hpath hkept)
    have hmem := hu.mem
    dsimp only at hmem
    split at hmem
    · rw [← hmem, hclose]
    · exact hmem

theorem vfileVfsOpen_refused (h : ¬ TakesHandle memory vfileExists s p flags .vfile) :
    vfileVfsOpen (backendExt memory vfileExists vfileSize) s p flags = (-1, s.dev) := by
  unfold vfileVfsOpen
  split_ifs with hcreat hexists
  · rfl
  · rfl
  split
  · rfl
  · next i hfind =>
    have hfree : s.dev.vfileOpenUsed i = false := by simpa using find?_some hfind
    exact absurd ⟨not_not.mp hcreat, by simpa [backendExt] using hexists, i, hfree⟩ h

theorem vfileVfsOpen_taken (h : TakesHandle memory vfileExists s p flags .vfile) :
    ∃ i, s.dev.vfileOpenUsed i = false ∧
      vfileVfsOpen (backendExt memory vfileExists vfileSize) s p flags = ((i.val : Int), { s.dev with
        vfileOpenPaths := update s.dev.vfileOpenPaths i (p.take (vfsMaxPath - 1))
        vfileOpenUsed := update s.dev.vfileOpenUsed i true }) := by
  obtain ⟨hcreat, hexists, k, hk⟩ := h
  unfold vfileVfsOpen
  rw [if_neg (not_not.mpr hcreat), if_neg (by simp [backendExt, hexists])]
  cases hfind : (List.finRange 8).find? fun i => !s.dev.vfileOpenUsed i with
  | none =>
    have hused := find?_eq_none.mp hfind k (mem_finRange k)
    simp [hk] at hused
  | some i => exact ⟨i, by simpa using find?_some hfind, rfl⟩

theorem vfile_unchanged_iff (h : findOps s.mounts p = some .vfile) : Unchanged s { s with
        dev := devAfter (backendExt memory vfileExists vfileSize) s (some p) flags } ↔
      (TakesHandle memory vfileExists s p flags .vfile → findNode s = none) := by
  rw [devAfter_open h rfl]
  by_cases htakes : TakesHandle memory vfileExists s p flags .vfile
  · obtain ⟨i, hfree, hopen⟩ := @vfileVfsOpen_taken memory vfileExists vfileSize s p flags htakes
    rw [hopen]
    dsimp only
    by_cases hnode : findNode s = none
    · rw [if_pos ⟨by omega, hnode⟩, opsClose, vfileVfsClose, intIndex_self]
      refine ⟨fun _ _ => hnode, fun _ =>
        ⟨?_, fun k hk => ?_, rfl, rfl, rfl, rfl, rfl, .refl _, rfl, rfl, rfl⟩⟩
      · dsimp only
        rw [update_idem, ← hfree, update_eq_self]
      have hne : k ≠ i := by
        rintro rfl
        rw [hfree] at hk
        cases hk
      exact update_of_ne hne _ _
    · rw [if_neg fun hc => hnode hc.2]
      refine ⟨fun hu => ?_, fun hq => absurd (hq htakes) hnode⟩
      have hused := congrFun hu.vfileUsed i
      dsimp only at hused
      rw [update_self, hfree] at hused
      cases hused
  · rw [vfileVfsOpen_refused htakes, if_neg (by simp)]
    exact ⟨fun _ ht => absurd ht htakes, fun _ => .refl s⟩

/-- A failed open has no effect exactly when its backend leaves the files alone and gets back
    the handle it gave out. -/
theorem failed_open_unchanged_iff (memory : Bool) (vfileExists : Vfs Backends → Path → Bool)
    (vfileSize : Vfs Backends → Path → Int) (s : Vfs Backends) (path : Option Path)
    (flags : BitVec 32) (kmalloc : Option TableId) (hclean : CleanPool s)
    (hvolume : VolumeOk s.dev.rest.volume)
    (hpath : ∀ p ∈ path, findOps s.mounts p = some .fs → p ≠ [] ∧ lastSlash p ≤ 255)
    (hfail : (vfsOpen (backendExt memory vfileExists vfileSize) s path flags kmalloc).1 = -1) :
    Unchanged s (vfsOpen (backendExt memory vfileExists vfileSize) s path flags kmalloc).2 ↔
      QuietOpen memory vfileExists s path flags := by
  rw [vfsOpen_failed hclean (by omega)]
  cases path with
  | none => exact ⟨fun _ p hp => (nomatch hp), fun _ => .refl s⟩
  | some p =>
    have hquiet : QuietOpen memory vfileExists s (some p) flags ↔
        ∀ ops ∈ findOps s.mounts p, FilesKept memory s.dev.rest p flags ops ∧
          (TakesHandle memory vfileExists s p flags ops → findNode s = none) := by
      simp [QuietOpen]
    rw [hquiet]
    cases hops : findOps s.mounts p with
    | none =>
      rw [devAfter_unrouted hops]
      exact ⟨fun _ ops hops => (nomatch hops), fun _ => .refl s⟩
    | some ops =>
      have hone : (∀ o ∈ some ops, FilesKept memory s.dev.rest p flags o ∧
          (TakesHandle memory vfileExists s p flags o → findNode s = none)) ↔
          FilesKept memory s.dev.rest p flags ops ∧
            (TakesHandle memory vfileExists s p flags ops → findNode s = none) := by simp
      rw [hone]
      cases ops with
      | ramfs =>
        rw [devAfter_open hops rfl]
        have hclose : ∀ d fd, opsClose (backendExt memory vfileExists vfileSize) .ramfs d fd = d :=
          fun _ _ => rfl
        rw [hclose, ite_self]
        exact ramfs_unchanged_iff.trans ⟨fun hk => ⟨hk, fun ht => ht.elim⟩, And.left⟩
      | fs => exact fs_unchanged_iff hvolume (hpath p rfl hops) hops
      | vfile =>
        exact (vfile_unchanged_iff hops).trans ⟨fun hq => ⟨trivial, hq⟩, And.right⟩
      | pipeRead | pipeWrite | console =>
        have hdev : devAfter (backendExt memory vfileExists vfileSize) s (some p) flags = s.dev := by
          rw [devAfter, openBackend, hops]
          rfl
        rw [hdev]
        exact ⟨fun _ => ⟨trivial, fun ht => ht.elim⟩, fun _ => .refl s⟩

end Open

theorem FsTree.volumeOk {s : Fs} (h : FsTree s) : VolumeOk s :=
  ⟨h.size_lt, h.named _ (.inl rfl), fun i hi huse => h.named i (.inr ⟨hi, huse⟩)⟩

/-- The file system in memory at `/`, a volume that is not mounted, and every node taken. -/
def fullPool (volume : Fs) : Vfs Backends where
  mounts := [⟨[47], some .ramfs, true⟩]
  nodePool _ := ⟨.device, 0, some .console, 0, 0, 1, 0⟩
  tables _ := emptyTable
  live := ∅
  current := none
  procFdTable _ := none
  dev :=
    { pipes := fun _ => ⟨fun _ => 0, 0, 0, 0, 0, 0⟩
      pipeInUse := fun _ => false
      vfileOpenPaths := fun _ => []
      vfileOpenUsed := fun _ => false
      rest := ⟨ramfsInit blankRamfs, volume, fun _ => none⟩ }

theorem fullPool_quiet (volume : Fs) :
    QuietOpen true (fun _ _ => false) (fullPool volume) (some (cstr "/a")) 0 := by
  have hroot : findOps (fullPool volume).mounts (cstr "/a") = some .ramfs := by
    change findOps [⟨[47], some .ramfs, true⟩] (cstr "/a") = some .ramfs
    decide
  rintro p ⟨⟩ ops hops
  cases hroot.symm.trans hops
  exact ⟨.inl (by decide), fun h => h.elim⟩

theorem fullPool_volume {volume : Fs} (h : VolumeOk volume) :
    VolumeOk (fullPool volume).dev.rest.volume := h

/-- A file that is not there is not opened, and nothing happens. -/
theorem failed_open_unchanged_missing :
    Unchanged (fullPool smallVolume) (vfsOpen (backendExt true (fun _ _ => false) fun _ _ => 0)
      (fullPool smallVolume) (some (cstr "/a")) 0 none).2 := by
  have hpath : ∀ p ∈ some (cstr "/a"), findOps (fullPool smallVolume).mounts p = some .fs →
      p ≠ [] ∧ lastSlash p ≤ 255 := by
    rintro p ⟨⟩ -
    decide
  have hfail : ∀ volume, (vfsOpen (backendExt true (fun _ _ => false) fun _ _ => 0) (fullPool volume)
      (some (cstr "/a")) 0 none).1 = -1 := by
    intro volume
    rfl
  have hclean : CleanPool (fullPool smallVolume) := fun n h => by cases h
  exact (failed_open_unchanged_iff true _ _ (fullPool smallVolume) _ 0 none hclean
    (fullPool_volume smallVolume_formatted.fsTree.volumeOk) hpath (hfail smallVolume)).mpr
    (fullPool_quiet smallVolume)

/-- A file that is to be created stays when there is no node for it. -/
theorem failed_open_creates :
    (vfsOpen (backendExt true (fun _ _ => false) fun _ _ => 0) (fullPool emptyFs)
      (some (cstr "/a")) 4 none).1 = -1 ∧
    ¬ Unchanged (fullPool emptyFs) (vfsOpen (backendExt true (fun _ _ => false) fun _ _ => 0)
      (fullPool emptyFs) (some (cstr "/a")) 4 none).2 := by
  refine ⟨by decide, fun h => ?_⟩
  have huse := h.ram.inUse 1
  revert huse
  decide

end OpenSys
