-- SUMMARY: The shell's copy command, and which directories it really copies.
import OpenSys.Lib.Text
import OpenSys.Ui.HostFs

/-!
# Copying a directory

`copy_dir_walk` recurses through the callback of `fs_readdir`, with the current paths and the
remaining depth in globals. It restores the paths when it returns but not the depth, so the
depth counts directories, not levels: exactly the first eight directories in preorder are
copied, and the later ones are made and left empty without an error.
-/

namespace OpenSys

open FileTree List Nat HostFs

/-! ## The command -/

/-- The globals of the walk, with the filesystem. -/
structure CopyState where
  fs : HostFs
  srcCur : List UInt8
  dstCur : List UInt8
  depth : Nat
  errors : Nat
  fileCount : Nat

/-- How a copy loop ended: whether a write was short, the bytes copied, and the filesystem. -/
structure CopyLoop where
  short : Bool
  total : Nat
  fs : HostFs

/-- The loop that copies a file of `size` bytes in chunks of at most 256. -/
def copyChunks (src dst : List UInt8) (size : Nat) : (fuel total : Nat) → HostFs → CopyLoop
  | 0, total, fs => ⟨false, total, fs⟩
  | fuel + 1, total, fs =>
    if total < size then
      let chunk := fs.read src total (min 256 (size - total))
      if chunk = [] then ⟨false, total, fs⟩
      else
        match fs.write dst total chunk with
        | (n, fs) =>
          if n ≠ chunk.length then ⟨true, total, fs⟩
          else copyChunks src dst size fuel (total + n) fs
    else ⟨false, total, fs⟩

/-- `copy_dir_callback` on a plain file. -/
def copyDirFile (srcChild dstChild : List UInt8) (s : CopyState) : CopyState :=
  match s.fs.openRead srcChild with
  | none => { s with errors := s.errors + 1 }
  | some bytes =>
    match s.fs.openWrite dstChild with
    | (false, fs) => { s with fs := fs, errors := s.errors + 1 }
    | (true, fs) =>
      let loop := copyChunks srcChild dstChild bytes.length bytes.length 0 (fs.truncate dstChild)
      { s with
        fs := loop.fs
        errors := if loop.short then s.errors + 1 else s.errors
        fileCount := s.fileCount + 1 }

/-- `copy_dir_callback` on a directory, before it descends. -/
def ensureDir (dstChild : List UInt8) (s : CopyState) : Bool × CopyState :=
  if s.fs.isDirectory dstChild = 1 then (true, s)
  else
    match s.fs.mkdir dstChild with
    | (made, fs) => (made, { s with fs := fs, errors := if made then s.errors else s.errors + 1 })

/-- `copy_dir_callback` -/
def copyDirCallback (walk : (src dst : List UInt8) → (depth : Nat) → CopyState → CopyState)
    (name : List UInt8) (isDir : Bool) (s : CopyState) : CopyState :=
  let srcChild := pathJoin 256 s.srcCur name
  let dstChild := pathJoin 256 s.dstCur name
  if isDir then
    match ensureDir dstChild s with
    | (false, s) => s
    | (true, s) => walk srcChild dstChild (s.depth - 1) s
  else copyDirFile srcChild dstChild s

/-- `fs_readdir` with the callback of the walk: the entries in listing order. -/
def readdirCopy (walk : (src dst : List UInt8) → (depth : Nat) → CopyState → CopyState)
    (dir : List (List UInt8)) (names : List (List UInt8)) (s : CopyState) : CopyState :=
  names.foldl (fun s n => copyDirCallback walk n (s.fs.tree.item (dir ++ [n]) == some .dir) s) s

/-- `copy_dir_walk`. The depth falls on the way down, so the first depth is enough fuel. -/
def copyDirWalk : (fuel : Nat) → (src dst : List UInt8) → (depth : Nat) → CopyState → CopyState
  | 0, _, _, _, s => s
  | fuel + 1, src, dst, depth, s =>
    if depth = 0 then s
    else
      let after := readdirCopy (copyDirWalk fuel) (pathComponents src)
        (s.fs.tree.names (pathComponents src)) { s with srcCur := src, dstCur := dst, depth := depth }
      { after with srcCur := s.srcCur, dstCur := s.dstCur }

/-- What the copy command prints. -/
inductive CopyReport where
  | usage
  | pathTooLong
  | intoItself
  | noDestination
  | entriesFailed (errors : Nat)
  | copiedDirectory (root : List UInt8) (files : Nat)
  | sourceNotFound
  | noDestinationFile
  | copied (writeFailed : Bool) (total : Nat)
  deriving DecidableEq

/-- The root of a directory copy: inside an existing destination, or the destination itself. -/
def copyRoot (fs : HostFs) (srcPath dstPath : List UInt8) : List UInt8 :=
  if fs.isDirectory dstPath = 1 then pathJoin 256 dstPath (pathBasename srcPath) else dstPath

/-- `cmd_copy` of a directory. -/
def copyDirectory (srcPath dstPath : List UInt8) (s : CopyState) : CopyReport × CopyState :=
  let dstRoot := copyRoot s.fs srcPath dstPath
  if dstRoot = srcPath ∨ pathHasPrefix dstRoot srcPath then (.intoItself, s)
  else
    match ensureDir dstRoot s with
    | (false, s) => (.noDestination, s)
    | (true, s) =>
      let s := copyDirWalk 8 srcPath dstRoot 8 { s with errors := 0, fileCount := 0 }
      if 0 < s.errors then (.entriesFailed s.errors, s)
      else (.copiedDirectory dstRoot s.fileCount, s)

/-- `cmd_copy` of a file. -/
def copyFile (srcPath dstPath : List UInt8) (s : CopyState) : CopyReport × CopyState :=
  match s.fs.openRead srcPath with
  | none => (.sourceNotFound, s)
  | some bytes =>
    match s.fs.openWrite dstPath with
    | (false, fs) => (.noDestinationFile, { s with fs := fs })
    | (true, fs) =>
      let loop := copyChunks srcPath dstPath bytes.length bytes.length 0 (fs.truncate dstPath)
      (.copied loop.short loop.total, { s with fs := loop.fs })

/-- `cmd_copy` -/
def cmdCopy (src dst : List UInt8) (s : CopyState) : CopyReport × CopyState :=
  if src = [] ∨ dst = [] then (.usage, s)
  else
    match resolvePath src, resolvePath dst with
    | some srcPath, some dstPath =>
      if s.fs.isDirectory srcPath = 1 then copyDirectory srcPath dstPath s
      else copyFile srcPath dstPath s
    | _, _ => (.pathTooLong, s)

/-! ## Errors are only added -/

theorem copyDirFile_errors (src dst : List UInt8) (s : CopyState) :
    s.errors ≤ (copyDirFile src dst s).errors := by
  unfold copyDirFile
  split
  · exact le_succ _
  split
  · exact le_succ _
  · dsimp only
    split <;> omega

theorem copyDirCallback_errors {walk : List UInt8 → List UInt8 → Nat → CopyState → CopyState}
    (hwalk : ∀ src dst d s, s.errors ≤ (walk src dst d s).errors) (n : List UInt8) (isDir : Bool)
    (s : CopyState) : s.errors ≤ (copyDirCallback walk n isDir s).errors := by
  have hdir : ∀ path, s.errors ≤ (ensureDir path s).2.errors := by
    intro path
    unfold ensureDir
    split
    · exact le_refl _
    · dsimp only
      split <;> omega
  unfold copyDirCallback
  dsimp only
  split
  · have h := hdir (pathJoin 256 s.dstCur n)
    split
    · next he => rwa [he] at h
    · next he =>
      rw [he] at h
      exact le_trans h (hwalk _ _ _ _)
  · exact copyDirFile_errors _ _ s

theorem readdirCopy_errors {walk : List UInt8 → List UInt8 → Nat → CopyState → CopyState}
    (hwalk : ∀ src dst d s, s.errors ≤ (walk src dst d s).errors) (dir names : List (List UInt8))
    (s : CopyState) : s.errors ≤ (readdirCopy walk dir names s).errors := by
  induction names generalizing s with
  | nil => exact le_refl _
  | cons n names ih => exact le_trans (copyDirCallback_errors hwalk n _ s) (ih _)

theorem copyDirWalk_errors (k : Nat) (src dst : List UInt8) (d : Nat) (s : CopyState) :
    s.errors ≤ (copyDirWalk k src dst d s).errors := by
  induction k generalizing src dst d s with
  | zero => exact le_refl _
  | succ k ih =>
    unfold copyDirWalk
    split
    · exact le_refl _
    · exact readdirCopy_errors ih _ _ { s with srcCur := src, dstCur := dst, depth := d }

/-! ## One file -/

section File

variable {src dst : List UInt8} {fs : HostFs}

theorem write_tree_item_of_ne {pos : Nat} {bytes : List UInt8} {x : List (List UInt8)}
    (h : x ≠ pathComponents dst) : (fs.write dst pos bytes).2.tree.item x = fs.tree.item x :=
  put_item_of_ne h

/-- The loop copies the rest of the file, unless a write is short. -/
theorem copyChunks_spec (hne : pathComponents src ≠ pathComponents dst) {bytes : List UInt8}
    {fuel total : Nat} (hfuel : bytes.length ≤ fuel + total) (htotal : total ≤ bytes.length)
    (hsrc : fs.tree.item (pathComponents src) = some (.file bytes))
    (hdst : fs.tree.item (pathComponents dst) = some (.file (bytes.take total)))
    (hshort : (copyChunks src dst bytes.length fuel total fs).short = false) :
    (copyChunks src dst bytes.length fuel total fs).fs.tree.item (pathComponents dst) =
      some (.file bytes) := by
  induction fuel generalizing total fs with
  | zero =>
    have hall : total = bytes.length := by omega
    rw [copyChunks, hdst, hall, take_length]
  | succ fuel ih =>
    unfold copyChunks at hshort ⊢
    split at hshort
    · next hlt =>
      have hread : fs.read src total (min 256 (bytes.length - total)) =
          (bytes.drop total).take (min 256 (bytes.length - total)) := by
        rw [HostFs.read, HostFs.content, hsrc]
      have hlen : (fs.read src total (min 256 (bytes.length - total))).length =
          min 256 (bytes.length - total) := by
        rw [hread]
        simp
      have hnil : fs.read src total (min 256 (bytes.length - total)) ≠ [] := by
        rw [← length_pos_iff, hlen]
        omega
      generalize fs.read src total (min 256 (bytes.length - total)) = chunk at *
      rw [if_pos hlt]
      dsimp only at hshort ⊢
      rw [if_neg hnil] at hshort ⊢
      split at hshort
      · cases hshort
      next hn =>
      rw [if_neg hn]
      have hn : (fs.write dst total chunk).1 = chunk.length := not_not.mp hn
      have hgrant : min chunk.length (fs.room fs.calls) = chunk.length := hn
      refine ih (by omega) (by omega) ?_ ?_ hshort
      · rw [write_tree_item_of_ne hne, hsrc]
      rw [hn]
      simp only [write, put_item_self, content, hdst, hgrant, take_length]
      rw [if_neg (by rwa [length_eq_zero_iff]), hlen, hread, take_take, min_self, take_add]
    · next hge =>
      have hall : total = bytes.length := by omega
      rw [if_neg hge, hdst, hall, take_length]

/-- The loop writes nothing but the destination. -/
theorem copyChunks_frame {size fuel total : Nat} {x : List (List UInt8)}
    (hx : x ≠ pathComponents dst) :
    (copyChunks src dst size fuel total fs).fs.tree.item x = fs.tree.item x := by
  induction fuel generalizing total fs with
  | zero => rfl
  | succ fuel ih =>
    unfold copyChunks
    split
    · dsimp only
      split
      · rfl
      · split
        · exact write_tree_item_of_ne hx
        · rw [ih, write_tree_item_of_ne hx]
    · rfl

/-- The loop keeps what is below a root that the destination is not below. -/
theorem copyChunks_kept {S : List (List UInt8)} {size fuel total : Nat}
    (hS : ¬S <+: pathComponents dst) :
    Kept S fs.tree (copyChunks src dst size fuel total fs).fs.tree := by
  induction fuel generalizing total fs with
  | zero => exact Kept.refl
  | succ fuel ih =>
    unfold copyChunks
    split
    · dsimp only
      split
      · exact Kept.refl
      have hwrite : ∀ bytes, Kept S fs.tree (fs.write dst total bytes).2.tree :=
        fun _ => put_kept hS
      split
      · exact hwrite _
      · exact (hwrite _).trans ih
    · exact Kept.refl

end File

/-! ## The walk -/

theorem openWrite_true {fs fs' : HostFs} {path : List UInt8}
    (h : fs.openWrite path = (true, fs')) :
    (∀ x, x ≠ pathComponents path → fs'.tree.item x = fs.tree.item x) ∧
      ∀ S, ¬S <+: pathComponents path → Kept S fs.tree fs'.tree := by
  unfold openWrite at h
  dsimp only at h
  split at h
  · split at h
    · cases h
    · cases h
      exact ⟨fun _ _ => rfl, fun _ _ => Kept.refl⟩
  · cases h
  · split at h
    · cases h
      exact ⟨fun _ hx => put_item_of_ne hx, fun _ hS => put_kept hS⟩
    · cases h

theorem ensureDir_true {s s' : CopyState} {path : List UInt8} (h : ensureDir path s = (true, s')) :
    ∃ fs, s' = { s with fs := fs } ∧ fs.tree.item (pathComponents path) = some .dir ∧
      (∀ x, x ≠ pathComponents path → fs.tree.item x = s.fs.tree.item x) ∧
      ∀ S, ¬S <+: pathComponents path → Kept S s.fs.tree fs.tree := by
  unfold ensureDir at h
  split at h
  · next hdir =>
    cases h
    exact ⟨s.fs, rfl, isDirectory_eq_one hdir, fun _ _ => rfl, fun _ _ => Kept.refl⟩
  unfold mkdir at h
  dsimp only at h
  split at h
  · cases h
    exact ⟨_, rfl, put_item_self, fun _ hx => put_item_of_ne hx, fun _ hS => put_kept hS⟩
  · cases h

theorem ensureDir_false {s s' : CopyState} {path : List UInt8}
    (h : ensureDir path s = (false, s')) : s'.errors = s.errors + 1 := by
  unfold ensureDir at h
  split at h
  · cases h
  · dsimp only at h
    cases hmade : (s.fs.mkdir path).1 <;> rw [hmade] at h <;> cases h
    rfl

/-- A copy of the tree below `src` to a root where nothing lands in the source itself, all of whose
paths fit. -/
structure CopyTask (t₀ : FileTree (List UInt8)) (src dst : List UInt8) : Prop where
  ok : t₀.Ok
  names : HostFs.NamesOk t₀
  apart : ∀ z, t₀.item (pathComponents src ++ z) ≠ none →
    ¬pathComponents src <+: pathComponents dst ++ z
  srcFits : ∀ y, t₀.item (pathComponents src ++ y) ≠ none → (joined src y).length < 256
  dstFits : ∀ y, t₀.item (pathComponents src ++ y) ≠ none → (joined dst y).length < 256

section Walk

variable {t₀ : FileTree (List UInt8)} {src dst : List UInt8} {s s' : CopyState}
  {y z : List (List UInt8)} {n : List UInt8} {k d : Nat}

/-- The paths of the walk lead below the two roots. -/
theorem CopyTask.paths (task : CopyTask t₀ src dst)
    (hz : t₀.item (pathComponents src ++ z) ≠ none) :
    pathComponents (joined src z) = pathComponents src ++ z ∧
      pathComponents (joined dst z) = pathComponents dst ++ z := by
  induction z using List.reverseRecOn with
  | nil => simp
  | append_singleton y n ih =>
    have hz' := hz
    rw [← append_assoc] at hz'
    obtain ⟨hne, hslash⟩ := task.names _ _ hz'
    have hsrc := task.srcFits _ hz
    have hdst := task.dstFits _ hz
    rw [joined_snoc] at hsrc hdst
    obtain ⟨hs, hd⟩ := ih (by rw [task.ok.parent _ _ hz']; simp)
    rw [joined_snoc, joined_snoc, pathComponents_joinName hne hslash hsrc,
      pathComponents_joinName hne hslash hdst, hs, hd, append_assoc, append_assoc]
    exact ⟨rfl, rfl⟩

/-- A part of the walk has copied the entries `E` and put the current paths back. -/
structure Walked (t₀ : FileTree (List UInt8)) (src dst : List UInt8) (E : List (List (List UInt8)))
    (s s' : CopyState) : Prop where
  overlaid : Overlaid t₀ (pathComponents src) (pathComponents dst) E s.fs.tree s'.fs.tree
  kept : Kept (pathComponents src) t₀ s'.fs.tree
  srcCur : s'.srcCur = s.srcCur
  dstCur : s'.dstCur = s.dstCur

theorem Walked.nil (hkept : Kept (pathComponents src) t₀ s.fs.tree) : Walked t₀ src dst [] s s :=
  ⟨Overlaid.nil, hkept, rfl, rfl⟩

theorem Walked.append {E F : List (List (List UInt8))} {s'' : CopyState}
    (h : Walked t₀ src dst E s s') (h' : Walked t₀ src dst F s' s'') :
    Walked t₀ src dst (E ++ F) s s'' :=
  ⟨h.overlaid.append h'.overlaid, h'.kept, h'.srcCur.trans h.srcCur, h'.dstCur.trans h.dstCur⟩

theorem Walked.congr {E F : List (List (List UInt8))} (h : Walked t₀ src dst E s s')
    (hmem : ∀ z, z ∈ E ↔ z ∈ F) : Walked t₀ src dst F s s' :=
  ⟨h.overlaid.congr hmem, h.kept, h.srcCur, h.dstCur⟩

theorem copyDirFile_walked (task : CopyTask t₀ src dst)
    (hkept : Kept (pathComponents src) t₀ s.fs.tree) {bytes : List UInt8}
    (hz : t₀.item (pathComponents src ++ z) = some (.file bytes))
    (herr : (copyDirFile (joined src z) (joined dst z) s).errors = s.errors) :
    Walked t₀ src dst [z] s (copyDirFile (joined src z) (joined dst z) s) ∧
      (copyDirFile (joined src z) (joined dst z) s).depth = s.depth := by
  have hsome : t₀.item (pathComponents src ++ z) ≠ none := by
    rw [hz]
    simp
  obtain ⟨hsrc, hdst⟩ := task.paths hsome
  have hread : s.fs.openRead (joined src z) = some bytes := by
    rw [openRead, hsrc, (hkept z).1, hz]
  have hne : pathComponents (joined src z) ≠ pathComponents (joined dst z) := by
    rw [hsrc, hdst]
    exact fun he => task.apart z hsome (he ▸ prefix_append (pathComponents src) z)
  have hout : ¬pathComponents src <+: pathComponents (joined dst z) := hdst ▸ task.apart z hsome
  unfold copyDirFile at herr ⊢
  rw [hread] at herr ⊢
  dsimp only at herr ⊢
  split at herr
  · exact absurd herr (succ_ne_self _)
  next fs hopen =>
  obtain ⟨hitem, hrest⟩ := openWrite_true hopen
  have hshort : (copyChunks (joined src z) (joined dst z) bytes.length bytes.length 0
      (fs.truncate (joined dst z))).short = false := by
    by_contra hs
    rw [Bool.not_eq_false] at hs
    simp [hs] at herr
  have hfull := copyChunks_spec hne (le_refl _) (zero_le _) (by
      rw [truncate, put_item_of_ne hne, hitem _ hne, hsrc, (hkept z).1, hz])
    (by rw [truncate, put_item_self, take_zero]) hshort
  refine ⟨⟨⟨?_, ?_⟩, ?_, rfl, rfl⟩, rfl⟩
  · intro w hw
    rw [mem_singleton.mp hw, hz, ← hdst]
    exact hfull
  · intro x hx
    have hx : x ≠ pathComponents (joined dst z) := hdst ▸ hx z (mem_singleton.mpr rfl)
    exact (copyChunks_frame hx).trans ((put_item_of_ne hx).trans (hitem x hx))
  · exact hkept.trans ((hrest _ hout).trans ((put_kept hout).trans (copyChunks_kept hout)))

/-- What the walk does to the directory `y` of the source, from a depth of one to `k`: the
entries of the first `d` directories in preorder are copied, and the depth left in the global
has counted the directories. -/
def WalkOk (t₀ : FileTree (List UInt8)) (src dst : List UInt8) (k : Nat)
    (walk : List UInt8 → List UInt8 → Nat → CopyState → CopyState) : Prop :=
  ∀ y d s, t₀.item (pathComponents src ++ y) = some .dir →
    Kept (pathComponents src) t₀ s.fs.tree → 1 ≤ d → d ≤ k →
    (walk (joined src y) (joined dst y) d s).errors = s.errors →
    Walked t₀ src dst (((t₀.dirs (pathComponents src) k y).take d).flatMap
        (t₀.entries (pathComponents src))) s (walk (joined src y) (joined dst y) d s) ∧
      (walk (joined src y) (joined dst y) d s).depth =
        max 1 (d + 1 - (t₀.dirs (pathComponents src) k y).length)

/-- The directories below one name of a listing. -/
def belowName (t₀ : FileTree (List UInt8)) (S : List (List UInt8)) (k : Nat)
    (y : List (List UInt8)) (n : List UInt8) : List (List (List UInt8)) :=
  if t₀.item (S ++ (y ++ [n])) = some .dir then t₀.dirs S k (y ++ [n]) else []

theorem copyDirWalk_zero (k : Nat) (src dst : List UInt8) (s : CopyState) :
    copyDirWalk k src dst 0 s = s := by
  cases k <;> simp [copyDirWalk]

/-- One callback: the entry itself, and the directories below it as far as the depth allows. -/
theorem copyDirCallback_walked (task : CopyTask t₀ src dst)
    (hwalk : WalkOk t₀ src dst k (copyDirWalk k))
    (hz : t₀.item (pathComponents src ++ (y ++ [n])) ≠ none)
    (hkept : Kept (pathComponents src) t₀ s.fs.tree) (hsrc : s.srcCur = joined src y)
    (hdst : s.dstCur = joined dst y) (hpos : 1 ≤ s.depth) (hdepth : s.depth ≤ k + 1)
    (hs' : copyDirCallback (copyDirWalk k) n
      (t₀.item (pathComponents src ++ (y ++ [n])) == some .dir) s = s')
    (herr : s'.errors = s.errors) :
    Walked t₀ src dst ([y ++ [n]] ++
        ((belowName t₀ (pathComponents src) k y n).take (s.depth - 1)).flatMap
          (t₀.entries (pathComponents src))) s s' ∧
      s'.depth = max 1 (s.depth - (belowName t₀ (pathComponents src) k y n).length) := by
  have hjoin : pathJoin 256 s.srcCur n = joined src (y ++ [n]) ∧
      pathJoin 256 s.dstCur n = joined dst (y ++ [n]) := by
    have h1 := task.srcFits _ hz
    have h2 := task.dstFits _ hz
    rw [joined_snoc] at h1 h2
    rw [hsrc, hdst, joined_snoc, joined_snoc, pathJoin_eq h1, pathJoin_eq h2]
    exact ⟨rfl, rfl⟩
  obtain ⟨-, hdpath⟩ := task.paths hz
  have hout : ¬pathComponents src <+: pathComponents (joined dst (y ++ [n])) :=
    hdpath ▸ task.apart _ hz
  unfold copyDirCallback at hs'
  rw [hjoin.1, hjoin.2] at hs'
  dsimp only at hs'
  unfold belowName
  cases hitem : t₀.item (pathComponents src ++ (y ++ [n])) with
  | none => exact absurd hitem hz
  | some it =>
    cases it with
    | file bytes =>
      rw [hitem] at hs'
      have hs' : copyDirFile (joined src (y ++ [n])) (joined dst (y ++ [n])) s = s' := hs'
      subst hs'
      obtain ⟨hfile, hd⟩ := copyDirFile_walked task hkept hitem herr
      refine ⟨by simpa using hfile, ?_⟩
      rw [hd]
      simp only [reduceCtorEq, Option.some.injEq, if_false, length_nil]
      omega
    | dir =>
      rw [hitem, beq_self_eq_true, if_pos rfl] at hs'
      rw [if_pos rfl]
      split at hs'
      · next s₁ hmade =>
        rw [← hs', ensureDir_false hmade] at herr
        exact absurd herr (succ_ne_self _)
      next s₁ hmade =>
      obtain ⟨fs, rfl, hdir, hframe, hrest⟩ := ensureDir_true hmade
      have hentry : Walked t₀ src dst [y ++ [n]] s { s with fs := fs } := by
        refine ⟨⟨?_, ?_⟩, hkept.trans (hrest _ hout), rfl, rfl⟩
        · intro w hw
          rw [mem_singleton.mp hw, hitem, ← hdpath]
          exact hdir
        · intro x hx
          exact hframe x (hdpath ▸ hx _ (mem_singleton.mpr rfl))
      dsimp only at hs'
      by_cases hlast : s.depth = 1
      · -- the nested walk returns at once
        rw [hlast, copyDirWalk_zero] at hs'
        subst hs'
        refine ⟨by simpa [hlast] using hentry, ?_⟩
        dsimp only
        omega
      · have hspec := hwalk (y ++ [n]) (s.depth - 1) { s with fs := fs } hitem hentry.kept
          (by omega) (by omega) (by rw [hs', herr])
        rw [hs'] at hspec
        refine ⟨hentry.append hspec.1, ?_⟩
        rw [hspec.2]
        congr 2
        omega

/-- The callbacks of one listing. -/
theorem readdirCopy_walked (task : CopyTask t₀ src dst)
    (hwalk : WalkOk t₀ src dst k (copyDirWalk k)) {names : List (List UInt8)}
    (hnames : ∀ n ∈ names, t₀.item (pathComponents src ++ (y ++ [n])) ≠ none)
    (hkept : Kept (pathComponents src) t₀ s.fs.tree) (hsrc : s.srcCur = joined src y)
    (hdst : s.dstCur = joined dst y) (hpos : 1 ≤ s.depth) (hdepth : s.depth ≤ k + 1)
    (hs' : readdirCopy (copyDirWalk k) (pathComponents src ++ y) names s = s')
    (herr : s'.errors = s.errors) :
    Walked t₀ src dst (names.map (fun n => y ++ [n]) ++
        ((t₀.dirsBelow (pathComponents src) (t₀.dirs (pathComponents src) k) y names).take
          (s.depth - 1)).flatMap (t₀.entries (pathComponents src))) s s' ∧
      s'.depth = max 1 (s.depth -
        (t₀.dirsBelow (pathComponents src) (t₀.dirs (pathComponents src) k) y names).length) := by
  induction names generalizing s with
  | nil =>
    have hs' : s = s' := hs'
    subst hs'
    refine ⟨by simpa [dirsBelow] using Walked.nil hkept, ?_⟩
    simp only [dirsBelow, flatMap_nil, length_nil]
    omega
  | cons n names ih =>
    have hlive : s.fs.tree.item (pathComponents src ++ y ++ [n]) =
        t₀.item (pathComponents src ++ (y ++ [n])) := by
      rw [append_assoc]
      exact (hkept _).1
    rw [readdirCopy, foldl_cons, ← readdirCopy, hlive] at hs'
    generalize hcall : copyDirCallback (copyDirWalk k) n
      (t₀.item (pathComponents src ++ (y ++ [n])) == some .dir) s = s₁ at hs'
    -- no error was added in either half
    have hfirst : s.errors ≤ s₁.errors :=
      hcall ▸ copyDirCallback_errors (copyDirWalk_errors k) n _ s
    have hsecond : s₁.errors ≤ s'.errors :=
      hs' ▸ readdirCopy_errors (copyDirWalk_errors k) _ names s₁
    obtain ⟨hw₁, hd₁⟩ := copyDirCallback_walked task hwalk (hnames n mem_cons_self) hkept
      hsrc hdst hpos hdepth hcall (by omega)
    obtain ⟨hw₂, hd₂⟩ := ih (fun m hm => hnames m (mem_cons_of_mem n hm)) hw₁.kept
      (hw₁.srcCur.trans hsrc) (hw₁.dstCur.trans hdst) (by omega) (by omega) hs' (by omega)
    rw [dirsBelow_cons, ← belowName, take_append, length_append]
    constructor
    · have hrest : s₁.depth - 1 =
          s.depth - 1 - (belowName t₀ (pathComponents src) k y n).length := by omega
      rw [hrest] at hw₂
      refine (hw₁.append hw₂).congr fun z => ?_
      simp only [mem_append, map_cons, mem_cons, flatMap_append]
      tauto
    · omega

/-- The walk copies the entries of the first directories in preorder, as many as its depth. -/
theorem copyDirWalk_ok (task : CopyTask t₀ src dst) (k : Nat) :
    WalkOk t₀ src dst k (copyDirWalk k) := by
  induction k with
  | zero =>
    intro y d s _ _ hpos hle
    omega
  | succ k ih =>
    intro y d s hdir hkept hpos hle herr
    have hy : t₀.item (pathComponents src ++ y) ≠ none := by rw [hdir]; simp
    have hlist : ∀ n ∈ t₀.names (pathComponents src ++ y),
        t₀.item (pathComponents src ++ (y ++ [n])) ≠ none := by
      intro n hn
      rw [← append_assoc]
      exact ((task.ok.listed _ _).mp hn).2
    have hrun : copyDirWalk (k + 1) (joined src y) (joined dst y) d s =
        { readdirCopy (copyDirWalk k) (pathComponents src ++ y) (t₀.names (pathComponents src ++ y))
            { s with srcCur := joined src y, dstCur := joined dst y, depth := d } with
          srcCur := s.srcCur, dstCur := s.dstCur } := by
      rw [copyDirWalk, if_neg (by omega), (task.paths hy).1, (hkept y).2]
    rw [hrun] at herr ⊢
    obtain ⟨hw, hd⟩ := readdirCopy_walked
      (s := { s with srcCur := joined src y, dstCur := joined dst y, depth := d })
      task ih hlist hkept rfl rfl hpos hle rfl herr
    refine ⟨⟨?_, hw.kept, rfl, rfl⟩, ?_⟩
    · have hov := hw.overlaid
      obtain ⟨e, rfl⟩ : ∃ e, d = e + 1 := ⟨d - 1, by omega⟩
      rw [dirs, take_succ_cons, flatMap_cons, entries]
      exact hov
    · dsimp only at hd ⊢
      rw [hd, dirs, length_cons]
      congr 1
      omega

end Walk

/-! ## Volumes to copy on -/

/-- The shell before its first copy, on a volume with space for every call. -/
def copyStart (entries : List (List (List UInt8) × Item)) : CopyState :=
  ⟨⟨FileTree.ofEntries entries, fun _ => 4096, 0⟩, [], [], 0, 0, 0⟩

/-- A directory with a file and a subdirectory with a file. -/
def smallTree : List (List (List UInt8) × Item) :=
  [([cstr "s"], .dir), ([cstr "s", cstr "f"], .file (cstr "x")), ([cstr "s", cstr "a"], .dir),
    ([cstr "s", cstr "a", cstr "g"], .file (cstr "yz"))]

/-- Nine directories of two levels: the last of eight subdirectories has a file. -/
def wideTree : List (List (List UInt8) × Item) :=
  [([cstr "s"], .dir), ([cstr "s", cstr "a"], .dir), ([cstr "s", cstr "b"], .dir),
    ([cstr "s", cstr "c"], .dir), ([cstr "s", cstr "d"], .dir), ([cstr "s", cstr "e"], .dir),
    ([cstr "s", cstr "f"], .dir), ([cstr "s", cstr "g"], .dir), ([cstr "s", cstr "h"], .dir),
    ([cstr "s", cstr "h", cstr "x"], .file (cstr "lost"))]

/-- What a tree from a list owes to a statement about its entries. -/
theorem ofEntries_forall {entries : List (List (List UInt8) × Item)} {top : List UInt8}
    {P : List (List UInt8) → Prop}
    (h : ∀ e ∈ entries, e.1.head? = some top → P e.1.tail) :
    ∀ y, (FileTree.ofEntries entries).item ([top] ++ y) ≠ none → P y := by
  intro y hy
  rcases item_ofEntries_ne_none hy with hnil | hmem
  · cases hnil
  · obtain ⟨e, he, hey⟩ := mem_map.mp hmem
    have hP := h e he (by rw [hey]; rfl)
    rwa [hey] at hP

theorem ofEntries_namesOk {entries : List (List (List UInt8) × Item)}
    (h : ∀ e ∈ entries, ∀ n ∈ e.1, n ≠ [] ∧ slash ∉ n) :
    HostFs.NamesOk (FileTree.ofEntries entries) := by
  intro p n hn
  rcases item_ofEntries_ne_none hn with hnil | hmem
  · exact absurd hnil (by simp)
  · obtain ⟨e, he, hep⟩ := mem_map.mp hmem
    exact h e he n (by rw [hep]; simp)

/-! ## The whole copy -/

/-- Every directory and every file below `S` stands below `D`, with the same bytes. -/
def Mirrored (t t' : FileTree (List UInt8)) (S D : List (List UInt8)) : Prop :=
  ∀ z it, t.item (S ++ z) = some it → t'.item (D ++ z) = some it

/-- A reported directory copy made the root and walked the source without an error. -/
theorem cmdCopy_copiedDirectory {src dst srcPath root : List UInt8} {files : Nat} {s : CopyState}
    (hpath : resolvePath src = some srcPath)
    (h : (cmdCopy src dst s).1 = .copiedDirectory root files) :
    ∃ fs, ensureDir root s = (true, { s with fs := fs }) ∧
      s.fs.tree.item (pathComponents srcPath) = some .dir ∧
      (cmdCopy src dst s).2 =
        copyDirWalk 8 srcPath root 8 { s with fs := fs, errors := 0, fileCount := 0 } ∧
      (cmdCopy src dst s).2.errors = 0 := by
  unfold cmdCopy at h ⊢
  split at h
  · cases h
  next hargs =>
  rw [if_neg hargs]
  rw [hpath] at h ⊢
  cases hd : resolvePath dst with
  | none => rw [hd] at h; cases h
  | some dstPath =>
    rw [hd] at h
    dsimp only at h ⊢
    split at h
    · next hdir =>
      rw [if_pos hdir]
      unfold copyDirectory at h ⊢
      dsimp only at h ⊢
      split at h
      · cases h
      next hself =>
      rw [if_neg hself]
      generalize copyRoot s.fs srcPath dstPath = dstRoot at h ⊢
      split at h
      · cases h
      next s₁ hmade =>
      obtain ⟨fs, rfl, -⟩ := ensureDir_true hmade
      split at h
      · cases h
      next herr =>
      obtain ⟨rfl, -⟩ : dstRoot = root ∧ _ := by simpa using h
      rw [if_neg herr]
      exact ⟨fs, hmade, isDirectory_eq_one hdir, rfl, by dsimp only at herr ⊢; omega⟩
    · unfold copyFile at h
      split at h
      · cases h
      · split at h <;> cases h

/-- For a source of at most seven levels below its root and a destination root below which no entry
gets a place inside the source, a directory copy that reports success has mirrored the source
exactly when the directories behind the first eight, in the order of the walk, hold nothing that
the destination did not have already. -/
theorem copy_mirrors_iff (src dst srcPath root : List UInt8) (files : Nat) (s : CopyState)
    (hok : s.fs.tree.Ok) (hnames : HostFs.NamesOk s.fs.tree)
    (hpath : resolvePath src = some srcPath)
    (hlevels : ∀ y, s.fs.tree.item (pathComponents srcPath ++ y) = some .dir → y.length ≤ 7)
    (hsrc : ∀ y, s.fs.tree.item (pathComponents srcPath ++ y) ≠ none →
      (joined srcPath y).length < 256)
    (hdst : ∀ y, s.fs.tree.item (pathComponents srcPath ++ y) ≠ none → (joined root y).length < 256)
    (hreport : (cmdCopy src dst s).1 = .copiedDirectory root files)
    (hapart : ∀ y, s.fs.tree.item (pathComponents srcPath ++ y) ≠ none →
      ¬pathComponents srcPath <+: pathComponents root ++ y) :
    Mirrored s.fs.tree (cmdCopy src dst s).2.fs.tree (pathComponents srcPath)
        (pathComponents root) ↔
      ∀ y ∈ (s.fs.tree.dirs (pathComponents srcPath) 8 []).drop 8,
        ∀ z ∈ s.fs.tree.entries (pathComponents srcPath) y,
          s.fs.tree.item (pathComponents root ++ z) =
            s.fs.tree.item (pathComponents srcPath ++ z) := by
  obtain ⟨fs, hmade, hdir, hrun, herr⟩ := cmdCopy_copiedDirectory hpath hreport
  obtain ⟨fs', hfs, hroot, hframe, hkept⟩ := ensureDir_true hmade
  obtain rfl : fs = fs' := congrArg CopyState.fs hfs
  have task : CopyTask s.fs.tree srcPath root := ⟨hok, hnames, hapart, hsrc, hdst⟩
  have hout : ¬pathComponents srcPath <+: pathComponents root := by
    simpa using hapart [] (by rw [append_nil, hdir]; simp)
  have hwalk := copyDirWalk_ok task 8 [] 8 { s with fs := fs, errors := 0, fileCount := 0 }
    (by simpa using hdir) (hkept _ hout) (by omega) (le_refl _)
    (by rw [joined_nil, joined_nil, ← hrun, herr])
  rw [joined_nil, joined_nil, ← hrun] at hwalk
  have hov := hwalk.1.overlaid
  generalize (cmdCopy src dst s).2.fs.tree = t' at hov ⊢
  have hnodup := nodup_dirs hok (S := pathComponents srcPath) 8 []
  have hsplit := take_append_drop 8 (s.fs.tree.dirs (pathComponents srcPath) 8 [])
  -- below the root, only entries of walked directories have changed
  have hstay : ∀ z, z ≠ [] → (∀ y ∈ (s.fs.tree.dirs (pathComponents srcPath) 8 []).take 8,
      z ∉ s.fs.tree.entries (pathComponents srcPath) y) →
      t'.item (pathComponents root ++ z) = s.fs.tree.item (pathComponents root ++ z) := by
    intro z hz hnot
    rw [hov.frame (pathComponents root ++ z), hframe _ (by simpa using hz)]
    intro w hw he
    obtain ⟨y, hy, hwy⟩ := mem_flatMap.mp hw
    exact hnot y hy (append_cancel_left he ▸ hwy)
  constructor
  · intro hmir y hy z hz
    obtain ⟨n, hn, rfl⟩ := mem_map.mp hz
    have hsome := ((hok.listed _ _).mp hn).2
    rw [append_assoc] at hsome
    obtain ⟨it, hit⟩ := Option.ne_none_iff_exists'.mp hsome
    rw [← hstay (y ++ [n]) (by simp), hmir _ _ hit, hit]
    -- an entry belongs to one directory, and that one is behind the first eight
    intro y' hy' hmem
    obtain ⟨m, -, hm⟩ := mem_map.mp hmem
    obtain ⟨rfl, -⟩ := append_inj' hm rfl
    rw [← hsplit] at hnodup
    exact (nodup_append.mp hnodup).2.2 _ hy' _ hy rfl
  · intro hleft z it hz
    rcases eq_nil_or_concat z with rfl | ⟨y, n, rfl⟩
    · rw [append_nil] at hz ⊢
      rw [hov.frame (pathComponents root), hroot, ← hdir, hz]
      intro w hw he
      obtain ⟨y, -, hwy⟩ := mem_flatMap.mp hw
      obtain ⟨m, -, rfl⟩ := mem_map.mp hwy
      simpa using congrArg List.length he
    rw [concat_eq_append] at hz ⊢
    have hz' : s.fs.tree.item (pathComponents srcPath ++ y ++ [n]) ≠ none := by
      rw [append_assoc, hz]
      simp
    have hy := hok.parent _ _ hz'
    have hin : y ∈ s.fs.tree.dirs (pathComponents srcPath) 8 [] := by
      simpa using mem_dirs hok (y := []) (lt_succ_of_le (hlevels y hy)) (by simpa using hy)
    have hentry : y ++ [n] ∈ s.fs.tree.entries (pathComponents srcPath) y :=
      mem_map.mpr ⟨n, (hok.listed _ _).mpr ⟨hy, hz'⟩, rfl⟩
    by_cases hcopied : y ++ [n] ∈
        ((s.fs.tree.dirs (pathComponents srcPath) 8 []).take 8).flatMap
          (s.fs.tree.entries (pathComponents srcPath))
    · rw [hov.copied _ hcopied, hz]
    rw [hstay _ (by simp) fun y' hy' hmem => hcopied (mem_flatMap.mpr ⟨y', hy', hmem⟩)]
    rw [← hsplit] at hin
    rcases mem_append.mp hin with htake | hdrop
    · exact absurd (mem_flatMap.mpr ⟨y, htake, hentry⟩) hcopied
    · rw [hleft y hdrop _ hentry, hz]

theorem copy_mirrors_small : Mirrored (copyStart smallTree).fs.tree
      (cmdCopy (cstr "s") (cstr "d") (copyStart smallTree)).2.fs.tree [cstr "s"] [cstr "d"] := by
  have hsrc : pathComponents (cstr "/s") = [cstr "s"] := by decide
  have hdst : pathComponents (cstr "/d") = [cstr "d"] := by decide
  have hshape : ∀ y, (copyStart smallTree).fs.tree.item ([cstr "s"] ++ y) ≠ none →
      y.length ≤ 7 ∧ (joined (cstr "/s") y).length < 256 ∧ (joined (cstr "/d") y).length < 256 ∧
        ¬[cstr "s"] <+: [cstr "d"] ++ y :=
    ofEntries_forall (P := fun y => y.length ≤ 7 ∧ (joined (cstr "/s") y).length < 256 ∧
      (joined (cstr "/d") y).length < 256 ∧ ¬[cstr "s"] <+: [cstr "d"] ++ y) (by decide)
  have hiff := copy_mirrors_iff (cstr "s") (cstr "d") (cstr "/s") (cstr "/d") 2
    (copyStart smallTree) (ofEntries_ok ⟨by decide, by decide⟩)
    (ofEntries_namesOk (by decide)) (by decide)
    (by rw [hsrc]; exact fun y hy => (hshape y (by rw [hy]; simp)).1)
    (by rw [hsrc]; exact fun y hy => (hshape y hy).2.1)
    (by rw [hsrc]; exact fun y hy => (hshape y hy).2.2.1)
    (by decide) (by rw [hsrc, hdst]; exact fun y hy => (hshape y hy).2.2.2)
  rw [hsrc, hdst] at hiff
  exact hiff.mpr (by decide)

/-- The copy of the wide tree reports success and leaves out the file. -/
theorem copy_misses_ninth :
    (copyStart wideTree).fs.tree.Ok ∧ HostFs.NamesOk (copyStart wideTree).fs.tree ∧
      (∀ y, (copyStart wideTree).fs.tree.item ([cstr "s"] ++ y) ≠ none →
        y.length ≤ 2 ∧ (joined (cstr "/s") y).length < 256 ∧ (joined (cstr "/d") y).length < 256) ∧
      (cmdCopy (cstr "s") (cstr "d") (copyStart wideTree)).1 = .copiedDirectory (cstr "/d") 0 ∧
      ¬Mirrored (copyStart wideTree).fs.tree
        (cmdCopy (cstr "s") (cstr "d") (copyStart wideTree)).2.fs.tree [cstr "s"] [cstr "d"] := by
  refine ⟨ofEntries_ok ⟨by decide, by decide⟩,
    ofEntries_namesOk (by decide), ?_, by decide, ?_⟩
  · exact ofEntries_forall (P := fun y => y.length ≤ 2 ∧ (joined (cstr "/s") y).length < 256 ∧
      (joined (cstr "/d") y).length < 256) (by decide)
  intro h
  have hfile := h [cstr "h", cstr "x"] (.file (cstr "lost")) (by decide)
  have hnone : (cmdCopy (cstr "s") (cstr "d") (copyStart wideTree)).2.fs.tree.item
      ([cstr "d"] ++ [cstr "h", cstr "x"]) = none := by decide
  rw [hnone] at hfile
  cases hfile

end OpenSys
