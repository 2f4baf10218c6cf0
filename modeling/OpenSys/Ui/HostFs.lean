-- SUMMARY: A correct filesystem as the shell's commands see it.
import OpenSys.Lib.FileTree
import OpenSys.Fs.Lookup

/-!
# The filesystem behind the shell

The shell's commands are studied over a filesystem whose calls do what they are documented to
do. Calls that need space on the volume may be refused or may write less than they were given,
as an arbitrary sequence of grants decides.
-/

namespace OpenSys

/-! ## Paths -/

/-- `resolve_path` -/
def resolvePath (name : List UInt8) : Option (List UInt8) :=
  if name = [] then none
  else if name.head? = some slash then some (name.take 255)
  else some ((slash :: name).take 255)

/-- A directory and a name as one path. -/
def joinName (dir name : List UInt8) : List UInt8 :=
  if dir = [slash] then slash :: name else dir ++ slash :: name

/-- `path_join` -/
def pathJoin (cap : Nat) (dir name : List UInt8) : List UInt8 :=
  if cap < (joinName dir name).length + 1 then [] else joinName dir name

/-- `path_basename` -/
def pathBasename (p : List UInt8) : List UInt8 := (p.reverse.takeWhile (· != slash)).reverse

/-- `path_has_prefix` -/
def pathHasPrefix : (path pre : List UInt8) → Bool
  | path, [] => path.head? = some slash
  | [], _ :: _ => false
  | p :: path, q :: pre => p == q && pathHasPrefix path pre

/-- A path with names joined to it one after the other. -/
def joined (path : List UInt8) (y : List (List UInt8)) : List UInt8 := y.foldl joinName path

@[simp]
theorem joined_nil (path : List UInt8) : joined path [] = path := rfl

theorem joined_snoc (path : List UInt8) (y : List (List UInt8)) (n : List UInt8) :
    joined path (y ++ [n]) = joinName (joined path y) n := by
  simp [joined]

theorem pathJoin_eq {dir name : List UInt8} {cap : Nat} (h : (joinName dir name).length < cap) :
    pathJoin cap dir name = joinName dir name := if_neg (by omega)

/-- A joined name is the last component of the path. -/
theorem pathComponents_joinName {dir name : List UInt8} (hne : name ≠ []) (hslash : slash ∉ name)
    (hlen : (joinName dir name).length < 256) :
    pathComponents (joinName dir name) = pathComponents dir ++ [name] := by
  unfold joinName at hlen ⊢
  split at hlen
  · next hroot =>
    rw [if_pos hroot, hroot]
    have hname := pathComponents_name hne hslash (by simp at hlen; omega)
    have happ := @pathComponents_append_slash [] name
    rw [List.nil_append] at happ
    rw [happ, hname]
    rfl
  · next hroot =>
    rw [if_neg hroot, pathComponents_append_slash]
    by_cases hdir : dir = []
    · subst hdir
      rw [pathComponents_name hne hslash (by simp at hlen; omega)]
    · have hpos := List.length_pos_iff.mpr hdir
      rw [pathComponents_name hne hslash (by simp at hlen; omega)]

/-! ## Calls -/

/-- The files, and what the calls that need space are granted: call `n` may write `room n`
bytes, and makes an entry unless `room n` is zero. -/
structure HostFs where
  tree : FileTree (List UInt8)
  room : Nat → Nat
  calls : Nat

/-- Entries are named without slashes. -/
def HostFs.NamesOk (t : FileTree (List UInt8)) : Prop :=
  ∀ p n, t.item (p ++ [n]) ≠ none → n ≠ [] ∧ slash ∉ n

/-- `fs_is_directory` -/
def HostFs.isDirectory (fs : HostFs) (path : List UInt8) : Int :=
  match fs.tree.item (pathComponents path) with
  | some .dir => 1
  | some (.file _) => 0
  | none => -1

theorem HostFs.isDirectory_eq_one {fs : HostFs} {path : List UInt8}
    (h : fs.isDirectory path = 1) : fs.tree.item (pathComponents path) = some .dir := by
  unfold HostFs.isDirectory at h
  split at h
  · assumption
  · cases h
  · cases h

/-- `fs_mkdir` -/
def HostFs.mkdir (fs : HostFs) (path : List UInt8) : Bool × HostFs :=
  let p := pathComponents path
  if fs.room fs.calls ≠ 0 ∧ fs.tree.item p = none ∧ fs.tree.item p.dropLast = some .dir then
    (true, { fs with tree := fs.tree.put p .dir, calls := fs.calls + 1 })
  else (false, { fs with calls := fs.calls + 1 })

/-- The content of a file, empty when there is none. -/
def HostFs.content (fs : HostFs) (path : List UInt8) : List UInt8 :=
  match fs.tree.item (pathComponents path) with
  | some (.file bytes) => bytes
  | _ => []

/-- `fs_open` for reading: the content that `size` counts. -/
def HostFs.openRead (fs : HostFs) (path : List UInt8) : Option (List UInt8) :=
  match fs.tree.item (pathComponents path) with
  | some (.file bytes) => some bytes
  | _ => none

/-- `fs_open` for writing: an existing file is opened as it is, a missing one is made. -/
def HostFs.openWrite (fs : HostFs) (path : List UInt8) : Bool × HostFs :=
  let p := pathComponents path
  match fs.tree.item p with
  | some (.file _) =>
    if fs.room fs.calls = 0 then (false, { fs with calls := fs.calls + 1 })
    else (true, { fs with calls := fs.calls + 1 })
  | some .dir => (false, { fs with calls := fs.calls + 1 })
  | none =>
    if fs.room fs.calls ≠ 0 ∧ fs.tree.item p.dropLast = some .dir then
      (true, { fs with tree := fs.tree.put p (.file []), calls := fs.calls + 1 })
    else (false, { fs with calls := fs.calls + 1 })

/-- `fs_truncate` of an open file to nothing. -/
def HostFs.truncate (fs : HostFs) (path : List UInt8) : HostFs :=
  { fs with tree := fs.tree.put (pathComponents path) (.file []) }

/-- `fs_read` -/
def HostFs.read (fs : HostFs) (path : List UInt8) (pos count : Nat) : List UInt8 :=
  ((fs.content path).drop pos).take count

/-- `fs_write`: the size becomes the end of what is written, so the rest behind it is gone. A
write of nothing leaves the file as it is. -/
def HostFs.write (fs : HostFs) (path : List UInt8) (pos : Nat) (bytes : List UInt8) :
    Nat × HostFs :=
  let n := min bytes.length (fs.room fs.calls)
  let old := fs.content path
  (n, { fs with
        tree := fs.tree.put (pathComponents path)
          (.file (if n = 0 then old else old.take pos ++ bytes.take n))
        calls := fs.calls + 1 })

end OpenSys
