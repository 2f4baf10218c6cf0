-- SUMMARY: Persistence of the state graph: the 600-byte form of a node, writing and loading.
import OpenSys.Kernel.StateGraph
import OpenSys.Fs.Clusters
import OpenSys.Lib.Text

/-!
# Persistence of the state graph

`src/kernel/state_graph.c`. A dirty node is written to the file `sys/node_XXXXXXXX` as 600 bytes,
and after a restart the files of the ids 1 to 1024 are read back. The form of a node loses
nothing, but the path has no slash in front, and `fs_open` finds nothing under such a path.
-/

namespace OpenSys

open Mem BitVec

/-! ## The form of a node -/

/-- The fields of `state_node_t` that are written beside the links. -/
structure NodeData where
  type : BitVec 32
  flags : BitVec 32
  x : BitVec 32
  y : BitVec 32
  width : BitVec 32
  height : BitVec 32
  text : Vector UInt8 256
  value : Vector UInt8 256
  mftRecordId : BitVec 64
  lastSyncHash : BitVec 64
  deriving DecidableEq

/-- The node that `allocate_node` clears. -/
def NodeData.zero : NodeData :=
  ⟨0, 0, 0, 0, 0, 0, .replicate 256 0, .replicate 256 0, 0, 0⟩

/-- `NODE_SERIAL_SIZE` -/
def nodeSerialSize : Nat := 600

/-- `NODE_TYPE_MAX` -/
def nodeTypeMax : BitVec 32 := 10

/-- `(int64_t)` of an `int`, as it is stored. -/
def qword (v : BitVec 32) : Nat := (v.signExtend 64).toNat

/-- `node_serialize` into a cleared buffer. -/
def nodeSerialize (node : StateNode) (data : NodeData) : Mem :=
  let buf : Mem := fun _ => 0
  let buf := buf.writeLE 0 8 node.id
  let buf := buf.writeLE 8 4 data.type.toNat
  let buf := buf.writeLE 12 4 data.flags.toNat
  let buf := buf.writeLE 16 8 node.parentId
  let buf := buf.writeLE 24 8 (qword data.x)
  let buf := buf.writeLE 32 8 (qword data.y)
  let buf := buf.writeLE 40 8 (qword data.width)
  let buf := buf.writeLE 48 8 (qword data.height)
  let buf := buf.writeBytes 56 data.text.toList
  let buf := buf.writeBytes 312 data.value.toList
  let buf := buf.writeLE 568 8 data.mftRecordId.toNat
  buf.writeLE 576 8 data.lastSyncHash.toNat

/-- `node_deserialize` into a cleared node. -/
def nodeDeserialize (buf : Mem) : StateNode × NodeData :=
  (⟨buf.readLE 0 8, buf.readLE 16 8, 0, 0⟩,
   ⟨.ofNat 32 (buf.readLE 8 4), .ofNat 32 (buf.readLE 12 4), .ofNat 32 (buf.readLE 24 8),
    .ofNat 32 (buf.readLE 32 8), .ofNat 32 (buf.readLE 40 8), .ofNat 32 (buf.readLE 48 8),
    .ofFn fun i => buf (56 + i), .ofFn fun i => buf (312 + i),
    .ofNat 64 (buf.readLE 568 8), .ofNat 64 (buf.readLE 576 8)⟩)

theorem ofNat_qword (v : BitVec 32) : BitVec.ofNat 32 (qword v) = v := by
  rw [qword, ofNat_toNat]
  ext i hi
  have hi64 : i < 64 := by omega
  rw [getElem_setWidth, getLsbD_signExtend, if_pos hi]
  simp [hi, hi64]

theorem qword_lt (v : BitVec 32) : qword v < 256 ^ 8 := (v.signExtend 64).isLt

/-- Nothing of a node is lost in its form, but its links. -/
theorem deserialize_serialize (node : StateNode) (data : NodeData) (hid : node.id < 2 ^ 64)
    (hparent : node.parentId < 2 ^ 64) :
    nodeDeserialize (nodeSerialize node data) = (⟨node.id, node.parentId, 0, 0⟩, data) := by
  have hvalue : data.value.toList.length = 256 := by simp
  have hword : ∀ {w k : Nat} (v : BitVec w), 2 ^ w = 256 ^ k →
      BitVec.ofNat w (v.toNat % 256 ^ k) = v := fun v hk => by
    rw [← hk, Nat.mod_eq_of_lt v.isLt, BitVec.ofNat_toNat, BitVec.setWidth_eq]
  have hint : ∀ v : BitVec 32, BitVec.ofNat 32 (qword v % 256 ^ 8) = v := fun v => by
    rw [Nat.mod_eq_of_lt (qword_lt v), ofNat_qword]
  have hget : ∀ (m : Mem) (a : Nat) (v : Vector UInt8 256) (i : Fin 256),
      m.writeBytes a v.toList (a + i) = v[i] := fun m a v i => by
    rw [Mem.writeBytes, if_pos (by simp)]
    simp
  unfold nodeDeserialize nodeSerialize
  simp (disch := omega) only [readLE_writeLE_of_disjoint, readLE_writeBytes_of_disjoint,
    readLE_writeLE_mod, writeLE_outside, writeBytes_outside, hget, hint,
    hword _ (show 2 ^ 32 = 256 ^ 4 from rfl), hword _ (show 2 ^ 64 = 256 ^ 8 from rfl),
    Nat.mod_eq_of_lt (show node.id < 256 ^ 8 from hid),
    Nat.mod_eq_of_lt (show node.parentId < 256 ^ 8 from hparent)]
  simp

/-- The place and the size of every field in the form of a node. -/
def nodeFields : List (Nat × Nat) :=
  [(0, 8), (8, 4), (12, 4), (16, 8), (24, 8), (32, 8), (40, 8), (48, 8), (56, 256), (312, 256),
    (568, 8), (576, 8)]

/-- No other byte of a buffer is read. -/
theorem nodeDeserialize_congr {m m' : Mem} (h : ∀ f ∈ nodeFields, m.Agree m' f.1 f.2) :
    nodeDeserialize m' = nodeDeserialize m := by
  simp only [nodeFields, List.forall_mem_cons, List.not_mem_nil] at h
  obtain ⟨h0, h8, h12, h16, h24, h32, h40, h48, h56, h312, h568, h576, -⟩ := h
  have htext : (fun i : Fin 256 => m' (56 + i)) = fun i : Fin 256 => m (56 + i) :=
    funext fun i => h56 _ (by omega) (by omega)
  have hvalue : (fun i : Fin 256 => m' (312 + i)) = fun i : Fin 256 => m (312 + i) :=
    funext fun i => h312 _ (by omega) (by omega)
  rw [nodeDeserialize, nodeDeserialize, h0.readLE_eq, h8.readLE_eq, h12.readLE_eq, h16.readLE_eq,
    h24.readLE_eq, h32.readLE_eq, h40.readLE_eq, h48.readLE_eq, htext, hvalue, h568.readLE_eq,
    h576.readLE_eq]

/-- A buffer with the bytes of a form gives the node back. -/
theorem deserialize_blob {node : StateNode} {data : NodeData} (hid : node.id < 2 ^ 64)
    (hparent : node.parentId < 2 ^ 64) {buf : Mem}
    (h : buf.readBytes 0 nodeSerialSize = (nodeSerialize node data).readBytes 0 nodeSerialSize) :
    nodeDeserialize buf = (⟨node.id, node.parentId, 0, 0⟩, data) := by
  have hbound : ∀ f ∈ nodeFields, f.1 + f.2 ≤ nodeSerialSize := by decide
  rw [← deserialize_serialize node data hid hparent]
  exact nodeDeserialize_congr fun f hf =>
    (agree_of_readBytes h).mono ⟨Nat.zero_le _, by simpa using hbound f hf⟩

/-- The fields lie one behind the other below 584 and fill the form, and its 600 bytes give all of
    them back; so nodes of one form are equal in them. -/
theorem node_form_faithful (node : StateNode) (data : NodeData) (hid : node.id < 2 ^ 64)
    (hparent : node.parentId < 2 ^ 64) :
    (nodeFields.Pairwise (fun f g => f.1 + f.2 ≤ g.1) ∧ (∀ f ∈ nodeFields, f.1 + f.2 ≤ 584) ∧
      ∀ x, (∀ f ∈ nodeFields, x < f.1 ∨ f.1 + f.2 ≤ x) → nodeSerialize node data x = 0) ∧
    (∀ buf : Mem,
      buf.readBytes 0 nodeSerialSize = (nodeSerialize node data).readBytes 0 nodeSerialSize →
      nodeDeserialize buf = (⟨node.id, node.parentId, 0, 0⟩, data)) ∧
    ∀ (node' : StateNode) (data' : NodeData), node'.id < 2 ^ 64 → node'.parentId < 2 ^ 64 →
      (nodeSerialize node' data').readBytes 0 nodeSerialSize =
        (nodeSerialize node data).readBytes 0 nodeSerialSize →
      node'.id = node.id ∧ node'.parentId = node.parentId ∧ data' = data := by
  refine ⟨⟨by decide, by decide, fun x hx => ?_⟩, fun _ => deserialize_blob hid hparent, ?_⟩
  · simp only [nodeFields, List.forall_mem_cons] at hx
    have hlen : ∀ v : Vector UInt8 256, v.toList.length = 256 := by simp
    simp (disch := (try rw [hlen]); omega) only [nodeSerialize, writeLE_outside, writeBytes_outside]
  · intro node' data' hid' hparent' h
    have hback := (deserialize_serialize node' data' hid' hparent').symm.trans
      (deserialize_blob hid hparent h)
    simp only [Prod.mk.injEq, StateNode.mk.injEq] at hback
    exact ⟨hback.1.1, hback.1.2.1, hback.2⟩

/-- A node with a negative place on the screen. -/
theorem node_form_negative :
    nodeDeserialize (nodeSerialize ⟨7, 1, 0, 0⟩ { NodeData.zero with x := -5, y := -1 }) =
      (⟨7, 1, 0, 0⟩, { NodeData.zero with x := -5, y := -1 }) :=
  (node_form_faithful ⟨7, 1, 0, 0⟩ _ (by decide) (by decide)).2.1 _ rfl

/-! ## Files of nodes -/

/-- One of the digits `0` to `9` and `A` to `F`. -/
def hexDigit (n : Nat) : UInt8 := (cstr "0123456789ABCDEF").getD (n % 16) 0

/-- The path `sys/node_XXXXXXXX`. -/
def nodePath (id : Nat) : List UInt8 :=
  cstr "sys/node_" ++ [28, 24, 20, 16, 12, 8, 4, 0].map fun shift => hexDigit (id >>> shift)

/-- The state graph with the other fields of its nodes, by their place in the heap, and the file
    system. -/
structure PersistentGraph where
  graph : StateGraph
  data : Nat → NodeData
  fs : Fs

def PersistentGraph.dirty (s : PersistentGraph) (i : Nat) : Bool :=
  (s.data i).flags &&& nodeFlagDirty != 0

/-- `flags &= ~NODE_FLAG_DIRTY` -/
def NodeData.clean (d : NodeData) : NodeData := { d with flags := d.flags &&& ~~~nodeFlagDirty }

/-- `state_graph_sync_to_mft`. There is no result when a lookup or the file system has none. -/
def stateGraphSyncToMft (fuel : Nat) (s : PersistentGraph) (id : Nat) :
    Option (Int × PersistentGraph) :=
  match getNode s.graph fuel id with
  | none => none
  | some none => some (-1, s)
  | some (some i) =>
    if s.dirty i = false then some (0, s)
    else
      let buf := (nodeSerialize (s.graph.nodeHeap i) (s.data i)).readBytes 0 nodeSerialSize
      match fsOpen s.fs (nodePath id) 1 with
      | none => none
      | some (none, fs) => some (-1, { s with fs := fs })
      | some (some file, fs) =>
        let (written, _, fs) := fsWrite fs file buf
        if written = nodeSerialSize then
          let synced := { (s.data i).clean with lastSyncHash := 0 }
          some (0, { s with data := Function.update s.data i synced, fs := fs })
        else some (-1, { s with fs := fs })

/-- What the first pass of `state_graph_load_from_mft` does with the bytes of a file: the node is
    taken from the heap, and given back when it is a root. -/
def restoreNode (s : PersistentGraph) (buf : Mem) : PersistentGraph :=
  let i := s.graph.used
  let (node, data) := nodeDeserialize buf
  let g := s.graph.setNode i node
  if data.type < nodeTypeMax ∧ node.parentId = 0 then
    { s with graph := g, data := Function.update s.data i data }
  else
    let nextId := if g.nextId ≤ node.id then u64 (node.id + 1) else g.nextId
    { s with
      graph := hashInsert { g with used := g.used + 1, nextId := nextId } i
      data := Function.update s.data i data.clean }

/-- The first pass of `state_graph_load_from_mft`, over the ids that are left. -/
def loadNodes : List Nat → PersistentGraph → Option PersistentGraph
  | [], s => some s
  | id :: ids, s =>
    match fsOpen s.fs (nodePath id) 0 with
    | none => none
    | some (none, fs) => loadNodes ids { s with fs := fs }
    | some (some file, fs) =>
      let (bytes, _, fs) := fsRead fs file nodeSerialSize
      let s := { s with fs := fs }
      if bytes.length < 16 then loadNodes ids s
      else if nodeHeapSize < s.graph.used * stateNodeSize + stateNodeSize then some s
      else loadNodes ids (restoreNode s (fs.uninit.writeBytes 0 bytes))

/-- The second pass, which links every node to its parent. -/
def relinkNodes (fuel : Nat) : List Nat → StateGraph → Option StateGraph
  | [], g => some g
  | id :: ids, g =>
    match getNode g fuel id with
    | none => none
    | some none => relinkNodes fuel ids g
    | some (some i) =>
      let child := g.nodeHeap i
      if child.parentId = 0 ∨ child.parentId = child.id then relinkNodes fuel ids g
      else
        match getNode g fuel child.parentId with
        | none => none
        | some none => relinkNodes fuel ids (g.setNode i { child with parentId := 0 })
        | some (some _) =>
          match addChild fuel g child.parentId id with
          | none => none
          | some (_, g) => relinkNodes fuel ids g

/-- The ids that are looked for. -/
def nodeIds : List Nat := List.range' 1 1024

/-- `state_graph_load_from_mft` -/
def stateGraphLoadFromMft (fuel : Nat) (s : PersistentGraph) : Option (Int × PersistentGraph) :=
  match loadNodes nodeIds s with
  | none => none
  | some s => (relinkNodes fuel nodeIds s.graph).map fun g => (0, { s with graph := g })

/-! ## What is found under the paths -/

section Paths

variable {s : PersistentGraph} {fuel id i : Nat}

theorem findFile_relative (fs : Fs) {path : List UInt8} (h : path.head? ≠ some slash) :
    findFile fs path = none := by
  cases path with
  | nil => rfl
  | cons c path => exact if_pos (by simpa using h)

theorem hexDigit_ne_slash (n : Nat) : hexDigit n ≠ slash := by
  have hall : ∀ k < 16, (cstr "0123456789ABCDEF").getD k 0 ≠ slash := by decide
  exact hall _ (Nat.mod_lt _ (by decide))

theorem lastSlash_nodePath (id : Nat) : lastSlash (nodePath id) = 3 := by
  have hrest : slash ∉ cstr "node_" ++
      [28, 24, 20, 16, 12, 8, 4, 0].map fun shift => hexDigit (id >>> shift) := by
    intro h
    rcases List.mem_append.mp h with h | h
    · exact absurd h (by decide)
    · obtain ⟨shift, -, hshift⟩ := List.mem_map.mp h
      exact hexDigit_ne_slash _ hshift
  change lastSlash (115 :: 121 :: 115 :: slash :: (cstr "node_" ++
    [28, 24, 20, 16, 12, 8, 4, 0].map fun shift => hexDigit (id >>> shift))) = 3
  generalize cstr "node_" ++ _ = rest at hrest
  simp [lastSlash, hrest]

theorem splitPath_nodePath (id : Nat) : (splitPath (nodePath id)).1 = cstr "sys" := by
  rw [splitPath, lastSlash_nodePath]
  rfl

/-- Without a slash in front neither the file nor its directory is found. -/
theorem fsOpen_nodePath (fs : Fs) (id mode : Nat) :
    fsOpen fs (nodePath id) mode = some (none, fs) := by
  have hfile : findFile fs (nodePath id) = none := findFile_relative fs (by
    change some 115 ≠ some slash
    decide)
  have hdir : findFile fs (splitPath (nodePath id)).1 = none := by
    rw [splitPath_nodePath]
    exact findFile_relative fs (by decide)
  have hlast : ¬ (nodePath id = [] ∨ 255 < lastSlash (nodePath id)) := by
    rw [lastSlash_nodePath]
    exact not_or.mpr ⟨List.cons_ne_nil _ _, by decide⟩
  rw [fsOpen, hfile]
  simp only [if_neg hlast, hdir]
  split
  · rfl
  · split <;> rfl

theorem loadNodes_nothing (ids : List Nat) (s : PersistentGraph) : loadNodes ids s = some s := by
  induction ids with
  | nil => rfl
  | cons id ids ih =>
    rw [loadNodes, fsOpen_nodePath]
    exact ih

/-- A dirty node is not written, and no restart finds the file of a node. -/
theorem sync_never_persists (fuel : Nat) (s : PersistentGraph) (id i : Nat)
    (hget : getNode s.graph fuel id = some (some i)) (hdirty : s.dirty i = true) :
    stateGraphSyncToMft fuel s id = some (-1, s) ∧
      ∀ t : PersistentGraph, loadNodes nodeIds t = some t := by
  refine ⟨?_, loadNodes_nothing _⟩
  rw [stateGraphSyncToMft, hget]
  dsimp only
  rw [if_neg (by simp [hdirty]), fsOpen_nodePath]

end Paths

/-- The small volume with the directory `/sys`. -/
def sysVolume : Fs := ((fsMkdir smallVolume (cstr "/sys")).map Prod.snd).getD smallVolume

/-- A graph with the node 2 below the node 1; the node 2 is dirty. -/
def dirtyGraph : PersistentGraph where
  graph :=
    { nodeHeap := fun i => if i = 0 then ⟨1, 0, 2, 0⟩ else ⟨2, 1, 0, 0⟩
      used := 2
      nodeHash := fun b => if b = 1 then some 0 else if b = 2 then some 1 else none
      nextId := 3 }
  data := fun _ => { NodeData.zero with type := 1, flags := nodeFlagDirty }
  fs := sysVolume

/-- On that volume the dirty node stays as it is. -/
theorem sync_never_persists_two : stateGraphSyncToMft 1 dirtyGraph 2 = some (-1, dirtyGraph) :=
  (sync_never_persists 1 dirtyGraph 2 1 rfl rfl).1

/-- The dirty node 2 lives below the node 1 and `/sys` is there, but it is not written. -/
theorem sync_fails_below_sys : (findFile dirtyGraph.fs (cstr "/sys")).isSome ∧
    getNode dirtyGraph.graph 1 2 = some (some 1) ∧ dirtyGraph.dirty 1 = true ∧
    (dirtyGraph.graph.nodeHeap 1).parentId = 1 ∧
    ¬ ∃ s', stateGraphSyncToMft 1 dirtyGraph 2 = some (0, s') := by
  refine ⟨by decide +kernel, rfl, rfl, rfl, ?_⟩
  rintro ⟨s', h⟩
  have hget : getNode dirtyGraph.graph 1 2 = some (some 1) := rfl
  rw [stateGraphSyncToMft, hget, fsOpen_nodePath] at h
  exact absurd h (by simp [show dirtyGraph.dirty 1 = true from rfl])

end OpenSys
