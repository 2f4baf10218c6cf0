-- SUMMARY: The state graph: node heap, hash chains and child lists that share a link.
import OpenSys.Lib.Run
import Mathlib.Data.Finset.Lattice.Fold
import Mathlib.Order.Lattice.Nat

/-!
# The state graph

A node is found by its id through a hash table of 1024 buckets. The chain of a bucket goes
through `next_sibling_id`, which is also the link of the child lists, and the next node of a
chain is found by another lookup. Lookup and child walks are right as long as no two ids share
a bucket, a child enters one list only, and no live sibling stands behind a deleted node.
-/

namespace OpenSys

open List Function Nat

/-! ## The model -/

/-- The links of `state_node_t`; its type, flags, geometry and texts play no part in them. -/
structure StateNode where
  id : Nat
  parentId : Nat
  firstChildId : Nat
  nextSiblingId : Nat

/-- `sizeof(state_node_t)` -/
def stateNodeSize : Nat := 624

/-- `NODE_FLAG_DIRTY` -/
def nodeFlagDirty : BitVec 32 := 8

/-- `heap_size` -/
def nodeHeapSize : Nat := 1024 * 1024

/-- `state_graph_t`: the heap as the nodes in the order of their allocation, and the buckets as
places in it. -/
structure StateGraph where
  nodeHeap : Nat → StateNode
  /-- How many nodes `heap_used` counts. -/
  used : Nat
  nodeHash : Nat → Option Nat
  nextId : Nat

/-- `hash_node_id(id) % 1024` -/
def bucketOf (id : Nat) : Nat := (id ^^^ (id >>> 32)) % 2 ^ 32 % 1024

section Lookup

variable (g : StateGraph)

/-- The loop of `hash_lookup` from a node on. The next node of the chain is looked up by
`state_graph_get_node`, that is, by the same loop from the front of its own bucket. Without
enough fuel there is no answer. -/
def lookupFrom : (fuel : Nat) → (id : Nat) → Option Nat → Option (Option Nat)
  | 0, _, _ => none
  | _ + 1, _, none => some none
  | fuel + 1, id, some i =>
    if (g.nodeHeap i).id = id then some (some i)
    else
      let next := (g.nodeHeap i).nextSiblingId
      if next = 0 then some none
      else match lookupFrom fuel next (g.nodeHash (bucketOf next)) with
        | none => none
        | some current => lookupFrom fuel id current

/-- `state_graph_get_node`: the node, or NULL. -/
def getNode (fuel id : Nat) : Option (Option Nat) :=
  if id = 0 then some none else lookupFrom g fuel id (g.nodeHash (bucketOf id))

/-- The ids on a walk along `next_sibling_id`. -/
def walkFrom : (fuel : Nat) → (id : Nat) → Option (List Nat)
  | 0, _ => none
  | fuel + 1, id =>
    if id = 0 then some []
    else match getNode g fuel id with
      | none => none
      | some none => some []
      | some (some i) => (walkFrom fuel (g.nodeHeap i).nextSiblingId).map (id :: ·)

/-- The walk over the children of a node, from its `first_child_id`. -/
def walkChildren (fuel parent : Nat) : Option (List Nat) :=
  match getNode g fuel parent with
  | none => none
  | some none => some []
  | some (some i) => walkFrom g fuel (g.nodeHeap i).firstChildId

end Lookup

/-- A change of one node. -/
def StateGraph.setNode (g : StateGraph) (i : Nat) (node : StateNode) : StateGraph :=
  { g with nodeHeap := update g.nodeHeap i node }

/-- `hash_insert` -/
def hashInsert (g : StateGraph) (i : Nat) : StateGraph :=
  let node := g.nodeHeap i
  let bucket := bucketOf node.id
  let next := match g.nodeHash bucket with
    | none => 0
    | some current => (g.nodeHeap current).id
  { g.setNode i { node with nextSiblingId := next } with
    nodeHash := update g.nodeHash bucket (some i) }

/-- The child at the head of the parent's list. -/
def linkChild (g : StateGraph) (parent child childId : Nat) : StateGraph :=
  let g₁ := g.setNode child
    { g.nodeHeap child with nextSiblingId := (g.nodeHeap parent).firstChildId }
  g₁.setNode parent { g₁.nodeHeap parent with firstChildId := childId }

/-- `state_graph_add_child` -/
def addChild (fuel : Nat) (g : StateGraph) (parentId childId : Nat) : Option (Int × StateGraph) :=
  match getNode g fuel parentId, getNode g fuel childId with
  | some (some parent), some (some child) => some (0, linkChild g parent child childId)
  | some _, some _ => some (-1, g)
  | _, _ => none

/-- `state_graph_create_node` -/
def createNode (fuel : Nat) (g : StateGraph) (parentId : Nat) : Option (Nat × StateGraph) :=
  if nodeHeapSize < g.used * stateNodeSize + stateNodeSize then some (0, g)
  else
    let id := g.nextId
    let g := { g.setNode g.used ⟨id, parentId, 0, 0⟩ with used := g.used + 1, nextId := id + 1 }
    let g := hashInsert g (g.used - 1)
    if parentId = 0 then some (id, g)
    else (addChild fuel g parentId id).map fun r => (id, r.2)

/-- `state_graph_delete_node` -/
def deleteNode (fuel : Nat) (g : StateGraph) (id : Nat) : Option (Int × StateGraph) :=
  match getNode g fuel id with
  | none => none
  | some none => some (-1, g)
  | some (some i) => some (0, g.setNode i { g.nodeHeap i with id := 0 })

/-! ## What the graph stands for -/

/-- The ids of the nodes that were created and not deleted, and for each node the children it
was given, the last one first. -/
structure GraphView where
  live : Finset Nat
  children : Nat → List Nat

/-- A child is given to a parent, when both are live. -/
def GraphView.addChild (v : GraphView) (parent child : Nat) : GraphView :=
  if parent ∈ v.live ∧ child ∈ v.live then
    { v with children := update v.children parent (child :: v.children parent) }
  else v

/-- A node comes to life. -/
def GraphView.create (v : GraphView) (id parent : Nat) : GraphView :=
  { v with live := insert id v.live }.addChild parent id

/-- A node is deleted. -/
def GraphView.delete (v : GraphView) (id : Nat) : GraphView := { v with live := v.live.erase id }

/-- A call on the graph. -/
inductive GraphOp where
  | createNode (parent : Nat)
  | addChild (parent child : Nat)
  | deleteNode (id : Nat)

/-- The graph with what it stands for. -/
structure GraphSys where
  graph : StateGraph
  view : GraphView

/-- A call on both; it returns when there is enough fuel. -/
def graphStep (fuel : Nat) (s : GraphSys) : GraphOp → Option GraphSys
  | .createNode parent =>
    (createNode fuel s.graph parent).map fun r =>
      ⟨r.2, if r.1 = 0 then s.view else s.view.create r.1 parent⟩
  | .addChild parent child =>
    (addChild fuel s.graph parent child).map fun r => ⟨r.2, s.view.addChild parent child⟩
  | .deleteNode id =>
    (deleteNode fuel s.graph id).map fun r => ⟨r.2, s.view.delete id⟩

/-- The graph that `state_graph_init` starts from. -/
def emptyGraph : GraphSys :=
  ⟨⟨fun _ => ⟨0, 0, 0, 0⟩, 0, fun _ => none, 1⟩, ⟨∅, fun _ => []⟩⟩

/-- A node with this id is in the heap. -/
def StateGraph.Has (g : StateGraph) (id : Nat) : Prop :=
  id ≠ 0 ∧ ∃ i < g.used, (g.nodeHeap i).id = id

/-- A call that keeps hash chains and child lists apart: a new id has its bucket to itself, a
child that is added is in no list, and the sibling behind a deleted node is not live. -/
def graphCallOk (g : StateGraph) : GraphOp → Prop
  | .createNode _ => g.nodeHash (bucketOf g.nextId) = none
  | .addChild parent child => g.Has parent → g.Has child →
    ∀ i < g.used, (g.nodeHeap i).firstChildId ≠ child ∧ (g.nodeHeap i).nextSiblingId ≠ child
  | .deleteNode id => ∀ i < g.used, (g.nodeHeap i).id = id → id ≠ 0 →
    ¬ g.Has (g.nodeHeap i).nextSiblingId

/-- The states of runs whose calls are all of that kind. -/
inductive GraphReached : GraphSys → Prop
  | empty : GraphReached emptyGraph
  | step {s s' : GraphSys} {op : GraphOp} {fuel : Nat} (h : GraphReached s)
      (hok : graphCallOk s.graph op) (hstep : graphStep fuel s op = some s') : GraphReached s'

/-! ## Links -/

section Links

variable {g g' : StateGraph} {x c : Nat} {l : List Nat}

/-- The links from `x` on lead through the ids of the list. -/
def Chain (g : StateGraph) : Nat → List Nat → Prop
  | x, [] => x = 0
  | x, c :: cs => x = c ∧ c ≠ 0 ∧ c ≤ g.used ∧ Chain g (g.nodeHeap (c - 1)).nextSiblingId cs

/-- A chain stays when the links of its nodes do. -/
theorem Chain.congr (h : Chain g x l) (hused : g.used ≤ g'.used)
    (hnext : ∀ y ∈ l, y ≠ 0 → y ≤ g.used →
      (g'.nodeHeap (y - 1)).nextSiblingId = (g.nodeHeap (y - 1)).nextSiblingId) :
    Chain g' x l := by
  induction l generalizing x with
  | nil => exact h
  | cons c cs ih =>
    obtain ⟨hx, hne, hle, hrest⟩ := h
    refine ⟨hx, hne, hle.trans hused, ?_⟩
    rw [hnext c mem_cons_self hne hle]
    exact ih hrest fun y hy => hnext y (mem_cons_of_mem _ hy)

theorem Chain.le_used (h : Chain g x l) : x ≤ g.used := by
  cases l with
  | nil => rw [show x = 0 from h]; exact zero_le _
  | cons c cs => obtain ⟨rfl, -, hle, -⟩ := h; exact hle

theorem Chain.mem_le {y : Nat} (h : Chain g x l) (hy : y ∈ l) : y ≤ g.used := by
  induction l generalizing x with
  | nil => exact absurd hy not_mem_nil
  | cons c cs ih =>
    obtain ⟨-, -, hle, hrest⟩ := h
    rcases mem_cons.mp hy with rfl | hy
    · exact hle
    · exact ih hrest hy

theorem Chain.notMem (h : Chain g x l) (hx : x ≠ c)
    (hnext : ∀ i < g.used, (g.nodeHeap i).nextSiblingId ≠ c) : c ∉ l := by
  induction l generalizing x with
  | nil => exact not_mem_nil
  | cons d ds ih =>
    obtain ⟨rfl, hne, hle, hrest⟩ := h
    rw [mem_cons, not_or]
    exact ⟨fun heq => hx heq.symm, ih hrest (hnext _ (by omega))⟩

end Links

section LinkChild

variable (g : StateGraph) (i j id k : Nat)

theorem linkChild_id : ((linkChild g i j id).nodeHeap k).id = (g.nodeHeap k).id := by
  by_cases hki : k = i <;> by_cases hkj : k = j <;> by_cases hij : i = j <;>
    simp_all [linkChild, StateGraph.setNode]

theorem linkChild_nextSiblingId : ((linkChild g i j id).nodeHeap k).nextSiblingId =
    if k = j then (g.nodeHeap i).firstChildId else (g.nodeHeap k).nextSiblingId := by
  by_cases hki : k = i <;> by_cases hkj : k = j <;> by_cases hij : i = j <;>
    simp_all [linkChild, StateGraph.setNode]

theorem linkChild_firstChildId : ((linkChild g i j id).nodeHeap k).firstChildId =
    if k = i then id else (g.nodeHeap k).firstChildId := by
  by_cases hki : k = i <;> by_cases hkj : k = j <;> by_cases hij : i = j <;>
    simp_all [linkChild, StateGraph.setNode]

/-- A node loses its id. -/
theorem setNode_dead : (g.setNode i { g.nodeHeap i with id := 0 }).nodeHeap k =
    { g.nodeHeap k with id := if k = i then 0 else (g.nodeHeap k).id } := by
  by_cases hk : k = i <;> simp [StateGraph.setNode, hk]

end LinkChild

/-- The graph with a new node that has its bucket to itself. -/
def allocated (g : StateGraph) (parent : Nat) : StateGraph where
  nodeHeap := update g.nodeHeap g.used ⟨g.used + 1, parent, 0, 0⟩
  used := g.used + 1
  nodeHash := update g.nodeHash ((g.used + 1) % 1024) (some g.used)
  nextId := g.used + 1 + 1

theorem bucketOf_small {id : Nat} (h : id < 2 ^ 32) : bucketOf id = id % 1024 := by
  have hshift : id >>> 32 = 0 := by
    rw [shiftRight_eq_div_pow]
    exact div_eq_of_lt h
  rw [bucketOf, hshift, xor_zero, mod_eq_of_lt h]

/-- Hash chains and child lists are apart: every node has its bucket to itself, the links fall
in a rank, and the child lists are those of the view, with the deleted children at the end. -/
structure GraphInv (s : GraphSys) : Prop where
  ids : ∀ i < s.graph.used,
    (s.graph.nodeHeap i).id = if i + 1 ∈ s.view.live then i + 1 else 0
  live : ∀ id ∈ s.view.live, 1 ≤ id ∧ id ≤ s.graph.used
  nextId : s.graph.nextId = s.graph.used + 1
  small : s.graph.used ≤ 1024
  bucket : ∀ b i, s.graph.nodeHash b = some i → i < s.graph.used ∧ (i + 1) % 1024 = b
  hashed : ∀ i < s.graph.used, s.graph.nodeHash ((i + 1) % 1024) = some i
  rank : ∃ rank : Nat → Nat, ∀ i < s.graph.used, (s.graph.nodeHeap i).nextSiblingId ≠ 0 →
    (s.graph.nodeHeap i).nextSiblingId ≤ s.graph.used ∧
      rank ((s.graph.nodeHeap i).nextSiblingId - 1) < rank i
  chain : ∀ i < s.graph.used,
    Chain s.graph (s.graph.nodeHeap i).firstChildId (s.view.children (i + 1))
  fresh : ∀ p, p = 0 ∨ s.graph.used < p → s.view.children p = []
  order : ∀ p, (s.view.children p).Pairwise fun x y => y ∈ s.view.live → x ∈ s.view.live

namespace GraphInv

variable {s : GraphSys} (h : GraphInv s)

include h

/-! ## Lookup -/

theorem id_live {id : Nat} (hlive : id ∈ s.view.live) : (s.graph.nodeHeap (id - 1)).id = id := by
  obtain ⟨hpos, hle⟩ := h.live id hlive
  rw [h.ids _ (by omega), Nat.sub_add_cancel hpos, if_pos hlive]

theorem has_iff {id : Nat} : s.graph.Has id ↔ id ∈ s.view.live := by
  constructor
  · rintro ⟨hne, i, hi, hid⟩
    rw [h.ids i hi] at hid
    split at hid
    · rename_i hlive
      exact hid ▸ hlive
    · exact absurd hid.symm hne
  · intro hlive
    obtain ⟨hpos, hle⟩ := h.live id hlive
    exact ⟨by omega, id - 1, by omega, h.id_live hlive⟩

theorem nodeHash_bucketOf {id : Nat} (hpos : id ≠ 0) (hle : id ≤ s.graph.used) :
    s.graph.nodeHash (bucketOf id) = some (id - 1) := by
  have hsmall := h.small
  have hhash := h.hashed (id - 1) (by omega)
  rwa [Nat.sub_add_cancel (by omega), ← bucketOf_small (by omega)] at hhash

theorem getNode_live {id : Nat} (hlive : id ∈ s.view.live) (fuel : Nat) :
    getNode s.graph (fuel + 1) id = some (some (id - 1)) := by
  obtain ⟨hpos, hle⟩ := h.live id hlive
  rw [getNode, if_neg (by omega), h.nodeHash_bucketOf (by omega) hle, lookupFrom,
    if_pos (h.id_live hlive)]

/-- The chain from any node ends without finding an id that is not live. The rank of the node
bounds the fuel. -/
theorem lookupFrom_dead {rank : Nat → Nat}
    (hrank : ∀ i < s.graph.used, (s.graph.nodeHeap i).nextSiblingId ≠ 0 →
      (s.graph.nodeHeap i).nextSiblingId ≤ s.graph.used ∧
        rank ((s.graph.nodeHeap i).nextSiblingId - 1) < rank i)
    {id : Nat} (hdead : id ∉ s.view.live) (hne : id ≠ 0) {i : Nat} (hi : i < s.graph.used)
    {fuel : Nat} (hfuel : rank i + 2 ≤ fuel) :
    lookupFrom s.graph fuel id (some i) = some none := by
  induction hn : rank i using Nat.strong_induction_on generalizing i id fuel with
  | _ n ih =>
    obtain ⟨fuel, rfl⟩ : ∃ k, fuel = k + 1 := ⟨fuel - 1, by omega⟩
    have hother : (s.graph.nodeHeap i).id ≠ id := by
      rw [h.ids i hi]
      split
      · rename_i hlive
        exact fun heq => hdead (heq ▸ hlive)
      · exact fun heq => hne heq.symm
    rw [lookupFrom, if_neg hother]
    dsimp only
    by_cases hnext : (s.graph.nodeHeap i).nextSiblingId = 0
    · rw [if_pos hnext]
    obtain ⟨hle, hlt⟩ := hrank i hi hnext
    rw [if_neg hnext, h.nodeHash_bucketOf hnext hle]
    obtain ⟨fuel, rfl⟩ : ∃ k, fuel = k + 1 := ⟨fuel - 1, by omega⟩
    by_cases hsib : (s.graph.nodeHeap i).nextSiblingId ∈ s.view.live
    · -- the sibling is found at once, and its own chain is searched further
      have hfound := h.getNode_live hsib fuel
      rw [getNode, if_neg hnext, h.nodeHash_bucketOf hnext hle] at hfound
      rw [hfound]
      exact ih _ (by omega) hdead hne (by omega) (by omega) rfl
    · -- a deleted sibling is not found, and the search ends
      rw [ih _ (by omega) hsib hnext (by omega) (by omega) rfl]
      rfl

/-- Enough fuel gives the node of a live id, and NULL for every other id. -/
theorem getNode_eq (id : Nat) : ∃ bound, ∀ fuel ≥ bound, getNode s.graph fuel id =
    some (if id ∈ s.view.live then some (id - 1) else none) := by
  by_cases hlive : id ∈ s.view.live
  · refine ⟨1, fun fuel hfuel => ?_⟩
    obtain ⟨fuel, rfl⟩ : ∃ k, fuel = k + 1 := ⟨fuel - 1, by omega⟩
    rw [h.getNode_live hlive, if_pos hlive]
  rw [if_neg hlive]
  by_cases hne : id = 0
  · exact ⟨0, fun fuel _ => by rw [getNode, if_pos hne]⟩
  obtain ⟨rank, hrank⟩ := h.rank
  cases hb : s.graph.nodeHash (bucketOf id) with
  | none =>
    refine ⟨1, fun fuel hfuel => ?_⟩
    obtain ⟨fuel, rfl⟩ : ∃ k, fuel = k + 1 := ⟨fuel - 1, by omega⟩
    rw [getNode, if_neg hne, hb, lookupFrom]
  | some i =>
    refine ⟨rank i + 2, fun fuel hfuel => ?_⟩
    rw [getNode, if_neg hne, hb]
    exact h.lookupFrom_dead hrank hlive hne (h.bucket _ _ hb).1 hfuel

/-- A walk along a chain meets the live ids of the list. -/
theorem walkFrom_eq {x : Nat} {l : List Nat} (hchain : Chain s.graph x l)
    (horder : l.Pairwise fun a b => b ∈ s.view.live → a ∈ s.view.live) :
    ∃ bound, ∀ fuel ≥ bound, walkFrom s.graph fuel x = some (l.filter (· ∈ s.view.live)) := by
  induction l generalizing x with
  | nil =>
    refine ⟨1, fun fuel hfuel => ?_⟩
    obtain ⟨fuel, rfl⟩ : ∃ k, fuel = k + 1 := ⟨fuel - 1, by omega⟩
    rw [walkFrom, if_pos (show x = 0 from hchain)]
    rfl
  | cons c cs ih =>
    obtain ⟨rfl, hne, hle, hrest⟩ := hchain
    obtain ⟨hhead, htail⟩ := pairwise_cons.mp horder
    obtain ⟨n₁, hn₁⟩ := h.getNode_eq x
    obtain ⟨n₂, hn₂⟩ := ih hrest htail
    refine ⟨n₁ + n₂ + 1, fun fuel hfuel => ?_⟩
    obtain ⟨fuel, rfl⟩ : ∃ k, fuel = k + 1 := ⟨fuel - 1, by omega⟩
    rw [walkFrom, if_neg hne, hn₁ fuel (by omega)]
    by_cases hlive : x ∈ s.view.live
    · rw [if_pos hlive]
      dsimp only
      rw [hn₂ fuel (by omega), filter_cons_of_pos (by simpa using hlive)]
      rfl
    -- everything behind a deleted child is deleted
    rw [if_neg hlive]
    have hnone : (x :: cs).filter (· ∈ s.view.live) = [] := by
      rw [filter_eq_nil_iff]
      intro y hy hmem
      rcases mem_cons.mp hy with rfl | hy
      · exact hlive (by simpa using hmem)
      · exact hlive (hhead y hy (by simpa using hmem))
    rw [hnone]

theorem chain_children {p : Nat} (hpos : p ≠ 0) (hle : p ≤ s.graph.used) :
    Chain s.graph (s.graph.nodeHeap (p - 1)).firstChildId (s.view.children p) := by
  have hchain := h.chain (p - 1) (by omega)
  rwa [Nat.sub_add_cancel (by omega)] at hchain

theorem walkChildren_eq {p : Nat} (hlive : p ∈ s.view.live) : ∃ bound, ∀ fuel ≥ bound,
    walkChildren s.graph fuel p = some ((s.view.children p).filter (· ∈ s.view.live)) := by
  obtain ⟨hpos, hle⟩ := h.live p hlive
  obtain ⟨n₁, hn₁⟩ := h.getNode_eq p
  obtain ⟨n₂, hn₂⟩ := h.walkFrom_eq (h.chain_children (by omega) hle) (h.order p)
  refine ⟨n₁ + n₂, fun fuel hfuel => ?_⟩
  rw [walkChildren, hn₁ fuel (by omega), if_pos hlive]
  exact hn₂ fuel (by omega)

/-! ## The calls -/

theorem firstChildId_le {i : Nat} (hi : i < s.graph.used) :
    (s.graph.nodeHeap i).firstChildId ≤ s.graph.used := (h.chain i hi).le_used

/-- A node that is in no list is put at the head of one. -/
theorem linkChild {i j : Nat} (hi : i < s.graph.used) (hj : j < s.graph.used)
    (hlive : j + 1 ∈ s.view.live)
    (hfree : ∀ k < s.graph.used, (s.graph.nodeHeap k).firstChildId ≠ j + 1 ∧
      (s.graph.nodeHeap k).nextSiblingId ≠ j + 1) :
    GraphInv ⟨linkChild s.graph i j (j + 1), { s.view with
      children := update s.view.children (i + 1)
        ((j + 1) :: s.view.children (i + 1)) }⟩ := by
  have hid := linkChild_id s.graph i j (j + 1)
  have hnext := linkChild_nextSiblingId s.graph i j (j + 1)
  have hfirst := linkChild_firstChildId s.graph i j (j + 1)
  -- the old lists do not contain the child, so their links stay
  have hold : ∀ k < s.graph.used, Chain (OpenSys.linkChild s.graph i j (j + 1))
      (s.graph.nodeHeap k).firstChildId (s.view.children (k + 1)) := by
    intro k hk
    have hnot := (h.chain k hk).notMem (hfree k hk).1 fun m hm => (hfree m hm).2
    refine (h.chain k hk).congr le_rfl fun y hy hne hle => ?_
    rw [hnext, if_neg]
    intro heq
    exact hnot (by rwa [show j + 1 = y by omega])
  refine ⟨fun k hk => ?_, h.live, h.nextId, h.small, h.bucket, h.hashed, ?_, fun k hk => ?_, ?_, ?_⟩
  · rw [hid]
    exact h.ids k hk
  · obtain ⟨rank, hrank⟩ := h.rank
    refine ⟨update rank j ((Finset.range s.graph.used).sup rank + 1), fun k hk hne => ?_⟩
    rw [hnext] at hne ⊢
    by_cases hkj : k = j
    · subst hkj
      rw [if_pos rfl] at hne ⊢
      have hle := h.firstChildId_le hi
      have hne' : (s.graph.nodeHeap i).firstChildId - 1 ≠ k := fun heq =>
        (hfree i hi).1 (by omega)
      refine ⟨hle, ?_⟩
      rw [update_of_ne hne', update_self]
      exact lt_succ_of_le (Finset.le_sup (Finset.mem_range.mpr (by omega)))
    · rw [if_neg hkj] at hne ⊢
      obtain ⟨hle, hlt⟩ := hrank k hk hne
      have hne' : (s.graph.nodeHeap k).nextSiblingId - 1 ≠ j := fun heq =>
        (hfree k hk).2 (by omega)
      refine ⟨hle, ?_⟩
      rwa [update_of_ne hne', update_of_ne hkj]
  · rw [hfirst]
    dsimp only
    by_cases hki : k = i
    · subst hki
      rw [if_pos rfl, update_self]
      refine ⟨rfl, by omega, hj, ?_⟩
      rw [Nat.add_sub_cancel, hnext, if_pos rfl]
      exact hold k hk
    · rw [if_neg hki, update_of_ne (by omega)]
      exact hold k hk
  · intro p hp
    have hne : p ≠ i + 1 := by
      have hp : p = 0 ∨ s.graph.used < p := hp
      omega
    exact (update_of_ne hne _ _).trans (h.fresh p hp)
  · intro p
    by_cases hp : p = i + 1
    · subst hp
      dsimp only
      rw [update_self]
      exact pairwise_cons.mpr ⟨fun _ _ _ => hlive, h.order _⟩
    · dsimp only
      rw [update_of_ne hp]
      exact h.order p

/-- `state_graph_add_child`, for a child that is in no list. -/
theorem addChild {parent child : Nat}
    (hok : s.graph.Has parent → s.graph.Has child → ∀ i < s.graph.used,
      (s.graph.nodeHeap i).firstChildId ≠ child ∧ (s.graph.nodeHeap i).nextSiblingId ≠ child) :
    ∃ g', GraphInv ⟨g', s.view.addChild parent child⟩ ∧ ∃ r bound, ∀ fuel ≥ bound,
      addChild fuel s.graph parent child = some (r, g') := by
  obtain ⟨n₁, hn₁⟩ := h.getNode_eq parent
  obtain ⟨n₂, hn₂⟩ := h.getNode_eq child
  by_cases hboth : parent ∈ s.view.live ∧ child ∈ s.view.live
  · obtain ⟨hp, hc⟩ := hboth
    obtain ⟨hppos, hple⟩ := h.live parent hp
    obtain ⟨hcpos, hcle⟩ := h.live child hc
    have hfree := hok (h.has_iff.mpr hp) (h.has_iff.mpr hc)
    have hchild : child - 1 + 1 = child := Nat.sub_add_cancel hcpos
    have hparent : parent - 1 + 1 = parent := Nat.sub_add_cancel hppos
    have hinv := @linkChild s h (parent - 1) (child - 1) (by omega) (by omega)
      (by rwa [hchild]) (by rwa [hchild])
    rw [hchild, hparent] at hinv
    refine ⟨OpenSys.linkChild s.graph (parent - 1) (child - 1) child, ?_, 0, n₁ + n₂,
      fun fuel hfuel => ?_⟩
    · rw [GraphView.addChild, if_pos ⟨hp, hc⟩]
      exact hinv
    · rw [OpenSys.addChild, hn₁ fuel (by omega), hn₂ fuel (by omega), if_pos hp, if_pos hc]
  · refine ⟨s.graph, ?_, -1, n₁ + n₂, fun fuel hfuel => ?_⟩
    · rw [GraphView.addChild, if_neg hboth]
      exact h
    rw [OpenSys.addChild, hn₁ fuel (by omega), hn₂ fuel (by omega)]
    by_cases hp : parent ∈ s.view.live
    · have hc : child ∉ s.view.live := fun hc => hboth ⟨hp, hc⟩
      rw [if_pos hp, if_neg hc]
    · rw [if_neg hp]

/-- The heap has room for the node, and its bucket is empty. -/
theorem allocate_eq (parent : Nat)
    (hok : s.graph.nodeHash (bucketOf s.graph.nextId) = none) :
    s.graph.used < 1024 ∧
      hashInsert { s.graph.setNode s.graph.used ⟨s.graph.nextId, parent, 0, 0⟩ with
        used := s.graph.used + 1, nextId := s.graph.nextId + 1 } s.graph.used =
      allocated s.graph parent := by
  have hsmall := h.small
  rw [h.nextId] at hok
  have hroom : s.graph.used < 1024 := by
    -- otherwise the bucket of id 1 would be taken
    by_contra hfull
    have hused : s.graph.used = 1024 := by omega
    have hfirst := h.hashed 0 (by omega)
    rw [bucketOf_small (by omega), hused] at hok
    rw [hok] at hfirst
    cases hfirst
  have hbucket : bucketOf (s.graph.used + 1) = (s.graph.used + 1) % 1024 :=
    bucketOf_small (by omega)
  rw [hbucket] at hok
  refine ⟨hroom, ?_⟩
  simp only [hashInsert, StateGraph.setNode, update_self, hbucket, hok, h.nextId,
    update_idem, allocated]

/-- A new node starts without links, and no link leads to it. -/
theorem allocated_links (parent : Nat) : ∀ i < (allocated s.graph parent).used,
    ((allocated s.graph parent).nodeHeap i).firstChildId ≠ s.graph.nextId ∧
      ((allocated s.graph parent).nodeHeap i).nextSiblingId ≠ s.graph.nextId := by
  intro i hi
  rw [h.nextId]
  rcases Nat.lt_succ_iff_lt_or_eq.mp hi with hi | rfl
  · have hsame : (allocated s.graph parent).nodeHeap i = s.graph.nodeHeap i :=
      update_of_ne (by omega) _ _
    have hfirst := h.firstChildId_le hi
    obtain ⟨rank, hrank⟩ := h.rank
    rw [hsame]
    refine ⟨by omega, fun hnext => ?_⟩
    have := (hrank i hi (by omega)).1
    omega
  · simp [allocated]

/-- The new node is in order. -/
theorem allocate (parent : Nat) (hroom : s.graph.used < 1024) : GraphInv ⟨allocated s.graph parent,
      { s.view with live := insert s.graph.nextId s.view.live }⟩ := by
  rw [h.nextId]
  unfold allocated
  have hold : ∀ i < s.graph.used, update s.graph.nodeHeap s.graph.used
      ⟨s.graph.used + 1, parent, 0, 0⟩ i = s.graph.nodeHeap i := fun i hi =>
    update_of_ne (by omega) _ _
  refine ⟨fun i hi => ?_, fun id hid => ?_, rfl, hroom, fun b i hb => ?_, fun i hi => ?_, ?_,
    fun i hi => ?_, fun p hp => h.fresh p (by dsimp only at hp; omega),
    fun p => ?_⟩
  · dsimp only at hi ⊢
    rcases Nat.lt_succ_iff_lt_or_eq.mp hi with hi | rfl
    · have hiff : i + 1 ∈ insert (s.graph.used + 1) s.view.live ↔ i + 1 ∈ s.view.live := by
        rw [Finset.mem_insert]
        exact or_iff_right (by omega)
      rw [hold i hi, h.ids i hi]
      simp only [hiff]
    · simp
  · dsimp only
    rcases Finset.mem_insert.mp hid with rfl | hid
    · omega
    · have := h.live id hid
      omega
  · dsimp only at hb ⊢
    by_cases hbeq : b = (s.graph.used + 1) % 1024
    · subst hbeq
      rw [update_self, Option.some.injEq] at hb
      subst hb
      exact ⟨by omega, rfl⟩
    · rw [update_of_ne hbeq] at hb
      have := h.bucket b i hb
      exact ⟨by omega, this.2⟩
  · dsimp only at hi ⊢
    rcases Nat.lt_succ_iff_lt_or_eq.mp hi with hi | rfl
    · rw [update_of_ne (by omega)]
      exact h.hashed i hi
    · exact update_self _ _ _
  · obtain ⟨rank, hrank⟩ := h.rank
    refine ⟨rank, fun i hi hne => ?_⟩
    dsimp only at hi hne ⊢
    rcases Nat.lt_succ_iff_lt_or_eq.mp hi with hi | rfl
    · rw [hold i hi] at hne ⊢
      have := hrank i hi hne
      exact ⟨by omega, this.2⟩
    · simp at hne
  · dsimp only at hi ⊢
    rcases Nat.lt_succ_iff_lt_or_eq.mp hi with hi | rfl
    · rw [hold i hi]
      refine (h.chain i hi).congr (le_succ _) fun y hy hne hle => ?_
      dsimp only
      rw [hold _ (by omega)]
    · rw [update_self, h.fresh _ (.inr (lt_succ_self _))]
      rfl
  · refine (h.order p).imp_of_mem fun {x y} hx hy hxy hlive => ?_
    dsimp only at hlive ⊢
    rcases Finset.mem_insert.mp hlive with rfl | hlive
    · -- a child list holds no id that is yet to come
      by_cases hp : p = 0 ∨ s.graph.used < p
      · rw [h.fresh p hp] at hy
        exact absurd hy not_mem_nil
      · exact absurd ((h.chain_children (by omega) (by omega)).mem_le hy) (by omega)
    · exact Finset.mem_insert_of_mem (hxy hlive)

/-- `state_graph_create_node`, for an id that has its bucket to itself. -/
theorem createNode {parent : Nat} (hok : s.graph.nodeHash (bucketOf s.graph.nextId) = none) :
    ∃ g', GraphInv ⟨g', s.view.create s.graph.nextId parent⟩ ∧ ∃ bound, ∀ fuel ≥ bound,
      createNode fuel s.graph parent = some (s.graph.nextId, g') := by
  obtain ⟨hroom, heq⟩ := h.allocate_eq parent hok
  have halloc := h.allocate parent hroom
  have hfits : ¬ nodeHeapSize < s.graph.used * stateNodeSize + stateNodeSize := by
    unfold nodeHeapSize stateNodeSize
    omega
  have hcreate : ∀ fuel, OpenSys.createNode fuel s.graph parent =
      if parent = 0 then some (s.graph.nextId, allocated s.graph parent)
      else (OpenSys.addChild fuel (allocated s.graph parent) parent s.graph.nextId).map fun r =>
        (s.graph.nextId, r.2) := by
    intro fuel
    rw [OpenSys.createNode, if_neg hfits, ← heq]
    rfl
  by_cases hzero : parent = 0
  · refine ⟨allocated s.graph parent, ?_, 0, fun fuel _ => by rw [hcreate, if_pos hzero]⟩
    rw [GraphView.create, GraphView.addChild, if_neg]
    · exact halloc
    · rintro ⟨hp, -⟩
      have := (halloc.live parent hp).1
      omega
  · obtain ⟨g', hinv, r, bound, hbound⟩ := halloc.addChild
      fun _ _ => h.allocated_links parent
    refine ⟨g', hinv, bound, fun fuel hfuel => ?_⟩
    rw [hcreate, if_neg hzero, hbound fuel hfuel]
    rfl

omit h in
/-- A deleted node with no live sibling behind it leaves every list in order. -/
theorem pairwise_erase {d x : Nat} {l : List Nat} (hchain : Chain s.graph x l)
    (horder : l.Pairwise fun a b => b ∈ s.view.live → a ∈ s.view.live)
    (hnext : (s.graph.nodeHeap (d - 1)).nextSiblingId ∉ s.view.live) :
    l.Pairwise fun a b => b ∈ s.view.live.erase d → a ∈ s.view.live.erase d := by
  induction l generalizing x with
  | nil => exact .nil
  | cons c cs ih =>
    obtain ⟨-, hne, -, hrest⟩ := hchain
    obtain ⟨hhead, htail⟩ := pairwise_cons.mp horder
    refine pairwise_cons.mpr ⟨fun y hy hlive => ?_, ih hrest htail⟩
    have hylive := Finset.mem_of_mem_erase hlive
    refine Finset.mem_erase.mpr ⟨?_, hhead y hy hylive⟩
    rintro rfl
    -- the sibling behind the deleted node is the next of the list, and not live
    cases cs with
    | nil => exact absurd hy not_mem_nil
    | cons z zs =>
      obtain ⟨hz, -⟩ := hrest
      rw [hz] at hnext
      rcases mem_cons.mp hy with rfl | hy
      · exact hnext hylive
      · exact hnext ((pairwise_cons.mp htail).1 y hy hylive)

/-- `state_graph_delete_node`, for a node without a live sibling behind it. -/
theorem deleteNode {d : Nat} (hok : ∀ i < s.graph.used, (s.graph.nodeHeap i).id = d → d ≠ 0 →
      ¬ s.graph.Has (s.graph.nodeHeap i).nextSiblingId) :
    ∃ g', GraphInv ⟨g', s.view.delete d⟩ ∧ ∃ r bound, ∀ fuel ≥ bound,
      deleteNode fuel s.graph d = some (r, g') := by
  obtain ⟨n, hn⟩ := h.getNode_eq d
  by_cases hlive : d ∈ s.view.live
  · obtain ⟨hpos, hle⟩ := h.live d hlive
    have hnext : (s.graph.nodeHeap (d - 1)).nextSiblingId ∉ s.view.live := fun hmem =>
      hok (d - 1) (by omega) (h.id_live hlive) (by omega) (h.has_iff.mpr hmem)
    refine ⟨s.graph.setNode (d - 1) { s.graph.nodeHeap (d - 1) with id := 0 }, ⟨fun i hi => ?_,
      fun id hid => h.live id (Finset.mem_of_mem_erase hid), h.nextId, h.small, h.bucket, h.hashed, ?_,
      fun i hi => ?_, h.fresh, fun p => ?_⟩, 0, n, fun fuel hfuel => ?_⟩
    · have hiff : i = d - 1 ↔ i + 1 = d := by omega
      dsimp only
      rw [setNode_dead, h.ids i hi]
      simp only [GraphView.delete, Finset.mem_erase, hiff]
      by_cases hdead : i + 1 = d <;> simp [hdead]
    · obtain ⟨rank, hrank⟩ := h.rank
      refine ⟨rank, fun i hi hne => ?_⟩
      dsimp only at hne ⊢
      rw [setNode_dead] at hne ⊢
      exact hrank i hi hne
    · dsimp only
      rw [setNode_dead]
      exact (h.chain i hi).congr le_rfl fun y _ _ _ => by rw [setNode_dead]
    · by_cases hp : p = 0 ∨ s.graph.used < p
      · dsimp only [GraphView.delete]
        rw [h.fresh p hp]
        exact .nil
      · exact pairwise_erase (h.chain_children (by omega) (by omega)) (h.order p) hnext
    · rw [OpenSys.deleteNode, hn fuel hfuel, if_pos hlive]
  · refine ⟨s.graph, ?_, -1, n, fun fuel hfuel => ?_⟩
    · rw [GraphView.delete, Finset.erase_eq_of_notMem hlive]
      exact h
    · rw [OpenSys.deleteNode, hn fuel hfuel, if_neg hlive]

/-- A call that keeps chains and lists apart returns, and leaves them apart. -/
theorem step {op : GraphOp} (hok : graphCallOk s.graph op) : ∃ s', GraphInv s' ∧
    ∃ bound, ∀ fuel ≥ bound, graphStep fuel s op = some s' := by
  cases op with
  | createNode parent =>
    obtain ⟨g', hinv, bound, hbound⟩ := h.createNode hok
    refine ⟨_, hinv, bound, fun fuel hfuel => ?_⟩
    have hne : s.graph.nextId ≠ 0 := by
      rw [h.nextId]
      omega
    rw [graphStep, hbound fuel hfuel, Option.map_some, if_neg hne]
  | addChild parent child =>
    obtain ⟨g', hinv, r, bound, hbound⟩ := h.addChild hok
    exact ⟨_, hinv, bound, fun fuel hfuel => by rw [graphStep, hbound fuel hfuel]; rfl⟩
  | deleteNode d =>
    obtain ⟨g', hinv, r, bound, hbound⟩ := h.deleteNode hok
    exact ⟨_, hinv, bound, fun fuel hfuel => by rw [graphStep, hbound fuel hfuel]; rfl⟩

end GraphInv

/-! ## Fuel -/

section Fuel

variable {g : StateGraph} {fuel k : Nat} (hk : fuel ≤ k)

include hk

/-- More fuel gives the same answer. -/
theorem lookupFrom_mono {id : Nat} {current : Option Nat} {r : Option Nat}
    (h : lookupFrom g fuel id current = some r) : lookupFrom g k id current = some r := by
  induction fuel generalizing k id current r with
  | zero => cases h
  | succ fuel ih =>
    obtain ⟨k, rfl⟩ : ∃ m, k = m + 1 := ⟨k - 1, by omega⟩
    cases current with
    | none => exact h
    | some i =>
      rw [lookupFrom] at h ⊢
      dsimp only at h ⊢
      split_ifs at h ⊢
      · exact h
      · exact h
      split at h
      · cases h
      · rename_i current hcurrent
        rw [ih (by omega) hcurrent]
        exact ih (by omega) h

theorem getNode_mono {id : Nat} {r : Option Nat} (h : getNode g fuel id = some r) :
    getNode g k id = some r := by
  unfold getNode at h ⊢
  split_ifs at h ⊢
  · exact h
  · exact lookupFrom_mono hk h

theorem addChild_mono {p c : Nat} {r : Int × StateGraph} (h : addChild fuel g p c = some r) :
    addChild k g p c = some r := by
  unfold addChild at h ⊢
  cases hp : getNode g fuel p with
  | none => rw [hp] at h; cases h
  | some rp =>
    cases hc : getNode g fuel c with
    | none => rw [hp, hc] at h; cases rp <;> cases h
    | some rc =>
      rw [hp, hc] at h
      rw [getNode_mono hk hp, getNode_mono hk hc]
      exact h

theorem graphStep_mono {s s' : GraphSys} {op : GraphOp} (h : graphStep fuel s op = some s') :
    graphStep k s op = some s' := by
  cases op with
  | createNode parent =>
    rw [graphStep] at h ⊢
    obtain ⟨r, hr, hs⟩ := Option.map_eq_some_iff.mp h
    refine Option.map_eq_some_iff.mpr ⟨r, ?_, hs⟩
    unfold createNode at hr ⊢
    dsimp only at hr ⊢
    split_ifs at hr ⊢
    · exact hr
    · exact hr
    · obtain ⟨q, hq, hqr⟩ := Option.map_eq_some_iff.mp hr
      exact Option.map_eq_some_iff.mpr ⟨q, addChild_mono hk hq, hqr⟩
  | addChild parent child =>
    obtain ⟨r, hr, hs⟩ := Option.map_eq_some_iff.mp h
    exact Option.map_eq_some_iff.mpr ⟨r, addChild_mono hk hr, hs⟩
  | deleteNode d =>
    obtain ⟨r, hr, hs⟩ := Option.map_eq_some_iff.mp h
    refine Option.map_eq_some_iff.mpr ⟨r, ?_, hs⟩
    unfold deleteNode at hr ⊢
    cases hd : getNode s.graph fuel d with
    | none => rw [hd] at hr; cases hr
    | some rd =>
      rw [hd] at hr
      rw [getNode_mono hk hd]
      exact hr

end Fuel

/-! ## Runs -/

theorem emptyGraph_inv : GraphInv emptyGraph where
  ids i hi := absurd hi (not_lt_zero i)
  live id hid := absurd hid (Finset.notMem_empty id)
  nextId := rfl
  small := zero_le _
  bucket b i hb := by cases hb
  hashed i hi := absurd hi (not_lt_zero i)
  rank := ⟨fun _ => 0, fun i hi => absurd hi (not_lt_zero i)⟩
  chain i hi := absurd hi (not_lt_zero i)
  fresh _ _ := rfl
  order _ := .nil

theorem GraphReached.inv {s : GraphSys} (h : GraphReached s) : GraphInv s := by
  induction h with
  | empty => exact emptyGraph_inv
  | @step s s' op fuel _ hok hstep ih =>
    obtain ⟨t, hinv, bound, hbound⟩ := ih.step hok
    have hlarge := graphStep_mono (le_max_left fuel bound) hstep
    rw [hbound _ (le_max_right fuel bound), Option.some.injEq] at hlarge
    exact hlarge ▸ hinv

/-- In every state of a run whose calls keep hash chains and child lists apart, lookup returns
for every id, and finds a node with that id exactly when it was created and not deleted; the walk
over the children of a live node returns its live children; and the next such call returns. -/
theorem graph_exact {s : GraphSys} (h : GraphReached s) :
    (∀ id, ∃ fuel r, getNode s.graph fuel id = some r ∧
      (∀ i, r = some i → (s.graph.nodeHeap i).id = id) ∧ (r.isSome ↔ id ∈ s.view.live)) ∧
    (∀ p ∈ s.view.live, ∃ fuel, walkChildren s.graph fuel p =
      some ((s.view.children p).filter (· ∈ s.view.live))) ∧
    (∀ op, graphCallOk s.graph op → ∃ fuel s', graphStep fuel s op = some s') := by
  have hinv := h.inv
  refine ⟨fun id => ?_, fun p hp => ?_, fun op hok => ?_⟩
  · obtain ⟨bound, hbound⟩ := hinv.getNode_eq id
    refine ⟨bound, _, hbound bound le_rfl, ?_, ?_⟩
    · intro i hi
      split at hi
      · rename_i hlive
        cases hi
        exact hinv.id_live hlive
      · cases hi
    · split <;> simp [*]
  · obtain ⟨bound, hbound⟩ := hinv.walkChildren_eq hp
    exact ⟨bound, hbound bound le_rfl⟩
  · obtain ⟨s', -, bound, hbound⟩ := hinv.step hok
    exact ⟨bound, s', hbound bound le_rfl⟩

/-- The graph after these calls. -/
def graphAfter (ops : List GraphOp) : GraphSys :=
  (Run.run (graphStep 9) emptyGraph ops).getD emptyGraph

theorem GraphReached.next {ops : List GraphOp} (h : GraphReached (graphAfter ops)) (op : GraphOp)
    (hok : graphCallOk (graphAfter ops).graph op)
    (hrun : (Run.run (graphStep 9) emptyGraph (ops ++ [op])).isSome) :
    GraphReached (graphAfter (ops ++ [op])) := by
  obtain ⟨s', hs'⟩ := Option.isSome_iff_exists.mp hrun
  have hafter : graphAfter (ops ++ [op]) = s' := by rw [graphAfter, hs', Option.getD_some]
  rw [Run.run_append] at hs'
  obtain ⟨s, hs, hlast⟩ := Option.bind_eq_some_iff.mp hs'
  rw [graphAfter, hs, Option.getD_some] at h hok
  rw [Run.run_cons] at hlast
  obtain ⟨t, ht, hnil⟩ := Option.bind_eq_some_iff.mp hlast
  cases hnil
  rw [hafter]
  exact h.step hok ht

/-- A root with two children, and then without the first of them. -/
theorem graph_exact_children :
    (∃ fuel, walkChildren (graphAfter [.createNode 0, .createNode 1, .createNode 1]).graph fuel 1 =
      some [3, 2]) ∧
    ∃ fuel, walkChildren (graphAfter [.createNode 0, .createNode 1, .createNode 1,
      .deleteNode 2]).graph fuel 1 = some [3] := by
  have hempty : GraphReached (graphAfter []) := .empty
  have h₁ := hempty.next (.createNode 0) rfl (by decide)
  have h₂ := h₁.next (.createNode 1) (by unfold graphCallOk; decide)
    (by decide)
  have h₃ := h₂.next (.createNode 1) (by unfold graphCallOk; decide)
    (by decide)
  have h₄ := h₃.next (.deleteNode 2)
    (by unfold graphCallOk StateGraph.Has; decide) (by decide)
  obtain ⟨fuel, hfuel⟩ := (graph_exact h₃).2.1 1 (by decide)
  obtain ⟨fuel', hfuel'⟩ := (graph_exact h₄).2.1 1 (by decide)
  exact ⟨⟨fuel, hfuel.trans (by decide)⟩, fuel', hfuel'.trans (by decide)⟩

/-- A bucket whose first node leads to an id of the same bucket that it is not: the lookup of
that id starts over for ever. -/
theorem lookupFrom_loops {g : StateGraph} {id i : Nat} (hbucket : g.nodeHash (bucketOf id) = some i)
    (hother : (g.nodeHeap i).id ≠ id) (hnext : (g.nodeHeap i).nextSiblingId = id) (hne : id ≠ 0)
    (fuel : Nat) : lookupFrom g fuel id (some i) = none := by
  induction fuel with
  | zero => rfl
  | succ fuel ih =>
    rw [lookupFrom, if_neg hother]
    dsimp only
    rw [hnext, if_neg hne, hbucket, ih]

/-- With 1025 nodes, which fit the heap, ids 1 and 1025 share a bucket, and the lookup of id 1
does not return. After the younger of two children is deleted, the walk over the children finds
nothing, and the older one is still there. -/
theorem graph_not_exact :
    (∀ fuel, getNode (graphAfter (List.replicate 1025 (.createNode 0))).graph fuel 1 = none) ∧
    (let s := graphAfter [.createNode 0, .createNode 1, .createNode 1, .deleteNode 3]
     walkChildren s.graph 9 1 = some [] ∧ (s.view.children 1).filter (· ∈ s.view.live) = [2]) := by
  refine ⟨fun fuel => ?_, by decide⟩
  have hfacts : let g := (graphAfter (List.replicate 1025 (.createNode 0))).graph
      g.nodeHash (bucketOf 1) = some 1024 ∧ (g.nodeHeap 1024).id = 1025 ∧
        (g.nodeHeap 1024).nextSiblingId = 1 := by decide +kernel
  obtain ⟨hbucket, hid, hnext⟩ := hfacts
  rw [getNode, if_neg one_ne_zero, hbucket]
  exact lookupFrom_loops hbucket (by rw [hid]; decide) hnext one_ne_zero fuel

end OpenSys
