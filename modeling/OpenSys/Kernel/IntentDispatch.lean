-- SUMMARY: Intents from user space: the runs in which every string stays within its 256 bytes.
import OpenSys.Kernel.Intent
import OpenSys.Kernel.StateGraph
import OpenSys.Lib.Run
import Mathlib.Data.List.TakeWhile

/-!
# Dispatching intents

`src/kernel/intent_dispatcher.c`, with the checks and the audit log of
`src/kernel/intent_schema.c` and `state_graph_set_text` of `src/kernel/state_graph.c`. An
intent from user space is copied as it is. Its two parameters are then read as C strings:
copied into the current directory or into the text of a node, handed to the file system,
and in any case written to the audit log. No check asks for their NUL byte.

A function returns `none` when it reads or writes outside of one of the 256-byte fields.
-/

namespace OpenSys

open Run Option IntentCall List

/-! ## Strings in fields -/

/-- `char[256]`. -/
abbrev Chars := Fin 256 → UInt8

/-- The string in a field, null when the search for its NUL byte leaves the field. -/
def cString (buf : Chars) : Option (List UInt8) :=
  if 0 ∈ List.ofFn buf then some ((List.ofFn buf).takeWhile (· != 0)) else none

/-- `k_strcpy` between two fields. -/
def copyField (dst src : Chars) : Option Chars := (cString src).bind (strcpy256 dst)

/-- `buf[i] = b`. -/
def storeByte (buf : Chars) (i : Nat) (b : UInt8) : Option Chars :=
  if i < 256 then some fun j => if j.val = i then b else buf j else none

def byteAt (buf : Chars) (i : Nat) : UInt8 := if h : i < 256 then buf ⟨i, h⟩ else 0

/-! ## Schemas -/

inductive IntentType where
  | createWindow | destroyWindow | moveWindow | resizeWindow | showWindow | hideWindow | focusWindow
  | createNode | destroyNode | moveNode | resizeNode | setNodeText | setNodeValue | setNodeFlags
  | clickNode | doubleClickNode | rightClickNode | keyPress | textInput
  | shutdown | reboot | suspend | debugInfo
  | startProcess | stopProcess | pauseProcess | resumeProcess
  | fsCopyFile | fsMoveFile | fsCreateDir | fsRemoveDir | fsSearch | fsChdir | fsPrintCwd
deriving DecidableEq

/-- The groups of the enumeration, each with the number of its first type. -/
def intentGroups : List (Nat × List IntentType) :=
  [(100, [.createWindow, .destroyWindow, .moveWindow, .resizeWindow, .showWindow, .hideWindow,
      .focusWindow]),
   (200, [.createNode, .destroyNode, .moveNode, .resizeNode, .setNodeText, .setNodeValue,
      .setNodeFlags]),
   (300, [.clickNode, .doubleClickNode, .rightClickNode, .keyPress, .textInput]),
   (400, [.shutdown, .reboot, .suspend, .debugInfo]),
   (600, [.startProcess, .stopProcess, .pauseProcess, .resumeProcess]),
   (700, [.fsCopyFile, .fsMoveFile, .fsCreateDir, .fsRemoveDir, .fsSearch, .fsChdir, .fsPrintCwd])]

/-- The type with a number, null for a number that the enumeration leaves out. -/
def intentType (n : Nat) : Option IntentType :=
  intentGroups.findSome? fun g => if g.1 ≤ n then g.2[n - g.1]? else none

inductive RoleId where
  | sourceFile | sourceDir | destFile | destDir | pattern | scope | mutationDomain

/-- `INTENT_SCHEMAS`: the roles of a type, and whether each is required. -/
def intentSchemas : IntentType → List (RoleId × Bool)
  | .createWindow => [(.sourceFile, false)]
  | .setNodeText | .textInput => [(.pattern, true)]
  | .startProcess => [(.sourceFile, true)]
  | .fsCopyFile | .fsMoveFile => [(.sourceFile, true), (.destFile, true)]
  | .fsCreateDir | .fsRemoveDir => [(.destDir, true)]
  | .fsSearch => [(.pattern, true)]
  | .fsChdir => [(.destDir, false)]
  | _ => []

/-- The first byte of `extract_role_value`. -/
def roleByte (it : Intent) : RoleId → UInt8
  | .sourceFile | .sourceDir | .destDir | .pattern => it.param1 0
  | .destFile | .scope => it.param2 0
  | .mutationDomain => UInt8.ofNat it.intParam1.toNat

inductive IntentError where
  | success | invalidIntent | unauthorized | nodeNotFound | invalidParams | systemError
deriving DecidableEq

def validateIntentAgainstSchema (it : Intent) : IntentError :=
  match intentType it.type.toNat with
  | none => .success
  | some type =>
    if (intentSchemas type).any fun role => role.2 && roleByte it role.1 == 0 then .invalidParams
    else .success

/-! ## The kernel around the dispatcher -/

structure GraphNode where
  type : Nat
  flags : BitVec 32
  x : BitVec 32
  y : BitVec 32
  width : BitVec 32
  height : BitVec 32
  text : Chars

/-- What the dispatcher calls: the nodes of the state graph, and the file system. -/
structure KernelCalls (ρ : Type*) where
  getNode : ρ → BitVec 64 → Option GraphNode
  setNode : ρ → BitVec 64 → GraphNode → ρ
  createNode : ρ → Nat → BitVec 64 → BitVec 64 × ρ
  deleteNode : ρ → BitVec 64 → ρ
  vfsMkdir : ρ → List UInt8 → Int × ρ
  vfsUnlink : ρ → List UInt8 → Int × ρ
  vfsOpen : ρ → List UInt8 → Nat → Int × ρ
  vfsClose : ρ → Int → ρ
  /-- The loop of `handle_copy_file`, with a buffer of its own: whether all was written. -/
  copyData : ρ → Int → Int → Bool × ρ
  vfsList : ρ → List (List UInt8)

/-- The dispatcher: its access list (process, mask), the current directory, and the audit log. -/
structure IntentSys (ρ : Type*) where
  nextSequence : BitVec 32
  acl : List (BitVec 32 × BitVec 32)
  cwd : Chars
  audit : List (List UInt8 × List UInt8)
  kernel : ρ

section Dispatch

variable {ρ : Type*}

/-- What the builders and the validation see. -/
def IntentSys.dispatcher (k : KernelCalls ρ) (s : IntentSys ρ) : Dispatcher :=
  ⟨s.nextSequence, fun id => (k.getNode s.kernel id).isSome⟩

/-- `validate_intent` of a user's intent, whose 15 bytes of padding `pad` are summed too. -/
def validateUserIntent (d : Dispatcher) (pad : Fin 15 → UInt8) (it : Intent) : Bool :=
  if it.checksum ≠ calculateChecksum it + BitVec.ofNat 32 (byteSum (List.ofFn pad)) then false
  else if it.type.toNat < 100 ∨ 799 < it.type.toNat then false
  else if it.targetId ≠ nodeIdInvalid then d.hasNode it.targetId
  else true

/-- With zero padding this is `validateIntent`. -/
theorem validateUserIntent_unpadded (d : Dispatcher) (it : Intent) :
    validateUserIntent d (fun _ => 0) it = validateIntent d it := by
  have hpad : byteSum (ofFn fun _ : Fin 15 => (0 : UInt8)) = 0 := by decide
  rw [validateUserIntent, validateIntent, hpad, BitVec.add_zero]

def checkAcl (acl : List (BitVec 32 × BitVec 32)) (processId : BitVec 32) (type : Nat) : Bool :=
  match acl.find? (·.1 = processId) with
  | some entry => if type < 100 ∨ 131 < type then entry.2.getLsbD 0 else entry.2.getLsbD (type - 100)
  | none => false

/-- What a handler leaves: its result, the intent and the system. -/
abbrev IntentAnswer (ρ : Type*) := Option (IntentError × Intent × IntentSys ρ)

/-! ## Nodes -/

def nodeFlagFocused : BitVec 32 := 2

def nodeTypeWindow : Nat := 1

/-- A change of a node, which does nothing when the node is missing. -/
def changeNode (k : KernelCalls ρ) (r : ρ) (id : BitVec 64) (change : GraphNode → GraphNode) : ρ :=
  match k.getNode r id with
  | none => r
  | some node =>
    let node := change node
    k.setNode r id { node with flags := node.flags ||| nodeFlagDirty }

def stateGraphSetGeometry (k : KernelCalls ρ) (r : ρ) (id : BitVec 64) (x y w h : BitVec 32) : ρ :=
  changeNode k r id fun node => { node with x := x, y := y, width := w, height := h }

def stateGraphSetFlags (k : KernelCalls ρ) (r : ρ) (id : BitVec 64) (flags : BitVec 32) : ρ :=
  changeNode k r id fun node => { node with flags := flags }

def stateGraphSetText (k : KernelCalls ρ) (r : ρ) (id : BitVec 64) (text : Chars) : Option ρ :=
  match k.getNode r id with
  | none => some r
  | some node => (copyField node.text text).map fun text =>
    k.setNode r id { node with text := text, flags := node.flags ||| nodeFlagDirty }

def handleCreateWindow (k : KernelCalls ρ) (s : IntentSys ρ) (it : Intent) : IntentAnswer ρ :=
  let (newId, r) := k.createNode s.kernel nodeTypeWindow it.targetId
  if newId ≠ nodeIdInvalid then
    (stateGraphSetText k r newId it.param1).map fun r =>
      (.success, it, { s with
        kernel := stateGraphSetGeometry k r newId it.intParam1 it.intParam2 400 300 })
  else some (.systemError, it, { s with kernel := r })

def handleMoveWindow (k : KernelCalls ρ) (s : IntentSys ρ) (it : Intent) (node : Option GraphNode) :
    IntentAnswer ρ :=
  match node with
  | some node =>
    if node.type = nodeTypeWindow then
      let r := stateGraphSetGeometry k s.kernel it.targetId it.intParam1 it.intParam2 node.width
        node.height
      some (.success, it, { s with kernel := r })
    else some (.invalidParams, it, s)
  | none => some (.invalidParams, it, s)

def handleClickNode (k : KernelCalls ρ) (s : IntentSys ρ) (it : Intent) (node : Option GraphNode) :
    IntentAnswer ρ :=
  match node with
  | some node =>
    let r := stateGraphSetFlags k s.kernel it.targetId (node.flags ||| nodeFlagFocused)
    some (.success, it, { s with kernel := r })
  | none => some (.nodeNotFound, it, s)

def handleSetNodeText (k : KernelCalls ρ) (s : IntentSys ρ) (it : Intent) (node : Option GraphNode) :
    IntentAnswer ρ :=
  match node with
  | some _ => (stateGraphSetText k s.kernel it.targetId it.param1).map fun r =>
      (.success, it, { s with kernel := r })
  | none => some (.nodeNotFound, it, s)

/-! ## Files -/

/-- `ERR_SUCCESS` for 0 and `ERR_SYSTEM_ERROR` for the rest. -/
def errorOf (r : Int) : IntentError := if r = 0 then .success else .systemError

/-- A handler that passes `param1` on as a path. The callee reads it as a string, if not to its
    end: `audit_intent` does that afterwards. -/
def handlePath (call : ρ → List UInt8 → Int × ρ) (s : IntentSys ρ) (it : Intent) : IntentAnswer ρ :=
  if it.param1 0 = 0 then some (.invalidParams, it, s)
  else (cString it.param1).map fun path =>
    let (r, kernel) := call s.kernel path
    (errorOf r, it, { s with kernel := kernel })

def handleCreateDir (k : KernelCalls ρ) (s : IntentSys ρ) (it : Intent) : IntentAnswer ρ :=
  handlePath k.vfsMkdir s it

def handleRemoveDir (k : KernelCalls ρ) (s : IntentSys ρ) (it : Intent) : IntentAnswer ρ :=
  handlePath k.vfsUnlink s it

def handleCopyFile (k : KernelCalls ρ) (s : IntentSys ρ) (it : Intent) : IntentAnswer ρ :=
  if it.param1 0 = 0 ∨ it.param2 0 = 0 then some (.invalidParams, it, s)
  else (cString it.param1).bind fun src =>
    -- VFS_O_RDONLY
    let (srcFd, r) := k.vfsOpen s.kernel src 0
    if srcFd < 0 then some (.nodeNotFound, it, { s with kernel := r })
    else (cString it.param2).map fun dst =>
      -- VFS_O_WRONLY | VFS_O_CREAT | VFS_O_TRUNC
      let (dstFd, r) := k.vfsOpen r dst 13
      if dstFd < 0 then (.systemError, it, { s with kernel := k.vfsClose r srcFd })
      else
        let (written, r) := k.copyData r srcFd dstFd
        (if written then .success else .systemError, it,
          { s with kernel := k.vfsClose (k.vfsClose r srcFd) dstFd })

def handleMoveFile (k : KernelCalls ρ) (s : IntentSys ρ) (it : Intent) : IntentAnswer ρ :=
  if it.param1 0 = 0 ∨ it.param2 0 = 0 then some (.invalidParams, it, s)
  else (handleCopyFile k s it).bind fun (result, it, s) =>
    if result ≠ .success then some (result, it, s)
    else (cString it.param1).map fun src =>
      let (d, r) := k.vfsUnlink s.kernel src
      (errorOf d, it, { s with kernel := r })

/-- `while (len > 0 && g_cwd[len-1] != '/') len--`. -/
def backToSlash (cwd : Chars) : Nat → Nat
  | 0 => 0
  | len + 1 => if byteAt cwd len ≠ 47 then backToSlash cwd len else len + 1

/-- The parent of the current directory, in place. -/
def chdirParent (cwd : Chars) : Option Chars :=
  (cString cwd).bind fun path =>
    if 1 < path.length then
      if byteAt cwd (path.length - 1) = 47 then
        (storeByte cwd (path.length - 1) 0).bind fun cwd => cutAtSlash cwd (path.length - 1)
      else cutAtSlash cwd path.length
    else some cwd
where
  cutAtSlash (cwd : Chars) (len : Nat) : Option Chars :=
    let len := backToSlash cwd len
    if len = 0 then (storeByte cwd 0 47).bind fun cwd => storeByte cwd 1 0
    else storeByte cwd len 0

def handleChdir (s : IntentSys ρ) (it : Intent) : IntentAnswer ρ :=
  if it.param1 0 = 0 then
    if it.intParam1 = 1 then
      (chdirParent s.cwd).map fun cwd => (.success, it, { s with cwd := cwd })
    else if it.intParam1 = 2 then
      (strcpy256 s.cwd [47]).map fun cwd => (.success, it, { s with cwd := cwd })
    else some (.invalidParams, it, s)
  else if it.param1 0 ≠ 47 then some (.invalidParams, it, s)
  else (copyField s.cwd it.param1).map fun cwd => (.success, it, { s with cwd := cwd })

def handlePrintCwd (s : IntentSys ρ) (it : Intent) : IntentAnswer ρ :=
  (copyField it.param1 s.cwd).map fun param1 => (.success, { it with param1 := param1 }, s)

/-- The names that contain the pattern are counted into `int_param2`. -/
def handleSearch (k : KernelCalls ρ) (s : IntentSys ρ) (it : Intent) : IntentAnswer ρ :=
  if it.param1 0 = 0 then some (.invalidParams, it, s)
  else (cString it.param1).map fun pattern =>
    let count := ((k.vfsList s.kernel).filter fun name => decide (pattern <:+: name)).length
    (.success, { it with intParam2 := BitVec.ofNat 32 count }, s)

/-! ## Dispatching -/

/-- The `switch` of `apply_intent_to_graph`. -/
def handleIntent (k : KernelCalls ρ) (s : IntentSys ρ) (it : Intent) (node : Option GraphNode) :
    IntentAnswer ρ :=
  match intentType it.type.toNat with
  | some .createWindow => handleCreateWindow k s it
  | some .moveWindow => handleMoveWindow k s it node
  | some .clickNode => handleClickNode k s it node
  | some .setNodeText => handleSetNodeText k s it node
  | some .destroyWindow | some .destroyNode =>
    some (.success, it, { s with kernel := k.deleteNode s.kernel it.targetId })
  | some .fsCreateDir => handleCreateDir k s it
  | some .fsRemoveDir => handleRemoveDir k s it
  | some .fsCopyFile => handleCopyFile k s it
  | some .fsMoveFile => handleMoveFile k s it
  | some .fsChdir => handleChdir s it
  | some .fsPrintCwd => handlePrintCwd s it
  | some .fsSearch => handleSearch k s it
  | _ => some (.invalidIntent, it, s)

def applyIntentToGraph (k : KernelCalls ρ) (s : IntentSys ρ) (it : Intent) : IntentAnswer ρ :=
  if it.targetId = nodeIdInvalid then handleIntent k s it none
  else match k.getNode s.kernel it.targetId with
    | none => some (.nodeNotFound, it, s)
    | some node => handleIntent k s it (some node)

/-- What `audit_intent` shows of a parameter. -/
def auditParam (param : Chars) : Option (List UInt8) :=
  if param 0 = 0 then some [] else cString param

def auditIntent (it : Intent) : Option (List UInt8 × List UInt8) :=
  (auditParam it.param1).bind fun p1 => (auditParam it.param2).map fun p2 => (p1, p2)

def intentDispatch (k : KernelCalls ρ) (s : IntentSys ρ) (pad : Fin 15 → UInt8) (it : Intent) :
    Option (IntentError × IntentSys ρ) :=
  if validateUserIntent (s.dispatcher k) pad it = false then some (.invalidIntent, s)
  else if validateIntentAgainstSchema it ≠ .success then
    some (validateIntentAgainstSchema it, s)
  else if checkAcl s.acl it.sourceProcessId it.type.toNat = false then some (.unauthorized, s)
  else (applyIntentToGraph k s it).bind fun (result, it, s) =>
    (auditIntent it).map fun shown => (result, { s with audit := shown :: s.audit })

/-- The intent is a copy of the user's bytes, up to the process number. A null pointer is
    refused before. -/
def sysIntentDispatch (k : KernelCalls ρ) (s : IntentSys ρ) (pad : Fin 15 → UInt8) (it : Intent) :
    Option (IntentError × IntentSys ρ) :=
  intentDispatch k s pad { it with sourceProcessId := 1 }

/-- An intent from user space with its padding, or a call of a builder. -/
inductive IntentEvent where
  | dispatch (pad : Fin 15 → UInt8) (it : Intent)
  | build (time : RtcTime) (call : IntentCall)

def intentStep (k : KernelCalls ρ) (s : IntentSys ρ) : IntentEvent → Option (IntentSys ρ)
  | .dispatch pad it => (sysIntentDispatch k s pad it).map Prod.snd
  | .build time call => (call.build (s.dispatcher k) time).map fun r =>
    { s with nextSequence := r.2.nextSequence }

/-- The intent passes the three checks. -/
def Admitted (k : KernelCalls ρ) (s : IntentSys ρ) (pad : Fin 15 → UInt8) (it : Intent) : Prop :=
  validateUserIntent (s.dispatcher k) pad it = true ∧
    validateIntentAgainstSchema it = .success ∧ checkAcl s.acl it.sourceProcessId it.type.toNat = true

/-- The field has a NUL byte. -/
def Terminated (buf : Chars) : Prop := ∃ i, buf i = 0

/-- The parameters of an admitted intent are terminated, up to a first one that
    `handle_print_cwd` overwrites, and the strings for a builder have at most 255 bytes. -/
def IntentEvent.Fits (k : KernelCalls ρ) (s : IntentSys ρ) : IntentEvent → Prop
  | .dispatch pad it => Admitted k s pad { it with sourceProcessId := 1 } →
    (intentType it.type.toNat = some .fsPrintCwd ∨ Terminated it.param1) ∧ Terminated it.param2
  | .build _ call => ∀ str ∈ call.strings, str.length < 256

/-! ## Terminated fields -/

variable {buf : Chars} {pad : Fin 15 → UInt8}

theorem Terminated.cString (h : Terminated buf) :
    ∃ str, OpenSys.cString buf = some str ∧ str.length < 256 := by
  have hmem : 0 ∈ ofFn buf := mem_ofFn.mpr h
  refine ⟨_, if_pos hmem, ?_⟩
  have hlen : (ofFn buf).length = 256 := length_ofFn
  have hshort := (takeWhile_sublist (· != 0) (l := ofFn buf)).length_le
  rcases hshort.lt_or_eq with hlt | heq
  · omega
  · have hall := takeWhile_eq_self_iff.mp ((takeWhile_sublist (· != 0)).eq_of_length heq) 0 hmem
    simp at hall

theorem cString_isSome : (cString buf).isSome ↔ Terminated buf := by
  constructor
  · intro h
    by_cases hmem : 0 ∈ ofFn buf
    · exact mem_ofFn.mp hmem
    · rw [cString, if_neg hmem] at h
      cases h
  · intro h
    obtain ⟨str, hstr, -⟩ := h.cString
    rw [hstr]
    rfl

theorem strcpy256_isSome {str : List UInt8} : (strcpy256 buf str).isSome ↔ str.length < 256 := by
  unfold strcpy256
  split <;> simp_all

theorem strcpy256_terminated (dst : Chars) {str : List UInt8} (h : str.length < 256) :
    ∃ buf, strcpy256 dst str = some buf ∧ Terminated buf :=
  ⟨_, if_pos h, ⟨str.length, h⟩, by simp⟩

protected theorem Terminated.copyField {src : Chars} (h : Terminated src) (dst : Chars) :
    ∃ buf, copyField dst src = some buf ∧ Terminated buf := by
  obtain ⟨str, hstr, hlen⟩ := h.cString
  rw [copyField, hstr]
  exact strcpy256_terminated dst hlen

theorem storeByte_zero (buf : Chars) {i : Nat} (hi : i < 256) :
    ∃ buf', storeByte buf i 0 = some buf' ∧ Terminated buf' :=
  ⟨_, if_pos hi, ⟨i, hi⟩, if_pos rfl⟩

theorem backToSlash_le (cwd : Chars) (len : Nat) : backToSlash cwd len ≤ len := by
  induction len with
  | zero => exact le_rfl
  | succ len ih =>
    unfold backToSlash
    split
    · exact ih.trans (Nat.le_succ len)
    · exact le_rfl

theorem cutAtSlash_terminated (cwd : Chars) {len : Nat} (hlen : len < 256) :
    ∃ cwd', chdirParent.cutAtSlash cwd len = some cwd' ∧ Terminated cwd' := by
  unfold chdirParent.cutAtSlash
  dsimp only
  split
  · exact storeByte_zero _ (by decide)
  · exact storeByte_zero cwd ((backToSlash_le cwd len).trans_lt hlen)

protected theorem Terminated.chdirParent {cwd : Chars} (h : Terminated cwd) :
    ∃ cwd', chdirParent cwd = some cwd' ∧ Terminated cwd' := by
  obtain ⟨path, hpath, hlen⟩ := h.cString
  rw [chdirParent, hpath, bind_some]
  split
  · split
    · obtain ⟨cut, hcut, -⟩ := storeByte_zero cwd (show path.length - 1 < 256 by omega)
      rw [hcut, bind_some]
      exact cutAtSlash_terminated cut (by omega)
    · exact cutAtSlash_terminated cwd hlen
  · exact ⟨cwd, rfl, h⟩

theorem auditParam_isSome {param : Chars} : (auditParam param).isSome ↔ Terminated param := by
  unfold auditParam
  split
  · next hzero => exact ⟨fun _ => ⟨0, hzero⟩, fun _ => rfl⟩
  · exact cString_isSome

theorem auditIntent_isSome {it : Intent} :
    (auditIntent it).isSome ↔ Terminated it.param1 ∧ Terminated it.param2 := by
  rw [← auditParam_isSome, ← auditParam_isSome, auditIntent]
  cases auditParam it.param1 with
  | none => simp
  | some p1 => simp

/-! ## Handlers -/

variable {k : KernelCalls ρ} {s : IntentSys ρ} {it : Intent}

/-- A handler leaves the parameters of the intent alone. -/
def KeepsParams (it : Intent) (r : IntentAnswer ρ) : Prop :=
  ∀ h ∈ r, h.2.1.param1 = it.param1 ∧ h.2.1.param2 = it.param2

/-- A handler returns, with a terminated current directory. -/
def Returns (r : IntentAnswer ρ) : Prop := ∃ h, r = some h ∧ Terminated h.2.2.cwd

theorem keepsParams_some {e : IntentError} : KeepsParams it (some (e, it, s)) := by
  rintro h ⟨⟩
  exact ⟨rfl, rfl⟩

theorem keepsParams_map {α : Type*} {x : Option α} {f : α → IntentError × Intent × IntentSys ρ}
    (hf : ∀ a, (f a).2.1.param1 = it.param1 ∧ (f a).2.1.param2 = it.param2) :
    KeepsParams it (x.map f) := by
  intro h hh
  obtain ⟨a, -, rfl⟩ := map_eq_some_iff.mp hh
  exact hf a

theorem keepsParams_bind {α : Type*} {x : Option α} {f : α → IntentAnswer ρ}
    (hf : ∀ a ∈ x, KeepsParams it (f a)) : KeepsParams it (x.bind f) := by
  intro h hh
  obtain ⟨a, ha, hh⟩ := bind_eq_some_iff.mp hh
  exact hf a ha h hh

theorem handlePath_keeps (call : ρ → List UInt8 → Int × ρ) : KeepsParams it (handlePath call s it) := by
  unfold handlePath
  split
  · exact keepsParams_some
  · exact keepsParams_map fun _ => ⟨rfl, rfl⟩

theorem handleCopyFile_keeps : KeepsParams it (handleCopyFile k s it) := by
  unfold handleCopyFile
  split
  · exact keepsParams_some
  refine keepsParams_bind fun src _ => ?_
  dsimp only
  split
  · exact keepsParams_some
  · refine keepsParams_map fun dst => ?_
    split <;> exact ⟨rfl, rfl⟩

theorem handleMoveFile_keeps : KeepsParams it (handleMoveFile k s it) := by
  unfold handleMoveFile
  split
  · exact keepsParams_some
  refine keepsParams_bind fun copied hcopied => ?_
  obtain ⟨result, it', s'⟩ := copied
  have hkeeps := handleCopyFile_keeps _ hcopied
  dsimp only at hkeeps ⊢
  split
  · rintro h ⟨⟩
    exact hkeeps
  · exact keepsParams_map fun _ => hkeeps

theorem handleChdir_keeps : KeepsParams it (handleChdir s it) := by
  unfold handleChdir
  split_ifs
  · exact keepsParams_map fun _ => ⟨rfl, rfl⟩
  · exact keepsParams_map fun _ => ⟨rfl, rfl⟩
  · exact keepsParams_some
  · exact keepsParams_some
  · exact keepsParams_map fun _ => ⟨rfl, rfl⟩

/-- The parameters after the handler: only `handle_print_cwd` changes one, the first. -/
def ParamsAfter (it : Intent) (r : IntentAnswer ρ) : Prop :=
  ∀ h ∈ r, (intentType it.type.toNat = some .fsPrintCwd ∨ h.2.1.param1 = it.param1) ∧
    h.2.1.param2 = it.param2

theorem KeepsParams.after {r : IntentAnswer ρ} (hr : KeepsParams it r) : ParamsAfter it r :=
  fun h hh => ⟨.inr (hr h hh).1, (hr h hh).2⟩

theorem handleIntent_params (node : Option GraphNode) : ParamsAfter it (handleIntent k s it node) := by
  by_cases htype : intentType it.type.toNat = some .fsPrintCwd
  · rw [handleIntent, htype]
    intro h hh
    obtain ⟨param1, -, rfl⟩ := map_eq_some_iff.mp hh
    exact ⟨.inl htype, rfl⟩
  refine KeepsParams.after ?_
  unfold handleIntent
  split
  · unfold handleCreateWindow
    dsimp only
    split
    · exact keepsParams_map fun _ => ⟨rfl, rfl⟩
    · exact keepsParams_some
  · unfold handleMoveWindow
    split
    · split <;> exact keepsParams_some
    · exact keepsParams_some
  · unfold handleClickNode
    split <;> exact keepsParams_some
  · unfold handleSetNodeText
    split
    · exact keepsParams_map fun _ => ⟨rfl, rfl⟩
    · exact keepsParams_some
  · exact keepsParams_some
  · exact keepsParams_some
  · exact handlePath_keeps _
  · exact handlePath_keeps _
  · exact handleCopyFile_keeps
  · exact handleMoveFile_keeps
  · exact handleChdir_keeps
  · next heq => exact absurd heq htype
  · unfold handleSearch
    split
    · exact keepsParams_some
    · exact keepsParams_map fun _ => ⟨rfl, rfl⟩
  · exact keepsParams_some

theorem applyIntentToGraph_params : ParamsAfter it (applyIntentToGraph k s it) := by
  unfold applyIntentToGraph
  split
  · exact handleIntent_params none
  · split
    · exact keepsParams_some.after
    · exact handleIntent_params _

theorem Terminated.setText {text : Chars} (h : Terminated text) (r : ρ) (id : BitVec 64) :
    ∃ r', stateGraphSetText k r id text = some r' := by
  unfold stateGraphSetText
  split
  · exact ⟨r, rfl⟩
  · next node _ =>
    obtain ⟨buf, hbuf, -⟩ := h.copyField node.text
    exact ⟨_, by rw [hbuf]; rfl⟩

theorem handlePath_returns (call : ρ → List UInt8 → Int × ρ) (hcwd : Terminated s.cwd)
    (h1 : Terminated it.param1) : Returns (handlePath call s it) := by
  obtain ⟨path, hpath, -⟩ := h1.cString
  unfold handlePath
  split
  · exact ⟨_, rfl, hcwd⟩
  · rw [hpath]
    exact ⟨_, rfl, hcwd⟩

theorem handleCopyFile_returns (hcwd : Terminated s.cwd) (h1 : Terminated it.param1)
    (h2 : Terminated it.param2) : Returns (handleCopyFile k s it) := by
  obtain ⟨src, hsrc, -⟩ := h1.cString
  obtain ⟨dst, hdst, -⟩ := h2.cString
  unfold handleCopyFile
  split
  · exact ⟨_, rfl, hcwd⟩
  rw [hsrc, bind_some]
  dsimp only
  split
  · exact ⟨_, rfl, hcwd⟩
  rw [hdst, map_some]
  split
  · exact ⟨_, rfl, hcwd⟩
  · exact ⟨_, rfl, hcwd⟩

theorem handleMoveFile_returns (hcwd : Terminated s.cwd) (h1 : Terminated it.param1)
    (h2 : Terminated it.param2) : Returns (handleMoveFile k s it) := by
  unfold handleMoveFile
  split
  · exact ⟨_, rfl, hcwd⟩
  obtain ⟨⟨result, it', s'⟩, hcopied, hcwd'⟩ := handleCopyFile_returns (k := k) hcwd h1 h2
  have hkept := (handleCopyFile_keeps _ hcopied).1
  rw [hcopied, bind_some]
  dsimp only at hkept ⊢
  split
  · exact ⟨_, rfl, hcwd'⟩
  · obtain ⟨src, hsrc, -⟩ := h1.cString
    rw [hkept, hsrc]
    exact ⟨_, rfl, hcwd'⟩

theorem handleChdir_returns (hcwd : Terminated s.cwd) (h1 : Terminated it.param1) :
    Returns (handleChdir s it) := by
  unfold handleChdir
  split_ifs
  · obtain ⟨cwd, heq, hcwd'⟩ := hcwd.chdirParent
    exact ⟨_, by rw [heq]; rfl, hcwd'⟩
  · obtain ⟨cwd, heq, hcwd'⟩ :=
      strcpy256_terminated s.cwd (show ([47] : List UInt8).length < 256 by decide)
    exact ⟨_, by rw [heq]; rfl, hcwd'⟩
  · exact ⟨_, rfl, hcwd⟩
  · exact ⟨_, rfl, hcwd⟩
  · obtain ⟨cwd, heq, hcwd'⟩ := h1.copyField s.cwd
    exact ⟨_, by rw [heq]; rfl, hcwd'⟩

/-- With terminated parameters every handler returns. -/
theorem handleIntent_returns (node : Option GraphNode) (hcwd : Terminated s.cwd)
    (h1 : intentType it.type.toNat = some .fsPrintCwd ∨ Terminated it.param1)
    (h2 : Terminated it.param2) : Returns (handleIntent k s it node) := by
  by_cases htype : intentType it.type.toNat = some .fsPrintCwd
  · obtain ⟨param1, heq, -⟩ := hcwd.copyField it.param1
    rw [handleIntent, htype]
    exact ⟨_, by rw [handlePrintCwd, heq]; rfl, hcwd⟩
  replace h1 := h1.resolve_left htype
  unfold handleIntent
  split
  · unfold handleCreateWindow
    dsimp only
    split
    · obtain ⟨r, hr⟩ := h1.setText (k := k) (k.createNode s.kernel nodeTypeWindow it.targetId).2
        (k.createNode s.kernel nodeTypeWindow it.targetId).1
      rw [hr]
      exact ⟨_, rfl, hcwd⟩
    · exact ⟨_, rfl, hcwd⟩
  · unfold handleMoveWindow
    split
    · split <;> exact ⟨_, rfl, hcwd⟩
    · exact ⟨_, rfl, hcwd⟩
  · unfold handleClickNode
    split <;> exact ⟨_, rfl, hcwd⟩
  · unfold handleSetNodeText
    split
    · obtain ⟨r, hr⟩ := h1.setText (k := k) s.kernel it.targetId
      rw [hr]
      exact ⟨_, rfl, hcwd⟩
    · exact ⟨_, rfl, hcwd⟩
  · exact ⟨_, rfl, hcwd⟩
  · exact ⟨_, rfl, hcwd⟩
  · exact handlePath_returns _ hcwd h1
  · exact handlePath_returns _ hcwd h1
  · exact handleCopyFile_returns hcwd h1 h2
  · exact handleMoveFile_returns hcwd h1 h2
  · exact handleChdir_returns hcwd h1
  · next heq => exact absurd heq htype
  · obtain ⟨pattern, hpattern, -⟩ := h1.cString
    unfold handleSearch
    split
    · exact ⟨_, rfl, hcwd⟩
    · rw [hpattern]
      exact ⟨_, rfl, hcwd⟩
  · exact ⟨_, rfl, hcwd⟩

theorem applyIntentToGraph_returns (hcwd : Terminated s.cwd)
    (h1 : intentType it.type.toNat = some .fsPrintCwd ∨ Terminated it.param1)
    (h2 : Terminated it.param2) : Returns (applyIntentToGraph k s it) := by
  unfold applyIntentToGraph
  split
  · exact handleIntent_returns none hcwd h1 h2
  · split
    · exact ⟨_, rfl, hcwd⟩
    · exact handleIntent_returns _ hcwd h1 h2

theorem Admitted.hasTarget (h : Admitted k s pad it) (htarget : it.targetId ≠ nodeIdInvalid) :
    (k.getNode s.kernel it.targetId).isSome := by
  have hvalid := h.1
  unfold validateUserIntent at hvalid
  split_ifs at hvalid
  exact hvalid

theorem handlePrintCwd_terminated {node : Option GraphNode}
    (htype : intentType it.type.toNat = some .fsPrintCwd)
    {h : IntentError × Intent × IntentSys ρ} (hh : handleIntent k s it node = some h) :
    Terminated h.2.1.param1 := by
  rw [handleIntent, htype] at hh
  obtain ⟨param1, hcopy, rfl⟩ := map_eq_some_iff.mp hh
  obtain ⟨str, -, hstr⟩ := bind_eq_some_iff.mp hcopy
  obtain ⟨buf, hbuf, hterm⟩ :=
    strcpy256_terminated it.param1 (strcpy256_isSome.mp (isSome_of_eq_some hstr))
  cases hbuf.symm.trans hstr
  exact hterm

/-- An admitted intent for `handle_print_cwd` has a terminated first parameter afterwards. -/
theorem applyIntentToGraph_printCwd (hadm : Admitted k s pad it)
    (htype : intentType it.type.toNat = some .fsPrintCwd) {h : IntentError × Intent × IntentSys ρ}
    (happly : applyIntentToGraph k s it = some h) :
    Terminated h.2.1.param1 := by
  unfold applyIntentToGraph at happly
  split at happly
  · exact handlePrintCwd_terminated htype happly
  next htarget =>
  split at happly
  · next hnone =>
    have hsome := hadm.hasTarget htarget
    rw [hnone] at hsome
    cases hsome
  · exact handlePrintCwd_terminated htype happly

/-! ## Runs -/

theorem intentDispatch_admitted (h : Admitted k s pad it) :
    intentDispatch k s pad it = (applyIntentToGraph k s it).bind fun (result, it, s) =>
      (auditIntent it).map fun shown => (result, { s with audit := shown :: s.audit }) := by
  obtain ⟨hvalid, hschema, hacl⟩ := h
  rw [intentDispatch, if_neg (by simp [hvalid]), if_neg (by simp [hschema]), if_neg (by simp [hacl])]

theorem intentDispatch_refused (h : ¬ Admitted k s pad it) :
    ∃ e, intentDispatch k s pad it = some (e, s) := by
  unfold intentDispatch
  split_ifs with hvalid hschema hacl
  · exact ⟨_, rfl⟩
  · exact ⟨_, rfl⟩
  · exact ⟨_, rfl⟩
  · exact absurd ⟨by simpa using hvalid, not_not.mp hschema, by simpa using hacl⟩ h

theorem fsIntentBuild_isSome {d : Dispatcher} {time : RtcTime} {type ip1 : BitVec 32}
    {p1 p2 : Option (List UInt8)} : (fsIntentBuild d time type p1 p2 ip1).isSome ↔
      (∀ p ∈ p1, p.length < 256) ∧ ∀ p ∈ p2, p.length < 256 := by
  have hcopy : ∀ p : Option (List UInt8), (copyParam p).isSome ↔ ∀ q ∈ p, q.length < 256 := by
    intro p
    cases p with
    | none => simp [copyParam]
    | some q => simp [copyParam, strcpy256_isSome]
  rw [← hcopy, ← hcopy, fsIntentBuild]
  cases copyParam p1 with
  | none => simp
  | some param1 => simp

/-- A builder returns exactly when its strings fit. -/
theorem IntentCall.build_isSome {d : Dispatcher} {time : RtcTime} (call : IntentCall) :
    (call.build d time).isSome ↔ ∀ str ∈ call.strings, str.length < 256 := by
  cases call with
  | createWindow parentId str =>
    simp [build, strings, intentCreateWindow, strcpy256_isSome]
  | setNodeText nodeId str =>
    simp [build, strings, intentSetNodeText, strcpy256_isSome]
  | moveWindow windowId x y => simp [build, strings, intentMoveWindow]
  | clickNode nodeId => simp [build, strings, intentClickNode]
  | fsCreateDir str | fsRemoveDir str | fsChdir str | fsSearch str =>
    refine fsIntentBuild_isSome.trans ?_
    simp [strings]
  | fsCopyFile src dst | fsMoveFile src dst =>
    refine fsIntentBuild_isSome.trans ?_
    simp [strings]
  | fsChdirParent | fsChdirHome | fsPrintCwd =>
    constructor
    · intro _ str hstr
      cases hstr
    · intro _
      rfl

theorem intentStep_fits {e : IntentEvent} (hcwd : Terminated s.cwd) (hfits : e.Fits k s) :
    ∃ s', intentStep k s e = some s' ∧ Terminated s'.cwd := by
  cases e with
  | dispatch pad it =>
    rw [intentStep, sysIntentDispatch]
    by_cases hadm : Admitted k s pad { it with sourceProcessId := 1 }
    · obtain ⟨h1, h2⟩ := hfits hadm
      obtain ⟨h, happly, hcwd'⟩ :
          Returns (applyIntentToGraph k s { it with sourceProcessId := 1 }) :=
        applyIntentToGraph_returns hcwd h1 h2
      obtain ⟨hkept, h2'⟩ := applyIntentToGraph_params h happly
      have h1' : Terminated h.2.1.param1 := by
        by_cases htype : intentType it.type.toNat = some .fsPrintCwd
        · exact applyIntentToGraph_printCwd hadm htype happly
        · rw [hkept.resolve_left htype]
          exact h1.resolve_left htype
      obtain ⟨shown, hshown⟩ := isSome_iff_exists.mp
        (auditIntent_isSome.mpr ⟨h1', by rw [h2']; exact h2⟩)
      obtain ⟨result, it', s'⟩ := h
      refine ⟨{ s' with audit := shown :: s'.audit }, ?_, hcwd'⟩
      rw [intentDispatch_admitted hadm, happly, bind_some]
      dsimp only at hshown ⊢
      rw [hshown]
      rfl
    · obtain ⟨e, heq⟩ := intentDispatch_refused hadm
      exact ⟨s, by rw [heq]; rfl, hcwd⟩
  | build time call =>
    obtain ⟨r, hr⟩ := isSome_iff_exists.mp (call.build_isSome.mpr hfits)
    exact ⟨{ s with nextSequence := r.2.nextSequence }, by rw [intentStep, hr]; rfl, hcwd⟩

theorem intentStep_overrun {e : IntentEvent} (hfits : ¬ e.Fits k s) : intentStep k s e = none := by
  cases e with
  | dispatch pad it =>
    obtain ⟨hadm, hbad⟩ := Classical.not_imp.mp hfits
    rw [intentStep, sysIntentDispatch, intentDispatch_admitted hadm]
    cases happly : applyIntentToGraph k s { it with sourceProcessId := 1 } with
    | none => rfl
    | some h =>
      obtain ⟨hkept, h2⟩ := applyIntentToGraph_params h happly
      have hnone : auditIntent h.2.1 = none := by
        rw [← not_isSome_iff_eq_none, auditIntent_isSome, h2]
        rintro ⟨h1, h2⟩
        refine hbad ⟨hkept.imp_right fun heq => ?_, h2⟩
        rwa [heq] at h1
      obtain ⟨result, it', s'⟩ := h
      rw [bind_some]
      dsimp only at hnone ⊢
      rw [hnone]
      rfl
  | build time call =>
    rw [intentStep, not_isSome_iff_eq_none.mp fun h => hfits (call.build_isSome.mp h)]
    rfl

/-- No string leaves its field in a run, exactly when the parameters of every admitted intent
    are terminated and every string for a builder fits. -/
theorem intents_in_bounds_iff (k : KernelCalls ρ) (s : IntentSys ρ) (hcwd : Terminated s.cwd)
    (events : List IntentEvent) : Always (intentStep k) (fun _ => True) s events ↔
      AllOk (intentStep k) (fun s e => e.Fits k s) s events :=
  always_iff_allOk (fun _ _ => trivial) (fun _ _ h hfits => intentStep_fits h hfits)
    (fun _ _ _ hbad s' hs' => by rw [intentStep_overrun hbad] at hs'; cases hs') hcwd

end Dispatch

/-- A kernel without nodes and files, with the access list of `intent_dispatcher_init`. -/
def bareKernel : KernelCalls Unit where
  getNode _ _ := none
  setNode _ _ _ := ()
  createNode _ _ _ := (0, ())
  deleteNode _ _ := ()
  vfsMkdir _ _ := (-1, ())
  vfsUnlink _ _ := (-1, ())
  vfsOpen _ _ _ := (-1, ())
  vfsClose _ _ := ()
  copyData _ _ _ := (false, ())
  vfsList _ := []

def bareSys : IntentSys Unit where
  nextSequence := 1
  acl := [(2, 0x0000FFFF), (1, 0x0000FFFF), (0, 0xFFFFFFFF)]
  cwd i := if i.val = 0 then 47 else 0
  audit := []
  kernel := ()

/-- A `chdir` intent to `/`, with a checksum that counts its own bytes. -/
def chdirRoot : Intent :=
  { Intent.zero with
    type := 705, param1 := fun i => if i.val = 0 then 47 else 0, timestamp := 12, checksum := 256 }

theorem intents_in_bounds_chdir : Always (intentStep bareKernel) (fun _ => True) bareSys
    [.build ⟨0, 0, 0⟩ (.fsChdir [47]), .dispatch (fun _ => 0) chdirRoot] :=
  (intents_in_bounds_iff bareKernel bareSys ⟨1, rfl⟩ _).mpr
    ⟨by simp [IntentEvent.Fits, strings],
      fun _ _ => ⟨fun _ => ⟨.inr ⟨1, rfl⟩, 0, rfl⟩, fun _ _ => trivial⟩⟩

/-- A `chdir` intent to a path of 256 bytes. -/
def chdirLong : Intent :=
  { Intent.zero with
    type := 705, param1 := fun i => if i.val = 0 then 47 else 65, timestamp := 12, checksum := 16896 }

/-- It is admitted, and the copy into `g_cwd` runs over its end. -/
theorem chdir_overruns : ¬ Always (intentStep bareKernel) (fun _ => True) bareSys
    [.dispatch (fun _ => 0) chdirLong] := by
  rintro ⟨-, s', hs', -⟩
  have hnone : (intentStep bareKernel bareSys (.dispatch (fun _ => 0) chdirLong)).isNone := by
    decide +kernel
  rw [hs'] at hnone
  cases hnone

end OpenSys
