-- SUMMARY: Redirection of the shell: what a redirected command writes.
import OpenSys.Ui.HostFs
import OpenSys.Ui.Shell
import OpenSys.Vfs.Io

/-!
# Redirection

`c > f` runs `c` with its output captured and writes the captured text to `f`. The command part
runs with a capacity of eight bytes, the size of a pointer, so arguments that reach beyond it are
refused. The target is opened without being truncated, so an empty output leaves it as it is. A
virtual file does with the text what it wants, behind `>` and behind `>>` alike.
-/

namespace OpenSys

open List

/-! ## The state -/

/-- `ns_arg_error` -/
def nsArgError : NsFs → List UInt8
  | .eParse => cstr "  Error: invalid namespace path syntax\n"
  | .eUnknown => cstr "  Error: unknown namespace resource\n"
  | .eVolume => cstr "  Error: storage volume not mounted\n"
  | _ => cstr "  Error: resource has no filesystem\n"

/-- The filesystem, the name in `hostname_buf` and the rest of the machine. -/
structure ShellState (σ : Type) where
  fs : HostFs
  hostname : List UInt8
  rest : σ

/-- The commands behind `dispatch`: what each prints and does. -/
abbrev Handler (σ : Type) := NlCommand → ShellState σ → List UInt8 × ShellState σ

/-! ## Virtual files -/

/-- The virtual files that take data. -/
inductive VfileRw where
  | hostname
  | null
  | zero
  | console

/-- `vfile_init`: the registered paths. Directories and files without a write function take no
data. -/
def vfileEntries : List (List UInt8 × Option VfileRw) :=
  [(cstr "/", none), (cstr "/0", none), (cstr "/0/system", none),
    (cstr "/0/system/kernel", none), (cstr "/0/system/runtime", none),
    (cstr "/0/system/self", none), (cstr "/0/system/self/fd", none), (cstr "/0/hardware", none),
    (cstr "/0/hardware/memory", none), (cstr "/0/dev", none), (cstr "/0/system/processes", none),
    (cstr "/0/system/time", none), (cstr "/0/system/version", none),
    (cstr "/0/system/timer", none), (cstr "/0/system/stat", none),
    (cstr "/0/system/interrupts", none), (cstr "/0/system/mounts", none),
    (cstr "/0/system/heap", none), (cstr "/0/system/hostname", some .hostname),
    (cstr "/0/system/kernel/name", none), (cstr "/0/system/kernel/version", none),
    (cstr "/0/system/kernel/arch", none), (cstr "/0/system/runtime/uptime", none),
    (cstr "/0/system/self/pid", none), (cstr "/0/system/self/name", none),
    (cstr "/0/system/self/status", none), (cstr "/0/system/self/fdinfo", none),
    (cstr "/0/hardware/memory/ram", none), (cstr "/0/hardware/memory/info", none),
    (cstr "/0/hardware/cpu", none), (cstr "/0/hardware/cpu-id", none),
    (cstr "/0/hardware/platform", none), (cstr "/0/hardware/pci", none),
    (cstr "/0/dev/null", some .null), (cstr "/0/dev/zero", some .zero),
    (cstr "/0/dev/console", some .console)]

/-- What `vfile_is_virtual` and `vfile_is_writable` find for a path. -/
def vfileEntry (path : List UInt8) : Option (Option VfileRw) := vfileEntries.lookup path

def newline : UInt8 := 10

/-- The bytes that `write_hostname` takes over: without the line ends behind them, and at most
as many as the buffer of 64 bytes holds. -/
def hostnameBytes (data : List UInt8) : List UInt8 :=
  (data.rdropWhile fun b => b == newline || b == 13).take 63

/-- The string in `hostname_buf` behind them. -/
def hostnameOf (data : List UInt8) : List UInt8 := (hostnameBytes data).takeWhile (· != 0)

/-- `vfile_write`: the result, what is printed, and the state. -/
def VfileRw.write {σ : Type} (v : VfileRw) (data : List UInt8) (s : ShellState σ) :
    Nat × List UInt8 × ShellState σ :=
  match v with
  | .hostname => ((hostnameBytes data).length, [], { s with hostname := hostnameOf data })
  | .null | .zero => (data.length, [], s)
  | .console => (data.length, data, s)

/-- `vfile_read` on the files that take data. Every reader has a buffer of `VFILE_MAX_CONTENT`
bytes. -/
def VfileRw.read (hostname : List UInt8) : VfileRw → List UInt8
  | .hostname => hostname ++ [newline]
  | .null => []
  | .zero => replicate (vfileMaxContent - 1) 0
  | .console => cstr "Plan 0 console\n" ++ cstr "Write to this file to display text.\n"

/-! ## The command with its output -/

section Command

variable {σ : Type}

/-- What an outcome prints and does. -/
def respond (h : Handler σ) (o : Outcome) (s : ShellState σ) : List UInt8 × ShellState σ :=
  match o with
  | .nothing => ([], s)
  | .argError e => (nsArgError e, s)
  | .handed c => h c s

/-- The size of the capture buffer. `vga_putchar` keeps a byte for the terminator. -/
def captureSize : Nat := 8192

/-- The report behind a redirection. -/
def redirectReport (written : Nat) (target : List UInt8) : List UInt8 :=
  cstr "  Redirected " ++ cstr (toString written) ++ cstr " bytes to " ++ target ++ cstr "\n"

/-- The end of a redirection: the captured text goes to the target. -/
def redirectTo (r : Redirect) (captured : List UInt8) (s : ShellState σ) :
    List UInt8 × ShellState σ :=
  match resolvePath r.target with
  | none => (cstr "  Error: path too long\n", s)
  | some path =>
    match vfileEntry path with
    | some none => (cstr "  Error: virtual target is read-only\n", s)
    | some (some v) =>
      match v.write captured s with
      | (n, printed, s) => (printed ++ redirectReport n r.target, s)
    | none =>
      match s.fs.openWrite path with
      | (false, fs) => (cstr "  Error: could not open target for writing\n", { s with fs := fs })
      | (true, fs) =>
        -- mode 2 starts at the end of the file, mode 1 at its front
        let pos := if r.append then (fs.content path).length else 0
        match fs.write path pos captured with
        | (n, fs) => (redirectReport n r.target, { s with fs := fs })

/-- `process_command` with what it prints. -/
def shellCommand (env : NsEnv) (h : Handler σ) (line behind : List UInt8)
    (cap : Nat) (s : ShellState σ) : List UInt8 × ShellState σ :=
  let result := respond h (processCommand env line behind cap).1 s
  match redirectOf (kTrim line) with
  | none => result
  | some r =>
    if r.target = [] then (cstr "  Error: redirection needs a target file\n", s)
    else redirectTo r (result.1.take (captureSize - 1)) result.2

end Command

/-! ## Lines with a redirection -/

/-- What stands behind the first `>`. -/
def behindMark (append : Bool) (f : List UInt8) : List UInt8 :=
  (if append then [redirChar] else []) ++ blank :: f

/-- `c > f`, or `c >> f`. -/
def withTarget (c : List UInt8) (append : Bool) (f : List UInt8) : List UInt8 :=
  c ++ blank :: redirChar :: behindMark append f

/-- A target: a trimmed name. -/
structure TargetOk (f : List UInt8) : Prop where
  ne : f ≠ []
  trimmed : kTrim f = f

section Lines

variable {c f s : List UInt8} {append : Bool}

theorem redirectFrom_eq_none {prev : UInt8} (h : redirChar ∉ s) : redirectFrom prev s = none := by
  induction s generalizing prev with
  | nil => rfl
  | cons b s ih =>
    rw [mem_cons, not_or] at h
    rw [redirectFrom, if_neg fun hb => h.1 hb.1.symm, ih h.2]
    rfl

theorem redirectFrom_blank {prev : UInt8} {rest : List UInt8} (h : redirChar ∉ s) :
    redirectFrom prev (s ++ blank :: redirChar :: rest) = some (s.length + 1) := by
  induction s generalizing prev with
  | nil =>
    have hne : ¬(blank = redirChar ∧ prev = blank) := fun h => absurd h.1 (by decide)
    rw [nil_append, redirectFrom, if_neg hne, redirectFrom, if_pos ⟨rfl, rfl⟩]
    rfl
  | cons b s ih =>
    rw [mem_cons, not_or] at h
    rw [cons_append, redirectFrom, if_neg fun hb => h.1 hb.1.symm, ih h.2]
    rfl

theorem TargetOk.last (hf : TargetOk f) : ∃ g b, f = g ++ [b] ∧ (b == blank) = false := by
  obtain ⟨g, b, rfl⟩ : ∃ g b, f = g ++ [b] := by
    rcases eq_nil_or_concat f with h | ⟨g, b, h⟩
    · exact absurd h hf.ne
    · exact ⟨g, b, by rw [h, concat_eq_append]⟩
  refine ⟨g, b, rfl, ?_⟩
  by_contra hb
  rw [Bool.not_eq_false] at hb
  -- the trimmed name would be shorter
  have hlen := congrArg List.length hf.trimmed
  have hle := length_kTrim_le (g ++ [b])
  have hdrop : (kTrim (g ++ [b])).length ≤ g.length := by
    rw [kTrim, dropWhile_append]
    split
    · rw [dropWhile_cons, if_pos hb]
      simp
    · rw [rdropWhile_concat_pos (· == blank) _ _ hb]
      exact Nat.le_trans (List.rdropWhile_prefix _ _).length_le
        (dropWhile_sublist _).length_le
  rw [length_append, length_singleton] at hlen
  omega

theorem kTrim_blank_cons (f : List UInt8) : kTrim (blank :: f) = kTrim f := by
  rw [kTrim, dropWhile_cons, if_pos (by simp), ← kTrim]

theorem kTrim_eq_nil (h : c.dropWhile (· == blank) = []) : kTrim c = [] := by
  rw [kTrim, h, rdropWhile_nil]

/-- Behind a target nothing is trimmed. -/
theorem rdropWhile_behindMark (hf : TargetOk f) (x : List UInt8) :
    (x ++ behindMark append f).rdropWhile (· == blank) = x ++ behindMark append f := by
  obtain ⟨g, b, rfl, hb⟩ := hf.last
  have hsplit : x ++ behindMark append (g ++ [b]) =
      (x ++ ((if append then [redirChar] else []) ++ blank :: g)) ++ [b] := by
    simp [behindMark]
  rw [hsplit, rdropWhile_concat, if_neg (by simpa using hb)]

theorem behindMark_spec (hf : TargetOk f) :
    ((behindMark append f).head? == some redirChar) = append ∧
      kTrim ((behindMark append f).dropWhile (· == redirChar)) = f := by
  have hne : (blank == redirChar) = false := by decide
  unfold behindMark
  cases append with
  | false => exact ⟨by simp [hne], by simp [hne, kTrim_blank_cons, hf.trimmed]⟩
  | true => exact ⟨by simp, by simp [hne, kTrim_blank_cons, hf.trimmed]⟩

/-- A line with a redirection, trimmed. -/
theorem kTrim_withTarget (hf : TargetOk f) : kTrim (withTarget c append f) =
    if c.dropWhile (· == blank) = [] then redirChar :: behindMark append f
    else c.dropWhile (· == blank) ++ blank :: redirChar :: behindMark append f := by
  have hne : (redirChar == blank) = false := by decide
  rw [kTrim, withTarget, dropWhile_append]
  by_cases hnil : c.dropWhile (· == blank) = []
  · rw [if_pos hnil, if_pos (by simp [hnil]), dropWhile_cons, if_pos (by simp),
      dropWhile_cons, if_neg (by simp [hne])]
    exact rdropWhile_behindMark hf [redirChar]
  · rw [if_neg hnil, if_neg (by simpa using hnil)]
    have hmark := @rdropWhile_behindMark f append hf
      (c.dropWhile (· == blank) ++ [blank, redirChar])
    simpa using hmark

/-- The redirection of such a line is found, with the command part and the target. -/
theorem redirectOf_withTarget (hc : redirChar ∉ c) (hf : TargetOk f) :
    ∃ r, redirectOf (kTrim (withTarget c append f)) = some r ∧ kTrim r.command = kTrim c ∧
      r.append = append ∧ r.target = f := by
  have hc' : redirChar ∉ c.dropWhile (· == blank) := fun h => hc (dropWhile_subset _ h)
  obtain ⟨hhead, htarget⟩ := @behindMark_spec f append hf
  rw [kTrim_withTarget hf, redirectOf]
  generalize behindMark append f = mark at hhead htarget ⊢
  by_cases hnil : c.dropWhile (· == blank) = []
  · have hzero : redirectFrom blank (redirChar :: mark) = some 0 := by
      rw [redirectFrom, if_pos ⟨rfl, rfl⟩]
    rw [if_pos hnil, hzero]
    exact ⟨_, rfl, by rw [kTrim_eq_nil hnil]; rfl, hhead, htarget⟩
  rw [if_neg hnil, redirectFrom_blank hc']
  have hdrop : (c.dropWhile (· == blank) ++ blank :: redirChar :: mark).drop
      ((c.dropWhile (· == blank)).length + 1 + 1) = mark := by
    rw [Nat.add_assoc, drop_length_add_append]
    rfl
  refine ⟨_, rfl, ?_, by dsimp only; rw [hdrop]; exact hhead,
    by dsimp only; rw [hdrop]; exact htarget⟩
  have htake : (c.dropWhile (· == blank) ++ blank :: redirChar :: mark).take
      ((c.dropWhile (· == blank)).length + 1) = c.dropWhile (· == blank) ++ [blank] := by
    rw [take_length_add_append]
    rfl
  have hidem := dropWhile_idempotent (· == blank) c
  dsimp only
  rw [htake, kTrim, dropWhile_append, hidem, if_neg (by simpa using hnil),
    rdropWhile_concat_pos (· == blank) _ _ (by simp), ← kTrim]

theorem redirectOf_plain (hc : redirChar ∉ c) : redirectOf (kTrim c) = none := by
  rw [redirectOf, redirectFrom_eq_none fun h => hc (kTrim_subset c h)]
  rfl

end Lines

/-! ## The two runs of one command -/

section Outcomes

variable {env : NsEnv} {text behind : List UInt8} {lead cap : Nat} {c : Int}

/-- The arguments of a line pass the capacity it is run with. -/
def LinePasses (env : NsEnv) (text : List UInt8) (c : Int) : Prop :=
  (nlParse text).isSome ∨
    let l := splitLine (tokenizedText nlMaxTokens text)
    ArgsPass env l.cmd l.arg1 l.arg2 (l.arg1.length + l.gap2.length) (c - l.offset1)
      (c - l.offset2)

theorem CapOk.mono {o : List UInt8} {c c' : Int} (h : CapOk env o c) (hle : c ≤ c')
    (hne : c' ≠ 0) : CapOk env o c' :=
  ⟨hne, fun t ht => by have := h.2 t ht; omega⟩

theorem capOk_of_unshaped {o : List UInt8} {c : Int} (h : nsShaped o = false) (hc : c ≠ 0) :
    CapOk env o c :=
  ⟨hc, fun t ht => by rw [(nsToFsPath_ok ht).1] at h; cases h⟩

/-- A line without namespace arguments passes, unless an argument starts right at the capacity. -/
theorem linePasses_of_unshaped {l : TokenLine}
    (hl : l = splitLine (tokenizedText nlMaxTokens text)) (h1 : nsShaped l.arg1 = false)
    (h2 : nsShaped l.arg2 = false) (hc1 : c ≠ l.offset1) (hc2 : c ≠ l.offset2) :
    LinePasses env text c := by
  refine .inr (.inr ?_)
  rw [← hl]
  refine ⟨capOk_of_unshaped h1 (by omega), fun s hs => ?_⟩
  rw [foundSecond, nsToFsPath_of_unshaped h1, if_neg (by decide)] at hs
  cases hs
  exact capOk_of_unshaped h2 (by omega)

/-- With eight bytes a line has the outcome it has in its buffer, unless its arguments do not
pass the eight bytes. -/
theorem lineOutcome_eight_iff (hlen : text.length < cap) (hcap : 8 ≤ cap) :
    lineOutcome env text 8 = lineOutcome env text cap ↔
      LinePasses env text 8 ∨ lineOutcome env text cap = .argError .eParse := by
  unfold lineOutcome LinePasses
  cases hnl : nlParse text with
  | some cmd => simp
  | none =>
    have hkept := (tokenizedText_initial nlMaxTokens text).length_le
    have hsplit := length_splitLine (tokenizedText nlMaxTokens text)
    dsimp only
    simp only [Option.isSome_none, Bool.false_eq_true, false_or]
    generalize splitLine (tokenizedText nlMaxTokens text) = l at hsplit ⊢
    have hoff : l.offset1 ≤ l.offset2 := Nat.le_add_right _ _
    by_cases hpass : ArgsPass env l.cmd l.arg1 l.arg2 (l.arg1.length + l.gap2.length)
        (8 - l.offset1) (8 - l.offset2)
    · have hwide : ArgsPass env l.cmd l.arg1 l.arg2 (l.arg1.length + l.gap2.length)
          (cap - l.offset1) (cap - l.offset2) := by
        rcases hpass with hcmd | ⟨h1, h2⟩
        · exact .inl hcmd
        · exact .inr ⟨h1.mono (by omega) (by omega),
            fun s hs => (h2 s hs).mono (by omega) (by omega)⟩
      rw [dispatchArgs_of_pass hpass, dispatchArgs_of_pass hwide]
      exact ⟨fun _ => .inl hpass, fun _ => rfl⟩
    · rw [dispatchArgs_of_not_pass hpass]
      exact ⟨fun h => .inr h.symm, fun h => (h.resolve_left hpass).symm⟩

theorem lineOutcome_of_not_passes (h : ¬LinePasses env text c) :
    lineOutcome env text c = .argError .eParse := by
  unfold LinePasses at h
  unfold lineOutcome
  cases hnl : nlParse text with
  | some cmd => exact absurd (.inl (by rw [hnl]; rfl)) h
  | none => exact dispatchArgs_of_not_pass (not_or.mp h).2

theorem lineOutcome_ne_nothing (env : NsEnv) (text : List UInt8) (c : Int) :
    lineOutcome env text c ≠ .nothing := by
  have hargs : ∀ cmd o1 o2 k c1 c2, dispatchArgs env cmd o1 o2 k c1 c2 ≠ .nothing := by
    intro cmd o1 o2 k c1 c2
    have hsecond : ∀ first found kept r, secondOutcome cmd first found kept r ≠ .nothing := by
      intro first found kept r
      cases r <;> exact nofun
    unfold dispatchArgs
    split
    · exact nofun
    · split
      · split <;> exact hsecond _ _ _ _
      · exact hsecond _ _ _ _
      · exact nofun
  unfold lineOutcome
  split <;> exact hargs _ _ _ _ _ _

/-- The outcome of a command line without a redirection. -/
theorem processCommand_plain {line : List UInt8} (hred : redirChar ∉ line) (hnul : 0 ∉ line) :
    (processCommand env line behind cap).1 =
      if kTrim line = [] then .nothing else lineOutcome env (kTrim line) cap := by
  have htext : 0 ∉ kTrim line := fun h => hnul (kTrim_subset line h)
  unfold processCommand
  dsimp only
  by_cases hnil : kTrim line = []
  · rw [if_pos hnil, if_pos hnil]
  · rw [if_neg hnil, if_neg hnil, redirectOf_plain hred]
    exact runLine_outcome htext

/-- The command part of a redirection has the outcome of the command with eight bytes. -/
theorem processCommand_withTarget {line f : List UInt8} {append : Bool} (hred : redirChar ∉ line)
    (hnul : 0 ∉ line) (hf : TargetOk f) :
    (processCommand env (withTarget line append f) behind cap).1 =
      if kTrim line = [] then .nothing else lineOutcome env (kTrim line) 8 := by
  have htext : 0 ∉ kTrim line := fun h => hnul (kTrim_subset line h)
  obtain ⟨r, hr, hcmd, -, htarget⟩ := @redirectOf_withTarget line f append hred hf
  have hne : kTrim (withTarget line append f) ≠ [] := by
    intro h
    rw [h] at hr
    cases hr
  unfold processCommand
  dsimp only
  rw [if_neg hne, hr]
  dsimp only
  rw [if_neg (htarget ▸ hf.ne), hcmd]
  by_cases hnil : kTrim line = []
  · rw [if_pos hnil, if_pos hnil]
  · rw [if_neg hnil, if_neg hnil]
    exact runLine_outcome htext

end Outcomes

/-! ## What is left in the target -/

/-- A file can be opened for writing at the path and takes so many bytes. -/
def HostFs.Writable (fs : HostFs) (path : List UInt8) (n : Nat) : Prop :=
  (fs.openWrite path).1 = true ∧ n ≤ fs.room (fs.calls + 1)

theorem openWrite_content {fs fs' : HostFs} {path : List UInt8}
    (h : fs.openWrite path = (true, fs')) :
    fs'.content path = fs.content path ∧ fs'.calls = fs.calls + 1 ∧ fs'.room = fs.room := by
  unfold HostFs.openWrite at h
  dsimp only at h
  split at h
  · split at h
    · cases h
    · cases h
      exact ⟨rfl, rfl, rfl⟩
  · cases h
  · next hnone =>
    split at h
    · cases h
      refine ⟨?_, rfl, rfl⟩
      rw [HostFs.content, HostFs.content, FileTree.put_item_self, hnone]
    · cases h

theorem write_content (fs : HostFs) (path bytes : List UInt8) (pos : Nat)
    (hroom : bytes.length ≤ fs.room fs.calls) :
    (fs.write path pos bytes).2.content path =
      if bytes = [] then fs.content path else (fs.content path).take pos ++ bytes := by
  unfold HostFs.write
  dsimp only
  rw [Nat.min_eq_left hroom, take_length]
  conv_lhs => rw [HostFs.content]
  rw [FileTree.put_item_self]
  simp only [length_eq_zero_iff]

section Target

variable {σ : Type} {r : Redirect} {path captured : List UInt8} {s : ShellState σ}

/-- What is read from a target. -/
def targetContent (path : List UInt8) (s : ShellState σ) : List UInt8 :=
  match vfileEntry path with
  | some (some v) => v.read s.hostname
  | _ => s.fs.content path

/-- The target is a virtual file that takes data, or a file that takes `n` bytes. -/
def TargetWritable (path : List UInt8) (n : Nat) (s : ShellState σ) : Prop :=
  match vfileEntry path with
  | some v => v.isSome = true
  | none => s.fs.Writable path n

/-- What a redirection leaves in its target. -/
def leftIn (append : Bool) (path captured : List UInt8) (s : ShellState σ) : List UInt8 :=
  match vfileEntry path with
  | some (some v) => v.read (v.write captured s).2.2.hostname
  | _ =>
    if append then s.fs.content path ++ captured
    else if captured = [] then s.fs.content path else captured

theorem TargetWritable.mono {n m : Nat} (h : TargetWritable path m s) (hle : n ≤ m) :
    TargetWritable path n s := by
  unfold TargetWritable at h ⊢
  split at h
  · exact h
  · exact ⟨h.1, hle.trans h.2⟩

theorem redirectTo_content (hpath : resolvePath r.target = some path)
    (hwrite : TargetWritable path captured.length s) :
    targetContent path (redirectTo r captured s).2 = leftIn r.append path captured s := by
  unfold TargetWritable at hwrite
  unfold redirectTo targetContent leftIn
  rw [hpath]
  dsimp only
  split at hwrite
  · next v hv =>
    obtain ⟨v, rfl⟩ := Option.isSome_iff_exists.mp hwrite
    rw [hv]
  next hv =>
  rw [hv]
  dsimp only
  obtain ⟨hopen, hroom⟩ := hwrite
  cases ho : s.fs.openWrite path with
  | mk ok fs =>
    rw [ho] at hopen
    cases hopen
    obtain ⟨hcontent, hcalls, hgrant⟩ := openWrite_content ho
    dsimp only
    have hw := write_content fs path captured (if r.append then (fs.content path).length else 0)
      (by rw [hgrant, hcalls]; exact hroom)
    rw [hw, hcontent]
    cases r.append with
    | true => by_cases hnil : captured = [] <;> simp [hnil]
    | false => simp

end Target

/-! ### When it is the text -/

/-- A host name that is taken over as it is. -/
structure HostName (name : List UInt8) : Prop where
  fits : name.length ≤ 63
  noNul : 0 ∉ name
  last : ∀ b ∈ name.getLast?, b ≠ newline ∧ b ≠ 13

theorem hostnameOf_length_le (data : List UInt8) :
    (hostnameOf data).length ≤ (data.rdropWhile fun b => b == newline || b == 13).length :=
  (List.takeWhile_prefix _).length_le.trans (length_take_le' _ _)

theorem hostnameOf_newline (name : List UInt8) :
    hostnameOf (name ++ [newline]) = hostnameOf name := by
  rw [hostnameOf, hostnameBytes, rdropWhile_concat_pos _ _ _ (by rfl), ← hostnameBytes, ← hostnameOf]

theorem hostnameOf_eq_iff {name : List UInt8} : hostnameOf name = name ↔ HostName name := by
  constructor
  · intro h
    have hdrop := hostnameOf_length_le name
    have hkept : name.rdropWhile (fun b => b == newline || b == 13) = name := by
      refine (List.rdropWhile_prefix _ _).eq_of_length (le_antisymm (List.rdropWhile_prefix _ _).length_le ?_)
      rwa [h] at hdrop
    refine ⟨?_, fun h0 => ?_, fun b hb => ?_⟩
    · rw [← h]
      exact (List.takeWhile_prefix _).length_le.trans (length_take_le _ _)
    · rw [← h] at h0
      exact absurd (mem_takeWhile_imp h0) (by simp)
    · have hne : name ≠ [] := by
        rintro rfl
        cases hb
      have hlast := rdropWhile_eq_self_iff.mp hkept hne
      rw [getLast?_eq_some_getLast hne, Option.mem_some_iff] at hb
      rw [hb] at hlast
      simpa using hlast
  · intro h
    have hkept : name.rdropWhile (fun b => b == newline || b == 13) = name := by
      refine rdropWhile_eq_self_iff.mpr fun hne => ?_
      have hlast := h.last (name.getLast hne) (by rw [getLast?_eq_some_getLast hne]; rfl)
      simpa using hlast
    rw [hostnameOf, hostnameBytes, hkept, take_of_length_le h.fits, takeWhile_eq_self_iff]
    intro b hb
    simp only [bne_iff_ne]
    rintro rfl
    exact h.noNul hb

section Text

variable {σ : Type} {path out : List UInt8} {s after : ShellState σ}

/-- Behind `>` the text is what is left: a file takes every text that is not empty, a virtual
file the text that it holds afterwards. -/
def ReplaceOk (path out : List UInt8) (after : ShellState σ) : Prop :=
  match vfileEntry path with
  | some (some .hostname) => ∃ name, out = name ++ [newline] ∧ HostName name
  | some (some v) => out = v.read []
  | _ => out ≠ [] ∨ after.fs.content path = []

/-- Behind `>>` the text follows the old content: the command has left a file alone; a virtual
file never appends. -/
def AppendOk (path out : List UInt8) (s after : ShellState σ) : Prop :=
  match vfileEntry path with
  | some (some .hostname) => s.hostname = [] ∧ out = []
  | some (some _) => out = []
  | _ => after.fs.content path = s.fs.content path

theorem hostnameOf_append_iff {old : List UInt8} :
    hostnameOf out ++ [newline] = old ++ [newline] ++ out ↔ old = [] ∧ out = [] := by
  constructor
  · intro heq
    have hle := (hostnameOf_length_le out).trans (List.rdropWhile_prefix _ _).length_le
    have hlen := congrArg length heq
    simp only [length_append, length_singleton] at hlen
    obtain rfl : old = [] := length_eq_zero_iff.mp (by omega)
    refine ⟨rfl, ?_⟩
    by_contra hne
    -- All of the text would be taken over, and still end in a newline.
    have hkept : hostnameOf out = out := by
      have hinit : hostnameOf out <+: out :=
        ((List.takeWhile_prefix _).trans (List.take_prefix _ _)).trans (List.rdropWhile_prefix _ _)
      exact hinit.eq_of_length (by simp only [length_nil] at hlen; omega)
    have hlast := congrArg getLast? heq
    rw [getLast?_concat, nil_append, getLast?_append_of_ne_nil _ hne] at hlast
    exact ((hostnameOf_eq_iff.mp hkept).last newline hlast.symm).1 rfl
  · rintro ⟨rfl, rfl⟩
    rfl

theorem leftIn_replace_iff : leftIn false path out after = out ↔ ReplaceOk path out after := by
  unfold leftIn ReplaceOk
  have hfile : (if out = [] then after.fs.content path else out) = out ↔
      out ≠ [] ∨ after.fs.content path = [] := by
    by_cases hnil : out = [] <;> simp [hnil]
  rcases vfileEntry path with _ | _ | v
  · exact hfile
  · exact hfile
  cases v with
  | hostname =>
    change hostnameOf out ++ [newline] = out ↔ _
    constructor
    · intro h
      refine ⟨hostnameOf out, h.symm, hostnameOf_eq_iff.mp ?_⟩
      conv_rhs => rw [← h]
      rw [hostnameOf_newline]
    · rintro ⟨name, rfl, hname⟩
      rw [hostnameOf_newline, hostnameOf_eq_iff.mpr hname]
  | null => exact eq_comm
  | zero => exact eq_comm
  | console => exact eq_comm

theorem leftIn_append_iff : leftIn true path out after = targetContent path s ++ out ↔
    AppendOk path out s after := by
  unfold leftIn targetContent AppendOk
  rcases vfileEntry path with _ | _ | v
  · exact append_left_inj _
  · exact append_left_inj _
  cases v with
  | hostname => exact hostnameOf_append_iff
  | null => exact self_eq_append_right
  | zero => exact self_eq_append_right
  | console => exact self_eq_append_right

/-- No other text stands in the target when the refusal has gone there. -/
theorem leftIn_refused (hne : out ≠ []) (hother : out ≠ nsArgError .eParse) :
    leftIn true path (nsArgError .eParse) s ≠ targetContent path s ++ out := by
  unfold leftIn targetContent
  rcases vfileEntry path with _ | _ | v
  · exact fun heq => hother (append_cancel_left heq).symm
  · exact fun heq => hother (append_cancel_left heq).symm
  cases v with
  | hostname =>
    intro heq
    have hdrop : (hostnameOf (nsArgError .eParse) ++ [newline]).dropLast =
        (s.hostname ++ [newline] ++ out).dropLast := congrArg dropLast heq
    rw [dropLast_concat, append_assoc, singleton_append, dropLast_append_cons,
      dropLast_cons_of_ne_nil hne] at hdrop
    have hmem : newline ∈ hostnameOf (nsArgError .eParse) := by
      rw [hdrop]
      simp
    exact absurd hmem (by decide)
  | null => exact fun heq => hne (self_eq_append_right.mp heq)
  | zero => exact fun heq => hne (self_eq_append_right.mp heq)
  | console => exact fun heq => hne (self_eq_append_right.mp heq)

end Text

/-! ## Transparency -/

/-- The command line comes to the same with eight bytes as in its buffer: it is empty, its
arguments pass the eight bytes, or it is refused in its buffer with the same error. -/
def AgreesAtEight (env : NsEnv) (c : List UInt8) (cap : Nat) : Prop :=
  kTrim c = [] ∨ LinePasses env (kTrim c) 8 ∨ lineOutcome env (kTrim c) cap = .argError .eParse

section Transparent

variable {σ : Type} {env : NsEnv} {c f path behind : List UInt8} {cap : Nat} {append : Bool}

theorem shellCommand_plain (hred : redirChar ∉ c) (h : Handler σ) (s : ShellState σ) :
    shellCommand env h c behind cap s = respond h (processCommand env c behind cap).1 s := by
  rw [shellCommand, redirectOf_plain hred]

/-- A redirected command leaves its output in the target. -/
theorem shellCommand_withTarget (hred : redirChar ∉ c) (hf : TargetOk f)
    (hpath : resolvePath f = some path) (h : Handler σ) (s : ShellState σ) {out : List UInt8}
    {after : ShellState σ}
    (hrun : respond h (processCommand env (withTarget c append f) behind cap).1 s = (out, after))
    (hout : out.length < captureSize) (hwrite : TargetWritable path out.length after) :
    targetContent path (shellCommand env h (withTarget c append f) behind cap s).2 =
      leftIn append path out after := by
  obtain ⟨r, hr, -, happ, htarget⟩ := @redirectOf_withTarget c f append hred hf
  have htake : out.take (captureSize - 1) = out := take_of_length_le (by omega)
  unfold shellCommand
  dsimp only
  rw [hr, hrun]
  dsimp only
  rw [if_neg (htarget ▸ hf.ne), htake, redirectTo_content (htarget ▸ hpath) hwrite, happ]

theorem nsArgError_eq_eParse {e : NsFs} (h : nsArgError e = nsArgError .eParse) : e = .eParse := by
  cases e with
  | eParse => rfl
  | ok out => exact absurd h (by show cstr _ ≠ cstr _; decide)
  | notNs => exact absurd h (by decide)
  | eUnknown => exact absurd h (by decide)
  | eVolume => exact absurd h (by decide)
  | eKind => exact absurd h (by decide)

theorem length_nsArgError (e : NsFs) : (nsArgError e).length < captureSize := by
  unfold nsArgError
  split <;> decide

theorem nsArgError_ne_nil (e : NsFs) : nsArgError e ≠ [] := by
  unfold nsArgError
  split <;> decide

/-- For a command line `c` without `>`. When `c` comes to the same with eight bytes, then for every
set of commands and every state in which the target is writable and the output fits the capture
buffer, `ReplaceOk` says when `c > f` leaves exactly the text that `c` prints, and `AppendOk` when
`c >> f` leaves the old content and the text. For every other line there are commands for which
`c >> f` leaves something else. -/
theorem redirect_transparent_iff (env : NsEnv) (c f path behind : List UInt8)
    (cap : Nat) (hred : redirChar ∉ c) (hnul : 0 ∉ c) (hcap : 8 ≤ cap) (hlen : c.length < cap)
    (hf : TargetOk f) (hpath : resolvePath f = some path) :
    (AgreesAtEight env c cap → ∀ (h : Handler σ) (s : ShellState σ),
      (shellCommand env h c behind cap s).1.length < captureSize →
      TargetWritable path (shellCommand env h c behind cap s).1.length
        (shellCommand env h c behind cap s).2 →
      (targetContent path (shellCommand env h (withTarget c false f) behind cap s).2 =
          (shellCommand env h c behind cap s).1 ↔
        ReplaceOk path (shellCommand env h c behind cap s).1
          (shellCommand env h c behind cap s).2) ∧
      (targetContent path (shellCommand env h (withTarget c true f) behind cap s).2 =
          targetContent path s ++ (shellCommand env h c behind cap s).1 ↔
        AppendOk path (shellCommand env h c behind cap s).1 s
          (shellCommand env h c behind cap s).2)) ∧
    (¬AgreesAtEight env c cap → ∀ s : ShellState σ, TargetWritable path captureSize s →
      ∃ h : Handler σ, (shellCommand env h c behind cap s).1.length < captureSize ∧
        (shellCommand env h c behind cap s).2 = s ∧
        targetContent path (shellCommand env h (withTarget c true f) behind cap s).2 ≠
          targetContent path s ++ (shellCommand env h c behind cap s).1) := by
  have htrim := length_kTrim_le c
  have hplain := @processCommand_plain env behind cap c hred hnul
  have hover : ∀ append, (processCommand env (withTarget c append f) behind cap).1 = _ :=
    fun append => processCommand_withTarget hred hnul hf
  have height := @lineOutcome_eight_iff env (kTrim c) cap (by omega) hcap
  constructor
  · intro hagree h s hout hwrite
    have hsame : ∀ append, (processCommand env (withTarget c append f) behind cap).1 =
        (processCommand env c behind cap).1 := by
      intro append
      rw [hover append, hplain]
      rcases hagree with hnil | hagree
      · rw [if_pos hnil, if_pos hnil]
      · rw [height.mpr hagree]
    rw [shellCommand_plain hred] at hout hwrite ⊢
    have hrun : ∀ append, respond h (processCommand env (withTarget c append f) behind cap).1 s =
        ((respond h (processCommand env c behind cap).1 s).1,
          (respond h (processCommand env c behind cap).1 s).2) := fun append => by rw [hsame append]
    rw [shellCommand_withTarget hred hf hpath h s (hrun false) hout hwrite,
      shellCommand_withTarget hred hf hpath h s (hrun true) hout hwrite]
    exact ⟨leftIn_replace_iff, leftIn_append_iff⟩
  · intro hdiffer s hwrite
    unfold AgreesAtEight at hdiffer
    simp only [not_or] at hdiffer
    obtain ⟨hnil, hpass, hother⟩ := hdiffer
    rw [if_neg hnil] at hplain
    have hrefused := hover true
    rw [if_neg hnil, lineOutcome_of_not_passes hpass] at hrefused
    -- With commands that all print one letter, nothing but the refusal leaves its text.
    let letter : Handler σ := fun _ s => (cstr "x", s)
    have hprinted : ∃ text, respond letter (lineOutcome env (kTrim c) cap) s = (text, s) ∧
        text ≠ [] ∧ text ≠ nsArgError .eParse ∧ text.length < captureSize := by
      cases ho : lineOutcome env (kTrim c) cap with
      | nothing => exact absurd ho (lineOutcome_ne_nothing _ _ _)
      | handed cmd => exact ⟨cstr "x", rfl, by decide, by decide, by decide⟩
      | argError e =>
        refine ⟨nsArgError e, rfl, nsArgError_ne_nil e, fun he => hother ?_, length_nsArgError e⟩
        rw [ho, nsArgError_eq_eParse he]
    obtain ⟨text, htext, hne, hdiff, hsize⟩ := hprinted
    refine ⟨letter, ?_⟩
    rw [shellCommand_plain hred, hplain, htext]
    refine ⟨hsize, rfl, ?_⟩
    have hrun : respond letter (processCommand env (withTarget c true f) behind cap).1 s =
        (nsArgError .eParse, s) := by
      rw [hrefused]
      rfl
    have hshort := length_nsArgError .eParse
    rw [shellCommand_withTarget hred hf hpath letter s hrun hshort
      (hwrite.mono (Nat.le_of_lt hshort))]
    exact leftIn_refused hne hdiff

end Transparent

/-- Every command prints the text. -/
def printing (text : String) : Handler Unit := fun _ s => (cstr text, s)

/-- A volume with these entries and space for every call, on the host `plan0`. -/
def volumeWith (entries : List (List (List UInt8) × Item)) : ShellState Unit :=
  ⟨⟨FileTree.ofEntries entries, fun _ => 8192, 0⟩, cstr "plan0", ()⟩

/-- Over a longer file and over the host name. -/
theorem redirect_replaces :
    targetContent (cstr "/f") (shellCommand bareMachine (printing "hi")
        (withTarget (cstr "vcat a") false (cstr "f")) [] 64
        (volumeWith [([cstr "f"], .file (cstr "hello"))])).2 = cstr "hi" ∧
      targetContent (cstr "/0/system/hostname") (shellCommand bareMachine (printing "box\n")
        (withTarget (cstr "vcat a") false (cstr "0/system/hostname")) [] 64 (volumeWith [])).2 =
        cstr "box\n" := by
  have hpass : AgreesAtEight bareMachine (cstr "vcat a") 64 :=
    .inr (.inl (linePasses_of_unshaped rfl (by decide) (by decide) (by decide) (by decide)))
  constructor
  · have hiff := redirect_transparent_iff (σ := Unit) bareMachine (cstr "vcat a") (cstr "f")
      (cstr "/f") [] 64 (by decide) (by decide) (by decide) (by decide) ⟨by decide, by decide⟩
      (by decide)
    exact (hiff.1 hpass (printing "hi") (volumeWith [([cstr "f"], .file (cstr "hello"))])
      (by decide) ⟨by decide, by decide⟩).1.mpr (.inl (by decide))
  · have hiff := redirect_transparent_iff (σ := Unit) bareMachine (cstr "vcat a")
      (cstr "0/system/hostname") (cstr "/0/system/hostname") [] 64 (by decide) (by decide)
      (by decide) (by decide) ⟨by decide, by decide⟩ (by decide)
    have hentry : vfileEntry (cstr "/0/system/hostname") = some (some .hostname) := by rfl
    have hrun : (shellCommand bareMachine (printing "box\n") (cstr "vcat a") [] 64
        (volumeWith [])).1 = cstr "box\n" := by decide
    have hopen := (hiff.1 hpass (printing "box\n") (volumeWith []) (by rw [hrun]; decide)
      (by rw [TargetWritable, hentry]; rfl)).1
    rw [hrun, ReplaceOk, hentry] at hopen
    exact hopen.mpr ⟨cstr "box", by decide, by decide, by decide, by rintro b ⟨⟩; decide⟩

/-- A namespace argument is refused behind a redirection, an empty output does not empty the
target, and the host name is not appended to. -/
theorem redirect_differs :
    (shellCommand bareMachine (printing "hi") (cstr "vcat 0/user/notes") [] 64 (volumeWith [])).1 =
        cstr "hi" ∧
      targetContent (cstr "/f") (shellCommand bareMachine (printing "hi")
          (withTarget (cstr "vcat 0/user/notes") false (cstr "f")) [] 64 (volumeWith [])).2 =
        cstr "  Error: invalid namespace path syntax\n" ∧
      (shellCommand bareMachine (printing "") (cstr "cd ..") [] 64
          (volumeWith [([cstr "f"], .file (cstr "hello"))])).1 = [] ∧
      targetContent (cstr "/f") (shellCommand bareMachine (printing "")
          (withTarget (cstr "cd ..") false (cstr "f")) [] 64
          (volumeWith [([cstr "f"], .file (cstr "hello"))])).2 = cstr "hello" ∧
      targetContent (cstr "/0/system/hostname") (volumeWith []) = cstr "plan0\n" ∧
      targetContent (cstr "/0/system/hostname") (shellCommand bareMachine (printing "  box\n")
          (withTarget (cstr "echo box") true (cstr "0/system/hostname")) [] 64
          (volumeWith [])).2 = cstr "  box\n" := by
  decide

end OpenSys
