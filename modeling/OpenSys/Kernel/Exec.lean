-- SUMMARY: How sys_exec cuts a command into arguments.
import OpenSys.Fs.Ramfs
import OpenSys.Process.CreateUser

/-!
# Starting a program

`sys_exec` of `src/kernel/sys.c`. The arguments are pointers into the command. Nothing ends a
token, so `process_create_user`, which copies each argument up to its zero byte, takes it up to
the end of the command. The file is found by the bytes before the first blank of the command,
also when the command starts with blanks.
-/

namespace OpenSys

open List

/-- `' '` or `'\t'` -/
def execBlank (c : UInt8) : Bool := c == 32 || c == 9

/-- The places in the command that `argv` points to, from `p` on. -/
def execArgv : (max p : Nat) → List UInt8 → List Nat
  | 0, _, _ => []
  | max + 1, p, s =>
    let rest := s.dropWhile execBlank
    if rest = [] then []
    else
      let start := p + (s.takeWhile execBlank).length
      start :: execArgv max (start + (rest.takeWhile (!execBlank ·)).length)
        (rest.dropWhile (!execBlank ·))

/-- `path_buf` -/
def execPath (path : List UInt8) : List UInt8 := (path.takeWhile (!execBlank ·)).take 255

/-- A call that reached `process_create_user`: the file that was read, what the process is made
    from, and how that ended. -/
structure Exec where
  file : Nat
  args : CreateArgs
  ends : CreateEnd

/-- `sys_exec`, up to the end of the calling process. There is nothing when it returns -1
    before a process is made. `proc` says that there is a current process and `room` that there
    is memory for the file; the rest of what the new process needs is in `env`, and its image
    holds what `kmalloc` leaves behind the file. -/
def sysExec (fs : Ramfs) (proc room : Bool) (env : CreateArgs) (m : CreateMem)
    (path : List UInt8) : Option Exec :=
  if proc = false then none
  else
    let argv := execArgv 32 0 path
    let fd := ramfsFind fs (execPath path)
    if fd < 0 then none
    else
      let fileSize := ramfsSize fs fd
      if fileSize = 0 then none
      else if room = false then none
      else
        match ramfsRead fs fd fileSize 0 with
        | none => none
        | some (readBytes, bytes) =>
          if readBytes < 0 ∨ readBytes ≠ fileSize then none
          else
            let args := { env with
              img := env.img.writeBytes 0 bytes, size := .ofNat 64 fileSize,
              argv := argv.map path.drop }
            some ⟨fd.toNat, args, (processCreateUser args m).1⟩

/-! ## Tokens -/

/-- The tokens of a command. -/
def execTokens (path : List UInt8) : List (List UInt8) :=
  (path.splitOnP execBlank).filter (· ≠ [])

/-- The process comes from the file named by the first token, and its arguments are the tokens. -/
def ExecRight (fs : Ramfs) (path : List UInt8) (e : Exec) : Prop :=
  (execTokens path).head?.bind fs.lookup = some e.file ∧ e.args.argv = execTokens path

section Tokens

variable {path : List UInt8} {fs : Ramfs} {e : Exec}

theorem splitOnP_free (s : List UInt8) : ∀ w ∈ s.splitOnP execBlank, ∀ c ∈ w, execBlank c = false := by
  induction s with
  | nil => simp
  | cons c s ih =>
    rw [splitOnP_cons_eq_if_modifyHead]
    split
    · simpa using ih
    next hc =>
    obtain ⟨w, ws, hw⟩ := exists_cons_of_ne_nil (splitOnP_ne_nil execBlank s)
    rw [hw] at ih ⊢
    simp only [modifyHead_cons, mem_cons, forall_eq_or_imp] at ih ⊢
    exact ⟨⟨by simpa using hc, ih.1⟩, ih.2⟩

/-- A token has no blanks and is not empty. -/
theorem execTokens_word {w : List UInt8} (hw : w ∈ execTokens path) :
    w ≠ [] ∧ ∀ c ∈ w, execBlank c = false := by
  obtain ⟨hmem, hne⟩ := mem_filter.mp hw
  exact ⟨by simpa using hne, splitOnP_free path w hmem⟩

theorem execTokens_single (hne : path ≠ []) (hfree : ∀ c ∈ path, execBlank c = false) :
    execTokens path = [path] := by
  rw [execTokens, splitOnP_eq_singleton fun c hc => by simp [hfree c hc]]
  simp [hne]

theorem drop_leading (path : List UInt8) :
    path.drop (path.takeWhile execBlank).length = path.dropWhile execBlank := by
  have hsplit := congrArg (List.drop (path.takeWhile execBlank).length)
    (takeWhile_append_dropWhile (p := execBlank) (l := path))
  rw [drop_left] at hsplit
  exact hsplit.symm

/-- The first argument is everything behind the leading blanks. -/
theorem execArgv_head {w : List UInt8} {ws : List (List UInt8)}
    (h : (execArgv 32 0 path).map path.drop = w :: ws) : w = path.dropWhile execBlank := by
  unfold execArgv at h
  dsimp only at h
  split at h
  · cases h
  · rw [map_cons, Nat.zero_add, drop_leading] at h
    exact (List.cons.inj h).1.symm

theorem execArgv_single (hne : path ≠ []) (hfree : ∀ c ∈ path, execBlank c = false) :
    (execArgv 32 0 path).map path.drop = [path] := by
  have hhead : path.takeWhile execBlank = [] := by
    obtain ⟨c, s, rfl⟩ := exists_cons_of_ne_nil hne
    exact takeWhile_cons_of_neg (by simp [hfree c mem_cons_self])
  have hrest : path.dropWhile execBlank = path := by
    rw [← drop_leading, hhead]
    rfl
  have hword : path.dropWhile (!execBlank ·) = [] :=
    dropWhile_eq_nil_iff.mpr fun c hc => by simp [hfree c hc]
  unfold execArgv
  dsimp only
  rw [hrest, if_neg hne, hhead, hword, execArgv]
  simp

/-- What a call that got to the new process found. -/
theorem sysExec_some {proc room : Bool} {env : CreateArgs} {m : CreateMem}
    (h : sysExec fs proc room env m path = some e) : fs.lookup (execPath path) = some e.file ∧
      e.args.argv = (execArgv 32 0 path).map path.drop := by
  unfold sysExec at h
  dsimp only at h
  split at h
  · cases h
  split at h
  · cases h
  next hfd =>
  split at h
  · cases h
  split at h
  · cases h
  split at h
  · cases h
  split at h
  · cases h
  cases h
  refine ⟨?_, rfl⟩
  unfold ramfsFind at hfd ⊢
  cases hl : fs.lookup (execPath path) with
  | none => simp [hl] at hfd
  | some i => rfl

/-- A process that is started gets its tokens, from the file that the first one names, exactly
    if the command is one token of at most 255 bytes with no blank around it. -/
theorem exec_tokens_iff (fs : Ramfs) (proc room : Bool) (env : CreateArgs) (m : CreateMem)
    (path : List UInt8) (hcount : 1 ≤ (execTokens path).length ∧ (execTokens path).length ≤ 32)
    (e : Exec) (hexec : sysExec fs proc room env m path = some e) :
    ExecRight fs path e ↔ (∀ c ∈ path, execBlank c = false) ∧ path.length ≤ 255 := by
  obtain ⟨hfile, hargv⟩ := sysExec_some hexec
  obtain ⟨w, ws, htokens⟩ := exists_cons_of_length_pos hcount.1
  have hword := execTokens_word (htokens ▸ mem_cons_self)
  constructor
  · rintro ⟨hright, hall⟩
    rw [htokens, head?_cons, Option.bind_some] at hright
    -- the file has one name
    have hname : execPath path = w := (lookup_spec hfile).2.symm.trans (lookup_spec hright).2
    have hfirst : w = path.dropWhile execBlank := by
      rw [hargv, htokens] at hall
      exact execArgv_head hall
    have hfree : ∀ c ∈ path, execBlank c = false := by
      cases path with
      | nil => nofun
      | cons c s =>
        by_cases hc : execBlank c = true
        · refine absurd ?_ hword.1
          rw [← hname, execPath, takeWhile_cons_of_neg (by simp [hc])]
          rfl
        · rw [dropWhile_cons_of_neg hc] at hfirst
          rw [← hfirst]
          exact hword.2
    refine ⟨hfree, ?_⟩
    have hpath : path.takeWhile (!execBlank ·) = path :=
      takeWhile_eq_self_iff.mpr fun c hc => by simp [hfree c hc]
    have hsame : path.dropWhile execBlank = path := by
      cases path with
      | nil => rfl
      | cons c s => exact dropWhile_cons_of_neg (by simp [hfree c mem_cons_self])
    rw [execPath, hpath, hfirst, hsame] at hname
    rw [← hname, length_take]
    exact Nat.min_le_left ..
  · rintro ⟨hfree, hlen⟩
    have hne : path ≠ [] := by
      rintro rfl
      cases htokens
    have hpath : execPath path = path := by
      rw [execPath, takeWhile_eq_self_iff.mpr fun c hc => by simp [hfree c hc],
        take_of_length_le hlen]
    rw [hpath] at hfile
    rw [ExecRight, execTokens_single hne hfree, hargv, execArgv_single hne hfree]
    exact ⟨hfile, rfl⟩

end Tokens

/-- An image without segments. -/
def emptyImage : List UInt8 :=
  [0x7F, 0x45, 0x4C, 0x46, 2, 1, 1, 0, 0, 0, 0, 0, 0, 0, 0, 0, 2, 0, 62, 0] ++ List.replicate 44 0

/-- A table with one program, `/i`. -/
def oneProgram : Ramfs where
  files i := if i = 1 then ⟨cstr "/i", some 0, 64, 256, false, true⟩ else ⟨[], none, 0, 0, true, false⟩
  initialized := true
  heap := ⟨fun b => if b = 0 then some (emptyImage ++ List.replicate 192 0) else none, 1,
    fun _ => none, fun b hb => if_neg (by omega)⟩

/-- Everything that a new process needs. -/
def enough : CreateArgs where
  img := fun _ => 0
  size := 0
  argv := []
  slot := true
  kernelStack := true
  space := true
  stackFrame := fun i => some (200 + i)
  stackTakes := fun _ => true
  alloc := fun k => some (300 + k)
  takes := fun _ => true
  current := true

/-- A caller with all pages. -/
def allPages : CreateMem := ⟨fun p => some (1000 + p), fun _ => none, fun _ _ => 0⟩

def CreateEnd.isCreated : CreateEnd → Bool
  | .created => true
  | _ => false

theorem CreateEnd.eq_created {e : CreateEnd} (h : e.isCreated = true) : e = .created := by
  cases e <;> first | rfl | cases h

/-- The program is started by its name. -/
theorem exec_plain_name : ∃ e, sysExec oneProgram true true enough allPages (cstr "/i") = some e ∧
    e.ends = .created ∧ ExecRight oneProgram (cstr "/i") e := by
  have heval : ((sysExec oneProgram true true enough allPages (cstr "/i")).any
      fun e => e.ends.isCreated) = true := by
    decide +kernel
  cases hexec : sysExec oneProgram true true enough allPages (cstr "/i") with
  | none =>
    rw [hexec] at heval
    cases heval
  | some e =>
    rw [hexec] at heval
    have hcount : 1 ≤ (execTokens (cstr "/i")).length ∧ (execTokens (cstr "/i")).length ≤ 32 := by
      decide
    exact ⟨e, rfl, CreateEnd.eq_created heval,
      (exec_tokens_iff oneProgram true true enough allPages (cstr "/i") hcount e hexec).mpr
        ⟨by decide +kernel, by decide⟩⟩

/-- With an argument behind it, its own name reaches to the end of the command. -/
theorem exec_runs_tokens_together :
    ∃ e, sysExec oneProgram true true enough allPages (cstr "/i -v") = some e ∧
      e.ends = .created ∧ execTokens (cstr "/i -v") = [cstr "/i", cstr "-v"] ∧
      e.args.argv = [cstr "/i -v", cstr "-v"] ∧ ¬ ExecRight oneProgram (cstr "/i -v") e := by
  have heval : ((sysExec oneProgram true true enough allPages (cstr "/i -v")).any
      fun e => e.ends.isCreated && e.args.argv == [cstr "/i -v", cstr "-v"]) = true := by
    decide +kernel
  cases hexec : sysExec oneProgram true true enough allPages (cstr "/i -v") with
  | none =>
    rw [hexec] at heval
    cases heval
  | some e =>
    rw [hexec, Option.any_some, Bool.and_eq_true, beq_iff_eq] at heval
    obtain ⟨hstarted, hargv⟩ := heval
    have htokens : execTokens (cstr "/i -v") = [cstr "/i", cstr "-v"] := by decide
    refine ⟨e, rfl, CreateEnd.eq_created hstarted, htokens, hargv, fun hright => ?_⟩
    rw [ExecRight, htokens, hargv] at hright
    exact absurd hright.2 (by decide)

end OpenSys
