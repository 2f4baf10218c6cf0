-- SUMMARY: process_command of the shell, and when the handler gets its arguments.
import OpenSys.Ui.Dispatch

/-!
# The command line

`process_command` trims the line, looks for a redirection, asks the natural-language parser, and
otherwise splits the line into a command and two arguments where they stand. The memory is the
line buffer with what lies behind it; an outcome comes with the addresses that were written.
-/

namespace OpenSys

open List

/-! ## The pieces of a line -/

/-- `k_trim` -/
def kTrim (s : List UInt8) : List UInt8 := (s.dropWhile (· == blank)).rdropWhile (· == blank)

/-- A line split into command and arguments, with the blanks between them. -/
structure TokenLine where
  cmd : List UInt8
  gap1 : List UInt8
  arg1 : List UInt8
  gap2 : List UInt8
  arg2 : List UInt8

/-- The token split of `process_command`. -/
def splitLine (text : List UInt8) : TokenLine :=
  let behindCmd := text.dropWhile (· != blank)
  let fromArg1 := behindCmd.dropWhile (· == blank)
  let behindArg1 := fromArg1.dropWhile (· != blank)
  { cmd := text.takeWhile (· != blank)
    gap1 := behindCmd.takeWhile (· == blank)
    arg1 := fromArg1.takeWhile (· != blank)
    gap2 := behindArg1.takeWhile (· == blank)
    arg2 := behindArg1.dropWhile (· == blank) }

/-- Where the first argument starts. -/
def TokenLine.offset1 (l : TokenLine) : Nat := l.cmd.length + l.gap1.length

/-- Where the second argument starts. -/
def TokenLine.offset2 (l : TokenLine) : Nat := l.offset1 + (l.arg1.length + l.gap2.length)

/-- A gap whose first blank has been overwritten. -/
def cutGap : List UInt8 → List UInt8
  | [] => []
  | _ :: g => 0 :: g

/-- The memory after the split. -/
def TokenLine.mem (l : TokenLine) (lead : Nat) (behind : List UInt8) : List UInt8 :=
  (List.replicate lead blank ++ (l.cmd ++ cutGap l.gap1)) ++
    (l.arg1 ++ (cutGap l.gap2 ++ (l.arg2 ++ 0 :: behind)))

/-- The addresses at which the split writes. -/
def TokenLine.cuts (l : TokenLine) (lead : Nat) : List Nat :=
  (if l.gap1 = [] then [] else [lead + l.cmd.length]) ++
    if l.gap2 = [] then [] else [lead + l.offset1 + l.arg1.length]

/-- `'>'` -/
def redirChar : UInt8 := 62

/-- A redirection: the command part, `>>`, and the target. -/
structure Redirect where
  command : List UInt8
  append : Bool
  target : List UInt8
  deriving DecidableEq

/-- The place of the first `>` behind a blank. -/
def redirectFrom (prev : UInt8) : List UInt8 → Option Nat
  | [] => none
  | c :: s => if c = redirChar ∧ prev = blank then some 0 else (redirectFrom c s).map (· + 1)

/-- The redirection of a trimmed line. Its start counts as behind a blank. -/
def redirectOf (text : List UInt8) : Option Redirect :=
  (redirectFrom blank text).map fun i =>
    let behind := text.drop (i + 1)
    ⟨text.take i, behind.head? == some redirChar, kTrim (behind.dropWhile (· == redirChar))⟩

/-! ## The command -/

/-- The argument buffers of the natural-language parser, the second far enough behind the
first. -/
def nlBuffers (c : NlCommand) : List UInt8 :=
  c.arg1 ++ (List.replicate 256 0 ++ (c.arg2 ++ 0 :: List.replicate 255 0))

/-- `process_command` on a trimmed line without a redirection, which starts `lead` bytes into the
buffer. -/
def runLine (env : NsEnv) (lead : Nat) (text behind : List UInt8) (cap : Int) :
    Outcome × List Nat :=
  match nlParse text with
  | some c =>
    ((dispatch env c.cmd (nlBuffers c) 0 (c.arg1.length + 256) 256 256).1,
      List.range' lead text.length)
  | none =>
    -- the terminator of a sixteenth token stays
    let kept := tokenizedText nlMaxTokens text
    let behind := if kept = text then behind else text.drop (kept.length + 1) ++ 0 :: behind
    let l := splitLine kept
    let d := dispatch env l.cmd (l.mem lead behind) (lead + l.offset1) (lead + l.offset2)
      (cap - l.offset1) (cap - l.offset2)
    (d.1, List.range' lead text.length ++ l.cuts lead ++ d.2)

/-- `process_command` on the line at the start of a buffer, with the memory behind the line's
terminator. The command part of a redirection runs with the size of a pointer as its capacity. -/
def processCommand (env : NsEnv) (line behind : List UInt8) (cap : Nat) : Outcome × List Nat :=
  let lead := (line.takeWhile (· == blank)).length
  let text := kTrim line
  let trail := line.length - (lead + text.length)
  let trimmed := List.range' (lead + text.length) trail
  let behind := List.replicate trail 0 ++ behind
  if text = [] then (.nothing, trimmed)
  else
    match redirectOf text with
    | none =>
      let d := runLine env lead text behind cap
      (d.1, trimmed ++ d.2)
    | some r =>
      if r.target = [] then (.nothing, trimmed ++ [lead + r.command.length])
      else
        let inner := kTrim r.command
        let cut := trimmed ++ List.range' (lead + inner.length) (r.command.length + 1 - inner.length)
        if inner = [] then (.nothing, cut)
        else
          let d := runLine env lead inner (List.replicate (r.command.length - inner.length) 0 ++
            (text.drop (r.command.length + 1) ++ 0 :: behind)) 8
          (d.1, cut ++ d.2)

/-- The part of a line that is run as a command, empty when nothing is run. -/
def commandText (line : List UInt8) : List UInt8 :=
  match redirectOf (kTrim line) with
  | none => kTrim line
  | some r => if r.target = [] then [] else kTrim r.command

/-- The capacity that the command part is run with. -/
def commandCap (line : List UInt8) (cap : Nat) : Int :=
  if (redirectOf (kTrim line)).isNone then cap else 8

/-- The command of a line with its original arguments. -/
def plainCommand (text : List UInt8) : NlCommand :=
  match nlParse text with
  | some c => c
  | none => ⟨(splitLine text).cmd, (splitLine text).arg1, (splitLine text).arg2⟩

/-! ## Facts about the pieces -/

section Pieces

variable {text s : List UInt8}

theorem kTrim_subset (s : List UInt8) : kTrim s ⊆ s := fun _ h =>
  dropWhile_subset _ (List.Sublist.subset (List.rdropWhile_prefix _ _).sublist h)

theorem length_kTrim_le (s : List UInt8) :
    (s.takeWhile (· == blank)).length + (kTrim s).length ≤ s.length := by
  have h1 := (List.rdropWhile_prefix (· == blank) (s.dropWhile (· == blank))).length_le
  have h2 := congrArg List.length (takeWhile_append_dropWhile (p := (· == blank)) (l := s))
  rw [length_append] at h2
  rw [kTrim]
  omega

theorem length_cutGap (g : List UInt8) : (cutGap g).length = g.length := by
  cases g <;> rfl

/-- The pieces of a line make up the line. -/
theorem splitLine_append (text : List UInt8) :
    text = (splitLine text).cmd ++ ((splitLine text).gap1 ++ ((splitLine text).arg1 ++
      ((splitLine text).gap2 ++ (splitLine text).arg2))) := by
  simp only [splitLine, takeWhile_append_dropWhile]

/-- Without a gap there is no second argument. -/
theorem splitLine_gap2 (text : List UInt8) :
    cutGap (splitLine text).gap2 = [] ∧ (splitLine text).arg2 = [] ∨
      (cutGap (splitLine text).gap2).head? = some 0 := by
  simp only [splitLine]
  generalize (text.dropWhile (· != blank)).dropWhile (· == blank) = fromArg1
  cases hrest : fromArg1.dropWhile (· != blank) with
  | nil => exact .inl ⟨rfl, rfl⟩
  | cons b rest =>
    have hb : (b != blank) = false := by
      have := head?_dropWhile_not (· != blank) fromArg1
      rw [hrest] at this
      simpa using this
    have hb : b = blank := by simpa using hb
    right
    rw [takeWhile_cons, if_pos (by simp [hb])]
    rfl

theorem length_splitLine (text : List UInt8) :
    (splitLine text).offset2 + (splitLine text).arg2.length = text.length := by
  have h := congrArg List.length (splitLine_append text)
  simp only [length_append] at h
  rw [TokenLine.offset2, TokenLine.offset1]
  omega

theorem length_memFront (l : TokenLine) (lead : Nat) :
    (List.replicate lead blank ++ (l.cmd ++ cutGap l.gap1)).length = lead + l.offset1 := by
  simp [TokenLine.offset1, length_cutGap]

end Pieces

/-! ## What the handler gets -/

section Handed

variable {env : NsEnv} {text behind t1 t2 : List UInt8} {lead cap : Nat} {c : Int}

/-- The line and its arguments fit: the parser understood the line, or the command is `ns` and
has no namespace argument, or the translations fit where the arguments stand. -/
def LineFits (text t1 t2 : List UInt8) (lead : Nat) (c : Int) (cap : Nat) : Prop :=
  (nlParse text).isSome ∨
    (nlParse text).isNone ∧ (splitLine text).cmd = cstr "ns" ∧
      nsShaped (splitLine text).arg1 = false ∧ nsShaped (splitLine text).arg2 = false ∨
    (nlParse text).isNone ∧ (splitLine text).cmd ≠ cstr "ns" ∧
      ArgsFit (splitLine text).arg1 t1 (splitLine text).arg2 t2 (lead + (splitLine text).offset1)
        ((splitLine text).arg1.length + (splitLine text).gap2.length)
        (c - (splitLine text).offset1) (c - (splitLine text).offset2) cap

variable {o t cmd s : List UInt8}

/-- An argument is its own translation exactly when it is no namespace path. -/
theorem translated_self_iff (h : translated env o = some t) : o = t ↔ nsShaped o = false := by
  constructor
  · rintro rfl
    exact translated_unshaped h
  intro hs
  rcases translated_eq_some h with ⟨-, ht⟩ | ⟨hs', -⟩
  · exact ht.symm
  · rw [hs] at hs'
    cases hs'

theorem length_translated_lt (h : translated env o = some t) (hs : nsShaped o = true) :
    t.length < 256 := by
  rcases translated_eq_some h with ⟨hs', -⟩ | ⟨-, hok⟩
  · rw [hs] at hs'
    cases hs'
  · obtain ⟨-, -, -, -, hlen⟩ := nsToFsPath_ok hok
    omega

/-- The parser's own buffers have room for every translation. -/
theorem dispatch_nlBuffers {cmd : NlCommand} (hc : cmd.NoNul)
    (ht1 : translated env cmd.arg1 = some t1) (ht2 : translated env cmd.arg2 = some t2) :
    (dispatch env cmd.cmd (nlBuffers cmd) 0 (cmd.arg1.length + 256) 256 256).1 =
      .handed ⟨cmd.cmd, t1, t2⟩ := by
  have hfound : secondFound cmd.arg1 t1 cmd.arg2 (cmd.arg1.length + 256) = cmd.arg2 := by
    refine if_neg fun h => ?_
    have := length_translated_lt ht1 h.1
    omega
  have hfit : ArgsFit cmd.arg1 t1 cmd.arg2 t2 0 (cmd.arg1.length + 256) 256 256
      (cmd.arg1.length + 512) := by
    refine ⟨by omega, by omega, fun hs1 => ?_, ?_⟩
    · have := length_translated_lt ht1 hs1
      omega
    cases hs2 : nsShaped cmd.arg2 with
    | false => exact .inl (hfound.trans ((translated_self_iff ht2).mpr hs2))
    | true =>
      have := length_translated_lt ht2 hs2
      refine .inr ⟨rfl, hfound, fun hs1 => ?_, by omega, by omega⟩
      have := length_translated_lt ht1 hs1
      omega
  have hiff := @dispatch_iff env cmd.cmd [] cmd.arg1 (List.replicate 256 0) cmd.arg2
    (List.replicate 255 0) t1 t2 256 256 (cmd.arg1.length + 512) hc.cmd hc.arg1 hc.arg2
    (.inr rfl) ht1 ht2 _ rfl
  simp only [nil_append, length_nil, Nat.zero_add, length_replicate] at hiff
  exact (hiff.mpr hfit).1

/-- Writes that are known to be inside do not matter. -/
theorem forall_append_lt {l m : List Nat} (hl : ∀ w ∈ l, w < cap) :
    (∀ w ∈ l ++ m, w < cap) ↔ ∀ w ∈ m, w < cap := by
  simp only [mem_append, or_imp, forall_and]
  exact ⟨fun h => h.2, fun h => ⟨hl, h⟩⟩

theorem cuts_lt {w : Nat} (hw : w ∈ (splitLine text).cuts lead) : w < lead + text.length := by
  have hlen := length_splitLine text
  rw [TokenLine.offset2, TokenLine.offset1] at hlen
  rw [TokenLine.cuts, mem_append] at hw
  rcases hw with hw | hw
  · split at hw
    · cases hw
    next hgap =>
    have := length_pos_iff.mpr hgap
    rw [mem_singleton.mp hw]
    omega
  · split at hw
    · cases hw
    next hgap =>
    have := length_pos_iff.mpr hgap
    rw [mem_singleton.mp hw, TokenLine.offset1]
    omega

theorem zero_notMem_splitLine (h : 0 ∉ text) :
    0 ∉ (splitLine text).arg1 ∧ 0 ∉ (splitLine text).arg2 := by
  rw [splitLine_append text] at h
  simp only [mem_append, not_or] at h
  exact ⟨h.2.2.1, h.2.2.2.2⟩

theorem tokenizedText_initial (max : Nat) (s : List UInt8) : tokenizedText max s <+: s := by
  induction max generalizing s with
  | zero => exact nil_prefix
  | succ max ih =>
    unfold tokenizedText
    dsimp only
    split
    · exact nil_prefix
    have hsplit : s = s.takeWhile (· == blank) ++
        (s.dropWhile (· == blank)).takeWhile (· != blank) ++
        (s.dropWhile (· == blank)).dropWhile (· != blank) := by
      rw [append_assoc, takeWhile_append_dropWhile, takeWhile_append_dropWhile]
    conv_rhs => rw [hsplit]
    exact (prefix_append_right_inj _).mpr (ih _)

/-- The outcome of a line, by its words and the capacity it is run with. -/
def lineOutcome (env : NsEnv) (text : List UInt8) (c : Int) : Outcome :=
  match nlParse text with
  | some cmd =>
    dispatchArgs env cmd.cmd cmd.arg1 cmd.arg2 (cmd.arg1.length + 256) 256 256
  | none =>
    let l := splitLine (tokenizedText nlMaxTokens text)
    dispatchArgs env l.cmd l.arg1 l.arg2 (l.arg1.length + l.gap2.length) (c - l.offset1)
      (c - l.offset2)

theorem runLine_outcome (htext : 0 ∉ text) :
    (runLine env lead text behind c).1 = lineOutcome env text c := by
  unfold runLine lineOutcome
  cases hnl : nlParse text with
  | some cmd =>
    have hstr := nlParse_noNul htext hnl
    have hout := @dispatch_outcome env cmd.cmd [] cmd.arg1 (List.replicate 256 0) cmd.arg2
      (List.replicate 255 0) 256 256 hstr.arg1 hstr.arg2 (.inr rfl)
    simp only [nil_append, length_nil, Nat.zero_add, length_replicate] at hout
    exact hout
  | none =>
    dsimp only
    have hkept : 0 ∉ tokenizedText nlMaxTokens text :=
      fun h => htext ((tokenizedText_initial _ _).subset h)
    generalize tokenizedText nlMaxTokens text = kept at hkept ⊢
    obtain ⟨h1, h2⟩ := zero_notMem_splitLine hkept
    have hout := @dispatch_outcome env (splitLine kept).cmd
      (List.replicate lead blank ++ ((splitLine kept).cmd ++ cutGap (splitLine kept).gap1))
      (splitLine kept).arg1 (cutGap (splitLine kept).gap2) (splitLine kept).arg2
      (if kept = text then behind else text.drop (kept.length + 1) ++ 0 :: behind)
      (c - (splitLine kept).offset1) (c - (splitLine kept).offset2) h1 h2 (splitLine_gap2 kept)
    rw [length_memFront, length_cutGap] at hout
    rw [← hout, TokenLine.mem, TokenLine.offset2, Nat.add_assoc lead]

/-! ### Lines of more than sixteen words -/

/-- The parser understands the line, or has not cut it behind its sixteenth word. -/
def Uncut (text : List UInt8) : Prop :=
  nlParse text = none → tokenizedText nlMaxTokens text = text

theorem not_pathByte_blank : ¬ PathByte blank := by
  rintro (h | h) <;> revert h <;> decide

/-- An argument with a blank in it is no namespace path that has a translation. -/
theorem translated_of_blank (h : translated env o = some t) (hb : blank ∈ o) : t = o := by
  rcases translated_eq_some h with ⟨-, ht⟩ | ⟨-, hok⟩
  · exact ht
  exfalso
  obtain ⟨-, tail, htarget, -⟩ := nsToFsPath_ok hok
  unfold nsTarget at htarget
  split at htarget
  · cases htarget
  next c hc =>
  obtain ⟨-, hscan, -⟩ := nsCanonical_eq_some.mp hc
  -- only slashes are stripped from the end
  have hmem : blank ∈ o.map lowerByte := mem_map.mpr ⟨blank, hb, by decide⟩
  rw [← @rdropWhile_append_rtakeWhile _ (· == slash) (o.map lowerByte), mem_append]
    at hmem
  rcases hmem with hmem | hmem
  · exact not_pathByte_blank (pathByte_of_isNsPath (scanPath_iff.mp hscan) blank hmem)
  · exact absurd (mem_rtakeWhile_imp hmem) (by decide)

theorem secondOutcome_second {first found a b : List UInt8} {cmd' : List UInt8}
    {kept : List UInt8 → List UInt8} {max : Int}
    (h : secondOutcome cmd first found kept (nsToFsPath env found max) = .handed ⟨cmd', a, b⟩) :
    b = found ∨ blank ∉ b := by
  cases hr : nsToFsPath env found max with
  | ok u =>
    rw [hr] at h
    cases h
    exact .inr fun hb => not_pathByte_blank (pathByte_of_ok hr blank hb)
  | notNs =>
    rw [hr] at h
    cases h
    exact .inl rfl
  | eParse | eUnknown | eVolume | eKind =>
    rw [hr] at h
    cases h

/-- The second argument that is handed over is the one of the line, or has no blank. -/
theorem dispatchArgs_second {o1 o2 a b cmd' : List UInt8} {k : Nat} {cap1 cap2 : Int}
    (h : dispatchArgs env cmd o1 o2 k cap1 cap2 = .handed ⟨cmd', a, b⟩) : b = o2 ∨ blank ∉ b := by
  unfold dispatchArgs at h
  split at h
  · cases h
    exact .inl rfl
  cases hr : nsToFsPath env o1 (argMax cap1) with
  | ok u =>
    rw [hr] at h
    dsimp only at h
    split at h
    · rcases secondOutcome_second h with rfl | hb
      · exact .inr fun hb =>
          not_pathByte_blank (pathByte_of_ok hr blank (mem_of_mem_drop hb))
      · exact .inr hb
    · exact secondOutcome_second h
  | notNs =>
    rw [hr] at h
    exact secondOutcome_second h
  | eParse | eUnknown | eVolume | eKind =>
    rw [hr] at h
    cases h

/-- Nothing of a text is cut when the rest behind its first word is not. -/
theorem tokenizedText_succ_eq {max : Nat} (hend : s.dropWhile (· == blank) = [] → s = [])
    (hrest : tokenizedText max ((s.dropWhile (· == blank)).dropWhile (· != blank)) =
      (s.dropWhile (· == blank)).dropWhile (· != blank)) : tokenizedText (max + 1) s = s := by
  unfold tokenizedText
  dsimp only
  split
  · next hnil => exact (hend hnil).symm
  · rw [hrest, append_assoc, takeWhile_append_dropWhile, takeWhile_append_dropWhile]

theorem kTrim_start (s : List UInt8) : (kTrim s).dropWhile (· == blank) = kTrim s := by
  cases htrim : kTrim s with
  | nil => rfl
  | cons b rest =>
    have hinit : b :: rest <+: s.dropWhile (· == blank) := htrim ▸ rdropWhile_prefix _ _
    obtain ⟨tail, htail⟩ := hinit
    have hb := head?_dropWhile_not (· == blank) s
    rw [← htail] at hb
    exact dropWhile_cons_of_neg (by simpa using hb)

theorem kTrim_end {rest : List UInt8} (hrest : rest <:+ kTrim s)
    (hblank : rest.dropWhile (· == blank) = []) : rest = [] := by
  by_contra hne
  have hlast := rdropWhile_last_not (· == blank) (s.dropWhile (· == blank))
    (hrest.ne_nil hne)
  have hall := dropWhile_eq_nil_iff.mp hblank _ (getLast_mem hne)
  rw [hrest.getLast hne] at hall
  exact hlast hall

/-- A trimmed line that is cut behind its sixteenth word has a blank in its second argument. -/
theorem blank_mem_arg2 (hcut : tokenizedText nlMaxTokens (kTrim s) ≠ kTrim s) :
    blank ∈ (splitLine (kTrim s)).arg2 := by
  by_contra hno
  refine hcut ?_
  simp only [splitLine] at hno
  have h1 : (kTrim s).dropWhile (· != blank) <:+ kTrim s := dropWhile_suffix _
  have h2 := ((dropWhile_suffix (l := ((kTrim s).dropWhile (· != blank)).dropWhile
    (· == blank)) (· != blank)).trans (dropWhile_suffix _)).trans h1
  refine tokenizedText_succ_eq (kTrim_end (suffix_refl _)) ?_
  rw [kTrim_start]
  refine tokenizedText_succ_eq (kTrim_end h1) (tokenizedText_succ_eq (kTrim_end h2) ?_)
  rw [dropWhile_eq_nil_iff.mpr fun b hb => ?_]
  · rfl
  · exact bne_iff_ne.mpr fun heq => hno (heq ▸ hb)

theorem ne_nil_of_dropWhile {p : UInt8 → Bool} (h : s.dropWhile p ≠ []) : s ≠ [] :=
  fun hnil => h (by rw [hnil]; rfl)

theorem dropWhile_append_of_ne {p : UInt8 → Bool} {r : List UInt8} (h : s.dropWhile p ≠ []) :
    (s ++ r).dropWhile p = s.dropWhile p ++ r := by
  rw [dropWhile_append, if_neg (by simpa using h)]

/-- What stands behind a line with a second argument belongs to that argument. -/
theorem splitLine_arg2_append {r : List UInt8} (h : (splitLine s).arg2 ≠ []) :
    (splitLine (s ++ r)).arg2 = (splitLine s).arg2 ++ r := by
  simp only [splitLine] at h ⊢
  have h3 := ne_nil_of_dropWhile h
  have h2 := ne_nil_of_dropWhile h3
  have h1 := ne_nil_of_dropWhile h2
  rw [dropWhile_append_of_ne h1, dropWhile_append_of_ne h2, dropWhile_append_of_ne h3,
    dropWhile_append_of_ne h]

/-- A line that is cut does not give the handler its second argument. -/
theorem runLine_uncut (htext : 0 ∉ kTrim s) (hnl : nlParse (kTrim s) = none)
    (ht2 : translated env (splitLine (kTrim s)).arg2 = some t2)
    (h : (runLine env lead (kTrim s) behind c).1 = .handed ⟨cmd, t1, t2⟩) :
    tokenizedText nlMaxTokens (kTrim s) = kTrim s := by
  by_contra hcut
  have hblank := blank_mem_arg2 hcut
  obtain rfl := translated_of_blank ht2 hblank
  rw [runLine_outcome htext, lineOutcome, hnl] at h
  rcases dispatchArgs_second h with heq | hno
  · obtain ⟨r, hr⟩ := tokenizedText_initial nlMaxTokens (kTrim s)
    have hne : (splitLine (tokenizedText nlMaxTokens (kTrim s))).arg2 ≠ [] :=
      fun hnil => by rw [heq, hnil] at hblank; cases hblank
    have happ := splitLine_arg2_append (r := r) hne
    rw [hr, heq] at happ
    have hnil : r = [] := by simpa using happ
    rw [hnil, append_nil] at hr
    exact hcut hr
  · exact hno hblank

/-- A command line without a redirection gives the handler both translations, and writes nothing
outside the buffer, exactly when it fits. -/
theorem runLine_iff (htext : 0 ∉ text) (hroom : lead + text.length ≤ cap)
    (hwords : Uncut text)
    (ht1 : translated env (plainCommand text).arg1 = some t1)
    (ht2 : translated env (plainCommand text).arg2 = some t2) :
    ((runLine env lead text behind c).1 = .handed ⟨(plainCommand text).cmd, t1, t2⟩ ∧
      ∀ w ∈ (runLine env lead text behind c).2, w < cap) ↔ LineFits text t1 t2 lead c cap := by
  have hinside : ∀ w ∈ List.range' lead text.length, w < cap := by
    intro w hw
    have := mem_range'_1.mp hw
    omega
  unfold runLine LineFits
  unfold plainCommand at ht1 ht2 ⊢
  cases hnl : nlParse text with
  | some cmd =>
    rw [hnl] at ht1 ht2
    dsimp only
    refine ⟨fun _ => .inl rfl, fun _ => ⟨?_, hinside⟩⟩
    exact dispatch_nlBuffers (nlParse_noNul htext hnl) ht1 ht2
  | none =>
    rw [hnl] at ht1 ht2
    dsimp only at ht1 ht2 ⊢
    rw [hwords hnl, if_pos rfl]
    obtain ⟨h1, h2⟩ := zero_notMem_splitLine htext
    have hcuts : ∀ w ∈ (splitLine text).cuts lead, w < cap := fun w hw => by
      have := cuts_lt hw
      omega
    rw [append_assoc, forall_append_lt hinside, forall_append_lt hcuts]
    simp only [Option.isSome_none, Bool.false_eq_true, false_or, Option.isNone_none, true_and]
    by_cases hcmd : (splitLine text).cmd = cstr "ns"
    · -- `ns` gets its arguments as they are
      have hmem1 : strAt ((splitLine text).mem lead behind) (lead + (splitLine text).offset1) =
          (splitLine text).arg1 := by
        rw [TokenLine.mem, ← length_memFront]
        exact strAt_first h1 (splitLine_gap2 text)
      have hmem2 : strAt ((splitLine text).mem lead behind) (lead + (splitLine text).offset2) =
          (splitLine text).arg2 := by
        rw [TokenLine.mem, TokenLine.offset2, ← Nat.add_assoc, ← length_memFront,
          ← length_cutGap (splitLine text).gap2]
        exact strAt_second h2
      rw [dispatch, if_pos hcmd, hmem1, hmem2]
      simp only [Outcome.handed.injEq, NlCommand.mk.injEq, true_and, not_mem_nil,
        false_implies, implies_true, and_true, hcmd, ne_eq, not_true_eq_false, false_and, or_false]
      rw [translated_self_iff ht1, translated_self_iff ht2]
    · have hiff := @dispatch_iff env (splitLine text).cmd
        (List.replicate lead blank ++ ((splitLine text).cmd ++ cutGap (splitLine text).gap1))
        (splitLine text).arg1 (cutGap (splitLine text).gap2) (splitLine text).arg2 behind t1 t2
        (c - (splitLine text).offset1) (c - (splitLine text).offset2) cap hcmd h1 h2
        (splitLine_gap2 text) ht1 ht2 _ rfl
      rw [length_memFront, length_cutGap] at hiff
      simp only [hcmd, ne_eq, not_false_eq_true, true_and, false_and, false_or]
      rw [← hiff, TokenLine.offset2, Nat.add_assoc lead]
      rfl

theorem runLine_trimmed_iff (htext : 0 ∉ kTrim s) (hroom : lead + (kTrim s).length ≤ cap)
    (ht1 : translated env (plainCommand (kTrim s)).arg1 = some t1)
    (ht2 : translated env (plainCommand (kTrim s)).arg2 = some t2) :
    ((runLine env lead (kTrim s) behind c).1 = .handed ⟨(plainCommand (kTrim s)).cmd, t1, t2⟩ ∧
      ∀ w ∈ (runLine env lead (kTrim s) behind c).2, w < cap) ↔
      Uncut (kTrim s) ∧ LineFits (kTrim s) t1 t2 lead c cap := by
  constructor
  · intro h
    have huncut : Uncut (kTrim s) := fun hnl => by
      refine runLine_uncut htext hnl ?_ h.1
      rw [plainCommand, hnl] at ht2
      exact ht2
    exact ⟨huncut, (runLine_iff htext hroom huncut ht1 ht2).mp h⟩
  · rintro ⟨huncut, hfits⟩
    exact (runLine_iff htext hroom huncut ht1 ht2).mpr hfits

theorem redirectFrom_lt {prev : UInt8} {i : Nat} (h : redirectFrom prev text = some i) :
    i < text.length := by
  induction text generalizing prev i with
  | nil => cases h
  | cons b text ih =>
    unfold redirectFrom at h
    split at h
    · cases h
      simp
    obtain ⟨j, hj, rfl⟩ := Option.map_eq_some_iff.mp h
    have := ih hj
    simp only [length_cons]
    omega

theorem redirectOf_command {r : Redirect} (h : redirectOf text = some r) :
    r.command ⊆ text ∧ r.command.length < text.length := by
  obtain ⟨i, hi, rfl⟩ := Option.map_eq_some_iff.mp h
  have hlt := redirectFrom_lt hi
  refine ⟨take_subset i text, ?_⟩
  simp only [length_take]
  omega

/-- For a line in its buffer whose two arguments have a translation, `process_command` gives the
handler both translations and writes nothing outside the buffer exactly when the line is not cut
and fits. -/
theorem process_translates_iff (env : NsEnv) (line behind t1 t2 : List UInt8) (cap : Nat)
    (hline : line.length < cap) (hnul : 0 ∉ line) (hrun : commandText line ≠ [])
    (ht1 : translated env (plainCommand (commandText line)).arg1 = some t1)
    (ht2 : translated env (plainCommand (commandText line)).arg2 = some t2) :
    ((processCommand env line behind cap).1 =
        .handed ⟨(plainCommand (commandText line)).cmd, t1, t2⟩ ∧
      ∀ w ∈ (processCommand env line behind cap).2, w < cap) ↔
      Uncut (commandText line) ∧ LineFits (commandText line) t1 t2
        (line.takeWhile (· == blank)).length (commandCap line cap) cap := by
  have hlen := length_kTrim_le line
  have hnul' : 0 ∉ kTrim line := fun h => hnul (kTrim_subset line h)
  have htrim : ∀ w ∈ List.range' ((line.takeWhile (· == blank)).length + (kTrim line).length)
      (line.length - ((line.takeWhile (· == blank)).length + (kTrim line).length)), w < cap := by
    intro w hw
    have := mem_range'_1.mp hw
    omega
  unfold processCommand commandCap
  dsimp only
  unfold commandText at hrun ht1 ht2 ⊢
  cases hred : redirectOf (kTrim line) with
  | none =>
    rw [hred] at hrun ht1 ht2
    dsimp only at hrun ht1 ht2 ⊢
    rw [if_neg hrun]
    rw [forall_append_lt htrim]
    exact runLine_trimmed_iff hnul' (by omega) ht1 ht2
  | some r =>
    rw [hred] at hrun ht1 ht2
    dsimp only at hrun ht1 ht2 ⊢
    have htarget : r.target ≠ [] := fun h => hrun (if_pos h)
    rw [if_neg htarget] at hrun ht1 ht2 ⊢
    have htext : kTrim line ≠ [] := by
      intro h
      rw [h] at hred
      cases hred
    rw [if_neg htext, if_neg htarget, if_neg hrun]
    obtain ⟨hsub, hlt⟩ := redirectOf_command hred
    have hinner := length_kTrim_le r.command
    have hcut : ∀ w ∈ List.range' ((line.takeWhile (· == blank)).length + (kTrim r.command).length)
        (r.command.length + 1 - (kTrim r.command).length), w < cap := by
      intro w hw
      have := mem_range'_1.mp hw
      omega
    rw [append_assoc, forall_append_lt htrim, forall_append_lt hcut]
    exact runLine_trimmed_iff (fun h => hnul' (hsub (kTrim_subset _ h))) (by omega) ht1 ht2

end Handed

/-- A machine without a storage device. -/
def bareMachine : NsEnv := ⟨none, [], 0⟩

theorem process_translates_user :
    (processCommand bareMachine (cstr "  vcat 0/user/a 0/user/b") [] 64).1 =
        .handed ⟨cstr "vcat", cstr "/a", cstr "/b"⟩ ∧
      ∀ w ∈ (processCommand bareMachine (cstr "  vcat 0/user/a 0/user/b") [] 64).2, w < 64 := by
  have hcmd : plainCommand (commandText (cstr "  vcat 0/user/a 0/user/b")) =
      ⟨cstr "vcat", cstr "0/user/a", cstr "0/user/b"⟩ := by decide
  have hiff := process_translates_iff bareMachine (cstr "  vcat 0/user/a 0/user/b") [] (cstr "/a")
    (cstr "/b") 64 (by decide) (by decide) (by decide)
    (by rw [hcmd]; decide) (by rw [hcmd]; decide)
  rw [hcmd] at hiff
  refine hiff.mpr ⟨fun _ => by decide,
    .inr (.inr ⟨by decide, by decide, ?_⟩)⟩
  exact ⟨by decide, by decide, by decide, .inr (by decide)⟩

/-- The translation of the first argument overwrites the second one, and with one leading blank
the last byte of a translation lands behind the buffer. -/
theorem translation_overruns : plainCommand (commandText (cstr "vcat 0/system/version x")) =
        ⟨cstr "vcat", cstr "0/system/version", cstr "x"⟩ ∧
      translated bareMachine (cstr "0/system/version") = some (cstr "/0/system/version") ∧
      translated bareMachine (cstr "x") = some (cstr "x") ∧
      (processCommand bareMachine (cstr "vcat 0/system/version x") [] 256).1 =
        .handed ⟨cstr "vcat", cstr "/0/system/version", []⟩ ∧
      (cstr " vcat 0/system/version").length < 23 ∧
      23 ∈ (processCommand bareMachine (cstr " vcat 0/system/version") [] 23).2 := by
  decide

end OpenSys
