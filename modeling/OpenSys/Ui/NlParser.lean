-- SUMMARY: The natural-language parser of nl_parser.c.
import Mathlib.Data.FinEnum
import OpenSys.Lib.Text

/-!
# The natural-language parser

`nl_parse` cuts a phrase into at most sixteen tokens, finds the verb at its front, sorts the
other tokens by the vocabulary, and fills in the command and its two arguments. A phrase
"write W to F" comes out as the command with the file and the content as long as all of its
words are among the first sixteen tokens.
-/

namespace OpenSys

open List Text

/-- `NL_MAX_TOKENS` -/
def nlMaxTokens : Nat := 16
/-- `NL_WORD_LEN` -/
def nlWordLen : Nat := 32
/-- `NL_OUT_LEN` -/
def nlOutLen : Nat := 256

/-- `' '` -/
def blank : UInt8 := 32

/-! ## Tokens -/

/-- `nl_token_t`: the token as written, and in lower case for the vocabulary. -/
structure NlToken where
  orig : List UInt8
  lower : List UInt8
  deriving DecidableEq

/-- One letter of `tolower_copy`. -/
def nlLower (c : UInt8) : UInt8 := if 'A'.toUInt8 ≤ c ∧ c ≤ 'Z'.toUInt8 then c + 32 else c

/-- `tolower_copy` -/
def tolowerCopy (src : List UInt8) (max : Nat) : List UInt8 := (src.take (max - 1)).map nlLower

/-- The token made of a word. -/
def nlToken (word : List UInt8) : NlToken := ⟨word, tolowerCopy word nlWordLen⟩

/-- `tokenize` -/
def tokenize : (max : Nat) → List UInt8 → List NlToken
  | 0, _ => []
  | max + 1, s =>
    let p := s.dropWhile (· == blank)
    if p = [] then []
    else nlToken (p.takeWhile (· != blank)) :: tokenize max (p.dropWhile (· != blank)).tail

/-- The text up to the end of the last token, which is what `tokenize` and `untokenize` leave of
a buffer that has a token. -/
def tokenizedText : (max : Nat) → List UInt8 → List UInt8
  | 0, _ => []
  | max + 1, s =>
    let p := s.dropWhile (· == blank)
    if p = [] then []
    else s.takeWhile (· == blank) ++ p.takeWhile (· != blank) ++
      tokenizedText max (p.dropWhile (· != blank))

/-- `copy_token` -/
def copyToken (t : NlToken) (max : Nat) : List UInt8 := t.orig.take (max - 1)

/-- `append_token` -/
def appendToken (max : Nat) (dst : List UInt8) (t : NlToken) : List UInt8 :=
  let dst := if dst ≠ [] ∧ dst.length < max - 1 then dst ++ [blank] else dst
  dst ++ t.orig.take (max - 1 - dst.length)

/-- `join_tokens`, and `join_span_verbatim` on the tokens of the span. -/
def joinTokens (toks : List NlToken) (max : Nat) : List UInt8 := toks.foldl (appendToken max) []

/-! ## Vocabulary -/

/-- The command ids of the parser. -/
inductive NlVerb where
  | list | read | create | delete | write | append | copy | move | rename | mkdir | cd | pwd
  | memory | processes | date | uptime | version | echo | whoami | env | history | clear | help
  | reboot | shutdown | find | edit | ping | sysinfo | info | openWindow | closeWindow
  | focusWindow | moveWindow | listWindows
  deriving DecidableEq, Repr

/-- `fillers` -/
def fillers : List (List UInt8) :=
  ["the", "a", "an", "please", "kindly", "would", "like", "want", "can", "could", "you", "i",
   "me", "my", "this", "that", "these", "those", "all", "some", "of", "with", "for", "do",
   "does", "did", "yes", "just", "may", "might", "shall", "should", "will", "we", "our", "us",
   "it", "its", "them", "their", "any", "each", "every", "other", "another", "ok", "okay",
   "alright", "sure", "now", "then", "so", "well", "also", "actually", "really", "is", "are",
   "am", "what", "which", "who", "about", "if", "even", "only", "much", "many", "more", "most",
   "little", "few", "please"].map cstr

/-- `contexts` -/
def contexts : List (List UInt8) :=
  ["file", "files", "folder", "folders", "directory", "directories", "dir", "dirs", "item",
   "items", "entry", "entries", "content", "contents", "screen", "things", "stuff",
   "everything", "data"].map cstr

/-- `loc_markers` -/
def locMarkers : List (List UInt8) :=
  ["in", "inside", "from", "under", "within", "at", "on"].map cstr

/-- `name_markers` -/
def nameMarkers : List (List UInt8) :=
  ["called", "named", "entitled", "to"].map cstr

/-- The destination markers. -/
inductive NlDest where
  | none | cwd | home | parent
  deriving DecidableEq

/-- The words of `special_dest`. -/
def destWords : List (List UInt8) :=
  ["current", "here", "same", "home", "root", "parent", "up", "back"].map cstr

/-- `special_dest` -/
def specialDest (w : List UInt8) : NlDest :=
  if w ∈ ["current", "here", "same"].map cstr then .cwd
  else if w ∈ ["home", "root"].map cstr then .home
  else if w ∈ ["parent", "up", "back"].map cstr then .parent
  else .none

/-- `nl_phrase_t`; a phrase of two words has no third. -/
structure NlPhrase where
  w1 : List UInt8
  w2 : List UInt8
  w3 : Option (List UInt8)
  id : NlVerb

/-- `phrases`, which are checked before single verbs. -/
def phrases : List NlPhrase :=
  [ ⟨cstr "current", cstr "date", some (cstr "time"), .date⟩,
    ⟨cstr "who", cstr "am", some (cstr "i"), .whoami⟩,
    ⟨cstr "make", cstr "directory", none, .mkdir⟩,
    ⟨cstr "make", cstr "folder", none, .mkdir⟩,
    ⟨cstr "make", cstr "dir", none, .mkdir⟩,
    ⟨cstr "create", cstr "directory", none, .mkdir⟩,
    ⟨cstr "create", cstr "folder", none, .mkdir⟩,
    ⟨cstr "new", cstr "directory", none, .mkdir⟩,
    ⟨cstr "new", cstr "folder", none, .mkdir⟩,
    ⟨cstr "go", cstr "to", none, .cd⟩,
    ⟨cstr "go", cstr "into", none, .cd⟩,
    ⟨cstr "change", cstr "directory", none, .cd⟩,
    ⟨cstr "open", cstr "window", none, .openWindow⟩,
    ⟨cstr "open", cstr "application", none, .openWindow⟩,
    ⟨cstr "launch", cstr "window", none, .openWindow⟩,
    ⟨cstr "launch", cstr "application", none, .openWindow⟩,
    ⟨cstr "close", cstr "window", none, .closeWindow⟩,
    ⟨cstr "close", cstr "application", none, .closeWindow⟩,
    ⟨cstr "focus", cstr "window", none, .focusWindow⟩,
    ⟨cstr "move", cstr "window", none, .moveWindow⟩,
    ⟨cstr "list", cstr "windows", none, .listWindows⟩,
    ⟨cstr "show", cstr "windows", none, .listWindows⟩,
    ⟨cstr "display", cstr "windows", none, .listWindows⟩,
    ⟨cstr "show", cstr "memory", none, .memory⟩,
    ⟨cstr "display", cstr "memory", none, .memory⟩,
    ⟨cstr "view", cstr "memory", none, .memory⟩,
    ⟨cstr "show", cstr "processes", none, .processes⟩,
    ⟨cstr "list", cstr "processes", none, .processes⟩,
    ⟨cstr "display", cstr "processes", none, .processes⟩,
    ⟨cstr "show", cstr "tasks", none, .processes⟩,
    ⟨cstr "list", cstr "tasks", none, .processes⟩,
    ⟨cstr "system", cstr "information", none, .sysinfo⟩,
    ⟨cstr "system", cstr "info", none, .sysinfo⟩,
    ⟨cstr "date", cstr "time", none, .date⟩,
    ⟨cstr "current", cstr "time", none, .date⟩,
    ⟨cstr "current", cstr "date", none, .date⟩,
    ⟨cstr "clear", cstr "screen", none, .clear⟩,
    ⟨cstr "clean", cstr "screen", none, .clear⟩,
    ⟨cstr "information", cstr "about", none, .info⟩,
    ⟨cstr "info", cstr "about", none, .info⟩,
    ⟨cstr "details", cstr "about", none, .info⟩,
    ⟨cstr "show", cstr "files", none, .list⟩,
    ⟨cstr "display", cstr "files", none, .list⟩,
    ⟨cstr "view", cstr "files", none, .list⟩,
    ⟨cstr "list", cstr "files", none, .list⟩,
    ⟨cstr "see", cstr "files", none, .list⟩,
    ⟨cstr "show", cstr "contents", none, .list⟩,
    ⟨cstr "list", cstr "contents", none, .list⟩,
    ⟨cstr "show", cstr "file", none, .read⟩,
    ⟨cstr "display", cstr "file", none, .read⟩,
    ⟨cstr "view", cstr "file", none, .read⟩,
    ⟨cstr "see", cstr "file", none, .read⟩,
    ⟨cstr "power", cstr "off", none, .shutdown⟩ ]

/-- `verbs` -/
def verbs : List (List UInt8 × NlVerb) :=
  (([("list", .list), ("show", .list), ("display", .list), ("view", .list), ("see", .list),
    ("ls", .list), ("enumerate", .list), ("create", .create), ("make", .create),
    ("new", .create), ("touch", .create), ("start", .create), ("generate", .create),
    ("delete", .delete), ("remove", .delete), ("erase", .delete), ("destroy", .delete),
    ("drop", .delete), ("rm", .delete), ("discard", .delete), ("read", .read), ("cat", .read),
    ("open", .read), ("dump", .read), ("write", .write), ("save", .write), ("store", .write),
    ("put", .write), ("set", .write), ("record", .write), ("append", .append), ("copy", .copy),
    ("duplicate", .copy), ("clone", .copy), ("cp", .copy), ("move", .move), ("relocate", .move),
    ("transfer", .move), ("rename", .rename), ("mkdir", .mkdir), ("md", .mkdir), ("cd", .cd),
    ("go", .cd), ("goto", .cd), ("pwd", .pwd), ("where", .pwd), ("location", .pwd),
    ("memory", .memory), ("ram", .memory), ("processes", .processes), ("process", .processes),
    ("tasks", .processes), ("task", .processes), ("date", .date), ("time", .date),
    ("clock", .date), ("today", .date), ("uptime", .uptime), ("version", .version),
    ("echo", .echo), ("say", .echo), ("repeat", .echo), ("print", .echo), ("whoami", .whoami),
    ("user", .whoami), ("env", .env), ("environment", .env), ("history", .history),
    ("clear", .clear), ("cls", .clear), ("clean", .clear), ("wipe", .clear), ("help", .help),
    ("commands", .help), ("usage", .help), ("options", .help), ("assistance", .help),
    ("reboot", .reboot), ("restart", .reboot), ("shutdown", .shutdown), ("poweroff", .shutdown),
    ("find", .find), ("search", .find), ("locate", .find), ("edit", .edit), ("ping", .ping),
    ("here", .pwd)] : List (String × NlVerb)).map fun v => (cstr v.1, v.2))

/-! ## The verb -/

/-- The token is a filler word. -/
def NlToken.filler (t : NlToken) : Bool := decide (t.lower ∈ fillers)

/-- The tokens behind the next word of a phrase, after any fillers. -/
def matchWord (toks : List NlToken) (w : List UInt8) : Option (List NlToken) :=
  match toks.dropWhile NlToken.filler with
  | [] => none
  | t :: rest => if t.lower = w then some rest else none

/-- `match_phrase_at`: the tokens behind the phrase. -/
def matchPhraseAt (toks : List NlToken) (ph : NlPhrase) : Option (List NlToken) :=
  match toks with
  | [] => none
  | t :: rest =>
    if t.lower = ph.w1 then
      (matchWord rest ph.w2).bind fun rest =>
        match ph.w3 with
        | none => some rest
        | some w3 => matchWord rest w3
    else none

/-- The verb, the tokens from it on, and the tokens behind it. -/
structure FoundVerb where
  id : NlVerb
  start : List NlToken
  behind : List NlToken

/-- The search for the verb: multi-word phrases, then single verbs, at the front of the phrase or
behind fillers. -/
def findVerb : List NlToken → Option FoundVerb
  | [] => none
  | t :: rest =>
    match phrases.findSome? fun ph => (matchPhraseAt (t :: rest) ph).map (ph.id, ·) with
    | some (id, behind) => some ⟨id, t :: rest, behind⟩
    | none =>
      match verbs.find? fun v => t.lower == v.1 with
      | some v => some ⟨v.2, t :: rest, rest⟩
      | none => if t.filler then findVerb rest else none

/-- The object word behind a verb of the show family. -/
def showObject : List NlToken → Option (NlVerb × List NlToken)
  | [] => none
  | t :: rest =>
    if t.filler then showObject rest
    else if t.lower = cstr "memory" ∨ t.lower = cstr "ram" then some (.memory, rest)
    else if t.lower ∈ ["processes", "process", "tasks", "task"].map cstr then some (.processes, rest)
    else if t.lower = cstr "windows" then some (.listWindows, rest)
    else if t.lower = cstr "file" then some (.read, rest)
    else if t.lower = cstr "files" then some (.list, rest)
    else none

/-- The verb after the object word of "show me the memory" and the like. -/
def withObject (v : FoundVerb) : FoundVerb :=
  if v.id = .list ∧ (v.start.head?.map NlToken.lower).any
      (· ∈ ["show", "display", "view", "see"].map cstr) then
    match showObject v.behind with
    | none => v
    | some (id, behind) => ⟨id, v.start, behind⟩
  else v

/-! ## The arguments -/

/-- What the next plain token belongs to. -/
inductive NlMode where
  | bare | location | name
  deriving DecidableEq

/-- The variables of the extraction loop. `content` is the span before the first name marker,
once there is one. -/
structure NlArgs where
  mode : NlMode
  dest : NlDest
  content : Option (List NlToken)
  pathBuf : List UInt8
  nameBuf : List UInt8
  bareToks : List NlToken

def NlArgs.init : NlArgs := ⟨.bare, .none, none, [], [], []⟩

/-- One token of the extraction loop; `before` are the tokens between the verb and this one. -/
def extractToken (before : List NlToken) (a : NlArgs) (t : NlToken) : NlArgs :=
  if t.filler then a
  else if t.lower ∈ contexts then a
  else if specialDest t.lower ≠ .none then { a with dest := specialDest t.lower }
  else if t.lower ∈ locMarkers then { a with mode := .location }
  else if t.lower ∈ nameMarkers then
    { a with mode := .name, content := a.content.or (some before) }
  else
    match a.mode with
    | .location => { a with pathBuf := appendToken nlOutLen a.pathBuf t }
    | .name => { a with nameBuf := appendToken nlOutLen a.nameBuf t }
    | .bare => { a with bareToks := a.bareToks ++ [t] }

/-- The extraction loop. -/
def extractArgs : (before : List NlToken) → NlArgs → List NlToken → NlArgs
  | _, a, [] => a
  | before, a, t :: rest => extractArgs (before ++ [t]) (extractToken before a t) rest

/-- A command with its two arguments. -/
structure NlCommand where
  cmd : List UInt8
  arg1 : List UInt8
  arg2 : List UInt8
  deriving DecidableEq

/-- The name of a command in the shell. -/
def NlVerb.word : NlVerb → List UInt8
  | .list => cstr "list" | .read => cstr "read" | .create => cstr "create"
  | .delete => cstr "delete" | .mkdir => cstr "mkdir" | .find => cstr "find"
  | .edit => cstr "edit" | .ping => cstr "ping" | .write => cstr "write"
  | .append => cstr "append" | .copy => cstr "copy" | .move => cstr "move"
  | .rename => cstr "rename" | .cd => cstr "cd" | .echo => cstr "echo"
  | .memory => cstr "show" | .processes => cstr "show" | .sysinfo => cstr "system"
  | .info => cstr "information" | .listWindows => cstr "list" | .openWindow => cstr "open"
  | .closeWindow => cstr "close" | .focusWindow => cstr "focus" | .moveWindow => cstr "move"
  | .date => cstr "date" | .pwd => cstr "pwd" | .clear => cstr "clear" | .help => cstr "help"
  | .uptime => cstr "uptime" | .version => cstr "version" | .whoami => cstr "whoami"
  | .env => cstr "env" | .history => cstr "history" | .reboot => cstr "reboot"
  | .shutdown => cstr "shutdown"

/-- The single bare token as an argument: none gives the empty argument, several are
ambiguous. -/
def oneBare (toks : List NlToken) : Option (List UInt8) :=
  match toks with
  | [] => some []
  | [t] => some (copyToken t nlOutLen)
  | _ => none

/-- The `switch` of `nl_parse`. -/
def nlCommand (verb : NlVerb) (a : NlArgs) : Option NlCommand :=
  let bareJoined := joinTokens a.bareToks nlOutLen
  match verb with
  | .list =>
    if a.pathBuf ≠ [] then some ⟨verb.word, a.pathBuf, []⟩
    else (oneBare a.bareToks).map fun arg1 => ⟨verb.word, arg1, []⟩
  | .read | .create | .delete | .mkdir | .find | .edit | .ping =>
    if a.nameBuf ≠ [] then some ⟨verb.word, a.nameBuf, []⟩
    else if a.pathBuf ≠ [] then some ⟨verb.word, a.pathBuf, []⟩
    else (oneBare a.bareToks).map fun arg1 => ⟨verb.word, arg1, []⟩
  | .write | .append =>
    if a.nameBuf ≠ [] then
      some ⟨verb.word, a.nameBuf, joinTokens (a.content.getD []) nlOutLen⟩
    else (oneBare a.bareToks).map fun arg1 => ⟨verb.word, arg1, []⟩
  | .copy | .move | .rename =>
    if a.nameBuf ≠ [] then some ⟨verb.word, bareJoined, a.nameBuf⟩
    else match a.bareToks with
      | [s, d] => some ⟨verb.word, copyToken s nlOutLen, copyToken d nlOutLen⟩
      | _ => none
  | .cd =>
    if a.dest = .parent then some ⟨cstr "up", [], []⟩
    else if a.dest = .home then some ⟨cstr "home", [], []⟩
    else if a.pathBuf ≠ [] then some ⟨verb.word, a.pathBuf, []⟩
    else if a.nameBuf ≠ [] then some ⟨verb.word, a.nameBuf, []⟩
    else match a.bareToks with
      | [t] => some ⟨verb.word, copyToken t nlOutLen, []⟩
      | [] => some ⟨verb.word, if a.dest = .cwd then cstr "/" else [], []⟩
      | _ => none
  | .echo => some ⟨verb.word, bareJoined, []⟩
  | .memory => some ⟨verb.word, cstr "memory", []⟩
  | .processes => some ⟨verb.word, cstr "processes", []⟩
  | .sysinfo => some ⟨verb.word, cstr "information", []⟩
  | .info =>
    some ⟨verb.word, cstr "about", if a.nameBuf ≠ [] then a.nameBuf
      else match a.bareToks with
        | [t] => copyToken t nlOutLen
        | _ => []⟩
  | .listWindows => some ⟨verb.word, cstr "windows", []⟩
  | .openWindow | .closeWindow | .focusWindow | .moveWindow =>
    some ⟨verb.word, cstr "window", bareJoined⟩
  | .date => some ⟨verb.word, cstr "time", []⟩
  | .pwd | .clear | .help | .uptime | .version | .whoami | .env | .history | .reboot
  | .shutdown => some ⟨verb.word, [], []⟩

/-- What `nl_parse` makes of a verb and the tokens behind it. -/
def nlRun (v : FoundVerb) : Option NlCommand :=
  let v := withObject v
  nlCommand v.id (extractArgs [] .init v.behind)

/-- What `nl_parse` makes of the tokens. -/
def nlParseTokens (toks : List NlToken) : Option NlCommand := (findVerb toks).bind nlRun

/-- `nl_parse`: the command, or -1. -/
def nlParse (input : List UInt8) : Option NlCommand := nlParseTokens (tokenize nlMaxTokens input)

/-! ## Words and tokens -/

/-- A word: not empty and without blanks. -/
structure IsWord (w : List UInt8) : Prop where
  ne : w ≠ []
  blank_notMem : blank ∉ w

theorem tokenize_nil (max : Nat) : tokenize max [] = [] := by
  cases max <;> rfl

/-- The tokens of words with single blanks between them are the first words. -/
theorem tokenize_joined (max : Nat) (words : List (List UInt8)) (h : ∀ w ∈ words, IsWord w) :
    tokenize max (Text.joined blank words) = (words.take max).map nlToken := by
  induction max generalizing words with
  | zero => rfl
  | succ max ih =>
    cases words with
    | nil => rfl
    | cons w words =>
      have hw := h w mem_cons_self
      rw [Text.joined, tokenize, dropWhile_sep hw.blank_notMem hw.ne,
        if_neg (by simp [hw.ne]), takeWhile_field hw.blank_notMem fielded_starts,
        dropWhile_field hw.blank_notMem fielded_starts, take_succ_cons,
        map_cons]
      congr 1
      cases words with
      | nil => simp [tokenize_nil]
      | cons w' words => exact ih (w' :: words) fun x hx => h x (mem_cons_of_mem _ hx)

/-- The vocabulary sees a word in full, because all of its own words are short. -/
theorem lower_mem_iff {l : List (List UInt8)} (w : List UInt8)
    (hl : l.all (·.length < 31) = true) :
    (nlToken w).lower ∈ l ↔ w.map nlLower ∈ l := by
  change (w.take 31).map nlLower ∈ l ↔ _
  rcases Nat.lt_or_ge 31 w.length with hlong | hshort
  · -- neither the cut word nor the whole one can be in the list
    have hnot : ∀ x : List UInt8, 31 ≤ x.length → x ∉ l := fun x hx hmem => by
      have := all_eq_true.mp hl x hmem
      simp at this
      omega
    exact iff_of_false (hnot _ (by simp; omega)) (hnot _ (by simp; omega))
  · rw [take_of_length_le hshort]

variable {dst w : List UInt8} {a : NlArgs} {t : NlToken} {ts us : List NlToken} {max : Nat}

theorem appendToken_of_fits (hne : dst ≠ []) (hfits : dst.length + 1 + w.length ≤ 255) :
    appendToken nlOutLen dst (nlToken w) = dst ++ blank :: w := by
  unfold appendToken nlOutLen
  dsimp only
  rw [if_pos ⟨hne, by omega⟩, length_append, length_singleton,
    take_of_length_le (by change w.length ≤ _; omega), append_assoc]
  rfl

theorem foldl_appendToken (words : List (List UInt8)) (hne : dst ≠ [])
    (hfits : (dst ++ Text.fielded blank words).length ≤ 255) :
    (words.map nlToken).foldl (appendToken nlOutLen) dst = dst ++ Text.fielded blank words := by
  induction words generalizing dst with
  | nil => simp
  | cons w words ih =>
    have hlen : dst.length + 1 + w.length ≤ 255 := by
      simp only [fielded_cons, length_append, length_cons] at hfits
      omega
    rw [map_cons, foldl_cons, appendToken_of_fits hne hlen, ih (by simp)]
    · simp
    · simpa using hfits

/-- Words that fit the buffer are joined by single blanks. -/
theorem joinTokens_words (words : List (List UInt8)) (hwords : ∀ w ∈ words, IsWord w)
    (hfits : (Text.joined blank words).length ≤ 255) :
    joinTokens (words.map nlToken) nlOutLen = Text.joined blank words := by
  cases words with
  | nil => rfl
  | cons w words =>
    have hw := hwords w mem_cons_self
    have hfirst : appendToken nlOutLen [] (nlToken w) = w := by
      have hlen : w.length ≤ 255 := by
        simp only [Text.joined, length_append] at hfits
        omega
      change [] ++ w.take 255 = w
      rw [nil_append, take_of_length_le hlen]
    rw [joinTokens, map_cons, foldl_cons, hfirst]
    exact foldl_appendToken words hw.ne hfits

/-! ## Write and append phrases -/

/-- The words of "write W to F" after the verb. -/
def writeWords (content : List (List UInt8)) (file : List UInt8) : List (List UInt8) :=
  content ++ [cstr "to", file]

/-- The phrase "write W to F". -/
def writePhrase (verb : NlVerb) (content : List (List UInt8)) (file : List UInt8) : List UInt8 :=
  Text.joined blank (verb.word :: writeWords content file)

/-- The word is in none of the vocabulary lists that the extraction loop asks for. -/
structure PlainWord (w : List UInt8) : Prop where
  filler : w.map nlLower ∉ fillers
  context : w.map nlLower ∉ contexts
  dest : w.map nlLower ∉ destWords
  location : w.map nlLower ∉ locMarkers
  name : w.map nlLower ∉ nameMarkers

theorem specialDest_eq_none_iff (w : List UInt8) : specialDest w = .none ↔ w ∉ destWords := by
  have hwords : destWords = ["current", "here", "same"].map cstr ++ (["home", "root"].map cstr ++
      ["parent", "up", "back"].map cstr) := rfl
  rw [hwords, mem_append, mem_append]
  unfold specialDest
  generalize ["current", "here", "same"].map cstr = cwd
  generalize ["home", "root"].map cstr = home
  generalize ["parent", "up", "back"].map cstr = parent
  split
  · simp [*]
  · split
    · simp [*]
    · split <;> simp [*]

theorem extractArgs_append (before ts us : List NlToken) (a : NlArgs) :
    extractArgs before a (ts ++ us) =
      extractArgs (before ++ ts) (extractArgs before a ts) us := by
  induction ts generalizing before a with
  | nil => simp [extractArgs]
  | cons t ts ih =>
    rw [cons_append, extractArgs, extractArgs, ih, append_assoc]
    rfl

/-- Nothing was found yet that a name marker introduces. -/
structure NlArgs.Unnamed (a : NlArgs) : Prop where
  mode : a.mode ≠ .name
  content : a.content = none
  nameBuf : a.nameBuf = []

theorem NlArgs.Unnamed.extractToken (h : a.Unnamed) (before : List NlToken)
    (ht : t.lower ∉ nameMarkers) : (extractToken before a t).Unnamed := by
  obtain ⟨hmode, hcontent, hname⟩ := h
  unfold OpenSys.extractToken
  split
  · exact ⟨hmode, hcontent, hname⟩
  split
  · exact ⟨hmode, hcontent, hname⟩
  split
  · exact ⟨hmode, hcontent, hname⟩
  split
  · exact ⟨by simp, hcontent, hname⟩
  cases hm : a.mode with
  | name => exact absurd hm hmode
  | location => exact ⟨by simp, hcontent, hname⟩
  | bare => exact ⟨by simp, hcontent, hname⟩

/-- The content words name nothing. -/
theorem NlArgs.Unnamed.extractArgs (h : a.Unnamed) (before : List NlToken)
    (hts : ∀ t ∈ ts, t.lower ∉ nameMarkers) :
    (extractArgs before a ts).Unnamed := by
  induction ts generalizing before a with
  | nil => exact h
  | cons t ts ih =>
    exact ih (h.extractToken before (hts t mem_cons_self)) (before ++ [t])
      fun u hu => hts u (mem_cons_of_mem _ hu)

theorem extractToken_to (before : List NlToken) (a : NlArgs) :
    extractToken before a (nlToken (cstr "to")) =
      { a with mode := .name, content := a.content.or (some before) } := by
  unfold extractToken
  rw [if_neg (by decide), if_neg (by decide), if_neg (by decide),
    if_neg (by decide), if_pos (by decide)]

theorem extractToken_plain (hw : PlainWord w) (before : List NlToken) (ha : a.mode = .name) :
    extractToken before a (nlToken w) =
      { a with nameBuf := appendToken nlOutLen a.nameBuf (nlToken w) } := by
  have hfiller : (nlToken w).lower ∉ fillers := (lower_mem_iff w (by decide)).not.mpr hw.filler
  have hcontext : (nlToken w).lower ∉ contexts := (lower_mem_iff w (by decide)).not.mpr hw.context
  have hdest : (nlToken w).lower ∉ destWords := (lower_mem_iff w (by decide)).not.mpr hw.dest
  have hloc : (nlToken w).lower ∉ locMarkers := (lower_mem_iff w (by decide)).not.mpr hw.location
  have hname : (nlToken w).lower ∉ nameMarkers := (lower_mem_iff w (by decide)).not.mpr hw.name
  unfold extractToken
  rw [if_neg (by simpa [NlToken.filler] using hfiller), if_neg hcontext,
    if_neg (by simpa using (specialDest_eq_none_iff _).mpr hdest), if_neg hloc, if_neg hname, ha]

theorem matchWord_filler (h : w ∈ fillers) : matchWord ts w = none := by
  unfold matchWord
  cases hts : ts.dropWhile NlToken.filler with
  | nil => rfl
  | cons t rest =>
    have hnot := head?_dropWhile_not NlToken.filler ts
    rw [hts] at hnot
    refine if_neg fun hw => ?_
    simp [NlToken.filler, hw, h] at hnot

/-- A word that starts no phrase, or only phrases with a filler for the second word, is looked up
among the single verbs. -/
theorem findVerb_single (h : ∀ ph ∈ phrases, ph.w1 = t.lower → ph.w2 ∈ fillers) :
    findVerb (t :: ts) = match verbs.find? fun v => t.lower == v.1 with
      | some v => some ⟨v.2, t :: ts, ts⟩
      | none => if t.filler then findVerb ts else none := by
  have hnone : (phrases.findSome? fun ph => (matchPhraseAt (t :: ts) ph).map (ph.id, ·)) = none := by
    refine findSome?_eq_none_iff.mpr fun ph hph => ?_
    rw [matchPhraseAt]
    split
    · rw [matchWord_filler (h ph hph (by symm; assumption))]
      rfl
    · rfl
  rw [findVerb, hnone]

section Write

variable {v : NlVerb} (hv : v = .write ∨ v = .append)

include hv

theorem isWord_writeVerb : IsWord v.word := by
  rcases hv with rfl | rfl <;> exact ⟨by decide, by decide⟩

/-- A write or append verb at the front is found, and the object words do not change it. -/
theorem findVerb_write (rest : List NlToken) : (findVerb (nlToken v.word :: rest)).map withObject =
      some ⟨v, nlToken v.word :: rest, rest⟩ := by
  have hphrase : ∀ ph ∈ phrases, ph.w1 ≠ (nlToken v.word).lower := by
    rcases hv with rfl | rfl <;> decide
  have hverb : (verbs.find? fun w => (nlToken v.word).lower == w.1) = some (v.word, v) := by
    rcases hv with rfl | rfl <;> decide
  rw [findVerb_single fun ph hph hw => absurd hw (hphrase ph hph), hverb, Option.map_some]
  have hne : v ≠ .list := by rcases hv with rfl | rfl <;> decide
  rw [withObject, if_neg fun h => hne h.1]

theorem nlCommand_write (a : NlArgs) : nlCommand v a =
    if a.nameBuf ≠ [] then some ⟨v.word, a.nameBuf, joinTokens (a.content.getD []) nlOutLen⟩
    else (oneBare a.bareToks).map fun arg1 => ⟨v.word, arg1, []⟩ := by
  rcases hv with rfl | rfl <;> rfl

/-- What the parser makes of a phrase of words that starts with the verb. -/
theorem nlParse_write (words : List (List UInt8)) (hwords : ∀ w ∈ words, IsWord w) :
    nlParse (Text.joined blank (v.word :: words)) =
      nlCommand v (extractArgs [] .init ((words.take 15).map nlToken)) := by
  have htoks : tokenize nlMaxTokens (Text.joined blank (v.word :: words)) =
      nlToken v.word :: (words.take 15).map nlToken :=
    tokenize_joined 16 (v.word :: words) (forall_mem_cons.mpr ⟨isWord_writeVerb hv, hwords⟩)
  have hfound := findVerb_write hv ((words.take 15).map nlToken)
  obtain ⟨w, hw, hobject⟩ := Option.map_eq_some_iff.mp hfound
  rw [nlParse, htoks, nlParseTokens, hw, Option.bind_some, nlRun, hobject]

end Write

/-- For every content of one or more words without a name marker and every plain word as the
file, the phrase "write W to F" is parsed as the command with that file and that content exactly
when the content has at most thirteen words. -/
theorem nl_write_iff (v : NlVerb) (hv : v = .write ∨ v = .append) (content : List (List UInt8))
    (hne : content ≠ []) (hcontent : ∀ w ∈ content, IsWord w ∧ w.map nlLower ∉ nameMarkers)
    (file : List UInt8) (hfile : IsWord file) (hplain : PlainWord file)
    (hlen : (writePhrase v content file).length ≤ 255) :
    nlParse (writePhrase v content file) =
        some ⟨v.word, file, Text.joined blank content⟩ ↔ content.length ≤ 13 := by
  have hwords : ∀ w ∈ writeWords content file, IsWord w := by
    intro w hw
    rcases mem_append.mp hw with hw | hw
    · exact (hcontent w hw).1
    rcases mem_cons.mp hw with rfl | hw
    · exact ⟨by decide, by decide⟩
    · rw [mem_singleton.mp hw]
      exact hfile
  have hunnamed : ∀ n, (extractArgs [] .init ((content.take n).map nlToken)).Unnamed := by
    intro n
    refine NlArgs.Unnamed.extractArgs ⟨by decide, rfl, rfl⟩ [] fun t ht hmem => ?_
    obtain ⟨w, hw, rfl⟩ := mem_map.mp ht
    exact (hcontent w (mem_of_mem_take hw)).2 ((lower_mem_iff w (by decide)).mp hmem)
  rw [writePhrase, nlParse_write hv _ hwords, nlCommand_write hv]
  constructor
  · intro hparse
    by_contra hlong
    -- the file is not among the tokens, so no name is found and the content is dropped
    have hnameless : (extractArgs [] .init
        (((writeWords content file).take 15).map nlToken)).nameBuf = [] := by
      rw [writeWords, take_append]
      rcases Nat.lt_or_ge content.length 15 with hlt | hge
      · have hone : 15 - content.length = 1 := by omega
        rw [take_of_length_le (by omega), hone, map_append, extractArgs_append]
        have := hunnamed content.length
        rw [take_length] at this
        simp only [take_succ_cons, take_zero, map_cons, map_nil, extractArgs, extractToken_to]
        exact this.nameBuf
      · have hzero : 15 - content.length = 0 := by omega
        rw [hzero, take_zero, append_nil]
        exact (hunnamed 15).nameBuf
    rw [hnameless, if_neg (by simp)] at hparse
    obtain ⟨arg1, -, hcmd⟩ := Option.map_eq_some_iff.mp hparse
    have hempty : Text.joined blank content = [] := (congrArg NlCommand.arg2 hcmd).symm
    cases content with
    | nil => exact hne rfl
    | cons w content =>
      exact (hcontent w mem_cons_self).1.ne (append_eq_nil_iff.mp hempty).1
  · intro hshort
    have hall : (writeWords content file).take 15 = writeWords content file :=
      take_of_length_le (by simp [writeWords]; omega)
    have hfits : (Text.joined blank content).length + file.length ≤ 255 := by
      cases content with
      | nil => exact absurd rfl hne
      | cons w content =>
        simp only [writePhrase, writeWords, Text.joined, fielded_append, fielded_cons,
          fielded_nil, cons_append, length_append, length_cons,
          length_nil] at hlen ⊢
        omega
    have hstart := hunnamed content.length
    rw [take_length] at hstart
    have hname : appendToken nlOutLen [] (nlToken file) = file := by
      change [] ++ file.take 255 = file
      rw [nil_append, take_of_length_le (by omega)]
    rw [hall, writeWords, map_append, extractArgs_append]
    simp only [map_cons, map_nil, extractArgs, extractToken_to]
    rw [extractToken_plain hplain _ rfl]
    dsimp only
    rw [hstart.nameBuf, hname, if_pos hfile.ne, hstart.content, Option.none_or,
      Option.getD_some, nil_append,
      joinTokens_words content (fun w hw => (hcontent w hw).1) (by omega)]

/-- "write hello world to notes.txt" -/
theorem nl_write_hello :
    nlParse (writePhrase .write [cstr "hello", cstr "world"] (cstr "notes.txt")) =
      some ⟨cstr "write", cstr "notes.txt", cstr "hello world"⟩ := by
  have hword : ∀ w ∈ [cstr "hello", cstr "world"], IsWord w ∧ w.map nlLower ∉ nameMarkers := by
    intro w hw
    rcases mem_cons.mp hw with rfl | hw
    · exact ⟨⟨by decide, by decide⟩, by decide⟩
    · rw [mem_singleton.mp hw]
      exact ⟨⟨by decide, by decide⟩, by decide⟩
  exact (nl_write_iff .write (.inl rfl) _ (by simp) hword (cstr "notes.txt")
    ⟨by decide, by decide⟩ ⟨by decide, by decide, by decide,
      by decide, by decide⟩ (by decide)).mpr (by decide)

/-- With fourteen content words the file is the seventeenth token, and the phrase is not
understood. -/
theorem nl_write_fourteen :
    (writePhrase .write (List.replicate 14 (cstr "x")) (cstr "f")).length ≤ 255 ∧
      nlParse (writePhrase .write (List.replicate 14 (cstr "x")) (cstr "f")) = none := by
  decide

/-! ## Recoding

Once the words are looked up, the parser only copies bytes and adds bytes of its own. So it
commutes with any map on bytes that keeps the bytes it adds. -/

section Recode

/-- The arguments that `nl_parse` fills in, and the blank. -/
def nlAdded : List (List UInt8) :=
  [" ", "/", "memory", "processes", "information", "about", "windows", "window", "time"].map cstr

variable {f : UInt8 → UInt8}

/-- The token with other bytes for the same word of the vocabulary. -/
def NlToken.recode (f : UInt8 → UInt8) (t : NlToken) : NlToken := { t with orig := t.orig.map f }

theorem matchWord_recode : matchWord (ts.map (.recode f)) w =
    (matchWord ts w).map (map (.recode f)) := by
  have hfiller : NlToken.filler ∘ .recode f = NlToken.filler := rfl
  rw [matchWord, matchWord, dropWhile_map, hfiller]
  cases ts.dropWhile NlToken.filler with
  | nil => rfl
  | cons t rest =>
    change (if t.lower = w then _ else none) = Option.map _ (if t.lower = w then _ else none)
    rw [apply_ite (Option.map _)]
    rfl

theorem matchPhraseAt_recode (ph : NlPhrase) : matchPhraseAt (ts.map (.recode f)) ph =
    (matchPhraseAt ts ph).map (map (.recode f)) := by
  cases ts with
  | nil => rfl
  | cons t rest =>
    change (if t.lower = ph.w1 then (matchWord (rest.map (.recode f)) ph.w2).bind _ else none)
      = Option.map _ (if t.lower = ph.w1 then _ else none)
    split
    · rw [matchWord_recode]
      cases matchWord rest ph.w2 with
      | none => rfl
      | some rest =>
        cases ph.w3 with
        | none => rfl
        | some w3 => exact matchWord_recode
    · rfl

def FoundVerb.recode (f : UInt8 → UInt8) (v : FoundVerb) : FoundVerb :=
  ⟨v.id, v.start.map (.recode f), v.behind.map (.recode f)⟩

theorem findVerb_recode : findVerb (ts.map (.recode f)) = (findVerb ts).map (.recode f) := by
  induction ts with
  | nil => rfl
  | cons t rest ih =>
    have hphrase : (fun ph : NlPhrase =>
        (matchPhraseAt ((t :: rest).map (.recode f)) ph).map (ph.id, ·)) =
        Option.map (Prod.map id (map (.recode f))) ∘
          fun ph => (matchPhraseAt (t :: rest) ph).map (ph.id, ·) := by
      funext ph
      rw [matchPhraseAt_recode, Function.comp_apply, Option.map_map, Option.map_map]
      rfl
    rw [map_cons, findVerb, findVerb, ← map_cons, hphrase, ← map_findSome?]
    cases phrases.findSome? _ with
    | some p => rfl
    | none =>
      change (match verbs.find? fun v => t.lower == v.1 with | some v => _ | none => _) = _
      cases verbs.find? fun v => t.lower == v.1 with
      | some v => rfl
      | none =>
        change (if t.filler then _ else none) = Option.map _ (if t.filler then _ else none)
        rw [ih, apply_ite (Option.map _)]
        rfl

theorem showObject_recode : showObject (ts.map (.recode f)) =
    (showObject ts).map (Prod.map id (map (.recode f))) := by
  induction ts with
  | nil => rfl
  | cons t rest ih =>
    rw [map_cons, showObject, showObject, ih]
    simp only [apply_ite (Option.map _)]
    rfl

theorem withObject_recode (v : FoundVerb) : withObject (v.recode f) = (withObject v).recode f := by
  have hhead : (v.recode f).start.head?.map NlToken.lower = v.start.head?.map NlToken.lower := by
    change (v.start.map (NlToken.recode f)).head?.map _ = _
    rw [head?_map, Option.map_map]
    rfl
  have hobject : showObject (v.recode f).behind = _ := showObject_recode
  have hid : (v.recode f).id = v.id := rfl
  rw [withObject, withObject, hhead, hobject, hid, apply_ite (FoundVerb.recode f)]
  cases showObject v.behind <;> rfl

def NlArgs.recode (f : UInt8 → UInt8) (a : NlArgs) : NlArgs :=
  { a with content := a.content.map (map (.recode f)), pathBuf := a.pathBuf.map f
           nameBuf := a.nameBuf.map f, bareToks := a.bareToks.map (.recode f) }

/-- The command with other bytes in its arguments. -/
def NlCommand.recode (f : UInt8 → UInt8) (c : NlCommand) : NlCommand :=
  { c with arg1 := c.arg1.map f, arg2 := c.arg2.map f }

theorem oneBare_recode (cmd : List UInt8) :
    (oneBare (ts.map (.recode f))).map (⟨cmd, ·, []⟩) =
      ((oneBare ts).map (⟨cmd, ·, []⟩)).map (NlCommand.recode f) := by
  rcases ts with _ | ⟨t, _ | ⟨u, us⟩⟩ <;>
    simp [oneBare, copyToken, NlToken.recode, NlCommand.recode]

variable (hf : ∀ w ∈ nlAdded, w.map f = w)
include hf

theorem appendToken_recode : appendToken max (dst.map f) (t.recode f) =
    (appendToken max dst t).map f := by
  have hblank : [blank].map f = [blank] := hf _ (by decide)
  have hdst : (if dst.map f ≠ [] ∧ (dst.map f).length < max - 1 then dst.map f ++ [blank]
      else dst.map f) = (if dst ≠ [] ∧ dst.length < max - 1 then dst ++ [blank] else dst).map f := by
    simp only [ne_eq, map_eq_nil_iff, length_map, apply_ite (map f), map_append, hblank]
  rw [appendToken, appendToken, hdst]
  simp only [length_map, NlToken.recode, map_append, map_take]

theorem joinTokens_recode : joinTokens (ts.map (.recode f)) max = (joinTokens ts max).map f := by
  rw [joinTokens, joinTokens, foldl_map]
  change ts.foldl (fun dst t => appendToken max dst (t.recode f)) (map f []) = _
  exact foldl_hom _ fun _ _ => appendToken_recode hf

theorem extractToken_recode (before : List NlToken) :
    extractToken (before.map (.recode f)) (a.recode f) (t.recode f) =
      (extractToken before a t).recode f := by
  change (if t.filler then _ else if t.lower ∈ contexts then _ else
    if specialDest t.lower ≠ .none then _ else if t.lower ∈ locMarkers then _ else
    if t.lower ∈ nameMarkers then _ else
      match a.mode with | .location => _ | .name => _ | .bare => _) = _
  simp only [extractToken, apply_ite (NlArgs.recode f)]
  refine ite_congr rfl (fun _ => rfl) fun _ => ite_congr rfl (fun _ => rfl) fun _ =>
    ite_congr rfl (fun _ => rfl) fun _ => ite_congr rfl (fun _ => rfl) fun _ =>
    ite_congr rfl (fun _ => ?_) fun _ => ?_
  · simp only [NlArgs.recode]
    cases a.content <;> rfl
  · cases hmode : a.mode <;> simp [NlArgs.recode, appendToken_recode hf, hmode]

theorem extractArgs_recode (before : List NlToken) :
    extractArgs (before.map (.recode f)) (a.recode f) (ts.map (.recode f)) =
      (extractArgs before a ts).recode f := by
  induction ts generalizing before a with
  | nil => rfl
  | cons t ts ih =>
    rw [map_cons, extractArgs, extractArgs, extractToken_recode hf, ← ih, map_append]
    rfl

theorem nlCommand_recode (verb : NlVerb) :
    nlCommand verb (a.recode f) = (nlCommand verb a).map (.recode f) := by
  have hcontent : joinTokens ((a.recode f).content.getD []) nlOutLen =
      (joinTokens (a.content.getD []) nlOutLen).map f := by
    rw [← joinTokens_recode hf, NlArgs.recode]
    cases a.content <;> rfl
  have hbare : (a.recode f).bareToks = a.bareToks.map (.recode f) := rfl
  have hpath : (a.recode f).pathBuf = a.pathBuf.map f := rfl
  have hname : (a.recode f).nameBuf = a.nameBuf.map f := rfl
  have hdest : (a.recode f).dest = a.dest := rfl
  have hadded := hf
  simp only [nlAdded, map_cons, forall_mem_cons] at hadded
  cases verb
  case copy | move | rename | cd | info =>
    simp only [nlCommand, hbare, hpath, hname, hdest, joinTokens_recode hf, ne_eq, map_eq_nil_iff,
      apply_ite (Option.map _)]
    rcases a.bareToks with _ | ⟨t, _ | ⟨u, _ | _⟩⟩ <;>
      simp [NlCommand.recode, NlToken.recode, copyToken, apply_ite (map f), hadded]
  all_goals
    simp only [nlCommand, hbare, hpath, hname, hcontent, oneBare_recode, joinTokens_recode hf,
      apply_ite (Option.map _), ne_eq, map_eq_nil_iff]
    simp [NlCommand.recode, hadded]

theorem nlRun_recode (v : FoundVerb) : nlRun (v.recode f) = (nlRun v).map (.recode f) := by
  rw [nlRun, nlRun, withObject_recode, ← nlCommand_recode hf, ← extractArgs_recode hf]
  rfl

end Recode

theorem nlLower_blank (c : UInt8) : (nlLower c == blank) = (c == blank) := by
  revert c
  decide +kernel

theorem nlLower_nlLower (c : UInt8) : nlLower (nlLower c) = nlLower c := by
  revert c
  decide +kernel

theorem tokenize_lower (s : List UInt8) :
    tokenize max (s.map nlLower) = (tokenize max s).map (.recode nlLower) := by
  have hblank : (· == blank) ∘ nlLower = (· == blank) := funext nlLower_blank
  have hword : (· != blank) ∘ nlLower = (· != blank) := by
    funext c
    exact congrArg not (nlLower_blank c)
  have htoken (w : List UInt8) : nlToken (w.map nlLower) = (nlToken w).recode nlLower := by
    simp [nlToken, NlToken.recode, tolowerCopy, ← map_take, Function.comp_def, nlLower_nlLower]
  induction max generalizing s with
  | zero => rfl
  | succ max ih =>
    rw [tokenize, tokenize]
    simp only [dropWhile_map, takeWhile_map, hblank, hword, map_eq_nil_iff, ← map_tail, ih, htoken]
    split <;> rfl

/-- The case of the letters makes no difference to what `nl_parse` understands, and the arguments
keep it. -/
theorem nl_parse_case (s : List UInt8) :
    nlParse (s.map nlLower) = (nlParse s).map fun c =>
      ⟨c.cmd, c.arg1.map nlLower, c.arg2.map nlLower⟩ := by
  rw [nlParse, nlParse, nlParseTokens, nlParseTokens, tokenize_lower, findVerb_recode]
  cases findVerb (tokenize nlMaxTokens s) with
  | none => rfl
  | some v => exact nlRun_recode (by decide) v

/-! ## Commands are strings -/

theorem mem_of_mem_orig {s : List UInt8} {c : UInt8} (h : t ∈ tokenize max s) (hc : c ∈ t.orig) :
    c ∈ s := by
  induction max generalizing s with
  | zero => cases h
  | succ max ih =>
    unfold tokenize at h
    dsimp only at h
    split at h
    · cases h
    refine dropWhile_subset (· == blank) ?_
    rcases mem_cons.mp h with rfl | h
    · exact takeWhile_subset _ hc
    · exact dropWhile_subset _ (mem_of_mem_tail (ih h))

theorem nlCommand_cmd {verb : NlVerb} {c : NlCommand} (hc : nlCommand verb a = some c) :
    c.cmd ≠ cstr "ns" := by
  have hword : verb.word ≠ cstr "ns" := by cases verb <;> decide
  have hcd : cstr "up" ≠ cstr "ns" ∧ cstr "home" ≠ cstr "ns" := by decide
  unfold nlCommand at hc
  grind [Option.map_eq_some_iff]

/-- A command other than `ns` with two strings. -/
structure NlCommand.NoNul (c : NlCommand) : Prop where
  arg1 : 0 ∉ c.arg1
  arg2 : 0 ∉ c.arg2
  cmd : c.cmd ≠ cstr "ns"

/-- What `nl_parse` makes of a string is a command other than `ns` with two strings: the arguments
stay the same under a map that has no zero byte in its range. -/
theorem nlParse_noNul {input : List UInt8} {c : NlCommand} (h : 0 ∉ input)
    (hc : nlParse input = some c) : c.NoNul := by
  obtain ⟨f, hfix, hrange⟩ : ∃ f : UInt8 → UInt8, (∀ b, b ≠ 0 → f b = b) ∧ ∀ b, f b ≠ 0 :=
    ⟨fun b => if b = 0 then 1 else b, fun b hb => if_neg hb, fun b => by
      dsimp only
      split <;> simp_all⟩
  have hsame (l : List UInt8) (hl : 0 ∉ l) : l.map f = l :=
    (map_congr_left fun b hb => hfix b fun h0 => hl (h0 ▸ hb)).trans (map_id _)
  have htokens : (tokenize nlMaxTokens input).map (.recode f) = tokenize nlMaxTokens input := by
    refine (map_congr_left fun t ht => ?_).trans (map_id _)
    rw [NlToken.recode, hsame _ fun h0 => h (mem_of_mem_orig ht h0)]
    rfl
  obtain ⟨v, hv, hc⟩ := Option.bind_eq_some_iff.mp hc
  have hverb : v = v.recode f := by
    have := congrArg findVerb htokens
    rw [findVerb_recode, hv] at this
    exact (Option.some.inj this).symm
  have hadded : ∀ w ∈ nlAdded, 0 ∉ w := by decide
  have hcmd : c = c.recode f := by
    have := nlRun_recode (fun w hw => hsame w (hadded w hw)) v
    rw [← hverb, hc] at this
    exact Option.some.inj this
  have hnul (l : List UInt8) : 0 ∉ l.map f := by
    rw [mem_map]
    rintro ⟨b, -, hb⟩
    exact hrange b hb
  have hns : c.cmd ≠ cstr "ns" := nlCommand_cmd hc
  rw [hcmd]
  exact ⟨hnul _, hnul _, hns⟩

end OpenSys
