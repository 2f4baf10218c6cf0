-- SUMMARY: Which phrases of nl_parser.c are reachable.
import OpenSys.Ui.NlParser
import Mathlib.Tactic.SplitIfs

/-!
# The phrase table

Filler words may stand before a phrase and between its words. `match_phrase_at` skips all of
them before it compares the next word. So a phrase whose second word is a filler itself is never
found: "who am i", and "information", "info" and "details" with "about".
-/

namespace OpenSys

open List

variable {w : List UInt8} {ts us : List NlToken} {ph : NlPhrase} {ws rest : List (List UInt8)}

/-- The words of a phrase. -/
def NlPhrase.words (ph : NlPhrase) : List (List UInt8) := ph.w1 :: ph.w2 :: ph.w3.toList

/-- Filler words, in any case. -/
def Fillers (fs : List (List UInt8)) : Prop := ∀ f ∈ fs, IsWord f ∧ f.map nlLower ∈ fillers

/-- The words `ps` with any number of filler words before each of them. -/
def Spelling : (ps ws : List (List UInt8)) → Prop
  | [], ws => ws = []
  | p :: ps, ws => ∃ fs ws', ws = fs ++ p :: ws' ∧ Fillers fs ∧ Spelling ps ws'

/-- A word of the table is read as it stands there. -/
theorem phrase_words : ∀ ph ∈ phrases, ∀ w ∈ ph.words,
    (w ≠ [] ∧ blank ∉ w) ∧ (nlToken w).lower = w := by
  decide

theorem Fillers.tokens {fs : List (List UInt8)} (h : Fillers fs) :
    ∀ t ∈ fs.map nlToken, t.filler = true := by
  intro t ht
  obtain ⟨f, hf, rfl⟩ := mem_map.mp ht
  exact decide_eq_true ((lower_mem_iff f (by decide)).mpr (h f hf).2)

theorem findVerb_fillers (h : ∀ t ∈ us, t.filler = true) : findVerb (us ++ ts) = findVerb ts := by
  have hverbs : ∀ v ∈ verbs, v.1 ∉ fillers := by decide
  have hphrases : ∀ ph ∈ phrases, ph.w1 ∈ fillers → ph.w2 ∈ fillers := by decide
  induction us with
  | nil => rfl
  | cons t us ih =>
    have ht := h t mem_cons_self
    have hmem : t.lower ∈ fillers := of_decide_eq_true ht
    have hnone : verbs.find? (fun v => t.lower == v.1) = none :=
      find?_eq_none.mpr fun v hv hw => hverbs v hv (eq_of_beq hw ▸ hmem)
    rw [cons_append, findVerb_single fun ph hph hw => hphrases ph hph (hw ▸ hmem), hnone]
    exact (if_pos ht).trans (ih fun x hx => h x (mem_cons_of_mem _ hx))

theorem matchWord_fillers {p : List UInt8} (h : ∀ t ∈ us, t.filler = true)
    (hself : (nlToken p).lower = p) (hp : p ∉ fillers) :
    matchWord (us ++ nlToken p :: ts) w = if p = w then some ts else none := by
  have hstop : (nlToken p).filler = false := decide_eq_false (hself.symm ▸ hp)
  rw [matchWord, dropWhile_append_of_pos h, dropWhile_cons_of_neg (by simp [hstop])]
  simp only [hself]

/-- The phrases that match are those with the same first two words. They have the same command,
and leave the same tokens unless the command takes no argument. -/
theorem findVerb_spelled (hph : ph ∈ phrases)
    (hw2 : ph.w2 ∉ fillers) (h : Spelling ph.words ws) : ∃ start behind,
    findVerb (ws.map nlToken ++ ts) = some ⟨ph.id, nlToken ph.w1 :: start, behind⟩ ∧
      (behind = ts ∨ ph.id = .date) := by
  obtain ⟨fs, _, rfl, hfs, gs, ws, rfl, hgs, hws⟩ := h
  have hself := phrase_words ph hph
  have hself1 := (hself ph.w1 (by simp [NlPhrase.words])).2
  have hself2 := (hself ph.w2 (by simp [NlPhrase.words])).2
  simp only [map_append, map_cons, append_assoc, cons_append]
  rw [findVerb_fillers hfs.tokens, findVerb]
  have hmatch (ph' : NlPhrase) : matchPhraseAt (nlToken ph.w1 :: (gs.map nlToken ++
      nlToken ph.w2 :: (ws.map nlToken ++ ts))) ph' = if ph.w1 = ph'.w1 ∧ ph.w2 = ph'.w2 then
        ph'.w3.elim (some (ws.map nlToken ++ ts)) (matchWord (ws.map nlToken ++ ts))
      else none := by
    rw [matchPhraseAt, hself1, matchWord_fillers hgs.tokens hself2 hw2, ite_and]
    split_ifs
    · cases ph'.w3 <;> rfl
    · rfl
    · rfl
  simp only [hmatch]
  have htable : ∀ ph ∈ phrases, ∀ ph' ∈ phrases, ph.w1 = ph'.w1 → ph.w2 = ph'.w2 →
      ph'.id = ph.id ∧ (ph'.w3 = ph.w3 ∨ ph.id = .date) := by decide +kernel
  have hthird : ∀ ph ∈ phrases, ∀ w ∈ ph.w3, w ∈ fillers → ph.w2 ∈ fillers := by decide
  have hown : ph.w3.elim (some (ws.map nlToken ++ ts)) (matchWord (ws.map nlToken ++ ts)) =
      some ts := by
    rw [NlPhrase.words] at hself
    cases hw3 : ph.w3 with
    | none =>
      rw [hw3] at hws
      obtain rfl : ws = [] := hws
      rfl
    | some w3 =>
      rw [hw3] at hws
      obtain ⟨hs, _, rfl, hhs, rfl⟩ := hws
      rw [map_append, append_assoc]
      exact (matchWord_fillers hhs.tokens (hself w3 (by simp [hw3])).2
        fun hf => hw2 (hthird ph hph w3 hw3 hf)).trans (if_pos rfl)
  cases hfind : phrases.findSome? _ with
  | none =>
    have hnone := findSome?_eq_none_iff.mp hfind ph hph
    rw [if_pos ⟨rfl, rfl⟩, hown] at hnone
    cases hnone
  | some found =>
    obtain ⟨ph', hph', hfound⟩ := exists_of_findSome?_eq_some hfind
    split at hfound
    · rename_i hwords
      obtain ⟨hid, hbehind⟩ := htable ph hph ph' hph' hwords.1 hwords.2
      obtain ⟨behind, hb, rfl⟩ := Option.map_eq_some_iff.mp hfound
      refine ⟨_, behind, congrArg some (by rw [hid]), hbehind.imp_left fun hw3 => ?_⟩
      rw [hw3, hown] at hb
      exact (Option.some.inj hb).symm
    · cases hfound

theorem nlRun_start (v : FoundVerb) (start : List NlToken) (h : v.start.head? = start.head?) :
    nlRun v = nlRun { v with start := start } := by
  rw [nlRun, nlRun, withObject, withObject, h]
  split_ifs
  · cases showObject v.behind <;> rfl
  · rfl

theorem Spelling.words {ps ws : List (List UInt8)} (h : Spelling ps ws) {P : List UInt8 → Prop}
    (hps : ∀ p ∈ ps, P p) (hf : ∀ f, IsWord f → f.map nlLower ∈ fillers → P f) :
    ∀ w ∈ ws, P w := by
  induction ps generalizing ws with
  | nil => simp [show ws = [] from h]
  | cons p ps ih =>
    obtain ⟨fs, ws, rfl, hfs, hws⟩ := h
    rw [forall_mem_append, forall_mem_cons]
    rw [forall_mem_cons] at hps
    exact ⟨fun f hmem => hf f (hfs f hmem).1 (hfs f hmem).2, hps.1, ih hws hps.2⟩

theorem nlParse_spelled (hph : ph ∈ phrases) (h : Spelling ph.words ws) (hlen : ws.length ≤ nlMaxTokens)
    (hrest : ∀ w ∈ rest, IsWord w) : nlParse (Text.joined blank (ws ++ rest)) =
      (findVerb (ws.map nlToken ++ (rest.take (nlMaxTokens - ws.length)).map nlToken)).bind
        nlRun := by
  have hwords : ∀ w ∈ ws, IsWord w := h.words
    (fun p hp => ⟨(phrase_words ph hph p hp).1.1, (phrase_words ph hph p hp).1.2⟩) fun _ hf _ => hf
  rw [nlParse, nlParseTokens, tokenize_joined _ _ (forall_mem_append.mpr ⟨hwords, hrest⟩), take_append,
    take_of_length_le hlen, map_append]

/-- A phrase with a filler for its second word is not found: either all of its words are fillers,
or its first word starts no other phrase and is no verb. -/
theorem findVerb_unreachable (hph : ph ∈ phrases)
    (hw2 : ph.w2 ∈ fillers) (h : Spelling ph.words ws) : findVerb (ws.map nlToken) = none := by
  have htable : ∀ ph ∈ phrases, ph.w2 ∈ fillers → (∀ w ∈ ph.words, w.map nlLower ∈ fillers) ∨
      ph.w1 ∉ fillers ∧ verbs.find? (fun v => ph.w1 == v.1) = none ∧
        ∀ ph' ∈ phrases, ph'.w1 = ph.w1 → ph'.w2 ∈ fillers := by decide
  rcases htable ph hph hw2 with hall | ⟨hw1, hverbs, hsame⟩
  · have hws := h.words (P := fun w => (nlToken w).filler = true)
      (fun p hp => decide_eq_true ((lower_mem_iff p (by decide)).mpr (hall p hp)))
      fun f _ hf => decide_eq_true ((lower_mem_iff f (by decide)).mpr hf)
    rw [← append_nil (ws.map nlToken), findVerb_fillers (forall_mem_map.mpr hws)]
    rfl
  · obtain ⟨fs, ws, rfl, hfs, -⟩ := h
    have hself := (phrase_words ph hph ph.w1 (by simp [NlPhrase.words])).2
    rw [map_append, map_cons, findVerb_fillers hfs.tokens, findVerb_single (by rwa [hself]), hself,
      hverbs]
    exact if_neg (by simp [NlToken.filler, hself, hw1])

/-- A phrase is found, whatever fillers are put in and whatever follows, exactly when its second
word is not a filler itself: `match_phrase_at` skips the fillers before it looks for the word. -/
theorem phrase_selected_iff (ph : NlPhrase) (hph : ph ∈ phrases) (ws : List (List UInt8))
    (h : Spelling ph.words ws) (hlen : ws.length ≤ nlMaxTokens) :
    (∀ rest : List (List UInt8), (∀ w ∈ rest, IsWord w) →
      nlParse (Text.joined blank (ws ++ rest)) = nlRun ⟨ph.id, [nlToken ph.w1],
        (rest.take (nlMaxTokens - ws.length)).map nlToken⟩) ↔ ph.w2 ∉ fillers := by
  constructor
  · intro hall hw2
    have hnone := hall [] (by simp)
    rw [nlParse_spelled hph h hlen (by simp), take_nil, map_nil, append_nil,
      findVerb_unreachable hph hw2 h] at hnone
    have htable : ∀ ph ∈ phrases, ph.w2 ∈ fillers → nlRun ⟨ph.id, [nlToken ph.w1], []⟩ ≠ none := by
      decide
    exact htable ph hph hw2 hnone.symm
  · intro hw2 rest hrest
    rw [nlParse_spelled hph h hlen hrest]
    obtain ⟨start, behind, hfind, hbehind⟩ := findVerb_spelled hph hw2 h
    rw [hfind, Option.bind_some]
    rcases hbehind with rfl | hdate
    · exact nlRun_start _ _ rfl
    · rw [hdate]
      rfl

/-- "please make the directory" -/
theorem phrase_selected_make : cstr "directory" ∉ fillers ∧
    ∀ rest : List (List UInt8), (∀ w ∈ rest, IsWord w) →
      nlParse (Text.joined blank (["please", "make", "the", "directory"].map cstr ++ rest)) =
        nlRun ⟨.mkdir, [nlToken (cstr "make")], (rest.take 12).map nlToken⟩ := by
  have hdir : cstr "directory" ∉ fillers := by decide
  have hfiller (f : List UInt8) (hf : (f ≠ [] ∧ blank ∉ f) ∧ f.map nlLower ∈ fillers) :
      Fillers [f] := by simpa [Fillers] using ⟨⟨hf.1.1, hf.1.2⟩, hf.2⟩
  refine ⟨hdir, (phrase_selected_iff ⟨cstr "make", cstr "directory", none, .mkdir⟩
    (by simp [phrases]) _ ⟨[cstr "please"], [cstr "the", cstr "directory"], rfl,
      hfiller _ (by decide), [cstr "the"], [], rfl, hfiller _ (by decide), rfl⟩
    (by decide)).mpr hdir⟩

theorem who_am_i_unreachable : nlParse (cstr "who am i") = none ∧
    nlParse (cstr "information about") = none := by
  decide

end OpenSys
