-- SUMMARY: The natural-language parser on the caller's line buffer.
import Mathlib.Data.List.TakeWhile
import OpenSys.Ui.NlParser

/-!
# The line buffer of the natural-language parser

`src/ui/nl_parser.c`. `tokenize` ends every word in the buffer of the caller with a zero, and
`untokenize` puts blanks back before `nl_parse` returns. A buffer is the list of its bytes from
the start of the line; what follows the zero of the line is arbitrary.
-/

namespace OpenSys

open List

/-- `nl_token_t`, with `orig` as the offset of the word in the buffer. -/
structure NlSpan where
  orig : Nat
  olen : Nat
  lower : List UInt8

/-- The same word, seen from `n` bytes before. -/
def NlSpan.shift (n : Nat) (t : NlSpan) : NlSpan := { t with orig := n + t.orig }

/-- The token with the bytes `orig` points to. -/
def NlSpan.token (buf : List UInt8) (t : NlSpan) : NlToken :=
  ⟨(buf.drop t.orig).take t.olen, t.lower⟩

/-- A byte that belongs to a word: neither a blank nor the end of the line. -/
def wordByte (c : UInt8) : Bool := c != 0 && c != blank

/-- `tokenize` on the buffer from `p` on: the buffer it leaves and the words. -/
def tokenizeIn : (max : Nat) → List UInt8 → List UInt8 × List NlSpan
  | 0, buf => (buf, [])
  | max + 1, buf =>
    let blanks := buf.takeWhile (· == blank)
    let p := buf.dropWhile (· == blank)
    let word := p.takeWhile wordByte
    if word = [] then (buf, [])
    else
      let span : NlSpan := ⟨blanks.length, word.length, tolowerCopy word nlWordLen⟩
      match p.dropWhile wordByte with
      | [] => (buf, [span])
      | c :: rest =>
        if c = 0 then (buf, [span])
        else
          let more := tokenizeIn max rest
          (blanks ++ word ++ 0 :: more.1,
            span :: more.2.map (NlSpan.shift (blanks.length + word.length + 1)))

/-- `untokenize` -/
def untokenize (buf : List UInt8) (toks : List NlSpan) : List UInt8 :=
  toks.dropLast.foldl (fun b t => b.set (t.orig + t.olen) blank) buf

/-- `nl_parse` with the buffer it returns. Every return path goes through `untokenize`. -/
def nlParseIn (buf : List UInt8) : List UInt8 × Option NlCommand :=
  let t := tokenizeIn nlMaxTokens buf
  (untokenize t.1 t.2, nlParseTokens (t.2.map (NlSpan.token t.1)))

/-! ## Lines and words -/

/-- The words that start in a text; `prev` says that a blank, or nothing, stands before it. -/
def wordStarts : (prev : Bool) → List UInt8 → Nat
  | _, [] => 0
  | prev, c :: s => (if prev && c != blank then 1 else 0) + wordStarts (c == blank) s

/-- The number of words of a line. -/
def wordCount (s : List UInt8) : Nat := wordStarts true s

/-- A line is all blanks, or blanks and a word, and then nothing or a blank and a rest. -/
inductive LineShape : List UInt8 → Prop
  | blanks {s} (h : ∀ c ∈ s, c = blank) : LineShape s
  | last {bs w} (hbs : ∀ c ∈ bs, c = blank) (hw : IsWord w) (hz : 0 ∉ w) : LineShape (bs ++ w)
  | more {bs w s} (hbs : ∀ c ∈ bs, c = blank) (hw : IsWord w) (hz : 0 ∉ w ++ s) :
      LineShape (bs ++ w ++ blank :: s)

section Lines

variable {bs w s junk : List UInt8} {max : Nat}

theorem lineShape (hs : 0 ∉ s) : LineShape s := by
  have hbs : ∀ c ∈ s.takeWhile (· == blank), c = blank :=
    fun c hc => by simpa using mem_takeWhile_imp hc
  have hsplit := (takeWhile_append_dropWhile (p := (· == blank)) (l := s)).symm
  generalize s.takeWhile (· == blank) = bs at hbs hsplit
  have hstart := head?_dropWhile_not (· == blank) s
  generalize s.dropWhile (· == blank) = p at hsplit hstart
  subst hsplit
  have hp : 0 ∉ p := fun h => hs (mem_append_right _ h)
  have hword : blank ∉ p.takeWhile (· != blank) :=
    fun h => by simpa using mem_takeWhile_imp h
  have hrest := head?_dropWhile_not (· != blank) p
  have hcut := (takeWhile_append_dropWhile (p := (· != blank)) (l := p)).symm
  have hne : p ≠ [] → p.takeWhile (· != blank) ≠ [] := fun hne hnil => by
    obtain ⟨c, p, rfl⟩ := exists_cons_of_ne_nil hne
    have hc : c ≠ blank := by simpa using hstart
    rw [takeWhile_cons_of_pos (by simpa using hc)] at hnil
    cases hnil
  generalize p.takeWhile (· != blank) = w at hword hcut hne
  generalize p.dropWhile (· != blank) = r at hrest hcut
  subst hcut
  cases hp' : w ++ r with
  | nil => exact .blanks (by simpa using hbs)
  | cons c p =>
    have hw : IsWord w := ⟨hne (by rw [hp']; simp), hword⟩
    rw [← hp']
    cases r with
    | nil => exact (append_nil w).symm ▸ .last hbs hw (by simpa using hp)
    | cons c r =>
      obtain rfl : c = blank := by simpa using hrest
      rw [← append_assoc]
      refine .more hbs hw fun h => hp ?_
      rcases mem_append.mp h with h | h <;> simp [h]

theorem not_blanks (hw : IsWord w) : ¬ ∀ c ∈ bs ++ w ++ s, c = blank := fun h => by
  obtain ⟨c, hc⟩ := exists_mem_of_ne_nil w hw.ne
  exact hw.blank_notMem (h c (by simp [hc]) ▸ hc)

theorem wordStarts_word (hw : blank ∉ w) : wordStarts false (w ++ s) = wordStarts false s := by
  induction w with
  | nil => rfl
  | cons c w ih =>
    have hne : c ≠ blank := fun h => hw (h ▸ mem_cons_self)
    have hc : (c == blank) = false := beq_eq_false_iff_ne.mpr hne
    rw [cons_append, wordStarts, hc, ih fun h => hw (mem_cons_of_mem _ h)]
    simp

theorem wordCount_blanks (hbs : ∀ c ∈ bs, c = blank) : wordCount (bs ++ s) = wordCount s := by
  induction bs with
  | nil => rfl
  | cons c bs ih =>
    obtain rfl := hbs c mem_cons_self
    exact (Nat.zero_add _).trans (ih fun c hc => hbs c (mem_cons_of_mem _ hc))

theorem wordCount_word (hw : IsWord w) : wordCount (w ++ s) = 1 + wordStarts false s := by
  obtain ⟨c, w, rfl⟩ := exists_cons_of_ne_nil hw.ne
  have hne : c ≠ blank := fun h => hw.blank_notMem (h ▸ mem_cons_self)
  have hc : (c == blank) = false := beq_eq_false_iff_ne.mpr hne
  rw [wordCount, cons_append, wordStarts, hc,
    wordStarts_word fun h => hw.blank_notMem (mem_cons_of_mem _ h)]
  simp [bne, hc]

/-- A text without words is blank. -/
theorem blanks_of_wordCount (h : wordCount s = 0) : ∀ c ∈ s, c = blank := by
  induction s with
  | nil => simp
  | cons c s ih =>
    rw [wordCount, wordStarts] at h
    have hc : c = blank := by
      by_contra hne
      simp [hne] at h
    subst hc
    simp only [beq_self_eq_true] at h
    exact forall_mem_cons.mpr ⟨rfl, ih (by rw [wordCount]; omega)⟩

end Lines

/-! ## What the tokenizer leaves -/

section Tokenize

variable {bs w s junk : List UInt8} {max : Nat}

theorem takeWhile_blanks (hbs : ∀ c ∈ bs, c = blank) (hs : s.head? ≠ some blank) :
    (bs ++ s).takeWhile (· == blank) = bs ∧ (bs ++ s).dropWhile (· == blank) = s := by
  induction bs with
  | nil => cases s <;> simp_all
  | cons c bs ih =>
    obtain ⟨h1, h2⟩ := ih fun c hc => hbs c (mem_cons_of_mem _ hc)
    simp [hbs c mem_cons_self, h1, h2]

theorem takeWhile_word (hw : IsWord w) (hz : 0 ∉ w) {c : UInt8} (hc : wordByte c = false) :
    (w ++ c :: s).takeWhile wordByte = w ∧ (w ++ c :: s).dropWhile wordByte = c :: s := by
  have hall : ∀ x ∈ w, wordByte x = true := fun x hx => by
    simp only [wordByte, Bool.and_eq_true, bne_iff_ne]
    exact ⟨fun h => hz (h ▸ hx), fun h => hw.blank_notMem (h ▸ hx)⟩
  rw [takeWhile_append_of_pos hall, dropWhile_append_of_pos hall]
  simp [hc]

theorem head?_word (hw : IsWord w) : (w ++ s).head? ≠ some blank := by
  obtain ⟨c, w, rfl⟩ := exists_cons_of_ne_nil hw.ne
  have hne : c ≠ blank := fun h => hw.blank_notMem (h ▸ mem_cons_self)
  simpa using hne

theorem tokenizeIn_blanks (hs : ∀ c ∈ s, c = blank) :
    tokenizeIn max (s ++ 0 :: junk) = (s ++ 0 :: junk, []) := by
  cases max with
  | zero => rfl
  | succ max =>
    rw [tokenizeIn, (takeWhile_blanks hs (by simp [blank])).2]
    rfl

theorem tokenizeIn_last (hbs : ∀ c ∈ bs, c = blank) (hw : IsWord w) (hz : 0 ∉ w) :
    tokenizeIn (max + 1) (bs ++ w ++ 0 :: junk) =
      (bs ++ w ++ 0 :: junk, [⟨bs.length, w.length, tolowerCopy w nlWordLen⟩]) := by
  have hword := takeWhile_word (s := junk) hw hz (show wordByte 0 = false from rfl)
  have hblanks := takeWhile_blanks hbs (head?_word (s := 0 :: junk) hw)
  rw [tokenizeIn, append_assoc, hblanks.1, hblanks.2, hword.1, hword.2, if_neg hw.ne]
  rfl

theorem tokenizeIn_more (hbs : ∀ c ∈ bs, c = blank) (hw : IsWord w) (hz : 0 ∉ w) :
    tokenizeIn (max + 1) (bs ++ w ++ blank :: s) =
      (bs ++ w ++ 0 :: (tokenizeIn max s).1, ⟨bs.length, w.length, tolowerCopy w nlWordLen⟩ ::
        (tokenizeIn max s).2.map (NlSpan.shift (bs.length + w.length + 1))) := by
  have hword := takeWhile_word (s := s) hw hz (show wordByte blank = false from rfl)
  have hblanks := takeWhile_blanks hbs (head?_word (s := blank :: s) hw)
  rw [tokenizeIn, append_assoc, hblanks.1, hblanks.2, hword.1, hword.2, if_neg hw.ne]
  simp [blank]

/-- Restoring words that are seen from further before leaves what stands before them. -/
theorem untokenize_shift (pre buf : List UInt8) (toks : List NlSpan) :
    untokenize (pre ++ buf) (toks.map (NlSpan.shift pre.length)) = pre ++ untokenize buf toks := by
  unfold untokenize
  rw [← map_dropLast]
  induction toks.dropLast generalizing buf with
  | nil => rfl
  | cons t toks ih =>
    rw [map_cons, foldl_cons, foldl_cons, ← ih]
    congr 1
    rw [NlSpan.shift, set_append_right _ _ (by simp; omega)]
    congr 2
    simp
    omega

/-- The buffer that `untokenize` makes of the tokenized one. -/
def restored (max : Nat) (buf : List UInt8) : List UInt8 :=
  untokenize (tokenizeIn max buf).1 (tokenizeIn max buf).2

/-- The terminator behind a word is taken back when another word follows. -/
theorem restored_more (hbs : ∀ c ∈ bs, c = blank) (hw : IsWord w) (hz : 0 ∉ w) :
    restored (max + 1) (bs ++ w ++ blank :: s) =
      bs ++ w ++ (if (tokenizeIn max s).2 = [] then 0 else blank) :: restored max s := by
  unfold restored
  rw [tokenizeIn_more hbs hw hz]
  dsimp only
  split
  · next hnone => rw [hnone]; rfl
  next hsome =>
  have hlen : bs.length + w.length + 1 = (bs ++ w ++ [blank]).length := by
    simp only [length_append, length_singleton]
  have happ : ∀ r : List UInt8, bs ++ w ++ blank :: r = bs ++ w ++ [blank] ++ r := by simp
  have hne : (tokenizeIn max s).2.map (NlSpan.shift (bs.length + w.length + 1)) ≠ [] := by
    simpa using hsome
  rw [happ, hlen, ← untokenize_shift, untokenize, dropLast_cons_of_ne_nil (hlen ▸ hne),
    foldl_cons, untokenize]
  congr 1
  rw [← happ, set_append_right _ _ (by simp)]
  simp

theorem tokenizeIn_eq_nil (hs : 0 ∉ s) :
    (tokenizeIn max (s ++ 0 :: junk)).2 = [] ↔ max = 0 ∨ ∀ c ∈ s, c = blank := by
  cases max with
  | zero => simp [tokenizeIn]
  | succ max =>
    cases lineShape hs with
    | blanks h => exact iff_of_true (by rw [tokenizeIn_blanks h]) (.inr h)
    | @last bs w hbs hw hz =>
      rw [tokenizeIn_last hbs hw hz, or_iff_right (Nat.succ_ne_zero max)]
      exact iff_of_false (cons_ne_nil _ _) (by simpa using not_blanks (s := []) hw)
    | @more bs w s hbs hw hz =>
      rw [append_assoc, cons_append, tokenizeIn_more hbs hw fun h => hz (mem_append_left _ h),
        or_iff_right (Nat.succ_ne_zero max)]
      exact iff_of_false (cons_ne_nil _ _) (not_blanks hw)

/-- A line of which the parser sees every word, and that ends with the last of them. -/
def EndsInWord (max : Nat) (s : List UInt8) : Prop := s.getLast? ≠ some blank ∧ wordCount s ≤ max

/-- The buffer is as before exactly if there was nothing to do or nothing was left to do. -/
theorem restored_iff (hs : 0 ∉ s) : restored max (s ++ 0 :: junk) = s ++ 0 :: junk ↔
    max = 0 ∨ (∀ c ∈ s, c = blank) ∨ EndsInWord max s := by
  induction max generalizing s with
  | zero => exact iff_of_true rfl (.inl rfl)
  | succ max ih =>
    cases lineShape hs with
    | blanks h =>
      refine iff_of_true ?_ (.inr (.inl h))
      rw [restored, tokenizeIn_blanks h]
      rfl
    | @last bs w hbs hw hz =>
      refine iff_of_true ?_ (.inr (.inr ⟨?_, ?_⟩))
      · rw [restored, tokenizeIn_last hbs hw hz]
        rfl
      · rw [getLast?_append_of_ne_nil _ hw.ne]
        exact fun h => hw.blank_notMem (mem_of_getLast? h)
      · have := wordCount_word (s := []) hw
        rw [wordCount_blanks hbs]
        simp_all [wordStarts]
    | @more bs w s hbs hw hz =>
      have hz' : 0 ∉ s := fun h => hz (mem_append_right _ h)
      have hcount : wordCount (bs ++ w ++ blank :: s) = 1 + wordCount s := by
        rw [append_assoc, wordCount_blanks hbs, wordCount_word hw]
        simp [wordStarts, wordCount]
      rw [or_iff_right (Nat.succ_ne_zero max), or_iff_right (not_blanks hw), EndsInWord, hcount,
        append_assoc, cons_append, restored_more hbs hw fun h => hz (by simp [h])]
      simp only [append_cancel_left_eq, List.cons.injEq]
      by_cases hnone : (tokenizeIn max (s ++ 0 :: junk)).2 = []
      · -- the terminator stays: the last byte is a blank or a word was not seen
        rw [if_pos hnone]
        refine iff_of_false (fun h => absurd h.1 (by decide)) fun ⟨hlast, hle⟩ => ?_
        have hblanks : ∀ c ∈ s, c = blank := by
          rcases (tokenizeIn_eq_nil hz').mp hnone with rfl | h
          · exact blanks_of_wordCount (by omega)
          · exact h
        refine hlast ?_
        rw [getLast?_append_of_ne_nil _ (by simp)]
        cases hs' : s.getLast? with
        | none => simp_all
        | some c => simp [getLast?_cons, hs', hblanks c (mem_of_getLast? hs')]
      · have hsome := hnone
        rw [tokenizeIn_eq_nil hz', not_or] at hsome
        have hne : s ≠ [] := fun h => hsome.2 (by simp [h])
        rw [if_neg hnone, ih hz', or_iff_right hsome.1, or_iff_right hsome.2, EndsInWord,
          getLast?_append_of_ne_nil _ (by simp), getLast?_cons_of_ne_nil hne]
        simp only [true_and]
        exact and_congr_right' (by omega)

/-! ## The parser -/

theorem NlSpan.token_shift (pre buf : List UInt8) (t : NlSpan) :
    NlSpan.token (pre ++ buf) (t.shift pre.length) = t.token buf := by
  rw [NlSpan.token, NlSpan.shift, drop_length_add_append]
  rfl

theorem tokenize_blanks (hs : ∀ c ∈ s, c = blank) : tokenize max s = [] := by
  cases max with
  | zero => rfl
  | succ max =>
    rw [tokenize, dropWhile_eq_nil_iff.mpr fun c hc => by simp [hs c hc]]
    rfl

theorem tokenize_word (hbs : ∀ c ∈ bs, c = blank) (hw : IsWord w)
    (hs : s = [] ∨ s.head? = some blank) :
    tokenize (max + 1) (bs ++ w ++ s) = nlToken w :: tokenize max s.tail := by
  rw [tokenize, append_assoc, (takeWhile_blanks hbs (head?_word hw)).2,
    if_neg (by simp [hw.ne]), Text.takeWhile_field hw.blank_notMem hs,
    Text.dropWhile_field hw.blank_notMem hs]

/-- The tokens in the buffer are the tokens of the line. -/
theorem tokenizeIn_tokens (hs : 0 ∉ s) : (tokenizeIn max (s ++ 0 :: junk)).2.map
      (NlSpan.token (tokenizeIn max (s ++ 0 :: junk)).1) = tokenize max s := by
  induction max generalizing s with
  | zero => rfl
  | succ max ih =>
    have hfirst : ∀ bs w r : List UInt8, NlSpan.token (bs ++ w ++ r)
        ⟨bs.length, w.length, tolowerCopy w nlWordLen⟩ = nlToken w := fun bs w r => by
      rw [NlSpan.token, append_assoc, drop_left, take_left]
      rfl
    cases lineShape hs with
    | blanks h => rw [tokenizeIn_blanks h, tokenize_blanks h]; rfl
    | @last bs w hbs hw hz =>
      have : tokenize (max + 1) (bs ++ w ++ []) = nlToken w :: tokenize max ([] : List UInt8).tail :=
        tokenize_word hbs hw (.inl rfl)
      rw [tokenizeIn_last hbs hw hz, map_singleton, hfirst, ← append_nil (bs ++ w), this,
        tail_nil, tokenize_nil]
    | @more bs w s hbs hw hz =>
      have hlen : bs.length + w.length + 1 = (bs ++ w ++ [0]).length := by
        simp only [length_append, length_singleton]
      have hsplit : ∀ r : List UInt8, bs ++ w ++ 0 :: r = bs ++ w ++ [0] ++ r := by simp
      have hmore := @tokenizeIn_more bs w (s ++ 0 :: junk) max hbs hw
        fun h => hz (mem_append_left _ h)
      rw [append_assoc, cons_append, hmore, tokenize_word hbs hw (.inr rfl),
        tail_cons, ← ih fun h => hz (mem_append_right _ h), map_cons, hfirst,
        map_map, hsplit, hlen]
      congr 2
      exact funext fun t => NlSpan.token_shift ..

theorem tokenizedText_blanks (hs : ∀ c ∈ s, c = blank) : tokenizedText max s = [] := by
  cases max with
  | zero => rfl
  | succ max =>
    rw [tokenizedText, dropWhile_eq_nil_iff.mpr fun c hc => by simp [hs c hc]]
    rfl

theorem tokenizedText_word (hbs : ∀ c ∈ bs, c = blank) (hw : IsWord w)
    (hs : s = [] ∨ s.head? = some blank) :
    tokenizedText (max + 1) (bs ++ w ++ s) = bs ++ w ++ tokenizedText max s := by
  have hblanks := takeWhile_blanks hbs (head?_word (s := s) hw)
  rw [tokenizedText, append_assoc, hblanks.1, hblanks.2, if_neg (by simp [hw.ne]),
    Text.takeWhile_field hw.blank_notMem hs, Text.dropWhile_field hw.blank_notMem hs]

theorem tokenizedText_cons (hmax : max ≠ 0) (hword : ¬ ∀ c ∈ s, c = blank) :
    tokenizedText max (blank :: s) = blank :: tokenizedText max s := by
  obtain ⟨max, rfl⟩ := Nat.exists_eq_succ_of_ne_zero hmax
  have hne : s.dropWhile (· == blank) ≠ [] := fun h =>
    hword fun c hc => by simpa using dropWhile_eq_nil_iff.mp h c hc
  simp [tokenizedText, hne]

/-- The text that is left in the buffer is the one the token parser is modelled on. -/
theorem restored_text (hs : 0 ∉ s) (hmax : max ≠ 0) (hword : ¬ ∀ c ∈ s, c = blank) :
    (restored max (s ++ 0 :: junk)).takeWhile (· != 0) = tokenizedText max s := by
  induction max generalizing s with
  | zero => exact absurd rfl hmax
  | succ max ih =>
    have htext : ∀ {bs w r : List UInt8}, (∀ c ∈ bs, c = blank) → IsWord w → 0 ∉ w →
        (bs ++ w ++ r).takeWhile (· != 0) = bs ++ w ++ r.takeWhile (· != 0) := by
      intro bs w r hbs hw hz
      refine takeWhile_append_of_pos fun c hc => bne_iff_ne.mpr ?_
      rintro rfl
      rcases mem_append.mp hc with h | h
      · exact absurd (hbs 0 h) (by decide)
      · exact hz h
    cases lineShape hs with
    | blanks h => exact absurd h hword
    | @last bs w hbs hw hz =>
      rw [restored, tokenizeIn_last hbs hw hz, ← append_nil (bs ++ w),
        tokenizedText_word hbs hw (.inl rfl), append_nil, tokenizedText_blanks (by simp)]
      exact htext hbs hw hz
    | @more bs w s hbs hw hz =>
      have hz' : 0 ∉ w := fun h => hz (mem_append_left _ h)
      have hs' : 0 ∉ s := fun h => hz (mem_append_right _ h)
      rw [tokenizedText_word hbs hw (.inr rfl), append_assoc, cons_append,
        restored_more hbs hw hz', htext hbs hw hz', append_cancel_left_eq]
      by_cases hnone : (tokenizeIn max (s ++ 0 :: junk)).2 = []
      · rw [if_pos hnone]
        rcases (tokenizeIn_eq_nil hs').mp hnone with rfl | hblanks
        · rfl
        · rw [tokenizedText_blanks (forall_mem_cons.mpr ⟨rfl, hblanks⟩)]
          rfl
      · have hsome := hnone
        rw [tokenizeIn_eq_nil hs', not_or] at hsome
        rw [if_neg hnone, takeWhile_cons_of_pos (by decide), ih hs' hsome.1 hsome.2,
          tokenizedText_cons hsome.1 hsome.2]

end Tokenize

/-- `nl_parse` takes the line for what the text-level model takes it for. -/
theorem nlParseIn_result {s : List UInt8} (junk : List UInt8) (hs : 0 ∉ s) :
    (nlParseIn (s ++ 0 :: junk)).2 = nlParse s := by
  rw [nlParseIn, tokenizeIn_tokens hs]
  rfl

/-- `nl_parse` leaves the buffer as it was exactly if the line is blank, or ends with a word and
    has no more words than the table. -/
theorem nlParse_restores_iff (s junk : List UInt8) (hs : 0 ∉ s) :
    (nlParseIn (s ++ 0 :: junk)).1 = s ++ 0 :: junk ↔
      (∀ c ∈ s, c = blank) ∨ (s.getLast? ≠ some blank ∧ wordCount s ≤ nlMaxTokens) :=
  (restored_iff hs).trans (or_iff_right (by decide))

/-- A line of two words that is put back. -/
theorem nlParse_restores_two : (nlParseIn (cstr " make  it" ++ [0])).1 = cstr " make  it" ++ [0] :=
  (nlParse_restores_iff (cstr " make  it") [] (by decide)).mpr (.inr (by decide))

/-- A line with a blank at its end is cut: the parser takes the last terminator for the end of
    the line. -/
theorem nlParse_cuts_line : ¬ (nlParseIn (cstr "a " ++ [0])).1 = cstr "a " ++ [0] := by
  decide

end OpenSys
