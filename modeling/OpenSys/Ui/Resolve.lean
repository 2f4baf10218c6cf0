-- SUMMARY: resolve_path as its loops write the caller's buffer.
import OpenSys.Ui.HostFs

/-!
# The contract of `resolve_path`

`path.h` says that the function copies an absolute name, puts a slash before any other name, and
returns -1 when the result would be longer than 255 characters. Every shell command that takes a
path gives the user's word to this function and works on what it finds in its own 256 bytes
afterwards.

The two loops stop at index 255 whether or not the name has ended, and the function returns 0
after both. A name that is too long is therefore cut, and the command works on the cut path.
-/

namespace OpenSys

open List Function

/-- The memory starts with the C string `str`. -/
def HoldsString (out : Mem) (str : List UInt8) : Prop :=
  out.readBytes 0 str.length = str ∧ out str.length = 0 ∧ 0 ∉ str

/-- `while (name[i] && len < 255)`: the length reached and the buffer. -/
def copyName : (name : List UInt8) → (len : Nat) → (out : Mem) → Nat × Mem
  | [], len, out => (len, out)
  | c :: name, len, out =>
    if len < 255 then copyName name (len + 1) (update out len c) else (len, out)

/-- `resolve_path` on the buffer at `out`; `none` is the null name. -/
def resolvePathInto (out : Mem) : Option (List UInt8) → Int × Mem
  | none => (-1, out)
  | some [] => (-1, out)
  | some (c :: name) =>
    let (len, out) :=
      if c = slash then copyName (c :: name) 0 out
      else copyName (c :: name) 1 (update out 0 slash)
    (0, update out len 0)

/-- The name with a slash before it, unless it has one. -/
def absoluteName (name : List UInt8) : List UInt8 :=
  if name.head? = some slash then name else slash :: name

/-- A path that is cut before the end of the word the user typed. -/
def CutShort (path name : List UInt8) : Prop :=
  path <+: absoluteName name ∧ path ≠ absoluteName name

/-- What `resolve_path` promises for one name. -/
structure ResolveContract (out : Mem) (name : Option (List UInt8)) : Prop where
  refused : (resolvePathInto out name).1 = -1 ↔
    name = none ∨ name = some [] ∨ ∃ n, name = some n ∧ 255 < (absoluteName n).length
  copied : (resolvePathInto out name).1 ≠ -1 → (resolvePathInto out name).1 = 0 ∧
    ∃ n, name = some n ∧ HoldsString (resolvePathInto out name).2 (absoluteName n)
  -- The path a command works on is the string in the buffer of a call that returned 0.
  whole : ∀ n path, name = some n → (resolvePathInto out name).1 = 0 →
    HoldsString (resolvePathInto out name).2 path → ¬ CutShort path n

/-! ## Strings in a buffer -/

theorem readBytes_succ_last (m : Mem) (a n : Nat) :
    m.readBytes a (n + 1) = m.readBytes a n ++ [m (a + n)] := by
  simp [Mem.readBytes, range_succ]

/-- A buffer starts with one string only. -/
theorem HoldsString.unique {out : Mem} {a b : List UInt8} (ha : HoldsString out a)
    (hb : HoldsString out b) : a = b := by
  have hle : ∀ {a b : List UInt8}, HoldsString out a → HoldsString out b → a.length ≤ b.length := by
    intro a b ha hb
    by_contra hlt
    -- The terminator of the shorter string would be a byte of the longer one.
    have hmem : out b.length ∈ a := by
      rw [← ha.1]
      exact mem_map.mpr ⟨b.length, mem_range.mpr (by omega), by simp⟩
    exact ha.2.2 (hb.2.1 ▸ hmem)
  rw [← ha.1, ← hb.1, Nat.le_antisymm (hle ha hb) (hle hb ha)]

/-! ## The copy loop -/

/-- The loop appends to what the buffer holds, up to 255 bytes. -/
theorem copyName_spec (name : List UInt8) (done : List UInt8) (out : Mem) (hdone : done.length ≤ 255)
    (hheld : out.readBytes 0 done.length = done) :
    (copyName name done.length out).1 = ((done ++ name).take 255).length ∧
      (copyName name done.length out).2.readBytes 0 ((done ++ name).take 255).length =
        (done ++ name).take 255 := by
  induction name generalizing done out with
  | nil => simp [copyName, take_of_length_le hdone, hheld]
  | cons c name ih =>
    rw [copyName]
    by_cases hlen : done.length < 255
    · rw [if_pos hlen]
      have hnext : Mem.readBytes (update out done.length c) 0 (done ++ [c]).length =
          done ++ [c] := by
        rw [length_append, length_singleton, readBytes_succ_last, Nat.zero_add, update_self]
        congr 1
        conv_rhs => rw [← hheld]
        refine map_congr_left fun i hi => ?_
        exact update_of_ne (by have := mem_range.mp hi; omega) _ _
      have := ih (done ++ [c]) (update out done.length c) (by simp; omega) hnext
      simpa using this
    · -- The buffer is full: the rest of the name is dropped.
      have hfull : (done ++ c :: name).take 255 = done := by
        rw [take_append_of_le_length (by omega), take_of_length_le hdone]
      rw [if_neg hlen, hfull]
      exact ⟨rfl, hheld⟩

/-- The function on a name that is neither null nor empty: it returns 0, and the buffer holds the
first 255 bytes of the absolute form. -/
theorem resolvePathInto_some (out : Mem) {name : List UInt8} (hne : name ≠ []) (hnul : 0 ∉ name) :
    (resolvePathInto out (some name)).1 = 0 ∧
      HoldsString (resolvePathInto out (some name)).2 ((absoluteName name).take 255) := by
  obtain ⟨c, rest, rfl⟩ := exists_cons_of_ne_nil hne
  have hstring : ∀ {len : Nat} {m : Mem} {str : List UInt8},
      len = str.length → m.readBytes 0 str.length = str → 0 ∉ str →
      HoldsString (update m len 0) str := by
    intro len m str hlen hstr hno
    refine ⟨?_, by rw [hlen, update_self], hno⟩
    conv_rhs => rw [← hstr]
    refine map_congr_left fun i hi => ?_
    exact update_of_ne (by have := mem_range.mp hi; omega) _ _
  have hnoAbs : 0 ∉ (absoluteName (c :: rest)).take 255 := by
    intro hmem
    have hmem := mem_of_mem_take hmem
    unfold absoluteName at hmem
    split at hmem
    · exact hnul hmem
    · rcases mem_cons.mp hmem with h0 | h0
      · exact absurd h0 (by decide)
      · exact hnul h0
  refine ⟨rfl, ?_⟩
  by_cases hc : c = slash
  · have habs : absoluteName (c :: rest) = c :: rest := if_pos (by rw [hc]; rfl)
    obtain ⟨hlen, hbytes⟩ := copyName_spec (c :: rest) [] out (by simp) (by simp [Mem.readBytes])
    rw [habs] at hnoAbs ⊢
    simp only [resolvePathInto, if_pos hc]
    exact hstring hlen hbytes hnoAbs
  · have habs : absoluteName (c :: rest) = slash :: c :: rest := if_neg (by simpa using hc)
    obtain ⟨hlen, hbytes⟩ := copyName_spec (c :: rest) [slash] (update out 0 slash) (by simp)
      (by simp [Mem.readBytes])
    rw [habs] at hnoAbs ⊢
    simp only [resolvePathInto, if_neg hc]
    exact hstring hlen hbytes hnoAbs

/-- The path helper of the commands' models is what the loops leave in the buffer. -/
theorem resolvePathInto_eq (out : Mem) {name : List UInt8} (hnul : 0 ∉ name) :
    match resolvePath name with
    | none => resolvePathInto out (some name) = (-1, out)
    | some path => (resolvePathInto out (some name)).1 = 0 ∧
        HoldsString (resolvePathInto out (some name)).2 path := by
  by_cases hne : name = []
  · subst hne
    rfl
  have hpath : resolvePath name = some ((absoluteName name).take 255) := by
    simp only [resolvePath, absoluteName, if_neg hne]
    split <;> rfl
  rw [hpath]
  exact resolvePathInto_some out hne hnul

/-! ## The contract -/

theorem cutShort_take {name : List UInt8} (hlong : 255 < (absoluteName name).length) :
    CutShort ((absoluteName name).take 255) name := by
  refine ⟨List.take_prefix _ _, fun h => ?_⟩
  have := congrArg List.length h
  rw [length_take] at this
  omega

/-- The contract holds for a name if and only if its absolute form fits in 255 characters. A
longer one is cut, and 0 is returned for it. -/
theorem resolvePath_contract_iff (out : Mem) (name : Option (List UInt8))
    (hnul : ∀ n, name = some n → 0 ∉ n) :
    ResolveContract out name ↔ ∀ n, name = some n → (absoluteName n).length ≤ 255 := by
  constructor
  · rintro h n rfl
    by_contra hlong
    have hne : n ≠ [] := by
      rintro rfl
      simp [absoluteName] at hlong
    obtain ⟨hzero, hheld⟩ := resolvePathInto_some out hne (hnul n rfl)
    exact h.whole n _ rfl hzero hheld (cutShort_take (by omega))
  · intro hfits
    cases name with
    | none => exact ⟨by simp [resolvePathInto], fun h => absurd rfl h, fun n _ h => by cases h⟩
    | some n =>
      have hlen := hfits n rfl
      by_cases hne : n = []
      · subst hne
        refine ⟨by simp [resolvePathInto], fun h => absurd rfl h, ?_⟩
        intro n path _ hzero
        exact absurd (show (-1 : Int) = 0 from hzero) (by decide)
      obtain ⟨hzero, hheld⟩ := resolvePathInto_some out hne (hnul n rfl)
      rw [take_of_length_le hlen] at hheld
      refine ⟨?_, fun _ => ⟨hzero, n, rfl, hheld⟩, ?_⟩
      · constructor
        · intro hcode
          rw [hzero] at hcode
          exact absurd hcode (by decide)
        rintro (hnone | hempty | ⟨n', hn, hlong⟩)
        · cases hnone
        · exact absurd (Option.some.inj hempty) hne
        · cases hn
          omega
      · intro n' path hn _ hpath hcut
        cases hn
        exact hcut.2 (hpath.unique hheld)

/-- The longest name without a slash in front of it. -/
theorem resolvePath_contract_longest :
    ResolveContract (fun _ => 0) (some (List.replicate 254 97)) := by
  have hnul : ∀ n, some (List.replicate 254 97) = some n → (0 : UInt8) ∉ n := by
    rintro n ⟨⟩ h0
    exact absurd (eq_of_mem_replicate h0) (by decide)
  refine (resolvePath_contract_iff (fun _ => 0) _ hnul).mpr ?_
  rintro n ⟨⟩
  decide +kernel

/-- 255 letters: with the slash the path has 256 characters, and its last letter is dropped. -/
theorem resolvePath_cuts_long_name :
    ¬ ResolveContract (fun _ => 0) (some (List.replicate 255 97)) := by
  intro h
  have hne : List.replicate 255 (97 : UInt8) ≠ [] :=
    ne_nil_of_length_pos (by rw [length_replicate]; omega)
  have hnul : (0 : UInt8) ∉ List.replicate 255 97 := fun h =>
    absurd (eq_of_mem_replicate h) (by decide)
  have hlong : 255 < (absoluteName (List.replicate 255 97)).length := by
    have habs : absoluteName (List.replicate 255 97) = slash :: List.replicate 255 97 :=
      if_neg (by decide)
    rw [habs, length_cons, length_replicate]
    omega
  have hzero := (resolvePathInto_some (fun _ => 0) hne hnul).1
  rw [h.refused.mpr (.inr (.inr ⟨_, rfl, hlong⟩))] at hzero
  exact absurd hzero (by decide)

end OpenSys
