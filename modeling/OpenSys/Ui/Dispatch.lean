-- SUMMARY: The argument translation of dispatch in the line buffer.
import OpenSys.Fs.NsTranslate
import OpenSys.Ui.NlParser

/-!
# Dispatch

`dispatch` translates namespace arguments where they stand. Both arguments of a typed line lie in
one buffer, so the first translation may run over the second argument or past the buffer. The
memory is the list of bytes from the start of the line buffer on; it includes what lies behind
the buffer.
-/

namespace OpenSys

open List

/-! ## Strings in memory -/

/-- The string at an address. -/
def strAt (mem : List UInt8) (p : Nat) : List UInt8 := (mem.drop p).takeWhile (· != 0)

/-- `k_strcpy` -/
def kStrcpy (mem : List UInt8) (p : Nat) (s : List UInt8) : List UInt8 :=
  mem.take p ++ s ++ 0 :: mem.drop (p + s.length + 1)

section Strings

variable {F X s : List UInt8}

theorem takeWhile_of_nul (hs : 0 ∉ s) (hX : X.head? = some 0) :
    (s ++ X).takeWhile (· != 0) = s := by
  obtain ⟨X, rfl⟩ := head?_eq_some_iff.mp hX
  rw [takeWhile_append_of_pos fun b hb => by
    simp only [bne_iff_ne]
    rintro rfl
    exact hs hb]
  simp

/-- The string behind a known part of the memory. -/
theorem strAt_append (hs : 0 ∉ s) (hX : X.head? = some 0) {p : Nat} (hp : p = F.length) :
    strAt (F ++ (s ++ X)) p = s := by
  rw [strAt, hp, drop_left, takeWhile_of_nul hs hX]

theorem kStrcpy_append {p : Nat} (hp : p = F.length) :
    kStrcpy (F ++ X) p s = F ++ (s ++ 0 :: X.drop (s.length + 1)) := by
  rw [kStrcpy, hp, take_left, Nat.add_assoc, drop_append, append_assoc]
  have hnil : F.drop (F.length + (s.length + 1)) = [] := drop_eq_nil_of_le (by omega)
  rw [hnil, nil_append, Nat.add_sub_cancel_left]

/-- What has been written stands there. -/
theorem strAt_kStrcpy_self {mem : List UInt8} {p : Nat} (hp : p ≤ mem.length) (hs : 0 ∉ s) :
    strAt (kStrcpy mem p s) p = s := by
  rw [kStrcpy, append_assoc]
  exact strAt_append hs rfl (by rw [length_take, Nat.min_eq_left hp])

/-- A string that ends before the written place stays. -/
theorem strAt_kStrcpy_behind {u : List UInt8} {p : Nat} (hs : 0 ∉ s) (hX : X.head? = some 0)
    (hp : F.length + s.length < p) : strAt (kStrcpy (F ++ (s ++ X)) p u) F.length = s := by
  obtain ⟨Y, rfl⟩ := head?_eq_some_iff.mp hX
  obtain ⟨n, rfl⟩ : ∃ n, p = F.length + (s.length + (n + 1)) := ⟨p - F.length - s.length - 1, by omega⟩
  have htake : (F ++ (s ++ 0 :: Y)).take (F.length + (s.length + (n + 1))) =
      F ++ (s ++ 0 :: Y.take n) := by
    rw [take_length_add_append, take_length_add_append, take_succ_cons]
  rw [kStrcpy, htake]
  simp only [append_assoc, cons_append]
  exact strAt_append hs rfl rfl

/-- A string that reaches the written place goes on with what is written. -/
theorem strAt_kStrcpy_join {u : List UInt8} (hs : 0 ∉ s) (hu : 0 ∉ u) :
    strAt (kStrcpy (F ++ (s ++ X)) (F.length + s.length) u) F.length = s ++ u := by
  rw [← append_assoc, kStrcpy_append (by simp), append_assoc, ← append_assoc s]
  refine strAt_append ?_ rfl rfl
  simp only [mem_append, not_or]
  exact ⟨hs, hu⟩

end Strings

/-! ## Dispatch -/

/-- What a command line comes to: nothing, an error about an argument, or a handler call. -/
inductive Outcome where
  | nothing
  | argError (e : NsFs)
  | handed (c : NlCommand)
  deriving DecidableEq

/-- The capacity that is passed to `ns_to_fs_path`. -/
def argMax (cap : Int) : Int := if cap < 256 then cap else 256

/-- The translation of the argument at an address, with the addresses that it writes. -/
def translateArg (env : NsEnv) (mem : List UInt8) (p : Nat) (cap : Int) :
    Except NsFs (List UInt8 × List Nat) :=
  match nsToFsPath env (strAt mem p) (argMax cap) with
  | .ok out =>
    if 0 < cap then .ok (kStrcpy mem p out, List.range' p (out.length + 1)) else .ok (mem, [])
  | .notNs => .ok (mem, [])
  | e => .error e

/-- `dispatch` from the second argument on. -/
def dispatchSecond (env : NsEnv) (cmd mem : List UInt8) (writes : List Nat) (arg1 arg2 : Nat)
    (cap2 : Int) : Outcome × List Nat :=
  match translateArg env mem arg2 cap2 with
  | .error e => (.argError e, writes)
  | .ok (mem, more) => (.handed ⟨cmd, strAt mem arg1, strAt mem arg2⟩, writes ++ more)

/-- `dispatch`, up to the choice of the handler. -/
def dispatch (env : NsEnv) (cmd mem : List UInt8) (arg1 arg2 : Nat) (cap1 cap2 : Int) :
    Outcome × List Nat :=
  if cmd = cstr "ns" then (.handed ⟨cmd, strAt mem arg1, strAt mem arg2⟩, [])
  else
    match translateArg env mem arg1 cap1 with
    | .error e => (.argError e, [])
    | .ok (mem, writes) => dispatchSecond env cmd mem writes arg1 arg2 cap2

section Translate

variable {env : NsEnv} {mem o t : List UInt8} {p : Nat} {cap : Int}

theorem translateArg_unshaped (h : nsShaped (strAt mem p) = false) :
    translateArg env mem p cap = if cap = 0 then .error .eParse else .ok (mem, []) := by
  unfold translateArg
  rw [nsToFsPath_of_unshaped h]
  by_cases hcap : cap = 0
  · rw [if_pos hcap, if_pos (by rw [hcap]; rfl)]
  · rw [if_neg hcap, if_neg (by unfold argMax; split <;> omega)]

theorem translateArg_shaped (h : nsToFsPath env (strAt mem p) 256 = .ok t) :
    translateArg env mem p cap =
      if (t.length : Int) < cap then .ok (kStrcpy mem p t, List.range' p (t.length + 1))
      else .error .eParse := by
  obtain ⟨-, -, -, -, hlen⟩ := nsToFsPath_ok h
  unfold translateArg
  rw [nsToFsPath_of_ok h]
  by_cases hcap : (t.length : Int) < cap
  · rw [if_pos hcap, if_neg (by unfold argMax; split <;> omega)]
    dsimp only
    rw [if_pos (by omega)]
  · rw [if_neg hcap, if_pos (by unfold argMax; split <;> omega)]

/-- A namespace path that is translated in place has a translation. -/
theorem translateArg_ok {r : List UInt8 × List Nat} (hs : nsShaped (strAt mem p) = true)
    (h : translateArg env mem p cap = .ok r) :
    ∃ t, nsToFsPath env (strAt mem p) 256 = .ok t := by
  unfold translateArg at h
  split at h
  · next out hok =>
    obtain ⟨hshaped, tail, htarget, rfl, hlen⟩ := nsToFsPath_ok hok
    refine ⟨slash :: tail, ?_⟩
    rw [nsToFsPath_eq, hshaped, htarget]
    have hmax : argMax cap ≤ 256 := by unfold argMax; split <;> omega
    simp only [length_cons] at hlen
    simp only [reduceCtorEq, if_false]
    rw [if_neg (by omega), if_neg (by omega)]
  · next hno =>
    rw [nsToFsPath_notNs hno] at hs
    cases hs
  · cases h

end Translate

/-! ## When both arguments come out right -/

/-- What stands at the second argument, `k` bytes behind the first, after the translation of the
first has been written. -/
def secondFound (o1 t1 o2 : List UInt8) (k : Nat) : List UInt8 :=
  if nsShaped o1 = true ∧ k ≤ t1.length then t1.drop k else o2

/-- The translations fit: the first one fits its capacity and the buffer, and what it leaves of
the second argument is either what is wanted there already, or a namespace path behind the first
translation whose own translation fits. -/
structure ArgsFit (o1 t1 o2 t2 : List UInt8) (p k : Nat) (cap1 cap2 : Int) (cap : Nat) : Prop where
  first : cap1 ≠ 0
  second : cap2 ≠ 0
  firstFits : nsShaped o1 = true → (t1.length : Int) < cap1 ∧ p + t1.length < cap
  found : secondFound o1 t1 o2 k = t2 ∨
    nsShaped o2 = true ∧ secondFound o1 t1 o2 k = o2 ∧ (nsShaped o1 = true → t1.length < k) ∧
      (t2.length : Int) < cap2 ∧ p + k + t2.length < cap

theorem range'_lt_iff {p n cap : Nat} : (∀ w ∈ List.range' p (n + 1), w < cap) ↔ p + n < cap := by
  constructor
  · intro h
    exact h (p + n) (mem_range'_1.mpr (by omega))
  · intro h w hw
    have := mem_range'_1.mp hw
    omega

section Layout

variable {env : NsEnv} {cmd F o1 g o2 B t1 t2 : List UInt8} {cap1 cap2 : Int} {cap : Nat}

theorem translated_unshaped (h : translated env o1 = some t1) : nsShaped t1 = false := by
  rcases translated_eq_some h with ⟨hs, rfl⟩ | ⟨-, hok⟩
  · exact hs
  · obtain ⟨-, tail, -, rfl, -⟩ := nsToFsPath_ok hok
    exact nsShaped_slash tail

theorem zero_notMem_of_ok {max : Int} (h : nsToFsPath env o1 max = .ok t1) : 0 ∉ t1 := fun h0 =>
  (pathByte_of_ok h 0 h0).ne_zero rfl

/-- The second argument comes out right when it is found right, or is found as a namespace path
with the wanted translation, which fits and does not touch the first argument. -/
theorem dispatchSecond_iff {mem : List UInt8} {writes : List Nat} {p1 p2 : Nat}
    (hlen : p2 ≤ mem.length) (hmem : strAt mem p1 = t1) (ht2 : nsShaped t2 = false)
    {d : Outcome × List Nat} (hd : d = dispatchSecond env cmd mem writes p1 p2 cap2) :
    (d.1 = .handed ⟨cmd, t1, t2⟩ ∧ ∀ w ∈ d.2, w < cap) ↔
      (∀ w ∈ writes, w < cap) ∧ cap2 ≠ 0 ∧ (strAt mem p2 = t2 ∨
        nsToFsPath env (strAt mem p2) 256 = .ok t2 ∧ (t2.length : Int) < cap2 ∧
          p2 + t2.length < cap ∧ strAt (kStrcpy mem p2 t2) p1 = t1) := by
  unfold dispatchSecond at hd
  cases hshaped : nsShaped (strAt mem p2) with
  | false =>
    have hnot : nsToFsPath env (strAt mem p2) 256 ≠ .ok t2 := fun h => by
      rw [(nsToFsPath_ok h).1] at hshaped
      cases hshaped
    rw [translateArg_unshaped hshaped] at hd
    by_cases hc2 : cap2 = 0
    · rw [if_pos hc2] at hd
      subst hd
      exact ⟨fun h => absurd h.1 (by simp), fun h => absurd hc2 h.2.1⟩
    rw [if_neg hc2] at hd
    dsimp only at hd
    rw [hmem] at hd
    subst hd
    simp only [append_nil, Outcome.handed.injEq, NlCommand.mk.injEq, true_and, ne_eq, hc2,
      not_false_eq_true, hnot, false_and, or_false]
    exact and_comm
  | true =>
    have hne : strAt mem p2 ≠ t2 := by
      rintro rfl
      rw [ht2] at hshaped
      cases hshaped
    cases htr : translateArg env mem p2 cap2 with
    | error e =>
      rw [htr] at hd
      subst hd
      refine ⟨fun h => absurd h.1 (by simp), ?_⟩
      rintro ⟨-, -, h | ⟨hok, hc2, -⟩⟩
      · exact absurd h hne
      · rw [translateArg_shaped hok, if_pos hc2] at htr
        cases htr
    | ok r =>
      obtain ⟨u, hu⟩ := translateArg_ok hshaped htr
      rw [htr] at hd
      rw [translateArg_shaped hu] at htr
      split at htr
      · next hc2 =>
        cases htr
        dsimp only at hd
        rw [strAt_kStrcpy_self hlen (zero_notMem_of_ok hu)] at hd
        subst hd
        simp only [Outcome.handed.injEq, NlCommand.mk.injEq, true_and, mem_append, or_imp,
          forall_and, range'_lt_iff, hne, false_or, hu, NsFs.ok.injEq]
        constructor
        · rintro ⟨⟨harg, rfl⟩, hw, hroom⟩
          exact ⟨hw, by omega, rfl, hc2, hroom, harg⟩
        · rintro ⟨hw, -, rfl, -, hroom, harg⟩
          exact ⟨⟨harg, rfl⟩, hw, hroom⟩
      · cases htr

/-- A terminator follows the first argument: in the gap, or that of an empty second argument. -/
theorem head?_gap (hg : g = [] ∧ o2 = [] ∨ g.head? = some 0) :
    (g ++ (o2 ++ 0 :: B)).head? = some 0 := by
  rcases hg with ⟨rfl, rfl⟩ | hg
  · rfl
  · rw [head?_append, hg]
    rfl

/-- A second argument that is a namespace path has a gap before it. -/
theorem gap_ne_zero (hg : g = [] ∧ o2 = [] ∨ g.head? = some 0) (hs : nsShaped o2 = true) :
    g.length ≠ 0 := by
  rcases hg with ⟨-, rfl⟩ | hg
  · cases hs
  · cases g with
    | nil => cases hg
    | cons b g => simp

theorem strAt_first (h1 : 0 ∉ o1) (hg : g = [] ∧ o2 = [] ∨ g.head? = some 0) :
    strAt (F ++ (o1 ++ (g ++ (o2 ++ 0 :: B)))) F.length = o1 :=
  strAt_append h1 (head?_gap hg) rfl

theorem strAt_second (h2 : 0 ∉ o2) :
    strAt (F ++ (o1 ++ (g ++ (o2 ++ 0 :: B)))) (F.length + (o1.length + g.length)) = o2 := by
  rw [← append_assoc o1, ← append_assoc]
  exact strAt_append h2 rfl (by simp)

/-- What stands at the second argument after the first one has been written over. -/
theorem strAt_found (F o1 g B : List UInt8) (h0 : 0 ∉ t1) (h2 : 0 ∉ o2) :
    strAt (F ++ (t1 ++ 0 :: (o1 ++ (g ++ (o2 ++ 0 :: B))).drop (t1.length + 1)))
        (F.length + (o1.length + g.length)) =
      if o1.length + g.length ≤ t1.length then t1.drop (o1.length + g.length) else o2 := by
  by_cases hlong : o1.length + g.length ≤ t1.length
  · have hcut : ∀ R : List UInt8, F ++ (t1 ++ R) = F ++ t1.take (o1.length + g.length) ++
        (t1.drop (o1.length + g.length) ++ R) := by
      intro R
      rw [append_assoc, ← append_assoc (t1.take _), take_append_drop]
    rw [if_pos hlong, hcut]
    exact strAt_append (fun h => h0 (mem_of_mem_drop h)) rfl (by simp; omega)
  · rw [if_neg hlong, strAt, ← append_assoc, drop_append,
      drop_eq_nil_of_le (by simp; omega), nil_append]
    obtain ⟨n, hn⟩ : ∃ n, F.length + (o1.length + g.length) - (F ++ t1).length = n + 1 :=
      ⟨o1.length + g.length - t1.length - 1, by simp; omega⟩
    rw [hn, drop_succ_cons, drop_drop, ← append_assoc,
      drop_left' (by simp at hn ⊢; omega), takeWhile_of_nul h2 rfl]

theorem length_after (F o1 g o2 B t1 : List UInt8) : F.length + (o1.length + g.length) ≤
    (F ++ (t1 ++ 0 :: (o1 ++ (g ++ (o2 ++ 0 :: B))).drop (t1.length + 1))).length := by
  simp only [length_append, length_cons, length_drop]
  omega

/-- A second translation that starts inside the first one changes its tail. -/
theorem strAt_overlap {R u : List UInt8} {k : Nat} (hlong : k ≤ t1.length) (h0 : 0 ∉ t1)
    (hu : 0 ∉ u) :
    strAt (kStrcpy (F ++ (t1 ++ R)) (F.length + k) u) F.length = t1.take k ++ u := by
  have hk : F.length + k = F.length + (t1.take k).length := by simp; omega
  have hcut : F ++ (t1 ++ R) = F ++ (t1.take k ++ (t1.drop k ++ R)) := by
    rw [← append_assoc (t1.take k), take_append_drop]
  rw [hcut, hk]
  exact strAt_kStrcpy_join (fun h => h0 (mem_of_mem_take h)) hu

/-- `dispatch` hands over both translations without leaving the buffer exactly when they fit. -/
theorem dispatch_iff (hcmd : cmd ≠ cstr "ns") (h1 : 0 ∉ o1) (h2 : 0 ∉ o2)
    (hg : g = [] ∧ o2 = [] ∨ g.head? = some 0) (ht1 : translated env o1 = some t1)
    (ht2 : translated env o2 = some t2) {d : Outcome × List Nat}
    (hd : d = dispatch env cmd (F ++ (o1 ++ (g ++ (o2 ++ 0 :: B)))) F.length
      (F.length + (o1.length + g.length)) cap1 cap2) :
    (d.1 = .handed ⟨cmd, t1, t2⟩ ∧ ∀ w ∈ d.2, w < cap) ↔
      ArgsFit o1 t1 o2 t2 F.length (o1.length + g.length) cap1 cap2 cap := by
  have hhead : (g ++ (o2 ++ 0 :: B)).head? = some 0 := head?_gap hg
  have hfirst : strAt (F ++ (o1 ++ (g ++ (o2 ++ 0 :: B)))) F.length = o1 := strAt_first h1 hg
  have hun2 := translated_unshaped ht2
  -- the second argument is a namespace path, or is wanted as it is
  have hsecond : nsShaped o2 = true → nsToFsPath env o2 256 = .ok t2 ∧ g.length ≠ 0 ∧ o2 ≠ t2 := by
    intro hs2
    refine ⟨?_, gap_ne_zero hg hs2, ?_⟩
    · rcases translated_eq_some ht2 with ⟨hs, -⟩ | ⟨-, hok⟩
      · rw [hs] at hs2
        cases hs2
      · exact hok
    · rintro rfl
      rw [hun2] at hs2
      cases hs2
  unfold dispatch at hd
  rw [if_neg hcmd] at hd
  rcases translated_eq_some ht1 with ⟨hs1, rfl⟩ | ⟨hs1, hok1⟩
  · -- the first argument stays as it is
    have hfound : secondFound t1 t1 o2 (t1.length + g.length) = o2 := by
      rw [secondFound, if_neg (by simp [hs1])]
    have hmem2 : strAt (F ++ (t1 ++ (g ++ (o2 ++ 0 :: B)))) (F.length + (t1.length + g.length)) =
        o2 := strAt_second h2
    rw [translateArg_unshaped (by rw [hfirst, hs1])] at hd
    by_cases hc1 : cap1 = 0
    · rw [if_pos hc1] at hd
      subst hd
      exact ⟨fun h => absurd h.1 (by simp), fun h => absurd hc1 h.first⟩
    rw [if_neg hc1] at hd
    rw [dispatchSecond_iff (by simp) hfirst hun2 hd, hmem2]
    constructor
    · rintro ⟨-, hc2, h | ⟨hok2, hfits, hroom, -⟩⟩
      · exact ⟨hc1, hc2, fun h => absurd h (by simp [hs1]), .inl (hfound.trans h)⟩
      · exact ⟨hc1, hc2, fun h => absurd h (by simp [hs1]), .inr ⟨(nsToFsPath_ok hok2).1, hfound,
          fun h => absurd h (by simp [hs1]), hfits, hroom⟩⟩
    · rintro ⟨-, hc2, -, h | ⟨hs2, -, -, hfits, hroom⟩⟩
      · exact ⟨by simp, hc2, .inl (hfound.symm.trans h)⟩
      · obtain ⟨hok2, hgap, -⟩ := hsecond hs2
        exact ⟨by simp, hc2, .inr ⟨hok2, hfits, hroom, strAt_kStrcpy_behind h1 hhead (by omega)⟩⟩
  · rw [translateArg_shaped (by rw [hfirst]; exact hok1)] at hd
    by_cases hc1 : (t1.length : Int) < cap1
    · rw [if_pos hc1] at hd
      dsimp only at hd
      rw [kStrcpy_append rfl] at hd
      have h0 := zero_notMem_of_ok hok1
      generalize hR : (o1 ++ (g ++ (o2 ++ 0 :: B))).drop (t1.length + 1) = R at hd
      have hmem1 : strAt (F ++ (t1 ++ 0 :: R)) F.length = t1 := strAt_append h0 rfl rfl
      have hmem2 := strAt_found F o1 g B h0 h2
      rw [hR] at hmem2
      have hfoundEq : secondFound o1 t1 o2 (o1.length + g.length) =
          if o1.length + g.length ≤ t1.length then t1.drop (o1.length + g.length) else o2 := by
        simp only [secondFound, hs1, true_and]
      rw [← hfoundEq] at hmem2
      have hlen := length_after F o1 g o2 B t1
      rw [hR] at hlen
      rw [dispatchSecond_iff hlen hmem1 hun2 hd, hmem2, range'_lt_iff]
      constructor
      · rintro ⟨hroom1, hc2, h | ⟨hok2, hfits, hroom, harg⟩⟩
        · exact ⟨by omega, hc2, fun _ => ⟨hc1, hroom1⟩, .inl h⟩
        by_cases hlong : o1.length + g.length ≤ t1.length
        · -- the second translation would change the tail of the first
          exfalso
          rw [strAt_overlap hlong h0 (zero_notMem_of_ok hok2)] at harg
          have htail : t2 = t1.drop (o1.length + g.length) :=
            append_cancel_left (harg.trans (take_append_drop _ t1).symm)
          rw [secondFound, if_pos ⟨hs1, hlong⟩, ← htail] at hok2
          rw [(nsToFsPath_ok hok2).1] at hun2
          cases hun2
        · have hfound : secondFound o1 t1 o2 (o1.length + g.length) = o2 := by
            rw [secondFound, if_neg fun h => hlong h.2]
          rw [hfound] at hok2
          exact ⟨by omega, hc2, fun _ => ⟨hc1, hroom1⟩,
            .inr ⟨(nsToFsPath_ok hok2).1, hfound, fun _ => by omega, hfits, hroom⟩⟩
      · rintro ⟨-, hc2, hfirstFits, h | ⟨hs2, hfound, hapart, hfits, hroom⟩⟩
        · exact ⟨(hfirstFits hs1).2, hc2, .inl h⟩
        · have hbehind := hapart hs1
          exact ⟨(hfirstFits hs1).2, hc2, .inr ⟨by rw [hfound]; exact (hsecond hs2).1, hfits, hroom,
            strAt_kStrcpy_behind h0 rfl (by omega)⟩⟩
    · rw [if_neg hc1] at hd
      subst hd
      exact ⟨fun h => absurd h.1 (by simp), fun h => absurd (h.firstFits hs1).1 hc1⟩

/-! ## The outcome without the memory -/

/-- The outcome of the second stage: `first` is the first argument, and `kept` what a second
translation leaves of it. -/
def secondOutcome (cmd first found : List UInt8) (kept : List UInt8 → List UInt8) : NsFs → Outcome
  | .ok u => .handed ⟨cmd, kept u, u⟩
  | .notNs => .handed ⟨cmd, first, found⟩
  | e => .argError e

/-- The outcome of `dispatch` on two strings, the second one `k` bytes behind the first. -/
def dispatchArgs (env : NsEnv) (cmd o1 o2 : List UInt8) (k : Nat) (cap1 cap2 : Int) : Outcome :=
  if cmd = cstr "ns" then .handed ⟨cmd, o1, o2⟩
  else
    match nsToFsPath env o1 (argMax cap1) with
    | .ok t1 =>
      if k ≤ t1.length then
        secondOutcome cmd t1 (t1.drop k) (t1.take k ++ ·)
          (nsToFsPath env (t1.drop k) (argMax cap2))
      else secondOutcome cmd t1 o2 (fun _ => t1) (nsToFsPath env o2 (argMax cap2))
    | .notNs => secondOutcome cmd o1 o2 (fun _ => o1) (nsToFsPath env o2 (argMax cap2))
    | e => .argError e

theorem cap_pos_of_ok {o u : List UInt8} {cap : Int} (h : nsToFsPath env o (argMax cap) = .ok u) :
    0 < cap := by
  obtain ⟨-, -, -, -, hroom⟩ := nsToFsPath_ok h
  unfold argMax at hroom
  split at hroom <;> omega

theorem dispatchSecond_outcome {mem found first : List UInt8} {writes : List Nat} {p1 p2 : Nat}
    {kept : List UInt8 → List UInt8} (hlen : p2 ≤ mem.length) (hfirst : strAt mem p1 = first)
    (hfound : strAt mem p2 = found)
    (hkept : ∀ u, nsToFsPath env found (argMax cap2) = .ok u →
      strAt (kStrcpy mem p2 u) p1 = kept u) :
    (dispatchSecond env cmd mem writes p1 p2 cap2).1 =
      secondOutcome cmd first found kept (nsToFsPath env found (argMax cap2)) := by
  unfold dispatchSecond translateArg
  rw [hfound]
  cases hr : nsToFsPath env found (argMax cap2) with
  | ok u =>
    dsimp only
    rw [if_pos (cap_pos_of_ok hr)]
    dsimp only
    rw [hkept u hr, strAt_kStrcpy_self hlen (zero_notMem_of_ok hr)]
    rfl
  | notNs =>
    dsimp only
    rw [hfirst, hfound]
    rfl
  | _ => rfl

/-- The outcome depends on the two strings and the distance between them only. -/
theorem dispatch_outcome (h1 : 0 ∉ o1) (h2 : 0 ∉ o2)
    (hg : g = [] ∧ o2 = [] ∨ g.head? = some 0) :
    (dispatch env cmd (F ++ (o1 ++ (g ++ (o2 ++ 0 :: B)))) F.length
      (F.length + (o1.length + g.length)) cap1 cap2).1 =
      dispatchArgs env cmd o1 o2 (o1.length + g.length) cap1 cap2 := by
  have hhead : (g ++ (o2 ++ 0 :: B)).head? = some 0 := head?_gap hg
  have hfirst : strAt (F ++ (o1 ++ (g ++ (o2 ++ 0 :: B)))) F.length = o1 := strAt_first h1 hg
  have hsecond : strAt (F ++ (o1 ++ (g ++ (o2 ++ 0 :: B)))) (F.length + (o1.length + g.length)) =
      o2 := strAt_second h2
  unfold dispatch dispatchArgs
  by_cases hcmd : cmd = cstr "ns"
  · rw [if_pos hcmd, if_pos hcmd, hfirst, hsecond]
  rw [if_neg hcmd, if_neg hcmd]
  unfold translateArg
  rw [hfirst]
  cases hr : nsToFsPath env o1 (argMax cap1) with
  | ok t1 =>
    have h0 := zero_notMem_of_ok hr
    dsimp only
    rw [if_pos (cap_pos_of_ok hr), kStrcpy_append rfl]
    dsimp only
    have hmem1 : ∀ R : List UInt8, strAt (F ++ (t1 ++ 0 :: R)) F.length = t1 :=
      fun _ => strAt_append h0 rfl rfl
    have hmem2 := strAt_found F o1 g B h0 h2
    by_cases hlong : o1.length + g.length ≤ t1.length
    · rw [if_pos hlong] at hmem2 ⊢
      exact dispatchSecond_outcome (length_after F o1 g o2 B t1) (hmem1 _) hmem2
        fun u hu => strAt_overlap hlong h0 (zero_notMem_of_ok hu)
    · rw [if_neg hlong] at hmem2 ⊢
      exact dispatchSecond_outcome (length_after F o1 g o2 B t1) (hmem1 _) hmem2
        fun u _ => strAt_kStrcpy_behind h0 rfl (by omega)
  | notNs =>
    dsimp only
    refine dispatchSecond_outcome (by simp) hfirst hsecond fun u hu => ?_
    have hgap := gap_ne_zero hg (nsToFsPath_ok hu).1
    exact strAt_kStrcpy_behind h1 hhead (by omega)
  | _ => rfl

/-! ## The capacity -/

/-- The capacity is not what keeps the argument from being translated. -/
def CapOk (env : NsEnv) (o : List UInt8) (cap : Int) : Prop :=
  cap ≠ 0 ∧ ∀ t, nsToFsPath env o 256 = .ok t → (t.length : Int) < cap

theorem nsToFsPath_of_capOk {o : List UInt8} {cap : Int} (h : CapOk env o cap) :
    nsToFsPath env o (argMax cap) = nsToFsPath env o 256 := by
  have hmax : argMax cap ≠ 0 ∧ argMax cap ≤ 256 ∧ (cap ≤ 256 → argMax cap = cap) := by
    have := h.1
    unfold argMax
    split <;> omega
  cases hs : nsShaped o with
  | false => rw [nsToFsPath_of_unshaped hs, nsToFsPath_of_unshaped hs, if_neg hmax.1, if_neg (by simp)]
  | true =>
    have hfit := h.2
    rw [nsToFsPath_eq env o 256, hs] at hfit ⊢
    rw [nsToFsPath_eq, hs, if_neg hmax.1]
    simp only [if_false, Bool.true_eq_false] at hfit ⊢
    rw [if_neg (by omega)] at hfit ⊢
    cases htarget : nsTarget env o with
    | error e => rfl
    | ok tail =>
      rw [htarget] at hfit
      dsimp only at hfit ⊢
      by_cases hlong : (256 : Int) < tail.length + 2
      · rw [if_pos hlong, if_pos (by omega)]
      rw [if_neg hlong] at hfit ⊢
      have hroom := hfit _ rfl
      simp only [length_cons] at hroom
      rw [if_neg]
      unfold argMax
      split <;> omega

theorem nsToFsPath_of_not_capOk {o : List UInt8} {cap : Int} (h : ¬CapOk env o cap) :
    nsToFsPath env o (argMax cap) = .eParse := by
  by_cases hcap : cap = 0
  · rw [hcap]
    rfl
  have hlong : ∃ t, nsToFsPath env o 256 = .ok t ∧ ¬(t.length : Int) < cap := by
    by_contra hno
    push Not at hno
    exact h ⟨hcap, hno⟩
  obtain ⟨t, hok, hlong⟩ := hlong
  obtain ⟨-, -, -, -, hlen⟩ := nsToFsPath_ok hok
  rw [nsToFsPath_of_ok hok, if_pos]
  unfold argMax
  split <;> omega

/-- What stands at the second argument when the first one has been dealt with. -/
def foundSecond (env : NsEnv) (o1 o2 : List UInt8) (k : Nat) : Option (List UInt8) :=
  match nsToFsPath env o1 256 with
  | .ok t1 => some (if k ≤ t1.length then t1.drop k else o2)
  | .notNs => some o2
  | _ => none

/-- The capacities keep neither argument from being translated. -/
def ArgsPass (env : NsEnv) (cmd o1 o2 : List UInt8) (k : Nat) (cap1 cap2 : Int) : Prop :=
  cmd = cstr "ns" ∨
    CapOk env o1 cap1 ∧ ∀ s, foundSecond env o1 o2 k = some s → CapOk env s cap2

variable {k : Nat}

/-- Capacities that suffice do not matter. -/
theorem dispatchArgs_of_pass (h : ArgsPass env cmd o1 o2 k cap1 cap2) :
    dispatchArgs env cmd o1 o2 k cap1 cap2 = dispatchArgs env cmd o1 o2 k 256 256 := by
  unfold dispatchArgs
  rcases h with hcmd | ⟨hfirst, hsecond⟩
  · rw [if_pos hcmd, if_pos hcmd]
  have hmax : argMax 256 = 256 := rfl
  rw [nsToFsPath_of_capOk hfirst, hmax]
  unfold foundSecond at hsecond
  cases hr : nsToFsPath env o1 256 with
  | ok t1 =>
    rw [hr] at hsecond
    dsimp only at hsecond ⊢
    by_cases hlong : k ≤ t1.length
    · rw [if_pos hlong] at hsecond
      rw [if_pos hlong, if_pos hlong, nsToFsPath_of_capOk (hsecond _ rfl)]
    · rw [if_neg hlong] at hsecond
      rw [if_neg hlong, if_neg hlong, nsToFsPath_of_capOk (hsecond _ rfl)]
  | notNs =>
    rw [hr] at hsecond
    dsimp only
    rw [nsToFsPath_of_capOk (hsecond _ rfl)]
  | _ => rfl

/-- Capacities that do not suffice have the line refused. -/
theorem dispatchArgs_of_not_pass (h : ¬ArgsPass env cmd o1 o2 k cap1 cap2) :
    dispatchArgs env cmd o1 o2 k cap1 cap2 = .argError .eParse := by
  unfold ArgsPass at h
  push Not at h
  obtain ⟨hcmd, hrest⟩ := h
  unfold dispatchArgs
  rw [if_neg hcmd]
  by_cases hfirst : CapOk env o1 cap1
  · obtain ⟨s, hs, hsecond⟩ := hrest hfirst
    have hrefused := nsToFsPath_of_not_capOk hsecond
    rw [nsToFsPath_of_capOk hfirst]
    unfold foundSecond at hs
    cases hr : nsToFsPath env o1 256 with
    | ok t1 =>
      rw [hr] at hs
      dsimp only at hs ⊢
      by_cases hlong : k ≤ t1.length
      · rw [if_pos hlong] at hs ⊢
        cases hs
        rw [hrefused]
        rfl
      · rw [if_neg hlong] at hs ⊢
        cases hs
        rw [hrefused]
        rfl
    | notNs =>
      rw [hr] at hs
      cases hs
      dsimp only
      rw [hrefused]
      rfl
    | eParse => rfl
    | _ => rw [hr] at hs; cases hs
  · rw [nsToFsPath_of_not_capOk hfirst]

end Layout

end OpenSys
