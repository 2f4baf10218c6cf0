-- SUMMARY: Path lookup of fs.c as resolution in a tree of named nodes.
import OpenSys.Fs.Slot
import OpenSys.Lib.Tree
import Mathlib.Data.List.TakeWhile

/-!
# Lookup

`find_file` cuts a path into components and looks for an entry with the right parent and
name, component by component. When the entries form a tree in which siblings have
different names, it finds what the path leads to.
-/

namespace OpenSys

open OpenSys.Tree List

/-! ## Components -/

section Components

variable {ptr q name : List UInt8} {fuel : Nat}

/-- The component that a path starts with. -/
def firstComponent (ptr : List UInt8) : List UInt8 :=
  (ptr.takeWhile (· != slash)).take (maxFilenameLen - 1)

/-- What follows the first component and its slash. -/
def behindFirst (ptr : List UInt8) : List UInt8 :=
  let rest := ptr.drop (firstComponent ptr).length
  if rest.head? = some slash then rest.tail else rest

theorem componentsFrom_succ (h : ptr ≠ []) : componentsFrom (fuel + 1) ptr =
    (if firstComponent ptr = [] then [] else [firstComponent ptr]) ++
      componentsFrom fuel (behindFirst ptr) := by
  rw [componentsFrom, if_neg h]
  change (if firstComponent ptr = [] then componentsFrom fuel (behindFirst ptr)
    else firstComponent ptr :: componentsFrom fuel (behindFirst ptr)) = _
  by_cases hfirst : firstComponent ptr = [] <;> simp [hfirst]

theorem length_firstComponent_le (ptr : List UInt8) : (firstComponent ptr).length ≤ ptr.length :=
  (length_take_le' _ _).trans (List.takeWhile_prefix _).length_le

theorem firstComponent_eq_nil (h : firstComponent ptr = []) : ptr = [] ∨ ptr.head? = some slash := by
  cases ptr with
  | nil => exact .inl rfl
  | cons c ptr =>
    by_cases hc : c = slash
    · exact .inr (by rw [hc]; rfl)
    · simp [firstComponent, hc, maxFilenameLen] at h

theorem length_behindFirst_lt (h : ptr ≠ []) : (behindFirst ptr).length < ptr.length := by
  have hpos : 0 < ptr.length := length_pos_iff.mpr h
  have hle := length_firstComponent_le ptr
  unfold behindFirst
  dsimp only
  by_cases hfirst : firstComponent ptr = []
  · have hhead := (firstComponent_eq_nil hfirst).resolve_left h
    rw [hfirst, length_nil, drop_zero, if_pos hhead, length_tail]
    omega
  have hfpos : 0 < (firstComponent ptr).length := length_pos_iff.mpr hfirst
  split_ifs
  · rw [length_tail, length_drop]
    omega
  · rw [length_drop]
    omega

/-- Fuel for every byte is enough. -/
theorem componentsFrom_fuel {fuel' : Nat} (h : ptr.length ≤ fuel) (h' : ptr.length ≤ fuel') :
    componentsFrom fuel ptr = componentsFrom fuel' ptr := by
  induction fuel generalizing ptr fuel' with
  | zero =>
    obtain rfl := length_eq_zero_iff.mp (Nat.le_zero.mp h)
    cases fuel' <;> rfl
  | succ fuel ih =>
    by_cases hnil : ptr = []
    · subst hnil
      cases fuel' <;> rfl
    have hlt := length_behindFirst_lt hnil
    cases fuel' with
    | zero => omega
    | succ fuel' =>
      have hrest : componentsFrom fuel (behindFirst ptr) = componentsFrom fuel' (behindFirst ptr) :=
        ih (by omega) (by omega)
      rw [componentsFrom_succ hnil, componentsFrom_succ hnil, hrest]

theorem pathComponents_step (h : ptr ≠ []) : pathComponents ptr =
    (if firstComponent ptr = [] then [] else [firstComponent ptr]) ++
      pathComponents (behindFirst ptr) := by
  have hlt := length_behindFirst_lt h
  rw [pathComponents, componentsFrom_fuel (Nat.le_refl _) (Nat.le_succ _), componentsFrom_succ h,
    pathComponents, componentsFrom_fuel (by omega) (Nat.le_refl _)]

theorem takeWhile_append_slash :
    (ptr ++ slash :: q).takeWhile (· != slash) = ptr.takeWhile (· != slash) := by
  induction ptr with
  | nil => simp
  | cons c ptr ih => simp only [cons_append, takeWhile_cons, ih]

theorem firstComponent_append : firstComponent (ptr ++ slash :: q) = firstComponent ptr := by
  rw [firstComponent, firstComponent, takeWhile_append_slash]

theorem behindFirst_append (h : ptr ≠ []) : behindFirst (ptr ++ slash :: q) = q ∧
    behindFirst ptr = [] ∧ firstComponent ptr ≠ [] ∨
    behindFirst (ptr ++ slash :: q) = behindFirst ptr ++ slash :: q := by
  have hle := length_firstComponent_le ptr
  unfold behindFirst
  dsimp only
  rw [firstComponent_append, drop_append_of_le_length hle]
  cases hrest : ptr.drop (firstComponent ptr).length with
  | nil =>
    refine .inl ⟨by simp, by simp, fun hfirst => h ?_⟩
    rwa [hfirst, length_nil, drop_zero] at hrest
  | cons c rest =>
    refine .inr ?_
    by_cases hc : c = slash <;> simp [hc]

theorem length_of_mem_components {n : List UInt8} (h : n ∈ pathComponents ptr) : n.length ≤ 254 := by
  rw [pathComponents] at h
  generalize ptr.length = fuel at h
  induction fuel generalizing ptr with
  | zero => simp [componentsFrom] at h
  | succ fuel ih =>
    by_cases hnil : ptr = []
    · simp [componentsFrom, hnil] at h
    rw [componentsFrom_succ hnil, mem_append] at h
    rcases h with h | h
    · split_ifs at h
      · simp at h
      · rw [mem_singleton.mp h]
        exact length_take_le _ _
    · exact ih h

/-- A slash separates components. -/
theorem pathComponents_append_slash :
    pathComponents (ptr ++ slash :: q) = pathComponents ptr ++ pathComponents q := by
  generalize hn : ptr.length = n
  induction n using Nat.strong_induction_on generalizing ptr with
  | _ n ih =>
    by_cases hnil : ptr = []
    · subst hnil
      rw [nil_append, pathComponents_step (by simp)]
      simp [firstComponent, behindFirst, pathComponents, componentsFrom]
    have hlt := length_behindFirst_lt hnil
    rw [pathComponents_step (by simp), firstComponent_append, pathComponents_step hnil]
    rcases behindFirst_append (q := q) hnil with ⟨hall, hnone, hfirst⟩ | hall
    · rw [hall, hnone]
      simp [hfirst, pathComponents, componentsFrom]
    · rw [hall, ih _ (by omega) rfl, append_assoc]

/-- A name is a component of its own. -/
theorem pathComponents_name (hne : name ≠ []) (hslash : slash ∉ name) (hlen : name.length ≤ 254) :
    pathComponents name = [name] := by
  have hall : name.takeWhile (· != slash) = name := by
    refine takeWhile_eq_self_iff.mpr fun c hc => ?_
    simp only [bne_iff_ne]
    rintro rfl
    exact hslash hc
  have hfirst : firstComponent name = name := by
    rw [firstComponent, hall]
    exact take_of_length_le hlen
  have hbehind : behindFirst name = [] := by simp [behindFirst, hfirst]
  rw [pathComponents_step hne, hfirst, hbehind, if_neg hne]
  rfl

end Components

/-! ## The parent part of a path -/

section Split

variable {path : List UInt8}

theorem lastSlash_split (h : slash ∈ path) :
    path.take (lastSlash path) ++ slash :: path.drop (lastSlash path + 1) = path ∧
      slash ∉ path.drop (lastSlash path + 1) := by
  induction path with
  | nil => simp at h
  | cons c path ih =>
    by_cases hmem : slash ∈ path
    · obtain ⟨hsplit, hno⟩ := ih hmem
      rw [lastSlash, if_pos hmem]
      exact ⟨by rw [take_succ_cons, cons_append, drop_succ_cons, hsplit], by rwa [drop_succ_cons]⟩
    · have hc : c = slash := by
        rcases mem_cons.mp h with heq | hin
        · exact heq.symm
        · exact absurd hin hmem
      rw [lastSlash, if_neg hmem]
      simp [hc, hmem]

/-- The components of an absolute path. -/
def absComponents (path : List UInt8) : List (List UInt8) := pathComponents path.tail

/-- An absolute path has the components of its parent part, and then its name. -/
theorem absComponents_split (habs : path.head? = some slash) (hne : (splitPath path).2 ≠ [])
    (hlen : (splitPath path).2.length ≤ 254) :
    absComponents path = absComponents (splitPath path).1 ++ [(splitPath path).2] := by
  cases path with
  | nil => cases habs
  | cons c rest =>
    obtain rfl : c = slash := by simpa using habs
    have hmem : slash ∈ slash :: rest := by simp
    obtain ⟨hsplit, hno⟩ := lastSlash_split hmem
    simp only [splitPath] at hne hlen ⊢
    have hname := pathComponents_name hne hno hlen
    cases hk : lastSlash (slash :: rest) with
    | zero =>
      rw [hk] at hname
      simpa [absComponents, pathComponents, componentsFrom] using hname
    | succ k =>
      rw [hk] at hsplit hname
      simp only [Nat.add_eq_zero_iff, one_ne_zero, and_false, if_false]
      simp only [take_succ_cons, cons_append, drop_succ_cons, List.cons.injEq,
        true_and] at hsplit hname ⊢
      rw [absComponents, absComponents, tail_cons, tail_cons, ← hname,
        ← pathComponents_append_slash, hsplit]

end Split

/-! ## Entries as a tree -/

/-- `parent_mft` of an entry. -/
def Fs.parentOf (s : Fs) (i : Nat) : Nat := ((s.filename i).map (fnParentMft s.mem)).getD 0

/-- `filename` of an entry. -/
def Fs.nameOf (s : Fs) (i : Nat) : List UInt8 := ((s.filename i).map (fnFilename s.mem)).getD []

def Fs.isDirectory (s : Fs) (i : Nat) : Bool := mftIsDirectory s.mem (s.slot i)

/-- The user entries in use, with their parents and names. -/
def Fs.forest (s : Fs) : Forest Nat (List UInt8) where
  live i := i ∈ s.userSlots ∧ s.inUse i = true
  dir i := s.isDirectory i = true
  parent := s.parentOf
  name := s.nameOf

/-- The root directory or a user entry in use. -/
def Fs.node (s : Fs) (i : Nat) : Prop := i = mftRoot ∨ s.forest.live i

variable {s s' : Fs} {i j p : Nat}

theorem mem_userSlots : i ∈ s.userSlots ↔ mftFirstUser ≤ i ∧ i < s.boot.mftSize := by
  rw [Fs.userSlots, mem_range'_1]
  omega

theorem Fs.slot_eq (h : s'.mftZone = s.mftZone) (i : Nat) : s'.slot i = s.slot i := by
  rw [Fs.slot, Fs.slot, h]

/-- A change inside one slot leaves the others as they are. -/
theorem slot_agree {R : Nat → Prop} {m m' : Mem} (h : j ≠ i) (hm : Mem.Frame R m m')
    (hR : ∀ x, R x → s.slot i ≤ x ∧ x < s.slot i + 4096) : Mem.Agree m m' (s.slot j) 4096 := by
  refine hm.agree fun x hx hx' hin => ?_
  have hi := hR x hin
  simp only [Fs.slot, mftEntrySize] at hx hx' hi
  omega

/-- A path leads to the root directory or to a user entry in use. -/
theorem findFile_user (h : findFile s path = some i) :
    i = mftRoot ∨ i ∈ s.userSlots ∧ s.inUse i = true := by
  have hfold : ∀ (l : List (List UInt8)) (j : Nat),
      (j = mftRoot ∨ j ∈ s.userSlots ∧ s.inUse j = true) → l.foldlM (findChild s) j = some i →
      i = mftRoot ∨ i ∈ s.userSlots ∧ s.inUse i = true := by
    intro l
    induction l with
    | nil =>
      intro j hj hi
      cases hi
      exact hj
    | cons c l ih =>
      intro j hj hi
      obtain ⟨k, hk, hi⟩ := Option.bind_eq_some_iff.mp hi
      refine ih k (.inr ?_) hi
      unfold findChild at hk
      split at hk
      · cases hk
      · have hchild := find?_some hk
        rw [Fs.isChild, Bool.and_eq_true] at hchild
        exact ⟨mem_of_find?_eq_some hk, hchild.1⟩
  unfold findFile at h
  split at h
  · cases h
  · split at h
    · cases h
    · exact hfold _ _ (.inl rfl) h

/-- The entries start with their names. -/
structure FsEntries (s : Fs) : Prop where
  root_lt : mftRoot < s.boot.mftSize
  size_lt : s.boot.mftSize < 2 ^ 32
  root_inUse : s.inUse mftRoot = true
  root_dir : s.isDirectory mftRoot = true
  named : ∀ i, s.node i → Named s.mem (s.slot i)

/-- The entries form a tree below the root directory. -/
structure FsTree (s : Fs) : Prop extends FsEntries s where
  tree : WellFormed s.forest mftRoot

theorem Named.filename (h : Named s.mem (s.slot i)) : s.filename i = some (s.slot i + 48) :=
  h.findAttrPayload_filename

theorem Named.parentOf (h : Named s.mem (s.slot i)) :
    s.parentOf i = fnParentMft s.mem (s.slot i + 48) := by
  rw [Fs.parentOf, h.filename]
  rfl

theorem Named.nameOf (h : Named s.mem (s.slot i)) :
    s.nameOf i = fnFilename s.mem (s.slot i + 48) := by
  rw [Fs.nameOf, h.filename]
  rfl

theorem Named.isChild (h : Named s.mem (s.slot i)) {n : List UInt8} :
    s.isChild p n i = true ↔ s.inUse i = true ∧ s.parentOf i = p ∧ s.nameOf i = n := by
  rw [h.parentOf, h.nameOf, Fs.isChild, h.filename]
  simp

namespace FsEntries

variable (h : FsEntries s)

include h

theorem node_lt (hi : s.node i) : i < s.boot.mftSize := by
  rcases hi with rfl | hl
  · exact h.root_lt
  · exact (mem_userSlots.mp hl.1).2

theorem node_inUse (hi : s.node i) : s.inUse i = true := by
  rcases hi with rfl | hl
  · exact h.root_inUse
  · exact hl.2

theorem isChild_iff {n : List UInt8} {c : Nat} (hc : c ∈ s.userSlots) : s.isChild p n c = true ↔
    s.inUse c = true ∧ s.parentOf c = p ∧ s.nameOf c = n := by
  by_cases huse : s.inUse c = true
  · exact (h.named c (.inr ⟨hc, huse⟩)).isChild
  · simp [Fs.isChild, huse]

theorem findChild_eq (hp : s.node p) {n : List UInt8} :
    findChild s p n = s.userSlots.find? (s.isChild p n) := by
  rw [findChild, (h.named p hp).filename]
  rfl

theorem findChild_eq_none (hp : s.node p) {n : List UInt8} : findChild s p n = none ↔
    ∀ j, s.forest.live j → s.parentOf j = p → s.nameOf j ≠ n := by
  rw [h.findChild_eq hp, find?_eq_none]
  constructor
  · exact fun hnone j hj hjp hjn => hnone j hj.1 ((h.isChild_iff hj.1).mpr ⟨hj.2, hjp, hjn⟩)
  · intro hnone j hj hchild
    obtain ⟨huse, hjp, hjn⟩ := (h.isChild_iff hj).mp hchild
    exact hnone j ⟨hj, huse⟩ hjp hjn

end FsEntries

theorem findFile_node (h : findFile s path = some j) : s.node j := findFile_user h

theorem findFile_abs {path : List UInt8} (habs : path.head? = some slash) :
    findFile s path = (absComponents path).foldlM (findChild s) mftRoot := by
  cases path with
  | nil => cases habs
  | cons c path =>
    obtain rfl : c = slash := by simpa using habs
    rfl

/-- A path that leads to its parent part and from there on by its name. -/
theorem findFile_split {path : List UInt8} (habs : path.head? = some slash)
    (hname : (splitPath path).2 ≠ []) (hlen : (splitPath path).2.length ≤ 254) :
    findFile s path = (findFile s (splitPath path).1).bind (findChild s · (splitPath path).2) := by
  have hparent : (splitPath path).1.head? = some slash := by
    rw [splitPath]
    dsimp only
    split_ifs with hzero
    · rfl
    · rw [head?_take, if_neg hzero, habs]
  rw [findFile_abs habs, findFile_abs hparent, absComponents_split habs hname hlen, foldlM_append]
  exact congrArg _ (funext fun c => by simp)

/-- A path is found again when each of its steps is. -/
theorem findFile_kept {path : List UInt8} (P : Nat → Prop)
    (hstep : ∀ p n c (ns : List (List UInt8)), P p → n.length ≤ 254 →
      findChild s p n = some c → ns.foldlM (findChild s) c = some j → findChild s' p n = some c ∧ P c)
    (hroot : P mftRoot) (hpath : findFile s path = some j) : findFile s' path = some j := by
  have hfold : ∀ (ns : List (List UInt8)) (p : Nat), P p → (∀ n ∈ ns, n.length ≤ 254) →
      ns.foldlM (findChild s) p = some j → ns.foldlM (findChild s') p = some j := by
    intro ns
    induction ns with
    | nil => exact fun _ _ _ h => h
    | cons n ns ih =>
      intro p hp hlen h
      obtain ⟨c, hc, hrest⟩ := Option.bind_eq_some_iff.mp h
      obtain ⟨hc', hPc⟩ := hstep p n c ns hp (hlen n (by simp)) hc hrest
      exact Option.bind_eq_some_iff.mpr
        ⟨c, hc', ih c hPc (fun m hm => hlen m (mem_cons_of_mem _ hm)) hrest⟩
  cases path with
  | nil => cases hpath
  | cons a path =>
    rw [findFile] at hpath ⊢
    split_ifs at hpath ⊢
    exact hfold _ _ hroot (fun _ => length_of_mem_components) hpath

namespace FsTree

variable (h : FsTree s)

include h

/-- One round of the lookup finds the child of that name. -/
theorem findChild_eq_some (hp : s.node p) {n : List UInt8} {c : Nat} : findChild s p n = some c ↔
    s.forest.live c ∧ s.parentOf c = p ∧ s.nameOf c = n := by
  rw [h.findChild_eq hp]
  constructor
  · intro hfind
    have hmem := mem_of_find?_eq_some hfind
    obtain ⟨huse, hpar, hn⟩ := (h.isChild_iff hmem).mp (find?_some hfind)
    exact ⟨⟨hmem, huse⟩, hpar, hn⟩
  · rintro ⟨⟨hmem, huse⟩, hpar, hn⟩
    -- Something is found, and there is only one child of that name.
    obtain ⟨d, hd⟩ := Option.isSome_iff_exists.mp
      (find?_isSome.mpr ⟨c, hmem, (h.isChild_iff hmem).mpr ⟨huse, hpar, hn⟩⟩)
    have hdmem := mem_of_find?_eq_some hd
    obtain ⟨hduse, hdpar, hdn⟩ := (h.isChild_iff hdmem).mp (find?_some hd)
    rw [hd, h.tree.unique d c ⟨hdmem, hduse⟩ ⟨hmem, huse⟩ (hdpar.trans hpar.symm)
      (hdn.trans hn.symm)]

theorem foldlM_findChild {ns : List (List UInt8)} (hp : s.node p) :
    ns.foldlM (findChild s) p = some j ↔ Resolves s.forest p ns j := by
  induction ns generalizing p with
  | nil => simp [resolves_nil]
  | cons n ns ih =>
    rw [foldlM_cons, resolves_cons]
    constructor
    · intro hfold
      obtain ⟨c, hc, hrest⟩ := Option.bind_eq_some_iff.mp hfold
      obtain ⟨hl, hpar, hn⟩ := (h.findChild_eq_some hp).mp hc
      exact ⟨c, hl, hpar, hn, (ih (.inr hl)).mp hrest⟩
    · rintro ⟨c, hl, hpar, hn, hrest⟩
      exact Option.bind_eq_some_iff.mpr
        ⟨c, (h.findChild_eq_some hp).mpr ⟨hl, hpar, hn⟩, (ih (.inr hl)).mpr hrest⟩

/-- `find_file` finds what the path leads to. -/
theorem findFile_eq_some {path : List UInt8} : findFile s path = some j ↔
    path.head? = some slash ∧ Resolves s.forest mftRoot (absComponents path) j := by
  by_cases habs : path.head? = some slash
  · rw [findFile_abs habs, h.foldlM_findChild (.inl rfl), and_iff_right habs]
  · cases path with
    | nil => simp [findFile]
    | cons c path => simpa [findFile] using fun hc => absurd hc (by simpa using habs)

theorem findFile_eq_none {path : List UInt8} (habs : path.head? = some slash) :
    findFile s path = none ↔ ∀ j, ¬ Resolves s.forest mftRoot (absComponents path) j := by
  rw [Option.eq_none_iff_forall_ne_some]
  exact forall_congr' fun j => by rw [Ne, h.findFile_eq_some, and_iff_right habs]

end FsTree

end OpenSys
