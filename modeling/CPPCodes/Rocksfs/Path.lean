import CPPCodes.Lib.Text
import Mathlib.Tactic.SplitIfs

/-!
# Paths

`path_convert` of utils.cc. Whatever the slashes of a path, it becomes "/root" followed by a slash
and the component for each of its non-empty components (`pathConvert_eq`), so the path walk sees
exactly these.
-/

namespace CPPCodes.Rocksfs

/-- A string of bytes. -/
abbrev Str := List Char

def bothSlashChars (l r : Char) : Bool := l = r ∧ l = '/'

/-- The name of the root directory, and its key. -/
def rootName : Str := ['r', 'o', 'o', 't']

def pathConvert (path : Str) : Str :=
  let path := Text.unique bothSlashChars path
  let path := if path.length ≠ 0 ∧ path.head? ≠ some '/' then '/' :: path else path
  let path := '/' :: rootName ++ path
  if path.getLast? = some '/' then path.dropLast else path

/-- The non-empty components of a path. -/
def components (path : Str) : List Str := (path.splitOn '/').filter (· ≠ [])

/-- A slash and the component, for each of the components. -/
def slashed (cs : List Str) : Str := cs.flatMap ('/' :: ·)

theorem slashed_cons (c : Str) (cs : List Str) : slashed (c :: cs) = '/' :: (c ++ slashed cs) := by
  simp [slashed]

theorem slashed_append (cs ds : List Str) : slashed (cs ++ ds) = slashed cs ++ slashed ds :=
  List.flatMap_append

/-! ## The components of a converted path -/

/-- The components of `acc.reverse ++ s`, where `acc` has no slash. -/
noncomputable def componentsFrom (acc s : Str) : List Str :=
  (List.splitOnPPrepend (· == '/') s acc).filter (· ≠ [])

theorem components_eq (path : Str) : components path = componentsFrom [] path := rfl

theorem componentsFrom_nil (acc : Str) :
    componentsFrom acc [] = if acc = [] then [] else [acc.reverse] := by
  by_cases h : acc = [] <;> simp [componentsFrom, h]

theorem componentsFrom_slash (acc s : Str) :
    componentsFrom acc ('/' :: s) =
      (if acc = [] then [] else [acc.reverse]) ++ componentsFrom [] s := by
  unfold componentsFrom
  rw [List.splitOnPPrepend_cons_pos (by decide)]
  by_cases h : acc = [] <;> simp [h]

theorem componentsFrom_char (acc s : Str) {c : Char} (hc : c ≠ '/') :
    componentsFrom acc (c :: s) = componentsFrom (c :: acc) s := by
  unfold componentsFrom
  rw [List.splitOnPPrepend_cons_neg (by simpa using hc)]

/-- The slash that `std::unique` leaves at the end. -/
def lastSlash (s : Str) : Str := if s.getLast? = some '/' then ['/'] else []

theorem lastSlash_cons_cons (a c : Char) (s : Str) : lastSlash (a :: c :: s) = lastSlash (c :: s) := by
  simp [lastSlash, List.getLast?_cons]

mutual

theorem uniqueFrom_slash : ∀ s : Str,
    Text.uniqueFrom bothSlashChars '/' s = slashed (componentsFrom [] s) ++ lastSlash ('/' :: s)
  | [] => by simp [Text.uniqueFrom, componentsFrom_nil, slashed, lastSlash]
  | c :: s => by
    rw [lastSlash_cons_cons]
    by_cases hc : c = '/'
    · subst hc
      rw [Text.uniqueFrom, if_pos (by decide), uniqueFrom_slash s, componentsFrom_slash]
      rfl
    · rw [Text.uniqueFrom, if_neg (by simp [bothSlashChars, Ne.symm hc]), componentsFrom_char _ _ hc,
        ← uniqueFrom_char s hc []]
      rfl

theorem uniqueFrom_char : ∀ (s : Str) {a : Char}, a ≠ '/' → ∀ acc : Str,
    '/' :: (acc.reverse ++ Text.uniqueFrom bothSlashChars a s)
      = slashed (componentsFrom (a :: acc) s) ++ lastSlash (a :: s)
  | [], a, ha, acc => by simp [Text.uniqueFrom, componentsFrom_nil, slashed, lastSlash, ha]
  | c :: s, a, ha, acc => by
    rw [lastSlash_cons_cons, Text.uniqueFrom, if_neg (by simp [bothSlashChars, ha])]
    by_cases hc : c = '/'
    · subst hc
      rw [uniqueFrom_slash s, componentsFrom_slash]
      simp [slashed_cons]
    · rw [componentsFrom_char _ _ hc, ← uniqueFrom_char s hc (a :: acc)]
      simp

end

theorem mem_splitOnPPrepend {c : Str} :
    ∀ (s acc : Str), '/' ∉ acc → c ∈ List.splitOnPPrepend (· == '/') s acc → '/' ∉ c
  | [], acc, ha, h => by
    simp only [List.splitOnPPrepend_nil, List.mem_singleton] at h
    simpa [h] using ha
  | d :: s, acc, ha, h => by
    rw [List.splitOnPPrepend_cons_eq_if] at h
    split_ifs at h with hd
    · rcases List.mem_cons.1 h with rfl | h
      · simpa using ha
      · exact mem_splitOnPPrepend s [] (by simp) h
    · refine mem_splitOnPPrepend s (d :: acc) ?_ h
      simp only [beq_iff_eq] at hd
      simp [ha, Ne.symm hd]

/-- A component of a path: not empty, without a slash. -/
def IsName (c : Str) : Prop := c ≠ [] ∧ '/' ∉ c

theorem isName_of_mem_components {path c : Str} (h : c ∈ components path) : IsName c := by
  simp only [components_eq, componentsFrom, List.mem_filter, decide_eq_true_eq] at h
  exact ⟨h.2, mem_splitOnPPrepend path [] (by simp) h.1⟩

theorem getLast?_slashed {cs : List Str} (h : ∀ c ∈ cs, IsName c) :
    ('/' :: rootName ++ slashed cs).getLast? ≠ some '/' := by
  rcases List.eq_nil_or_concat cs with rfl | ⟨ds, c, rfl⟩
  · decide
  · rw [List.concat_eq_append] at h ⊢
    have hc := h c (by simp)
    obtain ⟨e, x, rfl⟩ : ∃ e x, c = e ++ [x] := by
      rcases List.eq_nil_or_concat c with rfl | ⟨e, x, rfl⟩
      · exact absurd rfl hc.1
      · exact ⟨e, x, by simp⟩
    have hx : x ≠ '/' := fun h' => hc.2 (by simp [h'])
    rw [slashed_append, slashed_cons, ← List.append_assoc, List.getLast?_append_of_ne_nil _ (by simp)]
    simpa [slashed, List.getLast?_cons] using hx

/-- The path after `std::unique` and the slash put in front of it. -/
theorem unique_eq (path : Str) :
    (if (Text.unique bothSlashChars path).length ≠ 0 ∧
        (Text.unique bothSlashChars path).head? ≠ some '/'
      then '/' :: Text.unique bothSlashChars path else Text.unique bothSlashChars path)
      = slashed (components path) ++ lastSlash path := by
  cases path with
  | nil => rfl
  | cons a s =>
    have hu : Text.unique bothSlashChars (a :: s) = Text.uniqueFrom bothSlashChars a s := rfl
    have hhead : (Text.unique bothSlashChars (a :: s)).head? = some a :=
      Text.head?_uniqueFrom bothSlashChars a s
    have hlen : (Text.unique bothSlashChars (a :: s)).length ≠ 0 := by
      intro h
      rw [List.length_eq_zero_iff.1 h] at hhead
      simp at hhead
    rw [components_eq]
    by_cases ha : a = '/'
    · subst ha
      rw [if_neg (by simp [hhead]), hu, uniqueFrom_slash s, componentsFrom_slash]
      rfl
    · rw [if_pos ⟨hlen, by simpa [hhead] using ha⟩, hu, componentsFrom_char _ _ ha,
        ← uniqueFrom_char s ha []]
      rfl

/-- Only the non-empty components of a path count. -/
theorem pathConvert_eq (path : Str) :
    pathConvert path = '/' :: rootName ++ slashed (components path) := by
  have hlast := getLast?_slashed
    (show ∀ c ∈ components path, IsName c from fun c h => isName_of_mem_components h)
  have hconv : pathConvert path = (let q := '/' :: rootName ++ (slashed (components path) ++
      lastSlash path)
    if q.getLast? = some '/' then q.dropLast else q) := by
    rw [← unique_eq]
    rfl
  rw [hconv, ← List.append_assoc]
  unfold lastSlash
  by_cases hp : List.getLast? path = some '/'
  · simp only [hp, if_true, List.getLast?_concat, List.dropLast_concat]
  · simp only [hp, if_false, List.append_nil, hlast]

end CPPCodes.Rocksfs
