import CPPCodes.Lib.Words
import CPPCodes.Rocksfs.Walk

/-!
# The canonical form of a path

The components of a path are its words between slashes, and `path_convert` spells "/root" and these
words with one slash before each. Splitting the result gives them back (`pathComponents_eq`), so two
paths convert to the same string exactly when they have the same components.
-/

namespace CPPCodes.Rocksfs

open Words

/-- `split` of utils.cc: the lines of a string stream. -/
def split (path : Str) (delim : Char) : List Str := (Text.getlines delim path).map Prod.fst

def pathComponents (path : Str) : List Str := split (pathConvert path) '/'

theorem components_eq_words (path : Str) : components path = words '/' path :=
  (words_eq_splitOn '/' path).symm

theorem runs_components (path : Str) : Runs '/' path (components path) :=
  components_eq_words path ▸ runs_words '/' path

/-- A slash ends a name and begins the next. -/
theorem runs_append_slashed : ∀ {cs : List Str}, (∀ c ∈ cs, IsName c) → ∀ {c : Str}, IsName c →
    Runs '/' (c ++ slashed cs) (c :: cs)
  | [], _, c, hc => by
    rw [slashed, List.flatMap_nil, List.append_nil]
    exact .last hc.1 hc.2
  | d :: ds, h, c, hc => by
    have ih := runs_append_slashed (fun e he => h e (List.mem_cons_of_mem d he)) (h d (by simp))
    rw [slashed_cons]
    exact .word hc.1 hc.2 ih

theorem split_slashed : ∀ {cs : List Str}, (∀ c ∈ cs, IsName c) → ∀ {c : Str}, IsName c →
    split (c ++ slashed cs) '/' = c :: cs
  | [], _, c, hc => by
    rw [split, getlines_slashed hc]
    rfl
  | d :: ds, h, c, hc => by
    have ih := split_slashed (fun e he => h e (List.mem_cons_of_mem d he)) (h d (by simp))
    rw [split, getlines_slashed hc, List.map_cons]
    exact congrArg (c :: ·) ih

theorem isName_rootName : IsName rootName := by
  unfold IsName
  decide

theorem components_slashed {cs : List Str} (h : ∀ c ∈ cs, IsName c) :
    components ('/' :: rootName ++ slashed cs) = rootName :: cs := by
  rw [components_eq_words, List.cons_append]
  exact (runs_append_slashed h isName_rootName).skip.eq_words.symm

section

variable (path : Str)

theorem isName_components : ∀ c ∈ components path, IsName c := fun _ => isName_of_mem_components

theorem components_pathConvert : components (pathConvert path) = rootName :: components path := by
  rw [pathConvert_eq]
  exact components_slashed (isName_components path)

theorem pathComponents_eq : pathComponents path = [] :: rootName :: components path := by
  have hempty : Text.getlines '/' ('/' :: (rootName ++ slashed (components path)))
      = ([], false) :: Text.getlines '/' (rootName ++ slashed (components path)) :=
    Text.getlines_append (w := []) (by simp) _
  rw [pathComponents, pathConvert_eq, split, List.cons_append, hempty, List.map_cons]
  exact congrArg ([] :: ·) (split_slashed (isName_components path) isName_rootName)

/-- `path_convert` makes "/root" and a slash and the component for each non-empty component. The
result begins with "/root", ends in no slash and has no empty component behind the first slash, and
it depends on the non-empty components alone. -/
theorem pathConvert_canonical :
    Runs '/' path (components path) ∧
    pathConvert path = ['/', 'r', 'o', 'o', 't'] ++ (components path).flatMap (fun c => '/' :: c) ∧
    ['/', 'r', 'o', 'o', 't'] <+: pathConvert path ∧
    pathComponents path = [] :: rootName :: components path ∧
    (∀ c ∈ (pathComponents path).tail, c ≠ [] ∧ '/' ∉ c) ∧
    (pathConvert path).getLast? ≠ some '/' ∧
    ∀ other, pathConvert other = pathConvert path ↔ components other = components path := by
  have hconv := pathConvert_eq path
  refine ⟨runs_components path, hconv, ⟨slashed (components path), hconv.symm⟩,
    pathComponents_eq path, ?_, ?_, fun other => ⟨fun h => ?_, fun h => ?_⟩⟩
  · rw [pathComponents_eq]
    exact List.forall_mem_cons.2 ⟨isName_rootName, isName_components path⟩
  · rw [hconv]
    exact getLast?_slashed (isName_components path)
  · have hcs := congrArg components h
    rw [components_pathConvert, components_pathConvert] at hcs
    exact List.tail_eq_of_cons_eq hcs
  · rw [pathConvert_eq, pathConvert_eq, h]

/-- A second conversion finds one more component, the root's own name. -/
theorem pathConvert_pathConvert :
    pathConvert (pathConvert path) = '/' :: rootName ++ slashed (rootName :: components path) := by
  rw [pathConvert_eq, components_pathConvert]

end

end CPPCodes.Rocksfs
