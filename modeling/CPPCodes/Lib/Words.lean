import Mathlib.Data.List.Basic
import Mathlib.Tactic.SplitIfs

/-!
# The words of a list

The runs of a list between the occurrences of a delimiter, without the empty ones (`Runs`). Every
list has exactly one list of them (`runs_iff`), which one scan finds.
-/

namespace Words

variable {α : Type*}

/-- The maximal non-empty runs without the delimiter, in order. -/
inductive Runs (d : α) : List α → List (List α) → Prop
  | nil : Runs d [] []
  | skip {l : List α} {ws : List (List α)} : Runs d l ws → Runs d (d :: l) ws
  | last {w : List α} : w ≠ [] → d ∉ w → Runs d w [w]
  | word {w l : List α} {ws : List (List α)} :
      w ≠ [] → d ∉ w → Runs d l ws → Runs d (w ++ d :: l) (w :: ws)

theorem Runs.mem {d : α} {l w : List α} {ws : List (List α)} (h : Runs d l ws) (hw : w ∈ ws) :
    w ≠ [] ∧ d ∉ w := by
  induction h with
  | nil => simp at hw
  | skip _ ih => exact ih hw
  | last hne hd =>
    obtain rfl := List.mem_singleton.1 hw
    exact ⟨hne, hd⟩
  | word hne hd _ ih =>
    rcases List.mem_cons.1 hw with rfl | hw
    · exact ⟨hne, hd⟩
    · exact ih hw

variable [DecidableEq α]

/-- The words from an open word on, given in reverse order. -/
def wordsFrom (d : α) (acc : List α) : List α → List (List α)
  | [] => if acc = [] then [] else [acc.reverse]
  | c :: l =>
    if c = d then (if acc = [] then [] else [acc.reverse]) ++ wordsFrom d [] l
    else wordsFrom d (c :: acc) l

def words (d : α) (l : List α) : List (List α) := wordsFrom d [] l

variable {d : α}

theorem wordsFrom_append {w : List α} (hw : d ∉ w) (acc l : List α) :
    wordsFrom d acc (w ++ l) = wordsFrom d (w.reverse ++ acc) l := by
  induction w generalizing acc with
  | nil => rfl
  | cons c w ih =>
    obtain ⟨hc, hw⟩ := List.ne_and_not_mem_of_not_mem_cons hw
    rw [List.cons_append, wordsFrom, if_neg (Ne.symm hc), ih hw, List.reverse_cons,
      List.append_assoc]
    rfl

theorem Runs.eq_words {l : List α} {ws : List (List α)} (h : Runs d l ws) : ws = words d l := by
  induction h with
  | nil => rfl
  | skip _ ih =>
    rw [ih, words, words, wordsFrom, if_pos rfl, if_pos rfl]
    rfl
  | @last w hne hd =>
    have h := wordsFrom_append hd [] []
    rw [List.append_nil, List.append_nil] at h
    rw [words, h, wordsFrom, if_neg (by simpa using hne), List.reverse_reverse]
  | @word w l ws hne hd _ ih =>
    rw [ih, words, words, wordsFrom_append hd, wordsFrom, if_pos rfl, List.append_nil,
      if_neg (by simpa using hne), List.reverse_reverse]
    rfl

theorem runs_wordsFrom : ∀ (l acc : List α), d ∉ acc →
    Runs d (acc.reverse ++ l) (wordsFrom d acc l)
  | [], acc, ha => by
    unfold wordsFrom
    split_ifs with h
    · subst h
      exact .nil
    · rw [List.append_nil]
      exact .last (by simpa using h) (by simpa using ha)
  | c :: l, acc, ha => by
    have ih := runs_wordsFrom l [] (by simp)
    unfold wordsFrom
    split_ifs with hc h
    · subst hc h
      exact .skip ih
    · subst hc
      exact .word (by simpa using h) (by simpa using ha) ih
    · have ih' := runs_wordsFrom l (c :: acc) (by simp [ha, Ne.symm hc])
      rwa [List.reverse_cons, List.append_assoc] at ih'

theorem runs_words (d : α) (l : List α) : Runs d l (words d l) := runs_wordsFrom l [] (by simp)

theorem runs_iff {l : List α} {ws : List (List α)} : Runs d l ws ↔ ws = words d l :=
  ⟨Runs.eq_words, fun h => h ▸ runs_words d l⟩

theorem wordsFrom_eq_splitOn : ∀ l acc : List α,
    wordsFrom d acc l = (List.splitOnPPrepend (· == d) l acc).filter (· ≠ [])
  | [], acc => by
    rw [wordsFrom, List.splitOnPPrepend_nil]
    split_ifs with h <;> simp [h]
  | c :: l, acc => by
    rw [wordsFrom, List.splitOnPPrepend_cons_eq_if]
    by_cases hc : c = d
    · have hcd : (c == d) = true := by simpa using hc
      rw [if_pos hc, if_pos hcd, wordsFrom_eq_splitOn l []]
      by_cases h : acc = [] <;> simp [h]
    · have hcd : ¬ (c == d) = true := by simpa using hc
      rw [if_neg hc, if_neg hcd, wordsFrom_eq_splitOn l (c :: acc)]

theorem words_eq_splitOn (d : α) (l : List α) : words d l = (l.splitOn d).filter (· ≠ []) :=
  wordsFrom_eq_splitOn l []

end Words
