import Mathlib.Data.Nat.Notation
import Mathlib.Tactic.Common

/-!
# Going over a range with an iterator

A loop that reads an iterator and moves it on until it is at the end, where both may fail. What the
loop comes to with enough fuel (`Protocol.run`) is what the iterator yields (`Protocol.Yields`).
-/

namespace Iteration

/-- An iterator: its test for the end, its value and its successor. -/
structure Protocol (σ α : Type*) where
  done : σ → Bool
  get : σ → Option α
  next : σ → Option σ

namespace Protocol

variable {σ α : Type*} (p : Protocol σ α)

/-- The loop, in at most `fuel` passes: the values that it reads. -/
def run : ℕ → σ → Option (List α)
  | 0, _ => none
  | fuel + 1, s =>
    if p.done s then some []
    else (p.get s).bind fun v => (p.next s).bind fun s => (run fuel s).map (v :: ·)

/-- From this iterator on the values are those of the list. -/
inductive Yields : σ → List α → Prop
  | done {s : σ} : p.done s = true → Yields s []
  | step {s s' : σ} {v : α} {vs : List α} : p.done s = false → p.get s = some v →
      p.next s = some s' → Yields s' vs → Yields s (v :: vs)

/-- From this iterator on the loop comes to one, not at the end, that has no successor. -/
inductive Stuck : σ → Prop
  | here {s : σ} : p.done s = false → p.next s = none → Stuck s
  | step {s s' : σ} : p.done s = false → p.next s = some s' → Stuck s' → Stuck s

variable {p}

theorem Yields.of_run : ∀ {fuel : ℕ} {s : σ} {vs : List α}, p.run fuel s = some vs → p.Yields s vs
  | 0, _, _, h => nomatch h
  | fuel + 1, s, vs, h => by
    unfold run at h
    split_ifs at h with hdone
    · obtain rfl := Option.some.inj h
      exact .done hdone
    · obtain ⟨v, hget, h⟩ := Option.bind_eq_some_iff.1 h
      obtain ⟨s', hnext, h⟩ := Option.bind_eq_some_iff.1 h
      obtain ⟨rest, hrun, rfl⟩ := Option.map_eq_some_iff.1 h
      exact .step (by simpa using hdone) hget hnext (Yields.of_run hrun)

theorem Yields.exists_run {s : σ} {vs : List α} (h : p.Yields s vs) :
    ∃ fuel, p.run fuel s = some vs := by
  induction h with
  | done hdone => exact ⟨1, if_pos hdone⟩
  | step hdone hget hnext _ ih =>
    obtain ⟨fuel, hrun⟩ := ih
    refine ⟨fuel + 1, ?_⟩
    unfold run
    rw [hdone, hget, Option.bind_some, hnext, Option.bind_some, hrun]
    rfl

theorem yields_iff {s : σ} {vs : List α} : p.Yields s vs ↔ ∃ fuel, p.run fuel s = some vs :=
  ⟨Yields.exists_run, fun ⟨_, h⟩ => .of_run h⟩

/-- A loop that comes to its end is not stuck. -/
theorem Stuck.not_yields {s : σ} (h : p.Stuck s) {vs : List α} : ¬ p.Yields s vs := by
  induction h generalizing vs with
  | here hdone hnext =>
    rintro (hdone' | ⟨-, -, hnext', -⟩)
    · exact absurd (hdone.symm.trans hdone') Bool.false_ne_true
    · cases hnext.symm.trans hnext'
  | step hdone hnext _ ih =>
    rintro (hdone' | ⟨-, -, hnext', hrest⟩)
    · exact absurd (hdone.symm.trans hdone') Bool.false_ne_true
    · obtain rfl := Option.some.inj (hnext.symm.trans hnext')
      exact ih hrest

theorem Yields.nil_of_done {s : σ} {vs : List α} (h : p.Yields s vs) (hdone : p.done s = true) :
    vs = [] := by
  cases h with
  | done => rfl
  | step hdone' => exact absurd (hdone.symm.trans hdone') (by simp)

end Protocol

end Iteration
