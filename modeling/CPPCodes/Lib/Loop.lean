import Mathlib.Data.List.Range

/-!
# Loops over numbers and lists

A loop that runs over the numbers from `start` on and may fail: what holds in front of the first
turn and is kept by each, with no turn failing, holds behind the last (`exists_foldlM_range'`). Over
a list that is so for what holds of the elements in front (`exists_foldlM`). Where a turn only adds
to a list of results, the loop adds those of its turns (`foldlM_results`).
-/

namespace Loop

variable {σ : Type*} {f : σ → ℕ → Option σ} {P : ℕ → σ → Prop}

/-- From the turn `i` to the turn behind it. -/
def Keeps (P : ℕ → σ → Prop) (f : σ → ℕ → Option σ) (i : ℕ) : Prop :=
  ∀ s, P i s → ∃ s', f s i = some s' ∧ P (i + 1) s'

theorem exists_foldlM_range' : ∀ {n start : ℕ} {s : σ}, P start s →
    (∀ i, start ≤ i → i < start + n → Keeps P f i) →
      ∃ s', (List.range' start n).foldlM f s = some s' ∧ P (start + n) s'
  | 0, start, s, h, _ => ⟨s, rfl, h⟩
  | n + 1, start, s, h, hkeeps => by
    obtain ⟨s', hbody, h'⟩ := hkeeps start (Nat.le_refl _) (by omega) s h
    obtain ⟨s'', hrest, h''⟩ := exists_foldlM_range' (n := n) h' fun i hle hlt =>
      hkeeps i (by omega) (by omega)
    refine ⟨s'', ?_, ?_⟩
    · rw [List.range'_succ, List.foldlM_cons, hbody]
      exact hrest
    · rwa [Nat.add_right_comm, Nat.add_assoc] at h''

theorem exists_foldlM_range {n : ℕ} {s : σ} (h : P 0 s)
    (hkeeps : ∀ i < n, Keeps P f i) :
    ∃ s', (List.range n).foldlM f s = some s' ∧ P n s' := by
  have hrun := exists_foldlM_range' h fun i _ hlt => hkeeps i (by rwa [Nat.zero_add] at hlt)
  rwa [← List.range_eq_range', Nat.zero_add] at hrun

/-- A turn that fails on what the earlier turns lead to ends the loop. -/
theorem foldlM_range_eq_none {n i : ℕ} {s : σ} (h : P 0 s) (hkeeps : ∀ j < i, Keeps P f j)
    (hi : i < n) (hfail : ∀ s, P i s → f s i = none) : (List.range n).foldlM f s = none := by
  obtain ⟨s', hrun, h'⟩ := exists_foldlM_range h hkeeps
  obtain ⟨k, rfl⟩ := Nat.exists_eq_add_of_lt hi
  rw [Nat.add_assoc, List.range_add, List.range_succ_eq_map, List.map_cons, List.foldlM_append,
    hrun]
  simp only [Option.bind_eq_bind, Option.bind_some, List.foldlM_cons, Nat.add_zero, hfail s' h',
    Option.bind_none]

section List

variable {β : Type*} {f : σ → β → Option σ} {P : List β → σ → Prop}

theorem exists_foldlM_from : ∀ {l pre : List β} {s : σ}, P pre s →
    (∀ pre, ∀ x ∈ l, ∀ s, P pre s → ∃ s', f s x = some s' ∧ P (pre ++ [x]) s') →
    ∃ s', l.foldlM f s = some s' ∧ P (pre ++ l) s'
  | [], pre, s, h, _ => ⟨s, rfl, by rwa [List.append_nil]⟩
  | x :: l, pre, s, h, hkeeps => by
    obtain ⟨s₁, hbody, h₁⟩ := hkeeps pre x List.mem_cons_self s h
    obtain ⟨s', hrest, h'⟩ := exists_foldlM_from h₁ fun pre y hy =>
      hkeeps pre y (List.mem_cons_of_mem x hy)
    refine ⟨s', ?_, by rwa [List.append_cons]⟩
    rw [List.foldlM_cons, hbody]
    exact hrest

theorem exists_foldlM {l : List β} {s : σ} (h : P [] s)
    (hkeeps : ∀ pre, ∀ x ∈ l, ∀ s, P pre s → ∃ s', f s x = some s' ∧ P (pre ++ [x]) s') :
    ∃ s', l.foldlM f s = some s' ∧ P l s' :=
  exists_foldlM_from h hkeeps

/-- The results are those of a function where each of them is. -/
theorem mapM_eq_some_map_iff {γ : Type*} {f : β → Option γ} {g : β → γ} : ∀ {l : List β},
    l.mapM f = some (l.map g) ↔ ∀ x ∈ l, f x = some (g x)
  | [] => by simp
  | x :: l => by
    have ih := mapM_eq_some_map_iff (f := f) (g := g) (l := l)
    rw [List.mapM_cons, List.map_cons, List.forall_mem_cons, ← ih]
    constructor
    · intro h
      obtain ⟨y, hy, h⟩ := Option.bind_eq_some_iff.1 h
      obtain ⟨ys, hys, h⟩ := Option.bind_eq_some_iff.1 h
      obtain ⟨rfl, rfl⟩ := List.cons_eq_cons.1 (Option.some.inj h)
      exact ⟨hy, hys⟩
    · rintro ⟨hx, hl⟩
      rw [hx, hl]
      rfl

end List

theorem foldlM_results {ρ τ : Type*} {f : List ρ × τ → ℕ → Option (List ρ × τ)} {t : τ}
    {g : ℕ → List ρ} : ∀ {turns : List ℕ},
      (∀ i ∈ turns, ∀ results, f (results, t) i = some (results ++ g i, t)) →
      ∀ results, turns.foldlM f (results, t) = some (results ++ turns.flatMap g, t)
  | [], _, results => by rw [List.flatMap_nil, List.append_nil]; rfl
  | i :: turns, h, results => by
    obtain ⟨hi, hturns⟩ := List.forall_mem_cons.1 h
    rw [List.foldlM_cons, hi, List.flatMap_cons, ← List.append_assoc]
    exact foldlM_results hturns _

end Loop
