import Mathlib.Data.Nat.Notation
import Mathlib.Logic.Relation

/-!
# Runs of a labelled transition system

A run takes a list of labels, one step for each. What every step preserves holds at the end of
every run (`Runs.invariant`), and a run is matched by a run of any system that matches its steps
(`Runs.simulate`).
-/

namespace Transition

variable {σ ι τ : Type*}

/-- The runs of `step`: the state they start from, the labels they take, the state they reach. -/
inductive Runs (step : σ → ι → σ → Prop) : σ → List ι → σ → Prop
  | nil (s : σ) : Runs step s [] s
  | snoc {s t u : σ} {is : List ι} {i : ι} :
      Runs step s is t → step t i u → Runs step s (is ++ [i]) u

/-- The states some run from `s` reaches. -/
def Reach (step : σ → ι → σ → Prop) (s t : σ) : Prop := ∃ is, Runs step s is t

variable {step : σ → ι → σ → Prop}

theorem Reach.refl (s : σ) : Reach step s s := ⟨[], .nil s⟩

theorem Reach.tail {s t u : σ} {i : ι} (h : Reach step s t) (hi : step t i u) : Reach step s u := by
  obtain ⟨is, hr⟩ := h
  exact ⟨_, hr.snoc hi⟩

/-- What every step preserves, every run preserves. -/
theorem Runs.invariant {I : σ → Prop} (hI : ∀ s i t, I s → step s i t → I t) {s t : σ}
    {is : List ι} (h : Runs step s is t) (h0 : I s) : I t := by
  induction h with
  | nil => exact h0
  | snoc _ hi ih => exact hI _ _ _ ih hi

theorem Reach.invariant {I : σ → Prop} (hI : ∀ s i t, I s → step s i t → I t) {s t : σ}
    (h : Reach step s t) (h0 : I s) : I t := by
  obtain ⟨is, hr⟩ := h
  exact hr.invariant hI h0

theorem Runs.cons {s t u : σ} {i : ι} {is : List ι} (hi : step s i t) (h : Runs step t is u) :
    Runs step s (i :: is) u := by
  induction h with
  | nil => exact .snoc (.nil s) hi
  | snoc _ hj ih => exact ih.snoc hj

/-- Where every state that is not yet good has a step that is allowed and lowers the rank, some run
of allowed steps reaches a good state. -/
theorem Runs.exists_of_rank {I Q : σ → Prop} {A : ι → Prop} (rank : σ → ℕ)
    (h : ∀ s, I s → Q s ∨ ∃ i t, A i ∧ step s i t ∧ I t ∧ rank t < rank s) (s : σ) (hs : I s) :
    ∃ is t, Runs step s is t ∧ (∀ i ∈ is, A i) ∧ I t ∧ Q t := by
  induction hn : rank s using Nat.strongRecOn generalizing s with
  | ind n ih =>
    rcases h s hs with hq | ⟨i, t, hA, hi, ht, hlt⟩
    · exact ⟨[], s, .nil s, by simp, hs, hq⟩
    · obtain ⟨is, u, hr, hall, hu, hq⟩ := ih (rank t) (hn ▸ hlt) t ht rfl
      refine ⟨i :: is, u, hr.cons hi, fun j hj => ?_, hu, hq⟩
      rcases List.mem_cons.1 hj with rfl | hj
      · exact hA
      · exact hall j hj

/-- Where every allowed step lowers the rank, a run of allowed steps is no longer than the rank. -/
theorem Runs.length_le_rank {I : σ → Prop} {A : ι → Prop} (rank : σ → ℕ)
    (h : ∀ s i t, I s → A i → step s i t → I t ∧ rank t < rank s) {s t : σ} {is : List ι}
    (hr : Runs step s is t) (hA : ∀ i ∈ is, A i) (hs : I s) :
    I t ∧ is.length + rank t ≤ rank s := by
  induction hr with
  | nil => exact ⟨hs, by simp⟩
  | snoc _ hi ih =>
    obtain ⟨ht, hle⟩ := ih (fun j hj => hA j (List.mem_append_left _ hj))
    obtain ⟨hu, hlt⟩ := h _ _ _ ht (hA _ (by simp)) hi
    refine ⟨hu, ?_⟩
    rw [List.length_append, List.length_singleton]
    omega

theorem Runs.mono {step' : σ → ι → σ → Prop} (h : ∀ s i t, step s i t → step' s i t) {s t : σ}
    {is : List ι} (hr : Runs step s is t) : Runs step' s is t := by
  induction hr with
  | nil => exact .nil _
  | snoc _ hi ih => exact ih.snoc (h _ _ _ hi)

/-- A relation that every step carries along, matched by a step of the other system under the
same label, carries whole runs along. -/
theorem Runs.simulate (astep : τ → ι → τ → Prop) (R : σ → τ → Prop)
    (hR : ∀ s i t a, R s a → step s i t → ∃ b, astep a i b ∧ R t b) {s t : σ} {a : τ}
    {is : List ι} (h : Runs step s is t) (h0 : R s a) : ∃ b, Runs astep a is b ∧ R t b := by
  induction h with
  | nil => exact ⟨a, .nil a, h0⟩
  | snoc _ hi ih =>
    obtain ⟨b, hb, hRb⟩ := ih
    obtain ⟨c, hc, hRc⟩ := hR _ _ _ _ hRb hi
    exact ⟨c, hb.snoc hc, hRc⟩

end Transition
