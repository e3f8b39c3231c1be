import Mathlib.Data.List.Forall2

/-!
# Computations side by side

Two computations that may fail go together when they fail with the same error or return values that
are related (`Both`; `Option.Rel` where an error has no name). So do loops whose turns do
(`rel_foldlM`).
-/

namespace Outcome

universe u

variable {ε : Type*} {α β γ δ : Type u}

inductive Both (R : α → β → Prop) : Except ε α → Except ε β → Prop
  | error (e : ε) : Both R (.error e) (.error e)
  | ok {a : α} {b : β} : R a b → Both R (.ok a) (.ok b)

namespace Both

variable {R : α → β → Prop} {S : γ → δ → Prop}

theorem bind {x : Except ε α} {y : Except ε β} (h : Both R x y) {f : α → Except ε γ}
    {g : β → Except ε δ} (hfg : ∀ a b, R a b → x = .ok a → y = .ok b → Both S (f a) (g b)) :
    Both S (x >>= f) (y >>= g) := by
  cases h with
  | error e => exact .error e
  | ok hab => exact hfg _ _ hab rfl rfl

/-- The same computation in front of both. -/
theorem after {x : Except ε α} {f : α → Except ε γ} {g : α → Except ε δ}
    (hfg : ∀ a, x = .ok a → Both S (f a) (g a)) : Both S (x >>= f) (x >>= g) := by
  cases x with
  | error e => exact .error e
  | ok a => exact hfg a rfl

theorem of_ok {x : Except ε α} {y : Except ε β} (h : Both R x y) {b : β} (hy : y = .ok b) :
    ∃ a, x = .ok a ∧ R a b := by
  cases h with
  | error e => cases hy
  | @ok a _ hab => exact ⟨a, rfl, Except.ok.inj hy ▸ hab⟩

theorem of_ok_left {x : Except ε α} {y : Except ε β} (h : Both R x y) {a : α} (hx : x = .ok a) :
    ∃ b, y = .ok b ∧ R a b := by
  cases h with
  | error e => cases hx
  | @ok _ b hab => exact ⟨b, rfl, Except.ok.inj hx ▸ hab⟩

end Both

section Option

open Option (Rel)

variable {R : α → β → Prop} {S : γ → δ → Prop}

theorem rel_bind {x : Option α} {y : Option β} (h : Rel R x y) {f : α → Option γ}
    {g : β → Option δ} (hfg : ∀ a b, R a b → Rel S (f a) (g b)) : Rel S (x >>= f) (y >>= g) := by
  cases h with
  | some hab => exact hfg _ _ hab
  | none => exact .none

theorem rel_foldlM {ι : Type*} {f : α → ι → Option α} {g : β → ι → Option β}
    (hstep : ∀ i a b, R a b → Rel R (f a i) (g b i)) : ∀ (l : List ι) {a : α} {b : β}, R a b →
      Rel R (l.foldlM f a) (l.foldlM g b)
  | [], _, _, h => .some h
  | i :: l, _, _, h => by
    rw [List.foldlM_cons, List.foldlM_cons]
    exact rel_bind (hstep i _ _ h) fun _ _ h' => rel_foldlM hstep l h'

theorem rel_getElem? {as : List α} {bs : List β} (h : List.Forall₂ R as bs) (i : ℕ) :
    Rel R as[i]? bs[i]? := by
  induction h generalizing i with
  | nil => exact .none
  | cons hab _ ih =>
    cases i with
    | zero => exact .some hab
    | succ i => exact ih i

theorem forall₂_set {as : List α} {bs : List β} (h : List.Forall₂ R as bs) (i : ℕ) {a : α} {b : β}
    (hab : R a b) : List.Forall₂ R (as.set i a) (bs.set i b) := by
  induction h generalizing i with
  | nil => exact .nil
  | cons hab' h ih =>
    cases i with
    | zero => exact .cons hab h
    | succ i => exact .cons hab' (ih i)

end Option

end Outcome
