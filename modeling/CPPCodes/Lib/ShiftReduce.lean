import Mathlib.Data.List.Basic

/-!
# Shift-reduce parsers

A parser reads tokens onto a stack of symbols, and reduces the right side of a rule on top of the
stack to the rule's left side. A rule may depend on the token that comes next: so a conflict
between rules, or between a rule and reading on, is resolved. Symbols carry the values that the
rules' actions compute.
-/

namespace ShiftReduce

variable {Tok Sym : Type*}

/-- With the tokens `rest` still to come, the tokens `w` can be on the stack as `stack`. -/
inductive Reads (tok : Tok → Sym) (rule : Option Tok → List Sym → Sym → Prop) :
    List Sym → List Tok → List Tok → Prop
  | nil (rest : List Tok) : Reads tok rule [] [] rest
  | shift {stack : List Sym} {w rest : List Tok} {t : Tok} : Reads tok rule stack w (t :: rest) →
      Reads tok rule (stack ++ [tok t]) (w ++ [t]) rest
  | reduce {stack rhs : List Sym} {s : Sym} {w rest : List Tok} :
      Reads tok rule (stack ++ rhs) w rest → rule rest.head? rhs s →
      Reads tok rule (stack ++ [s]) w rest

/-- The symbols stand for the tokens, whatever comes behind them and however conflicts are
resolved. -/
inductive Derives (tok : Tok → Sym) (rule : Option Tok → List Sym → Sym → Prop) :
    List Sym → List Tok → Prop
  | nil : Derives tok rule [] []
  | shift {stack : List Sym} {w : List Tok} (t : Tok) : Derives tok rule stack w →
      Derives tok rule (stack ++ [tok t]) (w ++ [t])
  | reduce {stack rhs : List Sym} {s : Sym} {w : List Tok} {next : Option Tok} :
      Derives tok rule (stack ++ rhs) w → rule next rhs s → Derives tok rule (stack ++ [s]) w

variable {tok : Tok → Sym} {rule : Option Tok → List Sym → Sym → Prop}

theorem Reads.derives {stack : List Sym} {w rest : List Tok} (h : Reads tok rule stack w rest) :
    Derives tok rule stack w := by
  induction h with
  | nil => exact .nil
  | shift _ ih => exact ih.shift _
  | reduce _ hr ih => exact ih.reduce hr

namespace Derives

theorem append_singleton_inj {a b : List Sym} {s t : Sym} (h : a ++ [s] = b ++ [t]) :
    a = b ∧ s = t := by
  obtain ⟨hab, hst⟩ := List.append_inj' h rfl
  exact ⟨hab, List.singleton_inj.1 hst⟩

theorem mono {rule' : Option Tok → List Sym → Sym → Prop}
    (hrule : ∀ next rhs s, rule next rhs s → rule' next rhs s) {stack : List Sym} {w : List Tok}
    (h : Derives tok rule stack w) : Derives tok rule' stack w := by
  induction h with
  | nil => exact .nil
  | shift t _ ih => exact ih.shift t
  | reduce _ hr ih => exact ih.reduce (hrule _ _ _ hr)

/-- The symbols on top stand for the last tokens. -/
theorem split {stack : List Sym} {w : List Tok} (h : Derives tok rule stack w) :
    ∀ {a b : List Sym}, stack = a ++ b →
      ∃ u v, w = u ++ v ∧ Derives tok rule a u ∧ Derives tok rule b v := by
  induction h with
  | nil =>
    intro a b hab
    obtain ⟨rfl, rfl⟩ := List.append_eq_nil_iff.1 hab.symm
    exact ⟨[], [], rfl, .nil, .nil⟩
  | @shift stack w t hd ih =>
    intro a b hab
    rcases List.eq_nil_or_concat b with rfl | ⟨b, s, rfl⟩
    · rw [List.append_nil] at hab
      exact ⟨w ++ [t], [], (List.append_nil _).symm, hab ▸ hd.shift t, .nil⟩
    · rw [List.concat_eq_append, ← List.append_assoc] at hab
      obtain ⟨hstack, rfl⟩ := append_singleton_inj hab
      obtain ⟨u, v, rfl, hu, hv⟩ := ih hstack
      refine ⟨u, v ++ [t], List.append_assoc .., hu, ?_⟩
      rw [List.concat_eq_append]
      exact hv.shift t
  | @reduce stack rhs s w next hd hr ih =>
    intro a b hab
    rcases List.eq_nil_or_concat b with rfl | ⟨b, s', rfl⟩
    · rw [List.append_nil] at hab
      exact ⟨w, [], (List.append_nil _).symm, hab ▸ hd.reduce hr, .nil⟩
    · rw [List.concat_eq_append, ← List.append_assoc] at hab
      obtain ⟨rfl, rfl⟩ := append_singleton_inj hab
      obtain ⟨u, v, rfl, hu, hv⟩ := ih (List.append_assoc a b rhs)
      refine ⟨u, v, rfl, hu, ?_⟩
      rw [List.concat_eq_append]
      exact hv.reduce hr

theorem split_cons {s : Sym} {b : List Sym} {w : List Tok} (h : Derives tok rule (s :: b) w) :
    ∃ u v, w = u ++ v ∧ Derives tok rule [s] u ∧ Derives tok rule b v :=
  h.split (List.singleton_append (l := b)).symm

theorem eq_nil {stack : List Sym} {w : List Tok} (h : Derives tok rule stack w)
    (hstack : stack = []) : w = [] := by
  cases h with
  | nil => rfl
  | shift => exact absurd hstack (List.concat_ne_nil _ _)
  | reduce => exact absurd hstack (List.concat_ne_nil _ _)

theorem cases_concat {stack : List Sym} {w : List Tok} (h : Derives tok rule stack w)
    {a : List Sym} {s : Sym} (hstack : stack = a ++ [s]) :
    (∃ t u, s = tok t ∧ w = u ++ [t] ∧ Derives tok rule a u) ∨
      ∃ next rhs, rule next rhs s ∧ Derives tok rule (a ++ rhs) w := by
  cases h with
  | nil => exact absurd hstack.symm (List.concat_ne_nil _ _)
  | shift t hd =>
    obtain ⟨rfl, rfl⟩ := append_singleton_inj hstack
    exact .inl ⟨t, _, rfl, rfl, hd⟩
  | reduce hd hr =>
    obtain ⟨rfl, rfl⟩ := append_singleton_inj hstack
    exact .inr ⟨_, _, hr, hd⟩

/-- What a symbol stands for: a token, or the right side of a rule. -/
theorem single {s : Sym} {w : List Tok} (h : Derives tok rule [s] w) :
    (∃ t, s = tok t ∧ w = [t]) ∨ ∃ next rhs, rule next rhs s ∧ Derives tok rule rhs w := by
  rcases h.cases_concat (a := []) rfl with ⟨t, u, rfl, rfl, hu⟩ | hr
  · obtain rfl := hu.eq_nil rfl
    exact .inl ⟨t, rfl, rfl⟩
  · exact .inr hr

end Derives

end ShiftReduce
