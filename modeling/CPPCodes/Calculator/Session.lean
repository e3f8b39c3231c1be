import CPPCodes.Calculator.Rejection

/-!
# A session with the calculator

`main` of Calculator.cpp, which evaluates a line after the other up to an empty one; an exception or
a failed assert ends it at once. The lines that a value is printed for are the expressions that are
defined, and no others (`expr_ok_iff`): a character that belongs to no token, for which the call
returns the current token once more, always comes to an assert.
-/

namespace CPPCodes.Calculator

open Interpretor

/-- `main`: what it prints, and how it ends. Behind the last line `getline` leaves its string
empty. -/
def main : List Str → Option (List ℤ × Except Failure Unit)
  | [] => some ([], .ok ())
  | input :: inputs =>
    if input = [] then some ([], .ok ())
    else do
      let o ← expr input
      match o.result with
      | .error f => some ([], .error f)
      | .ok v =>
        let (printed, result) ← main inputs
        return (v :: printed, result)

variable {s : Interpretor} {result v : ℤ} {fuel : ℕ} {o : Outcome}

/-- A turn behind which a value is returned has an operand. -/
theorem exprLoop_returns (h : s.token.type ≠ .kEof) (hrun : exprLoop (fuel + 1) s result = some o)
    (ho : o.result = .ok v) : s.advance.token.type = .kInteger ∧ ∃ result' o',
      stoi s.advance.token.value >>= apply s.token.type result = .ok result' ∧
        exprLoop fuel s.advance.advance result' = some o' ∧ o'.result = .ok v := by
  rcases exprLoop_cases h hrun with ⟨-, rfl⟩ | ⟨hright, ⟨f, -, rfl⟩ | ⟨result', o', happly, hrest, rfl⟩⟩
  · cases ho
  · cases ho
  · exact ⟨hright, result', o', happly, hrest, ho⟩

/-- An integer is no operator. -/
theorem apply_kInteger (value : Str) {result' : ℤ} :
    stoi value >>= apply .kInteger result ≠ .ok result' := by
  intro h
  cases hstoi : stoi value with
  | error f =>
    rw [hstoi] at h
    cases h
  | ok x =>
    rw [hstoi] at h
    cases h

theorem not_returns_of_kInteger (h : s.token.type = .kInteger)
    (hrun : exprLoop (fuel + 1) s result = some o) : o.result ≠ .ok v := by
  intro ho
  obtain ⟨-, result', o', happly, -⟩ := exprLoop_returns (by simp [h]) hrun ho
  rw [h] at happly
  exact apply_kInteger _ happly

/-- Behind an operator there is an integer, and the value of both is defined. -/
theorem literal_of_returns {rest : Str} {op : Op}
    (hrun : exprLoop (fuel + 1) ⟨rest, ⟨op.type, []⟩⟩ result = some o) (ho : o.result = .ok v) :
    ∃ (between : Blank) (l : Literal) (rest' : Str) (result' : ℤ) (o' : Outcome),
      rest = between.1 ++ (l.digits ++ rest') ∧ NoDigit rest' ∧ l.value < 2 ^ 31 ∧
        apply op.type result l.value = .ok result' ∧
        exprLoop fuel (advance ⟨rest', l.token⟩) result' = some o' ∧ o'.result = .ok v := by
  obtain ⟨hinteger, result', o', happly, hrest, ho'⟩ := exprLoop_returns op.type_ne_kEof hrun ho
  cases next rest with
  | blank blank =>
    rw [advance_blank] at hinteger
    cases hinteger
  | op before op' rest =>
    rw [advance_op] at hinteger
    exact absurd hinteger op'.type_ne_kInteger
  | foreign before c rest hc =>
    rw [advance_foreign before hc] at hinteger
    exact absurd hinteger op.type_ne_kInteger
  | literal between l rest' hdigit =>
    rw [advance_literal between l hdigit] at happly hrest
    have hstoi : stoi l.token.value = _ := stoi_digits l
    rw [hstoi] at happly
    split_ifs at happly with hl
    · exact ⟨between, l, rest', result', o', rfl, hdigit, hl, happly, hrest, ho'⟩
    · cases happly

/-- Where a value is returned, steps that are defined are read up to the end, and it is theirs. -/
theorem steps_of_returns : ∀ {fuel : ℕ} {text : Str} {token : Token} {result : ℤ} {o : Outcome},
    exprLoop fuel (advance ⟨text, token⟩) result = some o → o.result = .ok v →
      token.type = .kInteger → Signed.Fits 32 result →
      ∃ (steps : List Step) (behind : Blank), text = textOf steps ++ behind.1 ∧
        Defined result steps ∧ v = fold result steps
  | 0, _, _, _, _, hrun, _, _, _ => nomatch hrun
  | fuel + 1, text, token, result, o, hrun, ho, htoken, hfits => by
    cases next text with
    | blank blank =>
      rw [advance_blank, exprLoop_kEof rfl] at hrun
      obtain rfl := Option.some.inj hrun
      exact ⟨[], blank, rfl, defined_nil hfits, (Except.ok.inj ho).symm⟩
    | literal before l rest hdigit =>
      rw [advance_literal before l hdigit] at hrun
      exact absurd ho (not_returns_of_kInteger rfl hrun)
    | foreign before c rest hc =>
      rw [advance_foreign before hc] at hrun
      exact absurd ho (not_returns_of_kInteger htoken hrun)
    | op before op rest =>
      rw [advance_op] at hrun
      obtain ⟨between, l, rest', result', o', rfl, hdigit, hl, happly, hrest, ho'⟩ :=
        literal_of_returns hrun ho
      rw [apply_type] at happly
      split_ifs at happly with hzero
      unfold int32 at happly
      split_ifs at happly with hfits'
      obtain rfl := Except.ok.inj happly
      obtain ⟨steps, behind, rfl, hdefined, hv⟩ := steps_of_returns hrest ho' rfl hfits'
      let step : Step := ⟨before, op, between, l⟩
      refine ⟨step :: steps, behind, (textOf_cons step steps behind.1).symm, ?_, hv⟩
      exact defined_cons.2 ⟨hfits, hl, fun hop h0 => hzero ⟨hop, h0⟩, hdefined⟩

theorem expr_returns {text : Str} (hrun : expr text = some o) (ho : o.result = .ok v) :
    ∃ (before : Blank) (first : Literal) (rest : Str) (fuel : ℕ) (o' : Outcome),
      text = before.1 ++ (first.digits ++ rest) ∧ first.value < 2 ^ 31 ∧
        exprLoop fuel (advance ⟨rest, first.token⟩) first.value = some o' ∧ o'.result = .ok v := by
  rcases expr_cases hrun with ⟨before, first, rest, rfl, hdigit, hfirst⟩ | hassert
  · rcases hfirst with hlarge | ⟨hfit, calls, fuel, o', hloop, rfl⟩
    · have hadvance : advance ⟨before.1 ++ (first.digits ++ rest), ⟨.kEof, []⟩⟩ =
          ⟨rest, first.token⟩ := advance_literal before first hdigit
      have hstoi : stoi first.token.value = .error .outOfRange :=
        (stoi_digits first).trans (if_neg (by omega))
      unfold expr at hrun
      simp only [hadvance, hstoi] at hrun
      rw [if_neg (by simp [Literal.token])] at hrun
      obtain rfl := Option.some.inj hrun
      cases ho
    · exact ⟨before, first, rest, fuel, o', rfl, hfit, hloop, ho⟩
  · rw [ho] at hassert
    cases hassert

/-- `Expr` returns a number for the expressions that are defined, which is their value, and for no
other text. -/
theorem expr_ok_iff (text : Str) (v : ℤ) : (expr text).map Outcome.result = some (.ok v) ↔
    ∃ e : Expression, e.text = text ∧ e.Defined ∧ e.value = v := by
  constructor
  · intro h
    obtain ⟨o, hrun, ho⟩ := Option.map_eq_some_iff.1 h
    obtain ⟨before, first, rest, fuel, o', rfl, hfit, hloop, ho'⟩ := expr_returns hrun ho
    have hfits : Signed.Fits 32 (first.value : ℤ) := by
      unfold Signed.Fits
      omega
    obtain ⟨steps, behind, rfl, hdefined, rfl⟩ := steps_of_returns hloop ho' rfl hfits
    exact ⟨⟨before, first, steps, behind⟩, rfl, ⟨hfit, hdefined⟩, rfl⟩
  · rintro ⟨e, rfl, hdefined, rfl⟩
    obtain ⟨calls, -, hrun⟩ := exists_calls e hdefined
    rw [hrun]
    rfl

/-- What is left of the lines says how the session ends. -/
def EndsWith (result : Except Failure Unit) (rest : List Str) : Prop :=
  match result with
  | .ok () => ∀ input ∈ rest.head?, input = []
  | .error f => ∃ input ∈ rest.head?, input ≠ [] ∧
      (expr input).map Outcome.result = some (.error f) ∧
      ∀ e : Expression, e.Defined → e.text ≠ input

/-- The values of the expressions in front are printed, and the session ends at the first line that
is none: well if that is empty or there is none, and as `Expr` on that line if not. -/
theorem main_prints : ∀ inputs : List Str, ∃ (es : List Expression) (rest : List Str)
    (result : Except Failure Unit), inputs = es.map Expression.text ++ rest ∧
      (∀ e ∈ es, e.Defined) ∧ EndsWith result rest ∧
      main inputs = some (es.map Expression.value, result)
  | [] => ⟨[], [], .ok (), rfl, by simp, by simp [EndsWith], rfl⟩
  | input :: inputs => by
    unfold main
    by_cases hempty : input = []
    · rw [if_pos hempty]
      exact ⟨[], input :: inputs, .ok (), rfl, by simp, by simpa [EndsWith] using hempty, rfl⟩
    · obtain ⟨o, hrun⟩ := Option.isSome_iff_exists.1 (expr_isSome input)
      have hiff := expr_ok_iff input
      rw [hrun, Option.map_some] at hiff
      rw [if_neg hempty, hrun, Option.bind_eq_bind, Option.bind_some]
      cases ho : o.result with
      | error f =>
        rw [ho] at hiff
        have hexpr : (expr input).map Outcome.result = some (.error f) := by
          rw [hrun, Option.map_some, ho]
        refine ⟨[], input :: inputs, .error f, rfl, by simp, ⟨input, rfl, hempty, hexpr, ?_⟩, rfl⟩
        rintro e hdefined rfl
        cases (hiff _).2 ⟨e, rfl, hdefined, rfl⟩
      | ok v =>
        rw [ho] at hiff
        obtain ⟨e, rfl, hdefined, rfl⟩ := (hiff v).1 rfl
        obtain ⟨es, rest, result, rfl, hall, hends, hmain⟩ := main_prints inputs
        refine ⟨e :: es, rest, result, rfl, List.forall_mem_cons.2 ⟨hdefined, hall⟩, hends, ?_⟩
        simp only [hmain, Option.bind_eq_bind, Option.bind_some]
        rfl

end CPPCodes.Calculator
