import CPPCodes.Calculator.Expression

/-!
# What the calculator rejects

Where no token begins, `NextToken` returns the current token once more, and where an integer is
missing, or is where an operator should be, `Expr` stops at an assert. So of the texts that are not
an expression only those are rejected by an exception in which `std::stoi` comes to an integer that
does not fit first (`rejects_iff`).
-/

namespace CPPCodes.Calculator

open Interpretor

/-- Every call of `NextToken` goes on, and `Expr` returns the value of an expression that is the
text or throws. -/
def Rejects (text : Str) : Prop :=
  ∃ o, expr text = some o ∧ (∀ s ∈ o.calls, Progress s) ∧
    match o.result with
    | .ok v => ∃ e : Expression, e.text = text ∧ e.Defined ∧ v = e.value
    | .error f => f.throws

/-- An integer that does not fit, with an operator in front, or an integer, and with a text behind
that begins with white space or an operator, if there is one. -/
inductive Overflow : Str → Prop
  | op (before : Blank) (op : Op) (between : Blank) (l : Literal) (rest : Str) :
      2 ^ 31 ≤ l.value → NoDigit rest → Fine rest →
      Overflow (before.1 ++ op.char :: (between.1 ++ (l.digits ++ rest)))
  | literal (before : Blank) (left : Literal) (between : Blank) (l : Literal) (rest : Str) :
      before.1 ≠ [] → between.1 ≠ [] → 2 ^ 31 ≤ l.value → NoDigit rest → Fine rest →
      Overflow (before.1 ++ (left.digits ++ (between.1 ++ (l.digits ++ rest))))

/-- The steps, and then the end or an integer that does not fit. -/
def Ends (result : ℤ) (text : Str) : Prop :=
  ∃ steps rest, Defined result steps ∧ text = textOf steps ++ rest ∧
    ((∀ c ∈ rest, isspace c = true) ∨ Overflow rest)

/-- An expression that is defined, or such an expression with an integer behind it that does not
fit, or a text that begins with an integer that does not fit. -/
def Handled (text : Str) : Prop :=
  ∃ (before : Blank) (first : Literal) (rest : Str), text = before.1 ++ (first.digits ++ rest) ∧
    NoDigit rest ∧ (2 ^ 31 ≤ first.value ∨ first.value < 2 ^ 31 ∧ Ends first.value rest)

/-- The text gets shorter, unless the current token is there once more. -/
theorem advance_length (s : Interpretor) :
    s.advance.it.length ≤ s.it.length ∧ (s.advance.token.type = .kInteger →
      s.advance.token ≠ s.token → s.advance.it.length < s.it.length) := by
  obtain ⟨text, token⟩ := s
  cases next text with
  | blank blank =>
    rw [advance_blank]
    exact ⟨Nat.zero_le _, fun h => nomatch h⟩
  | literal before l rest hrest =>
    have hlen := List.length_pos_iff.2 l.ne_nil
    have hlt : rest.length < (before.1 ++ (l.digits ++ rest)).length := by
      rw [List.length_append, List.length_append]
      omega
    rw [advance_literal before l hrest]
    exact ⟨hlt.le, fun _ _ => hlt⟩
  | op before op rest =>
    have hlt : rest.length < (before.1 ++ op.char :: rest).length := by
      rw [List.length_append, List.length_cons]
      omega
    rw [advance_op]
    exact ⟨hlt.le, fun _ _ => hlt⟩
  | foreign before c rest hc =>
    rw [advance_foreign before hc]
    refine ⟨?_, fun _ h => absurd rfl h⟩
    show (c :: rest).length ≤ _
    rw [List.length_append]
    exact Nat.le_add_left _ _

theorem exprLoop_isSome : ∀ {fuel : ℕ} {s : Interpretor} {result : ℤ}, s.it.length < fuel →
    (exprLoop fuel s result).isSome
  | 0, _, _, hfuel => absurd hfuel (Nat.not_lt_zero _)
  | fuel + 1, s, result, hfuel => by
    by_cases h : s.token.type = .kEof
    · rw [exprLoop_kEof h]
      rfl
    by_cases hright : s.advance.token.type = .kInteger
    · cases happly : stoi s.advance.token.value >>= apply s.token.type result with
      | error f =>
        rw [exprLoop_of_error h hright happly]
        rfl
      | ok result' =>
        -- only an operator lets the loop go on, and the integer behind it is not the same token
        have hne : s.advance.token ≠ s.token := by
          intro heq
          rw [heq] at happly hright
          rw [hright] at happly
          cases hstoi : stoi s.token.value with
          | error f => rw [hstoi] at happly; cases happly
          | ok v => rw [hstoi] at happly; cases happly
        have hlt := (advance_length s).2 hright hne
        have hle := (advance_length s.advance).1
        rw [exprLoop_of_ok h hright happly, Option.isSome_map]
        exact exprLoop_isSome (by omega)
    · rw [exprLoop_of_ne h hright]
      rfl

theorem expr_isSome (text : Str) : (expr text).isSome := by
  have hle := (advance_length ⟨text, ⟨.kEof, []⟩⟩).1
  have hle' := (advance_length (advance ⟨text, ⟨.kEof, []⟩⟩)).1
  unfold expr
  dsimp only
  split_ifs
  · rfl
  · split
    · rfl
    · rw [eat_self]
      show (Option.map _ _).isSome
      rw [Option.isSome_map]
      exact exprLoop_isSome (Nat.lt_succ_of_le (hle'.trans hle))

theorem noDigit_of_ne_nil {blank : Blank} (hne : blank.1 ≠ []) (s : Str) :
    NoDigit (blank.1 ++ s) := by
  intro c hc
  rw [List.head?_append_of_ne_nil _ hne] at hc
  by_contra hdigit
  have hspace := isspace_of_isDigit (by simpa using hdigit)
  rw [blank.2 c (List.mem_of_mem_head? hc)] at hspace
  cases hspace

theorem Overflow.noDigit {text : Str} (h : Overflow text) : NoDigit text := by
  cases h with
  | op => exact noDigit_blank _ (noDigit_op _ _)
  | literal _ _ _ _ _ hbefore => exact noDigit_of_ne_nil hbefore _

theorem Overflow.fine {text : Str} (h : Overflow text) : Fine text := by
  cases h with
  | op => exact fine_blank _ fun _ => fine_op _ _
  | literal => exact fine_blank _ fun _ => fine_literal _ _

theorem stoi_of_le {l : Literal} (hl : 2 ^ 31 ≤ l.value) {op : TokenType} {result : ℤ} :
    stoi l.token.value >>= apply op result = .error .outOfRange := by
  have hstoi : stoi l.token.value = .error .outOfRange :=
    (stoi_digits l).trans (if_neg (Nat.not_lt.2 hl))
  rw [hstoi]
  rfl

/-- `std::stoi` throws, and the calls have gone on. -/
theorem Overflow.exprLoop {text : Str} (h : Overflow text) (fuel : ℕ) (token : Token) (result : ℤ) :
    ∃ calls, (∀ s ∈ calls, Progress s) ∧
      exprLoop (fuel + 1) (advance ⟨text, token⟩) result = some ⟨calls, .error .outOfRange⟩ := by
  cases h with
  | op before op between l rest hl hdigit hfine =>
    have hright : advance ⟨between.1 ++ (l.digits ++ rest), ⟨op.type, []⟩⟩ = ⟨rest, l.token⟩ :=
      advance_literal between l hdigit
    rw [advance_op, exprLoop_of_error op.type_ne_kEof (by rw [hright]; rfl)
      (by rw [hright]; exact stoi_of_le hl), hright]
    refine ⟨_, ?_, rfl⟩
    rw [List.forall_mem_cons, List.forall_mem_singleton]
    exact ⟨progress_iff.2 (fine_blank _ fun _ => fine_literal _ _), progress_iff.2 hfine⟩
  | literal before left between l rest _ hbetween hl hdigit hfine =>
    have hleft : advance ⟨before.1 ++ (left.digits ++ (between.1 ++ (l.digits ++ rest))), token⟩ =
        ⟨between.1 ++ (l.digits ++ rest), left.token⟩ :=
      advance_literal before left (noDigit_of_ne_nil hbetween _)
    have hright : advance ⟨between.1 ++ (l.digits ++ rest), left.token⟩ = ⟨rest, l.token⟩ :=
      advance_literal between l hdigit
    rw [hleft, exprLoop_of_error (by simp [Literal.token]) (by rw [hright]; rfl)
      (by rw [hright]; exact stoi_of_le hl), hright]
    refine ⟨_, ?_, rfl⟩
    rw [List.forall_mem_cons, List.forall_mem_singleton]
    exact ⟨progress_iff.2 (fine_blank _ fun _ => fine_literal _ _), progress_iff.2 hfine⟩

theorem Handled.rejects {text : Str} (h : Handled text) : Rejects text := by
  obtain ⟨before, first, rest, rfl, hdigit, hends⟩ := h
  rcases hends with hfirst | ⟨hfirst, steps, rest, hdefined, rfl, hrest⟩
  · have hadvance : advance ⟨before.1 ++ (first.digits ++ rest), ⟨.kEof, []⟩⟩ =
        ⟨rest, first.token⟩ :=
      advance_literal before first hdigit
    have hstoi : stoi first.token.value = .error .outOfRange :=
      (stoi_digits first).trans (if_neg (Nat.not_lt.2 hfirst))
    refine ⟨⟨[⟨before.1 ++ (first.digits ++ rest), ⟨.kEof, []⟩⟩], .error .outOfRange⟩, ?_, ?_, rfl⟩
    · unfold expr
      simp only [hadvance, hstoi]
      rfl
    · rw [List.forall_mem_singleton]
      exact progress_iff.2 (fine_blank _ fun _ => fine_literal _ _)
  · rcases hrest with hblank | hover
    · let e : Expression := ⟨before, first, steps, ⟨rest, hblank⟩⟩
      obtain ⟨calls, hcalls, hrun⟩ := exists_calls e ⟨hfirst, hdefined⟩
      exact ⟨_, hrun, hcalls, e, rfl, ⟨hfirst, hdefined⟩, rfl⟩
    · obtain ⟨calls, token, fuel, hcalls, hrun⟩ :=
        expr_steps before hfirst hdefined hover.noDigit hover.fine
      obtain ⟨calls', hcalls', hloop⟩ := hover.exprLoop fuel token (fold first.value steps)
      refine ⟨_, hrun.trans (congrArg _ hloop), ?_, rfl⟩
      exact List.forall_mem_append.2 ⟨hcalls, hcalls'⟩

/-- What a turn of the loop does. -/
theorem exprLoop_cases {s : Interpretor} {result : ℤ} {fuel : ℕ} {o : Outcome}
    (h : s.token.type ≠ .kEof) (hrun : exprLoop (fuel + 1) s result = some o) :
    (s.advance.token.type ≠ .kInteger ∧ o = ⟨[s], .error .assertion⟩) ∨
      s.advance.token.type = .kInteger ∧
        ((∃ f, stoi s.advance.token.value >>= apply s.token.type result = .error f ∧
          o = ⟨[s, s.advance], .error f⟩) ∨
        ∃ result' o', stoi s.advance.token.value >>= apply s.token.type result = .ok result' ∧
          exprLoop fuel s.advance.advance result' = some o' ∧ o = o'.after [s, s.advance]) := by
  by_cases hright : s.advance.token.type = .kInteger
  · refine .inr ⟨hright, ?_⟩
    cases happly : stoi s.advance.token.value >>= apply s.token.type result with
    | error f =>
      rw [exprLoop_of_error h hright happly] at hrun
      exact .inl ⟨f, rfl, (Option.some.inj hrun).symm⟩
    | ok result' =>
      rw [exprLoop_of_ok h hright happly] at hrun
      obtain ⟨o', hrest, rfl⟩ := Option.map_eq_some_iff.1 hrun
      exact .inr ⟨result', o', rfl, hrest, rfl⟩
  · rw [exprLoop_of_ne h hright] at hrun
    exact .inl ⟨hright, (Option.some.inj hrun).symm⟩

/-- A run that returns or throws, and whose calls go on. -/
structure Settled (o : Outcome) : Prop where
  calls : ∀ s ∈ o.calls, Progress s
  result : ∀ f, o.result = .error f → f.throws = true

/-- A call without progress, or an operand that is missing. -/
theorem Settled.turn {s : Interpretor} {result : ℤ} {fuel : ℕ} {o : Outcome} (hsettled : Settled o)
    (h : s.token.type ≠ .kEof) (hrun : exprLoop (fuel + 1) s result = some o) :
    Progress s ∧ Progress s.advance ∧ s.advance.token.type = .kInteger := by
  rcases exprLoop_cases h hrun with ⟨-, rfl⟩ | ⟨hright, ⟨f, -, rfl⟩ | ⟨result', o', -, -, rfl⟩⟩
  · exact absurd (hsettled.result _ rfl) (by decide)
  · exact ⟨hsettled.calls s (by simp), hsettled.calls s.advance (by simp), hright⟩
  · exact ⟨hsettled.calls s (by simp [Outcome.after]),
      hsettled.calls s.advance (by simp [Outcome.after]), hright⟩

theorem throws_of_int32 {x : ℤ} {f : Failure} (h : int32 x = .error f) : f.throws = false := by
  unfold int32 at h
  split_ifs at h
  obtain rfl := Except.error.inj h
  rfl

/-- An operator does not throw. -/
theorem throws_of_apply {op : TokenType} {result : ℤ} {v : ℕ} {f : Failure}
    (h : apply op result v = .error f) : f.throws = false := by
  cases op
  case kDivide | kMod =>
    simp only [apply] at h
    split_ifs at h
    · obtain rfl := Except.error.inj h
      rfl
    · exact throws_of_int32 h
  case kEof | kInteger =>
    obtain rfl := Except.error.inj h
    rfl
  all_goals exact throws_of_int32 h

/-- Behind an integer the text goes on as it should, and if the integer fits so does the run. -/
theorem Settled.literal {left : Token} {between : Blank} {l : Literal} {rest : Str}
    (hdigit : NoDigit rest) {result : ℤ} {fuel : ℕ} {o : Outcome} (hsettled : Settled o)
    (h : left.type ≠ .kEof)
    (hrun : exprLoop (fuel + 1) ⟨between.1 ++ (l.digits ++ rest), left⟩ result = some o) :
    Fine rest ∧ (l.value < 2 ^ 31 → ∃ result' o', apply left.type result l.value = .ok result' ∧
      Settled o' ∧ exprLoop fuel (advance ⟨rest, l.token⟩) result' = some o') := by
  have hright : advance ⟨between.1 ++ (l.digits ++ rest), left⟩ = ⟨rest, l.token⟩ :=
    advance_literal between l hdigit
  obtain ⟨-, hprogress, hinteger⟩ := hsettled.turn h hrun
  have hcases := exprLoop_cases h hrun
  rw [hright] at hprogress hinteger hcases
  refine ⟨progress_iff.1 hprogress, fun hl => ?_⟩
  have hstoi : stoi l.token.value = .ok l.value := (stoi_digits l).trans (if_pos hl)
  rw [hstoi] at hcases
  rcases hcases with ⟨hne, -⟩ | ⟨-, ⟨f, happly, rfl⟩ | ⟨result', o', happly, hrest, rfl⟩⟩
  · exact absurd hinteger hne
  · have hthrows := hsettled.result f rfl
    rw [throws_of_apply happly] at hthrows
    cases hthrows
  · refine ⟨result', o', happly, ⟨fun s hs => ?_, hsettled.result⟩, hrest⟩
    exact hsettled.calls s (List.mem_append_right _ hs)

theorem not_noDigit (l : Literal) (rest : Str) : ¬ NoDigit (l.digits ++ rest) := by
  obtain ⟨d, ds, hds, hd⟩ := l.exists_cons
  intro h
  have hno := h d (by rw [hds]; rfl)
  rw [hd] at hno
  cases hno

theorem ne_nil_of_noDigit {blank : Blank} {l : Literal} {rest : Str}
    (h : NoDigit (blank.1 ++ (l.digits ++ rest))) : blank.1 ≠ [] := by
  intro hnil
  rw [hnil, List.nil_append] at h
  exact not_noDigit l rest h

/-- An operator that is defined, in front of a text that ends. -/
theorem Ends.cons {before between : Blank} {op : Op} {l : Literal} {rest : Str} {result result' : ℤ}
    (hfits : Signed.Fits 32 result) (hl : l.value < 2 ^ 31)
    (happly : apply op.type result l.value = .ok result')
    (h : Signed.Fits 32 result' → Ends result' rest) :
    Ends result (before.1 ++ op.char :: (between.1 ++ (l.digits ++ rest))) := by
  rw [apply_type] at happly
  split_ifs at happly with hzero
  unfold int32 at happly
  split_ifs at happly with hfits'
  obtain rfl := Except.ok.inj happly
  obtain ⟨steps, rest', hdefined, rfl, hrest⟩ := h hfits'
  let step : Step := ⟨before, op, between, l⟩
  refine ⟨step :: steps, rest', defined_cons.2 ⟨hfits, hl, fun hop h0 => ?_, hdefined⟩,
    (textOf_cons step steps rest').symm, hrest⟩
  exact hzero ⟨hop, h0⟩

/-- What is on the right of an operator, if it is an integer and the call behind it goes on. -/
theorem exists_literal {text : Str} {left : Token} (hprogress : Progress (advance ⟨text, left⟩))
    (hinteger : (advance ⟨text, left⟩).token.type = .kInteger) :
    ∃ (between : Blank) (l : Literal) (rest : Str), text = between.1 ++ (l.digits ++ rest) ∧
      NoDigit rest := by
  cases next text with
  | blank blank =>
    rw [advance_blank] at hinteger
    cases hinteger
  | literal between l rest hdigit => exact ⟨between, l, rest, rfl, hdigit⟩
  | op before op rest =>
    rw [advance_op] at hinteger
    exact absurd hinteger op.type_ne_kInteger
  | foreign before c rest hc =>
    rw [advance_foreign before hc] at hprogress
    exact absurd hc (progress_iff.1 hprogress c rfl)

/-- A run that returns or throws has read steps, and then the end or an integer that does not
fit. -/
theorem Settled.ends : ∀ {fuel : ℕ} {text : Str} {token : Token} {result : ℤ} {o : Outcome},
    Settled o → exprLoop fuel (advance ⟨text, token⟩) result = some o → token.type = .kInteger →
      NoDigit text → Signed.Fits 32 result → Ends result text
  | 0, _, _, _, _, _, hrun, _, _, _ => nomatch hrun
  | fuel + 1, text, token, result, o, hsettled, hrun, htoken, hdigit, hfits => by
    cases next text with
    | blank blank => exact ⟨[], blank.1, defined_nil hfits, rfl, .inl blank.2⟩
    | op before op rest =>
      rw [advance_op] at hrun
      obtain ⟨-, hprogress, hinteger⟩ := hsettled.turn op.type_ne_kEof hrun
      obtain ⟨between, l, rest, rfl, hdigit'⟩ := exists_literal hprogress hinteger
      obtain ⟨hfine, hfit⟩ := hsettled.literal hdigit' op.type_ne_kEof hrun
      by_cases hl : l.value < 2 ^ 31
      · obtain ⟨result', o', happly, hsettled', hrest⟩ := hfit hl
        exact .cons hfits hl happly fun hfits' => hsettled'.ends hrest rfl hdigit' hfits'
      · exact ⟨[], _, defined_nil hfits, rfl,
          .inr (.op before op between l rest (Nat.not_lt.1 hl) hdigit' hfine)⟩
    | literal before left rest hrest =>
      have hleft : left.token.type ≠ .kEof := by simp [Literal.token]
      rw [advance_literal before left hrest] at hrun
      obtain ⟨-, hprogress, hinteger⟩ := hsettled.turn hleft hrun
      obtain ⟨between, l, rest, rfl, hdigit'⟩ := exists_literal hprogress hinteger
      obtain ⟨hfine, hfit⟩ := hsettled.literal hdigit' hleft hrun
      by_cases hl : l.value < 2 ^ 31
      · -- an integer is no operator
        obtain ⟨result', o', happly, -, -⟩ := hfit hl
        cases happly
      · exact ⟨[], _, defined_nil hfits, rfl, .inr (.literal before left between l rest
          (ne_nil_of_noDigit hdigit) (ne_nil_of_noDigit hrest) (Nat.not_lt.1 hl) hdigit' hfine)⟩
    | foreign before c rest hc =>
      rw [advance_foreign before hc] at hrun
      have hne : token.type ≠ .kEof := by simp [htoken]
      have hprogress := (hsettled.turn hne hrun).1
      exact absurd hc (progress_iff.1 hprogress c rfl)

/-- `Expr` begins with an integer, or stops at an assert. -/
theorem expr_cases {text : Str} {o : Outcome} (h : expr text = some o) :
    (∃ (before : Blank) (first : Literal) (rest : Str), text = before.1 ++ (first.digits ++ rest) ∧
      NoDigit rest ∧ (2 ^ 31 ≤ first.value ∨ first.value < 2 ^ 31 ∧ ∃ calls fuel o',
        exprLoop fuel (advance ⟨rest, first.token⟩) first.value = some o' ∧ o = o'.after calls)) ∨
      o.result = .error .assertion := by
  cases next text with
  | literal before first rest hrest =>
    have hadvance : advance ⟨before.1 ++ (first.digits ++ rest), ⟨.kEof, []⟩⟩ =
        ⟨rest, first.token⟩ :=
      advance_literal before first hrest
    refine .inl ⟨before, first, rest, rfl, hrest, ?_⟩
    by_cases hfirst : first.value < 2 ^ 31
    · have hstoi : stoi first.token.value = .ok first.value :=
        (stoi_digits first).trans (if_pos hfirst)
      unfold expr at h
      simp only [hadvance, hstoi] at h
      rw [if_neg (by simp [Literal.token])] at h
      obtain ⟨o', hrun, rfl⟩ := Option.map_eq_some_iff.1 h
      exact .inr ⟨hfirst, _, _, o', hrun, rfl⟩
    · exact .inl (Nat.not_lt.1 hfirst)
  | blank blank =>
    unfold expr at h
    simp only [advance_blank] at h
    rw [if_pos (by simp)] at h
    exact .inr (congrArg Outcome.result (Option.some.inj h).symm)
  | op before op rest =>
    unfold expr at h
    simp only [advance_op] at h
    rw [if_pos op.type_ne_kInteger] at h
    exact .inr (congrArg Outcome.result (Option.some.inj h).symm)
  | foreign before c rest hc =>
    unfold expr at h
    simp only [advance_foreign before hc] at h
    rw [if_pos (by simp)] at h
    exact .inr (congrArg Outcome.result (Option.some.inj h).symm)

/-- `Expr` returns the value or throws, with calls that go on, for these texts only. -/
theorem rejects_iff (text : Str) : Rejects text ↔ Handled text := by
  refine ⟨?_, Handled.rejects⟩
  rintro ⟨o, hrun, hcalls, hresult⟩
  have hsettled : Settled o := ⟨hcalls, fun f hf => by rw [hf] at hresult; exact hresult⟩
  rcases expr_cases hrun with ⟨before, first, rest, rfl, hdigit, hfirst⟩ | hassert
  · refine ⟨before, first, rest, rfl, hdigit, hfirst.imp_right ?_⟩
    rintro ⟨hfit, calls, fuel, o', hloop, rfl⟩
    have hsettled' : Settled o' :=
      ⟨fun s hs => hsettled.calls s (List.mem_append_right _ hs), hsettled.result⟩
    have hfits : Signed.Fits 32 (first.value : ℤ) := by
      unfold Signed.Fits
      omega
    exact ⟨hfit, hsettled'.ends hloop rfl hdigit hfits⟩
  · exact absurd (hsettled.result _ hassert) (by decide)

/-- The text 1$: the integer is returned once more, and `Expr` stops at an assert. -/
theorem not_rejects : ¬ ∀ text : Str, Rejects text := by
  intro h
  obtain ⟨o, hrun, -, hresult⟩ := h ['1', '$']
  have hassert : (expr ['1', '$']).map Outcome.result = some (.error .assertion) := rfl
  rw [hrun] at hassert
  rw [Option.some.inj hassert] at hresult
  cases hresult

end CPPCodes.Calculator
