import CPPCodes.Calculator.Interpretor
import Mathlib.Data.List.TakeWhile

/-!
# The expressions of the calculator

An expression is an integer and then any number of operators with an integer behind, with white
space wherever it may be. `Expr` takes its steps one after the other, and what it has after each is
the fold of the operators so far (`expr_text`).
-/

namespace CPPCodes.Calculator

/-- White space. -/
abbrev Blank := {s : Str // ∀ c ∈ s, isspace c = true}

/-- An integer in decimal. -/
structure Literal where
  digits : Str
  ne_nil : digits ≠ []
  isDigit : ∀ d ∈ digits, d.isDigit = true

def Literal.value (l : Literal) : ℕ := Nat.ofDigitChars 10 l.digits 0

def Literal.token (l : Literal) : Token := ⟨.kInteger, l.digits⟩

inductive Op
  | plus
  | minus
  | multiply
  | divide
  | mod
  | power
deriving DecidableEq

namespace Op

def char : Op → Char
  | plus => '+'
  | minus => '-'
  | multiply => '*'
  | divide => '/'
  | mod => '%'
  | power => '^'

def type : Op → TokenType
  | plus => .kPlus
  | minus => .kMinus
  | multiply => .kMultiply
  | divide => .kDivide
  | mod => .kMod
  | power => .kPower

theorem operatorType_char (op : Op) : operatorType op.char = some op.type := by
  cases op <;> rfl

theorem isspace_char (op : Op) : isspace op.char = false := by
  cases op <;> rfl

theorem isDigit_char (op : Op) : op.char.isDigit = false := by
  cases op <;> rfl

theorem type_ne_kInteger (op : Op) : op.type ≠ .kInteger := by
  cases op <;> simp [type]

theorem type_ne_kEof (op : Op) : op.type ≠ .kEof := by
  cases op <;> simp [type]

/-- The cases of the `switch` are the operators. -/
theorem exists_of_operatorType {c : Char} {type : TokenType} (h : operatorType c = some type) :
    ∃ op : Op, c = op.char := by
  unfold operatorType at h
  split at h
  · exact ⟨plus, rfl⟩
  · exact ⟨minus, rfl⟩
  · exact ⟨multiply, rfl⟩
  · exact ⟨divide, rfl⟩
  · exact ⟨mod, rfl⟩
  · exact ⟨power, rfl⟩
  · cases h

end Op

theorem isspace_of_isDigit {d : Char} (hd : d.isDigit = true) : isspace d = false := by
  by_contra hspace
  rw [Bool.not_eq_false, isspace, decide_eq_true_eq] at hspace
  simp only [List.mem_cons, List.not_mem_nil, or_false] at hspace
  rcases hspace with rfl | rfl | rfl | rfl | rfl | rfl <;> exact absurd hd (by decide)

/-- The text does not go on with a digit. -/
def NoDigit (s : Str) : Prop := ∀ c ∈ s.head?, c.isDigit = false

/-- A character with which no token begins. -/
structure Foreign (c : Char) : Prop where
  space : isspace c = false
  digit : c.isDigit = false
  operator : operatorType c = none

theorem dropWhile_blank (blank : Blank) {s : Str} (hs : ∀ c ∈ s.head?, isspace c = false) :
    (blank.1 ++ s).dropWhile isspace = s := by
  rw [List.dropWhile_append_of_pos blank.2]
  cases s with
  | nil => rfl
  | cons c s => exact List.dropWhile_cons_of_neg (by simp [hs c rfl])

theorem Literal.exists_cons (l : Literal) : ∃ d ds, l.digits = d :: ds ∧ d.isDigit = true := by
  obtain ⟨d, ds, hds⟩ := List.exists_cons_of_ne_nil l.ne_nil
  exact ⟨d, ds, hds, l.isDigit d (hds ▸ List.mem_cons_self)⟩

namespace Interpretor

variable {token : Token}

theorem advance_blank (blank : Blank) : advance ⟨blank.1, token⟩ = ⟨[], ⟨.kEof, []⟩⟩ := by
  have hdrop := dropWhile_blank blank (s := []) (by simp)
  rw [List.append_nil] at hdrop
  unfold advance nextToken
  rw [hdrop]
  rfl

theorem advance_literal (blank : Blank) (l : Literal) {rest : Str} (hrest : NoDigit rest) :
    advance ⟨blank.1 ++ (l.digits ++ rest), token⟩ = ⟨rest, l.token⟩ := by
  obtain ⟨d, ds, hds, hd⟩ := l.exists_cons
  have hdrop := dropWhile_blank blank (s := l.digits ++ rest) (by
    rw [hds]
    simpa using isspace_of_isDigit hd)
  have hcons : l.digits ++ rest = d :: (ds ++ rest) := by rw [hds, List.cons_append]
  have hstop : rest.takeWhile Char.isDigit = [] ∧ rest.dropWhile Char.isDigit = rest := by
    cases rest with
    | nil => exact ⟨rfl, rfl⟩
    | cons c rest =>
      have hc : ¬ c.isDigit = true := by simp [hrest c rfl]
      exact ⟨List.takeWhile_cons_of_neg hc, List.dropWhile_cons_of_neg hc⟩
  have htake : (l.digits ++ rest).takeWhile Char.isDigit = l.digits := by
    rw [List.takeWhile_append_of_pos l.isDigit, hstop.1, List.append_nil]
  have hskip : (l.digits ++ rest).dropWhile Char.isDigit = rest := by
    rw [List.dropWhile_append_of_pos l.isDigit, hstop.2]
  have hat : tokenAt token (l.digits ++ rest) = (l.token, rest) := by
    rw [hcons] at htake hskip ⊢
    simp only [tokenAt, hd, if_true, htake, hskip]
    rfl
  unfold advance nextToken
  rw [hdrop, hat]

theorem advance_op (blank : Blank) (op : Op) (rest : Str) :
    advance ⟨blank.1 ++ op.char :: rest, token⟩ = ⟨rest, ⟨op.type, []⟩⟩ := by
  have hdrop := dropWhile_blank blank (s := op.char :: rest) (by simpa using op.isspace_char)
  unfold advance nextToken
  rw [hdrop]
  simp only [tokenAt, op.isDigit_char, Bool.false_eq_true, if_false, op.operatorType_char]

/-- No token begins: the current token is there once more, and the text does not go on. -/
theorem advance_foreign (blank : Blank) {c : Char} (hc : Foreign c) (rest : Str) :
    advance ⟨blank.1 ++ c :: rest, token⟩ = ⟨c :: rest, token⟩ := by
  have hdrop := dropWhile_blank blank (s := c :: rest) (by simpa using hc.space)
  unfold advance nextToken
  rw [hdrop]
  simp only [tokenAt, hc.digit, Bool.false_eq_true, if_false, hc.operator]

/-- What `NextToken` has in front of it. -/
inductive Next : Str → Prop
  | blank (blank : Blank) : Next blank.1
  | literal (blank : Blank) (l : Literal) (rest : Str) : NoDigit rest →
      Next (blank.1 ++ (l.digits ++ rest))
  | op (blank : Blank) (op : Op) (rest : Str) : Next (blank.1 ++ op.char :: rest)
  | foreign (blank : Blank) (c : Char) (rest : Str) : Foreign c → Next (blank.1 ++ c :: rest)

theorem noDigit_dropWhile (s : Str) : NoDigit (s.dropWhile Char.isDigit) := by
  intro c hc
  have hhead := List.head?_dropWhile_not Char.isDigit s
  rw [Option.mem_def.1 hc] at hhead
  simpa using hhead

theorem next (s : Str) : Next s := by
  let blank : Blank := ⟨s.takeWhile isspace, fun _ hc => List.mem_takeWhile_imp hc⟩
  have hsplit : blank.1 ++ s.dropWhile isspace = s := List.takeWhile_append_dropWhile
  have hspace := List.head?_dropWhile_not isspace s
  rw [← hsplit]
  cases hrest : s.dropWhile isspace with
  | nil =>
    rw [List.append_nil]
    exact .blank blank
  | cons c rest =>
    rw [hrest] at hspace
    by_cases hdigit : c.isDigit = true
    · let l : Literal :=
        { digits := (c :: rest).takeWhile Char.isDigit
          ne_nil := by simp [hdigit]
          isDigit := fun _ hd => List.mem_takeWhile_imp hd }
      have hl : l.digits ++ (c :: rest).dropWhile Char.isDigit = c :: rest :=
        List.takeWhile_append_dropWhile
      rw [← hl]
      exact .literal blank l _ (noDigit_dropWhile _)
    · cases hop : operatorType c with
      | some type =>
        obtain ⟨op, rfl⟩ := Op.exists_of_operatorType hop
        exact .op blank op rest
      | none => exact .foreign blank c rest ⟨hspace, by simpa using hdigit, hop⟩

/-- The call takes a character at least, or is at the end of the text and says so. -/
def Progress (s : Interpretor) : Prop :=
  s.nextToken.2.length < s.it.length ∨ s.nextToken.1.type = .kEof ∧ s.nextToken.2 = []

/-- The text does not begin with a character with which no token begins. -/
def Fine (s : Str) : Prop := ∀ c ∈ s.head?, ¬ Foreign c

theorem fine_blank (blank : Blank) {s : Str} (hs : blank.1 = [] → Fine s) :
    Fine (blank.1 ++ s) := by
  intro c hc hforeign
  by_cases hnil : blank.1 = []
  · rw [hnil, List.nil_append] at hc
    exact hs hnil c hc hforeign
  · rw [List.head?_append_of_ne_nil _ hnil] at hc
    have hspace := blank.2 c (List.mem_of_mem_head? hc)
    rw [hforeign.space] at hspace
    cases hspace

theorem fine_literal (l : Literal) (rest : Str) : Fine (l.digits ++ rest) := by
  intro c hc hforeign
  rw [List.head?_append_of_ne_nil _ l.ne_nil] at hc
  have hdigit := l.isDigit c (List.mem_of_mem_head? hc)
  rw [hforeign.digit] at hdigit
  cases hdigit

theorem fine_op (op : Op) (rest : Str) : Fine (op.char :: rest) := by
  intro c hc hforeign
  obtain rfl : op.char = c := Option.some.inj hc
  have hop := hforeign.operator
  rw [op.operatorType_char] at hop
  cases hop

/-- Only a foreign character right in front of it keeps a call from going on. -/
theorem progress_iff {text : Str} : Progress ⟨text, token⟩ ↔ Fine text := by
  have hadvance : Progress ⟨text, token⟩ ↔ (advance ⟨text, token⟩).it.length < text.length ∨
      (advance ⟨text, token⟩).token.type = .kEof ∧ (advance ⟨text, token⟩).it = [] := .rfl
  rw [hadvance]
  cases next text with
  | blank blank =>
    rw [advance_blank, ← List.append_nil blank.1]
    exact iff_of_true (.inr ⟨rfl, rfl⟩) (fine_blank blank fun _ => by simp [Fine])
  | literal blank l rest hrest =>
    have hlen := List.length_pos_iff.2 l.ne_nil
    rw [advance_literal blank l hrest]
    refine iff_of_true (.inl ?_) (fine_blank blank fun _ => fine_literal l rest)
    show rest.length < _
    rw [List.length_append, List.length_append]
    omega
  | op blank op rest =>
    rw [advance_op]
    refine iff_of_true (.inl ?_) (fine_blank blank fun _ => fine_op op rest)
    show rest.length < _
    rw [List.length_append, List.length_cons]
    omega
  | foreign blank c rest hc =>
    rw [advance_foreign blank hc]
    constructor
    · intro hprogress
      refine fine_blank blank fun hnil => ?_
      simp [hnil] at hprogress
    · intro hfine
      refine .inl ?_
      have hne : blank.1 ≠ [] := fun hnil => hfine c (by simp [hnil]) hc
      have hlen := List.length_pos_iff.2 hne
      show (c :: rest).length < _
      rw [List.length_append]
      omega

theorem eat_self (s : Interpretor) : s.eat s.token.type = .ok s.advance := if_neg (not_not.2 rfl)

end Interpretor

open Interpretor

section Loop

variable {s : Interpretor} {result : ℤ} {fuel : ℕ}

theorem exprLoop_kEof (h : s.token.type = .kEof) :
    exprLoop (fuel + 1) s result = some ⟨[], .ok result⟩ := if_pos h

theorem exprLoop_of_ne (h : s.token.type ≠ .kEof) (hright : s.advance.token.type ≠ .kInteger) :
    exprLoop (fuel + 1) s result = some ⟨[s], .error .assertion⟩ := by
  unfold exprLoop
  rw [if_neg h, eat_self]
  exact if_pos hright

theorem exprLoop_of_error (h : s.token.type ≠ .kEof) (hright : s.advance.token.type = .kInteger)
    {f : Failure} (happly : stoi s.advance.token.value >>= apply s.token.type result = .error f) :
    exprLoop (fuel + 1) s result = some ⟨[s, s.advance], .error f⟩ := by
  unfold exprLoop
  simp only [if_neg h, eat_self, if_neg (not_not.2 hright), happly]

theorem exprLoop_of_ok {result' : ℤ} (h : s.token.type ≠ .kEof)
    (hright : s.advance.token.type = .kInteger)
    (happly : stoi s.advance.token.value >>= apply s.token.type result = .ok result') :
    exprLoop (fuel + 1) s result =
      (exprLoop fuel s.advance.advance result').map (.after [s, s.advance]) := by
  conv_lhs => unfold exprLoop
  simp only [if_neg h, eat_self, if_neg (not_not.2 hright), happly]

end Loop

/-- The value of an operator: the division truncates. -/
def Op.eval : Op → ℤ → ℕ → ℤ
  | plus, result, v => result + v
  | minus, result, v => result - v
  | multiply, result, v => result * v
  | divide, result, v => result.tdiv v
  | mod, result, v => result.tmod v
  | power, result, v => result ^ v

/-- An operator with an integer behind it. -/
structure Step where
  before : Blank
  op : Op
  between : Blank
  right : Literal

def Step.text (step : Step) : Str :=
  step.before.1 ++ step.op.char :: (step.between.1 ++ step.right.digits)

def textOf (steps : List Step) : Str := steps.flatMap Step.text

/-- The left fold of the operators. -/
def fold (result : ℤ) (steps : List Step) : ℤ :=
  steps.foldl (fun result step => step.op.eval result step.right.value) result

/-- The integers fit, no divisor is zero, and every intermediate value fits. -/
structure Defined (result : ℤ) (steps : List Step) : Prop where
  literal : ∀ step ∈ steps, step.right.value < 2 ^ 31
  divisor : ∀ step ∈ steps, step.op = .divide ∨ step.op = .mod → step.right.value ≠ 0
  fits : ∀ k ≤ steps.length, Signed.Fits 32 (fold result (steps.take k))

structure Expression where
  before : Blank
  first : Literal
  steps : List Step
  behind : Blank

namespace Expression

def text (e : Expression) : Str :=
  e.before.1 ++ (e.first.digits ++ (textOf e.steps ++ e.behind.1))

def value (e : Expression) : ℤ := fold e.first.value e.steps

/-- The first integer fits too. -/
def Defined (e : Expression) : Prop :=
  e.first.value < 2 ^ 31 ∧ Calculator.Defined e.first.value e.steps

end Expression

theorem defined_nil {result : ℤ} (h : Signed.Fits 32 result) : Defined result [] :=
  ⟨by simp, by simp, fun k _ => by simpa [fold] using h⟩

theorem defined_cons {result : ℤ} {step : Step} {steps : List Step} :
    Defined result (step :: steps) ↔ Signed.Fits 32 result ∧ step.right.value < 2 ^ 31 ∧
      (step.op = .divide ∨ step.op = .mod → step.right.value ≠ 0) ∧
      Defined (step.op.eval result step.right.value) steps := by
  constructor
  · intro h
    refine ⟨by simpa [fold] using h.fits 0 (Nat.zero_le _), h.literal step List.mem_cons_self,
      h.divisor step List.mem_cons_self, ?_⟩
    exact ⟨fun s hs => h.literal s (List.mem_cons_of_mem step hs),
      fun s hs => h.divisor s (List.mem_cons_of_mem step hs),
      fun k hk => h.fits (k + 1) (Nat.succ_le_succ hk)⟩
  · rintro ⟨hfits, hliteral, hdivisor, h⟩
    refine ⟨List.forall_mem_cons.2 ⟨hliteral, h.literal⟩,
      List.forall_mem_cons.2 ⟨hdivisor, h.divisor⟩, fun k hk => ?_⟩
    cases k with
    | zero => simpa [fold] using hfits
    | succ k => exact h.fits k (Nat.le_of_succ_le_succ hk)

theorem Defined.fits_start {result : ℤ} {steps : List Step} (h : Defined result steps) :
    Signed.Fits 32 result := by
  simpa [fold] using h.fits 0 (Nat.zero_le _)

theorem stoi_digits (l : Literal) : stoi l.digits =
    if l.value < 2 ^ 31 then .ok l.value else .error .outOfRange := by
  have htake : l.digits.takeWhile Char.isDigit = l.digits := List.takeWhile_eq_self_iff.2 l.isDigit
  unfold stoi
  simp only [htake, if_neg l.ne_nil]
  rfl

theorem apply_type {op : Op} {result : ℤ} {v : ℕ} : apply op.type result v =
    if (op = .divide ∨ op = .mod) ∧ v = 0 then .error .undefined else int32 (op.eval result v) := by
  cases op <;> simp [apply, Op.type, Op.eval]

theorem noDigit_blank (blank : Blank) {s : Str} (hs : NoDigit s) : NoDigit (blank.1 ++ s) := by
  intro c hc
  by_cases hnil : blank.1 = []
  · rw [hnil, List.nil_append] at hc
    exact hs c hc
  · rw [List.head?_append_of_ne_nil _ hnil] at hc
    by_contra hdigit
    have hspace := isspace_of_isDigit (by simpa using hdigit)
    rw [blank.2 c (List.mem_of_mem_head? hc)] at hspace
    cases hspace

theorem noDigit_op (op : Op) (rest : Str) : NoDigit (op.char :: rest) := by
  intro c hc
  obtain rfl : op.char = c := Option.some.inj hc
  exact op.isDigit_char

theorem textOf_cons (step : Step) (steps : List Step) (rest : Str) :
    textOf (step :: steps) ++ rest = step.before.1 ++ step.op.char ::
      (step.between.1 ++ (step.right.digits ++ (textOf steps ++ rest))) := by
  simp [textOf, Step.text]

theorem noDigit_textOf (steps : List Step) {rest : Str} (hrest : NoDigit rest) :
    NoDigit (textOf steps ++ rest) := by
  cases steps with
  | nil => exact hrest
  | cons step steps =>
    rw [textOf_cons]
    exact noDigit_blank _ (noDigit_op _ _)

theorem fine_textOf (steps : List Step) {rest : Str} (hrest : Fine rest) :
    Fine (textOf steps ++ rest) := by
  cases steps with
  | nil => exact hrest
  | cons step steps =>
    rw [textOf_cons]
    exact fine_blank _ fun _ => fine_op _ _

theorem map_after_nil (o : Option Outcome) : o.map (.after []) = o := by
  cases o <;> rfl

theorem map_after_map_after (calls calls' : List Interpretor) (o : Option Outcome) :
    (o.map (Outcome.after calls')).map (Outcome.after calls) =
      o.map (Outcome.after (calls ++ calls')) := by
  cases o with
  | none => rfl
  | some o => simp [Outcome.after]

/-- The text behind the steps is left, and every call so far has gone on. -/
theorem exprLoop_steps {rest : Str} (hdigit : NoDigit rest) (hfine : Fine rest) :
    ∀ (steps : List Step) (fuel : ℕ) {result : ℤ} (token : Token), Defined result steps →
      ∃ calls token', (∀ s ∈ calls, Progress s) ∧
        exprLoop (steps.length + fuel) (advance ⟨textOf steps ++ rest, token⟩) result =
          (exprLoop fuel (advance ⟨rest, token'⟩) (fold result steps)).map (.after calls)
  | [], fuel, result, token, _ => by
    refine ⟨[], token, by simp, ?_⟩
    rw [map_after_nil, List.length_nil, Nat.zero_add]
    rfl
  | step :: steps, fuel, result, token, h => by
    obtain ⟨-, hliteral, hdivisor, hrest⟩ := defined_cons.1 h
    obtain ⟨calls, token', hcalls, hrun⟩ :=
      exprLoop_steps hdigit hfine steps fuel step.right.token hrest
    have hop : advance ⟨textOf (step :: steps) ++ rest, token⟩ =
        ⟨step.between.1 ++ (step.right.digits ++ (textOf steps ++ rest)), ⟨step.op.type, []⟩⟩ := by
      rw [textOf_cons, advance_op]
    have hright : advance ⟨step.between.1 ++ (step.right.digits ++ (textOf steps ++ rest)),
        ⟨step.op.type, []⟩⟩ = ⟨textOf steps ++ rest, step.right.token⟩ :=
      advance_literal _ _ (noDigit_textOf steps hdigit)
    have happly : stoi step.right.digits >>= apply step.op.type result =
        .ok (step.op.eval result step.right.value) := by
      rw [stoi_digits, if_pos hliteral]
      show apply step.op.type result step.right.value = _
      rw [apply_type, if_neg fun hzero => hdivisor hzero.1 hzero.2, int32, if_pos hrest.fits_start]
    refine ⟨[⟨step.between.1 ++ (step.right.digits ++ (textOf steps ++ rest)), ⟨step.op.type, []⟩⟩,
      ⟨textOf steps ++ rest, step.right.token⟩] ++ calls, token', ?_, ?_⟩
    · rw [List.forall_mem_append, List.forall_mem_cons, List.forall_mem_singleton]
      exact ⟨⟨progress_iff.2 (fine_blank _ fun _ => fine_literal _ _),
        progress_iff.2 (fine_textOf steps hfine)⟩, hcalls⟩
    · rw [List.length_cons, Nat.add_right_comm, hop, exprLoop_of_ok step.op.type_ne_kEof
        (by rw [hright]; rfl) (by rw [hright]; exact happly), hright, hrun, map_after_map_after]
      rfl

theorem length_le_textOf : ∀ steps : List Step, steps.length ≤ (textOf steps).length
  | [] => Nat.le_refl _
  | step :: steps => by
    have hcons := textOf_cons step steps []
    have hle := length_le_textOf steps
    rw [List.append_nil, List.append_nil] at hcons
    rw [hcons]
    simp only [List.length_append, List.length_cons]
    omega

/-- `Expr` of a text that begins with an integer that fits, and with steps that are defined. -/
theorem expr_steps (before : Blank) {first : Literal} (hfirst : first.value < 2 ^ 31)
    {steps : List Step} (h : Defined first.value steps) {rest : Str} (hdigit : NoDigit rest)
    (hfine : Fine rest) :
    ∃ calls token fuel, (∀ s ∈ calls, Progress s) ∧
      expr (before.1 ++ (first.digits ++ (textOf steps ++ rest))) =
        (exprLoop (fuel + 1) (advance ⟨rest, token⟩) (fold first.value steps)).map
          (.after calls) := by
  set text := before.1 ++ (first.digits ++ (textOf steps ++ rest)) with htext
  have hlen : steps.length ≤ text.length := by
    have hle := length_le_textOf steps
    simp only [htext, List.length_append]
    omega
  obtain ⟨calls, token, hcalls, hrun⟩ :=
    exprLoop_steps hdigit hfine steps (text.length - steps.length + 1) first.token h
  have hadvance : advance ⟨text, ⟨.kEof, []⟩⟩ = ⟨textOf steps ++ rest, first.token⟩ :=
    advance_literal before first (noDigit_textOf steps hdigit)
  have hstoi : stoi first.token.value = .ok first.value := (stoi_digits first).trans (if_pos hfirst)
  refine ⟨[⟨text, ⟨.kEof, []⟩⟩, ⟨textOf steps ++ rest, first.token⟩] ++ calls, token,
    text.length - steps.length, ?_, ?_⟩
  · rw [List.forall_mem_append, List.forall_mem_cons, List.forall_mem_singleton]
    exact ⟨⟨progress_iff.2 (fine_blank _ fun _ => fine_literal _ _),
      progress_iff.2 (fine_textOf steps hfine)⟩, hcalls⟩
  · rw [← map_after_map_after, ← hrun, ← Nat.add_assoc, Nat.add_sub_cancel' hlen]
    unfold expr
    simp only [hadvance, hstoi]
    rfl

theorem noDigit_behind (behind : Blank) : NoDigit behind.1 := by
  rw [← List.append_nil behind.1]
  exact noDigit_blank behind (by simp [NoDigit])

theorem fine_behind (behind : Blank) : Fine behind.1 := by
  rw [← List.append_nil behind.1]
  exact fine_blank behind fun _ => by simp [Fine]

/-- `Expr` of an expression that is defined returns its value, and every call goes on. -/
theorem exists_calls (e : Expression) (h : e.Defined) :
    ∃ calls, (∀ s ∈ calls, Progress s) ∧ expr e.text = some ⟨calls, .ok e.value⟩ := by
  obtain ⟨calls, token, fuel, hcalls, hrun⟩ :=
    expr_steps e.before h.1 h.2 (noDigit_behind e.behind) (fine_behind e.behind)
  refine ⟨calls, hcalls, hrun.trans ?_⟩
  rw [advance_blank, exprLoop_kEof rfl, Option.map_some]
  unfold Outcome.after
  rw [List.append_nil]
  rfl

/-- The calculator evaluates from the left to the right. -/
theorem expr_text (e : Expression) (h : e.Defined) :
    (expr e.text).map Outcome.result = some (.ok e.value) := by
  obtain ⟨calls, -, hrun⟩ := exists_calls e h
  rw [hrun]
  rfl

/-- The text 7 - 2 * 3, with white space in front and behind. -/
theorem expr_text_three : (expr [' ', '7', '-', '\t', '2', '*', '3', ' ']).map Outcome.result =
    some (.ok 15) :=
  let seven : Literal := ⟨['7'], List.cons_ne_nil _ _, List.forall_mem_singleton.2 rfl⟩
  let two : Literal := ⟨['2'], List.cons_ne_nil _ _, List.forall_mem_singleton.2 rfl⟩
  let three : Literal := ⟨['3'], List.cons_ne_nil _ _, List.forall_mem_singleton.2 rfl⟩
  let space : Blank := ⟨[' '], List.forall_mem_singleton.2 rfl⟩
  let tab : Blank := ⟨['\t'], List.forall_mem_singleton.2 rfl⟩
  let none : Blank := ⟨[], List.forall_mem_nil _⟩
  expr_text
    { before := space, first := seven,
      steps := [⟨none, .minus, tab, two⟩, ⟨none, .multiply, none, three⟩],
      behind := space }
    ⟨by decide, defined_cons.2 ⟨by decide, by decide, by decide,
      defined_cons.2 ⟨by decide, by decide, by decide, defined_nil (by decide)⟩⟩⟩

end CPPCodes.Calculator
