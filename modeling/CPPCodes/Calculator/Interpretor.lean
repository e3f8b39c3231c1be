import CPPCodes.Lib.Signed
import Mathlib.Algebra.Group.Int.Defs
import Mathlib.Data.Int.Order.Basic
import Mathlib.Data.List.Basic
import Mathlib.Tactic.Common

/-!
# The interpreter of the calculator

`Interpretor` of Calculator.cpp. The label of the last case of the `switch` in `NextToken` is
misspelt, so `Error` is not called there: for any other character the call returns the current token
once more. A run of `Expr` has with it the states in which it calls `NextToken`.
-/

namespace CPPCodes.Calculator

/-- A string of bytes. -/
abbrev Str := List Char

/-- What a call ends in when it does not return. -/
inductive Failure
  | runtimeError
  | invalidArgument
  | outOfRange
  | assertion
  | undefined
deriving DecidableEq, Repr

/-- The call ends in an exception. -/
def Failure.throws : Failure → Bool
  | runtimeError | invalidArgument | outOfRange => true
  | assertion | undefined => false

inductive TokenType
  | kEof
  | kInteger
  | kPlus
  | kMinus
  | kMultiply
  | kDivide
  | kMod
  | kPower
deriving DecidableEq, Repr

structure Token where
  type : TokenType
  value : Str
deriving DecidableEq, Repr

/-- The text from `it_` to `end_`, and `current_.token_`. -/
structure Interpretor where
  it : Str
  token : Token
deriving DecidableEq, Repr

def isspace (c : Char) : Bool := c ∈ [' ', '\t', '\n', '\x0b', '\x0c', '\r']

/-- The cases of the `switch` in `NextToken`. -/
def operatorType : Char → Option TokenType
  | '+' => some .kPlus
  | '-' => some .kMinus
  | '*' => some .kMultiply
  | '/' => some .kDivide
  | '%' => some .kMod
  | '^' => some .kPower
  | _ => none

/-- `std::stoi` of the value of a token, in which there is no white space and no sign. -/
def stoi (value : Str) : Except Failure ℕ :=
  let digits := value.takeWhile Char.isDigit
  if digits = [] then .error .invalidArgument
  else if Nat.ofDigitChars 10 digits 0 < 2 ^ 31 then .ok (Nat.ofDigitChars 10 digits 0)
  else .error .outOfRange

/-- An `int32_t`, which a result that does not fit leaves undefined. -/
def int32 (x : ℤ) : Except Failure ℤ := if Signed.Fits 32 x then .ok x else .error .undefined

/-- The `switch` of `Expr`, where `std::pow` is exact on a result that fits. -/
def apply (op : TokenType) (result : ℤ) (v : ℕ) : Except Failure ℤ :=
  match op with
  | .kPlus => int32 (result + v)
  | .kMinus => int32 (result - v)
  | .kMultiply => int32 (result * v)
  | .kDivide => if v = 0 then .error .undefined else int32 (result.tdiv v)
  | .kMod => if v = 0 then .error .undefined else int32 (result.tmod v)
  | .kPower => int32 (result ^ v)
  | .kEof | .kInteger => .error .assertion

namespace Interpretor

/-- `Error`, which reads the character at `it_`. -/
def error (s : Interpretor) : Failure := if s.it = [] then .undefined else .runtimeError

/-- The token at `it_`, where there is no white space. -/
def tokenAt (current : Token) : Str → Token × Str
  | [] => (⟨.kEof, []⟩, [])
  | c :: rest =>
    if c.isDigit then
      (⟨.kInteger, (c :: rest).takeWhile Char.isDigit⟩, (c :: rest).dropWhile Char.isDigit)
    else match operatorType c with
      | some type => (⟨type, []⟩, rest)
      | none => (current, c :: rest)

/-- `NextToken`: the token, and the text behind it. -/
def nextToken (s : Interpretor) : Token × Str := tokenAt s.token (s.it.dropWhile isspace)

/-- `current_.token_ = NextToken()`. -/
def advance (s : Interpretor) : Interpretor := ⟨s.nextToken.2, s.nextToken.1⟩

def eat (s : Interpretor) (type : TokenType) : Except Failure Interpretor :=
  if type ≠ s.token.type then .error s.error else .ok s.advance

end Interpretor

/-- What a run comes to, and the states in which it calls `NextToken`. -/
structure Outcome where
  calls : List Interpretor
  result : Except Failure ℤ

/-- The run has calls in front. -/
def Outcome.after (calls : List Interpretor) (o : Outcome) : Outcome :=
  { o with calls := calls ++ o.calls }

/-- The loop of `Expr`, in at most `fuel` turns. -/
def exprLoop : ℕ → Interpretor → (result : ℤ) → Option Outcome
  | 0, _, _ => none
  | fuel + 1, s, result =>
    if s.token.type = .kEof then some ⟨[], .ok result⟩
    else match s.eat s.token.type with
      | .error f => some ⟨[], .error f⟩
      | .ok s₁ =>
        if s₁.token.type ≠ .kInteger then some ⟨[s], .error .assertion⟩
        else match s₁.eat s₁.token.type with
          | .error f => some ⟨[s], .error f⟩
          | .ok s₂ =>
            match stoi s₁.token.value >>= apply s.token.type result with
            | .error f => some ⟨[s, s₁], .error f⟩
            | .ok result => (exprLoop fuel s₂ result).map (.after [s, s₁])

/-- `Expr`, whose loop has no more turns than the text has characters. -/
def expr (text : Str) : Option Outcome :=
  let s : Interpretor := ⟨text, ⟨.kEof, []⟩⟩
  let s₁ := s.advance
  if s₁.token.type ≠ .kInteger then some ⟨[s], .error .assertion⟩
  else match stoi s₁.token.value with
    | .error f => some ⟨[s], .error f⟩
    | .ok v =>
      match s₁.eat s₁.token.type with
      | .error f => some ⟨[s], .error f⟩
      | .ok s₂ => (exprLoop (text.length + 1) s₂ v).map (.after [s, s₁])

example : (expr ['1', '+', ' ', '2', '*', '3']).map Outcome.result = some (.ok 9) := by rfl

end CPPCodes.Calculator
