import Mathlib.Data.Nat.Notation
import Mathlib.Tactic.SplitIfs

/-!
# Tokens

Token.h and Token.cpp. The type of a token is read off its text, a two-character text that begins
like an operator and does not end like one stops at an assert, and a text that is no operator is an
operand: a keyword or an identifier. Precedence and associativity are the type's.
-/

namespace CPPCodes.Cities

/-- A string of bytes. -/
abbrev Str := List Char

/-- What a call ends in when it does not return. -/
inductive Fault
  | assertion
  | undefined
  | invalidArgument
  | outOfRange
  deriving DecidableEq, Repr

/-- The call ends in an exception, after which the program can go on. -/
def Fault.throws : Fault → Bool
  | assertion | undefined => false
  | invalidArgument | outOfRange => true

inductive TokenType
  | OR
  | AND
  | EQ
  | NEQ
  | LT
  | LE
  | GT
  | GE
  | UNARY
  | ID
  | KEYWORD
  deriving DecidableEq, Repr

inductive AssocType
  | LEFT
  | RIGHT
  deriving DecidableEq, Repr

namespace TokenType

/-- The precedence of a type in `table`. -/
def getTokenPrecedence : TokenType → ℕ
  | OR => 1
  | AND => 2
  | EQ | NEQ => 3
  | LT | LE | GT | GE => 4
  | UNARY => 5
  | ID | KEYWORD => 6

/-- The associativity of a type in `table`. -/
def getTokenAssociativity : TokenType → AssocType
  | UNARY => .RIGHT
  | _ => .LEFT

/-- The types that `query` gives to `queryOperator`. -/
def isComparison : TokenType → Bool
  | EQ | NEQ | LT | LE | GT | GE => true
  | _ => false

end TokenType

structure Token where
  type : TokenType
  value : Str
  deriving DecidableEq, Repr

namespace Token

/-- A keyword is an operator here; the parser and the query ask for operands first. -/
def isOperator (t : Token) : Bool := t.type ≠ .ID

def isOperand (t : Token) : Bool := t.type = .ID ∨ t.type = .KEYWORD

def isKeyWord (t : Token) : Bool := t.type = .KEYWORD

def precedence (t : Token) : ℕ := t.type.getTokenPrecedence

def associativity (t : Token) : AssocType := t.type.getTokenAssociativity

def isComparison (t : Token) : Bool := t.type.isComparison

/-- The types `AND` and `OR`. -/
def isConnective (t : Token) : Bool := t.type = .AND ∨ t.type = .OR

end Token

def stringToToken : Str → Except Fault TokenType
  | ['<'] => .ok .LT
  | ['>'] => .ok .GT
  | ['-'] => .ok .UNARY
  | ['<', c] => if c = '=' then .ok .LE else .error .assertion
  | ['>', c] => if c = '=' then .ok .GE else .error .assertion
  | ['=', c] => if c = '=' then .ok .EQ else .error .assertion
  | ['!', c] => if c = '=' then .ok .NEQ else .error .assertion
  | ['&', c] => if c = '&' then .ok .AND else .error .assertion
  | ['|', c] => if c = '|' then .ok .OR else .error .assertion
  | _ => .ok .ID

/-- One turn of the loop of `tokanize`. -/
def toToken (keywords : List Str) (e : Str) : Except Fault Token := do
  let t ← stringToToken e
  if t = .ID ∧ e ∈ keywords then return ⟨.KEYWORD, e⟩ else return ⟨t, e⟩

def tokanize (stoken keywords : List Str) : Except Fault (List Token) :=
  stoken.mapM (toToken keywords)

end CPPCodes.Cities
