import CPPCodes.Cities.Answers
import Mathlib.Data.List.TakeWhile

/-!
# Formulas

The queries people write: comparisons of a keyword with a number, on either side of the operator,
joined by `&&` and `||`. A comparison holds for a city when some value of its range satisfies it as
written. `tokanize` and the parser take a formula apart as one would (`recursiveDecent_formula`).
-/

namespace CPPCodes.Cities

inductive Sign
  | none
  | plus
  | minus

def Sign.text : Sign → Str
  | .none => []
  | .plus => ['+']
  | .minus => ['-']

def Sign.neg : Sign → Bool
  | .minus => true
  | _ => false

/-- An `int64_t` in decimal. -/
structure Literal where
  sign : Sign
  digits : Str
  ne_nil : digits ≠ []
  isDigit : ∀ d ∈ digits, d.isDigit = true
  range : Int64.minValue.toInt ≤ signed sign.neg digits ∧
    signed sign.neg digits ≤ Int64.maxValue.toInt

namespace Literal

def text (v : Literal) : Str := v.sign.text ++ v.digits

def value (v : Literal) : ℤ := signed v.sign.neg v.digits

theorem digit_facts {d : Char} (hd : d.isDigit = true) : isSpace d = false ∧ d ∉ ['-', '+', ' '] ∧
    d ∉ ['<', '>', '=', '!', '&', '|', 'T', 'H'] := by
  refine ⟨?_, fun h => ?_, fun h => ?_⟩
  · by_contra hs
    rw [Bool.not_eq_false, isSpace, decide_eq_true_eq] at hs
    simp only [List.mem_cons, List.not_mem_nil, or_false] at hs
    rcases hs with rfl | rfl | rfl | rfl | rfl | rfl <;> exact absurd hd (by decide)
  · simp only [List.mem_cons, List.not_mem_nil, or_false] at h
    rcases h with rfl | rfl | rfl <;> exact absurd hd (by decide)
  · simp only [List.mem_cons, List.not_mem_nil, or_false] at h
    rcases h with rfl | rfl | rfl | rfl | rfl | rfl | rfl | rfl <;> exact absurd hd (by decide)

theorem digits_eq (v : Literal) : ∃ d ds, v.digits = d :: ds ∧ d.isDigit = true := by
  cases h : v.digits with
  | nil => exact absurd h v.ne_nil
  | cons d ds => exact ⟨d, ds, rfl, v.isDigit d (by simp [h])⟩

theorem takeSign_text (v : Literal) :
    takeSign (v.text.dropWhile isSpace) = (v.sign.neg, v.digits) := by
  obtain ⟨d, ds, hds, hd⟩ := v.digits_eq
  obtain ⟨hspace, hsign, -⟩ := digit_facts hd
  unfold text
  cases v.sign with
  | none =>
    rw [Sign.text, List.nil_append, hds, List.dropWhile_cons_of_neg (by simp [hspace])]
    unfold takeSign
    split
    · simp_all
    · simp_all
    · rfl
  | plus => rfl
  | minus => rfl

theorem stoll_text (v : Literal) : stoll v.text = .ok (Int64.ofInt v.value) := by
  have htake : v.digits.takeWhile Char.isDigit = v.digits :=
    List.takeWhile_eq_self_iff.2 v.isDigit
  simp only [stoll, takeSign_text, htake, if_neg v.ne_nil, if_pos v.range]
  rfl

theorem startsNumber_text (v : Literal) : startsNumber v.text = true := by
  obtain ⟨d, ds, hds, hd⟩ := v.digits_eq
  obtain ⟨-, hsign, -⟩ := digit_facts hd
  unfold text
  cases v.sign with
  | none =>
    rw [Sign.text, List.nil_append, hds]
    unfold startsNumber
    split <;> simp_all
  | plus => simp [Sign.text, hds, startsNumber, hd]
  | minus => simp [Sign.text, hds, startsNumber, hd]

theorem stringToToken_text (v : Literal) : stringToToken v.text = .ok .ID := by
  obtain ⟨d, ds, hds, hd⟩ := v.digits_eq
  obtain ⟨-, hsign, hop⟩ := digit_facts hd
  unfold text
  rw [hds]
  cases v.sign with
  | none =>
    show stringToToken (d :: ds) = .ok .ID
    unfold stringToToken
    split <;> simp_all
  | plus => cases ds <;> rfl
  | minus => cases ds <;> rfl

theorem text_notMem_keywords (v : Literal) : v.text ∉ keywords := by
  obtain ⟨d, ds, hds, hd⟩ := v.digits_eq
  obtain ⟨-, -, hop⟩ := digit_facts hd
  unfold text
  rw [hds]
  intro h
  cases hs : v.sign <;> rw [hs] at h <;> simp_all [keywords, Sign.text]

theorem toToken_text (v : Literal) : toToken keywords v.text = .ok ⟨.ID, v.text⟩ := by
  unfold toToken
  rw [v.stringToToken_text]
  exact if_neg fun h => v.text_notMem_keywords h.2

end Literal

inductive Op
  | eq
  | lt
  | le
  | gt
  | ge
  deriving DecidableEq

namespace Op

def text : Op → Str
  | eq => ['=', '=']
  | lt => ['<']
  | le => ['<', '=']
  | gt => ['>']
  | ge => ['>', '=']

def type : Op → TokenType
  | eq => .EQ
  | lt => .LT
  | le => .LE
  | gt => .GT
  | ge => .GE

def Holds : Op → ℤ → ℤ → Prop
  | eq, a, b => a = b
  | lt, a, b => a < b
  | le, a, b => a ≤ b
  | gt, a, b => b < a
  | ge, a, b => b ≤ a

end Op

def IndexAttribute.text : IndexAttribute → Str
  | .TEMPERATURE => ['T']
  | .HUMIDITY => ['H']

/-- A keyword and a number, the number first when the two are swapped. -/
structure Comparison where
  key : IndexAttribute
  op : Op
  literal : Literal
  swapped : Bool

namespace Comparison

def words (c : Comparison) : List Str :=
  if c.swapped then [c.literal.text, c.op.text, c.key.text]
  else [c.key.text, c.op.text, c.literal.text]

/-- Some value in the city's range satisfies the comparison as written. -/
def Sat (c : Comparison) (x : City) : Prop :=
  ∃ t, (x.range c.key).Contains t ∧
    if c.swapped then c.op.Holds c.literal.value t else c.op.Holds t c.literal.value

def keyToken (c : Comparison) : Token := ⟨.KEYWORD, c.key.text⟩

def opToken (c : Comparison) : Token := ⟨c.op.type, c.op.text⟩

def literalToken (c : Comparison) : Token := ⟨.ID, c.literal.text⟩

/-- The comparison as the parser sees it. -/
def clause (c : Comparison) : Clause where
  l := if c.swapped then c.literalToken else c.keyToken
  op := c.opToken
  r := if c.swapped then c.keyToken else c.literalToken
  operands := by cases c.swapped <;> exact ⟨rfl, rfl⟩
  comparison := by
    obtain ⟨_, op, _, _⟩ := c
    cases op <;> rfl

theorem tokanize_words (c : Comparison) : tokanize c.words keywords = .ok c.clause.inOrder := by
  have hkey : toToken keywords c.key.text = .ok c.keyToken := by
    unfold keyToken
    cases c.key <;> rfl
  have hop : toToken keywords c.op.text = .ok c.opToken := by
    unfold opToken
    cases c.op <;> rfl
  have hliteral : toToken keywords c.literal.text = .ok c.literalToken := c.literal.toToken_text
  obtain ⟨key, op, literal, swapped⟩ := c
  cases swapped with
  | false =>
    show [key.text, op.text, literal.text].mapM (toToken keywords) = _
    rw [List.mapM_cons, List.mapM_cons, List.mapM_cons, hkey, hop, hliteral]
    rfl
  | true =>
    show [literal.text, op.text, key.text].mapM (toToken keywords) = _
    rw [List.mapM_cons, List.mapM_cons, List.mapM_cons, hkey, hop, hliteral]
    rfl

end Comparison

/-- `&&` binds tighter than `||`. -/
abbrev Formula := Disj Comparison

section

variable {α β : Type}

def Conj.Holds (p : α → Prop) : Conj α → Prop
  | .one c => p c
  | .and l r => l.Holds p ∧ p r

def Disj.Holds (p : α → Prop) : Disj α → Prop
  | .one k => k.Holds p
  | .or l r => l.Holds p ∨ r.Holds p

/-- Every comparison has the property. -/
def Disj.All (p : α → Prop) : Disj α → Prop
  | .one k => k.Holds p
  | .or l r => l.All p ∧ r.Holds p

end

namespace Formula

def words (f : Formula) : List Str := f.inOrder Comparison.words [['&', '&']] [['|', '|']]

def Sat (f : Formula) (x : City) : Prop := f.Holds fun c => c.Sat x

/-- The postorder of a formula's tokens. -/
def tokens (f : Formula) : List Token :=
  f.postOrder (fun c => c.clause.postOrder) [tokenAnd] [tokenOr]

end Formula

theorem tokanize_append {ws vs : List Str} {ts us : List Token}
    (hw : tokanize ws keywords = .ok ts) (hv : tokanize vs keywords = .ok us) :
    tokanize (ws ++ vs) keywords = .ok (ts ++ us) := by
  unfold tokanize at hw hv ⊢
  rw [List.mapM_append, hw, hv]
  rfl

theorem Conj.tokanize_words : ∀ k : Conj Comparison,
    tokanize (k.inOrder Comparison.words [['&', '&']]) keywords
      = .ok (k.inOrder (fun c => c.clause.inOrder) [tokenAnd])
  | .one c => c.tokanize_words
  | .and l r => tokanize_append l.tokanize_words (tokanize_append rfl r.tokanize_words)

theorem Formula.tokanize_words : ∀ f : Formula,
    tokanize f.words keywords = .ok (f.inOrder (fun c => c.clause.inOrder) [tokenAnd] [tokenOr])
  | .one k => k.tokanize_words
  | .or l r =>
    tokanize_append (Formula.tokanize_words l) (tokanize_append rfl r.tokanize_words)

/-- What the parser makes of a formula, however it is spaced. -/
theorem recursiveDecent_formula {f : Formula} {q : Str} (hq : Spaced f.words q) :
    recursiveDecent q keywords = .ok f.tokens := by
  unfold recursiveDecent
  rw [split_spaced hq, f.tokanize_words]
  exact congrArg Except.ok (parseLoop_disj Comparison.clause f)

end CPPCodes.Cities
