import CPPCodes.Cities.Token
import Mathlib.Data.List.Basic

/-!
# The query parser

parser.cpp: `split` and the loop that brings operators behind their operands. What the two loops
append to `outQ` is the list they return here. On comparisons joined by `&&` and `||` the result is
the postorder of the tree in which `&&` binds tighter and equal connectives associate to the
left (`parse_disj`).
-/

namespace CPPCodes.Cities

/-- The rest of the line when the characters `acc`, in reverse order, lie between `s` and the
position of the search. The part after the last delimiter is always appended, for there `s != e`. -/
def splitFrom (delim : Char) (acc : Str) : Str → List Str
  | [] => [acc.reverse]
  | c :: line =>
    if c = delim then
      if acc ≠ [] then acc.reverse :: splitFrom delim [] line else splitFrom delim [] line
    else splitFrom delim (c :: acc) line

def split (line : Str) (delim : Char) : List Str := splitFrom delim [] line

/-- Words with one space or more between them and any number before the first. -/
inductive Spaced : List Str → Str → Prop
  | last {w : Str} : ' ' ∉ w → Spaced [w] w
  | word {w line : Str} {ws : List Str} :
      w ≠ [] → ' ' ∉ w → Spaced ws line → Spaced (w :: ws) (w ++ ' ' :: line)
  | space {line : Str} {ws : List Str} : Spaced ws line → Spaced ws (' ' :: line)

theorem splitFrom_word {delim : Char} {w : Str} (hw : delim ∉ w) (acc rest : Str) :
    splitFrom delim acc (w ++ rest) = splitFrom delim (w.reverse ++ acc) rest := by
  induction w generalizing acc with
  | nil => rfl
  | cons c w ih =>
    obtain ⟨hc, hw⟩ := List.ne_and_not_mem_of_not_mem_cons hw
    rw [List.cons_append, splitFrom, if_neg (Ne.symm hc), ih hw, List.reverse_cons,
      List.append_assoc]
    rfl

theorem split_spaced {ws : List Str} {line : Str} (h : Spaced ws line) : split line ' ' = ws := by
  induction h with
  | @last w hw =>
    have h := splitFrom_word hw [] []
    rw [List.append_nil, List.append_nil] at h
    rw [split, h, splitFrom, List.reverse_reverse]
  | @word w line ws hne hw _ ih =>
    rw [split, splitFrom_word hw, splitFrom, if_pos rfl, List.append_nil,
      if_pos (by simpa using hne), List.reverse_reverse]
    exact congrArg (w :: ·) ih
  | space _ ih =>
    rw [split, splitFrom, if_pos rfl, if_neg (by simp)]
    exact ih

/-- Whether the inner loop pops `top` before `e` is pushed. -/
def Token.pops (e top : Token) : Bool :=
  match e.associativity with
  | .LEFT => e.precedence ≤ top.precedence
  | .RIGHT => e.precedence < top.precedence

/-- The outer loop and the one after it, from the operators on the stack, the top first. -/
def parseLoop : List Token → List Token → List Token
  | [], stack => stack
  | e :: tokens, stack =>
    if e.isOperand then e :: parseLoop tokens stack
    else stack.takeWhile e.pops ++ parseLoop tokens (e :: stack.dropWhile e.pops)

def recursiveDecent (expr : Str) (keywords : List Str) : Except Fault (List Token) := do
  let tokens ← tokanize (split expr ' ') keywords
  return parseLoop tokens []

theorem parseLoop_perm : ∀ tokens stack : List Token,
    (parseLoop tokens stack).Perm (tokens ++ stack)
  | [], stack => .refl stack
  | e :: tokens, stack => by
    unfold parseLoop
    split_ifs
    · exact (parseLoop_perm tokens stack).cons e
    · have ih := parseLoop_perm tokens (e :: stack.dropWhile e.pops)
      have hmid : (stack.takeWhile e.pops ++ (tokens ++ e :: stack.dropWhile e.pops)).Perm
          (e :: (stack.takeWhile e.pops ++ (tokens ++ stack.dropWhile e.pops))) :=
        (List.perm_middle.append_left _).trans List.perm_middle
      have hcomm : (stack.takeWhile e.pops ++ (tokens ++ stack.dropWhile e.pops)).Perm
          (tokens ++ stack) := by
        have h := List.perm_append_comm_assoc (stack.takeWhile e.pops) tokens
          (stack.dropWhile e.pops)
        rwa [List.takeWhile_append_dropWhile] at h
      exact (ih.append_left _).trans (hmid.trans (hcomm.cons e))

/-- Comparisons joined by `&&`, to the left. -/
inductive Conj (α : Type)
  | one (c : α)
  | and (l : Conj α) (r : α)

/-- Conjunctions joined by `||`, to the left. -/
inductive Disj (α : Type)
  | one (k : Conj α)
  | or (l : Disj α) (r : Conj α)

def tokenAnd : Token := ⟨.AND, ['&', '&']⟩

def tokenOr : Token := ⟨.OR, ['|', '|']⟩

section Forms

variable {α β : Type}

/-- A list for each comparison and one for each connective between its sides. -/
def Conj.inOrder (f : α → List β) (and : List β) : Conj α → List β
  | .one c => f c
  | .and l r => l.inOrder f and ++ (and ++ f r)

/-- A list for each comparison and one for each connective behind its sides. -/
def Conj.postOrder (f : α → List β) (and : List β) : Conj α → List β
  | .one c => f c
  | .and l r => l.postOrder f and ++ (f r ++ and)

def Disj.inOrder (f : α → List β) (and or : List β) : Disj α → List β
  | .one k => k.inOrder f and
  | .or l r => l.inOrder f and or ++ (or ++ r.inOrder f and)

def Disj.postOrder (f : α → List β) (and or : List β) : Disj α → List β
  | .one k => k.postOrder f and
  | .or l r => l.postOrder f and or ++ (r.postOrder f and ++ or)

end Forms

/-- A comparison as the parser sees it. -/
structure Clause where
  l : Token
  op : Token
  r : Token
  operands : l.isOperand = true ∧ r.isOperand = true
  comparison : op.isComparison = true

namespace Clause

def inOrder (c : Clause) : List Token := [c.l, c.op, c.r]

def postOrder (c : Clause) : List Token := [c.l, c.r, c.op]

theorem op_facts (c : Clause) :
    c.op.isOperand = false ∧ c.op.associativity = .LEFT ∧ 3 ≤ c.op.precedence := by
  have h := c.comparison
  unfold Token.isComparison at h
  unfold Token.isOperand Token.associativity Token.precedence
  cases ht : c.op.type <;> rw [ht] at h <;> revert h <;> decide

end Clause

/-- The stack holds nothing that an operator of precedence `p` pops. -/
def Below (p : ℕ) (stack : List Token) : Prop := ∀ t ∈ stack, t.precedence < p

theorem unwind {e : Token} (he : e.associativity = .LEFT) {pend stack : List Token}
    (hp : ∀ t ∈ pend, e.precedence ≤ t.precedence) (hs : Below e.precedence stack) :
    (pend ++ stack).takeWhile e.pops = pend ∧ (pend ++ stack).dropWhile e.pops = stack := by
  have hpops : ∀ t, e.pops t = decide (e.precedence ≤ t.precedence) := fun t => by
    rw [Token.pops, he]
  induction pend with
  | nil =>
    cases stack with
    | nil => exact ⟨rfl, rfl⟩
    | cons t stack =>
      have ht : e.pops t = false := by simpa [hpops] using hs t List.mem_cons_self
      simp [ht]
  | cons t pend ih =>
    have ht : e.pops t = true := by simpa [hpops] using hp t List.mem_cons_self
    simpa [ht] using ih fun t' h' => hp t' (List.mem_cons_of_mem _ h')

theorem parse_operator {e : Token} (ho : e.isOperand = false) (he : e.associativity = .LEFT)
    (pend stack : List Token) (hp : ∀ t ∈ pend, e.precedence ≤ t.precedence)
    (hs : Below e.precedence stack) (tokens : List Token) :
    parseLoop (e :: tokens) (pend ++ stack) = pend ++ parseLoop tokens (e :: stack) := by
  obtain ⟨htake, hdrop⟩ := unwind he hp hs
  rw [parseLoop, if_neg (by simp [ho]), htake, hdrop]

theorem parse_clause (c : Clause) (stack : List Token) (hs : Below 3 stack) (tokens : List Token) :
    parseLoop (c.inOrder ++ tokens) stack = [c.l, c.r] ++ parseLoop tokens (c.op :: stack) := by
  obtain ⟨ho, he, hp⟩ := c.op_facts
  have hop := parse_operator ho he [] stack (by simp)
    (fun t ht => Nat.lt_of_lt_of_le (hs t ht) hp) (c.r :: tokens)
  show parseLoop (c.l :: c.op :: c.r :: tokens) stack = _
  rw [parseLoop, if_pos c.operands.1]
  rw [List.nil_append, List.nil_append] at hop
  rw [hop, parseLoop, if_pos c.operands.2]
  rfl

section

variable {α : Type} (f : α → Clause)

/-- The loop over a conjunction leaves its last operators on the stack; what it has put out and
these are its postorder. -/
theorem parse_conj (stack : List Token) (hs : Below 2 stack) :
    ∀ (k : Conj α) (tokens : List Token), ∃ out pend,
      out ++ pend = k.postOrder (fun c => (f c).postOrder) [tokenAnd] ∧
      (∀ t ∈ pend, 2 ≤ t.precedence) ∧
      parseLoop (k.inOrder (fun c => (f c).inOrder) [tokenAnd] ++ tokens) stack
        = out ++ parseLoop tokens (pend ++ stack)
  | .one c, tokens => by
    obtain ⟨-, -, hp⟩ := (f c).op_facts
    refine ⟨[(f c).l, (f c).r], [(f c).op], rfl, fun t ht => ?_, ?_⟩
    · rw [List.mem_singleton.1 ht]
      omega
    · exact parse_clause (f c) stack (fun t ht => Nat.lt_succ_of_lt (hs t ht)) tokens
  | .and l c, tokens => by
    obtain ⟨out, pend, hpost, hpend, hl⟩ :=
      parse_conj stack hs l (tokenAnd :: ((f c).inOrder ++ tokens))
    obtain ⟨-, -, hp⟩ := (f c).op_facts
    refine ⟨out ++ pend ++ [(f c).l, (f c).r], [(f c).op, tokenAnd], ?_, fun t ht => ?_, ?_⟩
    · rw [Conj.postOrder, ← hpost, List.append_assoc]
      rfl
    · rcases List.mem_pair.1 ht with rfl | rfl
      · omega
      · decide
    · have hand := parse_operator (e := tokenAnd) rfl rfl pend stack hpend hs
        ((f c).inOrder ++ tokens)
      have hc := parse_clause (f c) (tokenAnd :: stack)
        (fun t ht => by
          rcases List.mem_cons.1 ht with rfl | ht
          · decide
          · exact Nat.lt_succ_of_lt (hs t ht)) tokens
      rw [Conj.inOrder, List.append_assoc, List.append_assoc, List.singleton_append, hl, hand, hc]
      simp

theorem parse_disj : ∀ (d : Disj α) (tokens : List Token), ∃ out pend,
    out ++ pend = d.postOrder (fun c => (f c).postOrder) [tokenAnd] [tokenOr] ∧
    (∀ t ∈ pend, 1 ≤ t.precedence) ∧
    parseLoop (d.inOrder (fun c => (f c).inOrder) [tokenAnd] [tokenOr] ++ tokens) []
      = out ++ parseLoop tokens pend
  | .one k, tokens => by
    obtain ⟨out, pend, hpost, hpend, hk⟩ := parse_conj f [] (fun t ht => by simp at ht) k
      tokens
    rw [List.append_nil] at hk
    exact ⟨out, pend, hpost, fun t ht => Nat.le_of_succ_le (hpend t ht), hk⟩
  | .or l k, tokens => by
    obtain ⟨out, pend, hpost, hpend, hl⟩ := parse_disj l
      (tokenOr :: (k.inOrder (fun c => (f c).inOrder) [tokenAnd] ++ tokens))
    obtain ⟨out', pend', hpost', hpend', hk⟩ := parse_conj f [tokenOr]
      (fun t ht => by rw [List.mem_singleton.1 ht]; decide) k tokens
    refine ⟨out ++ pend ++ out', pend' ++ [tokenOr], ?_, fun t ht => ?_, ?_⟩
    · simp [Disj.postOrder, ← hpost, ← hpost']
    · rcases List.mem_append.1 ht with ht | ht
      · exact Nat.le_of_succ_le (hpend' t ht)
      · rw [List.mem_singleton.1 ht]
        decide
    · have hor := parse_operator (show tokenOr.isOperand = false from rfl) rfl pend [] hpend
        (fun t ht => by simp at ht) (k.inOrder (fun c => (f c).inOrder) [tokenAnd] ++ tokens)
      rw [List.append_nil] at hor
      rw [Disj.inOrder, List.append_assoc, List.append_assoc, List.singleton_append, hl, hor, hk]
      simp

/-- The parser's output is the postorder. -/
theorem parseLoop_disj (d : Disj α) :
    parseLoop (d.inOrder (fun c => (f c).inOrder) [tokenAnd] [tokenOr]) []
      = d.postOrder (fun c => (f c).postOrder) [tokenAnd] [tokenOr] := by
  obtain ⟨out, pend, hpost, -, hd⟩ := parse_disj f d []
  rw [List.append_nil] at hd
  rw [hd, parseLoop, hpost]

end

end CPPCodes.Cities
