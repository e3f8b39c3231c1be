import CPPCodes.Cities.Parser

/-!
# One tree for every sequence of comparisons

The tokens of comparisons joined by `&&` and `||` are those of exactly one tree of the grammar, in
which comparisons bind tighter than `&&`, `&&` binds tighter than `||` and both associate to the
left (`exists_unique_tree`), and the parser puts out its postorder. On any tokens at all the loops
end, each of their turns taking a token or popping the stack (`parseRun_eq`), and move the operators
behind operands that keep their order.
-/

namespace CPPCodes.Cities

inductive Connective
  | AND
  | OR
  deriving DecidableEq

def Connective.token : Connective → Token
  | AND => tokenAnd
  | OR => tokenOr

/-- The tokens of a comparison and of those joined to it. -/
def sequence (c : Clause) (rest : List (Connective × Clause)) : List Token :=
  c.inOrder ++ rest.flatMap fun x => x.1.token :: x.2.inOrder

namespace Disj

/-- The tokens of a tree in the order they are written. -/
def tokens (d : Disj Clause) : List Token := d.inOrder Clause.inOrder [tokenAnd] [tokenOr]

def postfixTokens (d : Disj Clause) : List Token := d.postOrder Clause.postOrder [tokenAnd] [tokenOr]

/-- A tree with one more comparison behind it. -/
def add (d : Disj Clause) (x : Connective × Clause) : Disj Clause :=
  match x.1, d with
  | .AND, .one k => .one (.and k x.2)
  | .AND, .or l k => .or l (.and k x.2)
  | .OR, d => .or d (.one x.2)

def ofSequence (c : Clause) (rest : List (Connective × Clause)) : Disj Clause :=
  rest.foldl add (.one (.one c))

theorem tokens_add (d : Disj Clause) (x : Connective × Clause) :
    (d.add x).tokens = d.tokens ++ x.1.token :: x.2.inOrder := by
  obtain ⟨o, c⟩ := x
  cases o with
  | AND =>
    cases d with
    | one k => simp [add, tokens, inOrder, Conj.inOrder, Connective.token]
    | or l k => simp [add, tokens, inOrder, Conj.inOrder, Connective.token]
  | OR => simp [add, tokens, inOrder, Conj.inOrder, Connective.token]

theorem tokens_foldl_add : ∀ (rest : List (Connective × Clause)) (d : Disj Clause),
    (rest.foldl add d).tokens = d.tokens ++ rest.flatMap fun x => x.1.token :: x.2.inOrder
  | [], d => by simp
  | x :: rest, d => by
    rw [List.foldl_cons, tokens_foldl_add rest, tokens_add, List.flatMap_cons, List.append_assoc]

theorem tokens_ofSequence (c : Clause) (rest : List (Connective × Clause)) :
    (ofSequence c rest).tokens = sequence c rest :=
  tokens_foldl_add rest _

end Disj

/-- The first comparison of a conjunction and those joined to it. -/
def Conj.parts : Conj Clause → Clause × List (Connective × Clause)
  | .one c => (c, [])
  | .and l r => (l.parts.1, l.parts.2 ++ [(.AND, r)])

def Disj.parts : Disj Clause → Clause × List (Connective × Clause)
  | .one k => k.parts
  | .or l k => (l.parts.1, l.parts.2 ++ (.OR, k.parts.1) :: k.parts.2)

theorem Conj.foldl_parts (f : Conj Clause → Disj Clause)
    (hf : ∀ k c, (f k).add (.AND, c) = f (.and k c)) :
    ∀ k : Conj Clause, k.parts.2.foldl Disj.add (f (.one k.parts.1)) = f k
  | .one _ => rfl
  | .and l r => by
    rw [Conj.parts, List.foldl_append, Conj.foldl_parts f hf l]
    exact hf l r

theorem Disj.ofSequence_parts : ∀ d : Disj Clause, ofSequence d.parts.1 d.parts.2 = d
  | .one k => Conj.foldl_parts .one (fun _ _ => rfl) k
  | .or l k => by
    have ih : l.parts.2.foldl add (.one (.one l.parts.1)) = l := ofSequence_parts l
    rw [ofSequence, parts, List.foldl_append, ih]
    exact Conj.foldl_parts (.or l) (fun _ _ => rfl) k

theorem Clause.inOrder_append_inj {c c' : Clause} {xs ys : List Token}
    (h : c.inOrder ++ xs = c'.inOrder ++ ys) : c = c' ∧ xs = ys := by
  obtain ⟨l, op, r, _, _⟩ := c
  obtain ⟨l', op', r', _, _⟩ := c'
  simp only [inOrder, List.cons_append, List.nil_append, List.cons.injEq] at h
  obtain ⟨rfl, rfl, rfl, rfl⟩ := h
  exact ⟨rfl, rfl⟩

theorem Connective.token_inj {o o' : Connective} (h : o.token = o'.token) : o = o' := by
  revert h
  cases o <;> cases o' <;> decide

theorem flatMap_joined_inj : ∀ rest rest' : List (Connective × Clause),
    (rest.flatMap fun x => x.1.token :: x.2.inOrder)
      = (rest'.flatMap fun x => x.1.token :: x.2.inOrder) → rest = rest'
  | [], [], _ => rfl
  | [], _ :: _, h => by simp at h
  | _ :: _, [], h => by simp at h
  | (o, c) :: rest, (o', c') :: rest', h => by
    simp only [List.flatMap_cons, List.cons_append, List.cons.injEq] at h
    obtain ⟨rfl, htail⟩ := Clause.inOrder_append_inj h.2
    rw [Connective.token_inj h.1, flatMap_joined_inj rest rest' htail]

/-- Every sequence of comparisons is that of exactly one tree. -/
theorem exists_unique_tree (c : Clause) (rest : List (Connective × Clause)) :
    ∃! d : Disj Clause, d.tokens = sequence c rest := by
  refine ⟨.ofSequence c rest, Disj.tokens_ofSequence c rest, fun d hd => ?_⟩
  have hparts : sequence d.parts.1 d.parts.2 = sequence c rest := by
    rw [← Disj.tokens_ofSequence, Disj.ofSequence_parts]
    exact hd
  obtain ⟨hc, hrest⟩ := Clause.inOrder_append_inj hparts
  rw [← Disj.ofSequence_parts d, hc, flatMap_joined_inj _ _ hrest]

/-- The tokens still to be read, the operators on the stack, the top first, and the output. -/
structure ParseState where
  tokens : List Token
  stack : List Token
  outQ : List Token

/-- One turn: an operand goes to the output; an operator pops the stack once, or is pushed; at the
end the stack is popped. -/
def parseStep : ParseState → Option ParseState
  | ⟨e :: tokens, stack, outQ⟩ =>
    if e.isOperand then some ⟨tokens, stack, outQ ++ [e]⟩
    else
      match stack with
      | [] => some ⟨tokens, [e], outQ⟩
      | top :: rest =>
        if e.pops top then some ⟨e :: tokens, rest, outQ ++ [top]⟩
        else some ⟨tokens, e :: top :: rest, outQ⟩
  | ⟨[], top :: stack, outQ⟩ => some ⟨[], stack, outQ ++ [top]⟩
  | ⟨[], [], _⟩ => none

/-- At most `fuel` turns. -/
def parseRun : ℕ → ParseState → ParseState
  | 0, s => s
  | fuel + 1, s =>
    match parseStep s with
    | none => s
    | some s => parseRun fuel s

/-- What the turns left add up to: two for each token, one for each operator on the stack. -/
def ParseState.turns (s : ParseState) : ℕ := 2 * s.tokens.length + s.stack.length

def ParseState.result (s : ParseState) : List Token := s.outQ ++ parseLoop s.tokens s.stack

theorem parseStep_some {s s' : ParseState} (h : parseStep s = some s') :
    s'.turns < s.turns ∧ s'.result = s.result := by
  rcases s with ⟨_ | ⟨e, tokens⟩, stack, outQ⟩
  · rcases stack with _ | ⟨top, stack⟩
    · simp [parseStep] at h
    · obtain rfl := Option.some.inj h
      refine ⟨by simp only [ParseState.turns, List.length_cons]; omega, ?_⟩
      simp [ParseState.result, parseLoop]
  · simp only [parseStep] at h
    by_cases ho : e.isOperand = true
    · rw [if_pos ho] at h
      obtain rfl := Option.some.inj h
      refine ⟨by simp only [ParseState.turns, List.length_cons]; omega, ?_⟩
      simp [ParseState.result, parseLoop, ho]
    · rw [if_neg ho] at h
      rcases stack with _ | ⟨top, stack⟩
      · obtain rfl := Option.some.inj h
        refine ⟨by simp only [ParseState.turns, List.length_cons, List.length_nil]; omega, ?_⟩
        simp [ParseState.result, parseLoop, ho]
      · by_cases hp : e.pops top = true
        · simp only [hp, if_true] at h
          obtain rfl := Option.some.inj h
          refine ⟨by simp only [ParseState.turns, List.length_cons]; omega, ?_⟩
          simp [ParseState.result, parseLoop, ho, hp]
        · simp only [hp, if_false, Bool.false_eq_true] at h
          obtain rfl := Option.some.inj h
          refine ⟨by simp only [ParseState.turns, List.length_cons]; omega, ?_⟩
          simp [ParseState.result, parseLoop, ho, hp]

theorem parseStep_none {s : ParseState} (h : parseStep s = none) : s.tokens = [] ∧ s.stack = [] := by
  rcases s with ⟨_ | ⟨e, tokens⟩, stack, outQ⟩
  · rcases stack with _ | ⟨top, stack⟩
    · exact ⟨rfl, rfl⟩
    · simp [parseStep] at h
  · simp only [parseStep] at h
    split_ifs at h
    split at h
    · simp at h
    · split_ifs at h

/-- The loops end with both lists empty, and the output is that of `parseLoop`. -/
theorem parseRun_eq : ∀ (fuel : ℕ) (s : ParseState), s.turns ≤ fuel →
    parseRun fuel s = ⟨[], [], s.result⟩
  | 0, ⟨tokens, stack, outQ⟩, h => by
    simp only [ParseState.turns] at h
    obtain rfl : tokens = [] := List.length_eq_zero_iff.1 (by omega)
    obtain rfl : stack = [] := List.length_eq_zero_iff.1 (by omega)
    simp [parseRun, ParseState.result, parseLoop]
  | fuel + 1, s, h => by
    unfold parseRun
    cases hs : parseStep s with
    | none =>
      obtain ⟨ht, hst⟩ := parseStep_none hs
      obtain ⟨tokens, stack, outQ⟩ := s
      simp only at ht hst
      simp [ht, hst, ParseState.result, parseLoop]
    | some s' =>
      obtain ⟨hlt, hres⟩ := parseStep_some hs
      simp only [parseRun_eq fuel s' (by omega), hres]

theorem filter_parseLoop : ∀ tokens stack : List Token, (∀ t ∈ stack, t.isOperand = false) →
    (parseLoop tokens stack).filter Token.isOperand = tokens.filter Token.isOperand
  | [], stack, hs => by
    rw [parseLoop, List.filter_eq_nil_iff.2 fun t ht => by simp [hs t ht]]
    rfl
  | e :: tokens, stack, hs => by
    unfold parseLoop
    split_ifs with ho
    · rw [List.filter_cons_of_pos ho, List.filter_cons_of_pos ho, filter_parseLoop tokens stack hs]
    · have hdrop : ∀ t ∈ e :: stack.dropWhile e.pops, t.isOperand = false := by
        intro t ht
        rcases List.mem_cons.1 ht with rfl | ht
        · simpa using ho
        · exact hs t ((List.dropWhile_sublist _).subset ht)
      rw [List.filter_append, filter_parseLoop tokens _ hdrop, List.filter_cons_of_neg ho,
        List.filter_eq_nil_iff.2 fun t ht => by simp [hs t ((List.takeWhile_sublist _).subset ht)]]
      rfl

/-- The parser's output is the postorder of the one tree of a sequence of comparisons. On any tokens
the loops end, and put out the same tokens with the operands in their order. -/
theorem parser_postorder :
    (∀ expr keywords, recursiveDecent expr keywords
      = (tokanize (split expr ' ') keywords).map (parseLoop · [])) ∧
    (∀ c rest, ∃ d : Disj Clause, d.tokens = sequence c rest ∧
      (∀ d' : Disj Clause, d'.tokens = sequence c rest → d' = d) ∧
      parseLoop (sequence c rest) [] = d.postfixTokens) ∧
    ∀ tokens : List Token,
      (∀ fuel, 2 * tokens.length ≤ fuel →
        parseRun fuel ⟨tokens, [], []⟩ = ⟨[], [], parseLoop tokens []⟩) ∧
      (parseLoop tokens []).Perm tokens ∧
      (parseLoop tokens []).filter Token.isOperand = tokens.filter Token.isOperand := by
  refine ⟨fun expr keywords => ?_, fun c rest => ?_, fun tokens => ⟨fun fuel hf => ?_, ?_, ?_⟩⟩
  · unfold recursiveDecent
    cases tokanize (split expr ' ') keywords <;> rfl
  · obtain ⟨d, hd, huniq⟩ := exists_unique_tree c rest
    refine ⟨d, hd, huniq, ?_⟩
    rw [← hd]
    exact parseLoop_disj id d
  · exact parseRun_eq fuel ⟨tokens, [], []⟩ hf
  · simpa using parseLoop_perm tokens []
  · exact filter_parseLoop tokens [] (by simp)

end CPPCodes.Cities
