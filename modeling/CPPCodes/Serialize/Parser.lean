import CPPCodes.Serialize.Grammar
import Mathlib.Data.List.Induction

/-!
# The parser of an interface description

`yyparse` with its stack cut down to what it can be between two tokens. It accepts the sentences
of the grammar and no others, gives each the one program that the rules give it, although they are
ambiguous, and stops at the first token with which no sentence goes on.
-/

namespace CPPCodes.Serialize

open ShiftReduce

/-- The parser where it asks for a token, under the last symbol of its stack. The statements so far
are below, as are a struct's name and variables inside its block. -/
inductive State
  | stmts (ss : List NStatement)
  | tUsing (ss : List NStatement)
  | usingIdent (ss : List NStatement) (dst : NIdentifier)
  | tEqual (ss : List NStatement) (dst : NIdentifier)
  | usingStruct (ss : List NStatement) (dst : NIdentifier)
  | stmt (ss : List NStatement) (s : NStatement)
  | tStruct (ss : List NStatement)
  | structIdent (ss : List NStatement) (i : NIdentifier)
  | structBlock (ss : List NStatement) (i : NIdentifier) (vs : List NVariable)
  | tInteger (ss : List NStatement) (i : NIdentifier) (vs : List NVariable) (loc : Str)
  | tColon (ss : List NStatement) (i : NIdentifier) (vs : List NVariable) (loc : Str)
  | blockStruct (ss : List NStatement) (i : NIdentifier) (vs : List NVariable) (loc : Str)
  | blockType (ss : List NStatement) (i : NIdentifier) (vs : List NVariable) (loc : Str)
      (type : NIdentifier)
  | blockStructType (ss : List NStatement) (i : NIdentifier) (vs : List NVariable) (loc : Str)
      (type : NIdentifier)
  | structBlockStmt (ss : List NStatement) (i : NIdentifier) (vs : List NVariable) (v : NVariable)

/-- A token is shifted, and what is complete with it reduced. -/
def step : State → Token → Option State
  | .stmts ss, .tUsing => some (.tUsing ss)
  | .tUsing ss, .tIdentifier s => some (.usingIdent ss ⟨s⟩)
  | .usingIdent ss dst, .tEqual => some (.tEqual ss dst)
  | .tEqual ss dst, .tIdentifier s => some (.stmt ss (.nUsingStatement dst ⟨s⟩))
  | .tEqual ss dst, .tStruct => some (.usingStruct ss dst)
  | .usingStruct ss dst, .tIdentifier s => some (.stmt ss (.nUsingStatement dst ⟨s⟩))
  | .stmt ss s, .tSemicolon => some (.stmts (ss ++ [s]))
  | .stmts ss, .tStruct => some (.tStruct ss)
  | .tStruct ss, .tIdentifier s => some (.structIdent ss ⟨s⟩)
  | .structIdent ss i, .tBraceOpen => some (.structBlock ss i [])
  | .structBlock ss i vs, .tBraceClose => some (.stmt ss (.nStructStatement i vs))
  | .structBlock ss i vs, .tInteger loc => some (.tInteger ss i vs loc)
  | .tInteger ss i vs loc, .tColon => some (.tColon ss i vs loc)
  | .tColon ss i vs loc, .tIdentifier s => some (.blockType ss i vs loc ⟨s⟩)
  | .tColon ss i vs loc, .tStruct => some (.blockStruct ss i vs loc)
  | .blockStruct ss i vs loc, .tIdentifier s => some (.blockStructType ss i vs loc ⟨s⟩)
  | .blockType ss i vs loc type, .tIdentifier s => some (.structBlockStmt ss i vs ⟨⟨s⟩, type, loc⟩)
  | .blockStructType ss i vs loc type, .tIdentifier s =>
    some (.structBlockStmt ss i vs ⟨⟨s⟩, type, loc⟩)
  | .structBlockStmt ss i vs v, .tSemicolon => some (.structBlock ss i (vs ++ [v]))
  | _, _ => none

/-- The program, where the input may end. -/
def State.accept : State → Option NProgram
  | .stmts (s :: ss) => some ⟨s :: ss⟩
  | _ => none

/-- What `yylex` has returned, `none` for the end of the input, when the parser is done, and the
program, or `none` for a syntax error. -/
def yyparseFrom : State → List Token → List (Option Token) × Option NProgram
  | st, [] => ([none], st.accept)
  | st, t :: ts =>
    match step st t with
    | none => ([some t], none)
    | some st' => (yyparseFrom st' ts).map (some t :: ·) id

def yyparse (ts : List Token) : List (Option Token) × Option NProgram := yyparseFrom (.stmts []) ts

def run (st : State) (w : List Token) : Option State := w.foldlM step st

theorem run_append (st : State) (u v : List Token) :
    run st (u ++ v) = (run st u).bind (run · v) := List.foldlM_append ..

/-- The statements so far, of which there may be none. -/
def stmtsStack (ss : List NStatement) : List Sym := if ss = [] then [] else [.stmts ss]

/-- A struct up to its block. With no variables the block is not made yet. -/
def blockStack (ss : List NStatement) (i : NIdentifier) (vs : List NVariable) : List Sym :=
  stmtsStack ss ++ [.token .tStruct, .ident i, .token .tBraceOpen] ++
    if vs = [] then [] else [.structBlock vs]

def State.stack : State → List Sym
  | .stmts ss => stmtsStack ss
  | .tUsing ss => stmtsStack ss ++ [.token .tUsing]
  | .usingIdent ss dst => stmtsStack ss ++ [.token .tUsing, .ident dst]
  | .tEqual ss dst => stmtsStack ss ++ [.token .tUsing, .ident dst, .token .tEqual]
  | .usingStruct ss dst =>
    stmtsStack ss ++ [.token .tUsing, .ident dst, .token .tEqual, .token .tStruct]
  | .stmt ss s => stmtsStack ss ++ [.stmt s]
  | .tStruct ss => stmtsStack ss ++ [.token .tStruct]
  | .structIdent ss i => stmtsStack ss ++ [.token .tStruct, .ident i]
  | .structBlock ss i vs => blockStack ss i vs
  | .tInteger ss i vs loc => blockStack ss i vs ++ [.token (.tInteger loc)]
  | .tColon ss i vs loc => blockStack ss i vs ++ [.token (.tInteger loc), .token .tColon]
  | .blockStruct ss i vs loc =>
    blockStack ss i vs ++ [.token (.tInteger loc), .token .tColon, .token .tStruct]
  | .blockType ss i vs loc type =>
    blockStack ss i vs ++ [.token (.tInteger loc), .token .tColon, .ident type]
  | .blockStructType ss i vs loc type =>
    blockStack ss i vs ++ [.token (.tInteger loc), .token .tColon, .token .tStruct, .ident type]
  | .structBlockStmt ss i vs v => blockStack ss i vs ++ [.structBlockStmt v]

abbrev BisonReads := Reads Sym.token bisonRule

section Reductions

variable {w rest : List Token} {stack : List Sym}

theorem BisonReads.reduceTop {rhs : List Sym} {s : Sym} (pre : List Sym)
    (h : BisonReads (pre ++ rhs) w rest) (hr : Rule rhs s) (hne : rhs ≠ []) :
    BisonReads (pre ++ [s]) w rest :=
  h.reduce ⟨hr, fun h' => absurd h' hne⟩

/-- A name is read. -/
theorem BisonReads.ident {s : Str} (h : BisonReads stack w (.tIdentifier s :: rest)) :
    BisonReads (stack ++ [.ident ⟨s⟩]) (w ++ [.tIdentifier s]) rest :=
  BisonReads.reduceTop stack h.shift (.ident s) (List.cons_ne_nil _ _)

/-- The statements take up the next one. -/
theorem BisonReads.stmts {ss : List NStatement} {s : NStatement}
    (h : BisonReads (stmtsStack ss ++ [.stmt s, .token .tSemicolon]) w rest) :
    BisonReads (stmtsStack (ss ++ [s])) w rest := by
  have hne : ss ++ [s] ≠ [] := List.concat_ne_nil _ _
  rw [stmtsStack, if_neg hne]
  by_cases hss : ss = []
  · subst hss
    exact h.reduceTop [] (.stmts s) (List.cons_ne_nil _ _)
  · rw [stmtsStack, if_neg hss] at h
    exact h.reduceTop [] (.stmts_stmts ss s) (List.cons_ne_nil _ _)

/-- The block takes up the next variable. -/
theorem BisonReads.structBlock {ss : List NStatement} {i : NIdentifier} {vs : List NVariable}
    {v : NVariable}
    (h : BisonReads (blockStack ss i vs ++ [.structBlockStmt v, .token .tSemicolon]) w rest) :
    BisonReads (blockStack ss i (vs ++ [v])) w rest := by
  have hne : vs ++ [v] ≠ [] := List.concat_ne_nil _ _
  rw [blockStack, if_neg hne]
  by_cases hvs : vs = []
  · subst hvs
    rw [blockStack, if_pos rfl, List.append_nil] at h
    exact h.reduceTop _ (.structBlock v) (List.cons_ne_nil _ _)
  · rw [blockStack, if_neg hvs, List.append_assoc _ [Sym.structBlock vs]] at h
    exact h.reduceTop _ (.structBlock_structBlock vs v) (List.cons_ne_nil _ _)

/-- Before a brace an empty block is made, if there is none. -/
theorem BisonReads.closeBlock {ss : List NStatement} {i : NIdentifier} {vs : List NVariable}
    (h : BisonReads (blockStack ss i vs) w (.tBraceClose :: rest)) :
    BisonReads (stmtsStack ss ++ [.token .tStruct, .ident i, .token .tBraceOpen, .structBlock vs]) w
      (.tBraceClose :: rest) := by
  have hassoc : stmtsStack ss ++ [.token .tStruct, .ident i, .token .tBraceOpen, .structBlock vs] =
      stmtsStack ss ++ [.token .tStruct, .ident i, .token .tBraceOpen] ++ [.structBlock vs] := by
    rw [List.append_assoc]
    rfl
  rw [hassoc]
  by_cases hvs : vs = []
  · subst hvs
    rw [blockStack, if_pos rfl] at h
    exact h.reduce ⟨.structBlock_empty, fun _ _ => nofun⟩
  · rwa [blockStack, if_neg hvs] at h

theorem BisonReads.usingStmt {dst src : NIdentifier}
    (h : BisonReads (stack ++ [.token .tUsing, .ident dst, .token .tEqual] ++ [.usingType src]) w rest) :
    BisonReads (stack ++ [.stmt (.nUsingStatement dst src)]) w rest := by
  rw [List.append_assoc] at h
  have husing : BisonReads (stack ++ [.usingStmt (.nUsingStatement dst src)]) w rest :=
    h.reduceTop stack (.usingStmt dst src) (List.cons_ne_nil _ _)
  exact husing.reduceTop stack (.stmt_using _) (List.cons_ne_nil _ _)

theorem BisonReads.structStmt {i : NIdentifier} {vs : List NVariable}
    (h : BisonReads (stack ++ [.token .tStruct, .ident i, .token .tBraceOpen, .structBlock vs,
      .token .tBraceClose]) w rest) :
    BisonReads (stack ++ [.stmt (.nStructStatement i vs)]) w rest := by
  have hstruct : BisonReads (stack ++ [.structStmt (.nStructStatement i vs)]) w rest :=
    h.reduceTop stack (.structStmt i vs) (List.cons_ne_nil _ _)
  exact hstruct.reduceTop stack (.stmt_struct _) (List.cons_ne_nil _ _)

/-- The parser's step is a shift and reductions. -/
theorem BisonReads.step {st st' : State} {t : Token} (h : BisonReads st.stack w (t :: rest))
    (hst : step st t = some st') : BisonReads st'.stack (w ++ [t]) rest := by
  revert hst
  fun_cases Serialize.step st t <;> rintro ⟨⟩
  case case4 ss dst s =>
    have htype := BisonReads.reduceTop _ h.ident (.usingType ⟨s⟩) (List.cons_ne_nil _ _)
    exact BisonReads.usingStmt htype
  case case6 ss dst s =>
    have hident := h.ident
    have hassoc : (State.usingStruct ss dst).stack ++ [.ident ⟨s⟩] =
        stmtsStack ss ++ [.token .tUsing, .ident dst, .token .tEqual] ++
          [.token .tStruct, .ident ⟨s⟩] := by
      simp [State.stack]
    rw [hassoc] at hident
    exact BisonReads.usingStmt
      (BisonReads.reduceTop _ hident (.usingType_struct ⟨s⟩) (List.cons_ne_nil _ _))
  case case7 ss s =>
    have hshift := h.shift
    rw [State.stack, List.append_assoc] at hshift
    exact BisonReads.stmts hshift
  case case11 ss i vs =>
    have hshift := (BisonReads.closeBlock h).shift
    rw [List.append_assoc] at hshift
    exact BisonReads.structStmt hshift
  case case17 ss i vs loc type s =>
    have hident := h.ident
    rw [State.stack, List.append_assoc] at hident
    exact BisonReads.reduceTop _ hident (.structBlockStmt loc type ⟨s⟩) (List.cons_ne_nil _ _)
  case case18 ss i vs loc type s =>
    have hident := h.ident
    rw [State.stack, List.append_assoc] at hident
    exact BisonReads.reduceTop _ hident (.structBlockStmt_struct loc type ⟨s⟩)
      (List.cons_ne_nil _ _)
  case case19 ss i vs v =>
    have hshift := h.shift
    rw [State.stack, List.append_assoc] at hshift
    exact BisonReads.structBlock hshift
  case case2 | case9 | case14 | case16 =>
    have hident := h.ident
    rwa [State.stack, List.append_assoc] at hident
  case case1 | case8 | case12 => exact h.shift
  case case10 =>
    have hshift := h.shift
    rw [State.stack, List.append_assoc] at hshift
    simpa [State.stack, blockStack] using hshift
  all_goals
    have hshift := h.shift
    rwa [State.stack, List.append_assoc] at hshift

theorem BisonReads.run : ∀ {w u rest : List Token} {st st' : State},
    BisonReads st.stack u (w ++ rest) → run st w = some st' → BisonReads st'.stack (u ++ w) rest
  | [], u, rest, st, st', h, hrun => by
    cases hrun
    rwa [List.append_nil]
  | t :: w, u, rest, st, st', h, hrun => by
    rw [Serialize.run, List.foldlM_cons] at hrun
    obtain ⟨st₁, hst, hrun⟩ := Option.bind_eq_some_iff.1 hrun
    have hw := (h.step hst).run hrun
    rwa [List.append_assoc] at hw

end Reductions

section Sentences

variable {w : List Token}

theorem run_structBlockStmt {v : NVariable} (h : Derives .token anyRule [.structBlockStmt v] w)
    (ss : List NStatement) (i : NIdentifier) (vs : List NVariable) :
    run (.structBlock ss i vs) (w ++ [.tSemicolon]) = some (.structBlock ss i (vs ++ [v])) := by
  obtain ⟨type, rfl, rfl | rfl⟩ := derives_structBlockStmt h
  · rfl
  · rfl

/-- A block, whichever of its derivations is taken. -/
theorem run_structBlock {vs : List NVariable} (ss : List NStatement) (i : NIdentifier) :
    ∀ {w : List Token}, Derives .token anyRule [.structBlock vs] w →
      run (.structBlock ss i []) w = some (.structBlock ss i vs) := by
  induction vs using List.reverseRecOn with
  | nil =>
    intro w h
    rcases derives_structBlock h with ⟨_, rfl⟩ | ⟨vs', v, _, _, hvs, _⟩
    · rfl
    · exact absurd hvs.symm (List.concat_ne_nil _ _)
  | append_singleton vs v ih =>
    intro w h
    rcases derives_structBlock h with ⟨hvs, _⟩ | ⟨vs', v', u, x, hvs, rfl, hu, hx⟩
    · exact absurd hvs (List.concat_ne_nil _ _)
    · obtain ⟨rfl, rfl⟩ := Derives.append_singleton_inj hvs
      rw [List.append_assoc, run_append, ih hu, Option.bind_some, run_structBlockStmt hx]

theorem run_stmt {s : NStatement} (h : Derives .token anyRule [.stmt s] w) (ss : List NStatement) :
    run (.stmts ss) w = some (.stmt ss s) := by
  rcases derives_stmt h with h | h
  · obtain ⟨dst, src, type, rfl, rfl, rfl | rfl⟩ := derives_usingStmt h
    · rfl
    · rfl
  · obtain ⟨i, vs, u, rfl, rfl, hu⟩ := derives_structStmt h
    have hhead : run (.stmts ss) [.tStruct, .tIdentifier i.name_, .tBraceOpen] =
        some (.structBlock ss i []) := rfl
    rw [run_append, run_append, hhead, Option.bind_some, run_structBlock ss i hu]
    rfl

theorem run_stmts {ss : List NStatement} : ∀ {w : List Token},
    Derives .token anyRule [.stmts ss] w → ss ≠ [] ∧ run (.stmts []) w = some (.stmts ss) := by
  induction ss using List.reverseRecOn with
  | nil =>
    intro w h
    obtain ⟨ss', s, _, _, hss, _⟩ := derives_stmts h
    exact absurd hss.symm (List.concat_ne_nil _ _)
  | append_singleton ss s ih =>
    intro w h
    obtain ⟨ss', s', u, x, hss, rfl, hu, hx⟩ := derives_stmts h
    obtain ⟨rfl, rfl⟩ := Derives.append_singleton_inj hss
    have hbefore : run (.stmts []) u = some (.stmts ss) := by
      rcases hu with ⟨rfl, rfl⟩ | hu
      · rfl
      · exact (ih hu).2
    refine ⟨List.concat_ne_nil _ _, ?_⟩
    rw [run_append, run_append, hbefore, Option.bind_some, run_stmt hx]
    rfl

theorem Sentence.run {p : NProgram} (h : Sentence w p) :
    ∃ st, run (.stmts []) w = some st ∧ st.accept = some p := by
  obtain ⟨hne, hrun⟩ := run_stmts (derives_program h)
  refine ⟨_, hrun, ?_⟩
  obtain ⟨ss⟩ := p
  cases ss with
  | nil => exact absurd rfl hne
  | cons s ss => rfl

end Sentences

theorem State.accept_eq_some {st : State} {p : NProgram} :
    st.accept = some p ↔ p.vecp_ ≠ [] ∧ st = .stmts p.vecp_ := by
  obtain ⟨ss⟩ := p
  constructor
  · intro h
    cases st with
    | stmts ss' =>
      cases ss' with
      | nil => cases h
      | cons s ss' =>
        cases h
        exact ⟨List.cons_ne_nil _ _, rfl⟩
    | _ => cases h
  · rintro ⟨hne, rfl⟩
    cases ss with
    | nil => exact absurd rfl hne
    | cons s ss => rfl

/-- An accepting run of bison's parser, token for token. -/
theorem bisonReads_of_run {ts : List Token} {st : State} {p : NProgram}
    (h : run (.stmts []) ts = some st) (hacc : st.accept = some p) :
    BisonReads [.program p] ts [] := by
  obtain ⟨hne, rfl⟩ := State.accept_eq_some.1 hacc
  have hstart : BisonReads (State.stmts []).stack [] (ts ++ []) := .nil _
  have hend := hstart.run h
  rw [List.nil_append, State.stack, stmtsStack, if_neg hne] at hend
  exact hend.reduceTop [] (.program p.vecp_) (List.cons_ne_nil _ _)

theorem Sentence.of_bisonReads {ts : List Token} {p : NProgram}
    (h : BisonReads [.program p] ts []) : Sentence ts p :=
  h.derives.mono fun _ _ _ => And.left

theorem sentence_iff_run {ts : List Token} {p : NProgram} :
    Sentence ts p ↔ ∃ st, run (.stmts []) ts = some st ∧ st.accept = some p :=
  ⟨Sentence.run, fun ⟨_, h, hacc⟩ => .of_bisonReads (bisonReads_of_run h hacc)⟩

theorem Sentence.unique {ts : List Token} {p p' : NProgram} (h : Sentence ts p)
    (h' : Sentence ts p') : p' = p := by
  obtain ⟨st, hrun, hacc⟩ := h.run
  obtain ⟨st', hrun', hacc'⟩ := h'.run
  cases hrun.symm.trans hrun'
  exact Option.some_inj.1 (hacc'.symm.trans hacc)

/-- Reading on at the conflict loses no sentence, and which derivation is taken does not matter:
all of them make one program. -/
theorem sentence_iff_bisonReads {ts : List Token} {p : NProgram} :
    Sentence ts p ↔ BisonReads [.program p] ts [] ∧ ∀ p', Sentence ts p' → p' = p := by
  refine ⟨fun h => ?_, fun h => .of_bisonReads h.1⟩
  obtain ⟨st, hrun, hacc⟩ := h.run
  exact ⟨bisonReads_of_run hrun hacc, fun p' => h.unique⟩

/-- Some sentence begins with these tokens. -/
def Begins (w : List Token) : Prop := ∃ more p, Sentence (w ++ more) p

/-- Tokens with which a program ends soon. -/
def State.ending : State → List Token
  | .stmts _ => [.tUsing, name, .tEqual, name, .tSemicolon]
  | .tUsing _ => [name, .tEqual, name, .tSemicolon]
  | .usingIdent _ _ => [.tEqual, name, .tSemicolon]
  | .tEqual _ _ | .usingStruct _ _ => [name, .tSemicolon]
  | .stmt _ _ => [.tSemicolon]
  | .tStruct _ => [name, .tBraceOpen, .tBraceClose, .tSemicolon]
  | .structIdent _ _ => [.tBraceOpen, .tBraceClose, .tSemicolon]
  | .structBlock _ _ _ => [.tBraceClose, .tSemicolon]
  | .tInteger _ _ _ _ => [.tColon, name, name, .tSemicolon, .tBraceClose, .tSemicolon]
  | .tColon _ _ _ _ | .blockStruct _ _ _ _ =>
    [name, name, .tSemicolon, .tBraceClose, .tSemicolon]
  | .blockType _ _ _ _ _ | .blockStructType _ _ _ _ _ =>
    [name, .tSemicolon, .tBraceClose, .tSemicolon]
  | .structBlockStmt _ _ _ _ => [.tSemicolon, .tBraceClose, .tSemicolon]
where
  name : Token := .tIdentifier ['a']

/-- Wherever the parser has come, it can go on to accept. -/
theorem State.run_ending (st : State) : ∃ ss s, run st st.ending = some (.stmts (ss ++ [s])) := by
  cases st <;> exact ⟨_, _, rfl⟩

theorem begins_iff {w : List Token} : Begins w ↔ ∃ st, run (.stmts []) w = some st := by
  constructor
  · rintro ⟨more, p, h⟩
    obtain ⟨_, hrun, _⟩ := h.run
    rw [run_append] at hrun
    obtain ⟨st, hst, _⟩ := Option.bind_eq_some_iff.1 hrun
    exact ⟨st, hst⟩
  · rintro ⟨st, hst⟩
    obtain ⟨ss, s, hrun⟩ := st.run_ending
    refine ⟨st.ending, ⟨ss ++ [s]⟩, sentence_iff_run.2 ⟨.stmts (ss ++ [s]), ?_, ?_⟩⟩
    · rw [run_append, hst, Option.bind_some, hrun]
    · exact State.accept_eq_some.2 ⟨List.concat_ne_nil _ _, rfl⟩

theorem yyparseFrom_cases : ∀ (st : State) (ts : List Token),
    (∃ st', run st ts = some st' ∧ yyparseFrom st ts = (ts.map some ++ [none], st'.accept)) ∨
      ∃ w t rest st', ts = w ++ t :: rest ∧ run st w = some st' ∧ step st' t = none ∧
        yyparseFrom st ts = (w.map some ++ [some t], none)
  | st, [] => .inl ⟨st, rfl, rfl⟩
  | st, t :: ts => by
    cases hst : step st t with
    | none =>
      refine .inr ⟨[], t, ts, st, rfl, rfl, hst, ?_⟩
      rw [yyparseFrom, hst]
      rfl
    | some st₁ =>
      have hrun : ∀ w, run st (t :: w) = run st₁ w := fun w => by
        rw [run, List.foldlM_cons, hst]
        rfl
      have hparse : yyparseFrom st (t :: ts) = (yyparseFrom st₁ ts).map (some t :: ·) id := by
        rw [yyparseFrom, hst]
      rcases yyparseFrom_cases st₁ ts with ⟨st', h, heq⟩ | ⟨w, t', rest, st', rfl, h, hnone, heq⟩
      · refine .inl ⟨st', (hrun ts).trans h, ?_⟩
        rw [hparse, heq]
        rfl
      · refine .inr ⟨t :: w, t', rest, st', rfl, (hrun w).trans h, hnone, ?_⟩
        rw [hparse, heq]
        rfl

/-- The parser accepts a sentence, with its program, having asked for its tokens and the end. On
other input it asks for no token behind the first one that no sentence has there. -/
theorem yyparse_cases (ts : List Token) :
    (∃ p, Sentence ts p ∧ yyparse ts = (ts.map some ++ [none], some p)) ∨
      ∃ w rest, ts = w ++ rest ∧ yyparse ts = (w.map some ++ [rest.head?], none) ∧ Begins w ∧
        (rest = [] → ∀ p, ¬ Sentence w p) ∧ ∀ t, rest.head? = some t → ¬ Begins (w ++ [t]) := by
  rcases yyparseFrom_cases (.stmts []) ts with ⟨st, h, heq⟩ | ⟨w, t, rest, st, rfl, h, hnone, heq⟩
  · cases hacc : st.accept with
    | some p =>
      refine .inl ⟨p, sentence_iff_run.2 ⟨st, h, hacc⟩, ?_⟩
      rw [yyparse, heq, hacc]
    | none =>
      refine .inr ⟨ts, [], (List.append_nil _).symm, ?_, begins_iff.2 ⟨st, h⟩, fun _ p hp => ?_, nofun⟩
      · rw [yyparse, heq, hacc]
        rfl
      · obtain ⟨st', hrun, hacc'⟩ := hp.run
        cases h.symm.trans hrun
        exact absurd (hacc.symm.trans hacc') nofun
  · refine .inr ⟨w, t :: rest, rfl, heq, begins_iff.2 ⟨st, h⟩, nofun, fun t' ht hb => ?_⟩
    cases ht
    obtain ⟨st', hrun⟩ := begins_iff.1 hb
    rw [run_append, h, Option.bind_some] at hrun
    rw [run, List.foldlM_cons, hnone] at hrun
    cases hrun

end CPPCodes.Serialize
