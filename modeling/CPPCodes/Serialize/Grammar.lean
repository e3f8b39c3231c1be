import CPPCodes.Lib.ShiftReduce
import CPPCodes.Serialize.Tokens

/-!
# The grammar of an interface description

node.h and parser.y: the nodes, and the rules with the actions that build them. The rules conflict
in one place: behind `struct x {` a variable can follow an empty block, or begin the block.
-/

namespace CPPCodes.Serialize

open ShiftReduce

structure NIdentifier where
  name_ : Str

structure NVariable where
  identp_ : NIdentifier
  typep_ : NIdentifier
  locp_ : Str

inductive NStatement
  | nUsingStatement (dstp_ srcp_ : NIdentifier)
  | nStructStatement (identp_ : NIdentifier) (varvecp_ : List NVariable)

structure NProgram where
  vecp_ : List NStatement

/-- The symbols of the grammar, with the values that `%type` gives them. -/
inductive Sym
  | token (t : Token)
  | program (p : NProgram)
  | stmts (ss : List NStatement)
  | stmt (s : NStatement)
  | usingStmt (s : NStatement)
  | usingType (i : NIdentifier)
  | structStmt (s : NStatement)
  | structBlock (vs : List NVariable)
  | structBlockStmt (v : NVariable)
  | ident (i : NIdentifier)

open Serialize.Sym Token NStatement in
inductive Rule : List Sym → Sym → Prop
  | program (ss : List NStatement) : Rule [stmts ss] (program ⟨ss⟩)
  | stmts (s : NStatement) : Rule [stmt s, token tSemicolon] (stmts [s])
  | stmts_stmts (ss : List NStatement) (s : NStatement) :
      Rule [stmts ss, stmt s, token tSemicolon] (stmts (ss ++ [s]))
  | stmt_using (s : NStatement) : Rule [usingStmt s] (stmt s)
  | stmt_struct (s : NStatement) : Rule [structStmt s] (stmt s)
  | usingStmt (dst src : NIdentifier) :
      Rule [token tUsing, ident dst, token tEqual, usingType src] (usingStmt (nUsingStatement dst src))
  | usingType (i : NIdentifier) : Rule [ident i] (usingType i)
  | usingType_struct (i : NIdentifier) : Rule [token tStruct, ident i] (usingType i)
  | structStmt (i : NIdentifier) (vs : List NVariable) :
      Rule [token tStruct, ident i, token tBraceOpen, structBlock vs, token tBraceClose]
        (structStmt (nStructStatement i vs))
  | structBlock (v : NVariable) : Rule [structBlockStmt v, token tSemicolon] (structBlock [v])
  | structBlock_structBlock (vs : List NVariable) (v : NVariable) :
      Rule [structBlock vs, structBlockStmt v, token tSemicolon] (structBlock (vs ++ [v]))
  | structBlock_empty : Rule [] (structBlock [])
  | structBlockStmt (loc : Str) (type i : NIdentifier) :
      Rule [token (tInteger loc), token tColon, ident type, ident i] (structBlockStmt ⟨i, type, loc⟩)
  | structBlockStmt_struct (loc : Str) (type i : NIdentifier) :
      Rule [token (tInteger loc), token tColon, token tStruct, ident type, ident i]
        (structBlockStmt ⟨i, type, loc⟩)
  | ident (s : Str) : Rule [token (tIdentifier s)] (ident ⟨s⟩)

/-- The rules, whatever comes next. -/
def anyRule (_ : Option Token) (rhs : List Sym) (s : Sym) : Prop := Rule rhs s

/-- What bison makes of the conflict: an integer that comes next is read, and no empty block made
before it. -/
def bisonRule (next : Option Token) (rhs : List Sym) (s : Sym) : Prop :=
  Rule rhs s ∧ (rhs = [] → ∀ loc, next ≠ some (.tInteger loc))

/-- The tokens are a program of the grammar. -/
def Sentence (ts : List Token) (p : NProgram) : Prop :=
  Derives .token anyRule [.program p] ts

section Words

variable {w : List Token}

theorem derives_token {t : Token} (h : Derives .token anyRule [.token t] w) : w = [t] := by
  rcases h.single with ⟨t', ht, rfl⟩ | ⟨_, rhs, hr, _⟩
  · cases ht
    rfl
  · cases hr

theorem derives_token_cons {t : Token} {b : List Sym}
    (h : Derives .token anyRule (.token t :: b) w) :
    ∃ v, w = t :: v ∧ Derives .token anyRule b v := by
  obtain ⟨u, v, rfl, hu, hv⟩ := h.split_cons
  exact ⟨v, by rw [derives_token hu]; rfl, hv⟩

theorem derives_ident {i : NIdentifier} (h : Derives .token anyRule [.ident i] w) :
    w = [.tIdentifier i.name_] := by
  rcases h.single with ⟨t, ht, _⟩ | ⟨_, rhs, hr, hd⟩
  · cases ht
  · cases hr
    exact derives_token hd

theorem derives_ident_cons {i : NIdentifier} {b : List Sym}
    (h : Derives .token anyRule (.ident i :: b) w) :
    ∃ v, w = .tIdentifier i.name_ :: v ∧ Derives .token anyRule b v := by
  obtain ⟨u, v, rfl, hu, hv⟩ := h.split_cons
  exact ⟨v, by rw [derives_ident hu]; rfl, hv⟩

theorem derives_usingType {i : NIdentifier} (h : Derives .token anyRule [.usingType i] w) :
    w = [.tIdentifier i.name_] ∨ w = [.tStruct, .tIdentifier i.name_] := by
  rcases h.single with ⟨t, ht, _⟩ | ⟨_, rhs, hr, hd⟩
  · cases ht
  · cases hr with
    | usingType => exact .inl (derives_ident hd)
    | usingType_struct =>
      obtain ⟨v, rfl, hv⟩ := derives_token_cons hd
      rw [derives_ident hv]
      exact .inr rfl

theorem derives_usingStmt {s : NStatement} (h : Derives .token anyRule [.usingStmt s] w) :
    ∃ dst src type, s = .nUsingStatement dst src ∧
      w = [.tUsing, .tIdentifier dst.name_, .tEqual] ++ type ∧
      (type = [.tIdentifier src.name_] ∨ type = [.tStruct, .tIdentifier src.name_]) := by
  rcases h.single with ⟨t, ht, _⟩ | ⟨_, rhs, hr, hd⟩
  · cases ht
  · cases hr with
    | usingStmt dst src =>
      obtain ⟨v₁, rfl, h₁⟩ := derives_token_cons hd
      obtain ⟨v₂, rfl, h₂⟩ := derives_ident_cons h₁
      obtain ⟨v₃, rfl, h₃⟩ := derives_token_cons h₂
      exact ⟨dst, src, v₃, rfl, rfl, derives_usingType h₃⟩

theorem derives_structBlockStmt {v : NVariable}
    (h : Derives .token anyRule [.structBlockStmt v] w) :
    ∃ type, w = [.tInteger v.locp_, .tColon] ++ type ++ [.tIdentifier v.identp_.name_] ∧
      (type = [.tIdentifier v.typep_.name_] ∨ type = [.tStruct, .tIdentifier v.typep_.name_]) := by
  rcases h.single with ⟨t, ht, _⟩ | ⟨_, rhs, hr, hd⟩
  · cases ht
  · cases hr with
    | structBlockStmt =>
      obtain ⟨v₁, rfl, h₁⟩ := derives_token_cons hd
      obtain ⟨v₂, rfl, h₂⟩ := derives_token_cons h₁
      obtain ⟨v₃, rfl, h₃⟩ := derives_ident_cons h₂
      rw [derives_ident h₃]
      exact ⟨_, rfl, .inl rfl⟩
    | structBlockStmt_struct =>
      obtain ⟨v₁, rfl, h₁⟩ := derives_token_cons hd
      obtain ⟨v₂, rfl, h₂⟩ := derives_token_cons h₁
      obtain ⟨v₃, rfl, h₃⟩ := derives_token_cons h₂
      obtain ⟨v₄, rfl, h₄⟩ := derives_ident_cons h₃
      rw [derives_ident h₄]
      exact ⟨_, rfl, .inr rfl⟩

/-- A block that derives something is empty, or a block and a variable: one rule for the first
variable is not needed. -/
theorem derives_structBlock {vs : List NVariable}
    (h : Derives .token anyRule [.structBlock vs] w) :
    (vs = [] ∧ w = []) ∨ ∃ vs' v u x, vs = vs' ++ [v] ∧ w = u ++ x ++ [.tSemicolon] ∧
      Derives .token anyRule [.structBlock vs'] u ∧ Derives .token anyRule [.structBlockStmt v] x := by
  rcases h.single with ⟨t, ht, _⟩ | ⟨_, rhs, hr, hd⟩
  · cases ht
  · cases hr with
    | structBlock_empty => exact .inl ⟨rfl, hd.eq_nil rfl⟩
    | structBlock v =>
      obtain ⟨x, y, rfl, hx, hy⟩ := hd.split_cons
      rw [derives_token hy]
      refine .inr ⟨[], v, [], x, rfl, rfl, ?_, hx⟩
      have hnil : Derives .token anyRule ([] ++ []) [] := .nil
      have hempty : anyRule none [] (.structBlock []) := .structBlock_empty
      exact hnil.reduce hempty
    | structBlock_structBlock vs' v =>
      obtain ⟨u, y, rfl, hu, hy⟩ := hd.split_cons
      obtain ⟨x, z, rfl, hx, hz⟩ := hy.split_cons
      rw [derives_token hz]
      exact .inr ⟨vs', v, u, x, rfl, (List.append_assoc ..).symm, hu, hx⟩

theorem derives_structStmt {s : NStatement} (h : Derives .token anyRule [.structStmt s] w) :
    ∃ i vs u, s = .nStructStatement i vs ∧
      w = [.tStruct, .tIdentifier i.name_, .tBraceOpen] ++ u ++ [.tBraceClose] ∧
      Derives .token anyRule [.structBlock vs] u := by
  rcases h.single with ⟨t, ht, _⟩ | ⟨_, rhs, hr, hd⟩
  · cases ht
  · cases hr with
    | structStmt i vs =>
      obtain ⟨v₁, rfl, h₁⟩ := derives_token_cons hd
      obtain ⟨v₂, rfl, h₂⟩ := derives_ident_cons h₁
      obtain ⟨v₃, rfl, h₃⟩ := derives_token_cons h₂
      obtain ⟨u, v, rfl, hu, hv⟩ := h₃.split_cons
      rw [derives_token hv]
      exact ⟨i, vs, u, rfl, rfl, hu⟩

theorem derives_stmt {s : NStatement} (h : Derives .token anyRule [.stmt s] w) :
    Derives .token anyRule [.usingStmt s] w ∨ Derives .token anyRule [.structStmt s] w := by
  rcases h.single with ⟨t, ht, _⟩ | ⟨_, rhs, hr, hd⟩
  · cases ht
  · cases hr with
    | stmt_using => exact .inl hd
    | stmt_struct => exact .inr hd

theorem derives_stmts {ss : List NStatement} (h : Derives .token anyRule [.stmts ss] w) :
    ∃ ss' s u x, ss = ss' ++ [s] ∧ w = u ++ x ++ [.tSemicolon] ∧
      ((ss' = [] ∧ u = []) ∨ Derives .token anyRule [.stmts ss'] u) ∧
      Derives .token anyRule [.stmt s] x := by
  rcases h.single with ⟨t, ht, _⟩ | ⟨_, rhs, hr, hd⟩
  · cases ht
  · cases hr with
    | stmts s =>
      obtain ⟨x, y, rfl, hx, hy⟩ := hd.split_cons
      rw [derives_token hy]
      exact ⟨[], s, [], x, rfl, rfl, .inl ⟨rfl, rfl⟩, hx⟩
    | stmts_stmts ss' s =>
      obtain ⟨u, y, rfl, hu, hy⟩ := hd.split_cons
      obtain ⟨x, z, rfl, hx, hz⟩ := hy.split_cons
      rw [derives_token hz]
      exact ⟨ss', s, u, x, rfl, (List.append_assoc ..).symm, .inr hu, hx⟩

theorem derives_program {p : NProgram} (h : Sentence w p) :
    Derives .token anyRule [.stmts p.vecp_] w := by
  rcases h.single with ⟨t, ht, _⟩ | ⟨_, rhs, hr, hd⟩
  · cases ht
  · cases hr
    exact hd

end Words

end CPPCodes.Serialize
