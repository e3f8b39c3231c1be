import Mathlib.Data.Int.Basic
import Mathlib.Data.Finset.Insert

/-!
# The Hex board

`HexBoard` of Hex.h with its methods. The set `board_`, whose elements carry their owner, is a
partial map from cells to players; `winner_`, `winner_path_` and `evaluated_` are the mutable
members the search writes. A method that ends in a failed assert returns `none`.
-/

namespace CPPCodes.Game

inductive Player
  | kFree
  | kPlayer1
  | kPlayer2
  deriving DecidableEq, Repr

def nextPlayer : Player → Option Player
  | .kFree => none
  | .kPlayer1 => some .kPlayer2
  | .kPlayer2 => some .kPlayer1

/-- A cell: the column `q_` and the row `r_`, in the constructor's order. -/
@[ext]
structure Hex where
  q : Int16
  r : Int16
  deriving DecidableEq, Repr

instance : Add Hex := ⟨fun h d => ⟨h.q + d.q, h.r + d.r⟩⟩

def kDirections : List Hex :=
  [⟨1, 0⟩, ⟨1, -1⟩, ⟨0, -1⟩, ⟨-1, 0⟩, ⟨-1, 1⟩, ⟨0, 1⟩]

/-- `Hex::ForEachNeighbor`: the neighbours in turn, until `func` says to stop. -/
def forEachNeighbor {σ : Type} (func : σ → Hex → Option (σ × Bool)) (h : Hex) :
    List Hex → σ → Option σ
  | [], s => some s
  | d :: ds, s =>
    match func s (h + d) with
    | none => none
    | some (s', true) => forEachNeighbor func h ds s'
    | some (s', false) => some s'

structure HexBoard where
  nrows : UInt16
  board : Hex → Option Player
  movesPossible : UInt16
  movesPlayed : UInt16
  winner : Player
  winnerPath : List Hex
  evaluated : Finset Hex

namespace HexBoard

/-- `board_.emplace`: a new free cell, unless the cell is there already. -/
def emplace (board : Hex → Option Player) (h : Hex) : Hex → Option Player :=
  if board h = none then Function.update board h (some .kFree) else board

/-- The constructor: `nrows` rows of `nrows` free cells. -/
def new (nrows : UInt16) : HexBoard where
  nrows := nrows
  board := (List.range nrows.toNat).foldl (fun b row =>
    (List.range nrows.toNat).foldl (fun b col => emplace b ⟨.ofNat col, .ofNat row⟩) b)
    fun _ => none
  movesPossible := nrows * nrows
  movesPlayed := 0
  winner := .kFree
  winnerPath := []
  evaluated := ∅

variable (b : HexBoard)

def isFree (h : Hex) : Bool := b.board h = some .kFree

def hasWinner : Bool := b.winner ≠ .kFree

def hasValidMove : Bool := b.movesPlayed = b.movesPossible

def setWinner (player : Player) : Option HexBoard :=
  if b.hasWinner then none else some { b with winner := player }

/-- `winner_path_.emplace_back` and `evaluated_.emplace` of the same cell. -/
def push (h : Hex) : HexBoard :=
  { b with winnerPath := b.winnerPath ++ [h], evaluated := insert h b.evaluated }

/-- `winner_path_.pop_back`. -/
def pop : HexBoard := { b with winnerPath := b.winnerPath.dropLast }

/-- `evaluated_.clear`. -/
def unmark : HexBoard := { b with evaluated := ∅ }

/-- The goal edge: the last row for the first player, the last column for the second. -/
def atGoal (player : Player) (h : Hex) : Bool :=
  match player with
  | .kFree => false
  | .kPlayer1 => (b.nrows.toNat : ℤ) - 1 ≤ h.r.toInt
  | .kPlayer2 => (b.nrows.toNat : ℤ) - 1 ≤ h.q.toInt

/-- The lambda of `IsPlayerWinner`, which calls `IsPlayerWinner` again as `search`. -/
def visitNeighbor (search : HexBoard → Hex → Option HexBoard) (player : Player) (b : HexBoard)
    (neighbor : Hex) : Option (HexBoard × Bool) :=
  if neighbor ∈ b.evaluated then some (b, true)
  else if b.board neighbor ≠ some player then some (b, true)
  else
    let b := b.push neighbor
    if b.atGoal player neighbor then (b.setWinner player).map (·, false)
    else
      match search b neighbor with
      | none => none
      | some b => if b.hasWinner then some (b, false) else some (b.pop, true)

/-- `IsPlayerWinner`, to a depth of `fuel` calls; deeper it counts as failed. -/
def isPlayerWinner (player : Player) : ℕ → HexBoard → Hex → Option HexBoard
  | 0, _, _ => none
  | fuel + 1, b, current =>
    if player = .kFree ∨ b.hasWinner then none
    else forEachNeighbor (visitNeighbor (isPlayerWinner player fuel) player) current kDirections b

/-- No search is deeper than the board has cells. -/
def depth : ℕ := b.nrows.toNat * b.nrows.toNat + 1

/-- The loop of `IsGameOver` over the start edge, from the counter values `cs` on. -/
def startLoop (current : Player) : List ℕ → Int16 → Int16 → HexBoard → Option HexBoard
  | [], _, _, b => some b
  | c :: cs, row, col, b =>
    let b := b.unmark
    let col := if current = .kPlayer1 ∧ 0 < c then col + 1 else col
    let row := if current = .kPlayer2 ∧ 0 < c then row + 1 else row
    if b.winnerPath ≠ [] then none
    else
      match b.board ⟨col, row⟩ with
      | none => none
      | some owner =>
        if owner ≠ current then startLoop current cs row col b
        else
          match isPlayerWinner current b.depth (b.push ⟨col, row⟩) ⟨col, row⟩ with
          | none => none
          | some b =>
            if b.hasWinner then some b
            else if b.winnerPath.length ≠ 1 then none
            else startLoop current cs row col b.pop

/-- `IsGameOver`, with the board as the search leaves it. -/
def isGameOver (current : Player) : Option (HexBoard × Bool) :=
  if current = .kFree then none
  else if b.hasWinner then some (b, true)
  else if b.winnerPath ≠ [] then none
  else
    match startLoop current (List.range b.nrows.toNat) 0 0 b with
    | none => none
    | some b =>
      let b := b.unmark
      if b.hasWinner then if b.winnerPath = [] then none else some (b, true)
      else if b.winnerPath ≠ [] then none
      else some (b, b.hasValidMove)

/-- The cell taken and the move counted, before `PlayerPlayed` looks for a winner. -/
def take (h : Hex) (player : Player) : HexBoard :=
  { b with
    board := Function.update b.board h (some player)
    movesPlayed := b.movesPlayed + 1 }

def playerPlayed (h : Hex) (player : Player) : Option (HexBoard × Bool) :=
  if b.isFree h then ((b.take h player).isGameOver player).map fun r => (r.1, true)
  else some (b, false)

end HexBoard

end CPPCodes.Game
