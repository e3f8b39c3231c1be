import CPPCodes.Hex.Search
import Mathlib.Data.Finset.Prod
import Mathlib.Tactic.Linarith

/-!
# What `IsGameOver` leaves behind

The constructor makes the cells `cell q r` with `q, r < nrows`, all free. `isGameOver` searches
from each cell of the player's start edge in turn. Without success every start cell is a dead end
and the path is empty again; with success the path is a chain from the start edge to the goal edge
(`isGameOver_spec`).
-/

namespace CPPCodes.Game

/-- The cell in column `q` and row `r`. -/
def cell (q r : ℕ) : Hex := ⟨.ofNat q, .ofNat r⟩

namespace HexBoard

/-- The cells of a board of `n` rows. -/
def cells (n : ℕ) : Finset Hex := (Finset.range n ×ˢ Finset.range n).image fun x => cell x.1 x.2

theorem mem_cells {n : ℕ} {h : Hex} : h ∈ cells n ↔ ∃ q r, q < n ∧ r < n ∧ cell q r = h := by
  simp only [cells, Finset.mem_image, Finset.mem_product, Finset.mem_range, Prod.exists]
  simp only [and_assoc]

/-- The board whose cells are `S`, all free. -/
def freeOn (S : Finset Hex) (h : Hex) : Option Player := if h ∈ S then some .kFree else none

theorem emplace_freeOn (S : Finset Hex) (h : Hex) : emplace (freeOn S) h = freeOn (insert h S) := by
  unfold emplace
  by_cases hm : h ∈ S
  · simp [freeOn, hm]
  · simp only [freeOn, hm, if_false, if_true]
    funext h'
    by_cases he : h' = h <;> simp [he, freeOn]

theorem foldl_emplace (f : ℕ → Hex) : ∀ (xs : List ℕ) (S : Finset Hex),
    xs.foldl (fun b x => emplace b (f x)) (freeOn S) = freeOn (S ∪ (xs.map f).toFinset)
  | [], S => by simp
  | x :: xs, S => by
    rw [List.foldl_cons, emplace_freeOn, foldl_emplace f xs]
    congr 1
    ext h
    simp only [Finset.mem_union, Finset.mem_insert, List.map_cons, List.toFinset_cons]
    tauto

theorem foldl_rows (n : ℕ) : ∀ (rows : List ℕ) (S : Finset Hex),
    rows.foldl (fun b row => (List.range n).foldl (fun b col => emplace b (cell col row)) b)
        (freeOn S)
      = freeOn (S ∪ (rows.flatMap fun row => (List.range n).map (cell · row)).toFinset)
  | [], S => by simp
  | row :: rows, S => by
    rw [List.foldl_cons, foldl_emplace (cell · row), foldl_rows n rows]
    congr 1
    ext h
    simp only [Finset.mem_union, List.flatMap_cons, List.toFinset_append]
    tauto

theorem board_new (nrows : UInt16) : (new nrows).board = freeOn (cells nrows.toNat) := by
  have h := foldl_rows nrows.toNat (List.range nrows.toNat) ∅
  have hset : (∅ ∪ ((List.range nrows.toNat).flatMap fun row =>
      (List.range nrows.toNat).map (cell · row)).toFinset) = cells nrows.toNat := by
    ext c
    simp only [Finset.empty_union, List.mem_toFinset, List.mem_flatMap, List.mem_range,
      List.mem_map, mem_cells]
    constructor
    · rintro ⟨r, hr, q, hq, rfl⟩
      exact ⟨q, r, hq, hr, rfl⟩
    · rintro ⟨q, r, hq, hr, rfl⟩
      exact ⟨r, hr, q, hq, rfl⟩
  rw [hset] at h
  rw [← h]
  rfl

/-- The first row for the first player, the first column for the second. -/
def OnStart (p : Player) (h : Hex) : Prop :=
  match p with
  | .kFree => False
  | .kPlayer1 => h.r.toInt = 0
  | .kPlayer2 => h.q.toInt = 0

/-- The last row for the first player, the last column for the second. -/
def OnGoal (n : ℕ) (p : Player) (h : Hex) : Prop :=
  match p with
  | .kFree => False
  | .kPlayer1 => h.r.toInt = n - 1
  | .kPlayer2 => h.q.toInt = n - 1

/-- A chain of the player's cells between the two edges. -/
structure IsChain (b : HexBoard) (p : Player) (path : List Hex) : Prop where
  adjacent : path.IsChain Adjacent
  owned : ∀ h ∈ path, b.board h = some p
  start : ∃ h, path.head? = some h ∧ OnStart p h
  goal : ∃ h, path.getLast? = some h ∧ OnGoal b.nrows.toNat p h

def HasChain (b : HexBoard) (p : Player) : Prop := ∃ path, b.IsChain p path

/-- The column and the row that `startLoop` has counted up to when its counter is `c`. -/
def startCol (p : Player) (c : ℕ) : ℕ := if p = .kPlayer1 then c else 0

def startRow (p : Player) (c : ℕ) : ℕ := if p = .kPlayer2 then c else 0

/-- The cell of the start edge that `startLoop` looks at when its counter is `c`. -/
def startCell (p : Player) (c : ℕ) : Hex := cell (startCol p c) (startRow p c)

/-- The cells reachable from `s` are never past the goal edge, `s` itself apart. -/
def DeadEnd (p : Player) (b : HexBoard) (s : Hex) : Prop :=
  ∃ E : Finset Hex, s ∈ E ∧ (∀ e ∈ E, ∀ e', Adjacent e e' → b.board e' = some p → e' ∈ E) ∧
    ∀ e ∈ E, e ≠ s → b.atGoal p e = false

variable {b b' : HexBoard} {p : Player}

theorem SameGame.deadEnd {s : Hex} (h : SameGame b b') : DeadEnd p b' s ↔ DeadEnd p b s := by
  unfold DeadEnd
  simp only [h.board, h.atGoal]

theorem SameGame.isChain {path : List Hex} (h : SameGame b b') :
    b'.IsChain p path ↔ b.IsChain p path := by
  constructor <;> intro hc
  · exact ⟨hc.adjacent, by rw [← h.board]; exact hc.owned, hc.start, by rw [← h.nrows]; exact hc.goal⟩
  · exact ⟨hc.adjacent, by rw [h.board]; exact hc.owned, hc.start, by rw [h.nrows]; exact hc.goal⟩

theorem SameGame.hasChain (h : SameGame b b') : b'.HasChain p ↔ b.HasChain p :=
  exists_congr fun _ => h.isChain

/-- Cells joined to a cell of a closed set through the player's cells are in it. -/
theorem mem_of_isChain {E : Finset Hex}
    (hE : ∀ e ∈ E, ∀ e', Adjacent e e' → b.board e' = some p → e' ∈ E) :
    ∀ (path : List Hex) (s : Hex), s ∈ E → (s :: path).IsChain Adjacent →
      (∀ h ∈ path, b.board h = some p) → ∀ h ∈ path, h ∈ E
  | [], _, _, _, _ => by simp
  | n :: path, s, hs, hc, ho => by
    rw [List.isChain_cons_cons] at hc
    have hn := hE s hs n hc.1 (ho n List.mem_cons_self)
    intro h hh
    rcases List.mem_cons.1 hh with rfl | hh
    · exact hn
    · exact mem_of_isChain hE path n hn hc.2 (fun e he => ho e (List.mem_cons_of_mem _ he)) h hh

/-- The state of a board between calls. -/
structure Shape (n : ℕ) (b : HexBoard) : Prop where
  nrows : b.nrows.toNat = n
  board : ∀ h, b.board h ≠ none ↔ h ∈ cells n
  path : b.winner = .kFree → b.winnerPath = []

theorem SameGame.shape {n : ℕ} (h : SameGame b b') (hs : Shape n b)
    (hp : b'.winner = .kFree → b'.winnerPath = []) : Shape n b' :=
  ⟨by rw [h.nrows, hs.nrows], fun c => by rw [h.board, hs.board], hp⟩

theorem shape_new (nrows : UInt16) : Shape nrows.toNat (new nrows) where
  nrows := rfl
  board h := by
    rw [board_new, freeOn]
    split_ifs with hm <;> simp [hm]
  path _ := rfl

theorem shape_take {n : ℕ} {h : Hex} (hs : Shape n b) (hf : b.isFree h = true) :
    Shape n (b.take h p) where
  nrows := hs.nrows
  board c := by
    have hb : b.board h = some .kFree := by simpa [isFree] using hf
    by_cases hc : c = h
    · subst hc
      simp [take, ← hs.board, hb]
    · simp [take, hc, hs.board]
  path := hs.path

/-- What a search from the start edge leaves when it succeeds. -/
structure Found (p : Player) (b b' : HexBoard) : Prop where
  same : SameGame b b'
  winner : b'.winner = p
  adjacent : b'.winnerPath.IsChain Adjacent
  owned : ∀ h ∈ b'.winnerPath, b.board h = some p
  nodup : b'.winnerPath.Nodup
  start : ∃ i < b.nrows.toNat, b'.winnerPath.head? = some (startCell p i)
  goal : ∃ g, b'.winnerPath.getLast? = some g ∧ b.atGoal p g = true

/-- What the searches from the start cells `c` to `c + m - 1` leave when none succeeds. -/
structure NotFound (p : Player) (c m : ℕ) (b b' : HexBoard) : Prop where
  same : SameGame b b'
  winner : b'.winner = .kFree
  path : b'.winnerPath = []
  dead : ∀ i, c ≤ i → i < c + m → b.board (startCell p i) = some p → DeadEnd p b (startCell p i)

theorem card_cells_le (n : ℕ) : (cells n).card ≤ n * n := by
  refine Finset.card_image_le.trans ?_
  simp

theorem deadEnd_of_explored {s : Hex} (hm : b.evaluated = {s}) (he : Explored p b b')
    (hc : Closed p b' s) : DeadEnd p b s := by
  have hnot : ∀ {e}, e ≠ s → e ∉ b.evaluated := by
    intro e hne
    simpa [hm] using hne
  refine ⟨b'.evaluated, he.sub (by simp [hm]), fun e hmem e' ha ho => ?_,
    fun e hmem hne => he.notGoal e hmem (hnot hne)⟩
  have hb : b'.board e' = some p := by rw [he.same.board]; exact ho
  by_cases hes : e = s
  · subst hes
    exact hc e' ha hb
  · exact he.closed e hmem (hnot hes) e' ha hb

theorem ofNat_pred_succ {c : ℕ} (h : 0 < c) : Int16.ofNat (c - 1) + 1 = Int16.ofNat c := by
  have := Int16.ofNat_add (c - 1) 1
  rw [Nat.sub_add_cancel h] at this
  rw [this]
  rfl

theorem startCol_step (p : Player) (c : ℕ) :
    (if p = .kPlayer1 ∧ 0 < c then Int16.ofNat (startCol p (c - 1)) + 1
      else Int16.ofNat (startCol p (c - 1))) = Int16.ofNat (startCol p c) := by
  unfold startCol
  by_cases hp : p = .kPlayer1 <;> by_cases hc : 0 < c
  · simp [hp, hc, ofNat_pred_succ]
  · simp [hp, show c = 0 by omega]
  · simp [hp]
  · simp [hp]

theorem startRow_step (p : Player) (c : ℕ) :
    (if p = .kPlayer2 ∧ 0 < c then Int16.ofNat (startRow p (c - 1)) + 1
      else Int16.ofNat (startRow p (c - 1))) = Int16.ofNat (startRow p c) := by
  unfold startRow
  by_cases hp : p = .kPlayer2 <;> by_cases hc : 0 < c
  · simp [hp, hc, ofNat_pred_succ]
  · simp [hp, show c = 0 by omega]
  · simp [hp]
  · simp [hp]

theorem startCell_mem {n c : ℕ} (h : c < n) (p : Player) : startCell p c ∈ cells n := by
  refine mem_cells.2 ⟨_, _, ?_, ?_, rfl⟩
  · unfold startCol
    split_ifs <;> omega
  · unfold startRow
    split_ifs <;> omega

/-- One start cell: the search from it either ends at the goal edge or marks a dead end. -/
theorem searchFrom_spec {n : ℕ} {s : Hex} (hp : p ≠ .kFree) (hs : Shape n b)
    (hw : b.winner = .kFree) (hm : b.evaluated = ∅) :
    ∃ b', isPlayerWinner p b.depth (b.push s) s = some b' ∧
      (Explored p (b.push s) b' ∧ DeadEnd p b s ∨ Won p s (b.push s) b') := by
  have hk : (cells n \ (b.push s).evaluated).card < b.depth := by
    have h1 : (cells n \ (b.push s).evaluated).card ≤ (cells n).card :=
      Finset.card_le_card Finset.sdiff_subset
    have h2 := card_cells_le n
    rw [depth, hs.nrows]
    omega
  obtain ⟨b', hb', h⟩ := isPlayerWinner_spec hp b.depth (b.push s) s hw
    (fun c hc => (hs.board c).1 hc) hk
  refine ⟨b', hb', ?_⟩
  rcases h with ⟨he, hc⟩ | hwon
  · exact .inl ⟨he, deadEnd_of_explored (b := b.push s) (by simp [push, hm]) he hc⟩
  · exact .inr hwon

theorem found_of_won {i : ℕ} (hi : i < b.nrows.toNat) (hpath : b.winnerPath = [])
    (ho : b.board (startCell p i) = some p) (hw : Won p (startCell p i) (b.push (startCell p i)) b') :
    Found p b b' := by
  obtain ⟨ext, hext, hf⟩ := hw.path
  have hwp : b'.winnerPath = startCell p i :: ext := by simp [hext, push, hpath]
  refine ⟨⟨hw.same.nrows, hw.same.board, hw.same.movesPossible, hw.same.movesPlayed⟩, hw.winner,
    ?_, ?_, ?_, ⟨i, hi, ?_⟩, ?_⟩ <;> rw [hwp]
  · exact hf.chain
  · intro h hh
    rcases List.mem_cons.1 hh with rfl | hh
    · exact ho
    · exact hf.owned h hh
  · refine List.nodup_cons.2 ⟨fun hmem => hf.unmarked _ hmem ?_, hf.nodup⟩
    exact Finset.mem_insert_self _ _
  · rfl
  · obtain ⟨g, hg, hgoal⟩ := hf.goal
    refine ⟨g, ?_, hgoal⟩
    rw [List.getLast?_cons, hg]
    rfl

theorem Found.of_same {b₁ : HexBoard} (h : SameGame b b₁) (hf : Found p b₁ b') : Found p b b' := by
  refine ⟨h.trans hf.same, hf.winner, hf.adjacent, ?_, hf.nodup, ?_, ?_⟩
  · rw [← h.board]
    exact hf.owned
  · rw [← h.nrows]
    exact hf.start
  · obtain ⟨g, hg, hgoal⟩ := hf.goal
    exact ⟨g, hg, by rw [← h.atGoal, hgoal]⟩

theorem NotFound.cons {c m : ℕ} {b₁ : HexBoard} (h : SameGame b b₁)
    (hd : b.board (startCell p c) = some p → DeadEnd p b (startCell p c))
    (hn : NotFound p (c + 1) m b₁ b') : NotFound p c (m + 1) b b' := by
  refine ⟨h.trans hn.same, hn.winner, hn.path, fun i hci him ho => ?_⟩
  rcases Nat.eq_or_lt_of_le hci with rfl | hlt
  · exact hd ho
  · exact h.deadEnd.1 (hn.dead i hlt (by omega) (by rw [h.board]; exact ho))

theorem SameGame.unmark (b : HexBoard) : SameGame b b.unmark := ⟨rfl, rfl, rfl, rfl⟩

theorem startLoop_spec {n : ℕ} (hp : p ≠ .kFree) :
    ∀ (m c : ℕ) (b : HexBoard), c + m = n → Shape n b → b.winner = .kFree →
      ∃ b', startLoop p (List.range' c m) (.ofNat (startRow p (c - 1)))
          (.ofNat (startCol p (c - 1))) b = some b' ∧ (NotFound p c m b b' ∨ Found p b b')
  | 0, c, b, _, hs, hw => by
    refine ⟨b, rfl, .inl ⟨.refl b, hw, hs.path hw, fun i h1 h2 => ?_⟩⟩
    omega
  | m + 1, c, b, hc, hs, hw => by
    have h₀ := SameGame.unmark b
    have hs₀ : Shape n b.unmark := h₀.shape hs fun _ => hs.path hw
    have hpath : b.unmark.winnerPath = [] := hs.path hw
    obtain ⟨owner, ho⟩ := Option.ne_none_iff_exists'.1
      ((hs₀.board (startCell p c)).2 (startCell_mem (by omega) p))
    have hcell : (⟨.ofNat (startCol p c), .ofNat (startRow p c)⟩ : Hex) = startCell p c := rfl
    simp only [List.range'_succ, startLoop, startCol_step, startRow_step, hpath, hcell, ho, ne_eq,
      not_true_eq_false, if_false]
    by_cases hop : owner = p
    · rw [hop] at ho
      obtain ⟨b₁, hb₁, h⟩ := searchFrom_spec (s := startCell p c) hp hs₀ hw rfl
      simp only [hop, not_true_eq_false, if_false, hb₁]
      rcases h with ⟨he, hd⟩ | hwon
      · have hw₁ : b₁.winner = .kFree := he.winner.trans hw
        have hp₁ : b₁.winnerPath = [startCell p c] := by
          rw [he.path, push, hpath, List.nil_append]
        have h₁ : SameGame b b₁.pop := ⟨he.same.nrows, he.same.board, he.same.movesPossible,
          he.same.movesPlayed⟩
        have hs₁ : Shape n b₁.pop := h₁.shape hs fun _ => by simp [pop, hp₁]
        obtain ⟨b', hb', h'⟩ := startLoop_spec hp m (c + 1) b₁.pop (by omega) hs₁ hw₁
        refine ⟨b', ?_, ?_⟩
        · simpa [hasWinner, hw₁, hp₁] using hb'
        · rcases h' with hn | hf
          · exact .inl (.cons h₁ (fun _ => h₀.deadEnd.1 hd) hn)
          · exact .inr (.of_same h₁ hf)
      · have hw₁ : b₁.winner = p := hwon.winner
        refine ⟨b₁, by simp [hasWinner, hw₁, hp], .inr (.of_same h₀ ?_)⟩
        exact found_of_won (by rw [hs₀.nrows]; omega) hpath ho hwon
    · rw [if_pos hop]
      obtain ⟨b', hb', h'⟩ := startLoop_spec hp m (c + 1) b.unmark (by omega) hs₀ hw
      refine ⟨b', hb', ?_⟩
      rcases h' with hn | hf
      · refine .inl (.cons h₀ (fun hb => ?_) hn)
        exact absurd (Option.some.inj (ho.symm.trans hb)) hop
      · exact .inr (.of_same h₀ hf)

theorem NotFound.unmark {c m : ℕ} (h : NotFound p c m b b') : NotFound p c m b b'.unmark :=
  ⟨h.same.trans (.unmark b'), h.winner, h.path, h.dead⟩

theorem Found.unmark (h : Found p b b') : Found p b b'.unmark :=
  ⟨h.same.trans (.unmark b'), h.winner, h.adjacent, h.owned, h.nodup, h.start, h.goal⟩

theorem Found.path_ne_nil (h : Found p b b') : b'.winnerPath ≠ [] := by
  obtain ⟨i, -, hi⟩ := h.start
  intro hnil
  simp [hnil] at hi

/-- `IsGameOver` on a board without a winner. -/
theorem isGameOver_spec {n : ℕ} (hp : p ≠ .kFree) (hs : Shape n b) (hw : b.winner = .kFree) :
    ∃ b' ended, b.isGameOver p = some (b', ended) ∧ b'.evaluated = ∅ ∧
      (NotFound p 0 n b b' ∧ ended = b.hasValidMove ∨ Found p b b' ∧ ended = true) := by
  obtain ⟨b', hb', h⟩ := startLoop_spec hp n 0 b (by omega) hs hw
  have hrange : startLoop p (List.range b.nrows.toNat) 0 0 b = some b' := by
    rw [← hb', hs.nrows, List.range_eq_range']
    simp [startRow, startCol]
  unfold isGameOver
  simp only [hp, hasWinner, hw, hs.path hw, hrange, ne_eq, not_true_eq_false, decide_false,
    Bool.false_eq_true, if_false]
  rcases h with hn | hf
  · refine ⟨b'.unmark, b.hasValidMove, ?_, rfl, .inl ⟨hn.unmark, rfl⟩⟩
    have h1 := hn.unmark.winner
    have h2 := hn.unmark.path
    have h3 : b'.unmark.hasValidMove = b.hasValidMove := by
      simp [hasValidMove, hn.unmark.same.movesPlayed, hn.unmark.same.movesPossible]
    simp [h1, h2, h3]
  · refine ⟨b'.unmark, true, ?_, rfl, .inr ⟨hf.unmark, rfl⟩⟩
    have h1 := hf.unmark.winner
    have h2 := hf.unmark.path_ne_nil
    simp [h1, hp, h2]

end HexBoard

end CPPCodes.Game
