import CPPCodes.Hex.Inert
import Mathlib.Order.Interval.Finset.Nat

/-!
# When the game is over

The full-board test compares two 16-bit counters, the number of moves and the product of the rows.
Up to 255 rows neither wraps, and `IsGameOver` says yes exactly when there is a winner or the board
is full. From 256 rows on the product wraps, and the counters agree on a board whose first row is
free: after as many moves below that row as the wrapped product says (`exists_stones`).
-/

namespace CPPCodes.Game

namespace HexBoard

variable {b b' : HexBoard} {p : Player} {n : ℕ} {h : Hex}

/-- In every state, `IsGameOver` for either player answers, and says yes if and only if there is a
winner or every cell is taken. -/
def GameOverLaw (nrows : UInt16) : Prop :=
  ∀ b, Reachable nrows b → ∀ p, p ≠ .kFree →
    ∃ b' ended, b.isGameOver p = some (b', ended) ∧ (ended = true ↔ b.hasWinner = true ∨ b.Full)

theorem Reachable.counted {nrows : UInt16} (hr : Reachable nrows b) : Counted nrows.toNat b :=
  (hr.invariant (I := fun b => Shape nrows.toNat b ∧ Counted nrows.toNat b)
    (fun _ _ _ hI hc => ⟨shape_step hI.1 hc, counted_step hI.1 hI.2 hc⟩)
    ⟨shape_new nrows, counted_new nrows⟩).2

theorem hasValidMove_of_full (hn : n ≤ 65536) (hs : Shape n b) (hc : Counted n b) (hf : b.Full) :
    b.hasValidMove = true := by
  have hall : occupied n b = cells n := by
    refine Finset.filter_eq_self.2 fun h hh => ?_
    obtain ⟨q, r, hq, hr, rfl⟩ := mem_cells.1 hh
    obtain ⟨p, hp, hb⟩ := hf q r (hs.nrows.symm ▸ hq) (hs.nrows.symm ▸ hr)
    simpa [hb] using hp
  simp only [hasValidMove, decide_eq_true_eq]
  rw [hc.played, hc.possible, hall, card_cells hn]

/-- Below 256 rows the counters agree exactly on a full board. -/
theorem gameOverLaw_of_le {nrows : UInt16} (h1 : 1 ≤ nrows.toNat) (hn : nrows.toNat ≤ 255) :
    GameOverLaw nrows := by
  intro b hr p hp
  refine ⟨b, _, (hr.settled h1 (by omega)).isGameOver hp (hr.pathInv (by omega)), ?_⟩
  rw [Bool.or_eq_true]
  refine or_congr_right ⟨?_, ?_⟩
  · exact full_of_hasValidMove hn hr.shape hr.counted
  · exact hasValidMove_of_full (by omega) hr.shape hr.counted

/-- A board without a winner on which the first player has exactly the cells of `S`, none of them
in the first row. -/
structure Stones (n : ℕ) (S : Finset Hex) (b : HexBoard) : Prop where
  shape : Shape n b
  winner : b.winner = .kFree
  board : ∀ h ∈ cells n, b.board h = some (if h ∈ S then .kPlayer1 else .kFree)
  row : ∀ h ∈ S, h.r ≠ 0

/-- The search of the first player begins in the first row, so it finds nothing. -/
theorem Stones.not_found {S : Finset Hex} (hS : Stones n S b) : ¬ Found .kPlayer1 b b' := by
  intro hf
  obtain ⟨i, hi, hhead⟩ := hf.start
  have ho := hf.owned _ (List.mem_of_mem_head? hhead)
  rw [hS.shape.nrows] at hi
  rw [hS.board _ (startCell_mem hi _)] at ho
  split_ifs at ho with hmem
  · exact hS.row _ hmem rfl
  · simp at ho

/-- Its first cell is free. -/
theorem Stones.not_full {S : Finset Hex} (hS : Stones n S b) (hn : 0 < n) : ¬ b.Full := by
  intro hfull
  obtain ⟨p, hp, ho⟩ := hfull 0 0 (by rwa [hS.shape.nrows]) (by rwa [hS.shape.nrows])
  have hfree : cell 0 0 ∉ S := fun hm => hS.row _ hm rfl
  rw [hS.board _ (mem_cells.2 ⟨0, 0, hn, hn, rfl⟩), if_neg hfree] at ho
  exact hp (Option.some.inj ho).symm

/-- And still `IsGameOver` says yes as soon as the counters agree. -/
theorem Stones.isGameOver {S : Finset Hex} (hS : Stones n S b) (hv : b.hasValidMove = true) :
    ∃ b', b.isGameOver .kPlayer1 = some (b', true) := by
  obtain ⟨b', ended, hb', -, ⟨-, rfl⟩ | ⟨hf, -⟩⟩ :=
    isGameOver_spec (p := .kPlayer1) (by decide) hS.shape hS.winner
  · exact ⟨b', hv ▸ hb'⟩
  · exact absurd hf hS.not_found

theorem stones_new (nrows : UInt16) : Stones nrows.toNat ∅ (new nrows) where
  shape := shape_new nrows
  winner := rfl
  board h hh := by simp [board_new, freeOn, hh]
  row := by simp

theorem Stones.same {S : Finset Hex} (hS : Stones n S b) (hsame : SameGame b b')
    (hw : b'.winner = .kFree) (hp : b'.winnerPath = []) : Stones n S b' where
  shape := hsame.shape hS.shape fun _ => hp
  winner := hw
  board h hh := by rw [hsame.board, hS.board h hh]
  row := hS.row

theorem Stones.take {S : Finset Hex} (hS : Stones n S b) (hm : h ∈ cells n) (hn : h ∉ S)
    (hrow : h.r ≠ 0) :
    b.isFree h = true ∧ Stones n (insert h S) (b.take h .kPlayer1) := by
  have hf : b.isFree h = true := by simp [isFree, hS.board h hm, hn]
  refine ⟨hf, shape_take hS.shape hf, hS.winner, fun e he => ?_, fun e he => ?_⟩
  · by_cases heh : e = h
    · simp [HexBoard.take, heh]
    · simp [HexBoard.take, heh, hS.board e he]
  · rcases Finset.mem_insert.1 he with rfl | he
    · exact hrow
    · exact hS.row e he

theorem Stones.step {S : Finset Hex} (hS : Stones n S b) (hm : h ∈ cells n) (hn : h ∉ S)
    (hrow : h.r ≠ 0) : ∃ b', Step b (.playerPlayed h .kPlayer1) b' ∧ Stones n (insert h S) b' := by
  obtain ⟨hf, hS'⟩ := hS.take hm hn hrow
  obtain ⟨b', ended, hb', -, ⟨hnf, -⟩ | ⟨hfound, -⟩⟩ :=
    isGameOver_spec (p := .kPlayer1) (by decide) hS'.shape hS'.winner
  · refine ⟨b', .playerPlayed h _ true (by decide) ?_, hS'.same hnf.same hnf.winner hnf.path⟩
    rw [playerPlayed, if_pos hf, hb', Option.map_some]
  · exact absurd hfound hS'.not_found

/-- Any set of cells below the first row is taken by moves of the first player alone. -/
theorem exists_stones (nrows : UInt16) (S : Finset Hex) :
    S ⊆ cells nrows.toNat → (∀ h ∈ S, h.r ≠ 0) →
      ∃ b, Reachable nrows b ∧ Stones nrows.toNat S b := by
  induction S using Finset.induction_on with
  | empty =>
    intro _ _
    exact ⟨new nrows, .refl _, stones_new nrows⟩
  | insert h S hn ih =>
    intro hsub hrow
    obtain ⟨b, hr, hS⟩ := ih (fun e he => hsub (Finset.mem_insert_of_mem he))
      fun e he => hrow e (Finset.mem_insert_of_mem he)
    obtain ⟨b', hstep, hS'⟩ := hS.step (hsub (Finset.mem_insert_self _ _)) hn
      (hrow h (Finset.mem_insert_self _ _))
    exact ⟨b', hr.tail hstep, hS'⟩

theorem Stones.occupied_eq {S : Finset Hex} (hS : Stones n S b) (hsub : S ⊆ cells n) :
    occupied n b = S := by
  ext h
  rw [mem_occupied]
  constructor
  · rintro ⟨hm, hne⟩
    by_contra hn
    rw [hS.board h hm, if_neg hn] at hne
    exact hne rfl
  · intro hm
    refine ⟨hsub hm, ?_⟩
    rw [hS.board h (hsub hm), if_pos hm]
    simp

/-- The cells below the first row. -/
def below (n : ℕ) : Finset Hex := (Finset.range n ×ˢ Finset.Ico 1 n).image fun x => cell x.1 x.2

theorem mem_below (hn : n ≤ 65535) (hm : h ∈ below n) : h ∈ cells n ∧ h.r ≠ 0 := by
  simp only [below, Finset.mem_image, Finset.mem_product, Finset.mem_range, Finset.mem_Ico,
    Prod.exists] at hm
  obtain ⟨q, r, ⟨hq, h1, hr⟩, rfl⟩ := hm
  refine ⟨mem_cells.2 ⟨q, r, hq, hr, rfl⟩, fun h0 => ?_⟩
  have he : cell 0 r = cell 0 0 := by
    simp only [cell, Hex.mk.injEq, true_and]
    exact h0
  have := (cell_inj (by omega) (by omega) (by omega) (by omega) he).2
  omega

theorem card_below (hn : n ≤ 65535) : (below n).card = n * (n - 1) := by
  rw [below, card_image_cell, Finset.card_product, Finset.card_range, Nat.card_Ico]
  intro x hx
  simp only [Finset.mem_product, Finset.mem_range, Finset.mem_Ico] at hx
  omega

theorem not_gameOverLaw {nrows : UInt16} (hn : 256 ≤ nrows.toNat) : ¬ GameOverLaw nrows := by
  intro hlaw
  have hlt : nrows.toNat < 65536 := nrows.toNat_lt
  obtain ⟨S, hsub, hcard⟩ : ∃ S ⊆ below nrows.toNat,
      S.card = nrows.toNat * nrows.toNat % 65536 := by
    refine Finset.exists_subset_card_eq ?_
    rw [card_below (by omega), Nat.mul_sub_one]
    have hle : 256 * 256 ≤ nrows.toNat * nrows.toNat := Nat.mul_le_mul hn hn
    omega
  have hS : ∀ h ∈ S, h ∈ cells nrows.toNat ∧ h.r ≠ 0 :=
    fun h hh => mem_below (by omega) (hsub hh)
  obtain ⟨b, hr, hb⟩ := exists_stones nrows S (fun h hh => (hS h hh).1) fun h hh => (hS h hh).2
  have hv : b.hasValidMove = true := by
    have hc := hr.counted
    simp only [hasValidMove, decide_eq_true_eq]
    rw [hc.played, hc.possible, hb.occupied_eq fun h hh => (hS h hh).1, hcard]
    refine UInt16.toNat_inj.1 ?_
    simp
  obtain ⟨b', ended, hb', hiff⟩ := hlaw b hr .kPlayer1 (by decide)
  obtain ⟨b₁, hb₁⟩ := hb.isGameOver hv
  obtain ⟨-, rfl⟩ := Prod.mk.inj (Option.some.inj (hb₁.symm.trans hb'))
  rcases hiff.1 rfl with hw | hfull
  · simp [hasWinner, hb.winner] at hw
  · exact hb.not_full (by omega) hfull

/-- The law holds in every state of the game on a board of up to 255 rows, and on no larger one. -/
theorem gameOverLaw_iff (nrows : UInt16) (h1 : 1 ≤ nrows.toNat) :
    GameOverLaw nrows ↔ nrows.toNat ≤ 255 := by
  refine ⟨fun hlaw => ?_, gameOverLaw_of_le h1⟩
  by_contra hn
  exact not_gameOverLaw (by omega) hlaw

theorem gameOverLaw_iff_seven : GameOverLaw 7 :=
  (gameOverLaw_iff 7 (by decide)).2 (by decide)

/-- On 256 rows the number of possible moves wraps to `0`. -/
theorem new_board_over :
    ∃ b', (new 256).isGameOver .kPlayer1 = some (b', true) ∧
      (new 256).hasWinner = false ∧ ¬ (new 256).Full := by
  have hS := stones_new 256
  obtain ⟨b', hb'⟩ := hS.isGameOver (show (new 256).hasValidMove = true by decide)
  exact ⟨b', hb', rfl, hS.not_full (by decide)⟩

theorem not_gameOverLaw_all : ¬ ∀ nrows : UInt16, 1 ≤ nrows.toNat → GameOverLaw nrows := by
  intro h
  obtain ⟨b', hb', hw, hf⟩ := new_board_over
  obtain ⟨b₁, ended, hb₁, hiff⟩ := h 256 (by decide) (new 256) (.refl _) .kPlayer1 (by decide)
  obtain ⟨-, rfl⟩ := Prod.mk.inj (Option.some.inj (hb'.symm.trans hb₁))
  rcases hiff.1 rfl with hw' | hf'
  · simp [hw] at hw'
  · exact hf hf'

end HexBoard

end CPPCodes.Game
