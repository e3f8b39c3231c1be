import CPPCodes.Hex.Calls
import CPPCodes.Hex.Draw
import CPPCodes.Lib.Sorting

/-!
# The order of the winner's path

`operator <` asks that both coordinates be smaller, so neighbouring cells are never in order, and
the path of a winner is a list of neighbours (`Linked`). Hence the comparison is a strict weak order
of the path only when it orders no two of its cells (`wellSorted_iff`), and a path that turns has
cells in order.
-/

namespace CPPCodes.Game

/-- `Hex::operator <`. -/
instance : LT Hex := ⟨fun h h' => h.q < h'.q ∧ h.r < h'.r⟩

theorem Hex.lt_def {h h' : Hex} : h < h' ↔ h.q < h'.q ∧ h.r < h'.r := Iff.rfl

instance : DecidableLT Hex := fun h h' => decidable_of_iff _ (@Hex.lt_def h h').symm

namespace HexBoard

/-- `GetWinnerPath` may return `path`: what `std::sort` leaves of a copy of `winner_path_`. -/
def getWinnerPath (b : HexBoard) (path : List Hex) : Prop :=
  Sorting.Sorts (· < ·) b.winnerPath path

/-- The comparison is a strict weak order of the winner's path, and `GetWinnerPath` returns the path
sorted by it. -/
structure WellSorted (b : HexBoard) : Prop where
  order : Sorting.StrictWeakOn (· < ·) b.winnerPath
  returns : ∃ path, b.getWinnerPath path
  sorted : ∀ path, b.getWinnerPath path → Sorting.Sorted (· < ·) b.winnerPath path

theorem wellSorted_iff_order {b : HexBoard} :
    b.WellSorted ↔ Sorting.StrictWeakOn (· < ·) b.winnerPath := by
  refine ⟨WellSorted.order, fun h => ⟨h, ?_, fun path hp => hp h⟩⟩
  obtain ⟨path, hp⟩ := h.exists_sorted
  exact ⟨path, fun _ => hp⟩

variable {b b' : HexBoard} {n : ℕ} {h h' : Hex}

theorem toInt_nonneg (hn : n ≤ 32768) (hm : h ∈ cells n) : 0 ≤ h.q.toInt ∧ 0 ≤ h.r.toInt := by
  obtain ⟨q, r, hq, hr, rfl⟩ := mem_cells.1 hm
  simp only [cell]
  rw [Int16.toInt_ofNat_of_lt (by omega), Int16.toInt_ofNat_of_lt (by omega)]
  omega

/-- A direction moves each coordinate by at most one, and never both of them the same way. -/
theorem direction_bound : ∀ d ∈ kDirections, (-1 ≤ d.q.toInt ∧ d.q.toInt ≤ 1) ∧
    (-1 ≤ d.r.toInt ∧ d.r.toInt ≤ 1) ∧ (d.q.toInt ≤ 0 ∨ d.r.toInt ≤ 0) ∧
    (0 ≤ d.q.toInt ∨ 0 ≤ d.r.toInt) := by
  decide

theorem toInt_add_of_nonneg {x d : Int16} (hd : -1 ≤ d.toInt ∧ d.toInt ≤ 1) (hx : 0 ≤ x.toInt)
    (hxd : 0 ≤ (x + d).toInt) : (x + d).toInt = x.toInt + d.toInt := by
  have hlt := x.toInt_lt
  rw [Int16.toInt_add, Int.bmod_def] at hxd ⊢
  omega

/-- On the board no coordinate wraps, so no neighbour of a cell is before or after it. -/
theorem not_lt_of_adjacent (hn : n ≤ 32768) (hm : h ∈ cells n) (hm' : h' ∈ cells n)
    (ha : Adjacent h h') : ¬ h < h' ∧ ¬ h' < h := by
  obtain ⟨d, hd, rfl⟩ := ha
  obtain ⟨hdq, hdr, hdown, hup⟩ := direction_bound d hd
  obtain ⟨hq, hr⟩ := toInt_nonneg hn hm
  obtain ⟨hq', hr'⟩ := toInt_nonneg hn hm'
  have heq : (h + d).q.toInt = h.q.toInt + d.q.toInt := toInt_add_of_nonneg hdq hq hq'
  have her : (h + d).r.toInt = h.r.toInt + d.r.toInt := toInt_add_of_nonneg hdr hr hr'
  simp only [Hex.lt_def, Int16.lt_iff_toInt_lt, heq, her]
  omega

/-- The path is a list of neighbouring cells of the board, and a winner has come to a goal edge
whose coordinate is not past the largest. -/
structure Linked (n : ℕ) (b : HexBoard) : Prop where
  adjacent : b.winnerPath.IsChain Adjacent
  onBoard : ∀ h ∈ b.winnerPath, h ∈ cells n
  rows : b.winner ≠ .kFree → n ≤ 32768

theorem le_of_atGoal {p : Player} (hs : Shape n b) (hg : b.atGoal p h = true) : n ≤ 32768 := by
  have hq := h.q.toInt_lt
  have hr := h.r.toInt_lt
  unfold atGoal at hg
  rw [hs.nrows] at hg
  split at hg <;> simp at hg <;> omega

theorem linked_of_found {p : Player} (hs : Shape n b) (hf : Found p b b') : Linked n b' where
  adjacent := hf.adjacent
  onBoard h hh := (hs.board h).1 (by simp [hf.owned h hh])
  rows _ := by
    obtain ⟨g, -, hg⟩ := hf.goal
    exact le_of_atGoal hs hg

theorem linked_step {c : Call} (hs : Shape n b) (hl : Linked n b) (hc : Step b c b') :
    Linked n b' := by
  rcases step_cases hs hc with ⟨b₀, hb₀, hsame, ⟨hw, hp⟩ | ⟨p, -, -, hf⟩⟩
  · exact ⟨hp ▸ hl.adjacent, hp ▸ hl.onBoard, hw ▸ hl.rows⟩
  · rcases hb₀ with rfl | ⟨h, p', -, hfree, rfl⟩
    · exact linked_of_found hs hf
    · exact linked_of_found (shape_take hs hfree) hf

theorem Reachable.linked {nrows : UInt16} (hr : Reachable nrows b) : Linked nrows.toNat b :=
  (hr.invariant (I := fun b => Shape nrows.toNat b ∧ Linked nrows.toNat b)
    (fun _ _ _ hI hc => ⟨shape_step hI.1 hc, linked_step hI.1 hI.2 hc⟩)
    ⟨shape_new nrows, .nil, by simp [new], fun hw => absurd rfl hw⟩).2

theorem Linked.incomparable (hl : Linked n b) (hw : b.winner ≠ .kFree) :
    b.winnerPath.IsChain fun h h' => ¬ h < h' ∧ ¬ h' < h := by
  refine hl.adjacent.imp_of_mem_imp fun h h' hm hm' ha => ?_
  exact not_lt_of_adjacent (hl.rows hw) (hl.onBoard h hm) (hl.onBoard h' hm') ha

/-- In every state with a winner, the comparison is a strict weak order of the winner's path, and
`GetWinnerPath` returns the path sorted, exactly when no cell of the path has both coordinates
smaller than another. -/
theorem wellSorted_iff (nrows : UInt16) (hr : Reachable nrows b) (hw : b.hasWinner = true) :
    b.WellSorted ↔ ∀ h ∈ b.winnerPath, ∀ h' ∈ b.winnerPath, ¬ h < h' := by
  have hne : b.winner ≠ .kFree := by simpa [hasWinner] using hw
  rw [wellSorted_iff_order, Sorting.strictWeakOn_iff (hr.linked.incomparable hne)]

/-- Three moves of the first player on the board of two rows: the path turns. -/
theorem winnerPath_turn :
    (playAll [(cell 0 0, .kPlayer1), (cell 1 0, .kPlayer1), (cell 1 1, .kPlayer1)] (new 2)).map
      (fun b => (b.hasWinner, b.winnerPath))
      = some (true, [cell 0 0, cell 1 0, cell 1 1]) := by
  decide +kernel

theorem wellSorted_iff_turn : ∃ b, Reachable 2 b ∧ b.hasWinner = true ∧ ¬ b.WellSorted := by
  obtain ⟨b, hb, hpath⟩ := Option.map_eq_some_iff.1 winnerPath_turn
  obtain ⟨hw, hp⟩ := Prod.mk.inj hpath
  have hr : Reachable 2 b := Reachable.playAll _ _ (.refl _) (by decide) hb
  refine ⟨b, hr, hw, fun hsorted => ?_⟩
  have hno := (wellSorted_iff 2 hr hw).1 hsorted
  rw [hp] at hno
  exact hno (cell 0 0) (by decide) (cell 1 1) (by decide) (by decide)

theorem not_wellSorted :
    ¬ ∀ (nrows : UInt16) (b : HexBoard), Reachable nrows b → b.hasWinner = true →
      b.WellSorted := by
  intro hall
  obtain ⟨b, hb, hpath⟩ := Option.map_eq_some_iff.1 winnerPath_turn
  obtain ⟨hw, hp⟩ := Prod.mk.inj hpath
  have hr : Reachable 2 b := Reachable.playAll _ _ (.refl _) (by decide) hb
  have hchain := hr.linked.incomparable (by simpa [hasWinner] using hw)
  have hno := (Sorting.strictWeakOn_iff hchain).1 (hall 2 b hr hw).order
  rw [hp] at hno
  exact hno (cell 0 0) (by decide) (cell 1 1) (by decide) (by decide)

end HexBoard

end CPPCodes.Game
