import CPPCodes.Hex.Calls
import CPPCodes.Hex.Draw
import CPPCodes.Hex.Path

/-!
# Asking changes nothing

`IsGameOver` writes the winner, the path and the marks, but between calls it finds them, and
leaves them, as they were: every chain was found by the search of the move that closed it
(`Settled`), so the search fails, and a failed search takes back what it has pushed
(`isGameOver_inert`).
-/

namespace CPPCodes.Game

namespace HexBoard

variable {b b' : HexBoard} {p : Player} {n : ℕ}

theorem Reachable.pathInv {nrows : UInt16} (hn : nrows.toNat < 32768) (hr : Reachable nrows b) :
    PathInv nrows.toNat b :=
  hr.invariant (fun _ _ _ hI hc => (hI.step hn hc).1) (pathInv_new nrows)

/-- While there is no winner, no search finds a path. -/
def Settled (b : HexBoard) : Prop :=
  ∀ p b' ended, p ≠ .kFree → b.isGameOver p = some (b', ended) → b.winner = .kFree →
    ¬ Found p b b'

theorem settled_of_inv (hn : n < 32768) (hI : Inv n b) : Settled b :=
  fun p _ _ hp _ hw hf =>
    hI.chain hw p hp (hf.same.hasChain.1 ⟨_, isChain_of_found hn hp hI.shape hf⟩)

/-! ## One row

The search tests a cell for the goal edge when it steps onto it, and on the board of one row there
is no cell to step onto.
-/

theorem not_won_one (hs : Shape 1 b) : ¬ Won p (cell 0 0) (b.push (cell 0 0)) b' := by
  rintro ⟨-, -, ext, -, hf⟩
  obtain ⟨g, hg, -⟩ := hf.goal
  have hmem := List.mem_of_getLast? hg
  obtain ⟨q, r, hq, hr, rfl⟩ := mem_cells.1 ((hs.board g).1 (by
    have ho := hf.owned g hmem
    simp only [push] at ho
    simp [ho]))
  obtain rfl : q = 0 := by omega
  obtain rfl : r = 0 := by omega
  exact hf.unmarked _ hmem (Finset.mem_insert_self _ _)

theorem startLoop_one (hp : p ≠ .kFree) (hs : Shape 1 b) (hw : b.winner = .kFree) :
    ∃ b', startLoop p [0] 0 0 b = some b' ∧ b'.winner = .kFree := by
  have hs₀ : Shape 1 b.unmark := (SameGame.unmark b).shape hs fun _ => hs.path hw
  have hpath : b.unmark.winnerPath = [] := hs.path hw
  have hcell : (⟨0, 0⟩ : Hex) = cell 0 0 := rfl
  obtain ⟨owner, ho⟩ := Option.ne_none_iff_exists'.1
    ((hs₀.board (cell 0 0)).2 (mem_cells.2 ⟨0, 0, by omega, by omega, rfl⟩))
  simp only [startLoop, lt_irrefl, and_false, if_false, hpath, hcell, ho, ne_eq, not_true_eq_false]
  split_ifs with hop
  · rw [hop] at ho
    rcases searchFrom_spec (s := cell 0 0) hp hs₀ hw rfl with ⟨b₁, hb₁, ⟨he, -⟩ | hwon⟩
    · have hw₁ : b₁.winner = .kFree := he.winner.trans hw
      have hp₁ : b₁.winnerPath = [cell 0 0] := by rw [he.path, push, hpath, List.nil_append]
      refine ⟨b₁.pop, ?_, hw₁⟩
      simp [hb₁, hasWinner, hw₁, hp₁]
    · exact absurd hwon (not_won_one hs₀)
  · exact ⟨b.unmark, rfl, hw⟩

theorem settled_one (hs : Shape 1 b) : Settled b := by
  intro p b' ended hp hb hw hf
  obtain ⟨b₁, hb₁, hw₁⟩ := startLoop_one hp hs hw
  have hloop : startLoop p (List.range b.nrows.toNat) 0 0 b = some b₁ := by rw [hs.nrows, ← hb₁]; rfl
  have hnw : b₁.unmark.hasWinner = false := by simp [hasWinner, unmark, hw₁]
  have hb₀ : b.hasWinner = false := by simp [hasWinner, hw]
  unfold isGameOver at hb
  simp only [hp, hb₀, hs.path hw, hloop, hnw, ne_eq, not_true_eq_false, Bool.false_eq_true,
    if_false] at hb
  split_ifs at hb
  obtain ⟨rfl, -⟩ := Prod.mk.inj (Option.some.inj hb)
  exact hp (hf.winner.symm.trans hw₁)

theorem Reachable.settled {nrows : UInt16} (h1 : 1 ≤ nrows.toNat) (hn : nrows.toNat < 32768)
    (hr : Reachable nrows b) : Settled b := by
  rcases Nat.eq_or_lt_of_le h1 with h | h2
  · exact settled_one (h ▸ hr.shape)
  · exact settled_of_inv hn (hr.inv h2 hn)

theorem NotFound.eq {c m : ℕ} (hP : PathInv n b) (hw : b.winner = .kFree) (hm : b'.evaluated = ∅)
    (h : NotFound p c m b b') : b' = b := by
  have h1 := h.same.nrows
  have h2 := h.same.board
  have h3 := h.same.movesPossible
  have h4 := h.same.movesPlayed
  have h5 : b'.winner = b.winner := h.winner.trans hw.symm
  have h6 : b'.winnerPath = b.winnerPath := h.path.trans (hP.shape.path hw).symm
  have h7 : b'.evaluated = b.evaluated := hm.trans hP.unmarked.symm
  cases b
  cases b'
  simp only at h1 h2 h3 h4 h5 h6 h7
  simp [h1, h2, h3, h4, h5, h6, h7]

theorem Settled.isGameOver (hp : p ≠ .kFree) (hP : PathInv n b) (h : Settled b) :
    b.isGameOver p = some (b, b.hasWinner || b.hasValidMove) := by
  by_cases hw : b.winner = .kFree
  · rcases isGameOver_spec hp hP.shape hw with ⟨b', ended, hb', hm, ⟨hn, rfl⟩ | ⟨hf, -⟩⟩
    · rw [hb', hn.eq hP hw hm]
      simp [hasWinner, hw]
    · exact absurd hf (h p b' ended hp hb' hw)
  · rw [isGameOver_of_winner hp hw]
    simp [hasWinner, hw]

/-- In every state, `IsGameOver` for either player passes its asserts and leaves the whole board as
it was; so does the call for the next player that the game makes after each move. -/
theorem isGameOver_inert (nrows : UInt16) (h1 : 1 ≤ nrows.toNat) (hn : nrows.toNat < 32768)
    (hr : Reachable nrows b) :
    (∀ p, p ≠ .kFree → ∃ ended, b.isGameOver p = some (b, ended)) ∧
    ∀ h p p', p ≠ .kFree → nextPlayer p = some p' →
      ∃ b' accepted, b.playerPlayed h p = some (b', accepted) ∧
        ∃ ended, b'.isGameOver p' = some (b', ended) := by
  refine ⟨fun p hp => ⟨_, (hr.settled h1 hn).isGameOver hp (hr.pathInv hn)⟩, ?_⟩
  intro h p p' hp hp'
  have hne : p' ≠ .kFree := by
    rintro rfl
    cases p <;> simp [nextPlayer] at hp'
  obtain ⟨b', accepted, hb', -⟩ := (hr.pathInv hn).playerPlayed hn hp h
  have hr' : Reachable nrows b' := hr.tail (.playerPlayed h p accepted hp hb')
  exact ⟨b', accepted, hb', _, (hr'.settled h1 hn).isGameOver hne (hr'.pathInv hn)⟩

/-- Each player has taken two neighbouring cells on the board of three rows. -/
theorem isGameOver_inert_three : ∃ b, Reachable 3 b ∧
    [cell 0 0, cell 0 1].map b.board = [some .kPlayer1, some .kPlayer1] ∧
    [cell 1 1, cell 2 1].map b.board = [some .kPlayer2, some .kPlayer2] ∧
    (∀ p, p ≠ .kFree → ∃ ended, b.isGameOver p = some (b, ended)) ∧
    ∃ b' accepted, b.playerPlayed (cell 0 2) .kPlayer1 = some (b', accepted) ∧
      ∃ ended, b'.isGameOver .kPlayer2 = some (b', ended) := by
  have hplay : (playAll [(cell 0 0, .kPlayer1), (cell 1 1, .kPlayer2), (cell 0 1, .kPlayer1),
      (cell 2 1, .kPlayer2)] (new 3)).map
        (fun b => ([cell 0 0, cell 0 1].map b.board, [cell 1 1, cell 2 1].map b.board)) =
      some ([some .kPlayer1, some .kPlayer1], [some .kPlayer2, some .kPlayer2]) := by
    decide +kernel
  obtain ⟨b, hb, hcells⟩ := Option.map_eq_some_iff.1 hplay
  have hr : Reachable 3 b := Reachable.playAll _ _ (.refl _) (by decide) hb
  obtain ⟨hstays, hnext⟩ := isGameOver_inert 3 (by decide) (by decide) hr
  exact ⟨b, hr, (Prod.mk.inj hcells).1, (Prod.mk.inj hcells).2, hstays,
    hnext (cell 0 2) .kPlayer1 .kPlayer2 (by decide) rfl⟩

end HexBoard

end CPPCodes.Game
