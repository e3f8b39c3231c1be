import CPPCodes.Hex.GameOver
import CPPCodes.Lib.Transition

/-!
# The winner is whoever has a chain

Between calls on a board of at least two rows, no player has a chain while there is no winner
(`Inv`, `inv_step`). A move can only give a chain to the player who made it, and the search after
the move finds one whenever there is one, so the winner is exact (`winnerExact_iff`). On the board
of one row it is not: the search tests a cell for the goal edge when it steps onto it, and it
never steps onto the cell it starts from.
-/

namespace CPPCodes.Game

namespace HexBoard

theorem toInt_ofNat_lt {k n : ℕ} (hn : n < 32768) (hk : k < n) : (Int16.ofNat k).toInt = k :=
  Int16.toInt_ofNat_of_lt (by omega)

theorem eq_startCell {p : Player} {n : ℕ} {h : Hex} (hn : n < 32768) (hm : h ∈ cells n)
    (hs : OnStart p h) : ∃ i < n, h = startCell p i := by
  obtain ⟨q, r, hq, hr, rfl⟩ := mem_cells.1 hm
  cases p with
  | kFree => exact hs.elim
  | kPlayer1 =>
    have hr0 : r = 0 := by
      have : ((r : ℤ)) = 0 := by rw [← toInt_ofNat_lt hn hr]; exact hs
      exact_mod_cast this
    exact ⟨q, hq, by simp [startCell, startCol, startRow, hr0]⟩
  | kPlayer2 =>
    have hq0 : q = 0 := by
      have : ((q : ℤ)) = 0 := by rw [← toInt_ofNat_lt hn hq]; exact hs
      exact_mod_cast this
    exact ⟨r, hr, by simp [startCell, startCol, startRow, hq0]⟩

theorem onStart_startCell {p : Player} (hp : p ≠ .kFree) (i : ℕ) : OnStart p (startCell p i) := by
  cases p with
  | kFree => exact absurd rfl hp
  | kPlayer1 => rfl
  | kPlayer2 => rfl

variable {b b' : HexBoard} {p q : Player} {n : ℕ} {h : Hex}

theorem atGoal_of_onGoal (hs : Shape n b) (hg : OnGoal n p h) : b.atGoal p h = true := by
  cases p with
  | kFree => exact hg.elim
  | kPlayer1 | kPlayer2 =>
    simp only [OnGoal] at hg
    simp only [atGoal, hs.nrows, decide_eq_true_eq]
    omega

theorem onGoal_of_atGoal (hn : n < 32768) (hs : Shape n b) (hm : h ∈ cells n)
    (hg : b.atGoal p h = true) : OnGoal n p h := by
  obtain ⟨q, r, hq, hr, rfl⟩ := mem_cells.1 hm
  cases p with
  | kFree => simp [atGoal] at hg
  | kPlayer1 =>
    simp only [atGoal, hs.nrows, cell, toInt_ofNat_lt hn hr, decide_eq_true_eq] at hg
    simp only [OnGoal, cell, toInt_ofNat_lt hn hr]
    omega
  | kPlayer2 =>
    simp only [atGoal, hs.nrows, cell, toInt_ofNat_lt hn hq, decide_eq_true_eq] at hg
    simp only [OnGoal, cell, toInt_ofNat_lt hn hq]
    omega

theorem not_onGoal_of_onStart (h2 : 2 ≤ n) (hs : OnStart p h) : ¬ OnGoal n p h := by
  cases p with
  | kFree => exact hs.elim
  | kPlayer1 | kPlayer2 =>
    simp only [OnStart] at hs
    simp only [OnGoal, hs]
    omega

/-- If every cell of the start edge is a dead end, there is no chain. -/
theorem not_hasChain_of_notFound (h2 : 2 ≤ n) (hn : n < 32768) (hs : Shape n b)
    (hf : NotFound p 0 n b b') : ¬ b.HasChain p := by
  rintro ⟨path, hc⟩
  obtain ⟨s, hhead, hstart⟩ := hc.start
  obtain ⟨rest, rfl⟩ : ∃ rest, path = s :: rest := by
    cases path with
    | nil => simp at hhead
    | cons x rest => exact ⟨rest, by simpa using hhead⟩
  have ho := hc.owned s List.mem_cons_self
  obtain ⟨i, hi, rfl⟩ := eq_startCell hn ((hs.board s).1 (by simp [ho])) hstart
  obtain ⟨E, hsE, hclosed, hgoal⟩ := hf.dead i (by omega) (by omega) ho
  have hrest := mem_of_isChain hclosed rest _ hsE hc.adjacent
    fun e he => hc.owned e (List.mem_cons_of_mem _ he)
  obtain ⟨g, hg, hon⟩ := hc.goal
  rw [hs.nrows] at hon
  have hne : g ≠ startCell p i := by
    rintro rfl
    exact not_onGoal_of_onStart h2 hstart hon
  have hgE : g ∈ E := by
    rcases List.mem_cons.1 (List.mem_of_getLast? hg) with heq | hmem
    · exact absurd heq hne
    · exact hrest g hmem
  have hno := hgoal g hgE hne
  rw [atGoal_of_onGoal hs hon] at hno
  exact absurd hno (by simp)

theorem isChain_of_found (hn : n < 32768) (hp : p ≠ .kFree) (hs : Shape n b)
    (hf : Found p b b') : b'.IsChain p b'.winnerPath := by
  obtain ⟨i, -, hi⟩ := hf.start
  obtain ⟨g, hg, hgoal⟩ := hf.goal
  have hog := hf.owned g (List.mem_of_getLast? hg)
  refine hf.same.isChain.2 ⟨hf.adjacent, hf.owned, ⟨_, hi, onStart_startCell hp i⟩, g, hg, ?_⟩
  rw [hs.nrows]
  exact onGoal_of_atGoal hn hs ((hs.board g).1 (by simp [hog])) hgoal

/-- A move gives no chain to the other player. -/
theorem hasChain_of_take (hpq : q ≠ p) (hc : (b.take h p).HasChain q) : b.HasChain q := by
  obtain ⟨path, hc⟩ := hc
  refine ⟨path, hc.adjacent, fun e he => ?_, hc.start, hc.goal⟩
  have ho := hc.owned e he
  by_cases heh : e = h
  · subst heh
    simp only [take, Function.update_self, Option.some.injEq] at ho
    exact absurd ho.symm hpq
  · simpa [take, heh] using ho

inductive Call
  | playerPlayed (h : Hex) (p : Player)
  | isGameOver (p : Player)

/-- A call by one of the two players, and the board after it. -/
inductive Step : HexBoard → Call → HexBoard → Prop
  | playerPlayed {b b' : HexBoard} (h : Hex) (p : Player) (accepted : Bool) :
      p ≠ .kFree → b.playerPlayed h p = some (b', accepted) → Step b (.playerPlayed h p) b'
  | isGameOver {b b' : HexBoard} (p : Player) (ended : Bool) :
      p ≠ .kFree → b.isGameOver p = some (b', ended) → Step b (.isGameOver p) b'

/-- The boards that calls by the two players reach from a new board. -/
def Reachable (nrows : UInt16) : HexBoard → Prop := Transition.Reach Step (new nrows)

/-- A board between calls, on which no player has a chain while there is no winner. -/
structure Inv (n : ℕ) (b : HexBoard) : Prop where
  shape : Shape n b
  chain : b.winner = .kFree → ∀ p, p ≠ .kFree → ¬ b.HasChain p

/-- `IsGameOver` sets the winner exactly when the player has a chain. -/
theorem isGameOver_winner (h2 : 2 ≤ n) (hn : n < 32768) (hp : p ≠ .kFree) (hs : Shape n b)
    (hw : b.winner = .kFree) :
    ∃ b' ended, b.isGameOver p = some (b', ended) ∧ SameGame b b' ∧ Shape n b' ∧
      (b'.winner = p ↔ b'.HasChain p) ∧ (b'.winner ≠ p → b'.winner = .kFree) ∧
      (ended = true → b'.hasWinner = true ∨ b'.hasValidMove = true) := by
  rcases isGameOver_spec hp hs hw with ⟨b', ended, hb', -, ⟨hnf, rfl⟩ | ⟨hf, rfl⟩⟩
  · have hno := not_hasChain_of_notFound h2 hn hs hnf
    refine ⟨b', b.hasValidMove, hb', hnf.same, hnf.same.shape hs fun _ => hnf.path, ?_,
      fun _ => hnf.winner, fun ho => .inr ?_⟩
    · rw [hnf.same.hasChain, hnf.winner]
      exact ⟨fun he => absurd he.symm hp, fun hc => absurd hc hno⟩
    · simpa [hasValidMove, hnf.same.movesPlayed, hnf.same.movesPossible] using ho
  · refine ⟨b', true, hb', hf.same, hf.same.shape hs fun he => ?_, ?_, fun he => ?_, fun _ => .inl ?_⟩
    · exact absurd (hf.winner.symm.trans he) hp
    · exact ⟨fun _ => ⟨_, isChain_of_found hn hp hs hf⟩, fun _ => hf.winner⟩
    · exact absurd hf.winner he
    · simp [hasWinner, hf.winner, hp]

/-- A call on a board that has a winner only answers. -/
theorem isGameOver_of_winner (hp : p ≠ .kFree) (hw : b.winner ≠ .kFree) :
    b.isGameOver p = some (b, true) := by
  simp [isGameOver, hp, hasWinner, hw]

/-- And a move only takes its cell. -/
theorem playerPlayed_of_winner (hp : p ≠ .kFree) (hw : b.winner ≠ .kFree)
    (hf : b.isFree h = true) : b.playerPlayed h p = some (b.take h p, true) := by
  have hgo : (b.take h p).isGameOver p = some (b.take h p, true) := isGameOver_of_winner hp hw
  rw [playerPlayed, if_pos hf, hgo, Option.map_some]

/-- An accepted move on a board without a winner. -/
theorem playerPlayed_winner (h2 : 2 ≤ n) (hn : n < 32768) (hp : p ≠ .kFree) (hI : Inv n b)
    (hw : b.winner = .kFree) (hf : b.isFree h = true) :
    ∃ b', b.playerPlayed h p = some (b', true) ∧ SameGame (b.take h p) b' ∧ Inv n b' ∧
      (b'.winner = p ↔ b'.HasChain p) ∧ (b'.winner ≠ p → b'.winner = .kFree) := by
  obtain ⟨b', ended, hb', hsame, hs', hwin, hfree, -⟩ :=
    isGameOver_winner (b := b.take h p) h2 hn hp (shape_take hI.shape hf) hw
  refine ⟨b', by simp [playerPlayed, hf, hb'], hsame, ⟨hs', fun hw' q hq hc => ?_⟩, hwin, hfree⟩
  by_cases hqp : q = p
  · subst hqp
    exact hq ((hwin.2 hc).symm.trans hw')
  · exact hI.chain hw q hq (hasChain_of_take hqp (hsame.hasChain.1 hc))

theorem inv_step (h2 : 2 ≤ n) (hn : n < 32768) {c : Call} (hI : Inv n b) (hc : Step b c b') :
    Inv n b' := by
  cases hc with
  | playerPlayed h p accepted hp hb =>
    by_cases hf : b.isFree h = true
    · by_cases hw : b.winner = .kFree
      · obtain ⟨b₁, hb₁, -, hI₁, -⟩ := playerPlayed_winner h2 hn hp hI hw hf
        rw [hb₁] at hb
        cases hb
        exact hI₁
      · rw [playerPlayed_of_winner hp hw hf] at hb
        cases hb
        exact ⟨shape_take hI.shape hf, fun hw' => absurd hw' hw⟩
    · rw [playerPlayed, if_neg hf] at hb
      cases hb
      exact hI
  | isGameOver p ended hp hb =>
    by_cases hw : b.winner = .kFree
    · obtain ⟨b₁, _, hb₁, hsame, hs₁, hwin, -⟩ := isGameOver_winner h2 hn hp hI.shape hw
      rw [hb₁] at hb
      cases hb
      exact ⟨hs₁, fun _ q hq hc => hI.chain hw q hq (hsame.hasChain.1 hc)⟩
    · rw [isGameOver_of_winner hp hw] at hb
      cases hb
      exact hI

theorem inv_new (nrows : UInt16) : Inv nrows.toNat (new nrows) where
  shape := shape_new nrows
  chain _ p hp := by
    rintro ⟨path, hc⟩
    obtain ⟨s, hs, -⟩ := hc.start
    have ho := hc.owned s (List.mem_of_mem_head? hs)
    rw [board_new, freeOn] at ho
    split_ifs at ho
    exact hp (Option.some.inj ho).symm

theorem Reachable.inv {nrows : UInt16} (h2 : 2 ≤ nrows.toNat) (hn : nrows.toNat < 32768)
    (hr : Reachable nrows b) : Inv nrows.toNat b :=
  hr.invariant (fun _ _ _ hI hc => inv_step h2 hn hI hc) (inv_new nrows)

/-- After every accepted move on a board without a winner, the player who moved is the winner
exactly when that player has a chain, and otherwise there still is no winner. -/
def WinnerExact (nrows : UInt16) : Prop :=
  ∀ b, Reachable nrows b → b.winner = .kFree → ∀ h p, p ≠ .kFree → b.isFree h = true →
    ∃ b', b.playerPlayed h p = some (b', true) ∧ (b'.winner = p ↔ b'.HasChain p) ∧
      (b'.winner ≠ p → b'.winner = .kFree)

/-- The only move on the board of one row joins its edges without winning. -/
theorem playerPlayed_one :
    ((new 1).playerPlayed (cell 0 0) .kPlayer1).map (fun r => (r.1.winner, r.2))
      = some (.kFree, true) := by
  decide +kernel

theorem isChain_one {b : HexBoard} (hr : b.nrows = 1) (hb : b.board (cell 0 0) = some .kPlayer1) :
    b.IsChain .kPlayer1 [cell 0 0] := by
  refine ⟨.singleton _, by simpa using hb, ⟨_, rfl, rfl⟩, ⟨_, rfl, ?_⟩⟩
  rw [hr]
  rfl

theorem board_of_playerPlayed {b b' : HexBoard} {h : Hex} {p : Player} (hp : p ≠ .kFree)
    {n : ℕ} (hs : Shape n b) (hw : b.winner = .kFree)
    (hb : b.playerPlayed h p = some (b', true)) :
    b'.nrows = b.nrows ∧ b'.board h = some p := by
  unfold playerPlayed at hb
  split_ifs at hb with hf
  · obtain ⟨b₁, ended, hb₁, -, h₁⟩ := isGameOver_spec (b := b.take h p) hp (shape_take hs hf) hw
    have hsame : SameGame (b.take h p) b₁ := by
      rcases h₁ with ⟨hn, -⟩ | ⟨hf', -⟩
      · exact hn.same
      · exact hf'.same
    rw [hb₁] at hb
    simp only [Option.map_some, Option.some.injEq, Prod.mk.injEq, and_true] at hb
    rw [← hb]
    exact ⟨hsame.nrows, by rw [hsame.board]; simp [take]⟩
  · simp at hb

theorem one_row_misses {b' : HexBoard}
    (hb : (new 1).playerPlayed (cell 0 0) .kPlayer1 = some (b', true)) :
    b'.HasChain .kPlayer1 ∧ b'.winner = .kFree := by
  have hw := playerPlayed_one
  rw [hb] at hw
  simp only [Option.map_some, Option.some.injEq, Prod.mk.injEq, and_true] at hw
  obtain ⟨hr, hb0⟩ := board_of_playerPlayed (by decide) (shape_new 1) rfl hb
  exact ⟨⟨_, isChain_one hr hb0⟩, hw⟩

/-- The winner is exact on every board of at least two rows, and on no other. -/
theorem winnerExact_iff (nrows : UInt16) (h1 : 1 ≤ nrows.toNat) (hn : nrows.toNat < 32768) :
    WinnerExact nrows ↔ 2 ≤ nrows.toNat := by
  constructor
  · intro hex
    by_contra hlt
    have hone : nrows = 1 := UInt16.toNat_inj.1 (by simp; omega)
    subst hone
    obtain ⟨b', hb', hwin, -⟩ := hex (new 1) (Transition.Reach.refl _) rfl (cell 0 0) .kPlayer1
      (by decide) (by decide +kernel)
    obtain ⟨hc, hw⟩ := one_row_misses hb'
    rw [hwin.2 hc] at hw
    exact absurd hw (by decide)
  · intro h2 b hr hw h p hp hf
    obtain ⟨b', hb', -, -, hwin, hfree⟩ := playerPlayed_winner h2 hn hp (hr.inv h2 hn) hw hf
    exact ⟨b', hb', hwin, hfree⟩

theorem winnerExact_iff_seven : WinnerExact 7 :=
  (winnerExact_iff 7 (by decide) (by decide)).2 (by decide)

theorem not_winnerExact :
    ¬ ∀ nrows : UInt16, 1 ≤ nrows.toNat → nrows.toNat ≤ 255 → WinnerExact nrows := by
  intro h
  obtain ⟨b', hb', hwin, -⟩ := h 1 (by decide) (by decide) (new 1) (Transition.Reach.refl _) rfl
    (cell 0 0) .kPlayer1 (by decide) (by decide +kernel)
  obtain ⟨hc, hw⟩ := one_row_misses hb'
  rw [hwin.2 hc] at hw
  exact absurd hw (by decide)

end HexBoard

end CPPCodes.Game
