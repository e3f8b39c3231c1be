import CPPCodes.Hex.Board
import Mathlib.Data.Finset.Card
import Mathlib.Data.List.Chain
import Mathlib.Tactic.SplitIfs

/-!
# What a search finds

A search by `isPlayerWinner` either leaves the path and the winner as they were and has marked
every cell it can reach (`Explored`), or it sets the winner and has appended to the path a chain
that ends on the goal edge (`Won`). Each call marks a new cell first, so no call is deeper than
there are unmarked cells on the board (`isPlayerWinner_spec`).
-/

namespace CPPCodes.Game

/-- Two cells that differ by a direction. -/
def Adjacent (h h' : Hex) : Prop := ∃ d ∈ kDirections, h' = h + d

namespace HexBoard

/-- The search writes only the winner, the path and the marks. -/
structure SameGame (b b' : HexBoard) : Prop where
  nrows : b'.nrows = b.nrows
  board : b'.board = b.board
  movesPossible : b'.movesPossible = b.movesPossible
  movesPlayed : b'.movesPlayed = b.movesPlayed

theorem SameGame.refl (b : HexBoard) : SameGame b b := ⟨rfl, rfl, rfl, rfl⟩

theorem SameGame.trans {b b' b'' : HexBoard} (h : SameGame b b') (h' : SameGame b' b'') :
    SameGame b b'' :=
  ⟨h'.nrows.trans h.nrows, h'.board.trans h.board, h'.movesPossible.trans h.movesPossible,
    h'.movesPlayed.trans h.movesPlayed⟩

theorem SameGame.atGoal {b b' : HexBoard} (h : SameGame b b') (p : Player) (c : Hex) :
    b'.atGoal p c = b.atGoal p c := by
  unfold HexBoard.atGoal
  rw [h.nrows]

/-- The owned cells next to `c` are all marked. -/
def Closed (p : Player) (b : HexBoard) (c : Hex) : Prop :=
  ∀ c', Adjacent c c' → b.board c' = some p → c' ∈ b.evaluated

/-- A search without success: each cell it marked is the player's, is not on the goal edge, and
has its neighbours marked. -/
structure Explored (p : Player) (b b' : HexBoard) : Prop where
  same : SameGame b b'
  winner : b'.winner = b.winner
  path : b'.winnerPath = b.winnerPath
  sub : b.evaluated ⊆ b'.evaluated
  owned : ∀ c ∈ b'.evaluated, c ∉ b.evaluated → b.board c = some p
  notGoal : ∀ c ∈ b'.evaluated, c ∉ b.evaluated → b.atGoal p c = false
  closed : ∀ c ∈ b'.evaluated, c ∉ b.evaluated → Closed p b' c

/-- A chain of the player's unmarked cells from a neighbour of `c` to the goal edge. -/
structure Finish (p : Player) (b : HexBoard) (c : Hex) (ext : List Hex) : Prop where
  chain : (c :: ext).IsChain Adjacent
  owned : ∀ e ∈ ext, b.board e = some p
  unmarked : ∀ e ∈ ext, e ∉ b.evaluated
  nodup : ext.Nodup
  goal : ∃ g, ext.getLast? = some g ∧ b.atGoal p g = true

/-- A search with success. -/
structure Won (p : Player) (c : Hex) (b b' : HexBoard) : Prop where
  same : SameGame b b'
  winner : b'.winner = p
  path : ∃ ext, b'.winnerPath = b.winnerPath ++ ext ∧ Finish p b c ext

variable {p : Player} {b b' b'' : HexBoard} {c n : Hex}

theorem Explored.refl (p : Player) (b : HexBoard) : Explored p b b :=
  ⟨.refl b, rfl, rfl, Finset.Subset.refl _, fun _ h hn => absurd h hn, fun _ h hn => absurd h hn,
    fun _ h hn => absurd h hn⟩

theorem Closed.mono (hs : SameGame b b') (hsub : b.evaluated ⊆ b'.evaluated) (h : Closed p b c) :
    Closed p b' c := fun c' ha ho => hsub (h c' ha (by rwa [← hs.board]))

theorem Explored.trans (h : Explored p b b') (h' : Explored p b' b'') : Explored p b b'' := by
  refine ⟨h.same.trans h'.same, h'.winner.trans h.winner, h'.path.trans h.path,
    h.sub.trans h'.sub, fun e he hn => ?_, fun e he hn => ?_, fun e he hn => ?_⟩ <;>
    by_cases hm : e ∈ b'.evaluated
  · exact h.owned e hm hn
  · rw [← h.same.board]
    exact h'.owned e he hm
  · exact h.notGoal e hm hn
  · rw [← h.same.atGoal]
    exact h'.notGoal e he hm
  · exact (h.closed e hm hn).mono h'.same h'.sub
  · exact h'.closed e he hm

/-- A finish found after exploring is a finish from where the exploring began. -/
theorem Finish.of_explored {ext : List Hex} (h : Explored p b b') (hf : Finish p b' c ext) :
    Finish p b c ext := by
  refine ⟨hf.chain, fun e he => ?_, fun e he hm => hf.unmarked e he (h.sub hm), hf.nodup, ?_⟩
  · rw [← h.same.board]
    exact hf.owned e he
  · obtain ⟨g, hg, hgoal⟩ := hf.goal
    exact ⟨g, hg, by rw [← h.same.atGoal, hgoal]⟩

theorem Won.of_explored (h : Explored p b b') (hw : Won p c b' b'') : Won p c b b'' := by
  obtain ⟨ext, hpath, hf⟩ := hw.path
  exact ⟨h.same.trans hw.same, hw.winner, ext, by rw [hpath, h.path], hf.of_explored h⟩

/-- The search from an unmarked owned neighbour, once its marks and its push are undone. -/
theorem Explored.of_push (hn : b.board n = some p) (hg : b.atGoal p n = false)
    (h : Explored p (b.push n) b') (hc : Closed p b' n) : Explored p b b'.pop := by
  have hmem : ∀ e, e ∉ b.evaluated → e ≠ n → e ∉ (b.push n).evaluated := by
    intro e he hne hm
    simp only [push, Finset.mem_insert] at hm
    exact hm.elim hne he
  refine ⟨⟨h.same.nrows, h.same.board, h.same.movesPossible, h.same.movesPlayed⟩, h.winner, ?_,
    fun e he => h.sub (Finset.mem_insert_of_mem he), fun e he hm => ?_, fun e he hm => ?_,
    fun e he hm => ?_⟩
  · simp [pop, h.path, push]
  all_goals by_cases hne : e = n
  · rwa [hne]
  · exact h.owned e he (hmem e hm hne)
  · rwa [hne]
  · exact h.notGoal e he (hmem e hm hne)
  · subst hne
    exact hc
  · exact h.closed e he (hmem e hm hne)

/-- The finish from an unmarked owned neighbour, with that neighbour in front. -/
theorem Finish.cons {ext : List Hex} (ha : Adjacent c n) (hn : b.board n = some p)
    (hm : n ∉ b.evaluated) (hf : Finish p (b.push n) n ext) : Finish p b c (n :: ext) := by
  have hu : ∀ e ∈ ext, e ≠ n ∧ e ∉ b.evaluated := by
    intro e he
    have := hf.unmarked e he
    simpa [push, not_or] using this
  refine ⟨List.IsChain.cons_cons ha hf.chain, ?_, ?_, ?_, ?_⟩
  · intro e he
    rcases List.mem_cons.1 he with rfl | he
    · exact hn
    · exact hf.owned e he
  · intro e he
    rcases List.mem_cons.1 he with rfl | he
    · exact hm
    · exact (hu e he).2
  · exact List.nodup_cons.2 ⟨fun he => (hu n he).1 rfl, hf.nodup⟩
  · obtain ⟨g, hg, hgoal⟩ := hf.goal
    refine ⟨g, ?_, hgoal⟩
    rw [List.getLast?_cons, hg]
    rfl

theorem Finish.single (ha : Adjacent c n) (hn : b.board n = some p) (hm : n ∉ b.evaluated)
    (hg : b.atGoal p n = true) : Finish p b c [n] := by
  refine ⟨List.IsChain.cons_cons ha (.singleton n), ?_, ?_, List.nodup_singleton n, n, rfl, hg⟩ <;>
    simpa

/-! ## The search -/

/-- What a search promises from a board without a winner whose unmarked cells in `D` number less
than `k`. -/
def Searches (D : Finset Hex) (k : ℕ) (p : Player) (search : HexBoard → Hex → Option HexBoard) :
    Prop :=
  ∀ b c, b.winner = .kFree → (∀ h, b.board h ≠ none → h ∈ D) → (D \ b.evaluated).card < k →
    ∃ b', search b c = some b' ∧ (Explored p b b' ∧ Closed p b' c ∨ Won p c b b')

variable {D : Finset Hex} {k : ℕ} {search : HexBoard → Hex → Option HexBoard}

theorem card_unmarked_push (hn : n ∈ D) (hm : n ∉ b.evaluated) :
    (D \ (b.push n).evaluated).card < (D \ b.evaluated).card := by
  refine Finset.card_lt_card (Finset.ssubset_iff_of_subset ?_ |>.2 ⟨n, ?_, ?_⟩)
  · exact Finset.sdiff_subset_sdiff (Finset.Subset.refl _) (Finset.subset_insert _ _)
  · exact Finset.mem_sdiff.2 ⟨hn, hm⟩
  · simp [push]

theorem visitNeighbor_spec (hp : p ≠ .kFree) (hs : Searches D k p search)
    (hw : b.winner = .kFree) (hD : ∀ h, b.board h ≠ none → h ∈ D)
    (hk : (D \ b.evaluated).card < k + 1) (ha : Adjacent c n) :
    ∃ b' go, visitNeighbor search p b n = some (b', go) ∧
      (go = true ∧ Explored p b b' ∧ (b.board n = some p → n ∈ b'.evaluated) ∨
        go = false ∧ Won p c b b') := by
  unfold visitNeighbor
  simp only []
  split_ifs with hm ho hg
  · exact ⟨b, true, rfl, .inl ⟨rfl, .refl p b, fun _ => hm⟩⟩
  · exact ⟨b, true, rfl, .inl ⟨rfl, .refl p b, fun h => absurd h ho⟩⟩
  · push Not at ho
    have hnw : (b.push n).hasWinner = false := by simp [hasWinner, push, hw]
    refine ⟨{ b.push n with winner := p }, false, by simp [setWinner, hnw], .inr ⟨rfl, ?_⟩⟩
    exact ⟨⟨rfl, rfl, rfl, rfl⟩, rfl, [n], rfl, .single ha ho hm hg⟩
  · push Not at ho
    have hg : b.atGoal p n = false := Bool.eq_false_iff.2 hg
    have hlt := card_unmarked_push (hD n (by simp [ho])) hm
    obtain ⟨b', hb', h⟩ := hs (b.push n) n hw hD (by omega)
    rw [hb']
    rcases h with ⟨he, hc⟩ | hwon
    · have hnw : b'.hasWinner = false := by simp [hasWinner, he.winner, push, hw]
      refine ⟨b'.pop, true, by simp [hnw], .inl ⟨rfl, he.of_push ho hg hc, fun _ => ?_⟩⟩
      exact he.sub (Finset.mem_insert_self _ _)
    · have hnw : b'.hasWinner = true := by simp [hasWinner, hwon.winner, hp]
      obtain ⟨ext, hpath, hf⟩ := hwon.path
      refine ⟨b', false, by simp [hnw], .inr ⟨rfl, ?_⟩⟩
      refine ⟨⟨hwon.same.nrows, hwon.same.board, hwon.same.movesPossible, hwon.same.movesPlayed⟩,
        hwon.winner, n :: ext, ?_, .cons ha ho hm hf⟩
      rw [hpath, push, List.append_assoc, List.singleton_append]

/-- The loop over the directions: it stops at the first neighbour that leads to the goal edge,
or has marked every owned neighbour. -/
theorem forEachNeighbor_spec (hp : p ≠ .kFree) (hs : Searches D k p search) :
    ∀ (ds : List Hex) (b : HexBoard), (∀ d ∈ ds, d ∈ kDirections) → b.winner = .kFree →
      (∀ h, b.board h ≠ none → h ∈ D) → (D \ b.evaluated).card < k + 1 →
      ∃ b', forEachNeighbor (visitNeighbor search p) c ds b = some b' ∧
        (Explored p b b' ∧ (∀ d ∈ ds, b.board (c + d) = some p → c + d ∈ b'.evaluated) ∨
          Won p c b b')
  | [], b, _, _, _, _ => ⟨b, rfl, .inl ⟨.refl p b, by simp⟩⟩
  | d :: ds, b, hds, hw, hD, hk => by
    have had : Adjacent c (c + d) := ⟨d, hds d List.mem_cons_self, rfl⟩
    obtain ⟨b₁, go, hv, h⟩ := visitNeighbor_spec hp hs hw hD hk had
    unfold forEachNeighbor
    rw [hv]
    rcases h with ⟨rfl, he, hd⟩ | ⟨rfl, hwon⟩
    · have hle : (D \ b₁.evaluated).card ≤ (D \ b.evaluated).card :=
        Finset.card_le_card (Finset.sdiff_subset_sdiff (Finset.Subset.refl _) he.sub)
      obtain ⟨b', hb', h'⟩ := forEachNeighbor_spec hp hs ds b₁
        (fun e he' => hds e (List.mem_cons_of_mem _ he')) (he.winner.trans hw)
        (by rw [he.same.board]; exact hD) (by omega)
      refine ⟨b', hb', ?_⟩
      rcases h' with ⟨he', hc⟩ | hwon
      · refine .inl ⟨he.trans he', fun e hmem ho => ?_⟩
        rcases List.mem_cons.1 hmem with rfl | hmem
        · exact he'.sub (hd ho)
        · exact hc e hmem (by rw [he.same.board]; exact ho)
      · exact .inr (hwon.of_explored he)
    · exact ⟨b₁, rfl, .inr hwon⟩

theorem isPlayerWinner_spec (hp : p ≠ .kFree) : ∀ k, Searches D k p (isPlayerWinner p k)
  | 0 => fun _ _ _ _ hk => absurd hk (by omega)
  | k + 1 => fun b c hw hD hk => by
    have hnw : b.hasWinner = false := by simp [hasWinner, hw]
    obtain ⟨b', hb', h⟩ := forEachNeighbor_spec (c := c) hp (isPlayerWinner_spec hp k) kDirections
      b (fun _ h => h) hw hD hk
    refine ⟨b', ?_, ?_⟩
    · simp only [isPlayerWinner, hp, hnw, Bool.false_eq_true, or_self, ↓reduceIte]
      exact hb'
    · rcases h with ⟨he, hc⟩ | hwon
      · refine .inl ⟨he, ?_⟩
        rintro _ ⟨d, hd, rfl⟩ ho
        exact hc d hd (by rwa [← he.same.board])
      · exact .inr hwon

end HexBoard

end CPPCodes.Game
