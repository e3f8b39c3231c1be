import CPPCodes.Hex.Winner

/-!
# The path of the winner

Between calls nothing is marked, and the path is empty until there is a winner. From then on it is
the chain that the winning search has left, and no call writes the winner or the path again: a
later move takes a free cell, and `IsGameOver` returns before it searches (`winnerPath_final`).
-/

namespace CPPCodes.Game

namespace HexBoard

variable {b b' : HexBoard} {p : Player} {n : ℕ} {h : Hex}

/-- A board between calls, with the path of its winner. -/
structure PathInv (n : ℕ) (b : HexBoard) : Prop where
  shape : Shape n b
  unmarked : b.evaluated = ∅
  chain : b.winner ≠ .kFree → b.IsChain b.winner b.winnerPath
  nodup : b.winnerPath.Nodup

theorem pathInv_new (nrows : UInt16) : PathInv nrows.toNat (new nrows) where
  shape := shape_new nrows
  unmarked := rfl
  chain hw := absurd rfl hw
  nodup := List.nodup_nil

/-- The cells of a chain are taken, and stay so when a free cell is. -/
theorem IsChain.take {q : Player} {path : List Hex} (hq : q ≠ .kFree) (hf : b.isFree h = true)
    (hc : b.IsChain q path) : (b.take h p).IsChain q path := by
  refine ⟨hc.adjacent, fun e he => ?_, hc.start, hc.goal⟩
  have hb : b.board h = some .kFree := by simpa [isFree] using hf
  have ho := hc.owned e he
  have hne : e ≠ h := by
    rintro rfl
    exact hq (Option.some.inj (ho.symm.trans hb))
  simpa [HexBoard.take, hne] using ho

theorem PathInv.take (hI : PathInv n b) (hf : b.isFree h = true) : PathInv n (b.take h p) where
  shape := shape_take hI.shape hf
  unmarked := hI.unmarked
  chain hw := (hI.chain hw).take hw hf
  nodup := hI.nodup

/-- A search leaves the path of the winner, or neither. -/
theorem PathInv.isGameOver (hn : n < 32768) (hp : p ≠ .kFree) (hI : PathInv n b) :
    ∃ b' ended, b.isGameOver p = some (b', ended) ∧ PathInv n b' ∧
      (b.winner ≠ .kFree → b' = b) := by
  by_cases hw : b.winner = .kFree
  · rcases isGameOver_spec hp hI.shape hw with ⟨b', ended, hb', hm, ⟨hnf, -⟩ | ⟨hf, -⟩⟩
    · refine ⟨b', ended, hb', ⟨hnf.same.shape hI.shape fun _ => hnf.path, hm, fun hne => ?_, ?_⟩,
        fun hne => absurd hw hne⟩
      · exact absurd hnf.winner hne
      · rw [hnf.path]
        exact List.nodup_nil
    · refine ⟨b', ended, hb', ⟨hf.same.shape hI.shape fun he => ?_, hm, fun _ => ?_, hf.nodup⟩,
        fun hne => absurd hw hne⟩
      · exact absurd (hf.winner.symm.trans he) hp
      · rw [hf.winner]
        exact isChain_of_found hn hp hI.shape hf
  · exact ⟨b, true, isGameOver_of_winner hp hw, hI, fun _ => rfl⟩

/-- A move leaves the path of the winner, or neither, and keeps those that are there. -/
theorem PathInv.playerPlayed (hn : n < 32768) (hp : p ≠ .kFree) (hI : PathInv n b) (h : Hex) :
    ∃ b' accepted, b.playerPlayed h p = some (b', accepted) ∧ PathInv n b' ∧
      (b.winner ≠ .kFree → b'.winner = b.winner ∧ b'.winnerPath = b.winnerPath) := by
  by_cases hf : b.isFree h = true
  · obtain ⟨b', ended, hb', hI', hkeep⟩ := (hI.take (p := p) hf).isGameOver hn hp
    refine ⟨b', true, by simp [HexBoard.playerPlayed, hf, hb'], hI', fun hw => ?_⟩
    rw [hkeep hw]
    exact ⟨rfl, rfl⟩
  · exact ⟨b, false, by rw [HexBoard.playerPlayed, if_neg hf], hI, fun _ => ⟨rfl, rfl⟩⟩

theorem PathInv.step (hn : n < 32768) {c : Call} (hI : PathInv n b) (hc : Step b c b') :
    PathInv n b' ∧
      (b.winner ≠ .kFree → b'.winner = b.winner ∧ b'.winnerPath = b.winnerPath) := by
  cases hc with
  | playerPlayed h p accepted hp hb =>
    obtain ⟨b₁, accepted₁, hb₁, hI₁, hkeep⟩ := hI.playerPlayed hn hp h
    obtain ⟨rfl, -⟩ := Prod.mk.inj (Option.some.inj (hb₁.symm.trans hb))
    exact ⟨hI₁, hkeep⟩
  | isGameOver p ended hp hb =>
    obtain ⟨b₁, ended₁, hb₁, hI₁, hkeep⟩ := hI.isGameOver hn hp
    obtain ⟨rfl, -⟩ := Prod.mk.inj (Option.some.inj (hb₁.symm.trans hb))
    refine ⟨hI₁, fun hw => ?_⟩
    rw [hkeep hw]
    exact ⟨rfl, rfl⟩

/-- No later call changes the winner or the path. -/
theorem PathInv.final (hn : n < 32768) (hI : PathInv n b) (hw : b.winner ≠ .kFree)
    (hr : Transition.Reach Step b b') : b'.winner = b.winner ∧ b'.winnerPath = b.winnerPath := by
  have hfinal : PathInv n b' ∧ b'.winner = b.winner ∧ b'.winnerPath = b.winnerPath := by
    refine hr.invariant (I := fun b' => PathInv n b' ∧ b'.winner = b.winner ∧
      b'.winnerPath = b.winnerPath) ?_ ⟨hI, rfl, rfl⟩
    rintro b₁ c b₂ ⟨hI₁, hw₁, hp₁⟩ hc
    obtain ⟨hI₂, hkeep⟩ := hI₁.step hn hc
    obtain ⟨hw₂, hp₂⟩ := hkeep (by rwa [hw₁])
    exact ⟨hI₂, hw₂.trans hw₁, hp₂.trans hp₁⟩
  exact hfinal.2

/-- From a new board on, calls by the two players return. While there is no winner they leave the
path and the marks empty. The winner's path is a chain of different cells between the edges, and
stays with the winner through all later calls. -/
theorem winnerPath_final (nrows : UInt16) (hn : nrows.toNat < 32768) (hr : Reachable nrows b) :
    (∀ p, p ≠ .kFree → (∀ h, ∃ r, b.playerPlayed h p = some r) ∧ ∃ r, b.isGameOver p = some r) ∧
    (b.hasWinner = false → b.winnerPath = [] ∧ b.evaluated = ∅) ∧
    (b.hasWinner = true → b.winnerPath ≠ [] ∧ b.winnerPath.Nodup ∧
      (∀ h ∈ b.winnerPath, h ∈ cells nrows.toNat) ∧ b.IsChain b.winner b.winnerPath ∧
      ∀ b', Transition.Reach Step b b' →
        b'.winner = b.winner ∧ b'.winnerPath = b.winnerPath) := by
  have hI : PathInv nrows.toNat b :=
    hr.invariant (fun _ _ _ hI hc => (hI.step hn hc).1) (pathInv_new nrows)
  refine ⟨fun p hp => ⟨fun h => ?_, ?_⟩, fun hw => ?_, fun hw => ?_⟩
  · obtain ⟨b', accepted, hb', -⟩ := hI.playerPlayed hn hp h
    exact ⟨_, hb'⟩
  · obtain ⟨b', ended, hb', -⟩ := hI.isGameOver hn hp
    exact ⟨_, hb'⟩
  · exact ⟨hI.shape.path (by simpa [hasWinner] using hw), hI.unmarked⟩
  · have hne : b.winner ≠ .kFree := by simpa [hasWinner] using hw
    have hc := hI.chain hne
    refine ⟨?_, hI.nodup, fun h hh => ?_, hc, fun b' hr' => hI.final hn hne hr'⟩
    · obtain ⟨s, hs, -⟩ := hc.start
      rintro hnil
      simp [hnil] at hs
    · exact (hI.shape.board h).1 (by simp [hc.owned h hh])

/-- Two moves of the first player on the board of two rows. -/
theorem winner_two :
    (((new 2).playerPlayed (cell 0 0) .kPlayer1).bind fun r =>
      r.1.playerPlayed (cell 0 1) .kPlayer1).map (fun r => r.1.hasWinner) = some true := by
  decide +kernel

theorem winnerPath_final_two :
    ∃ b, Reachable 2 b ∧ b.hasWinner = true ∧ b.winnerPath ≠ [] ∧ b.winnerPath.Nodup ∧
      (∀ h ∈ b.winnerPath, h ∈ cells 2) ∧ b.IsChain b.winner b.winnerPath ∧
      ∀ b', Transition.Reach Step b b' →
        b'.winner = b.winner ∧ b'.winnerPath = b.winnerPath := by
  obtain ⟨⟨b, accepted⟩, hb, hw⟩ := Option.map_eq_some_iff.1 winner_two
  obtain ⟨⟨b₁, accepted₁⟩, hb₁, hb⟩ := Option.bind_eq_some_iff.1 hb
  have hr₁ : Reachable 2 b₁ := (Transition.Reach.refl _).tail (.playerPlayed _ _ _ (by decide) hb₁)
  have hr : Reachable 2 b := hr₁.tail (.playerPlayed _ _ _ (by decide) hb)
  exact ⟨b, hr, hw, (winnerPath_final 2 (by decide) hr).2.2 hw⟩

end HexBoard

end CPPCodes.Game
