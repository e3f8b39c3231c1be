import CPPCodes.Hex.Winner

/-!
# What a call can do

On a board of any number of rows a call takes one free cell or none, and the search after it
leaves the winner and the path as they were or finds a path (`step_cases`). So the cells of the
board are those of the constructor in every state.
-/

namespace CPPCodes.Game

namespace HexBoard

variable {b b' : HexBoard} {p : Player} {n : ℕ} {c : Call}

theorem isGameOver_cases {ended : Bool} (hp : p ≠ .kFree) (hs : Shape n b)
    (hb : b.isGameOver p = some (b', ended)) :
    SameGame b b' ∧ (b'.winner = b.winner ∧ b'.winnerPath = b.winnerPath ∨
      b.winner = .kFree ∧ Found p b b') := by
  by_cases hw : b.winner = .kFree
  · obtain ⟨b₁, ended₁, hb₁, -, h⟩ := isGameOver_spec hp hs hw
    obtain ⟨rfl, -⟩ := Prod.mk.inj (Option.some.inj (hb₁.symm.trans hb))
    rcases h with ⟨hn, -⟩ | ⟨hf, -⟩
    · exact ⟨hn.same, .inl ⟨hn.winner.trans hw.symm, hn.path.trans (hs.path hw).symm⟩⟩
    · exact ⟨hf.same, .inr ⟨hw, hf⟩⟩
  · rw [isGameOver_of_winner hp hw] at hb
    obtain ⟨rfl, -⟩ := Prod.mk.inj (Option.some.inj hb)
    exact ⟨.refl b, .inl ⟨rfl, rfl⟩⟩

/-- Everything a call can do: `b₀` is the board with the cell of the move taken, and the search
goes from there. -/
theorem step_cases (hs : Shape n b) (hc : Step b c b') :
    ∃ b₀, (b₀ = b ∨ ∃ h p, p ≠ .kFree ∧ b.isFree h = true ∧ b₀ = b.take h p) ∧ SameGame b₀ b' ∧
      (b'.winner = b.winner ∧ b'.winnerPath = b.winnerPath ∨
        ∃ p, p ≠ .kFree ∧ b.winner = .kFree ∧ Found p b₀ b') := by
  cases hc with
  | playerPlayed h p accepted hp hb =>
    unfold playerPlayed at hb
    split_ifs at hb with hf
    · obtain ⟨⟨b₁, ended⟩, hb₁, hb⟩ := Option.map_eq_some_iff.1 hb
      obtain ⟨rfl, -⟩ := Prod.mk.inj hb
      obtain ⟨hsame, h'⟩ := isGameOver_cases hp (shape_take hs hf) hb₁
      exact ⟨_, .inr ⟨h, p, hp, hf, rfl⟩, hsame, h'.imp_right fun hw => ⟨p, hp, hw⟩⟩
    · obtain ⟨rfl, -⟩ := Prod.mk.inj (Option.some.inj hb)
      exact ⟨b, .inl rfl, .refl b, .inl ⟨rfl, rfl⟩⟩
  | isGameOver p ended hp hb =>
    obtain ⟨hsame, h'⟩ := isGameOver_cases hp hs hb
    exact ⟨b, .inl rfl, hsame, h'.imp_right fun hw => ⟨p, hp, hw⟩⟩

theorem shape_step (hs : Shape n b) (hc : Step b c b') : Shape n b' := by
  obtain ⟨b₀, hb₀, hsame, hend⟩ := step_cases hs hc
  have hs₀ : Shape n b₀ ∧ b₀.winnerPath = b.winnerPath := by
    rcases hb₀ with rfl | ⟨h, p, -, hf, rfl⟩
    · exact ⟨hs, rfl⟩
    · exact ⟨shape_take hs hf, rfl⟩
  refine hsame.shape hs₀.1 fun hw => ?_
  rcases hend with ⟨hw', hp'⟩ | ⟨p, hp, -, hf⟩
  · rw [hp', hs.path (hw'.symm.trans hw)]
  · exact absurd (hf.winner.symm.trans hw) hp

theorem Reachable.shape {nrows : UInt16} (hr : Reachable nrows b) : Shape nrows.toNat b :=
  hr.invariant (fun _ _ _ hs hc => shape_step hs hc) (shape_new nrows)

end HexBoard

end CPPCodes.Game
