import CPPCodes.Hex.Calls
import CPPCodes.Lib.Rhombus

/-!
# A full board has a winner

On a full board the cells of the first player and those of the second colour the rhombus, so one
of them has a chain (`exists_hasChain_of_full`), and a board on which a player has a chain has a
winner. `IsGameOver` without a winner means that as many moves were played as there are cells, so
that the game of HexGame.cpp never ends in a draw (`never_drawn`).
-/

namespace CPPCodes.Game

inductive Ending
  | drawn
  | won (p : Player)
  | quit
  | waiting
  deriving DecidableEq, Repr

namespace HexBoard

/-- The calls of `PlayerPlayed` in turn. -/
def playAll : List (Hex × Player) → HexBoard → Option HexBoard
  | [], b => some b
  | (h, p) :: moves, b =>
    match b.playerPlayed h p with
    | none => none
    | some (b, _) => playAll moves b

theorem Reachable.playAll {nrows : UInt16} {b' : HexBoard} :
    ∀ (moves : List (Hex × Player)) (b : HexBoard), Reachable nrows b →
      (∀ m ∈ moves, m.2 ≠ .kFree) → b.playAll moves = some b' → Reachable nrows b'
  | [], _, hr, _, hb => Option.some.inj hb ▸ hr
  | (h, p) :: moves, b, hr, hm, hb => by
    unfold HexBoard.playAll at hb
    split at hb
    · simp at hb
    · next b₁ accepted hb₁ =>
      exact Reachable.playAll moves b₁
        (hr.tail (.playerPlayed h p accepted (hm _ List.mem_cons_self) hb₁))
        (fun m hmem => hm m (List.mem_cons_of_mem _ hmem)) hb

/-- What `main` prints once the game is over. -/
def ending (b : HexBoard) : Ending := if b.hasWinner then .won b.winner else .drawn

/-- The body of `main`'s game loop on the rows and columns read from the input: a row `-1` quits,
a cell that is not free is asked for again, and after a move the other player is asked. -/
def turns : List (Int16 × Int16) → HexBoard → Player → Option Ending
  | [], _, _ => some .waiting
  | (row, col) :: input, b, player =>
    if row = -1 then some .quit
    else if b.isFree ⟨col, row⟩ = false then turns input b player
    else
      match b.playerPlayed ⟨col, row⟩ player, nextPlayer player with
      | some (b, _), some player =>
        match b.isGameOver player with
        | none => none
        | some (b, true) => some b.ending
        | some (b, false) => turns input b player
      | _, _ => none

/-- One game of `main`. -/
def hexGame (nrows : UInt16) (input : List (Int16 × Int16)) : Option Ending :=
  match (new nrows).isGameOver .kPlayer1 with
  | none => none
  | some (b, true) => some b.ending
  | some (b, false) => turns input b .kPlayer1

/-- Every cell has an owner. -/
def Full (b : HexBoard) : Prop :=
  ∀ q r, q < b.nrows.toNat → r < b.nrows.toNat → ∃ p, p ≠ .kFree ∧ b.board (cell q r) = some p

theorem ofInt_cast (k : ℕ) : Int16.ofNat k = Int16.ofInt k := Int16.ofInt_eq_ofNat.symm

theorem adjacent_of_touches {x y : ℕ × ℕ} (h : Rhombus.Touches x y) :
    Adjacent (cell x.1 x.2) (cell y.1 y.2) := by
  obtain ⟨d, hd, h1, h2⟩ : ∃ d : ℤ × ℤ, (⟨.ofInt d.1, .ofInt d.2⟩ : Hex) ∈ kDirections ∧
      (y.1 : ℤ) = x.1 + d.1 ∧ (y.2 : ℤ) = x.2 + d.2 := by
    refine ⟨(y.1 - x.1, y.2 - x.2), ?_, by simp, by simp⟩
    have hmap : ∀ d ∈ Rhombus.directions, (⟨.ofInt d.1, .ofInt d.2⟩ : Hex) ∈ kDirections := by
      decide
    exact hmap _ h
  refine ⟨_, hd, ?_⟩
  change (⟨.ofNat y.1, .ofNat y.2⟩ : Hex) = ⟨.ofNat x.1 + .ofInt d.1, .ofNat x.2 + .ofInt d.2⟩
  simp only [ofInt_cast, h1, h2, Int16.ofInt_add]

section Crossing

variable {b : HexBoard} {n : ℕ} {p : Player} {P : ℕ × ℕ → Prop}

theorem isChain_map_cell (hP : ∀ x, x.1 < n → x.2 < n → P x → b.board (cell x.1 x.2) = some p) :
    ∀ (xs : List (ℕ × ℕ)) (s : ℕ × ℕ), s.1 < n → s.2 < n → P s →
      (s :: xs).IsChain (Rhombus.Link n P) →
      ((s :: xs).map fun x => cell x.1 x.2).IsChain Adjacent ∧
        ∀ h ∈ (s :: xs).map (fun x => cell x.1 x.2), b.board h = some p
  | [], s, h1, h2, hs, _ => by
    refine ⟨.singleton _, ?_⟩
    simpa using hP s h1 h2 hs
  | y :: xs, s, h1, h2, hs, hc => by
    rw [List.isChain_cons_cons] at hc
    obtain ⟨⟨-, ⟨hy1, hy2, hy⟩, ht⟩, hc⟩ := hc
    obtain ⟨ih1, ih2⟩ := isChain_map_cell hP xs y hy1 hy2 hy hc
    refine ⟨List.IsChain.cons_cons (adjacent_of_touches ht) ih1, ?_⟩
    intro h hh
    rcases List.mem_cons.1 hh with rfl | hh
    · exact hP s h1 h2 hs
    · exact ih2 h hh

/-- A crossing of the rhombus by cells of one player is a chain of that player. -/
theorem hasChain_of_joined (hs : Shape n b) {S : ℕ × ℕ → Prop}
    (hP : ∀ x, x.1 < n → x.2 < n → P x → b.board (cell x.1 x.2) = some p)
    (hS : ∀ x, S x → OnStart p (cell x.1 x.2)) {x : ℕ × ℕ} (hx : Rhombus.Joined n P S x)
    (hg : OnGoal n p (cell x.1 x.2)) : b.HasChain p := by
  obtain ⟨s, hSs, h1, h2, hPs, hr⟩ := hx
  obtain ⟨xs, hc, hlast⟩ := List.exists_isChain_cons_of_relationReflTransGen hr
  obtain ⟨hadj, ho⟩ := isChain_map_cell hP xs s h1 h2 hPs hc
  refine ⟨_, hadj, ho, ⟨_, rfl, hS s hSs⟩, cell x.1 x.2, ?_, by rwa [hs.nrows]⟩
  rw [List.getLast?_map, List.getLast?_eq_getLast_of_ne_nil (List.cons_ne_nil s xs), hlast]
  rfl

/-- On a full board one of the players has a chain. -/
theorem exists_hasChain_of_full (h1 : 1 ≤ n) (hn : n < 32768) (hs : Shape n b) (hf : b.Full) :
    ∃ p, p ≠ .kFree ∧ b.HasChain p := by
  have hPlayer2 : ∀ x : ℕ × ℕ, x.1 < n → x.2 < n → ¬ b.board (cell x.1 x.2) = some .kPlayer1 →
      b.board (cell x.1 x.2) = some .kPlayer2 := by
    intro x hx1 hx2 hx
    obtain ⟨p, hp, hb⟩ := hf x.1 x.2 (by rwa [hs.nrows]) (by rwa [hs.nrows])
    cases p with
    | kFree => exact absurd rfl hp
    | kPlayer1 => exact absurd hb hx
    | kPlayer2 => exact hb
  have hlast : (Int16.ofNat (n - 1)).toInt = (n : ℤ) - 1 := by
    rw [toInt_ofNat_lt hn (by omega)]
    omega
  rcases Rhombus.crossing h1 (fun x => b.board (cell x.1 x.2) = some .kPlayer1) with
    ⟨x, hj, -, hx⟩ | ⟨x, hj, -, hx⟩
  · refine ⟨.kPlayer1, by decide, hasChain_of_joined hs (fun _ _ _ h => h) ?_ hj ?_⟩
    · rintro ⟨q, r⟩ rfl
      rfl
    · simpa [OnGoal, cell, hx] using hlast
  · refine ⟨.kPlayer2, by decide, hasChain_of_joined hs hPlayer2 ?_ hj ?_⟩
    · rintro ⟨q, r⟩ rfl
      rfl
    · simpa [OnGoal, cell, hx] using hlast

theorem hasWinner_of_full (h1 : 1 ≤ n) (hn : n < 32768) (hI : Inv n b) (hf : b.Full) :
    b.hasWinner = true := by
  by_contra hw
  obtain ⟨p, hp, hc⟩ := exists_hasChain_of_full h1 hn hI.shape hf
  exact hI.chain (by simpa [hasWinner] using hw) p hp hc

end Crossing

section Counting

variable {b b' : HexBoard} {n : ℕ} {p : Player} {h : Hex}

def occupied (n : ℕ) (b : HexBoard) : Finset Hex :=
  (cells n).filter fun h => b.board h ≠ some .kFree

theorem mem_occupied : h ∈ occupied n b ↔ h ∈ cells n ∧ b.board h ≠ some .kFree :=
  Finset.mem_filter

/-- The two counters hold the numbers of cells taken and of all cells. -/
structure Counted (n : ℕ) (b : HexBoard) : Prop where
  played : b.movesPlayed = .ofNat (occupied n b).card
  possible : b.movesPossible = .ofNat (n * n)

theorem SameGame.counted (hs : SameGame b b') (hc : Counted n b) : Counted n b' := by
  refine ⟨?_, by rw [hs.movesPossible, hc.possible]⟩
  rw [hs.movesPlayed, hc.played, occupied, occupied, hs.board]

theorem counted_new (nrows : UInt16) : Counted nrows.toNat (new nrows) where
  played := by
    have hempty : occupied nrows.toNat (new nrows) = ∅ := by
      refine Finset.filter_eq_empty_iff.2 fun h hh => ?_
      simp [board_new, freeOn, hh]
    rw [hempty]
    rfl
  possible := by
    rw [UInt16.ofNat_mul, UInt16.ofNat_toNat]
    rfl

theorem counted_take (hs : Shape n b) (hp : p ≠ .kFree) (hf : b.isFree h = true)
    (hc : Counted n b) : Counted n (b.take h p) := by
  have hb : b.board h = some .kFree := by simpa [isFree] using hf
  have hmem : h ∈ cells n := (hs.board h).1 (by simp [hb])
  have hins : occupied n (b.take h p) = insert h (occupied n b) := by
    ext c
    rw [Finset.mem_insert, mem_occupied, mem_occupied]
    by_cases hch : c = h
    · subst hch
      simp [take, hmem, hp]
    · simp [take, hch]
  have hnot : h ∉ occupied n b := by simp [mem_occupied, hb]
  refine ⟨?_, hc.possible⟩
  rw [hins, Finset.card_insert_of_notMem hnot, UInt16.ofNat_add, ← hc.played]
  rfl

theorem counted_step {c : Call} (hs : Shape n b) (hc : Counted n b) (hstep : Step b c b') :
    Counted n b' := by
  rcases step_cases hs hstep with ⟨b₀, rfl | ⟨h, p, hp, hf, rfl⟩, hsame, -⟩
  · exact hsame.counted hc
  · exact hsame.counted (counted_take hs hp hf hc)

theorem cell_inj {q r q' r' : ℕ} (hq : q < 65536) (hr : r < 65536) (hq' : q' < 65536)
    (hr' : r' < 65536) (he : cell q r = cell q' r') : q = q' ∧ r = r' := by
  have hinj : ∀ {x y : ℕ}, x < 65536 → y < 65536 → Int16.ofNat x = Int16.ofNat y → x = y := by
    intro x y hx hy hxy
    have h' := congrArg (fun i => i.toBitVec.toNat) hxy
    simp only [Int16.toBitVec_ofNat', BitVec.toNat_ofNat] at h'
    omega
  simp only [cell, Hex.mk.injEq] at he
  exact ⟨hinj hq hq' he.1, hinj hr hr' he.2⟩

theorem card_image_cell {S : Finset (ℕ × ℕ)} (hS : ∀ x ∈ S, x.1 < 65536 ∧ x.2 < 65536) :
    (S.image fun x => cell x.1 x.2).card = S.card := by
  refine Finset.card_image_of_injOn ?_
  rintro ⟨q, r⟩ hx ⟨q', r'⟩ hy hxy
  obtain ⟨hq, hr⟩ := hS _ hx
  obtain ⟨hq', hr'⟩ := hS _ hy
  obtain ⟨rfl, rfl⟩ := cell_inj hq hr hq' hr' hxy
  rfl

theorem card_cells (hn : n ≤ 65536) : (cells n).card = n * n := by
  rw [cells, card_image_cell, Finset.card_product, Finset.card_range]
  intro x hx
  simp only [Finset.mem_product, Finset.mem_range] at hx
  omega

/-- When the counters agree, every cell is taken: they do not wrap below `256` rows. -/
theorem full_of_hasValidMove (hn : n ≤ 255) (hs : Shape n b) (hc : Counted n b)
    (hv : b.hasValidMove = true) : b.Full := by
  have hle : n * n ≤ 255 * 255 := Nat.mul_le_mul hn hn
  have hcard : (occupied n b).card ≤ (cells n).card := Finset.card_le_card (Finset.filter_subset _ _)
  rw [card_cells (by omega)] at hcard
  have heq : (occupied n b).card = n * n := by
    have h := of_decide_eq_true hv
    rw [hc.played, hc.possible] at h
    have h' := congrArg UInt16.toNat h
    simp only [UInt16.toNat_ofNat'] at h'
    omega
  have hall : occupied n b = cells n :=
    Finset.eq_of_subset_of_card_le (Finset.filter_subset _ _) (by rw [heq, card_cells (by omega)])
  intro q r hq hr
  rw [hs.nrows] at hq hr
  have hmem : cell q r ∈ cells n := mem_cells.2 ⟨q, r, hq, hr, rfl⟩
  obtain ⟨p, hb⟩ := Option.ne_none_iff_exists'.1 ((hs.board _).2 hmem)
  refine ⟨p, ?_, hb⟩
  rintro rfl
  rw [← hall] at hmem
  exact (Finset.mem_filter.1 hmem).2 hb

end Counting

section Runs

variable {b : HexBoard} {n : ℕ} {p : Player}

theorem exists_playerPlayed (h2 : 2 ≤ n) (hn : n < 32768) (hI : Inv n b) (hp : p ≠ .kFree)
    (h : Hex) : ∃ b' accepted, b.playerPlayed h p = some (b', accepted) := by
  by_cases hf : b.isFree h = true
  · by_cases hw : b.winner = .kFree
    · obtain ⟨b', hb', -⟩ := playerPlayed_winner h2 hn hp hI hw hf
      exact ⟨b', true, hb'⟩
    · exact ⟨b.take h p, true, playerPlayed_of_winner hp hw hf⟩
  · exact ⟨b, false, by simp [playerPlayed, hf]⟩

/-- `IsGameOver` answers, and it answers yes only when there is a winner. -/
theorem isGameOver_hasWinner (h2 : 2 ≤ n) (hn : n ≤ 255) (hI : Inv n b) (hc : Counted n b)
    (hp : p ≠ .kFree) :
    ∃ b' ended, b.isGameOver p = some (b', ended) ∧ (ended = true → b'.hasWinner = true) := by
  by_cases hw : b.winner = .kFree
  · obtain ⟨b', ended, hb', hsame, -, -, -, hended⟩ :=
      isGameOver_winner h2 (by omega) hp hI.shape hw
    refine ⟨b', ended, hb', fun ho => ?_⟩
    rcases hended ho with hwin | hv
    · exact hwin
    · have hI' := inv_step h2 (by omega) hI (.isGameOver p ended hp hb')
      exact hasWinner_of_full (by omega) (by omega) hI'
        (full_of_hasValidMove hn hI'.shape (hsame.counted hc) hv)
  · exact ⟨b, true, isGameOver_of_winner hp hw, fun _ => by simp [hasWinner, hw]⟩

theorem playAll_spec (h2 : 2 ≤ n) (hn : n < 32768) :
    ∀ (moves : List (Hex × Player)) (b : HexBoard), (∀ m ∈ moves, m.2 ≠ .kFree) → Inv n b →
      Counted n b → ∃ b', playAll moves b = some b' ∧ Inv n b' ∧ Counted n b'
  | [], b, _, hI, hc => ⟨b, rfl, hI, hc⟩
  | (h, p) :: moves, b, hm, hI, hc => by
    have hp : p ≠ .kFree := hm (h, p) List.mem_cons_self
    obtain ⟨b₁, accepted, hb₁⟩ := exists_playerPlayed h2 hn hI hp h
    have hs : Step b (.playerPlayed h p) b₁ := .playerPlayed h p accepted hp hb₁
    obtain ⟨b', hb', hI', hc'⟩ := playAll_spec h2 hn moves b₁
      (fun m hmem => hm m (List.mem_cons_of_mem _ hmem)) (inv_step h2 hn hI hs)
      (counted_step hI.shape hc hs)
    exact ⟨b', by simp only [playAll, hb₁, hb'], hI', hc'⟩

theorem ending_of_hasWinner (h : b.hasWinner = true) : b.ending ≠ .drawn := by
  simp [ending, h]

theorem turns_spec (h2 : 2 ≤ n) (hn : n ≤ 255) :
    ∀ (input : List (Int16 × Int16)) (b : HexBoard) (p : Player), p ≠ .kFree → Inv n b →
      Counted n b → ∃ e, turns input b p = some e ∧ e ≠ .drawn
  | [], _, _, _, _, _ => ⟨.waiting, rfl, by decide⟩
  | (row, col) :: input, b, p, hp, hI, hc => by
    unfold turns
    split_ifs with hrow hfree
    · exact ⟨.quit, rfl, by decide⟩
    · exact turns_spec h2 hn input b p hp hI hc
    · obtain ⟨b₁, accepted, hb₁⟩ := exists_playerPlayed h2 (by omega) hI hp ⟨col, row⟩
      have hs₁ : Step b (.playerPlayed ⟨col, row⟩ p) b₁ := .playerPlayed _ p accepted hp hb₁
      have hI₁ := inv_step h2 (by omega) hI hs₁
      have hc₁ := counted_step hI.shape hc hs₁
      obtain ⟨p', hp', hne⟩ : ∃ p', nextPlayer p = some p' ∧ p' ≠ .kFree := by
        cases p with
        | kFree => exact absurd rfl hp
        | kPlayer1 => exact ⟨_, rfl, by decide⟩
        | kPlayer2 => exact ⟨_, rfl, by decide⟩
      obtain ⟨b₂, ended, hb₂, hended⟩ := isGameOver_hasWinner h2 hn hI₁ hc₁ hne
      have hs₂ : Step b₁ (.isGameOver p') b₂ := .isGameOver p' ended hne hb₂
      simp only [hb₁, hp', hb₂]
      cases ended with
      | true => exact ⟨_, rfl, ending_of_hasWinner (hended rfl)⟩
      | false =>
        exact turns_spec h2 hn input b₂ p' hne (inv_step h2 (by omega) hI₁ hs₂)
          (counted_step hI₁.shape hc₁ hs₂)

theorem hexGame_spec {nrows : UInt16} (h2 : 2 ≤ nrows.toNat) (hn : nrows.toNat ≤ 255)
    (input : List (Int16 × Int16)) : ∃ e, hexGame nrows input = some e ∧ e ≠ .drawn := by
  have hI := inv_new nrows
  have hc := counted_new nrows
  have hp : Player.kPlayer1 ≠ .kFree := by decide
  obtain ⟨b, ended, hb, hended⟩ := isGameOver_hasWinner h2 hn hI hc hp
  have hs : Step (new nrows) (.isGameOver .kPlayer1) b := .isGameOver _ ended hp hb
  simp only [hexGame, hb]
  cases ended with
  | true => exact ⟨_, rfl, ending_of_hasWinner (hended rfl)⟩
  | false =>
    exact turns_spec h2 hn input b _ hp (inv_step h2 (by omega) hI hs)
      (counted_step hI.shape hc hs)

/-- Moves by the two players in any order end on a board that has a winner if it is full, and
`IsGameOver` says yes only when there is a winner, so no game ends in a draw. -/
theorem never_drawn (nrows : UInt16) (h2 : 2 ≤ nrows.toNat) (hn : nrows.toNat ≤ 255) :
    (∀ moves : List (Hex × Player), (∀ m ∈ moves, m.2 ≠ .kFree) →
      ∃ b, playAll moves (new nrows) = some b ∧ (b.Full → b.hasWinner = true) ∧
        ∀ p, p ≠ .kFree →
          ∃ b' ended, b.isGameOver p = some (b', ended) ∧ (ended = true → b'.hasWinner = true)) ∧
    ∀ input : List (Int16 × Int16), ∃ e, hexGame nrows input = some e ∧ e ≠ .drawn := by
  refine ⟨fun moves hm => ?_, hexGame_spec h2 hn⟩
  obtain ⟨b, hb, hI, hc⟩ := playAll_spec h2 (by omega) moves _ hm (inv_new nrows)
    (counted_new nrows)
  exact ⟨b, hb, hasWinner_of_full (by omega) (by omega) hI,
    fun p hp => isGameOver_hasWinner h2 hn hI hc hp⟩

theorem never_drawn_seven :
    (∀ moves : List (Hex × Player), (∀ m ∈ moves, m.2 ≠ .kFree) →
      ∃ b, playAll moves (new 7) = some b ∧ (b.Full → b.hasWinner = true) ∧
        ∀ p, p ≠ .kFree →
          ∃ b' ended, b.isGameOver p = some (b', ended) ∧ (ended = true → b'.hasWinner = true)) ∧
    ∀ input : List (Int16 × Int16), ∃ e, hexGame 7 input = some e ∧ e ≠ .drawn :=
  never_drawn 7 (by decide) (by decide)

end Runs

end HexBoard

end CPPCodes.Game
