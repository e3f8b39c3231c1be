import CPPCodes.Subsets.SubsetSum

/-!
# The subsets that the search finds

`Compute` looks one number ahead, and this is safe if the number at its index still fits or is not
the last (`Ready`): what is pending reaches the sum, so the last number completes it. The first call
is ready unless there is one number only, greater than the sum, and then it reads behind the end. In
all other cases the search finds each subset once (`enumerates_iff`).
-/

namespace CPPCodes.Subsets

open Selections

namespace SubsetSum

variable {algo : SubsetSum}

/-- What a call of `Compute` may rely on. -/
structure Ready (algo : SubsetSum) (bitmap : List Bool) (currentSum : UInt32) (index : ℕ)
    (pending : UInt32) : Prop where
  length : bitmap.length = algo.numbers.length
  current_eq : currentSum.toNat = total (algo.chosen bitmap index)
  pending_eq : pending.toNat = total (algo.numbers.drop index)
  lt : currentSum.toNat < algo.sum.toNat
  reach : algo.sum.toNat ≤ currentSum.toNat + pending.toNat
  fits : currentSum.toNat + pending.toNat < 2 ^ 32
  ahead : (∀ x, algo.numbers[index]? = some x → currentSum.toNat + x.toNat ≤ algo.sum.toNat) ∨
    index + 1 < algo.numbers.length

/-- What a part of the search does: it leaves the bits in front of the index, and adds the entries,
in some order. -/
structure Adds (s s' : Search) (index : ℕ) (entries : List (List UInt32)) : Prop where
  length : s'.bitmap.length = s.bitmap.length
  frame : ∀ i < index, s'.bitmap[i]? = s.bitmap[i]?
  result : ∃ new, s'.result = s.result ++ new ∧ new.Perm entries

theorem Adds.nothing (s : Search) (index : ℕ) : Adds s s index [] :=
  ⟨rfl, fun _ _ => rfl, [], (List.append_nil _).symm, .refl _⟩

theorem Adds.trans {s s' s'' : Search} {index : ℕ} {entries entries' : List (List UInt32)}
    (h : Adds s s' index entries) (h' : Adds s' s'' index entries') :
    Adds s s'' index (entries ++ entries') := by
  obtain ⟨new, hnew, hperm⟩ := h.result
  obtain ⟨new', hnew', hperm'⟩ := h'.result
  refine ⟨h'.length.trans h.length, fun i hi => (h'.frame i hi).trans (h.frame i hi),
    new ++ new', ?_, hperm.append hperm'⟩
  rw [hnew', hnew, List.append_assoc]

theorem Adds.mono {s s' : Search} {index k : ℕ} {entries : List (List UInt32)}
    (h : Adds s s' index entries) (hle : k ≤ index) : Adds s s' k entries :=
  ⟨h.length, fun i hi => h.frame i (Nat.lt_of_lt_of_le hi hle), h.result⟩

theorem Adds.perm {s s' : Search} {index : ℕ} {entries entries' : List (List UInt32)}
    (h : Adds s s' index entries) (hperm : entries.Perm entries') : Adds s s' index entries' := by
  obtain ⟨new, hnew, hperm'⟩ := h.result
  exact ⟨h.length, h.frame, new, hnew, hperm'.trans hperm⟩

theorem setBit_spec {s : Search} {index : ℕ} (hindex : index < s.bitmap.length) (bit : Bool) :
    ∃ s', setBit s index bit = some s' ∧ Adds s s' index [] ∧ s'.bitmap[index]? = some bit := by
  refine ⟨_, if_pos hindex,
    ⟨List.length_set, fun i hi => ?_, [], (List.append_nil _).symm, .refl _⟩,
    List.getElem?_set_self hindex⟩
  exact List.getElem?_set_ne hi.ne'

/-- The entries for the subsets that begin with the chosen numbers and go on from the index. -/
def entries (algo : SubsetSum) (bitmap : List Bool) (index : ℕ) (rest : ℕ) : List (List UInt32) :=
  (selections UInt32.toNat (algo.numbers.drop index) rest).map (algo.chosen bitmap index ++ ·)

/-- The subsets from an index on are those without its number and those with it. -/
theorem entries_split {bitmap bitmap₁ bitmap₂ : List Bool} {index : ℕ} {x : UInt32} (rest : ℕ)
    (hx : algo.numbers[index]? = some x)
    (h₁ : ∀ i < index, bitmap₁[i]? = bitmap[i]?) (hset₁ : bitmap₁[index]? = some true)
    (h₂ : ∀ i < index, bitmap₂[i]? = bitmap[i]?) (hset₂ : bitmap₂[index]? = some false) :
    ((if x.toNat ≤ rest then algo.entries bitmap₁ (index + 1) (rest - x.toNat) else []) ++
      algo.entries bitmap₂ (index + 1) rest).Perm (algo.entries bitmap index rest) := by
  obtain ⟨hindex, rfl⟩ := List.getElem?_eq_some_iff.1 hx
  have hchosen₁ := chosen_succ hset₁ hx
  have hchosen₂ := chosen_succ hset₂ hx
  rw [chosen_congr h₁, if_pos rfl] at hchosen₁
  rw [chosen_congr h₂, if_neg Bool.false_ne_true, List.append_nil] at hchosen₂
  unfold entries
  rw [List.drop_eq_getElem_cons hindex, selections_cons, List.map_append, hchosen₁, hchosen₂]
  refine List.perm_append_comm.trans (.of_eq ?_)
  congr 1
  split_ifs
  · rw [List.map_map]
    exact List.map_congr_left fun l _ => by simp
  · rfl

/-- The facts about the numbers that the search rests on. -/
structure Numbers (algo : SubsetSum) : Prop where
  sorted : algo.numbers.Pairwise (· ≤ ·)
  pos : 0 ∉ algo.numbers

theorem Numbers.le_of_mem_drop (h : Numbers algo) {index : ℕ} {x y : UInt32}
    (hx : algo.numbers[index]? = some x) (hy : y ∈ algo.numbers.drop index) : x ≤ y := by
  obtain ⟨hindex, rfl⟩ := List.getElem?_eq_some_iff.1 hx
  rw [List.drop_eq_getElem_cons hindex] at hy
  rcases List.mem_cons.1 hy with rfl | hy
  · exact UInt32.le_refl _
  · have hsorted := h.sorted.sublist (List.drop_sublist index _)
    rw [List.drop_eq_getElem_cons hindex] at hsorted
    exact List.rel_of_pairwise_cons hsorted hy

theorem Numbers.toNat_pos (h : Numbers algo) {x : UInt32} (hx : x ∈ algo.numbers) :
    0 < x.toNat := by
  refine Nat.pos_of_ne_zero fun hzero => ?_
  obtain rfl : x = 0 := UInt32.toNat_inj.1 hzero
  exact h.pos hx

theorem total_drop {index : ℕ} {x : UInt32} (hx : algo.numbers[index]? = some x) :
    total (algo.numbers.drop index) = x.toNat + total (algo.numbers.drop (index + 1)) := by
  obtain ⟨hindex, rfl⟩ := List.getElem?_eq_some_iff.1 hx
  rw [List.drop_eq_getElem_cons hindex]
  unfold total
  rw [List.map_cons, List.sum_cons]

/-- Nothing is left behind the last number. -/
theorem total_drop_of_le {index : ℕ} (hle : algo.numbers.length ≤ index) :
    total (algo.numbers.drop index) = 0 := by
  rw [List.drop_eq_nil_of_le hle]
  rfl

/-- If the next number is too much, nothing is found behind it. -/
theorem Numbers.entries_of_lt (h : Numbers algo) {bitmap : List Bool} {index rest : ℕ}
    {next : UInt32} (hnext : algo.numbers[index]? = some next) (hrest : rest ≠ 0)
    (hlt : rest < next.toNat) : algo.entries bitmap index rest = [] := by
  unfold entries
  rw [selections_of_lt hrest fun x hx => ?_]
  · rfl
  · exact Nat.lt_of_lt_of_le hlt (UInt32.le_iff_toNat_le.1 (h.le_of_mem_drop hnext hx))

section Call

variable {s : Search} {currentSum pending x : UInt32} {index : ℕ}

/-- In front of the last number something is pending, so it is not passed over. -/
theorem Ready.le_pending (h : Ready algo s.bitmap currentSum index pending)
    (hx : algo.numbers[index]? = some x) :
    x ≤ pending ∧ (pending - x).toNat = total (algo.numbers.drop (index + 1)) := by
  have hsum := total_drop hx
  have hpending := h.pending_eq
  have hle : x ≤ pending := UInt32.le_iff_toNat_le.2 (by omega)
  refine ⟨hle, ?_⟩
  rw [UInt32.toNat_sub_of_le _ _ hle]
  omega

theorem Ready.toNat_add (h : Ready algo s.bitmap currentSum index pending)
    (hx : algo.numbers[index]? = some x) :
    (currentSum + x).toNat = currentSum.toNat + x.toNat := by
  have hsum := total_drop hx
  have hpending := h.pending_eq
  have hfits := h.fits
  rw [UInt32.toNat_add, Nat.mod_eq_of_lt (by omega)]

/-- What the numbers behind the index have in front is pending. -/
theorem toNat_next_le {next : UInt32} (hnext : algo.numbers[index]? = some next) :
    next.toNat ≤ total (algo.numbers.drop index) := by
  rw [total_drop hnext]
  exact Nat.le_add_right _ _

/-- Where the number does not complete the sum, there is a next number. -/
theorem Ready.exists_next (h : Ready algo s.bitmap currentSum index pending)
    (hx : algo.numbers[index]? = some x) (hne : currentSum + x ≠ algo.sum) :
    ∃ next, algo.numbers[index + 1]? = some next := by
  refine ⟨_, List.getElem?_eq_getElem (?_ : index + 1 < algo.numbers.length)⟩
  by_contra hlast
  have hzero := total_drop_of_le (Nat.le_of_not_lt hlast)
  have hsum := total_drop hx
  have hpending := h.pending_eq
  have hreach := h.reach
  rcases h.ahead with hahead | hahead
  · have hle := hahead x hx
    refine hne (UInt32.toNat_inj.1 ?_)
    rw [h.toNat_add hx]
    omega
  · exact hlast hahead

/-- What the number and the next make with the sum does not wrap. -/
theorem Ready.toNat_add_next (h : Ready algo s.bitmap currentSum index pending)
    (hx : algo.numbers[index]? = some x) {next : UInt32}
    (hnext : algo.numbers[index + 1]? = some next) :
    (currentSum + x + next).toNat = currentSum.toNat + x.toNat + next.toNat ∧
      (currentSum + next).toNat = currentSum.toNat + next.toNat := by
  have hle := toNat_next_le hnext
  have hsum := total_drop hx
  have hpending := h.pending_eq
  have hfits := h.fits
  constructor
  · rw [UInt32.toNat_add, h.toNat_add hx, Nat.mod_eq_of_lt (by omega)]
  · rw [UInt32.toNat_add, Nat.mod_eq_of_lt (by omega)]

/-- The call for the next index, if its number fits. -/
theorem Ready.next (h : Ready algo s.bitmap currentSum index pending) (hnumbers : Numbers algo)
    (hx : algo.numbers[index]? = some x) {bitmap : List Bool} {currentSum' next : UInt32}
    (hlen : bitmap.length = algo.numbers.length)
    (hcurrent : currentSum'.toNat = total (algo.chosen bitmap (index + 1)))
    (hreach : algo.sum.toNat ≤ currentSum'.toNat + (pending - x).toNat)
    (hfits : currentSum'.toNat ≤ currentSum.toNat + x.toNat)
    (hnext : algo.numbers[index + 1]? = some next)
    (hle : currentSum'.toNat + next.toNat ≤ algo.sum.toNat) :
    Ready algo bitmap currentSum' (index + 1) (pending - x) := by
  obtain ⟨-, hpending⟩ := h.le_pending hx
  have hsum := total_drop hx
  have hpos := hnumbers.toNat_pos (List.mem_of_getElem? hnext)
  have heq := h.pending_eq
  have hall := h.fits
  refine ⟨hlen, hcurrent, hpending, by omega, hreach, by omega, .inl fun y hy => ?_⟩
  obtain rfl := Option.some.inj (hnext.symm.trans hy)
  exact hle

/-- The entries with the number at the index. -/
def entriesWith (algo : SubsetSum) (bitmap : List Bool) (index rest : ℕ) (x : UInt32) :
    List (List UInt32) :=
  if x.toNat ≤ rest then algo.entries bitmap (index + 1) (rest - x.toNat) else []

/-- The number completes the sum, and no more can be added. -/
theorem Ready.completes (hnumbers : Numbers algo)
    (h : Ready algo s.bitmap currentSum index pending) (hx : algo.numbers[index]? = some x)
    {s₁ : Search} (hlen : s₁.bitmap.length = algo.numbers.length)
    (htotal : (currentSum + x).toNat = total (algo.chosen s₁.bitmap (index + 1)))
    (heq : currentSum + x = algo.sum) :
    ∃ s', algo.insertResult s₁ index = some s' ∧ Adds s₁ s' (index + 1)
      (algo.entriesWith s₁.bitmap index (algo.sum.toNat - currentSum.toNat) x) := by
  have hadd := h.toNat_add hx
  rw [heq] at hadd htotal
  have hrest : algo.sum.toNat - currentSum.toNat - x.toNat = 0 := by omega
  unfold entriesWith
  rw [if_pos (by omega), hrest,
    insertResult_spec hlen (List.getElem?_eq_some_iff.1 hx).1 htotal.symm]
  refine ⟨_, rfl, rfl, fun _ _ => rfl, _, rfl, .of_eq ?_⟩
  unfold entries
  rw [selections_zero fun y hy => (hnumbers.toNat_pos (List.mem_of_mem_drop hy)).ne',
    List.map_singleton, List.append_nil]

/-- The part with the number at the index. -/
theorem withNumber_spec (again : Search → UInt32 → Option Search) (hnumbers : Numbers algo)
    (h : Ready algo s.bitmap currentSum index pending) (hx : algo.numbers[index]? = some x)
    {s₁ : Search} (hadds : Adds s s₁ index []) (hset : s₁.bitmap[index]? = some true)
    (hagain : Ready algo s₁.bitmap (currentSum + x) (index + 1) (pending - x) →
      ∃ s', again s₁ (currentSum + x) = some s' ∧ Adds s₁ s' (index + 1)
        (algo.entries s₁.bitmap (index + 1) (algo.sum.toNat - (currentSum + x).toNat))) :
    ∃ s', algo.withNumber again s₁ currentSum x index = some s' ∧ Adds s₁ s' (index + 1)
      (algo.entriesWith s₁.bitmap index (algo.sum.toNat - currentSum.toNat) x) := by
  have hadd := h.toNat_add hx
  have hchosen := chosen_succ hset hx
  rw [chosen_congr hadds.frame, if_pos rfl] at hchosen
  have hone : total [x] = x.toNat := by simp [total]
  have htotal : (currentSum + x).toNat = total (algo.chosen s₁.bitmap (index + 1)) := by
    rw [hchosen, total_append, ← h.current_eq, hone, hadd]
  have hlen : s₁.bitmap.length = algo.numbers.length := hadds.length.trans h.length
  have hlt := h.lt
  unfold withNumber
  by_cases heq : currentSum + x = algo.sum
  · rw [if_pos heq]
    exact h.completes hnumbers hx hlen htotal heq
  · obtain ⟨next, hnext⟩ := h.exists_next hx heq
    obtain ⟨hadd', -⟩ := h.toNat_add_next hx hnext
    have hpos := hnumbers.toNat_pos (List.mem_of_getElem? hnext)
    rw [if_neg heq, hnext, Option.bind_eq_bind, Option.bind_some]
    unfold entriesWith
    by_cases hahead : currentSum + x + next ≤ algo.sum
    · have hle := UInt32.le_iff_toNat_le.1 hahead
      rw [hadd'] at hle
      obtain ⟨hlepend, hpending⟩ := h.le_pending hx
      have hsum := total_drop hx
      have hpend := h.pending_eq
      have hreach := h.reach
      have hrest : algo.sum.toNat - currentSum.toNat - x.toNat =
          algo.sum.toNat - (currentSum + x).toNat := by omega
      rw [if_pos hahead, if_pos (by omega), hrest]
      exact hagain (h.next hnumbers hx hlen htotal (by omega) (by omega) hnext (by omega))
    · -- the next number is too much
      have hle := UInt32.lt_iff_toNat_lt.1 (UInt32.not_le.1 hahead)
      rw [hadd'] at hle
      have hne : currentSum.toNat + x.toNat ≠ algo.sum.toNat := by
        rw [← hadd]
        exact fun hnat => heq (UInt32.toNat_inj.1 hnat)
      rw [if_neg hahead]
      refine ⟨s₁, rfl, ?_⟩
      split_ifs with hfits
      · rw [hnumbers.entries_of_lt hnext (by omega) (by omega)]
        exact .nothing _ _
      · exact .nothing _ _

/-- Where the bounding function stops the search, nothing is found without the number. -/
theorem bounded_spec (hnumbers : Numbers algo) (h : Ready algo s.bitmap currentSum index pending)
    (hx : algo.numbers[index]? = some x) :
    (algo.bounded currentSum (pending - x) index = some true ∧ ∀ bitmap,
        algo.entries bitmap (index + 1) (algo.sum.toNat - currentSum.toNat) = []) ∨
      algo.bounded currentSum (pending - x) index = some false ∧
        algo.sum.toNat ≤ currentSum.toNat + (pending - x).toNat ∧
        ∃ next, algo.numbers[index + 1]? = some next ∧
          currentSum.toNat + next.toNat ≤ algo.sum.toNat := by
  obtain ⟨-, hpending⟩ := h.le_pending hx
  have hsum := total_drop hx
  have hpend := h.pending_eq
  have hfits := h.fits
  have hlt := h.lt
  have hadd : (currentSum + (pending - x)).toNat = currentSum.toNat + (pending - x).toNat := by
    rw [UInt32.toNat_add, Nat.mod_eq_of_lt (by omega)]
  unfold bounded
  by_cases hshort : currentSum + (pending - x) < algo.sum
  · refine .inl ⟨if_pos hshort, fun bitmap => ?_⟩
    have hshort' := UInt32.lt_iff_toNat_lt.1 hshort
    rw [hadd, hpending] at hshort'
    have hrest : total (algo.numbers.drop (index + 1)) < algo.sum.toNat - currentSum.toNat := by
      omega
    unfold entries
    rw [selections_of_sum_lt hrest]
    rfl
  · have hreach := UInt32.le_iff_toNat_le.1 (UInt32.not_lt.1 hshort)
    rw [hadd] at hreach
    have hindex : index + 1 < algo.numbers.length := by
      by_contra hlast
      have hzero := total_drop_of_le (Nat.le_of_not_lt hlast)
      omega
    have hnext : algo.numbers[index + 1]? = some algo.numbers[index + 1] :=
      List.getElem?_eq_getElem hindex
    obtain ⟨-, hadd'⟩ := h.toNat_add_next hx hnext
    rw [if_neg hshort, hnext, Option.bind_eq_bind, Option.bind_some]
    by_cases hover : algo.sum < currentSum + algo.numbers[index + 1]
    · have hover' := UInt32.lt_iff_toNat_lt.1 hover
      rw [hadd'] at hover'
      refine .inl ⟨by rw [decide_eq_true hover]; rfl, fun bitmap => ?_⟩
      exact hnumbers.entries_of_lt hnext (by omega) (by omega)
    · have hover' := UInt32.le_iff_toNat_le.1 (UInt32.not_lt.1 hover)
      rw [hadd'] at hover'
      exact .inr ⟨by rw [decide_eq_false hover]; rfl, hreach, _, rfl, hover'⟩

end Call

theorem Ready.index_lt {bitmap : List Bool} {currentSum pending : UInt32} {index : ℕ}
    (h : Ready algo bitmap currentSum index pending) : index < algo.numbers.length := by
  by_contra hle
  have hzero := total_drop_of_le (Nat.le_of_not_lt hle)
  have hpending := h.pending_eq
  have hreach := h.reach
  have hlt := h.lt
  omega

/-- A call that is ready finds the subsets that go on from its index, each once. -/
theorem computeFrom_spec (hnumbers : Numbers algo) :
    ∀ (fuel : ℕ) {index : ℕ} {s : Search} {currentSum pending : UInt32},
      algo.numbers.length < fuel + index → Ready algo s.bitmap currentSum index pending →
      ∃ s', algo.computeFrom fuel s currentSum index pending = some s' ∧ Adds s s' index
        (algo.entries s.bitmap index (algo.sum.toNat - currentSum.toNat))
  | 0, _, _, _, _, hfuel, h => absurd h.index_lt (by omega)
  | fuel + 1, index, s, currentSum, pending, hfuel, h => by
    have hindex := h.index_lt
    have hx : algo.numbers[index]? = some algo.numbers[index] := List.getElem?_eq_getElem hindex
    obtain ⟨s₁, hset₁, hadds₁, hbit₁⟩ := setBit_spec (h.length ▸ hindex) true
    obtain ⟨s₂, hwith, hadds₂⟩ := withNumber_spec
      (fun s sum => algo.computeFrom fuel s sum (index + 1) (pending - algo.numbers[index]))
      hnumbers h hx hadds₁ hbit₁ fun hready => computeFrom_spec hnumbers fuel (by omega) hready
    have hadds := hadds₁.trans (hadds₂.mono (Nat.le_succ index))
    have hlen : s₂.bitmap.length = algo.numbers.length := hadds.length.trans h.length
    obtain ⟨s₃, hset₃, hadds₃, hbit₃⟩ := setBit_spec (hlen.symm ▸ hindex) false
    have hall := hadds.trans hadds₃
    have hsplit := entries_split (algo.sum.toNat - currentSum.toNat) hx hadds₁.frame hbit₁
      hall.frame hbit₃
    unfold computeFrom
    rw [hx]
    simp only [Option.bind_eq_bind, Option.bind_some, hset₁, hwith]
    rcases bounded_spec hnumbers h hx with ⟨hbound, hnone⟩ | ⟨hbound, hreach, next, hnext, hle⟩
    · -- without the number there is nothing more
      rw [hnone, List.append_nil] at hsplit
      rw [hbound, Option.bind_some, if_pos rfl]
      exact ⟨s₂, rfl, hadds.perm hsplit⟩
    · have hchosen := chosen_succ hbit₃ hx
      rw [chosen_congr hall.frame, if_neg Bool.false_ne_true, List.append_nil] at hchosen
      have hready : Ready algo s₃.bitmap currentSum (index + 1) (pending - algo.numbers[index]) :=
        h.next hnumbers hx (hall.length.trans h.length) (hchosen ▸ h.current_eq) hreach
          (Nat.le_add_right _ _) hnext hle
      obtain ⟨s₄, hrest, hadds₄⟩ := computeFrom_spec hnumbers fuel (by omega) hready
      rw [hbound, Option.bind_some, if_neg Bool.false_ne_true, hset₃, Option.bind_some]
      refine ⟨s₄, hrest, (hall.trans (hadds₄.mono (Nat.le_succ index))).perm ?_⟩
      rw [List.nil_append, List.append_nil]
      exact hsplit

/-- What `std::accumulate` gives, if the numbers and what it starts with do not wrap. -/
theorem toNat_foldl : ∀ {xs : List UInt32} {acc : UInt32}, acc.toNat + total xs < 2 ^ 32 →
    (xs.foldl (· + ·) acc).toNat = acc.toNat + total xs
  | [], _, _ => rfl
  | x :: xs, acc, hlt => by
    have hcons : total (x :: xs) = x.toNat + total xs := total_append [x] xs
    rw [hcons] at hlt ⊢
    have hadd : (acc + x).toNat = acc.toNat + x.toNat := by
      rw [UInt32.toNat_add, Nat.mod_eq_of_lt (by omega)]
    rw [List.foldl_cons, toNat_foldl (by omega), hadd, Nat.add_assoc]

theorem compute_of_lt (hlt : algo.numbers.foldl (· + ·) 0 < algo.sum) (fuel : ℕ) :
    algo.compute fuel [] = some [] :=
  if_pos hlt

theorem compute_of_le (hle : algo.sum ≤ algo.numbers.foldl (· + ·) 0) (fuel : ℕ) :
    algo.compute fuel [] = (algo.computeFrom fuel ⟨List.replicate algo.numbers.length false, []⟩ 0 0
      (algo.numbers.foldl (· + ·) 0)).map Search.result :=
  (if_neg (UInt32.not_lt.2 hle)).trans (Option.map_eq_bind (f := Search.result)).symm

section New

variable {numbers : List UInt32} {sum : UInt32}

theorem new_perm (numbers : List UInt32) (sum : UInt32) : (new numbers sum).numbers.Perm numbers :=
  List.mergeSort_perm numbers _

theorem numbers_new (sum : UInt32) (hpos : 0 ∉ numbers) : Numbers (new numbers sum) where
  sorted := by
    have htrans : ∀ a b c : UInt32, decide (a ≤ b) = true → decide (b ≤ c) = true →
        decide (a ≤ c) = true := by
      simp only [decide_eq_true_iff]
      exact fun _ _ _ => UInt32.le_trans
    have htotal : ∀ a b : UInt32, (decide (a ≤ b) || decide (b ≤ a)) = true := by
      simp only [Bool.or_eq_true, decide_eq_true_iff]
      exact UInt32.le_total
    exact (List.pairwise_mergeSort htrans htotal numbers).imp of_decide_eq_true
  pos := fun hmem => hpos ((new_perm numbers sum).mem_iff.1 hmem)

theorem total_new : total (new numbers sum).numbers = total numbers :=
  ((new_perm numbers sum).map _).sum_eq

theorem toNat_foldl_new (sum : UInt32) (htotal : total numbers < 2 ^ 32) :
    ((new numbers sum).numbers.foldl (· + ·) 0).toNat = total numbers := by
  have htotal' : total (new numbers sum).numbers = total numbers := total_new
  rw [toNat_foldl (by rw [htotal']; simp; omega), htotal']
  exact Nat.zero_add _

/-- The first call is ready, unless there is one number only, which is too much. -/
theorem ready_new (hsum : sum ≠ 0) (htotal : total numbers < 2 ^ 32)
    (hreach : sum.toNat ≤ total numbers) (hone : ∀ x, numbers = [x] → x ≤ sum) :
    Ready (new numbers sum) (List.replicate (new numbers sum).numbers.length false) 0 0
      ((new numbers sum).numbers.foldl (· + ·) 0) := by
  have htotal' : total (new numbers sum).numbers = total numbers := total_new
  have hfold := toNat_foldl_new sum htotal
  have hsum' : sum.toNat ≠ 0 := fun hzero => hsum (UInt32.toNat_inj.1 hzero)
  refine ⟨List.length_replicate, rfl, by rw [hfold, List.drop_zero, htotal'],
    Nat.pos_of_ne_zero hsum', ?_, ?_, ?_⟩
  · rw [hfold]
    exact hreach.trans (Nat.le_add_left _ _)
  · rw [hfold]
    simpa using htotal
  · -- one number only is the one that the caller has
    by_cases hlen : 1 < (new numbers sum).numbers.length
    · exact .inr hlen
    · refine .inl fun x hx => ?_
      obtain ⟨hindex, rfl⟩ := List.getElem?_eq_some_iff.1 hx
      obtain ⟨y, hy⟩ := List.length_eq_one_iff.1 (by omega : (new numbers sum).numbers.length = 1)
      have hperm := new_perm numbers sum
      rw [hy] at hperm
      have hle := UInt32.le_iff_toNat_le.1 (hone y (List.singleton_perm.1 hperm).symm)
      simp only [hy, List.getElem_cons_zero]
      exact (Nat.zero_add _).trans_le hle

/-- The search ends and finds each selection with the sum, unless there is one number only, which is
too much. -/
theorem compute_spec (hpos : 0 ∉ numbers) (htotal : total numbers < 2 ^ 32) (hsum : sum ≠ 0)
    (hone : ∀ x, numbers = [x] → x ≤ sum) {fuel : ℕ} (hfuel : numbers.length < fuel) :
    ∃ result, (new numbers sum).compute fuel [] = some result ∧
      result.Perm (selections UInt32.toNat (new numbers sum).numbers sum.toNat) := by
  have hfold := toNat_foldl_new sum htotal
  by_cases hreach : sum.toNat ≤ total numbers
  · have hready := ready_new hsum htotal hreach hone
    have hlen := (new_perm numbers sum).length_eq
    obtain ⟨s', hrun, hadds⟩ := computeFrom_spec (s := ⟨_, []⟩) (numbers_new sum hpos) fuel
      (by omega) hready
    obtain ⟨entries, hresult, hperm⟩ := hadds.result
    refine ⟨entries, ?_, hperm.trans (.of_eq ?_)⟩
    · rw [compute_of_le (UInt32.le_iff_toNat_le.2 (hfold ▸ hreach)), hrun, Option.map_some,
        hresult, List.nil_append]
    · unfold SubsetSum.entries
      exact List.map_id' _
  · have hlt : total (new numbers sum).numbers < sum.toNat := by
      rw [total_new]
      exact Nat.not_le.1 hreach
    refine ⟨[], compute_of_lt (UInt32.lt_iff_toNat_lt.2 ?_) fuel, ?_⟩
    · rw [hfold]
      exact Nat.not_le.1 hreach
    · rw [selections_of_sum_lt hlt]

end New

end SubsetSum

/-- `Compute` comes to an end, with no access outside `numbers_` and the bitmap and no assert that
fails, and `result_` then has one entry for each set of positions with the sum. -/
def Enumerates (numbers : List UInt32) (sum : UInt32) : Prop :=
  ∃ fuel result, (SubsetSum.new numbers sum).compute fuel [] = some result ∧
    (result : Multiset (List UInt32)) =
      (placesOf UInt32.toNat (SubsetSum.new numbers sum).numbers 0 sum.toNat).val.map
        (elementsAt (SubsetSum.new numbers sum).numbers 0)

open SubsetSum

/-- One number that is too much: the search looks for the next. -/
theorem compute_singleton {x sum : UInt32} (hlt : sum < x) (fuel : ℕ) :
    (SubsetSum.new [x] sum).compute fuel [] = none := by
  have hne : x ≠ sum := by
    rintro rfl
    exact UInt32.lt_irrefl _ hlt
  have hnumbers : (SubsetSum.new [x] sum).numbers = [x] := List.mergeSort_singleton x
  have hle : sum ≤ (SubsetSum.new [x] sum).numbers.foldl (· + ·) 0 := by
    rw [hnumbers, List.foldl_cons, List.foldl_nil, UInt32.zero_add]
    exact UInt32.le_of_lt hlt
  rw [compute_of_le hle, hnumbers]
  cases fuel with
  | zero => rfl
  | succ fuel =>
    unfold computeFrom setBit withNumber
    simp [hne, SubsetSum.new]

/-- The search finds each subset with the sum once, unless there is one number only, which is
greater than the sum. -/
theorem enumerates_iff (numbers : List UInt32) (sum : UInt32) (hpos : 0 ∉ numbers)
    (htotal : (numbers.map UInt32.toNat).sum < 2 ^ 31) (hsum : sum ≠ 0) :
    Enumerates numbers sum ↔ ∀ x, numbers = [x] → x ≤ sum := by
  constructor
  · rintro ⟨fuel, result, hrun, -⟩ x rfl
    by_contra hlt
    rw [compute_singleton (UInt32.not_le.1 hlt)] at hrun
    exact Option.some_ne_none _ hrun.symm
  · intro hone
    obtain ⟨result, hrun, hperm⟩ := compute_spec hpos (htotal.trans (by decide)) hsum hone
      (Nat.lt_succ_self _)
    refine ⟨_, result, hrun, ?_⟩
    rw [← coe_selections]
    exact Multiset.coe_eq_coe.2 hperm

/-- Four numbers, with two subsets that make 14. -/
theorem enumerates_iff_four : Enumerates [7, 5, 2, 7] 14 :=
  (enumerates_iff [7, 5, 2, 7] 14 (by decide) (by decide) (by decide)).2
    (fun _ h => absurd h (by simp))

/-- The number 5 alone, and the sum 3: `Compute` reads the number behind it. -/
theorem not_enumerates : ¬ ∀ (numbers : List UInt32) (sum : UInt32), 0 ∉ numbers →
    (numbers.map UInt32.toNat).sum < 2 ^ 31 → sum ≠ 0 → Enumerates numbers sum := by
  intro h
  obtain ⟨fuel, result, hrun, -⟩ := h [5] 3 (by decide) (by decide) (by decide)
  rw [compute_singleton (by decide)] at hrun
  exact Option.some_ne_none _ hrun.symm

end CPPCodes.Subsets
