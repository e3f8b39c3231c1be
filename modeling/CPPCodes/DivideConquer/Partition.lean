import CPPCodes.Lib.Pivot
import Mathlib.Algebra.Order.Ring.Int

/-!
# A range of a vector is cut at its last element

`Swap` and `Partition` of QuickSort.cpp, QuickSelect.cpp and QuickSortTemplate.cpp, where they are
the same but for the comparison with the pivot. A vector has with it the indexes that have been read
or written; an access outside of it is `none`. In front of each turn of the loop the range has the
elements that are not greater, then those that are, and then the rest (`partitionLoop_spec`).
-/

namespace CPPCodes.DivideConquer

variable {α : Type}

/-- The elements, and the indexes that have been read or written. -/
structure Vec (α : Type) where
  elements : List α
  touched : List ℤ

namespace Vec

def read (vec : Vec α) (i : ℤ) : Option (α × Vec α) := do
  let x ← if 0 ≤ i then vec.elements[i.toNat]? else none
  return (x, { vec with touched := vec.touched ++ [i] })

def write (vec : Vec α) (i : ℤ) (x : α) : Option (Vec α) :=
  if 0 ≤ i ∧ i < vec.elements.length then
    some { elements := vec.elements.set i.toNat x, touched := vec.touched ++ [i] }
  else none

/-- `Swap(&vec[f], &vec[s])`. -/
def swap (vec : Vec α) (f s : ℤ) : Option (Vec α) := do
  let (x, vec) ← vec.read f
  let (y, vec) ← vec.read s
  let vec ← vec.write f y
  vec.write s x

/-- The loop of `Partition`, in at most `fuel` turns: the vector and `first_high`. -/
def partitionLoop (greater : α → Bool) (end_ : ℤ) :
    ℕ → Vec α → (i first_high : ℤ) → Option (Vec α × ℤ)
  | 0, _, _, _ => none
  | fuel + 1, vec, i, first_high =>
    if i < end_ then do
      let (x, vec) ← vec.read i
      if greater x then partitionLoop greater end_ fuel vec (i + 1) first_high
      else
        let vec ← vec.swap i first_high
        partitionLoop greater end_ fuel vec (i + 1) (first_high + 1)
    else some (vec, first_high)

/-- `Partition`, where `greater x pivot` is the comparison with the pivot. -/
def partition (greater : α → α → Bool) (vec : Vec α) (start end_ : ℤ) : Option (Vec α × ℤ) := do
  let (pivot, vec) ← vec.read end_
  let (vec, first_high) ← vec.partitionLoop (greater · pivot) end_ ((end_ - start).toNat + 1) start
    start
  let vec ← vec.swap first_high end_
  return (vec, first_high)

/-- The vector has these elements, and nothing has been touched outside of the range. -/
structure Holds (lo hi : ℤ) (vec : Vec α) (l : List α) : Prop where
  elements : vec.elements = l
  touched : ∀ i ∈ vec.touched, lo ≤ i ∧ i ≤ hi

variable {lo hi : ℤ} {vec : Vec α} {l : List α} {n m : ℕ} {x y : α}

theorem Holds.touch (h : Holds lo hi vec l) (hlo : lo ≤ n) (hhi : n ≤ hi) :
    ∀ k ∈ vec.touched ++ [(n : ℤ)], lo ≤ k ∧ k ≤ hi := by
  intro k hk
  rcases List.mem_append.1 hk with hk | hk
  · exact h.touched k hk
  · obtain rfl := List.mem_singleton.1 hk
    exact ⟨hlo, hhi⟩

theorem Holds.read (h : Holds lo hi vec l) (hx : l[n]? = some x) (hlo : lo ≤ n) (hhi : n ≤ hi) :
    ∃ vec', vec.read n = some (x, vec') ∧ Holds lo hi vec' l := by
  refine ⟨{ vec with touched := vec.touched ++ [(n : ℤ)] }, ?_, h.elements, h.touch hlo hhi⟩
  unfold Vec.read
  rw [if_pos (Int.natCast_nonneg n), Int.toNat_natCast, h.elements, hx]
  rfl

theorem Holds.write (h : Holds lo hi vec l) (hn : n < l.length) (hlo : lo ≤ n) (hhi : n ≤ hi)
    (x : α) : ∃ vec', vec.write n x = some vec' ∧ Holds lo hi vec' (l.set n x) := by
  refine ⟨_, if_pos ⟨Int.natCast_nonneg n, by rw [h.elements]; omega⟩, ?_, h.touch hlo hhi⟩
  rw [Int.toNat_natCast, h.elements]

theorem Holds.swap (h : Holds lo hi vec l) (hx : l[n]? = some x) (hy : l[m]? = some y)
    (hn : lo ≤ n ∧ n ≤ hi) (hm : lo ≤ m ∧ m ≤ hi) :
    ∃ vec', vec.swap n m = some vec' ∧ Holds lo hi vec' ((l.set n y).set m x) := by
  have hnlt : n < l.length := (List.getElem?_eq_some_iff.1 hx).1
  have hmlt : m < (l.set n y).length := by
    rw [List.length_set]
    exact (List.getElem?_eq_some_iff.1 hy).1
  obtain ⟨vec₁, hread₁, h₁⟩ := h.read hx hn.1 hn.2
  obtain ⟨vec₂, hread₂, h₂⟩ := h₁.read hy hm.1 hm.2
  obtain ⟨vec₃, hwrite₃, h₃⟩ := h₂.write hnlt hn.1 hn.2 y
  obtain ⟨vec₄, hwrite₄, h₄⟩ := h₃.write hmlt hm.1 hm.2 x
  refine ⟨vec₄, ?_, h₄⟩
  unfold Vec.swap
  simp only [hread₁, hread₂, hwrite₃, hwrite₄, Option.bind_eq_bind, Option.bind_some]

section Places

variable (front between back : List α)

theorem getElem?_place (x : α) : (front ++ x :: back)[front.length]? = some x := by
  rw [List.getElem?_append_right (Nat.le_refl _), Nat.sub_self, List.getElem?_cons_zero]

theorem set_place (x y : α) : (front ++ x :: back).set front.length y = front ++ y :: back := by
  rw [List.set_append_right _ _ (Nat.le_refl _), Nat.sub_self, List.set_cons_zero]

/-- An element behind another is one of a list with more in front. -/
theorem append_place (x y : α) : front ++ x :: (between ++ y :: back) =
    (front ++ x :: between) ++ y :: back := by
  rw [List.append_assoc, List.cons_append]

theorem length_place (x : α) :
    (front ++ x :: between).length = front.length + between.length + 1 := by
  rw [List.length_append, List.length_cons, Nat.add_assoc]

theorem set_later (x y z : α) :
    (front ++ x :: (between ++ y :: back)).set (front.length + between.length + 1) z =
      front ++ x :: (between ++ z :: back) := by
  rw [append_place, ← length_place front between x, set_place, append_place]

theorem getElem?_later (x y : α) :
    (front ++ x :: (between ++ y :: back))[front.length + between.length + 1]? = some y := by
  rw [append_place, ← length_place front between x, getElem?_place]

end Places

/-- What the loop has in front of the turn for the first of the rest. -/
structure Cut (lo hi : ℤ) (greater : α → Bool) (vec : Vec α) (front low high rest back : List α) :
    Prop where
  holds : Holds lo hi vec (front ++ (low ++ (high ++ (rest ++ back))))
  low : ∀ z ∈ low, greater z = false
  high : ∀ z ∈ high, greater z = true

variable {greater : α → Bool} {front low high rest back : List α}

/-- A greater element stays where it is. -/
theorem Cut.stays (h : Cut lo hi greater vec front low high (x :: rest) back)
    (hx : greater x = true) : Cut lo hi greater vec front low (high ++ [x]) rest back where
  holds := by simpa using h.holds
  low := h.low
  high := List.forall_mem_append.2 ⟨h.high, List.forall_mem_singleton.2 hx⟩

/-- Another element comes to the end of the low ones, in place of the first high one. -/
theorem Cut.moves (h : Cut lo hi greater vec front low high (x :: rest) back)
    (hx : greater x = false) (hlo : lo ≤ front.length)
    (hhi : (front.length : ℤ) + low.length + high.length ≤ hi) :
    ∃ vec' high', vec.swap (front.length + low.length + high.length : ℕ)
        (front.length + low.length : ℕ) = some vec' ∧
      high'.Perm high ∧ Cut lo hi greater vec' front (low ++ [x]) high' rest back := by
  have hlen : (front ++ low).length = front.length + low.length := List.length_append
  have hlow := List.forall_mem_append.2 ⟨h.low, List.forall_mem_singleton.2 hx⟩
  rcases high with _ | ⟨y, high⟩
  · have hholds : Holds lo hi vec ((front ++ low) ++ x :: (rest ++ back)) := by
      simpa using h.holds
    have hget := getElem?_place (front ++ low) (rest ++ back) x
    obtain ⟨vec', hswap, h'⟩ := hholds.swap hget hget (by omega) (by omega)
    rw [hlen] at hswap
    rw [set_place, set_place] at h'
    exact ⟨vec', [], hswap, .refl _, by simpa using h', hlow, by simp⟩
  · have hholds : Holds lo hi vec ((front ++ low) ++ y :: (high ++ x :: (rest ++ back))) := by
      simpa using h.holds
    obtain ⟨vec', hswap, h'⟩ := hholds.swap (getElem?_later _ high _ y x)
      (getElem?_place (front ++ low) _ y) (by simp at hhi ⊢; omega) (by omega)
    rw [set_later, set_place] at h'
    rw [hlen] at hswap
    refine ⟨vec', high ++ [y], hswap, List.perm_append_singleton y high, by simpa using h', hlow, ?_⟩
    exact fun z hz => h.high z ((List.perm_append_singleton y high).mem_iff.1 hz)

theorem partitionLoop_stays {vec₁ : Vec α} {fuel : ℕ} {end_ i first_high : ℤ} (hlt : i < end_)
    (hread : vec.read i = some (x, vec₁)) (hx : greater x = true) :
    vec.partitionLoop greater end_ (fuel + 1) i first_high =
      vec₁.partitionLoop greater end_ fuel (i + 1) first_high := by
  conv_lhs => unfold partitionLoop
  simp only [if_pos hlt, hread, Option.bind_eq_bind, Option.bind_some, hx, if_true]

theorem partitionLoop_moves {vec₁ vec₂ : Vec α} {fuel : ℕ} {end_ i first_high : ℤ} (hlt : i < end_)
    (hread : vec.read i = some (x, vec₁)) (hx : greater x = false)
    (hswap : vec₁.swap i first_high = some vec₂) :
    vec.partitionLoop greater end_ (fuel + 1) i first_high =
      vec₂.partitionLoop greater end_ fuel (i + 1) (first_high + 1) := by
  conv_lhs => unfold partitionLoop
  simp only [if_pos hlt, hread, Option.bind_eq_bind, Option.bind_some, hx, Bool.false_eq_true,
    if_false, hswap]

theorem partitionLoop_spec (hlo : lo ≤ front.length) {end_ : ℤ} :
    ∀ (fuel : ℕ) {rest low high : List α} {vec : Vec α},
      Cut lo hi greater vec front low high rest back → rest.length < fuel →
      end_ = (front.length + low.length + high.length + rest.length : ℕ) → end_ ≤ hi →
      ∃ vec' low' high', vec.partitionLoop greater end_ fuel
          (front.length + low.length + high.length : ℕ) (front.length + low.length : ℕ) =
          some (vec', ((front.length + low'.length : ℕ) : ℤ)) ∧
        Cut lo hi greater vec' front low' high' [] back ∧
        (low' ++ high').Perm (low ++ high ++ rest)
  | 0, _, _, _, _, _, hfuel, _, _ => absurd hfuel (Nat.not_lt_zero _)
  | fuel + 1, [], low, high, vec, h, _, hend, _ => by
    refine ⟨vec, low, high, ?_, h, by rw [List.append_nil]⟩
    unfold partitionLoop
    rw [if_neg (by simp [hend])]
  | fuel + 1, x :: rest, low, high, vec, h, hfuel, hend, hhi => by
    rw [List.length_cons] at hfuel hend
    have hget : (front ++ (low ++ (high ++ (x :: rest ++ back))))[front.length + low.length +
        high.length]? = some x := by
      have hplace := getElem?_place (front ++ low ++ high) (rest ++ back) x
      simpa only [List.append_assoc, List.cons_append, List.length_append, Nat.add_assoc] using hplace
    obtain ⟨vec₁, hread, hholds⟩ := h.holds.read hget (by omega) (by omega)
    have h₁ : Cut lo hi greater vec₁ front low high (x :: rest) back := ⟨hholds, h.low, h.high⟩
    have hlt : ((front.length + low.length + high.length : ℕ) : ℤ) < end_ := by omega
    cases hx : greater x with
    | true =>
      have hlen : (high ++ [x]).length = high.length + 1 := by simp
      obtain ⟨vec', low', high', hrun, h', hperm⟩ := partitionLoop_spec hlo fuel
        (h₁.stays hx) (by omega) (by omega) hhi
      refine ⟨vec', low', high', ?_, h', by simpa using hperm⟩
      rw [partitionLoop_stays hlt hread hx, ← hrun, hlen, ← Nat.add_assoc, Nat.cast_succ]
    | false =>
      obtain ⟨vec₂, high₂, hswap, hhigh, h₂⟩ := h₁.moves hx hlo (by omega)
      have hlen : (low ++ [x]).length = low.length + 1 := by simp
      have hlen₂ := hhigh.length_eq
      obtain ⟨vec', low', high', hrun, h', hperm⟩ := partitionLoop_spec hlo fuel h₂
        (by omega) (by omega) hhi
      refine ⟨vec', low', high', ?_, h', hperm.trans ?_⟩
      · have hnext : front.length + (low ++ [x]).length + high₂.length =
            front.length + low.length + high.length + 1 := by omega
        have hfirst : front.length + (low ++ [x]).length = front.length + low.length + 1 := by omega
        rw [partitionLoop_moves hlt hread hx hswap, ← hrun, hnext, hfirst, Nat.cast_succ,
          Nat.cast_succ (front.length + low.length)]
      · rw [List.append_assoc, List.append_assoc, List.append_assoc]
        exact ((hhigh.append_right rest).cons x |>.trans List.perm_middle.symm).append_left low

/-- The pivot comes in place of the first high element. -/
theorem Holds.swap_pivot {high : List α} (h : Holds lo hi vec (front ++ (high ++ x :: back)))
    (hlo : lo ≤ front.length) (hhi : (front.length + high.length : ℕ) ≤ hi) :
    ∃ vec' high', vec.swap front.length (front.length + high.length : ℕ) = some vec' ∧
      Holds lo hi vec' (front ++ x :: (high' ++ back)) ∧ high'.Perm high := by
  rcases high with _ | ⟨y, high⟩
  · have hget := getElem?_place front back x
    rw [List.nil_append] at h
    obtain ⟨vec', hswap, h'⟩ := h.swap hget hget (by omega) (by omega)
    rw [set_place, set_place] at h'
    exact ⟨vec', [], hswap, h', .refl _⟩
  · rw [List.length_cons, ← Nat.add_assoc] at hhi ⊢
    obtain ⟨vec', hswap, h'⟩ := h.swap (getElem?_place front _ y)
      (getElem?_later front high back y x) (by omega) (by omega)
    rw [List.cons_append, set_place, set_later] at h'
    exact ⟨vec', high ++ [y], hswap, by simpa using h', List.perm_append_singleton y high⟩

/-- Behind the partition the pivot is between the elements that are not greater and those that
are. -/
theorem partition_spec (greater : α → α → Bool) {range : List α} {start end_ : ℤ}
    (h : Holds lo hi vec (front ++ (range ++ x :: back))) (hstart : start = front.length)
    (hend : end_ = (front.length + range.length : ℕ)) (hlo : lo ≤ start) (hhi : end_ ≤ hi) :
    ∃ vec' low high, vec.partition greater start end_ =
        some (vec', ((front.length + low.length : ℕ) : ℤ)) ∧
      Holds lo hi vec' (front ++ (low ++ x :: (high ++ back))) ∧ (low ++ high).Perm range ∧
      (∀ z ∈ low, greater z x = false) ∧ ∀ z ∈ high, greater z x = true := by
  subst hstart hend
  have hget : (front ++ (range ++ x :: back))[front.length + range.length]? = some x := by
    have hplace := getElem?_place (front ++ range) back x
    rwa [List.length_append, List.append_assoc] at hplace
  obtain ⟨vec₁, hread, h₁⟩ := h.read hget (by omega) (by omega)
  have hcut : Cut lo hi (greater · x) vec₁ front [] [] range (x :: back) :=
    ⟨h₁, by simp, by simp⟩
  obtain ⟨vec₂, low, high, hloop, h₂, hperm⟩ := partitionLoop_spec hlo (range.length + 1)
    hcut (Nat.lt_succ_self _) rfl hhi
  simp only [List.length_nil, Nat.add_zero] at hloop
  have hlen := hperm.length_eq
  rw [List.length_append, List.nil_append, List.nil_append] at hlen
  have hholds : Holds lo hi vec₂ ((front ++ low) ++ (high ++ x :: back)) := by
    simpa using h₂.holds
  obtain ⟨vec₃, high₃, hswap, h₃, hhigh⟩ := hholds.swap_pivot (by simp; omega) (by simp; omega)
  have hplaces : (front ++ low).length = front.length + low.length := List.length_append
  have hlast : front.length + low.length + high.length = front.length + range.length := by omega
  rw [hplaces, hlast] at hswap
  refine ⟨vec₃, low, high₃, ?_, by simpa using h₃, (hhigh.append_left low).trans hperm, h₂.low,
    fun z hz => h₂.high z (hhigh.mem_iff.1 hz)⟩
  have hturns : (((front.length + range.length : ℕ) : ℤ) - front.length).toNat = range.length := by
    omega
  unfold partition
  simp only [hread, Option.bind_eq_bind, Option.bind_some, hturns]
  simp only [hloop, hswap, Option.bind_some]
  rfl

end Vec

end CPPCodes.DivideConquer
