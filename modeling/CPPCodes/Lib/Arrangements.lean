import Mathlib.Data.List.FinRange
import Mathlib.Data.List.Permutation
import Mathlib.Data.Nat.Factorial.Basic

/-!
# Arrangements of a list, by exchanging its head

Each element in turn changes places with the head, and the others are arranged behind it. Where the
elements are distinct no list comes twice and all arrangements come, so these are Mathlib's
permutations in another order (`arrangements_perm`). For any list that is so for its positions.
-/

namespace Arrangements

variable {α β : Type*}

/-- The list with its head and the element `k` exchanged. -/
def toFront : List α → ℕ → List α
  | [], _ => []
  | a :: t, 0 => a :: t
  | a :: t, k + 1 =>
    match t[k]? with
    | none => a :: t
    | some b => b :: t.set k a

/-- The lists with the head of this one, and what `arrange` makes of its tail. -/
def behindHead (arrange : List α → List (List α)) : List α → List (List α)
  | [] => []
  | x :: rest => (arrange rest).map (x :: ·)

/-- The arrangements of a list of `n` elements. -/
def arrangements : ℕ → List α → List (List α)
  | 0, l => [l]
  | n + 1, l => (List.range (n + 1)).flatMap fun k => behindHead (arrangements n) (toFront l k)

theorem cons_set_perm (a : α) : ∀ {t : List α} {k : ℕ} {b : α}, t[k]? = some b →
    (b :: t.set k a).Perm (a :: t)
  | c :: t, 0, b, h => by
    obtain rfl : c = b := by simpa using h
    exact .swap _ _ t
  | c :: t, k + 1, b, h => by
    have hrest := cons_set_perm a (t := t) (k := k) (b := b) (by simpa using h)
    exact ((List.Perm.swap _ _ _).trans (hrest.cons c)).trans (.swap _ _ t)

theorem toFront_perm : ∀ (l : List α) (k : ℕ), (toFront l k).Perm l
  | [], _ => .refl _
  | _ :: _, 0 => .refl _
  | a :: t, k + 1 => by
    cases hk : t[k]? with
    | none => simp only [toFront, hk, List.Perm.refl]
    | some b =>
      simp only [toFront, hk]
      exact cons_set_perm a hk

theorem toFront_toFront : ∀ (l : List α) (k : ℕ), toFront (toFront l k) k = l
  | [], _ => rfl
  | _ :: _, 0 => rfl
  | a :: t, k + 1 => by
    cases hk : t[k]? with
    | none => simp only [toFront, hk]
    | some b =>
      obtain ⟨hlt, rfl⟩ := List.getElem?_eq_some_iff.1 hk
      simp only [toFront, hk, List.getElem?_set_self hlt, List.set_set, List.set_getElem_self]

theorem exists_toFront {l : List α} {k : ℕ} {x : α} (h : l[k]? = some x) :
    ∃ rest, toFront l k = x :: rest ∧ (x :: rest).Perm l := by
  have hperm := toFront_perm l k
  suffices hhead : (toFront l k).head? = some x by
    obtain ⟨rest, hrest⟩ := List.head?_eq_some_iff.1 hhead
    exact ⟨rest, hrest, hrest ▸ hperm⟩
  match l, k, h with
  | a :: t, 0, h => simpa [toFront] using h
  | a :: t, k + 1, h =>
    rw [List.getElem?_cons_succ] at h
    simp only [toFront, h, List.head?_cons]

theorem toFront_map (f : α → β) : ∀ (l : List α) (k : ℕ),
    toFront (l.map f) k = (toFront l k).map f
  | [], _ => rfl
  | _ :: _, 0 => rfl
  | a :: t, k + 1 => by
    cases hk : t[k]? with
    | none => simp [toFront, hk]
    | some b => simp [toFront, hk, List.map_set]

/-- The arrangements that begin with the element `k`. -/
theorem mem_arrangements_succ {n : ℕ} {l l' : List α} : l' ∈ arrangements (n + 1) l ↔
    ∃ k ≤ n, ∃ x rest, toFront l k = x :: rest ∧ ∃ r ∈ arrangements n rest, x :: r = l' := by
  simp only [arrangements, List.mem_flatMap, List.mem_range, Nat.lt_succ_iff]
  refine exists_congr fun k => and_congr_right fun _ => ?_
  cases toFront l k <;> simp [behindHead]

theorem mem_arrangements : ∀ {n : ℕ} {l l' : List α}, l.length = n →
    (l' ∈ arrangements n l ↔ l'.Perm l)
  | 0, l, l', h => by
    obtain rfl := List.length_eq_zero_iff.1 h
    rw [List.perm_nil, arrangements, List.mem_singleton]
  | n + 1, l, l', h => by
    rw [mem_arrangements_succ]
    constructor
    · rintro ⟨k, -, x, rest, hfront, r, hr, rfl⟩
      have hperm : (x :: rest).Perm l := hfront ▸ toFront_perm l k
      have hlen : rest.length = n := by simpa [h] using hperm.length_eq
      exact (((mem_arrangements hlen).1 hr).cons x).trans hperm
    · intro hperm
      match l', hperm with
      | [], hperm => simp [← hperm.length_eq] at h
      | x :: r, hperm =>
        obtain ⟨k, hk⟩ := List.mem_iff_getElem?.1 (hperm.mem_iff.1 List.mem_cons_self)
        obtain ⟨rest, hfront, hrest⟩ := exists_toFront hk
        have hlen : rest.length = n := by simpa [h] using hrest.length_eq
        have hlt : k < l.length := (List.getElem?_eq_some_iff.1 hk).1
        exact ⟨k, by omega, x, rest, hfront, r,
          (mem_arrangements hlen).2 (hperm.trans hrest.symm).cons_inv, rfl⟩

theorem nodup_arrangements : ∀ {n : ℕ} {l : List α}, l.length = n → l.Nodup →
    (arrangements n l).Nodup
  | 0, l, _, _ => List.nodup_singleton l
  | n + 1, l, h, hnodup => by
    rw [arrangements, List.nodup_flatMap]
    constructor
    · intro k hk
      rw [List.mem_range, ← h] at hk
      obtain ⟨rest, hfront, hrest⟩ := exists_toFront (List.getElem?_eq_getElem hk)
      have hlen : rest.length = n := by simpa [h] using hrest.length_eq
      rw [hfront]
      exact (nodup_arrangements hlen (hrest.nodup_iff.2 hnodup).of_cons).map List.cons_injective
    · -- the heads of two parts are different elements
      refine List.nodup_range.imp_of_mem fun {k k'} hk hk' hne l' hl hl' => ?_
      rw [List.mem_range, ← h] at hk hk'
      obtain ⟨rest, hfront, -⟩ := exists_toFront (List.getElem?_eq_getElem hk)
      obtain ⟨rest', hfront', -⟩ := exists_toFront (List.getElem?_eq_getElem hk')
      simp only [hfront, behindHead, List.mem_map] at hl
      simp only [hfront', behindHead, List.mem_map] at hl'
      obtain ⟨r, -, rfl⟩ := hl
      obtain ⟨r', -, heq⟩ := hl'
      exact hne ((hnodup.getElem_inj_iff).1 (List.cons_eq_cons.1 heq).1.symm)

theorem arrangements_map (f : α → β) : ∀ (n : ℕ) (l : List α),
    arrangements n (l.map f) = (arrangements n l).map (List.map f)
  | 0, _ => rfl
  | n + 1, l => by
    simp only [arrangements, List.map_flatMap, toFront_map]
    congr 1
    funext k
    cases toFront l k with
    | nil => rfl
    | cons x rest => simp [behindHead, arrangements_map f n rest]

/-- They are Mathlib's permutations, in another order. -/
theorem arrangements_perm (l : List α) : (arrangements l.length l).Perm l.permutations := by
  have hlen : (List.finRange l.length).length = l.length := List.length_finRange
  have hpositions : (arrangements l.length (List.finRange l.length)).Perm
      (List.finRange l.length).permutations := by
    refine (List.perm_ext_iff_of_nodup (nodup_arrangements hlen (List.nodup_finRange _))
      (List.nodup_permutations _ (List.nodup_finRange _))).2 fun l' => ?_
    rw [mem_arrangements hlen, List.mem_permutations]
  have hmap := hpositions.map (List.map l.get)
  rwa [← arrangements_map, List.map_permutations, List.map_get_finRange] at hmap

end Arrangements
