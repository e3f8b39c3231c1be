import CPPCodes.Lib.Iteration
import Mathlib.Algebra.Ring.Int.Defs
import Mathlib.Data.List.Basic
import Mathlib.Order.Basic
import Mathlib.Order.Nat

/-!
# One range out of a map of vectors

`MetaBatchesMapInputIterator`, whose iterators go from vector to vector. An iterator that is not at
the end is expected to be at an element, but neither the constructor nor `++` looks whether the
vector that it gets to is empty. Besides, `++` has no `return` behind its body, and `*` returns an
`int` (`visitsOnce_iff`).
-/

namespace CPPCodes.Batches

open Iteration

/-- A map from `int` to vectors, in the order of the keys. -/
structure MetaMap where
  entries : List (Int32 × List Int64)
  sorted : entries.Pairwise fun e e' => e.1 < e'.1

/-- The positions of `mapIter_` and `vecIter_` from the front. At the end they mean nothing. -/
structure Iterator where
  mapIter : ℕ := 0
  vecIter : ℕ := 0
  end_ : Bool

namespace MetaMap

variable (map : MetaMap)

/-- The constructor of an iterator. -/
def iterator (end_ : Bool) : Iterator :=
  if end_ = false then
    if map.entries.isEmpty then { end_ := true } else { end_ := false }
  else { end_ := true }

def begin_ : Iterator := map.iterator false

def end_ : Iterator := map.iterator true

/-- The operator `*`. There is no element at the end of a vector. -/
def deref (it : Iterator) : Option Int32 :=
  match map.entries[it.mapIter]? with
  | none => none
  | some (_, vec) => vec[it.vecIter]?.map Int64.toInt32

/-- The body of `++` for an iterator that is not at the end. -/
def advance (it : Iterator) : Option Iterator :=
  match map.entries[it.mapIter]? with
  | none => none
  | some (_, vec) =>
    if vec.length ≤ it.vecIter then none
    else if it.vecIter + 1 = vec.length then
      if it.mapIter + 1 ≠ map.entries.length then
        some { mapIter := it.mapIter + 1, vecIter := 0, end_ := it.end_ }
      else some { mapIter := it.mapIter + 1, vecIter := it.vecIter + 1, end_ := true }
    else some { it with vecIter := it.vecIter + 1 }

/-- The operator `++`. Behind its body there is no `return`: `flowsOff` is whether that gets back
to the caller nevertheless. It is not defined in C++. -/
def increment (flowsOff : Bool) (it : Iterator) : Option Iterator :=
  if it.end_ = true then some it
  else (map.advance it).bind fun it => if flowsOff then some it else none

/-- The loop of `main`. Two iterators are equal if both are at the end, or none of them is. -/
def walk (flowsOff : Bool) : Protocol Iterator Int32 where
  done := fun it => it.end_ == map.end_.end_
  get := map.deref
  next := map.increment flowsOff

/-- The vectors one after the other. -/
def elements : List Int64 := (map.entries.map Prod.snd).flatten

/-- The loop ends, does nothing undefined, and reads what is in the vectors. -/
def VisitsOnce (flowsOff : Bool) : Prop :=
  ∃ fuel out, (map.walk flowsOff).run fuel map.begin_ = some out ∧
    out.map Int32.toInt = map.elements.map Int64.toInt

/-- What is left from the place `j` in the vector `k` on. -/
def rest (k j : ℕ) : List Int64 := ((map.entries.drop k).map Prod.snd).flatten.drop j

variable {map} {flowsOff : Bool} {k j : ℕ} {key : Int32} {vec : List Int64}

theorem rest_eq (hget : map.entries[k]? = some (key, vec)) (hj : j ≤ vec.length) :
    map.rest k j = vec.drop j ++ map.rest (k + 1) 0 := by
  obtain ⟨hk, heq⟩ := List.getElem?_eq_some_iff.1 hget
  unfold rest
  rw [List.drop_eq_getElem_cons hk, heq, List.map_cons, List.flatten_cons,
    List.drop_append_of_le_length hj, List.drop_zero]

theorem rest_next (hget : map.entries[k]? = some (key, vec)) {v : Int64}
    (hv : vec[j]? = some v) : map.rest k j = v :: map.rest k (j + 1) := by
  obtain ⟨hj, rfl⟩ := List.getElem?_eq_some_iff.1 hv
  rw [rest_eq hget hj.le, rest_eq hget hj, List.drop_eq_getElem_cons hj, List.cons_append]

theorem rest_length (hget : map.entries[k]? = some (key, vec)) :
    map.rest k vec.length = map.rest (k + 1) 0 := by
  rw [rest_eq hget (Nat.le_refl _), List.drop_length, List.nil_append]

theorem rest_end (hk : map.entries.length ≤ k) : map.rest k 0 = [] := by
  unfold rest
  rw [List.drop_eq_nil_of_le hk]
  rfl

/-- Where `++` gets to, and that it was at an element. -/
theorem advance_some {it it' : Iterator} (hadvance : map.advance it = some it')
    (hget : map.entries[it.mapIter]? = some (key, vec)) :
    it.vecIter < vec.length ∧
      ((it.vecIter + 1 < vec.length ∧ it' = { it with vecIter := it.vecIter + 1 }) ∨
        (it.vecIter + 1 = vec.length ∧ it.mapIter + 1 ≠ map.entries.length ∧
          it' = ⟨it.mapIter + 1, 0, it.end_⟩) ∨
        (it.vecIter + 1 = vec.length ∧ it.mapIter + 1 = map.entries.length ∧
          it' = ⟨it.mapIter + 1, it.vecIter + 1, true⟩)) := by
  unfold advance at hadvance
  rw [hget] at hadvance
  simp only [] at hadvance
  split_ifs at hadvance with hend hlast hmap <;> obtain rfl := Option.some.inj hadvance
  · exact ⟨by omega, .inr (.inl ⟨hlast, hmap, rfl⟩)⟩
  · exact ⟨by omega, .inr (.inr ⟨hlast, not_not.1 hmap, rfl⟩)⟩
  · exact ⟨by omega, .inl ⟨by omega, rfl⟩⟩

/-- A loop that ends has seen no empty vector, and has read all that was left. -/
theorem yields_rest {it : Iterator} {out : List Int32} (h : (map.walk flowsOff).Yields it out) :
    it.end_ = false → flowsOff = true ∧ (∀ e ∈ map.entries.drop it.mapIter, e.2 ≠ []) ∧
      out = (map.rest it.mapIter it.vecIter).map Int64.toInt32 := by
  induction h with
  | done hdone =>
    intro hend
    exact absurd (hdone.symm.trans (congrArg (· == true) hend)) (by simp)
  | @step it it' v out _ hget hnext hrest ih =>
    intro hend
    have hderef : map.deref it = some v := hget
    unfold deref at hderef
    rcases hentry : map.entries[it.mapIter]? with _ | ⟨key, vec⟩
    · simp [hentry] at hderef
    rw [hentry] at hderef
    obtain ⟨x, hx, rfl⟩ := Option.map_eq_some_iff.1 hderef
    have hincr : map.increment flowsOff it = some it' := hnext
    unfold increment at hincr
    rw [if_neg (by simp [hend])] at hincr
    obtain ⟨it₁, hadvance, hflows⟩ := Option.bind_eq_some_iff.1 hincr
    split_ifs at hflows with hflowsOff
    obtain rfl := Option.some.inj hflows
    obtain ⟨hk, heq⟩ := List.getElem?_eq_some_iff.1 hentry
    have hdrop : map.entries.drop it.mapIter = (key, vec) :: map.entries.drop (it.mapIter + 1) := by
      rw [List.drop_eq_getElem_cons hk, heq]
    have hvec : vec ≠ [] := List.ne_nil_of_length_pos
      (Nat.zero_lt_of_lt (List.getElem?_eq_some_iff.1 hx).1)
    rcases advance_some hadvance hentry with ⟨hlt, ⟨-, rfl⟩ | ⟨hlast, -, rfl⟩ | ⟨hlast, hmap, rfl⟩⟩
    · obtain ⟨-, hne, rfl⟩ := ih hend
      exact ⟨hflowsOff, hne, by rw [rest_next hentry hx, List.map_cons]⟩
    · obtain ⟨-, hne, rfl⟩ := ih hend
      refine ⟨hflowsOff, ?_, by rw [rest_next hentry hx, hlast, rest_length hentry, List.map_cons]⟩
      rw [hdrop]
      exact List.forall_mem_cons.2 ⟨hvec, hne⟩
    · obtain rfl := hrest.nil_of_done rfl
      refine ⟨hflowsOff, ?_, ?_⟩
      · rw [hdrop, List.drop_eq_nil_of_le hmap.ge]
        simpa using hvec
      · rw [rest_next hentry hx, hlast, rest_length hentry, rest_end hmap.ge]
        rfl

/-- Without empty vectors the loop gets through. -/
theorem yields_of_rest (hne : ∀ e ∈ map.entries, e.2 ≠ []) : ∀ (left : List Int64) {k j : ℕ}
    {key : Int32} {vec : List Int64}, map.entries[k]? = some (key, vec) → j < vec.length →
      map.rest k j = left → (map.walk true).Yields ⟨k, j, false⟩ (left.map Int64.toInt32)
  | [], k, j, key, vec, hentry, hj, hrest => by
    rw [rest_next hentry (List.getElem?_eq_getElem hj)] at hrest
    cases hrest
  | x :: left, k, j, key, vec, hentry, hj, hrest => by
    have hx : vec[j]? = some vec[j] := List.getElem?_eq_getElem hj
    rw [rest_next hentry hx] at hrest
    obtain ⟨rfl, hrest'⟩ := List.cons.inj hrest
    have hderef : map.deref ⟨k, j, false⟩ = some vec[j].toInt32 := by
      simp [deref, hentry, hj]
    obtain ⟨hk, -⟩ := List.getElem?_eq_some_iff.1 hentry
    by_cases hlast : j + 1 < vec.length
    · refine .step rfl hderef ?_ (yields_of_rest hne left hentry hlast hrest')
      simp [walk, increment, advance, hentry, Nat.not_le.2 hj, hlast.ne]
    · have hend : j + 1 = vec.length := by omega
      rw [hend, rest_length hentry] at hrest'
      by_cases hmap : k + 1 < map.entries.length
      · have hnext : map.entries[k + 1]? = some (map.entries[k + 1].1, map.entries[k + 1].2) :=
          List.getElem?_eq_getElem hmap
        refine .step rfl hderef ?_ (yields_of_rest hne left hnext
          (List.length_pos_of_ne_nil (hne _ (List.getElem_mem hmap))) hrest')
        simp [walk, increment, advance, hentry, Nat.not_le.2 hj, hend, hmap.ne]
      · rw [rest_end (by omega)] at hrest'
        obtain rfl := hrest'
        have hlen : k + 1 = map.entries.length := by omega
        have hnext : (map.walk true).next ⟨k, j, false⟩ = some ⟨k + 1, j + 1, true⟩ := by
          simp [walk, increment, advance, hentry, Nat.not_le.2 hj, hend, hlen]
        exact .step rfl hderef hnext (.done rfl)

/-- The `int` that `*` returns is the element if it fits. -/
theorem toInt32_eq_iff (v : Int64) :
    v.toInt32.toInt = v.toInt ↔ -2 ^ 31 ≤ v.toInt ∧ v.toInt < 2 ^ 31 := by
  rw [Int64.toInt_toInt32]
  constructor
  · intro heq
    have hle := Int.le_bmod (x := v.toInt) (m := 2 ^ 32) (by decide)
    have hlt := Int.bmod_lt (x := v.toInt) (m := 2 ^ 32) (by decide)
    omega
  · rintro ⟨hle, hlt⟩
    exact Int.bmod_eq_of_le (by omega) (by omega)

theorem begin_of_empty (h : map.entries = []) : map.begin_ = { end_ := true } := by
  simp [begin_, iterator, h]

theorem begin_of_ne (h : map.entries ≠ []) : map.begin_ = { end_ := false } := by
  simp [begin_, iterator, h]

theorem rest_zero : map.rest 0 0 = map.elements := rfl

theorem VisitsOnce.through (h : map.VisitsOnce flowsOff) (hempty : map.entries ≠ []) :
    flowsOff = true ∧ (∀ e ∈ map.entries, e.2 ≠ []) ∧
      ∀ v ∈ map.elements, v.toInt32.toInt = v.toInt := by
  obtain ⟨fuel, out, hrun, hout⟩ := h
  rw [begin_of_ne hempty] at hrun
  obtain ⟨hflows, hne, rfl⟩ := yields_rest (Protocol.yields_iff.2 ⟨fuel, hrun⟩) rfl
  rw [rest_zero, List.map_map] at hout
  exact ⟨hflows, hne, List.map_inj_left.1 hout⟩

/-- For a map that is not empty the loop is right only if `++` gets back to its caller, no vector is
empty and all elements fit into an `int`. -/
theorem visitsOnce_iff (flowsOff : Bool) (map : MetaMap) :
    map.VisitsOnce flowsOff ↔ map.entries = [] ∨ (flowsOff = true ∧
      (∀ e ∈ map.entries, e.2 ≠ []) ∧
        ∀ v ∈ map.elements, -2 ^ 31 ≤ v.toInt ∧ v.toInt < 2 ^ 31) := by
  simp only [← toInt32_eq_iff]
  by_cases hempty : map.entries = []
  · refine iff_of_true ⟨1, [], ?_, ?_⟩ (.inl hempty)
    · rw [begin_of_empty hempty]
      rfl
    · simp [elements, hempty]
  · rw [or_iff_right hempty]
    refine ⟨fun h => h.through hempty, ?_⟩
    rintro ⟨rfl, hne, hfits⟩
    obtain ⟨⟨key, vec⟩, entries, hentries⟩ := List.exists_cons_of_ne_nil hempty
    have hget : map.entries[0]? = some (key, vec) := by simp [hentries]
    have hvec : vec ≠ [] := hne (key, vec) (by simp [hentries])
    obtain ⟨fuel, hrun⟩ := Protocol.yields_iff.1
      (yields_of_rest hne _ hget (List.length_pos_of_ne_nil hvec) rest_zero)
    refine ⟨fuel, _, by rw [begin_of_ne hempty]; exact hrun, ?_⟩
    rw [List.map_map]
    exact List.map_congr_left hfits

/-- A map with an empty vector: the loop reads the end of it. -/
theorem not_visitsOnce :
    ¬ (MetaMap.mk [(0, [])] (List.pairwise_singleton _ _)).VisitsOnce true ∧
      ¬ (MetaMap.mk [(0, [])] (List.pairwise_singleton _ _)).VisitsOnce false :=
  ⟨fun h => (h.through (by simp)).2.1 (0, []) (by simp) rfl,
    fun h => (h.through (by simp)).2.1 (0, []) (by simp) rfl⟩

end MetaMap

end CPPCodes.Batches
