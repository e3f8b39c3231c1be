import CPPCodes.Lib.Grid
import CPPCodes.Lib.Loads
import CPPCodes.Lib.Signed
import CPPCodes.Lib.Sorting
import Mathlib.Data.List.Perm.Subperm

/-!
# The knapsack

Knapsack-01.cpp. The table has a row for each object, in which the entry for a capacity is built
from the row in front. Its first column stays 0, also where objects that weigh nothing fit, so the
entries are the greatest values where no such object is worth something (`buildTable_spec`).
-/

namespace CPPCodes.Knapsack

open Loads
open Signed (checked)

structure Object where
  weight : Int32
  value : Int32

structure KnapsackTable where
  table : Grid ℤ
  objects : List Object

namespace KnapsackTable

/-- The constructor, with `InitializeTable`. -/
def new (objects : List Object) (weight : Int32) : Option KnapsackTable := do
  let size ← checked 32 (weight.toInt + 1)
  return { table := objects.map fun _ => List.replicate size.toNat 0, objects }

/-- `Get`, over `ssize_t`. -/
def get (t : KnapsackTable) (i j : ℤ) : Option ℤ :=
  if j < 0 then some (-2 ^ 31)
  else if i < 0 then some 0
  else t.table.get i.toNat j.toNat

def set (t : KnapsackTable) (i j : ℕ) (value : ℤ) : Option KnapsackTable := do
  let table ← t.table.set i j value
  return { t with table }

def getObject (t : KnapsackTable) (index : ℤ) : Option Object :=
  if 0 ≤ index then t.objects[index.toNat]? else none

end KnapsackTable

/-- The value that the inner loop sets. -/
def bestValue (object : Object) (t : KnapsackTable) (i j : ℕ) : Option ℤ := do
  let v1 ← t.get (i - 1) j
  let left ← checked 32 (j - object.weight.toInt)
  let load ← t.get (i - 1) left
  let v2 ← checked 32 (load + object.value.toInt)
  return max v1 v2

/-- The body of the inner loop. -/
def fillValue (object : Object) (i : ℕ) (t : KnapsackTable) (j : ℕ) : Option KnapsackTable := do
  let value ← bestValue object t i j
  t.set i j value

/-- The inner loop, over `j` from 1 on. -/
def fillRow (objects : List Object) (weight : Int32) (t : KnapsackTable) (i : ℕ) :
    Option KnapsackTable := do
  let object ← objects[i]?
  (List.range' 1 weight.toInt.toNat).foldlM (fillValue object i) t

def buildTable (objects : List Object) (weight : Int32) : Option KnapsackTable := do
  let t ← KnapsackTable.new objects weight
  (List.range objects.length).foldlM (fillRow objects weight) t

section GetObjects

variable (t : KnapsackTable)

/-- The loop of `GetObjects`, in at most `fuel` passes. -/
def objectsLoop : ℕ → (objIndex weight value : ℤ) → Option (List Object)
  | 0, _, _, _ => none
  | fuel + 1, objIndex, weight, value =>
    if weight = 0 ∨ value = 0 then some [] else do
      let prev ← t.get (objIndex - 1) weight
      if value = prev then objectsLoop fuel (objIndex - 1) weight value
      else
        let obj ← t.getObject objIndex
        if obj.weight.toInt ≤ weight then
          let weight ← checked 32 (weight - obj.weight.toInt)
          let value ← checked 32 (value - obj.value.toInt)
          let result ← objectsLoop fuel objIndex weight value
          return obj :: result
        else none

/-- The objects that `GetObjects` sorts. -/
def pickObjects (fuel : ℕ) (weight : Int32) : Option (List Object) := do
  let objIndex : ℤ := t.objects.length - 1
  let value ← t.get objIndex weight.toInt
  if value ≤ 0 then return [] else objectsLoop t fuel objIndex weight.toInt value

/-- What `GetObjects` may return: the sort by weight leaves objects of one weight in any order. -/
def GetObjects (fuel : ℕ) (weight : Int32) (result : List Object) : Prop :=
  ∃ picked, pickObjects t fuel weight = some picked ∧
    Sorting.Sorts (fun b1 b2 : Object => b1.weight < b2.weight) picked result

end GetObjects

/-- The value of the objects together. -/
def totalValue (objects : List Object) : ℤ := (objects.map fun object => object.value.toInt).sum

/-- The values of the selections that are no heavier than the limit. -/
abbrev values (objects : List Object) (limit : ℤ) : Set ℤ :=
  loads (fun object => object.weight.toInt) (fun object => object.value.toInt) objects limit

/-- No weight and no value is negative, and the total value is an `int32_t`. -/
structure Valid (objects : List Object) : Prop where
  weight : ∀ object ∈ objects, 0 ≤ object.weight.toInt
  value : ∀ object ∈ objects, 0 ≤ object.value.toInt
  total : totalValue objects < 2 ^ 31

/-- No object that weighs nothing is worth something. -/
def NoneFree (objects : List Object) : Prop :=
  ∀ object ∈ objects, object.weight.toInt = 0 → object.value.toInt = 0

variable {objects : List Object} {weight : Int32}

theorem totalValue_take_succ {i : ℕ} (hi : i < objects.length) :
    totalValue (objects.take (i + 1)) = totalValue (objects.take i) + objects[i].value.toInt := by
  unfold totalValue
  rw [List.take_succ_eq_append_getElem hi, List.map_append, List.sum_append]
  simp

theorem Valid.total_take_le (h : Valid objects) (n : ℕ) :
    totalValue (objects.take n) ≤ totalValue objects := by
  unfold totalValue
  rw [← List.take_append_drop n objects, List.map_append, List.sum_append, List.take_append_drop]
  have hdrop := sum_nonneg h.value (List.drop_sublist n objects)
  omega

theorem Valid.weight_take (h : Valid objects) (n : ℕ) :
    ∀ object ∈ objects.take n, 0 ≤ object.weight.toInt :=
  fun object hmem => h.weight object (List.mem_of_mem_take hmem)

/-! ## The table -/

/-- A value for the first `n` objects: in any case it is no more than their total value, and 0 for
no capacity. It is the greatest value if no object is free. -/
structure Value (objects : List Object) (n : ℕ) (j v : ℤ) : Prop where
  nonneg : 0 ≤ v
  le_total : v ≤ totalValue (objects.take n)
  zero : j = 0 → v = 0
  greatest : NoneFree objects → IsGreatest (values (objects.take n) j) v

/-- What an entry should be. -/
def RowValue (objects : List Object) (i j : ℕ) (v : ℤ) : Prop := Value objects (i + 1) j v

/-- The loops are in front of place `(i, j)`. -/
structure Building (objects : List Object) (weight : Int32) (i j : ℕ) (t : KnapsackTable) :
    Prop where
  objects_eq : t.objects = objects
  filled : Grid.Filled (RowValue objects) objects.length (weight.toInt.toNat + 1) i j t.table

theorem value_nil {j : ℤ} (hj : 0 ≤ j) : Value objects 0 j 0 :=
  ⟨le_refl 0, le_refl 0, fun _ => rfl, fun _ => isGreatest_nil hj⟩

/-- What the rows in front have for the first `n` objects. -/
theorem Building.get {i j n : ℕ} {t : KnapsackTable} (h : Building objects weight i j t)
    (hi : n ≤ i) (hn : n ≤ objects.length) {k : ℤ} (hk : 0 ≤ k) (hkw : k ≤ weight.toInt) :
    ∃ v, t.get (n - 1) k = some v ∧ Value objects n k v := by
  unfold KnapsackTable.get
  rw [if_neg (by omega)]
  rcases n with _ | n
  · exact ⟨0, if_pos (by omega), value_nil hk⟩
  · obtain ⟨v, hget, hv⟩ := h.filled.right n (by omega) k.toNat (by omega) (.inl hi)
    have hcast : ((n + 1 : ℕ) : ℤ) - 1 = n := by omega
    rw [if_neg (by omega), hcast, Int.toNat_natCast]
    unfold RowValue at hv
    rw [Int.toNat_of_nonneg hk] at hv
    exact ⟨v, hget, hv⟩

theorem bestValue_spec (hvalid : Valid objects) {i j : ℕ} {t : KnapsackTable}
    (h : Building objects weight i j t) (hi : i < objects.length) (hj : 1 ≤ j)
    (hjw : (j : ℤ) ≤ weight.toInt) :
    ∃ v, bestValue objects[i] t i j = some v ∧ RowValue objects i j v := by
  obtain ⟨v1, hget1, hv1⟩ := h.get (Nat.le_refl i) hi.le (k := j) (by omega) hjw
  have hw := hvalid.weight objects[i] (List.getElem_mem hi)
  have hval := hvalid.value objects[i] (List.getElem_mem hi)
  have hsum := totalValue_take_succ hi
  have htotal := hvalid.total_take_le (i + 1)
  have hmax := hvalid.total
  have hnonneg := sum_nonneg hvalid.value (List.take_sublist i objects)
  have hwlt := objects[i].weight.toInt_lt
  have hvlt := objects[i].value.toInt_lt
  have hjlt := weight.toInt_lt
  have hleft : checked 32 (j - objects[i].weight.toInt) = some (j - objects[i].weight.toInt) :=
    Signed.checked_eq ⟨by omega, by omega⟩
  unfold bestValue
  rw [hget1]
  simp only [Option.bind_eq_bind, Option.bind_some, hleft]
  by_cases hneg : (j : ℤ) - objects[i].weight.toInt < 0
  · have hget2 : t.get (i - 1) (j - objects[i].weight.toInt) = some (-2 ^ 31) := if_pos hneg
    have hv2 : checked 32 (-2 ^ 31 + objects[i].value.toInt) = some _ :=
      Signed.checked_eq ⟨by omega, by omega⟩
    rw [hget2, Option.bind_some, hv2]
    have hle1 := hv1.nonneg
    have hle2 := hv1.le_total
    refine ⟨_, rfl, ?_⟩
    rw [max_eq_left (by omega)]
    refine ⟨hle1, by omega, fun hzero => by omega, fun hfree => ?_⟩
    rw [List.take_succ_eq_append_getElem hi]
    exact isGreatest_concat_of_lt (hvalid.weight_take i) (by omega) (hv1.greatest hfree)
  · obtain ⟨load, hget2, hload⟩ := h.get (Nat.le_refl i) hi.le
      (k := j - objects[i].weight.toInt) (by omega) (by omega)
    have hle1 := hv1.nonneg
    have hle2 := hv1.le_total
    have hle3 := hload.nonneg
    have hle4 := hload.le_total
    have hv2 : checked 32 (load + objects[i].value.toInt) = some _ :=
      Signed.checked_eq ⟨by omega, by omega⟩
    rw [hget2, Option.bind_some, hv2]
    refine ⟨_, rfl, by omega, by omega, fun hzero => by omega, fun hfree => ?_⟩
    rw [List.take_succ_eq_append_getElem hi]
    exact isGreatest_concat (hv1.greatest hfree) (hload.greatest hfree)

theorem Building.fillRow (hvalid : Valid objects) {i : ℕ} (hi : i < objects.length)
    {t : KnapsackTable} (h : Building objects weight i 1 t) :
    ∃ t', fillRow objects weight t i = some t' ∧ Building objects weight (i + 1) 1 t' := by
  have hkeeps : ∀ j, 1 ≤ j → j < 1 + weight.toInt.toNat →
      Loop.Keeps (Building objects weight i) (fillValue objects[i] i) j := by
    intro j hj hjw t ht
    obtain ⟨v, hv, hrow⟩ := bestValue_spec hvalid ht hi hj (by omega)
    obtain ⟨table, hset, hfilled⟩ := ht.filled.set hi (by omega) hrow
    refine ⟨{ t with table }, ?_, ht.objects_eq, hfilled⟩
    unfold fillValue KnapsackTable.set
    rw [hv, Option.bind_eq_bind, Option.bind_some, hset]
    rfl
  obtain ⟨t', hrun, h'⟩ := Loop.exists_foldlM_range' h hkeeps
  unfold Knapsack.fillRow
  rw [List.getElem?_eq_getElem hi]
  rw [Nat.add_comm] at h'
  exact ⟨t', hrun, h'.objects_eq, h'.filled.row_end⟩

theorem buildTable_spec (hvalid : Valid objects) (hpos : 0 ≤ weight.toInt)
    (hweight : weight.toInt < 2 ^ 31 - 1) :
    ∃ t, buildTable objects weight = some t ∧ Building objects weight objects.length 1 t := by
  have hsize : checked 32 (weight.toInt + 1) = some _ := Signed.checked_eq ⟨by omega, by omega⟩
  have hnat : (weight.toInt + 1).toNat = weight.toInt.toNat + 1 := by omega
  unfold buildTable KnapsackTable.new
  rw [hsize]
  simp only [Option.bind_eq_bind, Option.bind_some]
  refine Loop.exists_foldlM_range (P := fun i t => Building objects weight i 1 t) ⟨rfl, ?_⟩
    fun i hi t h => h.fillRow hvalid hi
  rw [hnat]
  refine Grid.Filled.start objects _ fun i _ => ?_
  have hle : 0 ≤ totalValue (objects.take (i + 1)) :=
    sum_nonneg hvalid.value (List.take_sublist _ _)
  refine ⟨le_refl 0, hle, fun _ => rfl, fun hfree => ⟨zero_mem_loads (le_refl 0), ?_⟩⟩
  intro x hx
  have hfree' : ∀ object ∈ objects.take (i + 1), object.weight.toInt = 0 →
      object.value.toInt = 0 := fun object hmem => hfree object (List.mem_of_mem_take hmem)
  exact (eq_zero_of_zero (hvalid.weight_take _) hfree' hx).le

end CPPCodes.Knapsack
