import CPPCodes.Knapsack.Table

/-!
# The objects in the knapsack

The walk of `GetObjects` back through the table takes each object once at most, although it stays at
an object that it has taken: what is left is then the entry of the row in front
(`objectsLoop_spec`). Table and selection are the best exactly if no object that weighs nothing is
worth something (`optimal_iff`).
-/

namespace CPPCodes.Knapsack

open Loads
open Signed (checked)

/-- The entries are the greatest values of the first objects, and `GetObjects` comes to an end with
a selection of the greatest value. -/
def Optimal (objects : List Object) (weight : Int32) : Prop :=
  ∃ t, buildTable objects weight = some t ∧
    (∀ i < objects.length, ∀ j ≤ weight.toInt.toNat, ∃ v, t.table.get i j = some v ∧
      IsGreatest (values (objects.take (i + 1)) j) v) ∧
    ∃ fuel, (∃ result, GetObjects t fuel weight result) ∧
      ∀ result, GetObjects t fuel weight result → result.Subperm objects ∧
        (result.map fun object => object.weight.toInt).sum ≤ weight.toInt ∧
        IsGreatest (values objects weight.toInt) (totalValue result)

variable {objects : List Object} {weight : Int32} {t : KnapsackTable}

/-- A selection of the first `n` objects, in reverse order, of the value and no heavier. -/
structure Picks (objects : List Object) (n : ℕ) (w x : ℤ) (picked : List Object) : Prop where
  sub : picked.reverse.Sublist (objects.take n)
  weight : (picked.map fun object => object.weight.toInt).sum ≤ w
  value : totalValue picked = x

theorem picks_nil {n : ℕ} {w : ℤ} (hw : 0 ≤ w) : Picks objects n w 0 [] :=
  ⟨List.nil_sublist _, hw, rfl⟩

theorem Picks.mono {n : ℕ} {w x : ℤ} {picked : List Object} (h : Picks objects n w x picked) :
    Picks objects (n + 1) w x picked :=
  ⟨h.sub.trans (List.take_sublist_take_left (Nat.le_succ n)), h.weight, h.value⟩

theorem Picks.cons {n : ℕ} (hn : n < objects.length) {w x : ℤ} {picked : List Object}
    (h : Picks objects n (w - objects[n].weight.toInt) (x - objects[n].value.toInt) picked) :
    Picks objects (n + 1) w x (objects[n] :: picked) := by
  refine ⟨?_, ?_, ?_⟩
  · rw [List.reverse_cons, List.take_succ_eq_append_getElem hn]
    exact h.sub.append (List.Sublist.refl _)
  · have hle := h.weight
    rw [List.map_cons, List.sum_cons]
    omega
  · have heq := h.value
    unfold totalValue at heq ⊢
    rw [List.map_cons, List.sum_cons]
    omega

/-- The loop stays at an object without which the value is as great. -/
theorem objectsLoop_stay {fuel n : ℕ} {w x : ℤ} (hw : 0 ≤ w) (hget : t.get (n - 1) w = some x)
    (hvalue : Value objects n w x)
    (hrest : ∃ picked, objectsLoop t fuel (n - 1) w x = some picked ∧
      Picks objects n w x picked) :
    ∃ picked, objectsLoop t (fuel + 1) n w x = some picked ∧ Picks objects n w x picked := by
  unfold objectsLoop
  split_ifs with hend
  · obtain rfl : x = 0 := hend.elim hvalue.zero id
    exact ⟨[], rfl, picks_nil hw⟩
  · rw [hget, Option.bind_eq_bind, Option.bind_some, if_pos rfl]
    exact hrest

/-- An object that makes a difference fits, and what is left is the entry of the row in front. -/
theorem Building.taken (h : Building objects weight objects.length 1 t) (hvalid : Valid objects)
    (hfree : NoneFree objects) {n : ℕ} (hn : n < objects.length) {w x prev : ℤ}
    (hw : w ≤ weight.toInt) (hprev : Value objects n w prev) (hvalue : Value objects (n + 1) w x)
    (hne : x ≠ prev) :
    objects[n].weight.toInt ≤ w ∧
      t.get (n - 1) (w - objects[n].weight.toInt) = some (x - objects[n].value.toInt) ∧
      Value objects n (w - objects[n].weight.toInt) (x - objects[n].value.toInt) := by
  have hgreatest := hvalue.greatest hfree
  unfold values at hgreatest
  rw [List.take_succ_eq_append_getElem hn] at hgreatest
  have hleft := eq_of_ne (hprev.greatest hfree) hgreatest hne
  have hle : objects[n].weight.toInt ≤ w := by
    by_contra hlt
    have hempty := loads_of_neg (v := fun object : Object => object.value.toInt)
      (hvalid.weight_take n) (by omega : w - objects[n].weight.toInt < 0)
    exact absurd hleft.1 (by rw [hempty]; exact Set.notMem_empty _)
  have hpos := hvalid.weight objects[n] (List.getElem_mem hn)
  obtain ⟨left, hget, hvleft⟩ := h.get hn.le hn.le (k := w - objects[n].weight.toInt) (by omega)
    (by omega)
  obtain rfl := (hvleft.greatest hfree).unique hleft
  exact ⟨hle, hget, hvleft⟩

theorem objectsLoop_spec (h : Building objects weight objects.length 1 t) (hvalid : Valid objects)
    (hfree : NoneFree objects) :
    ∀ (fuel : ℕ) {n : ℕ} {w x : ℤ}, 2 * n < fuel → n ≤ objects.length → 0 ≤ w → w ≤ weight.toInt →
      t.get (n - 1) w = some x → Value objects n w x →
      ∃ picked, objectsLoop t fuel (n - 1) w x = some picked ∧ Picks objects n w x picked
  | 0, _, _, _, hfuel, _, _, _, _, _ => absurd hfuel (Nat.not_lt_zero _)
  | fuel + 1, 0, w, x, _, _, hw, _, _, hvalue => by
    obtain rfl : x = 0 := le_antisymm hvalue.le_total hvalue.nonneg
    unfold objectsLoop
    rw [if_pos (.inr rfl)]
    exact ⟨[], rfl, picks_nil hw⟩
  | fuel + 1, n + 1, w, x, hfuel, hn, hw, hww, _, hvalue => by
    have hcast : ((n + 1 : ℕ) : ℤ) - 1 = n := by omega
    obtain ⟨prev, hprev, hvprev⟩ := h.get (Nat.le_of_succ_le hn) (Nat.le_of_succ_le hn) hw hww
    rw [hcast]
    by_cases heq : x = prev
    · subst heq
      obtain ⟨picked, hrun, hpicks⟩ := objectsLoop_stay hw hprev hvprev
        (objectsLoop_spec h hvalid hfree fuel (by omega) (by omega) hw hww hprev hvprev)
      exact ⟨picked, hrun, hpicks.mono⟩
    · unfold objectsLoop
      split_ifs with hend
      · obtain rfl : x = 0 := hend.elim hvalue.zero id
        exact ⟨[], rfl, picks_nil hw⟩
      · obtain ⟨hle, hget, hvleft⟩ := h.taken hvalid hfree hn hww hvprev hvalue heq
        have hpos := hvalid.weight objects[n] (List.getElem_mem hn)
        have hnonneg := hvleft.nonneg
        have hobject : t.getObject n = some objects[n] := by
          unfold KnapsackTable.getObject
          rw [if_pos (by omega), h.objects_eq, Int.toNat_natCast, List.getElem?_eq_getElem hn]
        have hweight := weight.toInt_lt
        have hmax := hvalid.total
        have htotal := (hvalue.le_total).trans (hvalid.total_take_le (n + 1))
        have hval := hvalid.value objects[n] (List.getElem_mem hn)
        have hw' : checked 32 (w - objects[n].weight.toInt) = some _ :=
          Signed.checked_eq ⟨by omega, by omega⟩
        have hx' : checked 32 (x - objects[n].value.toInt) = some _ :=
          Signed.checked_eq ⟨by omega, by omega⟩
        obtain ⟨fuel, rfl⟩ := Nat.exists_eq_succ_of_ne_zero (by omega : fuel ≠ 0)
        obtain ⟨picked, hrun, hpicks⟩ := objectsLoop_stay (by omega) hget hvleft
          (objectsLoop_spec h hvalid hfree fuel (by omega) (by omega) (by omega)
            (by omega) hget hvleft)
        rw [hprev]
        simp only [Option.bind_eq_bind, Option.bind_some, if_neg heq, hobject, if_pos hle, hw', hx',
          hrun]
        exact ⟨_, rfl, hpicks.cons hn⟩

theorem pickObjects_spec (h : Building objects weight objects.length 1 t) (hvalid : Valid objects)
    (hfree : NoneFree objects) (hpos : 0 ≤ weight.toInt) :
    ∃ fuel picked x, pickObjects t fuel weight = some picked ∧
      Value objects objects.length weight.toInt x ∧
      Picks objects objects.length weight.toInt x picked := by
  obtain ⟨x, hget, hvalue⟩ := h.get (Nat.le_refl _) (Nat.le_refl _) hpos (le_refl _)
  obtain ⟨picked, hrun, hpicks⟩ := objectsLoop_spec h hvalid hfree _
    (Nat.lt_succ_self (2 * objects.length)) (Nat.le_refl _) hpos (le_refl _) hget hvalue
  unfold pickObjects
  simp only [h.objects_eq, hget, Option.bind_eq_bind, Option.bind_some]
  by_cases hzero : x ≤ 0
  · obtain rfl : x = 0 := le_antisymm hzero hvalue.nonneg
    exact ⟨0, [], 0, if_pos hzero, hvalue, picks_nil hpos⟩
  · refine ⟨2 * objects.length + 1, picked, x, ?_, hvalue, hpicks⟩
    rw [if_neg hzero]
    exact hrun

theorem strictWeakOn_weight (objects : List Object) :
    Sorting.StrictWeakOn (fun b1 b2 : Object => b1.weight < b2.weight) objects := by
  refine { irrefl := fun a => ?_, trans := fun a b c => ?_, incomp_trans := fun a b c => ?_ }
  · exact Int32.lt_irrefl
  · exact Int32.lt_trans
  · simp only [Subrel, Order.Preimage, Int32.lt_iff_toInt_lt]
    omega

/-- A first column that is right has no object that weighs nothing and is worth something. -/
theorem Optimal.noneFree (hoptimal : Optimal objects weight) (hvalid : Valid objects)
    (hpos : 0 ≤ weight.toInt) (hweight : weight.toInt < 2 ^ 31 - 1) : NoneFree objects := by
  obtain ⟨t, hbuild, h⟩ := buildTable_spec hvalid hpos hweight
  obtain ⟨t', hbuild', hentry, -⟩ := hoptimal
  obtain rfl := Option.some.inj (hbuild.symm.trans hbuild')
  intro object hmem hzero
  have hlen := List.length_pos_of_mem hmem
  obtain ⟨v, hget, hgreatest⟩ := hentry (objects.length - 1) (by omega) 0 (Nat.zero_le _)
  obtain ⟨v', hget', hrow⟩ := h.filled.right (objects.length - 1) (by omega) 0 (by omega)
    (.inl (by omega))
  obtain rfl := Option.some.inj (hget.symm.trans hget')
  obtain rfl : v = 0 := hrow.zero rfl
  rw [Nat.sub_add_cancel hlen, List.take_length] at hgreatest
  have hle : object.value.toInt ≤ 0 := hgreatest.2
    ⟨[object], List.singleton_sublist.2 hmem, by simp [hzero], by simp⟩
  exact le_antisymm hle (hvalid.value object hmem)

/-- Table and selection are the best exactly if no object that weighs nothing is worth something. -/
theorem optimal_iff (objects : List Object) (weight : Int32) (hvalid : Valid objects)
    (hpos : 0 ≤ weight.toInt) (hweight : weight.toInt < 2 ^ 31 - 1) :
    Optimal objects weight ↔ NoneFree objects := by
  obtain ⟨t, hbuild, h⟩ := buildTable_spec hvalid hpos hweight
  constructor
  · intro hoptimal
    exact hoptimal.noneFree hvalid hpos hweight
  · intro hfree
    refine ⟨t, hbuild, fun i hi j hj => ?_, ?_⟩
    · obtain ⟨v, hget, hrow⟩ := h.filled.right i hi j (Nat.lt_succ_of_le hj) (.inl hi)
      exact ⟨v, hget, hrow.greatest hfree⟩
    · obtain ⟨fuel, picked, x, hpick, hvalue, hpicks⟩ := pickObjects_spec h hvalid hfree hpos
      obtain ⟨out, hout⟩ := (strictWeakOn_weight picked).exists_sorted
      refine ⟨fuel, ⟨out, picked, hpick, fun _ => hout⟩, ?_⟩
      rintro result ⟨picked', hpick', hsorts⟩
      obtain rfl := Option.some.inj (hpick.symm.trans hpick')
      have hperm := (hsorts (strictWeakOn_weight picked)).perm
      have hsub := hpicks.sub
      rw [List.take_length] at hsub
      have hgreatest := hvalue.greatest hfree
      unfold values at hgreatest
      rw [List.take_length] at hgreatest
      refine ⟨?_, ?_, ?_⟩
      · exact ⟨_, (hperm.trans (List.reverse_perm picked).symm).symm, hsub⟩
      · rw [(hperm.map _).sum_eq]
        exact hpicks.weight
      · have hsum : totalValue result = x := ((hperm.map _).sum_eq).trans hpicks.value
        rw [hsum]
        exact hgreatest

/-- Two objects that weigh one each, and a limit of one. -/
theorem optimal_iff_two : Optimal [⟨1, 2⟩, ⟨1, 3⟩] 1 :=
  (optimal_iff [⟨1, 2⟩, ⟨1, 3⟩] 1 ⟨by decide, by decide, by decide⟩ (by decide) (by decide)).2
    (by unfold NoneFree; decide)

/-- An object that weighs nothing and is worth 5: the first column has 0. -/
theorem not_optimal : ¬ ∀ (objects : List Object) (weight : Int32), Valid objects →
    0 ≤ weight.toInt → weight.toInt < 2 ^ 31 - 1 → Optimal objects weight := by
  intro h
  have hvalid : Valid [⟨0, 5⟩] := ⟨by decide, by decide, by decide⟩
  have hoptimal := h [⟨0, 5⟩] 0 hvalid (by decide) (by decide)
  have hfree := hoptimal.noneFree hvalid (by decide) (by decide)
  exact absurd (hfree ⟨0, 5⟩ (List.mem_singleton_self _) rfl) (by decide)

end CPPCodes.Knapsack
