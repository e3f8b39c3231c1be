import CPPCodes.Lib.Grid
import CPPCodes.Subsets.Enumeration

/-!
# The table of sums

SumOfSubset.cpp. An entry of the table is true if the row in front has the column, or the column
with the element less. This difference is unsigned, so for an element that is greater it can wrap
to a column, and then the entry is true without a subset. The table is right where this makes only
sums that there are (`tableRight_iff`).
-/

namespace CPPCodes.Subsets

open Selections

structure DPTable where
  elements : List UInt32
  expcected : UInt32
  table : Grid Bool

namespace DPTable

/-- A row of `Initialize`. -/
def initialRow (expcected : UInt32) : Option (List Bool) :=
  if 0 < expcected then some ((List.replicate expcected.toNat false).set 0 true) else none

/-- The constructor, with `Initialize`. -/
def new (elements : List UInt32) (expcected : UInt32) : Option DPTable := do
  let table ← elements.mapM fun _ => initialRow expcected
  return { elements, expcected, table }

/-- The check of `Get` and `Set`. -/
def Outside (t : DPTable) (i j : ℤ) : Prop :=
  i < 0 ∨ t.elements.length ≤ i ∨ j < 0 ∨ t.expcected.toNat ≤ j

instance (t : DPTable) (i j : ℤ) : Decidable (t.Outside i j) :=
  inferInstanceAs (Decidable (_ ∨ _))

def get (t : DPTable) (i j : ℤ) : Option Bool :=
  if t.Outside i j then some false else t.table.get i.toNat j.toNat

def set (t : DPTable) (i j : ℤ) (value : Bool) : Option DPTable :=
  if t.Outside i j then some t
  else do
    let table ← t.table.set i.toNat j.toNat value
    return { t with table }

end DPTable

/-- `j-element`, which is unsigned and becomes an `int`. -/
def column (j : ℕ) (element : UInt32) : ℤ := (UInt32.ofNat j - element).toInt32.toInt

/-- The condition of the inner loop. -/
def reaches (t : DPTable) (element : UInt32) (i j : ℕ) : Option Bool :=
  if element = UInt32.ofNat j then some true
  else do
    let above ← t.get (i - 1) j
    if above then return true else t.get (i - 1) (column j element)

/-- The body of the inner loop. -/
def fillEntry (element : UInt32) (i : ℕ) (t : DPTable) (j : ℕ) : Option DPTable := do
  let reached ← reaches t element i j
  if reached then t.set i j true else return t

/-- The inner loop, over `j` from 1 on. -/
def fillRow (elements : List UInt32) (expected : UInt32) (t : DPTable) (i : ℕ) :
    Option DPTable := do
  let element ← elements[i]?
  (List.range' 1 expected.toNat).foldlM (fillEntry element i) t

def sortElements (elements : List UInt32) : List UInt32 := elements.mergeSort (· ≤ ·)

/-- The loops of `main`. -/
def buildTable (elements : List UInt32) (expected : UInt32) : Option DPTable := do
  let elements := sortElements elements
  let t ← DPTable.new elements (expected + 1)
  (List.range elements.length).foldlM (fillRow elements expected) t

/-- Some subset of the elements has the sum. -/
abbrev HasSubset (elements : List UInt32) (r : ℕ) : Prop := IsSum UInt32.toNat elements r

/-- Every entry says if a subset of the elements up to its row has its column as sum. -/
def TableRight (elements : List UInt32) (expected : UInt32) : Prop :=
  ∃ t, buildTable elements expected = some t ∧
    ∀ i < elements.length, ∀ j ≤ expected.toNat, ∃ v, t.get i j = some v ∧
      (v = true ↔ HasSubset ((sortElements elements).take (i + 1)) j)

/-- What wraps to a column is the sum of a subset in any case. -/
def NoWrap (elements : List UInt32) (expected : UInt32) : Prop :=
  ∀ i x, (sortElements elements)[i]? = some x → ∀ s ≤ expected.toNat,
    HasSubset ((sortElements elements).take i) s → 2 ^ 32 < s + x.toNat →
      HasSubset ((sortElements elements).take (i + 1)) (s + x.toNat - 2 ^ 32)

/-- The last entry is true. -/
def LastEntry (elements : List UInt32) (expected : UInt32) : Prop :=
  ∃ t, buildTable elements expected = some t ∧
    t.get (elements.length - 1 : ℕ) expected.toNat = some true

/-- The search of `SubsetSum` ends, and has found a subset if `found`, and none otherwise. -/
def Finds (elements : List UInt32) (expected : UInt32) (found : Prop) : Prop :=
  ∀ fuel, elements.length < fuel → ∃ result,
    (SubsetSum.new elements expected).compute fuel [] = some result ∧ (result ≠ [] ↔ found)

/-- The columns that the first `i` elements reach, among those up to the expected sum, where the
difference may wrap. -/
def Reached (xs : List UInt32) (expected : UInt32) : ℕ → ℕ → Prop
  | 0, j => j = 0
  | i + 1, j => Reached xs expected i j ∨ ∃ x, xs[i]? = some x ∧ ∃ c ≤ expected.toNat,
      Reached xs expected i c ∧ (j = c + x.toNat ∨ j + 2 ^ 32 = c + x.toNat)

variable {xs elements : List UInt32} {expected x : UInt32} {i j : ℕ}

theorem reached_zero (xs : List UInt32) (expected : UInt32) : ∀ i, Reached xs expected i 0
  | 0 => rfl
  | i + 1 => .inl (reached_zero xs expected i)

theorem column_eq_iff {c : ℕ} (hj : j < 2 ^ 31) (hc : c < 2 ^ 31) :
    column j x = c ↔ j = c + x.toNat ∨ j + 2 ^ 32 = c + x.toNat := by
  have hx := x.toNat_lt
  have hnat : (UInt32.ofNat j - x).toNat = (2 ^ 32 - x.toNat + j) % 2 ^ 32 := by
    rw [UInt32.toNat_sub, UInt32.toNat_ofNat', Nat.mod_eq_of_lt (a := j) (by omega)]
  have hcolumn : column j x = (UInt32.ofNat j - x).toBitVec.toInt := rfl
  rw [hcolumn, BitVec.toInt_eq_toNat_cond, UInt32.toNat_toBitVec, hnat]
  split_ifs <;> omega

/-- What an entry is. -/
def Entry (xs : List UInt32) (expected : UInt32) (i j : ℕ) (v : Bool) : Prop :=
  v = true ↔ Reached xs expected (i + 1) j

/-- The loops are in front of place `(i, j)`: the entries behind it, apart from the first column,
are false as yet. -/
structure Building (xs : List UInt32) (expected : UInt32) (i j : ℕ) (t : DPTable) : Prop where
  elements_eq : t.elements = xs
  expcected_eq : t.expcected.toNat = expected.toNat + 1
  filled : Grid.Filled (Entry xs expected) xs.length (expected.toNat + 1) i j t.table
  fresh : ∀ i' < xs.length, ∀ j' < expected.toNat + 1, 1 ≤ j' → (i < i' ∨ i' = i ∧ j ≤ j') →
    t.table.get i' j' = some false

/-- What the loops get from the row behind the first `n` elements. -/
theorem Building.get {t : DPTable} (h : Building xs expected i j t) {n : ℕ} (hi : n ≤ i)
    (hn : n ≤ xs.length) (k : ℤ) :
    ∃ v, t.get (n - 1) k = some v ∧
      (v = true ↔ n ≠ 0 ∧ ∃ c ≤ expected.toNat, Reached xs expected n c ∧ k = c) := by
  have helements := congrArg List.length h.elements_eq
  have hexpcected := h.expcected_eq
  unfold DPTable.get
  by_cases hout : t.Outside (n - 1) k
  · refine ⟨false, if_pos hout, iff_of_false Bool.false_ne_true ?_⟩
    rintro ⟨hne, c, hc, -, rfl⟩
    unfold DPTable.Outside at hout
    omega
  · rw [if_neg hout]
    unfold DPTable.Outside at hout
    obtain ⟨n, rfl⟩ : ∃ m, n = m + 1 := Nat.exists_eq_succ_of_ne_zero (by omega)
    obtain ⟨v, hget, hv⟩ := h.filled.right n (by omega) k.toNat (by omega) (.inl hi)
    have hrow : (((n + 1 : ℕ) : ℤ) - 1).toNat = n := by omega
    rw [hrow]
    refine ⟨v, hget, hv.trans ⟨fun hreached => ?_, ?_⟩⟩
    · exact ⟨Nat.succ_ne_zero n, k.toNat, by omega, hreached, by omega⟩
    · rintro ⟨-, c, -, hreached, rfl⟩
      exact hreached

theorem reached_succ_iff (hexpected : expected.toNat < 2 ^ 31 - 1) (hx : xs[i]? = some x)
    (hle : j ≤ expected.toNat) : Reached xs expected (i + 1) j ↔ Reached xs expected i j ∨
      ∃ c ≤ expected.toNat, Reached xs expected i c ∧ column j x = c := by
  refine or_congr_right ⟨?_, ?_⟩
  · rintro ⟨y, hy, c, hc, hreached, hcolumn⟩
    obtain rfl := Option.some.inj (hx.symm.trans hy)
    exact ⟨c, hc, hreached, (column_eq_iff (by omega) (by omega)).2 hcolumn⟩
  · rintro ⟨c, hc, hreached, hcolumn⟩
    exact ⟨x, hx, c, hc, hreached, (column_eq_iff (by omega) (by omega)).1 hcolumn⟩

/-- Column 0 is that of the element itself. -/
theorem column_eq_zero_iff (hj : j < 2 ^ 31) : column j x = (0 : ℕ) ↔ x = UInt32.ofNat j := by
  have hx := x.toNat_lt
  rw [column_eq_iff hj (by omega), ← UInt32.toNat_inj, UInt32.toNat_ofNat',
    Nat.mod_eq_of_lt (by omega)]
  omega

theorem reaches_spec (hexpected : expected.toNat < 2 ^ 31 - 1) {t : DPTable}
    (h : Building xs expected i j t) (hx : xs[i]? = some x) (hj : 1 ≤ j)
    (hle : j ≤ expected.toNat) : ∃ v, reaches t x i j = some v ∧ Entry xs expected i j v := by
  have hi := (List.getElem?_eq_some_iff.1 hx).1
  unfold Entry reaches
  rw [reached_succ_iff hexpected hx hle]
  by_cases heq : x = UInt32.ofNat j
  · exact ⟨true, if_pos heq, iff_of_true rfl (.inr ⟨0, Nat.zero_le _, reached_zero xs expected i,
      (column_eq_zero_iff (by omega)).2 heq⟩)⟩
  · -- the first row has no row in front, and would have column 0 only
    have hrow : ∀ c : ℕ, column j x = c → Reached xs expected i c → i ≠ 0 := by
      rintro c hcolumn hreached rfl
      obtain rfl : c = 0 := hreached
      exact heq ((column_eq_zero_iff (by omega)).1 hcolumn)
    obtain ⟨above, habove, hiff⟩ := h.get (Nat.le_refl i) hi.le j
    rw [if_neg heq, habove, Option.bind_eq_bind, Option.bind_some]
    have hiff' : above = true ↔ Reached xs expected i j := by
      rw [hiff]
      constructor
      · rintro ⟨-, c, -, hreached, hc⟩
        rwa [Int.ofNat_inj.1 hc]
      · refine fun hreached => ⟨?_, j, hle, hreached, rfl⟩
        rintro rfl
        exact Nat.ne_of_gt hj hreached
    rw [← hiff']
    by_cases hset : above = true
    · exact ⟨true, if_pos hset, iff_of_true rfl (.inl hset)⟩
    · obtain ⟨v, hv, hiff⟩ := h.get (Nat.le_refl i) hi.le (column j x)
      rw [if_neg hset]
      refine ⟨v, hv, hiff.trans ⟨fun hcolumn => .inr hcolumn.2, ?_⟩⟩
      rintro (habove' | ⟨c, hc, hreached, hcolumn⟩)
      · exact absurd habove' hset
      · exact ⟨hrow c hcolumn hreached, c, hc, hreached, hcolumn⟩

theorem Building.fillEntry (hexpected : expected.toNat < 2 ^ 31 - 1) {t : DPTable}
    (h : Building xs expected i j t) (hx : xs[i]? = some x) (hj : 1 ≤ j)
    (hle : j ≤ expected.toNat) :
    ∃ t', fillEntry x i t j = some t' ∧ Building xs expected i (j + 1) t' := by
  have hi := (List.getElem?_eq_some_iff.1 hx).1
  obtain ⟨v, hv, hentry⟩ := reaches_spec hexpected h hx hj hle
  unfold Subsets.fillEntry
  rw [hv, Option.bind_eq_bind, Option.bind_some]
  cases v with
  | false =>
    refine ⟨t, rfl, h.elements_eq, h.expcected_eq, ⟨h.filled.sized, ?_⟩, ?_⟩
    · intro i' hi' j' hj' hfront
      by_cases hplace : i' = i ∧ j' = j
      · obtain ⟨rfl, rfl⟩ := hplace
        exact ⟨false, h.fresh i' hi' j' hj' hj (.inr ⟨rfl, Nat.le_refl _⟩), hentry⟩
      · exact h.filled.right i' hi' j' hj' (by omega)
    · exact fun i' hi' j' hj' hpos hfront => h.fresh i' hi' j' hj' hpos (by omega)
  | true =>
    have helements := congrArg List.length h.elements_eq
    have hexpcected := h.expcected_eq
    have hinside : ¬ t.Outside i j := by
      unfold DPTable.Outside
      omega
    obtain ⟨table, hset, hfilled⟩ := h.filled.set hi (Nat.lt_succ_of_le hle) hentry
    refine ⟨{ t with table }, ?_, h.elements_eq, h.expcected_eq, hfilled, ?_⟩
    · rw [if_pos rfl]
      unfold DPTable.set
      rw [if_neg hinside, Int.toNat_natCast, Int.toNat_natCast, hset]
      rfl
    · intro i' hi' j' hj' hpos hbehind
      rw [Grid.get_set hset, if_neg (by omega)]
      exact h.fresh i' hi' j' hj' hpos (by omega)

theorem Building.fillRow (hexpected : expected.toNat < 2 ^ 31 - 1) {t : DPTable}
    (h : Building xs expected i 1 t) (hi : i < xs.length) :
    ∃ t', fillRow xs expected t i = some t' ∧ Building xs expected (i + 1) 1 t' := by
  have hx : xs[i]? = some xs[i] := List.getElem?_eq_getElem hi
  obtain ⟨t', hrun, h'⟩ := Loop.exists_foldlM_range' (n := expected.toNat) h
    fun j hj hlt t ht => ht.fillEntry hexpected hx hj (by omega)
  unfold Subsets.fillRow
  rw [hx]
  rw [Nat.add_comm] at h'
  refine ⟨t', hrun, h'.elements_eq, h'.expcected_eq, h'.filled.row_end, ?_⟩
  exact fun i' hi' j' hj' hpos hbehind => h'.fresh i' hi' j' hj' hpos (by omega)

theorem new_spec (hexpected : expected.toNat < 2 ^ 31 - 1) (xs : List UInt32) :
    ∃ t, DPTable.new xs (expected + 1) = some t ∧ Building xs expected 0 1 t := by
  have hnat : (expected + 1).toNat = expected.toNat + 1 := by
    rw [UInt32.toNat_add, UInt32.toNat_one, Nat.mod_eq_of_lt (by omega)]
  have hrow : DPTable.initialRow (expected + 1) =
      some ((List.replicate (expected.toNat + 1) false).set 0 true) := by
    unfold DPTable.initialRow
    rw [if_pos (UInt32.lt_iff_toNat_lt.2 (by rw [hnat]; exact Nat.succ_pos _)), hnat]
  have hget : ∀ i' < xs.length, ∀ j' < expected.toNat + 1,
      Grid.get (xs.map fun _ => (List.replicate (expected.toNat + 1) false).set 0 true) i' j' =
        some (decide (j' = 0)) := by
    intro i' hi' j' hj'
    unfold Grid.get
    rw [List.getElem?_map, List.getElem?_eq_getElem hi', Option.map_some, Option.bind_some]
    rcases j' with _ | j'
    · rfl
    · rw [List.getElem?_set_ne (Nat.succ_ne_zero j').symm, List.getElem?_replicate, if_pos hj']
      rfl
  have hnew : DPTable.new xs (expected + 1) = some ⟨xs, expected + 1,
      xs.map fun _ => (List.replicate (expected.toNat + 1) false).set 0 true⟩ := by
    have hrows : (xs.mapM fun _ => DPTable.initialRow (expected + 1)) = some
        (xs.map fun _ => (List.replicate (expected.toNat + 1) false).set 0 true) := by
      rw [hrow]
      exact List.mapM_pure
    unfold DPTable.new
    rw [hrows]
    rfl
  refine ⟨_, hnew, rfl, hnat, ⟨⟨List.length_map _, fun row hmem => ?_⟩, ?_⟩, ?_⟩
  · obtain ⟨-, -, rfl⟩ := List.mem_map.1 hmem
    rw [List.length_set, List.length_replicate]
  · intro i' hi' j' hj' hfront
    obtain rfl : j' = 0 := by omega
    exact ⟨true, hget i' hi' 0 hj', iff_of_true rfl (reached_zero xs expected (i' + 1))⟩
  · intro i' hi' j' hj' hpos _
    rw [hget i' hi' j' hj', decide_eq_false (Nat.ne_of_gt hpos)]

theorem length_sortElements (elements : List UInt32) :
    (sortElements elements).length = elements.length :=
  (List.mergeSort_perm elements _).length_eq

theorem buildTable_spec (hexpected : expected.toNat < 2 ^ 31 - 1) (elements : List UInt32) :
    ∃ t, buildTable elements expected = some t ∧
      ∀ i < elements.length, ∀ j ≤ expected.toNat, ∃ v, t.get i j = some v ∧
        (v = true ↔ Reached (sortElements elements) expected (i + 1) j) := by
  obtain ⟨t, hnew, h⟩ := new_spec hexpected (sortElements elements)
  obtain ⟨t', hrun, h'⟩ := Loop.exists_foldlM_range
    (P := fun i t => Building (sortElements elements) expected i 1 t) h
    fun i hi t ht => ht.fillRow hexpected hi
  refine ⟨t', ?_, fun i hi j hj => ?_⟩
  · unfold buildTable
    simp only [hnew, Option.bind_eq_bind, Option.bind_some]
    exact hrun
  · rw [← length_sortElements] at hi
    obtain ⟨v, hget, hv⟩ := h'.get (n := i + 1) hi hi j
    have hrow : ((i + 1 : ℕ) : ℤ) - 1 = i := by omega
    rw [hrow] at hget
    refine ⟨v, hget, hv.trans ⟨?_, fun hreached => ⟨Nat.succ_ne_zero i, j, hj, hreached, rfl⟩⟩⟩
    rintro ⟨-, c, -, hreached, hc⟩
    rwa [Int.ofNat_inj.1 hc]

theorem hasSubset_take_succ (hx : xs[i]? = some x) :
    HasSubset (xs.take (i + 1)) j ↔
      HasSubset (xs.take i) j ∨ ∃ s, HasSubset (xs.take i) s ∧ j = s + x.toNat := by
  obtain ⟨hi, rfl⟩ := List.getElem?_eq_some_iff.1 hx
  rw [List.take_succ_eq_append_getElem hi]
  exact isSum_concat

/-- What is reached are the sums, if what wraps is a sum in any case. -/
theorem NoWrap.reached_iff (h : NoWrap elements expected) :
    ∀ {i j : ℕ}, i ≤ elements.length → j ≤ expected.toNat →
      (Reached (sortElements elements) expected i j ↔ HasSubset ((sortElements elements).take i) j)
  | 0, j, _, _ => isSum_nil.symm
  | i + 1, j, hi, hj => by
    have hlt : i < (sortElements elements).length := by
      rwa [length_sortElements]
    have hx : (sortElements elements)[i]? = some (sortElements elements)[i] :=
      List.getElem?_eq_getElem hlt
    constructor
    · rintro (hreached | ⟨x, hx, c, hc, hreached, hcolumn⟩)
      · rw [hasSubset_take_succ hx]
        exact .inl ((h.reached_iff (Nat.le_of_succ_le hi) hj).1 hreached)
      · have hsum := (h.reached_iff (Nat.le_of_succ_le hi) hc).1 hreached
        rcases hcolumn with rfl | hwrap
        · exact (hasSubset_take_succ hx).2 (.inr ⟨c, hsum, rfl⟩)
        · rcases Nat.eq_zero_or_pos j with rfl | hpos
          · exact isSum_zero _ _
          · have hj' : j = c + x.toNat - 2 ^ 32 := by omega
            rw [hj']
            exact h i x hx c hc hsum (by omega)
    · intro hsum
      rcases (hasSubset_take_succ hx).1 hsum with hfront | ⟨s, hfront, rfl⟩
      · exact .inl ((h.reached_iff (Nat.le_of_succ_le hi) hj).2 hfront)
      · have hs : s ≤ expected.toNat := Nat.le_of_add_right_le hj
        exact .inr ⟨_, hx, s, hs, (h.reached_iff (Nat.le_of_succ_le hi) hs).2 hfront, .inl rfl⟩

/-- The table is right exactly if what wraps to a column is the sum of a subset in any case. -/
theorem tableRight_iff (elements : List UInt32) (hexpected : expected.toNat < 2 ^ 31 - 1) :
    TableRight elements expected ↔ NoWrap elements expected := by
  obtain ⟨t, hbuild, hget⟩ := buildTable_spec hexpected elements
  constructor
  · rintro ⟨t', hbuild', hright⟩ i x hx s hs hsum hwrap
    obtain rfl := Option.some.inj (hbuild.symm.trans hbuild')
    have hiff : ∀ n ≤ elements.length, ∀ j ≤ expected.toNat,
        (Reached (sortElements elements) expected n j ↔
          HasSubset ((sortElements elements).take n) j) := by
      rintro (_ | n) hn j hj
      · exact isSum_nil.symm
      · obtain ⟨v, hv, hreached⟩ := hget n hn j hj
        obtain ⟨v', hv', hsubset⟩ := hright n hn j hj
        obtain rfl := Option.some.inj (hv.symm.trans hv')
        exact hreached.symm.trans hsubset
    have hi := (List.getElem?_eq_some_iff.1 hx).1
    rw [length_sortElements] at hi
    have hxlt := x.toNat_lt
    refine (hiff (i + 1) hi _ (by omega)).1 (.inr ⟨x, hx, s, hs, ?_, .inr (by omega)⟩)
    exact (hiff i hi.le s hs).2 hsum
  · intro h
    refine ⟨t, hbuild, fun i hi j hj => ?_⟩
    obtain ⟨v, hv, hreached⟩ := hget i hi j hj
    exact ⟨v, hv, hreached.trans (h.reached_iff hi hj)⟩

theorem total_sortElements (elements : List UInt32) :
    SubsetSum.total (sortElements elements) = SubsetSum.total elements :=
  ((List.mergeSort_perm elements _).map _).sum_eq

/-- Nothing wraps if the elements together do not. -/
theorem noWrap_of_total_lt (expected : UInt32) (htotal : SubsetSum.total elements < 2 ^ 32) :
    NoWrap elements expected := by
  intro i x hx s _ hsum hwrap
  have hle : SubsetSum.total ((sortElements elements).take (i + 1)) ≤
      SubsetSum.total (sortElements elements) :=
    ((List.take_sublist _ _).map UInt32.toNat).sum_le_sum fun _ _ => Nat.zero_le _
  have hwith : HasSubset ((sortElements elements).take (i + 1)) (s + x.toNat) :=
    (hasSubset_take_succ hx).2 (.inr ⟨s, hsum, rfl⟩)
  have hfits := hwith.le_sum.trans hle
  rw [total_sortElements] at hfits
  omega

theorem TableRight.lastEntry_iff (h : TableRight elements expected) (hne : elements ≠ []) :
    LastEntry elements expected ↔ HasSubset (sortElements elements) expected.toNat := by
  have hpos := List.length_pos_iff.2 hne
  obtain ⟨t, hbuild, hright⟩ := h
  obtain ⟨v, hget, hv⟩ := hright (elements.length - 1) (by omega) _ (Nat.le_refl _)
  rw [Nat.sub_add_cancel hpos, List.take_of_length_le (length_sortElements _).le] at hv
  rw [← hv]
  constructor
  · rintro ⟨t', hbuild', hlast⟩
    obtain rfl := Option.some.inj (hbuild.symm.trans hbuild')
    exact Option.some.inj (hget.symm.trans hlast)
  · rintro rfl
    exact ⟨t, hbuild, hget⟩

/-- The search ends and finds a subset if there is one. For one element that is too much it would
read behind its numbers. -/
theorem finds_hasSubset (hpos : 0 ∉ elements) (htotal : SubsetSum.total elements < 2 ^ 32)
    (hexpected : expected ≠ 0) (hone : ∀ x, elements = [x] → x ≤ expected) :
    Finds elements expected (HasSubset (sortElements elements) expected.toNat) := by
  intro fuel hfuel
  obtain ⟨result, hrun, hperm⟩ := SubsetSum.compute_spec hpos htotal hexpected hone hfuel
  refine ⟨result, hrun, ?_⟩
  unfold HasSubset
  rw [isSum_iff]
  constructor
  · exact fun hne hnil => hne (hperm.trans (.of_eq hnil)).eq_nil
  · rintro hne rfl
    exact hne hperm.symm.eq_nil

/-- Where nothing wraps the table is right. Where the elements together do not wrap, and they are not
one that is more than a positive sum, the search ends and has found a subset if the last entry is
true. -/
theorem sumOfSubset_right (elements : List UInt32) (expected : UInt32)
    (hexpected : expected.toNat < 2 ^ 31 - 1) :
    (NoWrap elements expected → TableRight elements expected) ∧
      (0 ∉ elements → elements ≠ [] → (elements.map UInt32.toNat).sum < 2 ^ 32 → expected ≠ 0 →
        (∀ x, elements = [x] → x ≤ expected) →
          Finds elements expected (LastEntry elements expected)) := by
  refine ⟨(tableRight_iff elements hexpected).2, fun hpos hne htotal hsum hone fuel hfuel => ?_⟩
  have hright := (tableRight_iff elements hexpected).2 (noWrap_of_total_lt expected htotal)
  obtain ⟨result, hrun, hfound⟩ := finds_hasSubset hpos htotal hsum hone fuel hfuel
  exact ⟨result, hrun, hfound.trans (hright.lastEntry_iff hne).symm⟩

theorem sumOfSubset_right_three :
    TableRight [3, 1, 2] 4 ∧ Finds [3, 1, 2] 4 (LastEntry [3, 1, 2] 4) :=
  ⟨(sumOfSubset_right [3, 1, 2] 4 (by decide)).1 (noWrap_of_total_lt 4 (by decide)),
    (sumOfSubset_right [3, 1, 2] 4 (by decide)).2 (by decide) (by simp) (by decide) (by decide)
      (by simp)⟩

/-- In the table for 2, column 1 less the greater element wraps to column 2. For the sum 0 the table
counts the empty subset, which the search does not look for, and where the elements together wrap
the search stops too soon. -/
theorem not_sumOfSubset_right : ¬ TableRight [2, 4294967295] 2 ∧
    ¬ Finds [1, 2] 0 (LastEntry [1, 2] 0) ∧
    ¬ Finds [1, 4294967295] 1 (LastEntry [1, 4294967295] 1) := by
  have hsort : ∀ x y : UInt32, x ≤ y → sortElements [x, y] = [x, y] := fun x y hle =>
    List.mergeSort_of_pairwise (by simpa using hle)
  have hnew : ∀ x y sum : UInt32, x ≤ y → SubsetSum.new [x, y] sum = ⟨[x, y], sum⟩ :=
    fun x y sum hle => congrArg (SubsetSum.mk · sum) (hsort x y hle)
  refine ⟨?_, ?_, ?_⟩
  · rw [tableRight_iff _ (by decide)]
    intro h
    have hwrap := h 1 4294967295
    rw [hsort _ _ (by decide)] at hwrap
    have hsum := hwrap rfl 2 (by decide) (isSum_iff.2 (by decide)) (by decide)
    exact isSum_iff.1 hsum (by decide)
  · have hright : TableRight [1, 2] 0 :=
      (tableRight_iff _ (by decide)).2 (noWrap_of_total_lt 0 (by decide))
    intro h
    obtain ⟨result, hrun, hfound⟩ := h 3 (by decide)
    rw [hnew _ _ _ (by decide)] at hrun
    exact hfound.2 ((hright.lastEntry_iff (by simp)).2 (isSum_zero _ _))
      (Option.some.inj hrun).symm
  · have hright : TableRight [1, 4294967295] 1 :=
      (tableRight_iff _ (by decide)).2 fun i x _ s hs _ hwrap =>
        absurd x.toNat_lt (by have hs' : s ≤ 1 := hs; omega)
    have hlast : LastEntry [1, 4294967295] 1 := by
      rw [hright.lastEntry_iff (by simp), hsort _ _ (by decide)]
      exact isSum_iff.2 (by decide)
    intro h
    obtain ⟨result, hrun, hfound⟩ := h 3 (by decide)
    rw [hnew _ _ _ (by decide)] at hrun
    exact hfound.2 hlast (Option.some.inj hrun).symm

end CPPCodes.Subsets
