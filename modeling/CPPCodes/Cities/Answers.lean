import CPPCodes.Cities.Stored
import Mathlib.Data.Set.Basic

/-!
# Sets of keys as sets of cities

A set of keys stands for the cities under them. On a stored database intersections and unions of
keys are those of cities, the keys an index gives for a range stand for the cities whose own range
meets it, and the answer lists each city of a set once.
-/

namespace CPPCodes.Cities

variable {M : Type}

/-- The attribute that a keyword names. -/
def attr (k : Token) : IndexAttribute :=
  if k.value = ['T'] then .TEMPERATURE else .HUMIDITY

namespace CityDB

/-- The cities under the keys of a set. -/
def cities (db : CityDB M) (set : CitySet) : Set City := {c | ∃ k ∈ set, db.city k = .ok c}

theorem mem_cities {db : CityDB M} {set : CitySet} {c : City} :
    c ∈ db.cities set ↔ ∃ k ∈ set, db.city k = .ok c := Iff.rfl

/-- Every key of the set has a city. -/
def Known (db : CityDB M) (set : CitySet) : Prop := ∀ k ∈ set, ∃ c, db.city k = .ok c

theorem cities_union (db : CityDB M) (l r : CitySet) :
    db.cities (l ∪ r) = db.cities l ∪ db.cities r := by
  ext c
  simp only [CityDB.mem_cities, Set.mem_union, Finset.mem_union, or_and_right, exists_or]

variable [IntervalMap M ℤ ℕ]

/-- The keys that an index gives for the bounds of a comparison. -/
def inRange (db : CityDB M) (a : IndexAttribute) (r : Range) : CitySet :=
  if r.1 > r.2 then ∅ else (db.index a).query r.1 r.2

theorem queryKey_eq (db : CityDB M) (k op v : Token) :
    db.queryKey k op v = do
      let val ← stoll v.value
      let r ← bounds op.type (db.lowest (attr k)) (db.highest (attr k)) val
      return db.inRange (attr k) r := by
  have hif : ∀ {low high : Int64} (x : Index M),
      (if low > high then pure ∅ else pure (x.query low high) : Except Fault CitySet)
        = pure (if low > high then ∅ else x.query low high) := fun x => by split_ifs <;> rfl
  unfold queryKey inRange attr
  split_ifs with h
  · simp only [hif]
    rfl
  · simp only [hif]
    rfl

end CityDB

namespace Inv

variable [IntervalMap M ℤ ℕ] {db : CityDB M}

theorem city_inj (h : Inv db) {k l : ℕ} {c : City} (hk : db.city k = .ok c)
    (hl : db.city l = .ok c) : k = l := by
  obtain ⟨m, hm, hc⟩ := CityDB.city_eq_ok.1 hk
  obtain ⟨n, hn, hd⟩ := CityDB.city_eq_ok.1 hl
  obtain rfl := (h.name hc).symm.trans (h.name hd)
  exact h.inj hm hn

theorem cities_inter (h : Inv db) (l r : CitySet) :
    db.cities (l ∩ r) = db.cities l ∩ db.cities r := by
  ext c
  simp only [CityDB.mem_cities, Set.mem_inter_iff, Finset.mem_inter]
  constructor
  · rintro ⟨k, ⟨hl, hr⟩, hk⟩
    exact ⟨⟨k, hl, hk⟩, k, hr, hk⟩
  · rintro ⟨⟨k, hl, hk⟩, k', hr, hk'⟩
    exact ⟨k, ⟨hl, h.city_inj hk' hk ▸ hr⟩, hk⟩

theorem mem_inRange (h : Inv db) (a : IndexAttribute) (r : Range) (k : ℕ) :
    k ∈ db.inRange a r ↔
      ∃ c, db.city k = .ok c ∧ ∃ t, r.Contains t ∧ (c.range a).Contains t := by
  have hquery : k ∈ (db.index a).query r.1 r.2 ↔
      ∃ c, db.city k = .ok c ∧ ∃ t, r.Contains t ∧ (c.range a).Contains t := by
    rw [Index.mem_query]
    simp only [h.index]
    constructor
    · rintro ⟨t, hr, c, hc, ht⟩
      exact ⟨c, hc, t, hr, ht⟩
    · rintro ⟨c, hc, t, hr, ht⟩
      exact ⟨t, hr, c, hc, ht⟩
  unfold CityDB.inRange
  split_ifs with hlt
  · refine iff_of_false (by simp) ?_
    rintro ⟨_, -, t, ⟨hl, hh⟩, -⟩
    have hlt := Int64.lt_iff_toInt_lt.1 hlt
    omega
  · exact hquery

theorem known_inRange (h : Inv db) (a : IndexAttribute) (r : Range) : db.Known (db.inRange a r) :=
  fun k hk => by
    obtain ⟨c, hc, -⟩ := (h.mem_inRange a r k).1 hk
    exact ⟨c, hc⟩

theorem cities_inRange (h : Inv db) (a : IndexAttribute) (r : Range) :
    db.cities (db.inRange a r)
      = {c | db.Entered c ∧ ∃ t, r.Contains t ∧ (c.range a).Contains t} := by
  ext c
  simp only [CityDB.mem_cities, h.mem_inRange]
  constructor
  · rintro ⟨k, ⟨d, hd, ht⟩, hk⟩
    obtain rfl := Except.ok.inj (hk.symm.trans hd)
    exact ⟨⟨k, hk⟩, ht⟩
  · rintro ⟨⟨k, hk⟩, ht⟩
    exact ⟨k, ⟨c, hk, ht⟩, hk⟩

end Inv

theorem mapM_ok {ε α β : Type} {f : α → Except ε β} : ∀ {l : List α},
    (∀ a ∈ l, ∃ b, f a = .ok b) → ∃ bs, l.mapM f = .ok bs ∧
      (∀ b, b ∈ bs ↔ ∃ a ∈ l, f a = .ok b) ∧
      ((∀ a ∈ l, ∀ a' ∈ l, ∀ b, f a = .ok b → f a' = .ok b → a = a') → l.Nodup → bs.Nodup)
  | [], _ => ⟨[], rfl, by simp, fun _ _ => List.nodup_nil⟩
  | a :: l, h => by
    obtain ⟨b, hb⟩ := h a (by simp)
    obtain ⟨bs, hbs, hmem, hnodup⟩ := mapM_ok (l := l) fun a' h' => h a' (by simp [h'])
    refine ⟨b :: bs, ?_, fun b' => ?_, fun hinj hl => ?_⟩
    · rw [List.mapM_cons, hb, hbs]
      rfl
    · rw [List.mem_cons, hmem, List.exists_mem_cons_iff, hb, Except.ok.injEq, eq_comm]
    · obtain ⟨hal, hl⟩ := List.nodup_cons.1 hl
      refine List.nodup_cons.2 ⟨fun hb' => ?_, hnodup (fun a₁ h₁ a₂ h₂ => hinj a₁ (by simp [h₁]) a₂
        (by simp [h₂])) hl⟩
      obtain ⟨a', ha', hfa'⟩ := (hmem b).1 hb'
      exact hal (hinj a (by simp) a' (by simp [ha']) b hb hfa' ▸ ha')

/-- The cities of a set, each once. -/
theorem Inv.answer [IntervalMap M ℤ ℕ] {db : CityDB M} (h : Inv db) {set : CitySet}
    (hset : db.Known set) (ts : List Token) : ∃ rc, db.answer ⟨ts, [set]⟩ = (.ok rc, ⟨ts, []⟩) ∧ rc.Nodup ∧
      ∀ c, c ∈ rc ↔ c ∈ db.cities set := by
  obtain ⟨rc, hrc, hmem, hnodup⟩ := mapM_ok (f := db.city) (l := set.sort (· ≤ ·)) fun k hk =>
    hset k ((Finset.mem_sort _).1 hk)
  refine ⟨rc, ?_, hnodup (fun k _ l _ c => h.city_inj) (Finset.sort_nodup _ _), fun c => ?_⟩
  · rw [← hrc]
    rfl
  · rw [hmem]
    simp only [Finset.mem_sort, CityDB.mem_cities]

namespace CityDB

variable [IntervalMap M ℤ ℕ] {db : CityDB M} {q : Str} {tokens : List Token} {s : Stacks}

theorem query_of_eval (hq : recursiveDecent q keywords = .ok tokens)
    (he : db.eval tokens db.toStacks = (.ok (), s)) :
    db.query q = ((db.answer s).1, { db with toStacks := (db.answer s).2 }) := by
  unfold query
  rw [hq]
  simp only [he]

theorem query_of_error {f : Fault} (hq : recursiveDecent q keywords = .ok tokens)
    (he : db.eval tokens db.toStacks = (.error f, s)) :
    db.query q = (.error f, { db with toStacks := s }) := by
  unfold query
  rw [hq]
  simp only [he]

end CityDB

section

variable {db db' : CityDB M} (hsame : ∀ c, db'.Entered c ↔ db.Entered c) {a : IndexAttribute}
include hsame

theorem Lowest.le_of_same (h : Lowest db a) (h' : Lowest db' a) : db.lowest a ≤ db'.lowest a := by
  rcases h'.eq with hmax | ⟨c, hc, heq⟩
  · rw [hmax]
    exact Int64.le_maxValue _
  · rw [heq]
    exact h.le ((hsame c).1 hc)

theorem Highest.le_of_same (h : Highest db a) (h' : Highest db' a) :
    db'.highest a ≤ db.highest a := by
  rcases h'.eq with hmin | ⟨c, hc, heq⟩
  · rw [hmin]
    exact Int64.minValue_le _
  · rw [heq]
    exact h.le ((hsame c).1 hc)

/-- The bounds depend on the cities alone. -/
theorem bounds_of_same [IntervalMap M ℤ ℕ] (h : Inv db) (h' : Inv db') (a : IndexAttribute) :
    db'.lowest a = db.lowest a ∧ db'.highest a = db.highest a :=
  have hsame' : ∀ c, db.Entered c ↔ db'.Entered c := fun c => (hsame c).symm
  ⟨Int64.le_antisymm (Lowest.le_of_same hsame' (h'.lowest a) (h.lowest a))
      (Lowest.le_of_same hsame (h.lowest a) (h'.lowest a)),
    Int64.le_antisymm (Highest.le_of_same hsame (h.highest a) (h'.highest a))
      (Highest.le_of_same hsame' (h'.highest a) (h.highest a))⟩

end

end CPPCodes.Cities
