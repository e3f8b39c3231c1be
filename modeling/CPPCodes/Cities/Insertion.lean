import CPPCodes.Cities.Leftovers
import Mathlib.Order.Bounds.Basic

/-!
# What insertion keeps

In every state that calls of `addCity`, `query` and `load` reach, the two maps, the two indexes and
the four bounds say the same (`Consistent`), and the sets on the result stack hold keys that the
maps know, so no query looks for a key that is not there. A city with a new name is entered as it
should be, but `addCity` then flows off its end without a value (`addCity_law_iff`).
-/

namespace CPPCodes.Cities

open Transition

variable {M : Type} [IntervalMap M ℤ ℕ] {db db' : CityDB M}

/-- The city is in `cityObjectDB`. -/
def CityDB.Holds (db : CityDB M) (c : City) : Prop := db.cityObjectDB[c.city]? = some c

/-- The keys `1` to `key` stand for the names one to one, the indexes have at each value the keys of
the cities whose range contains it, and the bounds are the extremes over the cities. -/
structure Consistent (db : CityDB M) : Prop where
  key : ∀ k, (∃ n, db.cityDB[k]? = some n) ↔ 1 ≤ k ∧ k ≤ db.key
  name : ∀ n, (∃ c, db.cityObjectDB[n]? = some c) ↔ ∃! k : ℕ, db.cityDB[k]? = some n
  own : ∀ {n : Str} {c}, db.cityObjectDB[n]? = some c → c.city = n
  index : ∀ a t k, k ∈ (db.index a).At t ↔
    ∃ n c, db.cityDB[k]? = some n ∧ db.cityObjectDB[n]? = some c ∧ (c.range a).Contains t
  lowest : ∀ a, (∃ c, db.Holds c) →
    IsLeast {v | ∃ c, db.Holds c ∧ v = (c.range a).1.toInt} (db.lowest a).toInt
  highest : ∀ a, (∃ c, db.Holds c) →
    IsGreatest {v | ∃ c, db.Holds c ∧ v = (c.range a).2.toInt} (db.highest a).toInt
  initial : ∀ a, (∀ c, ¬ db.Holds c) →
    db.lowest a = Int64.maxValue ∧ db.highest a = Int64.minValue

theorem Stored.isLeast (h : Stored db) (a : IndexAttribute) (hne : ∃ c, db.Holds c) :
    IsLeast {v | ∃ c, db.Holds c ∧ v = (c.range a).1.toInt} (db.lowest a).toInt := by
  have hle : ∀ {c}, db.Holds c → (db.lowest a).toInt ≤ (c.range a).1.toInt := fun {c} hc =>
    Int64.le_iff_toInt_le.1 ((h.lowest a).le ((h.entered c).2 hc))
  refine ⟨?_, fun v ⟨c, hc, hv⟩ => hv ▸ hle hc⟩
  rcases (h.lowest a).eq with hmax | ⟨c, hc, heq⟩
  · obtain ⟨c, hc⟩ := hne
    refine ⟨c, hc, le_antisymm (hle hc) ?_⟩
    rw [hmax]
    exact Int64.le_iff_toInt_le.1 (Int64.le_maxValue _)
  · exact ⟨c, (h.entered c).1 hc, congrArg Int64.toInt heq⟩

theorem Stored.isGreatest (h : Stored db) (a : IndexAttribute) (hne : ∃ c, db.Holds c) :
    IsGreatest {v | ∃ c, db.Holds c ∧ v = (c.range a).2.toInt} (db.highest a).toInt := by
  have hle : ∀ {c}, db.Holds c → (c.range a).2.toInt ≤ (db.highest a).toInt := fun {c} hc =>
    Int64.le_iff_toInt_le.1 ((h.highest a).le ((h.entered c).2 hc))
  refine ⟨?_, fun v ⟨c, hc, hv⟩ => hv ▸ hle hc⟩
  rcases (h.highest a).eq with hmin | ⟨c, hc, heq⟩
  · obtain ⟨c, hc⟩ := hne
    refine ⟨c, hc, le_antisymm ?_ (hle hc)⟩
    rw [hmin]
    exact Int64.le_iff_toInt_le.1 (Int64.minValue_le _)
  · exact ⟨c, (h.entered c).1 hc, congrArg Int64.toInt heq⟩

theorem Stored.consistent (h : Stored db) : Consistent db where
  key := h.key
  name n := by
    constructor
    · rintro ⟨c, hc⟩
      obtain ⟨k, hk⟩ := h.keyed hc
      exact ⟨k, hk, fun l hl => h.inj hl hk⟩
    · rintro ⟨k, hk, -⟩
      exact h.object hk
  own := h.name
  index a t k := by
    rw [h.index]
    simp only [CityDB.city_eq_ok]
    constructor
    · rintro ⟨c, ⟨n, hn, hc⟩, ht⟩
      exact ⟨n, c, hn, hc, ht⟩
    · rintro ⟨n, c, hn, hc, ht⟩
      exact ⟨c, ⟨n, hn, hc⟩, ht⟩
  lowest := h.isLeast
  highest := h.isGreatest
  initial a hno := by
    constructor
    · rcases (h.lowest a).eq with hmax | ⟨c, hc, -⟩
      · exact hmax
      · exact absurd ((h.entered c).1 hc) (hno c)
    · rcases (h.highest a).eq with hmin | ⟨c, hc, -⟩
      · exact hmin
      · exact absurd ((h.entered c).1 hc) (hno c)

/-- Every set on the result stack has known keys only. -/
def KnownResults (db : CityDB M) (s : Stacks) : Prop := ∀ set ∈ s.resultStack, db.Known set

theorem queryKey_known (h : Inv db) {k op v : Token} {set : CitySet}
    (hq : db.queryKey k op v = .ok set) : db.Known set := by
  rw [CityDB.queryKey_eq] at hq
  cases hv : stoll v.value with
  | error f =>
    rw [hv] at hq
    cases hq
  | ok val =>
    rw [hv] at hq
    cases hb : bounds op.type (db.lowest (attr k)) (db.highest (attr k)) val with
    | error f =>
      have hq : (bounds op.type (db.lowest (attr k)) (db.highest (attr k)) val >>= fun r =>
        pure (db.inRange (attr k) r) : Except Fault CitySet) = .ok set := hq
      rw [hb] at hq
      cases hq
    | ok r =>
      have hq : (bounds op.type (db.lowest (attr k)) (db.highest (attr k)) val >>= fun r =>
        pure (db.inRange (attr k) r) : Except Fault CitySet) = .ok set := hq
      rw [hb] at hq
      obtain rfl := Except.ok.inj hq
      exact h.known_inRange _ r

theorem queryOperator_known (h : Inv db) (op : Token) {s : Stacks} (hs : KnownResults db s) :
    KnownResults db (db.queryOperator op s).2 := by
  obtain ⟨ts, rs⟩ := s
  unfold CityDB.queryOperator
  split_ifs with hop
  swap
  · exact hs
  rcases ts with _ | ⟨l, _ | ⟨r, ts⟩⟩
  · exact hs
  · exact hs
  · simp only
    generalize (if l.isKeyWord = true then (l, r) else (r, l)) = kv
    split_ifs with hassert hnum
    · cases hq : db.queryKey kv.1 op kv.2 with
      | error f => exact hs
      | ok set =>
        intro u hu
        rcases List.mem_cons.1 hu with rfl | hu
        · exact queryKey_known h hq
        · exact hs u hu
    · exact hs
    · exact hs

omit [IntervalMap M ℤ ℕ] in
theorem resultJoin_known (op : Token) {s : Stacks} (hs : KnownResults db s) :
    KnownResults db (CityDB.resultJoin op s).2 := by
  unfold CityDB.resultJoin
  split
  · next r l rs hrs =>
    have hl : db.Known l := hs l (by simp [hrs])
    have hr : db.Known r := hs r (by simp [hrs])
    have hrest : ∀ u ∈ rs, db.Known u := fun u hu => hs u (by simp [hrs, hu])
    split
    · intro u hu
      rcases List.mem_cons.1 hu with rfl | hu
      · exact fun k hk => hl k (Finset.mem_inter.1 hk).1
      · exact hrest u hu
    · intro u hu
      rcases List.mem_cons.1 hu with rfl | hu
      · exact fun k hk => (Finset.mem_union.1 hk).elim (hl k) (hr k)
      · exact hrest u hu
    · exact hrest
  · exact hs

theorem evalToken_known (h : Inv db) (e : Token) {s : Stacks} (hs : KnownResults db s) :
    KnownResults db (db.evalToken e s).2 := by
  unfold CityDB.evalToken
  split_ifs
  · exact hs
  · split
    all_goals first
      | exact resultJoin_known e hs
      | exact queryOperator_known h e hs
      | exact hs

theorem eval_known (h : Inv db) : ∀ (tokens : List Token) {s : Stacks}, KnownResults db s →
    KnownResults db (db.eval tokens s).2
  | [], _, hs => hs
  | e :: tokens, s, hs => by
    have he := evalToken_known h e hs
    unfold CityDB.eval
    split
    · next s' hs' =>
      rw [hs'] at he
      exact eval_known h tokens he
    · next f s' hs' =>
      rw [hs'] at he
      exact he

theorem query_known (h : Inv db) (hs : KnownResults db db.toStacks) {q : Str}
    {r : Except Fault (List City)} (hq : db.query q = (r, db')) (hgo : GoesOn r) :
    KnownResults db' db'.toStacks := by
  rcases query_cases hq hgo with ⟨tokens, s, -, -, ⟨rc, set, -, -, rfl⟩ | ⟨f, -, he, rfl⟩⟩
  · intro u hu
    simp at hu
  · have hknown := eval_known h tokens hs
    rw [he] at hknown
    exact hknown

/-- `db'` is `db` with the city under its name and under the next key. -/
structure Adds (db : CityDB M) (c : City) (db' : CityDB M) : Prop where
  sameStacks : db'.toStacks = db.toStacks
  objects : ∀ n : Str, db'.cityObjectDB[n]? = if n = c.city then some c else db.cityObjectDB[n]?
  key : db'.key = db.key + 1
  keys : ∀ k : ℕ, db'.cityDB[k]? = if k = db.key + 1 then some c.city else db.cityDB[k]?
  index : ∀ a t k, k ∈ (db'.index a).At t ↔
    k ∈ (db.index a).At t ∨ (k = db.key + 1 ∧ (c.range a).Contains t)

theorem addCity_of_taken {c : City} (hc : db.cityObjectDB[c.city]? ≠ none) :
    db.addCity c = (some false, db) := by
  unfold CityDB.addCity
  obtain ⟨d, hd⟩ := Option.ne_none_iff_exists'.1 hc
  rw [hd]

theorem addCity_of_new (h : Inv db) {c : City} (hc : db.cityObjectDB[c.city]? = none) :
    (db.addCity c).1 = none ∧ Adds db c (db.addCity c).2 := by
  have he := enter_enteredAs (h.insert hc) c.city c
  have hadd : db.addCity c = (none, CityDB.enter c.city c
      { db with cityObjectDB := db.cityObjectDB.insertIfNew c.city c }) := by
    unfold CityDB.addCity
    rw [hc]
  rw [hadd]
  refine ⟨rfl, he.sameStacks, fun n => ?_, he.key, he.keys, fun a t k => ?_⟩
  · rw [he.objects]
    exact getElem?_putNew db.cityObjectDB hc n c
  · rw [he.index]
    cases a <;> rfl

theorem Adds.known {c : City} (ha : Adds db c db') (h : Inv db)
    (hc : db.cityObjectDB[c.city]? = none) {set : CitySet} (hset : db.Known set) :
    db'.Known set := by
  intro k hk
  obtain ⟨d, hd⟩ := hset k hk
  obtain ⟨n, hn, hobj⟩ := CityDB.city_eq_ok.1 hd
  refine ⟨d, CityDB.city_eq_ok.2 ⟨n, ?_, ?_⟩⟩
  · rw [ha.keys, if_neg ?_, hn]
    rintro rfl
    cases h.next_key.symm.trans hn
  · rw [ha.objects, if_neg ?_, hobj]
    rintro rfl
    cases hc.symm.trans hobj

theorem CityStep.known {a : Act M} (h : Stored db) (hs : KnownResults db db.toStacks)
    (hstep : CityStep db a db') : KnownResults db' db'.toStacks := by
  cases a with
  | addCity c =>
    obtain rfl := hstep
    by_cases hc : db.cityObjectDB[c.city]? = none
    · obtain ⟨-, ha⟩ := addCity_of_new h.toInv hc
      rw [ha.sameStacks]
      exact fun set hset => ha.known h.toInv hc (hs set hset)
    · rw [addCity_of_taken hc]
      exact hs
  | load saved =>
    obtain ⟨hsaved, hload⟩ := hstep
    have hkey := load_key hload
    obtain ⟨db₁, hload₁, -, hstacks, -⟩ := load_save id id (fun _ => rfl) hsaved h.toInv hkey
    obtain rfl := Except.ok.inj (hload₁.symm.trans hload)
    rw [hstacks]
    -- there was no key before, so the sets are empty
    intro set hset k hk
    obtain ⟨d, hd⟩ := hs set hset k hk
    obtain ⟨n, hn, -⟩ := CityDB.city_eq_ok.1 hd
    have hle := (h.key k).1 ⟨n, hn⟩
    omega
  | query q =>
    obtain ⟨r, hq, hgo⟩ := hstep
    exact query_known h.toInv hs hq hgo

theorem reach_stored (h : Reach CityStep .new db) :
    Stored db ∧ KnownResults db db.toStacks := by
  obtain ⟨⟨hI, -⟩, hk⟩ := h.invariant (I := fun db : CityDB M =>
      (Stored db ∧ ProperStack db.toStacks) ∧ KnownResults db db.toStacks)
    (fun _ _ _ hI hs => ⟨hs.inv hI.1, hs.known hI.1.1 hI.2⟩)
    ⟨start_inv, fun _ hset => by cases hset⟩
  exact ⟨hI, hk⟩

/-- The loop of `query` over the result finds every key in `cityDB` and its name in
`cityObjectDB`. -/
def FindsKeys (db : CityDB M) (q : Str) : Prop :=
  ∀ tokens s set, recursiveDecent q keywords = .ok tokens →
    db.eval tokens db.toStacks = (.ok (), s) → s.resultStack = [set] →
    ∀ k ∈ set, ∃ n c, db.cityDB[k]? = some n ∧ db.cityObjectDB[n]? = some c

theorem findsKeys (h : Inv db) (hs : KnownResults db db.toStacks) (q : Str) : FindsKeys db q := by
  intro tokens s set _ he hset k hk
  have hknown := eval_known h tokens hs
  rw [he] at hknown
  obtain ⟨c, hc⟩ := hknown set (by simp [hset]) k hk
  obtain ⟨n, hn, hobj⟩ := CityDB.city_eq_ok.1 hc
  exact ⟨n, c, hn, hobj⟩

/-- A call for a name that is there returns `false` and changes nothing; another adds the city and
returns `true`. -/
structure AddCityLaw (db : CityDB M) (c : City) : Prop where
  taken : db.cityObjectDB[c.city]? ≠ none → db.addCity c = (some false, db)
  added : db.cityObjectDB[c.city]? = none →
    (db.addCity c).1 = some true ∧ Adds db c (db.addCity c).2

/-- In every state the database is consistent and no query looks for a key that is not there. A call
of `addCity` reports what it did exactly when the name was there before; when it was not, the city
is added all the same, and the call returns no value. -/
theorem addCity_law_iff : ∀ db : CityDB M, Reach CityStep .new db →
    Consistent db ∧ (∀ q, FindsKeys db q) ∧
    ∀ c, (AddCityLaw db c ↔ db.cityObjectDB[c.city]? ≠ none) ∧
      (db.cityObjectDB[c.city]? = none →
        (db.addCity c).1 = none ∧ Adds db c (db.addCity c).2) := by
  intro db hr
  obtain ⟨h, hs⟩ := reach_stored hr
  refine ⟨h.consistent, findsKeys h.toInv hs, fun c => ⟨⟨fun hlaw hc => ?_, fun hc => ?_⟩, ?_⟩⟩
  · have htrue := (hlaw.added hc).1
    rw [(addCity_of_new h.toInv hc).1] at htrue
    cases htrue
  · exact ⟨fun _ => addCity_of_taken hc, fun hnone => absurd hnone hc⟩
  · exact addCity_of_new h.toInv

theorem addCity_law_new : Consistent ((CityDB.new : CityDB (Segments ℤ ℕ)).addCity pune).2 ∧
    AddCityLaw ((CityDB.new : CityDB (Segments ℤ ℕ)).addCity pune).2 pune := by
  obtain ⟨-, ha⟩ := addCity_of_new (M := Segments ℤ ℕ) (c := pune) inv_new (by
    simp [CityDB.new])
  have hr : Reach CityStep .new ((CityDB.new : CityDB (Segments ℤ ℕ)).addCity pune).2 :=
    (Reach.refl _).tail (i := .addCity pune) rfl
  obtain ⟨hcons, -, hlaw⟩ := addCity_law_iff _ hr
  exact ⟨hcons, (hlaw pune).1.2 (by rw [ha.objects, if_pos rfl]; simp)⟩

/-- The first city. -/
theorem not_addCity_law : ¬ ∀ db : CityDB (Segments ℤ ℕ), Reach CityStep .new db →
    ∀ c, AddCityLaw db c := by
  intro hall
  have hnone : (CityDB.new : CityDB (Segments ℤ ℕ)).cityObjectDB[pune.city]? = none := by
    simp [CityDB.new]
  have htrue := ((hall .new (.refl _) pune).added hnone).1
  rw [(addCity_of_new inv_new hnone).1] at htrue
  cases htrue

end CPPCodes.Cities
