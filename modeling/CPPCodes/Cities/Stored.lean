import CPPCodes.Cities.CityDB

/-!
# What the database stores

The maps, the indexes and the bounds agree: a key stands for one name, a name for one city, an index
has at each point the keys of the cities whose range contains it, and the bounds are those of the
cities stored (`Inv`). A city that is entered keeps this, whether `addCity` or `load` enters it, so
the bounds and the answers of the indexes depend on the stored cities alone.
-/

namespace CPPCodes.Cities

open Std (ExtTreeMap)

/-- The value is in the range. -/
def Range.Contains (r : Range) (t : ℤ) : Prop := r.1.toInt ≤ t ∧ t < r.2.toInt

def City.range (c : City) : IndexAttribute → Range
  | .TEMPERATURE => c.temp
  | .HUMIDITY => c.hum

namespace Index

variable {M : Type} [IntervalMap M ℤ ℕ]

/-- The keys that an index has at a point. -/
def At (x : Index M) (t : ℤ) : CitySet := IntervalMap.value x.impl t

theorem at_new (attr : IndexAttribute) (t : ℤ) : (new attr : Index M).At t = ∅ :=
  IntervalMap.value_empty t

theorem mem_at_addCity (x : Index M) (key k : ℕ) (low high : Int64) (t : ℤ) :
    k ∈ (x.addCity key low high).At t ↔
      k ∈ x.At t ∨ (k = key ∧ Range.Contains (low, high) t) := by
  unfold At addCity Range.Contains
  rw [IntervalMap.mem_value_add, Finset.mem_singleton]
  tauto

theorem mem_foldl_union {k : ℕ} : ∀ (ss : List CitySet) (s : CitySet),
    k ∈ ss.foldl (· ∪ ·) s ↔ k ∈ s ∨ ∃ u ∈ ss, k ∈ u
  | [], s => by simp
  | u :: ss, s => by
    rw [List.foldl_cons, mem_foldl_union ss, Finset.mem_union]
    simp only [List.mem_cons, exists_eq_or_imp, or_assoc]

theorem mem_query (x : Index M) (low high : Int64) (k : ℕ) :
    k ∈ x.query low high ↔ ∃ t, Range.Contains (low, high) t ∧ k ∈ x.At t := by
  unfold query At Range.Contains
  rw [mem_foldl_union, IntervalMap.mem_segments]
  simp [and_assoc]

end Index

namespace CityDB

variable {M : Type}

def index (db : CityDB M) : IndexAttribute → Index M
  | .TEMPERATURE => db.tempIndex
  | .HUMIDITY => db.humIndex

def lowest (db : CityDB M) : IndexAttribute → Int64
  | .TEMPERATURE => db.lowestTemp
  | .HUMIDITY => db.lowestHum

def highest (db : CityDB M) : IndexAttribute → Int64
  | .TEMPERATURE => db.highestTemp
  | .HUMIDITY => db.highestHum

theorem city_eq_ok {db : CityDB M} {k : ℕ} {c : City} :
    db.city k = .ok c ↔ ∃ n, db.cityDB[k]? = some n ∧ db.cityObjectDB[n]? = some c := by
  unfold city
  cases db.cityDB[k]? with
  | none => simp
  | some n => cases hc : db.cityObjectDB[n]? <;> simp [hc]

/-- A city that has a key. -/
def Entered (db : CityDB M) (c : City) : Prop := ∃ k, db.city k = .ok c

end CityDB

variable {M : Type} [IntervalMap M ℤ ℕ]

/-- The bound is the least of the lower ends of the cities, or what it was at first. -/
structure Lowest (db : CityDB M) (a : IndexAttribute) : Prop where
  le : ∀ {c}, db.Entered c → db.lowest a ≤ (c.range a).1
  eq : db.lowest a = Int64.maxValue ∨ ∃ c, db.Entered c ∧ db.lowest a = (c.range a).1

structure Highest (db : CityDB M) (a : IndexAttribute) : Prop where
  le : ∀ {c}, db.Entered c → (c.range a).2 ≤ db.highest a
  eq : db.highest a = Int64.minValue ∨ ∃ c, db.Entered c ∧ db.highest a = (c.range a).2

/-- The maps, the indexes and the bounds agree. -/
structure Inv (db : CityDB M) : Prop where
  name : ∀ {n : Str} {c}, db.cityObjectDB[n]? = some c → c.city = n
  key : ∀ k, (∃ n, db.cityDB[k]? = some n) ↔ 1 ≤ k ∧ k ≤ db.key
  object : ∀ {k : ℕ} {n}, db.cityDB[k]? = some n → ∃ c, db.cityObjectDB[n]? = some c
  inj : ∀ {k l : ℕ} {n}, db.cityDB[k]? = some n → db.cityDB[l]? = some n → k = l
  index : ∀ a t k, k ∈ (db.index a).At t ↔ ∃ c, db.city k = .ok c ∧ (c.range a).Contains t
  lowest : ∀ a, Lowest db a
  highest : ∀ a, Highest db a

theorem inv_new : Inv (CityDB.new : CityDB M) where
  name h := by simp [CityDB.new] at h
  key k := by simp [CityDB.new]; omega
  object h := by simp [CityDB.new] at h
  inj h := by simp [CityDB.new] at h
  index a t k := by
    have hat : ((CityDB.new : CityDB M).index a).At t = ∅ := by cases a <;> exact Index.at_new _ t
    rw [hat]
    simp [CityDB.city_eq_ok, CityDB.new]
  lowest a := ⟨fun ⟨k, h⟩ => by simp [CityDB.city_eq_ok, CityDB.new] at h, .inl (by cases a <;> rfl)⟩
  highest a := ⟨fun ⟨k, h⟩ => by simp [CityDB.city_eq_ok, CityDB.new] at h, .inl (by cases a <;> rfl)⟩

/-- A database with the same keys and indexes, and the same cities under the keys. -/
theorem Inv.of_same {db db' : CityDB M} (h : Inv db) (hkeys : db'.cityDB = db.cityDB)
    (hkey : db'.key = db.key) (hindex : ∀ a, db'.index a = db.index a)
    (hlowest : ∀ a, db'.lowest a = db.lowest a) (hhighest : ∀ a, db'.highest a = db.highest a)
    (hcity : ∀ k c, db'.city k = .ok c ↔ db.city k = .ok c)
    (hname : ∀ {n : Str} {c}, db'.cityObjectDB[n]? = some c → c.city = n)
    (hobject : ∀ {k : ℕ} {n}, db.cityDB[k]? = some n → ∃ c, db'.cityObjectDB[n]? = some c) :
    Inv db' where
  name := hname
  key := by
    rw [hkeys, hkey]
    exact h.key
  object := by
    rw [hkeys]
    exact hobject
  inj := by
    rw [hkeys]
    exact h.inj
  index a t k := by
    rw [hindex, h.index]
    simp only [hcity]
  lowest a := by
    constructor
    · intro c hc
      rw [hlowest]
      exact (h.lowest a).le (hc.imp fun k => (hcity k c).1)
    · rw [hlowest]
      exact (h.lowest a).eq.imp_right fun ⟨c, hc, heq⟩ => ⟨c, hc.imp fun k => (hcity k c).2, heq⟩
  highest a := by
    constructor
    · intro c hc
      rw [hhighest]
      exact (h.highest a).le (hc.imp fun k => (hcity k c).1)
    · rw [hhighest]
      exact (h.highest a).eq.imp_right fun ⟨c, hc, heq⟩ => ⟨c, hc.imp fun k => (hcity k c).2, heq⟩

/-- Before any city has a key, the cities may be replaced by others. -/
theorem Inv.objects {db : CityDB M} (h : Inv db) (hkey : db.key = 0)
    (objects : ExtTreeMap Str City)
    (hm : ∀ {n : Str} {c : City}, objects[n]? = some c → c.city = n) :
    Inv { db with cityObjectDB := objects } := by
  have hnone : ∀ (k : ℕ) n, db.cityDB[k]? ≠ some n := fun k n hk => by
    have hle := (h.key k).1 ⟨n, hk⟩
    omega
  have hcity : ∀ (m : ExtTreeMap Str City) k c,
      CityDB.city { db with cityObjectDB := m } k ≠ .ok c := by
    intro m k c hc
    obtain ⟨n, hn, -⟩ := CityDB.city_eq_ok.1 hc
    exact hnone k n hn
  refine h.of_same rfl rfl (fun a => ?_) (fun a => ?_) (fun a => ?_)
    (fun k c => iff_of_false (hcity objects k c) (hcity db.cityObjectDB k c)) hm
    fun hk => absurd hk (hnone _ _)
  all_goals cases a <;> rfl

/-- What `enter` does to the maps and the indexes. -/
structure EnteredAs (db : CityDB M) (n : Str) (c : City) (db' : CityDB M) : Prop where
  sameStacks : db'.toStacks = db.toStacks
  objects : db'.cityObjectDB = db.cityObjectDB
  key : db'.key = db.key + 1
  keys : ∀ k, db'.cityDB[k]? = if k = db.key + 1 then some n else db.cityDB[k]?
  index : ∀ a t k, k ∈ (db'.index a).At t ↔
    k ∈ (db.index a).At t ∨ (k = db.key + 1 ∧ (c.range a).Contains t)
  lowest : ∀ a, db'.lowest a = if db.lowest a > (c.range a).1 then (c.range a).1 else db.lowest a
  highest : ∀ a,
    db'.highest a = if db.highest a < (c.range a).2 then (c.range a).2 else db.highest a

theorem Inv.next_key {db : CityDB M} (h : Inv db) : db.cityDB[db.key + 1]? = none := by
  cases hn : db.cityDB[db.key + 1]? with
  | none => rfl
  | some n =>
    have hle := ((h.key (db.key + 1)).1 ⟨n, hn⟩).2
    omega

theorem enter_enteredAs {db : CityDB M} (h : Inv db) (n : Str) (c : City) :
    EnteredAs db n c (db.enter n c) where
  sameStacks := rfl
  objects := rfl
  key := rfl
  keys k := getElem?_putNew db.cityDB h.next_key k n
  index a t k := by cases a <;> exact Index.mem_at_addCity _ _ _ _ _ _
  lowest a := by cases a <;> rfl
  highest a := by cases a <;> rfl

namespace EnteredAs

variable {db db' : CityDB M} {n : Str} {c : City}

theorem city (he : EnteredAs db n c db') (hc : db.cityObjectDB[n]? = some c) (k : ℕ) :
    db'.city k = if k = db.key + 1 then .ok c else db.city k := by
  unfold CityDB.city
  rw [he.keys, he.objects]
  split_ifs
  · simp only [hc]
  · rfl

theorem entered (he : EnteredAs db n c db') (h : Inv db) (hc : db.cityObjectDB[n]? = some c)
    (d : City) : db'.Entered d ↔ db.Entered d ∨ d = c := by
  unfold CityDB.Entered
  constructor
  · rintro ⟨k, hk⟩
    rw [he.city hc] at hk
    split_ifs at hk
    · exact .inr (Except.ok.inj hk).symm
    · exact .inl ⟨k, hk⟩
  · rintro (⟨k, hk⟩ | rfl)
    · refine ⟨k, ?_⟩
      rw [he.city hc, if_neg ?_, hk]
      rintro rfl
      obtain ⟨m, hm, -⟩ := CityDB.city_eq_ok.1 hk
      cases h.next_key.symm.trans hm
    · exact ⟨db.key + 1, by rw [he.city hc, if_pos rfl]⟩

/-- A bound that one more city may move: `r` is the order, or the reverse one. -/
theorem bound_entered (he : EnteredAs db n c db') (h : Inv db) (hc : db.cityObjectDB[n]? = some c)
    {r : Int64 → Int64 → Prop} (hrefl : ∀ x, r x x) (htrans : ∀ {x y z}, r x y → r y z → r x z)
    {f : City → Int64} {b b' start : Int64} (hle : ∀ {d}, db.Entered d → r b (f d))
    (heq : b = start ∨ ∃ d, db.Entered d ∧ b = f d)
    (hb' : (b' = f c ∧ r (f c) b) ∨ (b' = b ∧ r b (f c))) :
    (∀ {d}, db'.Entered d → r b' (f d)) ∧ (b' = start ∨ ∃ d, db'.Entered d ∧ b' = f d) := by
  constructor
  · intro d hd
    rcases (he.entered h hc d).1 hd with hd | rfl
    · rcases hb' with ⟨rfl, hlt⟩ | ⟨rfl, -⟩
      · exact htrans hlt (hle hd)
      · exact hle hd
    · rcases hb' with ⟨rfl, -⟩ | ⟨rfl, hlt⟩
      · exact hrefl _
      · exact hlt
  · rcases hb' with ⟨rfl, -⟩ | ⟨rfl, -⟩
    · exact .inr ⟨c, (he.entered h hc c).2 (.inr rfl), rfl⟩
    · exact heq.imp_right fun ⟨d, hd, heq⟩ => ⟨d, (he.entered h hc d).2 (.inl hd), heq⟩

theorem inv_lowest (he : EnteredAs db n c db') (h : Inv db) (hc : db.cityObjectDB[n]? = some c)
    (a : IndexAttribute) : Lowest db' a := by
  obtain ⟨hle, heq⟩ := h.lowest a
  have hb : (db'.lowest a = (c.range a).1 ∧ (c.range a).1 ≤ db.lowest a) ∨
      (db'.lowest a = db.lowest a ∧ db.lowest a ≤ (c.range a).1) := by
    rw [he.lowest]
    split_ifs with hlt
    · exact .inl ⟨rfl, Int64.le_of_lt hlt⟩
    · exact .inr ⟨rfl, Int64.not_lt.1 hlt⟩
  obtain ⟨hle', heq'⟩ := he.bound_entered h hc Int64.le_refl Int64.le_trans hle heq hb
  exact ⟨hle', heq'⟩

theorem inv_highest (he : EnteredAs db n c db') (h : Inv db) (hc : db.cityObjectDB[n]? = some c)
    (a : IndexAttribute) : Highest db' a := by
  obtain ⟨hle, heq⟩ := h.highest a
  have hb : (db'.highest a = (c.range a).2 ∧ db.highest a ≤ (c.range a).2) ∨
      (db'.highest a = db.highest a ∧ (c.range a).2 ≤ db.highest a) := by
    rw [he.highest]
    split_ifs with hlt
    · exact .inl ⟨rfl, Int64.le_of_lt hlt⟩
    · exact .inr ⟨rfl, Int64.not_lt.1 hlt⟩
  obtain ⟨hle', heq'⟩ := he.bound_entered h hc (r := fun x y => y ≤ x) Int64.le_refl
    (fun hxy hyz => Int64.le_trans hyz hxy) hle heq hb
  exact ⟨hle', heq'⟩

theorem inv (he : EnteredAs db n c db') (h : Inv db) (hc : db.cityObjectDB[n]? = some c)
    (hn : ∀ k : ℕ, db.cityDB[k]? ≠ some n) : Inv db' where
  name hm := h.name (he.objects ▸ hm)
  key k := by
    rw [he.keys, he.key]
    split_ifs with hk
    · exact iff_of_true ⟨n, rfl⟩ (by omega)
    · rw [h.key]
      omega
  object {k m} hm := by
    rw [he.keys] at hm
    rw [he.objects]
    split_ifs at hm
    · exact ⟨c, Option.some.inj hm ▸ hc⟩
    · exact h.object hm
  inj {k l m} hk hl := by
    rw [he.keys] at hk hl
    split_ifs at hk hl with h1 h2 h3
    · omega
    · exact absurd ((Option.some.inj hk) ▸ hl) (hn l)
    · exact absurd ((Option.some.inj hl) ▸ hk) (hn k)
    · exact h.inj hk hl
  index a t k := by
    rw [he.index, h.index, he.city hc]
    constructor
    · rintro (⟨d, hd, ht⟩ | ⟨rfl, ht⟩)
      · refine ⟨d, ?_, ht⟩
        rw [if_neg ?_, hd]
        rintro rfl
        obtain ⟨m, hm, -⟩ := CityDB.city_eq_ok.1 hd
        cases h.next_key.symm.trans hm
      · exact ⟨c, if_pos rfl, ht⟩
    · rintro ⟨d, hd, ht⟩
      split_ifs at hd with hk
      · exact .inr ⟨hk, Except.ok.inj hd ▸ ht⟩
      · exact .inl ⟨d, hd, ht⟩
  lowest := he.inv_lowest h hc
  highest := he.inv_highest h hc

end EnteredAs

/-- The maps, the indexes and the bounds agree, and every city has a key. -/
structure Stored (db : CityDB M) : Prop extends Inv db where
  keyed : ∀ {n : Str} {c}, db.cityObjectDB[n]? = some c → ∃ k : ℕ, db.cityDB[k]? = some n

theorem Stored.entered {db : CityDB M} (h : Stored db) (c : City) :
    db.Entered c ↔ db.cityObjectDB[c.city]? = some c := by
  constructor
  · rintro ⟨k, hk⟩
    obtain ⟨n, -, hn⟩ := CityDB.city_eq_ok.1 hk
    rw [h.name hn]
    exact hn
  · intro hc
    obtain ⟨k, hk⟩ := h.keyed hc
    exact ⟨k, CityDB.city_eq_ok.2 ⟨_, hk, hc⟩⟩

theorem stored_new : Stored (CityDB.new : CityDB M) where
  toInv := inv_new
  keyed h := by simp [CityDB.new] at h

section AddCity

variable {db : CityDB M} {c : City}

/-- The database before the new city has a key. -/
theorem Inv.insert (h : Inv db) (hc : db.cityObjectDB[c.city]? = none) :
    Inv { db with cityObjectDB := db.cityObjectDB.insertIfNew c.city c } := by
  have hobj : ∀ n : Str, (db.cityObjectDB.insertIfNew c.city c)[n]?
      = if n = c.city then some c else db.cityObjectDB[n]? :=
    fun n => getElem?_putNew db.cityObjectDB hc n c
  have hcity : ∀ k d, CityDB.city { db with
      cityObjectDB := db.cityObjectDB.insertIfNew c.city c } k = .ok d ↔ db.city k = .ok d := by
    intro k d
    simp only [CityDB.city_eq_ok, hobj]
    refine exists_congr fun n => and_congr_right fun hn => ?_
    obtain ⟨e, he⟩ := h.object hn
    rw [if_neg ?_]
    rintro rfl
    cases hc.symm.trans he
  refine h.of_same rfl rfl (fun a => ?_) (fun a => ?_) (fun a => ?_) hcity (fun {n d} hd => ?_)
    fun {k n} hn => ?_
  iterate 3 cases a <;> rfl
  · rw [hobj] at hd
    split_ifs at hd with hn
    · rw [hn, Option.some.inj hd]
    · exact h.name hd
  · obtain ⟨d, hd⟩ := h.object hn
    simp only [hobj]
    split_ifs
    · exact ⟨c, rfl⟩
    · exact ⟨d, hd⟩

theorem Stored.addCity (h : Stored db) (c : City) :
    Stored (db.addCity c).2 ∧ (db.addCity c).2.toStacks = db.toStacks ∧
      ∀ n : Str, (db.addCity c).2.cityObjectDB[n]?
        = if n = c.city ∧ db.cityObjectDB[n]? = none then some c else db.cityObjectDB[n]? := by
  unfold CityDB.addCity
  cases hc : db.cityObjectDB[c.city]? with
  | some d =>
    refine ⟨h, rfl, fun n => ?_⟩
    rw [if_neg]
    rintro ⟨rfl, hn⟩
    cases hn.symm.trans hc
  | none =>
    have hobj : ∀ n : Str, (db.cityObjectDB.insertIfNew c.city c)[n]?
        = if n = c.city then some c else db.cityObjectDB[n]? :=
      fun n => getElem?_putNew db.cityObjectDB hc n c
    have hI := h.toInv.insert hc
    have he := enter_enteredAs hI c.city c
    have hself : (db.cityObjectDB.insertIfNew c.city c)[c.city]? = some c := by
      rw [hobj, if_pos rfl]
    have hnew : ∀ k : ℕ, db.cityDB[k]? ≠ some c.city := by
      intro k hk
      obtain ⟨d, hd⟩ := h.object hk
      cases hc.symm.trans hd
    refine ⟨⟨he.inv hI hself hnew, fun {n d} hd => ?_⟩, rfl, fun n => ?_⟩
    · have hd : (db.cityObjectDB.insertIfNew c.city c)[n]? = some d := hd
      have hlast : db.cityDB[db.key + 1]? = none := h.toInv.next_key
      simp only [he.keys]
      rw [hobj] at hd
      split_ifs at hd with hn
      · exact ⟨db.key + 1, by rw [if_pos rfl, hn]⟩
      · obtain ⟨k, hk⟩ := h.keyed hd
        refine ⟨k, ?_⟩
        rw [if_neg ?_]
        · exact hk
        · rintro rfl
          cases hlast.symm.trans hk
    · refine (hobj n).trans ?_
      by_cases hn : n = c.city
      · subst hn
        rw [if_pos rfl, if_pos ⟨rfl, hc⟩]
      · rw [if_neg hn, if_neg fun h' => hn h'.1]

end AddCity

/-- The database after the calls of `addCity`. -/
def build (cities : List City) : CityDB M := cities.foldl (fun db c => (db.addCity c).2) .new

theorem foldl_addCity (cities : List City) : ∀ {db : CityDB M}, Stored db →
    Stored (cities.foldl (fun db c => (db.addCity c).2) db) ∧
      (cities.foldl (fun db c => (db.addCity c).2) db).toStacks = db.toStacks := by
  induction cities with
  | nil => exact fun h => ⟨h, rfl⟩
  | cons c cities ih =>
    intro db h
    obtain ⟨h', hs, -⟩ := h.addCity c
    obtain ⟨h'', hs'⟩ := ih h'
    exact ⟨h'', hs'.trans hs⟩

theorem stored_build (cities : List City) :
    Stored (build cities : CityDB M) ∧ (build cities : CityDB M).toStacks = ⟨[], []⟩ :=
  foldl_addCity cities stored_new

/-- Cities of different names are all stored. -/
theorem build_stored {cities : List City} (hnodup : (cities.map City.city).Nodup) (x : City) :
    (build cities : CityDB M).cityObjectDB[x.city]? = some x ↔ x ∈ cities := by
  induction cities using List.reverseRecOn generalizing x with
  | nil => simp [build, CityDB.new]
  | append_singleton cities c ih =>
    rw [List.map_append, List.nodup_append] at hnodup
    obtain ⟨hnodup, -, hne⟩ := hnodup
    have ih := ih hnodup
    have hstored := (stored_build (M := M) cities).1
    have hnew : (build cities : CityDB M).cityObjectDB[c.city]? = none := by
      by_contra hsome
      obtain ⟨d, hd⟩ := Option.ne_none_iff_exists'.1 hsome
      have hname := hstored.name hd
      rw [← hname, ih] at hd
      exact hne d.city (List.mem_map_of_mem hd) c.city (by simp) hname
    have hbuild : (build (cities ++ [c]) : CityDB M) = ((build cities : CityDB M).addCity c).2 :=
      List.foldl_append
    obtain ⟨-, -, hobj⟩ := hstored.addCity c
    rw [hbuild, hobj, List.mem_append, List.mem_singleton]
    by_cases hx : x.city = c.city
    · have hmem : x ∉ cities := fun hx' => by
        rw [← ih, hx, hnew] at hx'
        cases hx'
      rw [if_pos ⟨hx, hx ▸ hnew⟩]
      simp [hmem, eq_comm]
    · have hxc : x ≠ c := fun heq => hx (congrArg City.city heq)
      rw [if_neg fun h => hx h.1, ih]
      simp [hxc]

theorem foldl_enter : ∀ (l : List (Str × City)) {db : CityDB M}, Inv db →
    (∀ e ∈ l, db.cityObjectDB[e.1]? = some e.2) → (l.map Prod.fst).Nodup →
    (∀ e ∈ l, ∀ k : ℕ, db.cityDB[k]? ≠ some e.1) →
      Inv (l.foldl (fun db e => db.enter e.1 e.2) db) ∧
      (l.foldl (fun db e => db.enter e.1 e.2) db).toStacks = db.toStacks ∧
      (l.foldl (fun db e => db.enter e.1 e.2) db).cityObjectDB = db.cityObjectDB ∧
      (∀ (k : ℕ) n, db.cityDB[k]? = some n →
        (l.foldl (fun db e => db.enter e.1 e.2) db).cityDB[k]? = some n) ∧
      ∀ e ∈ l, ∃ k : ℕ, (l.foldl (fun db e => db.enter e.1 e.2) db).cityDB[k]? = some e.1
  | [], db, h, _, _, _ => ⟨h, rfl, rfl, fun _ _ hk => hk, fun e he => by simp at he⟩
  | (n, c) :: l, db, h, hobj, hnodup, hnew => by
    have he := enter_enteredAs h n c
    obtain ⟨hn, hnodup⟩ := List.nodup_cons.1 hnodup
    have hkeep : ∀ (k : ℕ) m, db.cityDB[k]? = some m → (db.enter n c).cityDB[k]? = some m := by
      intro k m hk
      rw [he.keys, if_neg ?_, hk]
      rintro rfl
      cases h.next_key.symm.trans hk
    obtain ⟨hI, hs, ho, hk, hl⟩ := foldl_enter l
      (he.inv h (hobj (n, c) (by simp)) (hnew (n, c) (by simp)))
      (fun e h' => hobj e (by simp [h'])) hnodup (fun e h' k hk => by
        rw [he.keys] at hk
        split_ifs at hk
        · exact hn (List.mem_map.2 ⟨e, h', (Option.some.inj hk).symm⟩)
        · exact hnew e (by simp [h']) k hk)
    refine ⟨hI, hs, ho, fun k m hm => hk k m (hkeep k m hm), fun e h' => ?_⟩
    rcases List.mem_cons.1 h' with rfl | h'
    · exact ⟨db.key + 1, hk _ _ (by rw [he.keys, if_pos rfl])⟩
    · exact hl e h'

/-- What `load` builds in a database without keys has the cities of the saved one. -/
theorem load_save {File : Type} (write : ExtTreeMap Str City → File)
    (read : File → ExtTreeMap Str City) (hread : ∀ m, read (write m) = m) {saved db : CityDB M}
    (hsaved : Stored saved) (h : Inv db) (hkey : db.key = 0) :
    ∃ db', db.load read (saved.save write) = .ok db' ∧ Stored db' ∧
      db'.toStacks = db.toStacks ∧ db'.cityObjectDB = saved.cityObjectDB := by
  have hload : db.load read (saved.save write) = .ok
      (saved.cityObjectDB.toList.foldl (fun db e => db.enter e.1 e.2)
        { db with cityObjectDB := saved.cityObjectDB }) := by
    unfold CityDB.load CityDB.save
    simp only [hread, hkey, if_true]
  have hnodup : (saved.cityObjectDB.toList.map Prod.fst).Nodup := by
    rw [ExtTreeMap.map_fst_toList_eq_keys]
    exact ExtTreeMap.nodup_keys
  obtain ⟨hI, hs, ho, -, hl⟩ := foldl_enter saved.cityObjectDB.toList
    (h.objects hkey saved.cityObjectDB hsaved.name)
    (fun e he => ExtTreeMap.mem_toList_iff_getElem?_eq_some.1 he) hnodup
    (fun e _ k hk => by
      have hle := (h.key k).1 ⟨_, hk⟩
      omega)
  refine ⟨_, hload, ⟨hI, fun {n c} hc => ?_⟩, hs, ho⟩
  rw [ho] at hc
  exact hl (n, c) (ExtTreeMap.mem_toList_iff_getElem?_eq_some.2 hc)

end CPPCodes.Cities
