import CPPCodes.Cities.Insertion
import CPPCodes.Cities.Query

/-!
# The benchmark

`main` of main.cpp: a database is filled at random, asked a list of queries ten times each, saved,
and loaded into another. Filling it is undefined from the first city on, as `addCity` has no value
for it. Where that gets back to the caller nevertheless, every query is a formula that the database
can answer, and leaves it as it was, so that no assert fails: the ten answers have one size, that of
the cities that satisfy the formula as the code reads it (`benchmark_counts`). The times that it
takes are left out.
-/

namespace CPPCodes.Cities

open Std (ExtTreeMap)

variable {M : Type} [IntervalMap M ℤ ℕ]

/-- What is drawn for a city: its name, two temperatures and two humidities, as the numbers are when
they are `int64_t`. -/
structure Record where
  name : Str
  tl : Int64
  th : Int64
  hl : Int64
  hh : Int64

/-- `SWAP`, where the lower number is greater. -/
def swap (low high : Int64) : Range := if low > high then (high, low) else (low, high)

def Record.city (r : Record) : City := ⟨r.name, swap r.tl r.th, swap r.hl r.hh⟩

/-- A call of `addCity`. `flowsOff` is whether a flow off its end gets back to the caller, which C++
leaves undefined. -/
def insertRecord (flowsOff : Bool) (db : CityDB M) (r : Record) : Except Fault (CityDB M) :=
  match db.addCity r.city with
  | (some _, db) => .ok db
  | (none, db) => if flowsOff then .ok db else .error .undefined

def benchmarkInsert (flowsOff : Bool) (db : CityDB M) (records : List Record) :
    Except Fault (CityDB M) :=
  records.foldlM (insertRecord flowsOff) db

/-- The loop of `benchmark_query`, with the size that its first turn sets. -/
def benchmarkLoop (query : Str) : (turns : ℕ) → Option ℕ → CityDB M →
    Except Fault (Option ℕ × CityDB M)
  | 0, size, db => .ok (size, db)
  | turns + 1, size, db =>
    match db.query query with
    | (.error f, _) => .error f
    | (.ok rc, db) =>
      match size with
      | none => benchmarkLoop query turns (some rc.length) db
      | some n =>
        if rc.length = n then benchmarkLoop query turns (some n) db else .error .assertion

/-- `benchmark_query`: the size that it prints, and the database behind it. -/
def benchmarkQuery (db : CityDB M) (query : Str) : Except Fault (Option ℕ × CityDB M) :=
  benchmarkLoop query 10 none db

/-- `std::to_string`. -/
def toText (i : ℤ) : Str := (if i < 0 then ['-'] else []) ++ Nat.toDigits 10 i.natAbs

/-- The queries of `benchmark`, in their order. -/
def benchmarkQueries : List Str :=
  [['T', ' ', '<', ' ', '0'],
    ['T', ' ', '<', ' ', '0', ' ', '&', '&', ' ', 'H', ' ', '<', ' ', '2', '0'],
    ['T', ' ', '<', ' ', '0', ' ', '|', '|', ' ', 'H', ' ', '<', ' ', '2', '0'],
    ['T', ' ', '>', ' ', '-', '5', '0'],
    ['T', ' ', '>', ' ', '5', '0']] ++
  [-1, 0, 1].map (fun i => ['T', ' ', '=', '=', ' '] ++ toText i) ++
  [10, 11, 12].map (fun i => ['H', ' ', '=', '=', ' '] ++ toText i) ++
  [-1, 0, 1].flatMap (fun t => [10, 11].map fun h => ['T', ' ', '=', '=', ' '] ++ toText t ++
    [' ', '&', '&', ' '] ++ ['H', ' ', '=', '=', ' '] ++ toText h) ++
  [-1, 0, 1].flatMap (fun t => [10, 11].map fun h => ['T', ' ', '=', '=', ' '] ++ toText t ++
    [' ', '|', '|', ' '] ++ ['H', ' ', '=', '=', ' '] ++ toText h)

/-- One of the calls of `benchmark_query`, with the sizes of those before it. -/
def ask (s : List (Option ℕ) × CityDB M) (query : Str) :
    Except Fault (List (Option ℕ) × CityDB M) := do
  let (size, db) ← benchmarkQuery s.2 query
  return (s.1 ++ [size], db)

/-- `benchmark`: the sizes that are printed, and the databases `db` and `db1` at its end. -/
def benchmark {File : Type} (write : ExtTreeMap Str City → File)
    (read : File → ExtTreeMap Str City) (flowsOff : Bool) (records : List Record) :
    Except Fault (List (Option ℕ) × CityDB M × CityDB M) := do
  let db ← benchmarkInsert flowsOff .new records
  let (sizes, db) ← benchmarkQueries.foldlM ask ([], db)
  let db1 ← CityDB.load read (db.save write) .new
  return (sizes, db, db1)

variable {db : CityDB M}

theorem benchmarkInsert_eq : ∀ (records : List Record) (db : CityDB M),
    benchmarkInsert true db records =
      .ok ((records.map Record.city).foldl (fun db c => (db.addCity c).2) db)
  | [], _ => rfl
  | r :: records, db => by
    have hinsert : insertRecord true db r = .ok (db.addCity r.city).2 := by
      unfold insertRecord
      rcases db.addCity r.city with ⟨_ | _, db'⟩ <;> rfl
    unfold benchmarkInsert
    rw [List.foldlM_cons, hinsert]
    exact benchmarkInsert_eq records _

/-- The first city of all is a new one. -/
theorem benchmarkInsert_undefined {records : List Record} (hne : records ≠ []) :
    benchmarkInsert false (.new : CityDB M) records = .error .undefined := by
  obtain ⟨r, records, rfl⟩ := List.exists_cons_of_ne_nil hne
  obtain ⟨hnone, -⟩ := addCity_of_new (M := M) (c := r.city) inv_new (by simp [CityDB.new])
  have hinsert : insertRecord false (.new : CityDB M) r = .error .undefined := by
    unfold insertRecord
    rcases hadd : (CityDB.new : CityDB M).addCity r.city with ⟨_ | _, db'⟩
    · rfl
    · rw [hadd] at hnone
      cases hnone
  unfold benchmarkInsert
  rw [List.foldlM_cons, hinsert]
  rfl

/-- A query that can be answered leaves the database as it was. -/
theorem query_stays (h : Stored db) (hs : db.toStacks = ⟨[], []⟩) {f : Formula} {q : Str}
    (hq : Spaced f.words q) (hf : f.Defined) : ∃ rc, db.query q = (.ok rc, db) ∧ rc.Nodup ∧
      ∀ c, c ∈ rc ↔ db.cityObjectDB[c.city]? = some c ∧ f.ReadSat c := by
  obtain ⟨set, ⟨hset, hcities⟩, heval⟩ := (eval_formula h.toInv f [] ⟨[], []⟩).1 hf
  obtain ⟨rc, hrc, hnodup, hmem⟩ := h.toInv.answer hset []
  have heval' : db.eval f.tokens db.toStacks = (.ok (), ⟨[], [set]⟩) := by
    rw [List.append_nil] at heval
    rw [hs, heval]
    rfl
  refine ⟨rc, ?_, hnodup, fun c => ?_⟩
  · rw [CityDB.query_of_eval (recursiveDecent_formula hq) heval', hrc, ← hs]
  · rw [hmem, hcities, h.entered]

theorem benchmarkLoop_eq {q : Str} {rc : List City} (hq : db.query q = (.ok rc, db)) :
    ∀ {turns : ℕ} {size : Option ℕ}, (∀ n, size = some n → n = rc.length) → turns ≠ 0 →
      benchmarkLoop q turns size db = .ok (some rc.length, db)
  | turns + 1, size, hsize, _ => by
    unfold benchmarkLoop
    rw [hq]
    have hrest : benchmarkLoop q turns (some rc.length) db = .ok (some rc.length, db) := by
      cases turns with
      | zero => rfl
      | succ turns =>
        exact benchmarkLoop_eq hq (fun n hn => (Option.some.inj hn).symm) (Nat.succ_ne_zero turns)
    cases size with
    | none => exact hrest
    | some n =>
      obtain rfl := hsize n rfl
      simp only [if_true, hrest]

/-- The digits of an `int64_t`. -/
def literal (sign : Sign) (digits : Str) (h : digits ≠ [] ∧ digits.all Char.isDigit = true ∧
    Int64.minValue.toInt ≤ signed sign.neg digits ∧
      signed sign.neg digits ≤ Int64.maxValue.toInt) : Literal :=
  ⟨sign, digits, h.1, List.all_eq_true.1 h.2.1, h.2.2⟩

def compareT (op : Op) (v : Literal) : Comparison := ⟨.TEMPERATURE, op, v, false⟩

def compareH (op : Op) (v : Literal) : Comparison := ⟨.HUMIDITY, op, v, false⟩

def temperatures : List Literal :=
  [literal .minus ['1'] (by decide), literal .none ['0'] (by decide),
    literal .none ['1'] (by decide)]

def humidities : List Literal :=
  [literal .none ['1', '0'] (by decide), literal .none ['1', '1'] (by decide)]

/-- What the queries say. -/
def benchmarkFormulas : List Formula :=
  let zero := literal .none ['0'] (by decide)
  let twenty := literal .none ['2', '0'] (by decide)
  let fifty := literal .none ['5', '0'] (by decide)
  let twelve := literal .none ['1', '2'] (by decide)
  [.one (.one (compareT .lt zero)),
    .one (.and (.one (compareT .lt zero)) (compareH .lt twenty)),
    .or (.one (.one (compareT .lt zero))) (.one (compareH .lt twenty)),
    .one (.one (compareT .gt (literal .minus ['5', '0'] (by decide)))),
    .one (.one (compareT .gt fifty))] ++
  temperatures.map (fun t => .one (.one (compareT .eq t))) ++
  (humidities ++ [twelve]).map (fun h => .one (.one (compareH .eq h))) ++
  temperatures.flatMap (fun t => humidities.map fun h =>
    .one (.and (.one (compareT .eq t)) (compareH .eq h))) ++
  temperatures.flatMap (fun t => humidities.map fun h =>
    .or (.one (.one (compareT .eq t))) (.one (compareH .eq h)))

theorem spaced_intercalate : ∀ {ws : List Str}, ws ≠ [] → (∀ w ∈ ws, w ≠ [] ∧ ' ' ∉ w) →
    Spaced ws ([' '].intercalate ws)
  | [w], _, h => by
    have hw : [' '].intercalate [w] = w := by simp [List.intercalate]
    rw [hw]
    exact .last (h w (by simp)).2
  | w :: w' :: ws, _, h => by
    obtain ⟨hne, hspace⟩ := h w (by simp)
    have hrest := spaced_intercalate (List.cons_ne_nil w' ws) fun v hv => h v (by simp [hv])
    have hcons : [' '].intercalate (w :: w' :: ws) = w ++ ' ' :: [' '].intercalate (w' :: ws) := by
      simp [List.intercalate]
    rw [hcons]
    exact .word hne hspace hrest

theorem benchmarkQueries_eq :
    benchmarkFormulas.map (fun f => [' '].intercalate f.words) = benchmarkQueries := by
  decide

theorem benchmarkFormulas_words : ∀ f ∈ benchmarkFormulas,
    f.words ≠ [] ∧ ∀ w ∈ f.words, w ≠ [] ∧ ' ' ∉ w := by
  decide

instance Conj.decidableHolds {α : Type} {p : α → Prop} [DecidablePred p] :
    ∀ k : Conj α, Decidable (k.Holds p)
  | .one c => inferInstanceAs (Decidable (p c))
  | .and l r =>
    have : Decidable (l.Holds p) := decidableHolds l
    inferInstanceAs (Decidable (l.Holds p ∧ p r))

instance Disj.decidableAll {α : Type} {p : α → Prop} [DecidablePred p] :
    ∀ f : Disj α, Decidable (f.All p)
  | .one k => inferInstanceAs (Decidable (k.Holds p))
  | .or l r =>
    have : Decidable (l.All p) := decidableAll l
    inferInstanceAs (Decidable (l.All p ∧ r.Holds p))

instance (f : Formula) : Decidable f.Defined :=
  inferInstanceAs (Decidable (f.All fun c => ¬ c.Overflows))

theorem benchmarkFormulas_defined : ∀ f ∈ benchmarkFormulas, f.Defined := by
  decide

/-- The size of the answer to a formula. -/
def Counts (db : CityDB M) (f : Formula) (size : Option ℕ) : Prop :=
  ∃ rc : List City, size = some rc.length ∧ rc.Nodup ∧
    ∀ c, c ∈ rc ↔ db.cityObjectDB[c.city]? = some c ∧ f.ReadSat c

theorem ask_eq (h : Stored db) (hs : db.toStacks = ⟨[], []⟩) {f : Formula} {q : Str}
    (hq : Spaced f.words q) (hf : f.Defined) (sizes : List (Option ℕ)) :
    ∃ size, ask (sizes, db) q = .ok (sizes ++ [size], db) ∧ Counts db f size := by
  obtain ⟨rc, hquery, hnodup, hmem⟩ := query_stays h hs hq hf
  have hloop : benchmarkQuery db q = .ok (some rc.length, db) :=
    benchmarkLoop_eq hquery (fun _ hn => nomatch hn) (by decide)
  refine ⟨some rc.length, ?_, rc, rfl, hnodup, hmem⟩
  unfold ask
  rw [hloop]
  rfl

theorem foldlM_ask (h : Stored db) (hs : db.toStacks = ⟨[], []⟩) : ∀ {fs : List Formula},
    (∀ f ∈ fs, f.words ≠ [] ∧ ∀ w ∈ f.words, w ≠ [] ∧ ' ' ∉ w) → (∀ f ∈ fs, f.Defined) →
      ∀ sizes₀, ∃ sizes, (fs.map fun f => [' '].intercalate f.words).foldlM ask (sizes₀, db) =
        .ok (sizes₀ ++ sizes, db) ∧ List.Forall₂ (Counts db) fs sizes
  | [], _, _, sizes₀ => ⟨[], by rw [List.append_nil]; rfl, .nil⟩
  | f :: fs, hwords, hdefined, sizes₀ => by
    obtain ⟨hw, hwords⟩ := List.forall_mem_cons.1 hwords
    obtain ⟨hd, hdefined⟩ := List.forall_mem_cons.1 hdefined
    obtain ⟨size, hask, hcounts⟩ := ask_eq h hs (spaced_intercalate hw.1 hw.2) hd sizes₀
    obtain ⟨sizes, hrest, hall⟩ := foldlM_ask h hs hwords hdefined (sizes₀ ++ [size])
    refine ⟨size :: sizes, ?_, .cons hcounts hall⟩
    rw [List.map_cons, List.foldlM_cons, hask]
    rw [List.append_assoc] at hrest
    exact hrest

/-- A city that is drawn is undefined behaviour. Where the flow gets back to the caller, no assert
fails, whatever is drawn: each query prints how many cities satisfy what it says, as the code reads
it, and the loaded database holds the cities of the first. -/
theorem benchmark_counts {File : Type} (write : ExtTreeMap Str City → File)
    (read : File → ExtTreeMap Str City) (hread : ∀ m, read (write m) = m) (flowsOff : Bool)
    (records : List Record) :
    (flowsOff = true ∨ records = [] →
      ∃ sizes, ∃ db db1 : CityDB M, benchmark write read flowsOff records = .ok (sizes, db, db1) ∧
        db = build (records.map Record.city) ∧ List.Forall₂ (Counts db) benchmarkFormulas sizes ∧
        Stored db1 ∧ db1.cityObjectDB = db.cityObjectDB) ∧
    (flowsOff = false → records ≠ [] →
      benchmark (M := M) write read flowsOff records = .error .undefined) := by
  constructor
  · intro hflows
    have hinsert : benchmarkInsert flowsOff .new records =
        .ok (build (records.map Record.city) : CityDB M) := by
      rcases hflows with rfl | rfl
      · exact benchmarkInsert_eq records .new
      · rfl
    obtain ⟨hstored, hs⟩ := stored_build (M := M) (records.map Record.city)
    generalize hdb : (build (records.map Record.city) : CityDB M) = db at *
    obtain ⟨sizes, hsizes, hcounts⟩ :=
      foldlM_ask hstored hs benchmarkFormulas_words benchmarkFormulas_defined []
    obtain ⟨db1, hload, hstored1, -, hsame⟩ :=
      load_save write read hread hstored (inv_new (M := M)) rfl
    rw [benchmarkQueries_eq, List.nil_append] at hsizes
    refine ⟨sizes, db, db1, ?_, rfl, hcounts, hstored1, hsame⟩
    unfold benchmark
    simp only [hinsert, bind, Except.bind, hsizes]
    exact congrArg (· >>= fun db1 => Except.ok (sizes, db, db1)) hload
  · rintro rfl hne
    unfold benchmark
    rw [benchmarkInsert_undefined hne]
    rfl

theorem benchmark_counts_pune : ∃ sizes, ∃ db db1 : CityDB (Segments ℤ ℕ),
    benchmark id id true [⟨['P', 'u', 'n', 'e'], 30, 10, 35, 50⟩] = .ok (sizes, db, db1) ∧
      db = build [pune] ∧ List.Forall₂ (Counts db) benchmarkFormulas sizes ∧ Stored db1 ∧
      db1.cityObjectDB = db.cityObjectDB :=
  (benchmark_counts id id (fun _ => rfl) true [⟨['P', 'u', 'n', 'e'], 30, 10, 35, 50⟩]).1 (.inl rfl)

end CPPCodes.Cities
