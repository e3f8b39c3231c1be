import CPPCodes.Cities.Query

/-!
# A saved database, loaded again

`load` numbers the cities in the order of their names and builds the indexes and the bounds anew.
Two databases with the same cities evaluate a query side by side: the same tokens on their stacks,
and sets of keys that stand for the same cities (`eval_same`). So a saved database answers as the
one it was saved from (`query_load_save`).
-/

namespace CPPCodes.Cities

open Std (ExtTreeMap)

/-- Calls that end the same way. -/
inductive SameEnd {α : Type} (R : α → α → Prop) : Except Fault α → Except Fault α → Prop
  | ok {a b : α} : R a b → SameEnd R (.ok a) (.ok b)
  | error (f : Fault) : SameEnd R (.error f) (.error f)

/-- The same cities, each once. -/
def SameAnswer (rc rc' : List City) : Prop := rc.Nodup ∧ rc'.Nodup ∧ ∀ c, c ∈ rc' ↔ c ∈ rc

variable {M : Type} {db db' : CityDB M}

/-- Sets of keys, each of its own database, that stand for the same cities. -/
structure SameSet (db db' : CityDB M) (set set' : CitySet) : Prop where
  left : db.Known set
  right : db'.Known set'
  cities : db'.cities set' = db.cities set

structure SameStacks (db db' : CityDB M) (s s' : Stacks) : Prop where
  tokens : s'.tokenStack = s.tokenStack
  results : List.Forall₂ (SameSet db db') s.resultStack s'.resultStack

/-- What a token does in both. -/
def SameStep (db db' : CityDB M) (x x' : Except Fault Unit × Stacks) : Prop :=
  x'.1 = x.1 ∧ SameStacks db db' x.2 x'.2

theorem SameSet.union {l l' r r' : CitySet} (hl : SameSet db db' l l')
    (hr : SameSet db db' r r') : SameSet db db' (l ∪ r) (l' ∪ r') where
  left k hk := (Finset.mem_union.1 hk).elim (hl.left k) (hr.left k)
  right k hk := (Finset.mem_union.1 hk).elim (hl.right k) (hr.right k)
  cities := by rw [CityDB.cities_union, CityDB.cities_union, hl.cities, hr.cities]

variable [IntervalMap M ℤ ℕ]

structure SameCities (db db' : CityDB M) : Prop where
  left : Inv db
  right : Inv db'
  entered : ∀ c, db'.Entered c ↔ db.Entered c

theorem SameSet.inter (h : SameCities db db') {l l' r r' : CitySet} (hl : SameSet db db' l l')
    (hr : SameSet db db' r r') : SameSet db db' (l ∩ r) (l' ∩ r') where
  left k hk := hl.left k (Finset.mem_inter.1 hk).1
  right k hk := hl.right k (Finset.mem_inter.1 hk).1
  cities := by rw [h.left.cities_inter, h.right.cities_inter, hl.cities, hr.cities]

namespace SameCities

variable (h : SameCities db db')
include h

theorem inRange (a : IndexAttribute) (r : Range) :
    SameSet db db' (db.inRange a r) (db'.inRange a r) where
  left := h.left.known_inRange a r
  right := h.right.known_inRange a r
  cities := by
    rw [h.left.cities_inRange, h.right.cities_inRange]
    simp only [h.entered]

theorem queryKey (k op v : Token) :
    SameEnd (SameSet db db') (db.queryKey k op v) (db'.queryKey k op v) := by
  obtain ⟨hlow, hhigh⟩ := bounds_of_same h.entered h.left h.right (attr k)
  rw [CityDB.queryKey_eq, CityDB.queryKey_eq, hlow, hhigh]
  cases stoll v.value with
  | error f => exact .error f
  | ok val =>
    show SameEnd _ (bounds op.type _ _ val >>= _) (bounds op.type _ _ val >>= _)
    cases bounds op.type (db.lowest (attr k)) (db.highest (attr k)) val with
    | error f => exact .error f
    | ok r => exact .ok (h.inRange (attr k) r)

variable {s s' : Stacks}

theorem queryOperator (hs : SameStacks db db' s s') (e : Token) :
    SameStep db db' (db.queryOperator e s) (db'.queryOperator e s') := by
  obtain ⟨ts, rs⟩ := s
  obtain ⟨ts', rs'⟩ := s'
  obtain ⟨rfl, hrs⟩ := hs
  unfold CityDB.queryOperator
  split_ifs
  swap
  · exact ⟨rfl, rfl, hrs⟩
  rcases ts' with _ | ⟨l, _ | ⟨r, ts⟩⟩
  · exact ⟨rfl, rfl, hrs⟩
  · exact ⟨rfl, rfl, hrs⟩
  · simp only
    generalize (if l.isKeyWord = true then (l, r) else (r, l)) = kv
    split_ifs
    · have hkey := h.queryKey kv.1 e kv.2
      revert hkey
      generalize db.queryKey kv.1 e kv.2 = x
      generalize db'.queryKey kv.1 e kv.2 = x'
      rintro (hset | f)
      · exact ⟨rfl, rfl, .cons hset hrs⟩
      · exact ⟨rfl, rfl, hrs⟩
    · exact ⟨rfl, rfl, hrs⟩
    · exact ⟨rfl, rfl, hrs⟩

theorem resultJoin (hs : SameStacks db db' s s') (e : Token) :
    SameStep db db' (CityDB.resultJoin e s) (CityDB.resultJoin e s') := by
  obtain ⟨ts, rs⟩ := s
  obtain ⟨ts', rs'⟩ := s'
  obtain ⟨rfl, hrs⟩ := hs
  unfold CityDB.resultJoin
  cases hrs with
  | nil => exact ⟨rfl, rfl, .nil⟩
  | cons hr hrs =>
    cases hrs with
    | nil => exact ⟨rfl, rfl, .cons hr .nil⟩
    | cons hl hrs =>
      cases e.type with
      | AND => exact ⟨rfl, rfl, .cons (.inter h hl hr) hrs⟩
      | OR => exact ⟨rfl, rfl, .cons (hl.union hr) hrs⟩
      | _ =>
        cases hrs with
        | nil => exact ⟨rfl, rfl, .nil⟩
        | cons hx hrs => exact ⟨rfl, rfl, .cons hx hrs⟩

theorem evalToken (hs : SameStacks db db' s s') (e : Token) :
    SameStep db db' (db.evalToken e s) (db'.evalToken e s') := by
  unfold CityDB.evalToken
  split_ifs
  · exact ⟨rfl, congrArg (e :: ·) hs.tokens, hs.results⟩
  · cases e.type with
    | AND | OR => exact h.resultJoin hs e
    | EQ | NEQ | LT | LE | GT | GE => exact h.queryOperator hs e
    | UNARY | ID | KEYWORD => exact ⟨rfl, hs⟩

theorem eval : ∀ (tokens : List Token) {s s' : Stacks}, SameStacks db db' s s' →
    SameStep db db' (db.eval tokens s) (db'.eval tokens s')
  | [], s, s', hs => ⟨rfl, hs⟩
  | e :: tokens, s, s', hs => by
    have he := h.evalToken hs e
    rw [CityDB.eval, CityDB.eval]
    revert he
    generalize db.evalToken e s = x
    generalize db'.evalToken e s' = x'
    obtain ⟨r, s₁⟩ := x
    obtain ⟨r', s₁'⟩ := x'
    rintro ⟨rfl, hs₁⟩
    cases r' with
    | ok => exact eval tokens hs₁
    | error f => exact ⟨rfl, hs₁⟩

theorem answer (hs : SameStacks db db' s s') :
    SameEnd SameAnswer (db.answer s).1 (db'.answer s').1 := by
  obtain ⟨ts, rs⟩ := s
  obtain ⟨ts', rs'⟩ := s'
  obtain ⟨rfl, hrs⟩ := hs
  cases hrs with
  | nil => exact .error .assertion
  | cons hset hrs =>
    cases hrs with
    | nil =>
      obtain ⟨rc, hrc, hnodup, hmem⟩ := h.left.answer hset.left ts'
      obtain ⟨rc', hrc', hnodup', hmem'⟩ := h.right.answer hset.right ts'
      rw [hrc, hrc']
      exact .ok ⟨hnodup, hnodup', fun c => by rw [hmem, hmem', hset.cities]⟩
    | cons => exact .error .assertion

theorem query (hs : SameStacks db db' db.toStacks db'.toStacks) (q : Str) :
    SameEnd SameAnswer (db.query q).1 (db'.query q).1 := by
  unfold CityDB.query
  cases recursiveDecent q keywords with
  | error f => exact .error f
  | ok tokens =>
    have he := h.eval tokens hs
    simp only
    revert he
    generalize db.eval tokens db.toStacks = x
    generalize db'.eval tokens db'.toStacks = x'
    obtain ⟨r, s₁⟩ := x
    obtain ⟨r', s₁'⟩ := x'
    rintro ⟨rfl, hs₁⟩
    cases r' with
    | ok => exact h.answer hs₁
    | error f => exact .error f

end SameCities

theorem sameCities_load {File : Type} (write : ExtTreeMap Str City → File)
    (read : File → ExtTreeMap Str City) (hread : ∀ m, read (write m) = m) {saved db : CityDB M}
    (hsaved : Stored saved) (h : Inv db) (hkey : db.key = 0) :
    ∃ db', db.load read (saved.save write) = .ok db' ∧ SameCities saved db' ∧
      db'.toStacks = db.toStacks := by
  obtain ⟨db', hload, h', hs, hobj⟩ := load_save write read hread hsaved h hkey
  refine ⟨db', hload, ⟨hsaved.toInv, h'.toInv, fun c => ?_⟩, hs⟩
  rw [h'.entered, hsaved.entered, hobj]

/-- Where a query returns, it returns the same cities from the database that is saved and loaded. -/
theorem query_load_save (cities : List City) {File : Type} (write : ExtTreeMap Str City → File)
    (read : File → ExtTreeMap Str City) (hread : ∀ m, read (write m) = m) {q : Str} {rc : List City}
    (hq : ((build cities : CityDB M).query q).1 = .ok rc) :
    ∃ db' rc', (CityDB.new : CityDB M).load read ((build cities : CityDB M).save write) = .ok db' ∧
      (db'.query q).1 = .ok rc' ∧ ∀ c, c ∈ rc' ↔ c ∈ rc := by
  obtain ⟨hsaved, hstacks⟩ := stored_build (M := M) cities
  obtain ⟨db', hload, hsame, hstacks'⟩ := sameCities_load write read hread hsaved inv_new rfl
  have hs : SameStacks (build cities) db' (build cities : CityDB M).toStacks db'.toStacks := by
    rw [hstacks, hstacks']
    exact ⟨rfl, .nil⟩
  have hend := hsame.query hs q
  rw [hq] at hend
  obtain ⟨rc', hrc', hanswer⟩ : ∃ rc', (db'.query q).1 = .ok rc' ∧ SameAnswer rc rc' := by
    revert hend
    generalize (db'.query q).1 = r'
    rintro (hanswer | _)
    exact ⟨_, rfl, hanswer⟩
  exact ⟨db', rc', hload, hrc', hanswer.2.2⟩

/-- Three cities, which the loaded database holds in the other order, and `T < 29`. -/
theorem query_load_save_pune : ∃ db' rc', (CityDB.new : CityDB (Segments ℤ ℕ)).load id
      ((build [pune, goa, agra] : CityDB (Segments ℤ ℕ)).save id) = .ok db' ∧
    (db'.query ['T', ' ', '<', ' ', '2', '9']).1 = .ok rc' ∧
      pune ∈ rc' ∧ agra ∈ rc' ∧ goa ∉ rc' := by
  obtain ⟨hstored, hs⟩ := stored_build (M := Segments ℤ ℕ) [pune, goa, agra]
  obtain ⟨rc, db₁, hq, -, hmem⟩ := (query_formula hstored hs (spaced_compare29 .lt)).1
    fun ho => absurd ho.1 (by decide)
  obtain ⟨db', rc', hload, hrc', hsame⟩ := query_load_save (M := Segments ℤ ℕ)
    [pune, goa, agra] id id (fun _ => rfl) (congrArg Prod.fst hq)
  have hmem : ∀ c, c ∈ rc' ↔ c ∈ [pune, goa, agra] ∧ (compare29 .lt).ReadSat c := fun c => by
    rw [hsame, hmem, build_stored (by decide)]
  have hpune : (compare29 .lt).ReadSat pune :=
    ⟨10, ⟨by decide, by decide⟩, show (10 : ℤ) < 29 by decide⟩
  have hagra : (compare29 .lt).ReadSat agra :=
    ⟨5, ⟨by decide, by decide⟩, show (5 : ℤ) < 29 by decide⟩
  have hgoa : ¬ (compare29 .lt).ReadSat goa := by
    rintro ⟨t, ⟨hlow, -⟩, hlt⟩
    have hlow : 30 ≤ t := hlow
    have hlt : t < 29 := hlt
    omega
  exact ⟨db', rc', hload, hrc', (hmem pune).2 ⟨by simp, hpune⟩, (hmem agra).2 ⟨by simp, hagra⟩,
    fun hin => hgoa ((hmem goa).1 hin).2⟩

end CPPCodes.Cities
