import CPPCodes.Cities.Formula

/-!
# What a query answers

The code reads a comparison its own way: the number always counts as the right side, and `>` and
`>=` have each other's bounds. A query on a stored database answers with the cities that satisfy
the formula read so, unless it needs the successor of the greatest number, which is not defined
(`query_formula`). The reading and the comparison part at the ends of a city's range only
(`Comparison.read_sat_iff`), so the answer is right exactly when no formula hangs on those
(`query_answers_iff`).
-/

namespace CPPCodes.Cities

/-- The code's `GT` is `>=` and its `GE` is `>`. -/
def Op.read : Op → Op
  | gt => ge
  | ge => gt
  | op => op

/-- The code's bounds need the number's successor. -/
def Op.increments : Op → Bool
  | eq | le | ge => true
  | lt | gt => false

namespace Comparison

/-- What the code takes the comparison for: `v op K` counts as `K op v`. -/
def read (c : Comparison) : Comparison := { c with op := c.op.read, swapped := false }

/-- The successor that the code needs is no `int64_t`. -/
def Overflows (c : Comparison) : Prop :=
  c.op.increments = true ∧ c.literal.value = Int64.maxValue.toInt

instance (c : Comparison) : Decidable c.Overflows := inferInstanceAs (Decidable (_ ∧ _))

end Comparison

namespace Formula

/-- The formula's truth where each comparison is read the way of the code. -/
def ReadSat (f : Formula) (x : City) : Prop := f.Holds fun c => c.read.Sat x

/-- No comparison needs the successor of the greatest `int64_t`. -/
def Defined (f : Formula) : Prop := f.All fun c => ¬ c.Overflows

end Formula

theorem Literal.toInt_value (v : Literal) : (Int64.ofInt v.value).toInt = v.value := by
  obtain ⟨hlo, hhi⟩ : Int64.minValue.toInt ≤ v.value ∧ v.value ≤ Int64.maxValue.toInt := v.range
  rw [Int64.toInt_minValue] at hlo
  rw [Int64.toInt_maxValue] at hhi
  exact Int64.toInt_ofInt_of_le hlo (by omega)

theorem Literal.increment_value (v : Literal) :
    (v.value = Int64.maxValue.toInt → increment (Int64.ofInt v.value) = .error .undefined) ∧
    (v.value ≠ Int64.maxValue.toInt →
      ∃ w, increment (Int64.ofInt v.value) = .ok w ∧ w.toInt = v.value + 1) := by
  have hmax : Int64.ofInt v.value = Int64.maxValue ↔ v.value = Int64.maxValue.toInt := by
    rw [← Int64.toInt_inj, v.toInt_value]
  unfold increment
  refine ⟨fun h => if_pos (hmax.2 h), fun h => ⟨_, if_neg fun h' => h (hmax.1 h'), ?_⟩⟩
  obtain ⟨hlo, hhi⟩ : Int64.minValue.toInt ≤ v.value ∧ v.value ≤ Int64.maxValue.toInt := v.range
  rw [Int64.toInt_minValue] at hlo
  rw [Int64.toInt_maxValue] at h hhi
  rw [Int64.toInt_add, v.toInt_value]
  exact Int.bmod_eq_of_le (by simp; omega) (by simp; omega)

/-- The values between the bounds of the cities that the code's bounds leave. -/
theorem bounds_op (op : Op) (v : Literal) (low high : Int64) :
    (op.increments = true ∧ v.value = Int64.maxValue.toInt →
      bounds op.type low high (Int64.ofInt v.value) = .error .undefined) ∧
    (¬ (op.increments = true ∧ v.value = Int64.maxValue.toInt) →
      ∃ r, bounds op.type low high (Int64.ofInt v.value) = .ok r ∧
        ∀ t, low.toInt ≤ t → t < high.toInt → (r.Contains t ↔ op.read.Holds t v.value)) := by
  have hv := v.toInt_value
  obtain ⟨hmax, hinc⟩ := v.increment_value
  cases op with
  | eq =>
    refine ⟨fun h => by rw [Op.type, bounds, hmax h.2]; rfl, fun h => ?_⟩
    obtain ⟨w, hw, hwv⟩ := hinc fun h' => h ⟨rfl, h'⟩
    refine ⟨(Int64.ofInt v.value, w), by rw [Op.type, bounds, hw]; rfl, fun t _ _ => ?_⟩
    simp only [Range.Contains, Op.read, Op.Holds, hv, hwv]
    omega
  | lt =>
    refine ⟨fun h => absurd h.1 (by decide),
      fun _ => ⟨(low, Int64.ofInt v.value), rfl, fun t hl _ => ?_⟩⟩
    simp only [Range.Contains, Op.read, Op.Holds, hv]
    omega
  | le =>
    refine ⟨fun h => by rw [Op.type, bounds, hmax h.2]; rfl, fun h => ?_⟩
    obtain ⟨w, hw, hwv⟩ := hinc fun h' => h ⟨rfl, h'⟩
    refine ⟨(low, w), by rw [Op.type, bounds, hw]; rfl, fun t hl _ => ?_⟩
    simp only [Range.Contains, Op.read, Op.Holds, hwv]
    omega
  | gt =>
    refine ⟨fun h => absurd h.1 (by decide),
      fun _ => ⟨(Int64.ofInt v.value, high), rfl, fun t _ hh => ?_⟩⟩
    simp only [Range.Contains, Op.read, Op.Holds, hv]
    omega
  | ge =>
    refine ⟨fun h => by rw [Op.type, bounds, hmax h.2]; rfl, fun h => ?_⟩
    obtain ⟨w, hw, hwv⟩ := hinc fun h' => h ⟨rfl, h'⟩
    refine ⟨(w, high), by rw [Op.type, bounds, hw]; rfl, fun t _ hh => ?_⟩
    simp only [Range.Contains, Op.read, Op.Holds, hwv]
    omega

variable {M : Type} [IntervalMap M ℤ ℕ] {db : CityDB M}

/-- A set of known keys that stands for the cities with the property. -/
def Answer (db : CityDB M) (p : City → Prop) (set : CitySet) : Prop :=
  db.Known set ∧ ∀ c, c ∈ db.cities set ↔ db.Entered c ∧ p c

theorem queryKey_comparison (h : Inv db) (c : Comparison) :
    (c.Overflows → db.queryKey c.keyToken c.opToken c.literalToken = .error .undefined) ∧
    (¬ c.Overflows → ∃ set, db.queryKey c.keyToken c.opToken c.literalToken = .ok set ∧
      Answer db c.read.Sat set) := by
  have hattr : attr c.keyToken = c.key := by
    unfold attr Comparison.keyToken
    cases c.key <;> rfl
  obtain ⟨hundef, hok⟩ := bounds_op c.op c.literal (db.lowest c.key) (db.highest c.key)
  rw [CityDB.queryKey_eq, hattr, Comparison.literalToken, c.literal.stoll_text]
  refine ⟨fun ho => ?_, fun ho => ?_⟩
  · show (bounds c.op.type _ _ _ >>= _) = _
    rw [hundef ho]
    rfl
  · obtain ⟨r, hr, hcontains⟩ := hok ho
    refine ⟨db.inRange c.key r, ?_, h.known_inRange c.key r, fun x => ?_⟩
    · show (bounds c.op.type _ _ _ >>= _) = _
      rw [hr]
      rfl
    · rw [h.cities_inRange]
      refine and_congr_right fun hx => exists_congr fun t => ?_
      rw [and_comm]
      refine and_congr_right fun ht => ?_
      -- every value of a stored city lies between the bounds
      have hlow := Int64.le_iff_toInt_le.1 ((h.lowest c.key).le hx)
      have hhigh := Int64.le_iff_toInt_le.1 ((h.highest c.key).le hx)
      exact hcontains t (hlow.trans ht.1) (lt_of_lt_of_le ht.2 hhigh)

theorem eval_operand {e : Token} (he : e.isOperand = true) (tokens : List Token) (s : Stacks) :
    db.eval (e :: tokens) s = db.eval tokens { s with tokenStack := e :: s.tokenStack } := by
  rw [CityDB.eval, CityDB.evalToken, if_pos he]

theorem evalToken_comparison {e : Token} (he : e.isComparison = true) (s : Stacks) :
    db.evalToken e s = db.queryOperator e s := by
  unfold Token.isComparison at he
  unfold CityDB.evalToken Token.isOperand
  cases ht : e.type <;> rw [ht] at he <;> first | rfl | exact absurd he (by decide)

/-- The two operands, in whichever order they come off the stack. -/
theorem queryOperator_comparison (c : Comparison) (ts : List Token) (rs : List CitySet) :
    ∀ l r, (l = c.keyToken ∧ r = c.literalToken) ∨ (l = c.literalToken ∧ r = c.keyToken) →
      db.queryOperator c.opToken ⟨l :: r :: ts, rs⟩ =
        match db.queryKey c.keyToken c.opToken c.literalToken with
        | .ok set => (.ok (), ⟨ts, set :: rs⟩)
        | .error f => (.error f, ⟨ts, rs⟩) := by
  have hop : c.opToken.isOperator = true := by
    unfold Comparison.opToken
    cases c.op <;> rfl
  have hnumber : startsNumber c.literalToken.value = true := c.literal.startsNumber_text
  have hkey : c.keyToken.isKeyWord = true ∧ c.keyToken.isOperand = true := ⟨rfl, rfl⟩
  have hlit : c.literalToken.isKeyWord = false ∧ c.literalToken.isOperand = true := ⟨rfl, rfl⟩
  rintro l r (⟨rfl, rfl⟩ | ⟨rfl, rfl⟩)
  · unfold CityDB.queryOperator
    cases hq : db.queryKey c.keyToken c.opToken c.literalToken <;>
      simp only [hop, hkey, hlit, hnumber, hq, if_true, or_self, true_or, and_self]
  · unfold CityDB.queryOperator
    cases hq : db.queryKey c.keyToken c.opToken c.literalToken <;>
      simp only [hop, hkey, hlit, hnumber, hq, if_true, or_self, or_true, and_self,
        Bool.false_eq_true, if_false]

theorem eval_clause (c : Comparison) (rest : List Token) (s : Stacks) :
    db.eval (c.clause.postOrder ++ rest) s =
      match db.queryKey c.keyToken c.opToken c.literalToken with
      | .ok set => db.eval rest { s with resultStack := set :: s.resultStack }
      | .error f => (.error f, s) := by
  show db.eval (c.clause.l :: c.clause.r :: c.opToken :: rest) s = _
  rw [eval_operand c.clause.operands.1, eval_operand c.clause.operands.2, CityDB.eval,
    evalToken_comparison (e := c.opToken) c.clause.comparison,
    queryOperator_comparison c s.tokenStack s.resultStack]
  · cases db.queryKey c.keyToken c.opToken c.literalToken <;> rfl
  · obtain ⟨key, op, literal, swapped⟩ := c
    cases swapped with
    | false => exact .inr ⟨rfl, rfl⟩
    | true => exact .inl ⟨rfl, rfl⟩

theorem eval_and (l r : CitySet) (rest : List Token) (ts : List Token) (rs : List CitySet) :
    db.eval (tokenAnd :: rest) ⟨ts, r :: l :: rs⟩ = db.eval rest ⟨ts, (l ∩ r) :: rs⟩ := rfl

theorem eval_or (l r : CitySet) (rest : List Token) (ts : List Token) (rs : List CitySet) :
    db.eval (tokenOr :: rest) ⟨ts, r :: l :: rs⟩ = db.eval rest ⟨ts, (l ∪ r) :: rs⟩ := rfl

theorem eval_conj (h : Inv db) : ∀ (k : Conj Comparison) (rest : List Token) (s : Stacks),
    (k.Holds (fun c => ¬ c.Overflows) → ∃ set, Answer db (fun x => k.Holds fun c => c.read.Sat x) set ∧
      db.eval (k.postOrder (fun c => c.clause.postOrder) [tokenAnd] ++ rest) s
        = db.eval rest { s with resultStack := set :: s.resultStack }) ∧
    (¬ k.Holds (fun c => ¬ c.Overflows) →
      (db.eval (k.postOrder (fun c => c.clause.postOrder) [tokenAnd] ++ rest) s).1
        = .error .undefined)
  | .one c, rest, s => by
    obtain ⟨hundef, hok⟩ := queryKey_comparison h c
    refine ⟨fun ho => ?_, fun ho => ?_⟩
    · obtain ⟨set, hset, ha⟩ := hok ho
      refine ⟨set, ha, ?_⟩
      rw [Conj.postOrder, eval_clause, hset]
    · rw [Conj.postOrder, eval_clause, hundef (not_not.1 ho)]
  | .and k c, rest, s => by
    obtain ⟨hk, hknot⟩ := eval_conj h k (c.clause.postOrder ++ (tokenAnd :: rest)) s
    obtain ⟨hundef, hok⟩ := queryKey_comparison h c
    have hassoc : (Conj.and k c).postOrder (fun c => c.clause.postOrder) [tokenAnd] ++ rest
        = k.postOrder (fun c => c.clause.postOrder) [tokenAnd]
          ++ (c.clause.postOrder ++ (tokenAnd :: rest)) := by
      simp [Conj.postOrder]
    rw [hassoc]
    refine ⟨fun ho => ?_, fun ho => ?_⟩
    · obtain ⟨l, ⟨hl, hlc⟩, hkeval⟩ := hk ho.1
      obtain ⟨r, hr, hrk, hrc⟩ := hok ho.2
      refine ⟨l ∩ r, ⟨fun key hkey => hl key (Finset.mem_inter.1 hkey).1, fun x => ?_⟩, ?_⟩
      · rw [h.cities_inter, Set.mem_inter_iff, hlc, hrc, ← and_and_left]
        rfl
      · rw [hkeval, eval_clause, hr]
        exact eval_and l r rest s.tokenStack s.resultStack
    · by_cases hko : k.Holds fun c => ¬ c.Overflows
      · obtain ⟨l, -, hkeval⟩ := hk hko
        have hc : c.Overflows := not_not.1 fun hc => ho ⟨hko, hc⟩
        rw [hkeval, eval_clause, hundef hc]
      · exact hknot hko

theorem eval_formula (h : Inv db) : ∀ (f : Formula) (rest : List Token) (s : Stacks),
    (f.Defined → ∃ set, Answer db f.ReadSat set ∧
      db.eval (f.tokens ++ rest) s = db.eval rest { s with resultStack := set :: s.resultStack }) ∧
    (¬ f.Defined → (db.eval (f.tokens ++ rest) s).1 = .error .undefined)
  | .one k, rest, s => eval_conj h k rest s
  | .or f k, rest, s => by
    obtain ⟨hf, hfnot⟩ := eval_formula h f
      (k.postOrder (fun c => c.clause.postOrder) [tokenAnd] ++ (tokenOr :: rest)) s
    have hassoc : Formula.tokens (.or f k) ++ rest = Formula.tokens f ++
        (k.postOrder (fun c => c.clause.postOrder) [tokenAnd] ++ (tokenOr :: rest)) := by
      simp [Formula.tokens, Disj.postOrder]
    rw [hassoc]
    refine ⟨fun ho => ?_, fun ho => ?_⟩
    · obtain ⟨l, ⟨hl, hlc⟩, hfeval⟩ := hf ho.1
      obtain ⟨r, ⟨hr, hrc⟩, hkeval⟩ := (eval_conj h k (tokenOr :: rest)
        { s with resultStack := l :: s.resultStack }).1 ho.2
      refine ⟨l ∪ r, ⟨fun key hkey => ?_, fun x => ?_⟩, ?_⟩
      · rcases Finset.mem_union.1 hkey with hkey | hkey
        · exact hl key hkey
        · exact hr key hkey
      · rw [CityDB.cities_union, Set.mem_union, hlc, hrc, ← and_or_left]
        rfl
      · rw [hfeval, hkeval]
        exact eval_or l r rest s.tokenStack s.resultStack
    · by_cases hfo : Formula.Defined f
      · obtain ⟨l, -, hfeval⟩ := hf hfo
        rw [hfeval]
        exact (eval_conj h k (tokenOr :: rest) _).2 fun hk => ho ⟨hfo, hk⟩
      · exact hfnot hfo

/-- The query returns, once each, the stored cities with the property. -/
def Answers (db : CityDB M) (q : Str) (p : City → Prop) : Prop :=
  ∃ rc db', db.query q = (.ok rc, db') ∧ rc.Nodup ∧
    ∀ c, c ∈ rc ↔ db.cityObjectDB[c.city]? = some c ∧ p c

/-- A query on a stored database, its stacks empty. -/
theorem query_formula (h : Stored db) (hs : db.toStacks = ⟨[], []⟩) {f : Formula} {q : Str}
    (hq : Spaced f.words q) :
    (f.Defined → Answers db q f.ReadSat) ∧
    (¬ f.Defined → (db.query q).1 = .error .undefined) := by
  obtain ⟨hdef, hundef⟩ := eval_formula h.toInv f [] ⟨[], []⟩
  rw [List.append_nil] at hdef hundef
  have hparse := recursiveDecent_formula hq
  refine ⟨fun hf => ?_, fun hf => ?_⟩
  · obtain ⟨set, ⟨hset, hcities⟩, heval⟩ := hdef hf
    obtain ⟨rc, hrc, hnodup, hmem⟩ := h.toInv.answer hset []
    have heval' : db.eval f.tokens db.toStacks = (.ok (), ⟨[], [set]⟩) := by
      rw [hs, heval]
      rfl
    refine ⟨rc, _, (CityDB.query_of_eval hparse heval').trans (by rw [hrc]), hnodup, fun c => ?_⟩
    rw [hmem, hcities, h.entered]
  · have herr := hundef hf
    rw [← hs] at herr
    cases heval : db.eval f.tokens db.toStacks with
    | mk r s =>
      rw [heval] at herr
      obtain rfl : r = .error .undefined := herr
      rw [CityDB.query_of_error hparse heval]

theorem Answers.congr {q : Str} {p p' : City → Prop} (h : Answers db q p)
    (hp : ∀ c, db.cityObjectDB[c.city]? = some c → (p c ↔ p' c)) : Answers db q p' := by
  obtain ⟨rc, db', hq, hnodup, hmem⟩ := h
  exact ⟨rc, db', hq, hnodup, fun c => (hmem c).trans (and_congr_right (hp c))⟩

theorem Answers.unique {q : Str} {p p' : City → Prop} (h : Answers db q p) (h' : Answers db q p')
    (c : City) (hc : db.cityObjectDB[c.city]? = some c) : p c ↔ p' c := by
  obtain ⟨rc, db₁, hq, -, hmem⟩ := h
  obtain ⟨rc', db₂, hq', -, hmem'⟩ := h'
  obtain ⟨heq, -⟩ := Prod.mk.inj (hq.symm.trans hq')
  obtain rfl := Except.ok.inj heq
  have hboth := (hmem c).symm.trans (hmem' c)
  simpa [hc] using hboth

namespace Op

/-- What the ends of a nonempty range say about its values. -/
def Meets : Op → ℤ → ℤ → ℤ → Prop
  | eq, low, high, v => low ≤ v ∧ v < high
  | lt, low, _, v => low < v
  | le, low, _, v => low ≤ v
  | gt, _, high, v => v + 1 < high
  | ge, _, high, v => v < high

theorem exists_holds (op : Op) (low high v : ℤ) :
    (∃ t, (low ≤ t ∧ t < high) ∧ op.Holds t v) ↔ low < high ∧ op.Meets low high v := by
  constructor
  · rintro ⟨t, ht, h⟩
    cases op <;> simp only [Holds, Meets] at h ⊢ <;> omega
  · rintro ⟨hlt, h⟩
    cases op with
    | eq => exact ⟨v, h, rfl⟩
    | lt => exact ⟨low, ⟨le_refl _, hlt⟩, h⟩
    | le => exact ⟨low, ⟨le_refl _, hlt⟩, h⟩
    | gt => exact ⟨high - 1, by omega, by simp only [Holds, Meets] at h ⊢; omega⟩
    | ge => exact ⟨high - 1, by omega, by simp only [Holds, Meets] at h ⊢; omega⟩

/-- The operator with its sides exchanged. -/
def flip : Op → Op
  | eq => eq
  | lt => gt
  | le => ge
  | gt => lt
  | ge => le

theorem flip_holds (op : Op) (a b : ℤ) : op.flip.Holds a b ↔ op.Holds b a := by
  cases op <;> simp only [flip, Holds, eq_comm]

end Op

namespace Comparison

/-- The number lies at an end of the city's nonempty range so that the code takes one of the
comparison and its negation for the other. -/
def Misread (c : Comparison) (x : City) : Prop :=
  let low := (x.range c.key).1.toInt
  let high := (x.range c.key).2.toInt
  let v := c.literal.value
  low < high ∧
    match c.swapped, c.op with
    | false, .gt | false, .ge => high = v + 1
    | true, .lt => ¬ (low < v ↔ v + 1 < high)
    | true, .le => ¬ (low ≤ v ↔ v < high)
    | true, .gt => ¬ (low < v ↔ v < high)
    | true, .ge => ¬ (low ≤ v ↔ v + 1 < high)
    | _, _ => False

theorem sat_iff (c : Comparison) (x : City) :
    c.Sat x ↔ (x.range c.key).1.toInt < (x.range c.key).2.toInt ∧
      (if c.swapped then c.op.flip else c.op).Meets (x.range c.key).1.toInt
        (x.range c.key).2.toInt c.literal.value := by
  rw [← Op.exists_holds]
  refine exists_congr fun t => and_congr_right fun _ => ?_
  split_ifs
  · exact (Op.flip_holds _ _ _).symm
  · rfl

theorem read_sat_iff (c : Comparison) (x : City) : c.read.Sat x ↔ (c.Sat x ↔ ¬ c.Misread x) := by
  rw [sat_iff, sat_iff]
  obtain ⟨key, op, literal, swapped⟩ := c
  unfold Misread
  cases swapped <;> cases op <;> simp only [read, Op.read, Op.flip, Op.Meets, Bool.false_eq_true,
    if_true, if_false] <;> grind

end Comparison

theorem Disj.holds_congr {α : Type} {p p' : α → Prop} (h : ∀ a, p a ↔ p' a) (f : Disj α) :
    f.Holds p ↔ f.Holds p' := by
  rw [show p = p' from funext fun a => propext (h a)]

/-- The answer is the formula's exactly when no successor of the greatest number is needed and, on
every stored city, the formula keeps its truth value when those of the misread comparisons are
negated. -/
theorem query_answers_iff (cities : List City) {f : Formula} {q : Str} (hq : Spaced f.words q) :
    Answers (build cities : CityDB M) q f.Sat ↔ f.Defined ∧
      ∀ x, (build cities : CityDB M).cityObjectDB[x.city]? = some x →
        (f.Holds (fun c => c.Sat x ↔ ¬ c.Misread x) ↔ f.Holds fun c => c.Sat x) := by
  obtain ⟨h, hs⟩ := stored_build (M := M) cities
  obtain ⟨hdef, hundef⟩ := query_formula h hs hq
  have hread : ∀ x, f.ReadSat x ↔ f.Holds fun c => c.Sat x ↔ ¬ c.Misread x := fun x =>
    f.holds_congr fun c => c.read_sat_iff x
  constructor
  · intro ha
    have hd : f.Defined := by
      by_contra hd
      obtain ⟨rc, db', hq', -⟩ := ha
      rw [hq'] at hundef
      cases hundef hd
    exact ⟨hd, fun x hx => (hread x).symm.trans ((hdef hd).unique ha x hx)⟩
  · rintro ⟨hd, hp⟩
    exact (hdef hd).congr fun x hx => (hread x).trans (hp x hx)

def pune : City := ⟨['P', 'u', 'n', 'e'], (10, 30), (35, 50)⟩

def goa : City := ⟨['G', 'o', 'a'], (30, 40), (60, 90)⟩

def agra : City := ⟨['A', 'g', 'r', 'a'], (5, 20), (20, 40)⟩

theorem pune_stored : (build [pune] : CityDB M).cityObjectDB[pune.city]? = some pune :=
  (build_stored (by decide) pune).2 (by simp)

def literal29 : Literal := ⟨.none, ['2', '9'], by decide, List.all_eq_true.1 rfl, by decide⟩

/-- `T op 29` -/
def compare29 (op : Op) : Formula := .one (.one ⟨.TEMPERATURE, op, literal29, false⟩)

theorem spaced_compare29 (op : Op) :
    Spaced (compare29 op).words (['T'] ++ ' ' :: (op.text ++ ' ' :: ['2', '9'])) := by
  have hlast : Spaced [['2', '9']] ['2', '9'] := .last (by decide)
  have hop : Spaced [op.text, ['2', '9']] (op.text ++ ' ' :: ['2', '9']) :=
    .word (by cases op <;> decide) (by cases op <;> decide) hlast
  exact .word (w := ['T']) (by decide) (by decide) hop

/-- `T < 29` is answered right. -/
theorem query_answers_iff_pune : Answers (build [pune] : CityDB (Segments ℤ ℕ))
    ['T', ' ', '<', ' ', '2', '9'] (compare29 .lt).Sat :=
  (query_answers_iff [pune] (spaced_compare29 .lt)).2 ⟨fun h => absurd h.1 (by decide), fun x _ => by
    simp [Disj.Holds, Conj.Holds, compare29, Comparison.Misread]⟩

/-- `T > 29` is not: no value below 30 is above 29. -/
theorem not_query_answers : ¬ ∀ (cities : List City) (f : Formula) (q : Str), Spaced f.words q →
    Answers (build cities : CityDB (Segments ℤ ℕ)) q f.Sat := by
  intro h
  have hspaced := spaced_compare29 .gt
  obtain ⟨hstored, hs⟩ := stored_build (M := Segments ℤ ℕ) [pune]
  have hread := (query_formula hstored hs hspaced).1 fun ho => absurd ho.1 (by decide)
  have hat : (compare29 .gt).ReadSat pune := ⟨29, ⟨by decide, by decide⟩, le_refl (29 : ℤ)⟩
  obtain ⟨t, ⟨-, ht⟩, hgt⟩ := (hread.unique (h [pune] _ _ hspaced) pune pune_stored).1 hat
  have ht : t < 30 := ht
  have hgt : 29 < t := hgt
  omega

end CPPCodes.Cities
