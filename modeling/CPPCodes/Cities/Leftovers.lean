import CPPCodes.Cities.Evaluation
import CPPCodes.Lib.Transition

/-!
# What a query leaves behind

The two stacks are members of the database and no query clears them, so what a query leaves there
is found by the next one. A database whose stacks are not empty answers some query in another way
than it would with empty ones (`untainted_iff`), and a call leaves them empty exactly when
`LeavesNothing` holds of what it finds and of its text (`query_leftovers`).
-/

namespace CPPCodes.Cities

open Transition

theorem mem_parseLoop {t : Token} {tokens stack : List Token} (h : t ∈ parseLoop tokens stack) :
    t ∈ tokens ∨ t ∈ stack :=
  List.mem_append.1 ((parseLoop_perm tokens stack).mem_iff.1 h)

theorem toToken_result (e : Str) :
    (∃ t, toToken keywords e = .ok t ∧ Proper t) ∨ toToken keywords e = .error .assertion := by
  unfold toToken
  have hstring : (∃ t, stringToToken e = .ok t ∧ t ≠ .KEYWORD) ∨
      stringToToken e = .error .assertion := by
    unfold stringToToken
    split <;> first | split_ifs | skip
    all_goals first | exact .inl ⟨_, rfl, by decide⟩ | exact .inr rfl
  rcases hstring with ⟨t, ht, hne⟩ | ht
  · rw [ht]
    refine .inl ?_
    by_cases hk : t = .ID ∧ e ∈ keywords
    · exact ⟨⟨.KEYWORD, e⟩, if_pos hk, fun _ => hk.2⟩
    · exact ⟨⟨t, e⟩, if_neg hk, fun h => absurd (by simpa [Token.isKeyWord] using h) hne⟩
  · rw [ht]
    exact .inr rfl

theorem tokanize_result : ∀ words : List Str,
    (∃ tokens, tokanize words keywords = .ok tokens ∧ ∀ t ∈ tokens, Proper t) ∨
      tokanize words keywords = .error .assertion
  | [] => .inl ⟨[], rfl, by simp⟩
  | w :: words => by
    have hcons : tokanize (w :: words) keywords = (do
        let t ← toToken keywords w
        let tokens ← tokanize words keywords
        return t :: tokens) := List.mapM_cons
    rw [hcons]
    rcases toToken_result w with ⟨t, ht, hp⟩ | ht
    · rw [ht]
      rcases tokanize_result words with ⟨tokens, hts, hps⟩ | hts
      · rw [hts]
        refine .inl ⟨t :: tokens, rfl, fun t' h' => ?_⟩
        rcases List.mem_cons.1 h' with rfl | h'
        · exact hp
        · exact hps t' h'
      · rw [hts]
        exact .inr rfl
    · rw [ht]
      exact .inr rfl

theorem recursiveDecent_result (q : Str) :
    (∃ tokens, recursiveDecent q keywords = .ok tokens ∧ ∀ t ∈ tokens, Proper t) ∨
      recursiveDecent q keywords = .error .assertion := by
  unfold recursiveDecent
  rcases tokanize_result (split q ' ') with ⟨tokens, ht, hp⟩ | ht
  · rw [ht]
    exact .inl ⟨_, rfl, fun t h => hp t ((mem_parseLoop h).resolve_right (by simp))⟩
  · rw [ht]
    exact .inr rfl

/-- The program goes on after the call. -/
def GoesOn {α : Type} (r : Except Fault α) : Prop := ∀ f, r = .error f → f.throws = true

variable {M : Type} {db : CityDB M}

theorem mapM_city_error {f : Fault} : ∀ {l : List ℕ}, l.mapM db.city = .error f → f = .undefined
  | [], h => by cases h
  | k :: l, h => by
    rw [List.mapM_cons] at h
    cases hk : db.city k with
    | error g =>
      rw [hk] at h
      obtain rfl := Except.error.inj h
      unfold CityDB.city at hk
      split at hk
      · exact (Except.error.inj hk).symm
      · split at hk
        · exact (Except.error.inj hk).symm
        · cases hk
    | ok c =>
      cases hl : l.mapM db.city with
      | error g =>
        rw [hk, hl] at h
        exact Except.error.inj h ▸ mapM_city_error hl
      | ok cs =>
        rw [hk, hl] at h
        cases h

variable [IntervalMap M ℤ ℕ]

/-- A call after which the program goes on has returned an answer or thrown on the way. -/
theorem query_cases {q : Str} {r : Except Fault (List City)} {db' : CityDB M}
    (h : db.query q = (r, db')) (hgo : GoesOn r) : ∃ tokens s,
      recursiveDecent q keywords = .ok tokens ∧ (∀ t ∈ tokens, Proper t) ∧
      ((∃ rc set, r = .ok rc ∧ db.eval tokens db.toStacks = (.ok (), ⟨s.tokenStack, [set]⟩) ∧
          db' = { db with toStacks := ⟨s.tokenStack, []⟩ }) ∨
        ∃ f, r = .error f ∧ db.eval tokens db.toStacks = (.error f, s) ∧
          db' = { db with toStacks := s }) := by
  rcases recursiveDecent_result q with ⟨tokens, hq, hp⟩ | hq
  · cases he : db.eval tokens db.toStacks with
    | mk res s =>
      refine ⟨tokens, s, hq, hp, ?_⟩
      cases res with
      | error f =>
        obtain ⟨rfl, rfl⟩ := Prod.mk.inj ((CityDB.query_of_error hq he).symm.trans h)
        exact .inr ⟨f, rfl, he, rfl⟩
      | ok =>
        obtain ⟨hr, hdb⟩ := Prod.mk.inj ((CityDB.query_of_eval hq he).symm.trans h)
        obtain ⟨ts, rs⟩ := s
        match rs, hr, hdb with
        | [set], hr, hdb =>
          cases r with
          | ok rc => exact .inl ⟨rc, set, rfl, he, hdb.symm⟩
          | error f =>
            obtain rfl := mapM_city_error hr
            cases hgo _ rfl
        | [], hr, _ => cases hgo _ hr.symm
        | _ :: _ :: _, hr, _ => cases hgo _ hr.symm
  · unfold CityDB.query at h
    rw [hq] at h
    obtain ⟨rfl, -⟩ := Prod.mk.inj h
    cases hgo _ rfl

/-- The query uses up what it finds and what it brings, or throws at once. -/
def LeavesNothing (s : Stacks) (q : Str) : Prop :=
  ∃ tokens, recursiveDecent q keywords = .ok tokens ∧ (UsesUp s tokens ∨ ThrowsAtOnce s tokens)

/-- The operands on the token stack are as `tokanize` makes them. -/
def ProperStack (s : Stacks) : Prop := ∀ t ∈ s.tokenStack, t.isOperand = true ∧ Proper t

theorem query_empty_iff (hs : ProperStack db.toStacks) {q : Str} {r : Except Fault (List City)}
    {db' : CityDB M} (h : db.query q = (r, db')) (hgo : GoesOn r) :
    (db'.tokenStack = [] ∧ db'.resultStack = []) ↔ LeavesNothing db.toStacks q := by
  obtain ⟨tokens, s, hq, hp, hcase⟩ := query_cases h hgo
  have hcond : LeavesNothing db.toStacks q ↔
      UsesUp db.toStacks tokens ∨ ThrowsAtOnce db.toStacks tokens := by
    refine ⟨fun ⟨tokens', hq', hc⟩ => ?_, fun hc => ⟨tokens, hq, hc⟩⟩
    exact Except.ok.inj (hq'.symm.trans hq) ▸ hc
  rw [hcond]
  rcases hcase with ⟨rc, set, -, he, rfl⟩ | ⟨f, rfl, he, rfl⟩
  · rw [← eval_ok_empty_iff he]
    exact and_iff_left rfl
  · exact eval_throws_empty_iff hs hp (hgo f rfl) he

theorem query_properStack (hs : ProperStack db.toStacks) {q : Str} {r : Except Fault (List City)}
    {db' : CityDB M} (h : db.query q = (r, db')) (hgo : GoesOn r) : ProperStack db'.toStacks := by
  rcases query_cases h hgo with ⟨tokens, s, hq, hp, ⟨rc, set, -, he, rfl⟩ | ⟨f, rfl, he, rfl⟩⟩
  · have hproper := eval_proper he (fun f hf => by simp at hf) hs hp
    exact hproper
  · exact eval_proper he (fun g hg => Except.error.inj hg ▸ hgo f rfl) hs hp

namespace CityDB

/-- The same cities, and empty stacks. -/
def clear (db : CityDB M) : CityDB M := { db with toStacks := ⟨[], []⟩ }

end CityDB

/-- Every query ends as it would with empty stacks. -/
def Untainted (db : CityDB M) : Prop := ∀ q, (db.query q).1 = (db.clear.query q).1

theorem Stored.stacks (h : Stored db) (s : Stacks) : Stored { db with toStacks := s } := by
  refine ⟨h.toInv.of_same rfl rfl (fun a => ?_) (fun a => ?_) (fun a => ?_) (fun _ _ => Iff.rfl)
    h.name h.object, h.keyed⟩
  all_goals cases a <;> rfl

/-- `T < 0` -/
def coldComparison : Comparison :=
  ⟨.TEMPERATURE, .lt, ⟨.none, ['0'], by decide, List.all_eq_true.1 rfl, by decide⟩, false⟩

def coldQuery : Str := ['T', ' ', '<', ' ', '0']

theorem recursiveDecent_cold :
    recursiveDecent coldQuery keywords = .ok (coldComparison.clause.postOrder ++ []) := rfl

/-- A result on the stack makes the assert on its size fail. -/
theorem query_cold (h : Inv db) : (db.resultStack = [] → ∃ rc, (db.query coldQuery).1 = .ok rc) ∧
    (db.resultStack ≠ [] → (db.query coldQuery).1 = .error .assertion) := by
  obtain ⟨set, hset, hknown, -⟩ := (queryKey_comparison h coldComparison).2 fun ho =>
    absurd ho.1 (by decide)
  have heval : db.eval (coldComparison.clause.postOrder ++ []) db.toStacks = _ :=
    eval_clause coldComparison [] db.toStacks
  rw [hset] at heval
  refine ⟨fun hnil => ?_, fun hne => ?_⟩
  · obtain ⟨rc, hrc, -⟩ := h.answer hknown db.tokenStack
    have heval : db.eval (coldComparison.clause.postOrder ++ []) db.toStacks
        = (.ok (), ⟨db.tokenStack, [set]⟩) := by
      rw [heval, hnil]
      rfl
    exact ⟨rc, by rw [CityDB.query_of_eval recursiveDecent_cold heval, hrc]⟩
  · cases hrs : db.resultStack with
    | nil => exact absurd hrs hne
    | cons r rs =>
      have heval : db.eval (coldComparison.clause.postOrder ++ []) db.toStacks
          = (.ok (), ⟨db.tokenStack, set :: r :: rs⟩) := by
        rw [heval, hrs]
        rfl
      rw [CityDB.query_of_eval recursiveDecent_cold heval]
      rfl

def unaryTokens : List Token := [⟨.KEYWORD, ['T']⟩, ⟨.LT, ['<']⟩]

def unaryQuery : Str := ['T', ' ', '<']

theorem recursiveDecent_unary : recursiveDecent unaryQuery keywords = .ok unaryTokens := rfl

theorem queryKey_lt (k v : Token) (w : Str) : db.queryKey k ⟨.LT, w⟩ v =
    match stoll v.value with
    | .ok val => .ok (db.inRange (attr k) (db.lowest (attr k), val))
    | .error f => .error f := by
  rw [CityDB.queryKey_eq]
  cases stoll v.value <;> rfl

theorem queryOperator_top (x : Token) (ts : List Token) (rs : List CitySet) :
    db.queryOperator ⟨.LT, ['<']⟩ ⟨⟨.KEYWORD, ['T']⟩ :: x :: ts, rs⟩ =
      if startsNumber x.value = true then
        match db.queryKey ⟨.KEYWORD, ['T']⟩ ⟨.LT, ['<']⟩ x with
        | .ok set => (.ok (), ⟨ts, set :: rs⟩)
        | .error f => (.error f, ⟨ts, rs⟩)
      else (.error .assertion, ⟨ts, rs⟩) := by
  have hkey : Token.isKeyWord ⟨.KEYWORD, ['T']⟩ = true ∧ Token.isOperand ⟨.KEYWORD, ['T']⟩ = true :=
    ⟨rfl, rfl⟩
  have hop : Token.isOperator ⟨.LT, ['<']⟩ = true := rfl
  unfold CityDB.queryOperator
  cases hq : db.queryKey ⟨.KEYWORD, ['T']⟩ ⟨.LT, ['<']⟩ x <;>
    simp only [hop, hkey, hq, if_true, true_or, and_self]

/-- An operand on the stack becomes the second one of `T <`, where it has none of its own. -/
theorem query_unary (h : Inv db) :
    (db.tokenStack = [] → (db.query unaryQuery).1 = .error .undefined) ∧
    (db.tokenStack ≠ [] → db.resultStack = [] → (db.query unaryQuery).1 ≠ .error .undefined) := by
  refine ⟨fun hnil => ?_, fun hne hrs => ?_⟩
  · have heval : db.eval unaryTokens db.toStacks
        = (.error .undefined, ⟨[⟨.KEYWORD, ['T']⟩], db.resultStack⟩) := by
      unfold unaryTokens
      rw [eval_operand rfl, hnil]
      rfl
    rw [CityDB.query_of_error recursiveDecent_unary heval]
  · cases hts : db.tokenStack with
    | nil => exact absurd hts hne
    | cons x ts =>
      have heval : db.eval unaryTokens db.toStacks = if startsNumber x.value = true then
            match stoll x.value with
            | .ok val => (.ok (), ⟨ts, [db.inRange .TEMPERATURE (db.lowest .TEMPERATURE, val)]⟩)
            | .error f => (.error f, ⟨ts, []⟩)
          else (.error .assertion, ⟨ts, []⟩) := by
        unfold unaryTokens
        rw [eval_operand rfl, CityDB.eval, evalToken_comparison rfl, hts, hrs, queryOperator_top]
        split_ifs with hnum
        · rw [queryKey_lt]
          cases stoll x.value <;> rfl
        · rfl
      split_ifs at heval with hnum
      · cases hst : stoll x.value with
        | ok val =>
          rw [hst] at heval
          obtain ⟨rc, hrc, -⟩ := h.answer (h.known_inRange .TEMPERATURE
            (db.lowest .TEMPERATURE, val)) ts
          rw [CityDB.query_of_eval recursiveDecent_unary heval, hrc]
          exact fun h => by cases h
        | error f =>
          rw [hst] at heval
          rw [CityDB.query_of_error recursiveDecent_unary heval]
          intro hf
          obtain rfl := Except.error.inj hf
          cases stoll_throws hst
      · rw [CityDB.query_of_error recursiveDecent_unary heval]
        exact fun h => by cases h

theorem untainted_iff (h : Stored db) :
    Untainted db ↔ db.tokenStack = [] ∧ db.resultStack = [] := by
  have hclear : Inv db.clear := (h.stacks ⟨[], []⟩).toInv
  constructor
  · intro hu
    have hrs : db.resultStack = [] := by
      by_contra hne
      obtain ⟨rc, hrc⟩ := (query_cold hclear).1 rfl
      have hq := hu coldQuery
      rw [(query_cold h.toInv).2 hne, hrc] at hq
      cases hq
    refine ⟨?_, hrs⟩
    by_contra hne
    exact (query_unary h.toInv).2 hne hrs ((hu unaryQuery).trans ((query_unary hclear).1 rfl))
  · rintro ⟨hts, hrs⟩ q
    have hself : db = db.clear := by
      unfold CityDB.clear
      rw [← hts, ← hrs]
    rw [← hself]

/-- The calls of a program. -/
inductive Act (M : Type)
  | addCity (c : City)
  | load (saved : CityDB M)
  | query (q : Str)

/-- A call after which the program goes on; what it loads is what `save` writes. -/
def CityStep (db : CityDB M) (a : Act M) (db' : CityDB M) : Prop :=
  match a with
  | .addCity c => db' = (db.addCity c).2
  | .load saved => Stored saved ∧ db.load id (saved.save id) = .ok db'
  | .query q => ∃ r, db.query q = (r, db') ∧ GoesOn r

/-- A step in which a query leaves nothing. -/
def CleanStep (db : CityDB M) (a : Act M) (db' : CityDB M) : Prop :=
  CityStep db a db' ∧ ∀ q, a = .query q → LeavesNothing db.toStacks q

theorem load_key {db db' : CityDB M} {saved : CityDB M}
    (h : db.load id (saved.save id) = .ok db') : db.key = 0 := by
  unfold CityDB.load at h
  simp only at h
  split_ifs at h with hkey
  exact hkey

theorem CityStep.inv {db db' : CityDB M} {a : Act M} (h : Stored db ∧ ProperStack db.toStacks)
    (hs : CityStep db a db') : Stored db' ∧ ProperStack db'.toStacks := by
  obtain ⟨h, hp⟩ := h
  cases a with
  | addCity c =>
    obtain rfl := hs
    obtain ⟨h', hstacks, -⟩ := h.addCity c
    exact ⟨h', hstacks ▸ hp⟩
  | load saved =>
    obtain ⟨hsaved, hload⟩ := hs
    obtain ⟨db₁, hload₁, h', hstacks, -⟩ :=
      load_save id id (fun _ => rfl) hsaved h.toInv (load_key hload)
    obtain rfl := Except.ok.inj (hload₁.symm.trans hload)
    exact ⟨h', hstacks ▸ hp⟩
  | query q =>
    obtain ⟨r, hq, hgo⟩ := hs
    refine ⟨?_, query_properStack hp hq hgo⟩
    rcases query_cases hq hgo with ⟨_, s, -, -, ⟨_, _, -, -, rfl⟩ | ⟨_, -, -, rfl⟩⟩
    · exact h.stacks _
    · exact h.stacks _

theorem CleanStep.inv {db db' : CityDB M} {a : Act M}
    (h : (Stored db ∧ ProperStack db.toStacks) ∧ db.tokenStack = [] ∧ db.resultStack = [])
    (hs : CleanStep db a db') :
    (Stored db' ∧ ProperStack db'.toStacks) ∧ db'.tokenStack = [] ∧ db'.resultStack = [] := by
  obtain ⟨hI, hts, hrs⟩ := h
  obtain ⟨hstep, hclean⟩ := hs
  refine ⟨hstep.inv hI, ?_⟩
  cases a with
  | addCity c =>
    obtain rfl := hstep
    obtain ⟨-, hstacks, -⟩ := hI.1.addCity c
    exact ⟨(congrArg Stacks.tokenStack hstacks).trans hts,
      (congrArg Stacks.resultStack hstacks).trans hrs⟩
  | load saved =>
    obtain ⟨hsaved, hload⟩ := hstep
    obtain ⟨db₁, hload₁, -, hstacks, -⟩ :=
      load_save id id (fun _ => rfl) hsaved hI.1.toInv (load_key hload)
    obtain rfl := Except.ok.inj (hload₁.symm.trans hload)
    exact ⟨(congrArg Stacks.tokenStack hstacks).trans hts,
      (congrArg Stacks.resultStack hstacks).trans hrs⟩
  | query q =>
    obtain ⟨r, hq, hgo⟩ := hstep
    exact (query_empty_iff hI.2 hq hgo).2 (hclean q rfl)

theorem start_inv : Stored (CityDB.new : CityDB M) ∧ ProperStack (CityDB.new : CityDB M).toStacks :=
  ⟨stored_new, fun _ ht => by cases ht⟩

/-- Whatever has been called before, a query after which the program goes on has no influence on
later ones exactly when it leaves the stacks empty, and that is when `LeavesNothing` holds. In runs
of such queries no query ever has an influence. -/
theorem query_leftovers :
    (∀ db : CityDB M, Reach CityStep .new db → ∀ q r db', db.query q = (r, db') → GoesOn r →
      (Untainted db' ↔ LeavesNothing db.toStacks q) ∧
      ((db'.tokenStack = [] ∧ db'.resultStack = []) ↔ LeavesNothing db.toStacks q)) ∧
    ∀ db : CityDB M, Reach CleanStep .new db →
      (db.tokenStack = [] ∧ db.resultStack = []) ∧ Untainted db := by
  refine ⟨fun db h q r db' hq hgo => ?_, fun db h => ?_⟩
  · have hI := h.invariant (I := fun db => Stored db ∧ ProperStack db.toStacks)
      (fun _ _ _ hI hs => hs.inv hI) start_inv
    have hI' := CityStep.inv (a := .query q) hI ⟨r, hq, hgo⟩
    have hempty := query_empty_iff hI.2 hq hgo
    exact ⟨(untainted_iff hI'.1).trans hempty, hempty⟩
  · obtain ⟨hI, hempty⟩ := h.invariant (I := fun db : CityDB M =>
        (Stored db ∧ ProperStack db.toStacks) ∧ db.tokenStack = [] ∧ db.resultStack = [])
      (fun _ _ _ hI hs => hs.inv hI) ⟨start_inv, rfl, rfl⟩
    exact ⟨hempty, (untainted_iff hI.1).2 hempty⟩

/-- `T < 0 && T < 99999999999999999999`: `stoll` rejects the second number. -/
def hugeQuery : Str := coldQuery ++ [' ', '&', '&', ' ', 'T', ' ', '<', ' '] ++ List.replicate 20 '9'

/-- The exception leaves the first result on the stack. -/
theorem query_huge (h : Inv db) (hs : db.toStacks = ⟨[], []⟩) : ∃ set,
    db.query hugeQuery = (.error .outOfRange, { db with toStacks := ⟨[], [set]⟩ }) := by
  obtain ⟨set, hset, -⟩ := (queryKey_comparison h coldComparison).2 fun ho =>
    absurd ho.1 (by decide)
  have hq : recursiveDecent hugeQuery keywords = .ok (coldComparison.clause.postOrder ++
      [⟨.KEYWORD, ['T']⟩, ⟨.ID, List.replicate 20 '9'⟩, ⟨.LT, ['<']⟩, tokenAnd]) := rfl
  refine ⟨set, CityDB.query_of_error hq ?_⟩
  rw [eval_clause, hset, hs]
  rfl

/-- Two cities and two queries: `T < 0` uses up its operands, and the next one throws. -/
theorem query_leftovers_cold : ∃ rc, ∃ db₁ db₂ : CityDB (Segments ℤ ℕ),
    (build [pune, agra] : CityDB (Segments ℤ ℕ)).query coldQuery = (.ok rc, db₁) ∧ Untainted db₁ ∧
      db₁.query hugeQuery = (.error .outOfRange, db₂) ∧ ¬ Untainted db₂ := by
  obtain ⟨hcalls, hruns⟩ := query_leftovers (M := Segments ℤ ℕ)
  have hbuild : Reach CleanStep .new (build [pune, agra] : CityDB (Segments ℤ ℕ)) :=
    ((Reach.refl _).tail (i := .addCity pune) ⟨rfl, fun q h => by cases h⟩).tail
      (i := .addCity agra) ⟨rfl, fun q h => by cases h⟩
  obtain ⟨hstored, hs⟩ := stored_build (M := Segments ℤ ℕ) [pune, agra]
  obtain ⟨rc, hrc⟩ := (query_cold hstored.toInv).1 (congrArg Stacks.resultStack hs)
  rcases hcold : (build [pune, agra] : CityDB (Segments ℤ ℕ)).query coldQuery with ⟨r, db₁⟩
  obtain rfl : r = .ok rc := by rw [← hrc, hcold]
  have hclean : LeavesNothing (build [pune, agra] : CityDB (Segments ℤ ℕ)).toStacks coldQuery := by
    rw [hs]
    refine ⟨_, recursiveDecent_cold, .inl ⟨rfl, fun t ht hid => ?_⟩⟩
    have hall : ∀ t ∈ coldComparison.clause.postOrder, t.type = .ID → t.value = ['0'] := by decide
    exact ⟨0, by rw [hall t ht hid]; rfl⟩
  have hcall : CityStep (build [pune, agra]) (.query coldQuery) db₁ :=
    ⟨_, hcold, fun f hf => by cases hf⟩
  have hreach : Reach CleanStep .new db₁ := hbuild.tail ⟨hcall, fun q hq => by
    cases hq
    exact hclean⟩
  obtain ⟨⟨hts, hrs⟩, huntainted⟩ := hruns db₁ hreach
  have hinv := hreach.invariant (I := fun db : CityDB (Segments ℤ ℕ) =>
    Stored db ∧ ProperStack db.toStacks) (fun _ _ _ hI h => h.1.inv hI) start_inv
  obtain ⟨set, hhuge⟩ := query_huge hinv.1.toInv
    (show db₁.toStacks = ⟨[], []⟩ by rw [← hts, ← hrs])
  refine ⟨rc, db₁, _, rfl, huntainted, hhuge, fun hnot => ?_⟩
  obtain ⟨is, hruns'⟩ := hreach
  have hleaves := (hcalls db₁ ⟨is, hruns'.mono fun _ _ _ h => h.1⟩ hugeQuery _ _ hhuge
    fun f hf => Except.error.inj hf ▸ rfl)
  cases (hleaves.2.2 (hleaves.1.1 hnot)).2

/-- The exception leaves the first result on the stack. -/
theorem not_untainted : ¬ ∀ db : CityDB (Segments ℤ ℕ), Reach CityStep .new db →
    ∀ q r db', db.query q = (r, db') → GoesOn r → Untainted db' := by
  intro h
  have hgo : GoesOn (.error .outOfRange : Except Fault (List City)) := fun f hf =>
    Except.error.inj hf ▸ rfl
  have hquery : (CityDB.new : CityDB (Segments ℤ ℕ)).query hugeQuery
      = (.error .outOfRange, { CityDB.new with toStacks := ⟨[], [∅]⟩ }) := rfl
  have hstored := CityStep.inv (a := .query hugeQuery) start_inv ⟨_, hquery, hgo⟩
  have hempty := (untainted_iff hstored.1).1 (h _ (.refl _) _ _ _ hquery hgo)
  cases hempty.2

end CPPCodes.Cities
