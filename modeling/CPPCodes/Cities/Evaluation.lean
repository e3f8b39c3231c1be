import CPPCodes.Cities.Query

/-!
# What evaluation does to the stacks

`Did` says once what a token of a query does to the two stacks. From it follows what evaluation
leaves there: nothing, exactly when the comparisons use up the operands of the query and those they
find, or when the first of them throws with no other operand and no result around
(`eval_ok_empty_iff`, `eval_throws_empty_iff`).
-/

namespace CPPCodes.Cities

/-- The operand that `queryOperator` takes for the number, `l` being on top of `r`. -/
def number (l r : Token) : Token := if l.isKeyWord then r else l

/-- `stoll` takes the token for a number. -/
def Accepted (t : Token) : Prop := ∃ val, stoll t.value = .ok val

/-- What evaluating `e` on the stacks `s` comes to. -/
inductive Did (e : Token) (s : Stacks) : Except Fault Unit → Stacks → Prop
  | operand : e.isOperand = true → Did e s (.ok ()) { s with tokenStack := e :: s.tokenStack }
  | compared {l r : Token} {ts : List Token} {set : CitySet} :
      e.isComparison = true → s.tokenStack = l :: r :: ts → (l.isKeyWord ∨ r.isKeyWord) →
      Accepted (number l r) → Did e s (.ok ()) ⟨ts, set :: s.resultStack⟩
  | threw {l r : Token} {ts : List Token} {f : Fault} :
      e.isComparison = true → s.tokenStack = l :: r :: ts →
      startsNumber (number l r).value = true → stoll (number l r).value = .error f →
      Did e s (.error f) ⟨ts, s.resultStack⟩
  | joined {l r set : CitySet} {rs : List CitySet} : e.isConnective = true →
      s.resultStack = r :: l :: rs → Did e s (.ok ()) ⟨s.tokenStack, set :: rs⟩
  | stopped {f : Fault} {s' : Stacks} : f.throws = false → Did e s (.error f) s'

theorem stoll_throws {s : Str} {f : Fault} (h : stoll s = .error f) : f.throws = true := by
  unfold stoll at h
  simp only at h
  split_ifs at h <;> exact Except.error.inj h ▸ rfl

theorem bounds_stops {op : TokenType} {low high val : Int64} {f : Fault}
    (h : bounds op low high val = .error f) : f.throws = false := by
  have hinc : ∀ g, increment val = .error g → g.throws = false := fun g hg => by
    unfold increment at hg
    split_ifs at hg
    exact Except.error.inj hg ▸ rfl
  cases hv : increment val with
  | error g =>
    have hg := hinc g hv
    cases op <;> simp [bounds, hv, bind, Except.bind] at h <;> first | exact h ▸ hg | exact h ▸ rfl
  | ok w => cases op <;> simp [bounds, hv, bind, Except.bind, pure, Except.pure] at h <;> exact h ▸ rfl

variable {M : Type} [IntervalMap M ℤ ℕ] {db : CityDB M}

theorem queryKey_result (db : CityDB M) (k op v : Token) :
    (∃ set, db.queryKey k op v = .ok set ∧ Accepted v) ∨
    (∃ f, db.queryKey k op v = .error f ∧ (stoll v.value = .error f ∨ f.throws = false)) := by
  rw [CityDB.queryKey_eq]
  cases hv : stoll v.value with
  | error f => exact .inr ⟨f, rfl, .inl rfl⟩
  | ok val =>
    cases hb : bounds op.type (db.lowest (attr k)) (db.highest (attr k)) val with
    | error f =>
      refine .inr ⟨f, ?_, .inr (bounds_stops hb)⟩
      show (bounds op.type _ _ val >>= _) = _
      rw [hb]
      rfl
    | ok r =>
      refine .inl ⟨db.inRange (attr k) r, ?_, val, hv⟩
      show (bounds op.type _ _ val >>= _) = _
      rw [hb]
      rfl

theorem queryOperator_did {e : Token} (he : e.isComparison = true) (s : Stacks) :
    Did e s (db.queryOperator e s).1 (db.queryOperator e s).2 := by
  obtain ⟨ts, rs⟩ := s
  unfold CityDB.queryOperator
  split_ifs with hop
  swap
  · exact .stopped rfl
  rcases ts with _ | ⟨l, _ | ⟨r, ts⟩⟩
  · exact .stopped rfl
  · exact .stopped rfl
  · have hv : (if l.isKeyWord then (l, r) else (r, l)).2 = number l r := by
      unfold number
      split_ifs <;> rfl
    simp only
    revert hv
    generalize (if l.isKeyWord = true then (l, r) else (r, l)) = kv
    intro hv
    split_ifs with hassert hnum
    · rcases queryKey_result db kv.1 e kv.2 with ⟨set, hq, ha⟩ | ⟨f, hq, hf | hf⟩
      · simp only [hq]
        exact .compared he rfl hassert.1 (hv ▸ ha)
      · simp only [hq]
        exact .threw he rfl (hv ▸ hnum) (hv ▸ hf)
      · simp only [hq]
        exact .stopped hf
    · exact .stopped rfl
    · exact .stopped rfl

theorem resultJoin_did {e : Token} (he : e.isConnective = true) (s : Stacks) :
    Did e s (CityDB.resultJoin e s).1 (CityDB.resultJoin e s).2 := by
  obtain ⟨ts, rs⟩ := s
  unfold CityDB.resultJoin
  rcases rs with _ | ⟨r, _ | ⟨l, rs⟩⟩
  · exact .stopped rfl
  · exact .stopped rfl
  · unfold Token.isConnective at he
    rw [decide_eq_true_eq] at he
    rcases he with ht | ht
    · simp only [ht]
      exact .joined (by simp [Token.isConnective, ht]) rfl
    · simp only [ht]
      exact .joined (by simp [Token.isConnective, ht]) rfl

theorem evalToken_did (db : CityDB M) (e : Token) (s : Stacks) :
    Did e s (db.evalToken e s).1 (db.evalToken e s).2 := by
  by_cases ho : e.isOperand = true
  · rw [CityDB.evalToken, if_pos ho]
    exact .operand ho
  by_cases hc : e.isComparison = true
  · rw [evalToken_comparison hc]
    exact queryOperator_did hc s
  · unfold CityDB.evalToken
    rw [if_neg ho]
    unfold Token.isComparison at hc
    cases ht : e.type with
    | AND => exact resultJoin_did (by simp [Token.isConnective, ht]) s
    | OR => exact resultJoin_did (by simp [Token.isConnective, ht]) s
    | EQ | NEQ | LT | LE | GT | GE => exact absurd (by rw [ht]; rfl) hc
    | UNARY => exact .stopped rfl
    | ID => exact .stopped rfl
    | KEYWORD => exact .stopped rfl

theorem eval_cons (db : CityDB M) (e : Token) (tokens : List Token) (s : Stacks) :
    (∃ s₁, db.evalToken e s = (.ok (), s₁) ∧ db.eval (e :: tokens) s = db.eval tokens s₁) ∨
      ∃ f s₁, db.evalToken e s = (.error f, s₁) ∧ db.eval (e :: tokens) s = (.error f, s₁) := by
  rw [CityDB.eval]
  cases he : db.evalToken e s with
  | mk r s₁ =>
    cases r with
    | ok => exact .inl ⟨s₁, rfl, rfl⟩
    | error f => exact .inr ⟨f, s₁, rfl, rfl⟩

theorem did_of_evalToken {e : Token} {s s' : Stacks} {r : Except Fault Unit}
    (h : db.evalToken e s = (r, s')) : Did e s r s' := by
  have hd := evalToken_did db e s
  rw [h] at hd
  exact hd

theorem eval_append {pre : List Token} {s s₁ : Stacks} (h : db.eval pre s = (.ok (), s₁))
    (tokens : List Token) : db.eval (pre ++ tokens) s = db.eval tokens s₁ := by
  induction pre generalizing s with
  | nil =>
    obtain ⟨-, rfl⟩ := Prod.mk.inj h
    rfl
  | cons e pre ih =>
    rcases eval_cons db e pre s with ⟨s₂, he, hp⟩ | ⟨f, s₂, -, hp⟩
    · rw [List.cons_append, CityDB.eval, he]
      exact ih (hp ▸ h)
    · exact absurd (Prod.mk.inj (hp.symm.trans h)).1 (by simp)

theorem eval_operands (db : CityDB M) {pre : List Token} (h : ∀ t ∈ pre, t.isOperand = true)
    (s : Stacks) :
    db.eval pre s = (.ok (), ⟨pre.reverse ++ s.tokenStack, s.resultStack⟩) := by
  induction pre generalizing s with
  | nil => rfl
  | cons e pre ih =>
    rw [eval_operand (h e (by simp)), ih fun t ht => h t (by simp [ht])]
    simp

def operands (tokens : List Token) : ℕ := tokens.countP Token.isOperand

def comparisons (tokens : List Token) : ℕ := tokens.countP Token.isComparison

theorem kinds (e : Token) :
    (e.isOperand = true ∧ e.isComparison = false ∧ e.isConnective = false) ∨
    (e.isOperand = false ∧ e.isComparison = true ∧ e.isConnective = false) ∨
    (e.isOperand = false ∧ e.isComparison = false ∧ e.isConnective = true) ∨
    (e.isOperand = false ∧ e.isComparison = false ∧ e.isConnective = false) := by
  unfold Token.isOperand Token.isComparison Token.isConnective
  cases e.type <;> decide

theorem not_comparison_of_operand {e : Token} (h : e.isOperand = true) : e.isComparison = false := by
  have := kinds e
  simp_all

theorem not_operand_of_comparison {e : Token} (h : e.isComparison = true) : e.isOperand = false := by
  have := kinds e
  simp_all

theorem not_operand_of_connective {e : Token} (h : e.isConnective = true) :
    e.isOperand = false ∧ e.isComparison = false := by
  have := kinds e
  simp_all

/-- Of the two operands of a comparison, the keyword is no identifier and the other is accepted. -/
theorem accepted_of_number {l r t : Token} (hkey : l.isKeyWord ∨ r.isKeyWord)
    (hnum : Accepted (number l r)) (hid : t.type = .ID) (ht : t = l ∨ t = r) : Accepted t := by
  have hnot : t.isKeyWord = false := by simp [Token.isKeyWord, hid]
  unfold number at hnum
  rcases ht with rfl | rfl
  · rw [hnot] at hnum
    exact hnum
  · split_ifs at hnum with hl
    · exact hnum
    · exact absurd (hkey.resolve_left hl) (by simp [hnot])

/-- What a query that does not stop has done with the operands and the results. -/
structure Used (tokens : List Token) (s s' : Stacks) : Prop where
  length : s'.tokenStack.length + 2 * comparisons tokens = s.tokenStack.length + operands tokens
  kept : ∀ t ∈ s'.tokenStack, t ∈ s.tokenStack ∨ (t ∈ tokens ∧ t.isOperand = true)
  accepted : ∀ t, t ∈ s.tokenStack ∨ (t ∈ tokens ∧ t.isOperand = true) → t.type = .ID →
    t ∈ s'.tokenStack ∨ Accepted t
  results : s'.resultStack = [] ↔ s.resultStack = [] ∧ ∀ t ∈ tokens, t.isOperand = true

theorem Did.used {e : Token} {s s₁ s' : Stacks} {tokens : List Token} (h : Did e s (.ok ()) s₁)
    (hu : Used tokens s₁ s') : Used (e :: tokens) s s' := by
  obtain ⟨hlength, hkept, haccepted, hresults⟩ := hu
  cases h with
  | operand he =>
    refine ⟨?_, fun t ht => ?_, fun t ht hid => ?_, hresults.trans ?_⟩
    · simp only [operands, comparisons, List.countP_cons, he, not_comparison_of_operand he,
        List.length_cons] at hlength ⊢
      simp only [Bool.false_eq_true, if_false, if_true]
      omega
    · rcases hkept t ht with ht | ht
      · rcases List.mem_cons.1 ht with rfl | ht
        · exact .inr ⟨List.mem_cons_self, he⟩
        · exact .inl ht
      · exact .inr ⟨List.mem_cons_of_mem _ ht.1, ht.2⟩
    · refine haccepted t ?_ hid
      rcases ht with ht | ⟨ht, ho⟩
      · exact .inl (List.mem_cons_of_mem _ ht)
      · rcases List.mem_cons.1 ht with rfl | ht
        · exact .inl List.mem_cons_self
        · exact .inr ⟨ht, ho⟩
    · rw [List.forall_mem_cons, and_iff_right he]
  | @compared l r ts set hc hts hkey hnum =>
    have ho : e.isOperand = false := not_operand_of_comparison hc
    refine ⟨?_, fun t ht => ?_, fun t ht hid => ?_, ?_⟩
    · rw [hts]
      simp only [operands, comparisons, List.countP_cons, ho, hc, List.length_cons] at hlength ⊢
      simp only [Bool.false_eq_true, if_false, if_true]
      omega
    · rcases hkept t ht with ht | ht
      · exact .inl (by rw [hts]; exact List.mem_cons_of_mem _ (List.mem_cons_of_mem _ ht))
      · exact .inr ⟨List.mem_cons_of_mem _ ht.1, ht.2⟩
    · rcases ht with ht | ⟨ht, hto⟩
      · rw [hts] at ht
        rcases List.mem_cons.1 ht with h | ht
        · exact .inr (accepted_of_number hkey hnum hid (.inl h))
        · rcases List.mem_cons.1 ht with h | ht
          · exact .inr (accepted_of_number hkey hnum hid (.inr h))
          · exact haccepted t (.inl ht) hid
      · rcases List.mem_cons.1 ht with rfl | ht
        · exact absurd (hto.symm.trans ho) (by decide)
        · exact haccepted t (.inr ⟨ht, hto⟩) hid
    · refine hresults.trans (iff_of_false (by simp) fun h => ?_)
      exact absurd ((h.2 e List.mem_cons_self).symm.trans ho) (by decide)
  | joined hj hrs =>
    obtain ⟨ho, hc⟩ := not_operand_of_connective hj
    refine ⟨?_, fun t ht => ?_, fun t ht hid => ?_, ?_⟩
    · simp only [operands, comparisons, List.countP_cons, ho, hc] at hlength ⊢
      simp only [Bool.false_eq_true, if_false]
      omega
    · exact (hkept t ht).imp_right fun ht => ⟨List.mem_cons_of_mem _ ht.1, ht.2⟩
    · refine haccepted t (ht.imp_right fun ht => ⟨?_, ht.2⟩) hid
      rcases List.mem_cons.1 ht.1 with rfl | h
      · exact absurd (ht.2.symm.trans ho) (by decide)
      · exact h
    · refine hresults.trans (iff_of_false (by simp) fun h => ?_)
      rw [hrs] at h
      cases h.1

theorem eval_used {tokens : List Token} : ∀ {s s' : Stacks},
    db.eval tokens s = (.ok (), s') → Used tokens s s' := by
  induction tokens with
  | nil =>
    intro s s' h
    obtain ⟨-, rfl⟩ := Prod.mk.inj h
    exact ⟨rfl, fun t ht => .inl ht, fun t ht _ => .inl (by simpa using ht), by simp⟩
  | cons e tokens ih =>
    intro s s' h
    rcases eval_cons db e tokens s with ⟨s₁, he, ht⟩ | ⟨f, s₁, -, ht⟩
    · exact (did_of_evalToken he).used (ih (ht ▸ h))
    · exact absurd (Prod.mk.inj (ht.symm.trans h)).1 (by simp)

/-- A query throws at a comparison, with the stacks as that comparison has popped them. -/
theorem eval_throws {tokens : List Token} {f : Fault} (hf : f.throws = true) : ∀ {s s' : Stacks},
    db.eval tokens s = (.error f, s') → ∃ pre e rest s₁ l r, tokens = pre ++ e :: rest ∧
      db.eval pre s = (.ok (), s₁) ∧ e.isComparison = true ∧ s₁.tokenStack = l :: r :: s'.tokenStack ∧
      s'.resultStack = s₁.resultStack ∧ startsNumber (number l r).value = true ∧
      stoll (number l r).value = .error f := by
  induction tokens with
  | nil => exact fun h => absurd (Prod.mk.inj h).1 (by simp)
  | cons e tokens ih =>
    intro s s' h
    rcases eval_cons db e tokens s with ⟨s₁, he, ht⟩ | ⟨g, s₁, he, ht⟩
    · obtain ⟨pre, e', rest, s₂, l, r, rfl, hpre, hrest⟩ := ih (ht ▸ h)
      refine ⟨e :: pre, e', rest, s₂, l, r, rfl, ?_, hrest⟩
      rw [CityDB.eval, he]
      exact hpre
    · obtain ⟨hg, rfl⟩ := Prod.mk.inj (ht.symm.trans h)
      obtain rfl := Except.error.inj hg
      cases did_of_evalToken he with
      | threw hc hts hnum hst =>
        exact ⟨[], e, tokens, s, _, _, rfl, rfl, hc, hts, rfl, hnum, hst⟩
      | stopped hstop => exact absurd (hf.symm.trans hstop) (by decide)

/-- The comparisons use up the operands of the query and those on the stack, and `stoll` takes every
one of them that is no keyword. -/
def UsesUp (s : Stacks) (tokens : List Token) : Prop :=
  s.tokenStack.length + operands tokens = 2 * comparisons tokens ∧
    ∀ t ∈ s.tokenStack ++ tokens, t.type = .ID → Accepted t

/-- The first operator is a comparison whose number `stoll` rejects, its operands are the only ones
so far, and there is no result. -/
def ThrowsAtOnce (s : Stacks) (tokens : List Token) : Prop :=
  s.resultStack = [] ∧ ∃ pre e rest l r, tokens = pre ++ e :: rest ∧
    (∀ t ∈ pre, t.isOperand = true) ∧ s.tokenStack.reverse ++ pre = [r, l] ∧
    e.isComparison = true ∧ ∃ f, stoll (number l r).value = .error f

/-- An operand as `tokanize` makes them. -/
def Proper (t : Token) : Prop := t.isKeyWord = true → t.value ∈ keywords

theorem startsNumber_keyword {s : Str} (h : s ∈ keywords) : startsNumber s = false := by
  simp only [keywords, List.mem_cons, List.not_mem_nil, or_false] at h
  rcases h with rfl | rfl <;> rfl

/-- A number that an assert has let through is an identifier. -/
theorem number_id {t : Token} (ho : t.isOperand = true) (hp : Proper t)
    (hn : startsNumber t.value = true) : t.type = .ID := by
  unfold Token.isOperand at ho
  rw [decide_eq_true_eq] at ho
  refine ho.resolve_right fun hk => ?_
  have hmem := hp (by simp [Token.isKeyWord, hk])
  exact absurd (hn.symm.trans (startsNumber_keyword hmem)) (by decide)

theorem number_mem (l r : Token) : number l r = l ∨ number l r = r := by
  unfold number
  split_ifs
  · exact .inr rfl
  · exact .inl rfl

/-- A comparison whose number `stoll` rejects does not come to a result. -/
theorem Did.not_ok {e l r : Token} {ts : List Token} {rs : List CitySet} {f : Fault} {s' : Stacks}
    (hc : e.isComparison = true) (hst : stoll (number l r).value = .error f) :
    ¬ Did e ⟨l :: r :: ts, rs⟩ (.ok ()) s' := by
  intro h
  cases h with
  | operand ho => exact absurd (hc.symm.trans (not_comparison_of_operand ho)) (by decide)
  | compared _ hts _ hnum =>
    obtain ⟨rfl, htail⟩ := List.cons.inj hts
    obtain ⟨rfl, -⟩ := List.cons.inj htail
    obtain ⟨val, hval⟩ := hnum
    cases hst.symm.trans hval
  | joined hj => exact absurd (hc.symm.trans (not_operand_of_connective hj).2) (by decide)

theorem eval_at_once (db : CityDB M) {s : Stacks} {tokens : List Token} (h : ThrowsAtOnce s tokens) :
    ∃ f s', db.eval tokens s = (.error f, s') ∧ (f.throws = true → s' = ⟨[], []⟩) := by
  obtain ⟨hrs, pre, e, rest, l, r, rfl, hpre, hpair, hc, f, hst⟩ := h
  have hstack : pre.reverse ++ s.tokenStack = [l, r] := by
    rw [← List.reverse_inj, List.reverse_append, List.reverse_reverse, hpair]
    rfl
  have hops := eval_operands db hpre s
  rw [hstack, hrs] at hops
  rw [eval_append hops]
  rcases eval_cons db e rest ⟨[l, r], []⟩ with ⟨s₁, he, -⟩ | ⟨g, s₁, he, ht⟩
  · exact absurd (did_of_evalToken he) (Did.not_ok hc hst)
  · refine ⟨g, s₁, ht, fun hg => ?_⟩
    cases did_of_evalToken he with
    | threw _ hts =>
      obtain ⟨-, htail⟩ := List.cons.inj hts
      obtain ⟨-, rfl⟩ := List.cons.inj htail
      rfl
    | stopped hstop => exact absurd (hg.symm.trans hstop) (by decide)

section

variable {s s' : Stacks} {tokens : List Token}

theorem eval_ok_empty_iff (h : db.eval tokens s = (.ok (), s')) :
    s'.tokenStack = [] ↔ UsesUp s tokens ∨ ThrowsAtOnce s tokens := by
  have hu := eval_used h
  constructor
  · intro hnil
    refine .inl ⟨?_, fun t ht hid => ?_⟩
    · have hlength := hu.length
      rw [hnil, List.length_nil] at hlength
      omega
    · refine (hu.accepted t ?_ hid).resolve_left (by simp [hnil])
      exact (List.mem_append.1 ht).imp_right fun ht => ⟨ht, by simp [Token.isOperand, hid]⟩
  · rintro (⟨hcount, -⟩ | hthrows)
    · have hlength := hu.length
      exact List.length_eq_zero_iff.1 (by omega)
    · obtain ⟨f, s₁, he, -⟩ := eval_at_once db hthrows
      exact absurd (Prod.mk.inj (he.symm.trans h)).1 (by simp)

theorem eval_throws_empty_iff (hs : ∀ t ∈ s.tokenStack, t.isOperand = true ∧ Proper t)
    (ht : ∀ t ∈ tokens, Proper t) {f : Fault} (hf : f.throws = true)
    (h : db.eval tokens s = (.error f, s')) :
    (s'.tokenStack = [] ∧ s'.resultStack = []) ↔ UsesUp s tokens ∨ ThrowsAtOnce s tokens := by
  obtain ⟨pre, e, rest, s₁, l, r, rfl, hpre, hc, hts, hrs, hnum, hst⟩ := eval_throws hf h
  have hu := eval_used hpre
  constructor
  · rintro ⟨htnil, hrnil⟩
    obtain ⟨hrs₀, hops⟩ := hu.results.1 (hrs.symm.trans hrnil)
    have hs₁ := Prod.mk.inj ((eval_operands db hops s).symm.trans hpre)
    obtain ⟨-, rfl⟩ := hs₁
    have hstack : pre.reverse ++ s.tokenStack = [l, r] := by
      rw [htnil] at hts
      exact hts
    refine .inr ⟨hrs₀, pre, e, rest, l, r, rfl, hops, ?_, hc, f, hst⟩
    rw [← List.reverse_inj, List.reverse_append, List.reverse_reverse, hstack]
    rfl
  · rintro (⟨-, haccepted⟩ | hthrows)
    · -- the rejected number is one of the operands
      have hmem : number l r ∈ s₁.tokenStack := by
        rw [hts]
        rcases number_mem l r with h | h <;> simp [h]
      have hor := hu.kept _ hmem
      have hop : (number l r).isOperand = true ∧ Proper (number l r) :=
        hor.elim (hs _) fun h => ⟨h.2, ht _ (List.mem_append_left _ h.1)⟩
      obtain ⟨val, hval⟩ := haccepted (number l r) (List.mem_append.2 (hor.imp_right fun h =>
        List.mem_append_left _ h.1)) (number_id hop.1 hop.2 hnum)
      cases hst.symm.trans hval
    · obtain ⟨g, s₂, he, hempty⟩ := eval_at_once db hthrows
      obtain ⟨hg, rfl⟩ := Prod.mk.inj (he.symm.trans h)
      obtain rfl := Except.error.inj hg
      rw [hempty hf]
      exact ⟨rfl, rfl⟩

/-- The operands on the stack stay as `tokanize` makes them. -/
theorem Did.proper {e : Token} {r : Except Fault Unit} (h : Did e s r s')
    (hgo : ∀ f, r = .error f → f.throws = true)
    (hs : ∀ t ∈ s.tokenStack, t.isOperand = true ∧ Proper t) (he : Proper e) :
    ∀ t ∈ s'.tokenStack, t.isOperand = true ∧ Proper t := by
  have hpop : ∀ {l r ts}, s.tokenStack = l :: r :: ts → ∀ t ∈ ts, t.isOperand = true ∧ Proper t :=
    fun hts t ht => hs t (by rw [hts]; exact List.mem_cons_of_mem _ (List.mem_cons_of_mem _ ht))
  cases h with
  | operand ho =>
    intro t ht
    rcases List.mem_cons.1 ht with rfl | ht
    · exact ⟨ho, he⟩
    · exact hs t ht
  | compared _ hts => exact hpop hts
  | threw _ hts => exact hpop hts
  | joined => exact hs
  | stopped hstop => exact absurd ((hgo _ rfl).symm.trans hstop) (by decide)

theorem eval_proper {r : Except Fault Unit} (h : db.eval tokens s = (r, s'))
    (hgo : ∀ f, r = .error f → f.throws = true)
    (hs : ∀ t ∈ s.tokenStack, t.isOperand = true ∧ Proper t) (ht : ∀ t ∈ tokens, Proper t) :
    ∀ t ∈ s'.tokenStack, t.isOperand = true ∧ Proper t := by
  induction tokens generalizing s with
  | nil =>
    obtain ⟨-, rfl⟩ := Prod.mk.inj h
    exact hs
  | cons e tokens ih =>
    have he := ht e (by simp)
    rcases eval_cons db e tokens s with ⟨s₁, hd, hrest⟩ | ⟨f, s₁, hd, hrest⟩
    · exact ih (hrest ▸ h) ((did_of_evalToken hd).proper (fun f hf => by cases hf) hs he)
        fun t h' => ht t (by simp [h'])
    · obtain ⟨rfl, rfl⟩ := Prod.mk.inj (hrest.symm.trans h)
      exact (did_of_evalToken hd).proper hgo hs he

end

end CPPCodes.Cities
