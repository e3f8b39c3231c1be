import CPPCodes.Cities.CityDB
import CPPCodes.Lib.Words

/-!
# Spaces in a query

`split` finds the words of a line, and one more, empty, behind them where the line is empty or ends
with the delimiter (`split_eq`): the part after the last delimiter is appended without the check
that the others pass. So spaces before and between the words of a query do not count, while one
behind the last word brings one more operand.
-/

namespace CPPCodes.Cities

open Words (Runs words wordsFrom)

/-- The line has a last character, and it is not the delimiter. -/
def endsInWord (delim : Char) (line : Str) : Bool := line.getLast?.any (· ≠ delim)

/-- The part behind the last delimiter, where it is empty. -/
def emptyLast (delim : Char) (line : Str) : List Str := if endsInWord delim line then [] else [[]]

theorem endsInWord_append (delim : Char) (s line : Str) :
    endsInWord delim (s ++ delim :: line) = endsInWord delim line := by
  unfold endsInWord
  rw [List.getLast?_append, List.getLast?_cons]
  cases line.getLast? <;> simp

theorem endsInWord_of_notMem {delim : Char} {w : Str} (hne : w ≠ []) (hw : delim ∉ w) :
    endsInWord delim w = true := by
  unfold endsInWord
  rw [List.getLast?_eq_getLast_of_ne_nil hne]
  have hlast : w.getLast hne ≠ delim := fun h => hw (h ▸ List.getLast_mem hne)
  simpa using hlast

theorem splitFrom_eq {delim : Char} : ∀ line acc : Str, delim ∉ acc →
    splitFrom delim acc line
      = wordsFrom delim acc line ++ emptyLast delim (acc.reverse ++ line)
  | [], acc, ha => by
    unfold splitFrom wordsFrom emptyLast
    rw [List.append_nil]
    by_cases h : acc = []
    · subst h
      rfl
    · rw [if_neg h, if_pos (endsInWord_of_notMem (by simpa using h) (by simpa using ha))]
      rfl
  | c :: line, acc, ha => by
    unfold splitFrom wordsFrom
    by_cases hc : c = delim
    · subst hc
      have ih := splitFrom_eq line [] (List.not_mem_nil (a := c))
      rw [if_pos rfl, if_pos rfl, ih, List.reverse_nil, List.nil_append]
      unfold emptyLast
      rw [endsInWord_append]
      by_cases h : acc = [] <;> simp [h]
    · rw [if_neg hc, if_neg hc, splitFrom_eq line (c :: acc) (by simp [ha, Ne.symm hc])]
      simp

theorem split_eq (line : Str) (delim : Char) :
    split line delim = words delim line ++ emptyLast delim line :=
  splitFrom_eq line [] (by simp)

theorem runs_split_iff (line : Str) (delim : Char) :
    Runs delim line (split line delim) ↔ endsInWord delim line = true := by
  rw [Words.runs_iff, split_eq, emptyLast]
  split_ifs with h <;> simp [h]

/-- One of the words stops `tokanize` at an assert. -/
def Stops (ws : List Str) : Prop := ∃ w ∈ ws, stringToToken w = .error .assertion

theorem stringToToken_cases (e : Str) :
    (∃ t, stringToToken e = .ok t) ∨ stringToToken e = .error .assertion := by
  unfold stringToToken
  split <;> first | split_ifs | skip
  all_goals first | exact .inl ⟨_, rfl⟩ | exact .inr rfl

theorem toToken_ok {e : Str} {t : TokenType} (h : stringToToken e = .ok t) (keywords : List Str) :
    ∃ token, toToken keywords e = .ok token := by
  unfold toToken
  rw [h]
  by_cases hk : t = .ID ∧ e ∈ keywords
  · exact ⟨⟨.KEYWORD, e⟩, if_pos hk⟩
  · exact ⟨⟨t, e⟩, if_neg hk⟩

theorem tokanize_cons (w : Str) (ws keywords : List Str) :
    tokanize (w :: ws) keywords = (do
      let t ← toToken keywords w
      let tokens ← tokanize ws keywords
      return t :: tokens) := List.mapM_cons

theorem tokanize_cases (keywords : List Str) : ∀ ws : List Str,
    (∃ tokens, tokanize ws keywords = .ok tokens ∧ tokens.length = ws.length ∧ ¬ Stops ws) ∨
      (tokanize ws keywords = .error .assertion ∧ Stops ws)
  | [] => .inl ⟨[], rfl, rfl, by simp [Stops]⟩
  | w :: ws => by
    rw [tokanize_cons]
    rcases stringToToken_cases w with ⟨t, ht⟩ | ht
    · obtain ⟨token, htoken⟩ := toToken_ok ht keywords
      rw [htoken]
      rcases tokanize_cases keywords ws with ⟨tokens, hts, hlen, hgo⟩ | ⟨hts, hstop⟩
      · rw [hts]
        refine .inl ⟨token :: tokens, rfl, congrArg (· + 1) hlen, ?_⟩
        rintro ⟨v, hv, hstop⟩
        rcases List.mem_cons.1 hv with rfl | hv
        · cases ht.symm.trans hstop
        · exact hgo ⟨v, hv, hstop⟩
      · rw [hts]
        obtain ⟨v, hv, hstop⟩ := hstop
        exact .inr ⟨rfl, v, List.mem_cons_of_mem _ hv, hstop⟩
    · refine .inr ⟨?_, w, List.mem_cons_self, ht⟩
      unfold toToken
      rw [ht]
      rfl

/-- An empty word is an operand, so it makes a difference unless the words before it stop. -/
theorem tokanize_emptyLast (ws keywords : List Str) :
    tokanize (ws ++ [[]]) keywords = tokanize ws keywords ↔ Stops ws := by
  have hstops : Stops (ws ++ [[]]) ↔ Stops ws := by
    have hempty : stringToToken [] ≠ .error .assertion := by
      unfold stringToToken
      exact fun h => by cases h
    simp only [Stops, List.mem_append, List.mem_singleton, or_and_right, exists_or,
      exists_eq_left, hempty, or_false]
  rcases tokanize_cases keywords ws with ⟨tokens, hts, hlen, hgo⟩ | ⟨hts, hstop⟩
  · refine iff_of_false (fun h => ?_) hgo
    rcases tokanize_cases keywords (ws ++ [[]]) with ⟨tokens', hts', hlen', -⟩ | ⟨hts', hstop'⟩
    · obtain rfl := Except.ok.inj (hts.symm.trans (h.symm.trans hts'))
      rw [hlen, List.length_append, List.length_singleton] at hlen'
      omega
    · exact hgo (hstops.1 hstop')
  · refine iff_of_true ?_ hstop
    rcases tokanize_cases keywords (ws ++ [[]]) with ⟨_, _, _, hgo'⟩ | ⟨hts', -⟩
    · exact absurd (hstops.2 hstop) hgo'
    · rw [hts, hts']

/-- The two texts give the same tokens, the same postfix form and the same result of `query`. -/
structure SameQuery (q q' : Str) : Prop where
  tokens : ∀ keywords, tokanize (split q ' ') keywords = tokanize (split q' ' ') keywords
  parsed : ∀ keywords, recursiveDecent q keywords = recursiveDecent q' keywords
  query : ∀ {M : Type} [IntervalMap M ℤ ℕ] (db : CityDB M), db.query q = db.query q'

theorem sameQuery_of_tokens {q q' : Str}
    (h : ∀ keywords, tokanize (split q ' ') keywords = tokanize (split q' ' ') keywords) :
    SameQuery q q' := by
  have hdecent : ∀ keywords, recursiveDecent q keywords = recursiveDecent q' keywords := by
    intro keywords
    unfold recursiveDecent
    rw [h keywords]
  refine ⟨h, hdecent, fun db => ?_⟩
  unfold CityDB.query
  rw [hdecent keywords]

theorem sameQuery_iff {q q' : Str} {ws : List Str} (hq : Runs ' ' q ws) (hq' : Runs ' ' q' ws) :
    SameQuery q q' ↔ endsInWord ' ' q = endsInWord ' ' q' ∨ Stops ws := by
  have hs := split_eq q ' '
  have hs' := split_eq q' ' '
  rw [← hq.eq_words, emptyLast] at hs
  rw [← hq'.eq_words, emptyLast] at hs'
  constructor
  · intro h
    have ht := h.tokens []
    rw [hs, hs'] at ht
    split_ifs at ht with h1 h2 h2
    · exact .inl (h1.trans h2.symm)
    · rw [List.append_nil] at ht
      exact .inr ((tokanize_emptyLast ws []).1 ht.symm)
    · rw [List.append_nil] at ht
      exact .inr ((tokanize_emptyLast ws []).1 ht)
    · exact .inl ((Bool.eq_false_iff.2 h1).trans (Bool.eq_false_iff.2 h2).symm)
  · intro h
    refine sameQuery_of_tokens fun keywords => ?_
    rw [hs, hs']
    rcases h with h | hstop
    · rw [h]
    · have hempty := (tokanize_emptyLast ws keywords).2 hstop
      split_ifs <;> simp only [List.append_nil, hempty]

/-- `split` finds the words of a line exactly when the line ends in a word. Queries with the same
words are the same to the parser and to the database exactly when both end in a word or neither
does, unless one of the words stops the program. -/
theorem split_words_iff (line : Str) (delim : Char) :
    (Runs delim line (split line delim) ↔ endsInWord delim line = true) ∧
    ∀ (other : Str) (ws : List Str), Runs ' ' line ws → Runs ' ' other ws →
      (SameQuery line other ↔ endsInWord ' ' line = endsInWord ' ' other ∨ Stops ws) :=
  ⟨runs_split_iff line delim, fun _ _ => sameQuery_iff⟩

/-- A space before the only word. -/
theorem split_words_front : SameQuery ['T'] [' ', 'T'] := by
  have hw : Runs ' ' ['T'] [['T']] := .last (by decide) (by decide)
  exact ((split_words_iff ['T'] ' ').2 [' ', 'T'] [['T']] hw (.skip hw)).2 (.inl rfl)

/-- A space behind the last word. -/
theorem not_split_words : ¬ ∀ (line : Str) (delim : Char), Runs delim line (split line delim) := by
  intro h
  have hno := (h ['T', ' '] ' ').mem (w := []) (by decide)
  exact hno.1 rfl

end CPPCodes.Cities
