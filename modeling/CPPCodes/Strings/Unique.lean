import CPPCodes.Strings.RemoveDuplicate

/-!
# Whether a string has a character twice

`HasUniqueCharacters` of unique.cpp, which has the `ToInt` and the bit set of remove_duplicate.cpp.
It ends at the first character that has been, so that a negative `char`, for which there is no bit,
does harm only in front of that (`hasUniqueCharacters_iff`).
-/

namespace CPPCodes.Strings.Unique

open RemoveDuplicate (test set toSize_toInt le_toSize_toInt)

abbrev toInt (c : Int8) : ℤ := RemoveDuplicate.toInt c

/-- The loop: `none` if `test` throws. -/
def uniqueLoop : List Int8 → BitVec 256 → Option Bool
  | [], _ => some true
  | c :: str, bits => do
    let seen ← test bits (toInt c)
    if seen then return false
    else
      let bits ← set bits (toInt c)
      uniqueLoop str bits

def hasUniqueCharacters (str : List Int8) : Option Bool := uniqueLoop str 0

/-- The characters that have been are no negative ones, are all different, and have their bits. -/
structure Seen (pre : List Int8) (bits : BitVec 256) : Prop where
  nonneg : ∀ c ∈ pre, 0 ≤ toInt c
  nodup : pre.Nodup
  bits : ∀ c, 0 ≤ toInt c → (bits.getLsbD (toInt c).toNat = true ↔ c ∈ pre)

variable {pre str : List Int8} {bits : BitVec 256} {c : Int8}

theorem seen_nil : Seen [] 0 := ⟨by simp, List.nodup_nil, by simp⟩

theorem test_eq (hc : 0 ≤ toInt c) :
    test bits (toInt c) = some (bits.getLsbD (toInt c).toNat) := by
  obtain ⟨hsize, hlt⟩ := toSize_toInt hc
  rw [test, hsize, if_pos hlt]

theorem test_eq_none (hc : toInt c < 0) : test bits (toInt c) = none :=
  if_neg (Nat.not_lt.2 (le_toSize_toInt hc))

theorem Seen.exists_set (h : Seen pre bits) (hc : 0 ≤ toInt c) (hnew : c ∉ pre) :
    ∃ bits', set bits (toInt c) = some bits' ∧ Seen (pre ++ [c]) bits' := by
  obtain ⟨hsize, hlt⟩ := toSize_toInt hc
  have hset : set bits (toInt c) = some (bits ||| .twoPow 256 (toInt c).toNat) := by
    unfold RemoveDuplicate.set
    rw [hsize, if_pos hlt]
  refine ⟨_, hset, ?_, ?_, fun d hd => ?_⟩
  · exact List.forall_mem_append.2 ⟨h.nonneg, List.forall_mem_singleton.2 hc⟩
  · exact List.nodup_append.2 ⟨h.nodup, by simp, fun x hx y hy => by
      obtain rfl := List.mem_singleton.1 hy
      exact fun heq => hnew (heq ▸ hx)⟩
  · have heq : (toInt c).toNat = (toInt d).toNat ↔ d = c := by
      rw [← Int8.toInt_inj]
      unfold toInt RemoveDuplicate.toInt at hc hd ⊢
      omega
    rw [BitVec.getLsbD_or, Bool.or_eq_true, h.bits d hd, List.mem_append, List.mem_singleton,
      BitVec.getLsbD_twoPow, decide_eq_true hlt, Bool.true_and, decide_eq_true_iff, heq]

/-- In the string a character that has been or a negative one comes first, or neither. -/
inductive Ends (str : List Int8) : Option Bool → Prop
  | unique : str.Nodup → (∀ c ∈ str, 0 ≤ toInt c) → Ends str (some true)
  | again {pre post : List Int8} {c : Int8} : str = pre ++ c :: post → pre.Nodup →
      (∀ x ∈ pre, 0 ≤ toInt x) → c ∈ pre → Ends str (some false)
  | throws {pre post : List Int8} {c : Int8} : str = pre ++ c :: post → pre.Nodup →
      (∀ x ∈ pre, 0 ≤ toInt x) → toInt c < 0 → Ends str none

theorem uniqueLoop_spec : ∀ {str pre : List Int8} {bits : BitVec 256}, Seen pre bits →
    Ends (pre ++ str) (uniqueLoop str bits)
  | [], pre, bits, h => by
    rw [List.append_nil]
    exact .unique h.nodup h.nonneg
  | c :: str, pre, bits, h => by
    unfold uniqueLoop
    by_cases hc : 0 ≤ toInt c
    · rw [test_eq hc, Option.bind_eq_bind, Option.bind_some]
      by_cases hmem : c ∈ pre
      · rw [if_pos ((h.bits c hc).2 hmem)]
        exact .again rfl h.nodup h.nonneg hmem
      · obtain ⟨bits', hset, h'⟩ := h.exists_set hc hmem
        have hrest : Ends (pre ++ [c] ++ str) (uniqueLoop str bits') := uniqueLoop_spec h'
        rw [if_neg (mt (h.bits c hc).1 hmem), hset, Option.bind_eq_bind, Option.bind_some]
        rwa [List.append_assoc] at hrest
    · rw [test_eq_none (by omega)]
      exact .throws rfl h.nodup h.nonneg (by omega)

theorem hasUniqueCharacters_ends (str : List Int8) : Ends str (hasUniqueCharacters str) :=
  uniqueLoop_spec seen_nil

/-- A negative character stands behind none that has been. -/
def Negative (str : List Int8) : Prop :=
  ∃ pre c post, str = pre ++ c :: post ∧ pre.Nodup ∧ toInt c < 0

/-- Behind a character that has been there may be anything. -/
theorem not_negative_again {pre post : List Int8} {c : Int8} (hnonneg : ∀ x ∈ pre, 0 ≤ toInt x)
    (hmem : c ∈ pre) : ¬ Negative (pre ++ c :: post) := by
  rintro ⟨pre', c', post', hstr, hnodup, hneg⟩
  rcases List.append_eq_append_iff.1 hstr with ⟨as, hpre', hpost⟩ | ⟨as, hpre, hpost⟩
  · cases as with
    | nil =>
      obtain rfl := (List.cons.inj hpost).1
      exact absurd (hnonneg c hmem) (Int.not_le.2 hneg)
    | cons x as =>
      -- both are in front already
      obtain rfl := (List.cons.inj hpost).1
      rw [hpre'] at hnodup
      exact absurd rfl ((List.nodup_append.1 hnodup).2.2 c hmem c (List.mem_cons_self ..))
  · refine absurd (hnonneg c' ?_) (Int.not_le.2 hneg)
    cases as with
    | nil =>
      obtain rfl := (List.cons.inj hpost).1
      exact hmem
    | cons x as =>
      obtain rfl := (List.cons.inj hpost).1
      simp [hpre]

/-- The answer is right unless a negative character stands behind none that has been, and then `test`
throws. -/
theorem hasUniqueCharacters_iff (str : List Int8) :
    (hasUniqueCharacters str = some (decide str.Nodup) ↔
      ∀ pre c post, str = pre ++ c :: post → pre.Nodup → 0 ≤ toInt c) ∧
    (hasUniqueCharacters str = none ↔
      ∃ pre c post, str = pre ++ c :: post ∧ pre.Nodup ∧ toInt c < 0) := by
  have hnot : (∀ pre c post, str = pre ++ c :: post → pre.Nodup → 0 ≤ toInt c) ↔ ¬ Negative str := by
    simp only [Negative, not_exists, not_and, Int.not_lt]
  rw [hnot]
  show _ ∧ (_ ↔ Negative str)
  have hends := hasUniqueCharacters_ends str
  generalize hasUniqueCharacters str = result at hends ⊢
  cases hends with
  | unique hnodup hnonneg =>
    have hno : ¬ Negative str := by
      rintro ⟨pre, c, post, rfl, -, hneg⟩
      exact absurd (hnonneg c (by simp)) (Int.not_le.2 hneg)
    exact ⟨iff_of_true (by rw [decide_eq_true hnodup]) hno, iff_of_false nofun hno⟩
  | @again pre post c hstr hnodup hnonneg hmem =>
    have hno : ¬ Negative str := hstr ▸ not_negative_again hnonneg hmem
    have htwice : ¬ str.Nodup := fun h => by
      rw [hstr] at h
      exact (List.nodup_append.1 h).2.2 c hmem c (List.mem_cons_self ..) rfl
    exact ⟨iff_of_true (by rw [decide_eq_false htwice]) hno, iff_of_false nofun hno⟩
  | @throws pre post c hstr hnodup hnonneg hneg =>
    have hyes : Negative str := ⟨pre, c, post, hstr, hnodup, hneg⟩
    exact ⟨iff_of_false nofun fun hno => hno hyes, iff_of_true rfl hyes⟩

end CPPCodes.Strings.Unique
