import Mathlib.Data.List.TakeWhile

/-!
# Scanners

A scanner has rules, each a pattern and an action. At every place it takes the longest text that
some pattern matches, the first rule for that text if there are several, and goes on behind it.
-/

namespace Scanner

variable {τ : Type*}

inductive Action (τ : Type*)
  | skip
  | emit (t : τ)
  /-- The input ends here. -/
  | stop

structure Rule (τ : Type*) where
  pattern : List Char → Bool
  action : List Char → Action τ

variable (rules : List (Rule τ))

def rule? (word : List Char) : Option (Rule τ) := rules.find? fun r => r.pattern word

/-- The length of the longest text that a rule matches, and the first rule that does. -/
def longest (text : List Char) : Option (ℕ × Rule τ) :=
  (List.range' 1 text.length).reverse.findSome? fun n => (rule? rules (text.take n)).map (n, ·)

/-- The tokens of the text behind the next `skip` characters, and whether an action has stopped the
scanner. What no rule matches is passed over. -/
def scanFrom : ℕ → List Char → List τ × Bool
  | _, [] => ([], false)
  | skip + 1, _ :: text => scanFrom skip text
  | 0, c :: text =>
    match longest rules (c :: text) with
    | none => scanFrom 0 text
    | some (n, r) =>
      match r.action ((c :: text).take n) with
      | .skip => scanFrom (n - 1) text
      | .emit t => (scanFrom (n - 1) text).map (t :: ·) id
      | .stop => ([], true)

def scan (text : List Char) : List τ × Bool := scanFrom rules 0 text

variable {rules}

theorem scanFrom_drop : ∀ (skip : ℕ) (text : List Char),
    scanFrom rules skip text = scan rules (text.drop skip)
  | 0, _ => rfl
  | _ + 1, [] => rfl
  | skip + 1, _ :: text => scanFrom_drop skip text

/-- What decides the rule: it is the first for a text, and no rule matches a longer one. -/
theorem longest_append {word : List Char} {r : Rule τ} (rest : List Char) (hne : word ≠ [])
    (hr : rule? rules word = some r)
    (hlong : ∀ more, more ≠ [] → more <+: rest → rule? rules (word ++ more) = none) :
    longest rules (word ++ rest) = some (word.length, r) := by
  have hpos : 0 < word.length := List.length_pos_iff.2 hne
  have hsplit : List.range' 1 (word ++ rest).length =
      List.range' 1 (word.length - 1) ++ word.length :: List.range' (word.length + 1) rest.length := by
    have hlen : (word ++ rest).length = (word.length - 1) + (rest.length + 1) := by
      rw [List.length_append]
      omega
    have hstart : 1 + (word.length - 1) = word.length := by omega
    rw [hlen, ← List.range'_append_1, hstart, List.range'_succ]
  have hnone : (List.range' (word.length + 1) rest.length).reverse.findSome?
      (fun n => (rule? rules ((word ++ rest).take n)).map (n, ·)) = none := by
    rw [List.findSome?_eq_none_iff]
    intro n hn
    rw [List.mem_reverse, List.mem_range'_1] at hn
    have htake : (word ++ rest).take n = word ++ rest.take (n - word.length) := by
      rw [List.take_append, List.take_of_length_le (by omega)]
    rw [htake, hlong _ _ (List.take_prefix _ _)]
    · rfl
    · rw [← List.length_pos_iff, List.length_take]
      omega
  rw [longest, hsplit, List.reverse_append, List.reverse_cons, List.append_assoc,
    List.findSome?_append, hnone, Option.none_or, List.singleton_append, List.findSome?_cons,
    List.take_left, hr]
  rfl

/-- The rule's action, and what is behind its text. -/
theorem scan_append {word : List Char} {r : Rule τ} (rest : List Char) (hne : word ≠ [])
    (hr : rule? rules word = some r)
    (hlong : ∀ more, more ≠ [] → more <+: rest → rule? rules (word ++ more) = none) :
    scan rules (word ++ rest) = match r.action word with
      | .skip => scan rules rest
      | .emit t => (scan rules rest).map (t :: ·) id
      | .stop => ([], true) := by
  have hl := longest_append rest hne hr hlong
  obtain ⟨c, cs, rfl⟩ := List.exists_cons_of_ne_nil hne
  have hdrop : (cs ++ rest).drop ((c :: cs).length - 1) = rest := by
    rw [List.length_cons, Nat.add_sub_cancel, List.drop_left]
  rw [List.cons_append] at hl ⊢
  rw [scan, scanFrom, hl]
  simp only [scanFrom_drop, hdrop, ← List.cons_append, List.take_left]

end Scanner
