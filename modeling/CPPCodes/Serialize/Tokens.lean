import CPPCodes.Lib.Scanner

/-!
# The tokens of an interface description

tokens.l, rule by rule, and what `yylex` returns for a text: the tokens that the text spells, up to
the first character that belongs to no token, where the input ends (`yylex_iff`).
-/

namespace CPPCodes.Serialize

open Scanner

abbrev Str := List Char

/-- The tokens that have a rule, with the text that is saved. -/
inductive Token
  | tIdentifier (s : Str)
  | tInteger (s : Str)
  | tSemicolon
  | tBraceOpen
  | tBraceClose
  | tEqual
  | tColon
  | tUsing
  | tStruct
deriving DecidableEq

def using_ : Str := ['u', 's', 'i', 'n', 'g']

def struct_ : Str := ['s', 't', 'r', 'u', 'c', 't']

/-- `[a-zA-Z_]` -/
def isFirst (c : Char) : Bool := c.isAlpha || c = '_'

/-- `[a-zA-Z0-9_]` -/
def isWord (c : Char) : Bool := c.isAlphanum || c = '_'

def isBlank (c : Char) : Bool := c = ' ' || c = '\t' || c = '\n'

/-- A pattern of one character. -/
def one (p : Char → Bool) : Str → Bool
  | [c] => p c
  | _ => false

/-- `[a-zA-Z_][a-zA-Z0-9_]*` -/
def isIdentifier : Str → Bool
  | [] => false
  | c :: cs => isFirst c && cs.all isWord

/-- `[0-9]+` -/
def isInteger (s : Str) : Bool := s ≠ [] && s.all Char.isDigit

/-- The rules of tokens.l. -/
def rules : List (Rule Token) :=
  [⟨one isBlank, fun _ => .skip⟩,
    ⟨one (· = '='), fun _ => .emit .tEqual⟩,
    ⟨one (· = ':'), fun _ => .emit .tColon⟩,
    ⟨one (· = ';'), fun _ => .emit .tSemicolon⟩,
    ⟨one (· = '\x7b'), fun _ => .emit .tBraceOpen⟩,
    ⟨one (· = '\x7d'), fun _ => .emit .tBraceClose⟩,
    ⟨(· = using_), fun _ => .emit .tUsing⟩,
    ⟨(· = struct_), fun _ => .emit .tStruct⟩,
    ⟨isIdentifier, fun yytext => .emit (.tIdentifier yytext)⟩,
    ⟨isInteger, fun yytext => .emit (.tInteger yytext)⟩,
    ⟨one (· ≠ '\n'), fun _ => .stop⟩]

/-- What `yylex` returns, call by call, up to the end of the input, and whether an unknown character
was that end. -/
def yylex (text : Str) : List Token × Bool := scan rules text

namespace Token

def text : Token → Str
  | tIdentifier s => s
  | tInteger s => s
  | tSemicolon => [';']
  | tBraceOpen => ['\x7b']
  | tBraceClose => ['\x7d']
  | tEqual => ['=']
  | tColon => [':']
  | tUsing => using_
  | tStruct => struct_

/-- The token is that of its text. -/
def Valid : Token → Prop
  | tIdentifier s => isIdentifier s = true ∧ s ≠ using_ ∧ s ≠ struct_
  | tInteger s => isInteger s = true
  | _ => True

/-- The characters with which the token would be a longer one. -/
def extends_ : Token → Char → Bool
  | tIdentifier _ | tUsing | tStruct => isWord
  | tInteger _ => Char.isDigit
  | _ => fun _ => false

end Token

/-- The text is these tokens, with white space anywhere between them, and somewhere where two of
them would be one. -/
inductive Spells : Str → List Token → Prop
  | nil : Spells [] []
  | blank {c : Char} {text : Str} {ts : List Token} : isBlank c = true → Spells text ts →
      Spells (c :: text) ts
  | token {t : Token} {text : Str} {ts : List Token} : t.Valid →
      (∀ c ∈ text.head?, t.extends_ c = false) → Spells text ts → Spells (t.text ++ text) (t :: ts)

/-- A character that belongs to no token. -/
def Unknown (c : Char) : Prop :=
  isWord c = false ∧ isBlank c = false ∧ c ∉ ['=', ':', ';', '\x7b', '\x7d']

theorem isWord_of_isFirst {c : Char} (h : isFirst c = true) : isWord c = true := by
  simp only [isFirst, isWord, Char.isAlphanum, Bool.or_eq_true] at h ⊢
  exact h.imp .inl id

theorem isWord_of_isDigit {c : Char} (h : c.isDigit = true) : isWord c = true := by
  simp [isWord, Char.isAlphanum, h]

theorem not_isDigit_of_isFirst {c : Char} (h : isFirst c = true) : c.isDigit = false := by
  rw [isFirst, Bool.or_eq_true, decide_eq_true_eq] at h
  rcases h with h | rfl
  · change (decide ('A'.val ≤ c.val ∧ c.val ≤ 'Z'.val) ||
      (decide ('a'.val ≤ c.val) && decide (c.val ≤ 'z'.val))) = true at h
    simp only [Bool.or_eq_true, Bool.and_eq_true, decide_eq_true_eq,
      UInt32.le_iff_toNat_le] at h
    simp only [Char.isDigit, Bool.and_eq_false_iff, decide_eq_false_iff_not,
      UInt32.le_iff_toNat_le, ge_iff_le]
    have hA : 'A'.val.toNat = 65 := rfl
    have ha : 'a'.val.toNat = 97 := rfl
    have h9 : '9'.val.toNat = 57 := rfl
    omega
  · decide

/-- No word begins with white space or one of the other characters that belong to tokens. -/
theorem not_isWord : ∀ c ∈ [' ', '\t', '\n', '=', ':', ';', '\x7b', '\x7d'], isWord c = false := by
  intro c hc
  simp only [List.mem_cons, List.not_mem_nil, or_false] at hc
  rcases hc with rfl | rfl | rfl | rfl | rfl | rfl | rfl | rfl <;> rfl

theorem isWord_of_isBlank {c : Char} (h : isBlank c = true) : isWord c = false := by
  simp only [isBlank, Bool.or_eq_true, decide_eq_true_eq] at h
  rcases h with (rfl | rfl) | rfl <;> decide

theorem isFirst_or_isDigit {c : Char} (h : isWord c = true) : isFirst c = true ∨ c.isDigit = true := by
  simp only [isFirst, isWord, Char.isAlphanum, Bool.or_eq_true] at h ⊢
  rcases h with (h | h) | h
  · exact .inl (.inl h)
  · exact .inr h
  · exact .inl (.inr h)

/-- The patterns of one character do not match two. -/
theorem rule?_eq_none {w more : Str} (hw : w ≠ []) (hmore : more ≠ [])
    (hident : isIdentifier (w ++ more) = false) (hint : isInteger (w ++ more) = false) :
    rule? rules (w ++ more) = none := by
  have hu : w ++ more ≠ using_ := fun h => by
    rw [h] at hident
    exact absurd hident (by decide)
  have hs : w ++ more ≠ struct_ := fun h => by
    rw [h] at hident
    exact absurd hident (by decide)
  obtain ⟨c, cs, rfl⟩ := List.exists_cons_of_ne_nil hw
  have hone : ∀ p, one p (c :: cs ++ more) = false := fun p => by
    cases cs with
    | nil =>
      obtain ⟨d, ds, rfl⟩ := List.exists_cons_of_ne_nil hmore
      rfl
    | cons => rfl
  simp only [rule?, rules, List.find?_cons, hone, hident, hint, hu, hs]
  rfl

theorem isIdentifier_append {w more : Str} (hw : w ≠ []) (hmore : more ≠ [])
    (hhead : ∀ c ∈ more.head?, isWord c = false) : isIdentifier (w ++ more) = false := by
  obtain ⟨c, cs, rfl⟩ := List.exists_cons_of_ne_nil hw
  obtain ⟨d, ds, rfl⟩ := List.exists_cons_of_ne_nil hmore
  have hd : isWord d = false := hhead d rfl
  simp [isIdentifier, hd]

theorem isInteger_append {w more : Str} (hmore : more ≠ [])
    (hhead : ∀ c ∈ more.head?, c.isDigit = false) : isInteger (w ++ more) = false := by
  obtain ⟨d, ds, rfl⟩ := List.exists_cons_of_ne_nil hmore
  have hd : d.isDigit = false := hhead d rfl
  simp [isInteger, hd]

theorem head?_of_begins {more rest : Str} (hne : more ≠ []) (h : more <+: rest) :
    more.head? = rest.head? := by
  obtain ⟨d, ds, rfl⟩ := List.exists_cons_of_ne_nil hne
  obtain ⟨tail, rfl⟩ := h
  rfl

/-- The token of a word. -/
def wordToken (w : Str) : Token :=
  if w = using_ then .tUsing else if w = struct_ then .tStruct else .tIdentifier w

/-- The rules for one character do not match a word. -/
theorem one_eq_false {p : Char → Bool} {c : Char} {cs : Str} (hc : isWord c = true)
    (hp : ∀ c, p c = true → isWord c = false) : one p (c :: cs) = false := by
  cases cs with
  | nil => exact Bool.eq_false_iff.2 fun h => absurd (hc.symm.trans (hp c h)) nofun
  | cons => rfl

theorem rule?_of_isWord {c : Char} {cs : Str} (hc : isWord c = true) :
    rule? rules (c :: cs) = rule? (rules.drop 6) (c :: cs) := by
  have hblank : one isBlank (c :: cs) = false := one_eq_false hc fun _ => isWord_of_isBlank
  have hother : ∀ d ∈ ['=', ':', ';', '\x7b', '\x7d'], one (· = d) (c :: cs) = false := fun d hd =>
    one_eq_false hc fun c' h' => by
      rw [of_decide_eq_true h']
      exact not_isWord d (List.mem_append_right [' ', '\t', '\n'] hd)
  simp only [List.mem_cons, forall_eq_or_imp, List.not_mem_nil, false_implies, implies_true,
    and_true] at hother
  obtain ⟨h1, h2, h3, h4, h5⟩ := hother
  simp only [rule?, rules, List.find?_cons, hblank, h1, h2, h3, h4, h5]
  rfl

theorem rule?_word {w : Str} (h : isIdentifier w = true) :
    ∃ r, rule? rules w = some r ∧ r.action w = .emit (wordToken w) := by
  unfold wordToken
  by_cases hu : w = using_
  · subst hu
    exact ⟨_, rfl, rfl⟩
  by_cases hs : w = struct_
  · subst hs
    exact ⟨_, rfl, rfl⟩
  rw [if_neg hu, if_neg hs]
  cases w with
  | nil => cases h
  | cons c cs =>
    have hc : isWord c = true := isWord_of_isFirst (Bool.and_eq_true_iff.1 h).1
    rw [rule?_of_isWord hc]
    simp [rule?, rules, hu, hs, h]

theorem rule?_integer {w : Str} (h : isInteger w = true) :
    ∃ r, rule? rules w = some r ∧ r.action w = .emit (.tInteger w) := by
  cases w with
  | nil => cases h
  | cons c cs =>
    have hc : c.isDigit = true := by
      simp only [isInteger, List.all_cons, Bool.and_eq_true] at h
      exact h.2.1
    have hident : isIdentifier (c :: cs) = false := by
      have hfirst : isFirst c = false := Bool.eq_false_iff.2 fun h' =>
        absurd (hc.symm.trans (not_isDigit_of_isFirst h')) nofun
      simp [isIdentifier, hfirst]
    have hu : c :: cs ≠ using_ := fun h' => by
      rw [h'] at hident
      exact absurd hident (by decide)
    have hs : c :: cs ≠ struct_ := fun h' => by
      rw [h'] at hident
      exact absurd hident (by decide)
    rw [rule?_of_isWord (isWord_of_isDigit hc)]
    simp [rule?, rules, hu, hs, h, hident]

/-- A character that belongs to no word is on its own. -/
theorem rule?_long {c : Char} (hc : isWord c = false) {more : Str} (hmore : more ≠ []) :
    rule? rules ([c] ++ more) = none := by
  have hfirst : isFirst c = false := Bool.eq_false_iff.2 fun h =>
    absurd (hc.symm.trans (isWord_of_isFirst h)) nofun
  have hdigit : c.isDigit = false := Bool.eq_false_iff.2 fun h =>
    absurd (hc.symm.trans (isWord_of_isDigit h)) nofun
  exact rule?_eq_none (List.cons_ne_nil c []) hmore (by simp [isIdentifier, hfirst])
    (by simp [isInteger, hdigit])

theorem yylex_blank {c : Char} (h : isBlank c = true) (text : Str) :
    yylex (c :: text) = yylex text := by
  have hr : rule? rules [c] = some ⟨one isBlank, fun _ => .skip⟩ := by
    simp [rule?, rules, one, h]
  exact scan_append text (List.cons_ne_nil c []) hr fun _ hne _ => rule?_long (isWord_of_isBlank h) hne

theorem yylex_unknown {c : Char} (h : Unknown c) (text : Str) : yylex (c :: text) = ([], true) := by
  obtain ⟨hword, hblank, hother⟩ := h
  have hnl : c ≠ '\n' := fun h => by
    rw [h] at hblank
    exact absurd hblank (by decide)
  have hr : rule? rules [c] = some ⟨one (· ≠ '\n'), fun _ => .stop⟩ := by
    have hnone : rule? (rules.take 10) [c] = none := by
      have hident : isIdentifier [c] = false := Bool.eq_false_iff.2 fun h =>
        absurd (hword.symm.trans (isWord_of_isFirst (Bool.and_eq_true_iff.1 h).1)) nofun
      have hint : isInteger [c] = false := Bool.eq_false_iff.2 fun h => by
        rw [isInteger, List.all_cons, Bool.and_eq_true, Bool.and_eq_true] at h
        exact absurd (hword.symm.trans (isWord_of_isDigit h.2.1)) nofun
      simp only [List.mem_cons, List.not_mem_nil, or_false, not_or] at hother
      simp [rule?, rules, one, hblank, hother, hident, hint, using_, struct_]
    rw [rule?, ← List.take_append_drop 10 rules, List.find?_append, ← rule?, hnone, Option.none_or]
    simp [rules, one, hnl]
  exact scan_append text (List.cons_ne_nil c []) hr fun _ hne _ => rule?_long hword hne

theorem yylex_word {w text : Str} (h : isIdentifier w = true)
    (hend : ∀ c ∈ text.head?, isWord c = false) :
    yylex (w ++ text) = (yylex text).map (wordToken w :: ·) id := by
  obtain ⟨r, hr, haction⟩ := rule?_word h
  have hw : w ≠ [] := fun hw => by
    rw [hw] at h
    cases h
  have hscan := scan_append text hw hr fun more hne hmore => by
    refine rule?_eq_none hw hne (isIdentifier_append hw hne (head?_of_begins hne hmore ▸ hend)) ?_
    obtain ⟨c, cs, rfl⟩ := List.exists_cons_of_ne_nil hw
    have hdigit : c.isDigit = false := not_isDigit_of_isFirst (Bool.and_eq_true_iff.1 h).1
    simp [isInteger, hdigit]
  rwa [haction] at hscan

theorem yylex_integer {w text : Str} (h : isInteger w = true)
    (hend : ∀ c ∈ text.head?, c.isDigit = false) :
    yylex (w ++ text) = (yylex text).map (.tInteger w :: ·) id := by
  obtain ⟨r, hr, haction⟩ := rule?_integer h
  have hw : w ≠ [] := fun hw => by
    rw [hw] at h
    cases h
  have hscan := scan_append text hw hr fun more hne hmore => by
    refine rule?_eq_none hw hne ?_ (isInteger_append hne (head?_of_begins hne hmore ▸ hend))
    obtain ⟨c, cs, rfl⟩ := List.exists_cons_of_ne_nil hw
    have hdigit : c.isDigit = true := by
      simp only [isInteger, List.all_cons, Bool.and_eq_true] at h
      exact h.2.1
    have hfirst : isFirst c = false := Bool.eq_false_iff.2 fun h' =>
      absurd (hdigit.symm.trans (not_isDigit_of_isFirst h')) nofun
    simp [isIdentifier, hfirst]
  rwa [haction] at hscan

theorem yylex_symbol {t : Token} {c : Char} (ht : t.text = [c]) (hc : isWord c = false)
    (hr : ∃ r, rule? rules [c] = some r ∧ r.action [c] = .emit t) (text : Str) :
    yylex (t.text ++ text) = (yylex text).map (t :: ·) id := by
  obtain ⟨r, hr, haction⟩ := hr
  have hscan := scan_append text (List.cons_ne_nil c []) hr fun _ hne _ => rule?_long hc hne
  rw [haction] at hscan
  rw [ht]
  exact hscan

theorem yylex_token {t : Token} (h : t.Valid) {text : Str}
    (hend : ∀ c ∈ text.head?, t.extends_ c = false) :
    yylex (t.text ++ text) = (yylex text).map (t :: ·) id := by
  cases t with
  | tIdentifier s =>
    obtain ⟨hs, hu, hst⟩ := h
    have hword : wordToken s = .tIdentifier s := by rw [wordToken, if_neg hu, if_neg hst]
    have hlex := yylex_word hs hend
    rw [hword] at hlex
    exact hlex
  | tInteger s => exact yylex_integer h hend
  | tUsing => exact yylex_word (w := using_) rfl hend
  | tStruct => exact yylex_word (w := struct_) rfl hend
  | tSemicolon => exact yylex_symbol rfl rfl ⟨_, rfl, rfl⟩ text
  | tBraceOpen => exact yylex_symbol rfl rfl ⟨_, rfl, rfl⟩ text
  | tBraceClose => exact yylex_symbol rfl rfl ⟨_, rfl, rfl⟩ text
  | tEqual => exact yylex_symbol rfl rfl ⟨_, rfl, rfl⟩ text
  | tColon => exact yylex_symbol rfl rfl ⟨_, rfl, rfl⟩ text

theorem yylex_of_spells {text : Str} {ts : List Token} (h : Spells text ts) :
    yylex text = (ts, false) := by
  induction h with
  | nil => rfl
  | blank hc _ ih => rw [yylex_blank hc, ih]
  | token ht hend _ ih =>
    rw [yylex_token ht hend, ih]
    rfl

theorem Unknown.not_extends {c : Char} (h : Unknown c) (t : Token) : t.extends_ c = false := by
  have hdigit : c.isDigit = false := Bool.eq_false_iff.2 fun h' =>
    absurd (h.1.symm.trans (isWord_of_isDigit h')) nofun
  cases t
  case tIdentifier | tUsing | tStruct => exact h.1
  case tInteger => exact hdigit
  all_goals rfl

theorem yylex_of_unknown {text rest : Str} {ts : List Token} {c : Char} (hc : Unknown c)
    (h : Spells text ts) : yylex (text ++ c :: rest) = (ts, true) := by
  induction h with
  | nil => exact yylex_unknown hc rest
  | blank hb _ ih => rw [List.cons_append, yylex_blank hb, ih]
  | @token t text ts ht hend _ ih =>
    have hend' : ∀ d ∈ (text ++ c :: rest).head?, t.extends_ d = false := by
      cases text with
      | nil =>
        rintro _ ⟨⟩
        exact hc.not_extends t
      | cons d text => exact hend
    rw [List.append_assoc, yylex_token ht hend', ih]
    rfl

/-- Spelling tokens up to the end of the text, or up to a character that belongs to none. -/
inductive Scans : Str → List Token → Bool → Prop
  | all {text : Str} {ts : List Token} : Spells text ts → Scans text ts false
  | unknown {text rest : Str} {ts : List Token} {c : Char} : Spells text ts → Unknown c →
      Scans (text ++ c :: rest) ts true

theorem Scans.yylex_eq {text : Str} {ts : List Token} {stopped : Bool}
    (h : Scans text ts stopped) : yylex text = (ts, stopped) := by
  cases h with
  | all h => exact yylex_of_spells h
  | unknown h hc => exact yylex_of_unknown hc h

theorem Scans.blank {c : Char} {text : Str} {ts : List Token} {stopped : Bool}
    (hc : isBlank c = true) (h : Scans text ts stopped) : Scans (c :: text) ts stopped := by
  cases h with
  | all h => exact .all (.blank hc h)
  | unknown h hu => exact .unknown (.blank hc h) hu

theorem Scans.token {t : Token} {text : Str} {ts : List Token} {stopped : Bool} (ht : t.Valid)
    (hend : ∀ c ∈ text.head?, t.extends_ c = false) (h : Scans text ts stopped) :
    Scans (t.text ++ text) (t :: ts) stopped := by
  cases h with
  | all h => exact .all (.token ht hend h)
  | @unknown text rest ts c h hu =>
    rw [← List.append_assoc]
    refine .unknown (.token ht (fun d hd => ?_) h) hu
    cases text with
    | nil => cases hd
    | cons => exact hend d hd

theorem valid_wordToken {w : Str} (h : isIdentifier w = true) :
    (wordToken w).Valid ∧ (wordToken w).text = w ∧ (wordToken w).extends_ = isWord := by
  unfold wordToken
  split_ifs with hu hs
  · exact ⟨trivial, hu.symm, rfl⟩
  · exact ⟨trivial, hs.symm, rfl⟩
  · exact ⟨⟨h, hu, hs⟩, rfl, rfl⟩

/-- A word or a number ends where its characters do. -/
theorem not_of_head_dropWhile {p : Char → Bool} (text : Str) :
    ∀ c ∈ (text.dropWhile p).head?, p c = false := by
  intro c hc
  have := List.head?_dropWhile_not p text
  rw [Option.mem_def.1 hc] at this
  simpa using this

theorem exists_scans_of_length : ∀ (n : ℕ) (text : Str), text.length ≤ n →
    ∃ ts stopped, Scans text ts stopped
  | _, [], _ => ⟨[], false, .all .nil⟩
  | n + 1, c :: text, hn => by
    have hlen : text.length ≤ n := by simpa using hn
    have hrest : ∀ p, ∃ ts stopped, Scans (text.dropWhile p) ts stopped := fun p =>
      exists_scans_of_length n _ ((List.dropWhile_suffix p).length_le.trans hlen)
    have hsymbol : ∀ t : Token, t.Valid → t.text = [c] → (∀ d, t.extends_ d = false) →
        ∃ ts stopped, Scans (c :: text) ts stopped := fun t ht htext hend => by
      obtain ⟨ts, stopped, h⟩ := exists_scans_of_length n text hlen
      have h' := h.token ht fun d _ => hend d
      rw [htext] at h'
      exact ⟨_, _, h'⟩
    by_cases hfirst : isFirst c = true
    · obtain ⟨ts, stopped, h⟩ := hrest isWord
      have hw : isIdentifier (c :: text.takeWhile isWord) = true := by
        simp [isIdentifier, hfirst]
      obtain ⟨hvalid, htext, hext⟩ := valid_wordToken hw
      have h' := h.token hvalid (by rw [hext]; exact not_of_head_dropWhile text)
      rw [htext, List.cons_append, List.takeWhile_append_dropWhile] at h'
      exact ⟨_, _, h'⟩
    by_cases hdigit : c.isDigit = true
    · obtain ⟨ts, stopped, h⟩ := hrest Char.isDigit
      have hw : isInteger (c :: text.takeWhile Char.isDigit) = true := by
        simp [isInteger, hdigit]
      have h' := h.token (t := .tInteger (c :: text.takeWhile Char.isDigit)) hw
        (not_of_head_dropWhile (p := Char.isDigit) text)
      rw [Token.text, List.cons_append, List.takeWhile_append_dropWhile] at h'
      exact ⟨_, _, h'⟩
    by_cases hblank : isBlank c = true
    · obtain ⟨ts, stopped, h⟩ := exists_scans_of_length n text hlen
      exact ⟨ts, stopped, h.blank hblank⟩
    by_cases hother : c ∈ ['=', ':', ';', '\x7b', '\x7d']
    · simp only [List.mem_cons, List.not_mem_nil, or_false] at hother
      rcases hother with rfl | rfl | rfl | rfl | rfl
      · exact hsymbol .tEqual trivial rfl fun _ => rfl
      · exact hsymbol .tColon trivial rfl fun _ => rfl
      · exact hsymbol .tSemicolon trivial rfl fun _ => rfl
      · exact hsymbol .tBraceOpen trivial rfl fun _ => rfl
      · exact hsymbol .tBraceClose trivial rfl fun _ => rfl
    · have hword : isWord c = false := Bool.eq_false_iff.2 fun h =>
        (isFirst_or_isDigit h).elim hfirst hdigit
      have hnil : Spells [] [] := .nil
      exact ⟨[], true, .unknown hnil
        ⟨hword, Bool.eq_false_iff.2 hblank, hother⟩⟩

/-- What `yylex` returns are the tokens that the text spells, all of them, or those before the
first character that belongs to no token. -/
theorem yylex_iff {text : Str} {ts : List Token} {stopped : Bool} :
    yylex text = (ts, stopped) ↔ Scans text ts stopped := by
  refine ⟨fun h => ?_, Scans.yylex_eq⟩
  obtain ⟨ts', stopped', h'⟩ := exists_scans_of_length text.length text le_rfl
  obtain ⟨rfl, rfl⟩ := Prod.mk.inj (h.symm.trans h'.yylex_eq)
  exact h'

end CPPCodes.Serialize
