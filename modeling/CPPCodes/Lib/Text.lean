import Mathlib.Data.List.Basic

/-!
# Strings as the C++ standard library takes them apart

Strings are lists of characters: `std::getline` with a delimiter, `std::unique` with a relation
and `std::string::find_last_of` for one character, over any type of characters.
-/

namespace Text

variable {α : Type*}

/-- `std::unique` on a range whose first element, already kept, is `kept`. -/
def uniqueFrom (rel : α → α → Bool) (kept : α) : List α → List α
  | [] => [kept]
  | c :: cs => if rel kept c then uniqueFrom rel kept cs else kept :: uniqueFrom rel c cs

def unique (rel : α → α → Bool) : List α → List α
  | [] => []
  | c :: cs => uniqueFrom rel c cs

theorem head?_uniqueFrom (rel : α → α → Bool) (kept : α) :
    ∀ s : List α, (uniqueFrom rel kept s).head? = some kept
  | [] => rfl
  | c :: cs => by
    unfold uniqueFrom
    split
    · exact head?_uniqueFrom rel kept cs
    · rfl

/-- Codes put together can be taken apart where it is known how long each of them is. -/
theorem eq_of_flatMap_eq {β : Type*} {code : β → List α} (hcode : Function.Injective code) :
    ∀ {xs ys : List β}, xs.flatMap code = ys.flatMap code →
      xs.map (fun x => (code x).length) = ys.map (fun y => (code y).length) → xs = ys
  | [], [], _, _ => rfl
  | [], y :: ys, _, hlen => by cases hlen
  | x :: xs, [], _, hlen => by cases hlen
  | x :: xs, y :: ys, h, hlen => by
    obtain ⟨hx, hxs⟩ := List.cons.inj hlen
    rw [List.flatMap_cons, List.flatMap_cons] at h
    obtain ⟨hhead, htail⟩ := List.append_inj h hx
    rw [hcode hhead, eq_of_flatMap_eq hcode htail hxs]

variable [DecidableEq α]

/-- The lines `std::getline` returns one after the other, after the characters `acc`, which are
in reverse order, each with the stream's `eof` flag after the call. -/
def getlinesFrom (delim : α) : List α → List α → List (List α × Bool)
  | [], acc => if acc = [] then [] else [(acc.reverse, true)]
  | c :: cs, acc =>
    if c = delim then (acc.reverse, false) :: getlinesFrom delim cs []
    else getlinesFrom delim cs (c :: acc)

def getlines (delim : α) (s : List α) : List (List α × Bool) := getlinesFrom delim s []

theorem getlinesFrom_append (delim : α) (rest : List α) :
    ∀ (w acc : List α), delim ∉ w →
      getlinesFrom delim (w ++ delim :: rest) acc = (acc.reverse ++ w, false) :: getlines delim rest
  | [], acc, _ => by simp [getlinesFrom, getlines]
  | c :: w, acc, h => by
    have hc : c ≠ delim := fun h' => h (by simp [h'])
    have hw : delim ∉ w := fun h' => h (List.mem_cons_of_mem _ h')
    rw [List.cons_append, getlinesFrom, if_neg hc, getlinesFrom_append delim rest w (c :: acc) hw]
    simp

theorem getlinesFrom_last (delim : α) :
    ∀ (w acc : List α), delim ∉ w → acc.reverse ++ w ≠ [] →
      getlinesFrom delim w acc = [(acc.reverse ++ w, true)]
  | [], acc, _, hne => by
    have hacc : acc ≠ [] := by simpa using hne
    simp [getlinesFrom, hacc]
  | c :: w, acc, h, _ => by
    have hc : c ≠ delim := fun h' => h (by simp [h'])
    have hw : delim ∉ w := fun h' => h (List.mem_cons_of_mem _ h')
    rw [getlinesFrom, if_neg hc, getlinesFrom_last delim w (c :: acc) hw (by simp)]
    simp

theorem getlines_append {delim : α} {w : List α} (h : delim ∉ w) (rest : List α) :
    getlines delim (w ++ delim :: rest) = (w, false) :: getlines delim rest :=
  getlinesFrom_append delim rest w [] h

theorem getlines_last {delim : α} {w : List α} (h : delim ∉ w) (hne : w ≠ []) :
    getlines delim w = [(w, true)] :=
  getlinesFrom_last delim w [] h (by simpa using hne)

/-- `find_last_of`: the last position of a character. -/
def findLastOf (c : α) : List α → Option ℕ
  | [] => none
  | d :: ds =>
    match findLastOf c ds with
    | some i => some (i + 1)
    | none => if d = c then some 0 else none

theorem findLastOf_eq_none {c : α} : ∀ {s : List α}, c ∉ s → findLastOf c s = none
  | [], _ => rfl
  | d :: ds, h => by
    have hd : d ≠ c := fun h' => h (by simp [h'])
    have hds := findLastOf_eq_none (s := ds) fun h' => h (List.mem_cons_of_mem _ h')
    simp [findLastOf, hds, hd]

theorem findLastOf_append {c : α} {w : List α} (h : c ∉ w) :
    ∀ s : List α, findLastOf c (s ++ c :: w) = some s.length
  | [] => by simp [findLastOf, findLastOf_eq_none h]
  | d :: ds => by simp [findLastOf, findLastOf_append h ds]

end Text
