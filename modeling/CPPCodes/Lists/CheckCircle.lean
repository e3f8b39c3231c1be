import CPPCodes.Lib.Lasso
import CPPCodes.Lists.NodeList

/-!
# A list that is made circular, and repaired

`MeetingPoint`, `IsCircular` and `FixList` of check_circle.cpp. In a list whose last node points to
the node at the place `m` a walk from the head goes over the places of a lasso (`place`), so the two
iterators meet, and `FixList` comes to the last node and takes its link away. A list that ends is
left as it is.
-/

namespace CPPCodes.Lists.NodeList

open Lasso

/-- The loop of `MeetingPoint`, in at most `fuel` turns. -/
def meetingLoop (list : NodeList) : ℕ → (sit fit : Option ℕ) → Option (Option ℕ)
  | 0, _, _ => none
  | fuel + 1, sit, fit =>
    if fit = none then some fit
    else do
      let fit ← list.next fit
      if fit = none then return fit
      else
        let fit ← list.next fit
        if fit = none then return fit
        else
          let sit ← list.next sit
          if sit = fit then return fit else meetingLoop list fuel sit fit

def meetingPoint (list : NodeList) (fuel : ℕ) : Option (Option ℕ) :=
  list.meetingLoop fuel list.head list.head

def isCircular (list : NodeList) (fuel : ℕ) : Option Bool := do
  let meeting ← list.meetingPoint fuel
  return meeting ≠ none

/-- The loop of `FixList`, in at most `fuel` turns: `prev_node` behind it. -/
def fixLoop (list : NodeList) : ℕ → (it meeting prev : Option ℕ) → Option (Option ℕ)
  | 0, _, _, _ => none
  | fuel + 1, it, meeting, prev =>
    if it ≠ meeting then do
      let prev := meeting
      let meeting ← list.next meeting
      let it ← list.next it
      fixLoop list fuel it meeting prev
    else some prev

def fixList (list : NodeList) (fuel : ℕ) : Option NodeList := do
  let meeting ← list.meetingPoint fuel
  if meeting = none then return list
  else if list.head = meeting then list.setNext list.tailp none
  else
    let prev ← list.fixLoop fuel list.head meeting none
    list.setNext prev none

/-- `list.tailp->nextp = a`, or nothing if no node is chosen. -/
def linkTail (list : NodeList) : Option ℕ → Option NodeList
  | none => some list
  | some a => list.setNext list.tailp (some a)

/-- The loop of `MakeListCircular` from a node on, in at most `fuel` turns. -/
def makeCircularLoop (list : NodeList) (linkTo : ℤ) : ℕ → (it : Option ℕ) → Option NodeList
  | 0, _ => none
  | fuel + 1, it =>
    if it ≠ none then do
      let a ← it
      let node ← list.nodes[a]?
      if node.number.toInt = linkTo then list.setNext list.tailp it
      else
        let it ← list.next it
        makeCircularLoop list linkTo fuel it
    else some list

/-- `MakeListCircular`, with the number that it takes from the clock. -/
def makeListCircular (list : NodeList) (linkTo : ℤ) (fuel : ℕ) : Option NodeList :=
  list.makeCircularLoop linkTo fuel list.head

variable {list : NodeList} {as : List ℕ}

theorem Links.next_getElem? (h : Links list as none) {i : ℕ} (hi : i < as.length) :
    list.next as[i]? = some as[i + 1]? := by
  have hnext := h.next i as[i] (List.getElem?_eq_getElem hi)
  rw [Option.toList_none, List.append_nil] at hnext
  rw [List.getElem?_eq_getElem hi]
  exact hnext

/-- The iterators are at different places, and the fast one comes to the end. -/
theorem Links.meetingLoop (h : Links list as none) :
    ∀ (fuel k : ℕ), as.length < k + fuel → k ≤ as.length →
      list.meetingLoop fuel as[k]? as[2 * k]? = some none
  | 0, _, hfuel, hk => absurd hfuel (by omega)
  | fuel + 1, k, hfuel, hk => by
    unfold NodeList.meetingLoop
    by_cases hend : 2 * k < as.length
    · rw [if_neg (by simp; omega), h.next_getElem? hend, Option.bind_eq_bind, Option.bind_some]
      by_cases hend₁ : 2 * k + 1 < as.length
      · rw [if_neg (by simp; omega), h.next_getElem? hend₁, Option.bind_some]
        by_cases hend₂ : 2 * k + 2 < as.length
        · have hne : as[k + 1]? ≠ as[2 * k + 1 + 1]? := fun heq =>
            absurd ((List.getElem?_inj (by omega) h.nodup).1 heq) (by omega)
          rw [if_neg (by simp; omega), h.next_getElem? (by omega), Option.bind_some, if_neg hne]
          exact h.meetingLoop fuel (k + 1) (by omega) (by omega)
        · rw [if_pos (by simp; omega), List.getElem?_eq_none (by omega)]
          rfl
      · rw [if_pos (by simp; omega), List.getElem?_eq_none (by omega)]
        rfl
    · rw [if_pos (by simp; omega), List.getElem?_eq_none (by omega)]

theorem Links.meetingPoint (h : Links list as none) {fuel : ℕ} (hfuel : as.length < fuel) :
    list.meetingPoint fuel = some none := by
  unfold NodeList.meetingPoint
  rw [h.head]
  exact h.meetingLoop fuel 0 (by omega) (Nat.zero_le _)

/-- Where a walk from the head is after `i` steps, if the last node points to the place `m`. -/
def place (as : List ℕ) (m i : ℕ) : Option ℕ := as[wrap m (as.length - m) i]?

section Circular

variable {m : ℕ}

theorem wrap_lt_length (hm : m < as.length) (i : ℕ) :
    wrap m (as.length - m) i < as.length := by
  have hlt := wrap_lt (m := m) (by omega : 0 < as.length - m) i
  omega

theorem place_ne_none (hm : m < as.length) (i : ℕ) : place as m i ≠ none := by
  unfold place
  rw [List.getElem?_eq_getElem (wrap_lt_length hm i)]
  exact Option.some_ne_none _

theorem place_zero (hm : m < as.length) : place as m 0 = as[0]? := by
  unfold place
  rw [wrap_of_lt (by omega)]

theorem Links.place_inj (h : Links list as as[m]?) (hm : m < as.length) {i j : ℕ} :
    place as m i = place as m j ↔ wrap m (as.length - m) i = wrap m (as.length - m) j :=
  List.getElem?_inj (wrap_lt_length hm i) h.nodup

theorem Links.next_place (h : Links list as as[m]?) (hm : m < as.length) (i : ℕ) :
    list.next (place as m i) = some (place as m (i + 1)) := by
  have hlt := wrap_lt_length hm i
  have hnext := h.next _ _ (List.getElem?_eq_getElem hlt)
  unfold place
  rw [List.getElem?_eq_getElem hlt, hnext, wrap_succ (by omega)]
  split_ifs with hlast
  · rw [List.getElem?_append_right (by omega), (by omega : _ + 1 - as.length = 0),
      List.getElem?_eq_getElem hm]
    rfl
  · rw [List.getElem?_append_left (by omega)]

/-- The iterators go on until they meet for the first time, after `k` steps of the slow one. -/
theorem Links.meetingLoop_place (h : Links list as as[m]?) (hm : m < as.length) {k : ℕ}
    (hk : place as m k = place as m (2 * k))
    (hfirst : ∀ j, 1 ≤ j → j < k → place as m j ≠ place as m (2 * j)) :
    ∀ (fuel j : ℕ), k < fuel + j → j < k →
      list.meetingLoop fuel (place as m j) (place as m (2 * j)) = some (place as m k)
  | 0, _, hfuel, hj => absurd hfuel (by omega)
  | fuel + 1, j, hfuel, hj => by
    have hdouble : 2 * j + 1 + 1 = 2 * (j + 1) := by omega
    unfold NodeList.meetingLoop
    rw [if_neg (place_ne_none hm _), h.next_place hm, Option.bind_eq_bind, Option.bind_some,
      if_neg (place_ne_none hm _), h.next_place hm, Option.bind_some, if_neg (place_ne_none hm _),
      h.next_place hm, Option.bind_some, hdouble]
    by_cases hlast : j + 1 = k
    · rw [hlast, if_pos hk, hk]
      rfl
    · rw [if_neg (hfirst (j + 1) (by omega) (by omega))]
      exact h.meetingLoop_place hm hk hfirst fuel (j + 1) (by omega) (by omega)

/-- The iterators meet at a node that is whole rounds from the head. -/
theorem Links.meetingPoint_place (h : Links list as as[m]?) (hm : m < as.length) :
    ∃ k, 1 ≤ k ∧ m ≤ k ∧ as.length - m ∣ k ∧
      ∀ fuel, k < fuel → list.meetingPoint fuel = some (place as m k) := by
  obtain ⟨k, hpos, hmk, hdvd, hfirst⟩ := exists_meeting m (by omega : 0 < as.length - m)
  refine ⟨k, hpos, hmk, hdvd, fun fuel hfuel => ?_⟩
  unfold NodeList.meetingPoint
  rw [h.head, ← place_zero hm]
  refine h.meetingLoop_place hm ?_ (fun j hj hlt => ?_) fuel 0 (by omega) (by omega)
  · exact (h.place_inj hm).2 ((wrap_two_mul_iff hpos).2 ⟨hmk, hdvd⟩)
  · exact fun heq => hfirst j hj hlt ((h.place_inj hm).1 heq)

/-- The second walk is at the last node when the first comes to the beginning of the cycle. -/
theorem Links.fixLoop (h : Links list as as[m]?) (hm : m < as.length) (hpos : 1 ≤ m) {k : ℕ}
    (hk : 1 ≤ k) (hdvd : as.length - m ∣ k) :
    ∀ (fuel i : ℕ) (prev : Option ℕ), m < fuel + i → i ≤ m →
      (i = m → prev = place as m (k + m - 1)) →
      list.fixLoop fuel (place as m i) (place as m (k + i)) prev = some (place as m (k + m - 1))
  | 0, _, _, hfuel, hi, _ => absurd hfuel (by omega)
  | fuel + 1, i, prev, hfuel, hi, hprev => by
    have hiff : place as m i = place as m (k + i) ↔ m ≤ i :=
      (h.place_inj hm).trans (wrap_eq_wrap_add_iff hk hdvd)
    unfold NodeList.fixLoop
    by_cases him : i = m
    · rw [if_neg (not_not.2 (hiff.2 him.ge)), hprev him]
    · rw [if_pos (mt hiff.1 (by omega))]
      simp only [h.next_place hm, Option.bind_eq_bind, Option.bind_some]
      refine h.fixLoop hm hpos hk hdvd fuel (i + 1) _ (by omega) (by omega) fun hlast => ?_
      rw [← hlast]
      rfl

/-- `FixList` takes the link of the last node away. -/
theorem Links.fixList (h : Links list as as[m]?) (hm : m < as.length) :
    ∃ k, ∀ fuel, k < fuel → list.fixList fuel = list.setNext list.tailp none := by
  obtain ⟨k, hk, hmk, hdvd, hmeeting⟩ := h.meetingPoint_place hm
  refine ⟨k, fun fuel hfuel => ?_⟩
  unfold NodeList.fixList
  rw [hmeeting fuel hfuel, Option.bind_eq_bind, Option.bind_some, if_neg (place_ne_none hm k),
    h.head, ← place_zero hm]
  have hiff := (h.place_inj hm).trans (wrap_eq_wrap_add_iff (m := m) (i := 0) hk hdvd)
  rw [Nat.add_zero] at hiff
  by_cases hzero : m = 0
  · exact if_pos (hiff.2 (by omega))
  · have hlast : place as m (k + m - 1) = list.tailp := by
      unfold place
      rw [wrap_last hk hdvd (by omega), h.tailp, List.getLast?_eq_getElem?]
      congr 1
      omega
    have hloop := h.fixLoop hm (by omega) hk hdvd fuel 0 none (by omega) (by omega)
      fun h0 => absurd h0.symm hzero
    rw [Nat.add_zero] at hloop
    rw [if_neg (mt hiff.1 (by omega)), hloop, Option.bind_some, hlast]

/-- A link of the last node to a node is found, and taken away again. -/
theorem Links.repair (h : Links list as none) (hm : m < as.length) :
    ∃ linked bound, list.linkTail as[m]? = some linked ∧ ∀ fuel, bound < fuel →
      linked.isCircular fuel = some true ∧ linked.fixList fuel = some list := by
  have hlast : as.getLast? = some as[as.length - 1] := by
    rw [List.getLast?_eq_getElem?, List.getElem?_eq_getElem (by omega)]
  have htail := h.tailp.trans hlast
  have hnext : list.next (some as[as.length - 1]) = some none := by
    rw [← List.getElem?_eq_getElem (by omega), h.next_getElem? (by omega),
      List.getElem?_eq_none (by omega)]
  obtain ⟨linked, hset, hsets⟩ := setNext_spec (lt_length_of_next hnext) as[m]?
  have hlinks := h.link hlast as[m]? hsets
  obtain ⟨k, -, -, -, hmeeting⟩ := hlinks.meetingPoint_place hm
  obtain ⟨k', hfix⟩ := hlinks.fixList hm
  refine ⟨linked, max k k', ?_, fun fuel hfuel => ⟨?_, ?_⟩⟩
  · rw [List.getElem?_eq_getElem hm] at hset ⊢
    unfold linkTail
    rw [htail]
    exact hset
  · unfold isCircular
    rw [hmeeting fuel (by omega), Option.bind_eq_bind, Option.bind_some,
      decide_eq_true (place_ne_none hm k)]
    rfl
  · rw [hfix fuel (by omega), hsets.tailp, htail]
    exact setNext_setNext hnext hset

end Circular

/-- A list that ends is not circular, and is left as it is. -/
theorem Links.ends (h : Links list as none) {fuel : ℕ} (hfuel : as.length < fuel) :
    list.isCircular fuel = some false ∧ list.fixList fuel = some list := by
  constructor
  · unfold isCircular
    rw [h.meetingPoint hfuel]
    rfl
  · unfold NodeList.fixList
    rw [h.meetingPoint hfuel]
    rfl

/-- Of a list with the nodes the last is linked to a node, or none is: `MeetingPoint` comes to an
end, `IsCircular` tells whether there is a link, and `FixList` leaves the nodes as they were. -/
def Repaired (list : NodeList) (as : List ℕ) (link : Option ℕ) : Prop :=
  ∃ linked fuel fixed, list.linkTail link = some linked ∧ (linked.meetingPoint fuel).isSome ∧
    linked.isCircular fuel = some link.isSome ∧ linked.fixList fuel = some fixed ∧
    (walk fixed).Yields fixed.head as ∧ ∀ a ∈ as, fixed.number a = list.number a

theorem isSome_meetingPoint {fuel : ℕ} {b : Bool} (h : list.isCircular fuel = some b) :
    (list.meetingPoint fuel).isSome := by
  obtain ⟨meeting, hmeeting, -⟩ := Option.bind_eq_some_iff.1 h
  rw [hmeeting]
  rfl

/-- Every list that is built is repaired, whichever node its last node is linked to. -/
theorem repaired (calls : List Call) : ∃ list as, build calls = some list ∧
    (walk list).Yields list.head as ∧ as.map list.number = (calls.foldl withCall []).map some ∧
    ∀ link : Option ℕ, (∀ a ∈ link, a ∈ as) → Repaired list as link := by
  obtain ⟨list, as, hbuild, h⟩ := build_spec calls
  refine ⟨list, as, hbuild, h.links.yields, h.numbers, fun link hlink => ?_⟩
  cases link with
  | none =>
    obtain ⟨hcircular, hfix⟩ := h.links.ends (Nat.lt_succ_self _)
    exact ⟨list, _, list, rfl, isSome_meetingPoint hcircular, hcircular, hfix, h.links.yields,
      fun _ _ => rfl⟩
  | some a =>
    obtain ⟨m, hm, rfl⟩ := List.mem_iff_getElem.1 (hlink a rfl)
    obtain ⟨linked, bound, hlinked, hall⟩ := h.links.repair hm
    obtain ⟨hcircular, hfix⟩ := hall (bound + 1) (Nat.lt_succ_self _)
    rw [List.getElem?_eq_getElem hm] at hlinked
    exact ⟨linked, bound + 1, list, hlinked, isSome_meetingPoint hcircular, hcircular, hfix,
      h.links.yields, fun _ _ => rfl⟩

/-- `MakeListCircular` links the last node to a node with the number, if there is one. -/
theorem Links.makeCircularLoop (h : Links list as none) {linkTo : ℤ} :
    ∀ (n i : ℕ), i + n = as.length →
      (∃ a ∈ as.drop i, ∃ no, list.number a = some no ∧ no.toInt = linkTo) →
      ∃ m < as.length, ∀ fuel, n < fuel →
        list.makeCircularLoop linkTo fuel as[i]? = list.linkTail as[m]?
  | 0, i, hi, hex => by
    rw [List.drop_eq_nil_of_le (by omega)] at hex
    simp at hex
  | n + 1, i, hi, hex => by
    have hlt : i < as.length := by omega
    have hget : as[i]? = some as[i] := List.getElem?_eq_getElem hlt
    have hlen : as[i] < list.nodes.length := h.lt_length (List.getElem_mem hlt)
    have hnode : list.nodes[as[i]]? = some list.nodes[as[i]] := List.getElem?_eq_getElem hlen
    have hnext := h.next_getElem? hlt
    rw [hget] at hnext
    have hturn : ∀ fuel, list.makeCircularLoop linkTo (fuel + 1) as[i]? =
        if list.nodes[as[i]].number.toInt = linkTo then list.linkTail as[i]?
        else list.makeCircularLoop linkTo fuel as[i + 1]? := by
      intro fuel
      conv_lhs => unfold NodeList.makeCircularLoop
      rw [hget, if_pos (Option.some_ne_none _)]
      simp only [Option.bind_eq_bind, Option.bind_some, hnode, hnext]
      rfl
    by_cases hno : list.nodes[as[i]].number.toInt = linkTo
    · refine ⟨i, hlt, fun fuel hfuel => ?_⟩
      obtain ⟨fuel, rfl⟩ := Nat.exists_eq_succ_of_ne_zero (by omega : fuel ≠ 0)
      rw [hturn, if_pos hno]
    · obtain ⟨m, hm, hrest⟩ := h.makeCircularLoop n (i + 1) (by omega) (by
        obtain ⟨a, ha, no, hnumber, hlink⟩ := hex
        rw [List.drop_eq_getElem_cons hlt] at ha
        refine ⟨a, (List.mem_cons.1 ha).resolve_left fun heq => hno ?_, no, hnumber, hlink⟩
        subst heq
        unfold NodeList.number at hnumber
        rw [hnode] at hnumber
        rw [Option.some.inj hnumber]
        exact hlink)
      refine ⟨m, hm, fun fuel hfuel => ?_⟩
      obtain ⟨fuel, rfl⟩ := Nat.exists_eq_succ_of_ne_zero (by omega : fuel ≠ 0)
      rw [hturn, if_neg hno]
      exact hrest fuel (by omega)

/-- The asserts of `main`, for any list and any number in it. -/
theorem main_asserts (calls : List Call) {linkTo : Int32}
    (hmem : linkTo ∈ calls.foldl withCall []) :
    ∃ list linked fixed fuel, build calls = some list ∧ list.isCircular fuel = some false ∧
      list.makeListCircular linkTo.toInt fuel = some linked ∧ linked.isCircular fuel = some true ∧
      linked.fixList fuel = some fixed ∧ fixed.isCircular fuel = some false := by
  obtain ⟨list, as, hbuild, h⟩ := build_spec calls
  have hex : ∃ a ∈ as, ∃ no, list.number a = some no ∧ no.toInt = linkTo.toInt := by
    have hsome := List.mem_map_of_mem (f := some) hmem
    rw [← h.numbers] at hsome
    obtain ⟨a, ha, hnumber⟩ := List.mem_map.1 hsome
    exact ⟨a, ha, linkTo, hnumber, rfl⟩
  obtain ⟨m, hm, hmake⟩ := h.links.makeCircularLoop as.length 0 (Nat.zero_add _) hex
  obtain ⟨linked, bound, hlinked, hall⟩ := h.links.repair hm
  have hfuel : as.length < max as.length bound + 1 := by omega
  obtain ⟨hcircular, hfix⟩ := hall (max as.length bound + 1) (by omega)
  have hends := (h.links.ends hfuel).1
  refine ⟨list, linked, list, max as.length bound + 1, hbuild, hends, ?_, hcircular, hfix, hends⟩
  unfold makeListCircular
  rw [h.links.head, hmake _ hfuel]
  exact hlinked

end CPPCodes.Lists.NodeList
