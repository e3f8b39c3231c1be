import CPPCodes.Lib.Iteration
import CPPCodes.Lib.Loop
import Mathlib.Data.List.Nodup

/-!
# The list of check_circle.cpp

`List` with its nodes in memory, where a pointer is an address or null. To follow a pointer that is
null or wild is `none`. From the head on the pointers link the nodes, and the last points to null
or, in a list that has been made circular, to one of them (`Links`).
-/

namespace CPPCodes.Lists

structure Node where
  number : Int32
  nextp : Option ℕ
deriving DecidableEq

/-- The memory and the two ends: `head.nextp` and `tailp`. -/
structure NodeList where
  nodes : List Node
  head : Option ℕ
  tailp : Option ℕ
deriving DecidableEq

namespace NodeList

def empty : NodeList := ⟨[], none, none⟩

/-- `p->nextp`. -/
def next (list : NodeList) (p : Option ℕ) : Option (Option ℕ) := do
  let a ← p
  let node ← list.nodes[a]?
  return node.nextp

/-- `p->nextp = q`. -/
def setNext (list : NodeList) (p q : Option ℕ) : Option NodeList := do
  let a ← p
  let node ← list.nodes[a]?
  return { list with nodes := list.nodes.set a { node with nextp := q } }

/-- `NewNode`: the address is not in use. -/
def newNode (list : NodeList) (no : Int32) : NodeList × ℕ :=
  ({ list with nodes := list.nodes ++ [⟨no, none⟩] }, list.nodes.length)

def insertFirstNode (list : NodeList) (a : ℕ) : NodeList :=
  { list with head := some a, tailp := some a }

def pushFront (list : NodeList) (no : Int32) : Option NodeList :=
  let (list, a) := list.newNode no
  if list.head.isSome then do
    let list ← list.setNext (some a) list.head
    return { list with head := some a }
  else some (list.insertFirstNode a)

def pushBack (list : NodeList) (no : Int32) : Option NodeList :=
  let (list, a) := list.newNode no
  if list.tailp.isSome then do
    let list ← list.setNext list.tailp (some a)
    return { list with tailp := some a }
  else some (list.insertFirstNode a)

/-- `for (auto it = begin(); it != end(); ++it)`: the nodes that the loop comes to. -/
def walk (list : NodeList) : Iteration.Protocol (Option ℕ) ℕ where
  done p := p.isNone
  get p := p
  next := list.next

variable {list list' : NodeList} {a b : ℕ} {p q : Option ℕ}

def number (list : NodeList) (a : ℕ) : Option Int32 := list.nodes[a]?.map Node.number

theorem next_some (list : NodeList) (a : ℕ) :
    list.next (some a) = list.nodes[a]?.map Node.nextp := by
  unfold next
  rw [Option.bind_eq_bind, Option.bind_some, Option.map_eq_bind]
  rfl

theorem lt_length_of_next (h : list.next (some a) = some p) : a < list.nodes.length := by
  rw [next_some] at h
  obtain ⟨node, hnode, -⟩ := Option.map_eq_some_iff.1 h
  exact (List.getElem?_eq_some_iff.1 hnode).1

/-- The pointer of one node is set, and all else is left. -/
structure Sets (list list' : NodeList) (a : ℕ) (q : Option ℕ) : Prop where
  head : list'.head = list.head
  tailp : list'.tailp = list.tailp
  next_self : list'.next (some a) = some q
  next_ne : ∀ b, b ≠ a → list'.next (some b) = list.next (some b)
  number : ∀ b, list'.number b = list.number b

theorem setNext_spec (ha : a < list.nodes.length) (q : Option ℕ) :
    ∃ list', list.setNext (some a) q = some list' ∧ Sets list list' a q := by
  have hnode : list.nodes[a]? = some list.nodes[a] := List.getElem?_eq_getElem ha
  refine ⟨{ list with nodes := list.nodes.set a { list.nodes[a] with nextp := q } }, ?_, rfl, rfl,
    ?_, fun b hb => ?_, fun b => ?_⟩
  · unfold setNext
    rw [Option.bind_eq_bind, Option.bind_some, hnode]
    rfl
  · rw [next_some, List.getElem?_set_self ha]
    rfl
  · rw [next_some, next_some, List.getElem?_set_ne hb.symm]
  · unfold NodeList.number
    by_cases hb : b = a
    · subst hb
      rw [List.getElem?_set_self ha, hnode]
      rfl
    · rw [List.getElem?_set_ne (Ne.symm hb)]

/-- To set a pointer back undoes the change. -/
theorem setNext_setNext (hnext : list.next (some a) = some p)
    (h : list.setNext (some a) q = some list') : list'.setNext (some a) p = some list := by
  have ha := lt_length_of_next hnext
  have hnode : list.nodes[a]? = some list.nodes[a] := List.getElem?_eq_getElem ha
  rw [next_some, hnode, Option.map_some] at hnext
  unfold setNext at h ⊢
  rw [Option.bind_eq_bind, Option.bind_some, hnode, Option.bind_eq_bind, Option.bind_some] at h
  obtain rfl := Option.some.inj h
  simp only [Option.bind_eq_bind, Option.bind_some, List.getElem?_set_self ha, List.set_set,
    ← Option.some.inj hnext]
  have hself : list.nodes.set a ⟨list.nodes[a].number, list.nodes[a].nextp⟩ = list.nodes :=
    List.set_getElem_self ha
  rw [hself]
  rfl

theorem newNode_snd (list : NodeList) (no : Int32) : (list.newNode no).2 = list.nodes.length := rfl

theorem newNode_next (no : Int32) (hb : b < list.nodes.length) :
    (list.newNode no).1.next (some b) = list.next (some b) := by
  rw [next_some, next_some]
  unfold newNode
  rw [List.getElem?_append_left hb]

theorem newNode_next_self (list : NodeList) (no : Int32) :
    (list.newNode no).1.next (some list.nodes.length) = some none := by
  rw [next_some]
  unfold newNode
  simp

theorem newNode_number (no : Int32) (hb : b < list.nodes.length) :
    (list.newNode no).1.number b = list.number b := by
  unfold number newNode
  rw [List.getElem?_append_left hb]

theorem newNode_number_self (list : NodeList) (no : Int32) :
    (list.newNode no).1.number list.nodes.length = some no := by
  unfold number newNode
  simp

/-- From the head on the nodes are those at the addresses, and the last points to `e`. -/
structure Links (list : NodeList) (as : List ℕ) (e : Option ℕ) : Prop where
  nodup : as.Nodup
  head : list.head = as[0]?
  tailp : list.tailp = as.getLast?
  next : ∀ i a, as[i]? = some a → list.next (some a) = some (as ++ e.toList)[i + 1]?

variable {as : List ℕ} {e : Option ℕ}

theorem empty_links : Links empty [] none :=
  ⟨.nil, rfl, rfl, fun _ _ h => absurd h (by simp)⟩

theorem Links.lt_length (h : Links list as e) (ha : a ∈ as) : a < list.nodes.length := by
  obtain ⟨i, hi⟩ := List.mem_iff_getElem?.1 ha
  exact lt_length_of_next (h.next i a hi)

theorem Links.notMem (h : Links list as e) : list.nodes.length ∉ as :=
  fun hmem => Nat.lt_irrefl _ (h.lt_length hmem)

theorem Links.newNode (h : Links list as e) (no : Int32) : Links (list.newNode no).1 as e where
  nodup := h.nodup
  head := h.head
  tailp := h.tailp
  next i a hi := by
    rw [newNode_next no (h.lt_length (List.mem_of_getElem? hi))]
    exact h.next i a hi

/-- The last node is not in front of itself. -/
theorem Links.getElem?_ne (h : Links list as e) {t i x : ℕ} (ht : as.getLast? = some t)
    (hx : as[i]? = some x) : x = t ↔ i + 1 = as.length := by
  rw [List.getLast?_eq_getElem?] at ht
  obtain ⟨hi, rfl⟩ := List.getElem?_eq_some_iff.1 hx
  obtain ⟨hlast, rfl⟩ := List.getElem?_eq_some_iff.1 ht
  rw [h.nodup.getElem_inj_iff]
  omega

/-- The last node points to `e`. -/
theorem Links.link (h : Links list as none) {t : ℕ} (ht : as.getLast? = some t) (e : Option ℕ)
    (hsets : Sets list list' t e) : Links list' as e where
  nodup := h.nodup
  head := hsets.head.trans h.head
  tailp := hsets.tailp.trans h.tailp
  next i x hx := by
    have hiff := h.getElem?_ne ht hx
    have hi := (List.getElem?_eq_some_iff.1 hx).1
    by_cases heq : x = t
    · obtain rfl := heq
      rw [hsets.next_self, hiff.1 rfl, List.getElem?_append_right (Nat.le_refl _), Nat.sub_self]
      cases e <;> rfl
    · have hne : i + 1 ≠ as.length := fun hlast => heq (hiff.2 hlast)
      rw [hsets.next_ne x heq, h.next i x hx, List.getElem?_append_left (by omega),
        List.getElem?_append_left (by omega)]

/-- A node behind the last. -/
theorem Links.append (h : Links list as none) {t : ℕ} (ht : as.getLast? = some t) (ha : a ∉ as)
    (hnext : list.next (some a) = some none) (hsets : Sets list list' t (some a)) :
    Links { list' with tailp := some a } (as ++ [a]) none where
  nodup := List.nodup_append.2 ⟨h.nodup, List.nodup_singleton a, by
    rintro x hx y hy rfl
    exact ha (List.mem_singleton.1 hy ▸ hx)⟩
  head := by
    rw [List.getElem?_append_left (List.length_pos_of_mem (List.mem_of_getLast? ht))]
    exact hsets.head.trans h.head
  tailp := List.getLast?_concat.symm
  next i x hx := by
    have hlink := h.link ht (some a) hsets
    rw [Option.toList_none, List.append_nil]
    by_cases hi : i < as.length
    · rw [List.getElem?_append_left hi] at hx
      exact hlink.next i x hx
    · obtain rfl : x = a := by
        rw [List.getElem?_append_right (by omega)] at hx
        exact List.mem_singleton.1 (List.mem_of_getElem? hx)
      have hne : x ≠ t := fun heq => ha (heq ▸ List.mem_of_getLast? ht)
      rw [List.getElem?_eq_none (by simp; omega), ← hnext]
      exact hsets.next_ne x hne

/-- A node in front of the first. -/
theorem Links.cons (h : Links list as none) (hne : as ≠ []) (ha : a ∉ as)
    (hsets : Sets list list' a list.head) : Links { list' with head := some a } (a :: as) none where
  nodup := List.nodup_cons.2 ⟨ha, h.nodup⟩
  head := rfl
  tailp := by
    obtain ⟨b, as, rfl⟩ := List.exists_cons_of_ne_nil hne
    rw [List.getLast?_cons_cons]
    exact hsets.tailp.trans h.tailp
  next i x hx := by
    rw [Option.toList_none, List.append_nil, List.getElem?_cons_succ]
    cases i with
    | zero =>
      obtain rfl : a = x := Option.some.inj hx
      rw [← h.head]
      exact hsets.next_self
    | succ i =>
      rw [List.getElem?_cons_succ] at hx
      have hnext := h.next i x hx
      rw [Option.toList_none, List.append_nil] at hnext
      rw [← hnext]
      exact hsets.next_ne x fun heq => ha (heq ▸ List.mem_of_getElem? hx)

/-- The only node. -/
theorem links_singleton (hnext : list.next (some a) = some none) :
    Links (list.insertFirstNode a) [a] none where
  nodup := List.nodup_singleton a
  head := rfl
  tailp := rfl
  next i x hx := by
    obtain rfl := List.mem_singleton.1 (List.mem_of_getElem? hx)
    rw [Option.toList_none, List.append_nil, List.getElem?_cons_succ, List.getElem?_nil]
    exact hnext

inductive Call
  | pushFront (no : Int32)
  | pushBack (no : Int32)

def call (list : NodeList) : Call → Option NodeList
  | .pushFront no => list.pushFront no
  | .pushBack no => list.pushBack no

def build (calls : List Call) : Option NodeList := calls.foldlM call empty

/-- The numbers in the list after a call. -/
def withCall (numbers : List Int32) : Call → List Int32
  | .pushFront no => no :: numbers
  | .pushBack no => numbers ++ [no]

/-- The list has the nodes at the addresses, with the numbers. -/
structure Built (list : NodeList) (as : List ℕ) (numbers : List Int32) : Prop where
  links : Links list as none
  numbers : as.map list.number = numbers.map some

variable {numbers : List Int32}

theorem Built.numbers_eq (h : Built list as numbers) (no : Int32)
    (hsame : ∀ b ∈ as, list'.number b = (list.newNode no).1.number b) :
    as.map list'.number = numbers.map some := by
  rw [← h.numbers]
  refine List.map_congr_left fun b hb => ?_
  rw [hsame b hb, newNode_number no (h.links.lt_length hb)]

theorem Built.singleton (h : Built list [] numbers) (no : Int32) :
    Built ((list.newNode no).1.insertFirstNode list.nodes.length) [list.nodes.length] [no] ∧
      numbers = [] := by
  refine ⟨⟨links_singleton (newNode_next_self list no), ?_⟩,
    List.map_eq_nil_iff.1 h.numbers.symm⟩
  exact congrArg (· :: []) (newNode_number_self list no)

theorem Built.pushFront (h : Built list as numbers) (no : Int32) :
    ∃ list' as', list.pushFront no = some list' ∧ Built list' as' (no :: numbers) := by
  have hlinks := h.links.newNode no
  unfold NodeList.pushFront
  dsimp only
  rcases as with _ | ⟨a, as⟩
  · obtain ⟨hbuilt, rfl⟩ := h.singleton no
    refine ⟨_, _, ?_, hbuilt⟩
    rw [if_neg (by rw [hlinks.head]; simp)]
    rfl
  · obtain ⟨list', hset, hsets⟩ := setNext_spec
      (lt_length_of_next (newNode_next_self list no)) (list.newNode no).1.head
    refine ⟨_, _, ?_, hlinks.cons (List.cons_ne_nil a as) h.links.notMem hsets, ?_⟩
    · rw [if_pos (by rw [hlinks.head]; simp), newNode_snd, hset]
      rfl
    · have hnumbers := h.numbers_eq no fun b _ => hsets.number b
      rw [List.map_cons, List.map_cons]
      refine congrArg₂ List.cons ?_ hnumbers
      exact (hsets.number _).trans (newNode_number_self list no)

theorem Built.pushBack (h : Built list as numbers) (no : Int32) :
    ∃ list' as', list.pushBack no = some list' ∧ Built list' as' (numbers ++ [no]) := by
  have hlinks := h.links.newNode no
  unfold NodeList.pushBack
  dsimp only
  cases hlast : as.getLast? with
  | none =>
    obtain rfl := List.getLast?_eq_none_iff.1 hlast
    obtain ⟨hbuilt, rfl⟩ := h.singleton no
    refine ⟨_, _, ?_, hbuilt⟩
    rw [if_neg (by rw [hlinks.tailp]; simp)]
    rfl
  | some t =>
    have ht := hlinks.tailp.trans hlast
    obtain ⟨list', hset, hsets⟩ :=
      setNext_spec (hlinks.lt_length (List.mem_of_getLast? hlast)) (some list.nodes.length)
    refine ⟨_, _, ?_, hlinks.append hlast h.links.notMem (newNode_next_self list no) hsets, ?_⟩
    · rw [if_pos (by rw [ht]; rfl), ht, newNode_snd, hset]
      rfl
    · have hnumbers := h.numbers_eq no fun b _ => hsets.number b
      rw [List.map_append, List.map_append]
      refine congrArg₂ (· ++ ·) hnumbers (congrArg (· :: []) ?_)
      exact (hsets.number _).trans (newNode_number_self list no)

theorem Built.call {numbers : List Int32} (h : Built list as numbers) (c : Call) :
    ∃ list' as', NodeList.call list c = some list' ∧ Built list' as' (withCall numbers c) := by
  cases c with
  | pushFront no => exact h.pushFront no
  | pushBack no => exact h.pushBack no

theorem build_spec (calls : List Call) :
    ∃ list as, build calls = some list ∧ Built list as (calls.foldl withCall []) := by
  obtain ⟨list, hrun, as, h⟩ := Loop.exists_foldlM (l := calls)
    (P := fun pre list => ∃ as, Built list as (pre.foldl withCall []))
    ⟨[], empty_links, rfl⟩ fun pre c _ list ⟨as, h⟩ => by
      obtain ⟨list', as', hcall, h'⟩ := h.call c
      exact ⟨list', hcall, as', by rwa [List.foldl_concat]⟩
  exact ⟨list, as, hrun, h⟩

/-- A walk through a list that ends comes to its nodes, in order. -/
theorem Links.yields (h : Links list as none) : (walk list).Yields list.head as := by
  have hfrom : ∀ n i, i + n = as.length → (walk list).Yields as[i]? (as.drop i) := by
    intro n
    induction n with
    | zero =>
      intro i hi
      rw [List.getElem?_eq_none (by omega), List.drop_eq_nil_of_le (by omega)]
      exact .done rfl
    | succ n ih =>
      intro i hi
      have hlt : i < as.length := by omega
      have hget : as[i]? = some as[i] := List.getElem?_eq_getElem hlt
      have hnext := h.next i as[i] hget
      rw [Option.toList_none, List.append_nil] at hnext
      rw [List.drop_eq_getElem_cons hlt, hget]
      exact .step rfl rfl hnext (ih (i + 1) (by omega))
  rw [h.head]
  exact hfrom as.length 0 (Nat.zero_add _)

end NodeList

end CPPCodes.Lists
