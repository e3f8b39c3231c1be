import CPPCodes.Lib.Outcome
import Mathlib.Data.Nat.Notation
import Mathlib.Tactic.Common

/-!
# The list of linklist.h

`linklist` and its `ConstIterator`, under any calls in any order. The nodes are in memory, where a
pointer is an address or null; none is ever changed or given back, so that an iterator goes on to
read what was in the list when it was made (`Sees`), whatever is added meanwhile.
-/

namespace CPPCodes.Lists

structure LinkNode (α : Type) where
  data : α
  nextp : Option ℕ

/-- The memory, and `head.nextp`. -/
structure LinkList (α : Type) where
  nodes : List (LinkNode α)
  head : Option ℕ

namespace LinkList

open Option (Rel)

variable {α : Type}

def add (list : LinkList α) (data : α) : LinkList α :=
  { nodes := list.nodes ++ [⟨data, list.head⟩], head := some list.nodes.length }

/-- `*it`, with `it.curp`. -/
def deref (list : LinkList α) (curp : Option ℕ) : Option α := do
  let a ← curp
  let node ← list.nodes[a]?
  return node.data

/-- `++it`: its `curp` then. -/
def increment (list : LinkList α) (curp : Option ℕ) : Option (Option ℕ) := do
  let a ← curp
  let node ← list.nodes[a]?
  return node.nextp

/-- A call by a program that numbers its iterators. -/
inductive Call (α : Type)
  | add (data : α)
  | cbegin
  | cend
  | deref (i : ℕ)
  | increment (i : ℕ)
  /-- `i++`: the iterator that it returns is a new one. -/
  | incrementAfter (i : ℕ)
  | equal (i j : ℕ)

/-- What a call returns to the program. -/
inductive Seen (α : Type)
  | data (x : α)
  | equal (b : Bool)
deriving DecidableEq

structure Client (α : Type) where
  list : LinkList α
  iterators : List (Option ℕ)
  seen : List (Seen α)

def Client.new : Client α := ⟨⟨[], none⟩, [], []⟩

def Client.call (s : Client α) : Call α → Option (Client α)
  | .add data => some { s with list := add s.list data }
  | .cbegin => some { s with iterators := s.iterators ++ [s.list.head] }
  | .cend => some { s with iterators := s.iterators ++ [none] }
  | .deref i => do
    let it ← s.iterators[i]?
    let x ← deref s.list it
    return { s with seen := s.seen ++ [.data x] }
  | .increment i => do
    let it ← s.iterators[i]?
    let next ← increment s.list it
    return { s with iterators := s.iterators.set i next }
  | .incrementAfter i => do
    let it ← s.iterators[i]?
    let next ← increment s.list it
    return { s with iterators := s.iterators.set i next ++ [it] }
  | .equal i j => do
    let it ← s.iterators[i]?
    let rhs ← s.iterators[j]?
    return { s with seen := s.seen ++ [.equal (it = rhs)] }

/-- The values, the last to be added first, and those that each iterator has before it. -/
structure Reading (α : Type) where
  values : List α
  ahead : List (List α)
  seen : List (Seen α)

def Reading.new : Reading α := ⟨[], [], []⟩

def Reading.call (t : Reading α) : Call α → Option (Reading α)
  | .add data => some { t with values := data :: t.values }
  | .cbegin => some { t with ahead := t.ahead ++ [t.values] }
  | .cend => some { t with ahead := t.ahead ++ [[]] }
  | .deref i => do
    let xs ← t.ahead[i]?
    let x ← xs.head?
    return { t with seen := t.seen ++ [.data x] }
  | .increment i => do
    let xs ← t.ahead[i]?
    let rest ← xs.tail?
    return { t with ahead := t.ahead.set i rest }
  | .incrementAfter i => do
    let xs ← t.ahead[i]?
    let rest ← xs.tail?
    return { t with ahead := t.ahead.set i rest ++ [xs] }
  | .equal i j => do
    let xs ← t.ahead[i]?
    let ys ← t.ahead[j]?
    return { t with seen := t.seen ++ [.equal (xs.length = ys.length)] }

/-- The address of the node with these values ahead, its own the first: nodes are made in the order
of their places. -/
def pointer (xs : List α) : Option ℕ := if xs.length = 0 then none else some (xs.length - 1)

/-- The values from the pointer on. -/
inductive Ahead (nodes : List (LinkNode α)) : Option ℕ → List α → Prop
  | nil : Ahead nodes none []
  | cons {x : α} {xs : List α} {nextp : Option ℕ} : nodes[xs.length]? = some ⟨x, nextp⟩ →
      Ahead nodes nextp xs → Ahead nodes (some xs.length) (x :: xs)

variable {nodes : List (LinkNode α)} {p q : Option ℕ} {xs ys : List α}

theorem Ahead.pointer_eq (h : Ahead nodes p xs) : p = pointer xs := by
  cases h with
  | nil => rfl
  | cons _ _ => rfl

theorem pointer_eq_iff : pointer xs = pointer ys ↔ xs.length = ys.length := by
  unfold pointer
  grind

/-- A node more changes nothing for the iterators that are there. -/
theorem Ahead.append (h : Ahead nodes p xs) (nodes' : List (LinkNode α)) :
    Ahead (nodes ++ nodes') p xs := by
  induction h with
  | nil => exact .nil
  | cons hnode _ ih =>
    refine .cons ?_ ih
    rw [List.getElem?_append_left (List.getElem?_eq_some_iff.1 hnode).1, hnode]

theorem Ahead.deref {list : LinkList α} (h : Ahead list.nodes p xs) : deref list p = xs.head? := by
  cases h with
  | nil => rfl
  | cons hnode _ =>
    unfold LinkList.deref
    rw [Option.bind_eq_bind, Option.bind_some, hnode]
    rfl

theorem Ahead.increment {list : LinkList α} (h : Ahead list.nodes p xs) :
    Rel (Ahead list.nodes) (increment list p) xs.tail? := by
  cases h with
  | nil => exact .none
  | cons hnode hrest =>
    unfold LinkList.increment
    rw [Option.bind_eq_bind, Option.bind_some, hnode]
    exact .some hrest

/-- The list and the iterators stand for the values that they have ahead. -/
structure Sees (s : Client α) (t : Reading α) : Prop where
  length : s.list.nodes.length = t.values.length
  list : Ahead s.list.nodes s.list.head t.values
  iterators : List.Forall₂ (Ahead s.list.nodes) s.iterators t.ahead
  seen : s.seen = t.seen

variable {s : Client α} {t : Reading α}

theorem Sees.call (h : Sees s t) (c : Call α) : Rel Sees (s.call c) (t.call c) := by
  cases c with
  | add data =>
    have hhead := (h.list.append [⟨data, s.list.head⟩])
    refine .some ⟨by simp [LinkList.add, h.length], ?_, ?_, h.seen⟩
    · have hnode : (s.list.nodes ++ [⟨data, s.list.head⟩])[t.values.length]? =
          some ⟨data, s.list.head⟩ := by
        rw [← h.length, List.getElem?_concat_length]
      have hcons := Ahead.cons hnode hhead
      rw [← h.length] at hcons
      exact hcons
    · exact h.iterators.imp fun _ _ ha => ha.append _
  | cbegin => exact .some ⟨h.length, h.list, List.rel_append h.iterators (.cons h.list .nil), h.seen⟩
  | cend => exact .some ⟨h.length, h.list, List.rel_append h.iterators (.cons .nil .nil), h.seen⟩
  | deref i =>
    refine Outcome.rel_bind (Outcome.rel_getElem? h.iterators i) fun p xs hp => ?_
    rw [hp.deref]
    cases xs.head? with
    | none => exact .none
    | some x => exact .some ⟨h.length, h.list, h.iterators, by simp [h.seen]⟩
  | increment i =>
    refine Outcome.rel_bind (Outcome.rel_getElem? h.iterators i) fun p xs hp => ?_
    refine Outcome.rel_bind hp.increment fun q rest hq => ?_
    exact .some ⟨h.length, h.list, Outcome.forall₂_set h.iterators i hq, h.seen⟩
  | incrementAfter i =>
    refine Outcome.rel_bind (Outcome.rel_getElem? h.iterators i) fun p xs hp => ?_
    refine Outcome.rel_bind hp.increment fun q rest hq => ?_
    have hset := Outcome.forall₂_set h.iterators i hq
    exact .some ⟨h.length, h.list, List.rel_append hset (.cons hp .nil), h.seen⟩
  | equal i j =>
    refine Outcome.rel_bind (Outcome.rel_getElem? h.iterators i) fun p xs hp => ?_
    refine Outcome.rel_bind (Outcome.rel_getElem? h.iterators j) fun q ys hq => ?_
    refine .some ⟨h.length, h.list, h.iterators, ?_⟩
    simp only [hp.pointer_eq, hq.pointer_eq, pointer_eq_iff, h.seen]

/-- Whatever is called, the program sees the values of its readings, and goes through a null pointer
just where an iterator has none ahead. -/
theorem calls_seen (calls : List (Call α)) :
    (calls.foldlM Client.call (.new : Client α)).map Client.seen =
      (calls.foldlM Reading.call (.new : Reading α)).map Reading.seen := by
  have hnew : Sees (.new : Client α) .new := ⟨rfl, .nil, .nil, rfl⟩
  have h := Outcome.rel_foldlM (fun c _ _ hs => hs.call c) calls hnew
  generalize calls.foldlM Client.call .new = s at h ⊢
  generalize calls.foldlM Reading.call .new = t at h ⊢
  cases h with
  | some hseen => exact congrArg some hseen.seen
  | none => rfl

example : ([.add 10, .add 20, .cbegin, .add 30, .deref 0, .increment 0, .deref 0].foldlM Client.call
    (.new : Client ℕ)).map Client.seen = some [.data 20, .data 10] := rfl

end LinkList

end CPPCodes.Lists
