import CPPCodes.Lib.Iteration
import Mathlib.Algebra.Order.Ring.Int
import Mathlib.Data.Tree.Basic

/-!
# Trees of nodes with parent links

`BinaryTree` and `BST` of BinaryTree.h. The nodes are the memory that `NewNode` has given, an
address is a place in it and `nullptr` is `none`; reading through a null pointer is `none`. A loop
has fuel, at most as much as there are nodes.
-/

namespace CPPCodes.Trees

variable {α : Type}

structure Node (α : Type) where
  parentp : Option ℕ
  leftp : Option ℕ
  rightp : Option ℕ
  data : α

structure Tree (α : Type) where
  nodes : List (Node α)
  rootp : Option ℕ

/-- `Node(parent, data)`. -/
def Node.new (parentp : Option ℕ) (data : α) : Node α where
  parentp := parentp
  leftp := none
  rightp := none
  data := data

/-- An empty tree. -/
def Tree.empty : Tree α where
  nodes := []
  rootp := none

/-- `NewNode`, with the address that it returns. -/
def newNode (nodes : List (Node α)) (parentp : Option ℕ) (data : α) : ℕ × List (Node α) :=
  (nodes.length, nodes ++ [.new parentp data])

/-- `parentp->leftp = NewNode(parentp, data)`. -/
def attachLeft (nodes : List (Node α)) (parentp : ℕ) (data : α) : Option (List (Node α)) := do
  let (nodep, nodes) := newNode nodes (some parentp) data
  let parent ← nodes[parentp]?
  return nodes.set parentp { parent with leftp := some nodep }

/-- `parentp->rightp = NewNode(parentp, data)`. -/
def attachRight (nodes : List (Node α)) (parentp : ℕ) (data : α) : Option (List (Node α)) := do
  let (nodep, nodes) := newNode nodes (some parentp) data
  let parent ← nodes[parentp]?
  return nodes.set parentp { parent with rightp := some nodep }

/-- What an iterator gives: its node pointer, and the data there. -/
def valueAt (nodes : List (Node α)) (nodep : Option ℕ) : Option (ℕ × α) := do
  let nodep ← nodep
  let node ← nodes[nodep]?
  return (nodep, node.data)

structure BfsIterator where
  nodep : Option ℕ
  /-- Its front first. -/
  to_visit : List ℕ

namespace BfsIterator

def addChildrenToVisit (nodes : List (Node α)) (it : BfsIterator) : Option BfsIterator :=
  match it.nodep with
  | none => some it
  | some nodep => do
    let node ← nodes[nodep]?
    return { it with to_visit := it.to_visit ++ node.leftp.toList ++ node.rightp.toList }

/-- `BfsIterator(nodep)`. -/
def new (nodes : List (Node α)) (nodep : Option ℕ) : Option BfsIterator :=
  addChildrenToVisit nodes { nodep, to_visit := [] }

/-- `operator++`. -/
def next (nodes : List (Node α)) (it : BfsIterator) : Option BfsIterator :=
  match it.to_visit with
  | [] => some { it with nodep := none }
  | nodep :: to_visit => addChildrenToVisit nodes { nodep := some nodep, to_visit }

/-- The iterator until it equals `BfsIterator(nullptr)`. -/
def protocol (nodes : List (Node α)) : Iteration.Protocol BfsIterator (ℕ × α) where
  done it := it.nodep.isNone
  get it := valueAt nodes it.nodep
  next := next nodes

end BfsIterator

/-- The loop of `Insert`: a child of the first node, in the order of the visits, that lacks one. -/
def insertLoop (nodes : List (Node α)) (data : α) : ℕ → BfsIterator → Option (List (Node α))
  | 0, _ => none
  | fuel + 1, it =>
    match it.nodep with
    | none => some nodes
    | some parentp => do
      let parent ← nodes[parentp]?
      if parent.leftp.isNone then attachLeft nodes parentp data
      else if parent.rightp.isNone then attachRight nodes parentp data
      else
        let it ← it.next nodes
        insertLoop nodes data fuel it

/-- `BinaryTree::Insert`. -/
def Tree.insert (tree : Tree α) (data : α) : Option (Tree α) :=
  match tree.rootp with
  | none =>
    let (nodep, nodes) := newNode tree.nodes none data
    some { nodes, rootp := some nodep }
  | some rootp => do
    let it ← BfsIterator.new tree.nodes (some rootp)
    let nodes ← insertLoop tree.nodes data tree.nodes.length it
    return { tree with nodes }

/-- `Height(nodep)`. -/
def heightAt (nodes : List (Node α)) : ℕ → Option ℕ → Option ℤ
  | 0, _ => none
  | _ + 1, none => some 0
  | fuel + 1, some nodep => do
    let node ← nodes[nodep]?
    let lh ← heightAt nodes fuel node.leftp
    let rh ← heightAt nodes fuel node.rightp
    return max lh rh + 1

/-- `Height`. -/
def Tree.height (tree : Tree α) : Option ℤ :=
  heightAt tree.nodes (tree.nodes.length + 1) tree.rootp

/-- `IsBalanced(nodep, balanced)`, with `balanced` as it leaves it. -/
def isBalancedAt (nodes : List (Node α)) : ℕ → Option ℕ → Bool → Option (ℤ × Bool)
  | 0, _, _ => none
  | _ + 1, none, balanced => some (0, balanced)
  | fuel + 1, some nodep, balanced => do
    let node ← nodes[nodep]?
    let (lh, balanced) ← isBalancedAt nodes fuel node.leftp balanced
    let (rh, balanced) ← isBalancedAt nodes fuel node.rightp balanced
    let balanced := if (lh - rh).natAbs > 1 then false else balanced
    return (max lh rh + 1, balanced)

/-- `IsBalanced`. -/
def Tree.isBalanced (tree : Tree α) : Option Bool := do
  let (_, balanced) ← isBalancedAt tree.nodes (tree.nodes.length + 1) tree.rootp true
  return balanced

namespace InorderIterator

/-- The loop of `LeftMostChild`. -/
def leftMostChild (nodes : List (Node α)) : ℕ → ℕ → Option ℕ
  | 0, _ => none
  | fuel + 1, nodep => do
    let node ← nodes[nodep]?
    match node.leftp with
    | none => some nodep
    | some leftp => leftMostChild nodes fuel leftp

/-- `InorderIterator(rootp)`: its `nodep_`. -/
def new (nodes : List (Node α)) (rootp : Option ℕ) : Option (Option ℕ) :=
  match rootp with
  | none => some none
  | some rootp => (leftMostChild nodes nodes.length rootp).map some

/-- The loop of `operator++`, up while it comes from the right. -/
def climb (nodes : List (Node α)) : ℕ → ℕ → Option ℕ
  | 0, _ => none
  | fuel + 1, nodep => do
    let node ← nodes[nodep]?
    match node.parentp with
    | none => some nodep
    | some parentp =>
      let parent ← nodes[parentp]?
      if parent.rightp = some nodep then climb nodes fuel parentp else some nodep

/-- `operator++`. -/
def next (nodes : List (Node α)) (nodep : Option ℕ) : Option (Option ℕ) :=
  match nodep with
  | none => some none
  | some nodep => do
    let node ← nodes[nodep]?
    match node.rightp with
    | some rightp => (leftMostChild nodes nodes.length rightp).map some
    | none =>
      if node.parentp.isSome then
        let nodep ← climb nodes nodes.length nodep
        let node ← nodes[nodep]?
        match node.parentp with
        | some parentp => some (some parentp)
        | none => some none
      else some none

/-- The iterator until it equals `end()`. -/
def protocol (nodes : List (Node α)) : Iteration.Protocol (Option ℕ) (ℕ × α) where
  done nodep := nodep.isNone
  get := valueAt nodes
  next := next nodes

end InorderIterator

/-- `begin`. -/
def Tree.begin (tree : Tree α) : Option (Option ℕ) := InorderIterator.new tree.nodes tree.rootp

/-- The loop `for (it = begin(); it != end(); ++it)`, in at most `fuel` turns: what it visits. -/
def Tree.iterate (tree : Tree α) (fuel : ℕ) : Option (List (ℕ × α)) := do
  let it ← tree.begin
  (InorderIterator.protocol tree.nodes).run fuel it

/-- The loop of `BST::Insert`, where `less` is the comparison of the data. -/
def bstLoop (less : α → α → Bool) (nodes : List (Node α)) (data : α) :
    ℕ → ℕ → Option (List (Node α))
  | 0, _ => none
  | fuel + 1, nodep => do
    let node ← nodes[nodep]?
    if less node.data data then
      match node.rightp with
      | some rightp => bstLoop less nodes data fuel rightp
      | none => attachRight nodes nodep data
    else
      match node.leftp with
      | some leftp => bstLoop less nodes data fuel leftp
      | none => attachLeft nodes nodep data

/-- `BST::Insert`. -/
def Tree.bstInsert (less : α → α → Bool) (tree : Tree α) (data : α) : Option (Tree α) :=
  match tree.rootp with
  | none =>
    let (nodep, nodes) := newNode tree.nodes none data
    some { nodes, rootp := some nodep }
  | some rootp => do
    let nodes ← bstLoop less tree.nodes data tree.nodes.length rootp
    return { tree with nodes }

end CPPCodes.Trees
