import CPPCodes.Trees.Insert

/-!
# Insertion into a search tree

The loop of `BST::Insert` goes down one path and ends with a new leaf, as `SearchTree.insert` does.
Only the node above the leaf changes, so all other subtrees stay (`bstLoop_spec`). Every run of
insertions then leaves the tree of its values, whatever their comparison is (`bstBuild_spec`).
-/

namespace CPPCodes.Trees

open SearchTree (inorder)

variable {α : Type} {nodes : List (Node α)} {parentp : Option ℕ} {data : α}
  {l r t : BinaryTree (ℕ × α)} {a : ℕ} {node : Node α}

/-- The comparison, of what is at two addresses. -/
def before (less : α → α → Bool) (v w : ℕ × α) : Bool := less v.2 w.2

/-- The nodes behind an insertion into a subtree. -/
structure Inserted (nodes : List (Node α)) (parentp : Option ℕ) (a : ℕ) (t t' : BinaryTree (ℕ × α))
    (nodes' : List (Node α)) : Prop where
  shape : Shape nodes' parentp (some a) t'
  length : nodes'.length = nodes.length + 1
  frame : ∀ b < nodes.length, b ∉ addresses t → nodes'[b]? = nodes[b]?

theorem bstLoop_spec (less : α → α → Bool) (data : α) : ∀ (fuel : ℕ) {parentp : Option ℕ} {a : ℕ}
    {t : BinaryTree (ℕ × α)}, Shape nodes parentp (some a) t → (addresses t).Nodup →
    t.height ≤ fuel → ∃ nodes', bstLoop less nodes data fuel a = some nodes' ∧
      Inserted nodes parentp a t
        (SearchTree.insert (before less) (nodes.length, data) t) nodes'
  | 0, _, _, _, .node _ _ _ _, _, hfuel => absurd hfuel (Nat.not_succ_le_zero _)
  | fuel + 1, _, a, _, .node (l := l) (r := r) hnode hparent hl hr, hnodup, hfuel => by
    rename_i parentp node
    rw [BinaryTree.height] at hfuel
    obtain ⟨hnodupl, hnodupr, hleft, hright, hdisjoint⟩ := nodup_node hnodup
    have ha : a < nodes.length := (List.getElem?_eq_some_iff.1 hnode).1
    unfold bstLoop SearchTree.insert
    simp only [hnode, Option.bind_eq_bind, Option.bind_some]
    have hbefore : before less (a, node.data) (nodes.length, data) = less node.data data := rfl
    rw [hbefore]
    by_cases hless : less node.data data
    · rw [if_pos hless, if_pos hless]
      cases hrightp : node.rightp with
      | none =>
        rw [hrightp] at hr
        cases hr
        refine ⟨_, attachRight_eq hnode, ?_, length_attached _ _, fun b hb hmem => ?_⟩
        · have hself := getElem?_attached_parent { node with rightp := some nodes.length } data ha
          have hshape := Shape.node hself hparent (hl.attached _ data hleft) (shape_leaf _ data ha)
          exact hshape
        · exact getElem?_attached _ _ hb fun heq => hmem (by simp [addresses_node, heq])
      | some c =>
        rw [hrightp] at hr
        obtain ⟨nodes', hrun, h⟩ := bstLoop_spec less data fuel hr hnodupr (by omega)
        refine ⟨nodes', hrun, ?_, h.length, fun b hb hmem => ?_⟩
        · have hstays : nodes'[a]? = some node := (h.frame a ha hright).trans hnode
          refine .node hstays hparent (hl.frame fun b hb => ?_) (hrightp ▸ h.shape)
          exact h.frame b (hl.lt_length b hb) (hdisjoint b hb)
        · exact h.frame b hb fun hb' => hmem (by simp [addresses_node, hb'])
    · rw [if_neg hless, if_neg hless]
      cases hleftp : node.leftp with
      | none =>
        rw [hleftp] at hl
        cases hl
        refine ⟨_, attachLeft_eq hnode, ?_, length_attached _ _, fun b hb hmem => ?_⟩
        · have hself := getElem?_attached_parent { node with leftp := some nodes.length } data ha
          have hshape := Shape.node hself hparent (shape_leaf _ data ha) (hr.attached _ data hright)
          exact hshape
        · exact getElem?_attached _ _ hb fun heq => hmem (by simp [addresses_node, heq])
      | some c =>
        rw [hleftp] at hl
        obtain ⟨nodes', hrun, h⟩ := bstLoop_spec less data fuel hl hnodupl (by omega)
        refine ⟨nodes', hrun, ?_, h.length, fun b hb hmem => ?_⟩
        · have hstays : nodes'[a]? = some node := (h.frame a ha hleft).trans hnode
          refine .node hstays hparent (hleftp ▸ h.shape) (hr.frame fun b hb => ?_)
          exact h.frame b (hr.lt_length b hb) fun hb' => hdisjoint b hb' hb
        · exact h.frame b hb fun hb' => hmem (by simp [addresses_node, hb'])

/-- The tree after these insertions, each of them `BST::Insert`. -/
def bstBuild (less : α → α → Bool) (values : List α) : Option (Tree α) :=
  values.foldlM (Tree.bstInsert less) .empty

theorem inorder_addresses (a : ℕ) (data : α) (before : ℕ × α → ℕ × α → Bool) :
    (addresses (SearchTree.insert before (a, data) t)).Perm (a :: addresses t) :=
  (SearchTree.inorder_insert (a, data) t).map Prod.fst

theorem Represents.bstInsert {tree : Tree α} (h : Represents tree t) (less : α → α → Bool)
    (data : α) : ∃ tree', tree.bstInsert less data = some tree' ∧
      Represents tree' (SearchTree.insert (before less) (tree.nodes.length, data) t) := by
  have haddresses :
      (Trees.addresses (SearchTree.insert (before less) (tree.nodes.length, data) t)).Perm
      (List.range (tree.nodes.length + 1)) := by
    rw [List.range_succ]
    refine (inorder_addresses _ _ _).trans ((h.addresses.cons _).trans ?_)
    exact (List.perm_append_singleton _ _).symm
  have hshape := h.shape
  unfold Tree.bstInsert
  cases hroot : tree.rootp with
  | none =>
    rw [hroot] at hshape
    cases hshape
    refine ⟨_, rfl, ?_, ?_⟩
    · refine Shape.node (?_ : _ = some (Node.new none data)) rfl .nil .nil
      show (tree.nodes ++ [Node.new none data])[tree.nodes.length]? = _
      rw [List.getElem?_append_right (Nat.le_refl _), Nat.sub_self]
      rfl
    · show (Trees.addresses _).Perm (List.range (tree.nodes ++ [Node.new none data]).length)
      rwa [List.length_append, List.length_singleton]
  | some rootp =>
    rw [hroot] at hshape
    obtain ⟨nodes', hrun, hnodes'⟩ := bstLoop_spec less data tree.nodes.length hshape h.nodup
      h.height_le
    refine ⟨{ nodes := nodes', rootp := some rootp }, ?_, hnodes'.shape, ?_⟩
    · simp only [hrun, Option.bind_eq_bind, Option.bind_some]
      rfl
    · rwa [hnodes'.length]

theorem represents_empty : Represents (.empty : Tree α) .nil :=
  ⟨.nil, .refl _⟩

theorem bstBuild_spec (less : α → α → Bool) (values : List α) :
    ∃ tree t, bstBuild less values = some tree ∧ Represents tree t ∧
      SearchTree.Ordered (before less) t ∧ ((inorder t).map Prod.snd).Perm values := by
  obtain ⟨tree, hrun, t, h⟩ := Loop.exists_foldlM (l := values) (P := fun pre tree =>
    ∃ t, Represents tree t ∧ SearchTree.Ordered (before less) t ∧
      ((inorder t).map Prod.snd).Perm pre)
    ⟨.nil, represents_empty, trivial, .nil⟩ fun pre data _ tree ⟨t, h, hordered, hperm⟩ => by
      obtain ⟨tree', hinsert, h'⟩ := h.bstInsert less data
      have hinorder : (inorder (SearchTree.insert (before less) (tree.nodes.length, data) t)).Perm
          ((tree.nodes.length, data) :: inorder t) := SearchTree.inorder_insert _ t
      refine ⟨tree', hinsert, _, h', hordered.insert _, (hinorder.map Prod.snd).trans ?_⟩
      exact (hperm.cons data).trans (List.perm_append_singleton data pre).symm
  exact ⟨tree, t, hrun, h⟩

/-- `InorderIterator` from `begin()` to `end()` visits every node once, in the order of the tree. -/
def Walks (tree : Tree α) : Prop :=
  ∃ t, Represents tree t ∧ ∃ fuel, tree.iterate fuel = some (inorder t)

/-- Every tree that is built is walked through in order. -/
theorem build_walks (less : α → α → Bool) (values : List α) :
    (∃ tree, build values = some tree ∧ Walks tree) ∧
      ∃ tree, bstBuild less values = some tree ∧ Walks tree := by
  constructor
  · have hrepresents := represents_complete values
    exact ⟨complete values, build_eq values, _, hrepresents, hrepresents.iterate⟩
  · obtain ⟨tree, t, hbuild, hrepresents, -, -⟩ := bstBuild_spec less values
    exact ⟨tree, hbuild, t, hrepresents, hrepresents.iterate⟩

/-- At every node the values to its left are at most its own, and those to its right are greater. -/
def SearchOrder [LinearOrder α] : BinaryTree (ℕ × α) → Prop
  | .nil => True
  | .node v l r => (∀ y ∈ inorder l, y.2 ≤ v.2) ∧ (∀ y ∈ inorder r, v.2 < y.2) ∧ SearchOrder l ∧
      SearchOrder r

theorem searchOrder_of_ordered [LinearOrder α] : ∀ {t : BinaryTree (ℕ × α)},
    SearchTree.Ordered (before fun x y => decide (x < y)) t → SearchOrder t
  | .nil, _ => trivial
  | .node _ _ _, ⟨hleft, hright, hl, hr⟩ =>
    ⟨fun y hy => not_lt.1 (of_decide_eq_false (hleft y hy)),
      fun y hy => of_decide_eq_true (hright y hy), searchOrder_of_ordered hl,
      searchOrder_of_ordered hr⟩

/-- Every run of insertions leaves a search tree of the values, which is read in their order. -/
theorem bstBuild_searchOrder [LinearOrder α] (values : List α) : ∃ tree t,
    bstBuild (fun x y => decide (x < y)) values = some tree ∧ Represents tree t ∧ SearchOrder t ∧
      ((inorder t).map Prod.snd).Perm values ∧ Linked tree ∧
      ∃ fuel visits, tree.iterate fuel = some visits ∧ (visits.map Prod.snd).Perm values ∧
        (visits.map Prod.snd).Pairwise (· ≤ ·) := by
  obtain ⟨tree, t, hbuild, hrepresents, hordered, hperm⟩ :=
    bstBuild_spec (fun x y => decide (x < y)) values
  obtain ⟨fuel, hrun⟩ := hrepresents.iterate
  exact ⟨tree, t, hbuild, hrepresents, searchOrder_of_ordered hordered, hperm, hrepresents.linked,
    fuel, inorder t, hrun, hperm, hordered.pairwise⟩

end CPPCodes.Trees
