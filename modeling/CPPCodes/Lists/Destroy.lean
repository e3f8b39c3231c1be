import CPPCodes.Lib.Memory
import CPPCodes.Lists.CheckCircle

/-!
# The end of a list

`node::free` and the destructor of `List`. Every node of a list is given back, each once and after
the nodes behind it. A list without nodes has none to call `free` for, and in a circular list no
node comes to be the last.
-/

namespace CPPCodes.Lists.NodeList

open Memory

/-- `node::free`, to a depth of `fuel` calls. -/
def freeNode : ℕ → Cells Node → ℕ → Option (Cells Node)
  | 0, _, _ => none
  | fuel + 1, m, a => do
    let node ← m a
    let m ← unlessNull (freeNode fuel) m node.nextp
    free m a

/-- `~List`, which calls `free` through `head.nextp`. -/
def destroy (list : NodeList) (fuel : ℕ) : Option (Cells Node) := do
  let a ← list.head
  freeNode fuel (ofList list.nodes) a

variable {list list' : NodeList} {as : List ℕ}

theorem Links.nextp (h : Links list as none) {i : ℕ} (hi : i < as.length) :
    ∃ node, list.nodes[as[i]]? = some node ∧ node.nextp = as[i + 1]? := by
  have hnext := h.next_getElem? hi
  rw [List.getElem?_eq_getElem hi, next_some] at hnext
  exact Option.map_eq_some_iff.1 hnext

/-- The nodes from a place on are given back. -/
theorem Links.freeNode (h : Links list as none) : ∀ (n i : ℕ) (hi : i < as.length),
    i + n + 1 = as.length → ∀ fuel, n < fuel →
      NodeList.freeNode fuel (ofList list.nodes) as[i] =
        some (without (ofList list.nodes) (as.drop i))
  | n, i, hi, hn, fuel, hfuel => by
    obtain ⟨fuel, rfl⟩ := Nat.exists_eq_succ_of_ne_zero (by omega : fuel ≠ 0)
    obtain ⟨node, hnode, hnextp⟩ := h.nextp hi
    have hdrop : as.drop i = as[i] :: as.drop (i + 1) := List.drop_eq_getElem_cons hi
    have hnot : as[i] ∉ as.drop (i + 1) := by
      have hnodup := h.nodup.sublist (List.drop_sublist i as)
      rw [hdrop] at hnodup
      exact (List.nodup_cons.1 hnodup).1
    have hperm : (as.drop (i + 1) ++ [as[i]]).Perm (as.drop i) := by
      rw [hdrop]
      exact List.perm_append_singleton ..
    have hcell : without (ofList list.nodes) (as.drop (i + 1)) as[i] = some node :=
      (without_of_notMem hnot).trans hnode
    have hrest : unlessNull (NodeList.freeNode fuel) (ofList list.nodes) node.nextp =
        some (without (ofList list.nodes) (as.drop (i + 1))) := by
      cases n with
      | zero =>
        rw [hnextp, List.getElem?_eq_none (by omega), List.drop_eq_nil_of_le (by omega),
          without_nil]
        rfl
      | succ n =>
        have hi' : i + 1 < as.length := by omega
        rw [hnextp, List.getElem?_eq_getElem hi']
        exact h.freeNode n (i + 1) hi' (by omega) fuel (by omega)
    unfold NodeList.freeNode
    rw [show ofList list.nodes as[i] = some node from hnode, Option.bind_eq_bind,
      Option.bind_some, hrest, Option.bind_eq_bind, Option.bind_some, free_eq hcell,
      without_without, without_perm hperm]

/-- Behind every node of a circular list there is another one to call `free` for. -/
theorem freeNode_eq_none {m : Cells Node} {S : Set ℕ}
    (hS : ∀ a ∈ S, ∀ node, m a = some node → ∃ b ∈ S, node.nextp = some b) :
    ∀ (fuel : ℕ) (a : ℕ), a ∈ S → freeNode fuel m a = none
  | 0, _, _ => rfl
  | fuel + 1, a, ha => by
    unfold freeNode
    cases hnode : m a with
    | none => rfl
    | some node =>
      obtain ⟨b, hb, hnextp⟩ := hS a ha node hnode
      rw [Option.bind_eq_bind, Option.bind_some, hnextp, unlessNull, freeNode_eq_none hS fuel b hb]
      rfl

theorem Links.destroy_circular {m : ℕ} (h : Links list as as[m]?) (hm : m < as.length) (fuel : ℕ) :
    list.destroy fuel = none := by
  have h0 : 0 < as.length := by omega
  have hhead : list.head = some as[0] := by rw [h.head, List.getElem?_eq_getElem h0]
  unfold destroy
  rw [hhead, Option.bind_eq_bind, Option.bind_some]
  refine freeNode_eq_none (S := {a | a ∈ as}) (fun a ha node hnode => ?_) fuel _
    (List.getElem_mem h0)
  obtain ⟨i, hi, rfl⟩ := List.mem_iff_getElem.1 ha
  have hnext := h.next i _ (List.getElem?_eq_getElem hi)
  have hsome : list.nodes[as[i]]? = some node := hnode
  rw [List.getElem?_eq_getElem hm] at hnext
  have hlen : i + 1 < (as ++ (some as[m]).toList).length := by simpa using hi
  rw [next_some, hsome, Option.map_some, List.getElem?_eq_getElem hlen, Option.some_inj] at hnext
  have hin : ∀ b ∈ as ++ (some as[m]).toList, b ∈ as := by
    intro b hb
    rcases List.mem_append.1 hb with hmem | hmem
    · exact hmem
    · rw [List.mem_singleton.1 hmem]
      exact List.getElem_mem hm
  exact ⟨_, hin _ (List.getElem_mem hlen), hnext⟩

/-! ## Nothing is left -/

theorem length_setNext {p q : Option ℕ} (h : list.setNext p q = some list') :
    list'.nodes.length = list.nodes.length := by
  obtain ⟨a, -, h⟩ := Option.bind_eq_some_iff.1 h
  obtain ⟨node, -, h⟩ := Option.bind_eq_some_iff.1 h
  cases h
  exact List.length_set

theorem length_newNode (list : NodeList) (no : Int32) :
    (list.newNode no).1.nodes.length = list.nodes.length + 1 := List.length_append

theorem length_call {c : Call} (h : list.call c = some list') :
    list'.nodes.length = list.nodes.length + 1 := by
  cases c with
  | pushFront no =>
    unfold call pushFront at h
    dsimp only at h
    split_ifs at h
    · obtain ⟨list₁, hset, h⟩ := Option.bind_eq_some_iff.1 h
      cases h
      exact (length_setNext hset).trans (length_newNode list no)
    · cases h
      exact length_newNode list no
  | pushBack no =>
    unfold call pushBack at h
    dsimp only at h
    split_ifs at h
    · obtain ⟨list₁, hset, h⟩ := Option.bind_eq_some_iff.1 h
      cases h
      exact (length_setNext hset).trans (length_newNode list no)
    · cases h
      exact length_newNode list no

theorem length_foldlM : ∀ {calls : List Call} {list list' : NodeList},
    calls.foldlM call list = some list' → list'.nodes.length = list.nodes.length + calls.length
  | [], _, _, h => by
    cases h
    rfl
  | c :: calls, list, list', h => by
    rw [List.foldlM_cons] at h
    obtain ⟨list₁, hcall, h⟩ := Option.bind_eq_some_iff.1 h
    rw [length_foldlM h, length_call hcall, List.length_cons]
    omega

theorem length_foldl_withCall : ∀ (calls : List Call) (numbers : List Int32),
    (calls.foldl withCall numbers).length = numbers.length + calls.length
  | [], _ => rfl
  | c :: calls, numbers => by
    have hstep : (withCall numbers c).length = numbers.length + 1 := by
      cases c with
      | pushFront => rfl
      | pushBack => exact List.length_append
    rw [List.foldl_cons, length_foldl_withCall calls, hstep, List.length_cons]
    omega

/-- As many addresses as there are nodes, all different. -/
theorem Built.mem {numbers : List Int32} (h : Built list as numbers)
    (hlen : list.nodes.length = numbers.length) : ∀ a < list.nodes.length, a ∈ as := by
  have hperm : as.Perm (List.range list.nodes.length) := by
    refine (List.subperm_of_subset h.links.nodup fun a ha => ?_).perm_of_length_le ?_
    · exact List.mem_range.2 (h.links.lt_length ha)
    · have hnumbers := congrArg List.length h.numbers
      rw [List.length_map, List.length_map] at hnumbers
      rw [List.length_range, hlen, hnumbers]
  exact fun a ha => hperm.mem_iff.2 (List.mem_range.2 ha)

theorem Built.destroy {numbers : List Int32} (h : Built list as numbers)
    (hlen : list.nodes.length = numbers.length) (hne : as ≠ []) {fuel : ℕ}
    (hfuel : as.length ≤ fuel) : list.destroy fuel = some none_ := by
  have h0 : 0 < as.length := List.length_pos_iff.2 hne
  have hhead : list.head = some as[0] := by rw [h.links.head, List.getElem?_eq_getElem h0]
  have hfree := h.links.freeNode (as.length - 1) 0 h0 (by omega) fuel (by omega)
  rw [List.drop_zero, without_ofList (h.mem hlen)] at hfree
  unfold NodeList.destroy
  rw [hhead]
  exact hfree

/-- The destructor gives all nodes of a list back, each once, if there are any. Nodes in a circle
it never comes to give back. -/
theorem destroyed (calls : List Call) : ∃ list as, build calls = some list ∧
    (walk list).Yields list.head as ∧ ((∃ fuel, list.destroy fuel = some none_) ↔ calls ≠ []) ∧
    ∀ a ∈ as, ∃ linked, list.linkTail (some a) = some linked ∧ ∀ fuel, linked.destroy fuel = none := by
  obtain ⟨list, as, hbuild, h⟩ := build_spec calls
  have hcalls := length_foldl_withCall calls []
  have hlen : list.nodes.length = (calls.foldl withCall []).length :=
    (length_foldlM hbuild).trans hcalls.symm
  have has : as.length = calls.length := by
    have hnumbers := congrArg List.length h.numbers
    rw [List.length_map, List.length_map, hcalls] at hnumbers
    simpa using hnumbers
  refine ⟨list, as, hbuild, h.links.yields, ⟨?_, fun hne => ?_⟩, fun a ha => ?_⟩
  · rintro ⟨fuel, hdestroy⟩ rfl
    obtain rfl := List.length_eq_zero_iff.1 has
    rw [destroy, h.links.head] at hdestroy
    cases hdestroy
  · have hne' : as ≠ [] := fun has' => hne (List.length_eq_zero_iff.1 (by rw [← has, has']; rfl))
    exact ⟨as.length, h.destroy hlen hne' le_rfl⟩
  · obtain ⟨m, hm, rfl⟩ := List.mem_iff_getElem.1 ha
    have hlast : as.getLast? = some as[as.length - 1] := by
      rw [List.getLast?_eq_getElem?, List.getElem?_eq_getElem (by omega)]
    obtain ⟨linked, hset, hsets⟩ :=
      setNext_spec (h.links.lt_length (List.mem_of_getLast? hlast)) as[m]?
    have hlink : list.linkTail (some as[m]) = some linked := by
      rw [List.getElem?_eq_getElem hm] at hset
      rw [linkTail, h.links.tailp, hlast, hset]
    exact ⟨linked, hlink, (h.links.link hlast _ hsets).destroy_circular hm⟩

end CPPCodes.Lists.NodeList
