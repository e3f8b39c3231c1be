import Mathlib.Data.List.Chain
import Mathlib.Data.List.Pairwise
import Mathlib.Order.RelIso.Set

/-!
# Sorting by a comparison

A sort asks that its comparison order the elements of the list strictly and weakly, and promises
nothing otherwise (`Sorts`). Where the comparison does not tell neighbours of the list apart, it
is such an order only if it tells no two elements apart (`strictWeakOn_iff`).
-/

namespace Sorting

variable {α : Type*} {r : α → α → Prop} {l : List α}

/-- On the elements of the list the comparison is a strict weak order. -/
abbrev StrictWeakOn (r : α → α → Prop) (l : List α) : Prop :=
  IsStrictWeakOrder {x // x ∈ l} (Subrel r (· ∈ l))

/-- The elements of the list, none of them after a greater one. -/
structure Sorted (r : α → α → Prop) (l out : List α) : Prop where
  perm : out.Perm l
  sorted : out.Pairwise fun a b => ¬ r b a

/-- The lists that a sort may leave. -/
def Sorts (r : α → α → Prop) (l out : List α) : Prop := StrictWeakOn r l → Sorted r l out

theorem StrictWeakOn.incomp_trans (h : StrictWeakOn r l) {a b c : α} (ha : a ∈ l) (hb : b ∈ l)
    (hc : c ∈ l) (hab : ¬ r a b ∧ ¬ r b a) (hbc : ¬ r b c ∧ ¬ r c b) : ¬ r a c ∧ ¬ r c a :=
  @IsStrictWeakOrder.incomp_trans _ (Subrel r (· ∈ l)) h ⟨a, ha⟩ ⟨b, hb⟩ ⟨c, hc⟩ hab hbc

theorem StrictWeakOn.irrefl (h : StrictWeakOn r l) {a : α} (ha : a ∈ l) : ¬ r a a :=
  h.toIsStrictOrder.toIrrefl.irrefl ⟨a, ha⟩

/-- Merging orders by the converse of a strict weak order leaves the list sorted. -/
theorem StrictWeakOn.exists_sorted (h : StrictWeakOn r l) : ∃ out, Sorted r l out := by
  classical
  let le (a b : {x // x ∈ l}) : Bool := decide (¬ r b a)
  have htotal : ∀ a b, (le a b || le b a) = true := by
    intro a b
    by_contra hn
    simp only [le, Bool.or_eq_true, decide_eq_true_eq, not_or, not_not] at hn
    exact h.irrefl b.2 (IsTrans.trans (r := Subrel r (· ∈ l)) b a b hn.1 hn.2)
  have htrans : ∀ a b c, le a b = true → le b c = true → le a c = true := by
    intro a b c hab hbc
    simp only [le, decide_eq_true_eq] at hab hbc ⊢
    intro hca
    by_cases hab' : r a b
    · exact hbc (IsTrans.trans (r := Subrel r (· ∈ l)) c a b hca hab')
    by_cases hbc' : r b c
    · exact hab (IsTrans.trans (r := Subrel r (· ∈ l)) b c a hbc' hca)
    exact (h.incomp_trans a.2 b.2 c.2 ⟨hab', hab⟩ ⟨hbc', hbc⟩).2 hca
  refine ⟨(l.attach.mergeSort le).map Subtype.val, ?_, ?_⟩
  · have hp := (List.mergeSort_perm l.attach le).map Subtype.val
    rwa [List.attach_map_subtype_val] at hp
  · rw [List.pairwise_map]
    exact (List.pairwise_mergeSort htrans htotal l.attach).imp fun hab => of_decide_eq_true hab

/-! ## Lists whose neighbours are not told apart -/

theorem StrictWeakOn.incomp_of_isChain (h : StrictWeakOn r l) :
    ∀ (xs : List α) (a : α), (∀ x ∈ a :: xs, x ∈ l) →
      (a :: xs).IsChain (fun x y => ¬ r x y ∧ ¬ r y x) → ∀ x ∈ xs, ¬ r a x ∧ ¬ r x a
  | [], _, _, _ => by simp
  | y :: xs, a, hsub, hc => by
    rw [List.isChain_cons_cons] at hc
    have ha := hsub a List.mem_cons_self
    have hy := hsub y (List.mem_cons_of_mem _ List.mem_cons_self)
    intro x hx
    rcases List.mem_cons.1 hx with rfl | hx
    · exact hc.1
    · have hyx := h.incomp_of_isChain xs y (fun z hz => hsub z (List.mem_cons_of_mem _ hz)) hc.2 x hx
      exact h.incomp_trans ha hy (hsub x (List.mem_cons_of_mem _ (List.mem_cons_of_mem _ hx)))
        hc.1 hyx

theorem StrictWeakOn.pairwise_incomp (h : StrictWeakOn r l) :
    ∀ xs : List α, (∀ x ∈ xs, x ∈ l) → xs.IsChain (fun x y => ¬ r x y ∧ ¬ r y x) →
      xs.Pairwise fun x y => ¬ r x y ∧ ¬ r y x
  | [], _, _ => .nil
  | a :: xs, hsub, hc =>
    .cons (h.incomp_of_isChain xs a hsub hc)
      (h.pairwise_incomp xs (fun x hx => hsub x (List.mem_cons_of_mem _ hx)) hc.tail)

theorem strictWeakOn_iff (hc : l.IsChain fun x y => ¬ r x y ∧ ¬ r y x) :
    StrictWeakOn r l ↔ ∀ a ∈ l, ∀ b ∈ l, ¬ r a b := by
  constructor
  · intro h a ha b hb
    have : Std.Symm fun x y => ¬ r x y ∧ ¬ r y x := ⟨fun _ _ hxy => hxy.symm⟩
    exact ((h.pairwise_incomp l (fun _ hx => hx) hc).forall_of_forall
      (fun x hx => ⟨h.irrefl hx, h.irrefl hx⟩) ha hb).1
  · intro h
    have hno : ∀ a b : {x // x ∈ l}, ¬ Subrel r (· ∈ l) a b := fun a b => h a a.2 b b.2
    exact { irrefl := fun a => hno a a
            trans := fun a b _ hab => absurd hab (hno a b)
            incomp_trans := fun a _ c _ _ => ⟨hno a c, hno c a⟩ }

end Sorting
