import Mathlib.Data.List.Basic
import Mathlib.Logic.Function.Basic
import Mathlib.Tactic.Common

/-!
# Binary heaps with a hole

A binary heap over the positions `1` to `n`, by a comparison that may have ties. An element that is
on its way leaves a hole: what holds around the hole while it goes down (`DownOrder`) or up
(`UpOrder`) is kept by each move, and the element fills the hole where it goes no further.
-/

namespace Heap

variable {α : Type*} {R : α → α → Prop} {q : ℕ → α} {n m hole : ℕ} {e : α}

/-- A comparison that orders every two elements, and may have ties. -/
structure TotalPreorder (R : α → α → Prop) : Prop where
  total : ∀ a b, R a b ∨ R b a
  trans : ∀ {a b c}, R a b → R b c → R a c

theorem TotalPreorder.refl (hR : TotalPreorder R) (a : α) : R a a := (hR.total a a).elim id id

theorem TotalPreorder.of_not (hR : TotalPreorder R) {a b : α} (h : ¬ R a b) : R b a :=
  (hR.total a b).resolve_left h

/-- The parent is in front of its child, for all parents from `m` on. -/
def OrderedFrom (R : α → α → Prop) (q : ℕ → α) (n m : ℕ) : Prop :=
  ∀ i, 2 ≤ i → i ≤ n → m ≤ i / 2 → R (q (i / 2)) (q i)

/-- No parent has a child. -/
theorem orderedFrom_of_lt (h : n / 2 < m) : OrderedFrom R q n m :=
  fun i _ hi hm => absurd (Nat.div_le_div_right hi) (by omega : ¬ i / 2 ≤ n / 2)

/-- The root is in front of all. -/
theorem OrderedFrom.root (hR : TotalPreorder R) (h : OrderedFrom R q n 1) {i : ℕ} (hpos : 1 ≤ i)
    (hi : i ≤ n) : R (q 1) (q i) := by
  induction i using Nat.strongRecOn with
  | ind i ih =>
    rcases Nat.lt_or_ge i 2 with hlt | hle
    · obtain rfl : i = 1 := by omega
      exact hR.refl _
    · exact hR.trans (ih (i / 2) (by omega) (by omega) (by omega)) (h i hle hi (by omega))

theorem OrderedFrom.congr {q' : ℕ → α} {n' m' : ℕ} (h : OrderedFrom R q n m) (hm : m ≤ m')
    (hn : n' ≤ n) (heq : ∀ i, m' ≤ i → i ≤ n' → q' i = q i) : OrderedFrom R q' n' m' := by
  intro i h2 hi hmi
  rw [heq i (by omega) hi, heq (i / 2) hmi (by omega)]
  exact h i h2 (Nat.le_trans hi hn) (Nat.le_trans hm hmi)

/-- The pairs that the hole is not in are in order. -/
def Except (R : α → α → Prop) (q : ℕ → α) (n m hole : ℕ) : Prop :=
  ∀ i, 2 ≤ i → i ≤ n → m ≤ i / 2 → i ≠ hole → i / 2 ≠ hole → R (q (i / 2)) (q i)

/-- The children of the hole come behind its parent. -/
def Grand (R : α → α → Prop) (q : ℕ → α) (n m hole : ℕ) : Prop :=
  m ≤ hole / 2 → ∀ c, 2 ≤ c → c ≤ n → c / 2 = hole → R (q (hole / 2)) (q c)

/-- The element fills the hole, if it comes behind the parent and in front of the children. -/
theorem Except.finish (h : Except R q n m hole) (hpos : 1 ≤ hole)
    (habove : m ≤ hole / 2 → R (q (hole / 2)) e)
    (hbelow : ∀ c, 2 ≤ c → c ≤ n → c / 2 = hole → R e (q c)) :
    OrderedFrom R (Function.update q hole e) n m := by
  intro i h2 hi hm
  by_cases hhole : i = hole
  · subst hhole
    rw [Function.update_self, Function.update_of_ne (by omega)]
    exact habove hm
  · rw [Function.update_of_ne hhole]
    by_cases hparent : i / 2 = hole
    · rw [hparent, Function.update_self]
      exact hbelow i h2 hi hparent
    · rw [Function.update_of_ne hparent]
      exact h i h2 hi hm hhole hparent

/-- On the way down the element comes behind the parent of the hole. -/
structure DownOrder (R : α → α → Prop) (q : ℕ → α) (n m hole : ℕ) (e : α) : Prop where
  except : Except R q n m hole
  grand : Grand R q n m hole
  above : m ≤ hole / 2 → R (q (hole / 2)) e

theorem OrderedFrom.downOrder (h : OrderedFrom R q n (m + 1)) (hpos : 1 ≤ m) (e : α) :
    DownOrder R q n m m e where
  except i h2 hi hm _ hparent := h i h2 hi (by omega)
  grand hm := absurd hm (by omega)
  above hm := absurd hm (by omega)

/-- The child in front of the other goes up into the hole. -/
theorem DownOrder.move (h : DownOrder R q n m hole e) (hpos : 1 ≤ hole) (hm : m ≤ hole) {c : ℕ}
    (hc : c ≤ n) (hparent : c / 2 = hole)
    (hfirst : ∀ s, 2 ≤ s → s ≤ n → s / 2 = hole → R (q c) (q s)) (hbefore : R (q c) e) :
    DownOrder R (Function.update q hole (q c)) n m c e where
  except i h2 hi hmi hne hne' := by
    by_cases hhole : i = hole
    · subst hhole
      rw [Function.update_self, Function.update_of_ne (by omega)]
      exact h.grand hmi c (by omega) hc hparent
    · rw [Function.update_of_ne hhole]
      by_cases hsibling : i / 2 = hole
      · rw [hsibling, Function.update_self]
        exact hfirst i h2 hi hsibling
      · rw [Function.update_of_ne hsibling]
        exact h.except i h2 hi hmi hhole hsibling
  grand _ := by
    intro d h2 hd hchild
    rw [hparent, Function.update_self, Function.update_of_ne (by omega), ← hchild]
    exact h.except d h2 hd (by omega) (by omega) (by omega)
  above _ := by
    rw [hparent, Function.update_self]
    exact hbefore

theorem DownOrder.finish (h : DownOrder R q n m hole e) (hpos : 1 ≤ hole)
    (hbelow : ∀ c, 2 ≤ c → c ≤ n → c / 2 = hole → R e (q c)) :
    OrderedFrom R (Function.update q hole e) n m :=
  h.except.finish hpos h.above hbelow

/-- On the way up the element comes in front of the children of the hole. -/
structure UpOrder (R : α → α → Prop) (q : ℕ → α) (n hole : ℕ) (e : α) : Prop where
  except : Except R q n 1 hole
  grand : Grand R q n 1 hole
  below : ∀ c, 2 ≤ c → c ≤ n → c / 2 = hole → R e (q c)

/-- The element is behind the last position. -/
theorem OrderedFrom.upOrder (h : OrderedFrom R q n 1) (e : α) :
    UpOrder R q (n + 1) (n + 1) e where
  except i h2 hi hmi hne _ := h i h2 (by omega) hmi
  grand _ c _ hc hparent := absurd hparent (by omega)
  below c _ hc hparent := absurd hparent (by omega)

/-- The parent goes down into the hole. -/
theorem UpOrder.move (hR : TotalPreorder R) (h : UpOrder R q n hole e) (hhole : 2 ≤ hole)
    (hn : hole ≤ n) (hbehind : R e (q (hole / 2))) :
    UpOrder R (Function.update q hole (q (hole / 2))) n (hole / 2) e where
  except i h2 hi hmi hne hne' := by
    have hne'' : i ≠ hole := fun heq => hne' (by rw [heq])
    rw [Function.update_of_ne hne'']
    by_cases hchild : i / 2 = hole
    · rw [hchild, Function.update_self]
      exact h.grand (by omega) i h2 hi hchild
    · rw [Function.update_of_ne hchild]
      exact h.except i h2 hi hmi hne'' hchild
  grand hm := by
    intro c h2 hc hparent
    have hup := h.except (hole / 2) (by omega) (by omega) hm (by omega) (by omega)
    rw [Function.update_of_ne (by omega : hole / 2 / 2 ≠ hole)]
    by_cases hhole' : c = hole
    · subst hhole'
      rw [Function.update_self]
      exact hup
    · rw [Function.update_of_ne hhole']
      have hsibling := h.except c h2 hc (by omega) hhole' (by omega)
      rw [hparent] at hsibling
      exact hR.trans hup hsibling
  below c h2 hc hparent := by
    by_cases hhole' : c = hole
    · subst hhole'
      rw [Function.update_self]
      exact hbehind
    · rw [Function.update_of_ne hhole']
      have hsibling := h.except c h2 hc (by omega) hhole' (by omega)
      rw [hparent] at hsibling
      exact hR.trans hbehind hsibling

theorem UpOrder.finish (h : UpOrder R q n hole e) (hpos : 1 ≤ hole)
    (habove : 2 ≤ hole → R (q (hole / 2)) e) : OrderedFrom R (Function.update q hole e) n 1 :=
  h.except.finish hpos (fun hm => habove (by omega)) h.below

end Heap
