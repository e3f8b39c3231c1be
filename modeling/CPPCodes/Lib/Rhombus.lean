import Mathlib.Algebra.BigOperators.Group.Finset.Basic
import Mathlib.Data.Fin.Basic
import Mathlib.Logic.Relation
import Mathlib.Tactic.Ring

/-!
# A two-coloured rhombus has a crossing

The cells of an `n × n` rhombus are the points `(q, r)` with `q, r < n`, and a cell touches the
six cells that differ from it by `(1, 0)`, `(1, -1)`, `(0, -1)` and their opposites. However the
cells are coloured with two colours, the first colour joins row `0` to row `n - 1` or the second
joins column `0` to column `n - 1` (`crossing`).

The proof counts turns. A cell of the first colour is labelled by whether it is joined to row `0`,
one of the second by whether it is joined to column `0`; four labels around a circle, such that
touching cells never carry opposite ones. The turns around a square of four cells then cancel
(`turn_square`), so they cancel around the whole rhombus, while without a crossing the four sides
wind around the circle once.
-/

namespace Rhombus

/-- The step from one label to a neighbouring one around the circle of four. -/
def turn (a b : Fin 4) : ℤ :=
  if b = a + 1 then 1 else if a = b + 1 then -1 else 0

/-- Two labels that face each other across the circle. -/
def Opposite (a b : Fin 4) : Prop := b = a + 2

instance (a b : Fin 4) : Decidable (Opposite a b) := inferInstanceAs (Decidable (b = a + 2))

theorem turn_triangle : ∀ a b c : Fin 4, ¬ Opposite a b → ¬ Opposite b c → ¬ Opposite a c →
    turn a b + turn b c = turn a c := by
  decide

/-- The turns around a square, split in two triangles by its second diagonal, cancel. -/
theorem turn_square {a b c d : Fin 4} (hab : ¬ Opposite a b) (hbd : ¬ Opposite b d)
    (hac : ¬ Opposite a c) (hcd : ¬ Opposite c d) (hbc : ¬ Opposite b c) :
    turn a b + turn b d = turn a c + turn c d := by
  have h1 := turn_triangle a b c hab hbc hac
  have h2 := turn_triangle b c d hbc hcd hbd
  omega

/-- Away from a label `x` the circle is an arc, and a turn is a difference of positions on it. -/
theorem turn_arc : ∀ x a b : Fin 4, a ≠ x → b ≠ x → ¬ Opposite a b →
    turn a b = ((b - x).val : ℤ) - (a - x).val := by
  decide

/-- The turns along the first `m` steps of a sequence of labels. -/
def along (f : ℕ → Fin 4) (m : ℕ) : ℤ := ∑ i ∈ Finset.range m, turn (f i) (f (i + 1))

theorem along_succ (f : ℕ → Fin 4) (m : ℕ) : along f (m + 1) = along f m + turn (f m) (f (m + 1)) :=
  Finset.sum_range_succ _ _

theorem along_arc {f : ℕ → Fin 4} {x : Fin 4} :
    ∀ {m : ℕ}, (∀ i ≤ m, f i ≠ x) → (∀ i < m, ¬ Opposite (f i) (f (i + 1))) →
      along f m = ((f m - x).val : ℤ) - (f 0 - x).val
  | 0, _, _ => by simp [along]
  | m + 1, hx, ho => by
    have ih := along_arc (m := m) (fun i hi => hx i (by omega)) (fun i hi => ho i (by omega))
    rw [along_succ, ih, turn_arc x _ _ (hx m (by omega)) (hx (m + 1) le_rfl) (ho m (by omega))]
    ring

/-- A labelling of the cells under which touching cells are never opposite. -/
structure Labelling (n : ℕ) where
  label : ℕ → ℕ → Fin 4
  across : ∀ q r, q + 1 < n → r < n → ¬ Opposite (label q r) (label (q + 1) r)
  down : ∀ q r, q < n → r + 1 < n → ¬ Opposite (label q r) (label q (r + 1))
  slant : ∀ q r, q + 1 < n → r + 1 < n → ¬ Opposite (label (q + 1) r) (label q (r + 1))

namespace Labelling

variable {n : ℕ} (L : Labelling n)

/-- Two neighbouring rows turn alike, up to what the two columns at their ends turn. -/
theorem along_row_succ {k : ℕ} (hk : k + 1 < n) :
    ∀ {m : ℕ}, m < n →
      along (L.label · k) m + turn (L.label m k) (L.label m (k + 1))
        = turn (L.label 0 k) (L.label 0 (k + 1)) + along (L.label · (k + 1)) m
  | 0, _ => by simp [along]
  | m + 1, hm => by
    have ih := along_row_succ hk (m := m) (by omega)
    have hsq := turn_square (L.across m k hm (by omega)) (L.down (m + 1) k hm hk)
      (L.down m k (by omega) hk) (L.across m (k + 1) hm hk) (L.slant m k hm hk)
    simp only [along_succ] at ih ⊢
    omega

/-- Both ways around a corner of the rhombus turn alike. -/
theorem along_corner {m : ℕ} (hm : m < n) :
    ∀ {k : ℕ}, k < n →
      along (L.label · 0) m + along (L.label m) k = along (L.label 0) k + along (L.label · k) m
  | 0, _ => by simp [along]
  | k + 1, hk => by
    have ih := along_corner hm (k := k) (by omega)
    have hrow := L.along_row_succ hk hm
    simp only [along_succ] at ih hrow ⊢
    omega

/-- A corner's positions on the arcs of the two sides that meet there. -/
theorem corner_position : ∀ x a : Fin 4, a ≠ x → a ≠ x + 1 →
    ((a - x).val : ℤ) = (a - (x + 1)).val + 1 := by
  decide

/-- No labelling avoids `2`, `1`, `0` and `3` on the top, right, bottom and left side. -/
theorem no_winding (hn : 0 < n) (htop : ∀ q < n, L.label q 0 ≠ 2)
    (hright : ∀ r < n, L.label (n - 1) r ≠ 1) (hbottom : ∀ q < n, L.label q (n - 1) ≠ 0)
    (hleft : ∀ r < n, L.label 0 r ≠ 3) : False := by
  have hT := along_arc (f := (L.label · 0)) (x := 2) (m := n - 1)
    (fun i hi => htop i (by omega)) (fun i hi => L.across i 0 (by omega) hn)
  have hR := along_arc (f := L.label (n - 1)) (x := 1) (m := n - 1)
    (fun i hi => hright i (by omega)) (fun i hi => L.down (n - 1) i (by omega) (by omega))
  have hB := along_arc (f := (L.label · (n - 1))) (x := 0) (m := n - 1)
    (fun i hi => hbottom i (by omega)) (fun i hi => L.across i (n - 1) (by omega) (by omega))
  have hL := along_arc (f := L.label 0) (x := 3) (m := n - 1)
    (fun i hi => hleft i (by omega)) (fun i hi => L.down 0 i hn (by omega))
  have hC := L.along_corner (m := n - 1) (k := n - 1) (by omega) (by omega)
  have h1 := corner_position 2 (L.label 0 0) (htop 0 hn) (hleft 0 hn)
  have h2 := corner_position 1 (L.label (n - 1) 0) (hright 0 hn) (htop _ (by omega))
  have h3 := corner_position 3 (L.label 0 (n - 1)) (hleft _ (by omega)) (hbottom 0 hn)
  have h4 := corner_position 0 (L.label (n - 1) (n - 1)) (hbottom _ (by omega))
    (hright _ (by omega))
  simp only [Fin.reduceAdd] at h1 h2 h3 h4
  omega

end Labelling

/-- The six directions in which cells touch. -/
def directions : List (ℤ × ℤ) := [(1, 0), (1, -1), (0, -1), (-1, 0), (-1, 1), (0, 1)]

/-- Two cells of the rhombus touch. -/
def Touches (x y : ℕ × ℕ) : Prop :=
  ((y.1 : ℤ) - x.1, (y.2 : ℤ) - x.2) ∈ directions

theorem Touches.symm {x y : ℕ × ℕ} (h : Touches x y) : Touches y x := by
  simp only [Touches, directions, List.mem_cons, Prod.mk.injEq, List.not_mem_nil, or_false] at h ⊢
  omega

section Crossing

variable (n : ℕ) (P : ℕ × ℕ → Prop)

/-- Two touching cells of the rhombus that both satisfy `P`. -/
def Link (x y : ℕ × ℕ) : Prop :=
  (x.1 < n ∧ x.2 < n ∧ P x) ∧ (y.1 < n ∧ y.2 < n ∧ P y) ∧ Touches x y

/-- A cell joined through cells that satisfy `P` to a cell of the side `S`. -/
def Joined (S : ℕ × ℕ → Prop) (x : ℕ × ℕ) : Prop :=
  ∃ s, S s ∧ s.1 < n ∧ s.2 < n ∧ P s ∧ Relation.ReflTransGen (Link n P) s x

variable {n P}

theorem Joined.of_side {S : ℕ × ℕ → Prop} {x : ℕ × ℕ} (hS : S x) (h1 : x.1 < n) (h2 : x.2 < n)
    (hP : P x) : Joined n P S x :=
  ⟨x, hS, h1, h2, hP, .refl⟩

theorem Joined.step {S : ℕ × ℕ → Prop} {x y : ℕ × ℕ} (h : Joined n P S x) (hl : Link n P x y) :
    Joined n P S y := by
  obtain ⟨s, hS, h1, h2, hP, hr⟩ := h
  exact ⟨s, hS, h1, h2, hP, hr.tail hl⟩

theorem Link.symm {x y : ℕ × ℕ} (h : Link n P x y) : Link n P y x :=
  ⟨h.2.1, h.1, h.2.2.symm⟩

theorem Link.joined_iff {S : ℕ × ℕ → Prop} {x y : ℕ × ℕ} (hl : Link n P x y) :
    Joined n P S x ↔ Joined n P S y :=
  ⟨fun h => h.step hl, fun h => h.step hl.symm⟩

open scoped Classical in
/-- Cells in `P` are labelled `0` when joined to row `0` and `2` when not, the others `1` when
joined to column `0` and `3` when not. -/
noncomputable def sideLabel (n : ℕ) (P : ℕ × ℕ → Prop) (x : ℕ × ℕ) : Fin 4 :=
  if P x then if Joined n P (fun s => s.2 = 0) x then 0 else 2
  else if Joined n (fun y => ¬ P y) (fun s => s.1 = 0) x then 1 else 3

theorem not_opposite_of_touches {x y : ℕ × ℕ} (hx1 : x.1 < n) (hx2 : x.2 < n) (hy1 : y.1 < n)
    (hy2 : y.2 < n) (h : Touches x y) : ¬ Opposite (sideLabel n P x) (sideLabel n P y) := by
  by_cases hx : P x <;> by_cases hy : P y
  · have hl : Link n P x y := ⟨⟨hx1, hx2, hx⟩, ⟨hy1, hy2, hy⟩, h⟩
    have hj := hl.joined_iff (S := fun s => s.2 = 0)
    simp only [sideLabel, hx, hy, if_true]
    split_ifs <;> first | decide | simp_all
  · simp only [sideLabel, hx, hy, if_true, if_false]
    split_ifs <;> decide
  · simp only [sideLabel, hx, hy, if_true, if_false]
    split_ifs <;> decide
  · have hl : Link n (fun z => ¬ P z) x y := ⟨⟨hx1, hx2, hx⟩, ⟨hy1, hy2, hy⟩, h⟩
    have hj := hl.joined_iff (S := fun s => s.1 = 0)
    simp only [sideLabel, hx, hy, if_false]
    split_ifs <;> first | decide | simp_all

/-- The labelling that the two colours give. -/
noncomputable def sideLabelling (n : ℕ) (P : ℕ × ℕ → Prop) : Labelling n where
  label q r := sideLabel n P (q, r)
  across q r hq hr := not_opposite_of_touches (by simp only; omega) hr hq hr
    (by simp [Touches, directions])
  down q r hq hr := not_opposite_of_touches hq (by simp only; omega) hq hr
    (by simp [Touches, directions])
  slant q r hq hr := not_opposite_of_touches hq (by simp only; omega) (by simp only; omega) hr
    (by simp [Touches, directions])

/-- One colour joins row `0` to row `n - 1` or the other joins column `0` to column `n - 1`. -/
theorem crossing (hn : 0 < n) (P : ℕ × ℕ → Prop) :
    (∃ x, Joined n P (fun s => s.2 = 0) x ∧ P x ∧ x.2 = n - 1) ∨
      ∃ x, Joined n (fun y => ¬ P y) (fun s => s.1 = 0) x ∧ ¬ P x ∧ x.1 = n - 1 := by
  by_contra hno
  push Not at hno
  obtain ⟨hdown, hacross⟩ := hno
  refine (sideLabelling n P).no_winding hn (fun q hq => ?_) (fun r hr => ?_) (fun q hq => ?_)
    (fun r hr => ?_)
  · have hside : P (q, 0) → Joined n P (fun s => s.2 = 0) (q, 0) := .of_side rfl hq hn
    simp only [sideLabelling, sideLabel]
    split_ifs <;> simp_all
  · have hside := fun h hP => hacross (n - 1, r) h hP rfl
    simp only [sideLabelling, sideLabel]
    split_ifs <;> simp_all
  · have hside := fun h hP => hdown (q, n - 1) h hP rfl
    simp only [sideLabelling, sideLabel]
    split_ifs <;> simp_all
  · have hside : ¬ P (0, r) → Joined n (fun y => ¬ P y) (fun s => s.1 = 0) (0, r) :=
      Joined.of_side (P := fun y => ¬ P y) rfl hn hr
    simp only [sideLabelling, sideLabel]
    split_ifs <;> simp_all

end Crossing

end Rhombus
