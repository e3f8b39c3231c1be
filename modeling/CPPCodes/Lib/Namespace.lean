import Mathlib.Data.List.Basic
import Mathlib.Data.List.Induction
import Mathlib.Data.Option.Basic
import Mathlib.Tactic.SplitIfs

/-!
# Trees of names over opaque keys

A naming graph gives each node at most one child under each name. In a `Forest` the root is no
child and a node is the child of one node under one name, so a path is the only one to where it
leads (`walk_inj`), and changing one edge between nodes without children changes what one path
leads to and nothing else (`walk_update`).
-/

namespace Namespace

variable {κ ν : Type*}

/-- Where a path leads. -/
def walk (child : κ → ν → Option κ) : κ → List ν → Option κ
  | k, [] => some k
  | k, c :: p => (child k c).bind fun x => walk child x p

variable {child child' : κ → ν → Option κ} {root : κ}

theorem walk_append (k : κ) (p q : List ν) :
    walk child k (p ++ q) = (walk child k p).bind fun x => walk child x q := by
  induction p generalizing k with
  | nil => rfl
  | cons c p ih =>
    simp only [List.cons_append, walk, ih]
    exact (Option.bind_assoc ..).symm

theorem walk_concat (k : κ) (p : List ν) (c : ν) :
    walk child k (p ++ [c]) = (walk child k p).bind fun x => child x c := by
  rw [walk_append]
  simp [walk]

theorem walk_concat_eq_some {k y : κ} {p : List ν} {c : ν} :
    walk child k (p ++ [c]) = some y ↔ ∃ x, walk child k p = some x ∧ child x c = some y := by
  rw [walk_concat, Option.bind_eq_some_iff]

structure Forest (child : κ → ν → Option κ) (root : κ) : Prop where
  root_ne : ∀ k c, child k c ≠ some root
  parent : ∀ {k l c d x}, child k c = some x → child l d = some x → k = l ∧ c = d

theorem walk_inj (h : Forest child root) {x : κ} :
    ∀ {p q : List ν}, walk child root p = some x → walk child root q = some x → p = q := by
  intro p
  induction p using List.reverseRecOn generalizing x with
  | nil =>
    intro q hp hq
    rcases List.eq_nil_or_concat q with rfl | ⟨q, c, rfl⟩
    · rfl
    · rw [List.concat_eq_append, walk_concat_eq_some] at hq
      obtain ⟨y, -, hy⟩ := hq
      have hx : root = x := by simpa [walk] using hp
      exact absurd hy (hx ▸ h.root_ne y c)
  | append_singleton p c ih =>
    intro q hp hq
    obtain ⟨y, hy, hyx⟩ := walk_concat_eq_some.1 hp
    rcases List.eq_nil_or_concat q with rfl | ⟨q, d, rfl⟩
    · have hx : root = x := by simpa [walk] using hq
      exact absurd hyx (hx ▸ h.root_ne y c)
    · rw [List.concat_eq_append] at hq ⊢
      obtain ⟨z, hz, hzx⟩ := walk_concat_eq_some.1 hq
      obtain ⟨rfl, rfl⟩ := h.parent hyx hzx
      rw [ih hy hz]

section Update

variable [DecidableEq κ] [DecidableEq ν] {k : κ} {c : ν} {o : Option κ}
  (hupd : ∀ l d, child' l d = if l = k ∧ d = c then o else child l d)
include hupd

/-- One edge changed, from and to what has no children: one path changes. -/
theorem walk_update (h : Forest child root) {q : List ν} (hq : walk child root q = some k)
    (hold : ∀ x, child k c = some x → ∀ d, child x d = none)
    (hnew : ∀ x, o = some x → ∀ d, child' x d = none) (p : List ν) :
    walk child' root p = if p = q ++ [c] then o else walk child root p := by
  induction p using List.reverseRecOn with
  | nil => rw [if_neg (by simp)]; rfl
  | append_singleton p d ih =>
    rw [walk_concat, ih]
    split_ifs with hp hpd hpd
    · exact absurd (congrArg List.length (hp.symm.trans (List.append_inj' hpd rfl).1)) (by simp)
    · -- below the edge there is nothing, neither before nor after
      have h1 : walk child root (p ++ [d]) = none := by
        rw [hp, walk_append, walk_concat, hq, Option.bind_some]
        cases hx : child k c with
        | none => rfl
        | some x => simp [walk, hold x hx]
      rw [h1]
      cases o with
      | none => rfl
      | some x => exact hnew x rfl d
    · obtain ⟨rfl, hd⟩ := List.append_inj' hpd rfl
      obtain rfl : d = c := by simpa using hd
      rw [hq, Option.bind_some, hupd, if_pos ⟨rfl, rfl⟩]
    · rw [walk_concat]
      cases hw : walk child root p with
      | none => rfl
      | some l =>
        simp only [Option.bind_some]
        rw [hupd, if_neg]
        rintro ⟨rfl, rfl⟩
        exact hpd (by rw [walk_inj h hw hq])

theorem Forest.update (h : Forest child root)
    (hnew : ∀ x, o = some x → x ≠ root ∧ ∀ l d, child l d = some x → l = k ∧ d = c) :
    Forest child' root := by
  refine ⟨fun l d hl => ?_, fun {l m d e x} hl hm => ?_⟩
  · rw [hupd] at hl
    split_ifs at hl with hk
    · exact (hnew root hl).1 rfl
    · exact h.root_ne l d hl
  · rw [hupd] at hl hm
    split_ifs at hl hm with h1 h2 h2
    · exact ⟨h1.1.trans h2.1.symm, h1.2.trans h2.2.symm⟩
    · exact absurd ((hnew x hl).2 m e hm) h2
    · exact absurd ((hnew x hm).2 l d hl) h1
    · exact h.parent hl hm

end Update

end Namespace
