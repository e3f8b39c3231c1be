import Mathlib.Data.List.Basic

/-!
# Input in pieces, work in blocks

A machine takes its input an element at a time, keeps what does not fill a block, and works on each
block as it fills up. Behind any input it has worked on the input's full blocks, in their order, and
keeps the rest (`Absorbed`). How the input was cut into pieces does not show.
-/

namespace Blockwise

variable {α σ : Type*}

/-- The first `k` blocks of `n` elements. -/
def blocks (n : ℕ) : ℕ → List α → List (List α)
  | 0, _ => []
  | k + 1, xs => xs.take n :: blocks n k (xs.drop n)

/-- The work on the full blocks of an input. -/
def chain (process : σ → List α → σ) (n : ℕ) (s : σ) (xs : List α) : σ :=
  (blocks n (xs.length / n) xs).foldl process s

variable {n : ℕ}

theorem blocks_flatten : ∀ {bs : List (List α)}, (∀ b ∈ bs, b.length = n) → ∀ rest : List α,
    blocks n bs.length (bs.flatten ++ rest) = bs
  | [], _, _ => rfl
  | b :: bs, h, rest => by
    have hb : b.length = n := h b List.mem_cons_self
    have ih := blocks_flatten (fun b' hb' => h b' (List.mem_cons_of_mem b hb')) rest
    rw [List.length_cons, blocks, List.flatten_cons, List.append_assoc, ← hb, List.take_left,
      List.drop_left, hb, ih]

theorem length_flatten {bs : List (List α)} (h : ∀ b ∈ bs, b.length = n) :
    bs.flatten.length = bs.length * n := by
  rw [List.length_flatten, List.map_congr_left h, List.map_const', List.sum_replicate_nat]

/-- Behind the input `xs`, from `s₀` on: the state `s`, and what is left of the input. -/
structure Absorbed (process : σ → List α → σ) (n : ℕ) (s₀ : σ) (xs : List α) (s : σ)
    (rest : List α) : Prop where
  blocks : ∃ bs : List (List α), (∀ b ∈ bs, b.length = n) ∧ xs = bs.flatten ++ rest ∧
    s = bs.foldl process s₀
  lt : rest.length < n

namespace Absorbed

variable {process : σ → List α → σ} {s₀ s : σ} {xs rest : List α}

theorem start (hn : 0 < n) (s₀ : σ) : Absorbed process n s₀ [] s₀ [] :=
  ⟨⟨[], by simp, rfl, rfl⟩, hn⟩

/-- Elements that do not fill the block. -/
theorem keep (h : Absorbed process n s₀ xs s rest) {ys : List α} (hys : (rest ++ ys).length < n) :
    Absorbed process n s₀ (xs ++ ys) s (rest ++ ys) := by
  obtain ⟨bs, hbs, rfl, hs⟩ := h.blocks
  exact ⟨⟨bs, hbs, List.append_assoc .., hs⟩, hys⟩

/-- Elements that fill the block. -/
theorem fill (h : Absorbed process n s₀ xs s rest) {ys : List α} (hys : (rest ++ ys).length = n) :
    Absorbed process n s₀ (xs ++ ys) (process s (rest ++ ys)) [] := by
  obtain ⟨bs, hbs, rfl, rfl⟩ := h.blocks
  refine ⟨⟨bs ++ [rest ++ ys], fun b hb => ?_, by simp, by simp⟩, ?_⟩
  · rcases List.mem_append.1 hb with hb | hb
    · exact hbs b hb
    · rw [List.mem_singleton.1 hb, hys]
  · rw [List.length_nil]
    exact Nat.lt_of_le_of_lt (Nat.zero_le _) h.lt

theorem length (h : Absorbed process n s₀ xs s rest) : rest.length = xs.length % n := by
  obtain ⟨bs, hbs, rfl, -⟩ := h.blocks
  rw [List.length_append, length_flatten hbs, Nat.mul_comm, Nat.mul_add_mod, Nat.mod_eq_of_lt h.lt]

/-- The state is that of the work on the input as a whole. -/
theorem chain_eq (h : Absorbed process n s₀ xs s rest) : s = chain process n s₀ xs := by
  obtain ⟨bs, hbs, rfl, rfl⟩ := h.blocks
  have hcount : (bs.flatten ++ rest).length / n = bs.length := by
    have hn : 0 < n := Nat.lt_of_le_of_lt (Nat.zero_le _) h.lt
    rw [List.length_append, length_flatten hbs, Nat.mul_comm, Nat.mul_add_div hn,
      Nat.div_eq_of_lt h.lt, Nat.add_zero]
  rw [chain, hcount, blocks_flatten hbs]

end Absorbed

end Blockwise
