import CPPCodes.Rocksfs.Blocks

/-!
# Keys and digests

What `sha1` writes for a digest has the bytes as signed decimal numbers, with nothing between them.
So the text tells the digest only together with the widths of the numbers (`sameKey_iff`): where two
digests have the same text, they are the same exactly if their numbers are as wide.
-/

namespace CPPCodes.Rocksfs

/-- The text that `sha1` appends for a digest. -/
def digestText (hash : List Int8) : Str := hash.flatMap fun b => toDecimal b.toInt

theorem sha1_eq (digest : Str → List Int8) (s : Str) : sha1 digest s = digestText (digest s) := rfl

/-- How many characters each byte has in the text. -/
def widths (hash : List Int8) : List ℕ := hash.map fun b => (toDecimal b.toInt).length

theorem digestText_eq_iff {h1 h2 : List Int8} (htext : digestText h1 = digestText h2) :
    h1 = h2 ↔ widths h1 = widths h2 := by
  have hcode : Function.Injective fun b : Int8 => toDecimal b.toInt := fun a b hab =>
    Int8.toInt_inj.1 (toDecimal_injective hab)
  exact ⟨congrArg widths, Text.eq_of_flatMap_eq hcode htext⟩

/-- Digests with the same text, and those of two files with the same key. -/
theorem sameKey_iff (h1 h2 : List Int8) (digest : Str → List Int8) (path1 path2 : Str)
    (now1 now2 : ℕ) :
    (digestText h1 = digestText h2 → (h1 = h2 ↔ widths h1 = widths h2)) ∧
      (calcKey digest path1 now1 = calcKey digest path2 now2 →
        (digest (path1 ++ ':' :: toDecimal now1) = digest (path2 ++ ':' :: toDecimal now2) ↔
          widths (digest (path1 ++ ':' :: toDecimal now1)) =
            widths (digest (path2 ++ ':' :: toDecimal now2)))) := by
  refine ⟨digestText_eq_iff, fun hkey => digestText_eq_iff ?_⟩
  rwa [calcKey, calcKey, sha1_eq, sha1_eq] at hkey

/-- The bytes 1, 11 and 11, 1 in front of eighteen zeros. -/
theorem digestText_not_injective : ¬ ∀ h1 h2 : List Int8, h1.length = 20 → h2.length = 20 →
    digestText h1 = digestText h2 → h1 = h2 := by
  intro h
  have heq := h (1 :: 11 :: List.replicate 18 0) (11 :: 1 :: List.replicate 18 0) rfl rfl
    (by decide)
  exact absurd heq (by decide)

end CPPCodes.Rocksfs
