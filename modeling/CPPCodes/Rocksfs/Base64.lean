import CPPCodes.Rocksfs.Store

/-!
# Base 64

The two loops of base64.cc, a group of three bytes or of four characters at a time.
-/

namespace CPPCodes.Rocksfs

def base64Chars : Str :=
  ['A', 'B', 'C', 'D', 'E', 'F', 'G', 'H', 'I', 'J', 'K', 'L', 'M', 'N', 'O', 'P', 'Q', 'R', 'S',
    'T', 'U', 'V', 'W', 'X', 'Y', 'Z', 'a', 'b', 'c', 'd', 'e', 'f', 'g', 'h', 'i', 'j', 'k', 'l',
    'm', 'n', 'o', 'p', 'q', 'r', 's', 't', 'u', 'v', 'w', 'x', 'y', 'z', '0', '1', '2', '3', '4',
    '5', '6', '7', '8', '9', '+', '/']

def isBase64 (c : Char) : Bool := c.isAlphanum || c = '+' || c = '/'

/-- The character of a group of six bits. -/
def base64Char (i : UInt8) : Char := base64Chars.getD i.toNat '='

/-- `base64_chars.find` as a byte, `npos` being 255. -/
def base64Find (c : Char) : UInt8 :=
  if c ∈ base64Chars then .ofNat (base64Chars.idxOf c) else 255

def base64Encode : List UInt8 → Str
  | a :: b :: c :: rest =>
    base64Char ((a &&& 0xfc) >>> 2) ::
    base64Char (((a &&& 0x03) <<< 4) + ((b &&& 0xf0) >>> 4)) ::
    base64Char (((b &&& 0x0f) <<< 2) + ((c &&& 0xc0) >>> 6)) ::
    base64Char (c &&& 0x3f) :: base64Encode rest
  | [a, b] =>
    [base64Char ((a &&& 0xfc) >>> 2), base64Char (((a &&& 0x03) <<< 4) + ((b &&& 0xf0) >>> 4)),
      base64Char (((b &&& 0x0f) <<< 2) + (((0 : UInt8) &&& 0xc0) >>> 6)), '=']
  | [a] =>
    [base64Char ((a &&& 0xfc) >>> 2),
      base64Char (((a &&& 0x03) <<< 4) + (((0 : UInt8) &&& 0xf0) >>> 4)), '=', '=']
  | [] => []

/-- The three bytes of four characters. -/
def base64Group (s t u v : UInt8) : List UInt8 :=
  [(s <<< 2) + ((t &&& 0x30) >>> 4), ((t &&& 0xf) <<< 4) + ((u &&& 0x3c) >>> 2),
    ((u &&& 0x3) <<< 6) + v]

/-- The decoder's loop on the characters it accepts, and its last group, where what is missing
reads as a character that is not found. -/
def base64Groups : Str → List UInt8
  | s :: t :: u :: v :: rest =>
    base64Group (base64Find s) (base64Find t) (base64Find u) (base64Find v) ++ base64Groups rest
  | [s, t, u] => (base64Group (base64Find s) (base64Find t) (base64Find u) 255).take 2
  | [s, t] => (base64Group (base64Find s) (base64Find t) 255 255).take 1
  | [_] => []
  | [] => []

def base64Decode (s : Str) : List UInt8 :=
  base64Groups (s.takeWhile fun c => c ≠ '=' && isBase64 c)

/-! ## What is encoded is decoded -/

/-- A byte whose six high bits are `i` and two low bits are `j`. -/
theorem split_six_two : ∀ (i : Fin 64) (j : Fin 4),
    (UInt8.ofNat (4 * i + j) &&& 0xfc) >>> 2 = .ofNat i ∧
      UInt8.ofNat (4 * i + j) &&& 0x03 = .ofNat j ∧
      (UInt8.ofNat i <<< 2) + .ofNat j = .ofNat (4 * i + j) := by
  decide +kernel

theorem split_four_four : ∀ (k l : Fin 16),
    (UInt8.ofNat (16 * k + l) &&& 0xf0) >>> 4 = .ofNat k ∧
      UInt8.ofNat (16 * k + l) &&& 0x0f = .ofNat l ∧
      (UInt8.ofNat k <<< 4) + .ofNat l = .ofNat (16 * k + l) := by
  decide +kernel

theorem split_two_six : ∀ (m : Fin 4) (n : Fin 64),
    (UInt8.ofNat (64 * m + n) &&& 0xc0) >>> 6 = .ofNat m ∧
      UInt8.ofNat (64 * m + n) &&& 0x3f = .ofNat n ∧
      (UInt8.ofNat m <<< 6) + .ofNat n = .ofNat (64 * m + n) := by
  decide +kernel

/-- The two low bits of a byte and the four high bits of the next share a character. -/
theorem join_two_four : ∀ (j : Fin 4) (k : Fin 16),
    (((UInt8.ofNat j <<< 4) + .ofNat k) &&& 0x30) >>> 4 = .ofNat j ∧
      ((UInt8.ofNat j <<< 4) + .ofNat k) &&& 0xf = .ofNat k ∧
      ((UInt8.ofNat j <<< 4) + .ofNat k).toNat < 64 := by
  decide +kernel

theorem join_four_two : ∀ (l : Fin 16) (m : Fin 4),
    (((UInt8.ofNat l <<< 2) + .ofNat m) &&& 0x3c) >>> 2 = .ofNat l ∧
      ((UInt8.ofNat l <<< 2) + .ofNat m) &&& 0x3 = .ofNat m ∧
      ((UInt8.ofNat l <<< 2) + .ofNat m).toNat < 64 := by
  decide +kernel

theorem exists_split (a : UInt8) {x y : ℕ} (hxy : x * y = 256) :
    ∃ (i : Fin x) (j : Fin y), a = .ofNat (y * i + j) := by
  have ha := a.toNat_lt
  have hy : 0 < y := Nat.pos_of_ne_zero fun h => by simp [h] at hxy
  refine ⟨⟨a.toNat / y, ?_⟩, ⟨a.toNat % y, Nat.mod_lt _ hy⟩, ?_⟩
  · exact Nat.div_lt_of_lt_mul (by rw [Nat.mul_comm y x, hxy]; exact ha)
  · simp only [Nat.div_add_mod, UInt8.ofNat_toNat]

theorem base64_char : ∀ i : Fin 64,
    base64Find (base64Char (.ofNat i)) = .ofNat i ∧
      (base64Char (.ofNat i) ≠ '=' && isBase64 (base64Char (.ofNat i))) = true := by
  decide +kernel

theorem base64Find_char {i : UInt8} (hi : i.toNat < 64) : base64Find (base64Char i) = i := by
  have h := (base64_char ⟨i.toNat, hi⟩).1
  rwa [UInt8.ofNat_toNat] at h

theorem takeWhile_char {i : UInt8} (hi : i.toNat < 64) (s : Str) :
    (base64Char i :: s).takeWhile (fun c => c ≠ '=' && isBase64 c)
      = base64Char i :: s.takeWhile fun c => c ≠ '=' && isBase64 c := by
  have h := (base64_char ⟨i.toNat, hi⟩).2
  rw [UInt8.ofNat_toNat] at h
  exact List.takeWhile_cons_of_pos h

theorem toNat_ofNat_lt {k : ℕ} (i : Fin k) (hk : k ≤ 64) : (UInt8.ofNat i).toNat < 64 := by
  have := i.isLt
  rw [UInt8.toNat_ofNat']
  omega

theorem base64Decode_encode : ∀ bytes : List UInt8, base64Decode (base64Encode bytes) = bytes
  | [] => rfl
  | [a] => by
    obtain ⟨i, j, rfl⟩ := exists_split a (x := 64) (y := 4) rfl
    obtain ⟨h1, h2, h3⟩ := split_six_two i j
    obtain ⟨h4, -, h6⟩ := join_two_four j 0
    have hz : ((0 : UInt8) &&& 0xf0) >>> 4 = .ofNat (0 : Fin 16) := by decide
    simp only [base64Encode, base64Decode, h1, h2, hz,
      takeWhile_char (toNat_ofNat_lt i (Nat.le_refl 64)), takeWhile_char h6]
    rw [List.takeWhile_cons_of_neg (by decide)]
    simp only [base64Groups, base64Group, base64Find_char (toNat_ofNat_lt i (Nat.le_refl 64)),
      base64Find_char h6, h4, h3, List.take_succ_cons, List.take_zero]
  | [a, b] => by
    obtain ⟨i, j, rfl⟩ := exists_split a (x := 64) (y := 4) rfl
    obtain ⟨k, l, rfl⟩ := exists_split b (x := 16) (y := 16) rfl
    obtain ⟨h1, h2, h3⟩ := split_six_two i j
    obtain ⟨k1, k2, k3⟩ := split_four_four k l
    obtain ⟨h4, h5, h6⟩ := join_two_four j k
    obtain ⟨k4, -, k6⟩ := join_four_two l 0
    have hz : ((0 : UInt8) &&& 0xc0) >>> 6 = .ofNat (0 : Fin 4) := by decide
    simp only [base64Encode, base64Decode, h1, h2, k1, k2, hz,
      takeWhile_char (toNat_ofNat_lt i (Nat.le_refl 64)), takeWhile_char h6, takeWhile_char k6]
    rw [List.takeWhile_cons_of_neg (by decide)]
    simp only [base64Groups, base64Group, base64Find_char (toNat_ofNat_lt i (Nat.le_refl 64)),
      base64Find_char h6, base64Find_char k6, h4, h5, h3, k4, k3, List.take_succ_cons,
      List.take_zero]
  | a :: b :: c :: rest => by
    obtain ⟨i, j, rfl⟩ := exists_split a (x := 64) (y := 4) rfl
    obtain ⟨k, l, rfl⟩ := exists_split b (x := 16) (y := 16) rfl
    obtain ⟨m, n, rfl⟩ := exists_split c (x := 4) (y := 64) rfl
    obtain ⟨h1, h2, h3⟩ := split_six_two i j
    obtain ⟨k1, k2, k3⟩ := split_four_four k l
    obtain ⟨m1, m2, m3⟩ := split_two_six m n
    obtain ⟨h4, h5, h6⟩ := join_two_four j k
    obtain ⟨k4, k5, k6⟩ := join_four_two l m
    have ih := base64Decode_encode rest
    unfold base64Decode at ih
    simp only [base64Encode, base64Decode, h1, h2, k1, k2, m1, m2,
      takeWhile_char (toNat_ofNat_lt i (Nat.le_refl 64)), takeWhile_char h6, takeWhile_char k6,
      takeWhile_char (toNat_ofNat_lt n (Nat.le_refl 64)), base64Groups, base64Group,
      base64Find_char (toNat_ofNat_lt i (Nat.le_refl 64)), base64Find_char h6, base64Find_char k6,
      base64Find_char (toNat_ofNat_lt n (Nat.le_refl 64)), h4, h5, h3, k4, k5, k3, m3, ih,
      List.cons_append, List.nil_append]

end CPPCodes.Rocksfs
