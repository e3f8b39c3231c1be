import CPPCodes.Strings.Reverse
import Mathlib.Algebra.Order.Ring.Int
import Mathlib.Data.List.Count

/-!
# A character is replaced in place

replace_space.cpp. The string is made as long as it will be, and filled from its end while it is
read from the end of what it was. Between the two positions there is room for the replacements that
are left (`Pending`), so nothing is written over that is still to be read, and when none is
left the positions have met. That is so where the string has the size that it is to have, which the
`size_t` of its computation need not (`replace_replaces_iff`). A buffer has with it the places that
have been read and written, and an access outside of it is `none`.
-/

namespace CPPCodes.Strings.ReplaceSpace

inductive Access where
  | read (i : ℕ)
  | write (i : ℕ)
deriving DecidableEq

/-- The characters of the string, and what has been read and written of them. -/
structure Buffer where
  chars : List UInt8
  accesses : List Access

namespace Buffer

def read (b : Buffer) (i : ℤ) : Option (UInt8 × Buffer) :=
  if 0 ≤ i then b.chars[i.toNat]?.map fun c =>
    (c, { b with accesses := b.accesses ++ [.read i.toNat] })
  else none

def write (b : Buffer) (i : ℤ) (c : UInt8) : Option Buffer :=
  if 0 ≤ i ∧ i < b.chars.length then some {
    chars := b.chars.set i.toNat c
    accesses := b.accesses ++ [.write i.toNat] }
  else none

end Buffer

section

variable (impl : Implementation)

/-- `*wit = c; --wit`. -/
def put (s : Buffer × ℤ) (c : UInt8) : Option (Buffer × ℤ) := do
  let b ← s.1.write s.2 c
  let wit ← impl.position (s.2 - 1)
  return (b, wit)

/-- The loop of `Replace`, in at most `fuel` turns; `with_` is reversed. -/
def replaceLoop (replace : UInt8) (with_ : List UInt8) :
    (fuel : ℕ) → Buffer → (rit wit nchars : ℤ) → Option Buffer
  | 0, _, _, _, _ => none
  | fuel + 1, b, rit, wit, nchars =>
    if 0 ≤ rit then do
      let (c, b) ← b.read rit
      if c ≠ replace then
        let (c, b) ← b.read rit
        let (b, wit) ← put impl (b, wit) c
        let rit ← impl.position (rit - 1)
        replaceLoop replace with_ fuel b rit wit nchars
      else
        let (b, wit) ← with_.foldlM (put impl) (b, wit)
        if nchars - 1 = 0 then some b
        else
          let rit ← impl.position (rit - 1)
          replaceLoop replace with_ fuel b rit wit (nchars - 1)
    else some b

/-- `resize`, which adds null characters and throws where the string would be too long. -/
def resize (str : List UInt8) (size : UInt64) : Option (List UInt8) :=
  if size.toNat ≤ impl.maxSize then
    some (str.take size.toNat ++ List.replicate (size.toNat - str.length) 0)
  else none

/-- The new size of the string. -/
def newSize (sz : UInt64) (nchars : ℕ) (with_ : List UInt8) : UInt64 :=
  sz + UInt64.ofNat nchars * (UInt64.ofNat with_.length - 1)

/-- `Replace`: the string that it returns, with the accesses of the loop. -/
def replace (str : List UInt8) (replace : UInt8) (with_ : List UInt8) : Option Buffer := do
  let with_ := with_.reverse
  let nchars := str.count replace
  let sz := UInt64.ofNat str.length
  let str ← resize impl str (newSize sz nchars with_)
  -- the first is in front of the beginning for an empty string, as is the second
  let rit ← impl.position (sz.toNat - 1)
  let wit ← impl.position (str.length - 1)
  replaceLoop impl replace with_ (sz.toNat + 1) { chars := str, accesses := [] } rit wit nchars

end

variable {impl : Implementation}

/-- What is written over, of the first `size` characters, has been read before. -/
def ReadFirst (size : ℕ) (accesses : List Access) : Prop :=
  ∀ before i after, accesses = before ++ .write i :: after → i < size → .read i ∈ before

theorem ReadFirst.concat {size : ℕ} {accesses : List Access} {a : Access}
    (h : ReadFirst size accesses) (ha : ∀ i, a = .write i → i < size → .read i ∈ accesses) :
    ReadFirst size (accesses ++ [a]) := by
  intro before i after heq hi
  rcases List.eq_nil_or_concat' after with rfl | ⟨after, b, rfl⟩
  · obtain ⟨rfl, hlast⟩ := List.append_inj' heq rfl
    exact ha i (List.singleton_inj.1 hlast) hi
  · rw [← List.cons_append, ← List.append_assoc] at heq
    exact h before i after (List.append_inj' heq rfl).1 hi

/-- The loop's accesses so far, when the first `k` characters are still to be read. -/
structure Tracked (size k : ℕ) (b : Buffer) : Prop where
  readFirst : ReadFirst size b.accesses
  read : ∀ i, k ≤ i → i < size → .read i ∈ b.accesses
  inside : ∀ i, .write i ∈ b.accesses → i < b.chars.length

variable {size k : ℕ} {b : Buffer} {front done : List UInt8} {c x : UInt8}

theorem Tracked.exists_read (h : Tracked size (k + 1) b) (hget : b.chars[k]? = some c) :
    ∃ b', b.read k = some (c, b') ∧ b'.chars = b.chars ∧ Tracked size k b' := by
  refine ⟨{ b with accesses := b.accesses ++ [.read k] }, ?_, rfl, ?_⟩
  · rw [Buffer.read, if_pos (Int.natCast_nonneg k), Int.toNat_natCast, hget, Option.map_some]
  · exact {
      readFirst := h.readFirst.concat fun i heq => by cases heq
      read := fun i hk hi => by
        rw [List.mem_append]
        rcases Nat.eq_or_lt_of_le hk with rfl | hlt
        · exact .inr (List.mem_singleton_self _)
        · exact .inl (h.read i hlt hi)
      inside := fun i hi => h.inside i (by simpa using hi)
    }

/-- Writing the last character of what is in front, where that has been read. -/
theorem Tracked.exists_put (h : Tracked size k b) (hchars : b.chars = front ++ [x] ++ done)
    (hk : k ≤ front.length) (impl : Implementation) (c : UInt8) :
    ∃ b', put impl (b, ((front ++ [x]).length : ℤ) - 1) c =
        (impl.position (front.length - 1)).map (b', ·) ∧
      b'.chars = front ++ c :: done ∧ Tracked size k b' := by
  have hwit : ((front ++ [x]).length : ℤ) - 1 = front.length := by
    rw [List.length_append, List.length_singleton]
    omega
  have hin : front.length < b.chars.length := by
    rw [hchars, List.length_append, List.length_append, List.length_singleton]
    omega
  have hset : b.chars.set front.length c = front ++ c :: done := by
    rw [hchars, List.append_assoc, List.set_append_right _ _ (Nat.le_refl _), Nat.sub_self]
    rfl
  refine ⟨{ chars := front ++ c :: done, accesses := b.accesses ++ [.write front.length] }, ?_, rfl,
    ?_⟩
  · rw [put, Buffer.write, hwit, if_pos ⟨Int.natCast_nonneg _, Int.ofNat_lt.2 hin⟩,
      Int.toNat_natCast, hset, Option.map_eq_bind]
    rfl
  · exact {
      readFirst := h.readFirst.concat fun i heq hi => by
        obtain rfl : front.length = i := Access.write.inj heq
        exact h.read front.length hk hi
      read := fun i hle hi => List.mem_append_left _ (h.read i hle hi)
      inside := fun i hi => by
        rw [← hset, List.length_set]
        rcases List.mem_append.1 hi with hi | hi
        · exact h.inside i hi
        · obtain rfl := Access.write.inj (List.mem_singleton.1 hi)
          exact hin
    }

theorem Tracked.exists_puts (impl : Implementation) (hk : k ≤ front.length) : ∀ {l gap done : List UInt8} {b : Buffer},
    Tracked size k b → b.chars = front ++ gap ++ done → gap.length = l.length → l ≠ [] →
    ∃ b', l.foldlM (put impl) (b, ((front ++ gap).length : ℤ) - 1) =
        (impl.position (front.length - 1)).map (b', ·) ∧
      b'.chars = front ++ (l.reverse ++ done) ∧ Tracked size k b'
  | c :: l, gap, done, b, h, hchars, hlen, _ => by
    rcases List.eq_nil_or_concat' gap with rfl | ⟨gap, x, rfl⟩
    · cases hlen
    rw [List.length_append, List.length_singleton, List.length_cons,
      Nat.add_right_cancel_iff] at hlen
    rw [← List.append_assoc] at hchars ⊢
    obtain ⟨b₁, hput, hchars₁, h₁⟩ := h.exists_put hchars
      (hk.trans (by rw [List.length_append]; exact Nat.le_add_right _ _)) impl c
    rw [List.foldlM_cons, hput]
    rcases eq_or_ne l [] with rfl | hl
    · obtain rfl := List.length_eq_zero_iff.1 hlen
      rw [List.append_nil] at hchars₁ ⊢
      exact ⟨b₁, bind_pure _, hchars₁, h₁⟩
    · have hgap : gap ≠ [] := List.length_pos_iff.1 (hlen ▸ List.length_pos_iff.2 hl)
      obtain ⟨b', hrest, hchars', h'⟩ := exists_puts impl hk h₁ hchars₁ hlen hl
      refine ⟨b', ?_, ?_, h'⟩
      · rw [Implementation.position_prev (.inl (List.append_ne_nil_of_right_ne_nil _ hgap))]
        exact hrest
      · rw [hchars', List.reverse_cons, List.append_assoc, List.singleton_append]

/-- The string with the character replaced. -/
def replaced (c : UInt8) (with_ str : List UInt8) : List UInt8 :=
  str.flatMap fun d => if d = c then with_ else [d]

theorem replaced_concat (c : UInt8) (with_ str : List UInt8) (d : UInt8) :
    replaced c with_ (str ++ [d]) = replaced c with_ str ++ if d = c then with_ else [d] := by
  rw [replaced, List.flatMap_append, List.flatMap_singleton, replaced]

theorem replaced_of_not_mem {c : UInt8} {with_ str : List UInt8} (h : c ∉ str) :
    replaced c with_ str = str := by
  have hone : replaced c with_ str = str.flatMap fun d => [d] :=
    List.flatMap_congr fun d hd => if_neg (ne_of_mem_of_not_mem hd h)
  rw [hone, List.flatMap_singleton']

theorem Tracked.start (size : ℕ) (chars : List UInt8) :
    Tracked size size { chars, accesses := [] } where
  readFirst := fun before i after heq => by simp at heq
  read := fun _ hi hlt => absurd hlt (Nat.not_lt.2 hi)
  inside := fun _ hi => absurd hi List.not_mem_nil

theorem Tracked.mono {k' : ℕ} (h : Tracked size k b) (hle : k ≤ k') : Tracked size k' b :=
  { h with read := fun i hi => h.read i (hle.trans hi) }

theorem Tracked.finish (h : Tracked size k b) : Tracked size size b :=
  { h with read := fun _ hi hlt => absurd hlt (Nat.not_lt.2 hi) }

/-- The last `n` characters of what is in front, behind those that are still to be read. -/
theorem exists_room {pre front : List UInt8} {m n : ℕ} (hbegins : pre <+: front)
    (hle : pre.length ≤ m) (hlen : front.length = m + n) :
    ∃ f g, front = f ++ g ∧ pre <+: f ∧ f.length = m ∧ g.length = n := by
  have hf : (front.take m).length = m := by
    rw [List.length_take]
    omega
  refine ⟨front.take m, front.drop m, (List.take_append_drop m front).symm, ?_, hf, ?_⟩
  · exact List.prefix_of_prefix_length_le hbegins (List.take_prefix m front) (by omega)
  · rw [List.length_drop]
    omega

/-- The loop is to read `pre`; what is in front of `done` has room for its replacements. -/
structure Pending (size : ℕ) (c : UInt8) (with_ pre front done : List UInt8) (b : Buffer) :
    Prop where
  tracked : Tracked size pre.length b
  chars : b.chars = front ++ done
  begins : pre <+: front
  room : front.length = pre.length + pre.count c * (with_.length - 1)

namespace Pending

variable {with_ pre : List UInt8} {d : UInt8}

theorem exists_read (h : Pending size c with_ (pre ++ [d]) front done b) :
    ∃ b', b.read pre.length = some (d, b') ∧ b'.chars = b.chars ∧ Tracked size pre.length b' := by
  have htracked := h.tracked
  rw [List.length_append, List.length_singleton] at htracked
  refine htracked.exists_read ?_
  obtain ⟨gap, hfront⟩ := h.begins
  rw [h.chars, ← hfront]
  simp

/-- The end of what is in front, as long as what is written there. -/
theorem exists_room (h : Pending size c with_ (pre ++ [d]) front done b) {n : ℕ}
    (hn : front.length = pre.length + pre.count c * (with_.length - 1) + n) :
    ∃ f g, front = f ++ g ∧ pre <+: f ∧ g.length = n ∧
      f.length = pre.length + pre.count c * (with_.length - 1) := by
  obtain ⟨f, g, hfront, hbegins, hf, hg⟩ := ReplaceSpace.exists_room
    ((List.prefix_append pre [d]).trans h.begins) (Nat.le_add_right _ _) hn
  exact ⟨f, g, hfront, hbegins, hg, hf⟩

/-- A character that is not replaced is copied. -/
theorem exists_copy (impl : Implementation) (h : Pending size c with_ (pre ++ [d]) front done b)
    (hd : d ≠ c) :
    ∃ b₁ b₂ b₃ f, b.read pre.length = some (d, b₁) ∧ b₁.read pre.length = some (d, b₂) ∧
      put impl (b₂, (front.length : ℤ) - 1) d = (impl.position (f.length - 1)).map (b₃, ·) ∧
      Pending size c with_ pre f (d :: done) b₃ := by
  have hroom := h.room
  have hcount : (pre ++ [d]).count c = pre.count c := by simp [hd]
  rw [hcount, List.length_append, List.length_singleton] at hroom
  obtain ⟨f, g, rfl, hbegins, hg, hf⟩ := h.exists_room (n := 1) (by omega)
  obtain ⟨x, rfl⟩ := List.length_eq_one_iff.1 hg
  obtain ⟨b₁, hread₁, hchars₁, h₁⟩ := h.exists_read
  obtain ⟨b₂, hread₂, hchars₂, h₂⟩ := exists_read
    { h with tracked := h₁.mono (by simp), chars := hchars₁.trans h.chars }
  obtain ⟨b₃, hput, hchars₃, h₃⟩ := h₂.exists_put (hchars₂.trans (hchars₁.trans h.chars))
    (by omega) impl d
  exact ⟨b₁, b₂, b₃, f, hread₁, hread₂, hput, h₃, hchars₃, hbegins, hf⟩

/-- The replacement fills the end of what is in front. -/
theorem exists_fill (impl : Implementation) (h : Pending size c with_ (pre ++ [c]) front done b)
    (hne : with_ ≠ []) :
    ∃ b₁ b₂ f, b.read pre.length = some (c, b₁) ∧
      with_.reverse.foldlM (put impl) (b₁, (front.length : ℤ) - 1) =
        (impl.position (f.length - 1)).map (b₂, ·) ∧
      Pending size c with_ pre f (with_ ++ done) b₂ := by
  have hroom := h.room
  have hcount : (pre ++ [c]).count c = pre.count c + 1 := by simp
  rw [hcount, List.length_append, List.length_singleton, Nat.add_one_mul] at hroom
  have hpos := List.length_pos_iff.2 hne
  obtain ⟨f, g, rfl, hbegins, hg, hf⟩ := h.exists_room (n := with_.reverse.length)
    (by rw [List.length_reverse]; omega)
  obtain ⟨b₁, hread, hchars₁, h₁⟩ := h.exists_read
  obtain ⟨b₂, hputs, hchars₂, h₂⟩ := Tracked.exists_puts impl (by omega) h₁
    (hchars₁.trans h.chars) hg (List.reverse_ne_nil_iff.2 hne)
  rw [List.reverse_reverse] at hchars₂
  exact ⟨b₁, b₂, f, hread, hputs, h₂, hchars₂, hbegins, hf⟩

/-- Both positions have one before them, or none has. -/
theorem hasPrev_iff (h : Pending size c with_ pre front done b) :
    impl.HasPrev front ↔ impl.HasPrev pre := by
  have hroom := h.room
  refine or_congr_left (not_congr ⟨?_, ?_⟩) <;> rintro rfl
  · exact List.prefix_nil.1 h.begins
  · exact List.length_eq_zero_iff.1 (by simpa using hroom)

/-- When no replacement is left, the positions have met. -/
theorem eq_of_count (h : Pending size c with_ pre front done b) (hcount : pre.count c = 0) :
    front = pre := by
  have hroom := h.room
  rw [hcount, Nat.zero_mul, Nat.add_zero] at hroom
  exact (h.begins.eq_of_length hroom.symm).symm

end Pending

/-- In the part that is to be read no iterator is moved in front of the beginning, or may be. -/
def StaysInside (impl : Implementation) (c : UInt8) (str : List UInt8) : Prop :=
  impl.inFront = true ∨ c ∈ str ∧ str.head? ≠ some c

section StaysInside

variable {pre : List UInt8} {d : UInt8}

theorem staysInside_concat (hprev : impl.HasPrev pre) (h : d ≠ c ∨ c ∈ pre) :
    StaysInside impl c (pre ++ [d]) ↔ StaysInside impl c pre := by
  rcases hprev with hne | hfront
  · have hmem : c ∈ pre ++ [d] ↔ c ∈ pre := by
      rw [List.mem_append, List.mem_singleton]
      exact or_iff_left_of_imp fun hd => h.resolve_left fun hne => hne hd.symm
    rw [StaysInside, StaysInside, hmem, List.head?_append_of_ne_nil _ hne]
  · exact iff_of_true (.inl hfront) (.inl hfront)

/-- The loop ends behind the beginning, at the first that is replaced. -/
theorem staysInside_first (hprev : impl.HasPrev pre) (h : c ∉ pre) :
    StaysInside impl c (pre ++ [c]) := by
  rcases hprev with hne | hfront
  · refine .inr ⟨by simp, fun hhead => h ?_⟩
    rw [List.head?_append_of_ne_nil _ hne] at hhead
    exact List.mem_of_head? hhead
  · exact .inl hfront

theorem not_staysInside (h : ¬ impl.HasPrev pre) : ¬ StaysInside impl c (pre ++ [d]) := by
  obtain ⟨hnil, hfront⟩ := not_or.1 h
  rw [not_not.1 hnil]
  rintro (hfront' | ⟨hmem, hhead⟩)
  · exact hfront hfront'
  · exact hhead (congrArg some (List.mem_singleton.1 hmem).symm)

end StaysInside

/-- The loop fills the string, or moves an iterator in front of the beginning. -/
theorem replaceLoop_spec {with_ : List UInt8} (hne : with_ ≠ []) : ∀ (fuel : ℕ)
    {pre front done : List UInt8} {b : Buffer}, Pending size c with_ pre front done b →
    impl.HasPrev pre → pre.length < fuel →
    (StaysInside impl c pre → ∃ b', replaceLoop impl c with_.reverse fuel b (pre.length - 1)
        (front.length - 1) (pre.count c) = some b' ∧
      b'.chars = replaced c with_ pre ++ done ∧ Tracked size size b') ∧
    (¬ StaysInside impl c pre → replaceLoop impl c with_.reverse fuel b (pre.length - 1)
      (front.length - 1) (pre.count c) = none)
  | 0, _, _, _, _, _, _, hfuel => absurd hfuel (Nat.not_lt_zero _)
  | fuel + 1, pre, front, done, b, h, hprev, hfuel => by
    unfold replaceLoop
    rcases List.eq_nil_or_concat' pre with rfl | ⟨pre, d, rfl⟩
    · have hchars := h.chars
      rw [h.eq_of_count List.count_nil] at hchars
      have hfront : impl.inFront = true := hprev.resolve_left fun hnil => hnil rfl
      exact ⟨fun _ => ⟨b, if_neg (by decide), hchars, h.tracked.finish⟩,
        fun hstays => absurd (.inl hfront) hstays⟩
    · rw [List.length_append, List.length_singleton] at hfuel
      have hrit : (((pre ++ [d]).length : ℕ) : ℤ) - 1 = pre.length := by simp
      rw [hrit, if_pos (Int.natCast_nonneg _), replaced_concat, List.append_assoc]
      by_cases hd : d = c
      · obtain rfl := hd.symm
        have hcount : (pre ++ [c]).count c = pre.count c + 1 := by simp
        obtain ⟨b₁, b₂, f, hread, hputs, h₂⟩ := h.exists_fill impl hne
        rw [hread, if_pos rfl, hcount, Nat.cast_succ, add_sub_cancel_right]
        simp only [Option.bind_eq_bind, Option.bind_some, ne_eq, not_true_eq_false, if_false, hputs]
        by_cases hpre : impl.HasPrev pre
        · rw [Implementation.position_prev (h₂.hasPrev_iff.2 hpre), Option.map_some,
            Option.bind_some]
          by_cases hlast : pre.count c = 0
          · have hchars := h₂.chars
            have hmem := List.count_eq_zero.1 hlast
            rw [h₂.eq_of_count hlast] at hchars
            rw [if_pos (by omega), replaced_of_not_mem hmem]
            exact ⟨fun _ => ⟨b₂, rfl, hchars, h₂.tracked.finish⟩,
              fun hstays => absurd (staysInside_first hpre hmem) hstays⟩
          · have hmem : c ∈ pre := List.count_pos_iff.1 (Nat.pos_of_ne_zero hlast)
            rw [if_neg (by omega), Implementation.position_prev hpre, Option.bind_some,
              staysInside_concat hpre (.inr hmem)]
            exact replaceLoop_spec hne fuel h₂ hpre (by omega)
        · rw [Implementation.position_prev_eq_none (mt h₂.hasPrev_iff.1 hpre)]
          exact ⟨fun hstays => absurd hstays (not_staysInside hpre), fun _ => rfl⟩
      · have hcount : (pre ++ [d]).count c = pre.count c := by simp [hd]
        obtain ⟨b₁, b₂, b₃, f, hread₁, hread₂, hput, h₃⟩ := h.exists_copy impl hd
        rw [hread₁, if_neg hd, hcount]
        simp only [Option.bind_eq_bind, Option.bind_some, ne_eq, hd, not_false_eq_true, if_true,
          hread₂, hput]
        by_cases hpre : impl.HasPrev pre
        · rw [Implementation.position_prev (h₃.hasPrev_iff.2 hpre), Option.map_some,
            Option.bind_some, Implementation.position_prev hpre, Option.bind_some,
            staysInside_concat hpre (.inl hd)]
          exact replaceLoop_spec hne fuel h₃ hpre (by omega)
        · rw [Implementation.position_prev_eq_none (mt h₃.hasPrev_iff.1 hpre)]
          exact ⟨fun hstays => absurd hstays (not_staysInside hpre), fun _ => rfl⟩

theorem length_replaced {with_ : List UInt8} (hne : with_ ≠ []) (str : List UInt8) :
    (replaced c with_ str).length = str.length + str.count c * (with_.length - 1) := by
  have hpos := List.length_pos_iff.2 hne
  induction str using List.reverseRecOn with
  | nil => simp [replaced]
  | append_singleton str d ih =>
    rw [replaced_concat, List.length_append, List.length_append, ih, List.length_singleton]
    by_cases hd : d = c
    · have hcount : (str ++ [d]).count c = str.count c + 1 := by simp [hd]
      rw [if_pos hd, hcount, Nat.add_one_mul]
      omega
    · have hcount : (str ++ [d]).count c = str.count c := by simp [hd]
      rw [if_neg hd, hcount, List.length_singleton]
      omega

theorem put_length {s s' : Buffer × ℤ} (h : put impl s c = some s') :
    s'.1.chars.length = s.1.chars.length := by
  obtain ⟨b, hb, h⟩ := Option.bind_eq_some_iff.1 h
  obtain ⟨wit, -, h⟩ := Option.bind_eq_some_iff.1 h
  obtain rfl := Option.some.inj h
  unfold Buffer.write at hb
  split_ifs at hb
  obtain rfl := Option.some.inj hb
  exact List.length_set

theorem foldlM_put_length : ∀ {l : List UInt8} {s s' : Buffer × ℤ},
    l.foldlM (put impl) s = some s' → s'.1.chars.length = s.1.chars.length
  | [], _, _, h => by rw [Option.some.inj h]
  | c :: l, s, s', h => by
    rw [List.foldlM_cons] at h
    obtain ⟨s₁, hput, h⟩ := Option.bind_eq_some_iff.1 h
    exact (foldlM_put_length h).trans (put_length hput)

theorem read_length {i : ℤ} {b b' : Buffer} (h : b.read i = some (x, b')) :
    b'.chars.length = b.chars.length := by
  unfold Buffer.read at h
  split_ifs at h
  obtain ⟨_, -, h⟩ := Option.map_eq_some_iff.1 h
  rw [← (Prod.mk.inj h).2]

/-- The string keeps its length. -/
theorem replaceLoop_length {with_ : List UInt8} : ∀ {fuel : ℕ} {b b' : Buffer} {rit wit n : ℤ},
    replaceLoop impl c with_ fuel b rit wit n = some b' → b'.chars.length = b.chars.length
  | 0, _, _, _, _, _, h => nomatch h
  | fuel + 1, b, b', rit, wit, n, h => by
    unfold replaceLoop at h
    split at h
    · obtain ⟨⟨d, b₁⟩, hread, h⟩ := Option.bind_eq_some_iff.1 h
      rw [← read_length hread]
      dsimp only at h
      split at h
      · obtain ⟨⟨d', b₂⟩, hread', h⟩ := Option.bind_eq_some_iff.1 h
        obtain ⟨⟨b₃, wit'⟩, hput, h⟩ := Option.bind_eq_some_iff.1 h
        obtain ⟨rit', -, h⟩ := Option.bind_eq_some_iff.1 h
        exact (replaceLoop_length h).trans ((put_length hput).trans (read_length hread'))
      · obtain ⟨⟨b₂, wit'⟩, hputs, h⟩ := Option.bind_eq_some_iff.1 h
        dsimp only at h
        split at h
        · obtain rfl := Option.some.inj h
          exact foldlM_put_length hputs
        · obtain ⟨rit', -, h⟩ := Option.bind_eq_some_iff.1 h
          exact (replaceLoop_length h).trans (foldlM_put_length hputs)
    · rw [Option.some.inj h]

theorem resize_eq_some {str l : List UInt8} {n : UInt64} (h : resize impl str n = some l) :
    l.length ≤ impl.maxSize := by
  unfold resize at h
  split_ifs at h with hle
  obtain rfl := Option.some.inj h
  rw [List.length_append, List.length_take, List.length_replicate]
  omega

theorem replace_length {str with_ : List UInt8} (h : replace impl str c with_ = some b) :
    b.chars.length ≤ impl.maxSize := by
  obtain ⟨l, hresize, h⟩ := Option.bind_eq_some_iff.1 h
  obtain ⟨rit, -, h⟩ := Option.bind_eq_some_iff.1 h
  obtain ⟨wit, -, h⟩ := Option.bind_eq_some_iff.1 h
  rw [replaceLoop_length h]
  exact resize_eq_some hresize

theorem newSize_eq (sz nchars : ℕ) {with_ : List UInt8} (hne : with_ ≠ []) :
    newSize (UInt64.ofNat sz) nchars with_ = UInt64.ofNat (sz + nchars * (with_.length - 1)) := by
  have hpos := List.length_pos_iff.2 hne
  rw [newSize, UInt64.ofNat_add, UInt64.ofNat_mul, UInt64.ofNat_sub hpos]
  rfl

/-- The character is replaced by `with_` and all else is unchanged. What is written over has been
read, and nothing is written outside of the string. -/
structure Replaced (str : List UInt8) (c : UInt8) (with_ : List UInt8) (b : Buffer) : Prop where
  chars : b.chars = str.flatMap fun d => if d = c then with_ else [d]
  readFirst : ReadFirst str.length b.accesses
  inside : ∀ i, .write i ∈ b.accesses → i < b.chars.length

theorem Replaced.length {str with_ : List UInt8} (h : Replaced str c with_ b) (hne : with_ ≠ []) :
    b.chars.length = str.length + str.count c * (with_.length - 1) := by
  rw [h.chars, ← length_replaced hne, replaced]

/-- A string that is not too long with its replacements is given their room. -/
theorem replace_spec {str with_ : List UInt8} (hne : with_ ≠ [])
    (hle : str.length + str.count c * (with_.length - 1) ≤ impl.maxSize) :
    (StaysInside impl c str → ∃ b, replace impl str c with_ = some b ∧ Replaced str c with_ b) ∧
    (¬ StaysInside impl c str → replace impl str c with_ = none) := by
  have hmax := impl.maxSize_lt
  generalize hsize : str.length + str.count c * (with_.length - 1) = size at hle
  have hlen : str.length ≤ size := hsize ▸ Nat.le_add_right _ _
  have htoNat : ∀ n, n ≤ size → (UInt64.ofNat n).toNat = n := fun n hn =>
    UInt64.toNat_ofNat_of_lt' (show n < 2 ^ 64 by omega)
  have hresize : resize impl str (newSize (UInt64.ofNat str.length) (str.count c) with_.reverse) =
      some (str ++ List.replicate (size - str.length) 0) := by
    rw [newSize_eq _ _ (List.reverse_ne_nil_iff.2 hne), List.length_reverse, hsize, resize,
      htoNat size le_rfl, if_pos hle, List.take_of_length_le hlen]
  have hstart : Pending str.length c with_ str (str ++ List.replicate (size - str.length) 0) []
      { chars := str ++ List.replicate (size - str.length) 0, accesses := [] } := {
    tracked := .start _ _
    chars := (List.append_nil _).symm
    begins := List.prefix_append str _
    room := by
      rw [List.length_append, List.length_replicate]
      omega
  }
  unfold replace
  simp only [hresize, Option.bind_eq_bind, Option.bind_some, htoNat _ hlen]
  by_cases hprev : impl.HasPrev str
  · obtain ⟨hyes, hno⟩ := replaceLoop_spec hne (str.length + 1) hstart hprev (Nat.lt_succ_self _)
    rw [Implementation.position_prev hprev,
      Implementation.position_prev (hstart.hasPrev_iff.2 hprev)]
    refine ⟨fun hstays => ?_, hno⟩
    obtain ⟨b, hrun, hchars, htracked⟩ := hyes hstays
    exact ⟨b, hrun, {
      chars := by rw [hchars, List.append_nil, replaced]
      readFirst := htracked.readFirst
      inside := htracked.inside
    }⟩
  · rw [Implementation.position_prev_eq_none hprev]
    obtain ⟨hnil, hfront⟩ := not_or.1 hprev
    refine ⟨fun hstays => absurd ?_ hnil, fun _ => rfl⟩
    exact List.ne_nil_of_mem (hstays.resolve_left hfront).1

/-- The string is right just if it is not too long with its replacements, and, where no iterator may
be moved in front of the beginning, if it has one of the characters but does not begin with it. -/
theorem replace_replaces_iff (impl : Implementation) (str : List UInt8) (c : UInt8)
    (with_ : List UInt8) (hne : with_ ≠ []) :
    (∃ b, replace impl str c with_ = some b ∧ Replaced str c with_ b) ↔
      str.length + str.count c * (with_.length - 1) ≤ impl.maxSize ∧
        (impl.inFront = true ∨ c ∈ str ∧ str.head? ≠ some c) := by
  constructor
  · rintro ⟨b, hrun, hb⟩
    have hle := hb.length hne ▸ replace_length hrun
    refine ⟨hle, by_contra fun hstays => ?_⟩
    cases ((replace_spec hne hle).2 hstays).symm.trans hrun
  · rintro ⟨hle, hstays⟩
    exact (replace_spec hne hle).1 hstays

/-- `a b c`, which is longer with its blanks replaced, where no iterator is in front. -/
theorem replace_replaces_iff_blanks :
    ∃ b, replace ⟨2 ^ 63 - 1, by decide, false⟩ [97, 32, 98, 32, 99] 32 [37, 50, 48] = some b ∧
      Replaced [97, 32, 98, 32, 99] 32 [37, 50, 48] b :=
  (replace_replaces_iff _ _ _ _ (by decide)).2 ⟨by decide, .inr (by decide)⟩

theorem not_replaced_replicate {n m : ℕ} {x : UInt8} (hm : 0 < m)
    (h : impl.maxSize < n + n * (m - 1)) :
    ¬ ∃ b, replace impl (List.replicate n c) c (List.replicate m x) = some b ∧
      Replaced (List.replicate n c) c (List.replicate m x) b := by
  rintro ⟨b, hrun, hb⟩
  have hne : List.replicate m x ≠ [] := List.ne_nil_of_length_pos (by rwa [List.length_replicate])
  have hlen := hb.length hne
  have hle := replace_length hrun
  rw [List.length_replicate, List.length_replicate, List.count_replicate_self] at hlen
  omega

/-- As many blanks as the replacement has characters but one: in the new size their product is 0,
so that no room is made. -/
theorem replace_not_replaces :
    ¬ ∃ b, replace ⟨2 ^ 63 - 1, by decide, true⟩ (List.replicate (2 ^ 32) 32) 32
        (List.replicate (2 ^ 32 + 1) 120) = some b ∧
      Replaced (List.replicate (2 ^ 32) 32) 32 (List.replicate (2 ^ 32 + 1) 120) b :=
  not_replaced_replicate (Nat.succ_pos _) (by decide)

end CPPCodes.Strings.ReplaceSpace
