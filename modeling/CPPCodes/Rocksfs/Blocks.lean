import CPPCodes.Rocksfs.Edit

/-!
# Blocks beside records

A key that `calc_key` makes has no colon and the key of a block has one, so the records of files and
directories and those of blocks never meet, and a write of blocks leaves the tree as it is.
-/

namespace CPPCodes.Rocksfs

open Namespace

theorem colon_notMem_toDecimal (n : ℤ) : ':' ∉ toDecimal n := by
  have hdigits : ':' ∉ Nat.toDigits 10 n.natAbs := fun h =>
    absurd (Nat.isDigit_of_mem_toDigits (by decide) (by decide) h) (by decide)
  unfold toDecimal
  split_ifs
  · simpa using hdigits
  · exact hdigits

theorem colon_notMem_calcKey (digest : Str → List Int8) (path : Str) (now : ℕ) :
    ':' ∉ calcKey digest path now := by
  unfold calcKey sha1
  rw [List.mem_flatMap]
  rintro ⟨b, -, hb⟩
  exact colon_notMem_toDecimal _ hb

theorem colon_mem_blockKey (key : Str) (b : ℕ) : ':' ∈ blockKey key b := by
  simp [blockKey]

theorem toDecimal_injective : Function.Injective toDecimal := by
  intro a b h
  have hsign : ∀ n m : ℕ, Nat.toDigits 10 n ≠ '-' :: Nat.toDigits 10 m := fun n m heq => by
    have hmem : '-' ∈ Nat.toDigits 10 n := heq ▸ List.mem_cons_self
    exact absurd (Nat.isDigit_of_mem_toDigits (by decide) (by decide) hmem) (by decide)
  have hdigits : ∀ {n m : ℕ}, Nat.toDigits 10 n = Nat.toDigits 10 m → n = m := fun {n m} heq => by
    rw [← Nat.ofDigitChars_ten_toDigits (n := n), heq, Nat.ofDigitChars_ten_toDigits]
  unfold toDecimal at h
  split_ifs at h with ha hb hb
  · have habs := hdigits (List.cons.inj h).2
    omega
  · exact absurd h.symm (hsign _ _)
  · exact absurd h (hsign _ _)
  · have habs := hdigits h
    omega

theorem blockKey_inj {k l : Str} {b c : ℕ} (h : blockKey k b = blockKey l c) : k = l ∧ b = c := by
  unfold blockKey at h
  have hlen : k.length = l.length := by
    have hk := Text.findLastOf_append (colon_notMem_toDecimal b) k
    have hl := Text.findLastOf_append (colon_notMem_toDecimal c) l
    rw [h, hl] at hk
    exact (Option.some.inj hk).symm
  obtain ⟨hkl, htail⟩ := List.append_inj h hlen
  exact ⟨hkl, Int.ofNat.inj (toDecimal_injective (List.cons.inj htail).2)⟩

namespace Wf

variable {db db' : Store}

/-- The same records under the keys without a colon. -/
theorem blocks (h : Wf db) (hmeta : ∀ {a : Str}, ':' ∉ a → db'[a]? = db[a]?)
    (hblock : ∀ {a : Str} {j : Json}, ':' ∈ a → db'[a]? = some j → IsBlock j) :
    Wf db' ∧ db'.child = db.child ∧ db'.type? = db.type? ∧ db'.entryOf = db.entryOf := by
  have hentry : db'.entryOf = db.entryOf := by
    funext a c
    by_cases ha : ':' ∈ a
    · have hnone : ∀ {d : Store}, (∀ {j}, d[a]? = some j → IsBlock j) → d.entryOf a c = none := by
        intro d hd
        unfold Store.entryOf
        cases hj : d[a]? with
        | none => rfl
        | some j => exact (hd hj).flat.entryOf c
      rw [hnone (hblock ha), hnone fun hj => h.block hj ha]
    · simp only [Store.entryOf, hmeta ha]
  have htype : db'.type? = db.type? := by
    funext a
    by_cases ha : ':' ∈ a
    · have hnone : ∀ {d : Store}, (∀ {j}, d[a]? = some j → IsBlock j) → d.type? a = none := by
        intro d hd
        unfold Store.type?
        cases hj : d[a]? with
        | none => rfl
        | some j => simp [Json.type?, (hd hj).type]
      rw [hnone (hblock ha), hnone fun hj => h.block hj ha]
    · simp only [Store.type?, hmeta ha]
  have hchild : db'.child = db.child := by
    funext a c
    simp only [Store.child, hentry]
  have htyped : ∀ {a : Str} {j : Json} {t : ℤ}, db'[a]? = some j → j[KW_TYPE]? = some (.num t) →
      ':' ∉ a := fun {a j t} hj ht ha => by
    have hnone := (hblock ha hj).type
    rw [ht] at hnone
    cases hnone
  refine ⟨⟨?_, fun hj ha => h.record ((hmeta ha).symm.trans hj) ha, fun hj ha => hblock ha hj, ?_,
    by rw [hchild]; exact h.forest, ?_, ?_⟩, hchild, htype, hentry⟩
  · obtain ⟨j, hj, hd⟩ := h.root
    exact ⟨j, (hmeta (by decide)).trans hj, hd⟩
  · intro a c x t ha
    rw [hentry] at ha
    rw [htype]
    exact h.entry ha
  · intro a j hj hd
    rw [hchild]
    exact h.dir ((hmeta (htyped hj hd.type)).symm.trans hj) hd
  · intro a j d hj hf
    rw [hchild]
    exact h.file ((hmeta (htyped hj hf.type)).symm.trans hj) hf

end Wf

/-- A batch of block records of one file. -/
def BlockBatch (key : Str) (batch : List Update) : Prop :=
  ∀ u ∈ batch, ∃ b j, u = .put (blockKey key b) j ∧ IsBlock j

theorem isBlock_encode {fi : RocksfileImpl} {sb : ℕ} {buf : List UInt8} {offset : ℤ} {j : Json}
    (h : fi.encode sb buf offset = .ok j) : IsBlock j := by
  unfold RocksfileImpl.encode check at h
  split_ifs at h
  · obtain rfl := Except.ok.inj h
    refine ⟨?_, (((Flat.empty.insert rfl).insert rfl).insert rfl).insert rfl⟩
    simp only [getElem?_put]
    rfl
  · cases h

/-- What the loop puts is what `encode` makes, under the first number or a wrapped one. -/
theorem writeLoop_mem (fi : RocksfileImpl) (sb eb : ℕ) (buf : List UInt8) (offset : ℤ) :
    ∀ {batch copied}, fi.writeLoop sb eb buf offset = .ok (batch, copied) → ∀ u ∈ batch,
      ∃ b part off j, fi.encode b part off = .ok j ∧ u = .put (blockKey fi.key b) j ∧
        (b = sb ∨ b < 2 ^ 32) := by
  fun_induction RocksfileImpl.writeLoop fi sb eb buf offset with
  | case1 sb buf offset hle h bc =>
    rename_i ih
    intro batch copied hw
    cases hj : fi.encode sb (buf.take bc) offset with
    | error e =>
      simp only [hj, bind, Except.bind] at hw
      cases hw
    | ok j =>
      cases hr : fi.writeLoop ((sb + 1) % 2 ^ 32) eb (buf.drop bc) (offset + bc) with
      | error e =>
        simp only [hj, hr, bind, Except.bind] at hw
        cases hw
      | ok r =>
        obtain ⟨rest, n⟩ := r
        simp only [hj, hr, bind, Except.bind] at hw
        obtain ⟨rfl, -⟩ := Prod.mk.inj (Except.ok.inj hw)
        intro u hu
        rcases List.mem_cons.1 hu with rfl | hu
        · exact ⟨sb, _, _, j, hj, rfl, .inl rfl⟩
        · obtain ⟨b, part, off, jb, he, rfl, hb⟩ := ih hr u hu
          refine ⟨b, part, off, jb, he, rfl, .inr ?_⟩
          rcases hb with rfl | hb
          · exact Nat.mod_lt _ (by decide)
          · exact hb
  | case2 sb buf offset hle h =>
    intro batch copied hw
    cases hw
  | case3 sb buf offset hle =>
    intro batch copied hw
    obtain ⟨rfl, -⟩ := Prod.mk.inj (Except.ok.inj hw)
    intro u hu
    exact absurd hu (by simp)

theorem writeLoop_blocks (fi : RocksfileImpl) (sb eb : ℕ) (buf : List UInt8) (offset : ℤ)
    {batch : List Update} {copied : ℕ} (hw : fi.writeLoop sb eb buf offset = .ok (batch, copied)) :
    BlockBatch fi.key batch := by
  intro u hu
  obtain ⟨b, part, off, j, he, rfl, -⟩ := writeLoop_mem fi sb eb buf offset hw u hu
  exact ⟨b, j, rfl, isBlock_encode he⟩

theorem BlockBatch.foldl {key : Str} : ∀ (batch : List Update) (db : Store), BlockBatch key batch →
    ∀ a : Str, (∃ b j, a = blockKey key b ∧ (batch.foldl Store.apply db)[a]? = some j ∧ IsBlock j) ∨
      (batch.foldl Store.apply db)[a]? = db[a]?
  | [], db, _, a => .inr rfl
  | u :: batch, db, h, a => by
    obtain ⟨b, j, rfl, hj⟩ := h u (by simp)
    have ih := BlockBatch.foldl batch (db.insert (blockKey key b) j)
      (fun v hv => h v (by simp [hv])) a
    rcases ih with ih | ih
    · exact .inl ih
    · rw [getElem?_put] at ih
      by_cases ha : a = blockKey key b
      · rw [if_pos ha] at ih
        exact .inl ⟨b, j, ha, ih, hj⟩
      · rw [if_neg ha] at ih
        exact .inr ih

/-- A write of blocks leaves the tree as it is. -/
theorem BlockBatch.wf {key : Str} {batch : List Update} {db : Store} (h : BlockBatch key batch)
    (hwf : Wf db) (ok : Bool) : Wf (db.write ok batch) ∧ (db.write ok batch).child = db.child ∧
      (db.write ok batch).type? = db.type? ∧ (db.write ok batch).entryOf = db.entryOf ∧
      ∀ {a : Str}, ':' ∉ a → (db.write ok batch)[a]? = db[a]? := by
  cases ok with
  | false => exact ⟨hwf, rfl, rfl, rfl, fun _ => rfl⟩
  | true =>
    have hmeta : ∀ {a : Str}, ':' ∉ a → (batch.foldl Store.apply db)[a]? = db[a]? := fun {a} ha => by
      rcases BlockBatch.foldl batch db h a with ⟨b, j, rfl, -⟩ | h'
      · exact absurd (colon_mem_blockKey key b) ha
      · exact h'
    have hb := hwf.blocks hmeta fun {a j} ha hj => by
      rcases BlockBatch.foldl batch db h a with ⟨b, j', -, hj', hb⟩ | h'
      · rw [hj'] at hj
        exact Option.some.inj hj ▸ hb
      · exact hwf.block (h'.symm.trans hj) ha
    exact ⟨hb.1, hb.2.1, hb.2.2.1, hb.2.2.2, hmeta⟩

end CPPCodes.Rocksfs
