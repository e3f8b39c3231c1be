import CPPCodes.Rocksfs.Walk

/-!
# One entry and one record

Whatever an operation does to the tree is one edit: the entry of a directory under a name, and the
record without entries that it refers to. An edit that leaves them consistent keeps the store
well-formed (`Edited.wf`), and one path changes where it leads (`Edited.walk`).
-/

namespace CPPCodes.Rocksfs

open Namespace

/-- `db'` is `db` with the entry under `c` of the directory `k` set to `link`, which is the type
of an entry for `x` or nothing, and the record of `x` set to `rec`. -/
structure Edited (db : Store) (k c x : Str) (link : Option ℤ) (rec : Option Json) (db' : Store) :
    Prop where
  dir : ∃ j j', db[k]? = some j ∧ IsDir j ∧ db'[k]? = some j' ∧
    ∀ n : Str, j'[n]? = if n = c then link.map (JVal.entry x) else j[n]?
  leaf : db'[x]? = rec
  other : ∀ {a : Str}, a ≠ k → a ≠ x → db'[a]? = db[a]?

/-- What an edit must meet: `x` has no entries and no other entry refers to it. -/
structure Editable (db : Store) (k c x : Str) (link : Option ℤ) (rec : Option Json) : Prop where
  ne : x ≠ k
  ne_root : x ≠ rootName
  colon : ':' ∉ x
  keyword : isKeyword c = false
  name : link ≠ none → IsName c
  below : ∀ d, db.entryOf x d = none
  only : ∀ {y}, db.child k c = some y → y = x
  parent : ∀ {a d}, db.child a d = some x → a = k ∧ d = c
  present : link ≠ none → rec ≠ none
  record : ∀ {r}, rec = some r → Flat r ∧ ((link = some FS_DIRECTORY ∧ IsDir r) ∨
    (link = some FS_FILE ∧ IsFile r 0) ∨ (link = none ∧ IsFile r 1))

namespace Edited

variable {db db' : Store} {k c x : Str} {link : Option ℤ} {rec : Option Json}

theorem entryOf (he : Edited db k c x link rec db') (hx : Editable db k c x link rec) (a d : Str) :
    db'.entryOf a d = if a = k ∧ d = c then link.map (x, ·) else db.entryOf a d := by
  obtain ⟨j, j', hj, -, hj', hn⟩ := he.dir
  by_cases hak : a = k
  · subst hak
    simp only [Store.entryOf, hj, hj', Option.bind_some, Json.entryOf, hn, true_and]
    by_cases hdc : d = c
    · rw [if_pos hdc, if_pos hdc]
      cases link <;> rfl
    · rw [if_neg hdc, if_neg hdc]
  · rw [if_neg fun h => hak h.1]
    by_cases hax : a = x
    · rw [hax, hx.below]
      unfold Store.entryOf
      rw [he.leaf]
      cases rec with
      | none => rfl
      | some r => exact (hx.record rfl).1.entryOf d
    · simp only [Store.entryOf, he.other hak hax]

theorem child (he : Edited db k c x link rec db') (hx : Editable db k c x link rec) (a d : Str) :
    db'.child a d = if a = k ∧ d = c then link.map fun _ => x else db.child a d := by
  unfold Store.child
  rw [he.entryOf hx]
  split_ifs
  · cases link <;> rfl
  · rfl

theorem type? (he : Edited db k c x link rec db') (hx : Editable db k c x link rec) (a : Str) :
    db'.type? a = if a = x then rec.bind Json.type? else db.type? a := by
  obtain ⟨j, j', hj, -, hj', hn⟩ := he.dir
  unfold Store.type?
  by_cases hax : a = x
  · rw [if_pos hax, hax, he.leaf]
  · rw [if_neg hax]
    by_cases hak : a = k
    · have hc : KW_TYPE ≠ c := fun h => absurd (h ▸ hx.keyword) (by decide)
      simp only [hak, hj, hj', Option.bind_some, Json.type?, hn, if_neg hc]
    · rw [he.other hak hax]

/-- Who refers to a key other than `x` is the same as before. -/
theorem child_iff (he : Edited db k c x link rec db') (hx : Editable db k c x link rec) {y : Str}
    (hy : y ≠ x) (a d : Str) : db'.child a d = some y ↔ db.child a d = some y := by
  rw [he.child hx]
  split_ifs with h
  · obtain ⟨rfl, rfl⟩ := h
    refine ⟨fun h => ?_, fun h => absurd (hx.only h) hy⟩
    cases link with
    | none => exact absurd h (by simp)
    | some t => exact absurd (Option.some.inj h).symm hy
  · rfl

theorem child_leaf (he : Edited db k c x link rec db') (hx : Editable db k c x link rec)
    (a d : Str) : db'.child a d = some x ↔ link ≠ none ∧ a = k ∧ d = c := by
  rw [he.child hx]
  split_ifs with h
  · cases link <;> simp [h]
  · exact ⟨fun h' => absurd (hx.parent h') h, fun h' => absurd h'.2 h⟩

theorem walk (he : Edited db k c x link rec db') (hx : Editable db k c x link rec) (h : Wf db)
    {q : List Str} (hq : walk db.child rootName q = some k) (p : List Str) :
    Namespace.walk db'.child rootName p
      = if p = q ++ [c] then link.map fun _ => x else Namespace.walk db.child rootName p := by
  have hleaf : ∀ d, db.child x d = none := fun d => by simp [Store.child, hx.below d]
  refine walk_update (fun a d => he.child hx a d) h.forest hq ?_ ?_ p
  · intro y hy d
    rw [hx.only hy, hleaf]
  · intro y hy d
    obtain ⟨_, -, rfl⟩ := Option.map_eq_some_iff.1 hy
    rw [he.child hx, if_neg fun h' => hx.ne h'.1, hleaf]

theorem isDir (he : Edited db k c x link rec db') (hx : Editable db k c x link rec) :
    ∃ j', db'[k]? = some j' ∧ IsDir j' := by
  obtain ⟨j, j', hj, hd, hj', hn⟩ := he.dir
  have hkw : ∀ n, isKeyword n = true → j'[n]? = j[n]? := fun n h => by
    rw [hn, if_neg fun h' => by rw [h', hx.keyword] at h; cases h]
  refine ⟨j', hj', (hkw _ rfl).trans hd.type, (hkw _ rfl).trans hd.del, fun {n v} h hk => ?_,
    fun {n v} h hk => ?_⟩
  · exact hd.keyword ((hkw n hk).symm.trans h) hk
  · rw [hn] at h
    split_ifs at h with hnc
    · obtain ⟨t, hl, rfl⟩ := Option.map_eq_some_iff.1 h
      exact ⟨hnc ▸ hx.name (by simp [hl]), rfl⟩
    · exact hd.name h hk

/-- The record of another file is the same as before. -/
theorem file_iff (he : Edited db k c x link rec db') (hx : Editable db k c x link rec) {a : Str}
    (ha : a ≠ x) {j : Json} {d : ℤ} (hf : IsFile j d) : db'[a]? = some j ↔ db[a]? = some j := by
  obtain ⟨j₀, j₁, hj₀, hd₀, -, -⟩ := he.dir
  obtain ⟨jk, hjk, hdk⟩ := he.isDir hx
  by_cases hak : a = k
  · subst hak
    rw [hjk, hj₀]
    refine ⟨fun h => ?_, fun h => ?_⟩
    · exact absurd (Option.some.inj h ▸ hdk) hf.not_isDir
    · exact absurd (Option.some.inj h ▸ hd₀) hf.not_isDir
  · rw [he.other hak ha]

/-- A directory has a path after the edit: an old one its old path, a new one a path below `k`. -/
theorem reached (he : Edited db k c x link rec db') (hx : Editable db k c x link rec) (h : Wf db)
    {a : Str} {ja : Json} (ha : db'[a]? = some ja) (hda : IsDir ja) :
    ∃ p, Namespace.walk db'.child rootName p = some a := by
  obtain ⟨j, _, hj, hd, -, -⟩ := he.dir
  obtain ⟨q, hq⟩ := h.dir hj hd
  by_cases hax : a = x
  · rw [hax, he.leaf] at ha
    have hl : link = some FS_DIRECTORY := by
      rcases (hx.record ha).2 with ⟨hl, -⟩ | ⟨-, hr⟩ | ⟨-, hr⟩
      · exact hl
      · exact absurd hda hr.not_isDir
      · exact absurd hda hr.not_isDir
    exact ⟨q ++ [c], by rw [he.walk hx h hq, if_pos rfl, hl, hax]; rfl⟩
  · have hold : ∃ j, db[a]? = some j ∧ IsDir j := by
      by_cases hak : a = k
      · exact ⟨j, hak ▸ hj, hd⟩
      · exact ⟨ja, (he.other hak hax).symm.trans ha, hda⟩
    obtain ⟨j', hj', hd'⟩ := hold
    obtain ⟨p, hp⟩ := h.dir hj' hd'
    refine ⟨p, ?_⟩
    rw [he.walk hx h hq, if_neg, hp]
    rintro rfl
    obtain ⟨y, hy, hya⟩ := walk_concat_eq_some.1 hp
    rw [hq] at hy
    exact hax (hx.only (Option.some.inj hy ▸ hya))

/-- The new entry and the new record have the same type. -/
theorem link_type (hx : Editable db k c x link rec) {t : ℤ} (hl : link = some t) :
    rec.bind Json.type? = some t := by
  obtain ⟨r, hr⟩ := Option.ne_none_iff_exists'.1 (hx.present (by simp [hl]))
  rw [hr, Option.bind_some, Json.type?_eq_some]
  rcases (hx.record hr).2 with ⟨hl', hr⟩ | ⟨hl', hr⟩ | ⟨hl', -⟩
  · rw [hr.type, show t = FS_DIRECTORY by simpa using hl.symm.trans hl']
  · rw [hr.type, show t = FS_FILE by simpa using hl.symm.trans hl']
  · exact absurd (hl.symm.trans hl') (by simp)

theorem wf (he : Edited db k c x link rec db') (hx : Editable db k c x link rec) (h : Wf db) :
    Wf db' := by
  obtain ⟨j, j', hj, hd, hj', hn⟩ := he.dir
  obtain ⟨jk, hjk, hdk⟩ := he.isDir hx
  obtain rfl := Option.some.inj (hj'.symm.trans hjk)
  have hkcolon : ':' ∉ k := h.not_mem_colon (t := FS_DIRECTORY) (by
    simp [Store.type?, hj, Json.type?_eq_some.2 hd.type])
  refine ⟨?_, ?_, ?_, ?_, ?_, he.reached hx h, ?_⟩
  · -- the root keeps its name
    obtain ⟨jr, hjr, hdr, hname⟩ := h.root
    by_cases hkr : rootName = k
    · have hc : KW_NAME ≠ c := fun h' => absurd (h' ▸ hx.keyword) (by decide)
      rw [hkr, hj] at hjr
      obtain rfl := Option.some.inj hjr
      exact ⟨j', hkr ▸ hj', hdk, by rw [hn, if_neg hc, hname]⟩
    · exact ⟨jr, (he.other hkr hx.ne_root.symm).trans hjr, hdr, hname⟩
  · intro a ja ha hcolon
    by_cases hak : a = k
    · rw [hak, hjk] at ha
      exact .inl (Option.some.inj ha ▸ hdk)
    · by_cases hax : a = x
      · rw [hax, he.leaf] at ha
        rcases (hx.record ha).2 with ⟨-, hr⟩ | ⟨-, hr⟩ | ⟨-, hr⟩
        · exact .inl hr
        · exact .inr ⟨_, hr⟩
        · exact .inr ⟨_, hr⟩
      · exact h.record ((he.other hak hax).symm.trans ha) hcolon
  · intro a ja ha hcolon
    have hak : a ≠ k := fun h' => hkcolon (h' ▸ hcolon)
    have hax : a ≠ x := fun h' => hx.colon (h' ▸ hcolon)
    exact h.block ((he.other hak hax).symm.trans ha) hcolon
  · intro a d y t ha
    rw [he.entryOf hx] at ha
    rw [he.type? hx]
    split_ifs at ha with hac
    · obtain ⟨s, hl, hxs⟩ := Option.map_eq_some_iff.1 ha
      obtain ⟨rfl, rfl⟩ : x = y ∧ s = t := by simpa using hxs
      rw [if_pos rfl, link_type hx hl]
    · have hyx : y ≠ x := fun h' => hac (hx.parent (child_eq_some.2 ⟨t, h' ▸ ha⟩))
      rw [if_neg hyx, h.entry ha]
  · refine h.forest.update (fun a d => he.child hx a d) fun y hy => ?_
    obtain ⟨t, -, rfl⟩ := Option.map_eq_some_iff.1 hy
    exact ⟨hx.ne_root, fun a d => hx.parent⟩
  · intro a ja d ha hf
    by_cases hax : a = x
    · rw [hax, he.leaf] at ha
      simp only [hax, ne_eq, he.child_leaf hx]
      rcases (hx.record ha).2 with ⟨-, hr⟩ | ⟨hl, hr⟩ | ⟨hl, hr⟩
      · exact absurd hr hf.not_isDir
      · exact .inl ⟨hf.del_unique hr, k, c, by simp [hl], rfl, rfl⟩
      · exact .inr ⟨hf.del_unique hr, fun l d h' => h'.1 hl⟩
    · simp only [ne_eq, he.child_iff hx hax]
      exact h.file ((he.file_iff hx hax hf).1 ha) hf

/-- The type of what a path leads to. -/
theorem kindAt (he : Edited db k c x link rec db') (hx : Editable db k c x link rec) (h : Wf db)
    {q : List Str} (hq : Namespace.walk db.child rootName q = some k) (p : List Str) :
    (Namespace.walk db'.child rootName p).bind db'.type?
      = if p = q ++ [c] then link else (Namespace.walk db.child rootName p).bind db.type? := by
  rw [he.walk hx h hq]
  split_ifs with hp
  · cases hl : link with
    | none => rfl
    | some t => rw [Option.map_some, Option.bind_some, he.type? hx, if_pos rfl, link_type hx hl]
  · cases hw : Namespace.walk db.child rootName p with
    | none => rfl
    | some y =>
      -- no other path leads to `x`
      have hyx : y ≠ x := by
        rintro rfl
        rcases List.eq_nil_or_concat p with rfl | ⟨p, d, rfl⟩
        · exact hx.ne_root (Option.some.inj hw).symm
        · rw [List.concat_eq_append] at hw hp
          obtain ⟨a, ha, had⟩ := walk_concat_eq_some.1 hw
          obtain ⟨rfl, rfl⟩ := hx.parent had
          exact hp (by rw [walk_inj h.forest ha hq])
      rw [Option.bind_some, Option.bind_some, he.type? hx, if_neg hyx]

end Edited

theorem Flat.empty : Flat ∅ := fun n v h => by simp at h

theorem Flat.insert {j : Json} (h : Flat j) {n : Str} {v : JVal} (hv : v.isEntry = false) :
    Flat (j.insert n v) := fun m w hw => by
  rw [Std.ExtTreeMap.getElem?_insert] at hw
  split_ifs at hw
  · exact Option.some.inj hw ▸ hv
  · exact h m w hw

theorem flat_dirJsonInit (name key parent : Str) : Flat (dirJsonInit name key parent) :=
  ((((Flat.empty.insert rfl).insert rfl).insert rfl).insert rfl).insert rfl

theorem isDir_dirJsonInit (name key parent : Str) : IsDir (dirJsonInit name key parent) := by
  refine ⟨?_, ?_, fun h _ => flat_dirJsonInit _ _ _ _ _ h, fun {n v} h hk => ?_⟩
  · simp only [dirJsonInit, Std.ExtTreeMap.getElem?_insert, Std.compare_eq_iff_eq]
    rfl
  · simp only [dirJsonInit, Std.ExtTreeMap.getElem?_insert, Std.compare_eq_iff_eq]
    rfl
  · -- every field of the record is a keyword
    simp only [dirJsonInit, Std.ExtTreeMap.getElem?_insert, Std.compare_eq_iff_eq] at h
    split_ifs at h with h1 h2 h3 h4 h5
    · exact absurd (h1 ▸ hk) (by decide)
    · exact absurd (h2 ▸ hk) (by decide)
    · exact absurd (h3 ▸ hk) (by decide)
    · exact absurd (h4 ▸ hk) (by decide)
    · exact absurd (h5 ▸ hk) (by decide)
    · simp at h

theorem isFile_fileJsonInit (name key parent : Str) : IsFile (fileJsonInit name key parent) 0 := by
  refine ⟨?_, ?_, ?_, ?_⟩
  · simp only [fileJsonInit, Std.ExtTreeMap.getElem?_insert, Std.compare_eq_iff_eq]
    rfl
  · simp only [fileJsonInit, Std.ExtTreeMap.getElem?_insert, Std.compare_eq_iff_eq]
    rfl
  · simp only [fileJsonInit, Std.ExtTreeMap.getElem?_insert, Std.compare_eq_iff_eq]
    rfl
  · exact ((((((((((Flat.empty.insert rfl).insert rfl).insert rfl).insert rfl).insert rfl).insert
      rfl).insert rfl).insert rfl).insert rfl).insert rfl).insert rfl

theorem IsFile.setDel {j : Json} {d : ℤ} (h : IsFile j d) (e : ℤ) :
    IsFile (j.insert KW_DEL (.num e)) e := by
  refine ⟨?_, ?_, ?_, h.flat.insert rfl⟩
  · rw [Std.ExtTreeMap.getElem?_insert, if_neg (by decide)]
    exact h.type
  · rw [Std.ExtTreeMap.getElem?_insert, if_pos (by decide)]
  · rw [Std.ExtTreeMap.getElem?_insert, if_neg (by decide)]
    exact h.bs

section

variable {db : Store} {k c x : Str} {j : Json}

/-- The second update of the batch is the one that is about `x`. -/
theorem edited_batch (hj : db[k]? = some j) (hd : IsDir j) (hne : x ≠ k) {j' : Json}
    {link : Option ℤ} {rec : Option Json} {u : Update}
    (hentry : ∀ n : Str, j'[n]? = if n = c then link.map (JVal.entry x) else j[n]?)
    (hu : ∀ (d : Store) (a : Str), (d.apply u)[a]? = if a = x then rec else d[a]?) :
    Edited db k c x link rec ([.put k j', u].foldl Store.apply db) := by
  refine ⟨⟨j, j', hj, hd, ?_, hentry⟩, ?_, fun {a} hk hx => ?_⟩
  · rw [List.foldl_cons, List.foldl_cons, List.foldl_nil, hu, if_neg hne.symm]
    simp only [Store.apply, getElem?_put, if_true]
  · simp only [List.foldl, hu, if_true]
  · rw [List.foldl_cons, List.foldl_cons, List.foldl_nil, hu, if_neg hx]
    simp only [Store.apply, getElem?_put, if_neg hk]

theorem edited_link (hj : db[k]? = some j) (hd : IsDir j) (hne : x ≠ k) (t : ℤ) (r : Json) :
    Edited db k c x (some t) (some r)
      ([.put k (j.insert c (.entry x t)), .put x r].foldl Store.apply db) :=
  edited_batch hj hd hne (fun n => getElem?_put j c n _) fun d a => getElem?_put d x a r

theorem editable_link (h : Wf db) (hj : db[k]? = some j) (hx : db[x]? = none) (hcolon : ':' ∉ x)
    (hc : IsName c) (hnone : db.entryOf k c = none) {t : ℤ} {r : Json}
    (hr : Flat r ∧ ((t = FS_DIRECTORY ∧ IsDir r) ∨ (t = FS_FILE ∧ IsFile r 0))) :
    Editable db k c x (some t) (some r) where
  ne h' := by
    rw [h', hj] at hx
    cases hx
  ne_root h' := by
    obtain ⟨jr, hjr, -⟩ := h.root
    rw [h', hjr] at hx
    cases hx
  colon := hcolon
  keyword := hc.not_keyword
  name _ := hc
  below d := by simp [Store.entryOf, hx]
  only hy := by
    rw [Store.child, hnone] at hy
    cases hy
  parent ha := by
    obtain ⟨s, hs⟩ := child_eq_some.1 ha
    have hty := h.entry hs
    rw [Store.type?, hx] at hty
    cases hty
  present _ := by simp
  record h' := by
    obtain rfl := Option.some.inj h'
    simpa [eq_comm, or_assoc] using hr

theorem edited_unlink (hj : db[k]? = some j) (hd : IsDir j) (hne : x ≠ k) :
    Edited db k c x none none ([.put k (j.erase c), .delete x].foldl Store.apply db) :=
  edited_batch hj hd hne (fun n => getElem?_delete j c n) fun d a => getElem?_delete d x a

theorem edited_mark (hj : db[k]? = some j) (hd : IsDir j) (hne : x ≠ k) (r : Json) :
    Edited db k c x none (some r) ([.put k (j.erase c), .put x r].foldl Store.apply db) :=
  edited_batch hj hd hne (fun n => getElem?_delete j c n) fun d a => getElem?_put d x a r

theorem editable_unlink (h : Wf db) {t : ℤ} (he : db.entryOf k c = some (x, t))
    (hbelow : ∀ d, db.entryOf x d = none) (rec : Option Json)
    (hrec : ∀ {r}, rec = some r → IsFile r 1) : Editable db k c x none rec where
  ne h' := by
    rw [← h', hbelow] at he
    cases he
  ne_root h' := h.forest.root_ne k c (h' ▸ child_eq_some.2 ⟨t, he⟩)
  colon := h.not_mem_colon (h.entry he)
  keyword := by
    obtain ⟨_, -, -, hc, -⟩ := h.entry_dir he
    exact hc.not_keyword
  name h' := absurd rfl h'
  below := hbelow
  only hy := Option.some.inj (hy.symm.trans (child_eq_some.2 ⟨t, he⟩))
  parent ha := h.forest.parent ha (child_eq_some.2 ⟨t, he⟩)
  present h' := absurd rfl h'
  record h' := ⟨(hrec h').flat, .inr (.inr ⟨rfl, hrec h'⟩)⟩

/-- The record of a file without an entry goes by an edit too, of the root's entry under the empty
name, which is no name. -/
theorem edited_purge (h : Wf db) (hj : db[x]? = some j) (hf : IsFile j 1) :
    Edited db rootName [] x none none (db.erase x) ∧ Editable db rootName [] x none none := by
  obtain ⟨jr, hjr, hdr, -⟩ := h.root
  have hne : x ≠ rootName := by
    rintro rfl
    rw [hj] at hjr
    exact hf.not_isDir (Option.some.inj hjr ▸ hdr)
  have hempty : jr[([] : Str)]? = none := by
    cases hv : jr[([] : Str)]? with
    | none => rfl
    | some v => exact absurd rfl (hdr.name hv (by decide)).1.1
  have hno : ∀ l c, db.child l c ≠ some x := by
    rcases h.file hj hf with ⟨h0, -⟩ | ⟨-, hno⟩
    · exact absurd h0 (by decide)
    · exact hno
  refine ⟨⟨⟨jr, jr, hjr, hdr, ?_, fun n => ?_⟩, ?_, fun {a} _ hx => ?_⟩,
    ⟨hne, hne, ?_, by decide, fun h' => absurd rfl h', fun d => ?_, fun {y} hy => ?_,
      fun {a d} ha => absurd ha (hno a d), fun h' => absurd rfl h', fun {r} hr => by cases hr⟩⟩
  · rw [getElem?_delete, if_neg hne.symm, hjr]
  · split_ifs with hn
    · rw [hn, hempty]
      rfl
    · rfl
  · rw [getElem?_delete, if_pos rfl]
  · rw [getElem?_delete, if_neg hx]
  · exact h.not_mem_colon (t := FS_FILE) (by simp [Store.type?, hj, Json.type?_eq_some.2 hf.type])
  · simp only [Store.entryOf, hj, Option.bind_some]
    exact hf.flat.entryOf d
  · obtain ⟨t, ht⟩ := child_eq_some.1 hy
    obtain ⟨_, -, -, hc, -⟩ := h.entry_dir ht
    exact absurd rfl hc.1

end

end CPPCodes.Rocksfs
