import CPPCodes.Lib.Namespace
import CPPCodes.Rocksfs.Fs

/-!
# Where the path walk leads

In a well-formed store the records form a tree under the root: every entry refers to a record of
its own type, no record has two entries, and a file without an entry carries the deleted flag. On
such a store `namei` and `lookup` never stop at an assert, and what they return is `resolve`, a
walk from key to key along the components of the path (`namei_pathConvert`, `lookup_concat`).
-/

namespace CPPCodes.Rocksfs

open Namespace

def JVal.isEntry : JVal → Bool
  | .entry _ _ => true
  | _ => false

def Json.entryOf (j : Json) (c : Str) : Option (Str × ℤ) :=
  match j[c]? with
  | some (.entry x t) => some (x, t)
  | _ => none

def Json.type? (j : Json) : Option ℤ :=
  match j[KW_TYPE]? with
  | some (.num t) => some t
  | _ => none

namespace Store

variable (db : Store)

def entryOf (k c : Str) : Option (Str × ℤ) := db[k]?.bind fun j => j.entryOf c

def child (k c : Str) : Option Str := (db.entryOf k c).map Prod.fst

def type? (k : Str) : Option ℤ := db[k]?.bind Json.type?

end Store

theorem Json.entryOf_eq_some {j : Json} {c x : Str} {t : ℤ} :
    j.entryOf c = some (x, t) ↔ j[c]? = some (.entry x t) := by
  unfold Json.entryOf
  split
  · rename_i h
    rw [h]
    simp
  · rename_i h
    exact ⟨fun h' => (by cases h'), fun h' => absurd h' (h x t)⟩

theorem Json.type?_eq_some {j : Json} {t : ℤ} : j.type? = some t ↔ j[KW_TYPE]? = some (.num t) := by
  unfold Json.type?
  split
  · rename_i h
    rw [h]
    simp
  · rename_i h
    exact ⟨fun h' => (by cases h'), fun h' => absurd h' (h t)⟩

theorem child_eq_some {db : Store} {k c x : Str} :
    db.child k c = some x ↔ ∃ t, db.entryOf k c = some (x, t) := by
  simp [Store.child]

theorem entryOf_eq_some {db : Store} {k c x : Str} {t : ℤ} :
    db.entryOf k c = some (x, t) ↔ ∃ j, db[k]? = some j ∧ j[c]? = some (.entry x t) := by
  simp only [Store.entryOf, Option.bind_eq_some_iff, Json.entryOf_eq_some]

structure IsDir (j : Json) : Prop where
  type : j[KW_TYPE]? = some (.num FS_DIRECTORY)
  del : j[KW_DEL]? = some (.num 0)
  keyword : ∀ {n : Str} {v : JVal}, j[n]? = some v → isKeyword n = true → v.isEntry = false
  name : ∀ {n : Str} {v : JVal}, j[n]? = some v → isKeyword n = false → IsName n ∧ v.isEntry = true

/-- A record without entries. -/
def Flat (j : Json) : Prop := ∀ (n : Str) (v : JVal), j[n]? = some v → v.isEntry = false

structure IsFile (j : Json) (del : ℤ) : Prop where
  type : j[KW_TYPE]? = some (.num FS_FILE)
  del : j[KW_DEL]? = some (.num del)
  bs : j[KW_BS]? = some (.num DEFAULT_BLOCK_SIZE)
  flat : Flat j

structure IsBlock (j : Json) : Prop where
  type : j[KW_TYPE]? = none
  flat : Flat j

/-- A well-formed store. A key with a colon is the key of a block. -/
structure Wf (db : Store) : Prop where
  root : ∃ j, db[rootName]? = some j ∧ IsDir j ∧ j[KW_NAME]? = some (.str rootName)
  record : ∀ {k : Str} {j : Json}, db[k]? = some j → ':' ∉ k → IsDir j ∨ ∃ d, IsFile j d
  block : ∀ {k : Str} {j : Json}, db[k]? = some j → ':' ∈ k → IsBlock j
  entry : ∀ {k c x t}, db.entryOf k c = some (x, t) → db.type? x = some t
  forest : Forest db.child rootName
  dir : ∀ {k : Str} {j : Json}, db[k]? = some j → IsDir j → ∃ p, walk db.child rootName p = some k
  file : ∀ {k : Str} {j : Json} {d : ℤ}, db[k]? = some j → IsFile j d →
    (d = 0 ∧ ∃ l c, db.child l c = some k) ∨ (d = 1 ∧ ∀ l c, db.child l c ≠ some k)

theorem isKeyword_slash {n : Str} (h : isKeyword n = true) : '/' ∈ n := by
  unfold isKeyword at h
  have hall : ∀ m ∈ keywords, '/' ∈ m := by decide
  exact hall n (List.contains_iff_mem.1 h)

theorem IsName.not_keyword {n : Str} (h : IsName n) : isKeyword n = false := by
  cases hk : isKeyword n with
  | false => rfl
  | true => exact absurd (isKeyword_slash hk) h.2

theorem Flat.entryOf {j : Json} (h : Flat j) (c : Str) : j.entryOf c = none := by
  cases he : j.entryOf c with
  | none => rfl
  | some e => exact absurd (h c _ (Json.entryOf_eq_some.1 he)) (by simp [JVal.isEntry])

theorem IsFile.not_isDir {j : Json} {d : ℤ} (h : IsFile j d) : ¬ IsDir j := by
  intro h'
  have := h.type.symm.trans h'.type
  simp [FS_FILE, FS_DIRECTORY] at this

theorem IsFile.del_unique {j : Json} {d e : ℤ} (h : IsFile j d) (h' : IsFile j e) : d = e := by
  simpa using h.del.symm.trans h'.del

namespace Wf

variable {db : Store}

theorem not_mem_colon (h : Wf db) {k : Str} {t : ℤ} (ht : db.type? k = some t) : ':' ∉ k := by
  obtain ⟨j, hj, htj⟩ := Option.bind_eq_some_iff.1 ht
  intro hk
  have := (h.block hj hk).type.symm.trans (Json.type?_eq_some.1 htj)
  simp at this

theorem file_colon (h : Wf db) {k : Str} {j : Json} {d : ℤ} (hj : db[k]? = some j)
    (hf : IsFile j d) : ':' ∉ k :=
  h.not_mem_colon (t := FS_FILE) (by simp [Store.type?, hj, Json.type?_eq_some.2 hf.type])

theorem isDir_of_type (h : Wf db) {k : Str} (ht : db.type? k = some FS_DIRECTORY) :
    ∃ j, db[k]? = some j ∧ IsDir j := by
  obtain ⟨j, hj, htj⟩ := Option.bind_eq_some_iff.1 ht
  refine ⟨j, hj, ?_⟩
  rcases h.record hj (h.not_mem_colon ht) with hd | ⟨d, hf⟩
  · exact hd
  · have := (Json.type?_eq_some.1 htj).symm.trans hf.type
    simp [FS_FILE, FS_DIRECTORY] at this

theorem isFile_of_type (h : Wf db) {k : Str} {t : ℤ} (ht : db.type? k = some t)
    (hne : t ≠ FS_DIRECTORY) : t = FS_FILE ∧ ∃ j d, db[k]? = some j ∧ IsFile j d := by
  obtain ⟨j, hj, htj⟩ := Option.bind_eq_some_iff.1 ht
  rw [Json.type?_eq_some] at htj
  rcases h.record hj (h.not_mem_colon ht) with hd | ⟨d, hf⟩
  · exact absurd (htj.symm.trans hd.type) (by simpa using hne)
  · exact ⟨by simpa using htj.symm.trans hf.type, j, d, hj, hf⟩

/-- A file that an entry refers to is not deleted. -/
theorem isFile_of_entry (h : Wf db) {k c x : Str} {t : ℤ} (he : db.entryOf k c = some (x, t))
    (hne : t ≠ FS_DIRECTORY) : t = FS_FILE ∧ ∃ j, db[x]? = some j ∧ IsFile j 0 := by
  obtain ⟨rfl, j, d, hj, hf⟩ := h.isFile_of_type (h.entry he) hne
  refine ⟨rfl, j, hj, ?_⟩
  rcases h.file hj hf with ⟨rfl, -⟩ | ⟨-, hno⟩
  · exact hf
  · exact absurd (child_eq_some.2 ⟨_, he⟩) (hno k c)

theorem root_type (h : Wf db) : db.type? rootName = some FS_DIRECTORY := by
  obtain ⟨j, hj, hd, -⟩ := h.root
  simp [Store.type?, hj, Json.type?_eq_some.2 hd.type]

/-- An entry belongs to a directory record, under a component's name. -/
theorem entry_dir (h : Wf db) {k c x : Str} {t : ℤ} (he : db.entryOf k c = some (x, t)) :
    ∃ j, db[k]? = some j ∧ IsDir j ∧ IsName c ∧ j[c]? = some (.entry x t) := by
  obtain ⟨j, hj, hc⟩ := entryOf_eq_some.1 he
  have hnf : ¬ Flat j := fun hf => absurd (hf _ _ hc) (by simp [JVal.isEntry])
  by_cases hk : ':' ∈ k
  · exact absurd (h.block hj hk).flat hnf
  · rcases h.record hj hk with hd | ⟨d, hf⟩
    · refine ⟨j, hj, hd, ?_, hc⟩
      cases hw : isKeyword c with
      | true => exact absurd (hd.keyword hc hw) (by simp [JVal.isEntry])
      | false => exact (hd.name hc hw).1
    · exact absurd hf.flat hnf

end Wf

/-- The key and the type the components lead to from a directory's key, or an error. -/
def resolve (db : Store) : Str → List Str → Except ℤ (Str × ℤ)
  | k, [] => .ok (k, FS_DIRECTORY)
  | k, c :: cs =>
    match db.entryOf k c with
    | none => .error ENOENT
    | some (x, t) =>
      if cs = [] then .ok (x, t)
      else if t ≠ FS_DIRECTORY then .error ENOTDIR
      else resolve db x cs

/-- What `namei` returns. -/
def nameiResult (path name : Str) : Except ℤ (Str × ℤ) → ℤ × Option Dentry
  | .ok (x, t) => (0, some ⟨path, name, x, t⟩)
  | .error e => (-e, none)

theorem dirLookup_none {j : Json} (h : IsDir j) {c : Str} (hc : j[c]? = none) :
    dirLookup j c = .ok (-ENOENT, none) := by
  simp [dirLookup, Json.num, h.del, hc, bind, Except.bind, pure, Except.pure]

theorem dirLookup_some {j : Json} (h : IsDir j) {c : Str} {v : JVal} (hc : j[c]? = some v) :
    dirLookup j c = .ok (0, some v) := by
  simp only [dirLookup, Json.num, h.del, hc]
  rfl

theorem getlines_slashed {c : Str} (hc : IsName c) : ∀ cs : List Str,
    Text.getlines '/' (c ++ slashed cs) = (c, decide (cs = [])) :: match cs with
      | [] => []
      | d :: ds => Text.getlines '/' (d ++ slashed ds)
  | [] => by
    rw [show c ++ slashed [] = c by simp [slashed], Text.getlines_last hc.2 hc.1]
    rfl
  | d :: ds => by
    rw [slashed_cons, Text.getlines_append hc.2]
    rfl

theorem nameiLoop_components {db : Store} (h : Wf db) (path : Str) :
    ∀ (cs : List Str) (c k : Str) (j : Json), db[k]? = some j → IsDir j →
      (∀ d ∈ c :: cs, IsName d) →
      nameiLoop db path (some j) (Text.getlines '/' (c ++ slashed cs))
        = .ok (nameiResult path (cs.getLastD c) (resolve db k (c :: cs)))
  | cs, c, k, j, hj, hd, hn => by
    have hc : IsName c := hn c (by simp)
    obtain ⟨a, l, hal⟩ : ∃ a l, c = a :: l := List.exists_cons_of_ne_nil hc.1
    have hent : db.entryOf k c = j.entryOf c := by simp [Store.entryOf, hj]
    rw [getlines_slashed hc cs]
    cases hv : j[c]? with
    | none =>
      have hr : resolve db k (c :: cs) = .error ENOENT := by
        simp [resolve, hent, Json.entryOf, hv]
      rw [hr]
      subst hal
      simp [nameiLoop, dirLookup_none hd hv, nameiResult, bind, Except.bind, pure, Except.pure]
    | some v =>
      have hv' := (hd.name hv hc.not_keyword).2
      obtain ⟨x, t, rfl⟩ : ∃ x t, v = .entry x t := by
        cases v with
        | num n => simp [JVal.isEntry] at hv'
        | str s => simp [JVal.isEntry] at hv'
        | entry x t => exact ⟨x, t, rfl⟩
      have he : db.entryOf k c = some (x, t) := hent.trans (Json.entryOf_eq_some.2 hv)
      have hr : resolve db k (c :: cs) = if cs = [] then .ok (x, t)
          else if t ≠ FS_DIRECTORY then .error ENOTDIR else resolve db x cs := by
        simp [resolve, he]
      rw [hr]
      cases cs with
      | nil =>
        subst hal
        simp [nameiLoop, dirLookup_some hd hv, nameiResult, JVal.fields, bind, Except.bind, pure,
          Except.pure]
      | cons d ds =>
        by_cases ht : t = FS_DIRECTORY
        · obtain ⟨jx, hjx, hdx⟩ := h.isDir_of_type (ht ▸ h.entry he)
          have ih := nameiLoop_components h path ds d x jx hjx hdx fun e hm => hn e (by simp [hm])
          subst hal ht
          simp [nameiLoop, dirLookup_some hd hv, JVal.fields, Store.getOk, hjx, bind, Except.bind, ih,
            List.getLast?_cons]
        · subst hal
          simp [nameiLoop, dirLookup_some hd hv, JVal.fields, ht, nameiResult, bind, Except.bind,
            pure, Except.pure]

/-- `namei` on the path that the components of a path are put together to. -/
theorem namei_slashed {db : Store} (h : Wf db) {cs : List Str} (hn : ∀ c ∈ cs, IsName c) :
    namei db ('/' :: rootName ++ slashed cs)
      = .ok (nameiResult ('/' :: rootName ++ slashed cs) (cs.getLastD rootName)
          (resolve db rootName cs)) := by
  obtain ⟨j, hj, hd, hname⟩ := h.root
  have hroot : IsName rootName := by unfold IsName; decide
  have hempty : Text.getlines '/' ('/' :: rootName ++ slashed cs)
      = ([], false) :: Text.getlines '/' (rootName ++ slashed cs) := by
    rw [List.cons_append]
    exact Text.getlines_append (w := []) (by simp) _
  have hnum : j.num KW_TYPE = .ok FS_DIRECTORY := by simp [Json.num, hd.type]
  generalize hpath : '/' :: rootName ++ slashed cs = path at hempty ⊢
  unfold namei
  rw [hempty, getlines_slashed hroot cs]
  cases cs with
  | nil =>
    rw [nameiLoop]
    simp [nameiLoop, rootName, Store.getOk] at hj ⊢
    simp [hj, hnum, hname, check, nameiResult, resolve, rootName, bind, Except.bind]
  | cons d ds =>
    have hw := nameiLoop_components h path ds d rootName j hj hd hn
    rw [nameiLoop]
    simp [nameiLoop, rootName, Store.getOk] at hj ⊢
    simp [hj, hnum, hname, check, rootName, bind, Except.bind, hw, List.getLast?_cons]

/-- The directory the components lead to. -/
def resolveDir (db : Store) (k : Str) (cs : List Str) : Except ℤ Str :=
  match resolve db k cs with
  | .ok (x, t) => if t = FS_DIRECTORY then .ok x else .error ENOTDIR
  | .error e => .error e

theorem resolve_error {db : Store} {e : ℤ} :
    ∀ {k : Str} {cs : List Str}, resolve db k cs = .error e → e = ENOENT ∨ e = ENOTDIR
  | k, [], h => by cases h
  | k, c :: cs, h => by
    unfold resolve at h
    split at h
    · exact .inl (Except.error.inj h).symm
    · split_ifs at h
      · exact .inr (Except.error.inj h).symm
      · exact resolve_error h

theorem resolve_concat (db : Store) (c : Str) : ∀ (k : Str) (q : List Str),
    resolve db k (q ++ [c]) = match resolveDir db k q with
      | .error e => .error e
      | .ok x => match db.entryOf x c with
        | none => .error ENOENT
        | some e => .ok e
  | k, [] => by
    simp only [List.nil_append, resolve, resolveDir, if_true]
    cases db.entryOf k c <;> rfl
  | k, d :: q => by
    simp only [List.cons_append, resolve, resolveDir]
    cases db.entryOf k d with
    | none => rfl
    | some e =>
      obtain ⟨x, t⟩ := e
      have ih := resolve_concat db c x q
      unfold resolveDir at ih
      by_cases ht : t = FS_DIRECTORY
      · by_cases hq : q = []
        · subst hq
          simpa [ht, resolve] using ih
        · simpa [ht, hq] using ih
      · by_cases hq : q = [] <;> simp [ht, hq]

theorem splitPath_slashed (q : List Str) {c : Str} (hc : '/' ∉ c) :
    splitPath ('/' :: rootName ++ slashed (q ++ [c])) = ('/' :: rootName ++ slashed q, c) := by
  have hs : '/' :: rootName ++ slashed (q ++ [c]) = ('/' :: rootName ++ slashed q) ++ '/' :: c := by
    rw [slashed_append, ← List.append_assoc]
    simp [slashed]
  unfold splitPath
  rw [hs, Text.findLastOf_append hc]
  simp only [List.take_left, List.drop_length_add_append, List.drop_succ_cons, List.drop_zero]

theorem lookup_slashed {db : Store} (h : Wf db) {q : List Str} {c : Str}
    (hn : ∀ d ∈ q ++ [c], IsName d) :
    lookup db ('/' :: rootName ++ slashed (q ++ [c])) = .ok (match resolveDir db rootName q with
      | .ok k => (0, some (c, ⟨'/' :: rootName ++ slashed q, q.getLastD rootName, k, FS_DIRECTORY⟩))
      | .error e => (-e, none)) := by
  have hnamei := namei_slashed h (show ∀ d ∈ q, IsName d from fun d hd => hn d (by simp [hd]))
  unfold lookup resolveDir
  rw [splitPath_slashed q (hn c (by simp)).2]
  simp only [hnamei]
  cases hr : resolve db rootName q with
  | error e =>
    have he : 0 < e := by
      rcases resolve_error hr with rfl | rfl <;> decide
    simp [nameiResult, bind, Except.bind, he, pure, Except.pure]
  | ok a =>
    obtain ⟨k, t⟩ := a
    by_cases ht : t = FS_DIRECTORY <;>
      simp [nameiResult, initialized, bind, Except.bind, pure, Except.pure, ht]

end CPPCodes.Rocksfs
