import CPPCodes.Lib.Transition
import CPPCodes.Rocksfs.Effect

/-!
# The tree the store stands for

What the file system is for: a finite map from paths, as lists of components, to files and
directories, with the calls' return values. From `mkfs` on every run of the code is a run of this
map with the same return values, and `namei` finds the paths of the map, with their types, and for
the others the map's error (`refines_tree`).
-/

namespace CPPCodes.Rocksfs

open Namespace Std

inductive Kind
  | file
  | dir
  deriving DecidableEq

def Kind.type : Kind → ℤ
  | .file => FS_FILE
  | .dir => FS_DIRECTORY

abbrev Tree := ExtTreeMap (List Str) Kind

namespace Tree

/-- The root alone. -/
def init : Tree := (∅ : Tree).insert [] .dir

/-- The first path from `p` on, below `p ++ cs`, that is no directory. -/
def firstNonDir (t : Tree) (p : List Str) : List Str → Option (List Str)
  | [] => none
  | c :: cs => if t[p]? = some .dir then t.firstNonDir (p ++ [c]) cs else some p

/-- The error for a path that is absent, by its first strict prefix that is no directory. -/
def absentErrorFrom (t : Tree) (p cs : List Str) : ℤ :=
  match t.firstNonDir p cs with
  | some q => if t[q]? = some .file then ENOTDIR else ENOENT
  | none => ENOENT

def absentError (t : Tree) (p : List Str) : ℤ := t.absentErrorFrom [] p

def childless (t : Tree) (p : List Str) : Bool := t.keys.all fun q => q = [] || q.dropLast ≠ p

/-- `mkdir` and `create`. -/
def make (t : Tree) (p : List Str) (kind : Kind) : ℤ × Tree :=
  if t[p]? ≠ none then (-EEXIST, t)
  else if t[p.dropLast]? = some .dir then (0, t.insert p kind)
  else (-t.absentError p, t)

def unlink (t : Tree) (p : List Str) : ℤ × Tree :=
  match t[p]? with
  | none => (-t.absentError p, t)
  | some .dir => (-EISDIR, t)
  | some .file => (0, t.erase p)

def rmdir (t : Tree) (p : List Str) : ℤ × Tree :=
  match t[p]? with
  | none => (-t.absentError p, t)
  | some .file => (-ENOTDIR, t)
  | some .dir => if t.childless p then (0, t.erase p) else (-ENOTEMPTY, t)

/-- What a call returns and the map after it. The map says nothing about the calls on descriptors,
and about `rmdir` of the root. -/
def apply (t : Tree) : Op → Option (ℤ × Tree)
  | .mkdir dir => some (t.make (components dir) .dir)
  | .create file => some (t.make (components file) .file)
  | .unlink file => some (t.unlink (components file))
  | .rmdir dir => if components dir = [] then none else some (t.rmdir (components dir))
  | .open _ | .close _ | .pwrite _ _ _ | .pread _ _ _ => none

def Step (t : Tree) (l : Call × Reply) (t' : Tree) : Prop :=
  match t.apply l.1.op with
  | some r => r = (l.2.rc, t')
  | none => t' = t

/-- What is at a path. -/
def kind? (t : Tree) (p : List Str) : Option Kind := t[p]?

/-- The map after a call, by what the call was for and whether it returned 0. -/
def record (t : Tree) (call : Call) (reply : Reply) : Tree :=
  if reply.rc ≠ 0 then t
  else match call.op with
    | .mkdir dir => t.insert (components dir) .dir
    | .create file => t.insert (components file) .file
    | .rmdir dir => t.erase (components dir)
    | .unlink file => t.erase (components file)
    | .open _ | .close _ | .pwrite _ _ _ | .pread _ _ _ => t

end Tree

/-- What a run of calls from `mkfs` on has created and not removed. -/
def created (ls : List (Call × Reply)) : Tree :=
  ls.foldl (fun t l => t.record l.1 l.2) Tree.init

/-- `namei` resolves the paths of the map, with their types, and no others. -/
def Represents (fs : Fs) (t : Tree) : Prop :=
  ∀ path, match t[components path]? with
    | some kind => ∃ name key, namei fs.ddb (pathConvert path)
        = .ok (0, some ⟨pathConvert path, name, key, kind.type⟩)
    | none => namei fs.ddb (pathConvert path) = .ok (-t.absentError (components path), none)

/-- The type of what a path leads to in the store. -/
def kindAt (db : Store) (p : List Str) : Option ℤ := (walk db.child rootName p).bind db.type?

def Abstracts (db : Store) (t : Tree) : Prop := ∀ p, kindAt db p = t[p]?.map Kind.type

namespace Abstracts

variable {db : Store} {t : Tree}

theorem eq_some (h : Abstracts db t) (kind : Kind) {p : List Str}
    (hp : kindAt db p = some kind.type) : t[p]? = some kind := by
  have ht := h p
  rw [hp] at ht
  cases hk : t[p]? with
  | none => simp [hk] at ht
  | some k => cases k <;> cases kind <;> simp_all [Kind.type, FS_FILE, FS_DIRECTORY]

theorem eq_none (h : Abstracts db t) {p : List Str} (hp : kindAt db p = none) : t[p]? = none := by
  have ht := h p
  rw [hp] at ht
  simpa using ht.symm

end Abstracts

theorem kindAt_dir {db : Store} {p : List Str} {k : Str} {j : Json}
    (hw : walk db.child rootName p = some k) (hj : db[k]? = some j) (hd : IsDir j) :
    kindAt db p = some FS_DIRECTORY := by
  simp [kindAt, hw, Store.type?, hj, Json.type?_eq_some.2 hd.type]

theorem kindAt_entry {db : Store} {p : List Str} {k c : Str}
    (hw : walk db.child rootName p = some k) :
    kindAt db (p ++ [c]) = (db.entryOf k c).bind fun e => db.type? e.1 := by
  rw [kindAt, walk_concat, hw, Option.bind_some, Store.child]
  cases db.entryOf k c <;> rfl

/-- Below what has no entries there is nothing. -/
theorem kindAt_below {db : Store} {p : List Str} {x : Str} (hw : walk db.child rootName p = some x)
    (hx : ∀ d, db.entryOf x d = none) (d : Str) (ds : List Str) :
    kindAt db (p ++ d :: ds) = none := by
  have hchild : db.child x d = none := by simp [Store.child, hx d]
  simp [kindAt, walk_append, hw, walk, hchild]

theorem kindAt_absent {db : Store} {p : List Str} (hw : walk db.child rootName p = none)
    (cs : List Str) : kindAt db (p ++ cs) = none := by
  simp [kindAt, walk_append, hw]

/-- The walk of the code, from a directory on, finds what the map has. -/
theorem resolve_abstracts {db : Store} {t : Tree} (hwf : Wf db) (h : Abstracts db t) :
    ∀ (cs : List Str) {p : List Str} {k : Str}, walk db.child rootName p = some k →
      db.type? k = some FS_DIRECTORY →
      (∀ x ty, resolve db k cs = .ok (x, ty) →
        walk db.child rootName (p ++ cs) = some x ∧ db.type? x = some ty) ∧
      ∀ e, resolve db k cs = .error e → t[p ++ cs]? = none ∧ e = t.absentErrorFrom p cs
  | [], p, k, hw, ht => by
    refine ⟨fun x ty hr => ?_, fun e he => by cases he⟩
    obtain ⟨rfl, rfl⟩ := Prod.mk.inj (Except.ok.inj hr)
    exact ⟨by simpa using hw, ht⟩
  | c :: cs, p, k, hw, ht => by
    have hp : t[p]? = some .dir := h.eq_some .dir (by simp [kindAt, hw, ht, Kind.type])
    have hpc := kindAt_entry (c := c) hw
    have happ : p ++ c :: cs = (p ++ [c]) ++ cs := by simp
    have hfrom : t.absentErrorFrom p (c :: cs) = t.absentErrorFrom (p ++ [c]) cs := by
      simp only [Tree.absentErrorFrom, Tree.firstNonDir, hp, if_true]
    have hw' : walk db.child rootName (p ++ [c]) = _ := walk_concat rootName p c
    rw [hw, Option.bind_some] at hw'
    rw [happ, hfrom]
    cases he : db.entryOf k c with
    | none =>
      have hnone : walk db.child rootName (p ++ [c]) = none := by rw [hw', Store.child, he]; rfl
      have habs : t[p ++ [c]]? = none := h.eq_none (by rw [hpc, he]; rfl)
      refine ⟨fun x ty hr => by simp [resolve, he] at hr, fun e hr => ?_⟩
      obtain rfl : ENOENT = e := by simpa [resolve, he] using hr
      refine ⟨h.eq_none (kindAt_absent hnone cs), ?_⟩
      cases cs <;> simp [Tree.absentErrorFrom, Tree.firstNonDir, habs]
    | some a =>
      obtain ⟨x, ty⟩ := a
      have hty := hwf.entry he
      rw [Store.child, he, Option.map_some] at hw'
      rw [he, Option.bind_some, hty] at hpc
      cases cs with
      | nil =>
        refine ⟨fun y s hr => ?_, fun e hr => by simp [resolve, he] at hr⟩
        obtain ⟨rfl, rfl⟩ : x = y ∧ ty = s := by simpa [resolve, he] using hr
        exact ⟨by simpa using hw', hty⟩
      | cons d ds =>
        by_cases hdir : ty = FS_DIRECTORY
        · have hr : resolve db k (c :: d :: ds) = resolve db x (d :: ds) := by
            simp [resolve, he, hdir]
          rw [hr]
          exact resolve_abstracts hwf h (d :: ds) hw' (hdir ▸ hty)
        · obtain ⟨rfl, j, d', hj, hf⟩ := hwf.isFile_of_type hty hdir
          have hr : resolve db k (c :: d :: ds) = .error ENOTDIR := by
            simp [resolve, he, hdir]
          rw [hr]
          refine ⟨fun y s hr' => (by cases hr'), fun e hr' => ?_⟩
          obtain rfl := Except.error.inj hr'
          have hfile : t[p ++ [c]]? = some .file := h.eq_some .file hpc
          refine ⟨h.eq_none (kindAt_below hw' (fun d => ?_) d ds), ?_⟩
          · simp only [Store.entryOf, hj, Option.bind_some]
            exact hf.flat.entryOf d
          · simp [Tree.absentErrorFrom, Tree.firstNonDir, hfile]

section

variable {db : Store} {t : Tree}

theorem resolve_ok (hwf : Wf db) (h : Abstracts db t) {p : List Str} {x : Str} {ty : ℤ}
    (hr : resolve db rootName p = .ok (x, ty)) :
    walk db.child rootName p = some x ∧ kindAt db p = some ty := by
  obtain ⟨hw, ht⟩ := (resolve_abstracts hwf h p (p := []) rfl hwf.root_type).1 x ty hr
  rw [List.nil_append] at hw
  exact ⟨hw, by rw [kindAt, hw]; exact ht⟩

theorem resolve_absent (hwf : Wf db) (h : Abstracts db t) {p : List Str} {e : ℤ}
    (hr : resolve db rootName p = .error e) : t[p]? = none ∧ e = t.absentError p :=
  (resolve_abstracts hwf h p (p := []) rfl hwf.root_type).2 e hr

end

theorem Abstracts.represents {fs : Fs} {t : Tree} (hwf : Wf fs.ddb) (h : Abstracts fs.ddb t) :
    Represents fs t := by
  intro path
  cases hr : resolve fs.ddb rootName (components path) with
  | error e =>
    obtain ⟨hnone, rfl⟩ := resolve_absent hwf h hr
    rw [hnone]
    exact (namei_pathConvert_error hwf hr).1
  | ok a =>
    obtain ⟨x, ty⟩ := a
    obtain ⟨name, hn⟩ := namei_pathConvert_ok hwf hr
    have hk := (resolve_ok hwf h hr).2
    rw [h] at hk
    obtain ⟨kind, hkind, rfl⟩ := Option.map_eq_some_iff.1 hk
    rw [hkind]
    exact ⟨name, x, hn⟩

namespace Abstracts

variable {db db' : Store} {t : Tree} {k c x : Str} {q : List Str} {rec : Option Json}

theorem insert (h : Abstracts db t) (hwf : Wf db) {kind : Kind}
    (he : Edited db k c x (some kind.type) rec db') (hx : Editable db k c x (some kind.type) rec)
    (hq : walk db.child rootName q = some k) : Abstracts db' (t.insert (q ++ [c]) kind) := by
  intro p
  rw [kindAt, he.kindAt hx hwf hq, getElem?_put]
  split_ifs
  · rfl
  · exact h p

theorem erase (h : Abstracts db t) (hwf : Wf db) (he : Edited db k c x none rec db')
    (hx : Editable db k c x none rec) (hq : walk db.child rootName q = some k) :
    Abstracts db' (t.erase (q ++ [c])) := by
  intro p
  rw [kindAt, he.kindAt hx hwf hq, getElem?_delete]
  split_ifs
  · rfl
  · exact h p

theorem resolveDir_error (h : Abstracts db t) (hwf : Wf db) {e : ℤ}
    (hr : resolveDir db rootName q = .error e) : t[q]? ≠ some .dir := by
  intro hdir
  unfold resolveDir at hr
  split at hr
  · rename_i y ty hy
    have hk := (resolve_ok hwf h hy).2
    rw [h, hdir] at hk
    obtain rfl := Option.some.inj hk
    exact absurd hr (by simp [Kind.type])
  · rename_i e' hy
    have hnone := (resolve_absent hwf h hy).1
    rw [hdir] at hnone
    cases hnone

theorem resolveDir_ok (h : Abstracts db t) (hwf : Wf db) (hr : resolveDir db rootName q = .ok k) :
    walk db.child rootName q = some k ∧ t[q]? = some .dir := by
  obtain ⟨hw, j, hj, hd⟩ := hwf.resolveDir_dir hwf.root_type hr
  exact ⟨hw, h.eq_some .dir (kindAt_dir hw hj hd)⟩

end Abstracts

theorem Tree.childless_iff {t : Tree} {p : List Str} :
    t.childless p = true ↔ ∀ c, t[p ++ [c]]? = none := by
  have hmem : ∀ q, q ∈ t.keys ↔ t[q]? ≠ none := fun q => by
    rw [ExtTreeMap.mem_keys, ExtTreeMap.mem_iff_isSome_getElem?, Option.isSome_iff_ne_none]
  unfold Tree.childless
  simp only [List.all_eq_true, hmem, Bool.or_eq_true, decide_eq_true_eq]
  refine ⟨fun h c => ?_, fun h q hq => ?_⟩
  · by_contra hc
    rcases h (p ++ [c]) hc with h' | h' <;> simp at h'
  · rcases List.eq_nil_or_concat q with rfl | ⟨q, c, rfl⟩
    · exact .inl rfl
    · refine .inr ?_
      rw [List.concat_eq_append] at hq ⊢
      rw [List.dropLast_concat]
      rintro rfl
      exact hq (h c)

section

variable {digest : Str → List Int8} {fs : Fs} {t : Tree}

theorem make_apply (hI : Inv fs) (h : Abstracts fs.ddb t) (kind : Kind)
    {init : Str → Str → Str → Json} {path : Str} {now : ℕ}
    (hinit : ∀ c x k, Flat (init c x k) ∧ ((kind.type = FS_DIRECTORY ∧ IsDir (init c x k)) ∨
      (kind.type = FS_FILE ∧ IsFile (init c x k) 0)))
    (hfresh : fs.ddb[calcKey digest (pathConvert path) now]? = none) :
    ∃ fs', fs.make digest init kind.type path now true
        = .ok ((t.make (components path) kind).1, fs') ∧
      Abstracts fs'.ddb (t.make (components path) kind).2 := by
  rcases Fs.make_cases digest init kind.type path now true hI.wf with
    ⟨⟨x, ty⟩, hr, hm⟩ | ⟨q, c, e, hp, hr, hm⟩ | ⟨q, c, k, j, hp, hr, hj, hd, hnone, hm⟩
  · have hk := (resolve_ok hI.wf h hr).2
    rw [h] at hk
    obtain ⟨kind', hk', -⟩ := Option.map_eq_some_iff.1 hk
    have ht : t.make (components path) kind = (-EEXIST, t) := by simp [Tree.make, hk']
    rw [ht]
    exact ⟨fs, hm, h⟩
  · obtain ⟨hnone, rfl⟩ := resolve_absent hI.wf h ((resolve_parent fs.ddb hp).1 e hr)
    have hdir := h.resolveDir_error hI.wf hr
    have ht : t.make (components path) kind = (-t.absentError (components path), t) := by
      rw [hp] at hnone ⊢
      simp [Tree.make, hnone, hdir]
    rw [ht]
    exact ⟨fs, hm, h⟩
  · obtain ⟨hw, hdir⟩ := h.resolveDir_ok hI.wf hr
    have habs : t[q ++ [c]]? = none := h.eq_none (by rw [kindAt_entry hw, hnone]; rfl)
    have ht : t.make (components path) kind = (0, t.insert (q ++ [c]) kind) := by
      rw [hp]
      simp [Tree.make, habs, hdir]
    rw [ht]
    have hc : IsName c := isName_of_mem_components (show c ∈ components path by simp [hp])
    have hed := editable_link hI.wf hj hfresh (colon_notMem_calcKey digest _ _) hc hnone
      (hinit c (calcKey digest (pathConvert path) now) k)
    exact ⟨_, hm, h.insert hI.wf (edited_link hj hd hed.ne _ _) hed hw⟩

theorem unlink_apply (hI : Inv fs) (h : Abstracts fs.ddb t) (file : Str) :
    ∃ fs', fs.unlink file true = .ok ((t.unlink (components file)).1, fs') ∧
      Abstracts fs'.ddb (t.unlink (components file)).2 := by
  rcases Fs.unlink_cases hI.wf file true with ⟨e, hr, hm⟩ | ⟨x, hr, hm⟩ |
    ⟨q, c, k, j, x, fj, hp, hr, hj, hd, he, hfj, hfile, hclosed, hopen⟩
  · obtain ⟨hnone, rfl⟩ := resolve_absent hI.wf h hr
    simp only [Tree.unlink, hnone]
    exact ⟨fs, hm, h⟩
  · have hdir : t[components file]? = some .dir :=
      h.eq_some .dir (resolve_ok hI.wf h hr).2
    simp only [Tree.unlink, hdir]
    exact ⟨fs, hm, h⟩
  · obtain ⟨hw, -⟩ := h.resolveDir_ok hI.wf hr
    have hf : t[components file]? = some .file := h.eq_some .file (by
      rw [hp, kindAt_entry hw, he]
      exact hI.wf.entry he)
    have hbelow : ∀ d, fs.ddb.entryOf x d = none := fun d => by
      simp only [Store.entryOf, hfj, Option.bind_some]
      exact hfile.flat.entryOf d
    simp only [Tree.unlink, hf]
    rw [hp]
    cases ho : fs.openFileTable[x]? with
    | none =>
      have hed := editable_unlink hI.wf he hbelow none fun h' => by cases h'
      exact ⟨_, hclosed ho, h.erase hI.wf (edited_unlink hj hd hed.ne) hed hw⟩
    | some fi =>
      obtain ⟨i, hi, -⟩ := hI.opened ho
      have hed := editable_unlink hI.wf he hbelow (some (fj.insert KW_DEL (.num 1)))
        fun h' => Option.some.inj h' ▸ hfile.setDel 1
      exact ⟨_, hopen fi i ho hi, h.erase hI.wf (edited_mark hj hd hed.ne _) hed hw⟩

theorem rmdir_apply (hI : Inv fs) (h : Abstracts fs.ddb t) {dir : Str} (hne : components dir ≠ []) :
    ∃ fs', fs.rmdir dir true = .ok ((t.rmdir (components dir)).1, fs') ∧
      Abstracts fs'.ddb (t.rmdir (components dir)).2 := by
  rcases Fs.rmdir_cases hI.wf hne true with ⟨e, hr, hm⟩ | ⟨x, ty, hr, hty, hm⟩ |
    ⟨x, d, e, hr, he, hm⟩ | ⟨q, c, k, j, x, hp, hr, hj, hd, he, hbelow, hm⟩
  · obtain ⟨hnone, rfl⟩ := resolve_absent hI.wf h hr
    simp only [Tree.rmdir, hnone]
    exact ⟨fs, hm, h⟩
  · have hk := (resolve_ok hI.wf h hr).2
    rw [h] at hk
    obtain ⟨kind, hk', rfl⟩ := Option.map_eq_some_iff.1 hk
    cases kind with
    | dir => exact absurd rfl hty
    | file =>
      simp only [Tree.rmdir, hk']
      exact ⟨fs, hm, h⟩
  · obtain ⟨hw, hk⟩ := resolve_ok hI.wf h hr
    have hdir : t[components dir]? = some .dir := h.eq_some .dir hk
    -- the entry found is a path of the map
    have hchild : t.childless (components dir) = false := by
      rw [Bool.eq_false_iff, ne_eq, Tree.childless_iff]
      intro hall
      have hkind := h (components dir ++ [d])
      rw [hall d, kindAt_entry hw, he, Option.bind_some, hI.wf.entry he] at hkind
      cases hkind
    have ht : t.rmdir (components dir) = (-ENOTEMPTY, t) := by simp [Tree.rmdir, hdir, hchild]
    rw [ht]
    exact ⟨fs, hm, h⟩
  · obtain ⟨hw, -⟩ := h.resolveDir_ok hI.wf hr
    have hwx : walk fs.ddb.child rootName (q ++ [c]) = some x :=
      walk_concat_eq_some.2 ⟨k, hw, child_eq_some.2 ⟨_, he⟩⟩
    have hdir : t[q ++ [c]]? = some .dir := h.eq_some .dir (by
      rw [kindAt_entry hw, he]
      exact hI.wf.entry he)
    have hchild : t.childless (q ++ [c]) = true :=
      Tree.childless_iff.2 fun d => h.eq_none (by rw [kindAt_entry hwx, hbelow d]; rfl)
    have ht : t.rmdir (components dir) = (0, t.erase (q ++ [c])) := by
      rw [hp]
      simp [Tree.rmdir, hdir, hchild]
    rw [ht]
    have hed := editable_unlink hI.wf he hbelow none fun h' => by cases h'
    exact ⟨_, hm, h.erase hI.wf (edited_unlink hj hd hed.ne) hed hw⟩

/-- Where the map says what a call returns, the call returns it. -/
theorem apply_exec (hI : Inv fs) (h : Abstracts fs.ddb t) {call : Call} {r : ℤ × Tree}
    (hok : call.ok = true) (hfresh : Fresh digest fs call) (hr : t.apply call.op = some r) :
    ∃ fs', fs.exec digest call = .ok (⟨r.1, none, []⟩, fs') ∧ Abstracts fs'.ddb r.2 := by
  cases hop : call.op with
  | mkdir dir =>
    simp only [Fresh, hop] at hfresh
    simp only [hop, Tree.apply, Option.some.injEq] at hr
    subst hr
    obtain ⟨fs', hm, h'⟩ := make_apply hI h .dir
      (fun c x k => ⟨flat_dirJsonInit c x k, .inl ⟨rfl, isDir_dirJsonInit c x k⟩⟩) hfresh
    exact ⟨fs', by simp only [Fs.exec, hop, hok]; exact congrArg (· >>= _) hm, h'⟩
  | create file =>
    simp only [Fresh, hop] at hfresh
    simp only [hop, Tree.apply, Option.some.injEq] at hr
    subst hr
    obtain ⟨fs', hm, h'⟩ := make_apply hI h .file
      (fun c x k => ⟨(isFile_fileJsonInit c k x).flat, .inr ⟨rfl, isFile_fileJsonInit c k x⟩⟩) hfresh
    exact ⟨fs', by simp only [Fs.exec, hop, hok]; exact congrArg (· >>= _) hm, h'⟩
  | unlink file =>
    simp only [hop, Tree.apply, Option.some.injEq] at hr
    subst hr
    obtain ⟨fs', hm, h'⟩ := unlink_apply hI h file
    exact ⟨fs', by simp only [Fs.exec, hop, hok]; exact congrArg (· >>= _) hm, h'⟩
  | rmdir dir =>
    simp only [hop, Tree.apply] at hr
    split_ifs at hr with hne
    obtain rfl := Option.some.inj hr
    obtain ⟨fs', hm, h'⟩ := rmdir_apply hI h hne
    exact ⟨fs', by simp only [Fs.exec, hop, hok]; exact congrArg (· >>= _) hm, h'⟩
  | _ => simp [hop, Tree.apply] at hr

/-- Where it does not, the call leaves the tree as it is. -/
theorem Effect.abstracts (hI : Inv fs) (h : Abstracts fs.ddb t) {call : Call} {reply : Reply}
    {fs' : Fs} (he : Effect digest fs call reply fs') (hr : t.apply call.op = none) :
    Abstracts fs'.ddb t := by
  cases he with
  | unchanged => exact h
  | linked hop => rcases hop with ⟨hop, -⟩ | ⟨hop, -⟩ <;> simp [hop, Tree.apply] at hr
  | @removed path k c x ty db hop hrs hx hent he hed =>
    rcases hop with ⟨hop, -⟩ | ⟨hop, -⟩
    · simp only [hop, Tree.apply, ite_eq_left_iff] at hr
      have hroot : components path = [] := by_contra fun hne => by cases hr hne
      rw [hroot] at hrs
      exact absurd (Prod.mk.inj (Except.ok.inj hrs)).1.symm hed.ne_root
    · simp [hop, Tree.apply] at hr
  | marked hop => simp [hop, Tree.apply] at hr
  | flagged hop => simp [hop, Tree.apply] at hr
  | opened hop hfd hrs hj hjf hO =>
    obtain ⟨fs₁, hM, rfl⟩ := hO.marked
    show Abstracts fs₁.ddb t
    rw [hM.ddb]
    exact h
  | closed => exact h
  | released => exact h
  | @purged fd f i j hop hf hp hi hcard hdel hj hfile =>
    obtain ⟨he, hx⟩ := edited_purge hI.wf hj hfile
    intro p
    show kindAt (fs.ddb.erase f.key) p = _
    rw [kindAt, he.kindAt hx hI.wf (q := []) rfl, ← h p]
    split_ifs with hp
    · rw [hp, kindAt_entry (k := rootName) rfl]
      cases hc : fs.ddb.entryOf rootName [] with
      | none => rfl
      | some e =>
        obtain ⟨_, -, -, hname, -⟩ := hI.wf.entry_dir hc
        exact absurd rfl hname.1
    · rfl
  | @wrote fd offset buf f batch hop hf hb =>
    obtain ⟨-, hchild, htype, -⟩ := hb.wf hI.wf call.ok
    intro p
    show kindAt (fs.ddb.write call.ok batch) p = _
    rw [kindAt, hchild, htype]
    exact h p

end

theorem abstracts_mkfs : Abstracts Fs.mkfs.ddb Tree.init := by
  have hchild : ∀ k c, Fs.mkfs.ddb.child k c = none := fun k c => by
    simp only [Fs.mkfs, Store.child, Store.entryOf, getElem?_put]
    split_ifs
    · rw [Option.bind_some, (flat_dirJsonInit _ _ _).entryOf c]
      rfl
    · simp
  intro p
  cases p with
  | nil =>
    simp only [Tree.init, getElem?_put, if_true]
    refine kindAt_dir rfl (j := dirJsonInit rootName rootName rootName) ?_ (isDir_dirJsonInit _ _ _)
    simp only [Fs.mkfs, getElem?_put, if_true]
  | cons c p =>
    simp only [Tree.init, getElem?_put, kindAt, walk, hchild]
    simp

/-- Every run from `mkfs` on, in which the store writes and the keys are new, is a run of the map,
with the same return values. The state it reaches has the paths of the map, and there each call of
which the map says what it returns does return that, and leaves the paths of the map's next state.
-/
theorem refines_tree {digest : Str → List Int8} {ls : List (Call × Reply)} {fs : Fs}
    (h : Transition.Runs (StepOk digest) Fs.mkfs ls fs) :
    ∃ t, Transition.Runs Tree.Step Tree.init ls t ∧ Represents fs t ∧
      ∀ call r, call.ok = true → Fresh digest fs call → t.apply call.op = some r →
        ∃ fs', fs.exec digest call = .ok (⟨r.1, none, []⟩, fs') ∧ Represents fs' r.2 := by
  obtain ⟨t, ht, hI, hA⟩ := h.simulate Tree.Step
    (fun fs t => Inv fs ∧ Abstracts fs.ddb t)
    (fun fs l fs' t ⟨hI, hA⟩ ⟨hok, hs⟩ => by
      cases hr : t.apply l.1.op with
      | none =>
        refine ⟨t, ?_, hs.inv hI, (hs.effect hI).abstracts hI hA hr⟩
        unfold Tree.Step
        rw [hr]
      | some r =>
        obtain ⟨fs₁, hm, hA'⟩ := apply_exec hI hA hok hs.1 hr
        obtain ⟨hl, rfl⟩ := Prod.mk.inj (Except.ok.inj (hm.symm.trans hs.2))
        refine ⟨r.2, ?_, hs.inv hI, hA'⟩
        unfold Tree.Step
        rw [hr, ← hl])
    ⟨inv_mkfs, abstracts_mkfs⟩
  refine ⟨t, ht, hA.represents hI.wf, fun call r hok hfresh hr => ?_⟩
  obtain ⟨fs', hm, hA'⟩ := apply_exec hI hA hok hfresh hr
  exact ⟨fs', hm, hA'.represents (Step.inv (l := (call, _)) hI ⟨hfresh, hm⟩).wf⟩

theorem refines_tree_openedA : ∃ t, Transition.Runs Tree.Step Tree.init
    [(createA, ⟨0, none, []⟩), (openA, ⟨0, some 0, []⟩)] t ∧ Represents openedA t ∧
      ∀ call r, call.ok = true → Fresh lengthDigest openedA call → t.apply call.op = some r →
        ∃ fs', openedA.exec lengthDigest call = .ok (⟨r.1, none, []⟩, fs') ∧ Represents fs' r.2 :=
  refines_tree runs_openedA

end CPPCodes.Rocksfs
