import CPPCodes.Rocksfs.Edit

/-!
# What a call does to the store

One statement for each operation on paths, over a well-formed store: the errors by where the path
leads, and otherwise the batch, which is an edit of the tree. None of these calls stops at an
assert, whether the write at its end succeeds or not.
-/

namespace CPPCodes.Rocksfs

open Namespace

theorem namei_pathConvert {db : Store} (h : Wf db) (path : Str) :
    namei db (pathConvert path) = .ok (nameiResult (pathConvert path)
      ((components path).getLastD rootName) (resolve db rootName (components path))) := by
  rw [pathConvert_eq]
  exact namei_slashed h fun c hc => isName_of_mem_components hc

theorem namei_pathConvert_ok {db : Store} (h : Wf db) {path x : Str} {t : ℤ}
    (hr : resolve db rootName (components path) = .ok (x, t)) :
    ∃ name, namei db (pathConvert path) = .ok (0, some ⟨pathConvert path, name, x, t⟩) :=
  ⟨_, by rw [namei_pathConvert h, hr]; rfl⟩

theorem namei_pathConvert_error {db : Store} (h : Wf db) {path : Str} {e : ℤ}
    (hr : resolve db rootName (components path) = .error e) :
    namei db (pathConvert path) = .ok (-e, none) ∧ 0 < e := by
  refine ⟨by rw [namei_pathConvert h, hr]; rfl, ?_⟩
  rcases resolve_error hr with rfl | rfl <;> decide

/-- The key that `namei` finds for a path. -/
theorem namei_key {db : Store} (h : Wf db) {path x : Str} {t : ℤ} {de : Dentry}
    (hr : resolve db rootName (components path) = .ok (x, t))
    (hn : namei db (pathConvert path) = .ok (0, some de)) : de.key = x := by
  obtain ⟨name, hn'⟩ := namei_pathConvert_ok h hr
  simp only [hn', Except.ok.injEq, Prod.mk.injEq, Option.some.injEq, true_and] at hn
  rw [← hn]

theorem resolveDir_pos {db : Store} {k : Str} {q : List Str} {e : ℤ}
    (h : resolveDir db k q = .error e) : 0 < e := by
  unfold resolveDir at h
  split at h
  · split_ifs at h
    exact Except.error.inj h ▸ (by decide)
  · rename_i hr
    rcases resolve_error hr with rfl | rfl <;> exact Except.error.inj h ▸ (by decide)

section

variable {db : Store} {path c : Str} {q : List Str}

theorem lookup_pathConvert (h : Wf db) (hp : components path = q ++ [c]) :
    (∀ k, resolveDir db rootName q = .ok k →
      ∃ pde : Dentry, pde.key = k ∧ lookup db (pathConvert path) = .ok (0, some (c, pde))) ∧
    ∀ e, resolveDir db rootName q = .error e →
      lookup db (pathConvert path) = .ok (-e, none) := by
  have hn : ∀ d ∈ q ++ [c], IsName d := fun d hd => isName_of_mem_components (hp ▸ hd)
  rw [pathConvert_eq, hp, lookup_slashed h hn]
  exact ⟨fun k hk => ⟨_, rfl, by rw [hk]⟩, fun e he => by rw [he]⟩

/-- What the components lead to, by the parent and its entry. -/
theorem resolve_parent (db : Store) (hp : components path = q ++ [c]) :
    (∀ e, resolveDir db rootName q = .error e →
      resolve db rootName (components path) = .error e) ∧
    ∀ k, resolveDir db rootName q = .ok k →
      resolve db rootName (components path) = match db.entryOf k c with
        | none => .error ENOENT
        | some e => .ok e := by
  rw [hp, resolve_concat]
  refine ⟨fun e he => by rw [he], fun k hk => ?_⟩
  cases he : db.entryOf k c <;> simp only [hk, he]

/-- A path that leads somewhere below the root does so by an entry of its parent. -/
theorem resolve_parent_ok (hp : components path = q ++ [c]) {x : Str} {t : ℤ}
    (hr : resolve db rootName (components path) = .ok (x, t)) :
    ∃ k, resolveDir db rootName q = .ok k ∧ db.entryOf k c = some (x, t) := by
  obtain ⟨hre, hrk⟩ := resolve_parent db hp
  cases hd : resolveDir db rootName q with
  | error e => cases (hre e hd).symm.trans hr
  | ok k =>
    have hk := (hrk k hd).symm.trans hr
    split at hk
    · cases hk
    · rename_i hs
      exact ⟨k, rfl, by rw [hs, Except.ok.inj hk]⟩

/-- Where the path leads to an entry, `lookup` finds the parent, and its record has the name. -/
theorem Wf.exists_parent (h : Wf db) (hp : components path = q ++ [c]) {x : Str} {t : ℤ}
    (hr : resolve db rootName (components path) = .ok (x, t)) :
    ∃ (pde : Dentry) (j : Json), resolveDir db rootName q = .ok pde.key ∧
      lookup db (pathConvert path) = .ok (0, some (c, pde)) ∧
      db.entryOf pde.key c = some (x, t) ∧ db[pde.key]? = some j ∧ IsDir j ∧ c ∈ j := by
  obtain ⟨hlk, -⟩ := lookup_pathConvert h hp
  obtain ⟨k, hd, hent⟩ := resolve_parent_ok hp hr
  obtain ⟨pde, rfl, hl⟩ := hlk k hd
  obtain ⟨j, hj, hdj, -, hjc⟩ := h.entry_dir hent
  refine ⟨pde, j, hd, hl, hent, hj, hdj, ?_⟩
  rw [Std.ExtTreeMap.mem_iff_isSome_getElem?, hjc]
  rfl

theorem components_cases (path : Str) :
    components path = [] ∨ ∃ q c, components path = q ++ [c] := by
  rcases List.eq_nil_or_concat (components path) with h | ⟨q, c, h⟩
  · exact .inl h
  · exact .inr ⟨q, c, by rw [h, List.concat_eq_append]⟩

end

/-- The type that the walk returns is the record's own. -/
theorem Wf.resolve_type {db : Store} (h : Wf db) : ∀ {cs : List Str} {k x : Str} {t : ℤ},
    db.type? k = some FS_DIRECTORY → resolve db k cs = .ok (x, t) → db.type? x = some t
  | [], k, x, t, hk, hr => by
    obtain ⟨rfl, rfl⟩ := Prod.mk.inj (Except.ok.inj hr)
    exact hk
  | c :: cs, k, x, t, hk, hr => by
    unfold resolve at hr
    split at hr
    · cases hr
    · rename_i y s he
      have hy := h.entry he
      split_ifs at hr with hcs hs
      · obtain ⟨rfl, rfl⟩ := Prod.mk.inj (Except.ok.inj hr)
        exact hy
      · exact h.resolve_type (not_not.1 hs ▸ hy) hr

/-- The walk of the code goes where the entries lead. -/
theorem Wf.resolve_of_walk {db : Store} (h : Wf db) : ∀ {cs : List Str} {k x : Str} {t : ℤ},
    db.type? k = some FS_DIRECTORY → walk db.child k cs = some x → db.type? x = some t →
      resolve db k cs = .ok (x, t)
  | [], k, x, t, hk, hw, hx => by
    obtain rfl := Option.some.inj hw
    rw [resolve, Option.some.inj (hk.symm.trans hx)]
  | c :: cs, k, x, t, hk, hw, hx => by
    obtain ⟨y, hy, hw⟩ := Option.bind_eq_some_iff.1 hw
    obtain ⟨s, he⟩ := child_eq_some.1 hy
    have hty := h.entry he
    unfold resolve
    simp only [he]
    cases cs with
    | nil =>
      obtain rfl := Option.some.inj hw
      simp [Option.some.inj (hty.symm.trans hx)]
    | cons d ds =>
      obtain ⟨z, hz, -⟩ := Option.bind_eq_some_iff.1 hw
      obtain ⟨s', he'⟩ := child_eq_some.1 hz
      obtain ⟨j, hj, hd, -⟩ := h.entry_dir he'
      have hs : s = FS_DIRECTORY := by
        have hty' : db.type? y = some FS_DIRECTORY := by
          simp [Store.type?, hj, Json.type?_eq_some.2 hd.type]
        exact Option.some.inj (hty.symm.trans hty')
      subst hs
      simpa using h.resolve_of_walk hty hw hx

theorem resolve_congr {db db' : Store} (h : db'.entryOf = db.entryOf) :
    ∀ (k : Str) (cs : List Str), resolve db' k cs = resolve db k cs
  | _, [] => rfl
  | k, c :: cs => by
    unfold resolve
    rw [h]
    cases db.entryOf k c with
    | none => rfl
    | some e => simp only [resolve_congr h e.1 cs]

/-- The directory of a key and its record. -/
theorem Wf.resolveDir_dir {db : Store} (h : Wf db) : ∀ {q : List Str} {l k : Str},
    db.type? l = some FS_DIRECTORY → resolveDir db l q = .ok k →
      walk db.child l q = some k ∧ ∃ j, db[k]? = some j ∧ IsDir j
  | [], l, k, hl, hk => by
    have hlk : l = k := by simpa [resolveDir, resolve] using hk
    exact ⟨by simp [walk, hlk], h.isDir_of_type (hlk ▸ hl)⟩
  | c :: q, l, k, hl, hk => by
    simp only [resolveDir, resolve] at hk
    cases he : db.entryOf l c with
    | none => simp [he] at hk
    | some e =>
      obtain ⟨x, t⟩ := e
      have hchild : db.child l c = some x := child_eq_some.2 ⟨t, he⟩
      have ht : t = FS_DIRECTORY := by
        by_contra ht
        by_cases hq : q = [] <;> simp [he, ht, hq] at hk
      have hk' : resolveDir db x q = .ok k := by
        unfold resolveDir
        by_cases hq : q = []
        · subst hq
          simpa [he, ht, resolve] using hk
        · simpa [he, ht, hq] using hk
      obtain ⟨hw, hj⟩ := h.resolveDir_dir (ht ▸ h.entry he) hk'
      exact ⟨by simp [walk, hchild, hw], hj⟩

namespace Fs

variable {fs : Fs}

@[simp] theorem commit_true (fs : Fs) (batch : List Update) :
    fs.commit true batch = (0, { fs with ddb := batch.foldl Store.apply fs.ddb }) := rfl

@[simp] theorem commit_false (fs : Fs) (batch : List Update) :
    fs.commit false batch = (-EINVAL, fs) := rfl

section Make

variable (digest : Str → List Int8) (init : Str → Str → Str → Json) (type : ℤ) (path : Str)
  (now : ℕ) (ok : Bool)

theorem make_cases (h : Wf fs.ddb) :
    (∃ e, resolve fs.ddb rootName (components path) = .ok e ∧
      fs.make digest init type path now ok = .ok (-EEXIST, fs)) ∨
    (∃ q c e, components path = q ++ [c] ∧ resolveDir fs.ddb rootName q = .error e ∧
      fs.make digest init type path now ok = .ok (-e, fs)) ∨
    ∃ q c k j, components path = q ++ [c] ∧ resolveDir fs.ddb rootName q = .ok k ∧
      fs.ddb[k]? = some j ∧ IsDir j ∧ fs.ddb.entryOf k c = none ∧
      fs.make digest init type path now ok = .ok (fs.commit ok
        [.put k (j.insert c (.entry (calcKey digest (pathConvert path) now) type)),
          .put (calcKey digest (pathConvert path) now)
            (init c (calcKey digest (pathConvert path) now) k)]) := by
  cases hr : resolve fs.ddb rootName (components path) with
  | ok e =>
    obtain ⟨name, hn⟩ := namei_pathConvert_ok h hr
    exact .inl ⟨e, rfl, by simp [make, hn, bind, Except.bind, pure, Except.pure]⟩
  | error e =>
    obtain ⟨hn, he⟩ := namei_pathConvert_error h hr
    refine .inr ?_
    have hne : e ≠ 0 := by omega
    rcases components_cases path with hp | ⟨q, c, hp⟩
    · rw [hp] at hr
      cases hr
    · obtain ⟨hlk, hle⟩ := lookup_pathConvert h hp
      obtain ⟨hre, hrk⟩ := resolve_parent fs.ddb hp
      cases hd : resolveDir fs.ddb rootName q with
      | error e' =>
        refine .inl ⟨q, c, e', hp, hd, ?_⟩
        simp [make, hn, hne, hle e' hd, bind, Except.bind, pure, Except.pure]
      | ok k =>
        obtain ⟨pde, hpde, hl⟩ := hlk k hd
        obtain ⟨-, j, hj, hdir⟩ := h.resolveDir_dir h.root_type hd
        refine .inr ⟨q, c, k, j, hp, hd, hj, hdir, ?_, ?_⟩
        · cases hent : fs.ddb.entryOf k c with
          | none => rfl
          | some e' =>
            rw [hrk k hd, hent] at hr
            cases hr
        · subst hpde
          simp [make, hn, hne, hl, Store.getOk, hj, bind, Except.bind, pure, Except.pure]

end Make

theorem isDirEmpty_eq {db : Store} {x : Str} {j : Json} (hj : db[x]? = some j) (hd : IsDir j) :
    ∃ b, isDirEmpty db x = .ok b ∧ (b = true ↔ ∀ d, db.entryOf x d = none) := by
  refine ⟨j.keys.all isKeyword, by
    simp [isDirEmpty, Store.getParse, hj, bind, Except.bind, pure, Except.pure], ?_⟩
  rw [List.all_eq_true]
  refine ⟨fun h d => ?_, fun h n hn => ?_⟩
  · cases he : db.entryOf x d with
    | none => rfl
    | some e =>
      obtain ⟨y, t⟩ := e
      obtain ⟨j', hj', hv⟩ := entryOf_eq_some.1 he
      rw [hj] at hj'
      obtain rfl := Option.some.inj hj'
      have hk := h d (Std.ExtTreeMap.mem_keys.2 (by
        rw [Std.ExtTreeMap.mem_iff_isSome_getElem?, hv]; rfl))
      exact absurd (hd.keyword hv hk) (by simp [JVal.isEntry])
  · cases hk : isKeyword n with
    | true => rfl
    | false =>
      obtain ⟨v, hv⟩ := Option.isSome_iff_exists.1
        (Std.ExtTreeMap.mem_iff_isSome_getElem?.1 (Std.ExtTreeMap.mem_keys.1 hn))
      have hent := (hd.name hv hk).2
      cases v with
      | num m => exact absurd hent (by simp [JVal.isEntry])
      | str s => exact absurd hent (by simp [JVal.isEntry])
      | entry y t => exact absurd (entryOf_eq_some.2 ⟨j, hj, hv⟩) (by simp [h n])

theorem rmdir_cases (h : Wf fs.ddb) {dir : Str} (hp : components dir ≠ []) (ok : Bool) :
    (∃ e, resolve fs.ddb rootName (components dir) = .error e ∧
      fs.rmdir dir ok = .ok (-e, fs)) ∨
    (∃ x t, resolve fs.ddb rootName (components dir) = .ok (x, t) ∧ t ≠ FS_DIRECTORY ∧
      fs.rmdir dir ok = .ok (-ENOTDIR, fs)) ∨
    (∃ x d e, resolve fs.ddb rootName (components dir) = .ok (x, FS_DIRECTORY) ∧
      fs.ddb.entryOf x d = some e ∧ fs.rmdir dir ok = .ok (-ENOTEMPTY, fs)) ∨
    ∃ q c k j x, components dir = q ++ [c] ∧ resolveDir fs.ddb rootName q = .ok k ∧
      fs.ddb[k]? = some j ∧ IsDir j ∧ fs.ddb.entryOf k c = some (x, FS_DIRECTORY) ∧
      (∀ d, fs.ddb.entryOf x d = none) ∧
      fs.rmdir dir ok = .ok (fs.commit ok [.put k (j.erase c), .delete x]) := by
  have hlen : dir.length ≠ 0 := by
    intro h0
    rw [List.length_eq_zero_iff.1 h0] at hp
    exact hp rfl
  obtain ⟨q, c, hqc⟩ := (components_cases dir).resolve_left hp
  cases hr : resolve fs.ddb rootName (components dir) with
  | error e =>
    obtain ⟨hn, he⟩ := namei_pathConvert_error h hr
    exact .inl ⟨e, rfl, by simp [rmdir, hlen, hn, he, bind, Except.bind, pure, Except.pure]⟩
  | ok a =>
    obtain ⟨x, t⟩ := a
    obtain ⟨name, hn⟩ := namei_pathConvert_ok h hr
    refine .inr ?_
    by_cases ht : t = FS_DIRECTORY
    swap
    · exact .inl ⟨x, t, rfl, ht, by
        simp [rmdir, hlen, hn, initialized, ht, bind, Except.bind, pure, Except.pure]⟩
    refine .inr ?_
    subst ht
    obtain ⟨pde, j, hd, hl, hent, hj, hdj, hmem⟩ := h.exists_parent hqc hr
    obtain ⟨jx, hjx, hdx⟩ := h.isDir_of_type (h.entry hent)
    obtain ⟨b, hb, hbe⟩ := isDirEmpty_eq hjx hdx
    cases b with
    | false =>
      have hne : ∃ d, fs.ddb.entryOf x d ≠ none := by
        by_contra hno
        push Not at hno
        exact absurd (hbe.2 hno) (by simp)
      obtain ⟨d, hd'⟩ := hne
      obtain ⟨e, he⟩ := Option.ne_none_iff_exists'.1 hd'
      exact .inl ⟨x, d, e, rfl, he, by
        simp [rmdir, hlen, hn, initialized, hb, bind, Except.bind, pure, Except.pure]⟩
    | true =>
      refine .inr ⟨q, c, _, j, x, hqc, hd, hj, hdj, hent, hbe.1 rfl, ?_⟩
      simp [rmdir, hlen, hn, initialized, hb, hl, Store.getOk, hj, check, hmem, bind, Except.bind,
        pure, Except.pure]

theorem unlink_cases (h : Wf fs.ddb) (file : Str) (ok : Bool) :
    (∃ e, resolve fs.ddb rootName (components file) = .error e ∧
      fs.unlink file ok = .ok (-e, fs)) ∨
    (∃ x, resolve fs.ddb rootName (components file) = .ok (x, FS_DIRECTORY) ∧
      fs.unlink file ok = .ok (-EISDIR, fs)) ∨
    ∃ q c k j x fj, components file = q ++ [c] ∧ resolveDir fs.ddb rootName q = .ok k ∧
      fs.ddb[k]? = some j ∧ IsDir j ∧ fs.ddb.entryOf k c = some (x, FS_FILE) ∧
      fs.ddb[x]? = some fj ∧ IsFile fj 0 ∧
      (fs.openFileTable[x]? = none →
        fs.unlink file ok = .ok (fs.commit ok [.put k (j.erase c), .delete x])) ∧
      ∀ fi i, fs.openFileTable[x]? = some fi → fs.impls[fi]? = some i →
        fs.unlink file ok = .ok ((fs.setImpl fi i.markDeleted).commit ok
          [.put k (j.erase c), .put x (fj.insert KW_DEL (.num 1))]) := by
  cases hr : resolve fs.ddb rootName (components file) with
  | error e =>
    obtain ⟨hn, he⟩ := namei_pathConvert_error h hr
    exact .inl ⟨e, rfl, by simp [unlink, hn, he, bind, Except.bind, pure, Except.pure]⟩
  | ok a =>
    obtain ⟨x, t⟩ := a
    obtain ⟨name, hn⟩ := namei_pathConvert_ok h hr
    refine .inr ?_
    by_cases ht : t = FS_DIRECTORY
    · subst ht
      exact .inl ⟨x, rfl, by
        simp [unlink, hn, initialized, FS_DIRECTORY, FS_FILE, bind, Except.bind, pure, Except.pure]⟩
    rcases components_cases file with hp | ⟨q, c, hqc⟩
    · rw [hp] at hr
      exact absurd (Except.ok.inj hr) (by simp [Ne.symm ht])
    obtain ⟨pde, j, hd, hl, hent, hj, hdj, hmem⟩ := h.exists_parent hqc hr
    obtain ⟨rfl, fj, hfj, hf⟩ := h.isFile_of_entry hent ht
    refine .inr ⟨q, c, _, j, x, fj, hqc, hd, hj, hdj, hent, hfj, hf, fun ho => ?_,
      fun fi i ho hi => ?_⟩
    · have hopen : fs.isFileOpen x = false := by
        rw [isFileOpen, Std.ExtTreeMap.contains_eq_isSome_getElem?, ho]
        rfl
      simp only [unlink, hn, initialized, hl, hopen, Store.getOk, hj, check, hmem, bind,
        Except.bind, pure, Except.pure, ne_eq, not_true_eq_false, lt_self_iff_false, if_false,
        if_true, Bool.false_eq_true]
    · have hopen : fs.isFileOpen x = true := by
        rw [isFileOpen, Std.ExtTreeMap.contains_eq_isSome_getElem?, ho]
        rfl
      have hmark : fs.markFileDeleted x = .ok (fs.setImpl fi i.markDeleted) := by
        simp only [markFileDeleted, ho, impl, hi]
        rfl
      simp only [unlink, hn, initialized, hl, hopen, Store.getParse, hfj, hmark, setImpl, Store.getOk,
        hj, check, hmem, bind, Except.bind, pure, Except.pure, ne_eq, not_true_eq_false,
        lt_self_iff_false, if_false, if_true]

end Fs

end CPPCodes.Rocksfs
