import CPPCodes.Lib.Transition
import CPPCodes.Rocksfs.Effect

/-!
# The store of every reachable state

What the invariant says about the records by themselves, whatever is called and whether the store
writes or not, and that so the walk never stops at the assert behind the `Get` of a directory.
-/

namespace CPPCodes.Rocksfs

open Namespace Transition

/-- The records of a store with some files open. -/
structure Consistent (fs : Fs) : Prop where
  /-- An entry refers to a record of its own type. -/
  entry : ∀ {k n x : Str} {j : Json} {t : ℤ}, fs.ddb[k]? = some j → j[n]? = some (.entry x t) →
    ∃ jx, fs.ddb[x]? = some jx ∧ jx[KW_TYPE]? = some (.num t)
  /-- A record of a file or directory has one entry, or it is that of a deleted file, still open. -/
  referenced : ∀ {x : Str} {j : Json} {t : ℤ}, fs.ddb[x]? = some j → j[KW_TYPE]? = some (.num t) →
    x ≠ rootName → (∃! kc : Str × Str, fs.ddb.child kc.1 kc.2 = some x) ∨
      (t = FS_FILE ∧ j[KW_DEL]? = some (.num 1) ∧ (fs.descriptors x).Nonempty ∧
        ∀ k c, fs.ddb.child k c ≠ some x)
  /-- A directory is at the end of a path from the root. -/
  reached : ∀ {x : Str} {j : Json}, fs.ddb[x]? = some j → j[KW_TYPE]? = some (.num FS_DIRECTORY) →
    ∃! p, walk fs.ddb.child rootName p = some x
  /-- No entry has the name of a reserved field. -/
  reserved : ∀ {k n x : Str} {j : Json} {t : ℤ}, fs.ddb[k]? = some j → j[n]? = some (.entry x t) →
    isKeyword n = false

theorem Inv.consistent {fs : Fs} (h : Inv fs) : Consistent fs := by
  have hkind : ∀ {x : Str} {j : Json} {t : ℤ}, fs.ddb[x]? = some j → j[KW_TYPE]? = some (.num t) →
      IsDir j ∨ ∃ d, IsFile j d := fun {x j t} hj ht =>
    h.wf.record hj (h.wf.not_mem_colon (t := t) (by simp [Store.type?, hj, Json.type?_eq_some.2 ht]))
  refine ⟨fun hj hn => ?_, fun {x j t} hj ht hx => ?_, fun {x j} hj ht => ?_, fun hj hn => ?_⟩
  · obtain ⟨jx, hjx, htx⟩ := Option.bind_eq_some_iff.1 (h.wf.entry (entryOf_eq_some.2 ⟨_, hj, hn⟩))
    exact ⟨jx, hjx, Json.type?_eq_some.1 htx⟩
  · have hone : ∀ {k c}, fs.ddb.child k c = some x →
        ∃! kc : Str × Str, fs.ddb.child kc.1 kc.2 = some x := fun {k c} hc =>
      ⟨(k, c), hc, by
        rintro ⟨l, d⟩ hd
        obtain ⟨rfl, rfl⟩ := h.wf.forest.parent hd hc
        rfl⟩
    rcases hkind hj ht with hd | ⟨d, hf⟩
    · -- a directory other than the root is below one
      obtain ⟨p, hp⟩ := h.wf.dir hj hd
      rcases List.eq_nil_or_concat p with rfl | ⟨p, c, rfl⟩
      · exact absurd (Option.some.inj hp).symm hx
      · rw [List.concat_eq_append] at hp
        obtain ⟨k, -, hk⟩ := walk_concat_eq_some.1 hp
        exact .inl (hone hk)
    · rcases h.wf.file hj hf with ⟨-, k, c, hc⟩ | ⟨rfl, hno⟩
      · exact .inl (hone hc)
      · refine .inr ⟨?_, hf.del, (h.table x).1 (h.deleted hj hf), hno⟩
        simpa using ht.symm.trans hf.type
  · rcases hkind hj ht with hd | ⟨d, hf⟩
    · obtain ⟨p, hp⟩ := h.wf.dir hj hd
      exact ⟨p, hp, fun q hq => walk_inj h.wf.forest hq hp⟩
    · exact absurd (hf.type.symm.trans ht) (by simp [FS_FILE, FS_DIRECTORY])
  · obtain ⟨_, -, -, hc, -⟩ := h.wf.entry_dir (entryOf_eq_some.2 ⟨_, hj, hn⟩)
    exact hc.not_keyword

/-! ## No assert behind a `Get` -/

/-- The loop of `namei`, from a directory's record on. -/
theorem nameiLoop_ne_assertion {db : Store} (h : Wf db) (path : Str) :
    ∀ (lines : List (Str × Bool)) {k : Str} {j : Json}, db[k]? = some j → IsDir j →
      nameiLoop db path (some j) lines ≠ .error .assertion
  | [], k, j, _, _ => by simp [nameiLoop]
  | ([], _) :: lines, k, j, hj, hd => by
    rw [nameiLoop]
    exact nameiLoop_ne_assertion h path lines hj hd
  | (a :: c, eof) :: lines, k, j, hj, hd => by
    rw [nameiLoop]
    · cases hv : j[a :: c]? with
      | none =>
        rw [dirLookup_none hd hv]
        simp [bind, Except.bind, pure, Except.pure]
      | some v =>
        rw [dirLookup_some hd hv]
        cases v with
        | num n => simp [JVal.fields, bind, Except.bind]
        | str s => simp [JVal.fields, bind, Except.bind]
        | entry x t =>
          by_cases ht : t = FS_DIRECTORY
          · obtain ⟨jx, hjx, hdx⟩ := h.isDir_of_type
              (ht ▸ h.entry (entryOf_eq_some.2 ⟨j, hj, hv⟩))
            have ih := nameiLoop_ne_assertion h path lines hjx hdx
            cases eof with
            | true => simp [JVal.fields, bind, Except.bind, pure, Except.pure]
            | false => simpa [JVal.fields, bind, Except.bind, ht, Store.getOk, hjx] using ih
          · cases eof <;> simp [JVal.fields, bind, Except.bind, pure, Except.pure, ht]
    · simp

theorem nameiLoop_root_ne_assertion {db : Store} (h : Wf db) (path : Str) :
    ∀ lines : List (Str × Bool), nameiLoop db path none lines ≠ .error .assertion
  | [] => by simp [nameiLoop]
  | ([], _) :: lines => by
    rw [nameiLoop]
    exact nameiLoop_root_ne_assertion h path lines
  | (a :: c, eof) :: lines => by
    obtain ⟨j, hj, hd, hname⟩ := h.root
    have hnum : j.num KW_TYPE = .ok FS_DIRECTORY := by simp [Json.num, hd.type]
    have hloop := nameiLoop_ne_assertion h path lines hj hd
    rw [nameiLoop]
    · by_cases hc : a :: c = rootName
      · rw [hc]
        cases eof with
        | true => simp [Store.getOk, hj, hnum, hname, check, bind, Except.bind, pure, Except.pure]
        | false => simpa [Store.getOk, hj, hnum, hname, check, bind, Except.bind] using hloop
      · simp [hc]
    · simp

theorem namei_ne_assertion {db : Store} (h : Wf db) (path : Str) :
    namei db path ≠ .error .assertion :=
  nameiLoop_root_ne_assertion h path _

/-- From `mkfs` on every state is consistent, whether the store writes or not, and no call on paths
stops at an assert in it. -/
theorem reachable_consistent {digest : Str → List Int8} {fs : Fs}
    (h : Reach (Step digest) Fs.mkfs fs) :
    Consistent fs ∧ (∀ path, namei fs.ddb path ≠ .error .assertion) ∧
      (∀ dir now ok, fs.mkdir digest dir now ok ≠ .error .assertion) ∧
      (∀ file now ok, fs.create digest file now ok ≠ .error .assertion) ∧
      (∀ dir ok, fs.rmdir dir ok ≠ .error .assertion) ∧
      ∀ file ok, fs.unlink file ok ≠ .error .assertion := by
  have hI : Inv fs := reach_inv h
  have hmake : ∀ init type path now ok, fs.make digest init type path now ok ≠ .error .assertion := by
    intro init type path now ok hm
    rcases Fs.make_cases digest init type path now ok hI.wf with
      ⟨_, -, h'⟩ | ⟨_, _, _, -, -, h'⟩ | ⟨_, _, _, _, -, -, -, -, -, h'⟩ <;>
      cases h'.symm.trans hm
  refine ⟨hI.consistent, namei_ne_assertion hI.wf, fun dir now ok => hmake _ _ dir now ok,
    fun file now ok => hmake _ _ file now ok, fun dir ok hm => ?_, fun file ok hm => ?_⟩
  · by_cases hp : components dir = []
    · rcases rmdir_root hI.wf hp with ⟨_, -, h'⟩ | h' <;> cases (h' ok).symm.trans hm
    · rcases Fs.rmdir_cases hI.wf hp ok with ⟨_, -, h'⟩ | ⟨_, _, -, -, h'⟩ | ⟨_, _, _, -, -, h'⟩ |
        ⟨_, _, _, _, _, -, -, -, -, -, -, h'⟩ <;> cases h'.symm.trans hm
  · obtain ⟨_, _, h', -⟩ := unlink_effect digest ⟨.unlink file, 0, ok⟩ hI rfl
    cases h'.symm.trans hm

theorem reachable_consistent_openedA :
    Consistent openedA ∧ ∀ path, namei openedA.ddb path ≠ .error .assertion := by
  obtain ⟨h, hn, -⟩ := reachable_consistent reach_openedA
  exact ⟨h, hn⟩

end CPPCodes.Rocksfs
