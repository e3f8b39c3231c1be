import CPPCodes.Lib.Outcome
import CPPCodes.Rocksfs.Contents

/-!
# Records that nothing leads to

A data DB may hold records of deleted files that no entry refers to and that are not open. No call
reads or writes one of them: with them and without them every call returns the same, and they stay
as they are (`Beside.exec`).
-/

namespace CPPCodes.Rocksfs

open Outcome

/-- `db` is `db₀` with the records of `dead` beside it. -/
structure DeadBeside (dead db db₀ : Store) : Prop where
  get : ∀ k : Str, db[k]? = (dead[k]?).or db₀[k]?
  absent : ∀ {k : Str} {j : Json}, dead[k]? = some j → db₀[k]? = none
  file : ∀ {k : Str} {j : Json}, dead[k]? = some j → IsFile j 1
  colon : ∀ {k : Str} {j : Json}, dead[k]? = some j → ':' ∉ k

def Update.key : Update → Str
  | .put key _ => key
  | .delete key => key

namespace DeadBeside

variable {dead db db₀ : Store} (h : DeadBeside dead db db₀)

include h

theorem same {k : Str} (hk : db₀[k]? ≠ none) : dead[k]? = none ∧ db[k]? = db₀[k]? := by
  have hdead : dead[k]? = none := Option.eq_none_iff_forall_ne_some.2 fun j hj => hk (h.absent hj)
  rw [h.get, hdead]
  exact ⟨rfl, rfl⟩

theorem same_some {k : Str} {j : Json} (hj : db₀[k]? = some j) : db[k]? = some j :=
  (h.same (hj ▸ Option.some_ne_none j)).2.trans hj

theorem same_colon {k : Str} (hk : ':' ∈ k) : db[k]? = db₀[k]? := by
  have hdead : dead[k]? = none := Option.eq_none_iff_forall_ne_some.2 fun j hj => h.colon hj hk
  rw [h.get, hdead]
  rfl

theorem cases {k : Str} {j : Json} (hj : db[k]? = some j) : dead[k]? = some j ∨ db₀[k]? = some j := by
  rw [h.get] at hj
  exact Option.or_eq_some_iff.1 hj |>.imp id And.right

theorem entryOf : db.entryOf = db₀.entryOf := by
  funext k c
  unfold Store.entryOf
  rw [h.get]
  cases hdead : dead[k]? with
  | none => rfl
  | some j =>
    rw [h.absent hdead]
    exact (h.file hdead).flat.entryOf c

theorem child : db.child = db₀.child := by
  unfold Store.child
  rw [h.entryOf]

theorem wf (hwf : Wf db₀) : Wf db where
  root := by
    obtain ⟨j, hj, hd⟩ := hwf.root
    exact ⟨j, h.same_some hj, hd⟩
  record hj hk := by
    rcases h.cases hj with hdead | hj
    · exact .inr ⟨1, h.file hdead⟩
    · exact hwf.record hj hk
  block hj hk := hwf.block ((h.same_colon hk).symm.trans hj) hk
  entry he := by
    obtain ⟨j, hj, ht⟩ := Option.bind_eq_some_iff.1 (hwf.entry (h.entryOf ▸ he))
    exact Option.bind_eq_some_iff.2 ⟨j, h.same_some hj, ht⟩
  forest := h.child.symm ▸ hwf.forest
  dir hj hd := by
    rw [h.child]
    rcases h.cases hj with hdead | hj
    · exact absurd hd (h.file hdead).not_isDir
    · exact hwf.dir hj hd
  file hj hf := by
    rw [h.child]
    rcases h.cases hj with hdead | hj
    · refine .inr ⟨hf.del_unique (h.file hdead), fun l c hc => ?_⟩
      obtain ⟨t, he⟩ := child_eq_some.1 hc
      obtain ⟨j', hj', -⟩ := Option.bind_eq_some_iff.1 (hwf.entry he)
      rw [h.absent hdead] at hj'
      cases hj'
    · exact hwf.file hj hf

theorem apply {u : Update} (hu : dead[u.key]? = none) :
    DeadBeside dead (db.apply u) (db₀.apply u) := by
  have hne : ∀ {k : Str} {j : Json}, dead[k]? = some j → k ≠ u.key := fun {k j} hdead hk =>
    absurd (hdead.symm.trans (hk ▸ hu)) (Option.some_ne_none j)
  cases u with
  | put key j =>
    refine ⟨fun k => ?_, fun {k j'} hdead => ?_, h.file, h.colon⟩
    · simp only [Store.apply, getElem?_put, h.get]
      split_ifs with hk
      · rw [hk, show dead[key]? = none from hu]
        rfl
      · rfl
    · simp only [Store.apply, getElem?_put, h.absent hdead]
      exact if_neg (hne hdead)
  | delete key =>
    refine ⟨fun k => ?_, fun {k j'} hdead => ?_, h.file, h.colon⟩
    · simp only [Store.apply, getElem?_delete, h.get]
      split_ifs with hk
      · rw [hk, show dead[key]? = none from hu]
        rfl
      · rfl
    · simp only [Store.apply, getElem?_delete, h.absent hdead, ite_self]

theorem write (ok : Bool) {batch : List Update} (hb : ∀ u ∈ batch, dead[u.key]? = none) :
    DeadBeside dead (db.write ok batch) (db₀.write ok batch) := by
  cases ok with
  | false => exact h
  | true =>
    show DeadBeside dead (batch.foldl Store.apply db) (batch.foldl Store.apply db₀)
    induction batch generalizing db db₀ with
    | nil => exact h
    | cons u batch ih =>
      exact ih (h.apply (hb u List.mem_cons_self)) fun v hv => hb v (List.mem_cons_of_mem u hv)

end DeadBeside

theorem lookup_root {db : Store} {path : Str} (hp : components path = []) :
    lookup db (pathConvert path) = .error .undefined := by
  rw [pathConvert_eq, hp]
  rfl

namespace Wf

variable {db : Store} (h : Wf db)

include h

/-- A dentry of `namei` is that of a record. -/
theorem namei_record {path : Str} {rc : ℤ} {de : Dentry}
    (hn : namei db (pathConvert path) = .ok (rc, some de)) : db[de.key]? ≠ none := by
  rw [namei_pathConvert h] at hn
  cases hr : resolve db rootName (components path) with
  | error e =>
    rw [hr] at hn
    cases (Prod.mk.inj (Except.ok.inj hn)).2
  | ok a =>
    obtain ⟨x, t⟩ := a
    rw [hr] at hn
    obtain rfl := Option.some.inj (Prod.mk.inj (Except.ok.inj hn)).2
    obtain ⟨j, hj, -⟩ := Option.bind_eq_some_iff.1 (h.resolve_type h.root_type hr)
    exact hj ▸ Option.some_ne_none j

theorem lookup_record {path : Str} {rc : ℤ} {name : Str} {pde : Dentry}
    (hl : lookup db (pathConvert path) = .ok (rc, some (name, pde))) : db[pde.key]? ≠ none := by
  rcases components_cases path with hp | ⟨q, c, hqc⟩
  · cases (lookup_root hp).symm.trans hl
  · obtain ⟨hlk, hle⟩ := lookup_pathConvert h hqc
    cases hd : resolveDir db rootName q with
    | error e =>
      cases (Prod.mk.inj (Except.ok.inj ((hle e hd).symm.trans hl))).2
    | ok k =>
      obtain ⟨pde', rfl, hl'⟩ := hlk k hd
      obtain ⟨-, rfl⟩ := Prod.mk.inj (Option.some.inj
        (Prod.mk.inj (Except.ok.inj (hl'.symm.trans hl))).2)
      obtain ⟨-, j, hj, -⟩ := h.resolveDir_dir h.root_type hd
      exact hj ▸ Option.some_ne_none j

end Wf

namespace DeadBeside

variable {dead db db₀ : Store} (h : DeadBeside dead db db₀) (hwf : Wf db₀)

include h hwf

theorem namei (path : Str) :
    Rocksfs.namei db (pathConvert path) = Rocksfs.namei db₀ (pathConvert path) := by
  rw [namei_pathConvert (h.wf hwf), namei_pathConvert hwf, resolve_congr h.entryOf]

theorem lookup (path : Str) :
    Rocksfs.lookup db (pathConvert path) = Rocksfs.lookup db₀ (pathConvert path) := by
  rcases components_cases path with hp | ⟨q, c, hqc⟩
  · rw [lookup_root hp, lookup_root hp]
  · have hn : ∀ d ∈ q ++ [c], IsName d := fun d hd => isName_of_mem_components (hqc ▸ hd)
    rw [pathConvert_eq, hqc, lookup_slashed (h.wf hwf) hn, lookup_slashed hwf hn, resolveDir,
      resolveDir, resolve_congr h.entryOf]

end DeadBeside

/-- The same tables, and records of deleted files beside the store. -/
structure Beside (dead : Store) (fs' fs : Fs) : Prop where
  ddb : DeadBeside dead fs'.ddb fs.ddb
  openFileTable : fs'.openFileTable = fs.openFileTable
  fdTable : fs'.fdTable = fs.fdTable
  impls : fs'.impls = fs.impls

/-- The same value, and states beside each other. -/
def Alike {α : Type} (dead : Store) (r' r : α × Fs) : Prop := r'.1 = r.1 ∧ Beside dead r'.2 r.2

namespace Beside

variable {dead : Store} {fs' fs : Fs}

theorem commit (h : Beside dead fs' fs) (ok : Bool) {batch : List Update}
    (hb : ∀ u ∈ batch, dead[u.key]? = none) :
    Alike dead (fs'.commit ok batch) (fs.commit ok batch) :=
  ⟨rfl, h.ddb.write ok hb, h.openFileTable, h.fdTable, h.impls⟩

/-- The batch that changes the record of a directory and one other record. -/
theorem commit_pair (h : Beside dead fs' fs) {key : Str} (hkey : fs.ddb[key]? ≠ none) (j : Json)
    (u : Update) (hu : dead[u.key]? = none) (ok : Bool) :
    Alike dead (fs'.commit ok [.put key j, u]) (fs.commit ok [.put key j, u]) := by
  refine h.commit ok fun v hv => ?_
  rcases List.mem_pair.1 hv with rfl | rfl
  · exact (h.ddb.same hkey).1
  · exact hu

theorem getOk (h : Beside dead fs' fs) {k : Str} (hk : fs.ddb[k]? ≠ none) :
    fs'.ddb.getOk k = fs.ddb.getOk k := by
  rw [Store.getOk, Store.getOk, (h.ddb.same hk).2]

theorem getParse (h : Beside dead fs' fs) {k : Str} (hk : fs.ddb[k]? ≠ none) :
    fs'.ddb.getParse k = fs.ddb.getParse k := by
  rw [Store.getParse, Store.getParse, (h.ddb.same hk).2]

theorem setImpl (h : Beside dead fs' fs) (fi : ℕ) (i : RocksfileImpl) :
    Beside dead (fs'.setImpl fi i) (fs.setImpl fi i) :=
  ⟨h.ddb, h.openFileTable, h.fdTable, congrArg (fun impls => List.set impls fi i) h.impls⟩

theorem impl (h : Beside dead fs' fs) (fi : ℕ) : fs'.impl fi = fs.impl fi := by
  rw [Fs.impl, Fs.impl, h.impls]

theorem markFileDeleted (h : Beside dead fs' fs) (key : Str) :
    Both (fun fs₁' fs₁ => Beside dead fs₁' fs₁ ∧ fs₁.ddb = fs.ddb) (fs'.markFileDeleted key)
      (fs.markFileDeleted key) := by
  unfold Fs.markFileDeleted
  rw [h.openFileTable]
  cases fs.openFileTable[key]? with
  | none => exact .error _
  | some fi =>
    simp only [h.impl]
    exact .after fun i _ => .ok ⟨h.setImpl fi i.markDeleted, rfl⟩

theorem markFileOpen (h : Beside dead fs' fs) (key : Str) (bs : ℕ) :
    Both (Alike dead) (fs'.markFileOpen key bs) (fs.markFileOpen key bs) := by
  unfold Fs.markFileOpen
  rw [h.openFileTable, h.impls]
  cases fs.openFileTable[key]? with
  | some fi => exact .ok ⟨rfl, h⟩
  | none => exact .after fun i _ => .ok ⟨rfl, h.ddb, rfl, h.fdTable, rfl⟩

/-- The end of `unlink`. -/
theorem remove (h : Beside dead fs' fs) {pkey : Str} (hkey : fs.ddb[pkey]? ≠ none) (name : Str)
    (u : Update) (hu : dead[u.key]? = none) (ok : Bool) :
    Both (Alike dead)
      (do let pdj ← fs'.ddb.getOk pkey
          check (name ∈ pdj)
          pure (fs'.commit ok [.put pkey (pdj.erase name), u]))
      (do let pdj ← fs.ddb.getOk pkey
          check (name ∈ pdj)
          pure (fs.commit ok [.put pkey (pdj.erase name), u])) := by
  rw [h.getOk hkey]
  exact .after fun pdj _ => .after fun _ _ => .ok (h.commit_pair hkey _ u hu ok)

theorem fdSet (h : Beside dead fs' fs) (fd : ℤ) (f : Rocksfile) :
    Both (Beside dead) (fs'.fdSet fd f) (fs.fdSet fd f) := by
  unfold Fs.fdSet
  rw [h.fdTable]
  exact .after fun _ _ => .ok ⟨h.ddb, h.openFileTable, rfl, h.impls⟩

theorem fdDeallocate (h : Beside dead fs' fs) (fd : ℤ) :
    Beside dead (fs'.fdDeallocate fd) (fs.fdDeallocate fd) :=
  ⟨h.ddb, h.openFileTable, congrArg (fun fds => fds.erase fd) h.fdTable, h.impls⟩

theorem markFileClosed (h : Beside dead fs' fs) (key : Str) :
    Beside dead (fs'.markFileClosed key) (fs.markFileClosed key) :=
  ⟨h.ddb, congrArg (fun files => files.erase key) h.openFileTable, h.fdTable, h.impls⟩

theorem lazyUnlink (h : Beside dead fs' fs) {key : Str} (hkey : fs.ddb[key]? ≠ none)
    (ok : Bool) :
    Both (Beside dead) (fs'.lazyUnlink key ok) (fs.lazyUnlink key ok) := by
  unfold Fs.lazyUnlink
  rw [h.getOk hkey]
  refine .after fun fj _ => .after fun del _ => .after fun _ _ => .after fun _ _ => .ok ?_
  refine ⟨h.ddb.write ok fun u hu => ?_, h.openFileTable, h.fdTable, h.impls⟩
  rw [List.mem_singleton.1 hu]
  exact (h.ddb.same hkey).1

theorem pread (h : Beside dead fs' fs) (fd : ℤ) (buf : List UInt8) (offset : ℤ) :
    fs'.pread fd buf offset = fs.pread fd buf offset := by
  have hblock : ∀ (i : RocksfileImpl) b, fs'.ddb[blockKey i.key b]? = fs.ddb[blockKey i.key b]? :=
    fun i b => h.ddb.same_colon (colon_mem_blockKey i.key b)
  unfold Fs.pread
  rw [h.fdTable]
  cases fs.fdTable[fd]? with
  | none => rfl
  | some f => simp only [h.impl, RocksfileImpl.read, readLoop_congr (hblock _)]

theorem pwrite (h : Beside dead fs' fs) (fd : ℤ) (buf : List UInt8) (offset : ℤ) (ok : Bool) :
    Both (Alike dead) (fs'.pwrite fd buf offset ok) (fs.pwrite fd buf offset ok) := by
  unfold Fs.pwrite
  rw [h.fdTable]
  cases hf : fs.fdTable[fd]? with
  | none => exact .ok ⟨rfl, h⟩
  | some f =>
    simp only [h.impl]
    refine .after fun i _ => .bind (R := fun a b => a.1 = b.1 ∧ DeadBeside dead a.2 b.2) ?_ ?_
    swap
    · rintro ⟨rc', db'⟩ ⟨rc, db⟩ ⟨hrc, hdb⟩ - -
      exact .ok ⟨hrc, hdb, h.openFileTable, rfl, h.impls⟩
    refine .after ?_
    rintro ⟨batch, copied⟩ hw
    have hdb := h.ddb.write ok fun u hu => by
      obtain ⟨b, j, rfl, -⟩ := writeLoop_blocks i _ _ _ _ hw u hu
      exact Option.eq_none_iff_forall_ne_some.2 fun j' hj' =>
        h.ddb.colon hj' (colon_mem_blockKey i.key b)
    split_ifs
    · exact .ok ⟨rfl, hdb⟩
    · exact .ok ⟨rfl, hdb⟩

variable (h : Beside dead fs' fs) (hI : Inv fs)

include h hI

theorem make {digest : Str → List Int8} {init : Str → Str → Str → Json} {t : ℤ} {path : Str}
    {now : ℕ} (ok : Bool) (hfresh : fs'.ddb[calcKey digest (pathConvert path) now]? = none) :
    Both (Alike dead) (fs'.make digest init t path now ok) (fs.make digest init t path now ok) := by
  simp only [Fs.make, h.ddb.namei hI.wf, h.ddb.lookup hI.wf]
  refine .after ?_
  rintro ⟨rc, de⟩ -
  split_ifs
  · exact .ok ⟨rfl, h⟩
  refine .after ?_
  rintro ⟨rc, - | ⟨name, pde⟩⟩ hl
  · exact .ok ⟨rfl, h⟩
  · have hkey := hI.wf.lookup_record hl
    simp only [h.getOk hkey]
    have hdead : dead[calcKey digest (pathConvert path) now]? = none := by
      rw [h.ddb.get, Option.or_eq_none_iff] at hfresh
      exact hfresh.1
    exact .after fun pj _ => .ok
      (h.commit_pair hkey _ (.put (calcKey digest (pathConvert path) now) _) hdead ok)

theorem rmdir (dir : Str) (ok : Bool) :
    Both (Alike dead) (fs'.rmdir dir ok) (fs.rmdir dir ok) := by
  simp only [Fs.rmdir, h.ddb.namei hI.wf, h.ddb.lookup hI.wf]
  split_ifs
  · exact .ok ⟨rfl, h⟩
  refine .after ?_
  rintro ⟨rc, de⟩ hn
  split_ifs
  · exact .ok ⟨rfl, h⟩
  cases de with
  | none => exact .error _
  | some de =>
    have hde := hI.wf.namei_record hn
    show Both (Alike dead) (if de.type ≠ FS_DIRECTORY then _ else _)
      (if de.type ≠ FS_DIRECTORY then _ else _)
    split_ifs
    · exact .ok ⟨rfl, h⟩
    simp only [isDirEmpty, h.getParse hde]
    refine .after fun empty _ => ?_
    split_ifs
    · exact .ok ⟨rfl, h⟩
    refine .after ?_
    rintro ⟨rc, - | ⟨name, pde⟩⟩ hl
    · exact .ok ⟨rfl, h⟩
    · have hkey := hI.wf.lookup_record hl
      simp only [h.getOk hkey]
      have hdead := (h.ddb.same hde).1
      exact .after fun j _ => .after fun _ _ => .ok
        (h.commit_pair hkey _ (.delete de.key) hdead ok)

theorem unlink (file : Str) (ok : Bool) :
    Both (Alike dead) (fs'.unlink file ok) (fs.unlink file ok) := by
  have hopen : ∀ k, fs'.isFileOpen k = fs.isFileOpen k := fun k => by
    rw [Fs.isFileOpen, Fs.isFileOpen, h.openFileTable]
  simp only [Fs.unlink, h.ddb.namei hI.wf, h.ddb.lookup hI.wf, hopen]
  refine .after ?_
  rintro ⟨rc, de⟩ hn
  by_cases hrc : rc < 0
  · rw [if_pos hrc, if_pos hrc]
    exact .ok ⟨rfl, h⟩
  rw [if_neg hrc, if_neg hrc]
  cases de with
  | none => exact .error _
  | some de =>
    have hde := hI.wf.namei_record hn
    show Both (Alike dead) (if de.type ≠ FS_FILE then _ else _)
      (if de.type ≠ FS_FILE then _ else _)
    by_cases ht : de.type ≠ FS_FILE
    · rw [if_pos ht, if_pos ht]
      exact .ok ⟨rfl, h⟩
    rw [if_neg ht, if_neg ht]
    refine .after ?_
    rintro ⟨rc, - | ⟨name, pde⟩⟩ hl
    · exact .ok ⟨rfl, h⟩
    · have hkey := hI.wf.lookup_record hl
      have hdead := (h.ddb.same hde).1
      cases fs.isFileOpen de.key with
      | true =>
        simp only [h.getParse hde, if_true]
        exact .after fun fj _ => (h.markFileDeleted de.key).bind fun fs₁' fs₁ h₁ _ _ =>
          h₁.1.remove (h₁.2 ▸ hkey) name (.put de.key _) hdead ok
      | false => exact h.remove hkey name (.delete de.key) hdead ok

theorem «open» (file : Str) : Both (fun r' r : ℤ × Option ℤ × Fs => r'.1 = r.1 ∧ r'.2.1 = r.2.1 ∧
    Beside dead r'.2.2 r.2.2) (fs'.open file) (fs.open file) := by
  simp only [Fs.open, h.ddb.namei hI.wf]
  refine .after ?_
  rintro ⟨rc, de⟩ hn
  split_ifs
  · exact .ok ⟨rfl, rfl, h⟩
  cases de with
  | none => exact .error _
  | some de =>
    have hde := hI.wf.namei_record hn
    show Both _ (if de.type ≠ FS_FILE then _ else _) (if de.type ≠ FS_FILE then _ else _)
    split_ifs
    · exact .ok ⟨rfl, rfl, h⟩
    simp only [(h.ddb.same hde).2]
    cases fs.ddb[de.key]? with
    | none => exact .ok ⟨rfl, rfl, h⟩
    | some j =>
      refine .after fun bs _ => (h.markFileOpen de.key _).bind ?_
      rintro ⟨fi', fs₁'⟩ ⟨fi, fs₁⟩ ⟨hfi, h₁⟩ - -
      obtain rfl : fi' = fi := hfi
      have halloc : fs₁'.fdAllocate = fs₁.fdAllocate := by
        rw [Fs.fdAllocate, Fs.fdAllocate, h₁.fdTable]
      simp only [halloc]
      refine .after fun fd _ => .after fun _ _ => (h₁.fdSet fd _).bind fun fs₂' fs₂ h₂ _ _ => ?_
      simp only [h₂.impl]
      exact .after fun i _ => .ok ⟨rfl, rfl, h₂.setImpl _ _⟩

theorem close (fd : ℤ) (ok : Bool) : Both (Alike dead) (fs'.close fd ok) (fs.close fd ok) := by
  unfold Fs.close
  rw [h.fdTable]
  cases hf : fs.fdTable[fd]? with
  | none => exact .ok ⟨rfl, h⟩
  | some f =>
    obtain ⟨i, -, -, -, -, j, d, hj, -⟩ := hI.opened (hI.fd hf).2.2.2
    have hkey : fs.ddb[f.key]? ≠ none := hj ▸ Option.some_ne_none j
    simp only [h.impl]
    refine .after fun _ _ => .after fun i _ => ?_
    have h₁ := h.setImpl f.fi i.close.1
    split_ifs
    · have hlast := (h₁.markFileClosed f.key).lazyUnlink hkey ok
      exact hlast.bind fun fs₂' fs₂ h₂ _ _ => .ok ⟨rfl, h₂.fdDeallocate fd⟩
    · exact .ok ⟨rfl, (h₁.markFileClosed f.key).fdDeallocate fd⟩
    · exact .ok ⟨rfl, h₁.fdDeallocate fd⟩

/-- One call: with and without the dead records it stops at the same fault, or returns the same. -/
theorem exec {digest : Str → List Int8} {call : Call} (hfresh : Fresh digest fs' call) :
    Both (Alike dead) (fs'.exec digest call) (fs.exec digest call) := by
  obtain ⟨op, now, ok⟩ := call
  let reply (r : ℤ × Fs) : Except Fault (Reply × Fs) := .ok (⟨r.1, none, []⟩, r.2)
  have hret : ∀ {x' x : Except Fault (ℤ × Fs)}, Both (Alike dead) x' x →
      Both (Alike dead) (x' >>= reply) (x >>= reply) := fun hx => hx.bind fun _ _ hr _ _ =>
    .ok ⟨congrArg (fun rc => (⟨rc, none, []⟩ : Reply)) hr.1, hr.2⟩
  cases op with
  | mkdir dir => exact hret (h.make hI ok hfresh)
  | rmdir dir => exact hret (h.rmdir hI dir ok)
  | create file => exact hret (h.make hI ok hfresh)
  | unlink file => exact hret (h.unlink hI file ok)
  | «open» file =>
    refine (h.open hI file).bind ?_
    rintro ⟨rc', fd', fs₁'⟩ ⟨rc, fd, fs₁⟩ ⟨hrc, hfd, h₁⟩ - -
    obtain rfl : rc' = rc := hrc
    obtain rfl : fd' = fd := hfd
    exact .ok ⟨rfl, h₁⟩
  | close fd => exact hret (h.close hI fd ok)
  | pwrite fd buf offset => exact hret (h.pwrite fd buf offset ok)
  | pread fd buf offset =>
    show Both (Alike dead) (fs'.pread fd buf offset >>= _) (fs.pread fd buf offset >>= _)
    rw [h.pread]
    refine .after ?_
    rintro ⟨rc, b⟩ -
    exact .ok ⟨rfl, h⟩

end Beside

end CPPCodes.Rocksfs
