import CPPCodes.Rocksfs.Leaks
import CPPCodes.Rocksfs.Consistent
import CPPCodes.Rocksfs.Lifetime
import CPPCodes.Rocksfs.Listing

/-!
# One process after the other

The constructor finds the data DB of an earlier process, or makes a root. Of a process that has
ended, in whatever way, the records are left: the paths and the contents of the files stay
(`restarts_refine_tree`, `restarts_keep_contents`), and so do the records of the files that were
deleted while they were open, which no process removes any more (`leaks`).
-/

namespace CPPCodes.Rocksfs

open Outcome Transition

/-- `mkfs`: what it returns, and the data DB after it. -/
def Store.mkfs (ddb : Store) (ok : Bool) : ℤ × Store :=
  if ok then (0, ddb.insert rootName (dirJsonInit rootName rootName rootName)) else (-1, ddb)

/-- The constructor, with a data DB that opens. Where `mkfs` fails the object is left without one. -/
def Fs.rocksfs (ddb : Store) (ok : Bool) : Except Fault (Option Fs) :=
  let opened (ddb : Store) : Except Fault (Option Fs) := do
    check (ddb[rootName]? ≠ none)
    return some { ddb, openFileTable := ∅, fdTable := ∅, impls := [] }
  if ddb[rootName]? = none then
    let (rc, ddb) := ddb.mkfs ok
    if rc < 0 then .ok none else opened ddb
  else opened ddb

/-- On an empty data DB it makes the first state. -/
theorem rocksfs_empty : Fs.rocksfs ∅ true = .ok (some Fs.mkfs) := rfl

inductive Event
  | call (call : Call) (reply : Reply)
  | restart (ok : Bool)

/-- A call that returns, or a process that ends and the next one. A process may end within a call:
one that does not return has written nothing, and one that stops behind its write is a call and a
restart. -/
def EventStep (digest : Str → List Int8) (fs : Fs) : Event → Fs → Prop
  | .call call reply, fs' => Step digest fs (call, reply) fs'
  | .restart ok, fs' => Fs.rocksfs fs.ddb ok = .ok (some fs')

/-- The calls of a run. -/
def calls (es : List Event) : List (Call × Reply) :=
  es.filterMap fun e => match e with
    | .call call reply => some (call, reply)
    | .restart _ => none

def isOrphan (j : Json) : Bool :=
  j[KW_TYPE]? = some (.num FS_FILE) ∧ j[KW_DEL]? = some (.num 1)

/-- The records of deleted files. -/
def orphans (db : Store) : Store := db.filter fun _ j => isOrphan j

def live (db : Store) : Store := db.filter fun _ j => !isOrphan j

theorem getElem?_orphans {db : Store} {k : Str} {j : Json} :
    (orphans db)[k]? = some j ↔ db[k]? = some j ∧ isOrphan j = true := by
  rw [orphans, Std.ExtTreeMap.getElem?_filter', Option.filter_eq_some_iff]

theorem getElem?_live {db : Store} {k : Str} {j : Json} :
    (live db)[k]? = some j ↔ db[k]? = some j ∧ isOrphan j = false := by
  rw [live, Std.ExtTreeMap.getElem?_filter', Option.filter_eq_some_iff, Bool.not_eq_true']

namespace Wf

variable {db : Store} (h : Wf db)

include h

theorem isOrphan_iff {k : Str} {j : Json} (hj : db[k]? = some j) : isOrphan j = true ↔ IsFile j 1 := by
  unfold isOrphan
  rw [decide_eq_true_eq]
  refine ⟨fun ⟨ht, hd⟩ => ?_, fun hf => ⟨hf.type, hf.del⟩⟩
  have htype : db.type? k = some FS_FILE := Option.bind_eq_some_iff.2 ⟨j, hj, Json.type?_eq_some.2 ht⟩
  obtain ⟨-, j', d, hj', hf⟩ := h.isFile_of_type htype (by decide)
  obtain rfl := Option.some.inj (hj.symm.trans hj')
  obtain rfl : d = 1 := by simpa using hf.del.symm.trans hd
  exact hf

/-- Without the records of deleted files the tables can be empty. -/
theorem deadBeside : DeadBeside (orphans db) db (live db) where
  get k := by
    cases hk : db[k]? with
    | none =>
      have h1 : (orphans db)[k]? = none := Option.eq_none_iff_forall_ne_some.2 fun j hj =>
        absurd (hk.symm.trans (getElem?_orphans.1 hj).1) nofun
      have h2 : (live db)[k]? = none := Option.eq_none_iff_forall_ne_some.2 fun j hj =>
        absurd (hk.symm.trans (getElem?_live.1 hj).1) nofun
      rw [h1, h2]
      rfl
    | some j =>
      cases ho : isOrphan j with
      | true => rw [getElem?_orphans.2 ⟨hk, ho⟩, Option.some_or]
      | false =>
        have h1 : (orphans db)[k]? = none := Option.eq_none_iff_forall_ne_some.2 fun j' hj' => by
          obtain ⟨hj', ho'⟩ := getElem?_orphans.1 hj'
          obtain rfl := Option.some.inj (hk.symm.trans hj')
          exact absurd (ho.symm.trans ho') nofun
        rw [h1, getElem?_live.2 ⟨hk, ho⟩]
        rfl
  absent {k j} hj := by
    obtain ⟨hj, ho⟩ := getElem?_orphans.1 hj
    refine Option.eq_none_iff_forall_ne_some.2 fun j' hj' => ?_
    obtain ⟨hj', ho'⟩ := getElem?_live.1 hj'
    obtain rfl := Option.some.inj (hj.symm.trans hj')
    exact absurd (ho.symm.trans ho') nofun
  file hj := (h.isOrphan_iff (getElem?_orphans.1 hj).1).1 (getElem?_orphans.1 hj).2
  colon hj := h.file_colon (getElem?_orphans.1 hj).1
    ((h.isOrphan_iff (getElem?_orphans.1 hj).1).1 (getElem?_orphans.1 hj).2)

theorem live_of_isDir {k : Str} {j : Json} (hj : db[k]? = some j) (hd : IsDir j) :
    (live db)[k]? = some j := by
  refine getElem?_live.2 ⟨hj, Bool.eq_false_iff.2 fun ho => ?_⟩
  exact ((h.isOrphan_iff hj).1 ho).not_isDir hd

/-- What an entry refers to is not left behind. -/
theorem live_of_child {k c x : Str} {j : Json} (hc : db.child k c = some x) (hj : db[x]? = some j) :
    (live db)[x]? = some j := by
  refine getElem?_live.2 ⟨hj, Bool.eq_false_iff.2 fun ho => ?_⟩
  rcases h.file hj ((h.isOrphan_iff hj).1 ho) with ⟨h0, -⟩ | ⟨-, hno⟩
  · exact absurd h0 (by decide)
  · exact hno k c hc

theorem not_isFile_live {k : Str} {j : Json} (hj : (live db)[k]? = some j) : ¬ IsFile j 1 := by
  obtain ⟨hj, ho⟩ := getElem?_live.1 hj
  exact fun hf => absurd (ho.symm.trans ((h.isOrphan_iff hj).2 hf)) nofun

theorem live_wf : Wf (live db) where
  root := by
    obtain ⟨j, hj, hd, hname⟩ := h.root
    exact ⟨j, h.live_of_isDir hj hd, hd, hname⟩
  record hj hk := h.record (getElem?_live.1 hj).1 hk
  block hj hk := h.block (getElem?_live.1 hj).1 hk
  entry he := by
    rw [← h.deadBeside.entryOf] at he
    obtain ⟨j, hj, ht⟩ := Option.bind_eq_some_iff.1 (h.entry he)
    exact Option.bind_eq_some_iff.2 ⟨j, h.live_of_child (child_eq_some.2 ⟨_, he⟩) hj, ht⟩
  forest := h.deadBeside.child ▸ h.forest
  dir hj hd := h.deadBeside.child ▸ h.dir (getElem?_live.1 hj).1 hd
  file hj hf := by
    rcases h.file (getElem?_live.1 hj).1 hf with hlinked | ⟨rfl, -⟩
    · exact .inl (h.deadBeside.child ▸ hlinked)
    · exact absurd hf (h.not_isFile_live hj)

theorem live_inv :
    Inv { ddb := live db, openFileTable := ∅, fdTable := ∅, impls := [] } where
  wf := h.live_wf
  fd hf := by simp at hf
  opened hp := by simp at hp
  deleted hj hf := absurd hf (h.not_isFile_live hj)

end Wf

/-- The state is that of a file system in which the invariant holds, and dead records beside it. -/
def Survives (dead : Store) (fs fs₀ : Fs) : Prop := Inv fs₀ ∧ Beside dead fs fs₀

theorem survives_mkfs : Survives ∅ Fs.mkfs Fs.mkfs :=
  ⟨inv_mkfs, ⟨fun k => by simp, fun h => by simp at h, fun h => by simp at h, fun h => by simp at h⟩,
    rfl, rfl, rfl⟩

/-- After a restart. -/
def Fs.restarted (fs : Fs) : Fs := { fs with openFileTable := ∅, fdTable := ∅, impls := [] }

section

variable {digest : Str → List Int8} {dead : Store} {fs fs₀ fs' : Fs}

theorem Survives.wf (h : Survives dead fs fs₀) : Wf fs.ddb := h.2.ddb.wf h.1.wf

/-- The constructor finds the root. -/
theorem Survives.rocksfs (h : Survives dead fs fs₀) (ok : Bool) :
    Fs.rocksfs fs.ddb ok = .ok (some fs.restarted) := by
  obtain ⟨j, hj, -⟩ := h.wf.root
  have hroot : fs.ddb[rootName]? ≠ none := hj ▸ Option.some_ne_none j
  simp only [Fs.rocksfs, hroot, check, if_false, not_false_eq_true, ne_eq, if_true]
  rfl

/-- What is left behind is what the next process has beside it. -/
theorem Survives.restart (h : Survives dead fs fs₀) :
    Survives (orphans fs.ddb) fs.restarted { fs₀.restarted with ddb := live fs.ddb } :=
  ⟨h.wf.live_inv, h.wf.deadBeside, rfl, rfl, rfl⟩

theorem Fresh.beside {call : Call} (h : Beside dead fs fs₀) (hfresh : Fresh digest fs call) :
    Fresh digest fs₀ call := by
  obtain ⟨op, now, ok⟩ := call
  cases op with
  | mkdir | create => exact (Option.or_eq_none_iff.1 ((h.ddb.get _).symm.trans hfresh)).2
  | _ => trivial

/-- A call is one of the other file system as well. -/
theorem Survives.step (h : Survives dead fs fs₀) {l : Call × Reply} (hs : Step digest fs l fs') :
    ∃ fs₀', Step digest fs₀ l fs₀' ∧ Survives dead fs' fs₀' := by
  obtain ⟨hfresh, hexec⟩ := hs
  obtain ⟨⟨reply, fs₀'⟩, hexec₀, hreply, hbeside⟩ := (h.2.exec h.1 hfresh).of_ok_left hexec
  obtain rfl : l.2 = reply := hreply
  have hs₀ : Step digest fs₀ l fs₀' := ⟨hfresh.beside h.2, hexec₀⟩
  exact ⟨fs₀', hs₀, hs₀.inv h.1, hbeside⟩

theorem Survives.represents (h : Survives dead fs fs₀) {t : Tree} (ht : Represents fs₀ t) :
    Represents fs t := by
  intro path
  rw [h.2.ddb.namei h.1.wf]
  exact ht path

theorem DeadBeside.kindAt {db db₀ : Store} (h : DeadBeside dead db db₀) (hwf : Wf db₀)
    (p : List Str) : kindAt db p = kindAt db₀ p := by
  unfold Rocksfs.kindAt
  rw [h.child]
  cases hw : Namespace.walk db₀.child rootName p with
  | none => rfl
  | some k =>
    have hrecord : ∃ j, db₀[k]? = some j := by
      rcases List.eq_nil_or_concat p with rfl | ⟨q, c, rfl⟩
      · obtain ⟨j, hj, -⟩ := hwf.root
        exact ⟨j, Option.some.inj hw ▸ hj⟩
      · rw [List.concat_eq_append, Namespace.walk_concat_eq_some] at hw
        obtain ⟨l, -, hc⟩ := hw
        obtain ⟨t, he⟩ := child_eq_some.1 hc
        obtain ⟨j, hj, -⟩ := Option.bind_eq_some_iff.1 (hwf.entry he)
        exact ⟨j, hj⟩
    obtain ⟨j, hj⟩ := hrecord
    rw [Option.bind_some, Option.bind_some, Store.type?, Store.type?, hj, h.same_some hj]

theorem DeadBeside.abstracts {db db₀ : Store} (h : DeadBeside dead db db₀) (hwf : Wf db₀) {t : Tree} :
    Abstracts db t ↔ Abstracts db₀ t := by
  unfold Abstracts
  simp only [h.kindAt hwf]

theorem survives_of_runs {es : List Event} (h : Runs (EventStep digest) Fs.mkfs es fs) :
    ∃ dead fs₀, Survives dead fs fs₀ ∧ Abstracts fs₀.ddb (created (calls es)) := by
  induction h with
  | nil => exact ⟨∅, Fs.mkfs, survives_mkfs, abstracts_mkfs⟩
  | @snoc fs fs' es e _ hs ih =>
    obtain ⟨dead, fs₀, h, hA⟩ := ih
    cases e with
    | call call reply =>
      obtain ⟨fs₀', hs₀, h'⟩ := h.step hs
      refine ⟨dead, fs₀', h', ?_⟩
      have hcalls : calls (es ++ [.call call reply]) = calls es ++ [(call, reply)] :=
        List.filterMap_append
      rw [hcalls, created, List.foldl_append]
      exact hs₀.abstracts h.1 hA
    | restart ok =>
      have hcalls : calls (es ++ [.restart ok]) = calls es :=
        List.filterMap_append.trans (List.append_nil _)
      obtain rfl : fs.restarted = fs' :=
        Option.some.inj (Except.ok.inj ((h.rocksfs ok).symm.trans hs))
      rw [hcalls]
      exact ⟨_, _, h.restart, (h.wf.deadBeside.abstracts h.wf.live_wf).1
        ((h.2.ddb.abstracts h.1.wf).2 hA)⟩

/-- In every run of calls and restarts from the first construction on, whether the store writes or
not, the constructor succeeds, and what the calls of all processes have created and not removed is
there: `namei` resolves these paths and no others, and each call returns what the map says. -/
theorem restarts_refine_tree {es : List Event} (h : Runs (EventStep digest) Fs.mkfs es fs) :
    (∀ ok, Fs.rocksfs fs.ddb ok = .ok (some fs.restarted)) ∧ Represents fs (created (calls es)) ∧
    ∀ call r, call.ok = true → Fresh digest fs call →
      (created (calls es)).apply call.op = some r →
        ∃ fs', fs.exec digest call = .ok (⟨r.1, none, []⟩, fs') ∧ Represents fs' r.2 := by
  obtain ⟨dead, fs₀, hS, hA⟩ := survives_of_runs h
  refine ⟨hS.rocksfs, hS.represents (hA.represents hS.1.wf), fun call r hok hfresh hr => ?_⟩
  obtain ⟨fs₀', hexec, hA'⟩ := apply_exec hS.1 hA hok (hfresh.beside hS.2) hr
  have hs₀ : Step digest fs₀ (call, ⟨r.1, none, []⟩) fs₀' := ⟨hfresh.beside hS.2, hexec⟩
  obtain ⟨⟨reply, fs'⟩, hexec', rfl, hbeside⟩ := (hS.2.exec hS.1 hfresh).of_ok hexec
  have hS' : Survives dead fs' fs₀' := ⟨hs₀.inv hS.1, hbeside⟩
  exact ⟨fs', hexec', hS'.represents (hA'.represents hS'.1.wf)⟩

end

theorem step_deletedA : EventStep lengthDigest openedA (.call unlinkA ⟨0, none, []⟩) deletedA :=
  show Step lengthDigest openedA (unlinkA, _) deletedA from step_next trivial rfl

def eventsA : List Event :=
  [.call createA ⟨0, none, []⟩, .call openA ⟨0, some 0, []⟩, .call unlinkA ⟨0, none, []⟩,
    .restart true]

theorem step_createA : EventStep lengthDigest Fs.mkfs (.call createA ⟨0, none, []⟩)
    (Fs.mkfs.next lengthDigest createA) :=
  show Step lengthDigest Fs.mkfs (createA, _) _ from step_next rfl rfl

theorem step_openA : EventStep lengthDigest (Fs.mkfs.next lengthDigest createA)
    (.call openA ⟨0, some 0, []⟩) openedA :=
  show Step lengthDigest _ (openA, _) _ from step_next trivial rfl

theorem step_restartA : EventStep lengthDigest deletedA (.restart true) deletedA.restarted :=
  show Fs.rocksfs deletedA.ddb true = .ok (some deletedA.restarted) from rfl

theorem runs_restartedA : Runs (EventStep lengthDigest) Fs.mkfs eventsA deletedA.restarted :=
  ((((Runs.nil Fs.mkfs).snoc step_createA).snoc step_openA).snoc step_deletedA).snoc step_restartA

theorem restarts_refine_tree_restartedA : Represents deletedA.restarted (created (calls eventsA)) :=
  (restarts_refine_tree runs_restartedA).2.1

/-- An event, with the dead records that the process finds. -/
def DeadStep (digest : Str → List Int8) (s : Fs × Store) (e : Event) (s' : Fs × Store) : Prop :=
  EventStep digest s.1 e s'.1 ∧ s'.2 = match e with
    | .call _ _ => s.2
    | .restart _ => orphans s.1.ddb

/-- The dead records of a state: no process removes them, and no call depends on them. -/
structure Dead (digest : Str → List Int8) (fs : Fs) (dead : Store) : Prop where
  /-- They are the records of the deleted files that are not open. -/
  iff : ∀ k j, dead[k]? = some j ↔
    fs.ddb[k]? = some j ∧ Orphan fs k ∧ fs.descriptors k = ∅
  unreferenced : ∀ {k : Str} {j : Json}, dead[k]? = some j → ∀ d c, fs.ddb.child d c ≠ some k
  /-- They stay as they are. -/
  forever : ∀ {es : List Event} {s' : Fs × Store}, Runs (DeadStep digest) (fs, dead) es s' →
    ∀ {k : Str} {j : Json}, dead[k]? = some j → s'.2[k]? = some j ∧ s'.1.ddb[k]? = some j
  /-- The other records are those of a file system in which every call does the same. -/
  alike : ∃ fs₀, Consistent fs₀ ∧ Beside dead fs fs₀ ∧ ∀ call, Fresh digest fs call →
    Both (Alike dead) (fs.exec digest call) (fs₀.exec digest call)

section

variable {digest : Str → List Int8} {dead : Store} {fs fs₀ : Fs}

theorem Survives.dead_step (h : Survives dead fs fs₀) {e : Event} {s' : Fs × Store}
    (hs : DeadStep digest (fs, dead) e s') : (∃ fs₀', Survives s'.2 s'.1 fs₀') ∧
      ∀ {k : Str} {j : Json}, dead[k]? = some j → s'.2[k]? = some j := by
  obtain ⟨fs', dead'⟩ := s'
  obtain ⟨hs, hdead⟩ := hs
  cases e with
  | call call reply =>
    obtain rfl : dead' = dead := hdead
    obtain ⟨fs₀', -, h'⟩ := h.step hs
    exact ⟨⟨fs₀', h'⟩, id⟩
  | restart ok =>
    obtain rfl : dead' = orphans fs.ddb := hdead
    obtain rfl : fs.restarted = fs' :=
      Option.some.inj (Except.ok.inj ((h.rocksfs ok).symm.trans hs))
    refine ⟨⟨_, h.restart⟩, fun {k j} hj => ?_⟩
    have hj' : fs.ddb[k]? = some j := by
      rw [h.2.ddb.get, hj]
      rfl
    exact getElem?_orphans.2 ⟨hj', (h.wf.isOrphan_iff hj').2 (h.2.ddb.file hj)⟩

theorem Survives.dead_runs (h : Survives dead fs fs₀) {es : List Event} {s' : Fs × Store}
    (hr : Runs (DeadStep digest) (fs, dead) es s') : (∃ fs₀', Survives s'.2 s'.1 fs₀') ∧
      ∀ {k : Str} {j : Json}, dead[k]? = some j → s'.2[k]? = some j := by
  induction hr with
  | nil => exact ⟨⟨fs₀, h⟩, id⟩
  | snoc _ hstep ih =>
    obtain ⟨⟨fs₀', h'⟩, hkeep⟩ := ih
    obtain ⟨h'', hkeep'⟩ := h'.dead_step hstep
    exact ⟨h'', fun hj => hkeep' (hkeep hj)⟩

theorem Survives.toDead (h : Survives dead fs fs₀) : Dead digest fs dead where
  iff k j := by
    obtain ⟨hI, hB⟩ := h
    have hdesc : fs.descriptors k = fs₀.descriptors k := by
      rw [Fs.descriptors, Fs.descriptors, hB.fdTable]
    refine ⟨fun hj => ?_, fun ⟨hj, ⟨j', hj', hf⟩, hno⟩ => ?_⟩
    · have hj' : fs.ddb[k]? = some j := by
        rw [hB.ddb.get, hj]
        rfl
      refine ⟨hj', ⟨j, hj', hB.ddb.file hj⟩, ?_⟩
      rw [hdesc, ← Finset.not_nonempty_iff_eq_empty, ← hI.table]
      intro hopen
      obtain ⟨p, hp⟩ := Option.ne_none_iff_exists'.1 hopen
      obtain ⟨-, -, -, -, -, j₀, -, hj₀, -⟩ := hI.opened hp
      exact absurd (hj₀.symm.trans (hB.ddb.absent hj)) nofun
    · obtain rfl := Option.some.inj (hj.symm.trans hj')
      refine (hB.ddb.cases hj).resolve_right fun hj₀ => ?_
      have hopen := (hI.table k).1 (hI.deleted hj₀ hf)
      rw [← hdesc, hno] at hopen
      exact absurd hopen Finset.not_nonempty_empty
  unreferenced {k j} hj d c hc := by
    rw [h.2.ddb.child] at hc
    obtain ⟨t, he⟩ := child_eq_some.1 hc
    obtain ⟨j₀, hj₀, -⟩ := Option.bind_eq_some_iff.1 (h.1.wf.entry he)
    exact absurd (hj₀.symm.trans (h.2.ddb.absent hj)) nofun
  forever hr k j hj := by
    obtain ⟨⟨fs₀', h'⟩, hkeep⟩ := h.dead_runs hr
    have hj' := hkeep hj
    refine ⟨hj', ?_⟩
    rw [h'.2.ddb.get, hj']
    rfl
  alike := ⟨fs₀, h.1.consistent, h.2, fun _ hfresh => h.2.exec h.1 hfresh⟩

/-- In every run of calls and restarts, whether the store writes or not, the records of the files
that were open and deleted when a process ended, and only they, stay in the data DB for ever, and
no call depends on them. -/
theorem leaks {es : List Event} (h : Runs (DeadStep digest) (Fs.mkfs, ∅) es (fs, dead)) :
    Dead digest fs dead := by
  obtain ⟨⟨fs₀, hS⟩, -⟩ := survives_mkfs.dead_runs h
  exact hS.toDead

/-- The record of the deleted file is left behind. -/
theorem leaks_restartedA : (orphans deletedA.ddb).size = 1 ∧
    Dead lengthDigest deletedA.restarted (orphans deletedA.ddb) := by
  have hcreate : DeadStep lengthDigest (Fs.mkfs, ∅) (.call createA ⟨0, none, []⟩)
      (Fs.mkfs.next lengthDigest createA, ∅) := ⟨step_createA, rfl⟩
  have hopen : DeadStep lengthDigest (Fs.mkfs.next lengthDigest createA, ∅)
      (.call openA ⟨0, some 0, []⟩) (openedA, ∅) := ⟨step_openA, rfl⟩
  have hunlink : DeadStep lengthDigest (openedA, ∅) (.call unlinkA ⟨0, none, []⟩) (deletedA, ∅) :=
    ⟨step_deletedA, rfl⟩
  have hrestart : DeadStep lengthDigest (deletedA, ∅) (.restart true)
      (deletedA.restarted, orphans deletedA.ddb) := ⟨step_restartA, rfl⟩
  have hruns : Runs (DeadStep lengthDigest) (Fs.mkfs, ∅) eventsA
      (deletedA.restarted, orphans deletedA.ddb) :=
    ((((Runs.nil _).snoc hcreate).snoc hopen).snoc hunlink).snoc hrestart
  exact ⟨by decide +kernel, leaks hruns⟩

end

/-- A call on whole blocks, or a restart, with what the files hold. -/
def IoEventStep (digest : Str → List Int8) (s : Fs × Files) : Event → Fs × Files → Prop
  | .call call reply, s' => IoStep digest s (call, reply) s'
  | .restart ok, s' => Fs.rocksfs s.1.ddb ok = .ok (some s'.1) ∧ s'.2 = s.2

section

variable {digest : Str → List Int8} {dead : Store} {fs fs₀ : Fs} {m : Files}

theorem Holds.beside {db db₀ : Store} (h : DeadBeside dead db db₀) : Holds db m ↔ Holds db₀ m :=
  ⟨fun hH => hH.same_blocks fun ha => (h.same_colon ha).symm, fun hH => hH.same_blocks h.same_colon⟩

theorem Unused.beside {call : Call} (h : Beside dead fs fs₀) :
    Unused digest fs call ↔ Unused digest fs₀ call := by
  have hblock : ∀ k b, fs.ddb[blockKey k b]? = fs₀.ddb[blockKey k b]? := fun k b =>
    h.ddb.same_colon (colon_mem_blockKey k b)
  unfold Unused
  simp only [hblock]

/-- A call on whole blocks is one of the other file system as well. -/
theorem Survives.ioStep (h : Survives dead fs fs₀) {l : Call × Reply} {s' : Fs × Files}
    (hs : IoStep digest (fs, m) l s') :
    ∃ fs₀', IoStep digest (fs₀, m) l (fs₀', s'.2) ∧ Survives dead s'.1 fs₀' := by
  obtain ⟨⟨hok, hstep⟩, hunused, hblocks, hafter⟩ := hs
  obtain ⟨fs₀', hs₀, h'⟩ := h.step hstep
  refine ⟨fs₀', ⟨⟨hok, hs₀⟩, (Unused.beside h.2).1 hunused, ?_, hafter.trans ?_⟩, h'⟩
  · unfold WholeBlocks at hblocks ⊢
    rwa [h.2.fdTable] at hblocks
  · unfold Files.after
    rw [h.2.fdTable]

theorem survives_of_ioRuns {es : List Event} {s : Fs × Files}
    (h : Runs (IoEventStep digest) (Fs.mkfs, fun _ _ => none) es s) :
    ∃ dead fs₀, Survives dead s.1 fs₀ ∧ Holds fs₀.ddb s.2 := by
  induction h with
  | nil => exact ⟨∅, Fs.mkfs, survives_mkfs, holds_mkfs⟩
  | @snoc s s' es e _ hs ih =>
    obtain ⟨dead, fs₀, h, hH⟩ := ih
    cases e with
    | call call reply =>
      obtain ⟨fs₀', hs₀, h'⟩ := h.ioStep hs
      exact ⟨dead, fs₀', h', (hs₀.holds ⟨h.1, hH⟩).2⟩
    | restart ok =>
      obtain ⟨hs, hm⟩ := hs
      obtain hfs : s.1.restarted = s'.1 :=
        Option.some.inj (Except.ok.inj ((h.rocksfs ok).symm.trans hs))
      rw [hm, ← hfs]
      exact ⟨_, _, h.restart, (Holds.beside h.wf.deadBeside).1 ((Holds.beside h.2.ddb).2 hH)⟩

theorem Survives.pwrite_wrote (h : Survives dead fs fs₀) (hH : Holds fs₀.ddb m) {fd : ℤ}
    {f : Rocksfile} (hf : fs.fdTable[fd]? = some f) {b n : ℕ} (hr : InRange b n) {buf : List UInt8}
    (hlen : buf.length = blockSize * n) :
    ∃ fs', fs.pwrite fd buf (blockSize * b) true = .ok (buf.length, fs') ∧
      Wrote fs m f.key b n buf fs' := by
  have hf₀ : fs₀.fdTable[fd]? = some f := h.2.fdTable ▸ hf
  obtain ⟨fs₀', hw, hwrote⟩ := Rocksfs.pwrite_wrote h.1 hH hf₀ hr hlen
  obtain ⟨⟨rc, fs'⟩, hw', hrc, hB⟩ := (h.2.pwrite fd buf (blockSize * b) true).of_ok hw
  obtain rfl : rc = buf.length := hrc
  obtain ⟨batch, hb, hw₁, -⟩ := pwrite_block h.1 hH hf₀ hr hlen
  have hwf : Wf fs₀'.ddb := by
    obtain ⟨-, rfl⟩ := Prod.mk.inj (Except.ok.inj (hw₁.symm.trans hw))
    exact (hb.wf h.1.wf true).1
  refine ⟨fs', hw', (Holds.beside hB.ddb).2 hwrote.holds, fun a ha => ?_, ⟨?_, ?_, ?_⟩,
    fun {fd' f'} hf' hne buf' offset => ?_, fun path => ?_⟩
  · rw [hB.ddb.get, h.2.ddb.get, hwrote.range a ha]
  · rw [hB.fdTable, h.2.fdTable, hwrote.tables.1]
  · rw [hB.openFileTable, h.2.openFileTable, hwrote.tables.2.1]
  · rw [hB.impls, h.2.impls, hwrote.tables.2.2]
  · rw [hB.pread, h.2.pread, hwrote.other (h.2.fdTable ▸ hf') hne]
  · rw [hB.ddb.namei hwf, h.2.ddb.namei h.1.wf, hwrote.paths]

/-- A descriptor has the key that the path leads to. -/
theorem open_key (hI : Inv fs) {path : Str} {fd : ℤ} {fs' : Fs}
    (ho : fs.open path = .ok (0, some fd, fs')) : ∃ (de : Dentry) (f : Rocksfile),
      namei fs.ddb (pathConvert path) = .ok (0, some de) ∧ fs'.fdTable[fd]? = some f ∧
        f.key = de.key := by
  rcases Fs.open_cases hI path with ⟨_, -, hm⟩ | ⟨_, -, hm⟩ |
    ⟨x, j, hx, -, -, ⟨hm, -⟩ | ⟨d, fi, i, fs₁, hm, hO⟩⟩
  · cases (Prod.mk.inj (Prod.mk.inj (Except.ok.inj (hm.symm.trans ho))).2).1
  · cases (Prod.mk.inj (Prod.mk.inj (Except.ok.inj (hm.symm.trans ho))).2).1
  · cases hm.symm.trans ho
  · obtain ⟨hd, rfl⟩ := Prod.mk.inj (Prod.mk.inj (Except.ok.inj (hm.symm.trans ho))).2
    obtain rfl := Option.some.inj hd
    obtain ⟨name, hn⟩ := namei_pathConvert_ok hI.wf hx
    obtain ⟨fs₂, -, rfl⟩ := hO.marked
    exact ⟨_, ⟨fi, x, d⟩, hn, by simp, rfl⟩

/-- In every run of calls on whole blocks and restarts the files hold what was written last, by
whatever process. -/
theorem restarts_keep_contents {es : List Event}
    (h : Runs (IoEventStep digest) (Fs.mkfs, fun _ _ => none) es (fs, m)) :
    Contents digest fs m := by
  obtain ⟨dead, fs₀, hS, hH⟩ := survives_of_ioRuns h
  have hfd : fs.fdTable = fs₀.fdTable := hS.2.fdTable
  refine ⟨fun hf hr hlen => ?_, fun hf hr hlen => hS.pwrite_wrote hH hf hr hlen,
    fun {path now fs'} hfresh hunused hc => ?_, fun {path fd fs'} ho => ?_, fun {a t} ha k b h => ?_⟩
  · rw [hS.2.pread]
    exact pread_block hS.1 hH (hfd ▸ hf) hr hlen
  · obtain ⟨fs₀', hs₀, h'⟩ := hS.step (l := (_, ⟨0, none, []⟩))
      ⟨hfresh, by simp only [Fs.exec, hc]; rfl⟩
    obtain ⟨rc, hc₀, hrc⟩ := returned hs₀.2
    obtain rfl : rc = 0 := congrArg Reply.rc hrc
    obtain ⟨de, hn, hkey, hblocks⟩ := create_contents hS.1 hH (hfresh.beside hS.2)
      ((Unused.beside hS.2).1 hunused) hc₀
    exact ⟨de, (h'.2.ddb.namei h'.1.wf path).trans hn, fun hf => hkey (hfd ▸ hf), hblocks⟩
  · obtain ⟨⟨rc, fd₀, fs₀'⟩, ho₀, hrc, hfd₀, hB⟩ := (hS.2.open hS.1 path).of_ok_left ho
    obtain rfl : 0 = rc := hrc
    obtain rfl : some fd = fd₀ := hfd₀
    obtain ⟨de, f, hn, hf, hkey⟩ := open_key hS.1 ho₀
    exact ⟨de, f, (hS.2.ddb.namei hS.1.wf path).trans hn, hB.fdTable ▸ hf, hkey⟩
  · exact hS.wf.not_mem_colon ha (h ▸ colon_mem_blockKey k b)

theorem runs_openedA_events : Runs (IoEventStep lengthDigest) (Fs.mkfs, fun _ _ => none)
    [.call createA ⟨0, none, []⟩, .call openA ⟨0, some 0, []⟩] (openedA, fun _ _ => none) := by
  have hunused : Unused lengthDigest Fs.mkfs createA := fun b =>
    holds_mkfs.record (calcKey lengthDigest (pathConvert ['a']) 0) b
  have hcreate : IoEventStep lengthDigest (Fs.mkfs, fun _ _ => none) (.call createA ⟨0, none, []⟩)
      (Fs.mkfs.next lengthDigest createA, fun _ _ => none) :=
    ⟨⟨rfl, step_createA⟩, hunused, trivial, rfl⟩
  have hopen : IoEventStep lengthDigest (Fs.mkfs.next lengthDigest createA, fun _ _ => none)
      (.call openA ⟨0, some 0, []⟩) (openedA, fun _ _ => none) :=
    ⟨⟨rfl, step_openA⟩, trivial, trivial, rfl⟩
  exact ((Runs.nil _).snoc hcreate).snoc hopen

/-- A block of sevens, as the next process finds it. -/
theorem restarts_keep_contents_openedA : ∃ fs f, openedA.fdTable[(0 : ℤ)]? = some f ∧
    openedA.pwrite 0 (List.replicate 4096 7) (blockSize * (0 : ℕ)) true = .ok (4096, fs) ∧
      Contents lengthDigest fs.restarted
        (Files.write (fun _ _ => none) f.key 0 1 (List.replicate 4096 7)) := by
  obtain ⟨f, hf⟩ : ∃ f, openedA.fdTable[(0 : ℤ)]? = some f := ⟨_, rfl⟩
  have hlen : (List.replicate 4096 (7 : UInt8)).length = blockSize * 1 := List.length_replicate
  have hr : InRange 0 1 := ⟨by decide, by decide⟩
  obtain ⟨fs, hw, -⟩ := (restarts_keep_contents runs_openedA_events).pwrite hf hr hlen
  have hstep : IoEventStep lengthDigest (openedA, fun _ _ => none)
      (.call ⟨.pwrite 0 (List.replicate 4096 7) (blockSize * (0 : ℕ)), 0, true⟩ ⟨4096, none, []⟩)
      (fs, Files.write (fun _ _ => none) f.key 0 1 (List.replicate 4096 7)) := by
    refine ⟨⟨rfl, trivial, ?_⟩, trivial, ⟨by simp [hf], 0, 1, hr, rfl, hlen⟩, ?_⟩
    · simp only [Fs.exec, hw, hlen]
      rfl
    · simp only [Files.after, hf, hlen]
      rfl
  have hruns := runs_openedA_events.snoc hstep
  obtain ⟨dead, fs₀, hS, -⟩ := survives_of_ioRuns hruns
  have hrestart : IoEventStep lengthDigest
      (fs, Files.write (fun _ _ => none) f.key 0 1 (List.replicate 4096 7)) (.restart true)
      (fs.restarted, Files.write (fun _ _ => none) f.key 0 1 (List.replicate 4096 7)) :=
    ⟨hS.rocksfs true, rfl⟩
  refine ⟨fs, f, hf, ?_, restarts_keep_contents (hruns.snoc hrestart)⟩
  rw [hlen] at hw
  exact hw

end

end CPPCodes.Rocksfs
