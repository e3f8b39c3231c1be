import CPPCodes.Lib.Transition
import CPPCodes.Rocksfs.Effect

/-!
# How long a file lives

A descriptor is in use from the `open` that returns it to the `close` that takes it back; along a
run the table of descriptors has those in use, each with the key that the path led to. While the
store writes whenever it is told to, the deleted flag of a shared object and the flag of its record
agree. A record with the flag appears when its file is unlinked while open and goes with the last
close, so along a run the two events alternate for every key, and no close meets a record other than
the one it expects.
-/

namespace CPPCodes.Rocksfs

open Transition

/-- An object marked as deleted has a record marked as deleted. -/
def Synced (fs : Fs) : Prop :=
  ∀ {k : Str} {p : ℕ} {i : RocksfileImpl}, fs.openFileTable[k]? = some p → fs.impls[p]? = some i →
    i.deleted = true → ∃ j, fs.ddb[k]? = some j ∧ IsFile j 1

/-- The record of the key is that of a deleted file. -/
def Orphan (fs : Fs) (k : Str) : Prop := ∃ j, fs.ddb[k]? = some j ∧ IsFile j 1

section

variable {digest : Str → List Int8} {fs fs' : Fs} {call : Call} {reply : Reply}

/-- An edit keeps the records of the open files other than its own. -/
theorem Synced.edited (h : Synced fs) {db : Store} {k c x : Str} {link : Option ℤ}
    {rec : Option Json} (he : Edited fs.ddb k c x link rec db)
    (hx : Editable fs.ddb k c x link rec) (hclosed : fs.openFileTable[x]? = none) :
    Synced { fs with ddb := db } := by
  intro a p i ha hi hd
  have hax : a ≠ x := by
    rintro rfl
    rw [hclosed] at ha
    cases ha
  obtain ⟨j, hj, hf⟩ := h ha hi hd
  exact ⟨j, (he.file_iff hx hax hf).2 hj, hf⟩

/-- A file is opened: its object has the flag that it had, or is new and has none. -/
theorem Synced.opened (h : Synced fs) {x : Str} {fd : ℤ} {fi : ℕ} {i : RocksfileImpl}
    (hO : Fs.Opened fs x fd fi i fs') : Synced fs' := by
  obtain ⟨fs₁, hM, rfl⟩ := hO.marked
  intro a p i' ha hi' hd
  show ∃ j, fs₁.ddb[a]? = some j ∧ IsFile j 1
  rw [hM.ddb]
  simp only [hM.table] at ha
  split_ifs at ha with hax
  · obtain rfl := Option.some.inj ha
    have hlt : fi < fs₁.impls.length := (List.getElem?_eq_some_iff.1 hM.here).1
    simp only [List.getElem?_set_self hlt, Option.some.injEq] at hi'
    subst hi' hax
    cases ho : fs.openFileTable[a]? with
    | none => exact absurd hd (by simp [RocksfileImpl.open, hM.new ho])
    | some p =>
      obtain ⟨h1, h2⟩ := hM.old (by simp [ho])
      exact h h1 h2 hd
  · obtain ⟨hpf, himpls⟩ := hM.elsewhere hax ha
    simp only [List.getElem?_set_ne hpf.symm, himpls] at hi'
    exact h ha hi' hd

/-- The last descriptor of a file is closed: the objects of the others stay, and so do their
records. -/
theorem Synced.closed_last (hI : Inv fs) (h : Synced fs) {fd : ℤ} {f : Rocksfile}
    (i : RocksfileImpl) (hp : fs.openFileTable[f.key]? = some f.fi) {db : Store}
    (hdb : ∀ k, k ≠ f.key → db[k]? = fs.ddb[k]?) :
    Synced { (fs.closed fd f i).markFileClosed f.key with ddb := db } := by
  intro a p i' ha hi' hd
  simp only [Fs.closed, Fs.markFileClosed, getElem?_delete] at ha
  split_ifs at ha with hax
  simp only [Fs.closed, Fs.markFileClosed, hI.impls_set_other hp ha hax] at hi'
  obtain ⟨j, hj, hf⟩ := h ha hi' hd
  exact ⟨j, (hdb a hax).trans hj, hf⟩

theorem Effect.synced (hI : Inv fs) (h : Synced fs) (hok : call.ok = true)
    (he : Effect digest fs call reply fs') : Synced fs' := by
  cases he with
  | unchanged => exact h
  | @linked path k c x t r db hop hkey hx he hed =>
    refine h.edited he hed ?_
    cases ho : fs.openFileTable[x]? with
    | none => rfl
    | some p =>
      obtain ⟨-, -, -, -, -, j, d, hj, -⟩ := hI.opened ho
      rw [hx] at hj
      cases hj
  | removed hop hr hx hent he hed => exact h.edited he hed hx
  | @marked path k c x j fi i db hop hrc hr hx hi hj hjf he hed =>
    intro a p i' ha hi' hd
    by_cases hax : a = x
    · subst hax
      exact ⟨_, he.leaf, hjf.setDel 1⟩
    · simp only [Fs.setImpl, hI.impls_set_other hx ha hax] at hi'
      obtain ⟨j', hj', hf⟩ := h ha hi' hd
      exact ⟨j', (he.file_iff hed hax hf).2 hj', hf⟩
  | flagged hop hfail => cases hok.symm.trans hfail
  | opened hop hfd hr hj hjf hO => exact h.opened hO
  | @closed fd f i hop hf hp hi hcard =>
    intro a p i' ha hi' hd
    by_cases hax : a = f.key
    · subst hax
      obtain rfl := Option.some.inj (hp.symm.trans ha)
      have hlt : f.fi < fs.impls.length := (List.getElem?_eq_some_iff.1 hi).1
      simp only [Fs.closed, List.getElem?_set_self hlt, Option.some.injEq] at hi'
      subst hi'
      exact h hp hi hd
    · simp only [Fs.closed, hI.impls_set_other hp ha hax] at hi'
      exact h ha hi' hd
  | @released fd f i hop hf hp hi hcard hdel => exact h.closed_last hI i hp fun _ _ => rfl
  | @purged fd f i j hop hf hp hi hcard hdel hj hfile =>
    exact h.closed_last hI i hp fun k hk => by rw [getElem?_delete, if_neg hk]
  | @wrote fd offset buf f batch hop hf hb =>
    obtain ⟨-, -, -, -, hmeta⟩ := hb.wf hI.wf call.ok
    intro a p i ha hi hd
    obtain ⟨j, hj, hfile⟩ := h ha hi hd
    exact ⟨j, (hmeta (hI.wf.file_colon hj hfile)).trans hj, hfile⟩

end

/-- The key and the type that a path leads to. -/
def Fs.leadsTo (fs : Fs) (path : Str) : Option (Str × ℤ) :=
  match namei fs.ddb (pathConvert path) with
  | .ok (_, some de) => some (de.key, de.type)
  | _ => none

theorem Wf.leadsTo_eq {fs : Fs} (h : Wf fs.ddb) (path : Str) :
    fs.leadsTo path = (resolve fs.ddb rootName (components path)).toOption := by
  unfold Fs.leadsTo
  cases hr : resolve fs.ddb rootName (components path) with
  | error e =>
    obtain ⟨hn, -⟩ := namei_pathConvert_error h hr
    rw [hn]
    rfl
  | ok a =>
    obtain ⟨name, hn⟩ := namei_pathConvert_ok h hr
    rw [hn]
    rfl

/-- The descriptors in use, with the keys of their files, after a call: what `open` gives back is
added with the key that its path leads to, and what `close` takes is in use no more. -/
def liveAfter (fs : Fs) (live : ℤ → Option Str) (l : Call × Reply) (d : ℤ) : Option Str :=
  match l.1.op with
  | .open file =>
    if l.2.rc = 0 ∧ l.2.fd = some d then (fs.leadsTo file).map Prod.fst else live d
  | .close fd => if l.2.rc = 0 ∧ fd = d then none else live d
  | _ => live d

/-- The table has the descriptors in use, each with the key of its file. -/
def InUse (fs : Fs) (live : ℤ → Option Str) : Prop :=
  ∀ d, live d = fs.fdTable[d]?.map Rocksfile.key

section

variable {digest : Str → List Int8} {fs fs' : Fs} {call : Call} {reply : Reply}
  {live : ℤ → Option Str}

theorem InUse.mem_descriptors (h : InUse fs live) {d : ℤ} {k : Str} :
    d ∈ fs.descriptors k ↔ live d = some k := by
  rw [Fs.mem_descriptors, h, Option.map_eq_some_iff]

theorem InUse.nonempty_iff (h : InUse fs live) (k : Str) :
    (fs.descriptors k).Nonempty ↔ ∃ d, live d = some k :=
  exists_congr fun _ => h.mem_descriptors

theorem InUse.eq_none_iff (h : InUse fs live) (d : ℤ) : live d = none ↔ fs.fdTable[d]? = none := by
  rw [h, Option.map_eq_none_iff]

/-- Other calls leave the table of descriptors. -/
theorem Effect.fdTable (he : Effect digest fs call reply fs')
    (hopen : ∀ file, call.op ≠ .open file) (hclose : ∀ fd, call.op ≠ .close fd) :
    fs'.fdTable = fs.fdTable := by
  cases he with
  | opened hop => exact absurd hop (hopen _)
  | closed hop => exact absurd hop (hclose _)
  | released hop => exact absurd hop (hclose _)
  | purged hop => exact absurd hop (hclose _)
  | unchanged | linked | removed | marked | flagged | wrote => rfl

theorem InUse.opened (h : InUse fs live) (hI : Inv fs) {file : Str} {rc : ℤ} {fd : Option ℤ}
    (hop : call.op = .open file) (ho : fs.open file = .ok (rc, fd, fs')) :
    InUse fs' (liveAfter fs live (call, ⟨rc, fd, []⟩)) := by
  intro d
  simp only [liveAfter, hop]
  rcases Fs.open_cases hI file with ⟨e, he, hm⟩ | ⟨x, -, hm⟩ |
    ⟨x, j, hr, -, -, ⟨hm, -⟩ | ⟨n, fi, i, fs₁, hm, hO⟩⟩
  · obtain ⟨rfl, hrest⟩ := Prod.mk.inj (Except.ok.inj (hm.symm.trans ho))
    obtain ⟨rfl, rfl⟩ := Prod.mk.inj hrest
    rw [if_neg (by simp), h]
  · obtain ⟨rfl, hrest⟩ := Prod.mk.inj (Except.ok.inj (hm.symm.trans ho))
    obtain ⟨rfl, rfl⟩ := Prod.mk.inj hrest
    rw [if_neg (by simp), h]
  · cases hm.symm.trans ho
  · obtain ⟨rfl, hrest⟩ := Prod.mk.inj (Except.ok.inj (hm.symm.trans ho))
    obtain ⟨rfl, rfl⟩ := Prod.mk.inj hrest
    obtain ⟨fs₂, -, rfl⟩ := hO.marked
    simp only [getElem?_put, hI.wf.leadsTo_eq, hr, true_and, Option.some.injEq]
    by_cases hd : n = d
    · rw [if_pos hd, if_pos hd.symm]
      rfl
    · rw [if_neg hd, if_neg (Ne.symm hd), h]

theorem InUse.closed (h : InUse fs live) (hI : Inv fs) {fd rc : ℤ} {ok : Bool}
    (hop : call.op = .close fd) (hc : fs.close fd ok = .ok (rc, fs')) :
    InUse fs' (liveAfter fs live (call, ⟨rc, none, []⟩)) := by
  have herase : ∀ {fs₁ : Fs}, fs.close fd ok = .ok (0, fs₁) → fs₁.fdTable = fs.fdTable.erase fd →
      InUse fs' (liveAfter fs live (call, ⟨rc, none, []⟩)) := fun {fs₁} hm htable d => by
    obtain ⟨rfl, rfl⟩ := Prod.mk.inj (Except.ok.inj (hm.symm.trans hc))
    simp only [liveAfter, hop, htable, getElem?_delete, true_and]
    by_cases hd : fd = d
    · rw [if_pos hd, if_pos hd.symm]
      rfl
    · rw [if_neg hd, if_neg (Ne.symm hd), h]
  rcases Fs.close_cases hI fd ok with ⟨hf, hm⟩ | ⟨f, i, -, -, -, ⟨-, hm⟩ | ⟨-, -, hm⟩ |
    ⟨j, d, -, -, -, -, hm⟩⟩
  · obtain ⟨rfl, rfl⟩ := Prod.mk.inj (Except.ok.inj (hm.symm.trans hc))
    intro d
    simp only [liveAfter, hop]
    rw [if_neg (fun hrc => absurd hrc.1 (by decide)), h]
  · exact herase hm rfl
  · exact herase hm rfl
  · split_ifs at hm
    · exact herase hm rfl
    · cases hm.symm.trans hc

/-- Every call changes the table as its reply says. -/
theorem Step.inUse {l : Call × Reply} (h : InUse fs live) (hI : Inv fs) (hs : Step digest fs l fs') :
    InUse fs' (liveAfter fs live l) := by
  obtain ⟨call, reply⟩ := l
  have hsame : (∀ file, call.op ≠ .open file) → (∀ fd, call.op ≠ .close fd) →
      InUse fs' live := fun hopen hclose d => by
    rw [(hs.effect hI).fdTable hopen hclose, h]
  obtain ⟨-, hexec⟩ := hs
  cases hop : call.op with
  | «open» file =>
    simp only [Fs.exec, hop] at hexec
    obtain ⟨⟨rc, fd, fs₁⟩, hm, hexec⟩ := bind_eq_ok.1 hexec
    obtain ⟨rfl, rfl⟩ := Prod.mk.inj (Except.ok.inj hexec)
    exact h.opened hI hop hm
  | close fd =>
    simp only [Fs.exec, hop] at hexec
    obtain ⟨rc, hm, rfl⟩ := returned hexec
    exact h.closed hI hop hm
  | mkdir | rmdir | create | unlink | pwrite | pread =>
    have hlive : liveAfter fs live (call, reply) = live := funext fun d => by
      simp only [liveAfter, hop]
    rw [hlive]
    exact hsame (fun file => by simp [hop]) fun fd => by simp [hop]

end

/-- The call closes the last descriptor of the key. -/
def LastClose (live : ℤ → Option Str) (call : Call) (k : Str) : Prop :=
  ∃ fd, call.op = .close fd ∧ ∀ d, live d = some k ↔ d = fd

/-- The call unlinks a path of the key's file, of which a descriptor is in use. -/
def UnlinksOpen (fs : Fs) (live : ℤ → Option Str) (call : Call) (reply : Reply) (k : Str) : Prop :=
  ∃ file t, call.op = .unlink file ∧ reply.rc = 0 ∧ fs.leadsTo file = some (k, t) ∧
    ∃ d, live d = some k

/-- What a call means for the record of a deleted file. -/
structure Turns (fs : Fs) (live : ℤ → Option Str) (call : Call) (reply : Reply) (fs' : Fs) (k : Str) :
    Prop where
  orphan : Orphan fs' k ↔
    UnlinksOpen fs live call reply k ∨ (Orphan fs k ∧ ¬ LastClose live call k)
  fresh : UnlinksOpen fs live call reply k → ¬ Orphan fs k
  gone : Orphan fs k → LastClose live call k → fs'.ddb[k]? = none

theorem Turns.of_same {fs fs' : Fs} {live : ℤ → Option Str} {call : Call} {reply : Reply} {k : Str}
    (ho : Orphan fs' k ↔ Orphan fs k) (hu : ¬ UnlinksOpen fs live call reply k)
    (hc : Orphan fs k → ¬ LastClose live call k) : Turns fs live call reply fs' k where
  orphan := by
    rw [ho]
    exact ⟨fun h => .inr ⟨h, hc h⟩, fun h => h.elim (fun h => absurd h hu) And.left⟩
  fresh h := absurd h hu
  gone h h' := absurd h' (hc h)

theorem Orphan.not_file {fs : Fs} {k : Str} (h : Orphan fs k) {j : Json} (hj : fs.ddb[k]? = some j) :
    ¬ IsFile j 0 := by
  obtain ⟨j', hj', hf⟩ := h
  obtain rfl := Option.some.inj (hj.symm.trans hj')
  exact fun h0 => absurd (h0.del_unique hf) (by decide)

section

variable {fs : Fs} {live : ℤ → Option Str} {call : Call} {reply : Reply}

theorem not_unlinksOpen (hop : ∀ file, call.op ≠ .unlink file) (k : Str) :
    ¬ UnlinksOpen fs live call reply k := by
  rintro ⟨file, _, h, -⟩
  exact hop file h

theorem not_unlinksOpen_close {fd : ℤ} (hop : call.op = .close fd) (k : Str) :
    ¬ UnlinksOpen fs live call reply k :=
  not_unlinksOpen (fun file h => by cases hop.symm.trans h) k

theorem not_lastClose (hop : ∀ fd, call.op ≠ .close fd) (k : Str) : ¬ LastClose live call k := by
  rintro ⟨fd, h, -⟩
  exact hop fd h

theorem InUse.lastClose_iff (hL : InUse fs live) {fd : ℤ} {f : Rocksfile}
    (hop : call.op = .close fd) (hf : fs.fdTable[fd]? = some f) (k : Str) :
    LastClose live call k ↔ k = f.key ∧ (fs.descriptors f.key).card = 1 := by
  have hlive : live fd = some f.key := by rw [hL, hf, Option.map_some]
  constructor
  · rintro ⟨fd', hop', hd⟩
    obtain rfl : fd = fd' := by simpa using hop.symm.trans hop'
    obtain rfl := Option.some.inj (((hd fd).2 rfl).symm.trans hlive)
    exact ⟨rfl, Finset.card_eq_one.2 ⟨fd, Finset.ext fun d =>
      hL.mem_descriptors.trans ((hd d).trans Finset.mem_singleton.symm)⟩⟩
  · rintro ⟨rfl, hcard⟩
    obtain ⟨d, hd⟩ := Finset.card_eq_one.1 hcard
    have hmem : fd ∈ fs.descriptors f.key := hL.mem_descriptors.2 hlive
    rw [hd, Finset.mem_singleton] at hmem
    refine ⟨fd, hop, fun d' => ?_⟩
    rw [← hL.mem_descriptors, hd, Finset.mem_singleton, hmem]

theorem unlinksOpen_iff (hI : Inv fs) (hL : InUse fs live) {path x : Str} {t : ℤ}
    (hop : call.op = .unlink path)
    (hr : resolve fs.ddb rootName (components path) = .ok (x, t)) (k : Str) :
    UnlinksOpen fs live call reply k ↔ k = x ∧ reply.rc = 0 ∧ fs.openFileTable[x]? ≠ none := by
  have hleads : fs.leadsTo path = some (x, t) := by
    rw [hI.wf.leadsTo_eq, hr]
    rfl
  rw [hI.table, hL.nonempty_iff]
  constructor
  · rintro ⟨file, t', hop', hrc, hl, ho⟩
    obtain rfl : path = file := by simpa using hop.symm.trans hop'
    obtain ⟨rfl, -⟩ := Prod.mk.inj (Option.some.inj (hleads.symm.trans hl))
    exact ⟨rfl, hrc, ho⟩
  · rintro ⟨rfl, hrc, ho⟩
    exact ⟨path, t, hop, hrc, hleads, ho⟩

end

theorem Edited.orphan_iff {fs fs' : Fs} {k c x : Str} {link : Option ℤ} {rec : Option Json}
    (he : Edited fs.ddb k c x link rec fs'.ddb) (hed : Editable fs.ddb k c x link rec) {a : Str}
    (ha : a ≠ x) : Orphan fs' a ↔ Orphan fs a :=
  exists_congr fun _ => and_congr_left fun hf => he.file_iff hed ha hf

/-- What is new is not deleted. -/
theorem Edited.orphan_linked {fs fs' : Fs} {k c x : Str} {t : ℤ} {r : Json}
    (he : Edited fs.ddb k c x (some t) (some r) fs'.ddb)
    (hed : Editable fs.ddb k c x (some t) (some r)) (hx : fs.ddb[x]? = none) (a : Str) :
    Orphan fs' a ↔ Orphan fs a := by
  by_cases hax : a = x
  · subst hax
    refine ⟨fun ⟨j, hj, hf⟩ => ?_, fun ⟨j, hj, hf⟩ => by cases hx.symm.trans hj⟩
    rw [he.leaf] at hj
    rcases (hed.record hj).2 with ⟨-, hr⟩ | ⟨-, hr⟩ | ⟨h', -⟩
    · exact absurd hr hf.not_isDir
    · exact absurd (hf.del_unique hr) (by decide)
    · cases h'
  · exact he.orphan_iff hed hax

/-- What has an entry is not deleted, and then it is gone. -/
theorem Edited.orphan_removed {fs fs' : Fs} {k c x : Str} (hwf : Wf fs.ddb)
    (he : Edited fs.ddb k c x none none fs'.ddb) (hed : Editable fs.ddb k c x none none)
    (hent : fs.ddb.child k c = some x) (a : Str) : Orphan fs' a ↔ Orphan fs a := by
  by_cases hax : a = x
  · subst hax
    refine ⟨fun ⟨j, hj, hf⟩ => ?_, fun ⟨j, hj, hf⟩ => ?_⟩
    · rw [he.leaf] at hj
      cases hj
    · rcases hwf.file hj hf with ⟨h', -⟩ | ⟨-, hno⟩
      · exact absurd h' (by decide)
      · exact absurd hent (hno k c)
  · exact he.orphan_iff hed hax

section

variable {digest : Str → List Int8} {fs fs' : Fs} {call : Call} {reply : Reply}
  {live : ℤ → Option Str}

theorem Effect.turns (hI : Inv fs) (hL : InUse fs live) (hok : call.ok = true)
    (he : Effect digest fs call reply fs') (a : Str) : Turns fs live call reply fs' a := by
  cases he with
  | unchanged hun hcl =>
    refine .of_same Iff.rfl ?_ fun _ => ?_
    · rintro ⟨file, _, hop, hrc, -⟩
      exact absurd (hun file hop) (by rw [hrc]; decide)
    · rintro ⟨fd, hop, hd⟩
      cases ((hL.eq_none_iff fd).2 (hcl fd hop)).symm.trans ((hd fd).2 rfl)
  | @linked path k c x t r db hop hkey hx he hed =>
    refine .of_same (Edited.orphan_linked he hed hx a) (not_unlinksOpen (fun file h => ?_) a)
      fun _ => not_lastClose (fun fd h => ?_) a
    · rcases hop with ⟨hop, -⟩ | ⟨hop, -⟩ <;> cases hop.symm.trans h
    · rcases hop with ⟨hop, -⟩ | ⟨hop, -⟩ <;> cases hop.symm.trans h
  | @removed path k c x t db hop hr hx hent he hed =>
    refine .of_same (Edited.orphan_removed hI.wf he hed hent a) ?_
      fun _ => not_lastClose (fun fd h => ?_) a
    · rcases hop with ⟨hop, -⟩ | ⟨hop, -⟩
      · exact not_unlinksOpen (fun file h => by cases hop.symm.trans h) a
      · rw [unlinksOpen_iff hI hL hop hr]
        exact fun h => h.2.2 hx
    · rcases hop with ⟨hop, -⟩ | ⟨hop, -⟩ <;> cases hop.symm.trans h
  | @marked path k c x j fi i db hop hrc hr hx hi hj hjf he hed =>
    have hun : UnlinksOpen fs live call reply a ↔ a = x :=
      (unlinksOpen_iff hI hL hop hr a).trans (and_iff_left ⟨hrc, by simp [hx]⟩)
    have hcl : ¬ LastClose live call a := not_lastClose (fun fd h => by cases hop.symm.trans h) a
    refine ⟨?_, fun h ho => ?_, fun _ h => absurd h hcl⟩
    · rw [hun]
      by_cases hax : a = x
      · subst hax
        exact iff_of_true ⟨_, he.leaf, hjf.setDel 1⟩ (.inl rfl)
      · have hsame : Orphan { fs.setImpl fi i.markDeleted with ddb := db } a ↔ Orphan fs a :=
          Edited.orphan_iff he hed hax
        simp [hsame, hax, hcl]
    · rw [hun] at h
      exact ho.not_file (h ▸ hj) hjf
  | flagged hop hfail => cases hok.symm.trans hfail
  | @opened file x j fd fi i fs' hop hfd hr hj hjf hO =>
    obtain ⟨fs₁, hM, rfl⟩ := hO.marked
    refine .of_same ?_ (not_unlinksOpen (fun file h => by cases hop.symm.trans h) a) fun _ =>
      not_lastClose (fun fd h => by cases hop.symm.trans h) a
    show (∃ j, fs₁.ddb[a]? = some j ∧ IsFile j 1) ↔ _
    rw [hM.ddb]
    exact Iff.rfl
  | @closed fd f i hop hf hp hi hcard =>
    refine .of_same Iff.rfl (not_unlinksOpen_close hop a) fun _ => ?_
    rw [hL.lastClose_iff hop hf]
    omega
  | @released fd f i hop hf hp hi hcard hdel =>
    refine .of_same Iff.rfl (not_unlinksOpen_close hop a) fun ho => ?_
    rw [hL.lastClose_iff hop hf]
    rintro ⟨rfl, -⟩
    obtain ⟨j, hj, hfile⟩ := ho
    obtain ⟨j', d, hj', hfile', hd'⟩ := hI.record hp hi
    obtain rfl := Option.some.inj (hj.symm.trans hj')
    exact absurd (hd' (hfile'.del_unique hfile)) (by simp [hdel])
  | @purged fd f i j hop hf hp hi hcard hdel hj hfile =>
    have hun : ¬ UnlinksOpen fs live call reply a := not_unlinksOpen_close hop a
    have hcl : LastClose live call a ↔ a = f.key :=
      (hL.lastClose_iff hop hf a).trans (and_iff_left hcard)
    refine ⟨?_, fun h => absurd h hun, fun _ h => ?_⟩
    · simp only [hun, hcl, Orphan, getElem?_delete, false_or]
      by_cases hax : a = f.key <;> simp [hax]
    · simp only [getElem?_delete, if_pos (hcl.1 h)]
  | @wrote fd offset buf f batch hop hf hb =>
    obtain ⟨hwf, -, -, -, hmeta⟩ := hb.wf hI.wf call.ok
    refine .of_same ?_ (not_unlinksOpen (fun file h => by cases hop.symm.trans h) a) fun _ =>
      not_lastClose (fun fd h => by cases hop.symm.trans h) a
    refine ⟨fun ⟨j, hj, hfile⟩ => ?_, fun ⟨j, hj, hfile⟩ => ?_⟩
    · exact ⟨j, (hmeta (hwf.file_colon hj hfile)).symm.trans hj, hfile⟩
    · exact ⟨j, (hmeta (hI.wf.file_colon hj hfile)).trans hj, hfile⟩

end

/-- A state with the descriptors in use, the number of times the file of a key has been unlinked
while open, and the number of times the record of a deleted file has been removed. -/
structure Traced where
  fs : Fs
  live : ℤ → Option Str
  marks : Str → ℕ
  removals : Str → ℕ

def Traced.mkfs : Traced := ⟨Fs.mkfs, fun _ => none, 0, 0⟩

open scoped Classical in
def TracedStep (digest : Str → List Int8) (s : Traced) (l : Call × Reply) (s' : Traced) : Prop :=
  StepOk digest s.fs l s'.fs ∧ s'.live = liveAfter s.fs s.live l ∧
    (∀ k, s'.marks k = s.marks k + if UnlinksOpen s.fs s.live l.1 l.2 k then 1 else 0) ∧
    ∀ k, s'.removals k = s.removals k + if Orphan s.fs k ∧ s'.fs.ddb[k]? = none then 1 else 0

open scoped Classical in
/-- Each file unlinked while open, but for those that still have their record, has been removed. -/
def Balanced (s : Traced) : Prop :=
  ∀ k, s.marks k = s.removals k + if Orphan s.fs k then 1 else 0

/-- The two tables and the records of files, in a reachable state. -/
structure Lifetime (s : Traced) : Prop where
  live : ∀ d, s.live d = s.fs.fdTable[d]?.map Rocksfile.key
  fd : ∀ {d : ℤ} {f : Rocksfile}, s.fs.fdTable[d]? = some f →
    f.fd = d ∧ 0 ≤ d ∧ s.fs.openFileTable[f.key]? = some f.fi
  table : ∀ k : Str, s.fs.openFileTable[k]? ≠ none ↔ ∃ d, s.live d = some k
  refcnt : ∀ {k : Str} {p : ℕ}, s.fs.openFileTable[k]? = some p → ∃ i, ∃ ds : Finset ℤ,
    s.fs.impls[p]? = some i ∧ i.key = k ∧ (∀ d, d ∈ ds ↔ s.live d = some k) ∧
      i.refcnt.toNat = ds.card ∧ (i.deleted = true ↔ Orphan s.fs k)
  record : ∀ k, s.fs.ddb.type? k = some FS_FILE ↔
    (∃ l c, s.fs.ddb.entryOf l c = some (k, FS_FILE)) ∨ ∃ d, s.live d = some k
  flag : ∀ {k j}, s.fs.ddb[k]? = some j → j.type? = some FS_FILE →
    (j[KW_DEL]? = some (.num 1) ↔ Orphan s.fs k) ∧
    (Orphan s.fs k ↔ (∃ d, s.live d = some k) ∧ ∀ l c, s.fs.ddb.child l c ≠ some k)

/-- What `open`, `unlink` and `close` return: no assert of theirs fails, and `open` gives the lowest
descriptor that is not in use, if there is one. -/
structure Returns (s : Traced) : Prop where
  opens : ∀ {file k : Str}, s.fs.leadsTo file = some (k, FS_FILE) →
    (∃ n fs', s.fs.open file = .ok (0, some n, fs') ∧ 0 ≤ n ∧ s.live n = none ∧
      ∀ d, 0 ≤ d → d < n → s.live d ≠ none) ∨
    (s.fs.open file = .error .undefined ∧ ∀ d, 0 ≤ d → d ≤ INT_MAX → s.live d ≠ none)
  refuses : ∀ {file : Str}, (∀ k, s.fs.leadsTo file ≠ some (k, FS_FILE)) →
    ∃ rc, rc < 0 ∧ s.fs.open file = .ok (rc, none, s.fs)
  unlinks : ∀ file, ∃ rc fs', s.fs.unlink file true = .ok (rc, fs') ∧
    (rc = 0 ↔ ∃ k, s.fs.leadsTo file = some (k, FS_FILE))
  closes : ∀ {fd : ℤ}, s.live fd ≠ none → ∃ fs', s.fs.close fd true = .ok (0, fs')
  unknown : ∀ {fd : ℤ}, s.live fd = none → s.fs.close fd true = .ok (-EBADF, s.fs)

section

variable {digest : Str → List Int8} {s s' : Traced} {l : Call × Reply}

theorem Inv.lifetime (h : Inv s.fs) (hL : InUse s.fs s.live) (hS : Synced s.fs) : Lifetime s := by
  refine ⟨hL, fun hf => ?_, fun k => ?_, fun {k p} hp => ?_, fun k => ?_, fun {k j} hj hty => ?_⟩
  · obtain ⟨h1, h2, -, h3⟩ := h.fd hf
    exact ⟨h1, h2, h3⟩
  · exact (h.table k).trans (hL.nonempty_iff k)
  · obtain ⟨i, hi, himpl, hcnt, -, j, d, hj, hf, hd⟩ := h.opened hp
    refine ⟨i, _, hi, himpl.1, fun _ => hL.mem_descriptors, hcnt, fun hdel => hS hp hi hdel,
      fun ⟨j', hj', hf'⟩ => ?_⟩
    obtain rfl := Option.some.inj (hj.symm.trans hj')
    exact hd (hf.del_unique hf')
  · rw [← hL.nonempty_iff]
    refine ⟨fun hk => ?_, fun hk => ?_⟩
    · obtain ⟨-, j, d, hj, hf⟩ := h.wf.isFile_of_type hk (by decide)
      rcases h.wf.file hj hf with ⟨-, l, c, hc⟩ | ⟨rfl, -⟩
      · obtain ⟨t, ht⟩ := child_eq_some.1 hc
        have htk := h.wf.entry ht
        rw [hk] at htk
        exact .inl ⟨l, c, Option.some.inj htk ▸ ht⟩
      · exact .inr ((h.table k).1 (h.deleted hj hf))
    · rcases hk with ⟨l, c, hc⟩ | hk
      · exact h.wf.entry hc
      · obtain ⟨p, hp⟩ := Option.ne_none_iff_exists'.1 ((h.table k).2 hk)
        obtain ⟨i, -, -, -, -, j, d, hj, hf, -⟩ := h.opened hp
        simp [Store.type?, hj, Json.type?_eq_some.2 hf.type]
  · obtain ⟨-, j', d, hj', hf⟩ := h.wf.isFile_of_type (k := k) (t := FS_FILE)
      (by simp [Store.type?, hj, hty]) (by decide)
    obtain rfl := Option.some.inj (hj.symm.trans hj')
    have hiff : d = 1 ↔ Orphan s.fs k := by
      refine ⟨fun hd => ⟨j, hj, hd ▸ hf⟩, fun ⟨j', hj', hf'⟩ => ?_⟩
      obtain rfl := Option.some.inj (hj.symm.trans hj')
      exact hf.del_unique hf'
    refine ⟨by rw [hf.del, ← hiff]; simp, ?_⟩
    rw [← hiff, ← hL.nonempty_iff]
    rcases h.wf.file hj hf with ⟨rfl, l, c, hc⟩ | ⟨rfl, hno⟩
    · exact ⟨fun h0 => absurd h0 (by decide), fun h0 => absurd hc (h0.2 l c)⟩
    · exact ⟨fun _ => ⟨(h.table k).1 (h.deleted hj hf), hno⟩, fun _ => rfl⟩

theorem Inv.returns (h : Inv s.fs) (hL : InUse s.fs s.live) (hS : Synced s.fs) : Returns s := by
  refine ⟨fun {file k} hk => ?_, fun {file} hno => ?_, fun file => ?_, fun {fd} hfd => ?_,
    fun {fd} hfd => ?_⟩
  · rw [h.wf.leadsTo_eq] at hk
    rcases Fs.open_cases h file with ⟨e, hr, -⟩ | ⟨x, hr, -⟩ |
      ⟨x, j, -, -, -, ⟨hm, hall⟩ | ⟨n, fi, i, fs', hm, hO⟩⟩
    · rw [hr] at hk
      cases hk
    · rw [hr] at hk
      exact absurd (Prod.mk.inj (Option.some.inj hk)).2 (by decide)
    · exact .inr ⟨hm, fun d h0 hle hn => hall d h0 hle ((hL.eq_none_iff d).1 hn)⟩
    · exact .inl ⟨n, fs', hm, hO.range.1, (hL.eq_none_iff n).2 hO.free,
        fun d h0 hlt hn => hO.lowest d h0 hlt ((hL.eq_none_iff d).1 hn)⟩
  · rcases Fs.open_cases h file with ⟨e, hr, hm⟩ | ⟨x, -, hm⟩ | ⟨x, j, hr, -⟩
    · refine ⟨-e, ?_, hm⟩
      rcases resolve_error hr with rfl | rfl <;> decide
    · exact ⟨-EISDIR, by decide, hm⟩
    · refine absurd ?_ (hno x)
      rw [h.wf.leadsTo_eq, hr]
      rfl
  · rw [h.wf.leadsTo_eq]
    rcases Fs.unlink_cases h.wf file true with ⟨e, hr, hm⟩ | ⟨x, hr, hm⟩ |
      ⟨q, c, k, j, x, fj, hqc, hk, -, -, he, -, -, hclosed, hopen⟩
    · refine ⟨_, _, hm, iff_of_false ?_ ?_⟩
      · rcases resolve_error hr with rfl | rfl <;> decide
      · rintro ⟨k, hk⟩
        rw [hr] at hk
        cases hk
    · refine ⟨_, _, hm, iff_of_false (by decide) ?_⟩
      rintro ⟨k, hk⟩
      rw [hr] at hk
      exact absurd (Prod.mk.inj (Option.some.inj hk)).2 (by decide)
    · have hr : resolve s.fs.ddb rootName (components file) = .ok (x, FS_FILE) := by
        rw [hqc, resolve_concat, hk]
        simp only [he]
      have hleads : ∃ k, (resolve s.fs.ddb rootName (components file)).toOption =
          some (k, FS_FILE) := ⟨x, by rw [hr]; rfl⟩
      cases ho : s.fs.openFileTable[x]? with
      | none => exact ⟨_, _, hclosed ho, iff_of_true rfl hleads⟩
      | some fi =>
        obtain ⟨i, hi, -⟩ := h.opened ho
        exact ⟨_, _, hopen fi i ho hi, iff_of_true rfl hleads⟩
  · rcases Fs.close_cases h fd true with ⟨hf, -⟩ | ⟨f, i, -, hp, hi, ⟨-, hm⟩ | ⟨-, -, hm⟩ |
      ⟨j, d, -, hdel, hj, hfile, hm⟩⟩
    · exact absurd ((hL.eq_none_iff fd).2 hf) hfd
    · exact ⟨_, hm⟩
    · exact ⟨_, hm⟩
    · -- the record is marked as deleted, as the object is
      obtain ⟨j', hj', hfile'⟩ := hS hp hi hdel
      obtain rfl := Option.some.inj (hj.symm.trans hj')
      rw [if_pos ⟨hfile.del_unique hfile', rfl⟩] at hm
      exact ⟨_, hm⟩
  · rcases Fs.close_cases h fd true with ⟨-, hm⟩ | ⟨f, i, hf, -⟩
    · exact hm
    · cases ((hL.eq_none_iff fd).1 hfd).symm.trans hf

theorem Turns.removes {fs fs' : Fs} {live : ℤ → Option Str} {call : Call} {reply : Reply} {k : Str}
    (h : Turns fs live call reply fs' k) :
    (Orphan fs k ∧ fs'.ddb[k]? = none) ↔ (Orphan fs k ∧ LastClose live call k) := by
  refine and_congr_right fun ho => ⟨fun hn => ?_, h.gone ho⟩
  by_contra hc
  obtain ⟨j, hj, -⟩ := h.orphan.2 (.inr ⟨ho, hc⟩)
  cases hn.symm.trans hj

theorem TracedStep.balanced (hI : Inv s.fs) (hL : InUse s.fs s.live) (h : Balanced s)
    (hs : TracedStep digest s l s') : Balanced s' := by
  classical
  intro k
  obtain ⟨⟨hok, hstep⟩, -, hmarks, hremovals⟩ := hs
  have ht := (hstep.effect hI).turns hI hL hok k
  have hk := h k
  rw [hmarks, hremovals]
  simp only [ht.removes, ht.orphan, hk]
  by_cases hu : UnlinksOpen s.fs s.live l.1 l.2 k
  · simp [hu, ht.fresh hu]
  · by_cases ho : Orphan s.fs k <;> by_cases hc : LastClose s.live l.1 k <;> simp [hu, ho, hc]

/-- What has been unlinked has no entry. -/
theorem TracedStep.unlinked (hI : Inv s.fs) (hs : TracedStep digest s l s') {file k : Str} {t : ℤ}
    (hop : l.1.op = .unlink file) (hrc : l.2.rc = 0) (hk : s.fs.leadsTo file = some (k, t))
    (d c : Str) : s'.fs.ddb.child d c ≠ some k := by
  obtain ⟨⟨hok, hstep⟩, -⟩ := hs
  have he := hstep.effect hI
  have hI' := he.inv hI
  rw [hI.wf.leadsTo_eq] at hk
  intro hc
  obtain ⟨t', hent⟩ := child_eq_some.1 hc
  generalize s'.fs = fs' at he hI' hent hc
  cases he with
  | unchanged hun => exact absurd (hun file hop) (by rw [hrc]; decide)
  | @linked path _ _ _ _ _ _ hop' =>
    rcases hop' with ⟨hop', -⟩ | ⟨hop', -⟩ <;> cases hop.symm.trans hop'
  | @removed path k' c' x t'' db hop' hr hx hchild hE hed =>
    rcases hop' with ⟨hop', -⟩ | ⟨hop', -⟩
    · cases hop.symm.trans hop'
    · obtain rfl : file = path := by simpa using hop.symm.trans hop'
      rw [hr] at hk
      obtain ⟨rfl, -⟩ := Prod.mk.inj (Option.some.inj hk)
      have hty := hI'.wf.entry hent
      simp [Store.type?, hE.leaf] at hty
  | @marked path k' c' x j fi i db hop' _ hr hx hi hj hjf hE hed =>
    obtain rfl : file = path := by simpa using hop.symm.trans hop'
    rw [hr] at hk
    obtain ⟨rfl, -⟩ := Prod.mk.inj (Option.some.inj hk)
    rcases hI'.wf.file hE.leaf (hjf.setDel 1) with ⟨h', -⟩ | ⟨-, hno⟩
    · exact absurd h' (by decide)
    · exact hno d c hc
  | flagged _ hfail => cases hok.symm.trans hfail
  | opened hop' => cases hop.symm.trans hop'
  | closed hop' => cases hop.symm.trans hop'
  | released hop' => cases hop.symm.trans hop'
  | purged hop' => cases hop.symm.trans hop'
  | wrote hop' => cases hop.symm.trans hop'

/-- The history of a run, and what it leaves of the deleted files. -/
theorem traced_of_runs {ls : List (Call × Reply)} {fs : Fs} (h : Runs (StepOk digest) Fs.mkfs ls fs) :
    ∃ s : Traced, Runs (TracedStep digest) .mkfs ls s ∧
      (s.fs = fs ∧ Inv fs ∧ InUse fs s.live ∧ Synced fs) ∧ Balanced s := by
  classical
  refine h.simulate (TracedStep digest)
    (fun fs s => (s.fs = fs ∧ Inv fs ∧ InUse fs s.live ∧ Synced fs) ∧ Balanced s) ?_ ?_
  · rintro fs l fs' s ⟨⟨rfl, hI, hL, hS⟩, hB⟩ hstep
    have he := hstep.2.effect hI
    have ht : TracedStep digest s l ⟨fs', liveAfter s.fs s.live l, fun k => s.marks k +
        if UnlinksOpen s.fs s.live l.1 l.2 k then 1 else 0, fun k => s.removals k +
        if Orphan s.fs k ∧ fs'.ddb[k]? = none then 1 else 0⟩ :=
      ⟨hstep, rfl, fun _ => rfl, fun _ => rfl⟩
    exact ⟨_, ht, ⟨rfl, he.inv hI, hstep.2.inUse hL hI, he.synced hI hS hstep.1⟩,
      ht.balanced hI hL hB⟩
  · refine ⟨⟨rfl, inv_mkfs, fun d => by simp [Traced.mkfs, Fs.mkfs],
      fun hp => by simp [Fs.mkfs] at hp⟩, fun k => ?_⟩
    have hno : ¬ Orphan Fs.mkfs k := by
      rintro ⟨j, hj, hf⟩
      exact inv_mkfs.deleted hj hf (by simp [Fs.mkfs])
    simp [Traced.mkfs, hno]

/-- In every state that calls reach from `mkfs` on, while the store writes and the keys are new, the
tables say which descriptors are in use and count them, `open` gives the lowest free one, and no
assert of `open`, `unlink` and `close` fails. The record of a file unlinked while open goes with the
last close, once for each time. -/
theorem file_lifetime {ls : List (Call × Reply)} {fs : Fs} (h : Runs (StepOk digest) Fs.mkfs ls fs) :
    ∃ s : Traced, Runs (TracedStep digest) .mkfs ls s ∧ s.fs = fs ∧ Lifetime s ∧ Returns s ∧
      Balanced s ∧ ∀ l s', TracedStep digest s l s' →
        (∀ k, (Orphan s'.fs k ↔ UnlinksOpen s.fs s.live l.1 l.2 k ∨
            (Orphan s.fs k ∧ ¬ LastClose s.live l.1 k)) ∧
          (Orphan s.fs k ∧ s'.fs.ddb[k]? = none ↔ Orphan s.fs k ∧ LastClose s.live l.1 k)) ∧
        ∀ file k t, l.1.op = .unlink file → l.2.rc = 0 → s.fs.leadsTo file = some (k, t) →
          ∀ d c, s'.fs.ddb.child d c ≠ some k := by
  obtain ⟨s, hruns, ⟨rfl, hI, hL, hS⟩, hB⟩ := traced_of_runs h
  refine ⟨s, hruns, rfl, hI.lifetime hL hS, hI.returns hL hS, hB, fun l s' hstep =>
    ⟨fun k => ?_, fun file k t hop hrc hk d c => hstep.unlinked hI hop hrc hk d c⟩⟩
  have ht := (hstep.1.2.effect hI).turns hI hL hstep.1.1 k
  exact ⟨ht.orphan, ht.removes⟩

end

def unlinkA : Call := ⟨.unlink ['a'], 0, true⟩

/-- The file of `openedA` without its entry. -/
def deletedA : Fs := openedA.next lengthDigest unlinkA

/-- Another file of that name. -/
def recreateA : Call := ⟨.create ['a'], 10, true⟩

def recreatedA : Fs := deletedA.next lengthDigest recreateA

def closeA : Call := ⟨.close 0, 0, true⟩

def closedA : Fs := recreatedA.next lengthDigest closeA

theorem runs_deletedA : Runs (StepOk lengthDigest) Fs.mkfs
    [(createA, ⟨0, none, []⟩), (openA, ⟨0, some 0, []⟩), (unlinkA, ⟨0, none, []⟩)] deletedA :=
  have hunlink : Step lengthDigest openedA (unlinkA, ⟨0, none, []⟩) deletedA := step_next trivial rfl
  runs_openedA.snoc ⟨rfl, hunlink⟩

theorem runs_closedA : Runs (StepOk lengthDigest) Fs.mkfs
    [(createA, ⟨0, none, []⟩), (openA, ⟨0, some 0, []⟩), (unlinkA, ⟨0, none, []⟩),
      (recreateA, ⟨0, none, []⟩), (closeA, ⟨0, none, []⟩)] closedA :=
  have hcreate : Step lengthDigest deletedA (recreateA, ⟨0, none, []⟩) recreatedA :=
    step_next rfl rfl
  have hclose : Step lengthDigest recreatedA (closeA, ⟨0, none, []⟩) closedA := step_next trivial rfl
  (runs_deletedA.snoc ⟨rfl, hcreate⟩).snoc ⟨rfl, hclose⟩

/-- The descriptor stays when its file is unlinked, and with it the record, until it is closed. The
other file of that name is not open. -/
theorem file_lifetime_closedA :
    (∃ s : Traced, s.fs = deletedA ∧ Lifetime s ∧
      s.live 0 = some (calcKey lengthDigest (pathConvert ['a']) 0) ∧
      Orphan s.fs (calcKey lengthDigest (pathConvert ['a']) 0)) ∧
    ∃ s : Traced, s.fs = closedA ∧ Lifetime s ∧ Balanced s ∧ s.live 0 = none ∧
      s.fs.ddb[calcKey lengthDigest (pathConvert ['a']) 0]? = none ∧
      s.fs.ddb.type? (calcKey lengthDigest (pathConvert ['a']) 10) = some FS_FILE := by
  obtain ⟨s, -, hs, h, -⟩ := file_lifetime runs_deletedA
  obtain ⟨s', -, hs', h', -, hB', -⟩ := file_lifetime runs_closedA
  refine ⟨⟨s, hs, h, ?_, ?_⟩, s', hs', h', hB', ?_, ?_, ?_⟩
  · rw [h.live, hs]
    rfl
  · obtain ⟨j, hj, hdel⟩ : ∃ j, deletedA.ddb[calcKey lengthDigest (pathConvert ['a']) 0]? = some j ∧
        j.type? = some FS_FILE ∧ j[KW_DEL]? = some (.num 1) := ⟨_, rfl, rfl, rfl⟩
    rw [← hs] at hj
    exact (h.flag hj hdel.1).1.1 hdel.2
  · rw [h'.live, hs']
    rfl
  · rw [hs']
    rfl
  · rw [hs']
    rfl

end CPPCodes.Rocksfs
