import CPPCodes.Rocksfs.Consistent

/-!
# Writes that fail

A call whose write fails returns an error and changes nothing, but for one case: `unlink` of an
open file sets the flag of the shared object before it writes. Where the flag was not set before,
the object then asks for the removal of a record that is not marked, and the last close stops at
the assert of `lazy_unlink`.
-/

namespace CPPCodes.Rocksfs

open Transition

/-- The calls that write. -/
def Op.Writes : Op → Prop
  | .mkdir _ | .rmdir _ | .create _ | .unlink _ | .pwrite _ _ _ => True
  | .open _ | .close _ | .pread _ _ _ => False

/-- The path of an `unlink` leads to an open file whose object is not marked as deleted. -/
def Flags (fs : Fs) (op : Op) : Prop :=
  ∃ path de fi i, op = .unlink path ∧ namei fs.ddb (pathConvert path) = .ok (0, some de) ∧
    fs.openFileTable[de.key]? = some fi ∧ fs.impls[fi]? = some i ∧ i.deleted = false

theorem not_flags {fs : Fs} {op : Op} (h : ∀ path, op ≠ .unlink path) : ¬ Flags fs op := by
  rintro ⟨path, _, _, _, hop, -⟩
  exact h path hop

/-- The call has left everything as it was. -/
def Untouched (fs : Fs) (rc : ℤ) (fs' : Fs) : Prop :=
  rc < 0 ∧ fs' = fs ∧ ∀ fd ok, fs'.close fd ok = fs.close fd ok

theorem Untouched.of_eq {fs fs' : Fs} {rc : ℤ} (hrc : rc < 0) (h : fs' = fs) :
    Untouched fs rc fs' := by
  subst h
  exact ⟨hrc, rfl, fun _ _ => rfl⟩

theorem neg_resolve_error {db : Store} {k : Str} {cs : List Str} {e : ℤ}
    (h : resolve db k cs = .error e) : -e < 0 := by
  rcases resolve_error h with rfl | rfl <;> decide

namespace Fs

variable {digest : Str → List Int8} {fs fs' : Fs} {rc : ℤ}

theorem make_failed (h : Wf fs.ddb) {init : Str → Str → Str → Json} {t : ℤ} {path : Str} {now : ℕ}
    (hm : fs.make digest init t path now false = .ok (rc, fs')) : Untouched fs rc fs' := by
  rcases make_cases digest init t path now false h with
    ⟨_, -, h'⟩ | ⟨_, _, e, -, he, h'⟩ | ⟨_, _, _, _, -, -, -, -, -, h'⟩
  · obtain ⟨rfl, rfl⟩ := Prod.mk.inj (Except.ok.inj (h'.symm.trans hm))
    exact .of_eq (by decide) rfl
  · obtain ⟨rfl, rfl⟩ := Prod.mk.inj (Except.ok.inj (h'.symm.trans hm))
    exact .of_eq (by have := resolveDir_pos he; omega) rfl
  · obtain ⟨rfl, rfl⟩ := Prod.mk.inj (Except.ok.inj (h'.symm.trans hm))
    exact .of_eq (by decide) rfl

theorem rmdir_failed (h : Wf fs.ddb) {dir : Str} (hm : fs.rmdir dir false = .ok (rc, fs')) :
    Untouched fs rc fs' := by
  by_cases hp : components dir = []
  · rcases rmdir_root h hp with ⟨_, hrc, h'⟩ | h'
    · obtain ⟨rfl, rfl⟩ := Prod.mk.inj (Except.ok.inj ((h' false).symm.trans hm))
      exact .of_eq hrc rfl
    · cases (h' false).symm.trans hm
  rcases rmdir_cases h hp false with ⟨e, he, h'⟩ | ⟨_, _, -, -, h'⟩ | ⟨_, _, _, -, -, h'⟩ |
    ⟨_, _, _, _, _, -, -, -, -, -, -, h'⟩
  · obtain ⟨rfl, rfl⟩ := Prod.mk.inj (Except.ok.inj (h'.symm.trans hm))
    exact .of_eq (neg_resolve_error he) rfl
  · obtain ⟨rfl, rfl⟩ := Prod.mk.inj (Except.ok.inj (h'.symm.trans hm))
    exact .of_eq (by decide) rfl
  · obtain ⟨rfl, rfl⟩ := Prod.mk.inj (Except.ok.inj (h'.symm.trans hm))
    exact .of_eq (by decide) rfl
  · obtain ⟨rfl, rfl⟩ := Prod.mk.inj (Except.ok.inj (h'.symm.trans hm))
    exact .of_eq (by decide) rfl

theorem pwrite_failed {fd offset : ℤ} {buf : List UInt8}
    (hm : fs.pwrite fd buf offset false = .ok (rc, fs')) : Untouched fs rc fs' := by
  unfold pwrite at hm
  split at hm
  · obtain ⟨rfl, rfl⟩ := Prod.mk.inj (Except.ok.inj hm)
    exact .of_eq (by decide) rfl
  · obtain ⟨i, -, hm⟩ := bind_eq_ok.1 hm
    obtain ⟨⟨rc', db⟩, hw, hm⟩ := bind_eq_ok.1 hm
    obtain ⟨⟨batch, n⟩, -, hw⟩ := bind_eq_ok.1 hw
    obtain ⟨rfl, rfl⟩ := Prod.mk.inj (Except.ok.inj hw)
    obtain ⟨rfl, rfl⟩ := Prod.mk.inj (Except.ok.inj hm)
    exact .of_eq (by decide) rfl

/-- Setting the flag changes the state unless it is set. -/
theorem setImpl_markDeleted {fi : ℕ} {i : RocksfileImpl} (hi : fs.impls[fi]? = some i) :
    fs.setImpl fi i.markDeleted = fs ↔ i.deleted = true := by
  obtain ⟨hlt, hget⟩ := List.getElem?_eq_some_iff.1 hi
  refine ⟨fun h => ?_, fun h => ?_⟩
  · have himpls := congrArg (fun s : Fs => s.impls[fi]?) h
    simp only [setImpl, List.getElem?_set_self hlt, hi, Option.some.injEq] at himpls
    rw [← himpls]
    rfl
  · have hsame : i.markDeleted = i := by
      unfold RocksfileImpl.markDeleted
      rw [← h]
    have hset : fs.impls.set fi i = fs.impls := by rw [← hget, List.set_getElem_self]
    rw [setImpl, hsame, hset]

theorem flags_iff (h : Wf fs.ddb) {file x : Str} {t : ℤ}
    (hr : resolve fs.ddb rootName (components file) = .ok (x, t)) :
    Flags fs (.unlink file) ↔ ∃ fi i, fs.openFileTable[x]? = some fi ∧ fs.impls[fi]? = some i ∧
      i.deleted = false := by
  constructor
  · rintro ⟨path, de, fi, i, hop, hn, ho, hi, hd⟩
    obtain rfl : file = path := by simpa using hop
    rw [namei_key h hr hn] at ho
    exact ⟨fi, i, ho, hi, hd⟩
  · rintro ⟨fi, i, ho, hi, hd⟩
    obtain ⟨name, hn⟩ := namei_pathConvert_ok h hr
    exact ⟨file, _, fi, i, rfl, hn, ho, hi, hd⟩

theorem not_flags_of_error (h : Wf fs.ddb) {file : Str} {e : ℤ}
    (hr : resolve fs.ddb rootName (components file) = .error e) : ¬ Flags fs (.unlink file) := by
  rintro ⟨path, de, fi, i, hop, hn, -⟩
  obtain rfl : file = path := by simpa using hop
  rw [(namei_pathConvert_error h hr).1] at hn
  exact absurd (Prod.mk.inj (Except.ok.inj hn)).2 (by simp)

theorem unlink_failed (h : Inv fs) {file : Str} (hm : fs.unlink file false = .ok (rc, fs')) :
    Untouched fs rc fs' ↔ ¬ Flags fs (.unlink file) := by
  rcases unlink_cases h.wf file false with ⟨e, he, h'⟩ | ⟨x, hr, h'⟩ |
    ⟨q, c, k, j, x, fj, hqc, hk, hj, hd, he, hfj, hfile, hclosed, hopen⟩
  · obtain ⟨rfl, rfl⟩ := Prod.mk.inj (Except.ok.inj (h'.symm.trans hm))
    exact iff_of_true (.of_eq (neg_resolve_error he) rfl) (not_flags_of_error h.wf he)
  · -- a directory is not open
    obtain ⟨rfl, rfl⟩ := Prod.mk.inj (Except.ok.inj (h'.symm.trans hm))
    refine iff_of_true (.of_eq (by decide) rfl) ?_
    rw [flags_iff h.wf hr]
    rintro ⟨fi, i, ho, -⟩
    obtain ⟨jd, hjd, hdir⟩ := h.wf.isDir_of_type (h.wf.resolve_type h.wf.root_type hr)
    obtain ⟨-, -, -, -, -, j, d, hj, hf, -⟩ := h.opened ho
    exact hf.not_isDir (Option.some.inj (hjd.symm.trans hj) ▸ hdir)
  · have hr : resolve fs.ddb rootName (components file) = .ok (x, FS_FILE) := by
      rw [hqc, resolve_concat, hk]
      simp only [he]
    rw [flags_iff h.wf hr]
    cases ho : fs.openFileTable[x]? with
    | none =>
      obtain ⟨rfl, rfl⟩ := Prod.mk.inj (Except.ok.inj ((hclosed ho).symm.trans hm))
      exact iff_of_true (.of_eq (by decide) rfl) (by simp)
    | some fi =>
      obtain ⟨i, hi, -⟩ := h.opened ho
      obtain ⟨rfl, rfl⟩ := Prod.mk.inj (Except.ok.inj ((hopen fi i ho hi).symm.trans hm))
      have hsame : Untouched fs (-EINVAL) (fs.setImpl fi i.markDeleted) ↔ i.deleted = true :=
        ⟨fun hu => (setImpl_markDeleted hi).1 hu.2.1, fun hd =>
          .of_eq (by decide) ((setImpl_markDeleted hi).2 hd)⟩
      exact hsame.trans (by simp [hi])

/-- What stops a call with a failing write stops the call before the write. -/
theorem stops_before_write (h : Inv fs) {op : Op} (hop : op.Writes) {now : ℕ} {e : Fault}
    (he : fs.exec digest ⟨op, now, false⟩ = .error e) :
    fs.exec digest ⟨op, now, true⟩ = .error e := by
  have hmake : ∀ init t path, ∃ rc fs', fs.make digest init t path now false = .ok (rc, fs') := by
    intro init t path
    rcases make_cases digest init t path now false h.wf with
      ⟨_, -, h'⟩ | ⟨_, _, _, -, -, h'⟩ | ⟨_, _, _, _, -, -, -, -, -, h'⟩ <;> exact ⟨_, _, h'⟩
  cases op with
  | mkdir dir =>
    obtain ⟨rc, fs', hm⟩ := hmake (fun name dk pdk => dirJsonInit name dk pdk) FS_DIRECTORY dir
    simp [exec, mkdir, hm, bind, Except.bind, pure, Except.pure] at he
  | create file =>
    obtain ⟨rc, fs', hm⟩ := hmake (fun name fk dk => fileJsonInit name dk fk) FS_FILE file
    simp [exec, create, hm, bind, Except.bind, pure, Except.pure] at he
  | unlink file =>
    obtain ⟨rc, fs', hm, -⟩ := unlink_effect digest ⟨.unlink file, 0, false⟩ h rfl
    simp [exec, hm, bind, Except.bind, pure, Except.pure] at he
  | rmdir dir =>
    by_cases hp : components dir = []
    · rcases rmdir_root h.wf hp with ⟨_, -, hm⟩ | hm
      · simp [exec, hm, bind, Except.bind, pure, Except.pure] at he
      · simpa [exec, hm, bind, Except.bind] using he
    · rcases rmdir_cases h.wf hp false with ⟨_, -, hm⟩ | ⟨_, _, -, -, hm⟩ | ⟨_, _, _, -, -, hm⟩ |
        ⟨_, _, _, _, _, -, -, -, -, -, -, hm⟩ <;>
        simp [exec, hm, bind, Except.bind, pure, Except.pure] at he
  | pwrite fd buf offset =>
    simp only [exec, pwrite] at he ⊢
    cases hf : fs.fdTable[fd]? with
    | none => simp [hf, bind, Except.bind, pure, Except.pure] at he
    | some f =>
      simp only [hf] at he ⊢
      cases hi : fs.impl f.fi with
      | error e' => simpa [hi, bind, Except.bind] using he
      | ok i =>
        cases hl : i.writeLoop (i.ioBlocks offset buf.length).1 (i.ioBlocks offset buf.length).2 buf
            offset with
        | error e' => simpa [hi, RocksfileImpl.write, hl, bind, Except.bind] using he
        | ok r => simp [hi, RocksfileImpl.write, hl, bind, Except.bind, pure, Except.pure] at he
  | «open» file => exact hop.elim
  | close fd => exact hop.elim
  | pread fd buf offset => exact hop.elim

end Fs

/-- From `mkfs` on, whatever is called and whether the store writes or not: a call whose write fails
returns an error and leaves all as it was, unless it is an `unlink` of an open file that is not
marked as deleted, and then it does not. A call that does not return does not come to the write. -/
theorem failed_write_iff {digest : Str → List Int8} {fs : Fs} (h : Reach (Step digest) Fs.mkfs fs)
    (op : Op) (hop : op.Writes) (now : ℕ) :
    (∀ e, fs.exec digest ⟨op, now, false⟩ = .error e →
      fs.exec digest ⟨op, now, true⟩ = .error e) ∧
    ∀ reply fs', fs.exec digest ⟨op, now, false⟩ = .ok (reply, fs') →
      (Untouched fs reply.rc fs' ↔ ¬ Flags fs op) := by
  have hI : Inv fs := reach_inv h
  refine ⟨fun e => Fs.stops_before_write hI hop, fun reply fs' hexec => ?_⟩
  cases op with
  | mkdir dir =>
    obtain ⟨rc, hm, rfl⟩ := returned hexec
    exact iff_of_true (Fs.make_failed hI.wf hm) (not_flags fun path h => by cases h)
  | create file =>
    obtain ⟨rc, hm, rfl⟩ := returned hexec
    exact iff_of_true (Fs.make_failed hI.wf hm) (not_flags fun path h => by cases h)
  | rmdir dir =>
    obtain ⟨rc, hm, rfl⟩ := returned hexec
    exact iff_of_true (Fs.rmdir_failed hI.wf hm) (not_flags fun path h => by cases h)
  | unlink file =>
    obtain ⟨rc, hm, rfl⟩ := returned hexec
    exact Fs.unlink_failed hI hm
  | pwrite fd buf offset =>
    obtain ⟨rc, hm, rfl⟩ := returned hexec
    exact iff_of_true (Fs.pwrite_failed hm) (not_flags fun path h => by cases h)
  | «open» file => exact hop.elim
  | close fd => exact hop.elim
  | pread fd buf offset => exact hop.elim

theorem step_unlink_openedA :
    Step lengthDigest openedA (⟨.unlink ['a'], 0, false⟩, ⟨-EINVAL, none, []⟩)
      (openedA.next lengthDigest ⟨.unlink ['a'], 0, false⟩) := step_next trivial rfl

/-- The unlink of an open file fails, and has flagged it. -/
theorem failed_write_iff_openedA :
    ¬ Untouched openedA (-EINVAL) (openedA.next lengthDigest ⟨.unlink ['a'], 0, false⟩) := by
  have hflags : Flags openedA (.unlink ['a']) := ⟨_, _, _, _, rfl, rfl, rfl, rfl, rfl⟩
  have hiff := (failed_write_iff reach_openedA (.unlink ['a']) trivial 0).2 _ _
    step_unlink_openedA.2
  exact fun hun => hiff.1 hun hflags

/-- The unlink of the open file fails, and then its close does not return, which it does without
the unlink. -/
theorem failed_unlink_openedA :
    ¬ ∀ digest fs op now reply fs', Reach (Step digest) Fs.mkfs fs → Op.Writes op →
      fs.exec digest ⟨op, now, false⟩ = .ok (reply, fs') → Untouched fs reply.rc fs' := by
  intro h
  have hclose := (h _ _ (.unlink ['a']) _ _ _ reach_openedA trivial step_unlink_openedA.2).2.2 0 true
  have hbefore : (openedA.close 0 true).isOk = true := rfl
  have hafter : ((openedA.next lengthDigest ⟨.unlink ['a'], 0, false⟩).close 0 true).isOk = false :=
    rfl
  rw [hclose, hbefore] at hafter
  cases hafter

end CPPCodes.Rocksfs
