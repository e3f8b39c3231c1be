import CPPCodes.Lib.Transition
import CPPCodes.Rocksfs.Blocks
import CPPCodes.Rocksfs.Invariant

/-!
# All a call can do

`Effect` says once what a call that returns has done to the state: nothing, one edit of the tree,
one change of the tables, or a batch of blocks. A call on a state with the invariant has an effect
(`Step.effect`), and an effect keeps the invariant (`Effect.inv`).
-/

namespace CPPCodes.Rocksfs

open Transition

/-- What a call has done when it returns `reply`. -/
inductive Effect (digest : Str → List Int8) (fs : Fs) (call : Call) (reply : Reply) : Fs → Prop
  | unchanged : (∀ file, call.op = .unlink file → reply.rc < 0) →
      (∀ fd, call.op = .close fd → fs.fdTable[fd]? = none) → Effect digest fs call reply fs
  | linked {path k c x : Str} {t : ℤ} {r : Json} {db : Store} :
      (call.op = .mkdir path ∧ t = FS_DIRECTORY) ∨ (call.op = .create path ∧ t = FS_FILE) →
      x = calcKey digest (pathConvert path) call.now → fs.ddb[x]? = none →
      Edited fs.ddb k c x (some t) (some r) db → Editable fs.ddb k c x (some t) (some r) →
      Effect digest fs call reply { fs with ddb := db }
  | removed {path k c x : Str} {t : ℤ} {db : Store} :
      (call.op = .rmdir path ∧ t = FS_DIRECTORY) ∨ (call.op = .unlink path ∧ t = FS_FILE) →
      resolve fs.ddb rootName (components path) = .ok (x, t) → fs.openFileTable[x]? = none →
      fs.ddb.child k c = some x → Edited fs.ddb k c x none none db → Editable fs.ddb k c x none none →
      Effect digest fs call reply { fs with ddb := db }
  | marked {path k c x : Str} {j : Json} {fi : ℕ} {i : RocksfileImpl} {db : Store} :
      call.op = .unlink path → reply.rc = 0 →
      resolve fs.ddb rootName (components path) = .ok (x, FS_FILE) →
      fs.openFileTable[x]? = some fi → fs.impls[fi]? = some i → fs.ddb[x]? = some j → IsFile j 0 →
      Edited fs.ddb k c x none (some (j.insert KW_DEL (.num 1))) db →
      Editable fs.ddb k c x none (some (j.insert KW_DEL (.num 1))) →
      Effect digest fs call reply { fs.setImpl fi i.markDeleted with ddb := db }
  | flagged {path x : Str} {fi : ℕ} {i : RocksfileImpl} :
      call.op = .unlink path → call.ok = false → reply.rc < 0 →
      resolve fs.ddb rootName (components path) = .ok (x, FS_FILE) →
      fs.openFileTable[x]? = some fi → fs.impls[fi]? = some i →
      Effect digest fs call reply (fs.setImpl fi i.markDeleted)
  | opened {file x : Str} {j : Json} {fd : ℤ} {fi : ℕ} {i : RocksfileImpl} {fs' : Fs} :
      call.op = .open file → reply.fd = some fd →
      resolve fs.ddb rootName (components file) = .ok (x, FS_FILE) →
      fs.ddb[x]? = some j → IsFile j 0 → Fs.Opened fs x fd fi i fs' → Effect digest fs call reply fs'
  | closed {fd : ℤ} {f : Rocksfile} {i : RocksfileImpl} :
      call.op = .close fd → fs.fdTable[fd]? = some f → fs.openFileTable[f.key]? = some f.fi →
      fs.impls[f.fi]? = some i → 1 < (fs.descriptors f.key).card →
      Effect digest fs call reply (fs.closed fd f i)
  | released {fd : ℤ} {f : Rocksfile} {i : RocksfileImpl} :
      call.op = .close fd → fs.fdTable[fd]? = some f → fs.openFileTable[f.key]? = some f.fi →
      fs.impls[f.fi]? = some i → (fs.descriptors f.key).card = 1 → i.deleted = false →
      Effect digest fs call reply ((fs.closed fd f i).markFileClosed f.key)
  | purged {fd : ℤ} {f : Rocksfile} {i : RocksfileImpl} {j : Json} :
      call.op = .close fd → fs.fdTable[fd]? = some f → fs.openFileTable[f.key]? = some f.fi →
      fs.impls[f.fi]? = some i → (fs.descriptors f.key).card = 1 → i.deleted = true →
      fs.ddb[f.key]? = some j → IsFile j 1 →
      Effect digest fs call reply
        { (fs.closed fd f i).markFileClosed f.key with ddb := fs.ddb.erase f.key }
  | wrote {fd offset : ℤ} {buf : List UInt8} {f : Rocksfile} {batch : List Update} :
      call.op = .pwrite fd buf offset → fs.fdTable[fd]? = some f → BlockBatch f.key batch →
      Effect digest fs call reply { fs with ddb := fs.ddb.write call.ok batch }

theorem Effect.inv {digest : Str → List Int8} {fs fs' : Fs} {call : Call} {reply : Reply}
    (h : Inv fs) (he : Effect digest fs call reply fs') : Inv fs' := by
  cases he with
  | unchanged => exact h
  | @linked path k c x t r db hop hkey hx he hed =>
    refine h.edited he hed (fun {p i} hp _ => ?_) fun {r'} _ hl => by cases hl
    obtain ⟨-, -, -, -, -, j, d, hj, -⟩ := h.opened hp
    rw [hx] at hj
    cases hj
  | @removed path k c x t db hop hr hx hent he hed =>
    refine h.edited he hed (fun {p i} hp _ => ?_) fun {r} hr _ => by cases hr
    rw [hx] at hp
    cases hp
  | @marked path k c x j fi i db hop hrc hr hx hi hj hjf he hed =>
    refine (h.markDeleted hx hi).edited he hed (fun {p i'} hp hi' => ?_) fun _ _ => ?_
    · obtain rfl := Option.some.inj (hx.symm.trans hp)
      have hlt : fi < fs.impls.length := (List.getElem?_eq_some_iff.1 hi).1
      simp only [Fs.setImpl, List.getElem?_set_self hlt] at hi'
      exact ⟨_, rfl, rfl, Option.some.inj hi' ▸ rfl⟩
    · show fs.openFileTable[x]? ≠ none
      simp [hx]
  | flagged hop hok hrc hr hx hi => exact h.markDeleted hx hi
  | opened hop hfd hr hj hjf hO => exact h.opened_step hj hjf hO
  | closed hop hf hp hi hcard => exact h.closed hf hp hi hcard
  | @released fd f i hop hf hp hi hcard hdel =>
    refine h.closed_last i hf hp hcard h.wf (fun _ => rfl) fun {j} hj hfile => ?_
    obtain ⟨j', d, hj', hf', hd⟩ := h.record hp hi
    obtain rfl := Option.some.inj (hj'.symm.trans hj)
    exact absurd (hd (hf'.del_unique hfile)) (by simp [hdel])
  | @purged fd f i j hop hf hp hi hcard hdel hj hfile =>
    obtain ⟨hedited, heditable⟩ := edited_purge h.wf hj hfile
    refine h.closed_last i hf hp hcard (hedited.wf heditable h.wf)
      (fun {k} hk => ?_) fun {j} hj => ?_
    · rw [getElem?_delete, if_neg hk]
    · rw [getElem?_delete, if_pos rfl] at hj
      cases hj
  | @wrote fd offset buf f batch hop hf hb =>
    obtain ⟨hwf, -, -, -, hmeta⟩ := hb.wf h.wf call.ok
    refine h.of_ddb hwf (fun {k p i} hp hi => ?_) fun {k j} hj hfile => ?_
    · obtain ⟨j, d, hj, hfile, hd⟩ := h.record hp hi
      exact ⟨j, d, (hmeta (h.wf.file_colon hj hfile)).trans hj, hfile, hd⟩
    · exact h.deleted ((hmeta (hwf.file_colon hj hfile)).symm.trans hj) hfile

section

variable {digest : Str → List Int8} {fs : Fs} {call : Call}

theorem bind_eq_ok {α β : Type} {x : Except Fault α} {g : α → Except Fault β} {b : β} :
    (x >>= g) = .ok b ↔ ∃ a, x = .ok a ∧ g a = .ok b := by
  cases x <;> simp [bind, Except.bind]

/-- What a call returned that gives back no more than its return value. -/
theorem returned {x : Except Fault (ℤ × Fs)} {reply : Reply} {fs' : Fs}
    (h : (do let (rc, fs) ← x; return (⟨rc, none, []⟩, fs)) = Except.ok (reply, fs')) :
    ∃ rc, x = .ok (rc, fs') ∧ ⟨rc, none, []⟩ = reply := by
  obtain ⟨⟨rc, fs₁⟩, hx, h⟩ := bind_eq_ok.1 h
  obtain ⟨rfl, rfl⟩ := Prod.mk.inj (Except.ok.inj h)
  exact ⟨rc, hx, rfl⟩

/-- What `make` returns and what it has done, where it keeps its record's type. -/
theorem make_effect (h : Inv fs) {init : Str → Str → Str → Json} {t : ℤ} {path : Str}
    (hop : (call.op = .mkdir path ∧ t = FS_DIRECTORY) ∨ (call.op = .create path ∧ t = FS_FILE))
    (hinit : ∀ c x k, Flat (init c x k) ∧
      ((t = FS_DIRECTORY ∧ IsDir (init c x k)) ∨ (t = FS_FILE ∧ IsFile (init c x k) 0)))
    (hfresh : fs.ddb[calcKey digest (pathConvert path) call.now]? = none) :
    ∃ rc fs', fs.make digest init t path call.now call.ok = .ok (rc, fs') ∧
      Effect digest fs call ⟨rc, none, []⟩ fs' := by
  have hsame : ∀ rc, Effect digest fs call ⟨rc, none, []⟩ fs := fun rc => by
    refine .unchanged (fun file hf => ?_) fun fd hf => ?_
    · rcases hop with ⟨hop, -⟩ | ⟨hop, -⟩ <;> rw [hop] at hf <;> cases hf
    · rcases hop with ⟨hop, -⟩ | ⟨hop, -⟩ <;> rw [hop] at hf <;> cases hf
  rcases Fs.make_cases digest init t path call.now call.ok h.wf with
    ⟨_, -, hm⟩ | ⟨_, _, _, -, -, hm⟩ | ⟨q, c, k, j, hp, -, hj, hd, hnone, hm⟩
  · exact ⟨_, _, hm, hsame _⟩
  · exact ⟨_, _, hm, hsame _⟩
  · refine ⟨_, _, hm, ?_⟩
    cases hok : call.ok with
    | false => exact hsame _
    | true =>
      have hc : IsName c := isName_of_mem_components (show c ∈ components path by simp [hp])
      have hed := editable_link h.wf hj hfresh (colon_notMem_calcKey digest _ _) hc hnone
        (hinit c (calcKey digest (pathConvert path) call.now) k)
      exact .linked hop rfl hfresh (edited_link hj hd hed.ne t _) hed

/-- On the root `rmdir` changes nothing: it returns an error, or it reads the parent's dentry,
which the walk of the empty path has left alone. -/
theorem rmdir_root {dir : Str} (h : Wf fs.ddb) (hp : components dir = []) :
    (∃ rc, rc < 0 ∧ ∀ ok, fs.rmdir dir ok = .ok (rc, fs)) ∨
      ∀ ok, fs.rmdir dir ok = .error .undefined := by
  by_cases hlen : dir.length = 0
  · exact .inl ⟨-ENOTDIR, by decide, fun ok => by simp [Fs.rmdir, hlen]; rfl⟩
  obtain ⟨name, hn⟩ := namei_pathConvert_ok h
    (show resolve fs.ddb rootName (components dir) = .ok (rootName, FS_DIRECTORY) by rw [hp]; rfl)
  obtain ⟨jr, hjr, hdr, -⟩ := h.root
  obtain ⟨b, hb, -⟩ := Fs.isDirEmpty_eq hjr hdr
  cases b with
  | false =>
    exact .inl ⟨-ENOTEMPTY, by decide, fun ok => by
      simp [Fs.rmdir, hlen, hn, initialized, hb, bind, Except.bind, pure, Except.pure]⟩
  | true =>
    have hl : lookup fs.ddb (pathConvert dir) = .error .undefined := by
      rw [pathConvert_eq, hp]
      rfl
    exact .inr fun ok => by simp [Fs.rmdir, hlen, hn, initialized, hb, hl, bind, Except.bind]

theorem rmdir_effect (h : Inv fs) {dir : Str} (hop : call.op = .rmdir dir) {rc : ℤ} {fs' : Fs}
    (hr : fs.rmdir dir call.ok = .ok (rc, fs')) : Effect digest fs call ⟨rc, none, []⟩ fs' := by
  have hsame : Effect digest fs call ⟨rc, none, []⟩ fs :=
    .unchanged (fun file hf => by rw [hop] at hf; cases hf) fun fd hf => by
      rw [hop] at hf
      cases hf
  by_cases hp : components dir = []
  · rcases rmdir_root h.wf hp with ⟨_, -, hm⟩ | hm
    · obtain ⟨rfl, rfl⟩ := Prod.mk.inj (Except.ok.inj ((hm call.ok).symm.trans hr))
      exact hsame
    · cases (hm call.ok).symm.trans hr
  rcases Fs.rmdir_cases h.wf hp call.ok with ⟨_, -, hm⟩ | ⟨_, _, -, -, hm⟩ | ⟨_, _, _, -, -, hm⟩ |
    ⟨q, c, k, j, x, hqc, hk, hj, hd, he, hbelow, hm⟩
  · obtain ⟨rfl, rfl⟩ := Prod.mk.inj (Except.ok.inj (hm.symm.trans hr))
    exact hsame
  · obtain ⟨rfl, rfl⟩ := Prod.mk.inj (Except.ok.inj (hm.symm.trans hr))
    exact hsame
  · obtain ⟨rfl, rfl⟩ := Prod.mk.inj (Except.ok.inj (hm.symm.trans hr))
    exact hsame
  · rw [hm] at hr
    cases hok : call.ok with
    | false =>
      rw [hok] at hr
      obtain ⟨rfl, rfl⟩ := Prod.mk.inj (Except.ok.inj hr)
      exact hsame
    | true =>
      rw [hok] at hr
      obtain ⟨rfl, rfl⟩ := Prod.mk.inj (Except.ok.inj hr)
      have hed := editable_unlink h.wf he hbelow none fun h' => by cases h'
      have hclosed : fs.openFileTable[x]? = none := by
        cases ho : fs.openFileTable[x]? with
        | none => rfl
        | some p =>
          obtain ⟨i, -, -, -, -, jx, d, hjx, hfile, -⟩ := h.opened ho
          obtain ⟨jd, hjd, hdir⟩ := h.wf.isDir_of_type (h.wf.entry he)
          rw [hjx] at hjd
          exact absurd (Option.some.inj hjd ▸ hdir) hfile.not_isDir
      refine .removed (.inl ⟨hop, rfl⟩) ?_ hclosed (child_eq_some.2 ⟨_, he⟩)
        (edited_unlink hj hd hed.ne) hed
      rw [hqc, resolve_concat, hk]
      simp only [he]

theorem unlink_effect (digest : Str → List Int8) (call : Call) (h : Inv fs) {file : Str}
    (hop : call.op = .unlink file) :
    ∃ rc fs', fs.unlink file call.ok = .ok (rc, fs') ∧
      Effect digest fs call ⟨rc, none, []⟩ fs' := by
  have hsame : ∀ {rc}, rc < 0 → Effect digest fs call ⟨rc, none, []⟩ fs := fun hrc =>
    .unchanged (fun _ _ => hrc) fun fd hf => by
      rw [hop] at hf
      cases hf
  rcases Fs.unlink_cases h.wf file call.ok with ⟨e, he, hm⟩ | ⟨_, -, hm⟩ |
    ⟨q, c, k, j, x, fj, hqc, hk, hj, hd, he, hfj, hfile, hclosed, hopen⟩
  · refine ⟨_, _, hm, hsame ?_⟩
    rcases resolve_error he with rfl | rfl <;> decide
  · exact ⟨_, _, hm, hsame (by decide)⟩
  · have hbelow : ∀ d, fs.ddb.entryOf x d = none := fun d => by
      simp only [Store.entryOf, hfj, Option.bind_some]
      exact hfile.flat.entryOf d
    have hr : resolve fs.ddb rootName (components file) = .ok (x, FS_FILE) := by
      rw [hqc, resolve_concat, hk]
      simp only [he]
    cases ho : fs.openFileTable[x]? with
    | none =>
      have hed := editable_unlink h.wf he hbelow none fun h' => by cases h'
      refine ⟨_, _, hclosed ho, ?_⟩
      cases hok : call.ok with
      | false => exact hsame (by decide)
      | true =>
        exact .removed (.inr ⟨hop, rfl⟩) hr ho (child_eq_some.2 ⟨_, he⟩)
          (edited_unlink hj hd hed.ne) hed
    | some fi =>
      obtain ⟨i, hi, -⟩ := h.opened ho
      have hed := editable_unlink h.wf he hbelow (some (fj.insert KW_DEL (.num 1)))
        fun h' => Option.some.inj h' ▸ hfile.setDel 1
      refine ⟨_, _, hopen fi i ho hi, ?_⟩
      cases hok : call.ok with
      | false => exact .flagged hop hok (by decide) hr ho hi
      | true => exact .marked hop rfl hr ho hi hfj hfile (edited_mark hj hd hed.ne _) hed

theorem open_effect (h : Inv fs) {file : Str} (hop : call.op = .open file) {rc : ℤ} {fd : Option ℤ}
    {fs' : Fs} (hr : fs.open file = .ok (rc, fd, fs')) :
    Effect digest fs call ⟨rc, fd, []⟩ fs' := by
  have hsame : Effect digest fs call ⟨rc, fd, []⟩ fs :=
    .unchanged (fun file hf => by rw [hop] at hf; cases hf) fun fd hf => by
      rw [hop] at hf
      cases hf
  rcases Fs.open_cases h file with ⟨_, -, hm⟩ | ⟨_, -, hm⟩ |
    ⟨x, j, hx, hj, hfile, ⟨hm, -⟩ | ⟨d, fi, i, fs₁, hm, hO⟩⟩
  · simp only [hm, Except.ok.injEq, Prod.mk.injEq] at hr
    obtain ⟨-, -, rfl⟩ := hr
    exact hsame
  · simp only [hm, Except.ok.injEq, Prod.mk.injEq] at hr
    obtain ⟨-, -, rfl⟩ := hr
    exact hsame
  · cases hm.symm.trans hr
  · simp only [hm, Except.ok.injEq, Prod.mk.injEq] at hr
    obtain ⟨-, rfl, rfl⟩ := hr
    exact .opened hop rfl hx hj hfile hO

theorem close_effect (h : Inv fs) {fd : ℤ} (hop : call.op = .close fd) {rc : ℤ} {fs' : Fs}
    (hr : fs.close fd call.ok = .ok (rc, fs')) : Effect digest fs call ⟨rc, none, []⟩ fs' := by
  rcases Fs.close_cases h fd call.ok with ⟨hf, hm⟩ | ⟨f, i, hf, hp, hi, ⟨hcard, hm⟩ |
    ⟨hcard, hdel, hm⟩ | ⟨j, d, hcard, hdel, hj, hfile, hm⟩⟩
  · obtain ⟨rfl, rfl⟩ := Prod.mk.inj (Except.ok.inj (hm.symm.trans hr))
    refine .unchanged (fun file hf => ?_) fun fd' hf' => ?_
    · rw [hop] at hf
      cases hf
    · rw [hop] at hf'
      cases hf'
      exact hf
  · obtain ⟨rfl, rfl⟩ := Prod.mk.inj (Except.ok.inj (hm.symm.trans hr))
    exact .closed hop hf hp hi hcard
  · obtain ⟨rfl, rfl⟩ := Prod.mk.inj (Except.ok.inj (hm.symm.trans hr))
    exact .released hop hf hp hi hcard hdel
  · rw [hm] at hr
    split_ifs at hr with hd
    obtain ⟨rfl, rfl⟩ := Prod.mk.inj (Except.ok.inj hr)
    exact .purged hop hf hp hi hcard hdel hj (hd.1 ▸ hfile)

theorem pwrite_effect (h : Inv fs) {fd offset : ℤ} {buf : List UInt8}
    (hop : call.op = .pwrite fd buf offset) {rc : ℤ} {fs' : Fs}
    (hr : fs.pwrite fd buf offset call.ok = .ok (rc, fs')) :
    Effect digest fs call ⟨rc, none, []⟩ fs' := by
  unfold Fs.pwrite at hr
  cases hf : fs.fdTable[fd]? with
  | none =>
    simp only [hf] at hr
    obtain ⟨rfl, rfl⟩ := Prod.mk.inj (Except.ok.inj hr)
    refine .unchanged (fun file hf => ?_) fun fd' hf' => ?_
    · rw [hop] at hf
      cases hf
    · rw [hop] at hf'
      cases hf'
  | some f =>
    obtain ⟨i, hi, himpl, -⟩ := h.opened (h.fd hf).2.2.2
    simp only [hf, Fs.impl, hi] at hr
    obtain ⟨_, ⟨⟩, hr⟩ := bind_eq_ok.1 hr
    obtain ⟨⟨rc', db⟩, hw, hr⟩ := bind_eq_ok.1 hr
    obtain ⟨rfl, rfl⟩ := Prod.mk.inj (Except.ok.inj hr)
    obtain ⟨⟨batch, n⟩, hloop, hw⟩ := bind_eq_ok.1 hw
    have hb := writeLoop_blocks i _ _ _ _ hloop
    rw [himpl.1] at hb
    have hdb : db = fs.ddb.write call.ok batch := by
      cases hok : call.ok <;> rw [hok] at hw <;>
        exact (Prod.mk.inj (Except.ok.inj hw)).2.symm
    subst hdb
    exact .wrote hop hf hb

end

/-- The only thing to know about a call that returns. -/
theorem Step.effect {digest : Str → List Int8} {fs fs' : Fs} {l : Call × Reply} (h : Inv fs)
    (hs : Step digest fs l fs') : Effect digest fs l.1 l.2 fs' := by
  obtain ⟨call, reply⟩ := l
  obtain ⟨hfresh, hexec⟩ := hs
  cases hop : call.op with
  | mkdir dir =>
    simp only [Fresh, hop] at hfresh
    obtain ⟨rc, fs₁, hm, he⟩ := make_effect h (.inl ⟨hop, rfl⟩)
      (fun c x k => ⟨flat_dirJsonInit c x k, .inl ⟨rfl, isDir_dirJsonInit c x k⟩⟩) hfresh
    simp only [Fs.exec, hop, Fs.mkdir, hm, bind, Except.bind, pure, Except.pure, Except.ok.injEq,
      Prod.mk.injEq] at hexec
    obtain ⟨rfl, rfl⟩ := hexec
    exact he
  | create file =>
    simp only [Fresh, hop] at hfresh
    obtain ⟨rc, fs₁, hm, he⟩ := make_effect h (.inr ⟨hop, rfl⟩)
      (fun c x k => ⟨(isFile_fileJsonInit c k x).flat, .inr ⟨rfl, isFile_fileJsonInit c k x⟩⟩) hfresh
    simp only [Fs.exec, hop, Fs.create, hm, bind, Except.bind, pure, Except.pure, Except.ok.injEq,
      Prod.mk.injEq] at hexec
    obtain ⟨rfl, rfl⟩ := hexec
    exact he
  | rmdir dir =>
    simp only [Fs.exec, hop] at hexec
    obtain ⟨rc, hm, rfl⟩ := returned hexec
    exact rmdir_effect h hop hm
  | unlink file =>
    obtain ⟨rc, fs₁, hm, he⟩ := unlink_effect digest call h hop
    simp only [Fs.exec, hop, hm, bind, Except.bind, pure, Except.pure, Except.ok.injEq,
      Prod.mk.injEq] at hexec
    obtain ⟨rfl, rfl⟩ := hexec
    exact he
  | «open» file =>
    simp only [Fs.exec, hop] at hexec
    obtain ⟨⟨rc, fd, fs₁⟩, hm, hexec⟩ := bind_eq_ok.1 hexec
    obtain ⟨rfl, rfl⟩ := Prod.mk.inj (Except.ok.inj hexec)
    exact open_effect h hop hm
  | close fd =>
    simp only [Fs.exec, hop] at hexec
    obtain ⟨rc, hm, rfl⟩ := returned hexec
    exact close_effect h hop hm
  | pwrite fd buf offset =>
    simp only [Fs.exec, hop] at hexec
    obtain ⟨rc, hm, rfl⟩ := returned hexec
    exact pwrite_effect h hop hm
  | pread fd buf offset =>
    simp only [Fs.exec, hop] at hexec
    obtain ⟨⟨rc, b⟩, hm, hexec⟩ := bind_eq_ok.1 hexec
    obtain ⟨rfl, rfl⟩ := Prod.mk.inj (Except.ok.inj hexec)
    exact .unchanged (fun file hf => by rw [hop] at hf; cases hf) fun fd hf => by
      rw [hop] at hf
      cases hf

theorem Step.inv {digest : Str → List Int8} {fs fs' : Fs} {l : Call × Reply} (h : Inv fs)
    (hs : Step digest fs l fs') : Inv fs' :=
  (hs.effect h).inv h

theorem inv_mkfs : Inv Fs.mkfs := by
  have hget : ∀ a : Str, Fs.mkfs.ddb[a]? = if a = rootName then
      some (dirJsonInit rootName rootName rootName) else none := fun a => by
    simp [Fs.mkfs, getElem?_put]
  have hdir := isDir_dirJsonInit rootName rootName rootName
  have hentry : ∀ k c, Fs.mkfs.ddb.entryOf k c = none := fun k c => by
    unfold Store.entryOf
    rw [hget]
    split_ifs
    · exact (flat_dirJsonInit _ _ _).entryOf c
    · rfl
  have hchild : ∀ k c, Fs.mkfs.ddb.child k c = none := fun k c => by simp [Store.child, hentry]
  have hroot : ∀ {k : Str} {j : Json}, Fs.mkfs.ddb[k]? = some j → k = rootName ∧ IsDir j :=
    fun {k j} hj => by
      rw [hget] at hj
      split_ifs at hj with hk
      exact ⟨hk, Option.some.inj hj ▸ hdir⟩
  refine ⟨⟨⟨_, by rw [hget, if_pos rfl], hdir, ?_⟩, fun hj _ => .inl (hroot hj).2,
    fun hj hk => ?_, fun he => ?_, ⟨fun k c h => ?_, fun h => ?_⟩, fun hj _ => ?_, fun hj hf => ?_⟩,
    fun hf => ?_, fun hp => ?_, fun hj hf => ?_⟩
  · simp only [dirJsonInit, getElem?_put]
    rfl
  · rw [(hroot hj).1] at hk
    exact absurd hk (by decide)
  · rw [hentry] at he
    cases he
  · rw [hchild] at h
    cases h
  · rw [hchild] at h
    cases h
  · exact ⟨[], by rw [(hroot hj).1]; rfl⟩
  · exact absurd (hroot hj).2 hf.not_isDir
  · simp [Fs.mkfs] at hf
  · simp [Fs.mkfs] at hp
  · exact absurd (hroot hj).2 hf.not_isDir

theorem reach_inv {digest : Str → List Int8} {fs : Fs} (h : Reach (Step digest) Fs.mkfs fs) :
    Inv fs :=
  h.invariant (fun _ _ _ hI hs => hs.inv hI) inv_mkfs

/-- The length of a text, as a digest to run the operations with. -/
def lengthDigest (s : Str) : List Int8 := [Int8.ofNat s.length]

def createA : Call := ⟨.create ['a'], 0, true⟩

def openA : Call := ⟨.open ['a'], 0, true⟩

/-- A file, open as descriptor 0. -/
def openedA : Fs := (Fs.mkfs.next lengthDigest createA).next lengthDigest openA

theorem runs_openedA : Runs (StepOk lengthDigest) Fs.mkfs
    [(createA, ⟨0, none, []⟩), (openA, ⟨0, some 0, []⟩)] openedA :=
  have hcreate : Step lengthDigest Fs.mkfs (createA, ⟨0, none, []⟩)
      (Fs.mkfs.next lengthDigest createA) := step_next rfl rfl
  have hopen : Step lengthDigest (Fs.mkfs.next lengthDigest createA) (openA, ⟨0, some 0, []⟩)
      openedA := step_next trivial rfl
  ((Runs.nil Fs.mkfs).snoc ⟨rfl, hcreate⟩).snoc ⟨rfl, hopen⟩

theorem reach_openedA : Reach (Step lengthDigest) Fs.mkfs openedA :=
  ⟨_, runs_openedA.mono fun _ _ _ h => h.2⟩

end CPPCodes.Rocksfs
