import CPPCodes.Rocksfs.Operations
import Mathlib.Data.Finset.Card
import Mathlib.Data.Int.Interval

/-!
# Descriptors and open files

The two tables and the shared objects between them. Every descriptor belongs to the one object that
its file's key has in the table of open files; the object counts these descriptors, so it is in
the table as long as there are any.
-/

namespace CPPCodes.Rocksfs

theorem toNat_sub_one {n : UInt32} (h : 0 < n.toNat) : (n - 1).toNat = n.toNat - 1 :=
  UInt32.toNat_sub_of_le n 1 (by rw [UInt32.le_iff_toNat_le]; exact h)

theorem toNat_add_one {n : UInt32} (h : n.toNat < 2 ^ 31) : (n + 1).toNat = n.toNat + 1 := by
  have hone : UInt32.toNat 1 = 1 := rfl
  rw [UInt32.toNat_add, hone]
  exact Nat.mod_eq_of_lt (by omega)

namespace Fs

/-- The descriptors in use for a file's key. -/
def descriptors (fs : Fs) (key : Str) : Finset ℤ :=
  fs.fdTable.keys.toFinset.filter fun d => fs.fdTable[d]?.any fun f => f.key = key

theorem mem_descriptors {fs : Fs} {key : Str} {d : ℤ} :
    d ∈ fs.descriptors key ↔ ∃ f, fs.fdTable[d]? = some f ∧ f.key = key := by
  unfold descriptors
  rw [Finset.mem_filter, List.mem_toFinset, Std.ExtTreeMap.mem_keys,
    Std.ExtTreeMap.mem_iff_isSome_getElem?]
  cases fs.fdTable[d]? <;> simp

/-- The object of an open file whose block size is the default one. -/
def IsImpl (key : Str) (i : RocksfileImpl) : Prop :=
  i.key = key ∧ i.bs = 4096 ∧ i.bsMask = 4095 ∧ i.bsShift = 12

end Fs

structure Inv (fs : Fs) : Prop where
  wf : Wf fs.ddb
  fd : ∀ {d : ℤ} {f : Rocksfile}, fs.fdTable[d]? = some f →
    f.fd = d ∧ 0 ≤ d ∧ d ≤ INT_MAX ∧ fs.openFileTable[f.key]? = some f.fi
  opened : ∀ {k : Str} {p : ℕ}, fs.openFileTable[k]? = some p →
    ∃ i, fs.impls[p]? = some i ∧ Fs.IsImpl k i ∧ i.refcnt.toNat = (fs.descriptors k).card ∧
      (fs.descriptors k).Nonempty ∧ ∃ j d, fs.ddb[k]? = some j ∧ IsFile j d ∧
        (d = 1 → i.deleted = true)
  deleted : ∀ {k : Str} {j : Json}, fs.ddb[k]? = some j → IsFile j 1 →
    fs.openFileTable[k]? ≠ none

theorem Inv.inj {fs : Fs} (h : Inv fs) {k l : Str} {p : ℕ}
    (hk : fs.openFileTable[k]? = some p) (hl : fs.openFileTable[l]? = some p) : k = l := by
  obtain ⟨i, hi, hik, -⟩ := h.opened hk
  obtain ⟨i', hi', hil, -⟩ := h.opened hl
  rw [hi] at hi'
  rw [← hik.1, ← hil.1, Option.some.inj hi']

/-- A change of one object leaves those of the other open files. -/
theorem Inv.impls_set_other {fs : Fs} (h : Inv fs) {k l : Str} {p q : ℕ}
    (hk : fs.openFileTable[k]? = some p) (hl : fs.openFileTable[l]? = some q) (hne : l ≠ k)
    (i : RocksfileImpl) : (fs.impls.set p i)[q]? = fs.impls[q]? := by
  refine List.getElem?_set_ne ?_
  rintro rfl
  exact hne (h.inj hl hk)

theorem Inv.table (h : Inv fs) (k : Str) :
    fs.openFileTable[k]? ≠ none ↔ (fs.descriptors k).Nonempty := by
  refine ⟨fun hk => ?_, fun ⟨d, hd⟩ => ?_⟩
  · obtain ⟨p, hp⟩ := Option.ne_none_iff_exists'.1 hk
    obtain ⟨i, -, -, -, hne, -⟩ := h.opened hp
    exact hne
  · obtain ⟨f, hf, rfl⟩ := Fs.mem_descriptors.1 hd
    simp [(h.fd hf).2.2.2]

namespace Fs

theorem fdAllocateLoop_spec : ∀ {ds : List ℤ} (fd : ℤ), ds.Pairwise (· < ·) → (∀ d ∈ ds, fd ≤ d) →
    fd ≤ INT_MAX →
      (∀ r, fdAllocateLoop fd ds = .ok r → fd ≤ r ∧ r ≤ INT_MAX ∧ r ∉ ds ∧
        ∀ d, fd ≤ d → d < r → d ∈ ds) ∧
      ∀ e, fdAllocateLoop fd ds = .error e →
        e = .undefined ∧ ∀ d, fd ≤ d → d ≤ INT_MAX → d ∈ ds
  | [], fd, _, _, hmax => by
    refine ⟨fun r hr => ?_, fun e he => by cases he⟩
    obtain rfl := Except.ok.inj hr
    exact ⟨Int.le_refl _, hmax, by simp, fun d h1 h2 => absurd h1 (by omega)⟩
  | d :: ds, fd, hs, hge, hmax => by
    obtain ⟨hd, hs'⟩ := List.pairwise_cons.1 hs
    have hfd := hge d (by simp)
    unfold fdAllocateLoop
    split_ifs with h hm
    · -- all numbers up to the largest are in use
      refine ⟨fun r hr => (by cases hr), fun e he => ⟨(Except.error.inj he).symm, fun a h1 h2 => ?_⟩⟩
      rw [show a = d by omega]
      exact List.mem_cons_self
    · subst h
      obtain ⟨hok, herr⟩ := fdAllocateLoop_spec (d + 1) hs' (fun a ha => hd a ha) (by omega)
      refine ⟨fun r hr => ?_, fun e he => ⟨(herr e he).1, fun a h1 h2 => ?_⟩⟩
      · obtain ⟨h1, h2, h3, h4⟩ := hok r hr
        refine ⟨by omega, h2, ?_, fun a ha hr => ?_⟩
        · simp only [List.mem_cons, not_or]
          exact ⟨by omega, h3⟩
        · rcases Int.lt_or_eq_of_le ha with ha | rfl
          · exact List.mem_cons_of_mem _ (h4 a ha hr)
          · exact List.mem_cons_self
      · rcases Int.lt_or_eq_of_le h1 with ha | rfl
        · exact List.mem_cons_of_mem _ ((herr e he).2 a ha h2)
        · exact List.mem_cons_self
    · refine ⟨fun r hr => ?_, fun e he => by cases he⟩
      obtain rfl := Except.ok.inj hr
      refine ⟨Int.le_refl _, hmax, ?_, fun d h1 h2 => absurd h1 (by omega)⟩
      simp only [List.mem_cons, not_or]
      exact ⟨fun h' => h h'.symm, fun h' => by
        have := hd _ h'
        omega⟩

theorem fdAllocate_spec (fs : Fs) (hge : ∀ {d : ℤ} {f : Rocksfile}, fs.fdTable[d]? = some f → 0 ≤ d) :
    (∀ r, fs.fdAllocate = .ok r → 0 ≤ r ∧ r ≤ INT_MAX ∧ fs.fdTable[r]? = none ∧
      ∀ d, 0 ≤ d → d < r → fs.fdTable[d]? ≠ none) ∧
    ∀ e, fs.fdAllocate = .error e →
      e = .undefined ∧ ∀ d, 0 ≤ d → d ≤ INT_MAX → fs.fdTable[d]? ≠ none := by
  have hmem : ∀ d : ℤ, d ∈ fs.fdTable.keys ↔ fs.fdTable[d]? ≠ none := fun d => by
    rw [Std.ExtTreeMap.mem_keys, Std.ExtTreeMap.mem_iff_isSome_getElem?, Option.isSome_iff_ne_none]
  have hord : fs.fdTable.keys.Pairwise (· < ·) :=
    Std.ExtTreeMap.ordered_keys.imp fun h => Std.compare_eq_lt.1 h
  obtain ⟨hok, herr⟩ := fdAllocateLoop_spec 0 hord (fun d hd => by
    obtain ⟨f, hf⟩ := Option.ne_none_iff_exists'.1 ((hmem d).1 hd)
    exact hge hf) (by decide)
  refine ⟨fun r hr => ?_, fun e he =>
    ⟨(herr e he).1, fun d h1 h2 => (hmem d).1 ((herr e he).2 d h1 h2)⟩⟩
  obtain ⟨h1, h2, h3, h4⟩ := hok r hr
  exact ⟨h1, h2, by simpa using fun h => h3 ((hmem r).2 h), fun d h5 h6 => (hmem d).1 (h4 d h5 h6)⟩

/-- `fs'` is `fs` where the key `x` has the object `i` at the place `fi`, which no other open file
has: the object it had, or a new one. -/
structure Marked (fs : Fs) (x : Str) (fi : ℕ) (i : RocksfileImpl) (fs' : Fs) : Prop where
  ddb : fs'.ddb = fs.ddb
  fdTable : fs'.fdTable = fs.fdTable
  table : ∀ k : Str, fs'.openFileTable[k]? = if k = x then some fi else fs.openFileTable[k]?
  here : fs'.impls[fi]? = some i
  elsewhere : ∀ {k : Str} {p : ℕ}, k ≠ x → fs.openFileTable[k]? = some p →
    p ≠ fi ∧ fs'.impls[p]? = fs.impls[p]?
  impl : IsImpl x i
  refcnt : i.refcnt.toNat = (fs.descriptors x).card
  old : fs.openFileTable[x]? ≠ none → fs.openFileTable[x]? = some fi ∧ fs.impls[fi]? = some i
  new : fs.openFileTable[x]? = none → i.deleted = false

theorem new_default (key : Str) : ∃ i, RocksfileImpl.new key 4096 = .ok i ∧ IsImpl key i ∧
    i.refcnt = 0 ∧ i.deleted = false :=
  ⟨⟨key, 0, false, 4096, 4095, 12, by decide⟩, rfl, ⟨rfl, rfl, rfl, rfl⟩, rfl, rfl⟩

variable {fs : Fs}

theorem descriptors_of_closed (h : Inv fs) {x : Str} (hx : fs.openFileTable[x]? = none) :
    fs.descriptors x = ∅ := by
  refine Finset.eq_empty_of_forall_notMem fun d hd => ?_
  obtain ⟨f, hf, rfl⟩ := mem_descriptors.1 hd
  rw [(h.fd hf).2.2.2] at hx
  cases hx

theorem markFileOpen_spec (h : Inv fs) (x : Str) :
    ∃ fi i fs', fs.markFileOpen x 4096 = .ok (fi, fs') ∧ Marked fs x fi i fs' := by
  cases hx : fs.openFileTable[x]? with
  | some fi =>
    obtain ⟨i, hi, himpl, hcnt, -⟩ := h.opened hx
    refine ⟨fi, i, fs, by simp [markFileOpen, hx], rfl, rfl, fun k => ?_, hi, fun {k p} hk hp => ?_,
      himpl, hcnt, fun _ => ⟨hx, hi⟩, fun h' => ?_⟩
    · split_ifs with hk
      · rw [hk, hx]
      · rfl
    · exact ⟨fun h' => hk (h.inj hp (h' ▸ hx)), rfl⟩
    · rw [hx] at h'
      cases h'
  | none =>
    obtain ⟨i, hi, himpl, hcnt, hdel⟩ := new_default x
    refine ⟨fs.impls.length, i, { fs with
        openFileTable := fs.openFileTable.insert x fs.impls.length, impls := fs.impls ++ [i] },
      by simp [markFileOpen, hx, hi, bind, Except.bind, pure, Except.pure], rfl, rfl, fun k => ?_,
      by simp, fun {k p} hk hp => ?_, himpl, ?_, fun h' => absurd hx h', fun _ => hdel⟩
    · simp only [Std.ExtTreeMap.getElem?_insert, Std.compare_eq_iff_eq]
      simp only [eq_comm]
    · obtain ⟨i', hi', -⟩ := h.opened hp
      have hlt : p < fs.impls.length := (List.getElem?_eq_some_iff.1 hi').1
      exact ⟨by omega, List.getElem?_append_left hlt⟩
    · rw [hcnt, descriptors_of_closed h hx]
      rfl

/-- What `open` does to the tables, `i` being the object of the file before it counts the new
descriptor. -/
structure Opened (fs : Fs) (x : Str) (fd : ℤ) (fi : ℕ) (i : RocksfileImpl) (fs' : Fs) : Prop where
  marked : ∃ fs₁, Marked fs x fi i fs₁ ∧ fs' = { fs₁ with
    fdTable := fs.fdTable.insert fd ⟨fi, x, fd⟩, impls := fs₁.impls.set fi i.open }
  free : fs.fdTable[fd]? = none
  range : 0 ≤ fd ∧ fd ≤ INT_MAX
  lowest : ∀ d, 0 ≤ d → d < fd → fs.fdTable[d]? ≠ none

theorem open_cases (h : Inv fs) (file : Str) :
    (∃ e, resolve fs.ddb rootName (components file) = .error e ∧
      fs.open file = .ok (-e, none, fs)) ∨
    (∃ x, resolve fs.ddb rootName (components file) = .ok (x, FS_DIRECTORY) ∧
      fs.open file = .ok (-EISDIR, none, fs)) ∨
    ∃ x j, resolve fs.ddb rootName (components file) = .ok (x, FS_FILE) ∧
      fs.ddb[x]? = some j ∧ IsFile j 0 ∧
      ((fs.open file = .error .undefined ∧ ∀ d, 0 ≤ d → d ≤ INT_MAX → fs.fdTable[d]? ≠ none) ∨
        ∃ fd fi i fs', fs.open file = .ok (0, some fd, fs') ∧ Opened fs x fd fi i fs') := by
  cases hr : resolve fs.ddb rootName (components file) with
  | error e =>
    obtain ⟨hn, he⟩ := namei_pathConvert_error h.wf hr
    exact .inl ⟨e, rfl, by simp [«open», hn, he, bind, Except.bind, pure, Except.pure]⟩
  | ok a =>
    obtain ⟨x, t⟩ := a
    obtain ⟨name, hn⟩ := namei_pathConvert_ok h.wf hr
    refine .inr ?_
    by_cases ht : t = FS_DIRECTORY
    · subst ht
      exact .inl ⟨x, rfl, by
        simp [«open», hn, initialized, FS_DIRECTORY, FS_FILE, bind, Except.bind, pure, Except.pure]⟩
    rcases components_cases file with hp | ⟨q, c, hqc⟩
    · rw [hp] at hr
      exact absurd (Except.ok.inj hr) (by simp [Ne.symm ht])
    obtain ⟨k, -, hent⟩ := resolve_parent_ok hqc hr
    obtain ⟨rfl, j, hj, hf⟩ := h.wf.isFile_of_entry hent ht
    obtain ⟨fi, i, fs₁, hmark, hM⟩ := markFileOpen_spec h x
    have hbs : j.num KW_BS = .ok 4096 := by simp [Json.num, hf.bs, DEFAULT_BLOCK_SIZE]
    have halloc : fs₁.fdAllocate = fs.fdAllocate := by simp only [fdAllocate, hM.fdTable]
    obtain ⟨hok, herr⟩ := fdAllocate_spec fs fun hf => (h.fd hf).2.1
    refine .inr ⟨x, j, rfl, hj, hf, ?_⟩
    cases ha : fs.fdAllocate with
    | error e =>
      obtain ⟨rfl, hall⟩ := herr e ha
      exact .inl ⟨by simp [«open», hn, initialized, hj, hbs, hmark, halloc, ha, bind,
        Except.bind], hall⟩
    | ok fd =>
      obtain ⟨h0, hmax, hfree, hlow⟩ := hok fd ha
      refine .inr ⟨fd, fi, i, _, ?_, ⟨fs₁, hM, rfl⟩, hfree, ⟨h0, hmax⟩, hlow⟩
      simp [«open», hn, initialized, hj, hbs, hmark, halloc, ha, check, h0, fdSet, hM.fdTable,
        hfree, impl, hM.here, setImpl, bind, Except.bind, pure, Except.pure]

/-- The tables without the descriptor, before the file's own entry goes. -/
def closed (fs : Fs) (fd : ℤ) (f : Rocksfile) (i : RocksfileImpl) : Fs :=
  { fs with fdTable := fs.fdTable.erase fd, impls := fs.impls.set f.fi i.close.1 }

theorem close_cases (h : Inv fs) (fd : ℤ) (ok : Bool) :
    (fs.fdTable[fd]? = none ∧ fs.close fd ok = .ok (-EBADF, fs)) ∨
    ∃ f i, fs.fdTable[fd]? = some f ∧ fs.openFileTable[f.key]? = some f.fi ∧
      fs.impls[f.fi]? = some i ∧
      ((1 < (fs.descriptors f.key).card ∧ fs.close fd ok = .ok (0, fs.closed fd f i)) ∨
      ((fs.descriptors f.key).card = 1 ∧ i.deleted = false ∧
        fs.close fd ok = .ok (0, (fs.closed fd f i).markFileClosed f.key)) ∨
      ∃ j d, (fs.descriptors f.key).card = 1 ∧ i.deleted = true ∧ fs.ddb[f.key]? = some j ∧
        IsFile j d ∧ fs.close fd ok = if d = 1 ∧ ok = true then
          .ok (0, { (fs.closed fd f i).markFileClosed f.key with ddb := fs.ddb.erase f.key })
          else .error .assertion) := by
  cases hf : fs.fdTable[fd]? with
  | none => exact .inl ⟨rfl, by simp [close, hf]⟩
  | some f =>
    obtain ⟨hfd, -, -, hopen⟩ := h.fd hf
    obtain ⟨i, hi, himpl, hcnt, hne, j, d, hj, hfile, hdel⟩ := h.opened hopen
    refine .inr ⟨f, i, rfl, hopen, hi, ?_⟩
    have hpos := Finset.card_pos.2 hne
    have hzero : i.refcnt - 1 = 0 ↔ (fs.descriptors f.key).card = 1 := by
      rw [← hcnt] at hpos ⊢
      rw [← UInt32.toNat_inj, toNat_sub_one hpos, UInt32.toNat_zero]
      omega
    by_cases hone : (fs.descriptors f.key).card = 1
    · refine .inr ?_
      have hz := hzero.2 hone
      cases hd : i.deleted with
      | false =>
        refine .inl ⟨hone, rfl, ?_⟩
        simp [close, hf, hfd, check, impl, hi, RocksfileImpl.close, hz, hd, setImpl, markFileClosed,
          closed, fdDeallocate, bind, Except.bind, pure, Except.pure]
      | true =>
        refine .inr ⟨j, d, hone, rfl, hj, hfile, ?_⟩
        have hnum : j.num KW_DEL = .ok d := by simp [Json.num, hfile.del]
        by_cases hd1 : d = 1 <;> cases ok <;>
          simp [close, hf, hfd, check, impl, hi, RocksfileImpl.close, hz, hd, setImpl,
            markFileClosed, closed, fdDeallocate, lazyUnlink, Store.getOk, hj, hnum, hd1,
            Store.write, Store.apply, bind, Except.bind, pure, Except.pure]
    · refine .inl ⟨by omega, ?_⟩
      have hz : i.refcnt - 1 ≠ 0 := fun h => hone (hzero.1 h)
      simp [close, hf, hfd, check, impl, hi, RocksfileImpl.close, hz, setImpl, closed, fdDeallocate,
        bind, Except.bind, pure, Except.pure]

end Fs

end CPPCodes.Rocksfs
