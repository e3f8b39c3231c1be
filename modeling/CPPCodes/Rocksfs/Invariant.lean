import CPPCodes.Rocksfs.Tables

/-!
# Every call keeps the invariant

One lemma for what the store may become under open files, one for each change of the tables, and
from these the step (`Step.inv`): whatever is called, and whether the store writes or not.
-/

namespace CPPCodes.Rocksfs

namespace Inv

variable {fs : Fs}

/-- Another store, which keeps the records of the open files. -/
theorem of_ddb (h : Inv fs) {db : Store} (hwf : Wf db)
    (hopen : ∀ {k : Str} {p : ℕ} {i : RocksfileImpl}, fs.openFileTable[k]? = some p →
      fs.impls[p]? = some i → ∃ j d, db[k]? = some j ∧ IsFile j d ∧ (d = 1 → i.deleted = true))
    (hdel : ∀ {k : Str} {j : Json}, db[k]? = some j → IsFile j 1 → fs.openFileTable[k]? ≠ none) :
    Inv { fs with ddb := db } where
  wf := hwf
  fd := h.fd
  opened hp := by
    obtain ⟨i, hi, himpl, hcnt, hne, -⟩ := h.opened hp
    exact ⟨i, hi, himpl, hcnt, hne, hopen hp hi⟩
  deleted := hdel

/-- The record of an open file. -/
theorem record (h : Inv fs) {k : Str} {p : ℕ} {i : RocksfileImpl}
    (hp : fs.openFileTable[k]? = some p) (hi : fs.impls[p]? = some i) :
    ∃ j d, fs.ddb[k]? = some j ∧ IsFile j d ∧ (d = 1 → i.deleted = true) := by
  obtain ⟨i', hi', -, -, -, hrec⟩ := h.opened hp
  rw [hi] at hi'
  exact Option.some.inj hi' ▸ hrec

/-- An edit of the tree, where the record of an open file keeps what the object says. -/
theorem edited (h : Inv fs) {db : Store} {k c x : Str} {link : Option ℤ} {rec : Option Json}
    (he : Edited fs.ddb k c x link rec db) (hx : Editable fs.ddb k c x link rec)
    (hopen : ∀ {p : ℕ} {i : RocksfileImpl}, fs.openFileTable[x]? = some p → fs.impls[p]? = some i →
      ∃ r, rec = some r ∧ link = none ∧ i.deleted = true)
    (hdel : ∀ {r}, rec = some r → link = none → fs.openFileTable[x]? ≠ none) :
    Inv { fs with ddb := db } := by
  refine h.of_ddb (he.wf hx h.wf) (fun {a p i} ha hi => ?_) fun {a j} hj hf => ?_
  · by_cases hax : a = x
    · subst hax
      obtain ⟨r, rfl, hl, hd⟩ := hopen ha hi
      rcases (hx.record rfl).2 with ⟨hl', -⟩ | ⟨hl', -⟩ | ⟨-, hr⟩
      · exact absurd (hl.symm.trans hl') (by simp)
      · exact absurd (hl.symm.trans hl') (by simp)
      · exact ⟨r, 1, he.leaf, hr, fun _ => hd⟩
    · obtain ⟨j, d, hj, hf, hd⟩ := h.record ha hi
      exact ⟨j, d, (he.file_iff hx hax hf).2 hj, hf, hd⟩
  · by_cases hax : a = x
    · subst hax
      rw [he.leaf] at hj
      rcases (hx.record hj).2 with ⟨-, hr⟩ | ⟨-, hr⟩ | ⟨hl, -⟩
      · exact absurd hr hf.not_isDir
      · exact absurd (hf.del_unique hr) (by decide)
      · exact hdel hj hl
    · exact h.deleted ((he.file_iff hx hax hf).1 hj) hf

/-- A set deleted flag does not break the invariant, even when nothing is written. -/
theorem markDeleted (h : Inv fs) {x : Str} {fi : ℕ} {i : RocksfileImpl}
    (hx : fs.openFileTable[x]? = some fi) (hi : fs.impls[fi]? = some i) :
    Inv (fs.setImpl fi i.markDeleted) where
  wf := h.wf
  fd := h.fd
  deleted := h.deleted
  opened {k p} hp := by
    obtain ⟨i', hi', himpl, hcnt, hne, j, d, hj, hf, hd⟩ := h.opened hp
    by_cases hpf : p = fi
    · subst hpf
      rw [hi] at hi'
      obtain rfl := Option.some.inj hi'
      have hlt : p < fs.impls.length := (List.getElem?_eq_some_iff.1 hi).1
      exact ⟨i.markDeleted, by simp [Fs.setImpl, hlt], himpl, hcnt, hne, j, d, hj, hf, fun _ => rfl⟩
    · exact ⟨i', by simpa [Fs.setImpl, List.getElem?_set_ne (Ne.symm hpf)] using hi', himpl, hcnt, hne,
        j, d, hj, hf, hd⟩

end Inv

/-! ## Descriptors that come and go -/

section Descriptors

variable {fs fs' : Fs} {fd : ℤ} {f : Rocksfile}

theorem descriptors_insert (h : fs'.fdTable = fs.fdTable.insert fd f) (hfd : fs.fdTable[fd]? = none)
    (k : Str) : fs'.descriptors k
      = if f.key = k then insert fd (fs.descriptors k) else fs.descriptors k := by
  ext d
  rw [Fs.mem_descriptors, h]
  simp only [Std.ExtTreeMap.getElem?_insert, Std.compare_eq_iff_eq]
  by_cases hd : fd = d
  · subst hd
    rw [if_pos rfl]
    split_ifs with hk
    · simp [hk]
    · simp [Fs.mem_descriptors, hk, hfd]
  · rw [if_neg hd]
    split_ifs <;> simp [Fs.mem_descriptors, Ne.symm hd]

theorem descriptors_erase (h : fs'.fdTable = fs.fdTable.erase fd) (hf : fs.fdTable[fd]? = some f)
    (k : Str) : fs'.descriptors k
      = if f.key = k then (fs.descriptors k).erase fd else fs.descriptors k := by
  ext d
  rw [Fs.mem_descriptors, h]
  simp only [Std.ExtTreeMap.getElem?_erase, Std.compare_eq_iff_eq]
  by_cases hd : fd = d
  · subst hd
    rw [if_pos rfl]
    split_ifs with hk
    · simp
    · simp [Fs.mem_descriptors, hk, hf]
  · rw [if_neg hd]
    split_ifs <;> simp [Fs.mem_descriptors, Ne.symm hd]

theorem notMem_descriptors (hfd : fs.fdTable[fd]? = none) (k : Str) : fd ∉ fs.descriptors k := by
  rw [Fs.mem_descriptors, hfd]
  simp

/-- There is room for one more descriptor in the count as long as a descriptor is free. -/
theorem Inv.card_lt (h : Inv fs) (hfd : fs.fdTable[fd]? = none) (hrange : 0 ≤ fd ∧ fd ≤ INT_MAX)
    (k : Str) : (fs.descriptors k).card < 2 ^ 31 := by
  have hsub : insert fd (fs.descriptors k) ⊆ Finset.Icc 0 INT_MAX := fun d hd => by
    rcases Finset.mem_insert.1 hd with rfl | hd
    · exact Finset.mem_Icc.2 hrange
    · obtain ⟨f, hf, -⟩ := Fs.mem_descriptors.1 hd
      exact Finset.mem_Icc.2 ⟨(h.fd hf).2.1, (h.fd hf).2.2.1⟩
  have hcard := Finset.card_le_card hsub
  rw [Finset.card_insert_of_notMem (notMem_descriptors hfd k), Int.card_Icc] at hcard
  exact Nat.lt_of_succ_le hcard

theorem Inv.opened_step (h : Inv fs) {x : Str} {j : Json} {fi : ℕ} {i : RocksfileImpl}
    (hj : fs.ddb[x]? = some j) (hjf : IsFile j 0) (hO : Fs.Opened fs x fd fi i fs') : Inv fs' := by
  obtain ⟨⟨fs₁, hM, rfl⟩, hfree, hrange, -⟩ := hO
  have hlt : fi < fs₁.impls.length := (List.getElem?_eq_some_iff.1 hM.here).1
  refine ⟨by rw [hM.ddb]; exact h.wf, fun {d f} hf => ?_, fun {k p} hp => ?_, fun {k j} hk hkf => ?_⟩
  · simp only [Std.ExtTreeMap.getElem?_insert, Std.compare_eq_iff_eq] at hf
    split_ifs at hf with hd
    · obtain rfl := Option.some.inj hf
      exact ⟨hd, hd ▸ hrange.1, hd ▸ hrange.2, by rw [hM.table, if_pos rfl]⟩
    · obtain ⟨h1, h2, h3, h4⟩ := h.fd hf
      refine ⟨h1, h2, h3, ?_⟩
      rw [hM.table]
      split_ifs with hk
      · rw [hk] at h4
        rw [← h4, (hM.old (by simp [h4])).1]
      · exact h4
  · simp only [hM.table] at hp
    have hdesc : Fs.descriptors { fs₁ with
        fdTable := fs.fdTable.insert fd ⟨fi, x, fd⟩, impls := fs₁.impls.set fi i.open } k = _ :=
      descriptors_insert rfl hfree k
    split_ifs at hp with hk
    · -- the object of the file counts one more
      subst hk
      obtain rfl := Option.some.inj hp
      rw [if_pos rfl] at hdesc
      refine ⟨i.open, by simp [hlt], hM.impl, ?_, ?_, j, 0, by rw [hM.ddb]; exact hj, hjf, by simp⟩
      · rw [hdesc, Finset.card_insert_of_notMem (notMem_descriptors hfree k)]
        show (i.refcnt + 1).toNat = _
        rw [toNat_add_one (by rw [hM.refcnt]; exact h.card_lt hfree hrange k), hM.refcnt]
      · rw [hdesc]
        exact Finset.insert_nonempty _ _
    · obtain ⟨hpf, himpls⟩ := hM.elsewhere hk hp
      obtain ⟨i', hi', himpl, hcnt, hne, hrec⟩ := h.opened hp
      rw [if_neg (Ne.symm hk)] at hdesc
      refine ⟨i', ?_, himpl, by rw [hdesc]; exact hcnt, by rw [hdesc]; exact hne,
        by rw [hM.ddb]; exact hrec⟩
      show (fs₁.impls.set fi i.open)[p]? = some i'
      rw [List.getElem?_set_ne (Ne.symm hpf), himpls, hi']
  · simp only [hM.ddb] at hk
    rw [hM.table]
    split_ifs
    · simp
    · exact h.deleted hk hkf

/-- What a close leaves of the other open files. -/
theorem Inv.closed_other (h : Inv fs) (hf : fs.fdTable[fd]? = some f)
    (hopen : fs.openFileTable[f.key]? = some f.fi) (i : RocksfileImpl) {k : Str} {p : ℕ}
    (hk : k ≠ f.key) (hp : fs.openFileTable[k]? = some p) :
    ∃ i', (fs.closed fd f i).impls[p]? = some i' ∧ Fs.IsImpl k i' ∧
      i'.refcnt.toNat = ((fs.closed fd f i).descriptors k).card ∧
      ((fs.closed fd f i).descriptors k).Nonempty ∧
      ∃ j d, fs.ddb[k]? = some j ∧ IsFile j d ∧ (d = 1 → i'.deleted = true) := by
  have hdesc := descriptors_erase (show (fs.closed fd f i).fdTable = fs.fdTable.erase fd from rfl) hf k
  rw [if_neg (Ne.symm hk)] at hdesc
  obtain ⟨i', hi', himpl, hcnt, hne, hrec⟩ := h.opened hp
  refine ⟨i', ?_, himpl, by rw [hdesc]; exact hcnt, by rw [hdesc]; exact hne, hrec⟩
  exact (h.impls_set_other hopen hp hk _).trans hi'

theorem Inv.closed (h : Inv fs) {i : RocksfileImpl} (hf : fs.fdTable[fd]? = some f)
    (hopen : fs.openFileTable[f.key]? = some f.fi) (hi : fs.impls[f.fi]? = some i)
    (hcard : 1 < (fs.descriptors f.key).card) : Inv (fs.closed fd f i) := by
  refine ⟨h.wf, fun {d g} hg => ?_, fun {k p} hp => ?_, h.deleted⟩
  · simp only [Fs.closed, Std.ExtTreeMap.getElem?_erase, Std.compare_eq_iff_eq] at hg
    split_ifs at hg
    exact h.fd hg
  · by_cases hk : k = f.key
    · -- the object counts one less, and there is another descriptor
      subst hk
      have hmem : fd ∈ fs.descriptors f.key := Fs.mem_descriptors.2 ⟨f, hf, rfl⟩
      have hdesc :=
        descriptors_erase (show (fs.closed fd f i).fdTable = fs.fdTable.erase fd from rfl) hf f.key
      rw [if_pos rfl] at hdesc
      obtain rfl := Option.some.inj (hopen.symm.trans hp)
      obtain ⟨i', hi', himpl, hcnt, -, hrec⟩ := h.opened hopen
      rw [hi] at hi'
      obtain rfl := Option.some.inj hi'
      have hlt : f.fi < fs.impls.length := (List.getElem?_eq_some_iff.1 hi).1
      refine ⟨i.close.1, by simp [Fs.closed, hlt], himpl, ?_, ?_, hrec⟩
      · rw [hdesc, Finset.card_erase_of_mem hmem, ← hcnt]
        exact toNat_sub_one (by omega)
      · rw [hdesc, ← Finset.card_pos, Finset.card_erase_of_mem hmem]
        omega
    · exact h.closed_other hf hopen i hk hp

/-- The last close of a file, with a store where its record is not marked as deleted. -/
theorem Inv.closed_last (h : Inv fs) (i : RocksfileImpl) (hf : fs.fdTable[fd]? = some f)
    (hopen : fs.openFileTable[f.key]? = some f.fi) (hcard : (fs.descriptors f.key).card = 1)
    {db : Store} (hwf : Wf db) (hdb : ∀ {k : Str}, k ≠ f.key → db[k]? = fs.ddb[k]?)
    (hkey : ∀ {j}, db[f.key]? = some j → ¬ IsFile j 1) :
    Inv { (fs.closed fd f i).markFileClosed f.key with ddb := db } := by
  obtain ⟨d₀, hd₀⟩ := Finset.card_eq_one.1 hcard
  have honly : ∀ {d g}, fs.fdTable[d]? = some g → g.key = f.key → d = fd := fun {d g} hg hk => by
    have h1 : d ∈ fs.descriptors f.key := Fs.mem_descriptors.2 ⟨g, hg, hk⟩
    have h2 : fd ∈ fs.descriptors f.key := Fs.mem_descriptors.2 ⟨f, hf, rfl⟩
    rw [hd₀, Finset.mem_singleton] at h1 h2
    rw [h1, h2]
  refine ⟨hwf, fun {d g} hg => ?_, fun {k p} hp => ?_, fun {k j} hj hfile => ?_⟩
  · simp only [Fs.closed, Fs.markFileClosed, Std.ExtTreeMap.getElem?_erase,
      Std.compare_eq_iff_eq] at hg ⊢
    split_ifs at hg with hd
    have hk : f.key ≠ g.key := fun h' => hd (honly hg h'.symm).symm
    rw [if_neg hk]
    exact h.fd hg
  · simp only [Fs.closed, Fs.markFileClosed, Std.ExtTreeMap.getElem?_erase,
      Std.compare_eq_iff_eq] at hp
    split_ifs at hp with hk
    obtain ⟨i', hi', himpl, hcnt, hne, j, d, hj, hrec⟩ := h.closed_other hf hopen i (Ne.symm hk) hp
    exact ⟨i', hi', himpl, hcnt, hne, j, d, (hdb (Ne.symm hk)).trans hj, hrec⟩
  · have hk : k ≠ f.key := fun h' => hkey (h' ▸ hj) hfile
    simp only [Fs.closed, Fs.markFileClosed, Std.ExtTreeMap.getElem?_erase, Std.compare_eq_iff_eq]
    rw [if_neg (Ne.symm hk)]
    exact h.deleted ((hdb hk).symm.trans hj) hfile

end Descriptors

end CPPCodes.Rocksfs
