import CPPCodes.Rocksfs.Failure
import CPPCodes.Rocksfs.Tree

/-!
# Listing a directory

`list_dir` prints a record's entries, which it tells from the other fields by the list of keywords.
Of a directory it prints what the calls have created in it and not removed, one line for each. It
does not ask for the type of what the path leads to, so for a file it returns 0 as well, and prints
the empty line that ends every listing (`listsDirectories_iff`).
-/

namespace CPPCodes.Rocksfs

open Namespace Transition

/-- The loop of `list_dir`, over the fields of the record in the order of their names. -/
def listLoop : List (Str × JVal) → Except Fault Str
  | [] => .ok []
  | (n, v) :: it =>
    if isKeyword n then listLoop it
    else do
      let (_, type) ← v.fields
      let out ← listLoop it
      return n ++ ' ' :: (toDecimal type ++ '\n' :: out)

/-- What `list_dir` returns and what it prints. -/
def Fs.listDir (fs : Fs) (path : Str) : Except Fault (ℤ × Str) := do
  let path := pathConvert path
  let (rc, de) ← namei fs.ddb path
  if rc < 0 then return (rc, [])
  else
    let de ← initialized de
    let j ← fs.ddb.getOk de.key
    let out ← listLoop j.toList
    return (0, out ++ ['\n'])

/-- The lines of a listing: names with types, and the empty line. -/
def printed (es : List (Str × ℤ)) : Str :=
  es.flatMap (fun e => e.1 ++ ' ' :: (toDecimal e.2 ++ ['\n'])) ++ ['\n']

/-- The listing has one line for each child of `p`, with its name and type, and no other. -/
def ListsChildren (t : Tree) (p : List Str) (out : Str) : Prop :=
  ∃ es : List (Str × ℤ), out = printed es ∧ (es.map Prod.fst).Nodup ∧
    ∀ c type, (c, type) ∈ es ↔ (t.kind? (p ++ [c])).map Kind.type = some type

def ListsDirectories (fs : Fs) (t : Tree) (path : Str) : Prop :=
  ∃ rc out, fs.listDir path = .ok (rc, out) ∧
    (rc = 0 ↔ t.kind? (components path) = some .dir) ∧
    (t.kind? (components path) = some .dir → ListsChildren t (components path) out) ∧
    (t.kind? (components path) = some .file → rc < 0)

/-- The names and types of the entries among the fields. -/
def entries (fields : List (Str × JVal)) : List (Str × ℤ) :=
  fields.filterMap fun f => match f.2 with
    | .entry _ type => some (f.1, type)
    | _ => none

theorem mem_entries {fields : List (Str × JVal)} {c : Str} {type : ℤ} :
    (c, type) ∈ entries fields ↔ ∃ x, (c, .entry x type) ∈ fields := by
  simp only [entries, List.mem_filterMap, Prod.exists]
  constructor
  · rintro ⟨n, v, hmem, hv⟩
    cases v with
    | num m => cases hv
    | str s => cases hv
    | entry x t =>
      obtain ⟨rfl, rfl⟩ := Prod.mk.inj (Option.some.inj hv)
      exact ⟨x, hmem⟩
  · rintro ⟨x, hmem⟩
    exact ⟨c, _, hmem, rfl⟩

theorem entries_sublist : ∀ fields : List (Str × JVal),
    ((entries fields).map Prod.fst).Sublist (fields.map Prod.fst)
  | [] => .slnil
  | (n, v) :: fields => by
    have ih := entries_sublist fields
    cases v with
    | num m => exact ih.cons n
    | str s => exact ih.cons n
    | entry x t => exact ih.cons_cons n

/-- Where the keywords are what is no entry, the loop prints the entries. -/
theorem listLoop_eq : ∀ fields : List (Str × JVal),
    (∀ n v, (n, v) ∈ fields → (isKeyword n = false ↔ v.isEntry = true)) →
      listLoop fields = .ok ((entries fields).flatMap fun e =>
        e.1 ++ ' ' :: (toDecimal e.2 ++ ['\n']))
  | [], _ => rfl
  | (n, v) :: fields, h => by
    have ih := listLoop_eq fields fun m w hm => h m w (List.mem_cons_of_mem _ hm)
    have hv := h n v (by simp)
    cases v with
    | num m =>
      have hk : isKeyword n = true := by simpa [JVal.isEntry] using hv
      rw [listLoop, if_pos hk, ih]
      rfl
    | str s =>
      have hk : isKeyword n = true := by simpa [JVal.isEntry] using hv
      rw [listLoop, if_pos hk, ih]
      rfl
    | entry x t =>
      have hk : isKeyword n = false := hv.2 rfl
      rw [listLoop, if_neg (by simp [hk]), ih]
      simp [JVal.fields, entries, bind, Except.bind, pure, Except.pure]

theorem IsDir.isKeyword_iff {j : Json} (h : IsDir j) {n : Str} {v : JVal} (hn : j[n]? = some v) :
    isKeyword n = false ↔ v.isEntry = true := by
  cases hk : isKeyword n with
  | true => simp [h.keyword hn hk]
  | false => simp [(h.name hn hk).2]

/-- The listing of a directory's record. -/
theorem listLoop_dir {j : Json} (h : IsDir j) :
    listLoop j.toList = .ok ((entries j.toList).flatMap fun e =>
      e.1 ++ ' ' :: (toDecimal e.2 ++ ['\n'])) :=
  listLoop_eq j.toList fun _ _ hn =>
    h.isKeyword_iff (Std.ExtTreeMap.mem_toList_iff_getElem?_eq_some.1 hn)

theorem nodup_entries (j : Json) : ((entries j.toList).map Prod.fst).Nodup := by
  have hkeys : (j.toList.map Prod.fst).Nodup := by
    rw [Std.ExtTreeMap.map_fst_toList_eq_keys]
    exact Std.ExtTreeMap.nodup_keys
  exact (entries_sublist j.toList).nodup hkeys

namespace Tree

variable (t : Tree) (p : List Str)

theorem absentError_pos : 0 < t.absentError p := by
  unfold absentError absentErrorFrom
  split
  · split_ifs <;> decide
  · decide

/-- The map changes where the call returns 0. -/
theorem make_snd (kind : Kind) :
    (t.make p kind).2 = if (t.make p kind).1 = 0 then t.insert p kind else t := by
  have hpos := t.absentError_pos p
  unfold make
  split_ifs with h1 h2 h3 h4 h5
  · cases h2
  · rfl
  · rfl
  · exact absurd rfl h4
  · exact absurd h5 (by omega)
  · rfl

theorem unlink_snd : (t.unlink p).2 = if (t.unlink p).1 = 0 then t.erase p else t := by
  have hpos := t.absentError_pos p
  unfold unlink
  split
  · rw [if_neg (by omega)]
  · rfl
  · rfl

theorem rmdir_snd : (t.rmdir p).2 = if (t.rmdir p).1 = 0 then t.erase p else t := by
  have hpos := t.absentError_pos p
  unfold rmdir
  split
  · rw [if_neg (by omega)]
  · rfl
  · split_ifs <;> first | rfl | contradiction

variable {t} {call : Call} {reply : Reply}

theorem record_of_ne (h : reply.rc ≠ 0) : t.record call reply = t := by rw [record, if_pos h]

/-- The return values tell what the map of paths does in the step. -/
theorem record_of_apply {r : ℤ × Tree} (hr : t.apply call.op = some r) (hrc : reply.rc = r.1) :
    t.record call reply = r.2 := by
  unfold record
  rw [hrc]
  cases hop : call.op with
  | mkdir dir =>
    obtain rfl := Option.some.inj (by simpa [hop, apply] using hr)
    rw [ite_not, make_snd]
  | create file =>
    obtain rfl := Option.some.inj (by simpa [hop, apply] using hr)
    rw [ite_not, make_snd]
  | unlink file =>
    obtain rfl := Option.some.inj (by simpa [hop, apply] using hr)
    rw [ite_not, unlink_snd]
  | rmdir dir =>
    simp only [hop, apply] at hr
    split_ifs at hr
    obtain rfl := Option.some.inj hr
    rw [ite_not, rmdir_snd]
  | _ => simp [hop, apply] at hr

end Tree

section

variable {digest : Str → List Int8} {fs fs' : Fs} {t : Tree}

theorem unlink_failed_ddb (h : Inv fs) {file : Str} {rc : ℤ}
    (hm : fs.unlink file false = .ok (rc, fs')) : rc < 0 ∧ fs'.ddb = fs.ddb := by
  rcases Fs.unlink_cases h.wf file false with ⟨e, he, h'⟩ | ⟨x, hr, h'⟩ |
    ⟨q, c, k, j, x, fj, hqc, hk, hj, hd, he, hfj, hfile, hclosed, hopen⟩
  · obtain ⟨rfl, rfl⟩ := Prod.mk.inj (Except.ok.inj (h'.symm.trans hm))
    exact ⟨neg_resolve_error he, rfl⟩
  · obtain ⟨rfl, rfl⟩ := Prod.mk.inj (Except.ok.inj (h'.symm.trans hm))
    exact ⟨by decide, rfl⟩
  · cases ho : fs.openFileTable[x]? with
    | none =>
      obtain ⟨rfl, rfl⟩ := Prod.mk.inj (Except.ok.inj ((hclosed ho).symm.trans hm))
      exact ⟨by decide, rfl⟩
    | some fi =>
      obtain ⟨i, hi, -⟩ := h.opened ho
      obtain ⟨rfl, rfl⟩ := Prod.mk.inj (Except.ok.inj ((hopen fi i ho hi).symm.trans hm))
      exact ⟨by decide, rfl⟩

/-- A call of which the map says what it returns fails with its write, and the records stay. -/
theorem failed_ddb (h : Inv fs) {call : Call} {reply : Reply} {r : ℤ × Tree}
    (hok : call.ok = false) (hr : t.apply call.op = some r)
    (hexec : fs.exec digest call = .ok (reply, fs')) : reply.rc < 0 ∧ fs'.ddb = fs.ddb := by
  obtain ⟨op, now, ok⟩ := call
  obtain rfl : ok = false := hok
  cases op with
  | mkdir dir =>
    obtain ⟨rc, hm, rfl⟩ := returned hexec
    obtain ⟨hrc, rfl, -⟩ := Fs.make_failed h.wf hm
    exact ⟨hrc, rfl⟩
  | create file =>
    obtain ⟨rc, hm, rfl⟩ := returned hexec
    obtain ⟨hrc, rfl, -⟩ := Fs.make_failed h.wf hm
    exact ⟨hrc, rfl⟩
  | rmdir dir =>
    obtain ⟨rc, hm, rfl⟩ := returned hexec
    obtain ⟨hrc, rfl, -⟩ := Fs.rmdir_failed h.wf hm
    exact ⟨hrc, rfl⟩
  | unlink file =>
    obtain ⟨rc, hm, rfl⟩ := returned hexec
    exact unlink_failed_ddb h hm
  | _ => cases hr

/-- A call of which the map does not say what it returns creates and removes nothing. -/
theorem record_of_not_apply (h : Inv fs) {call : Call} {reply : Reply} (hr : t.apply call.op = none)
    (hexec : fs.exec digest call = .ok (reply, fs')) : t.record call reply = t := by
  obtain ⟨op, now, ok⟩ := call
  cases op with
  | mkdir dir => cases hr
  | create file => cases hr
  | unlink file => cases hr
  | rmdir dir =>
    have hroot : components dir = [] := by_contra fun hne => by simp [Tree.apply, hne] at hr
    obtain ⟨rc, hm, rfl⟩ := returned hexec
    rcases rmdir_root h.wf hroot with ⟨rc', hneg, h'⟩ | h'
    · obtain ⟨rfl, -⟩ := Prod.mk.inj (Except.ok.inj ((h' ok).symm.trans hm))
      exact Tree.record_of_ne (by show rc' ≠ 0; omega)
    · cases (h' ok).symm.trans hm
  | _ => exact ite_self t

/-- One step of the map of a run. -/
theorem Step.abstracts (hI : Inv fs) (h : Abstracts fs.ddb t) {l : Call × Reply}
    (hs : Step digest fs l fs') : Abstracts fs'.ddb (t.record l.1 l.2) := by
  obtain ⟨call, reply⟩ := l
  cases hr : t.apply call.op with
  | none =>
    rw [record_of_not_apply hI hr hs.2]
    exact (hs.effect hI).abstracts hI h hr
  | some r =>
    cases hok : call.ok with
    | false =>
      obtain ⟨hrc, hddb⟩ := failed_ddb hI hok hr hs.2
      rw [Tree.record_of_ne (by omega), hddb]
      exact h
    | true =>
      obtain ⟨fs₁, hm, h'⟩ := apply_exec hI h hok hs.1 hr
      obtain ⟨rfl, rfl⟩ := Prod.mk.inj (Except.ok.inj (hm.symm.trans hs.2))
      rw [Tree.record_of_apply hr rfl]
      exact h'

/-- Every run of calls leaves the paths that it has created and not removed. -/
theorem runs_abstracts {ls : List (Call × Reply)} (h : Runs (Step digest) Fs.mkfs ls fs) :
    Inv fs ∧ Abstracts fs.ddb (created ls) := by
  induction h with
  | nil => exact ⟨inv_mkfs, abstracts_mkfs⟩
  | snoc _ hs ih =>
    rw [created, List.foldl_append]
    exact ⟨hs.inv ih.1, hs.abstracts ih.1 ih.2⟩

end

/-- A record whose fields are all keywords. -/
def Reserved (j : Json) : Prop := ∀ (n : Str) (v : JVal), j[n]? = some v → isKeyword n = true

theorem Reserved.empty : Reserved ∅ := fun n v h => by simp at h

theorem Reserved.insert {j : Json} (h : Reserved j) {n : Str} (hn : isKeyword n = true) (v : JVal) :
    Reserved (j.insert n v) := by
  intro m w hm
  rw [getElem?_put] at hm
  split_ifs at hm with hmn
  · exact hmn ▸ hn
  · exact h m w hm

theorem reserved_dirJsonInit (name key parent : Str) : Reserved (dirJsonInit name key parent) :=
  ((((Reserved.empty.insert rfl _).insert rfl _).insert rfl _).insert rfl _).insert rfl _

theorem reserved_fileJsonInit (name key parent : Str) : Reserved (fileJsonInit name key parent) :=
  ((((((((((Reserved.empty.insert rfl _).insert rfl _).insert rfl _).insert rfl _).insert rfl
    _).insert rfl _).insert rfl _).insert rfl _).insert rfl _).insert rfl _).insert rfl _

def FilesReserved (db : Store) : Prop :=
  ∀ (k : Str) (j : Json) (d : ℤ), db[k]? = some j → IsFile j d → Reserved j

theorem Edited.filesReserved {db db' : Store} {k c x : Str} {link : Option ℤ} {rec : Option Json}
    (he : Edited db k c x link rec db') (hx : Editable db k c x link rec) (h : FilesReserved db)
    (hrec : ∀ r, rec = some r → Reserved r) : FilesReserved db' := by
  intro a j d hj hf
  by_cases hax : a = x
  · subst hax
    exact hrec j (he.leaf.symm.trans hj)
  · exact h a j d ((he.file_iff hx hax hf).1 hj) hf

section

variable {digest : Str → List Int8} {fs fs' : Fs}

theorem filesReserved_make (h : Inv fs) (hF : FilesReserved fs.ddb)
    {init : Str → Str → Str → Json} {t rc : ℤ} {path : Str} {now : ℕ} {ok : Bool}
    (hinit : ∀ c x k, Flat (init c x k) ∧ ((t = FS_DIRECTORY ∧ IsDir (init c x k)) ∨
      (t = FS_FILE ∧ IsFile (init c x k) 0)))
    (hres : ∀ c x k, Reserved (init c x k))
    (hfresh : fs.ddb[calcKey digest (pathConvert path) now]? = none)
    (hm : fs.make digest init t path now ok = .ok (rc, fs')) : FilesReserved fs'.ddb := by
  rcases Fs.make_cases digest init t path now ok h.wf with
    ⟨_, -, h'⟩ | ⟨_, _, _, -, -, h'⟩ | ⟨q, c, k, j, hp, -, hj, hd, hnone, h'⟩
  · obtain ⟨-, rfl⟩ := Prod.mk.inj (Except.ok.inj (h'.symm.trans hm))
    exact hF
  · obtain ⟨-, rfl⟩ := Prod.mk.inj (Except.ok.inj (h'.symm.trans hm))
    exact hF
  · obtain ⟨-, rfl⟩ := Prod.mk.inj (Except.ok.inj (h'.symm.trans hm))
    cases ok with
    | false => exact hF
    | true =>
      have hc : IsName c := isName_of_mem_components (show c ∈ components path by simp [hp])
      have hed := editable_link h.wf hj hfresh (colon_notMem_calcKey digest _ _) hc hnone
        (hinit c (calcKey digest (pathConvert path) now) k)
      exact (edited_link hj hd hed.ne t _).filesReserved hed hF fun r hr =>
        Option.some.inj hr ▸ hres _ _ _

theorem Effect.filesReserved (h : Inv fs) {call : Call} {reply : Reply}
    (he : Effect digest fs call reply fs')
    (hop : ∀ path, call.op ≠ .mkdir path ∧ call.op ≠ .create path) (hF : FilesReserved fs.ddb) :
    FilesReserved fs'.ddb := by
  cases he with
  | unchanged => exact hF
  | @linked path _ _ _ _ _ _ hmake =>
    rcases hmake with ⟨hm, -⟩ | ⟨hm, -⟩
    · exact absurd hm (hop path).1
    · exact absurd hm (hop path).2
  | removed _ _ _ _ he hed => exact he.filesReserved hed hF fun r hr => by cases hr
  | marked _ _ _ _ _ hj hfile he hed =>
    exact he.filesReserved hed hF fun r hr => Option.some.inj hr ▸ (hF _ _ _ hj hfile).insert rfl _
  | flagged => exact hF
  | opened _ _ _ _ _ hO =>
    obtain ⟨fs₁, hM, rfl⟩ := hO.marked
    have hddb : fs₁.ddb = fs.ddb := hM.ddb
    exact hddb ▸ hF
  | closed => exact hF
  | released => exact hF
  | purged _ _ _ _ _ _ hj hfile =>
    obtain ⟨he, hed⟩ := edited_purge h.wf hj hfile
    exact he.filesReserved hed hF fun r hr => by cases hr
  | @wrote fd offset buf f batch _ _ hb =>
    obtain ⟨hwf, -, -, -, hmeta⟩ := hb.wf h.wf call.ok
    intro k j d hj hfile
    exact hF k j d ((hmeta (hwf.file_colon hj hfile)).symm.trans hj) hfile

theorem Step.filesReserved (h : Inv fs) {l : Call × Reply} (hs : Step digest fs l fs')
    (hF : FilesReserved fs.ddb) : FilesReserved fs'.ddb := by
  obtain ⟨⟨op, now, ok⟩, reply⟩ := l
  cases op with
  | mkdir dir =>
    obtain ⟨rc, hm, -⟩ := returned hs.2
    exact filesReserved_make h hF
      (fun c x k => ⟨flat_dirJsonInit c x k, .inl ⟨rfl, isDir_dirJsonInit c x k⟩⟩)
      (fun c x k => reserved_dirJsonInit c x k) hs.1 hm
  | create file =>
    obtain ⟨rc, hm, -⟩ := returned hs.2
    exact filesReserved_make h hF
      (fun c x k => ⟨(isFile_fileJsonInit c k x).flat, .inr ⟨rfl, isFile_fileJsonInit c k x⟩⟩)
      (fun c x k => reserved_fileJsonInit c k x) hs.1 hm
  | _ => exact (hs.effect h).filesReserved h (fun path => ⟨by simp, by simp⟩) hF

theorem filesReserved_mkfs : FilesReserved Fs.mkfs.ddb := by
  intro k j d hj hf
  simp only [Fs.mkfs, getElem?_put] at hj
  split_ifs at hj
  · exact absurd (Option.some.inj hj ▸ isDir_dirJsonInit _ _ _) hf.not_isDir
  · simp at hj

theorem reach_filesReserved (h : Reach (Step digest) Fs.mkfs fs) :
    Inv fs ∧ FilesReserved fs.ddb :=
  h.invariant (I := fun fs => Inv fs ∧ FilesReserved fs.ddb)
    (fun _ _ _ ⟨hI, hF⟩ hs => ⟨hs.inv hI, hs.filesReserved hI hF⟩) ⟨inv_mkfs, filesReserved_mkfs⟩

end

section

variable {fs : Fs} {path x : Str}

theorem listDir_error (h : Wf fs.ddb) {e : ℤ}
    (hr : resolve fs.ddb rootName (components path) = .error e) :
    fs.listDir path = .ok (-e, []) ∧ -e < 0 := by
  obtain ⟨hn, he⟩ := namei_pathConvert_error h hr
  have hneg : -e < 0 := by omega
  refine ⟨?_, hneg⟩
  unfold Fs.listDir
  simp [hn, he, bind, Except.bind, pure, Except.pure]

/-- Whatever the path leads to, `list_dir` goes over the fields of its record. -/
theorem listDir_ok (h : Wf fs.ddb) {type : ℤ} {j : Json}
    (hr : resolve fs.ddb rootName (components path) = .ok (x, type)) (hj : fs.ddb[x]? = some j)
    {out : Str} (hl : listLoop j.toList = .ok out) :
    fs.listDir path = .ok (0, out ++ ['\n']) := by
  obtain ⟨name, hn⟩ := namei_pathConvert_ok h hr
  unfold Fs.listDir
  simp [hn, initialized, Store.getOk, hj, hl, bind, Except.bind, pure, Except.pure]

theorem listDir_dir (h : Wf fs.ddb)
    (hr : resolve fs.ddb rootName (components path) = .ok (x, FS_DIRECTORY)) :
    ∃ j, fs.ddb[x]? = some j ∧ fs.listDir path = .ok (0, printed (entries j.toList)) := by
  obtain ⟨j, hj, hd⟩ := h.isDir_of_type (h.resolve_type h.root_type hr)
  exact ⟨j, hj, listDir_ok h hr hj (listLoop_dir hd)⟩

/-- A file's record has keywords only, so nothing comes before the empty line. -/
theorem listDir_file (h : Wf fs.ddb) (hF : FilesReserved fs.ddb) {type : ℤ}
    (hr : resolve fs.ddb rootName (components path) = .ok (x, type)) (ht : type ≠ FS_DIRECTORY) :
    fs.listDir path = .ok (0, ['\n']) := by
  obtain ⟨-, j, d, hj, hf⟩ := h.isFile_of_type (h.resolve_type h.root_type hr) ht
  have hmem : ∀ n v, (n, v) ∈ j.toList → isKeyword n = true ∧ v.isEntry = false := fun n v hn => by
    have hv := Std.ExtTreeMap.mem_toList_iff_getElem?_eq_some.1 hn
    exact ⟨hF x j d hj hf n v hv, hf.flat n v hv⟩
  have hno : entries j.toList = [] := by
    refine List.eq_nil_iff_forall_not_mem.2 fun e he => ?_
    obtain ⟨y, hy⟩ := mem_entries.1 he
    exact absurd (hmem _ _ hy).2 (by simp [JVal.isEntry])
  have hloop := listLoop_eq j.toList fun n v hn => by
    obtain ⟨hk, hv⟩ := hmem n v hn
    simp [hk, hv]
  rw [hno] at hloop
  exact listDir_ok h hr hj hloop

/-- The entries of a directory's record are the children of its path. -/
theorem listsChildren_entries {t : Tree} (h : Wf fs.ddb) (hA : Abstracts fs.ddb t) {p : List Str}
    (hw : walk fs.ddb.child rootName p = some x) {j : Json} (hj : fs.ddb[x]? = some j) :
    ListsChildren t p (printed (entries j.toList)) := by
  refine ⟨_, rfl, nodup_entries j, fun c type => ?_⟩
  have hent : ∀ y ty, (c, .entry y ty) ∈ j.toList ↔ fs.ddb.entryOf x c = some (y, ty) := by
    intro y ty
    rw [Std.ExtTreeMap.mem_toList_iff_getElem?_eq_some, entryOf_eq_some]
    simp [hj]
  rw [mem_entries, Tree.kind?, ← hA, kindAt_entry hw]
  cases he : fs.ddb.entryOf x c with
  | none => simp [hent, he]
  | some e =>
    obtain ⟨y, ty⟩ := e
    rw [Option.bind_some, h.entry he, Option.some.injEq]
    refine ⟨fun ⟨z, hz⟩ => ?_, fun hty => ⟨y, (hent y type).2 (hty ▸ he)⟩⟩
    exact (Prod.mk.inj (Option.some.inj (he.symm.trans ((hent z type).1 hz)))).2

end

/-- Whatever the calls before were and whether the store wrote or not, `list_dir` lists the
directories and only these, as long as the path does not lead to a file. For a file it returns 0 and
prints an empty line. -/
theorem listsDirectories_iff {digest : Str → List Int8} {ls : List (Call × Reply)} {fs : Fs}
    (h : Runs (Step digest) Fs.mkfs ls fs) (path : Str) :
    (ListsDirectories fs (created ls) path ↔ (created ls).kind? (components path) ≠ some .file) ∧
    ((created ls).kind? (components path) = some .file → fs.listDir path = .ok (0, ['\n'])) := by
  obtain ⟨hI, hA⟩ := runs_abstracts h
  obtain ⟨-, hF⟩ := reach_filesReserved ⟨ls, h⟩
  cases hr : resolve fs.ddb rootName (components path) with
  | error e =>
    have hnone : (created ls).kind? (components path) = none := (resolve_absent hI.wf hA hr).1
    obtain ⟨hl, hneg⟩ := listDir_error hI.wf hr
    rw [hnone]
    refine ⟨iff_of_true ⟨_, _, hl, ?_⟩ (by simp), fun h => by cases h⟩
    rw [hnone]
    exact ⟨iff_of_false (by omega) (by simp), fun h => (by cases h), fun h => by cases h⟩
  | ok a =>
    obtain ⟨x, type⟩ := a
    obtain ⟨hw, hk⟩ := resolve_ok hI.wf hA hr
    by_cases ht : type = FS_DIRECTORY
    · subst ht
      have hdir : (created ls).kind? (components path) = some .dir := hA.eq_some .dir hk
      obtain ⟨j, hj, hl⟩ := listDir_dir hI.wf hr
      rw [hdir]
      refine ⟨iff_of_true ⟨_, _, hl, ?_⟩ (by simp), fun h => by cases h⟩
      rw [hdir]
      exact ⟨by simp, fun _ => listsChildren_entries hI.wf hA hw hj, fun h => by cases h⟩
    · obtain ⟨rfl, -⟩ := hI.wf.isFile_of_type (hI.wf.resolve_type hI.wf.root_type hr) ht
      have hfile : (created ls).kind? (components path) = some .file := hA.eq_some .file hk
      have hl := listDir_file hI.wf hF hr ht
      refine ⟨iff_of_false ?_ (by simp [hfile]), fun _ => hl⟩
      rintro ⟨rc, out, hl', -, -, hneg⟩
      obtain ⟨rfl, -⟩ := Prod.mk.inj (Except.ok.inj (hl.symm.trans hl'))
      exact absurd (hneg hfile) (by decide)

/-- The root of a store with one file is listed. -/
theorem listsDirectories_iff_openedA : ListsDirectories openedA
    (created [(createA, ⟨0, none, []⟩), (openA, ⟨0, some 0, []⟩)]) ['/'] :=
  (listsDirectories_iff (runs_openedA.mono fun _ _ _ h => h.2) ['/']).1.2 (by decide)

/-- The file itself is listed as an empty directory. -/
theorem not_listsDirectories : ¬ ∀ digest ls fs path, Runs (Step digest) Fs.mkfs ls fs →
    ListsDirectories fs (created ls) path := by
  intro h
  obtain ⟨rc, out, hl, -, -, hneg⟩ :=
    h _ _ _ ['a'] (runs_openedA.mono fun _ _ _ h => h.2)
  have hrc : openedA.listDir ['a'] = .ok (0, ['\n']) := rfl
  obtain ⟨rfl, -⟩ := Prod.mk.inj (Except.ok.inj (hrc.symm.trans hl))
  exact absurd (hneg rfl) (by decide)

end CPPCodes.Rocksfs
