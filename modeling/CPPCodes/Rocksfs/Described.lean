import CPPCodes.Rocksfs.Effect

/-!
# What the records say about themselves

A record keeps its name, its key, its parent's key and its type. `mkdir` fills them in as they are,
but `create` hands `file_json_init` the two keys the other way round, and no later call corrects a
field. So in every reachable state the directories describe themselves and the files do not
(`selfDescribing_iff`).
-/

namespace CPPCodes.Rocksfs

open Transition

/-- The four fields of a record about itself. -/
structure Describes (j : Json) (name key parent : Str) (type : ℤ) : Prop where
  name : j[KW_NAME]? = some (.str name)
  key : j[KW_KEY]? = some (.str key)
  parent : j[KW_PARENT]? = some (.str parent)
  type : j[KW_TYPE]? = some (.num type)

/-- The record under `k` says of itself what the entry `n` of the directory under `d` says. -/
def DescribesItself (db : Store) (d n k : Str) (t : ℤ) : Prop :=
  ∃ j, db[k]? = some j ∧ Describes j n k d t

def SelfDescribing (fs : Fs) : Prop :=
  ∀ d n k t, fs.ddb.entryOf d n = some (k, t) → DescribesItself fs.ddb d n k t

/-- The key and the parent's key as the record of a file or a directory has them. -/
def Filled (db : Store) (d n k : Str) (t : ℤ) : Prop :=
  (t = FS_DIRECTORY ∧ DescribesItself db d n k t) ∨
    (t = FS_FILE ∧ ∃ j, db[k]? = some j ∧ Describes j n d k t)

theorem describes_dirJsonInit (name key parent : Str) :
    Describes (dirJsonInit name key parent) name key parent FS_DIRECTORY := by
  constructor <;>
    simp only [dirJsonInit, Std.ExtTreeMap.getElem?_insert, Std.compare_eq_iff_eq] <;> rfl

theorem describes_fileJsonInit (name key parent : Str) :
    Describes (fileJsonInit name key parent) name key parent FS_FILE := by
  constructor <;>
    simp only [fileJsonInit, Std.ExtTreeMap.getElem?_insert, Std.compare_eq_iff_eq] <;> rfl

theorem Describes.of_keywords {j j' : Json} {name key parent : Str} {t : ℤ}
    (h : Describes j name key parent t) (hj : ∀ n, isKeyword n = true → j'[n]? = j[n]?) :
    Describes j' name key parent t :=
  ⟨(hj _ rfl).trans h.name, (hj _ rfl).trans h.key, (hj _ rfl).trans h.parent,
    (hj _ rfl).trans h.type⟩

/-- Every entry refers to a record that `mkdir` or `create` has filled in. -/
def AllFilled (db : Store) : Prop := ∀ d n k t, db.entryOf d n = some (k, t) → Filled db d n k t

theorem Filled.of_records {db db' : Store} {d n k : Str} {t : ℤ} (h : Filled db d n k t)
    (hk : ∀ j, db[k]? = some j → ∃ j', db'[k]? = some j' ∧ ∀ n, isKeyword n = true → j'[n]? = j[n]?) :
    Filled db' d n k t := by
  rcases h with ⟨ht, j, hj, hd⟩ | ⟨ht, j, hj, hd⟩
  · obtain ⟨j', hj', hn⟩ := hk j hj
    exact .inl ⟨ht, j', hj', hd.of_keywords hn⟩
  · obtain ⟨j', hj', hn⟩ := hk j hj
    exact .inr ⟨ht, j', hj', hd.of_keywords hn⟩

section

variable {db db' : Store} {k c x : Str} {link : Option ℤ} {rec : Option Json}

/-- A record other than the edited one keeps its keyword fields. -/
theorem Edited.keywords (he : Edited db k c x link rec db') (hx : Editable db k c x link rec)
    {y : Str} (hy : y ≠ x) {j : Json} (hj : db[y]? = some j) :
    ∃ j', db'[y]? = some j' ∧ ∀ n, isKeyword n = true → j'[n]? = j[n]? := by
  obtain ⟨jk, jk', hjk, -, hjk', hn⟩ := he.dir
  by_cases hyk : y = k
  · subst hyk
    obtain rfl := Option.some.inj (hjk.symm.trans hj)
    refine ⟨jk', hjk', fun n hkw => ?_⟩
    have hnc : n ≠ c := by
      rintro rfl
      rw [hx.keyword] at hkw
      cases hkw
    rw [hn, if_neg hnc]
  · exact ⟨j, (he.other hyk hy).trans hj, fun _ _ => rfl⟩

theorem Edited.allFilled (he : Edited db k c x link rec db') (hx : Editable db k c x link rec)
    (h : AllFilled db) (hnew : ∀ t, link = some t → Filled db' k c x t) : AllFilled db' := by
  intro d n y t hent
  rw [he.entryOf hx] at hent
  split_ifs at hent with hdn
  · obtain ⟨rfl, rfl⟩ := hdn
    obtain ⟨s, hs, hxs⟩ := Option.map_eq_some_iff.1 hent
    obtain ⟨rfl, rfl⟩ := Prod.mk.inj hxs
    exact hnew s hs
  · have hyx : y ≠ x := by
      rintro rfl
      exact hdn (hx.parent (child_eq_some.2 ⟨t, hent⟩))
    exact (h d n y t hent).of_records fun j hj => he.keywords hx hyx hj

end

variable {digest : Str → List Int8}

/-- What `make` adds to the store when `init` fills in the fields. -/
theorem allFilled_make {fs fs' : Fs} (h : Inv fs) (hF : AllFilled fs.ddb)
    {init : Str → Str → Str → Json} {t rc : ℤ} {path : Str} {now : ℕ} {ok : Bool}
    (hinit : ∀ c x k, (t = FS_DIRECTORY ∧ IsDir (init c x k) ∧ Flat (init c x k) ∧
        Describes (init c x k) c x k t) ∨
      (t = FS_FILE ∧ IsFile (init c x k) 0 ∧ Describes (init c x k) c k x t))
    (hfresh : fs.ddb[calcKey digest (pathConvert path) now]? = none)
    (hm : fs.make digest init t path now ok = .ok (rc, fs')) :
    AllFilled fs'.ddb ∧ (rc ≠ 0 → fs' = fs) ∧
      ∀ d n k s, fs'.ddb.entryOf d n = some (k, s) → s = t ∨ fs.ddb.entryOf d n = some (k, s) := by
  rcases Fs.make_cases digest init t path now ok h.wf with
    ⟨_, -, h'⟩ | ⟨_, _, _, -, -, h'⟩ | ⟨q, c, k, j, hp, -, hj, hd, hnone, h'⟩
  · obtain ⟨-, rfl⟩ := Prod.mk.inj (Except.ok.inj (h'.symm.trans hm))
    exact ⟨hF, fun _ => rfl, fun _ _ _ _ => .inr⟩
  · obtain ⟨-, rfl⟩ := Prod.mk.inj (Except.ok.inj (h'.symm.trans hm))
    exact ⟨hF, fun _ => rfl, fun _ _ _ _ => .inr⟩
  · obtain ⟨rfl, rfl⟩ := Prod.mk.inj (Except.ok.inj (h'.symm.trans hm))
    cases ok with
    | false => exact ⟨hF, fun _ => rfl, fun _ _ _ _ => .inr⟩
    | true =>
      set x := calcKey digest (pathConvert path) now with hx
      have hc : IsName c := isName_of_mem_components (show c ∈ components path by simp [hp])
      have hed := editable_link h.wf hj hfresh (colon_notMem_calcKey digest _ _) hc hnone
        (t := t) (r := init c x k) (by
          rcases hinit c x k with ⟨ht, hdir, hflat, -⟩ | ⟨ht, hfile, -⟩
          · exact ⟨hflat, .inl ⟨ht, hdir⟩⟩
          · exact ⟨hfile.flat, .inr ⟨ht, hfile⟩⟩)
      have he := edited_link (c := c) hj hd hed.ne t (init c x k)
      refine ⟨he.allFilled hed hF fun s hs => ?_, fun hrc => absurd rfl hrc, fun d n y s hent => ?_⟩
      · obtain rfl := Option.some.inj hs
        rcases hinit c x k with ⟨ht, -, -, hdes⟩ | ⟨ht, -, hdes⟩
        · exact .inl ⟨ht, _, he.leaf, hdes⟩
        · exact .inr ⟨ht, _, he.leaf, hdes⟩
      · have hent' := (he.entryOf hed d n).symm.trans hent
        split_ifs at hent' with hdn
        · exact .inl (Prod.mk.inj (Option.some.inj hent')).2.symm
        · exact .inr hent'

/-- A call that makes no record adds no entry, and leaves the fields of the records as they are. -/
theorem Effect.allFilled {fs fs' : Fs} {call : Call} {reply : Reply} (h : Inv fs)
    (he : Effect digest fs call reply fs')
    (hop : ∀ path, call.op ≠ .mkdir path ∧ call.op ≠ .create path) (hF : AllFilled fs.ddb) :
    AllFilled fs'.ddb ∧
      ∀ d n e, fs'.ddb.entryOf d n = some e → fs.ddb.entryOf d n = some e := by
  have hedit : ∀ {db : Store} {k c x : Str} {rec : Option Json}, Edited fs.ddb k c x none rec db →
      Editable fs.ddb k c x none rec → AllFilled db ∧
        ∀ d n e, db.entryOf d n = some e → fs.ddb.entryOf d n = some e := by
    intro db k c x rec he hx
    refine ⟨he.allFilled hx hF fun t ht => absurd ht (by simp), fun d n e hent => ?_⟩
    rw [he.entryOf hx] at hent
    split_ifs at hent
    · cases hent
    · exact hent
  cases he with
  | unchanged => exact ⟨hF, fun _ _ _ => id⟩
  | @linked path k c x t r db hmake =>
    rcases hmake with ⟨hm, -⟩ | ⟨hm, -⟩
    · exact absurd hm (hop path).1
    · exact absurd hm (hop path).2
  | removed _ _ _ _ he hed => exact hedit he hed
  | marked _ _ _ _ _ _ _ he hed => exact hedit he hed
  | flagged => exact ⟨hF, fun _ _ _ => id⟩
  | opened _ _ _ _ _ hO =>
    obtain ⟨fs₁, hM, rfl⟩ := hO.marked
    have hddb : fs₁.ddb = fs.ddb := hM.ddb
    exact ⟨hddb ▸ hF, fun d n e hent => hddb ▸ hent⟩
  | closed => exact ⟨hF, fun _ _ _ => id⟩
  | released => exact ⟨hF, fun _ _ _ => id⟩
  | purged _ _ _ _ _ _ hj hfile =>
    obtain ⟨he, hed⟩ := edited_purge h.wf hj hfile
    exact hedit he hed
  | @wrote fd offset buf f batch _ _ hb =>
    obtain ⟨-, -, -, hentry, hmeta⟩ := hb.wf h.wf call.ok
    refine ⟨fun d n k t hent => ?_, fun d n e hent => by rw [← hentry]; exact hent⟩
    have hent' : fs.ddb.entryOf d n = some (k, t) := by
      rw [← hentry]
      exact hent
    have hcolon := h.wf.not_mem_colon (h.wf.entry hent')
    exact (hF d n k t hent').of_records fun j hj => ⟨j, (hmeta hcolon).trans hj, fun _ _ => rfl⟩

theorem entryOf_mkfs (d n : Str) : Fs.mkfs.ddb.entryOf d n = none := by
  unfold Store.entryOf
  simp only [Fs.mkfs, getElem?_put]
  split_ifs
  · exact (flat_dirJsonInit _ _ _).entryOf n
  · simp

theorem allFilled_mkfs : AllFilled Fs.mkfs.ddb := by
  intro d n k t hent
  rw [entryOf_mkfs] at hent
  cases hent

/-- A call that gives a name to a new file. -/
def CreatesFile (l : Call × Reply) : Prop := (∃ file, l.1.op = .create file) ∧ l.2.rc = 0

theorem Step.allFilled {fs fs' : Fs} {l : Call × Reply} (h : Inv fs) (hs : Step digest fs l fs')
    (hF : AllFilled fs.ddb) : AllFilled fs'.ddb ∧ (¬ CreatesFile l → ∀ d n k t,
      fs'.ddb.entryOf d n = some (k, t) → t = FS_DIRECTORY ∨ fs.ddb.entryOf d n = some (k, t)) := by
  obtain ⟨call, reply⟩ := l
  by_cases hop : ∀ path, call.op ≠ .mkdir path ∧ call.op ≠ .create path
  · obtain ⟨hF', hsub⟩ := (hs.effect h).allFilled h hop hF
    exact ⟨hF', fun _ d n k t hent => .inr (hsub d n (k, t) hent)⟩
  obtain ⟨hfresh, hexec⟩ := hs
  push Not at hop
  obtain ⟨path, hop⟩ := hop
  by_cases hmk : call.op = .mkdir path
  · simp only [Fresh, hmk] at hfresh
    simp only [Fs.exec, hmk] at hexec
    obtain ⟨rc, hm, -⟩ := returned hexec
    obtain ⟨hF', -, hsub⟩ := allFilled_make h hF (fun c x k => .inl ⟨rfl, isDir_dirJsonInit c x k,
      flat_dirJsonInit c x k, describes_dirJsonInit c x k⟩) hfresh hm
    exact ⟨hF', fun _ => hsub⟩
  · have hcr := hop hmk
    simp only [Fresh, hcr] at hfresh
    simp only [Fs.exec, hcr] at hexec
    obtain ⟨rc, hm, rfl⟩ := returned hexec
    obtain ⟨hF', hsame, -⟩ := allFilled_make h hF (fun c x k => .inr ⟨rfl, isFile_fileJsonInit c k x,
      describes_fileJsonInit c k x⟩) hfresh hm
    refine ⟨hF', fun hno d n k t hent => .inr ?_⟩
    rwa [← hsame fun hrc => hno ⟨⟨path, hcr⟩, hrc⟩]

/-- The record of a file has the directory's key, and the directory is another record. -/
theorem Filled.describesItself_iff {db : Store} {d n k : Str} {t : ℤ} (h : Wf db)
    (hent : db.entryOf d n = some (k, t)) (hf : Filled db d n k t) :
    DescribesItself db d n k t ↔ t = FS_DIRECTORY := by
  rcases hf with ⟨ht, hdes⟩ | ⟨rfl, j, hj, hdes⟩
  · exact iff_of_true hdes ht
  · refine iff_of_false ?_ (by decide)
    rintro ⟨j', hj', hdes'⟩
    obtain rfl := Option.some.inj (hj.symm.trans hj')
    have hdk : d = k := by simpa using hdes.key.symm.trans hdes'.key
    obtain ⟨jd, hjd, hdir, -⟩ := h.entry_dir hent
    obtain ⟨-, jf, hjf, hfile⟩ := h.isFile_of_entry hent (by decide)
    rw [← hdk, hjd] at hjf
    exact hfile.not_isDir (Option.some.inj hjf ▸ hdir)

theorem filled_of_runs {ls : List (Call × Reply)} {fs : Fs} (h : Runs (Step digest) Fs.mkfs ls fs) :
    Inv fs ∧ AllFilled fs.ddb ∧ ((∀ l ∈ ls, ¬ CreatesFile l) →
      ∀ d n k t, fs.ddb.entryOf d n = some (k, t) → t = FS_DIRECTORY) := by
  induction h with
  | nil =>
    refine ⟨inv_mkfs, allFilled_mkfs, fun _ d n k t hent => ?_⟩
    rw [entryOf_mkfs] at hent
    cases hent
  | snoc _ hs ih =>
    obtain ⟨hI, hF, hdir⟩ := ih
    obtain ⟨hF', hsub⟩ := hs.allFilled hI hF
    refine ⟨hs.inv hI, hF', fun hno d n k t hent => ?_⟩
    rcases hsub (hno _ (by simp)) d n k t hent with ht | hold
    · exact ht
    · exact hdir (fun l hl => hno l (List.mem_append_left _ hl)) d n k t hold

/-- In every state that calls reach from `mkfs` on, whether the store writes or not, the record of a
directory describes itself and that of a file does not. While no call gives a name to a new file,
all records describe themselves. -/
theorem selfDescribing_iff {ls : List (Call × Reply)} {fs : Fs}
    (h : Runs (Step digest) Fs.mkfs ls fs) :
    (∀ d n k t, fs.ddb.entryOf d n = some (k, t) →
      (DescribesItself fs.ddb d n k t ↔ t = FS_DIRECTORY)) ∧
    (SelfDescribing fs ↔ ∀ d n k, fs.ddb.entryOf d n ≠ some (k, FS_FILE)) ∧
    ((∀ l ∈ ls, ¬ CreatesFile l) → SelfDescribing fs) := by
  obtain ⟨hI, hF, hdir⟩ := filled_of_runs h
  have hiff : ∀ d n k t, fs.ddb.entryOf d n = some (k, t) →
      (DescribesItself fs.ddb d n k t ↔ t = FS_DIRECTORY) := fun d n k t hent =>
    (hF d n k t hent).describesItself_iff hI.wf hent
  refine ⟨hiff, ⟨fun hall d n k hent => ?_, fun hno d n k t hent => ?_⟩, fun hno d n k t hent => ?_⟩
  · exact absurd ((hiff d n k _ hent).1 (hall d n k _ hent)) (by decide)
  · rcases hF d n k t hent with ⟨-, hdes⟩ | ⟨rfl, -⟩
    · exact hdes
    · exact absurd hent (hno d n k)
  · exact (hiff d n k t hent).2 (hdir hno d n k t hent)

theorem entryOf_openedA : openedA.ddb.entryOf rootName ['a'] =
    some (calcKey lengthDigest (pathConvert ['a']) 0, FS_FILE) := by
  decide +kernel

theorem selfDescribing_iff_openedA : ¬ SelfDescribing openedA ∧ SelfDescribing Fs.mkfs := by
  have hiff := (selfDescribing_iff (runs_openedA.mono fun _ _ _ h => h.2)).2.1
  exact ⟨fun hdes => hiff.1 hdes _ _ _ entryOf_openedA,
    (selfDescribing_iff (show Runs (Step lengthDigest) Fs.mkfs [] Fs.mkfs from .nil _)).2.2
      (by simp)⟩

/-- One `create`, and the new file does not describe itself. -/
theorem not_selfDescribing :
    ¬ ∀ (digest : Str → List Int8) (fs : Fs), Reach (StepOk digest) Fs.mkfs fs →
      SelfDescribing fs := by
  intro h
  have hent := entryOf_openedA
  obtain ⟨hI, hF, -⟩ := filled_of_runs (runs_openedA.mono fun _ _ _ h => h.2)
  have hdes := h lengthDigest openedA ⟨_, runs_openedA⟩ _ _ _ _ hent
  exact absurd (((hF _ _ _ _ hent).describesItself_iff hI.wf hent).1 hdes) (by decide)

end CPPCodes.Rocksfs
