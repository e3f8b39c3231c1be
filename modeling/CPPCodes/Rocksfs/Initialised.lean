import CPPCodes.Rocksfs.Canonical
import CPPCodes.Rocksfs.Lifetime
import CPPCodes.Rocksfs.Listing

/-!
# What `namei` writes to the dentry

`namei` writes the dentry where the stream ends behind a component. On a string without components
its loop ends without, and it returns 0 all the same. `path_convert` makes no such string, but
`lookup` cuts one off "/root". `rmdir` of an empty root, spelled with slashes, gets there and reads
the type of a dentry that nobody has written; nothing else does (`onEntries_iff`).
-/

namespace CPPCodes.Rocksfs

open Namespace Transition

/-- A call of the public interface. -/
inductive Request
  | call (call : Call)
  | listDir (path : Str)

/-- Whether `mkdir` and `create` go on to `lookup`. -/
def makeLooksUp (db : Store) (path : Str) : Bool :=
  match namei db path with
  | .ok (rc, _) => rc ≠ 0
  | .error _ => false

def rmdirLooksUp (db : Store) (path : Str) : Bool :=
  match namei db path with
  | .ok (_, some de) => de.type = FS_DIRECTORY ∧ (isDirEmpty db de.key).toOption = some true
  | _ => false

def unlinkLooksUp (db : Store) (path : Str) : Bool :=
  match namei db path with
  | .ok (_, some de) => de.type = FS_FILE
  | _ => false

/-- The converted path itself, and what `lookup` cuts off it. -/
def walksOf (path : Str) (looksUp : Bool) : List Str :=
  path :: if looksUp then [(splitPath path).1] else []

/-- The strings that a request passes to `namei`, in their order. -/
def Request.walks (db : Store) : Request → List Str
  | .listDir path => walksOf (pathConvert path) false
  | .call c =>
    match c.op with
    | .mkdir path | .create path =>
      walksOf (pathConvert path) (makeLooksUp db (pathConvert path))
    | .rmdir path =>
      if path.length = 0 then []
      else walksOf (pathConvert path) (rmdirLooksUp db (pathConvert path))
    | .unlink path => walksOf (pathConvert path) (unlinkLooksUp db (pathConvert path))
    | .open path => walksOf (pathConvert path) false
    | .close _ | .pwrite _ _ _ | .pread _ _ _ => []

/-- The request comes to something that C++ does not define. -/
def Request.Undefined (digest : Str → List Int8) (fs : Fs) : Request → Prop
  | .call c => fs.exec digest c = .error .undefined
  | .listDir path => fs.listDir path = .error .undefined

/-- The dentry has the key and the type of the entry for the last component of `s`. Behind "/root"
alone there is no entry but the root itself. -/
def IsLastEntry (db : Store) (s : Str) (de : Dentry) : Prop :=
  de.path = s ∧
    ((components s = [rootName] ∧ de.name = rootName ∧ de.key = rootName ∧ de.type = FS_DIRECTORY) ∨
      ∃ q k, components s = rootName :: (q ++ [de.name]) ∧ walk db.child rootName q = some k ∧
        db.entryOf k de.name = some (de.key, de.type))

/-- Where `namei` returns 0 it has written the dentry. -/
def Yields (db : Store) (s : Str) : Prop :=
  ∀ d, namei db s = .ok (0, d) → ∃ de, d = some de ∧ IsLastEntry db s de

/-- The descriptors that `open` counts up through are all in use. -/
def OutOfDescriptors (fs : Fs) (req : Request) : Prop :=
  (∃ file now ok, req = .call ⟨.open file, now, ok⟩) ∧
    ∀ d, 0 ≤ d → d ≤ INT_MAX → fs.fdTable[d]? ≠ none

/-- Every walk of the request yields an entry, and it reads nothing that was not written. -/
structure OnEntries (digest : Str → List Int8) (fs : Fs) (req : Request) : Prop where
  walks : ∀ s ∈ req.walks fs.ddb, Yields fs.ddb s
  defined : req.Undefined digest fs → OutOfDescriptors fs req

/-- `rmdir` of the root, with a spelling that is not empty, while the root has no entries. -/
def RemovesEmptyRoot (db : Store) (req : Request) : Prop :=
  ∃ path now ok, req = .call ⟨.rmdir path, now, ok⟩ ∧ path ≠ [] ∧ components path = [] ∧
    isDirEmpty db rootName = .ok true

section

variable {db : Store} {path : Str}

theorem yields_slashed (h : Wf db) {cs : List Str} (hn : ∀ c ∈ cs, IsName c) :
    Yields db ('/' :: rootName ++ slashed cs) := by
  intro d hd
  rw [namei_slashed h hn] at hd
  cases hr : resolve db rootName cs with
  | error e =>
    have he : 0 < e := by rcases resolve_error hr with rfl | rfl <;> decide
    rw [hr] at hd
    exact absurd (Prod.mk.inj (Except.ok.inj hd)).1 (by omega)
  | ok a =>
    obtain ⟨x, t⟩ := a
    rw [hr] at hd
    obtain ⟨-, rfl⟩ := Prod.mk.inj (Except.ok.inj hd)
    refine ⟨_, rfl, rfl, ?_⟩
    rw [components_slashed hn]
    rcases List.eq_nil_or_concat cs with rfl | ⟨q, c, rfl⟩
    · obtain ⟨rfl, rfl⟩ := Prod.mk.inj (Except.ok.inj hr)
      exact .inl ⟨rfl, rfl, rfl, rfl⟩
    · -- the last step is from a directory, by its entry
      rw [List.concat_eq_append] at hr ⊢
      rw [resolve_concat] at hr
      cases hk : resolveDir db rootName q with
      | error e => simp [hk] at hr
      | ok k =>
        refine .inr ⟨q, k, by simp, (h.resolveDir_dir h.root_type hk).1, ?_⟩
        cases he : db.entryOf k c with
        | none => simp [hk, he] at hr
        | some e =>
          simp only [hk, he, Except.ok.injEq] at hr
          simp [he, hr]

theorem yields_pathConvert (h : Wf db) (path : Str) : Yields db (pathConvert path) :=
  pathConvert_eq path ▸ yields_slashed h (isName_components path)

/-- `namei` returns 0 on the empty string. -/
theorem not_yields_nil (db : Store) : ¬ Yields db [] := by
  intro h
  obtain ⟨de, hde, -⟩ := h none rfl
  cases hde

theorem splitPath_root (hp : components path = []) : (splitPath (pathConvert path)).1 = [] := by
  rw [pathConvert_eq, hp]
  rfl

/-- What `lookup` cuts off yields an entry where the path has a component. -/
theorem yields_splitPath_iff (h : Wf db) (path : Str) :
    Yields db (splitPath (pathConvert path)).1 ↔ components path ≠ [] := by
  rcases components_cases path with hp | ⟨q, c, hp⟩
  · rw [splitPath_root hp]
    exact iff_of_false (not_yields_nil db) (not_not.2 hp)
  · have hn := isName_components path
    rw [hp] at hn
    rw [pathConvert_eq, hp, splitPath_slashed q (hn c (by simp)).2]
    exact iff_of_true (yields_slashed h fun d hd => hn d (by simp [hd])) (by simp)

theorem namei_root (h : Wf db) (hp : components path = []) :
    ∃ name, namei db (pathConvert path)
      = .ok (0, some ⟨pathConvert path, name, rootName, FS_DIRECTORY⟩) :=
  namei_pathConvert_ok h (by rw [hp]; rfl)

theorem yields_walksOf_iff (h : Wf db) (path : Str) (looksUp : Bool) :
    (∀ s ∈ walksOf (pathConvert path) looksUp, Yields db s) ↔
      (looksUp = true → components path ≠ []) := by
  rw [walksOf, List.forall_mem_cons, and_iff_right (yields_pathConvert h path)]
  cases looksUp with
  | false => simp
  | true => simpa using yields_splitPath_iff h path

theorem yields_walksOf (h : Wf db) {looksUp : Bool} (hl : components path = [] → looksUp = false) :
    ∀ s ∈ walksOf (pathConvert path) looksUp, Yields db s := by
  refine (yields_walksOf_iff h path looksUp).2 fun htrue hp => ?_
  rw [hl hp] at htrue
  cases htrue

theorem not_makeLooksUp (h : Wf db) (hp : components path = []) :
    makeLooksUp db (pathConvert path) = false := by
  obtain ⟨name, hn⟩ := namei_root h hp
  unfold makeLooksUp
  rw [hn]
  rfl

theorem not_unlinkLooksUp (h : Wf db) (hp : components path = []) :
    unlinkLooksUp db (pathConvert path) = false := by
  obtain ⟨name, hn⟩ := namei_root h hp
  unfold unlinkLooksUp
  rw [hn]
  rfl

theorem rmdirLooksUp_root (h : Wf db) (hp : components path = []) :
    rmdirLooksUp db (pathConvert path) = true ↔ isDirEmpty db rootName = .ok true := by
  obtain ⟨name, hn⟩ := namei_root h hp
  unfold rmdirLooksUp
  rw [hn]
  simp only [true_and, decide_eq_true_eq]
  cases isDirEmpty db rootName with
  | error e => simp [Except.toOption]
  | ok b => simp [Except.toOption]

theorem removesEmptyRoot_iff {op : Op} {now : ℕ} {ok : Bool} :
    RemovesEmptyRoot db (.call ⟨op, now, ok⟩) ↔ ∃ path, op = .rmdir path ∧ path ≠ [] ∧
      components path = [] ∧ isDirEmpty db rootName = .ok true := by
  refine ⟨?_, fun ⟨path, hop, h⟩ => ⟨path, now, ok, by rw [hop], h⟩⟩
  rintro ⟨path, _, _, hreq, h⟩
  cases hreq
  exact ⟨path, rfl, h⟩

theorem rmdir_walks_iff (h : Wf db) (path : Str) (now : ℕ) (ok : Bool) :
    (∀ s ∈ (Request.call ⟨.rmdir path, now, ok⟩).walks db, Yields db s) ↔
      ¬ (path ≠ [] ∧ components path = [] ∧ isDirEmpty db rootName = .ok true) := by
  unfold Request.walks
  by_cases hlen : path = []
  · simp [hlen]
  simp only [List.length_eq_zero_iff, if_neg hlen]
  rw [yields_walksOf_iff h]
  by_cases hp : components path = []
  · rw [rmdirLooksUp_root h hp]
    simp [hlen, hp]
  · simp [hp]

/-- The walks of a request all yield, but for those of `rmdir` of the empty root. -/
theorem walks_iff (h : Wf db) (req : Request) :
    (∀ s ∈ req.walks db, Yields db s) ↔ ¬ RemovesEmptyRoot db req := by
  cases req with
  | listDir path =>
    refine iff_of_true (yields_walksOf h fun _ => rfl) ?_
    rintro ⟨_, _, _, hreq, -⟩
    cases hreq
  | call c =>
    obtain ⟨op, now, ok⟩ := c
    rw [removesEmptyRoot_iff]
    cases op with
    | mkdir path => exact iff_of_true (yields_walksOf h (not_makeLooksUp h)) (by simp)
    | create path => exact iff_of_true (yields_walksOf h (not_makeLooksUp h)) (by simp)
    | unlink path => exact iff_of_true (yields_walksOf h (not_unlinkLooksUp h)) (by simp)
    | «open» path => exact iff_of_true (yields_walksOf h fun _ => rfl) (by simp)
    | rmdir path =>
      rw [rmdir_walks_iff h]
      simp
    | _ => exact iff_of_true (by simp [Request.walks]) (by simp)

end

/-- The computation comes to nothing undefined. -/
def Defined {α : Type} (x : Except Fault α) : Prop := x ≠ .error .undefined

section

variable {α β : Type} {x : Except Fault α} {g : α → Except Fault β}

theorem defined_ok (a : α) : Defined (.ok a) := fun h => by cases h

theorem Defined.bind (hx : Defined x) (hg : ∀ a, x = .ok a → Defined (g a)) :
    Defined (x >>= g) := by
  cases x with
  | error e =>
    intro h
    exact hx (by rw [Except.error.inj h])
  | ok a => exact hg a rfl

theorem defined_check (p : Prop) [Decidable p] : Defined (check p) := by
  unfold check
  split_ifs <;> exact fun h => by cases h

theorem defined_num (j : Json) (k : Str) : Defined (j.num k) := by
  unfold Json.num
  split <;> exact fun h => by cases h

theorem defined_str (j : Json) (k : Str) : Defined (j.str k) := by
  unfold Json.str
  split <;> exact fun h => by cases h

end

namespace RocksfileImpl

variable (fi : RocksfileImpl) (db : Store)

theorem defined_encode (block : ℕ) (buf : List UInt8) (offset : ℤ) :
    Defined (fi.encode block buf offset) :=
  (defined_check _).bind fun _ _ => defined_ok _

theorem defined_decode (j : Json) (block : ℕ) (buf : List UInt8) (offset : ℤ) :
    Defined (fi.decode j block buf offset) := by
  unfold decode
  refine (defined_check _).bind fun _ _ => (defined_num _ _).bind fun _ _ => ?_
  refine (defined_num _ _).bind fun _ _ => (defined_num _ _).bind fun _ _ => ?_
  refine (defined_check _).bind fun _ _ => (defined_str _ _).bind fun _ _ => ?_
  exact (defined_check _).bind fun _ _ => defined_ok _

theorem defined_writeLoop (sb eb : ℕ) (buf : List UInt8) (offset : ℤ) :
    Defined (fi.writeLoop sb eb buf offset) := by
  fun_induction RocksfileImpl.writeLoop fi sb eb buf offset with
  | case1 sb buf offset hle hb bc ih =>
    exact (fi.defined_encode _ _ _).bind fun _ _ => ih.bind fun _ _ => defined_ok _
  | case2 => exact fun h => by cases h
  | case3 => exact defined_ok _

theorem defined_readLoop (sb eb : ℕ) (buf : List UInt8) (offset : ℤ) :
    Defined (fi.readLoop db sb eb buf offset) := by
  fun_induction RocksfileImpl.readLoop fi db sb eb buf offset with
  | case1 => exact defined_ok _
  | case2 sb buf offset hle j hj hb bc ih =>
    exact (fi.defined_decode _ _ _ _).bind fun _ _ => ih.bind fun _ _ => defined_ok _
  | case3 => exact fun h => by cases h
  | case4 => exact defined_ok _

end RocksfileImpl

namespace Fs

variable {fs : Fs}

theorem defined_make (h : Wf fs.ddb) (digest : Str → List Int8) (init : Str → Str → Str → Json)
    (type : ℤ) (path : Str) (now : ℕ) (ok : Bool) :
    Defined (fs.make digest init type path now ok) := by
  rcases make_cases digest init type path now ok h with
    ⟨_, -, hm⟩ | ⟨_, _, _, -, -, hm⟩ | ⟨_, _, _, _, -, -, -, -, -, hm⟩ <;>
    exact hm ▸ defined_ok _

theorem defined_rmdir (h : Wf fs.ddb) {dir : Str} (ok : Bool)
    (hroot : ¬ (dir ≠ [] ∧ components dir = [] ∧ isDirEmpty fs.ddb rootName = .ok true)) :
    Defined (fs.rmdir dir ok) := by
  by_cases hp : components dir = []
  · by_cases hlen : dir.length = 0
    · have hm : fs.rmdir dir ok = .ok (-ENOTDIR, fs) := by
        unfold rmdir
        rw [if_pos hlen]
        rfl
      exact hm ▸ defined_ok _
    · obtain ⟨name, hn⟩ := namei_root h hp
      obtain ⟨j, hj, hd, -⟩ := h.root
      obtain ⟨b, hb, -⟩ := isDirEmpty_eq hj hd
      have hne : dir ≠ [] := fun h' => hlen (by rw [h']; rfl)
      cases b with
      | true => exact absurd ⟨hne, hp, hb⟩ hroot
      | false =>
        have hm : fs.rmdir dir ok = .ok (-ENOTEMPTY, fs) := by
          simp [rmdir, hlen, hn, initialized, hb, bind, Except.bind, pure, Except.pure]
        exact hm ▸ defined_ok _
  · rcases rmdir_cases h hp ok with ⟨_, -, hm⟩ | ⟨_, _, -, -, hm⟩ | ⟨_, _, _, -, -, hm⟩ |
      ⟨_, _, _, _, _, -, -, -, -, -, -, hm⟩ <;> exact hm ▸ defined_ok _

/-- On an empty root `rmdir` goes on to `lookup`, which reads what `namei` has not written. -/
theorem rmdir_undefined (h : Wf fs.ddb) {dir : Str} (hne : dir ≠ []) (hp : components dir = [])
    (hempty : isDirEmpty fs.ddb rootName = .ok true) (ok : Bool) :
    fs.rmdir dir ok = .error .undefined := by
  have hlen : dir.length ≠ 0 := fun h' => hne (List.length_eq_zero_iff.1 h')
  obtain ⟨name, hn⟩ := namei_root h hp
  have hl : lookup fs.ddb (pathConvert dir) = .error .undefined := by
    rw [pathConvert_eq, hp]
    rfl
  simp [rmdir, hlen, hn, initialized, hempty, hl, bind, Except.bind]

theorem defined_unlink (h : Inv fs) (file : Str) (ok : Bool) : Defined (fs.unlink file ok) := by
  obtain ⟨rc, fs', hm, -⟩ := unlink_effect (fun _ => []) ⟨.unlink file, 0, ok⟩ h rfl
  exact hm ▸ defined_ok _

/-- `open` stops only when the descriptors are used up. -/
theorem open_error (h : Inv fs) {file : Str} {e : Fault} (ho : fs.open file = .error e) :
    ∀ d, 0 ≤ d → d ≤ INT_MAX → fs.fdTable[d]? ≠ none := by
  rcases open_cases h file with ⟨_, -, hm⟩ | ⟨x, -, hm⟩ |
    ⟨x, j, -, -, -, ⟨-, hall⟩ | ⟨d, fi, i, fs₁, hm, -⟩⟩
  · cases hm.symm.trans ho
  · cases hm.symm.trans ho
  · exact hall
  · cases hm.symm.trans ho

theorem defined_close (h : Inv fs) (fd : ℤ) (ok : Bool) : Defined (fs.close fd ok) := by
  rcases close_cases h fd ok with ⟨-, hm⟩ | ⟨f, i, -, -, -, ⟨-, hm⟩ | ⟨-, -, hm⟩ |
    ⟨j, d, -, -, -, -, hm⟩⟩
  · exact hm ▸ defined_ok _
  · exact hm ▸ defined_ok _
  · exact hm ▸ defined_ok _
  · rw [hm]
    split_ifs
    · exact defined_ok _
    · exact fun h => by cases h

/-- A descriptor belongs to an object. -/
theorem impl_of_fd (h : Inv fs) {fd : ℤ} {f : Rocksfile} (hf : fs.fdTable[fd]? = some f) :
    ∃ i, fs.impl f.fi = .ok i := by
  obtain ⟨i, hi, -⟩ := h.opened (h.fd hf).2.2.2
  exact ⟨i, by simp only [impl, hi]⟩

theorem defined_pwrite (h : Inv fs) (fd : ℤ) (buf : List UInt8) (offset : ℤ) (ok : Bool) :
    Defined (fs.pwrite fd buf offset ok) := by
  unfold pwrite
  split
  · exact defined_ok _
  · rename_i f hf
    obtain ⟨i, hi⟩ := impl_of_fd h hf
    rw [hi]
    refine (defined_ok i).bind fun _ _ => Defined.bind ?_ fun _ _ => defined_ok _
    refine (RocksfileImpl.defined_writeLoop _ _ _ _ _).bind fun _ _ => ?_
    split_ifs <;> exact defined_ok _

theorem defined_pread (h : Inv fs) (fd : ℤ) (buf : List UInt8) (offset : ℤ) :
    Defined (fs.pread fd buf offset) := by
  unfold pread
  split
  · exact defined_ok _
  · rename_i f hf
    obtain ⟨i, hi⟩ := impl_of_fd h hf
    rw [hi]
    refine (defined_ok i).bind fun _ _ => ?_
    exact (RocksfileImpl.defined_readLoop _ _ _ _ _ _).bind fun _ _ => defined_ok _

theorem defined_listDir (h : Wf fs.ddb) (hF : FilesReserved fs.ddb) (path : Str) :
    Defined (fs.listDir path) := by
  cases hr : resolve fs.ddb rootName (components path) with
  | error e => exact (listDir_error h hr).1 ▸ defined_ok _
  | ok a =>
    obtain ⟨x, type⟩ := a
    by_cases ht : type = FS_DIRECTORY
    · obtain ⟨j, -, hl⟩ := listDir_dir h (ht ▸ hr)
      exact hl ▸ defined_ok _
    · exact listDir_file h hF hr ht ▸ defined_ok _

end Fs

variable {digest : Str → List Int8} {fs : Fs}

theorem outOfDescriptors_of_undefined (h : Inv fs) (hF : FilesReserved fs.ddb) {req : Request}
    (hroot : ¬ RemovesEmptyRoot fs.ddb req) (hu : req.Undefined digest fs) :
    OutOfDescriptors fs req := by
  cases req with
  | listDir path => exact absurd hu (Fs.defined_listDir h.wf hF path)
  | call c =>
    obtain ⟨op, now, ok⟩ := c
    rw [removesEmptyRoot_iff] at hroot
    cases op with
    | mkdir path =>
      exact absurd hu ((Fs.defined_make h.wf digest _ _ path now ok).bind fun _ _ => defined_ok _)
    | create path =>
      exact absurd hu ((Fs.defined_make h.wf digest _ _ path now ok).bind fun _ _ => defined_ok _)
    | rmdir path =>
      have hdef := Fs.defined_rmdir h.wf ok fun hr => hroot ⟨path, rfl, hr⟩
      exact absurd hu (hdef.bind fun _ _ => defined_ok _)
    | unlink path =>
      exact absurd hu ((Fs.defined_unlink h path ok).bind fun _ _ => defined_ok _)
    | «open» path =>
      refine ⟨⟨path, now, ok, rfl⟩, ?_⟩
      cases ho : fs.open path with
      | ok r =>
        simp only [Request.Undefined, Fs.exec, ho] at hu
        exact absurd hu ((defined_ok r).bind fun _ _ => defined_ok _)
      | error e => exact Fs.open_error h ho
    | close fd => exact absurd hu ((Fs.defined_close h fd ok).bind fun _ _ => defined_ok _)
    | pwrite fd buf offset =>
      exact absurd hu ((Fs.defined_pwrite h fd buf offset ok).bind fun _ _ => defined_ok _)
    | pread fd buf offset =>
      exact absurd hu ((Fs.defined_pread h fd buf offset).bind fun _ _ => defined_ok _)

/-- In every state that calls reach from `mkfs` on, whether the store writes or not: a converted
path yields an entry wherever `namei` returns 0, what `lookup` cuts off it does so where the path
has a component, and a request is on entries unless it removes an empty root, which is undefined. -/
theorem onEntries_iff (h : Reach (Step digest) Fs.mkfs fs) :
    (∀ path, Yields fs.ddb (pathConvert path) ∧
      (Yields fs.ddb (splitPath (pathConvert path)).1 ↔ components path ≠ [])) ∧
    ∀ req, (OnEntries digest fs req ↔ ¬ RemovesEmptyRoot fs.ddb req) ∧
      (RemovesEmptyRoot fs.ddb req → req.Undefined digest fs) := by
  obtain ⟨hI, hF⟩ := reach_filesReserved h
  refine ⟨fun path => ⟨yields_pathConvert hI.wf path, yields_splitPath_iff hI.wf path⟩,
    fun req => ⟨⟨fun hreq => (walks_iff hI.wf req).1 hreq.walks, fun hroot => ?_⟩, ?_⟩⟩
  · exact ⟨(walks_iff hI.wf req).2 hroot, outOfDescriptors_of_undefined hI hF hroot⟩
  · rintro ⟨path, now, ok, rfl, hne, hp, hempty⟩
    have hm := Fs.rmdir_undefined hI.wf hne hp hempty ok
    simp only [Request.Undefined, Fs.exec, hm]
    rfl

/-- With a file in it the root is not removed. -/
theorem onEntries_iff_openedA : OnEntries lengthDigest openedA (.call ⟨.rmdir ['/'], 0, true⟩) := by
  refine ((onEntries_iff reach_openedA).2 _).1.2 ?_
  rintro ⟨path, now, ok, hreq, -, -, hempty⟩
  have hfull : (isDirEmpty openedA.ddb rootName).toOption = some false := rfl
  rw [hempty] at hfull
  cases hfull

/-- On a new file system `rmdir("/")` reads the type of a dentry that was not written. -/
theorem not_onEntries : ¬ ∀ digest fs req, Reach (Step digest) Fs.mkfs fs →
    OnEntries digest fs req := by
  intro h
  have hroot := h lengthDigest Fs.mkfs (.call ⟨.rmdir ['/'], 0, true⟩) (Reach.refl _)
  obtain ⟨⟨file, now, ok, hreq⟩, -⟩ := hroot.defined rfl
  cases hreq

end CPPCodes.Rocksfs
