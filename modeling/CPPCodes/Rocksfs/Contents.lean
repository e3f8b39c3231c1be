import CPPCodes.Lib.Transition
import CPPCodes.Rocksfs.Effect
import CPPCodes.Rocksfs.Range

/-!
# What the files hold

A file as a map from block numbers to blocks of 4096 bytes. On ranges of whole blocks `pwrite`
writes these blocks of the file and nothing else, and `pread` returns what was written last, up to
the first block never written (`read_after_write`). A file is known by its key, so a new file under
the name of one that is still open shares nothing with it.
-/

namespace CPPCodes.Rocksfs

open Transition

/-- The blocks of the files, by key. -/
abbrev Files := Str → ℕ → Option (List UInt8)

def blockSize : ℕ := 4096

namespace Files

/-- `n` blocks of the file from `b` on, out of a buffer. -/
def write (m : Files) (key : Str) (b n : ℕ) (buf : List UInt8) : Files := fun k c =>
  if k = key ∧ b ≤ c ∧ c < b + n then some ((buf.drop (blockSize * (c - b))).take blockSize)
  else m k c

/-- The written blocks from `b` on, `n` at most. -/
def read (m : Files) (key : Str) : ℕ → ℕ → List UInt8
  | _, 0 => []
  | b, n + 1 =>
    match m key b with
    | some bytes => bytes ++ m.read key (b + 1) n
    | none => []

/-- The files after a call. -/
def after (m : Files) (fs : Fs) : Op → Files
  | .pwrite fd buf offset =>
    match fs.fdTable[fd]? with
    | some f => m.write f.key (offset / blockSize).toNat (buf.length / blockSize) buf
    | none => m
  | _ => m

theorem write_zero (m : Files) (key : Str) (b : ℕ) (buf : List UInt8) :
    m.write key b 0 buf = m := by
  funext k c
  unfold write
  rw [if_neg fun h => by omega]

theorem read_write_one {m : Files} {key : Str} {b : ℕ} {buf : List UInt8}
    (hbuf : buf.length = blockSize * 1) : (m.write key b 1 buf).read key b 1 = buf := by
  have htake : buf.take blockSize = buf := List.take_of_length_le (by omega)
  simp [read, write, htake]

theorem write_succ (m : Files) (key : Str) (b n : ℕ) (buf : List UInt8) :
    m.write key b (n + 1) buf
      = (m.write key b 1 buf).write key (b + 1) n (buf.drop blockSize) := by
  funext k c
  unfold write
  by_cases hk : k = key
  · simp only [hk, true_and]
    rcases Nat.lt_trichotomy c b with hc | rfl | hc
    · rw [if_neg (by omega), if_neg (by omega), if_neg (by omega)]
    · rw [if_pos (by omega), if_neg (by omega), if_pos (by omega)]
    · by_cases hn : c < b + (n + 1)
      · have hsub : blockSize * (c - b) = blockSize + blockSize * (c - (b + 1)) := by
          rw [show c - b = (c - (b + 1)) + 1 by omega, Nat.mul_add]
          omega
        rw [if_pos (by omega), if_pos (by omega), List.drop_drop, hsub]
      · rw [if_neg (by omega), if_neg (by omega), if_neg (by omega)]
  · simp only [hk, false_and, if_false]

end Files

/-- The record of a block of the default size. -/
def blockRecord (b : ℕ) (bytes : List UInt8) : Json :=
  ((((∅ : Json).insert F_BLOCK (.num b)).insert F_DATA (.str (base64Encode bytes))).insert F_SIZE
    (.num blockSize)).insert F_OFFSET (.num (blockSize * b))

/-- The store holds the blocks of the files and no others. -/
structure Holds (db : Store) (m : Files) : Prop where
  record : ∀ k b, db[blockKey k b]? = (m k b).map (blockRecord b)
  block : ∀ {k b bytes}, m k b = some bytes → bytes.length = blockSize ∧ b < 2 ^ 32 - 1

theorem Holds.write_one {db : Store} {m : Files} (h : Holds db m) (key : Str) {b : ℕ}
    (buf : List UInt8) (hb : b < 2 ^ 32 - 1) (hbuf : blockSize ≤ buf.length) :
    Holds (db.insert (blockKey key b) (blockRecord b (buf.take blockSize)))
      (m.write key b 1 buf) where
  record k c := by
    rw [getElem?_put]
    unfold Files.write
    by_cases hkc : k = key ∧ c = b
    · obtain ⟨rfl, rfl⟩ := hkc
      rw [if_pos rfl, if_pos ⟨rfl, Nat.le_refl _, Nat.lt_succ_self _⟩]
      simp
    · rw [if_neg fun h' => hkc (blockKey_inj h'), if_neg fun h' => hkc ⟨h'.1, by omega⟩, h.record]
  block {k c bytes} hc := by
    unfold Files.write at hc
    split_ifs at hc with h'
    · obtain rfl : c = b := by omega
      refine ⟨?_, hb⟩
      rw [← Option.some.inj hc]
      simp [hbuf]
    · exact h.block hc

theorem next_block (b : ℕ) :
    (blockSize : ℤ) * b + (blockSize : ℕ) = blockSize * ((b + 1 : ℕ) : ℤ) := by
  unfold blockSize
  omega

theorem offset_block (b : ℕ) : (blockSize : ℤ) * b = ((2 ^ 12 * b : ℕ) : ℤ) := by
  unfold blockSize
  omega

theorem sized_block {i : RocksfileImpl} {key : Str} (hi : Fs.IsImpl key i) : i.Sized 12 :=
  ⟨hi.2.1, hi.2.2.1, hi.2.2.2, by decide⟩

section Loops

variable {i : RocksfileImpl} {key : Str} (hi : Fs.IsImpl key i)
include hi

theorem blockCount_block (b n : ℕ) (hb : b < 2 ^ 32) {buf : List UInt8}
    (hlen : buf.length = blockSize * (n + 1)) :
    i.blockCount (blockSize * b) buf.length = blockSize := by
  have hbs : i.bs = blockSize := hi.2.1
  rw [offset_block, RocksfileImpl.blockCount_sized (sized_block hi) (by omega), hbs]
  rw [hbs, hlen]
  exact Nat.le_mul_of_pos_right _ (Nat.succ_pos n)

theorem isBlockAligned_block (b : ℕ) (hb : b < 2 ^ 32) :
    i.isBlockAligned (blockSize * b) = true := by
  rw [offset_block]
  exact RocksfileImpl.isBlockAligned_sized (sized_block hi) (by omega)

theorem ioBlocks_block (b n : ℕ) (hn : 0 < n) (hb : b + n ≤ 2 ^ 32 - 1) :
    i.ioBlocks (blockSize * b) (blockSize * n) = (b, b + n - 1) := by
  have hio := RocksfileImpl.ioBlocks_sized (sized_block hi) (b := b) (n := n) (by omega)
  rw [offset_block, show blockSize * n = 2 ^ 12 * n from rfl, hio]
  exact Prod.ext (by simp only; omega) (by simp only; omega)

theorem decode_block (b : ℕ) (hb : b < 2 ^ 32) {bytes buf : List UInt8}
    (hlen : bytes.length = blockSize) (hbuf : buf.length = blockSize) :
    i.decode (blockRecord b bytes) b buf (blockSize * b) = .ok bytes := by
  have hblock : (blockRecord b bytes).num F_BLOCK = .ok b := by
    simp only [blockRecord, Json.num, getElem?_put]
    rfl
  have hsize : (blockRecord b bytes).num F_SIZE = .ok blockSize := by
    simp only [blockRecord, Json.num, getElem?_put]
    rfl
  have hoffset : (blockRecord b bytes).num F_OFFSET = .ok (blockSize * b) := by
    simp only [blockRecord, Json.num, getElem?_put]
    rfl
  have hdata : (blockRecord b bytes).str F_DATA = .ok (base64Encode bytes) := by
    simp only [blockRecord, Json.str, getElem?_put]
    rfl
  have hmod : (b : ℤ) % 2 ^ 32 = b ∧ (blockSize : ℤ) % 2 ^ 32 = blockSize := by
    unfold blockSize
    omega
  have hbs : i.bs = blockSize := hi.2.1
  have hdrop : buf.drop blockSize = [] := by rw [← hbuf, List.drop_length]
  simp only [RocksfileImpl.decode, check, hbuf, hbs, hblock, hsize, hoffset, hdata, hmod.1, hmod.2,
    base64Decode_encode, hlen, hdrop, and_self, Nat.le_refl, if_true, List.append_nil, bind,
    Except.bind, pure, Except.pure]

theorem putBlocks_holds : ∀ (n b : ℕ) (buf : List UInt8) {db : Store} {m : Files}, Holds db m →
    b + n ≤ 2 ^ 32 - 1 → buf.length = blockSize * n →
    Holds ((i.putBlocks b n buf).foldl Store.apply db) (m.write key b n buf) ∧
      ∀ a : Str, (∀ c, b ≤ c → c < b + n → a ≠ blockKey key c) →
        ((i.putBlocks b n buf).foldl Store.apply db)[a]? = db[a]?
  | 0, b, buf, db, m, h, _, _ => by
    rw [Files.write_zero]
    exact ⟨h, fun _ _ => rfl⟩
  | n + 1, b, buf, db, m, h, hb, hlen => by
    have hbs : i.bs = blockSize := hi.2.1
    have hmul : blockSize * (n + 1) = blockSize * n + blockSize := Nat.mul_succ _ _
    have hrec : i.record b (buf.take blockSize) = blockRecord b (buf.take blockSize) := by
      unfold RocksfileImpl.record blockRecord
      rw [hbs, Nat.cast_mul]
    have hone := h.write_one key (b := b) buf (by omega) (by omega)
    obtain ⟨h', hother⟩ := putBlocks_holds n (b + 1) (buf.drop blockSize) hone (by omega)
      (by simp [hlen, hmul])
    rw [RocksfileImpl.putBlocks_succ, hi.1, hbs, hrec, Files.write_succ, List.foldl_cons,
      Store.apply]
    refine ⟨h', fun a ha => ?_⟩
    rw [hother a fun c h1 h2 => ha c (by omega) (by omega)]
    rw [getElem?_put, if_neg (ha b (Nat.le_refl _) (by omega))]

/-- The batch of a write of whole blocks. -/
theorem writeLoop_block (n sb eb : ℕ) (buf : List UInt8) (hsb : sb + n = eb + 1)
    (heb : eb < 2 ^ 32 - 1) (hlen : buf.length = blockSize * n) :
    ∃ batch, i.writeLoop sb eb buf (blockSize * sb) = .ok (batch, blockSize * n) ∧
      ∀ {db : Store} {m : Files}, Holds db m →
        Holds (batch.foldl Store.apply db) (m.write key sb n buf) ∧
        ∀ a : Str, (∀ c, sb ≤ c → c < sb + n → a ≠ blockKey key c) →
          (batch.foldl Store.apply db)[a]? = db[a]? := by
  refine ⟨i.putBlocks sb n buf, ?_, fun h => putBlocks_holds hi n sb buf h (by omega) hlen⟩
  rw [offset_block, RocksfileImpl.writeLoop_sized (sized_block hi) n sb eb buf hsb heb (by omega)
    hlen, hlen]

/-- A read of whole blocks. -/
theorem readLoop_block {db : Store} {m : Files} (h : Holds db m) :
    ∀ (n sb eb : ℕ) (buf : List UInt8), sb + n = eb + 1 → eb < 2 ^ 32 - 1 →
      buf.length = blockSize * n →
      i.readLoop db sb eb buf (blockSize * sb) = .ok (m.read key sb n ++
        buf.drop (m.read key sb n).length, (m.read key sb n).length)
  | 0, sb, eb, buf, hsb, _, _ => by
    rw [RocksfileImpl.readLoop, if_neg (by omega)]
    rfl
  | n + 1, sb, eb, buf, hsb, heb, hlen => by
    have hsb32 : sb < 2 ^ 32 := by omega
    have hcount := blockCount_block hi sb n hsb32 hlen
    have haligned := isBlockAligned_block hi sb hsb32
    have hmul : blockSize * (n + 1) = blockSize * n + blockSize := Nat.mul_succ _ _
    have htake : (buf.take blockSize).length = blockSize := by simp [hlen, hmul]
    have hrec := h.record key sb
    rw [RocksfileImpl.readLoop, if_pos (by omega), hi.1]
    cases hm : m key sb with
    | none =>
      rw [hm] at hrec
      simp [hrec, Files.read, hm]
    | some bytes =>
      rw [hm, Option.map_some] at hrec
      have hbytes := (h.block hm).1
      have ih := readLoop_block h n (sb + 1) eb (buf.drop blockSize) (by omega) heb
        (by simp [hlen, hmul])
      simp only [hrec]
      rw [dif_pos ⟨haligned, hcount.trans hi.2.1.symm⟩]
      simp only [hcount, decode_block hi sb hsb32 hbytes htake, Nat.mod_eq_of_lt
        (show sb + 1 < 2 ^ 32 by omega), next_block, ih, bind, Except.bind, pure, Except.pure]
      simp [Files.read, hm, hbytes, List.drop_drop]

end Loops

/-- The blocks of one file decide what a read of it returns. -/
theorem readLoop_congr {i : RocksfileImpl} {db db' : Store}
    (h : ∀ b, db'[blockKey i.key b]? = db[blockKey i.key b]?) (sb eb : ℕ) (buf : List UInt8)
    (offset : ℤ) : i.readLoop db' sb eb buf offset = i.readLoop db sb eb buf offset := by
  fun_induction RocksfileImpl.readLoop i db sb eb buf offset with
  | case1 sb buf offset hle hnone => rw [RocksfileImpl.readLoop, if_pos hle, h, hnone]
  | case2 sb buf offset hle j hj hb bc =>
    rename_i ih
    rw [RocksfileImpl.readLoop, if_pos hle, h, hj]
    simp only []
    rw [dif_pos hb, ih]
  | case3 sb buf offset hle j hj hb =>
    rw [RocksfileImpl.readLoop, if_pos hle, h, hj]
    simp only []
    rw [dif_neg hb]
  | case4 sb buf offset hle => rw [RocksfileImpl.readLoop, if_neg hle]

/-- A range of whole blocks, the last of which is below `2 ^ 32 - 1`. -/
structure InRange (b n : ℕ) : Prop where
  pos : 0 < n
  le : b + n ≤ 2 ^ 32 - 1

section Calls

variable {fs : Fs} {m : Files} {fd : ℤ} {f : Rocksfile}

theorem pwrite_block (hI : Inv fs) (hH : Holds fs.ddb m) (hf : fs.fdTable[fd]? = some f) {b n : ℕ}
    (hr : InRange b n) {buf : List UInt8} (hlen : buf.length = blockSize * n) :
    ∃ batch, BlockBatch f.key batch ∧
      fs.pwrite fd buf (blockSize * b) true
        = .ok (buf.length, { fs with ddb := fs.ddb.write true batch }) ∧
      Holds (fs.ddb.write true batch) (m.write f.key b n buf) ∧
      ∀ a : Str, (∀ c, b ≤ c → c < b + n → a ≠ blockKey f.key c) →
        (fs.ddb.write true batch)[a]? = fs.ddb[a]? := by
  obtain ⟨i, hi, himpl, -⟩ := hI.opened (hI.fd hf).2.2.2
  have hpos := hr.pos
  have hle := hr.le
  obtain ⟨batch, hloop, hbatch⟩ := writeLoop_block himpl n b (b + n - 1) buf (by omega)
    (by omega) hlen
  have hb := writeLoop_blocks i _ _ _ _ hloop
  rw [himpl.1] at hb
  refine ⟨batch, hb, ?_, hbatch hH⟩
  have hio := ioBlocks_block himpl b n hpos hle
  simp only [Fs.pwrite, hf, Fs.impl, hi, RocksfileImpl.write, hlen, hio, hloop, bind, Except.bind,
    pure, Except.pure, if_true]

theorem pread_block (hI : Inv fs) (hH : Holds fs.ddb m) (hf : fs.fdTable[fd]? = some f) {b n : ℕ}
    (hr : InRange b n) {buf : List UInt8} (hlen : buf.length = blockSize * n) :
    fs.pread fd buf (blockSize * b) = .ok ((m.read f.key b n).length,
      m.read f.key b n ++ buf.drop (m.read f.key b n).length) := by
  obtain ⟨i, hi, himpl, -⟩ := hI.opened (hI.fd hf).2.2.2
  have hpos := hr.pos
  have hle := hr.le
  have hloop := readLoop_block himpl hH n b (b + n - 1) buf (by omega) (by omega) hlen
  have hio := ioBlocks_block himpl b n hpos hle
  simp only [Fs.pread, hf, Fs.impl, hi, RocksfileImpl.read, hlen, hio, hloop, bind, Except.bind,
    pure, Except.pure]

end Calls

theorem Holds.same_blocks {db db' : Store} {m : Files} (h : Holds db m)
    (hdb : ∀ {a : Str}, ':' ∈ a → db'[a]? = db[a]?) : Holds db' m :=
  ⟨fun k b => (hdb (colon_mem_blockKey k b)).trans (h.record k b), h.block⟩

theorem Holds.edited {db db' : Store} {m : Files} (h : Holds db m) (hwf : Wf db) {k c x : Str}
    {link : Option ℤ} {rec : Option Json} (he : Edited db k c x link rec db')
    (hx : Editable db k c x link rec) : Holds db' m := by
  refine h.same_blocks fun {a} ha => he.other ?_ fun h' => hx.colon (h' ▸ ha)
  rintro rfl
  obtain ⟨j, -, hj, hd, -⟩ := he.dir
  exact hwf.not_mem_colon (t := FS_DIRECTORY)
    (by simp [Store.type?, hj, Json.type?_eq_some.2 hd.type]) ha

/-- Calls other than `pwrite` leave the blocks as they are. -/
theorem Effect.holds {digest : Str → List Int8} {fs fs' : Fs} {call : Call} {reply : Reply}
    {m : Files} (hI : Inv fs) (hH : Holds fs.ddb m) (he : Effect digest fs call reply fs')
    (hop : ∀ fd buf offset, call.op ≠ .pwrite fd buf offset) : Holds fs'.ddb m := by
  cases he with
  | unchanged => exact hH
  | linked hop hkey hx he hed => exact hH.edited hI.wf he hed
  | removed hop hr hx hent he hed => exact hH.edited hI.wf he hed
  | marked hop hrc hr hx hi hj hjf he hed => exact hH.edited hI.wf he hed
  | flagged => exact hH
  | opened hop hfd hr hj hjf hO =>
    obtain ⟨fs₁, hM, rfl⟩ := hO.marked
    show Holds fs₁.ddb m
    rw [hM.ddb]
    exact hH
  | closed => exact hH
  | released => exact hH
  | purged hop hf hp hi hcard hdel hj hfile =>
    exact hH.edited hI.wf (edited_purge hI.wf hj hfile).1 (edited_purge hI.wf hj hfile).2
  | wrote hop' => exact absurd hop' (hop _ _ _)

/-- The call reads or writes whole blocks through a descriptor in use. -/
def WholeBlocks (fs : Fs) : Op → Prop
  | .pwrite fd buf offset | .pread fd buf offset => fs.fdTable[fd]? ≠ none ∧
    ∃ b n, InRange b n ∧ offset = blockSize * b ∧ buf.length = blockSize * n
  | _ => True

/-- Nothing in the store belongs to the key that `calc_key` gives the call, no block either. -/
def Unused (digest : Str → List Int8) (fs : Fs) (call : Call) : Prop :=
  match call.op with
  | .mkdir path | .create path =>
    ∀ b, fs.ddb[blockKey (calcKey digest (pathConvert path) call.now) b]? = none
  | _ => True

/-- A call on whole blocks, with what the files hold. -/
def IoStep (digest : Str → List Int8) (s : Fs × Files) (l : Call × Reply) (s' : Fs × Files) : Prop :=
  StepOk digest s.1 l s'.1 ∧ Unused digest s.1 l.1 ∧ WholeBlocks s.1 l.1.op ∧
    s'.2 = s.2.after s.1 l.1.op

theorem IoStep.holds {digest : Str → List Int8} {s s' : Fs × Files} {l : Call × Reply}
    (h : Inv s.1 ∧ Holds s.1.ddb s.2) (hs : IoStep digest s l s') :
    Inv s'.1 ∧ Holds s'.1.ddb s'.2 := by
  obtain ⟨call, reply⟩ := l
  obtain ⟨hI, hH⟩ := h
  obtain ⟨⟨hok, hstep⟩, -, hblocks, hafter⟩ := hs
  refine ⟨hstep.inv hI, ?_⟩
  rw [hafter]
  have he := hstep.effect hI
  cases hop : call.op with
  | pwrite fd buf offset =>
    rw [hop] at hblocks
    obtain ⟨hfd, b, n, hr, rfl, hlen⟩ := hblocks
    obtain ⟨f, hf⟩ := Option.ne_none_iff_exists'.1 hfd
    obtain ⟨batch, -, hw, hH', -⟩ := pwrite_block hI hH hf hr hlen
    obtain ⟨-, hexec⟩ := hstep
    have hok : call.ok = true := hok
    simp only [Fs.exec, hop, hok] at hexec
    obtain ⟨rc, hp, -⟩ := returned hexec
    rw [← (Prod.mk.inj (Except.ok.inj (hw.symm.trans hp))).2]
    have hdiv : ((blockSize : ℤ) * b / blockSize).toNat = b ∧ blockSize * n / blockSize = n := by
      unfold blockSize
      omega
    simp only [Files.after, hf, hlen, hdiv.1, hdiv.2]
    exact hH'
  | _ => exact he.holds hI hH fun fd buf offset h => by cases hop.symm.trans h

theorem holds_mkfs : Holds Fs.mkfs.ddb fun _ _ => none where
  record k b := by
    have hne : blockKey k b ≠ rootName := fun h => absurd (h ▸ colon_mem_blockKey k b) (by decide)
    simp [Fs.mkfs, getElem?_put, hne]
  block h := by cases h

/-- What a write of `n` blocks from `b` on does for the file of the key: the range changes and
nothing else does, no read of another file and no path either. -/
structure Wrote (fs : Fs) (m : Files) (key : Str) (b n : ℕ) (buf : List UInt8) (fs' : Fs) :
    Prop where
  holds : Holds fs'.ddb (m.write key b n buf)
  range : ∀ a : Str, (∀ c, b ≤ c → c < b + n → a ≠ blockKey key c) → fs'.ddb[a]? = fs.ddb[a]?
  tables : fs'.fdTable = fs.fdTable ∧ fs'.openFileTable = fs.openFileTable ∧ fs'.impls = fs.impls
  other : ∀ {fd : ℤ} {f : Rocksfile}, fs.fdTable[fd]? = some f → f.key ≠ key → ∀ buf offset,
    fs'.pread fd buf offset = fs.pread fd buf offset
  paths : ∀ path, namei fs'.ddb (pathConvert path) = namei fs.ddb (pathConvert path)

/-- The state and what its files hold, as the calls to come find them. -/
structure Contents (digest : Str → List Int8) (fs : Fs) (m : Files) : Prop where
  pread : ∀ {fd : ℤ} {f : Rocksfile} {b n : ℕ} {buf : List UInt8}, fs.fdTable[fd]? = some f →
    InRange b n → buf.length = blockSize * n →
      fs.pread fd buf (blockSize * b) = .ok ((m.read f.key b n).length,
        m.read f.key b n ++ buf.drop (m.read f.key b n).length)
  pwrite : ∀ {fd : ℤ} {f : Rocksfile} {b n : ℕ} {buf : List UInt8}, fs.fdTable[fd]? = some f →
    InRange b n → buf.length = blockSize * n →
      ∃ fs', fs.pwrite fd buf (blockSize * b) true = .ok (buf.length, fs') ∧
        Wrote fs m f.key b n buf fs'
  /-- A new file has a key of its own, and no blocks. -/
  create : ∀ {path : Str} {now : ℕ} {fs' : Fs}, Fresh digest fs ⟨.create path, now, true⟩ →
    Unused digest fs ⟨.create path, now, true⟩ → fs.create digest path now true = .ok (0, fs') →
      ∃ de : Dentry, namei fs'.ddb (pathConvert path) = .ok (0, some de) ∧
        (∀ {fd : ℤ} {f : Rocksfile}, fs.fdTable[fd]? = some f → f.key ≠ de.key) ∧
        ∀ b, m de.key b = none
  /-- A descriptor has the key that the path leads to when it is opened. -/
  «open» : ∀ {path : Str} {fd : ℤ} {fs' : Fs}, fs.open path = .ok (0, some fd, fs') →
    ∃ (de : Dentry) (f : Rocksfile), namei fs.ddb (pathConvert path) = .ok (0, some de) ∧
      fs'.fdTable[fd]? = some f ∧ f.key = de.key
  /-- A record with a type is no block. -/
  disjoint : ∀ {a : Str} {t : ℤ}, fs.ddb.type? a = some t → ∀ k b, a ≠ blockKey k b

theorem BlockBatch.namei {key : Str} {batch : List Update} {db : Store} (h : BlockBatch key batch)
    (hwf : Wf db) (path : Str) :
    Rocksfs.namei (db.write true batch) (pathConvert path)
      = Rocksfs.namei db (pathConvert path) := by
  obtain ⟨hwf', -, -, hentry, -⟩ := h.wf hwf true
  rw [namei_pathConvert hwf', namei_pathConvert hwf, resolve_congr hentry]

theorem pwrite_wrote {fs : Fs} {m : Files} {fd : ℤ} {f : Rocksfile} (hI : Inv fs)
    (hH : Holds fs.ddb m) (hf : fs.fdTable[fd]? = some f) {b n : ℕ} (hr : InRange b n)
    {buf : List UInt8} (hlen : buf.length = blockSize * n) :
    ∃ fs', fs.pwrite fd buf (blockSize * b) true = .ok (buf.length, fs') ∧
      Wrote fs m f.key b n buf fs' := by
  obtain ⟨batch, hb, hw, hH', hrange⟩ := pwrite_block hI hH hf hr hlen
  refine ⟨_, hw, hH', hrange, ⟨rfl, rfl, rfl⟩, fun {fd' f'} hf' hne buf' offset => ?_,
    hb.namei hI.wf⟩
  obtain ⟨i, hi, himpl, -⟩ := hI.opened (hI.fd hf').2.2.2
  have hsame : ∀ c, (fs.ddb.write true batch)[blockKey i.key c]? = fs.ddb[blockKey i.key c]? :=
    fun c => hrange _ fun c' _ _ h => hne (himpl.1 ▸ (blockKey_inj h).1)
  simp only [Fs.pread, hf', Fs.impl, hi, RocksfileImpl.read, readLoop_congr hsame, bind,
    Except.bind]

theorem create_contents {digest : Str → List Int8} {fs fs' : Fs} {m : Files} (hI : Inv fs)
    (hH : Holds fs.ddb m) {path : Str} {now : ℕ} (hfresh : Fresh digest fs ⟨.create path, now, true⟩)
    (hunused : Unused digest fs ⟨.create path, now, true⟩)
    (hc : fs.create digest path now true = .ok (0, fs')) :
    ∃ de : Dentry, namei fs'.ddb (pathConvert path) = .ok (0, some de) ∧
      (∀ {fd : ℤ} {f : Rocksfile}, fs.fdTable[fd]? = some f → f.key ≠ de.key) ∧
      ∀ b, m de.key b = none := by
  simp only [Fresh] at hfresh
  rcases Fs.make_cases digest (fun name fk dk => fileJsonInit name dk fk) FS_FILE
      path now true hI.wf with ⟨_, -, hm⟩ | ⟨_, _, e, -, he, hm⟩ |
      ⟨q, c, k, j, hp, hk, hj, hd, hnone, hm⟩
  · cases (Prod.mk.inj (Except.ok.inj (hm.symm.trans hc))).1
  · have hpos := resolveDir_pos he
    have hrc := (Prod.mk.inj (Except.ok.inj (hm.symm.trans hc))).1
    omega
  · obtain ⟨-, rfl⟩ := Prod.mk.inj (Except.ok.inj (hm.symm.trans hc))
    have hfile := isFile_fileJsonInit c k (calcKey digest (pathConvert path) now)
    have hed := editable_link hI.wf hj hfresh (colon_notMem_calcKey digest _ _)
      (isName_of_mem_components (show c ∈ components path by simp [hp])) hnone
      ⟨hfile.flat, .inr ⟨rfl, hfile⟩⟩
    have he := edited_link (c := c) hj hd hed.ne FS_FILE
      (fileJsonInit c k (calcKey digest (pathConvert path) now))
    have hwf := he.wf hed hI.wf
    have hw := he.walk hed hI.wf (hI.wf.resolveDir_dir hI.wf.root_type hk).1 (components path)
    rw [if_pos hp] at hw
    have ht := he.type? hed (calcKey digest (pathConvert path) now)
    rw [if_pos rfl, Option.bind_some, Json.type?_eq_some.2 hfile.type] at ht
    obtain ⟨name, hn⟩ := namei_pathConvert_ok hwf (hwf.resolve_of_walk hwf.root_type hw ht)
    refine ⟨_, hn, fun {fd f} hf h => ?_, fun b => ?_⟩
    · obtain ⟨-, -, -, -, -, j', d, hj', -⟩ := hI.opened (hI.fd hf).2.2.2
      rw [h, hfresh] at hj'
      cases hj'
    · have hnone := (hH.record (calcKey digest (pathConvert path) now) b).symm.trans (hunused b)
      exact Option.map_eq_none_iff.1 hnone

/-- Runs of calls on whole blocks, the keys of new files being new to records and blocks. -/
theorem read_after_write {digest : Str → List Int8} {ls : List (Call × Reply)} {fs : Fs} {m : Files}
    (h : Runs (IoStep digest) (Fs.mkfs, fun _ _ => none) ls (fs, m)) : Contents digest fs m := by
  obtain ⟨hI, hH⟩ := h.invariant (I := fun s => Inv s.1 ∧ Holds s.1.ddb s.2)
    (fun _ _ _ h hs => hs.holds h) ⟨inv_mkfs, holds_mkfs⟩
  refine ⟨fun hf hr hlen => pread_block hI hH hf hr hlen,
    fun hf hr hlen => pwrite_wrote hI hH hf hr hlen,
    fun hfresh hunused hc => create_contents hI hH hfresh hunused hc, fun {path fd fs'} ho => ?_,
    fun {a t} ha k b h => ?_⟩
  · rcases Fs.open_cases hI path with ⟨_, -, hm⟩ | ⟨_, -, hm⟩ |
      ⟨x, j, hx, -, -, ⟨hm, -⟩ | ⟨d, fi, i, fs₁, hm, hO⟩⟩
    · simp only [hm, Except.ok.injEq, Prod.mk.injEq] at ho
      cases ho.2.1
    · simp only [hm, Except.ok.injEq, Prod.mk.injEq] at ho
      cases ho.2.1
    · cases hm.symm.trans ho
    · simp only [hm, Except.ok.injEq, Prod.mk.injEq, Option.some.injEq, true_and] at ho
      obtain ⟨rfl, rfl⟩ := ho
      obtain ⟨name, hn⟩ := namei_pathConvert_ok hI.wf hx
      obtain ⟨fs₂, -, rfl⟩ := hO.marked
      exact ⟨_, ⟨fi, x, d⟩, hn, by simp, rfl⟩
  · exact hI.wf.not_mem_colon ha (h ▸ colon_mem_blockKey k b)

/-- The run to `openedA`, in which no block is written. -/
theorem runs_openedA_blocks : Runs (IoStep lengthDigest) (Fs.mkfs, fun _ _ => none)
    [(createA, ⟨0, none, []⟩), (openA, ⟨0, some 0, []⟩)] (openedA, fun _ _ => none) :=
  have hunused : Unused lengthDigest Fs.mkfs createA := fun b =>
    holds_mkfs.record (calcKey lengthDigest (pathConvert ['a']) 0) b
  have hcreate : IoStep lengthDigest (Fs.mkfs, fun _ _ => none) (createA, ⟨0, none, []⟩)
      (Fs.mkfs.next lengthDigest createA, fun _ _ => none) :=
    ⟨⟨rfl, step_next rfl rfl⟩, hunused, trivial, rfl⟩
  have hopen : IoStep lengthDigest (Fs.mkfs.next lengthDigest createA, fun _ _ => none)
      (openA, ⟨0, some 0, []⟩) (openedA, fun _ _ => none) :=
    ⟨⟨rfl, step_next trivial rfl⟩, trivial, trivial, rfl⟩
  ((Runs.nil (Fs.mkfs, fun _ _ => none)).snoc hcreate).snoc hopen

/-- A block of sevens, written and read again. -/
theorem read_after_write_openedA : ∃ fs,
    openedA.pwrite 0 (List.replicate 4096 7) 0 true = .ok (4096, fs) ∧
      fs.pread 0 (List.replicate 4096 0) 0 = .ok (4096, List.replicate 4096 7) := by
  obtain ⟨f, hf⟩ : ∃ f, openedA.fdTable[(0 : ℤ)]? = some f := ⟨_, rfl⟩
  have hlen : ∀ v : UInt8, (List.replicate 4096 v).length = blockSize * 1 := fun v =>
    List.length_replicate
  have hr : InRange 0 1 := ⟨by decide, by decide⟩
  have hbefore := read_after_write runs_openedA_blocks
  obtain ⟨fs, hw, hwrote⟩ := hbefore.pwrite hf hr (hlen 7)
  have hstep : IoStep lengthDigest (openedA, fun _ _ => none)
      (⟨.pwrite 0 (List.replicate 4096 7) (blockSize * (0 : ℕ)), 0, true⟩, ⟨4096, none, []⟩)
      (fs, Files.write (fun _ _ => none) f.key 0 1 (List.replicate 4096 7)) := by
    refine ⟨⟨rfl, trivial, ?_⟩, trivial, ⟨by simp [hf], 0, 1, hr, rfl, hlen 7⟩, ?_⟩
    · simp only [Fs.exec, hw, hlen]
      rfl
    · simp only [Files.after, hf, hlen]
      rfl
  have hfd : fs.fdTable[(0 : ℤ)]? = some f := hwrote.tables.1 ▸ hf
  have hafter := (read_after_write (runs_openedA_blocks.snoc hstep)).pread hfd hr (hlen 0)
  refine ⟨fs, ?_, ?_⟩
  · rw [hlen] at hw
    exact hw
  · have hdrop : (List.replicate 4096 (0 : UInt8)).drop 4096 = [] :=
      List.drop_eq_nil_of_le (Nat.le_of_eq List.length_replicate)
    rw [Files.read_write_one (hlen 7), List.length_replicate, hdrop, List.append_nil] at hafter
    exact hafter

end CPPCodes.Rocksfs
