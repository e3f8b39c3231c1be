import CPPCodes.Rocksfs.File

/-!
# The file system

The operations of rocksfs.cc, as functions from the state to what the call returns and the state
after it. The store's write of a batch succeeds or not as `ok` says; the clock shows `now`; the
digest under the keys is libgcrypt's. A call that does not return ends in a `Fault`.
-/

namespace CPPCodes.Rocksfs

open Std (ExtTreeMap)

def INT_MAX : ℤ := 2 ^ 31 - 1

structure Dentry where
  path : Str
  name : Str
  key : Str
  type : ℤ
  deriving DecidableEq

/-- The members of `rocksfs`, and the objects its shared pointers point to. -/
structure Fs where
  ddb : Store
  openFileTable : ExtTreeMap Str ℕ
  fdTable : ExtTreeMap ℤ Rocksfile
  impls : List RocksfileImpl

def isDirEmpty (db : Store) (dirKey : Str) : Except Fault Bool := do
  let j ← db.getParse dirKey
  return j.keys.all isKeyword

/-- `entry[KW_KEY]` and `entry[KW_TYPE]`; on a value that is no object the operator throws. -/
def JVal.fields : JVal → Except Fault (Str × ℤ)
  | .entry key type => .ok (key, type)
  | _ => .error .exception

def dirLookup (dirjson : Json) (name : Str) : Except Fault (ℤ × Option JVal) := do
  let del ← dirjson.num KW_DEL
  if del ≠ 0 then return (-ENOENT, none)
  else match dirjson[name]? with
    | some entry => return (0, some entry)
    | none => return (-ENOENT, none)

/-- The loop of `namei` over what `getline` returns. `ddirj` is empty until the root has been
seen, and the dentry stays empty when the loop ends without `initialize`. -/
def nameiLoop (db : Store) (path : Str) :
    Option Json → List (Str × Bool) → Except Fault (ℤ × Option Dentry)
  | _, [] => .ok (0, none)
  | ddirj, ([], _) :: lines => nameiLoop db path ddirj lines
  | none, (c, eof) :: lines =>
    if c ≠ rootName then .ok (-ENOTDIR, none)
    else do
      let ddirj ← db.getOk c
      let type ← ddirj.num KW_TYPE
      check (type = FS_DIRECTORY ∧ ddirj[KW_NAME]? = some (.str rootName))
      if eof then return (0, some ⟨path, c, c, FS_DIRECTORY⟩)
      else nameiLoop db path (some ddirj) lines
  | some ddirj, (c, eof) :: lines => do
    match ← dirLookup ddirj c with
    | (rc, none) => return (rc, none)
    | (_, some entry) =>
      let (key, type) ← entry.fields
      if eof then return (0, some ⟨path, c, key, type⟩)
      else if type ≠ FS_DIRECTORY then return (-ENOTDIR, none)
      else
        let ddirj ← db.getOk key
        nameiLoop db path (some ddirj) lines

def namei (db : Store) (path : Str) : Except Fault (ℤ × Option Dentry) :=
  nameiLoop db path none (Text.getlines '/' path)

/-- Reading a dentry that `namei` did not initialise is undefined. -/
def initialized : Option Dentry → Except Fault Dentry
  | some de => .ok de
  | none => .error .undefined

/-- `path.substr(0, f)` and `path.substr(f + 1)`, where `npos + 1` is 0. -/
def splitPath (path : Str) : Str × Str :=
  match Text.findLastOf '/' path with
  | some f => (path.take f, path.drop (f + 1))
  | none => (path, path)

/-- On success the name, the parent being a directory. -/
def lookup (db : Store) (path : Str) : Except Fault (ℤ × Option (Str × Dentry)) := do
  let (dir, name) := splitPath path
  let (rc, parent) ← namei db dir
  if rc < 0 then return (rc, none)
  else
    let parent ← initialized parent
    if parent.type = FS_DIRECTORY then return (0, some (name, parent))
    else return (-ENOTDIR, none)

namespace Fs

/-- The loop of `fd_allocate` over the descriptors in use. -/
def fdAllocateLoop : ℤ → List ℤ → Except Fault ℤ
  | fd, [] => .ok fd
  | fd, d :: ds =>
    if d = fd then if fd = INT_MAX then .error .undefined else fdAllocateLoop (fd + 1) ds
    else .ok fd

def fdAllocate (fs : Fs) : Except Fault ℤ := fdAllocateLoop 0 fs.fdTable.keys

def fdDeallocate (fs : Fs) (fd : ℤ) : Fs := { fs with fdTable := fs.fdTable.erase fd }

def fdSet (fs : Fs) (fd : ℤ) (f : Rocksfile) : Except Fault Fs := do
  check (fs.fdTable[fd]? = none)
  return { fs with fdTable := fs.fdTable.insert fd f }

/-- What a shared pointer points to. -/
def impl (fs : Fs) (fi : ℕ) : Except Fault RocksfileImpl :=
  match fs.impls[fi]? with
  | some i => .ok i
  | none => .error .undefined

def setImpl (fs : Fs) (fi : ℕ) (i : RocksfileImpl) : Fs := { fs with impls := fs.impls.set fi i }

def markFileOpen (fs : Fs) (key : Str) (bs : ℕ) : Except Fault (ℕ × Fs) :=
  match fs.openFileTable[key]? with
  | some fi => .ok (fi, fs)
  | none => do
    let i ← RocksfileImpl.new key bs
    let fi := fs.impls.length
    return (fi, { fs with openFileTable := fs.openFileTable.insert key fi,
                          impls := fs.impls ++ [i] })

def markFileClosed (fs : Fs) (key : Str) : Fs :=
  { fs with openFileTable := fs.openFileTable.erase key }

def isFileOpen (fs : Fs) (key : Str) : Bool := fs.openFileTable.contains key

def markFileDeleted (fs : Fs) (key : Str) : Except Fault Fs :=
  match fs.openFileTable[key]? with
  | none => .error .assertion
  | some fi => do
    let i ← fs.impl fi
    return fs.setImpl fi i.markDeleted

/-- `Write` and the return value after it. -/
def commit (fs : Fs) (ok : Bool) (batch : List Update) : ℤ × Fs :=
  (if ok then 0 else -EINVAL, { fs with ddb := fs.ddb.write ok batch })

/-- `mkfs` on an empty store, in a process that has no file open. -/
def mkfs : Fs :=
  { ddb := (∅ : Store).insert rootName (dirJsonInit rootName rootName rootName),
    openFileTable := ∅, fdTable := ∅, impls := [] }

section

variable (digest : Str → List Int8)

/-- The body that `mkdir` and `create` share: `init` makes the record of the new key from the name,
the key and the parent's key. -/
def make (init : Str → Str → Str → Json) (type : ℤ) (path : Str) (now : ℕ) (ok : Bool) (fs : Fs) :
    Except Fault (ℤ × Fs) := do
  let path := pathConvert path
  let (rc, _) ← namei fs.ddb path
  if rc = 0 then return (-EEXIST, fs)
  else match ← lookup fs.ddb path with
    | (rc, none) => return (rc, fs)
    | (_, some (name, pde)) =>
      let key := calcKey digest path now
      let pkey := pde.key
      let j := init name key pkey
      let pj ← fs.ddb.getOk pkey
      let pj := pj.insert name (.entry key type)
      return fs.commit ok [.put pkey pj, .put key j]

def mkdir (dir : Str) (now : ℕ) (ok : Bool) (fs : Fs) : Except Fault (ℤ × Fs) :=
  fs.make digest (fun name dk pdk => dirJsonInit name dk pdk) FS_DIRECTORY dir now ok

/-- `file_json_init` gets the keys of the directory and of the file the other way round. -/
def create (file : Str) (now : ℕ) (ok : Bool) (fs : Fs) : Except Fault (ℤ × Fs) :=
  fs.make digest (fun name fk dk => fileJsonInit name dk fk) FS_FILE file now ok

end

def rmdir (dir : Str) (ok : Bool) (fs : Fs) : Except Fault (ℤ × Fs) := do
  if dir.length = 0 then return (-ENOTDIR, fs)
  else
    let dir := pathConvert dir
    let (rc, de) ← namei fs.ddb dir
    if rc < 0 then return (rc, fs)
    else
      let de ← initialized de
      if de.type ≠ FS_DIRECTORY then return (-ENOTDIR, fs)
      else
        let empty ← isDirEmpty fs.ddb de.key
        if empty = false then return (-ENOTEMPTY, fs)
        else match ← lookup fs.ddb dir with
          | (rc, none) => return (rc, fs)
          | (_, some (name, pde)) =>
            let j ← fs.ddb.getOk pde.key
            check (name ∈ j)
            let j := j.erase name
            return fs.commit ok [.put pde.key j, .delete de.key]

def unlink (file : Str) (ok : Bool) (fs : Fs) : Except Fault (ℤ × Fs) := do
  let file := pathConvert file
  let (rc, de) ← namei fs.ddb file
  if rc < 0 then return (rc, fs)
  else
    let de ← initialized de
    if de.type ≠ FS_FILE then return (-EISDIR, fs)
    else match ← lookup fs.ddb file with
      | (rc, none) => return (rc, fs)
      | (_, some (name, pde)) =>
        let fk := de.key
        -- the record of a file that is open stays, and only its flag is set
        let (update, fs) ← if fs.isFileOpen fk then do
            let fj ← fs.ddb.getParse fk
            let fs ← fs.markFileDeleted fk
            pure (.put de.key (fj.insert KW_DEL (.num 1)), fs)
          else pure (.delete de.key, fs)
        let pdj ← fs.ddb.getOk pde.key
        check (name ∈ pdj)
        let pdj := pdj.erase name
        return fs.commit ok [.put pde.key pdj, update]

def lazyUnlink (key : Str) (ok : Bool) (fs : Fs) : Except Fault Fs := do
  let fj ← fs.ddb.getOk key
  let del ← fj.num KW_DEL
  check (del = 1)
  let fs := { fs with ddb := fs.ddb.write ok [.delete key] }
  check (ok = true)
  return fs

/-- The descriptor that `open` writes to its argument comes with the return value. -/
def «open» (file : Str) (fs : Fs) : Except Fault (ℤ × Option ℤ × Fs) := do
  let file := pathConvert file
  let (rc, de) ← namei fs.ddb file
  if rc < 0 then return (rc, none, fs)
  else
    let de ← initialized de
    if de.type ≠ FS_FILE then return (-EISDIR, none, fs)
    else
      let fk := de.key
      match fs.ddb[fk]? with
      | none => return (-ENOENT, none, fs)
      | some j =>
        let bs ← j.num KW_BS
        let (fi, fs) ← fs.markFileOpen fk (bs % 2 ^ 32).toNat
        let fd ← fs.fdAllocate
        check (0 ≤ fd)
        let fs ← fs.fdSet fd { fi, key := fk, fd }
        let i ← fs.impl fi
        return (0, some fd, fs.setImpl fi i.open)

def close (fd : ℤ) (ok : Bool) (fs : Fs) : Except Fault (ℤ × Fs) :=
  match fs.fdTable[fd]? with
  | none => .ok (-EBADF, fs)
  | some f => do
    check (f.fd = fd)
    let i ← fs.impl f.fi
    let (i, c, unlink) := i.close
    let fs := fs.setImpl f.fi i
    if c = 0 then
      let fs := fs.markFileClosed f.key
      let fs ← if unlink then fs.lazyUnlink f.key ok else .ok fs
      return (0, fs.fdDeallocate fd)
    else return (0, fs.fdDeallocate fd)

def pwrite (fd : ℤ) (buf : List UInt8) (offset : ℤ) (ok : Bool) (fs : Fs) :
    Except Fault (ℤ × Fs) :=
  match fs.fdTable[fd]? with
  | none => .ok (-EBADF, fs)
  | some f => do
    let i ← fs.impl f.fi
    let (rc, ddb) ← i.write fs.ddb ok buf offset
    return (rc, { fs with ddb })

/-- What `pread` returns and the buffer after it. -/
def pread (fd : ℤ) (buf : List UInt8) (offset : ℤ) (fs : Fs) : Except Fault (ℤ × List UInt8) :=
  match fs.fdTable[fd]? with
  | none => .ok (-EBADF, buf)
  | some f => do
    let i ← fs.impl f.fi
    i.read fs.ddb buf offset

end Fs

inductive Op
  | mkdir (dir : Str)
  | rmdir (dir : Str)
  | create (file : Str)
  | unlink (file : Str)
  | «open» (file : Str)
  | close (fd : ℤ)
  | pwrite (fd : ℤ) (buf : List UInt8) (offset : ℤ)
  | pread (fd : ℤ) (buf : List UInt8) (offset : ℤ)

/-- A call, with what it finds around it: the clock, and whether the store can write. -/
structure Call where
  op : Op
  now : ℕ
  ok : Bool

/-- What a call gives back: the return value, the descriptor `open` writes to its argument, and
the buffer of `pread`. -/
structure Reply where
  rc : ℤ
  fd : Option ℤ
  buf : List UInt8
  deriving DecidableEq

namespace Fs

def exec (digest : Str → List Int8) (call : Call) (fs : Fs) : Except Fault (Reply × Fs) :=
  match call.op with
  | .mkdir dir => do
    let (rc, fs) ← fs.mkdir digest dir call.now call.ok
    return (⟨rc, none, []⟩, fs)
  | .rmdir dir => do
    let (rc, fs) ← fs.rmdir dir call.ok
    return (⟨rc, none, []⟩, fs)
  | .create file => do
    let (rc, fs) ← fs.create digest file call.now call.ok
    return (⟨rc, none, []⟩, fs)
  | .unlink file => do
    let (rc, fs) ← fs.unlink file call.ok
    return (⟨rc, none, []⟩, fs)
  | .open file => do
    let (rc, fd, fs) ← fs.open file
    return (⟨rc, fd, []⟩, fs)
  | .close fd => do
    let (rc, fs) ← fs.close fd call.ok
    return (⟨rc, none, []⟩, fs)
  | .pwrite fd buf offset => do
    let (rc, fs) ← fs.pwrite fd buf offset call.ok
    return (⟨rc, none, []⟩, fs)
  | .pread fd buf offset => do
    let (rc, buf) ← fs.pread fd buf offset
    return (⟨rc, none, buf⟩, fs)

/-- The state after a call that returns. -/
def next (digest : Str → List Int8) (call : Call) (fs : Fs) : Fs :=
  match fs.exec digest call with
  | .ok (_, fs') => fs'
  | .error _ => fs

end Fs

/-- `calc_key` gives the call no key that the store has. -/
def Fresh (digest : Str → List Int8) (fs : Fs) (call : Call) : Prop :=
  match call.op with
  | .mkdir path | .create path => fs.ddb[calcKey digest (pathConvert path) call.now]? = none
  | _ => True

/-- A call that returns. -/
def Step (digest : Str → List Int8) (fs : Fs) (l : Call × Reply) (fs' : Fs) : Prop :=
  Fresh digest fs l.1 ∧ fs.exec digest l.1 = .ok (l.2, fs')

theorem step_next {digest : Str → List Int8} {fs : Fs} {call : Call} {reply : Reply}
    (hfresh : Fresh digest fs call) (h : (fs.exec digest call).map Prod.fst = .ok reply) :
    Step digest fs (call, reply) (fs.next digest call) := by
  refine ⟨hfresh, ?_⟩
  unfold Fs.next
  cases he : fs.exec digest call with
  | error e =>
    rw [he] at h
    cases h
  | ok r =>
    rw [he] at h
    rw [← Except.ok.inj h]

/-- A call that returns, and in which the store writes whenever it is told to. -/
def StepOk (digest : Str → List Int8) (fs : Fs) (l : Call × Reply) (fs' : Fs) : Prop :=
  l.1.ok = true ∧ Step digest fs l fs'

end CPPCodes.Rocksfs
