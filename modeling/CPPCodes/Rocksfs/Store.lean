import CPPCodes.Lib.Maps
import CPPCodes.Rocksfs.Path
import Mathlib.Data.Int.Notation
import Mathlib.Data.Nat.Notation

/-!
# Records and the data store

The JSON values of rocksfs.cc and the RocksDB store that holds them. A record is a JSON object,
which nlohmann's library keeps as an ordered map; the objects inside a record are the entries of a
directory, with a key and a type. The store keeps a record where the program keeps its text, since
what `dump` writes `parse` reads back.
-/

namespace CPPCodes.Rocksfs

open Std (ExtTreeMap)

/-- What a call ends in when it does not return. -/
inductive Fault
  | assertion
  | exception
  | undefined
  deriving DecidableEq, Repr

/-- `assert`. -/
def check (p : Prop) [Decidable p] : Except Fault Unit :=
  if p then .ok () else .error .assertion

def ENOENT : ℤ := 2
def EBADF : ℤ := 9
def EEXIST : ℤ := 17
def ENOTDIR : ℤ := 20
def EISDIR : ℤ := 21
def EINVAL : ℤ := 22
def ENOSPC : ℤ := 28
def ENOTEMPTY : ℤ := 39

inductive JVal
  | num (n : ℤ)
  | str (s : Str)
  | entry (key : Str) (type : ℤ)
  deriving DecidableEq

abbrev Json := ExtTreeMap Str JVal

namespace Json

/-- The conversion of a field to an integer, which throws for any other value. -/
def num (j : Json) (k : Str) : Except Fault ℤ :=
  match j[k]? with
  | some (.num n) => .ok n
  | _ => .error .exception

def str (j : Json) (k : Str) : Except Fault Str :=
  match j[k]? with
  | some (.str s) => .ok s
  | _ => .error .exception

end Json

def KW_NAME : Str := ['/', 'n', 'a', 'm', 'e']
def KW_PARENT : Str := ['/', 'p', 'a', 'r', 'e', 'n', 't']
def KW_KEY : Str := ['/', 'k', 'e', 'y']
def KW_TYPE : Str := ['/', 't', 'y', 'p', 'e']
def KW_BS : Str := ['/', 'b', 's']
def KW_BSA : Str := ['/', 'b', 's', 'a']
def KW_FS : Str := ['/', 'f', 's']
def KW_ATIME : Str := ['/', 'a', 't', 'i', 'm', 'e']
def KW_CTIME : Str := ['/', 'c', 't', 'i', 'm', 'e']
def KW_MTIME : Str := ['/', 'm', 't', 'i', 'm', 'e']
def KW_DEL : Str := ['/', 'd', 'e', 'l', 'e', 't', 'e', 'd']

def keywords : List Str :=
  [KW_NAME, KW_PARENT, KW_KEY, KW_TYPE, KW_BS, KW_BSA, KW_FS, KW_ATIME, KW_CTIME, KW_MTIME, KW_DEL]

def isKeyword (n : Str) : Bool := keywords.contains n

def FS_FILE : ℤ := 0
def FS_DIRECTORY : ℤ := 1
def DEFAULT_BLOCK_SIZE : ℤ := 4096

def dirJsonInit (name key parent : Str) : Json :=
  ((((((∅ : Json).insert KW_NAME (.str name)).insert KW_KEY (.str key)).insert KW_PARENT
    (.str parent)).insert KW_TYPE (.num FS_DIRECTORY)).insert KW_DEL (.num 0))

def fileJsonInit (name key parent : Str) : Json :=
  ((((((((((((∅ : Json).insert KW_NAME (.str name)).insert KW_KEY (.str key)).insert KW_PARENT
    (.str parent)).insert KW_TYPE (.num FS_FILE)).insert KW_DEL (.num 0)).insert KW_BS
    (.num DEFAULT_BLOCK_SIZE)).insert KW_BSA (.num 0)).insert KW_FS (.num 0)).insert KW_ATIME
    (.num 0)).insert KW_CTIME (.num 0)).insert KW_MTIME (.num 0))

abbrev Store := ExtTreeMap Str Json

inductive Update
  | put (key : Str) (j : Json)
  | delete (key : Str)

def Store.apply (db : Store) : Update → Store
  | .put key j => db.insert key j
  | .delete key => db.erase key

/-- `Write`: the whole batch, or nothing when the status is not ok. -/
def Store.write (db : Store) (ok : Bool) (batch : List Update) : Store :=
  if ok then batch.foldl Store.apply db else db

/-- `Get` under an assert that its status is ok. -/
def Store.getOk (db : Store) (key : Str) : Except Fault Json :=
  match db[key]? with
  | some j => .ok j
  | none => .error .assertion

/-- `Get` whose status is ignored; parsing the empty text of a missing record throws. -/
def Store.getParse (db : Store) (key : Str) : Except Fault Json :=
  match db[key]? with
  | some j => .ok j
  | none => .error .exception

/-- `std::to_string`. -/
def toDecimal (n : ℤ) : Str :=
  if n < 0 then '-' :: Nat.toDigits 10 n.natAbs else Nat.toDigits 10 n.natAbs

/-- `sha1` of utils.cc, given the digest that libgcrypt computes. -/
def sha1 (digest : Str → List Int8) (s : Str) : Str :=
  (digest s).flatMap fun b => toDecimal b.toInt

/-- `calc_key` at the time `now`, in nanoseconds. -/
def calcKey (digest : Str → List Int8) (path : Str) (now : ℕ) : Str :=
  sha1 digest (path ++ ':' :: toDecimal now)

/-- The key of a block of a file. -/
def blockKey (key : Str) (block : ℕ) : Str := key ++ ':' :: toDecimal block

end CPPCodes.Rocksfs
