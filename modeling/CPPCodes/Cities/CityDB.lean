import CPPCodes.Cities.Parser
import CPPCodes.Lib.IntervalMap
import CPPCodes.Lib.Maps
import Mathlib.Data.Finset.Sort

/-!
# The city database

city.h and CityDB.h. The two indexes are interval maps from Boost; the database works with any
`IntervalMap`. A query changes the two stacks and nothing else, so the functions below it pass
the stacks along and read the rest of the database.
-/

namespace CPPCodes.Cities

open Std (ExtTreeMap)

/-- A range of an attribute: its first value, and the one after its last. -/
abbrev Range := Int64 × Int64

structure City where
  city : Str
  temp : Range
  hum : Range
  deriving DecidableEq

inductive IndexAttribute
  | TEMPERATURE
  | HUMIDITY
  deriving DecidableEq, Repr

/-- `flat_set` of `CityPrimaryKey`, which a loop over it visits in order. -/
abbrev CitySet := Finset ℕ

structure Index (M : Type) where
  impl : M
  attr : IndexAttribute

namespace Index

variable {M : Type} [IntervalMap M ℤ ℕ]

def new (attr : IndexAttribute) : Index M := ⟨IntervalMap.empty, attr⟩

def addCity (x : Index M) (key : ℕ) (low high : Int64) : Index M :=
  { x with impl := IntervalMap.add x.impl low.toInt high.toInt {key} }

def query (x : Index M) (low high : Int64) : CitySet :=
  (IntervalMap.segments x.impl low.toInt high.toInt).foldl (· ∪ ·) ∅

end Index

/-- The two members that a query changes; the top of a stack comes first. -/
structure Stacks where
  tokenStack : List Token
  resultStack : List CitySet

structure CityDB (M : Type) extends Stacks where
  cityObjectDB : ExtTreeMap Str City
  cityDB : ExtTreeMap ℕ Str
  key : ℕ
  tempIndex : Index M
  humIndex : Index M
  lowestTemp : Int64
  highestTemp : Int64
  lowestHum : Int64
  highestHum : Int64

def keywords : List Str := [['T'], ['H']]

/-- White space before a number. -/
def isSpace (c : Char) : Bool := c ∈ [' ', '\t', '\n', '\x0b', '\x0c', '\r']

/-- Whether there is a minus sign, and what comes behind a sign. -/
def takeSign : Str → Bool × Str
  | '-' :: s => (true, s)
  | '+' :: s => (false, s)
  | s => (false, s)

/-- The number of a sign and digits. -/
def signed (neg : Bool) (digits : Str) : ℤ :=
  if neg then -(Nat.ofDigitChars 10 digits 0 : ℤ) else Nat.ofDigitChars 10 digits 0

/-- `std::stoll`: white space, a sign, and the digits before the first other character. -/
def stoll (s : Str) : Except Fault Int64 :=
  let (neg, s) := takeSign (s.dropWhile isSpace)
  let digits := s.takeWhile Char.isDigit
  if digits = [] then .error .invalidArgument
  else
    let v := signed neg digits
    if Int64.minValue.toInt ≤ v ∧ v ≤ Int64.maxValue.toInt then .ok (Int64.ofInt v)
    else .error .outOfRange

/-- `val + 1`, which is not defined on the greatest value. -/
def increment (val : Int64) : Except Fault Int64 :=
  if val = Int64.maxValue then .error .undefined else .ok (val + 1)

/-- The `switch` of `query` on the type of the operator. -/
def bounds (op : TokenType) (low high val : Int64) : Except Fault Range :=
  match op with
  | .EQ => do
    let high ← increment val
    return (val, high)
  | .LT => .ok (low, val)
  | .LE => do
    let high ← increment val
    return (low, high)
  | .GT => .ok (val, high)
  | .GE => do
    let low ← increment val
    return (low, high)
  | _ => .error .assertion

/-- The two asserts on the text of a number in `queryOperator`. -/
def startsNumber : Str → Bool
  | '-' :: c :: _ | '+' :: c :: _ => c.isDigit
  | c :: _ => c.isDigit
  | [] => false

namespace CityDB

variable {M : Type} [IntervalMap M ℤ ℕ]

def new : CityDB M :=
  { tokenStack := [], resultStack := [], cityObjectDB := ∅, cityDB := ∅, key := 0,
    tempIndex := .new .TEMPERATURE, humIndex := .new .HUMIDITY,
    lowestTemp := Int64.maxValue, highestTemp := Int64.minValue,
    lowestHum := Int64.maxValue, highestHum := Int64.minValue }

def indexCreate (key : ℕ) (c : City) (db : CityDB M) : CityDB M :=
  { db with
    tempIndex := db.tempIndex.addCity key c.temp.1 c.temp.2
    lowestTemp := if db.lowestTemp > c.temp.1 then c.temp.1 else db.lowestTemp
    highestTemp := if db.highestTemp < c.temp.2 then c.temp.2 else db.highestTemp
    humIndex := db.humIndex.addCity key c.hum.1 c.hum.2
    lowestHum := if db.lowestHum > c.hum.1 then c.hum.1 else db.lowestHum
    highestHum := if db.highestHum < c.hum.2 then c.hum.2 else db.highestHum }

/-- What `addCity` and `deserialize` do with a city that has its place in `cityObjectDB`. -/
def enter (n : Str) (c : City) (db : CityDB M) : CityDB M :=
  let k := db.key + 1
  { db with key := k, cityDB := db.cityDB.insertIfNew k n }.indexCreate k c

/-- The function returns a value only when the name is taken; it flows off its end otherwise. -/
def addCity (c : City) (db : CityDB M) : Option Bool × CityDB M :=
  match db.cityObjectDB[c.city]? with
  | some _ => (some false, db)
  | none =>
    (none, { db with cityObjectDB := db.cityObjectDB.insertIfNew c.city c }.enter c.city c)

/-- `query` on a keyword, an operator and a value. -/
def queryKey (db : CityDB M) (k op v : Token) : Except Fault CitySet := do
  let (index, low, high) :=
    if k.value = ['T'] then (db.tempIndex, db.lowestTemp, db.highestTemp)
    else (db.humIndex, db.lowestHum, db.highestHum)
  let val ← stoll v.value
  let (low, high) ← bounds op.type low high val
  if low > high then return ∅ else return index.query low high

/-- The stacks after an exception are those at the throw. -/
def queryOperator (db : CityDB M) (op : Token) (s : Stacks) : Except Fault Unit × Stacks :=
  if op.isOperator then
    match s.tokenStack with
    | l :: r :: ts =>
      let s := { s with tokenStack := ts }
      if (l.isKeyWord ∨ r.isKeyWord) ∧ (l.isOperand ∨ r.isOperand) then
        let (k, v) := if l.isKeyWord then (l, r) else (r, l)
        if startsNumber v.value then
          match db.queryKey k op v with
          | .ok set => (.ok (), { s with resultStack := set :: s.resultStack })
          | .error f => (.error f, s)
        else (.error .assertion, s)
      else (.error .assertion, s)
    | _ => (.error .undefined, s)
  else (.error .assertion, s)

/-- On another type the `switch` pushes nothing, for its `defult:` is a label like any other. -/
def resultJoin (op : Token) (s : Stacks) : Except Fault Unit × Stacks :=
  match s.resultStack with
  | r :: l :: rs =>
    match op.type with
    | .AND => (.ok (), { s with resultStack := (l ∩ r) :: rs })
    | .OR => (.ok (), { s with resultStack := (l ∪ r) :: rs })
    | _ => (if rs = [] then .error .assertion else .ok (), { s with resultStack := rs })
  | _ => (.error .assertion, s)

def evalToken (db : CityDB M) (e : Token) (s : Stacks) : Except Fault Unit × Stacks :=
  if e.isOperand then (.ok (), { s with tokenStack := e :: s.tokenStack })
  else match e.type with
    | .AND | .OR => resultJoin e s
    | .EQ | .NEQ | .LT | .LE | .GT | .GE => db.queryOperator e s
    | _ => (.error .assertion, s)

/-- The loop of `query` over the parser's output. -/
def eval (db : CityDB M) : List Token → Stacks → Except Fault Unit × Stacks
  | [], s => (.ok (), s)
  | e :: tokens, s =>
    match db.evalToken e s with
    | (.ok (), s) => db.eval tokens s
    | (.error f, s) => (.error f, s)

/-- The city of a key; to read past the end of a map is undefined. -/
def city (db : CityDB M) (k : ℕ) : Except Fault City :=
  match db.cityDB[k]? with
  | none => .error .undefined
  | some n =>
    match db.cityObjectDB[n]? with
    | none => .error .undefined
    | some c => .ok c

/-- The last part of `query`, from the assert on the size of the stack. -/
def answer (db : CityDB M) (s : Stacks) : Except Fault (List City) × Stacks :=
  match s.resultStack with
  | [set] => ((set.sort (· ≤ ·)).mapM db.city, { s with resultStack := [] })
  | _ => (.error .assertion, s)

/-- How a query ends, and the database after it where the program goes on. -/
def query (db : CityDB M) (query : Str) : Except Fault (List City) × CityDB M :=
  match recursiveDecent query keywords with
  | .error f => (.error f, db)
  | .ok tokens =>
    match db.eval tokens db.toStacks with
    | (.error f, s) => (.error f, { db with toStacks := s })
    | (.ok (), s) =>
      let (rc, s) := db.answer s
      (rc, { db with toStacks := s })

/-- What `serialize` writes: the archive holds one map. -/
def save {File : Type} (write : ExtTreeMap Str City → File) (db : CityDB M) : File :=
  write db.cityObjectDB

/-- `deserialize`, on what the archive restores. -/
def load {File : Type} (read : File → ExtTreeMap Str City) (file : File) (db : CityDB M) :
    Except Fault (CityDB M) :=
  let db := { db with cityObjectDB := read file }
  if db.key = 0 then
    .ok (db.cityObjectDB.toList.foldl (fun db e => db.enter e.1 e.2) db)
  else .error .assertion

end CityDB

end CPPCodes.Cities
