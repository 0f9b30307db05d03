import Networking.Lib.Wire

/-!
# Reading a DNS response

The parsing half of `myresolver.cpp`: the integer readers, the name decompression of `recParse`, and
`parse`, which reads the header and hands the records to `nextParse` or `successParse`. A `char` is
signed, so every read that goes through `records[i]` into a wider integer sign-extends.

`location` is a natural number: no message is long enough to wrap the `uint32_t` of the source.
-/

namespace Networking.Resolver

open Wire

/-- What ends a parse that does not return: an index beyond the size, a `memcpy` past the
terminator, the exception of `substr`, or a recursion of `recParse` deeper than the fuel. -/
inductive Fault
  | read
  | copy
  | substr
  | depth
  deriving DecidableEq, Repr

structure Server where
  ip : Bytes
  name : Bytes
  deriving DecidableEq, Repr

/-- `records[i]` of a `std::string`: the terminator may be read, nothing behind it. -/
def charAt (records : Bytes) (i : ℕ) : Except Fault Byte :=
  match records[i]? with
  | some c => .ok c
  | none => if i = records.length then .ok 0 else .error .read

def bit (var : Byte) (shift : ℕ) : Bool := var.getLsbD shift

def substr (records : Bytes) (location count : ℕ) : Except Fault Bytes :=
  if location ≤ records.length then .ok ((records.drop location).take count) else .error .substr

/-- `atoi16`. Both operands are sign-extended to `int` before they are added. -/
def atoi16 (records : Bytes) (location : ℕ) : Except Fault (BitVec 16 × ℕ) := do
  let c ← charAt records location
  let d ← charAt records (location + 1)
  let value := (c.signExtend 32 + d.signExtend 32 <<< 8).setWidth 16
  return (swap 2 value, location + 2)

/-- `atoi32`, whose `memcpy` may reach the terminator of `c_str()`. -/
def atoi32 (records : Bytes) (location : ℕ) : Except Fault (BitVec 32 × ℕ) :=
  if location + 4 ≤ records.length + 1 then
    .ok (swap 4 (ofMemory 32 (((records ++ [0]).drop location).take 4)), location + 4)
  else .error .copy

/-- The `while` loop of `recParse`, which copies one label. -/
def copyLabel (records : Bytes) : ℕ → ℕ → Except Fault Bytes
  | 0, _ => .ok []
  | count + 1, location => do
      let c ← charAt records location
      let rest ← copyLabel records count (location + 1)
      return c :: rest

/-- `recParse`: the name at `location` and the location it leaves behind. The fuel bounds the depth
of its recursion, which nothing in the source does. -/
def recParse (records : Bytes) : ℕ → ℕ → Bool → Except Fault (Bytes × ℕ)
  | 0, _, _ => .error .depth
  | fuel + 1, location, first => do
      let numchars ← charAt records location
      if numchars = 0 then
        -- the zero byte is not passed
        return ([], location)
      else if bit numchars 7 && bit numchars 6 then
        -- the target is read through a copy of the location: only the pointer itself is passed
        let (value, next) ← atoi16 records location
        let (name, _) ← recParse records fuel ((value.toNat + 1) &&& 63) first
        return (name, next)
      else
        let label ← copyLabel records numchars.toNat (location + 1)
        let (rest, next) ← recParse records fuel (location + 1 + numchars.toNat) false
        return (if first then label ++ rest else ofString "." ++ label ++ rest, next)

/-- `ss << n` for a small non-negative `int`. -/
def decimal (n : ℕ) : Bytes := ofString (String.ofList (Nat.toDigits 10 n))

/-- `ss << std::setw(2) << std::setfill('0') << std::hex << n` for a byte. -/
def hexByte (n : ℕ) : Bytes :=
  ofString (String.ofList [Nat.digitChar (n / 16), Nat.digitChar (n % 16)])

/-- `ParseIP`: the separators it puts before the byte at index `i`, then the byte. -/
def parseIP (records : Bytes) (ipv6 : Bool) : Bytes :=
  (records.zipIdx).flatMap fun (c, i) =>
    let inner : Bool := i ≠ 0 || i = records.length - 1
    if ipv6 then
      (if inner && i % 2 = 0 then ofString ":" else []) ++ hexByte c.toNat
    else
      (if inner then ofString "." else []) ++ decimal c.toNat

structure Fields where
  name : Bytes
  type : BitVec 16
  cls : BitVec 16
  ttl : BitVec 32
  rdlength : BitVec 16

/-- The five reads at the head of each loop of `nextParse`. -/
def readFields (fuel : ℕ) (records : Bytes) (location : ℕ) : Except Fault (Fields × ℕ) := do
  let (name, location) ← recParse records fuel location true
  let (type, location) ← atoi16 records location
  let (cls, location) ← atoi16 records location
  let (ttl, location) ← atoi32 records location
  let (rdlength, location) ← atoi16 records location
  return (⟨name, type, cls, ttl, rdlength⟩, location)

/-- The first two loops of `nextParse`, which only move the location. -/
def skipRecords (fuel : ℕ) (records : Bytes) : ℕ → ℕ → Except Fault ℕ
  | 0, location => .ok location
  | count + 1, location => do
      let (fields, location) ← readFields fuel records location
      skipRecords fuel records count (location + fields.rdlength.toNat)

/-- The third loop of `nextParse`, which collects the servers. -/
def addRecords (fuel : ℕ) (records : Bytes) :
    ℕ → ℕ → List Server → Except Fault (List Server)
  | 0, _, newList => .ok newList
  | count + 1, location, newList => do
      let (fields, location) ← readFields fuel records location
      let rdlength := fields.rdlength.toNat
      let bytes ← substr records location rdlength
      let rdata := parseIP bytes (rdlength = 16)
      -- the length decides, not the type
      let newList := if rdlength = 4 then newList ++ [⟨rdata, fields.name⟩] else newList
      addRecords fuel records count (location + rdlength) newList

def nextParse (fuel : ℕ) (records : Bytes) (location : ℕ) (ancount nscount arcount : BitVec 16) :
    Except Fault (List Server) := do
  let location ← skipRecords fuel records ancount.toNat location
  let location ← skipRecords fuel records nscount.toNat location
  addRecords fuel records arcount.toNat location []

/-- `parse` returns a list, or exits: after `successParse`, since the name does not exist, or since
the request was malformed. -/
inductive Parsed
  | servers (list : List Server)
  | successParse (records : Bytes) (location : ℕ) (ancount : BitVec 16)
  | noRecord
  | fatal
  deriving DecidableEq

def parse (fuel : ℕ) (response : Bytes) (qSize : ℕ) : Except Fault Parsed := do
  let c2 ← charAt response 2
  let c3 ← charAt response 3
  let c7 ← charAt response 7
  let c9 ← charAt response 9
  let c11 ← charAt response 11
  let aa := bit c2 2
  let rcode := c3 &&& 15
  -- of each count, the low byte is read, as a signed character
  let ancount := c7.signExtend 16
  let nscount := c9.signExtend 16
  let arcount := c11.signExtend 16
  match rcode.toNat with
  | 0 =>
      if aa && ancount ≠ 0 then
        return .successParse response qSize ancount
      else
        return .servers (← nextParse fuel response qSize ancount nscount arcount)
  | 1 => return .fatal
  | 3 => if aa && ancount = 0 then return .noRecord else return .servers []
  | _ => return .servers []

end Networking.Resolver
