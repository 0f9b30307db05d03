import Networking.Resolver.Records

/-!
# The answer

What `parse` does with an authoritative answer: `successParse` reads one record and the signature
behind it, prints them and exits. The text of the signature in base64 and the address as `inet_ntop`
writes it come from libraries.
-/

namespace Networking.Resolver

open Wire

/-- The code that `successParse` and `parseRRSIG` take from libraries: the base64 text of a
signature, and `inet_ntop` on what `inet_pton` stores. -/
structure Library where
  base64Text : Bytes → Bytes
  inetText : Bytes → Bytes

def typeTStrings (type : ℕ) : Bytes :=
  match type with
  | 1 => ofString "A"
  | 2 => ofString "NS"
  | 3 => ofString "MD"
  | 4 => ofString "MF"
  | 5 => ofString "CNAME"
  | 6 => ofString "SOA"
  | 7 => ofString "MB"
  | 8 => ofString "MG"
  | 9 => ofString "MR"
  | 10 => ofString "null"
  | 11 => ofString "WKS"
  | 12 => ofString "PTR"
  | 13 => ofString "HINFO"
  | 14 => ofString "MINFO"
  | 15 => ofString "MX"
  | 16 => ofString "TXT"
  | 28 => ofString "AAAA"
  | 46 => ofString "RRSIG"
  | _ => []

def classTStrings (cls : ℕ) : Bytes :=
  match cls with
  | 1 => ofString "IN"
  | 2 => ofString "CS"
  | 3 => ofString "CH"
  | 4 => ofString "HS"
  | _ => []

def atoi8 (records : Bytes) (location : ℕ) : Except Fault (Byte × ℕ) := do
  let c ← charAt records location
  return (c, location + 1)

structure SigFields where
  typeCov : BitVec 16
  algor : Byte
  labels : Byte
  orgTtl : BitVec 32
  sigExp : BitVec 32
  tSign : BitVec 32
  signId : BitVec 16

/-- The reads of `parseRRSIG` between the record's own fields and the name of the signer. -/
def readSigFields (records : Bytes) (location : ℕ) : Except Fault (SigFields × ℕ) := do
  let (typeCov, location) ← atoi16 records location
  let (algor, location) ← atoi8 records location
  let (labels, location) ← atoi8 records location
  let (orgTtl, location) ← atoi32 records location
  let (sigExp, location) ← atoi32 records location
  let (tSign, location) ← atoi32 records location
  let (signId, location) ← atoi16 records location
  return (⟨typeCov, algor, labels, orgTtl, sigExp, tSign, signId⟩, location)

/-- `RDLENGTH - 20 - S_NAME.length()`, whose last operand is unsigned. -/
def signatureLength (rdlength : BitVec 16) (sName : Bytes) : ℕ :=
  (BitVec.ofInt 64 ((rdlength.toNat : ℤ) - 20) - BitVec.ofNat 64 sName.length).toNat

def words (texts : List Bytes) : Bytes := (ofString " ").intercalate texts

def parseRRSIG (lib : Library) (fuel : ℕ) (records : Bytes) (location : ℕ) :
    Except Fault (Bytes × ℕ) := do
  let (fields, location) ← readFields fuel records location
  let (sig, location) ← readSigFields records location
  let (sName, location) ← recParse records fuel location true
  let location := location + 1
  let signature ← substr records location (signatureLength fields.rdlength sName)
  return (words [fields.name, decimal fields.ttl.toNat, classTStrings fields.cls.toNat,
    typeTStrings fields.type.toNat, typeTStrings sig.typeCov.toNat, decimal sig.algor.toNat,
    decimal sig.labels.toNat, decimal sig.orgTtl.toNat, decimal sig.sigExp.toNat,
    decimal sig.tSign.toNat, decimal sig.signId.toNat, sName,
    lib.base64Text signature ++ ofString "=\n"], location)

structure DnsResponse where
  name : Bytes
  timeToLive : BitVec 32
  cls : BitVec 16
  type : BitVec 16
  addr : Bytes
  rrsig : Bytes

/-- What `successParse` prints before it exits. -/
def successParse (lib : Library) (queryName : Bytes) (fuel : ℕ) (records : Bytes) (location : ℕ)
    (_ancount : BitVec 16) : Except Fault Bytes := do
  let (fields, location) ← readFields fuel records location
  let rdlength := fields.rdlength.toNat
  let bytes ← substr records location rdlength
  let rdata := parseIP bytes (rdlength = 16)
  let (rrsig, _) ← parseRRSIG lib fuel records (location + rdlength)
  let resp : DnsResponse :=
    ⟨fields.name, fields.ttl, fields.cls, fields.type, lib.inetText rdata, rrsig⟩
  let responses := if rdlength = 16 then [resp] else []
  return decimal responses.length ++ ofString " IPv6 Address Found For " ++ queryName
    ++ ofString ":\n\n" ++ responses.flatMap fun r =>
      words [r.name, decimal r.timeToLive.toNat, classTStrings r.cls.toNat,
        typeTStrings r.type.toNat, r.addr] ++ ofString "\n" ++ r.rrsig ++ ofString "\n"

/-- `parse` together with the call of `successParse` in it, and what the latter prints. -/
def parseAndPrint (lib : Library) (queryName : Bytes) (fuel : ℕ) (response : Bytes) (qSize : ℕ) :
    Except Fault (Parsed × Bytes) := do
  match ← parse fuel response qSize with
  | .successParse records location ancount =>
      let printed ← successParse lib queryName fuel records location ancount
      return (.successParse records location ancount, printed)
  | parsed => return (parsed, [])

end Networking.Resolver
