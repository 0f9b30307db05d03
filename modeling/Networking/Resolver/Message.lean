import Networking.Resolver.Records

/-!
# DNS messages on the wire

What a response is, said without reference to the resolver: names with labels, a closing zero byte
and compression pointers, resource records, and the three sections behind the questions. The
positions of a message are related to what stands there, so a statement about a record can name the
offset where the next one starts.
-/

namespace Networking.Resolver

open Wire

inductive Ending
  | zero
  | pointer
  deriving DecidableEq

/-- The name `labels` is encoded at `off`, and the first byte behind the encoding is at `next`.
Every pointer that decoding follows leads back, and to an offset that satisfies `follow`. -/
inductive NameAt (follow : ℕ → Prop) (msg : Bytes) : ℕ → List Bytes → ℕ → Ending → Prop
  | root {off : ℕ} (hbytes : [0] <+: msg.drop off) : NameAt follow msg off [] (off + 1) .zero
  | label {off next : ℕ} {label : Bytes} {rest : List Bytes} {ending : Ending}
      (hpos : 0 < label.length) (hlen : label.length ≤ 63)
      (hbytes : BitVec.ofNat 8 label.length :: label <+: msg.drop off)
      (hrest : NameAt follow msg (off + 1 + label.length) rest next ending) :
      NameAt follow msg off (label :: rest) next ending
  | pointer {off target next : ℕ} {labels : List Bytes} {ending : Ending}
      (hbytes : bigEndian 2 (BitVec.ofNat 16 (0xC000 + target)) <+: msg.drop off)
      (hwidth : target < 2 ^ 14) (hback : target < off) (hfollow : follow target)
      (hrest : NameAt follow msg target labels next ending) :
      NameAt follow msg off labels (off + 2) .pointer

theorem NameAt.lt {follow : ℕ → Prop} {msg : Bytes} {off next : ℕ} {labels : List Bytes}
    {ending : Ending} (h : NameAt follow msg off labels next ending) : off < next := by
  induction h with
  | root _ => exact Nat.lt_succ_self _
  | label _ _ _ _ ih => omega
  | pointer _ _ _ _ _ => omega

theorem NameAt.mono {follow follow' : ℕ → Prop} {msg : Bytes} {off next : ℕ}
    {labels : List Bytes} {ending : Ending} (h : NameAt follow msg off labels next ending)
    (hfollow : ∀ target < 2 ^ 14, follow target → follow' target) :
    NameAt follow' msg off labels next ending := by
  induction h with
  | root hbytes => exact .root hbytes
  | label hpos hlen hbytes _ ih => exact .label hpos hlen hbytes ih
  | pointer hbytes hwidth hback hto _ ih =>
      exact .pointer hbytes hwidth hback (hfollow _ hwidth hto) ih

structure Record where
  owner : List Bytes
  type : BitVec 16
  cls : BitVec 16
  ttl : BitVec 32
  rdata : Bytes

def typeA : BitVec 16 := 1

/-- The fixed fields of a record and its data, as they follow the owner name. -/
def Record.body (rr : Record) : Bytes :=
  bigEndian 2 rr.type ++ (bigEndian 2 rr.cls ++ (bigEndian 4 rr.ttl
    ++ (bigEndian 2 (BitVec.ofNat 16 rr.rdata.length) ++ rr.rdata)))

theorem Record.length_body (rr : Record) : rr.body.length = 10 + rr.rdata.length := by
  simp only [body, List.length_append, length_bigEndian]
  omega

theorem Record.body_isPrefix {rr : Record} {msg : Bytes} {off : ℕ} (h : rr.body <+: msg.drop off) :
    bigEndian 2 rr.type <+: msg.drop off ∧ bigEndian 2 rr.cls <+: msg.drop (off + 2)
      ∧ bigEndian 4 rr.ttl <+: msg.drop (off + 4)
      ∧ bigEndian 2 (BitVec.ofNat 16 rr.rdata.length) <+: msg.drop (off + 8)
      ∧ rr.rdata <+: msg.drop (off + 10) ∧ off + 10 + rr.rdata.length ≤ msg.length := by
  have hcls := isPrefix_drop_of_append _ h
  have httl := isPrefix_drop_of_append _ hcls
  have hrdlength := isPrefix_drop_of_append _ httl
  have hdata := isPrefix_drop_of_append _ hrdlength
  have hend := length_le_of_isPrefix h (by simp [← List.length_pos_iff, length_body])
  rw [length_body] at hend
  simp only [length_bigEndian] at hcls httl hrdlength hdata
  exact ⟨(List.prefix_append _ _).trans h, (List.prefix_append _ _).trans hcls,
    (List.prefix_append _ _).trans httl, (List.prefix_append _ _).trans hrdlength, hdata, by omega⟩

/-- The record `rr` stands at `off` and ends before `next`. -/
inductive RecordAt (follow : ℕ → Prop) (msg : Bytes) (off : ℕ) (rr : Record) : Ending → ℕ → Prop
  | mk {mid : ℕ} {ending : Ending} (hname : NameAt follow msg off rr.owner mid ending)
      (hlen : rr.rdata.length < 2 ^ 16) (hbody : rr.body <+: msg.drop mid) :
      RecordAt follow msg off rr ending (mid + 10 + rr.rdata.length)

/-- The records stand one behind the other from `off` and end before `next`. Their names end as
`ends` allows. -/
inductive RecordsAt (follow : ℕ → Prop) (ends : Ending → Prop) (msg : Bytes) :
    ℕ → List Record → ℕ → Prop
  | nil {off : ℕ} : RecordsAt follow ends msg off [] off
  | cons {off mid next : ℕ} {rr : Record} {rest : List Record} {ending : Ending}
      (hrecord : RecordAt follow msg off rr ending mid) (hends : ends ending)
      (hrest : RecordsAt follow ends msg mid rest next) :
      RecordsAt follow ends msg off (rr :: rest) next

/-- `count` questions, each a name with a type and a class, stand from `off` to `next`. -/
inductive QuestionsAt (msg : Bytes) : ℕ → ℕ → ℕ → Prop
  | nil {off : ℕ} : QuestionsAt msg off 0 off
  | cons {off mid next count : ℕ} {labels : List Bytes} {ending : Ending}
      (hname : NameAt (fun _ => True) msg off labels mid ending) (hfields : mid + 4 ≤ msg.length)
      (hrest : QuestionsAt msg (mid + 4) count next) : QuestionsAt msg off (count + 1) next

/-- The numbers of questions and of records in the three sections, as the header gives them. -/
def CountsAt (msg : Bytes) (questions answers authority additional : ℕ) : Prop :=
  bigEndian 2 (BitVec.ofNat 16 questions) ++ (bigEndian 2 (BitVec.ofNat 16 answers)
    ++ (bigEndian 2 (BitVec.ofNat 16 authority)
      ++ bigEndian 2 (BitVec.ofNat 16 additional))) <+: msg.drop 4

/-- A message: behind the header stand the questions and the records that it counts, and nothing
else. A name may be of any length here, also of more than 255 octets. -/
def WellFormed (msg : Bytes) : Prop :=
  ∃ (questions : ℕ) (answers authority additional : List Record) (qSize mid₁ mid₂ : ℕ),
    (questions < 2 ^ 16 ∧ answers.length < 2 ^ 16 ∧ authority.length < 2 ^ 16
        ∧ additional.length < 2 ^ 16)
      ∧ CountsAt msg questions answers.length authority.length additional.length
      ∧ QuestionsAt msg 12 questions qSize
      ∧ RecordsAt (fun _ => True) (fun _ => True) msg qSize answers mid₁
      ∧ RecordsAt (fun _ => True) (fun _ => True) msg mid₁ authority mid₂
      ∧ RecordsAt (fun _ => True) (fun _ => True) msg mid₂ additional msg.length

/-- The twelve bytes a message starts with, of which the resolver reads two bits of the flags, the
response code and the counts. -/
structure HeaderAt (msg : Bytes) (authoritative : Bool) (rcode questions answers authority
    additional : ℕ) : Prop where
  flags : ∃ f g : Byte, [f, g] <+: msg.drop 2 ∧ f.getLsbD 7 = true
    ∧ f.getLsbD 2 = authoritative ∧ (g &&& 15).toNat = rcode
  counts : bigEndian 2 (BitVec.ofNat 16 questions) ++ (bigEndian 2 (BitVec.ofNat 16 answers)
    ++ (bigEndian 2 (BitVec.ofNat 16 authority)
      ++ bigEndian 2 (BitVec.ofNat 16 additional))) <+: msg.drop 4

/-- A response without error, with the question section ending at `qSize` and the given records. -/
structure Response (msg : Bytes) (qSize : ℕ) (authoritative : Bool)
    (answers authority additional : List Record) : Prop where
  header : ∃ questions < 2 ^ 16, HeaderAt msg authoritative 0 questions answers.length
    authority.length additional.length ∧ QuestionsAt msg 12 questions qSize
  counts : answers.length < 2 ^ 16 ∧ authority.length < 2 ^ 16 ∧ additional.length < 2 ^ 16
  sections : ∃ mid₁ mid₂, RecordsAt (fun _ => True) (fun _ => True) msg qSize answers mid₁
    ∧ RecordsAt (fun _ => True) (fun _ => True) msg mid₁ authority mid₂
    ∧ RecordsAt (fun _ => True) (fun _ => True) msg mid₂ additional msg.length
  addresses : ∀ rr ∈ additional, rr.type = typeA → rr.rdata.length = 4

def dotted (labels : List Bytes) : Bytes := (ofString ".").intercalate labels

def dottedQuad (address : Bytes) : Bytes :=
  (ofString ".").intercalate (address.map fun b => decimal b.toNat)

/-- The servers a referral names: one for each address among the additional records. -/
def referredServers (additional : List Record) : List Server :=
  (additional.filter fun rr => rr.type = typeA).map fun rr =>
    ⟨dottedQuad rr.rdata, dotted rr.owner⟩

end Networking.Resolver
