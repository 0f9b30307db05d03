import Networking.Lib.Base64
import Networking.Resolver.HostName
import Networking.Resolver.Location
import Networking.Resolver.Success

/-!
# Signature records

`parseRRSIG` reads the fields of a signature, the name of the signer, and as the signature what
`RDLENGTH` leaves. Its sixteen-bit reads hear numbers from 2¹⁵ on one too small, and the length of
the signature is computed from the text of the signer, which is two bytes shorter than its encoding
except for the root, where it is one byte shorter.
-/

namespace Networking.Resolver

open Wire Fuel Base64

variable {msg : Bytes} {off mid : ℕ} {rr : Record}

/-! ### Extracting and printing -/

/-- What `parseRRSIG` has read when it starts to print. -/
structure Extracted where
  fields : Fields
  sig : SigFields
  sName : Bytes
  signature : Bytes

/-- `parseRRSIG` from the name to `SIGNATURE`. -/
def extractRRSIG (fuel : ℕ) (records : Bytes) (location : ℕ) : Except Fault (Extracted × ℕ) := do
  let (fields, location) ← readFields fuel records location
  let (sig, location) ← readSigFields records location
  let (sName, location) ← recParse records fuel location true
  let location := location + 1
  let signature ← substr records location (signatureLength fields.rdlength sName)
  return (⟨fields, sig, sName, signature⟩, location)

def signatureText (lib : Library) (signature : Bytes) : Bytes :=
  lib.base64Text signature ++ ofString "="

/-- What is printed in front of the signature. -/
def Extracted.shown (x : Extracted) : List Bytes :=
  [x.fields.name, decimal x.fields.ttl.toNat, classTStrings x.fields.cls.toNat,
    typeTStrings x.fields.type.toNat, typeTStrings x.sig.typeCov.toNat,
    decimal x.sig.algor.toNat, decimal x.sig.labels.toNat, decimal x.sig.orgTtl.toNat,
    decimal x.sig.sigExp.toNat, decimal x.sig.tSign.toNat, decimal x.sig.signId.toNat, x.sName]

def printRRSIG (lib : Library) (x : Extracted) : Bytes :=
  words (x.shown ++ [signatureText lib x.signature ++ ofString "\n"])

theorem parseRRSIG_eq (lib : Library) (fuel : ℕ) (records : Bytes) (location : ℕ) :
    parseRRSIG lib fuel records location
      = extractRRSIG fuel records location >>= fun r => .ok (printRRSIG lib r.1, r.2) := by
  have hlast : ofString "=\n" = ofString "=" ++ ofString "\n" := rfl
  simp only [parseRRSIG, extractRRSIG, bind_assoc, printRRSIG, signatureText, hlast,
    List.append_assoc]
  rfl

/-! ### Signatures on the wire -/

/-- The data of a signature record, whose signer is not compressed. -/
structure Signature where
  typeCovered : BitVec 16
  algorithm : Byte
  labels : Byte
  originalTtl : BitVec 32
  expiration : BitVec 32
  inception : BitVec 32
  keyTag : BitVec 16
  signer : List Bytes
  signature : Bytes
  wellFormed : ∀ label ∈ signer, 0 < label.length ∧ label.length ≤ 63

variable {s : Signature}

def Signature.fixed (s : Signature) : Bytes :=
  bigEndian 2 s.typeCovered ++ ([s.algorithm] ++ ([s.labels] ++ (bigEndian 4 s.originalTtl
    ++ (bigEndian 4 s.expiration ++ (bigEndian 4 s.inception ++ bigEndian 2 s.keyTag)))))

def Signature.rdata (s : Signature) : Bytes :=
  s.fixed ++ ((encoding s.signer ++ [0]) ++ s.signature)

def Signature.fields (s : Signature) : SigFields :=
  ⟨s.typeCovered, s.algorithm, s.labels, s.originalTtl, s.expiration, s.inception, s.keyTag⟩

/-- The fields as they are read. -/
def Signature.heard (s : Signature) : SigFields :=
  { s.fields with
    typeCov := Resolver.heard s.typeCovered
    signId := Resolver.heard s.keyTag }

/-- Every field of the signature is extracted as it is encoded. -/
structure Signature.Read (s : Signature) (x : Extracted) : Prop where
  sig : x.sig = s.fields
  sName : x.sName = dotted s.signer
  signature : x.signature = s.signature

theorem Signature.length_fixed (s : Signature) : s.fixed.length = 18 := by
  simp [fixed, length_bigEndian]

theorem Signature.length_rdata (s : Signature) :
    s.rdata.length = 19 + wireLength s.signer + s.signature.length := by
  rw [rdata, List.length_append, List.length_append, List.length_append, length_fixed,
    length_encoding, List.length_singleton]
  omega

theorem atoi8_of_isPrefix {c : Byte} (h : [c] <+: msg.drop off) :
    atoi8 msg off = .ok (c, off + 1) := by
  have hc : charAt msg off = .ok c := charAt_of_isPrefix h (i := 0) (by simp)
  rw [atoi8, hc]
  rfl

theorem readSigFields_of_fixed (h : s.fixed <+: msg.drop off) :
    readSigFields msg off = .ok (s.heard, off + 18) := by
  have halgorithm := isPrefix_drop_of_append _ h
  have hlabels := isPrefix_drop_of_append _ halgorithm
  have httl := isPrefix_drop_of_append _ hlabels
  have hexpiration := isPrefix_drop_of_append _ httl
  have hinception := isPrefix_drop_of_append _ hexpiration
  have hkeyTag := isPrefix_drop_of_append _ hinception
  simp only [length_bigEndian, List.length_singleton] at halgorithm hlabels httl
  simp only [length_bigEndian, List.length_singleton] at hexpiration hinception hkeyTag
  have hhead {first rest : Bytes} {n : ℕ} (h : first ++ rest <+: msg.drop n) :
      first <+: msg.drop n := (List.prefix_append _ _).trans h
  simp only [readSigFields, atoi16_of_bigEndian (hhead h), atoi8_of_isPrefix (hhead halgorithm),
    atoi8_of_isPrefix (hhead hlabels), atoi32_of_bigEndian (hhead httl),
    atoi32_of_bigEndian (hhead hexpiration), atoi32_of_bigEndian (hhead hinception),
    atoi16_of_bigEndian hkeyTag, ok_bind]
  rfl

theorem heard_eq_fields_iff (s : Signature) :
    s.heard = s.fields ↔ s.typeCovered.toNat < 2 ^ 15 ∧ s.keyTag.toNat < 2 ^ 15 := by
  rw [← heard_eq_iff, ← heard_eq_iff]
  simp [Signature.heard, Signature.fields]

/-! ### The length of the signature -/

theorem length_flatMap_dot (labels : List Bytes) :
    (labels.flatMap fun label => ofString "." ++ label).length = wireLength labels := by
  have hdot : (ofString ".").length = 1 := rfl
  induction labels with
  | nil => rfl
  | cons label rest ih =>
      rw [List.flatMap_cons, List.length_append, List.length_append, ih, hdot, wireLength,
        Nat.add_comm 1]

theorem length_dotted {labels : List Bytes} (hne : labels ≠ []) :
    (dotted labels).length + 1 = wireLength labels := by
  obtain ⟨label, rest, rfl⟩ := List.exists_cons_of_ne_nil hne
  rw [dotted_cons, List.length_append, length_flatMap_dot, wireLength]
  omega

/-- The difference is computed with 64 bits. -/
theorem signatureLength_eq (rdlength : BitVec 16) {sName : Bytes} (hshort : sName.length < 2 ^ 16) :
    (20 + sName.length ≤ rdlength.toNat →
        signatureLength rdlength sName = rdlength.toNat - 20 - sName.length)
      ∧ (rdlength.toNat < 20 + sName.length →
        signatureLength rdlength sName = 2 ^ 64 + rdlength.toNat - 20 - sName.length) := by
  have hr : rdlength.toNat < 2 ^ 16 := rdlength.isLt
  rw [signatureLength, BitVec.toNat_sub, BitVec.toNat_ofInt, BitVec.toNat_ofNat]
  constructor
  · intro h
    omega
  · intro h
    omega

theorem take_append_eq_iff {α : Type*} {front rest : List α} {n : ℕ} :
    (front ++ rest).take n = front ↔ n = front.length ∨ rest = [] ∧ front.length ≤ n := by
  rcases Nat.lt_trichotomy n front.length with hlt | rfl | hgt
  · refine iff_of_false (fun h => ?_) (by omega)
    have hlength := congrArg List.length h
    rw [List.length_take, List.length_append] at hlength
    omega
  · simp
  · have hrest : (front ++ rest).take n = front ↔ rest = [] := by
      rw [List.take_append, List.take_of_length_le (Nat.le_of_lt hgt), List.append_right_eq_self,
        List.take_eq_nil_iff]
      exact or_iff_right (by omega)
    rw [hrest]
    constructor
    · exact fun h => .inr ⟨h, Nat.le_of_lt hgt⟩
    · rintro (h | h)
      · omega
      · exact h.1

/-! ### What is extracted -/

def Signature.taken (s : Signature) (rr : Record) (msg : Bytes) (mid : ℕ) : Bytes :=
  (s.signature ++ msg.drop (mid + rr.body.length)).take
    (signatureLength (Resolver.heard (BitVec.ofNat 16 rr.rdata.length)) (dotted s.signer))

theorem returns_extractRRSIG {name : Bytes}
    (hname : Returns (fun fuel => recParse msg fuel off true) (name, mid))
    (hbody : rr.body <+: msg.drop mid) (hdata : rr.rdata = s.rdata) :
    Returns (fun fuel => extractRRSIG fuel msg off)
      (⟨rr.heard name, s.heard, dotted s.signer, s.taken rr msg mid⟩,
        mid + 29 + wireLength s.signer) := by
  obtain ⟨-, -, -, -, hrdata, hend⟩ := Record.body_isPrefix hbody
  rw [hdata, Signature.rdata] at hrdata
  have hsigner := isPrefix_drop_of_append _ hrdata
  have hsignature := isPrefix_drop_of_append _ hsigner
  rw [Signature.length_fixed] at hsigner hsignature
  rw [List.length_append, length_encoding, List.length_singleton] at hsignature
  have hsig : readSigFields msg (mid + 10) = .ok (s.heard, mid + 28) :=
    readSigFields_of_fixed ((List.prefix_append _ _).trans hrdata)
  have hsName : Returns (fun fuel => recParse msg fuel (mid + 28) true)
      (dotted s.signer, mid + 28 + wireLength s.signer) :=
    recParse_nameAt (nameAt_encoding s.wellFormed ((List.prefix_append _ _).trans hsigner)) true
  have hlength := s.length_rdata
  have hrest : msg.drop (mid + 29 + wireLength s.signer)
      = s.signature ++ msg.drop (mid + rr.body.length) := by
    obtain ⟨rest, hrest⟩ := hsignature
    have hdrop := congrArg (List.drop s.signature.length) hrest
    rw [List.drop_left, List.drop_drop] at hdrop
    rw [show mid + 29 + wireLength s.signer = mid + 10 + 18 + (wireLength s.signer + 1) by omega,
      ← hrest, hdrop, rr.length_body, hdata, hlength]
    congr 2
    omega
  have hsubstr : substr msg (mid + 29 + wireLength s.signer)
      (signatureLength (rr.heard name).rdlength (dotted s.signer)) = .ok (s.taken rr msg mid) := by
    rw [substr, if_pos (by rw [hdata] at hend; omega), hrest]
    rfl
  refine ((returns_readFields hname hbody).bind (k := fun r fuel => readSigFields msg r.2 >>=
    fun q => recParse msg fuel q.2 true >>= fun n =>
      substr msg (n.2 + 1) (signatureLength r.1.rdlength n.1) >>= fun b =>
        .ok (Extracted.mk r.1 q.1 n.1 b, n.2 + 1)) ?_)
  simp only [hsig, ok_bind]
  refine hsName.bind (k := fun n _ => substr msg (n.2 + 1)
    (signatureLength (rr.heard name).rdlength n.1) >>= fun b =>
      .ok (Extracted.mk (rr.heard name) s.heard n.1 b, n.2 + 1)) (returns_of_forall fun _ => ?_)
  rw [show mid + 28 + wireLength s.signer + 1 = mid + 29 + wireLength s.signer by omega, hsubstr]
  rfl

/-- The root is the signer whose text has as many bytes as its labels, so one byte is missing. -/
theorem taken_eq_iff (hbody : rr.body <+: msg.drop mid) (hdata : rr.rdata = s.rdata)
    (hlen : rr.rdata.length < 2 ^ 16) :
    s.taken rr msg mid = s.signature
      ↔ s.signer ≠ [] ∧ rr.rdata.length < 2 ^ 15
        ∨ msg.length = mid + rr.body.length
          ∧ (s.signature = [] ∨ 2 ^ 15 ≤ rr.rdata.length ∧ 256 ∣ rr.rdata.length) := by
  obtain ⟨-, -, -, -, -, hend⟩ := Record.body_isPrefix hbody
  have hheard := toNat_heard (BitVec.ofNat 16 rr.rdata.length)
  rw [toNat_ofNat_of_lt hlen] at hheard
  have hlength : rr.rdata.length = 19 + wireLength s.signer + s.signature.length := by
    rw [hdata, s.length_rdata]
  have hends : msg.drop (mid + rr.body.length) = [] ↔ msg.length = mid + rr.body.length := by
    rw [List.drop_eq_nil_iff, rr.length_body]
    omega
  have hempty : s.signature = [] ↔ s.signature.length = 0 := List.length_eq_zero_iff.symm
  have hroot : s.signer ≠ [] ↔ 0 < wireLength s.signer := by
    rw [Ne, ← wireLength_eq_zero_iff, Nat.pos_iff_ne_zero]
  -- the text is shorter than the encoded labels by one byte, and by none for the root
  have htext : (dotted s.signer).length = wireLength s.signer - 1 := by
    by_cases hne : s.signer = []
    · rw [hne]
      rfl
    · have h := length_dotted hne
      omega
  obtain ⟨hfits, hwraps⟩ := signatureLength_eq
    (Resolver.heard (BitVec.ofNat 16 rr.rdata.length)) (show (dotted s.signer).length < 2 ^ 16 by
      omega)
  rw [Signature.taken, take_append_eq_iff, hends, hempty, hroot]
  by_cases hhigh : 2 ^ 15 ≤ rr.rdata.length
  · -- the low byte is one too small, and 255 instead of 0
    have hwrong : (Resolver.heard (BitVec.ofNat 16 rr.rdata.length)).toNat + 1 = rr.rdata.length
          ∧ ¬256 ∣ rr.rdata.length
        ∨ (Resolver.heard (BitVec.ofNat 16 rr.rdata.length)).toNat = rr.rdata.length + 255
          ∧ 256 ∣ rr.rdata.length := by
      rw [hheard, if_pos hhigh]
      omega
    clear hheard hends hroot
    omega
  · have hright : (Resolver.heard (BitVec.ofNat 16 rr.rdata.length)).toNat = rr.rdata.length := by
      rw [hheard, if_neg hhigh]
      omega
    clear hheard hends hroot
    omega

/-- **What `parseRRSIG` extracts.** Every field is right exactly when the type covered and the key
tag are below 2¹⁵, the signer is not the root and the record is shorter than 2¹⁵ bytes, or when what
is read too far for the signature is cut at the end of the message. -/
theorem extractRRSIG_reads_iff
    (hname : Returns (fun fuel => recParse msg fuel off true) (dotted rr.owner, mid))
    (hbody : rr.body <+: msg.drop mid) (hdata : rr.rdata = s.rdata)
    (hlen : rr.rdata.length < 2 ^ 16) :
    (∃ r, Returns (fun fuel => extractRRSIG fuel msg off) r ∧ s.Read r.1)
      ↔ (s.typeCovered.toNat < 2 ^ 15 ∧ s.keyTag.toNat < 2 ^ 15)
        ∧ (s.signer ≠ [] ∧ rr.rdata.length < 2 ^ 15
          ∨ msg.length = mid + rr.body.length
            ∧ (s.signature = [] ∨ 2 ^ 15 ≤ rr.rdata.length ∧ 256 ∣ rr.rdata.length)) := by
  have hreturns := returns_extractRRSIG hname hbody hdata
  rw [← heard_eq_fields_iff, ← taken_eq_iff hbody hdata hlen]
  constructor
  · rintro ⟨r, hr, hread⟩
    obtain rfl := hr.unique hreturns
    exact ⟨hread.sig, hread.signature⟩
  · rintro ⟨hsig, hsignature⟩
    exact ⟨_, hreturns, hsig, rfl, hsignature⟩

def ownSignature : Signature :=
  ⟨28, 8, 1, 60, 2, 1, 4711, [[97]], [1, 2], by decide⟩

def rootSignature : Signature :=
  ⟨28, 8, 1, 60, 2, 1, 4711, [], [1, 2, 3], by decide⟩

def signatureRecord (s : Signature) : Record := ⟨[[97]], 46, 1, 60, s.rdata⟩

/-- The name `a`, and a record that points to it. -/
def signedMessage (s : Signature) : Bytes := [1, 97, 0, 192, 0] ++ (signatureRecord s).body

theorem signedMessage_owner (s : Signature) :
    Returns (fun fuel => recParse (signedMessage s) fuel 3 true) ([97], 5) := by
  refine ⟨3, fun fuel hfuel => ?_⟩
  obtain ⟨fuel, rfl⟩ : ∃ n, fuel = n + 3 := ⟨fuel - 3, by omega⟩
  rfl

theorem extractRRSIG_reads_iff_sample :
    ∃ r, Returns (fun fuel => extractRRSIG fuel (signedMessage ownSignature) 3) r
      ∧ ownSignature.Read r.1 := by
  have hiff := @extractRRSIG_reads_iff _ 3 5 (signatureRecord ownSignature) ownSignature
    (signedMessage_owner ownSignature) (List.prefix_refl _) rfl (by decide)
  exact hiff.mpr ⟨by decide, .inl (by decide)⟩

/-- Of what the root has signed, the last byte is left out. -/
theorem not_extractRRSIG_reads :
    ¬∀ (msg : Bytes) (off mid : ℕ) (rr : Record) (s : Signature),
      Returns (fun fuel => recParse msg fuel off true) (dotted rr.owner, mid) →
        rr.body <+: msg.drop mid → rr.rdata = s.rdata → rr.rdata.length < 2 ^ 16 →
          ∃ r, Returns (fun fuel => extractRRSIG fuel msg off) r ∧ s.Read r.1 := by
  intro h
  obtain ⟨r, hr, hread⟩ := h _ 3 5 (signatureRecord rootSignature) rootSignature
    (signedMessage_owner rootSignature) (List.prefix_refl _) rfl (by decide)
  obtain rfl := hr.unique (returns_extractRRSIG (signedMessage_owner rootSignature)
    (List.prefix_refl (signatureRecord rootSignature).body) rfl)
  exact absurd hread.signature (by decide)

/-! ### The text of the signature -/

/-- What is documented of the iterators that write the text: six bits a character, and line breaks.
-/
def Library.WritesDigits (lib : Library) : Prop :=
  ∀ bytes, removeLinebreaks (lib.base64Text bytes) = unpadded bytes

variable {lib : Library}

theorem exists_words_eq (texts : List Bytes) (last : Bytes) :
    ∃ before, words (texts ++ [last]) = before ++ last := by
  induction texts with
  | nil => exact ⟨[], List.append_nil last⟩
  | cons text texts ih =>
      obtain ⟨before, hbefore⟩ := ih
      refine ⟨text ++ (ofString " " ++ before), ?_⟩
      have hcons : words (text :: (texts ++ [last]))
          = text ++ (ofString " " ++ words (texts ++ [last])) := by
        cases texts <;> simp [words, List.intercalate, List.intersperse]
      rw [List.cons_append, hcons, hbefore, List.append_assoc, List.append_assoc]

theorem exists_parseRRSIG_eq {fuel location next : ℕ} {records printed : Bytes}
    (h : parseRRSIG lib fuel records location = .ok (printed, next)) :
    ∃ x before, extractRRSIG fuel records location = .ok (x, next)
      ∧ printed = before ++ (signatureText lib x.signature ++ ofString "\n") := by
  rw [parseRRSIG_eq] at h
  obtain ⟨⟨x, location'⟩, hextract, hprint⟩ := bind_eq_ok.mp h
  cases hprint
  obtain ⟨before, hbefore⟩ :=
    exists_words_eq x.shown (signatureText lib x.signature ++ ofString "\n")
  exact ⟨x, before, hextract, hbefore⟩

theorem removeLinebreaks_signatureText (hlib : lib.WritesDigits) (signature : Bytes) :
    removeLinebreaks (signatureText lib signature) = unpadded signature ++ [pad] := by
  have hpad : (ofString "=").filter (fun c => decide (c ≠ 10)) = [pad] := by
    decide
  rw [signatureText, removeLinebreaks, List.filter_append, hpad, ← removeLinebreaks, hlib]

/-- **The text of a signature** is its encoding, and is decoded to it, exactly when the length is
two more than a multiple of three. -/
theorem signatureText_iff (hlib : lib.WritesDigits) :
    (∀ fuel records location printed next,
        parseRRSIG lib fuel records location = .ok (printed, next) →
        ∃ x before, extractRRSIG fuel records location = .ok (x, next)
          ∧ printed = before ++ (signatureText lib x.signature ++ ofString "\n"))
      ∧ ∀ signature : Bytes,
        removeLinebreaks (signatureText lib signature) = encode signature
            ∧ decode (removeLinebreaks (signatureText lib signature)) = some signature
          ↔ signature.length % 3 = 2 := by
  refine ⟨fun fuel records location printed next h => exists_parseRRSIG_eq h, fun signature => ?_⟩
  rw [removeLinebreaks_signatureText hlib]
  constructor
  · rintro ⟨-, hdecode⟩
    have hgroups := four_dvd_of_decode hdecode
    rw [List.length_append, length_unpadded, List.length_singleton] at hgroups
    omega
  · intro hlength
    have hencode : unpadded signature ++ [pad] = encode signature := by
      rw [encode_eq, hlength]
      rfl
    rw [hencode]
    exact ⟨rfl, decode_encode signature⟩

/-- The text in lines of 72 characters. -/
def lineLibrary : Library :=
  ⟨fun bytes => insertLinebreaks 72 72 (unpadded bytes), fun bytes => bytes⟩

theorem lineLibrary_writesDigits : lineLibrary.WritesDigits := fun bytes =>
  removeLinebreaks_insertLinebreaks 72 72 (unpadded_ne_newline bytes)

theorem signatureText_iff_lines :
    (∀ fuel records location printed next,
        parseRRSIG lineLibrary fuel records location = .ok (printed, next) →
        ∃ x before, extractRRSIG fuel records location = .ok (x, next)
          ∧ printed = before ++ (signatureText lineLibrary x.signature ++ ofString "\n"))
      ∧ ∀ signature : Bytes,
        removeLinebreaks (signatureText lineLibrary signature) = encode signature
            ∧ decode (removeLinebreaks (signatureText lineLibrary signature)) = some signature
          ↔ signature.length % 3 = 2 :=
  signatureText_iff lineLibrary_writesDigits

/-- Three bytes get a padding that they must not have. -/
theorem not_signatureText_eq_encode :
    ¬∀ lib : Library, lib.WritesDigits → ∀ signature : Bytes,
      removeLinebreaks (signatureText lib signature) = encode signature
        ∧ decode (removeLinebreaks (signatureText lib signature)) = some signature := by
  intro h
  have htext := (h lineLibrary lineLibrary_writesDigits [77, 97, 110]).1
  exact absurd htext (by decide)

end Networking.Resolver
