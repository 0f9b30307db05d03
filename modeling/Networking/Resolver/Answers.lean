import Networking.Resolver.Location
import Networking.Resolver.Referral

/-!
# What an answer reports

`successParse` does not look at the number of answers it is called with. It reads the first record
and takes what stands behind it for the signature of that record, so what it reports is the first
record if that holds sixteen bytes, and nothing otherwise. All other addresses of the answer are
lost.
-/

namespace Networking.Resolver

open Wire Fuel

variable {lib : Library} {msg : Bytes} {off qSize mid : ℕ} {rr first : Record}
  {rest answers authority additional : List Record}

def typeAAAA : BitVec 16 := 28

def typeCNAME : BitVec 16 := 5

def typeRRSIG : BitVec 16 := 46

/-! ### The reports -/

/-- An address as it is reported, with the name, the time to live and the class of its record. -/
structure Address where
  name : Bytes
  timeToLive : BitVec 32
  cls : BitVec 16
  text : Bytes

/-- Sixteen bytes as eight groups of hexadecimal digits. -/
def ipv6Text (address : Bytes) : Bytes :=
  (ofString ":").intercalate ((List.range 8).map fun i =>
    hexByte (byteAt address (2 * i)).toNat ++ hexByte (byteAt address (2 * i + 1)).toNat)

def Record.address (lib : Library) (rr : Record) : Address :=
  ⟨dotted rr.owner, rr.ttl, rr.cls, lib.inetText (ipv6Text rr.rdata)⟩

/-- The addresses in an answer section, in order. -/
def addresses (lib : Library) (answers : List Record) : List Address :=
  (answers.filter fun rr => rr.type = typeAAAA).map (Record.address lib)

/-- The vector `responses` of `successParse`, from a record, its data and the signature behind. -/
def responsesOf (lib : Library) (fields : Fields) (bytes rrsig : Bytes) : List DnsResponse :=
  let rdata := parseIP bytes (fields.rdlength.toNat = 16)
  let resp : DnsResponse :=
    ⟨fields.name, fields.ttl, fields.cls, fields.type, lib.inetText rdata, rrsig⟩
  if fields.rdlength.toNat = 16 then [resp] else []

/-- `successParse` up to where it prints. -/
def responses (lib : Library) (fuel : ℕ) (records : Bytes) (location : ℕ) :
    Except Fault (List DnsResponse) := do
  let (fields, location) ← readFields fuel records location
  let bytes ← substr records location fields.rdlength.toNat
  let (rrsig, _) ← parseRRSIG lib fuel records (location + fields.rdlength.toNat)
  return responsesOf lib fields bytes rrsig

/-- What `successParse` prints of its vector. -/
def printed (queryName : Bytes) (responses : List DnsResponse) : Bytes :=
  decimal responses.length ++ ofString " IPv6 Address Found For " ++ queryName
    ++ ofString ":\n\n" ++ responses.flatMap fun r =>
      words [r.name, decimal r.timeToLive.toNat, classTStrings r.cls.toNat,
        typeTStrings r.type.toNat, r.addr] ++ ofString "\n" ++ r.rrsig ++ ofString "\n"

theorem successParse_eq (lib : Library) (queryName : Bytes) (fuel : ℕ) (records : Bytes)
    (location : ℕ) (ancount : BitVec 16) :
    successParse lib queryName fuel records location ancount
      = responses lib fuel records location >>= fun list => .ok (printed queryName list) := by
  simp only [successParse, responses, bind_assoc]
  rfl

/-- The responses that `parse` has reported by `successParse`, if it calls that. -/
def reported (lib : Library) (fuel : ℕ) (response : Bytes) (qSize : ℕ) :
    Except Fault (Option (List DnsResponse)) := do
  match ← parse fuel response qSize with
  | .successParse records location _ => return some (← responses lib fuel records location)
  | _ => return none

def DnsResponse.address (r : DnsResponse) : Address := ⟨r.name, r.timeToLive, r.cls, r.addr⟩

/-- What is reported of the first record. -/
def reportOf (lib : Library) (rr : Record) : List Address :=
  if rr.rdata.length = 16 then
    [⟨dotted rr.owner, rr.ttl, heard rr.cls, lib.inetText (ipv6Text rr.rdata)⟩]
  else []

/-- What is reported of the first record is all the section has of addresses. -/
inductive AllInFirst (lib : Library) (first : Record) (rest : List Record) : Prop
  | none (hlen : first.rdata.length ≠ 16) (htype : first.type ≠ typeAAAA)
      (hrest : ∀ rr ∈ rest, rr.type ≠ typeAAAA)
  | first (hlen : first.rdata.length = 16) (htype : first.type = typeAAAA)
      (hcls : first.cls.toNat < 2 ^ 15) (hrest : ∀ rr ∈ rest, rr.type ≠ typeAAAA)
  -- sixteen bytes of another type, which read like the one address behind
  | alike {rr : Record} (hlen : first.rdata.length = 16) (htype : first.type ≠ typeAAAA)
      (hrest : (rest.filter fun rr => rr.type = typeAAAA) = [rr])
      (howner : dotted rr.owner = dotted first.owner) (httl : rr.ttl = first.ttl)
      (hcls : rr.cls = heard first.cls)
      (htext : lib.inetText (ipv6Text rr.rdata) = lib.inetText (ipv6Text first.rdata))

theorem addresses_eq_nil_iff : addresses lib rest = [] ↔ ∀ rr ∈ rest, rr.type ≠ typeAAAA := by
  simp [addresses, List.filter_eq_nil_iff]

theorem addresses_cons_of_eq (htype : first.type = typeAAAA) :
    addresses lib (first :: rest) = first.address lib :: addresses lib rest := by
  simp [addresses, htype]

theorem addresses_cons_of_ne (htype : first.type ≠ typeAAAA) :
    addresses lib (first :: rest) = addresses lib rest := by
  simp [addresses, htype]

theorem reportOf_of_sixteen (hlen : first.rdata.length = 16) :
    reportOf lib first = [{ first.address lib with cls := heard first.cls }] :=
  if_pos hlen

theorem reportOf_of_ne_sixteen (hlen : first.rdata.length ≠ 16) : reportOf lib first = [] :=
  if_neg hlen

/-- In terms of the records, when the report of the first is all there is. -/
theorem reportOf_eq_addresses_iff :
    reportOf lib first = addresses lib (first :: rest) ↔ AllInFirst lib first rest := by
  constructor
  · intro h
    by_cases hlen : first.rdata.length = 16 <;> by_cases htype : first.type = typeAAAA
    · rw [reportOf_of_sixteen hlen, addresses_cons_of_eq htype, List.cons.injEq] at h
      have hcls : heard first.cls = first.cls := congrArg Address.cls h.1
      exact .first hlen htype ((heard_eq_iff _).mp hcls) (addresses_eq_nil_iff.mp h.2.symm)
    · rw [reportOf_of_sixteen hlen, addresses_cons_of_ne htype] at h
      obtain ⟨rr, hrest, haddress⟩ := List.map_eq_singleton_iff.mp h.symm
      exact .alike hlen htype hrest (congrArg Address.name haddress)
        (congrArg Address.timeToLive haddress) (congrArg Address.cls haddress)
        (congrArg Address.text haddress)
    · rw [reportOf_of_ne_sixteen hlen, addresses_cons_of_eq htype] at h
      cases h
    · rw [reportOf_of_ne_sixteen hlen, addresses_cons_of_ne htype] at h
      exact .none hlen htype (addresses_eq_nil_iff.mp h.symm)
  · intro h
    cases h with
    | none hlen htype hrest =>
        rw [reportOf_of_ne_sixteen hlen, addresses_cons_of_ne htype,
          addresses_eq_nil_iff.mpr hrest]
    | first hlen htype hcls hrest =>
        rw [reportOf_of_sixteen hlen, addresses_cons_of_eq htype,
          addresses_eq_nil_iff.mpr hrest, (heard_eq_iff _).mpr hcls]
        rfl
    | @alike rr hlen htype hrest howner httl hcls htext =>
        rw [reportOf_of_sixteen hlen, addresses_cons_of_ne htype, addresses, hrest,
          List.map_singleton, Record.address, Record.address, howner, httl, hcls, htext]

/-! ### What stands behind the first record -/

/-- A name that `recParse` returns. -/
def NameReadable (msg : Bytes) (off : ℕ) : Prop := NameInside msg off ∧ ¬InCircle msg off

/-- A record that `parseRRSIG` can take for a signature. -/
def SignatureReadable (msg : Bytes) (off : ℕ) : Prop :=
  NameReadable msg off ∧ ∀ next, NameEnds msg off next →
    next + 27 ≤ msg.length ∧ NameReadable msg (next + 28)
      ∧ ∀ last, NameEnds msg (next + 28) last → last + 1 ≤ msg.length

theorem exists_returns_name_bind_iff {β : Type} {g : Bytes × ℕ → ℕ → Except Fault β}
    {P : ℕ → Prop} (hreads : ∀ name next, (∃ b, Returns (g (name, next)) b) ↔ P next) (msg : Bytes)
    (off : ℕ) :
    (∃ b, Returns (fun fuel => recParse msg fuel off true >>= fun r => g r fuel) b)
      ↔ NameReadable msg off ∧ ∀ next, NameEnds msg off next → P next := by
  rw [exists_returns_bind_iff (stable_recParse msg off true)]
  constructor
  · rintro ⟨⟨name, next⟩, hname, hrest⟩
    have hreadable := (exists_returns_recParse_iff msg off true).mp ⟨_, hname⟩
    refine ⟨hreadable, fun next' hends => ?_⟩
    obtain ⟨name', hname'⟩ := exists_returns_of_nameEnds hreadable.1 hends true
    cases hname.unique hname'
    exact (hreads name next).mp hrest
  · rintro ⟨hreadable, hrest⟩
    obtain ⟨⟨name, next⟩, hname⟩ := (exists_returns_recParse_iff msg off true).mpr hreadable
    obtain ⟨depth, hdepth⟩ := hname
    refine ⟨_, ⟨depth, hdepth⟩, (hreads name next).mpr (hrest next ?_)⟩
    exact nameEnds_of_recParse (hdepth depth le_rfl)

theorem exists_returns_parseRRSIG_iff (lib : Library) (msg : Bytes) (off : ℕ) :
    (∃ r, Returns (fun fuel => parseRRSIG lib fuel msg off) r) ↔ SignatureReadable msg off := by
  simp only [parseRRSIG, readFields_eq, bind_assoc]
  apply exists_returns_name_bind_iff
  intro name next
  obtain ⟨fields, -, hfields⟩ := guarded_fieldsBehind msg name next
  obtain ⟨sig, hsig⟩ := guarded_readSigFields msg (next + 10)
  rw [hfields.exists_returns_bind_iff, hsig.exists_returns_bind_iff, ← and_assoc]
  refine and_congr (by omega) (exists_returns_name_bind_iff (fun sName last => ?_) msg (next + 28))
  rw [(guarded_substr msg (last + 1) _).exists_returns_bind_iff]
  exact and_iff_left ⟨_, returns_of_forall fun _ => rfl⟩

/-! ### What is reported -/

theorem parseIP_eq_ipv6Text {address : Bytes} (hlen : address.length = 16) :
    parseIP address true = ipv6Text address := by
  match address, hlen with
  | [_, _, _, _, _, _, _, _, _, _, _, _, _, _, _, _], _ =>
      simp [parseIP, ipv6Text, byteAt, List.range_succ, List.intercalate, List.intersperse,
        List.zipIdx]

/-- A length is read as sixteen only if it is sixteen. -/
theorem heard_length_iff {n : ℕ} (hn : n < 2 ^ 16) :
    (heard (BitVec.ofNat 16 n)).toNat = 16 ↔ n = 16 := by
  rw [toNat_heard, toNat_ofNat_of_lt hn]
  split_ifs <;> omega

theorem map_address_responsesOf (hlen : rr.rdata.length < 2 ^ 16)
    (hdata : rr.rdata <+: msg.drop off) (rrsig : Bytes) :
    (responsesOf lib (rr.heard (dotted rr.owner)) ((msg.drop off).take
        (heard (BitVec.ofNat 16 rr.rdata.length)).toNat) rrsig).map DnsResponse.address
      = reportOf lib rr := by
  simp only [responsesOf, Record.heard, reportOf, heard_length_iff hlen]
  by_cases hsixteen : rr.rdata.length = 16
  · have htake := take_of_isPrefix hdata
    rw [hsixteen] at htake
    rw [if_pos hsixteen, if_pos hsixteen, (heard_length_iff hlen).mpr hsixteen, htake,
      decide_eq_true hsixteen, parseIP_eq_ipv6Text hsixteen]
    rfl
  · rw [if_neg hsixteen, if_neg hsixteen, List.map_nil]

/-- The first record is read, the signature behind it is looked for, and that is all. -/
theorem exists_returns_responses_iff
    (hname : Returns (fun fuel => recParse msg fuel off true) (dotted rr.owner, mid))
    (hlen : rr.rdata.length < 2 ^ 16) (hbody : rr.body <+: msg.drop mid) (list : List Address) :
    (∃ l, Returns (fun fuel => responses lib fuel msg off) l ∧ l.map DnsResponse.address = list)
      ↔ SignatureReadable msg
          (mid + 10 + (heard (BitVec.ofNat 16 rr.rdata.length)).toNat)
        ∧ reportOf lib rr = list := by
  obtain ⟨-, -, -, -, hdata, hend⟩ := Record.body_isPrefix hbody
  have hfields : Returns (fun fuel => readFields fuel msg off)
      (rr.heard (dotted rr.owner), mid + 10) := returns_readFields hname hbody
  have hsubstr := (guarded_substr msg (mid + 10)
    (heard (BitVec.ofNat 16 rr.rdata.length)).toNat).ok (by omega)
  have hrest : ∀ l, Returns (fun fuel => responses lib fuel msg off) l
      ↔ Returns (fun fuel => parseRRSIG lib fuel msg
        (mid + 10 + (heard (BitVec.ofNat 16 rr.rdata.length)).toNat) >>= fun r =>
          .ok (responsesOf lib (rr.heard (dotted rr.owner)) ((msg.drop (mid + 10)).take
            (heard (BitVec.ofNat 16 rr.rdata.length)).toNat) r.1)) l := by
    intro l
    refine (hfields.bind_iff (k := fun r fuel => substr msg r.2 r.1.rdlength.toNat >>= fun bytes =>
      parseRRSIG lib fuel msg (r.2 + r.1.rdlength.toNat) >>= fun s =>
        .ok (responsesOf lib r.1 bytes s.1))).trans ?_
    simp only [Record.heard, hsubstr, ok_bind]
  have hstable := stable_parseRRSIG lib msg
    (mid + 10 + (heard (BitVec.ofNat 16 rr.rdata.length)).toNat)
  simp only [hrest, ← exists_returns_parseRRSIG_iff lib]
  constructor
  · rintro ⟨l, ⟨depth, hdepth⟩, rfl⟩
    obtain ⟨r, hr, heq⟩ := bind_eq_ok.mp (hdepth depth le_rfl)
    cases heq
    exact ⟨⟨r, hstable.returns hr⟩, (map_address_responsesOf hlen hdata r.1).symm⟩
  · rintro ⟨⟨r, hr⟩, rfl⟩
    exact ⟨_, hr.map _, map_address_responsesOf hlen hdata r.1⟩

/-! ### From the header to the report -/

theorem signExtend_eq_zero_iff (n : ℕ) : (BitVec.ofNat 8 n).signExtend 16 = 0 ↔ n % 256 = 0 := by
  have hbyte : ∀ c : Byte, c.signExtend 16 = 0 ↔ c.toNat = 0 := by decide
  rw [hbyte, BitVec.toNat_ofNat]

/-- An authoritative response without error is handed to `successParse` unless the low byte of its
number of answers is zero. -/
theorem parse_authoritative
    (hresponse : Response msg qSize true answers authority additional) (fuel : ℕ) :
    parse fuel msg qSize = if answers.length % 256 ≠ 0 then
        .ok (.successParse msg qSize ((BitVec.ofNat 8 answers.length).signExtend 16))
      else nextParse fuel msg qSize ((BitVec.ofNat 8 answers.length).signExtend 16)
        ((BitVec.ofNat 8 authority.length).signExtend 16)
        ((BitVec.ofNat 8 additional.length).signExtend 16) >>= fun list => .ok (.servers list) := by
  obtain ⟨questions, -, hheader, -⟩ := hresponse.header
  obtain ⟨f, g, hf, hg, haa, hrcode, han, hns, har⟩ := hheader.chars
  rw [parse, hf, hg, han, hns, har]
  simp only [ok_bind, haa, hrcode, Bool.true_and, decide_eq_true_eq, ne_eq,
    signExtend_eq_zero_iff]
  split_ifs <;> rfl

theorem exists_returns_reported_iff
    (hresponse : Response msg qSize true answers authority additional) (lib : Library)
    (P : List DnsResponse → Prop) :
    (∃ l, Returns (fun fuel => reported lib fuel msg qSize) (some l) ∧ P l)
      ↔ answers.length % 256 ≠ 0
        ∧ ∃ l, Returns (fun fuel => responses lib fuel msg qSize) l ∧ P l := by
  by_cases hcount : answers.length % 256 ≠ 0
  · rw [and_iff_right hcount]
    refine exists_congr fun l => and_congr_left fun _ => exists_congr fun depth =>
      forall₂_congr fun fuel _ => ?_
    dsimp only
    rw [reported, parse_authoritative hresponse, if_pos hcount, ok_bind]
    constructor
    · intro h
      obtain ⟨l', hl', h⟩ := bind_eq_ok.mp h
      cases h
      exact hl'
    · intro h
      exact bind_eq_ok.mpr ⟨l, h, rfl⟩
  · refine iff_of_false ?_ fun h => hcount h.1
    rintro ⟨l, ⟨depth, hdepth⟩, -⟩
    have hrun : reported lib depth msg qSize = .ok (some l) := hdepth depth le_rfl
    rw [reported, parse_authoritative hresponse, if_neg hcount] at hrun
    obtain ⟨r, hr, hrun⟩ := bind_eq_ok.mp hrun
    obtain ⟨servers, -, hr⟩ := bind_eq_ok.mp hr
    cases hr
    cases hrun

/-- The records stand one behind the other, and of each `recParse` reads the owner name right. -/
inductive OwnersRead (msg : Bytes) : ℕ → List Record → Prop
  | nil {off : ℕ} : OwnersRead msg off []
  | cons {off mid : ℕ} {rr : Record} {rest : List Record} {ending : Ending}
      (hname : NameAt (fun _ => True) msg off rr.owner mid ending)
      (hreads : Returns (fun fuel => recParse msg fuel off true) (dotted rr.owner, mid))
      (hlen : rr.rdata.length < 2 ^ 16) (hbody : rr.body <+: msg.drop mid)
      (hrest : OwnersRead msg (mid + 10 + rr.rdata.length) rest) : OwnersRead msg off (rr :: rest)

/-- What stands behind the record at `off`, by its length as it is read, can be taken for its
signature. -/
def SignatureBehind (msg : Bytes) (off : ℕ) (rr : Record) : Prop :=
  ∀ mid, NameEnds msg off mid →
    SignatureReadable msg (mid + 10 + (heard (BitVec.ofNat 16 rr.rdata.length)).toNat)

theorem exists_returns_first_iff (hread : OwnersRead msg qSize (first :: rest))
    (list : List Address) :
    (∃ l, Returns (fun fuel => responses lib fuel msg qSize) l ∧ l.map DnsResponse.address = list)
      ↔ SignatureBehind msg qSize first ∧ reportOf lib first = list := by
  cases hread with
  | @cons _ mid _ _ _ _ hreads hlen hbody _ =>
      rw [exists_returns_responses_iff hreads hlen hbody]
      refine and_congr_left fun _ => ⟨fun h mid' hends => ?_, fun h => h mid ?_⟩
      · have hreadable := (exists_returns_recParse_iff msg qSize true).mp ⟨_, hreads⟩
        obtain ⟨name, hname⟩ := exists_returns_of_nameEnds hreadable.1 hends true
        cases hreads.unique hname
        exact h
      · obtain ⟨depth, hdepth⟩ := hreads
        exact nameEnds_of_recParse (hdepth depth le_rfl)

/-- **What an answer reports.** On an authoritative response whose answers have owner names that
`recParse` reads right, the addresses of the answer section are reported exactly when the low byte
of their number is not zero, something that can be taken for a signature stands behind the first
record, and either the first record is the only address, with sixteen bytes and a class below
`2 ^ 15`, or there is no address and the first record has not sixteen bytes (or it has, is none, and
reads like the only one). -/
theorem successParse_reports_iff (lib : Library)
    (hresponse : Response msg qSize true (first :: rest) authority additional)
    (hread : OwnersRead msg qSize (first :: rest)) :
    (∃ list, Returns (fun fuel => reported lib fuel msg qSize) (some list)
        ∧ list.map DnsResponse.address = addresses lib (first :: rest))
      ↔ (first :: rest).length % 256 ≠ 0 ∧ SignatureBehind msg qSize first
        ∧ AllInFirst lib first rest := by
  rw [exists_returns_reported_iff hresponse, exists_returns_first_iff hread,
    reportOf_eq_addresses_iff]

/-! ### Answers about one name

The question is for `a`, and the owner name of each answer is a pointer to it. -/

def pointedRecords (rrs : List Record) : Bytes := rrs.flatMap fun rr => [192, 12] ++ rr.body

def answerWith (rrs : List Record) : Bytes :=
  [0, 0, 132, 0] ++ ([0, 1] ++ (bigEndian 2 (BitVec.ofNat 16 rrs.length) ++ ([0, 0, 0, 0]
    ++ ([1, 97] ++ ([0] ++ ([0, 28, 0, 1] ++ (pointedRecords rrs ++ [])))))))

variable {rrs : List Record}

theorem answerWith_isPrefix (rrs : List Record) :
    [1, 97] <+: (answerWith rrs).drop 12 ∧ [0] <+: (answerWith rrs).drop 14
      ∧ pointedRecords rrs <+: (answerWith rrs).drop 19 := by
  have hall : answerWith rrs <+: (answerWith rrs).drop 0 := List.prefix_refl _
  have hlabel := isPrefix_drop_of_append _ (isPrefix_drop_of_append _ (isPrefix_drop_of_append _
    (isPrefix_drop_of_append _ hall)))
  have hzero := isPrefix_drop_of_append _ hlabel
  have hrecords := isPrefix_drop_of_append _ (isPrefix_drop_of_append _ hzero)
  exact ⟨(List.prefix_append _ _).trans hlabel, (List.prefix_append _ _).trans hzero,
    (List.prefix_append _ _).trans hrecords⟩

theorem length_answerWith (rrs : List Record) :
    (answerWith rrs).length = 19 + (pointedRecords rrs).length := by
  simp only [answerWith, List.length_append, length_bigEndian, List.length_cons, List.length_nil]
  omega

theorem answerWith_nameAt (follow : ℕ → Prop) (rrs : List Record) :
    NameAt follow (answerWith rrs) 12 [[97]] 15 .zero := by
  obtain ⟨hlabel, hzero, -⟩ := answerWith_isPrefix rrs
  exact .label (by decide) (by decide) hlabel (.root hzero)

theorem pointedRecords_at (hname : ∀ follow, NameAt follow msg 12 [[97]] 15 .zero) (hoff : 12 < off)
    (howner : ∀ rr ∈ rrs, rr.owner = [[97]]) (hlen : ∀ rr ∈ rrs, rr.rdata.length < 2 ^ 16)
    (hbytes : pointedRecords rrs <+: msg.drop off) :
    RecordsAt (fun _ => True) (fun _ => True) msg off rrs (off + (pointedRecords rrs).length)
      ∧ OwnersRead msg off rrs := by
  induction rrs generalizing off with
  | nil => exact ⟨.nil, .nil⟩
  | cons rr rest ih =>
      rw [List.forall_mem_cons] at howner hlen
      have hsplit : pointedRecords (rr :: rest)
          = [192, 12] ++ (rr.body ++ pointedRecords rest) := by
        rw [pointedRecords, List.flatMap_cons, List.append_assoc]
        rfl
      rw [hsplit] at hbytes
      have hpointer : bigEndian 2 (BitVec.ofNat 16 (0xC000 + 12)) <+: msg.drop off := by
        rw [show bigEndian 2 (BitVec.ofNat 16 (0xC000 + 12)) = [192, 12] by decide]
        exact (List.prefix_append _ _).trans hbytes
      have hbehind := isPrefix_drop_of_append _ hbytes
      have hbody := (List.prefix_append _ _).trans hbehind
      have hrest := isPrefix_drop_of_append _ hbehind
      have hpointed : ∀ follow : ℕ → Prop, follow 12 →
          NameAt follow msg off rr.owner (off + 2) .pointer := by
        intro follow hfollow
        rw [howner.1]
        exact .pointer hpointer (by decide) hoff hfollow (hname follow)
      have hnear : Near 12 := (by decide : 12 < 64)
      have hnext : off + [(192 : Byte), 12].length + rr.body.length
          = off + 2 + 10 + rr.rdata.length := by
        rw [Record.length_body]
        change off + 2 + (10 + rr.rdata.length) = _
        omega
      rw [hnext] at hrest
      obtain ⟨hrecords, howners⟩ := ih (by omega) howner.2 hlen.2 hrest
      have hend : off + 2 + 10 + rr.rdata.length + (pointedRecords rest).length
          = off + (pointedRecords (rr :: rest)).length := by
        rw [hsplit, List.length_append, List.length_append, Record.length_body]
        change _ = off + (2 + (10 + rr.rdata.length + (pointedRecords rest).length))
        omega
      rw [hend] at hrecords
      have hanywhere := hpointed (fun _ => True) trivial
      exact ⟨.cons (.mk hanywhere hlen.1 hbody) trivial hrecords, .cons hanywhere
        (recParse_nameAt (hpointed Near hnear) true) hlen.1 hbody howners⟩

theorem answerWith_response (howner : ∀ rr ∈ rrs, rr.owner = [[97]])
    (hlen : ∀ rr ∈ rrs, rr.rdata.length < 2 ^ 16) (hcount : rrs.length < 2 ^ 16) :
    Response (answerWith rrs) 19 true rrs [] [] ∧ OwnersRead (answerWith rrs) 19 rrs := by
  obtain ⟨-, -, hbytes⟩ := answerWith_isPrefix rrs
  obtain ⟨hrecords, howners⟩ := pointedRecords_at (fun follow => answerWith_nameAt follow rrs)
    (by decide) howner hlen hbytes
  rw [← length_answerWith] at hrecords
  have hcounts : CountsAt (answerWith rrs) 1 rrs.length 0 0 := by
    have hzeros : bigEndian 2 (BitVec.ofNat 16 0) ++ bigEndian 2 (BitVec.ofNat 16 0)
        = [0, 0, 0, 0] := by decide
    have hone : bigEndian 2 (BitVec.ofNat 16 1) = [0, 1] := by decide
    rw [CountsAt, hzeros, hone]
    refine ⟨[1, 97] ++ ([0] ++ ([0, 28, 0, 1] ++ (pointedRecords rrs ++ []))), ?_⟩
    simp only [List.append_assoc]
    rfl
  have hquestion : 15 + 4 ≤ (answerWith rrs).length := by
    rw [length_answerWith]
    omega
  refine ⟨⟨⟨1, by decide, ⟨⟨132, 0, List.prefix_append [132, 0] _, by decide, by decide,
    by decide⟩, hcounts⟩, .cons (answerWith_nameAt _ rrs) hquestion .nil⟩,
    ⟨hcount, by decide, by decide⟩, ⟨_, _, hrecords, .nil, .nil⟩, by simp⟩, howners⟩

/-- An address, its signature by `a`, and another address. -/
def sampleAnswers : List Record :=
  [⟨[[97]], typeAAAA, 1, 60, [32, 1, 13, 184, 0, 0, 0, 0, 0, 0, 0, 0, 0, 0, 0, 1]⟩,
    ⟨[[97]], typeRRSIG, 1, 60,
      [0, 28, 5, 1, 0, 0, 0, 60, 80, 0, 0, 0, 79, 0, 0, 0, 0, 7, 1, 97, 0, 9, 9]⟩,
    ⟨[[97]], typeAAAA, 1, 60, [32, 1, 13, 184, 0, 0, 0, 0, 0, 0, 0, 0, 0, 0, 0, 2]⟩]

theorem sampleAnswers_response :
    Response (answerWith sampleAnswers) 19 true sampleAnswers [] []
      ∧ OwnersRead (answerWith sampleAnswers) 19 sampleAnswers :=
  answerWith_response (by decide) (by decide) (by decide)

/-- Behind the first record there is another address. -/
theorem successParse_reports_iff_sample :
    ¬∃ list, Returns (fun fuel => reported ⟨id, id⟩ fuel (answerWith sampleAnswers) 19) (some list)
      ∧ list.map DnsResponse.address = addresses ⟨id, id⟩ sampleAnswers := by
  intro h
  obtain ⟨-, -, hfirst⟩ := (successParse_reports_iff ⟨id, id⟩ sampleAnswers_response.1
    sampleAnswers_response.2).mp h
  cases hfirst with
  | none hlen => exact hlen rfl
  | first _ _ _ hrest => exact hrest _ (.tail _ (.head _)) rfl
  | alike _ htype => exact htype rfl

/-- Of two addresses, one is reported. -/
theorem not_successParse_reports :
    ¬∀ (lib : Library) (msg : Bytes) (qSize : ℕ) (answers authority additional : List Record),
      answers ≠ [] →
      (∀ rr ∈ answers, rr.type = typeAAAA ∧ rr.rdata.length = 16 ∨ rr.type = typeCNAME
        ∨ rr.type = typeRRSIG) →
      Response msg qSize true answers authority additional → OwnersRead msg qSize answers →
      ∃ list, Returns (fun fuel => reported lib fuel msg qSize) (some list)
        ∧ list.map DnsResponse.address = addresses lib answers := by
  intro h
  obtain ⟨hresponse, hread⟩ := sampleAnswers_response
  have hall := h ⟨id, id⟩ _ _ _ _ _ (by decide) (by decide) hresponse hread
  rw [exists_returns_reported_iff hresponse, exists_returns_first_iff hread] at hall
  have hlen := congrArg List.length hall.2.2
  revert hlen
  decide

end Networking.Resolver
