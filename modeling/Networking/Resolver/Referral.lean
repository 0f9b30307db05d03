import Networking.Resolver.Names

/-!
# What a referral parses to

`parse` walks over the answer and authority sections and makes a server of each additional record
whose data is four bytes long. It stays in step with the records as long as the names end in
pointers, the pointers lead to names, and no count or length has its high bit set. Then, where the
pointers of the additional records are near, the servers are the referred ones exactly when the
four-byte records are the address records. An address record whose name ends in a zero byte is
lost.
-/

namespace Networking.Resolver

open Wire Fuel

section Records

variable {msg : Bytes} {off next : ℕ} {rr : Record}

theorem readFields_body {text : Bytes} {mid : ℕ}
    (hname : Returns (fun fuel => recParse msg fuel off true) (text, mid))
    (hbody : rr.body <+: msg.drop mid) (hlen : rr.rdata.length < 2 ^ 15) :
    rr.rdata <+: msg.drop (mid + 10) ∧ mid + 10 ≤ msg.length ∧ ∃ type cls ttl,
      Returns (fun fuel => readFields fuel msg off)
        (⟨text, type, cls, ttl, BitVec.ofNat 16 rr.rdata.length⟩, mid + 10) := by
  obtain ⟨htypeAt, hclsAt, httlAt, hrdlengthAt, hdata, hend⟩ := Record.body_isPrefix hbody
  obtain ⟨type, htype⟩ := atoi16_isOk htypeAt
  obtain ⟨cls, hcls⟩ := atoi16_isOk hclsAt
  obtain ⟨ttl, httl⟩ := atoi32_isOk httlAt
  have hrdlength := atoi16_of_small (by rw [BitVec.toNat_ofNat]; omega) hrdlengthAt
  refine ⟨hdata, by omega, type, cls, ttl, ?_⟩
  obtain ⟨depth, hdepth⟩ := hname
  refine ⟨depth, fun fuel hfuel => ?_⟩
  have hparsed : recParse msg fuel off true = .ok (text, mid) := hdepth fuel hfuel
  change readFields fuel msg off = _
  rw [readFields, hparsed]
  simp only [htype, hcls, httl, hrdlength, ok_bind]
  rfl

theorem readFields_recordAt (hrecord : RecordAt Near msg off rr .pointer next)
    (hlen : rr.rdata.length < 2 ^ 15) :
    ∃ data type cls ttl, next = data + rr.rdata.length ∧ rr.rdata <+: msg.drop data
      ∧ data ≤ msg.length
      ∧ Returns (fun fuel => readFields fuel msg off)
          (⟨dotted rr.owner, type, cls, ttl, BitVec.ofNat 16 rr.rdata.length⟩, data) := by
  obtain ⟨hname, -, hbody⟩ := hrecord
  obtain ⟨hdata, hle, type, cls, ttl, hfields⟩ :=
    readFields_body (recParse_nameAt hname true) hbody hlen
  exact ⟨_, type, cls, ttl, rfl, hdata, hle, hfields⟩

variable {rrs : List Record}

theorem skipRecords_recordsAt (hrecords : RecordsAt (Landing msg) (· = .pointer) msg off rrs next)
    (hlen : ∀ rr ∈ rrs, rr.rdata.length < 2 ^ 15) :
    Returns (fun fuel => skipRecords fuel msg rrs.length off) next := by
  induction hrecords with
  | nil => exact returns_of_forall fun _ => rfl
  | @cons off mid next rr rest ending hrecord hends _ ih =>
      subst hends
      obtain ⟨hname, -, hbody⟩ := hrecord
      have hrr := hlen rr List.mem_cons_self
      obtain ⟨text, hparse⟩ := recParse_landing hname true
      obtain ⟨-, -, type, cls, ttl, hfields⟩ := readFields_body hparse hbody hrr
      have hrest := ih fun r hr => hlen r (List.mem_cons_of_mem rr hr)
      have htoNat : (BitVec.ofNat 16 rr.rdata.length).toNat = rr.rdata.length :=
        toNat_ofNat_of_lt (by omega)
      refine (hfields.bind (k := fun r fuel => skipRecords fuel msg rest.length
        (r.2 + r.1.rdlength.toNat)) ?_).congr fun fuel => rfl
      simpa only [htoNat, leftAt] using hrest

/-- The servers `nextParse` makes of the additional records. -/
def fourByteServers (rrs : List Record) : List Server :=
  (rrs.filter fun rr => rr.rdata.length = 4).map fun rr => ⟨parseIP rr.rdata false, dotted rr.owner⟩

theorem fourByteServers_cons (rr : Record) (rest : List Record) :
    fourByteServers (rr :: rest) = (if rr.rdata.length = 4 then
      [⟨parseIP rr.rdata false, dotted rr.owner⟩] else []) ++ fourByteServers rest := by
  simp only [fourByteServers, List.filter_cons, decide_eq_true_eq]
  split_ifs <;> rfl

theorem addRecords_recordAt (hrecord : RecordAt Near msg off rr .pointer next)
    (hlen : rr.rdata.length < 2 ^ 15) :
    ∃ depth, ∀ fuel, depth ≤ fuel → ∀ count newList,
      addRecords fuel msg (count + 1) off newList
        = addRecords fuel msg count next (if rr.rdata.length = 4 then
            newList ++ [⟨parseIP rr.rdata false, dotted rr.owner⟩] else newList) := by
  obtain ⟨data, type, cls, ttl, rfl, hdata, hle, depth, hfields⟩ := readFields_recordAt hrecord hlen
  refine ⟨depth, fun fuel hfuel count newList => ?_⟩
  have hread : readFields fuel msg off = .ok (⟨dotted rr.owner, type, cls, ttl,
      BitVec.ofNat 16 rr.rdata.length⟩, data) := hfields fuel hfuel
  have htoNat : (BitVec.ofNat 16 rr.rdata.length).toNat = rr.rdata.length :=
    toNat_ofNat_of_lt (by omega)
  rw [addRecords, hread, ok_bind]
  simp only [htoNat, substr_of_isPrefix hdata hle, ok_bind]
  split_ifs with hfour
  · simp [hfour]
  · rfl

theorem addRecords_recordsAt (hrecords : RecordsAt Near (· = .pointer) msg off rrs next)
    (hlen : ∀ rr ∈ rrs, rr.rdata.length < 2 ^ 15) (newList : List Server) :
    Returns (fun fuel => addRecords fuel msg rrs.length off newList)
      (newList ++ fourByteServers rrs) := by
  induction hrecords generalizing newList with
  | nil => exact returns_of_forall fun _ => by simp [addRecords, fourByteServers]
  | @cons off mid next rr rest ending hrecord hends _ ih =>
      subst hends
      obtain ⟨n, hn⟩ := addRecords_recordAt hrecord (hlen rr List.mem_cons_self)
      obtain ⟨m, hm⟩ := ih (fun r hr => hlen r (.tail rr hr)) (if rr.rdata.length = 4 then
        newList ++ [⟨parseIP rr.rdata false, dotted rr.owner⟩] else newList)
      refine ⟨max n m, fun fuel hfuel => ?_⟩
      have hround := hn fuel (le_trans (le_max_left n m) hfuel) rest.length newList
      have hrest := hm fuel (le_trans (le_max_right n m) hfuel)
      refine (hround.trans hrest).trans ?_
      rw [fourByteServers_cons]
      split_ifs <;> simp

/-! ### A name that ends in a zero byte -/

theorem atoi16_location {value : BitVec 16} {loc : ℕ} (h : atoi16 msg off = .ok (value, loc)) :
    loc = off + 2 := by
  obtain ⟨c, -, h⟩ := bind_eq_ok.mp h
  obtain ⟨d, -, h⟩ := bind_eq_ok.mp h
  cases h
  rfl

theorem atoi32_location {value : BitVec 32} {loc : ℕ} (h : atoi32 msg off = .ok (value, loc)) :
    loc = off + 4 := by
  rw [atoi32] at h
  split_ifs at h
  cases h
  rfl

theorem ttl_length_isPrefix {mid : ℕ} (hbody : rr.body <+: msg.drop mid)
    (hlen : rr.rdata.length = 4) :
    [rr.ttl.extractLsb' 0 8, 0] <+: msg.drop (mid + 7) := by
  have httl : bigEndian 4 rr.ttl = [rr.ttl.extractLsb' 24 8, rr.ttl.extractLsb' 16 8,
      rr.ttl.extractLsb' 8 8, rr.ttl.extractLsb' 0 8] := rfl
  have hrdlength : bigEndian 2 (BitVec.ofNat 16 4) = [0, 4] := rfl
  rw [Record.body, hlen, httl, hrdlength] at hbody
  have hcls := isPrefix_drop_of_append _ hbody
  have hrest := isPrefix_drop_of_append _ hcls
  simp only [length_bigEndian] at hrest
  have hlow := isPrefix_drop_of_append [rr.ttl.extractLsb' 24 8, rr.ttl.extractLsb' 16 8,
    rr.ttl.extractLsb' 8 8] hrest
  exact (List.prefix_append [rr.ttl.extractLsb' 0 8, 0] (4 :: rr.rdata)).trans hlow

/-- **A zero byte hides the length.** Behind a name that ends in its own zero byte, everything is
read one byte early, and a length of four is never read as four. -/
theorem readFields_zeroEnded (hrecord : RecordAt Near msg off rr .zero next)
    (hlen : rr.rdata.length = 4) :
    ∃ depth, ∀ fuel, depth ≤ fuel → ∀ r, readFields fuel msg off = .ok r →
      r.1.rdlength.toNat ≠ 4 := by
  obtain ⟨hname, -, hbody⟩ := hrecord
  rename_i mid
  obtain ⟨depth, hdepth⟩ := recParse_nameAt hname true
  refine ⟨depth, fun fuel hfuel r hread => ?_⟩
  have hparsed : recParse msg fuel off true = .ok (dotted rr.owner, mid - 1) := hdepth fuel hfuel
  have hmid := hname.lt
  rw [readFields, hparsed, ok_bind] at hread
  obtain ⟨⟨type, loc₁⟩, htype, hread⟩ := bind_eq_ok.mp hread
  obtain ⟨⟨cls, loc₂⟩, hcls, hread⟩ := bind_eq_ok.mp hread
  obtain ⟨⟨ttl, loc₃⟩, httl, hread⟩ := bind_eq_ok.mp hread
  obtain ⟨⟨rdlength, loc₄⟩, hrdlength, hread⟩ := bind_eq_ok.mp hread
  cases hread
  have hloc₁ := atoi16_location htype
  have hloc₂ := atoi16_location hcls
  have hloc₃ := atoi32_location httl
  have hloc : loc₃ = mid + 7 := by omega
  rw [hloc, atoi16_of_isPrefix (ttl_length_isPrefix hbody hlen)] at hrdlength
  cases hrdlength
  rw [toNat_value16, BitVec.ofNat_eq_ofNat, BitVec.toNat_ofNat]
  split_ifs <;> omega

theorem length_addRecords_le {fuel count : ℕ} {newList list : List Server}
    (h : addRecords fuel msg count off newList = .ok list) :
    list.length ≤ newList.length + count := by
  induction count generalizing off newList with
  | zero =>
      cases h
      exact le_rfl
  | succ count ih =>
      obtain ⟨⟨fields, loc⟩, -, h⟩ := bind_eq_ok.mp h
      obtain ⟨bytes, -, h⟩ := bind_eq_ok.mp h
      have hle := ih h
      split_ifs at hle
      · rw [List.length_append, List.length_singleton] at hle
        omega
      · omega

/-- A server for every record of four bytes is made only when all the names end in pointers. -/
theorem pointers_of_addRecords (hrecords : RecordsAt Near (fun _ => True) msg off rrs next)
    (hlen : ∀ rr ∈ rrs, rr.rdata.length = 4) (newList list : List Server)
    (hreturns : Returns (fun fuel => addRecords fuel msg rrs.length off newList) list)
    (hall : list.length = newList.length + rrs.length) :
    RecordsAt Near (· = .pointer) msg off rrs next := by
  induction hrecords generalizing newList with
  | nil => exact .nil
  | @cons off mid next rr rest ending hrecord _ _ ih =>
      have hrr := hlen rr List.mem_cons_self
      obtain ⟨n, hn⟩ := hreturns
      cases ending with
      | zero =>
          -- this record yields no server, and each of those behind it at most one
          exfalso
          obtain ⟨m, hm⟩ := readFields_zeroEnded hrecord hrr
          have hrun : addRecords (max n m) msg (rest.length + 1) off newList = .ok list :=
            hn _ (le_max_left n m)
          obtain ⟨⟨fields, loc⟩, hread, hrun⟩ := bind_eq_ok.mp hrun
          obtain ⟨bytes, -, hrun⟩ := bind_eq_ok.mp hrun
          have hfour : fields.rdlength.toNat ≠ 4 := hm _ (le_max_right n m) _ hread
          have hle := length_addRecords_le hrun
          rw [if_neg hfour] at hle
          rw [List.length_cons] at hall
          omega
      | pointer =>
          obtain ⟨m, hm⟩ := addRecords_recordAt hrecord (by omega)
          refine .cons hrecord rfl (ih (fun r hr => hlen r (.tail rr hr))
            (newList ++ [⟨parseIP rr.rdata false, dotted rr.owner⟩]) ?_ ?_)
          · refine ⟨max n m, fun fuel hfuel => ?_⟩
            have hround := hm fuel (le_trans (le_max_right n m) hfuel) rest.length newList
            rw [if_pos hrr] at hround
            exact hround.symm.trans (hn fuel (le_trans (le_max_left n m) hfuel))
          · rw [hall, List.length_append, List.length_singleton, List.length_cons]
            omega

end Records

/-! ### The whole response -/

/-- The responses that keep `parse` in step up to the additional records, which start at `start`:
small counts, names that end in a pointer and whose pointers lead somewhere, and no data of 32768
bytes or more. The text of these names is not used. -/
structure InStep (msg : Bytes) (qSize : ℕ) (answers authority additional : List Record)
    (start : ℕ) : Prop where
  counts : answers.length < 128 ∧ authority.length < 128 ∧ additional.length < 128
  sections : ∃ mid, RecordsAt (Landing msg) (· = .pointer) msg qSize answers mid
    ∧ RecordsAt (Landing msg) (· = .pointer) msg mid authority start
  data : ∀ rr ∈ answers ++ authority ++ additional, rr.rdata.length < 2 ^ 15

section Response

variable {msg : Bytes} {qSize start next : ℕ} {authoritative : Bool}
  {answers authority additional : List Record}

theorem nextParse_inStep (hstep : InStep msg qSize answers authority additional start)
    {an ns ar : BitVec 16} (han : an.toNat = answers.length) (hns : ns.toNat = authority.length)
    (har : ar.toNat = additional.length) :
    ∃ depth, ∀ fuel, depth ≤ fuel → nextParse fuel msg qSize an ns ar
      = addRecords fuel msg additional.length start [] := by
  obtain ⟨mid, hanswers, hauthority⟩ := hstep.sections
  have hdata := hstep.data
  obtain ⟨n, hn⟩ := skipRecords_recordsAt hanswers fun rr hrr => hdata rr (by simp [hrr])
  obtain ⟨m, hm⟩ := skipRecords_recordsAt hauthority fun rr hrr => hdata rr (by simp [hrr])
  refine ⟨max n m, fun fuel hfuel => ?_⟩
  have hskip₁ : skipRecords fuel msg answers.length qSize = .ok mid :=
    hn fuel (le_trans (le_max_left n m) hfuel)
  have hskip₂ : skipRecords fuel msg authority.length mid = .ok start :=
    hm fuel (le_trans (le_max_right n m) hfuel)
  rw [nextParse, han, hns, har, hskip₁, ok_bind, hskip₂, ok_bind]

theorem HeaderAt.chars {rcode questions an ns ar : ℕ}
    (h : HeaderAt msg authoritative rcode questions an ns ar) :
    ∃ f g : Byte, charAt msg 2 = .ok f ∧ charAt msg 3 = .ok g ∧ bit f 2 = authoritative
      ∧ (g &&& 15).toNat = rcode ∧ charAt msg 7 = .ok (BitVec.ofNat 8 an)
      ∧ charAt msg 9 = .ok (BitVec.ofNat 8 ns) ∧ charAt msg 11 = .ok (BitVec.ofNat 8 ar) := by
  obtain ⟨⟨f, g, hflags, -, haa, hrcode⟩, hcounts⟩ := h
  have hlow : ∀ n : ℕ, bigEndian 2 (BitVec.ofNat 16 n)
      = [BitVec.ofNat 8 (n % 2 ^ 16 / 256), BitVec.ofNat 8 n] := by
    intro n
    rw [bigEndian_two, BitVec.toNat_ofNat]
    congr 2
    exact BitVec.eq_of_toNat_eq (by simp only [BitVec.toNat_ofNat]; omega)
  simp only [hlow, List.cons_append, List.nil_append] at hcounts
  exact ⟨f, g, charAt_of_isPrefix hflags (i := 0) (by simp),
    charAt_of_isPrefix hflags (i := 1) (by simp), haa, hrcode,
    charAt_of_isPrefix hcounts (i := 3) (by simp),
    charAt_of_isPrefix hcounts (i := 5) (by simp), charAt_of_isPrefix hcounts (i := 7) (by simp)⟩

theorem toNat_signExtend_of_small {n : ℕ} (hn : n < 128) :
    ((BitVec.ofNat 8 n).signExtend 16).toNat = n := by
  have hmsb : (BitVec.ofNat 8 n).msb = false := by
    rw [BitVec.msb_eq_decide, BitVec.toNat_ofNat]
    exact decide_eq_false (by omega)
  rw [BitVec.toNat_signExtend, hmsb, BitVec.toNat_setWidth, BitVec.toNat_ofNat]
  simp only [Bool.false_eq_true, if_false]
  omega

/-- On a referral that keeps it in step so far, `parse` returns what its third loop makes of the
additional records. -/
theorem parse_returns_iff
    (hresponse : Response msg qSize authoritative answers authority additional)
    (hreferral : ¬(authoritative = true ∧ answers ≠ []))
    (hstep : InStep msg qSize answers authority additional start) (list : List Server) :
    Returns (fun fuel => parse fuel msg qSize) (.servers list)
      ↔ Returns (fun fuel => addRecords fuel msg additional.length start []) list := by
  obtain ⟨questions, -, hheader, -⟩ := hresponse.header
  obtain ⟨f, g, hf, hg, haa, hrcode, han, hns, har⟩ := hheader.chars
  obtain ⟨hsmall₁, hsmall₂, hsmall₃⟩ := hstep.counts
  obtain ⟨depth, hnext⟩ := nextParse_inStep hstep (toNat_signExtend_of_small hsmall₁)
    (toNat_signExtend_of_small hsmall₂) (toNat_signExtend_of_small hsmall₃)
  have hbranch : (authoritative && decide ((BitVec.ofNat 8 answers.length).signExtend 16 ≠ 0))
      = false := by
    rw [Bool.and_eq_false_iff, decide_eq_false_iff_not, not_not]
    by_contra hcontra
    push Not at hcontra
    refine hreferral ⟨Bool.eq_true_of_not_eq_false hcontra.1, fun hnil => hcontra.2 ?_⟩
    subst hnil
    rfl
  have hparse : ∀ fuel, depth ≤ fuel → parse fuel msg qSize
      = addRecords fuel msg additional.length start [] >>= fun l => .ok (.servers l) := by
    intro fuel hfuel
    rw [← hnext fuel hfuel, parse, hf, hg, han, hns, har]
    simp only [ok_bind, haa, hrcode, hbranch]
    rfl
  constructor
  · rintro ⟨n, hn⟩
    refine ⟨max n depth, fun fuel hfuel => ?_⟩
    have hrun := hn fuel (le_trans (le_max_left n depth) hfuel)
    change parse fuel msg qSize = _ at hrun
    rw [hparse fuel (le_trans (le_max_right n depth) hfuel)] at hrun
    obtain ⟨l, hl, heq⟩ := bind_eq_ok.mp hrun
    cases heq
    exact hl
  · rintro ⟨n, hn⟩
    refine ⟨max n depth, fun fuel hfuel => ?_⟩
    change parse fuel msg qSize = _
    rw [hparse fuel (le_trans (le_max_right n depth) hfuel)]
    exact bind_eq_ok.mpr ⟨list, hn fuel (le_trans (le_max_left n depth) hfuel), rfl⟩

theorem parseIP_eq_dottedQuad {address : Bytes} (hlen : address.length = 4) :
    parseIP address false = dottedQuad address := by
  obtain ⟨a, b, c, d, rfl⟩ : ∃ a b c d, address = [a, b, c, d] := by
    match address, hlen with
    | [a, b, c, d], _ => exact ⟨a, b, c, d, rfl⟩
  simp [parseIP, dottedQuad, List.intercalate, List.zipIdx, List.intersperse]

theorem map_filter_eq_iff {α β : Type} {p q : α → Bool} (g : α → β) {l : List α}
    (himp : ∀ x ∈ l, q x = true → p x = true) :
    (l.filter p).map g = (l.filter q).map g ↔ ∀ x ∈ l, p x = true → q x = true := by
  have hfilter : l.filter q = (l.filter p).filter q := by
    rw [List.filter_filter]
    apply List.filter_congr
    intro x hx
    cases hq : q x with
    | false => rfl
    | true => rw [himp x hx hq, Bool.and_self]
  constructor
  · intro h x hx hp
    have hlen : ((l.filter p).filter q).length = (l.filter p).length := by
      have := congrArg List.length h
      rw [List.length_map, List.length_map, hfilter] at this
      exact this.symm
    have hself := List.filter_sublist.eq_of_length hlen
    exact (List.filter_eq_self.mp hself) x (List.mem_filter.mpr ⟨hx, hp⟩)
  · intro h
    have hself : (l.filter p).filter q = l.filter p :=
      List.filter_eq_self.mpr fun x hx =>
        h x (List.mem_filter.mp hx).1 (List.mem_filter.mp hx).2
    rw [hfilter, hself]

theorem fourByteServers_eq_iff
    (haddress : ∀ rr ∈ additional, rr.type = typeA → rr.rdata.length = 4) :
    fourByteServers additional = referredServers additional
      ↔ ∀ rr ∈ additional, rr.rdata.length = 4 → rr.type = typeA := by
  have hsame : referredServers additional = (additional.filter fun rr => rr.type = typeA).map
      fun rr => ⟨parseIP rr.rdata false, dotted rr.owner⟩ := by
    refine List.map_congr_left ?_
    intro rr hrr
    obtain ⟨hmem, htype⟩ := List.mem_filter.mp hrr
    rw [parseIP_eq_dottedQuad (haddress rr hmem (of_decide_eq_true htype))]
  rw [hsame, fourByteServers, map_filter_eq_iff]
  · simp
  · simpa using haddress

theorem parse_fourByteServers
    (hresponse : Response msg qSize authoritative answers authority additional)
    (hreferral : ¬(authoritative = true ∧ answers ≠ []))
    (hstep : InStep msg qSize answers authority additional start)
    (hadditional : RecordsAt Near (· = .pointer) msg start additional next) :
    Returns (fun fuel => parse fuel msg qSize) (.servers (fourByteServers additional)) := by
  rw [parse_returns_iff hresponse hreferral hstep]
  have hdata := hstep.data
  exact addRecords_recordsAt hadditional (fun rr hrr => hdata rr (by simp [hrr])) []

/-- **What a referral parses to.** On a response that keeps `parse` in step up to the additional
records and has near pointers behind them: where all names end in pointers, `parse` returns one
server for each address record, and nothing else, exactly when every additional record with four
bytes of data is an address record; and where all additional records are address records, it does so
exactly when all their names end in pointers. -/
theorem parse_referral_iff
    (hresponse : Response msg qSize authoritative answers authority additional)
    (hreferral : ¬(authoritative = true ∧ answers ≠ []))
    (hstep : InStep msg qSize answers authority additional start)
    (hnear : RecordsAt Near (fun _ => True) msg start additional next) :
    (RecordsAt Near (· = .pointer) msg start additional next →
      (Returns (fun fuel => parse fuel msg qSize) (.servers (referredServers additional))
        ↔ ∀ rr ∈ additional, rr.rdata.length = 4 → rr.type = typeA))
      ∧ ((∀ rr ∈ additional, rr.type = typeA) →
        (Returns (fun fuel => parse fuel msg qSize) (.servers (referredServers additional))
          ↔ RecordsAt Near (· = .pointer) msg start additional next)) := by
  have hfour := fourByteServers_eq_iff hresponse.addresses
  constructor
  · intro hpointers
    have hparse := parse_fourByteServers hresponse hreferral hstep hpointers
    rw [← hfour]
    constructor
    · intro h
      exact Parsed.servers.inj (hparse.unique h)
    · intro h
      rwa [h] at hparse
  · intro haddress
    constructor
    · intro hreturns
      rw [parse_returns_iff hresponse hreferral hstep] at hreturns
      have hlen : ∀ rr ∈ additional, rr.rdata.length = 4 := fun rr hrr =>
        hresponse.addresses rr hrr (haddress rr hrr)
      refine pointers_of_addRecords hnear hlen [] _ hreturns ?_
      rw [referredServers, List.length_map, List.filter_eq_self.mpr (by simpa using haddress)]
      exact (Nat.zero_add _).symm
    · intro hpointers
      rw [← hfour.mpr fun rr hrr _ => haddress rr hrr]
      exact parse_fourByteServers hresponse hreferral hstep hpointers

end Response

/-! ### A referral with one address

The same record twice: its owner name `a` points to the question, or is spelled out and ends in a
zero byte. -/

def glue : Record := ⟨[[97]], typeA, 1, 0, [1, 2, 3, 4]⟩

/-- A response to a question for `a`, referring to `glue` under the given encoding of its name. -/
def referralWith (owner : Bytes) : Bytes :=
  [0, 0, 128, 0, 0, 1, 0, 0, 0, 0, 0, 1, 1, 97, 0, 0, 28, 0, 1] ++ (owner ++ glue.body)

theorem glue_recordAt {follow : ℕ → Prop} {owner : Bytes} {ending : Ending}
    (hname : NameAt follow (referralWith owner) 19 glue.owner (19 + owner.length) ending) :
    RecordAt follow (referralWith owner) 19 glue ending (referralWith owner).length := by
  have hlen : (referralWith owner).length = 19 + owner.length + 10 + glue.rdata.length := by
    simp only [referralWith, List.length_append, Record.length_body, List.length_cons,
      List.length_nil]
    omega
  have hdrop : (referralWith owner).drop (19 + owner.length) = glue.body := by
    rw [referralWith, ← List.append_assoc, List.drop_left' (by simp; omega)]
  rw [hlen]
  exact .mk hname (by decide) (hdrop ▸ List.prefix_rfl)

theorem referralWith_response {owner : Bytes} {ending : Ending}
    (hname : NameAt (fun _ => True) (referralWith owner) 19 glue.owner (19 + owner.length) ending) :
    Response (referralWith owner) 19 false [] [] [glue] where
  header := by
    have hquestion : NameAt (fun _ => True) (referralWith owner) 12 [[97]] 15 .zero :=
      .label (by decide) (by decide) ⟨_, rfl⟩ (.root ⟨_, rfl⟩)
    have hroom : 15 + 4 ≤ (referralWith owner).length := by
      simp [referralWith]
    exact ⟨1, by decide, ⟨⟨128, 0, ⟨_, rfl⟩, by decide, by decide, by decide⟩, ⟨_, rfl⟩⟩,
      .cons hquestion hroom .nil⟩
  counts := by decide
  sections := ⟨19, 19, .nil, .nil, .cons (glue_recordAt hname) trivial .nil⟩
  addresses := by decide

theorem pointed_nameAt {follow : ℕ → Prop} (hfollow : follow 12) :
    NameAt follow (referralWith [192, 12]) 19 glue.owner 21 .pointer :=
  .pointer ⟨_, rfl⟩ (by decide) (by decide) hfollow
    (.label (by decide) (by decide) ⟨_, rfl⟩ (.root ⟨_, rfl⟩))

theorem parse_referral_pointed :
    Returns (fun fuel => parse fuel (referralWith [192, 12]) 19)
      (.servers (referredServers [glue])) := by
  have hstep : InStep (referralWith [192, 12]) 19 [] [] [glue] 19 :=
    ⟨by decide, ⟨19, .nil, .nil⟩, by decide⟩
  have hnear : Near 12 := (by decide : 12 < 64)
  have hrecord := glue_recordAt (pointed_nameAt hnear)
  exact ((parse_referral_iff (referralWith_response (pointed_nameAt trivial)) (by decide) hstep
    (.cons hrecord trivial .nil)).2 (by decide)).mpr (.cons hrecord rfl .nil)

/-- The zero byte that ends the name is read again as the start of the type, and the address is
lost. -/
theorem parse_loses_zero_ended :
    Response (referralWith [1, 97, 0]) 19 false [] [] [glue]
      ∧ ¬ Returns (fun fuel => parse fuel (referralWith [1, 97, 0]) 19)
        (.servers (referredServers [glue])) := by
  have hname : NameAt (fun _ => True) (referralWith [1, 97, 0]) 19 glue.owner 22 .zero :=
    .label (by decide) (by decide) ⟨_, rfl⟩ (.root ⟨_, rfl⟩)
  have hparse : Returns (fun fuel => parse fuel (referralWith [1, 97, 0]) 19) (.servers []) := by
    refine ⟨2, fun fuel hfuel => ?_⟩
    obtain ⟨fuel, rfl⟩ : ∃ n, fuel = n + 2 := ⟨fuel - 2, by omega⟩
    rfl
  refine ⟨referralWith_response hname, fun h => ?_⟩
  have := Parsed.servers.inj (h.unique hparse)
  simp [referredServers, glue] at this

end Networking.Resolver
