import Networking.Resolver.Delegation
import Networking.Resolver.HostName

/-!
# The query as a message

A program that makes its question anew asks for the addresses of the host, in one message that says
so and nothing else. That is what the first server of every call of `attempt` is sent. To the others
goes more than the header counts, which is no message at all.
-/

namespace Networking.Resolver

open Wire Transition

variable {msg bytes bytes' : Bytes} {off next next' : ℕ} {labels labels' : List Bytes}
  {ending ending' : Ending} {follow follow' : ℕ → Prop}

/-- The record that asks for signatures, and takes responses of 4096 bytes. -/
def optRecord : Record := ⟨[], 41, 4096, 0x8000, []⟩

/-- A query for the addresses of the name: no flags, one question, which ends at `qSize`, and one
record behind it. -/
structure QueryFor (msg : Bytes) (labels : List Bytes) (qSize : ℕ) : Prop where
  header : List.replicate 4 0 <+: msg ∧ CountsAt msg 1 0 0 1
  question : ∃ mid, NameAt (fun _ => False) msg 12 labels mid .zero
    ∧ bigEndian 2 (28 : BitVec 16) ++ bigEndian 2 (1 : BitVec 16) <+: msg.drop mid
    ∧ mid + 4 = qSize
  additional : RecordAt (fun _ => False) msg qSize optRecord .zero msg.length

/-! ### One reading -/

theorem eq_of_isPrefix_drop (h : bytes <+: msg.drop off) (h' : bytes' <+: msg.drop off)
    (hlen : bytes.length = bytes'.length) : bytes = bytes' :=
  (List.prefix_of_prefix_length_le h h' hlen.le).eq_of_length hlen

theorem bigEndian_injective : Function.Injective (bigEndian 2 : BitVec 16 → Bytes) := by
  intro x y h
  have hmemory : memory 2 x = memory 2 y := List.reverse_inj.mp h
  rw [← ofMemory_memory (n := 2) le_rfl x, hmemory, ofMemory_memory le_rfl]

theorem ofNat_injective {m n : ℕ} (hm : m < 2 ^ 16) (hn : n < 2 ^ 16)
    (h : BitVec.ofNat 16 m = BitVec.ofNat 16 n) : m = n := by
  rw [← toNat_ofNat_of_lt hm, h, toNat_ofNat_of_lt hn]

theorem countsAt_unique {a b c d a' b' c' d' : ℕ} (h : CountsAt msg a b c d)
    (h' : CountsAt msg a' b' c' d') (hlt : a < 2 ^ 16 ∧ b < 2 ^ 16 ∧ c < 2 ^ 16 ∧ d < 2 ^ 16)
    (hlt' : a' < 2 ^ 16 ∧ b' < 2 ^ 16 ∧ c' < 2 ^ 16 ∧ d' < 2 ^ 16) :
    a = a' ∧ b = b' ∧ c = c' ∧ d = d' := by
  have hword : ∀ {x y : ℕ} {off : ℕ}, bigEndian 2 (BitVec.ofNat 16 x) <+: msg.drop off →
      bigEndian 2 (BitVec.ofNat 16 y) <+: msg.drop off → x < 2 ^ 16 → y < 2 ^ 16 → x = y := by
    intro x y off hx hy hxlt hylt
    exact ofNat_injective hxlt hylt (bigEndian_injective (eq_of_isPrefix_drop hx hy (by simp)))
  have hb := isPrefix_drop_of_append _ h
  have hb' := isPrefix_drop_of_append _ h'
  have hc := isPrefix_drop_of_append _ hb
  have hc' := isPrefix_drop_of_append _ hb'
  have hd := isPrefix_drop_of_append _ hc
  have hd' := isPrefix_drop_of_append _ hc'
  simp only [length_bigEndian] at hb hb' hc hc' hd hd'
  exact ⟨hword ((List.prefix_append _ _).trans h) ((List.prefix_append _ _).trans h') hlt.1 hlt'.1,
    hword ((List.prefix_append _ _).trans hb) ((List.prefix_append _ _).trans hb') hlt.2.1 hlt'.2.1,
    hword ((List.prefix_append _ _).trans hc) ((List.prefix_append _ _).trans hc') hlt.2.2.1
      hlt'.2.2.1,
    hword hd hd' hlt.2.2.2 hlt'.2.2.2⟩

theorem first_zero (h : [0] <+: msg.drop off) : ∃ b : Byte, msg[off]? = some b ∧ b.toNat = 0 :=
  ⟨0, getElem?_of_isPrefix (i := 0) h (by simp), rfl⟩

theorem first_label {label : Bytes} (h : BitVec.ofNat 8 label.length :: label <+: msg.drop off)
    (hlen : label.length ≤ 63) : ∃ b : Byte, msg[off]? = some b ∧ b.toNat = label.length :=
  ⟨_, getElem?_of_isPrefix (i := 0) h (by simp), toNat_ofNat_of_lt (by omega)⟩

theorem first_pointer {target : ℕ} (h : bigEndian 2 (BitVec.ofNat 16 (0xC000 + target))
    <+: msg.drop off) (hwidth : target < 2 ^ 14) :
    ∃ b : Byte, msg[off]? = some b ∧ 192 ≤ b.toNat := by
  rw [bigEndian_two] at h
  refine ⟨_, getElem?_of_isPrefix (i := 0) h (by simp), ?_⟩
  rw [List.getElem_cons_zero, toNat_ofNat_of_lt (w := 16) (by omega),
    toNat_ofNat_of_lt (w := 8) (by omega)]
  omega

/-- The first byte of a name tells which of the three forms it has. -/
theorem NameAt.first (h : NameAt follow msg off labels next ending) : ∃ b : Byte,
    msg[off]? = some b
      ∧ (b.toNat = 0 ∧ next = off + 1 ∨ 192 ≤ b.toNat ∧ next = off + 2
        ∨ (0 < b.toNat ∧ b.toNat ≤ 63)
          ∧ ∃ rest, NameAt follow msg (off + 1 + b.toNat) rest next ending) := by
  cases h with
  | root hbytes =>
      obtain ⟨b, hb, hzero⟩ := first_zero hbytes
      exact ⟨b, hb, .inl ⟨hzero, rfl⟩⟩
  | label hpos hlen hbytes hrest =>
      obtain ⟨b, hb, hlabel⟩ := first_label hbytes hlen
      rw [← hlabel] at hpos hlen hrest
      exact ⟨b, hb, .inr (.inr ⟨⟨hpos, hlen⟩, _, hrest⟩)⟩
  | pointer hbytes hwidth _ _ _ =>
      obtain ⟨b, hb, hhigh⟩ := first_pointer hbytes hwidth
      exact ⟨b, hb, .inr (.inl ⟨hhigh, rfl⟩)⟩

/-- Where a name ends does not depend on how it is read. -/
theorem NameAt.next_unique (h : NameAt follow msg off labels next ending)
    (h' : NameAt follow' msg off labels' next' ending') : next = next' := by
  induction h generalizing labels' next' ending' with
  | root hbytes =>
      obtain ⟨b, hb, hzero⟩ := first_zero hbytes
      obtain ⟨c, hc, hcases⟩ := h'.first
      obtain rfl : b = c := Option.some.inj (hb.symm.trans hc)
      omega
  | label hpos hlen hbytes _ ih =>
      obtain ⟨b, hb, hlabel⟩ := first_label hbytes hlen
      obtain ⟨c, hc, hcases⟩ := h'.first
      obtain rfl : b = c := Option.some.inj (hb.symm.trans hc)
      rcases hcases with ⟨hzero, -⟩ | ⟨hhigh, -⟩ | ⟨-, rest, hrest⟩
      · omega
      · omega
      · rw [hlabel] at hrest
        exact ih hrest
  | pointer hbytes hwidth _ _ _ _ =>
      obtain ⟨b, hb, hhigh⟩ := first_pointer hbytes hwidth
      obtain ⟨c, hc, hcases⟩ := h'.first
      obtain rfl : b = c := Option.some.inj (hb.symm.trans hc)
      omega

theorem RecordAt.body {rr : Record} (h : RecordAt follow msg off rr ending next) :
    ∃ mid, NameAt follow msg off rr.owner mid ending ∧ rr.rdata.length < 2 ^ 16
      ∧ rr.body <+: msg.drop mid ∧ next = mid + 10 + rr.rdata.length := by
  cases h with
  | mk hname hlen hbody => exact ⟨_, hname, hlen, hbody, rfl⟩

/-- Where a record ends does not depend on how it is read. -/
theorem RecordAt.next_unique {rr rr' : Record} (h : RecordAt follow msg off rr ending next)
    (h' : RecordAt follow' msg off rr' ending' next') : next = next' := by
  obtain ⟨mid, hname, hlen, hbody, rfl⟩ := h.body
  obtain ⟨mid', hname', hlen', hbody', rfl⟩ := h'.body
  obtain rfl := hname.next_unique hname'
  obtain ⟨-, -, -, hlength, -⟩ := Record.body_isPrefix hbody
  obtain ⟨-, -, -, hlength', -⟩ := Record.body_isPrefix hbody'
  have heq := ofNat_injective hlen hlen' (bigEndian_injective
    (eq_of_isPrefix_drop hlength hlength' (by simp)))
  rw [heq]

theorem RecordAt.mono {rr : Record} (h : RecordAt follow msg off rr ending next)
    (hfollow : ∀ target < 2 ^ 14, follow target → follow' target) :
    RecordAt follow' msg off rr ending next := by
  obtain ⟨mid, hname, hlen, hbody, rfl⟩ := h.body
  exact .mk (hname.mono hfollow) hlen hbody

/-- Bytes with a query in front are a message exactly when nothing is behind it. -/
theorem wellFormed_iff {mid size : ℕ} (hcounts : CountsAt msg 1 0 0 1)
    (hname : NameAt follow msg 12 labels mid ending) (hfields : mid + 4 ≤ msg.length)
    (hrecord : RecordAt follow msg (mid + 4) optRecord .zero size) :
    WellFormed msg ↔ size = msg.length := by
  constructor
  · rintro ⟨questions, answers, authority, additional, qSize, mid₁, mid₂, hlt, hcounts', hquestions,
      hanswers, hauthority, hadditional⟩
    obtain ⟨rfl, hnone, hnone', hone⟩ := countsAt_unique hcounts hcounts' (by omega) hlt
    obtain rfl : answers = [] := List.eq_nil_of_length_eq_zero hnone.symm
    obtain rfl : authority = [] := List.eq_nil_of_length_eq_zero hnone'.symm
    obtain ⟨rr, rfl⟩ := List.length_eq_one_iff.mp hone.symm
    cases hanswers
    cases hauthority
    cases hquestions with
    | cons hname' _ hnil =>
        cases hnil
        obtain rfl := hname.next_unique hname'
        cases hadditional with
        | cons hrecord' _ hnil =>
            cases hnil
            exact hrecord.next_unique hrecord'
  · rintro rfl
    refine ⟨1, [], [], [optRecord], mid + 4, mid + 4, mid + 4, by decide, hcounts,
      .cons (hname.mono fun _ _ _ => trivial) hfields .nil, .nil, .nil, ?_⟩
    exact .cons (hrecord.mono fun _ _ _ => trivial) trivial .nil

theorem QueryFor.wellFormed {qSize : ℕ} (h : QueryFor msg labels qSize) : WellFormed msg := by
  obtain ⟨⟨-, hcounts⟩, ⟨mid, hname, hfields, rfl⟩, hrecord⟩ := h
  have hbehind := length_le_of_isPrefix hfields (by decide)
  exact (wellFormed_iff hcounts hname hbehind hrecord).mpr rfl

/-- A name without pointers is the encoding of its labels. -/
theorem encoding_of_nameAt (h : NameAt (fun _ => False) msg off labels next ending) :
    encoding labels ++ [0] <+: msg.drop off ∧ next = off + wireLength labels + 1 := by
  induction h with
  | root hbytes => exact ⟨hbytes, rfl⟩
  | label _ _ hbytes _ ih =>
      obtain ⟨hrest, rfl⟩ := ih
      rw [Nat.add_right_comm] at hrest
      refine ⟨?_, by rw [wireLength]; omega⟩
      rw [encoding_cons, List.append_assoc]
      exact append_isPrefix_drop hbytes hrest
  | pointer _ _ _ hfollow => exact hfollow.elim

theorem headerBytes_makeHeader : headerBytes makeHeader = List.replicate 4 0
    ++ (bigEndian 2 (BitVec.ofNat 16 1) ++ (bigEndian 2 (BitVec.ofNat 16 0)
      ++ (bigEndian 2 (BitVec.ofNat 16 0) ++ bigEndian 2 (BitVec.ofNat 16 1)))) := by
  decide

theorem fixedFields_eq : fixedFields = [0] ++ (bigEndian 2 (28 : BitVec 16)
    ++ bigEndian 2 (1 : BitVec 16) ++ ([0] ++ optRecord.body)) := by
  decide

/-- **There is one query for the addresses of a name.** -/
theorem QueryFor.eq {qSize : ℕ} (h : QueryFor msg labels qSize) :
    msg = headerBytes makeHeader ++ (encoding labels ++ fixedFields)
      ∧ qSize = 17 + wireLength labels := by
  obtain ⟨⟨hflags, hcounts⟩, ⟨mid, hname, hfields, rfl⟩, hrecord⟩ := h
  obtain ⟨hlabels, rfl⟩ := encoding_of_nameAt hname
  obtain ⟨body, howner, -, hbody, hend⟩ := hrecord.body
  obtain ⟨hroot, rfl⟩ := encoding_of_nameAt howner
  rw [← msg.drop_zero] at hflags
  have hheader : headerBytes makeHeader <+: msg.drop 0 :=
    headerBytes_makeHeader ▸ append_isPrefix_drop hflags hcounts
  have hlength : (encoding labels ++ [0]).length = wireLength labels + 1 := by
    rw [List.length_append, length_encoding]
    rfl
  have hall : headerBytes makeHeader ++ (encoding labels ++ [0] ++ (bigEndian 2 (28 : BitVec 16)
      ++ bigEndian 2 (1 : BitVec 16) ++ ([0] ++ optRecord.body))) <+: msg.drop 0 := by
    refine append_isPrefix_drop hheader (append_isPrefix_drop hlabels ?_)
    rw [hlength]
    exact append_isPrefix_drop hfields (append_isPrefix_drop hroot hbody)
  have hsize : (headerBytes makeHeader ++ (encoding labels ++ [0] ++ (bigEndian 2 (28 : BitVec 16)
      ++ bigEndian 2 (1 : BitVec 16) ++ ([0] ++ optRecord.body)))).length = msg.length := by
    rw [hend, List.length_append, List.length_append, hlength]
    change 12 + (wireLength labels + 1 + 15) = 12 + wireLength labels + 1 + 4 + 0 + 1 + 10 + 0
    omega
  have heq := (List.drop_zero ▸ hall).eq_of_length hsize
  refine ⟨?_, by omega⟩
  rw [← heq, fixedFields_eq, List.append_assoc (encoding labels)]

/-! ### What `attempt` sends -/

variable {q q' : Question} {host : Bytes}

theorem queryDatagram_eq (hnum : q.numBytes = 0)
    (hfits : wireLength (hostLabels host) ≤ filenameMax) (hmake : makeQuestion host q = some q') :
    q'.Fits ∧ queryDatagram makeHeader q' = headerBytes makeHeader
      ++ (encoding (hostLabels host) ++ fixedFields) := by
  rw [← length_encoding] at hfits
  obtain ⟨_, hmake', hqname, hcount, htype, hcls, hodd⟩ := makeQuestion_spec q hfits
  obtain rfl := Option.some.inj (hmake.symm.trans hmake')
  rw [hnum, Int.zero_add] at hcount
  have hfixed : [0] ++ (bigEndian 2 (28 : BitVec 16) ++ (bigEndian 2 (1 : BitVec 16) ++ oddBytes))
      = fixedFields := by decide
  refine ⟨⟨by omega, by omega⟩, ?_⟩
  rw [queryDatagram, packetWith, hqname, hcount, htype, hcls, hodd, Int.toNat_natCast,
    List.take_left, List.append_assoc _ [0], hfixed]

/-- What stands in bytes that begin with a query. -/
theorem query_of_isPrefix (hlabels : ∀ label ∈ labels, 0 < label.length ∧ label.length ≤ 63)
    (h : headerBytes makeHeader ++ (encoding labels ++ fixedFields) <+: msg) :
    (List.replicate 4 0 <+: msg ∧ CountsAt msg 1 0 0 1)
      ∧ NameAt (fun _ => False) msg 12 labels (13 + wireLength labels) .zero
      ∧ bigEndian 2 (28 : BitVec 16) ++ bigEndian 2 (1 : BitVec 16)
        <+: msg.drop (13 + wireLength labels)
      ∧ RecordAt (fun _ => False) msg (17 + wireLength labels) optRecord .zero
        (28 + wireLength labels) := by
  rw [← msg.drop_zero] at h
  have hflags := (List.prefix_append _ _).trans h
  have hname := isPrefix_drop_of_append _ h
  rw [headerBytes_makeHeader] at hflags
  have hcounts := isPrefix_drop_of_append _ hflags
  rw [fixedFields_eq, ← List.append_assoc] at hname
  have htype := isPrefix_drop_of_append _ hname
  have howner := isPrefix_drop_of_append _ htype
  have hbody := isPrefix_drop_of_append _ howner
  have hn := length_encoding labels
  have hheaderLen : (headerBytes makeHeader).length = 12 := by decide
  have hqSize : 12 + (wireLength labels + 1) = 13 + wireLength labels := by omega
  have hrecord : 13 + wireLength labels + (2 + 2) = 17 + wireLength labels := by omega
  simp only [List.length_append, length_bigEndian, List.length_singleton, List.length_replicate,
    hheaderLen, hn, Nat.zero_add, hqSize, hrecord] at hname htype howner hbody hcounts
  rw [List.drop_zero] at hflags
  refine ⟨⟨(List.prefix_append _ _).trans hflags, hcounts⟩, ?_,
    (List.prefix_append _ _).trans htype, ?_⟩
  · rw [← hqSize, ← Nat.add_assoc]
    exact nameAt_encoding hlabels ((List.prefix_append _ _).trans hname)
  · have hend : 17 + wireLength labels + 1 + 10 = 28 + wireLength labels := by omega
    rw [← hend]
    exact .mk (.root ((List.prefix_append _ _).trans howner)) (by decide) hbody

/-- What a call sends begins with the query, and is as long as its rounds so far make it. -/
theorem copies_query (hnum : q.numBytes = 0) (hfits : wireLength (hostLabels host) ≤ filenameMax)
    (hmake : makeQuestion host q = some q') (earlier : ℕ) :
    headerBytes makeHeader ++ (encoding (hostLabels host) ++ fixedFields)
        <+: copies makeHeader q' (earlier + 1)
      ∧ (copies makeHeader q' (earlier + 1)).length
        = (earlier + 1) * (28 + wireLength (hostLabels host)) := by
  obtain ⟨hrange, hquery⟩ := queryDatagram_eq hnum hfits hmake
  constructor
  · rw [copies, List.replicate_succ, List.flatten_cons, hquery]
    exact List.prefix_append _ _
  · have hheader : (headerBytes makeHeader).length = 12 := by decide
    have hfixed : fixedFields.length = 16 := rfl
    have hone : (queryDatagram makeHeader q').length = 28 + wireLength (hostLabels host) := by
      rw [hquery, List.length_append, List.length_append, length_encoding]
      omega
    rw [length_copies makeHeader hrange, ← length_queryDatagram hrange, hone]

theorem label_bounds (hlen : ∀ label ∈ hostLabels host, label.length ≤ 63) :
    ∀ label ∈ hostLabels host, 0 < label.length ∧ label.length ≤ 63 := fun label hlabel =>
  ⟨List.length_pos_iff.mpr (Words.isWord_of_mem hlabel).1, hlen label hlabel⟩

/-- A query with nothing behind it. -/
theorem queryFor_of_isPrefix (hlabels : ∀ label ∈ labels, 0 < label.length ∧ label.length ≤ 63)
    (hquery : headerBytes makeHeader ++ (encoding labels ++ fixedFields) <+: msg)
    (hlength : msg.length = 28 + wireLength labels) :
    QueryFor msg labels (17 + wireLength labels) := by
  obtain ⟨hheader, hname, hfields, hrecord⟩ := query_of_isPrefix hlabels hquery
  exact ⟨hheader, ⟨_, hname, hfields, by omega⟩, hlength ▸ hrecord⟩

/-- Of what a call sends, only the first datagram is a message. -/
theorem wellFormed_copies_iff (hnum : q.numBytes = 0)
    (hlen : ∀ label ∈ hostLabels host, label.length ≤ 63)
    (hfits : wireLength (hostLabels host) ≤ filenameMax) (hmake : makeQuestion host q = some q')
    (earlier : ℕ) : WellFormed (copies makeHeader q' (earlier + 1)) ↔ earlier = 0 := by
  obtain ⟨hquery, hlength⟩ := copies_query hnum hfits hmake earlier
  obtain ⟨⟨-, hcounts⟩, hname, -, hrecord⟩ := query_of_isPrefix (label_bounds hlen) hquery
  set size := 28 + wireLength (hostLabels host) with hsize
  have hend : 17 + wireLength (hostLabels host) = 13 + wireLength (hostLabels host) + 4 := by omega
  rw [hend] at hrecord
  have hbehind : 13 + wireLength (hostLabels host) + 4
      ≤ (copies makeHeader q' (earlier + 1)).length := by
    have := Nat.le_mul_of_pos_left size (show 0 < earlier + 1 by omega)
    omega
  rw [wellFormed_iff hcounts hname hbehind hrecord, hlength, eq_comm, Nat.mul_eq_right (by omega)]
  omega

/-- The first datagram of a call is the query, and the offset is where its question ends. -/
theorem queryFor_copies (hnum : q.numBytes = 0)
    (hlen : ∀ label ∈ hostLabels host, label.length ≤ 63)
    (hfits : wireLength (hostLabels host) ≤ filenameMax) (hmake : makeQuestion host q = some q') :
    QueryFor (copies makeHeader q' 1) (hostLabels host)
      (((copies makeHeader q' 1).length - 11) % 2 ^ 32) := by
  obtain ⟨hquery, hlength⟩ := copies_query hnum hfits hmake 0
  rw [Nat.zero_add] at hquery hlength
  have hmax : filenameMax = 4096 := rfl
  have hoffset : ((copies makeHeader q' 1).length - 11) % 2 ^ 32
      = 17 + wireLength (hostLabels host) := by omega
  rw [hoffset]
  exact queryFor_of_isPrefix (label_bounds hlen) hquery (by omega)

/-- **What the program asks.** Take a question whose byte count is zero and a host name whose labels
have 63 bytes at most and fit `QNAME`. In every run of the program, over any network and any random
picks, what a server is sent is a message exactly when the call that sent it had queried no server
before. That message is a query for the addresses of the host, and the offset handed to `parse` is
where its question ends. -/
theorem sent_wellFormed_iff (hnum : q.numBytes = 0)
    (hlen : ∀ label ∈ hostLabels host, label.length ≤ 63)
    (hfits : wireLength (hostLabels host) ≤ filenameMax) (hmake : makeQuestion host q = some q')
    {servers stack : List Server} {c : Config}
    (hreach : Reaches (step makeHeader q') (fun _ _ => True) (start servers stack) c) :
    ∀ e ∈ c.sent, (WellFormed e.datagram ↔ e.earlier = 0)
      ∧ (e.earlier = 0 → QueryFor e.datagram (hostLabels host) e.offset) := by
  intro e he
  obtain ⟨hdatagram, hoffset⟩ := (reaches_accumulates hreach).sent e he
  rw [hoffset, hdatagram, packets_eq_copies (queryDatagram_eq hnum hfits hmake).1.1]
  refine ⟨wellFormed_copies_iff hnum hlen hfits hmake e.earlier, fun hearlier => ?_⟩
  rw [hearlier]
  exact queryFor_copies hnum hlen hfits hmake

theorem sent_wellFormed_iff_sample :
    ∃ q', makeQuestion sampleHost (questionWith 0) = some q'
      ∧ ∃ c, Reaches (step makeHeader q') (fun _ _ => True) (start samplePair []) c
        ∧ (c.sent.map fun e => e.earlier) = [0, 1]
        ∧ ∀ e ∈ c.sent, (WellFormed e.datagram ↔ e.earlier = 0)
          ∧ (e.earlier = 0 → QueryFor e.datagram (hostLabels sampleHost) e.offset) := by
  have hfits : (encoding (hostLabels sampleHost)).length ≤ filenameMax := by decide
  obtain ⟨q', hmake, -⟩ := makeQuestion_spec (questionWith 0) hfits
  have hrun : (along (step makeHeader q') (start samplePair []) (fun _ => refusing 0) 2).map
      (fun c => c.sent.map fun e => e.earlier) = some [0, 1] := by
    rfl
  obtain ⟨c, hc, hsent⟩ := Option.map_eq_some_iff.mp hrun
  have hreach : Reaches (step makeHeader q') (fun _ _ => True) (start samplePair []) c :=
    reaches_of_along _ (fun _ _ => trivial) hc
  exact ⟨q', hmake, c, hreach, hsent,
    sent_wellFormed_iff rfl (by decide) (by decide) hmake hreach⟩

end Networking.Resolver
