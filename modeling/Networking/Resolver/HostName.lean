import Networking.Resolver.Names
import Networking.Resolver.Packet
import Networking.Resolver.Question

/-!
# The question and the host name

On a question whose byte count is zero, `makeQuestion` is inverse to `recParse`. It sets neither the
byte count nor the rest of `QNAME`, though, so the packet depends on what was in the memory of the
question before, and a second call leaves another packet than the first.
-/

namespace Networking.Resolver

open Wire Fuel

variable {q q₁ q₂ : Question} {pktHeader : Header} {host : Bytes} {labels : List Bytes}

/-! ### Reading the question back -/

/-- The number of bytes that labels take in a message. -/
def wireLength : List Bytes → ℕ
  | [] => 0
  | label :: rest => label.length + 1 + wireLength rest

theorem length_encoding (labels : List Bytes) : (encoding labels).length = wireLength labels := by
  induction labels with
  | nil => rfl
  | cons label rest ih =>
      rw [encoding_cons, List.length_append, ih, encodeLabel, List.length_cons, wireLength]

theorem nameAt_encoding {follow : ℕ → Prop} {msg : Bytes} {off : ℕ}
    (hlabels : ∀ label ∈ labels, 0 < label.length ∧ label.length ≤ 63)
    (hbytes : encoding labels ++ [0] <+: msg.drop off) :
    NameAt follow msg off labels (off + wireLength labels + 1) .zero := by
  induction labels generalizing off with
  | nil => exact .root hbytes
  | cons label rest ih =>
      rw [List.forall_mem_cons] at hlabels
      rw [encoding_cons, List.append_assoc] at hbytes
      have hrest := ih hlabels.2 (isPrefix_drop_of_append _ hbytes)
      have hoff : off + (encodeLabel label).length = off + 1 + label.length := by
        rw [encodeLabel, List.length_cons]
        omega
      have hend : off + 1 + label.length + wireLength rest = off + wireLength (label :: rest) := by
        rw [wireLength]
        omega
      rw [hoff, hend] at hrest
      exact .label hlabels.1.1 hlabels.1.2 ((List.prefix_append _ _).trans hbytes) hrest

theorem hostLabels_dotted (hlabels : ∀ label ∈ labels, Words.IsWord isSeparator label) :
    hostLabels (dotted labels) = labels := by
  have hdot : ofString "." = [46] := by decide
  rw [hostLabels, dotted, hdot]
  exact Words.wordsOf_intercalate (by decide) hlabels

/-- What a call of `attempt` writes in its first round. -/
def firstPacket (pktHeader : Header) (q : Question) : Bytes :=
  (writePacket pktHeader q .empty).bytes

theorem question_isPrefix (pktHeader : Header) {q : Question} (hnum : 0 ≤ q.numBytes) :
    q.qname.take q.numBytes.toNat ++ [0]
      <+: (firstPacket pktHeader q).drop 12 := by
  rw [firstPacket, StringStream.empty, writes_queryDatagram pktHeader hnum, queryDatagram,
    packetWith, List.nil_append, List.drop_left' (length_headerBytes pktHeader)]
  exact List.prefix_append _ _

/-- **The question read back.** For every host name whose labels have 63 bytes at most and fit
`QNAME`, and every header: made on a question whose byte count is zero, the question counts the
bytes of the labels, and `recParse` on the packet returns the labels joined by dots. That is the
host name itself where it is labels joined by dots. -/
theorem makeQuestion_recParse (pktHeader : Header) (hnum : q.numBytes = 0)
    (hlen : ∀ label ∈ hostLabels host, label.length ≤ 63)
    (hfits : wireLength (hostLabels host) ≤ filenameMax) :
    ∃ q', makeQuestion host q = some q' ∧ q'.numBytes = wireLength (hostLabels host)
      ∧ ∃ location, Returns (fun fuel => recParse (firstPacket pktHeader q') fuel 12 true)
          (dotted (hostLabels host), location)
        ∧ ∀ labels, (∀ label ∈ labels, Words.IsWord isSeparator label) → host = dotted labels →
          Returns (fun fuel => recParse (firstPacket pktHeader q') fuel 12 true)
            (host, location) := by
  rw [← length_encoding] at hfits
  obtain ⟨q', hmake, hqname, hcount, -⟩ := makeQuestion_spec q hfits
  rw [hnum, Int.zero_add] at hcount
  have hbytes := question_isPrefix pktHeader (hcount.ge.trans' (Int.natCast_nonneg _))
  rw [hqname, hcount, Int.toNat_natCast, List.take_left] at hbytes
  have hlabels : ∀ label ∈ hostLabels host, 0 < label.length ∧ label.length ≤ 63 := by
    intro label hmem
    exact ⟨List.length_pos_iff.mpr (Words.isWord_of_mem hmem).1, hlen label hmem⟩
  have hreads : Returns (fun fuel => recParse (firstPacket pktHeader q') fuel 12 true)
      (dotted (hostLabels host), _) := recParse_nameAt (nameAt_encoding hlabels hbytes) true
  rw [length_encoding] at hcount
  refine ⟨q', hmake, hcount, _, hreads, ?_⟩
  intro labels hwords hhost
  have hself : dotted (hostLabels host) = host := by
    rw [hhost, hostLabels_dotted hwords]
  rwa [hself] at hreads

def questionWith (numBytes : ℤ) : Question where
  numBytes := numBytes
  qname := List.replicate filenameMax 0
  qtype := 0
  qclass := 0
  qodd := List.replicate 11 0
  length_qname := List.length_replicate
  length_qodd := rfl

/-- Doubled and trailing dots. -/
def sampleHost : Bytes := ofString "a..bc."

theorem makeQuestion_recParse_sample :
    ∃ q', makeQuestion sampleHost (questionWith 0) = some q'
      ∧ q'.numBytes = wireLength (hostLabels sampleHost)
      ∧ ∃ location, Returns (fun fuel => recParse (firstPacket makeHeader q') fuel 12 true)
          (dotted (hostLabels sampleHost), location)
        ∧ ∀ labels, (∀ label ∈ labels, Words.IsWord isSeparator label) →
          sampleHost = dotted labels →
          Returns (fun fuel => recParse (firstPacket makeHeader q') fuel 12 true)
            (sampleHost, location) :=
  makeQuestion_recParse makeHeader rfl (by decide) (by decide)

/-! ### What was there before -/

/-- The first datagram of a call of `attempt`, defined where what is read of `QNAME` lies within the
array. -/
def datagram (pktHeader : Header) (q : Question) : Option Bytes :=
  if q.numBytes ≤ filenameMax then some (firstPacket pktHeader q) else none

def datagramFor (pktHeader : Header) (host : Bytes) (q : Question) : Option Bytes :=
  makeQuestion host q >>= datagram pktHeader

/-- What a question counts of `QNAME` behind the first `length` bytes. -/
def Question.leftOver (q : Question) (length : ℕ) : Bytes :=
  (q.qname.drop length).take q.numBytes.toNat

/-- Both questions end with a negative count, or they had counted the same bytes before: the same
number of them, and the same ones behind the labels. -/
def CountSame (length : ℕ) (q₁ q₂ : Question) : Prop :=
  (q₁.numBytes + length < 0 ∧ q₂.numBytes + length < 0)
    ∨ ((0 ≤ q₁.numBytes + length ∧ q₁.numBytes + length ≤ filenameMax)
      ∧ q₁.numBytes = q₂.numBytes ∧ q₁.leftOver length = q₂.leftOver length)

/-- The fields behind the name as `makeQuestion` sets them. -/
def fixedFields : Bytes := [0, 0, 28, 0, 1, 0, 0, 41, 16, 0, 0, 0, 128, 0, 0, 0]

theorem datagramFor_of_negative (pktHeader : Header) (q : Question)
    (hfits : wireLength (hostLabels host) ≤ filenameMax)
    (hneg : q.numBytes + wireLength (hostLabels host) < 0) :
    datagramFor pktHeader host q = some (headerBytes pktHeader) := by
  rw [← length_encoding] at hfits hneg
  obtain ⟨q', hmake, -, hcount, -⟩ := makeQuestion_spec q hfits
  rw [← hcount] at hneg
  rw [datagramFor, hmake, Option.bind_eq_bind, Option.bind_some, datagram, firstPacket,
    if_pos (hneg.le.trans (Int.natCast_nonneg _)), StringStream.empty,
    writePacket_negative hneg, List.nil_append]

theorem datagramFor_eq (pktHeader : Header) (q : Question)
    (hfits : wireLength (hostLabels host) ≤ filenameMax)
    (hnum : 0 ≤ q.numBytes + wireLength (hostLabels host)) :
    datagramFor pktHeader host q
      = if q.numBytes + wireLength (hostLabels host) ≤ filenameMax then
        some (headerBytes pktHeader ++ ((encoding (hostLabels host)).take
          (q.numBytes + wireLength (hostLabels host)).toNat
            ++ q.leftOver (wireLength (hostLabels host)) ++ fixedFields))
      else none := by
  rw [← length_encoding] at hfits hnum ⊢
  obtain ⟨q', hmake, hqname, hcount, htype, hcls, hodd⟩ := makeQuestion_spec q hfits
  have hfixed : [0] ++ (bigEndian 2 (28 : BitVec 16) ++ (bigEndian 2 (1 : BitVec 16) ++ oddBytes))
      = fixedFields := by decide
  have hbehind : (q.numBytes + (encoding (hostLabels host)).length).toNat
      - (encoding (hostLabels host)).length = q.numBytes.toNat := by omega
  rw [datagramFor, hmake, Option.bind_eq_bind, Option.bind_some, datagram, firstPacket,
    StringStream.empty, writes_queryDatagram pktHeader (hcount.ge.trans' hnum), List.nil_append,
    queryDatagram, packetWith, hcount, hqname, htype, hcls, hodd, List.take_append, hbehind,
    Question.leftOver, List.append_assoc _ [0], hfixed]

theorem length_datagramFor (pktHeader : Header) {q : Question} {d : Bytes}
    (hfits : wireLength (hostLabels host) ≤ filenameMax)
    (hnum : 0 ≤ q.numBytes + wireLength (hostLabels host))
    (hd : datagramFor pktHeader host q = some d) :
    (d.length : ℤ) = 28 + (q.numBytes + wireLength (hostLabels host)) := by
  rw [datagramFor_eq pktHeader q hfits hnum] at hd
  split_ifs at hd with hhigh
  have hfixed : fixedFields.length = 16 := rfl
  rw [← Option.some.inj hd, List.length_append, List.length_append, List.length_append,
    List.length_take, length_encoding, Question.leftOver, List.length_take, List.length_drop,
    q.length_qname, length_headerBytes, hfixed]
  omega

theorem same_datagram_iff (pktHeader : Header) (q₁ q₂ : Question)
    (hfits : wireLength (hostLabels host) ≤ filenameMax) :
    (∃ d, datagramFor pktHeader host q₁ = some d ∧ datagramFor pktHeader host q₂ = some d)
      ↔ CountSame (wireLength (hostLabels host)) q₁ q₂ := by
  constructor
  · rintro ⟨d, h₁, h₂⟩
    rcases lt_or_ge (q₁.numBytes + wireLength (hostLabels host)) 0 with hneg₁ | hnum₁ <;>
      rcases lt_or_ge (q₂.numBytes + wireLength (hostLabels host)) 0 with hneg₂ | hnum₂
    · exact .inl ⟨hneg₁, hneg₂⟩
    · have hlen := length_datagramFor pktHeader hfits hnum₂ h₂
      rw [datagramFor_of_negative pktHeader q₁ hfits hneg₁] at h₁
      rw [← Option.some.inj h₁, length_headerBytes] at hlen
      omega
    · have hlen := length_datagramFor pktHeader hfits hnum₁ h₁
      rw [datagramFor_of_negative pktHeader q₂ hfits hneg₂] at h₂
      rw [← Option.some.inj h₂, length_headerBytes] at hlen
      omega
    · have hlen₁ := length_datagramFor pktHeader hfits hnum₁ h₁
      have hlen₂ := length_datagramFor pktHeader hfits hnum₂ h₂
      have hnum : q₁.numBytes = q₂.numBytes := by omega
      rw [datagramFor_eq pktHeader q₁ hfits hnum₁] at h₁
      rw [datagramFor_eq pktHeader q₂ hfits hnum₂, ← hnum] at h₂
      split_ifs at h₁ h₂ with hhigh
      have hsame := List.append_cancel_right (List.append_cancel_left
        (Option.some.inj (h₁.trans h₂.symm)))
      exact .inr ⟨⟨hnum₁, hhigh⟩, hnum, List.append_cancel_left hsame⟩
  · rintro (⟨hneg₁, hneg₂⟩ | ⟨⟨hlow, hhigh⟩, hnum, hleft⟩)
    · exact ⟨_, datagramFor_of_negative pktHeader q₁ hfits hneg₁,
        datagramFor_of_negative pktHeader q₂ hfits hneg₂⟩
    · rw [datagramFor_eq pktHeader q₁ hfits hlow,
        datagramFor_eq pktHeader q₂ hfits (hnum ▸ hlow), ← hnum, ← hleft, if_pos hhigh]
      exact ⟨_, rfl, rfl⟩

theorem wireLength_eq_zero_iff : wireLength labels = 0 ↔ labels = [] := by
  cases labels with
  | nil => exact iff_of_true rfl rfl
  | cons label rest =>
      rw [wireLength]
      exact iff_of_false (by omega) (List.cons_ne_nil label rest)

/-- **What a packet depends on.** For every host name that fits `QNAME` and any two questions, the
datagrams are the same exactly when both counts end negative, so that neither stream takes more than
the header, or the questions had counted the same bytes before. And a second call of `makeQuestion`
leaves the packet of the first exactly when the count is still negative behind it, or the name has
no labels. -/
theorem datagramFor_eq_iff (pktHeader : Header) (q₁ q₂ : Question)
    (hfits : wireLength (hostLabels host) ≤ filenameMax) :
    ((∃ d, datagramFor pktHeader host q₁ = some d ∧ datagramFor pktHeader host q₂ = some d)
        ↔ CountSame (wireLength (hostLabels host)) q₁ q₂)
      ∧ ((∃ d, datagramFor pktHeader host q₁ = some d
          ∧ makeQuestion host q₁ >>= datagramFor pktHeader host = some d)
        ↔ q₁.numBytes + 2 * wireLength (hostLabels host) < 0
          ∨ (hostLabels host = [] ∧ 0 ≤ q₁.numBytes ∧ q₁.numBytes ≤ filenameMax)) := by
  refine ⟨same_datagram_iff pktHeader q₁ q₂ hfits, ?_⟩
  obtain ⟨q', hmake, hqname, hcount, -⟩ := makeQuestion_spec q₁ (by rwa [length_encoding])
  rw [hmake, Option.bind_eq_bind, Option.bind_some, same_datagram_iff pktHeader q₁ q' hfits,
    ← wireLength_eq_zero_iff, CountSame]
  rw [length_encoding] at hcount hqname
  constructor
  · rintro (⟨-, hneg⟩ | ⟨hrange, hnum, -⟩)
    · exact .inl (by omega)
    · have hzero : wireLength (hostLabels host) = 0 := by omega
      rw [hzero] at hrange
      exact .inr ⟨hzero, by omega⟩
  · rintro (hneg | ⟨hzero, hrange⟩)
    · exact .inl (by omega)
    · have hnil := wireLength_eq_zero_iff.mp hzero
      rw [hzero] at hcount hqname ⊢
      refine .inr ⟨by omega, by omega, ?_⟩
      rw [Question.leftOver, Question.leftOver, hqname, hnil, hcount]
      simp [encoding]

/-- Two negative counts give one datagram, and a count of 0 and of 1 do not; the packet of a name
with labels is another after a second call. -/
theorem datagramFor_eq_iff_sample :
    (∃ d, datagramFor makeHeader sampleHost (questionWith (-6)) = some d
        ∧ datagramFor makeHeader sampleHost (questionWith (-7)) = some d)
      ∧ ¬(∃ d, datagramFor makeHeader sampleHost (questionWith 0) = some d
        ∧ datagramFor makeHeader sampleHost (questionWith 1) = some d)
      ∧ ¬(∃ d, datagramFor makeHeader sampleHost (questionWith 0) = some d
        ∧ makeQuestion sampleHost (questionWith 0) >>= datagramFor makeHeader sampleHost
          = some d) := by
  refine ⟨?_, ?_, ?_⟩
  · rw [(datagramFor_eq_iff makeHeader (questionWith (-6)) (questionWith (-7)) (by decide)).1]
    exact .inl (by decide)
  · rw [(datagramFor_eq_iff makeHeader (questionWith 0) (questionWith 1) (by decide)).1]
    rintro (⟨hneg, -⟩ | ⟨-, hnum, -⟩)
    · exact absurd hneg (by decide)
    · exact absurd hnum (by decide)
  · rw [(datagramFor_eq_iff makeHeader (questionWith 0) (questionWith 0) (by decide)).2]
    decide

/-- A byte counted before is counted in the packet. -/
theorem not_datagramFor_eq :
    ¬∀ (pktHeader : Header) (host : Bytes) (q₁ q₂ : Question),
      wireLength (hostLabels host) ≤ filenameMax →
      ∃ d, datagramFor pktHeader host q₁ = some d ∧ datagramFor pktHeader host q₂ = some d := by
  intro h
  have hsame := h makeHeader sampleHost (questionWith 0) (questionWith 1) (by decide)
  rw [same_datagram_iff makeHeader _ _ (by decide)] at hsame
  rcases hsame with ⟨hneg, -⟩ | ⟨-, hnum, -⟩
  · exact absurd hneg (by decide)
  · exact absurd hnum (by decide)

end Networking.Resolver
