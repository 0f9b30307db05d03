import Networking.Resolver.Attempt

/-!
# The datagrams `attempt` sends

The stream `dnsPacket` is a local variable of `attempt`, not of its loop, and no round clears it. So
the datagram of a round repeats the query once for every server that the same call has queried
already, and the offset handed to `parse` counts all the copies. A negative `numBytes` makes the
stream bad behind the first header, and no round writes anything to it again.
-/

namespace Networking.Resolver

open Wire Transition

variable {pktHeader : Header} {pktPayload : Question}

def headerBytes (pktHeader : Header) : Bytes :=
  bigEndian 2 pktHeader.version ++ bigEndian 2 pktHeader.flags ++ bigEndian 2 pktHeader.queries
    ++ bigEndian 2 pktHeader.answers ++ bigEndian 2 pktHeader.nservers
    ++ bigEndian 2 pktHeader.addservers

/-- The header, a name, a zero byte, and the other fields of the question. -/
def packetWith (pktHeader : Header) (pktPayload : Question) (name : Bytes) : Bytes :=
  headerBytes pktHeader ++ ((name ++ [0]) ++ (bigEndian 2 pktPayload.qtype
    ++ (bigEndian 2 pktPayload.qclass ++ pktPayload.qodd)))

def queryDatagram (pktHeader : Header) (pktPayload : Question) : Bytes :=
  packetWith pktHeader pktPayload (pktPayload.qname.take pktPayload.numBytes.toNat)

/-- `QNAME[0..numBytes)` lies within the array. -/
def Question.Fits (q : Question) : Prop := 0 ≤ q.numBytes ∧ q.numBytes ≤ filenameMax

/-- The datagram is the query with `QNAME[0..numBytes)` for its name, and the offset is where the
first record of a response starts that echoes the question. -/
def Sent.Right (pktHeader : Header) (pktPayload : Question) (e : Sent) : Prop :=
  (∃ name, name <+: pktPayload.qname ∧ (name.length : ℤ) = pktPayload.numBytes
      ∧ e.datagram = packetWith pktHeader pktPayload name)
    ∧ (e.offset : ℤ) = 12 + pktPayload.numBytes + 5

@[simp]
theorem length_headerBytes (pktHeader : Header) : (headerBytes pktHeader).length = 12 := by
  simp only [headerBytes, List.length_append, length_bigEndian]

theorem length_packetWith (pktHeader : Header) (pktPayload : Question) (name : Bytes) :
    (packetWith pktHeader pktPayload name).length = 28 + name.length := by
  simp only [packetWith, List.length_append, length_headerBytes, length_bigEndian,
    pktPayload.length_qodd, List.length_singleton]
  omega

theorem length_queryDatagram (hfits : pktPayload.Fits) :
    (queryDatagram pktHeader pktPayload).length = 28 + pktPayload.numBytes.toNat := by
  have hhigh := hfits.2
  rw [queryDatagram, length_packetWith, List.length_take, pktPayload.length_qname]
  omega

/-- There is such a name only within the array, and then it is what `write` takes of it. -/
theorem exists_name_iff {datagram : Bytes} :
    (∃ name, name <+: pktPayload.qname ∧ (name.length : ℤ) = pktPayload.numBytes
        ∧ datagram = packetWith pktHeader pktPayload name)
      ↔ pktPayload.Fits ∧ datagram = queryDatagram pktHeader pktPayload := by
  constructor
  · rintro ⟨name, hprefix, hlength, rfl⟩
    have hle := hprefix.length_le
    rw [pktPayload.length_qname] at hle
    have hcount : pktPayload.numBytes.toNat = name.length := by omega
    refine ⟨⟨by omega, by omega⟩, ?_⟩
    rw [queryDatagram, hcount, ← List.prefix_iff_eq_take.mp hprefix]
  · rintro ⟨⟨hlow, hhigh⟩, rfl⟩
    refine ⟨_, List.take_prefix _ _, ?_, rfl⟩
    rw [List.length_take, pktPayload.length_qname]
    omega

/-! ### What one round writes -/

theorem StringStream.write_good (bytes source : Bytes) {count : ℤ} (hcount : 0 ≤ count) :
    (⟨bytes, true⟩ : StringStream).write source count
      = ⟨bytes ++ source.take count.toNat, true⟩ := by
  rw [StringStream.write, if_pos rfl, if_pos hcount]

theorem StringStream.write_all (bytes source : Bytes) {count : ℤ} (hcount : source.length = count) :
    (⟨bytes, true⟩ : StringStream).write source count = ⟨bytes ++ source, true⟩ := by
  rw [write_good bytes source (by omega), List.take_of_length_le (by omega)]

theorem StringStream.write_negative (bytes source : Bytes) {count : ℤ} (hcount : count < 0) :
    (⟨bytes, true⟩ : StringStream).write source count = ⟨bytes, false⟩ := by
  rw [StringStream.write, if_pos rfl, if_neg (by omega)]

@[simp]
theorem StringStream.write_bad (bytes source : Bytes) (count : ℤ) :
    (⟨bytes, false⟩ : StringStream).write source count = ⟨bytes, false⟩ := rfl

/-- A field of two bytes. -/
theorem StringStream.write_field (bytes : Bytes) (x : BitVec 16) :
    (⟨bytes, true⟩ : StringStream).write (memory 2 (swap 2 x)) 2
      = ⟨bytes ++ bigEndian 2 x, true⟩ := by
  rw [write_all bytes _ (by rw [length_memory]; rfl), memory_swap_eq_bigEndian le_rfl]

/-- A round adds the query to a stream that is good, and leaves it good. -/
def Writes (pktHeader : Header) (pktPayload : Question) (query : Bytes) : Prop :=
  ∀ bytes, writePacket pktHeader pktPayload ⟨bytes, true⟩ = ⟨bytes ++ query, true⟩

theorem writes_queryDatagram (pktHeader : Header) (hnum : 0 ≤ pktPayload.numBytes) :
    Writes pktHeader pktPayload (queryDatagram pktHeader pktPayload) := by
  intro bytes
  simp only [writePacket, StringStream.write_field]
  rw [StringStream.write_good _ _ hnum, StringStream.write_all _ [0] (by rfl)]
  simp only [StringStream.write_field]
  rw [StringStream.write_all _ _ (by rw [pktPayload.length_qodd]; rfl)]
  simp only [queryDatagram, packetWith, headerBytes, List.append_assoc]

theorem writePacket_negative (hnum : pktPayload.numBytes < 0) (bytes : Bytes) :
    writePacket pktHeader pktPayload ⟨bytes, true⟩ = ⟨bytes ++ headerBytes pktHeader, false⟩ := by
  simp only [writePacket, StringStream.write_field]
  rw [StringStream.write_negative _ _ hnum]
  simp only [StringStream.write_bad, headerBytes, List.append_assoc]

theorem Writes.ne_nil {query : Bytes} (h : Writes pktHeader pktPayload query) : query ≠ [] := by
  rcases lt_or_ge pktPayload.numBytes 0 with hneg | hnum
  · cases (writePacket_negative hneg []).symm.trans (h [])
  · have heq : queryDatagram pktHeader pktPayload = query :=
      congrArg StringStream.bytes ((writes_queryDatagram pktHeader hnum []).symm.trans (h []))
    rw [← heq, queryDatagram, ← List.length_pos_iff, length_packetWith]
    omega

theorem writePacket_bad (bytes : Bytes) :
    writePacket pktHeader pktPayload ⟨bytes, false⟩ = ⟨bytes, false⟩ := rfl

/-- The stream of a call that has queried so many servers. -/
def packets (pktHeader : Header) (pktPayload : Question) : ℕ → StringStream
  | 0 => .empty
  | count + 1 => writePacket pktHeader pktPayload (packets pktHeader pktPayload count)

def copies (pktHeader : Header) (pktPayload : Question) (count : ℕ) : Bytes :=
  (List.replicate count (queryDatagram pktHeader pktPayload)).flatten

theorem copies_succ (count : ℕ) : copies pktHeader pktPayload (count + 1)
    = copies pktHeader pktPayload count ++ queryDatagram pktHeader pktPayload := by
  rw [copies, List.replicate_succ', List.flatten_concat, copies]

theorem copies_one : copies pktHeader pktPayload 1 = queryDatagram pktHeader pktPayload := by
  rw [copies, List.replicate_one, List.flatten_singleton]

theorem length_copies (pktHeader : Header) (hfits : pktPayload.Fits) (count : ℕ) :
    (copies pktHeader pktPayload count).length = count * (28 + pktPayload.numBytes.toNat) := by
  rw [copies, List.length_flatten, List.map_replicate, List.sum_replicate_nat,
    length_queryDatagram hfits]

theorem packets_eq_copies (hnum : 0 ≤ pktPayload.numBytes) (count : ℕ) :
    packets pktHeader pktPayload count = ⟨copies pktHeader pktPayload count, true⟩ := by
  induction count with
  | zero => rfl
  | succ count ih => rw [packets, ih, writes_queryDatagram pktHeader hnum, copies_succ]

theorem packets_negative (hnum : pktPayload.numBytes < 0) (count : ℕ) :
    packets pktHeader pktPayload (count + 1) = ⟨headerBytes pktHeader, false⟩ := by
  induction count with
  | zero => exact writePacket_negative hnum []
  | succ count ih => rw [packets, ih, writePacket_bad]

/-! ### What the stream holds -/

/-- The stream of every active call, and every datagram sent, is what the rounds so far wrote. -/
structure Accumulates (pktHeader : Header) (pktPayload : Question) (c : Config) : Prop where
  frames : ∀ f ∈ c.frames, f.dnsPacket = packets pktHeader pktPayload f.queried
  sent : ∀ e ∈ c.sent, e.datagram = (packets pktHeader pktPayload (e.earlier + 1)).bytes
    ∧ e.offset = (e.datagram.length - 11) % 2 ^ 32

theorem accumulates_start (servers stack : List Server) :
    Accumulates pktHeader pktPayload (start servers stack) where
  frames := by simp [start, enter, packets]
  sent := by simp [start]

theorem Accumulates.queryServer {c : Config} {f : Frame} {callers : List Frame} {srvNum : ℕ}
    {s : Server} {reply : Server → Bytes → ℕ → Except Fault Parsed}
    (h : Accumulates pktHeader pktPayload c) (hframes : c.frames = f :: callers) :
    Accumulates pktHeader pktPayload
      (queryServer pktHeader pktPayload c f callers srvNum s reply) := by
  have hpacket : writePacket pktHeader pktPayload f.dnsPacket
      = packets pktHeader pktPayload (f.queried + 1) := by
    rw [h.frames f (by simp [hframes]), packets]
  have hcons : ∀ f' : Frame, f'.dnsPacket = packets pktHeader pktPayload f'.queried →
      ∀ g ∈ f' :: callers, g.dnsPacket = packets pktHeader pktPayload g.queried := by
    intro f' hf'
    exact List.forall_mem_cons.mpr ⟨hf', fun g hg => h.frames g (by simp [hframes, hg])⟩
  constructor
  · intro g hg
    rw [Resolver.queryServer] at hg
    rcases frames_afterParse (reply s (writePacket pktHeader pktPayload f.dnsPacket).bytes _)
      with heq | heq | ⟨servers, heq⟩
    · rw [heq] at hg
      exact hcons _ hpacket g hg
    · rw [heq] at hg
      exact hcons _ hpacket g hg
    · rw [heq] at hg
      rcases List.mem_cons.mp hg with rfl | hg
      · rfl
      · exact hcons _ hpacket g hg
  · intro e he
    rw [Resolver.queryServer, sent_afterParse] at he
    rcases List.mem_append.mp he with hold | hnew
    · exact h.sent e hold
    · rw [List.mem_singleton.mp hnew]
      exact ⟨congrArg StringStream.bytes hpacket, rfl⟩

theorem Accumulates.step {c c' : Config} {input : Input} (h : Accumulates pktHeader pktPayload c)
    (hstep : step pktHeader pktPayload c input = some c') :
    Accumulates pktHeader pktPayload c' := by
  cases (step_round hstep).2 with
  | @skip f callers s hframes _ _ =>
      refine ⟨fun g hg => ?_, h.sent⟩
      rcases List.mem_cons.mp hg with rfl | hg
      · exact h.frames f (by simp [hframes])
      · exact h.frames g (by simp [hframes, hg])
  | query hframes _ _ => exact h.queryServer hframes
  | exhausted _ _ => exact ⟨h.frames, h.sent⟩
  | leave _ _ => exact ⟨by simp, h.sent⟩
  | @resume f g callers hframes _ =>
      refine ⟨fun k hk => ?_, h.sent⟩
      rcases List.mem_cons.mp hk with rfl | hk
      · exact h.frames g (by simp [hframes])
      · exact h.frames k (by simp [hframes, hk])

theorem reaches_accumulates {servers stack : List Server} {c : Config}
    (hreach : Reaches (step pktHeader pktPayload) (fun _ _ => True) (start servers stack) c) :
    Accumulates pktHeader pktPayload c :=
  hreach.invariant (accumulates_start servers stack) fun _ _ _ h _ hstep => h.step hstep

/-- **The datagrams of a run.** For every header and question, and in every run of `attempt`, over
any network and any random picks, a datagram and its parse offset are right exactly when the call
that sent it had queried no server before and what the question counts lies within `QNAME`. -/
theorem sent_right_iff {servers stack : List Server} {c : Config}
    (hreach : Reaches (step pktHeader pktPayload) (fun _ _ => True) (start servers stack) c) :
    ∀ e ∈ c.sent, e.Right pktHeader pktPayload ↔ e.earlier = 0 ∧ pktPayload.Fits := by
  intro e he
  obtain ⟨hdatagram, hoffset⟩ := (reaches_accumulates hreach).sent e he
  rw [Sent.Right, exists_name_iff]
  constructor
  · rintro ⟨⟨hfits, hright⟩, -⟩
    refine ⟨?_, hfits⟩
    have hlen := length_copies pktHeader hfits (e.earlier + 1)
    rw [packets_eq_copies hfits.1] at hdatagram
    dsimp only at hdatagram
    rw [← hdatagram, hright, length_queryDatagram hfits] at hlen
    by_contra hne
    have : 1 * (28 + pktPayload.numBytes.toNat)
        < (e.earlier + 1) * (28 + pktPayload.numBytes.toNat) :=
      Nat.mul_lt_mul_of_pos_right (by omega) (by omega)
    omega
  · rintro ⟨hfirst, hfits⟩
    rw [hfirst, packets_eq_copies hfits.1, Nat.zero_add, copies_one] at hdatagram
    refine ⟨⟨hfits, hdatagram⟩, ?_⟩
    have hlen : (queryDatagram pktHeader pktPayload).length = 28 + pktPayload.numBytes.toNat :=
      length_queryDatagram hfits
    obtain ⟨hlow, hhigh⟩ := hfits
    have hmax : filenameMax = 4096 := rfl
    rw [hoffset, hdatagram, hlen]
    omega

/-- With a negative count, every server is sent the header and nothing else. -/
theorem sent_of_negative (hneg : pktPayload.numBytes < 0) {servers stack : List Server}
    {c : Config}
    (hreach : Reaches (step pktHeader pktPayload) (fun _ _ => True) (start servers stack) c) :
    ∀ e ∈ c.sent, e.datagram = headerBytes pktHeader ∧ e.offset = 1 := by
  intro e he
  obtain ⟨hdatagram, hoffset⟩ := (reaches_accumulates hreach).sent e he
  rw [packets_negative hneg] at hdatagram
  refine ⟨hdatagram, ?_⟩
  rw [hoffset, hdatagram, length_headerBytes]
  rfl

/-! ### Two servers that refuse -/

def sampleHeader : Header := ⟨0, 0, 1, 0, 0, 1⟩

def sampleQuestion : Question where
  numBytes := 2
  qname := [1, 97] ++ List.replicate 4094 0
  qtype := 28
  qclass := 1
  qodd := [0, 0, 41, 16, 0, 0, 0, 128, 0, 0, 0]
  length_qname := by rw [List.length_append, List.length_replicate]; rfl
  length_qodd := rfl

def refusing (rand : ℕ) : Input :=
  ⟨rand, parseReply 0 fun _ _ => [0, 0, 128, 5, 0, 0, 0, 0, 0, 0, 0, 0]⟩

def samplePair : List Server := [⟨ofString "198.41.0.4", ofString "ns.internic.net"⟩,
  ⟨ofString "192.228.79.201", ofString "ns1.isi.edu"⟩]

theorem two_rounds_sent :
    (along (step sampleHeader sampleQuestion) (start samplePair []) (fun _ => refusing 0) 2).map
        (fun c => c.sent.map fun e => (e.earlier, e.datagram.length))
      = some [(0, 30), (1, 60)] := by
  rfl

theorem sampleQuestion_fits : sampleQuestion.Fits := by
  constructor <;> decide

theorem exists_reaches_two_sent :
    ∃ c, Reaches (step sampleHeader sampleQuestion) (fun _ _ => True) (start samplePair []) c
      ∧ (∃ e ∈ c.sent, e.earlier = 0 ∧ e.datagram.length = 30)
      ∧ ∃ e ∈ c.sent, e.earlier = 1 ∧ e.datagram.length = 60 := by
  obtain ⟨c, hc, hsent⟩ := Option.map_eq_some_iff.mp two_rounds_sent
  have hmem : ∀ p ∈ [(0, 30), (1, 60)],
      ∃ e ∈ c.sent, e.earlier = p.1 ∧ e.datagram.length = p.2 := by
    intro p hp
    rw [← hsent] at hp
    obtain ⟨e, he, rfl⟩ := List.mem_map.mp hp
    exact ⟨e, he, rfl, rfl⟩
  exact ⟨c, reaches_of_along _ (fun _ _ => trivial) hc, hmem _ (.head _),
    hmem _ (.tail _ (.head _))⟩

/-- The second server is sent sixty bytes in place of the thirty of the query. -/
theorem second_datagram_not_right :
    ∃ c, Reaches (step sampleHeader sampleQuestion) (fun _ _ => True) (start samplePair []) c
      ∧ ∃ e ∈ c.sent, ¬ e.Right sampleHeader sampleQuestion := by
  obtain ⟨c, hreach, -, e, he, -, hlen⟩ := exists_reaches_two_sent
  refine ⟨c, hreach, e, he, fun hright => ?_⟩
  rw [(exists_name_iff.mp hright.1).2, length_queryDatagram sampleQuestion_fits] at hlen
  exact absurd hlen (by decide)

/-- The first datagram is right, and the second is not. -/
theorem sent_right_iff_sample :
    ∃ c, Reaches (step sampleHeader sampleQuestion) (fun _ _ => True) (start samplePair []) c
      ∧ (∃ e ∈ c.sent, e.Right sampleHeader sampleQuestion)
      ∧ ∃ e ∈ c.sent, ¬ e.Right sampleHeader sampleQuestion := by
  obtain ⟨c, hreach, ⟨e, he, hfirst, -⟩, e', he', hsecond, -⟩ := exists_reaches_two_sent
  refine ⟨c, hreach, ⟨e, he, ?_⟩, e', he', fun hright => ?_⟩
  · exact (sent_right_iff hreach e he).mpr ⟨hfirst, sampleQuestion_fits⟩
  · exact absurd (hsecond.symm.trans ((sent_right_iff hreach e' he').mp hright).1) (by decide)

end Networking.Resolver
