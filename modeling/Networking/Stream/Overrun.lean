import Networking.Stream.Decoding

/-!
# The buffer of a string

`operator>>(std::string&)` asks for `len + 1` bytes of memory and lets `Recv` fill them. The size is
a `uint32_t`, `Recv` is told a `size_t` and counts in an `int`. Here all of them wrap around, as
machine integers do, so that it can be told where each byte goes.
-/

namespace Networking.Stream

open Fuel Segment Wire

/-- The bytes that one call of `recv` stores from `ptr + total` on. -/
structure Write where
  total : BitVec 32
  bytes : Bytes

def Write.offset (w : Write) : ℤ := w.total.toInt

/-- What the loop of `Recv` stores. The sign of `total` is copied where it meets a `size_t`. -/
def recvWrites (recvs : ℕ → Progress) (size : BitVec 64) : ℕ → ℕ → BitVec 32 → Bytes → List Write
  | 0, _, _, _ => []
  | fuel + 1, call, total, stream =>
      if total.signExtend 64 = size then
        []
      else
        match recv (recvs call) (size - total.signExtend 64).toNat stream with
        | none => []
        | some (bytes, stream) =>
            let ret := BitVec.ofNat 32 bytes.length
            ⟨total, bytes⟩ ::
              if ret = -1 then [] else recvWrites recvs size fuel (call + 1) (total + ret) stream

/-- The memory of a string: its size, the index of the terminating zero, and what is stored. -/
structure Buffer where
  size : BitVec 32
  terminator : BitVec 32
  writes : List Write

def stringBuffer (c : Source) (len : BitVec 32) (i : Input) (fuel : ℕ) : Buffer where
  size := len + 1
  terminator := len
  writes := recvWrites (fun k => c.recvs (i.call + k)) (len.signExtend 64) fuel 0 0 i.stream

/-- `operator>>(std::string&)`, as far as the fuel lasts. -/
def stringWrites (c : Source) (i : Input) (fuel : ℕ) : Except Stuck Buffer :=
  decodeUnsignedInt c i fuel >>= fun p => .ok (stringBuffer c p.1 p.2 fuel)

/-- The number of bytes stored. -/
def stored (writes : List Write) : ℕ := (writes.map fun w => w.bytes.length).sum

/-- Nothing is written outside the memory. -/
structure Buffer.Inside (b : Buffer) : Prop where
  terminator : b.terminator.toNat < b.size.toNat
  writes : ∀ w ∈ b.writes, ∀ j < w.bytes.length, 0 ≤ w.offset + j ∧ w.offset + j < b.size.toNat
  stored : stored b.writes ≤ b.size.toNat

/-- No sum in `total` leaves the range of an `int`. -/
def Buffer.Exact (b : Buffer) : Prop := ∀ w ∈ b.writes, w.offset + w.bytes.length < 2 ^ 31

/-- The length is read, and however long the loop of `Recv` then goes on, the property holds. -/
def Throughout (P : Buffer → Prop) (c : Source) (i : Input) : Prop :=
  ∃ depth, ∀ fuel, depth ≤ fuel → ∃ b, stringWrites c i fuel = .ok b ∧ P b

variable {recvs : ℕ → Progress} {size : BitVec 64} {len total : BitVec 32} {stream rest : Bytes}
  {c : Source} {i j : Input} {n k call fuel : ℕ} {P : Buffer → Prop}

/-! ### Machine integers -/

theorem toNat_total (hn : n < 2 ^ 31) : ((BitVec.ofNat 32 n).signExtend 64).toNat = n := by
  have htoNat : (BitVec.ofNat 32 n).toNat = n := toNat_ofNat_of_lt (by omega)
  rw [toNat_signExtend_of_lt (by omega), htoNat]

theorem toInt_total (hn : n < 2 ^ 31) : (BitVec.ofNat 32 n).toInt = n := by
  have htoNat : (BitVec.ofNat 32 n).toNat = n := toNat_ofNat_of_lt (by omega)
  rw [BitVec.toInt_eq_toNat_of_lt (by omega), htoNat]

theorem toNat_request (hn : n < 2 ^ 31) (hle : n ≤ size.toNat) :
    (size - (BitVec.ofNat 32 n).signExtend 64).toNat = size.toNat - n := by
  have htotal := toNat_total hn
  rw [BitVec.toNat_sub_of_le (by rw [BitVec.le_def]; omega), htotal]

theorem toNat_signExtend_of_le (hlen : 2 ^ 31 ≤ len.toNat) :
    (len.signExtend 64).toNat = len.toNat + (2 ^ 64 - 2 ^ 32) := by
  have hmsb : len.msb = true := by
    rw [BitVec.msb_eq_decide]
    exact decide_eq_true (by omega)
  rw [BitVec.toNat_signExtend, hmsb, BitVec.toNat_setWidth, if_pos rfl]
  have := len.isLt
  omega

theorem ofNat_ne_neg_one (hk : k < 2 ^ 31) : BitVec.ofNat 32 k ≠ -1 := by
  intro h
  have htoNat := congrArg BitVec.toNat h
  rw [toNat_ofNat_of_lt (by omega)] at htoNat
  change k = 2 ^ 32 - 1 at htoNat
  omega

theorem toNat_size (hlen : len.toNat < 2 ^ 32 - 1) : (len + 1).toNat = len.toNat + 1 := by
  have hone : (1 : BitVec 32).toNat = 1 := rfl
  rw [BitVec.toNat_add, hone]
  omega

theorem offset_eq {w : Write} (htotal : w.total = BitVec.ofNat 32 n) (hn : n < 2 ^ 31) :
    w.offset = n := by
  rw [Write.offset, htotal, toInt_total hn]

/-! ### Writes inside -/

/-- Behind `n` bytes the loop goes on, and a call of `recv` stores `bytes`. -/
def Moves (recvs : ℕ → Progress) (size : BitVec 64) (n : ℕ) (stream bytes rest : Bytes) : Prop :=
  (BitVec.ofNat 32 n).signExtend 64 ≠ size ∧ ∃ call,
    recv (recvs call) (size - (BitVec.ofNat 32 n).signExtend 64).toNat stream = some (bytes, rest)

/-- **What the loop stores** stays below a limit that the number of bytes stored keeps to. The
property `Holds` is of this number and of the bytes still to come. -/
theorem recvWrites_below {limit : ℕ} (Holds : ℕ → Bytes → Prop)
    (hlimit : ∀ n stream, Holds n stream → n ≤ limit)
    (hstep : ∀ n stream bytes rest, Holds n stream → Moves recvs size n stream bytes rest →
      Holds (n + bytes.length) rest)
    (h : Holds n stream) (fuel call : ℕ) :
    (∀ w ∈ recvWrites recvs size fuel call (BitVec.ofNat 32 n) stream,
      ∃ k, w.total = BitVec.ofNat 32 k ∧ (BitVec.ofNat 32 k).signExtend 64 ≠ size
        ∧ k + w.bytes.length ≤ limit)
    ∧ n + stored (recvWrites recvs size fuel call (BitVec.ofNat 32 n) stream) ≤ limit := by
  induction fuel generalizing call n stream with
  | zero => exact ⟨nofun, hlimit n stream h⟩
  | succ fuel ih =>
      rw [recvWrites]
      split_ifs with hdone
      · exact ⟨nofun, hlimit n stream h⟩
      · cases hrecv : recv (recvs call) (size - (BitVec.ofNat 32 n).signExtend 64).toNat stream with
        | none => exact ⟨nofun, hlimit n stream h⟩
        | some p =>
            obtain ⟨bytes, rest⟩ := p
            have hnext := hstep n stream bytes rest h ⟨hdone, call, hrecv⟩
            have hfirst : ∃ k, BitVec.ofNat 32 n = BitVec.ofNat 32 k
                ∧ (BitVec.ofNat 32 k).signExtend 64 ≠ size ∧ k + bytes.length ≤ limit :=
              ⟨n, rfl, hdone, hlimit _ _ hnext⟩
            dsimp only
            split_ifs with hret
            · refine ⟨fun w hw => ?_, hlimit _ _ hnext⟩
              obtain rfl := List.mem_singleton.mp hw
              exact hfirst
            · rw [← BitVec.ofNat_add]
              obtain ⟨hlater, hsum⟩ := ih hnext (call + 1)
              refine ⟨fun w hw => ?_, ?_⟩
              · rcases List.mem_cons.mp hw with rfl | hw
                · exact hfirst
                · exact hlater w hw
              · rw [stored, List.map_cons, List.sum_cons, ← Nat.add_assoc]
                exact hsum

/-- Below `2 ^ 31` every call asks for what is left of the length. -/
theorem recvWrites_of_lt (hlen : len.toNat < 2 ^ 31) (recvs : ℕ → Progress) (fuel : ℕ)
    (stream : Bytes) :
    (∀ w ∈ recvWrites recvs (len.signExtend 64) fuel 0 0 stream,
      0 ≤ w.offset ∧ w.offset + w.bytes.length ≤ len.toNat)
    ∧ stored (recvWrites recvs (len.signExtend 64) fuel 0 0 stream) ≤ len.toNat := by
  have hsize := toNat_signExtend_of_lt hlen
  have hstep : ∀ n stream bytes rest, n ≤ len.toNat →
      Moves recvs (len.signExtend 64) n stream bytes rest → n + bytes.length ≤ len.toNat := by
    rintro n stream bytes rest h ⟨-, call, hrecv⟩
    have hasked := (recv_spec hrecv).2.1
    rw [toNat_request (by omega) (by omega)] at hasked
    omega
  obtain ⟨hwrites, hstored⟩ := recvWrites_below (fun n _ => n ≤ len.toNat) (fun _ _ h => h) hstep
    (Nat.zero_le len.toNat) fuel 0
  refine ⟨fun w hw => ?_, by rwa [Nat.zero_add] at hstored⟩
  obtain ⟨k, htotal, -, hk⟩ := hwrites w hw
  have hoffset := offset_eq htotal (by omega)
  omega

theorem inside_of_lt (hlen : len.toNat < 2 ^ 31) (c : Source) (i : Input) (fuel : ℕ) :
    (stringBuffer c len i fuel).Inside := by
  have hsize : (len + 1).toNat = len.toNat + 1 := toNat_size (by omega)
  obtain ⟨hwrites, hstored⟩ := recvWrites_of_lt hlen (fun k => c.recvs (i.call + k)) fuel i.stream
  constructor
  · change len.toNat < (len + 1).toNat
    omega
  · intro w hw j hj
    change 0 ≤ w.offset + j ∧ w.offset + j < ((len + 1).toNat : ℤ)
    have := hwrites w hw
    omega
  · change stored _ ≤ (len + 1).toNat
    exact hstored.trans (by omega)

/-- At `2 ^ 31` a call asks for nearly `2 ^ 64` bytes, and it is the stream that sets the limit. The
loop ends when `2 ^ 31` bytes are stored, and may miss this by one. -/
theorem inside_of_eq (hlen : len.toNat = 2 ^ 31) (hstream : i.stream.length ≤ 2 ^ 31 + 1)
    (c : Source) (fuel : ℕ) : (stringBuffer c len i fuel).Inside := by
  have hsize : (len + 1).toNat = len.toNat + 1 := toNat_size (by omega)
  have hlen' : len = BitVec.ofNat 32 (2 ^ 31) := BitVec.eq_of_toNat_eq (hlen.trans rfl)
  have hstep : ∀ n stream bytes rest, n + stream.length ≤ 2 ^ 31 + 1 →
      Moves (fun k => c.recvs (i.call + k)) (len.signExtend 64) n stream bytes rest →
      n + bytes.length + rest.length ≤ 2 ^ 31 + 1 := by
    rintro n stream bytes rest h ⟨-, call, hrecv⟩
    have happend := congrArg List.length (recv_spec hrecv).1
    rw [List.length_append] at happend
    omega
  obtain ⟨hwrites, hstored⟩ := recvWrites_below (fun n stream => n + stream.length ≤ 2 ^ 31 + 1)
    (fun _ _ h => le_of_add_le_left h) hstep (by omega : 0 + i.stream.length ≤ 2 ^ 31 + 1) fuel 0
  constructor
  · change len.toNat < (len + 1).toNat
    omega
  · intro w hw j hj
    change 0 ≤ w.offset + j ∧ w.offset + j < ((len + 1).toNat : ℤ)
    obtain ⟨k, htotal, hne, hk⟩ := hwrites w hw
    -- no byte is stored from `2 ^ 31` on: there the loop ends
    have hk' : k ≠ 2 ^ 31 := fun h => hne (by rw [h, hlen'])
    have hoffset := offset_eq htotal (by omega)
    omega
  · change stored _ ≤ (len + 1).toNat
    rw [Nat.zero_add] at hstored
    exact hstored.trans (by omega)

/-! ### Writes outside -/

/-- Every call gets `count` bytes, if so many are asked for and have come. -/
def pieces (count : ℕ) : Source := { zeroSource with recvs := fun _ => .upTo count }

theorem pieces_recvs (count j : ℕ) : (pieces count).recvs j ≠ .failed := nofun

theorem recvWrites_pieces (hdone : (BitVec.ofNat 32 n).signExtend 64 ≠ size) (hpos : 0 < k)
    (hk : k < 2 ^ 31) (hasked : k ≤ (size - (BitVec.ofNat 32 n).signExtend 64).toNat)
    (hstream : k ≤ stream.length) (fuel call : ℕ) :
    recvWrites (fun _ => .upTo k) size (fuel + 1) call (BitVec.ofNat 32 n) stream
      = ⟨BitVec.ofNat 32 n, stream.take k⟩ ::
        recvWrites (fun _ => .upTo k) size fuel (call + 1) (BitVec.ofNat 32 (n + k))
          (stream.drop k) := by
  have hlength : (stream.take k).length = k := List.length_take_of_le hstream
  have hret : BitVec.ofNat 32 k ≠ -1 := ofNat_ne_neg_one hk
  rw [recvWrites, if_neg hdone, recv_upTo hpos hasked hstream]
  dsimp only
  rw [hlength, if_neg hret, ← BitVec.ofNat_add]

/-- As long as bytes come and the loop goes on, there is a write. -/
theorem exists_mem_recvWrites (hc : ∀ j, recvs j ≠ .failed) (hdone : total.signExtend 64 ≠ size)
    (hstream : stream ≠ []) (fuel call : ℕ) :
    ∃ w ∈ recvWrites recvs size (fuel + 1) call total stream,
      w.total = total ∧ 0 < w.bytes.length := by
  obtain ⟨bytes, rest, hrecv⟩ := exists_recv (hc call) (size - total.signExtend 64).toNat stream
  have hasked : 0 < (size - total.signExtend 64).toNat := by
    rw [Nat.pos_iff_ne_zero]
    intro hzero
    have heq : size - total.signExtend 64 = 0#64 := BitVec.eq_of_toNat_eq hzero
    rw [BitVec.sub_eq_iff_eq_add, BitVec.zero_add] at heq
    exact hdone heq.symm
  refine ⟨⟨total, bytes⟩, ?_, rfl, (recv_spec hrecv).2.2 hasked hstream⟩
  rw [recvWrites, if_neg hdone, hrecv]
  exact List.mem_cons_self

/-- From `2 ^ 31` on, the first two calls ask for more than they get. -/
theorem recvWrites_two (hlen : 2 ^ 31 ≤ len.toNat) (hpos : 0 < k) (hk : k < 2 ^ 31)
    (hstream : k + k ≤ stream.length) (fuel : ℕ) :
    recvWrites (fun _ => .upTo k) (len.signExtend 64) (fuel + 2) 0 0 stream
      = ⟨0, stream.take k⟩ :: ⟨BitVec.ofNat 32 k, (stream.drop k).take k⟩ ::
        recvWrites (fun _ => .upTo k) (len.signExtend 64) fuel 2 (BitVec.ofNat 32 (k + k))
          ((stream.drop k).drop k) := by
  have hsize := toNat_signExtend_of_le hlen
  have hdone : ∀ n < 2 ^ 31, (BitVec.ofNat 32 n).signExtend 64 ≠ len.signExtend 64 := by
    intro n hn
    have htotal := toNat_total hn
    exact ne_of_apply_ne BitVec.toNat (by omega)
  have hasked : ∀ n < 2 ^ 31,
      k ≤ (len.signExtend 64 - (BitVec.ofNat 32 n).signExtend 64).toNat := by
    intro n hn
    rw [toNat_request hn (by omega)]
    omega
  have hmore : k ≤ (stream.drop k).length := by
    rw [List.length_drop]
    omega
  have hfirst := recvWrites_pieces (hdone 0 (by omega)) hpos hk (hasked 0 (by omega))
    (by omega : k ≤ stream.length) (fuel + 1) 0
  simp only [Nat.zero_add] at hfirst
  rw [← recvWrites_pieces (hdone k hk) hpos hk (hasked k hk) hmore fuel 1]
  exact hfirst

theorem exists_second_piece (hlen : 2 ^ 31 ≤ len.toNat) (hpos : 0 < k) (hk : k < 2 ^ 31)
    (hstream : k + k ≤ i.stream.length) (fuel : ℕ) :
    ∃ w ∈ (stringBuffer (pieces k) len i (fuel + 2)).writes,
      w.offset = k ∧ w.bytes.length = k := by
  have hmore : k ≤ (i.stream.drop k).length := by
    rw [List.length_drop]
    omega
  refine ⟨⟨BitVec.ofNat 32 k, (i.stream.drop k).take k⟩, ?_, offset_eq rfl hk,
    List.length_take_of_le hmore⟩
  change _ ∈ recvWrites (fun _ => .upTo k) (len.signExtend 64) (fuel + 2) 0 0 i.stream
  rw [recvWrites_two hlen hpos hk hstream]
  exact List.mem_cons_of_mem _ List.mem_cons_self

/-- At `2 ^ 31`, in pieces of `2 ^ 30 + 1` bytes, the second piece goes one byte too far. -/
theorem not_inside_of_eq (hlen : len.toNat = 2 ^ 31) (hstream : 2 ^ 31 + 2 ≤ i.stream.length)
    (fuel : ℕ) : ¬(stringBuffer (pieces (2 ^ 30 + 1)) len i (fuel + 2)).Inside := by
  intro hinside
  obtain ⟨w, hw, hoffset, hlength⟩ := exists_second_piece (k := 2 ^ 30 + 1) (i := i) hlen.ge
    (by omega) (by omega) (by omega) fuel
  have hlast := (hinside.writes w hw (2 ^ 30) (by omega)).2
  have hsize : (stringBuffer (pieces (2 ^ 30 + 1)) len i (fuel + 2)).size.toNat = 2 ^ 31 + 1 :=
    (toNat_size (by omega)).trans (by omega)
  omega

/-- Above `2 ^ 31`, in pieces of `2 ^ 30` bytes, two of them bring `total` to `-2 ^ 31`. The loop
goes on, and the third piece is stored in front of the buffer. -/
theorem not_inside_of_gt (hlen : 2 ^ 31 < len.toNat) (hstream : 2 ^ 31 < i.stream.length)
    (fuel : ℕ) : ¬(stringBuffer (pieces (2 ^ 30)) len i (fuel + 3)).Inside := by
  intro hinside
  have hsize : (len.signExtend 64).toNat = len.toNat + (2 ^ 64 - 2 ^ 32) :=
    toNat_signExtend_of_le (by omega)
  have htotal : ((BitVec.ofNat 32 (2 ^ 31)).signExtend 64).toNat = 2 ^ 64 - 2 ^ 31 := by decide
  have hdone : (BitVec.ofNat 32 (2 ^ 31)).signExtend 64 ≠ len.signExtend 64 :=
    ne_of_apply_ne BitVec.toNat (by omega)
  have hmore : (i.stream.drop (2 ^ 30)).drop (2 ^ 30) ≠ [] := by
    rw [List.drop_drop, Ne, List.drop_eq_nil_iff]
    omega
  obtain ⟨w, hw, hw', hpos⟩ :=
    exists_mem_recvWrites (pieces_recvs (2 ^ 30)) hdone hmore fuel 2
  have hmem : w ∈ (stringBuffer (pieces (2 ^ 30)) len i (fuel + 3)).writes := by
    change w ∈ recvWrites (fun _ => .upTo (2 ^ 30)) (len.signExtend 64) (fuel + 1 + 2) 0 0 i.stream
    rw [recvWrites_two hlen.le (by omega) (by omega) (by omega)]
    exact List.mem_cons_of_mem _ (List.mem_cons_of_mem _ hw)
  have hbefore := (hinside.writes w hmem 0 hpos).1
  have hoffset : w.offset = -2 ^ 31 := by
    rw [Write.offset, hw']
    decide
  omega

/-- From `2 ^ 31` on, the sum of two pieces of `2 ^ 30` bytes is no `int`. -/
theorem not_exact_of_le (hlen : 2 ^ 31 ≤ len.toNat) (hstream : 2 ^ 31 ≤ i.stream.length)
    (fuel : ℕ) : ¬(stringBuffer (pieces (2 ^ 30)) len i (fuel + 2)).Exact := by
  intro hexact
  obtain ⟨w, hw, hoffset, hlength⟩ := exists_second_piece (k := 2 ^ 30) (i := i) hlen (by omega)
    (by omega) (by omega) fuel
  have hsum := hexact w hw
  omega

/-! ### Every length and every way in which the bytes arrive -/

theorem throughout_iff (h : Returns (decodeUnsignedInt c i) (len, j)) :
    Throughout P c i ↔ ∃ depth, ∀ fuel, depth ≤ fuel → P (stringBuffer c len j fuel) := by
  obtain ⟨start, hstart⟩ := h
  have hbuffer : ∀ fuel, start ≤ fuel →
      stringWrites c i fuel = .ok (stringBuffer c len j fuel) := by
    intro fuel hfuel
    rw [stringWrites, hstart fuel hfuel, ok_bind]
  constructor
  · rintro ⟨depth, hdepth⟩
    refine ⟨max start depth, fun fuel hfuel => ?_⟩
    obtain ⟨b, hb, hP⟩ := hdepth fuel (by omega)
    rw [hbuffer fuel (by omega)] at hb
    cases hb
    exact hP
  · rintro ⟨depth, hdepth⟩
    exact ⟨max start depth, fun fuel hfuel =>
      ⟨_, hbuffer fuel (by omega), hdepth fuel (by omega)⟩⟩

/-- A property that fails once the loop has gone `more` times fails in the end. -/
theorem not_throughout (more : ℕ) (h : Returns (decodeUnsignedInt c i) (len, j))
    (hP : ∀ fuel, ¬P (stringBuffer c len j (fuel + more))) : ¬Throughout P c i := by
  rw [throughout_iff h]
  rintro ⟨depth, hdepth⟩
  exact hP depth (hdepth (depth + more) (by omega))

theorem exists_returns_length (hc : ∀ j, c.recvs j ≠ .failed) (len : BitVec 32) (rest : Bytes) :
    ∃ call, Returns (decodeUnsignedInt c ⟨0, writeUnsignedInt len ++ rest⟩) (len, ⟨call, rest⟩) :=
  (returns_decodeUnsignedInt_iff hc).mpr rfl

/-- **A string is kept inside its buffer** for every length below `2 ^ 31`. At `2 ^ 31` itself it
depends on what else has arrived, and above the third call can write in front of the buffer. -/
theorem inside_iff (len : BitVec 32) (rest : Bytes) (hrest : len.toNat ≤ rest.length) :
    (∀ c : Source, (∀ j, c.recvs j ≠ .failed) →
      Throughout Buffer.Inside c ⟨0, writeUnsignedInt len ++ rest⟩)
      ↔ len.toNat < 2 ^ 31 ∨ len.toNat = 2 ^ 31 ∧ rest.length ≤ 2 ^ 31 + 1 := by
  constructor
  · intro hinside
    by_contra hnot
    rw [not_or, not_and_or] at hnot
    obtain ⟨hlarge, hfar⟩ := hnot
    rcases Nat.lt_or_ge (2 ^ 31) len.toNat with hgt | hle
    · obtain ⟨call, hlen⟩ := exists_returns_length (pieces_recvs (2 ^ 30)) len rest
      exact not_throughout 3 hlen (not_inside_of_gt hgt (by dsimp only; omega))
        (hinside (pieces (2 ^ 30)) (pieces_recvs _))
    · obtain ⟨call, hlen⟩ := exists_returns_length (pieces_recvs (2 ^ 30 + 1)) len rest
      exact not_throughout 2 hlen (not_inside_of_eq (by omega) (by dsimp only; omega))
        (hinside (pieces (2 ^ 30 + 1)) (pieces_recvs _))
  · intro hcond c hc
    obtain ⟨call, hlen⟩ := exists_returns_length hc len rest
    refine (throughout_iff hlen).mpr ⟨0, fun fuel _ => ?_⟩
    rcases hcond with hlt | ⟨heq, hlength⟩
    · exact inside_of_lt hlt c _ fuel
    · exact inside_of_eq heq hlength c fuel

/-- Where the decoding of a string comes to an end, it writes to its own memory only. -/
theorem inside_of_complete {len : BitVec 32} {rest : Bytes} {c : Source}
    (hcomplete : Complete .string (writeUnsignedInt len ++ rest))
    (hc : ∀ j, c.recvs j ≠ .failed) :
    Throughout Buffer.Inside c ⟨0, writeUnsignedInt len ++ rest⟩ := by
  obtain ⟨_, ⟨n, hn, bytes, -, rfl⟩, later, hlater⟩ := hcomplete
  have hread := congrArg readUnsignedInt hlater
  rw [List.append_assoc, readUnsignedInt_writeUnsignedInt,
    readUnsignedInt_writeUnsignedInt] at hread
  obtain rfl : BitVec.ofNat 32 n = len := congrArg Prod.fst (Option.some.inj hread)
  obtain ⟨call, hlen⟩ := exists_returns_length hc (BitVec.ofNat 32 n) rest
  refine (throughout_iff hlen).mpr ⟨0, fun fuel _ => inside_of_lt ?_ c _ fuel⟩
  rwa [toNat_ofNat_of_lt (by omega)]

/-- A string of two bytes is kept inside, in one piece and in two. -/
theorem inside_iff_two :
    Throughout Buffer.Inside (pieces 2) ⟨0, writeUnsignedInt 2 ++ [104, 105]⟩
      ∧ Throughout Buffer.Inside (pieces 1) ⟨0, writeUnsignedInt 2 ++ [104, 105]⟩ := by
  have hinside := (inside_iff 2 [104, 105] (by decide)).mpr (.inl (by decide))
  exact ⟨hinside (pieces 2) (pieces_recvs 2), hinside (pieces 1) (pieces_recvs 1)⟩

/-- With the greatest length no memory is asked for, and the terminating zero is already outside. -/
theorem not_inside_max :
    ¬∀ (len : BitVec 32) (rest : Bytes), len.toNat ≤ rest.length →
      ∀ c : Source, (∀ j, c.recvs j ≠ .failed) →
        Throughout Buffer.Inside c ⟨0, writeUnsignedInt len ++ rest⟩ := by
  intro hinside
  have hlength : (0xFFFFFFFF : BitVec 32).toNat
      ≤ (List.replicate (2 ^ 32 - 1) (0 : Byte)).length := by
    rw [List.length_replicate]
    decide
  obtain ⟨call, hlen⟩ := exists_returns_length zeroSource_recvs 0xFFFFFFFF
    (List.replicate (2 ^ 32 - 1) 0)
  refine not_throughout 0 hlen (fun fuel hbuffer => ?_)
    (hinside 0xFFFFFFFF _ hlength zeroSource zeroSource_recvs)
  have hterminator : (0xFFFFFFFF : BitVec 32).toNat < (0xFFFFFFFF + 1 : BitVec 32).toNat :=
    hbuffer.terminator
  exact absurd hterminator (by decide)

/-- **The count of `Recv` is exact** for the lengths below `2 ^ 31` and for no others. -/
theorem exact_iff (len : BitVec 32) (rest : Bytes) (hrest : len.toNat ≤ rest.length) :
    (∀ c : Source, (∀ j, c.recvs j ≠ .failed) →
      Throughout Buffer.Exact c ⟨0, writeUnsignedInt len ++ rest⟩) ↔ len.toNat < 2 ^ 31 := by
  constructor
  · intro hexact
    by_contra hlarge
    obtain ⟨call, hlen⟩ := exists_returns_length (pieces_recvs (2 ^ 30)) len rest
    exact not_throughout 2 hlen (not_exact_of_le (by omega) (by dsimp only; omega))
      (hexact (pieces (2 ^ 30)) (pieces_recvs _))
  · intro hlt c hc
    obtain ⟨call, hlen⟩ := exists_returns_length hc len rest
    refine (throughout_iff hlen).mpr ⟨0, fun fuel _ w hw => ?_⟩
    have := (recvWrites_of_lt hlt _ fuel rest).1 w hw
    omega

/-! ### The result -/

/-- The buffer after a write. -/
def Write.apply (data : Bytes) (w : Write) : Bytes := store data w.offset.toNat w.bytes

/-- Where `Recv` comes to an end, its writes one after the other give the buffer that it leaves. -/
theorem recvLoop_writes {data : Bytes} {ret : ℤ} {r : Received} (hn : n < 2 ^ 31)
    (hle : n ≤ size.toNat)
    (h : recvLoop recvs size.toNat fuel call n ret data stream = .ok r) :
    r.data
      = (recvWrites recvs size fuel call (BitVec.ofNat 32 n) stream).foldl Write.apply data := by
  induction fuel generalizing call n ret data stream with
  | zero => cases h
  | succ fuel ih =>
      have htotal := toNat_total hn
      have hdone : (BitVec.ofNat 32 n).signExtend 64 = size ↔ n = size.toNat := by
        rw [← BitVec.toNat_inj, htotal]
      rw [recvLoop] at h
      rw [recvWrites, toNat_request hn hle]
      simp only [hdone]
      split_ifs at h ⊢
      · cases h
        rfl
      · cases hrecv : recv (recvs call) (size.toNat - n) stream with
        | none =>
            rw [hrecv] at h
            cases h
            rfl
        | some p =>
            obtain ⟨bytes, rest⟩ := p
            rw [hrecv] at h
            dsimp only at h ⊢
            split_ifs at h with hsum
            have hasked := (recv_spec hrecv).2.1
            have hret : BitVec.ofNat 32 bytes.length ≠ -1 := ofNat_ne_neg_one (by omega)
            have hoffset : Write.offset ⟨BitVec.ofNat 32 n, bytes⟩ = n := offset_eq rfl hn
            rw [if_neg hret, ← BitVec.ofNat_add, List.foldl_cons, Write.apply, hoffset,
              Int.toNat_natCast]
            exact ih hsum (by omega) h

theorem Read_writes {buffer data : Bytes} (h : Read c buffer len i fuel = .ok (data, j)) :
    data = (recvWrites (fun k => c.recvs (i.call + k)) (len.signExtend 64) fuel 0 0
      i.stream).foldl Write.apply buffer := by
  obtain ⟨r, hr, hdata⟩ := bind_eq_ok.mp h
  cases hdata
  exact recvLoop_writes (n := 0) (by decide) (Nat.zero_le _) hr

/-- **Where a string is decoded**, nothing was written outside its buffer, and it is what the buffer
then holds up to the first zero. -/
theorem decodeString_writes {val : Bytes} (hc : ∀ j, c.recvs j ≠ .failed)
    (h : decodeString c i fuel = .ok (val, j)) :
    ∃ b, stringWrites c i fuel = .ok b ∧ b.Inside
      ∧ val
        = (b.writes.foldl Write.apply (c.stale b.terminator.toNat) ++ [0]).takeWhile (· ≠ 0) := by
  obtain ⟨⟨len, mid⟩, hlen, hbuf⟩ := bind_eq_ok.mp h
  dsimp only at hbuf
  split_ifs at hbuf with hzero
  · cases hbuf
  · obtain ⟨⟨buf, left⟩, hread, hval⟩ := bind_eq_ok.mp hbuf
    cases hval
    have hsmall := ((returns_Read_iff hc).mp ⟨_, (Read_stable c _ len mid).returns hread⟩).1
    refine ⟨stringBuffer c len mid fuel, ?_, inside_of_lt hsmall c mid fuel, ?_⟩
    · rw [stringWrites, hlen, ok_bind]
    · rw [Read_writes hread]
      rfl

end Networking.Stream
