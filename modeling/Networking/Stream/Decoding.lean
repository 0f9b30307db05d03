import Mathlib.Computability.Language
import Networking.Stream.RoundTrip
import Networking.Stream.Transfer

/-!
# Decoding from a peer that closes

When the peer has closed its end and everything has been read, `recv` returns 0, which `Recv` takes
for progress and asks again. So `operator>>` comes to an end exactly on the streams that begin with
a whole value, whatever pieces they arrive in.
-/

namespace Networking.Stream

open Fuel Segment Wire

/-- The number of calls of `recv` so far, and the bytes still to come. -/
structure Input where
  call : ℕ
  stream : Bytes

/-- The operators take from the input in turn. The fuel bounds the loops of `Recv`. -/
abbrev Decoder : Type → Type := StateT Input (ReaderT ℕ (Except Stuck))

/-- The receiving end: how far each call of `recv` gets, and what new memory holds. -/
structure Source where
  recvs : ℕ → Progress
  stale : ℕ → Bytes
  length_stale : ∀ n, (stale n).length = n

def stuck {α : Type} (e : Stuck) : Decoder α := fun _ _ => .error e

/-- `Read`. Its `int len` becomes the `size_t` of `Recv` with copies of its sign. -/
def Read (c : Source) (buffer : Bytes) (len : BitVec 32) : Decoder Bytes := fun i fuel =>
  Recv (fun k => c.recvs (i.call + k)) (len.signExtend 64).toNat buffer i.stream fuel >>= fun r =>
    .ok (r.data, ⟨i.call + r.calls, r.stream⟩)

def decodeInteger (c : Source) (p w n : ℕ) : Decoder (BitVec w) := do
  let data ← Read c (c.stale n) (BitVec.ofNat 32 n)
  pure ((getData p 0 data).setWidth w)

def decodeShort (c : Source) : Decoder (BitVec 16) := decodeInteger c 32 16 2

def decodeUnsignedShort (c : Source) : Decoder (BitVec 16) := decodeInteger c 32 16 2

def decodeInt (c : Source) : Decoder (BitVec 32) := decodeInteger c 32 32 4

def decodeUnsignedInt (c : Source) : Decoder (BitVec 32) := decodeInteger c 32 32 4

def decodeLong (c : Source) : Decoder (BitVec 64) := decodeInteger c 64 64 8

def decodeUnsignedLong (c : Source) : Decoder (BitVec 64) := decodeInteger c 64 64 8

/-- Every byte but 0 counts as true here. -/
def decodeBool (c : Source) (val : Bool) : Decoder Bool := do
  let data ← Read c (writeBool val) 1
  pure (data ≠ [0])

/-- The size of the buffer, `len + 1`, is computed in 32 bits. -/
def decodeString (c : Source) : Decoder Bytes := do
  let len ← decodeUnsignedInt c
  if len + 1 = 0 then
    stuck .overrun
  else do
    let buf ← Read c (c.stale len.toNat) len
    pure ((buf ++ [0]).takeWhile (· ≠ 0))

/-- `for(int i = 0; i < size; i++)` with `left` rounds to go. -/
def forSize {σ : Type} (body : σ → Decoder σ) : ℕ → ℕ → σ → Decoder σ
  | 0, _, s => pure s
  | left + 1, i, s => do
      let s ← body s
      if i + 1 < 2 ^ 31 then forSize body left (i + 1) s else stuck .overflow

/-- `operator>>`, call by call. -/
def decode (c : Source) (fresh : (t : Ty) → Value t) : (t : Ty) → Value t → Decoder (Value t)
  | .bool, val => decodeBool c val
  | .short, _ => decodeShort c
  | .unsignedShort, _ => decodeUnsignedShort c
  | .int, _ => decodeInt c
  | .unsignedInt, _ => decodeUnsignedInt c
  | .long, _ => decodeLong c
  | .unsignedLong, _ => decodeUnsignedLong c
  | .string, _ => decodeString c
  | .pair a b, (p : Value a × Value b) => do
      let first ← decode c fresh a p.1
      let second ← decode c fresh b p.2
      pure (first, second)
  | .vector a, _ => do
      let size ← decodeUnsignedInt c
      let s ← forSize (fun s : Value a × List (Value a) => do
        let curr ← decode c fresh a s.1
        pure (curr, s.2 ++ [curr])) size.toNat 0 (fresh a, [])
      pure s.2
  | .map a b, _ => do
      let size ← decodeUnsignedInt c
      let s ← forSize (fun s : Value a × Value b × SortedMap (Value a) (Value b) => do
        let currKey ← decode c fresh a s.1
        let currVal ← decode c fresh b s.2.1
        pure (currKey, currVal, s.2.2.assign currKey currVal)) size.toNat 0
        (fresh a, fresh b, .empty)
      pure s.2.2

/-! ### Whole values -/

def block (n : ℕ) : Language Byte := {s | s.length = n}

/-- A count below `2 ^ 31`, and a body for this count. -/
def counted (body : ℕ → Language Byte) : Language Byte :=
  {s | ∃ n < 2 ^ 31, ∃ bytes ∈ body n, s = writeUnsignedInt (BitVec.ofNat 32 n) ++ bytes}

/-- The byte strings that are a whole value of a type. -/
def encodings : Ty → Language Byte
  | .bool => block 1
  | .short | .unsignedShort => block 2
  | .int | .unsignedInt => block 4
  | .long | .unsignedLong => block 8
  | .string => counted block
  | .pair a b => encodings a * encodings b
  | .vector a => counted fun n => encodings a ^ n
  | .map a b => counted fun n => (encodings a * encodings b) ^ n

def Complete (t : Ty) (stream : Bytes) : Prop := ∃ s ∈ encodings t, s <+: stream

/-! ### What a decoder takes -/

/-- The decoder takes the strings of a language, and comes to an end on no other stream. -/
structure Decodes {α : Type} (f : Decoder α) (L : Language Byte) : Prop where
  stable : ∀ i, Stable .fuel (f i)
  returns_iff : ∀ call stream rest,
    (∃ a call', Returns (f ⟨call, stream⟩) (a, ⟨call', rest⟩)) ↔ ∃ s ∈ L, stream = s ++ rest

variable {α β σ : Type} {f : Decoder α} {g : α → Decoder β} {L M : Language Byte} {c : Source}

theorem returns_bind_iff (hf : ∀ i, Stable .fuel (f i)) {i : Input} {r : β × Input} :
    Returns ((f >>= g) i) r ↔ ∃ p, Returns (f i) p ∧ Returns (g p.1 p.2) r :=
  (hf i).returns_bind_iff (g := fun p fuel => g p.1 p.2 fuel)

theorem stable_bind (hf : ∀ i, Stable .fuel (f i)) (hg : ∀ a i, Stable .fuel (g a i)) (i : Input) :
    Stable .fuel ((f >>= g) i) :=
  (hf i).bind (g := fun p fuel => g p.1 p.2 fuel) fun p => hg p.1 p.2

theorem Decodes.bind (hf : Decodes f L) (hg : ∀ a, Decodes (g a) M) :
    Decodes (f >>= g) (L * M) := by
  refine ⟨stable_bind hf.stable fun a => (hg a).stable, fun call stream rest => ?_⟩
  constructor
  · rintro ⟨b, call', h⟩
    obtain ⟨⟨a, mid⟩, ha, hb⟩ := (returns_bind_iff hf.stable).mp h
    obtain ⟨s, hs, rfl⟩ := (hf.returns_iff call stream mid.stream).mp ⟨a, mid.call, ha⟩
    obtain ⟨s', hs', hmid⟩ := ((hg a).returns_iff mid.call mid.stream rest).mp ⟨b, call', hb⟩
    exact ⟨s ++ s', Language.append_mem_mul hs hs', by rw [hmid, List.append_assoc]⟩
  · rintro ⟨s, hs, rfl⟩
    obtain ⟨s₁, hs₁, s₂, hs₂, rfl⟩ := Language.mem_mul.mp hs
    obtain ⟨a, mid, ha⟩ := (hf.returns_iff call _ (s₂ ++ rest)).mpr
      ⟨s₁, hs₁, List.append_assoc s₁ s₂ rest⟩
    obtain ⟨b, call', hb⟩ := ((hg a).returns_iff mid _ rest).mpr ⟨s₂, hs₂, rfl⟩
    exact ⟨b, call', (returns_bind_iff hf.stable).mpr ⟨_, ha, hb⟩⟩

theorem decodes_pure (a : α) : Decodes (pure a) 1 := by
  refine ⟨fun i => stable_const (.ok (a, i)), fun call stream rest => ?_⟩
  constructor
  · rintro ⟨a', call', h⟩
    obtain ⟨depth, hdepth⟩ := h
    cases hdepth depth le_rfl
    exact ⟨[], Language.nil_mem_one, rfl⟩
  · rintro ⟨s, hs, rfl⟩
    obtain rfl := (Language.mem_one s).mp hs
    exact ⟨a, call, returns_of_forall fun _ => rfl⟩

theorem Decodes.map (hf : Decodes f L) (k : α → β) : Decodes (f >>= fun a => pure (k a)) L := by
  have h := hf.bind fun a => decodes_pure (k a)
  rwa [mul_one] at h

theorem decodes_stuck {e : Stuck} : Decodes (stuck e : Decoder α) 0 := by
  refine ⟨fun i => stable_const _, fun call stream rest => ?_⟩
  apply iff_of_false
  · rintro ⟨a, call', depth, hdepth⟩
    cases hdepth depth le_rfl
  · rintro ⟨s, hs, -⟩
    exact hs

/-- The counter of the loop is an `int`. -/
theorem decodes_forSize {body : σ → Decoder σ} (hbody : ∀ s, Decodes (body s) L) (left : ℕ) {i : ℕ}
    (hi : i < 2 ^ 31) (s : σ) :
    Decodes (forSize body left i s) (if i + left < 2 ^ 31 then L ^ left else 0) := by
  induction left generalizing i s with
  | zero =>
      rw [if_pos (by omega), pow_zero]
      exact decodes_pure s
  | succ left ih =>
      have hnext : ∀ s, Decodes
          (if i + 1 < 2 ^ 31 then forSize body left (i + 1) s else stuck .overflow)
          (if i + (left + 1) < 2 ^ 31 then L ^ left else 0) := by
        intro s
        by_cases hlast : i + 1 < 2 ^ 31
        · rw [if_pos hlast, Nat.add_comm left, ← Nat.add_assoc]
          exact ih hlast s
        · rw [if_neg hlast, if_neg (by omega)]
          exact decodes_stuck
      have h := (hbody s).bind hnext
      rwa [mul_ite, mul_zero, ← pow_succ'] at h

/-! ### Reading -/

variable {call : ℕ} {stream rest buffer data : Bytes} {len : BitVec 32}

theorem toNat_signExtend_of_lt (hlen : len.toNat < 2 ^ 31) :
    (len.signExtend 64).toNat = len.toNat := by
  have hmsb : len.msb = false := by
    rw [BitVec.msb_eq_decide]
    exact decide_eq_false (by omega)
  rw [BitVec.toNat_signExtend, hmsb, BitVec.toNat_setWidth]
  have := len.isLt
  simp only [Bool.false_eq_true, if_false]
  omega

theorem le_toNat_signExtend (hlen : 2 ^ 31 ≤ len.toNat) : 2 ^ 31 ≤ (len.signExtend 64).toNat := by
  rw [BitVec.toNat_signExtend, BitVec.toNat_setWidth]
  have := len.isLt
  omega

theorem Read_stable (c : Source) (buffer : Bytes) (len : BitVec 32) (i : Input) :
    Stable .fuel (Read c buffer len i) :=
  (Recv_stable _ _ _ _).bind fun _ => stable_const _

/-- `Read` comes to an end exactly if the stream lasts and the length keeps its sign. -/
theorem returns_Read_iff (hc : ∀ j, c.recvs j ≠ .failed) :
    (∃ call', Returns (Read c buffer len ⟨call, stream⟩) (data, ⟨call', rest⟩))
      ↔ len.toNat < 2 ^ 31 ∧ ∃ got : Bytes, got.length = len.toNat ∧ stream = got ++ rest
        ∧ data = got ++ buffer.drop got.length := by
  have hcalls : ∀ j, c.recvs (call + j) ≠ .failed := fun j => hc _
  constructor
  · rintro ⟨call', h⟩
    obtain ⟨r, hr, hdata⟩ := (Recv_stable _ _ _ _).returns_bind_iff.mp h
    obtain ⟨got, hgot⟩ := Recv_receives hr
    have hsize := ((exists_returns_Recv_iff hcalls).mp ⟨r, hr⟩).1
    have hlen : len.toNat < 2 ^ 31 := by
      by_contra hlarge
      exact absurd (le_toNat_signExtend (Nat.le_of_not_lt hlarge)) (Nat.not_le.mpr hsize)
    have hall := hgot.all fun k _ => hcalls k
    rw [toNat_signExtend_of_lt hlen] at hall
    obtain ⟨depth, hdepth⟩ := hdata
    have heq := Except.ok.inj (hdepth depth le_rfl)
    simp only [Prod.mk.injEq, Input.mk.injEq] at heq
    obtain ⟨rfl, -, rfl⟩ := heq
    exact ⟨hlen, got, hall, hgot.next, hgot.data_eq⟩
  · rintro ⟨hlen, got, hgot, rfl, rfl⟩
    rw [← toNat_signExtend_of_lt hlen] at hgot hlen
    obtain ⟨r, got', hr, hgot'⟩ := exists_Recv (fun j => c.recvs (call + j)) hlen buffer
      (got ++ rest) (.inl (by rw [List.length_append]; omega))
    have hall := hgot'.all fun k _ => hcalls k
    obtain ⟨rfl, hrest⟩ := List.append_inj hgot'.next (hgot.trans hall.symm)
    refine ⟨call + r.calls, hr.bind (returns_of_forall fun _ => ?_)⟩
    rw [hgot'.data_eq, hrest]

theorem Read_closed (hc : ∀ j, c.recvs j ≠ .failed) (hpos : 0 < len.toNat)
    (hlen : len.toNat < 2 ^ 31) (buffer : Bytes) (call fuel : ℕ) :
    Read c buffer len ⟨call, []⟩ fuel = .error .fuel := by
  have hsize := toNat_signExtend_of_lt hlen
  rw [Read, Recv, recvLoop_closed (fun j => hc _) (by omega) (by omega), error_bind]

theorem decodes_Read (hc : ∀ j, c.recvs j ≠ .failed) (buffer : Bytes) (len : BitVec 32) :
    Decodes (Read c buffer len) (if len.toNat < 2 ^ 31 then block len.toNat else 0) := by
  refine ⟨Read_stable c buffer len, fun call stream rest => ?_⟩
  simp only [returns_Read_iff hc]
  constructor
  · rintro ⟨data, hlen, got, hgot, rfl, -⟩
    rw [if_pos hlen]
    exact ⟨got, hgot, rfl⟩
  · rintro ⟨got, hgot, rfl⟩
    split_ifs at hgot with hlen
    · exact ⟨_, hlen, got, hgot, rfl, rfl⟩
    · cases hgot

theorem decodes_integer (hc : ∀ j, c.recvs j ≠ .failed) (p w : ℕ) {n : ℕ} (hn : n < 2 ^ 31) :
    Decodes (decodeInteger c p w n) (block n) := by
  have hlen : (BitVec.ofNat 32 n).toNat = n := toNat_ofNat_of_lt (by omega)
  have h := decodes_Read hc (c.stale n) (BitVec.ofNat 32 n)
  rw [hlen, if_pos hn] at h
  exact h.map _

theorem returns_decodeUnsignedInt_iff (hc : ∀ j, c.recvs j ≠ .failed) :
    (∃ call', Returns (decodeUnsignedInt c ⟨call, stream⟩) (len, ⟨call', rest⟩))
      ↔ stream = writeUnsignedInt len ++ rest := by
  have himage : writeUnsignedInt len = memory 4 len := by
    rw [writeUnsignedInt, putData_eq (by decide)]
  have hword : ∀ bytes : Bytes, (getData 32 0 bytes).setWidth 32 = ofMemory 32 bytes := by
    intro bytes
    rw [getData_eq, Nat.mul_zero, BitVec.shiftLeft_zero, BitVec.setWidth_eq]
  rw [himage]
  constructor
  · rintro ⟨call', h⟩
    obtain ⟨⟨bytes, i⟩, hread, hpure⟩ :=
      (returns_bind_iff (Read_stable c (c.stale 4) (BitVec.ofNat 32 4))).mp h
    obtain ⟨-, got, hgot, rfl, rfl⟩ := (returns_Read_iff hc).mp ⟨i.call, hread⟩
    obtain ⟨depth, hdepth⟩ := hpure
    have hlen : got.length = 4 := hgot
    have hempty : (c.stale 4).drop got.length = [] := by
      rw [List.drop_eq_nil_iff, c.length_stale, hlen]
    have heq := Except.ok.inj (hdepth depth le_rfl)
    simp only [Prod.mk.injEq] at heq
    obtain ⟨rfl, rfl⟩ := heq
    rw [hempty, List.append_nil, hword, memory_ofMemory (by decide) hlen]
  · rintro rfl
    have hempty : (c.stale 4).drop (memory 4 len).length = [] := by
      rw [List.drop_eq_nil_iff, c.length_stale, length_memory]
    obtain ⟨call', hread⟩ : ∃ call', Returns (Read c (c.stale 4) (BitVec.ofNat 32 4)
        ⟨call, memory 4 len ++ rest⟩) (_, ⟨call', rest⟩) :=
      (returns_Read_iff hc).mpr ⟨by decide, memory 4 len, length_memory 4 len, rfl, rfl⟩
    refine ⟨call', (returns_bind_iff (Read_stable c (c.stale 4) (BitVec.ofNat 32 4))).mpr
      ⟨_, hread, returns_of_forall fun fuel => ?_⟩⟩
    dsimp only
    rw [hempty, List.append_nil, hword, ofMemory_memory (by decide)]
    rfl

theorem decodes_counted (hc : ∀ j, c.recvs j ≠ .failed) {g : BitVec 32 → Decoder β}
    {body : ℕ → Language Byte}
    (hg : ∀ len, Decodes (g len) (if len.toNat < 2 ^ 31 then body len.toNat else 0)) :
    Decodes (decodeUnsignedInt c >>= g) (counted body) := by
  have hstable := (decodes_integer hc 32 32 (n := 4) (by decide)).stable
  refine ⟨stable_bind hstable fun len => (hg len).stable, fun call stream rest => ?_⟩
  constructor
  · rintro ⟨b, call', h⟩
    obtain ⟨⟨len, mid⟩, hlen, hb⟩ := (returns_bind_iff hstable).mp h
    obtain rfl := (returns_decodeUnsignedInt_iff hc).mp ⟨mid.call, hlen⟩
    obtain ⟨bytes, hbytes, hmid⟩ :=
      ((hg len).returns_iff mid.call mid.stream rest).mp ⟨b, call', hb⟩
    split_ifs at hbytes with hsmall
    · refine ⟨writeUnsignedInt len ++ bytes, ⟨len.toNat, hsmall, bytes, hbytes, ?_⟩, ?_⟩
      · rw [BitVec.ofNat_toNat, BitVec.setWidth_eq]
      · rw [hmid, List.append_assoc]
    · cases hbytes
  · rintro ⟨s, ⟨n, hn, bytes, hbytes, rfl⟩, rfl⟩
    have htoNat : (BitVec.ofNat 32 n).toNat = n := toNat_ofNat_of_lt (by omega)
    have hcount := List.append_assoc (writeUnsignedInt (BitVec.ofNat 32 n)) bytes rest
    obtain ⟨mid, hlen⟩ : ∃ mid, Returns (decodeUnsignedInt c ⟨call, _⟩)
        (BitVec.ofNat 32 n, ⟨mid, bytes ++ rest⟩) := (returns_decodeUnsignedInt_iff hc).mpr hcount
    obtain ⟨b, call', hb⟩ := ((hg (BitVec.ofNat 32 n)).returns_iff mid (bytes ++ rest) rest).mpr
      ⟨bytes, by rwa [htoNat, if_pos hn], rfl⟩
    exact ⟨b, call', (returns_bind_iff hstable).mpr ⟨_, hlen, hb⟩⟩

/-! ### Values -/

theorem decodes_string (hc : ∀ j, c.recvs j ≠ .failed) :
    Decodes (decodeString c) (counted block) := by
  apply decodes_counted hc
  intro len
  by_cases hlen : len + 1 = 0
  · have hlarge : ¬len.toNat < 2 ^ 31 := by
      have hsum := congrArg BitVec.toNat hlen
      rw [BitVec.toNat_add] at hsum
      intro hsmall
      have hone : (1 : BitVec 32).toNat = 1 := rfl
      have hzero : (0 : BitVec 32).toNat = 0 := rfl
      omega
    rw [if_pos hlen, if_neg hlarge]
    exact decodes_stuck
  · rw [if_neg hlen]
    exact (decodes_Read hc (c.stale len.toNat) len).map _

/-- **A decoder takes the values of its type**, and comes to an end on nothing else. -/
theorem decodes (hc : ∀ j, c.recvs j ≠ .failed) (fresh : (t : Ty) → Value t) (t : Ty)
    (val : Value t) : Decodes (decode c fresh t val) (encodings t) := by
  -- on the type; the values read before it are arbitrary, as they are in the loops
  induction t with
  | bool => exact (decodes_Read hc (writeBool val) 1).map _
  | short | unsignedShort => exact decodes_integer hc 32 16 (by decide)
  | int | unsignedInt => exact decodes_integer hc 32 32 (by decide)
  | long | unsignedLong => exact decodes_integer hc 64 64 (by decide)
  | string => exact decodes_string hc
  | pair a b iha ihb => exact (iha val.1).bind fun first => (ihb val.2).map _
  | vector a ih =>
      apply decodes_counted hc
      intro size
      have hitem : ∀ s : Value a × List (Value a), Decodes (do
          let curr ← decode c fresh a s.1
          pure (curr, s.2 ++ [curr])) (encodings a) := fun s => (ih s.1).map _
      have hloop := decodes_forSize hitem size.toNat (by decide : 0 < 2 ^ 31) (fresh a, [])
      rw [Nat.zero_add] at hloop
      exact hloop.map _
  | map a b iha ihb =>
      apply decodes_counted hc
      intro size
      have hentry : ∀ s : Value a × Value b × SortedMap (Value a) (Value b), Decodes (do
          let currKey ← decode c fresh a s.1
          let currVal ← decode c fresh b s.2.1
          pure (currKey, currVal, s.2.2.assign currKey currVal)) (encodings a * encodings b) :=
        fun s => (iha s.1).bind fun currKey => (ihb s.2.1).map _
      have hloop := decodes_forSize hentry size.toNat (by decide : 0 < 2 ^ 31)
        (fresh a, fresh b, .empty)
      rw [Nat.zero_add] at hloop
      exact hloop.map _

def zeroSource : Source :=
  ⟨fun _ => .whole, fun n => List.replicate n 0, fun _ => List.length_replicate⟩

theorem zeroSource_recvs (j : ℕ) : zeroSource.recvs j ≠ .failed := by
  intro hfailed
  cases hfailed

/-- **Decoding comes to an end** exactly when the stream begins with a whole value, with counts and
lengths below `2 ^ 31`. -/
theorem decode_returns_iff (hc : ∀ j, c.recvs j ≠ .failed) (fresh : (t : Ty) → Value t) (t : Ty)
    (val : Value t) (stream : Bytes) :
    (∃ r, Returns (decode c fresh t val ⟨0, stream⟩) r) ↔ Complete t stream := by
  have h := (decodes hc fresh t val).returns_iff 0 stream
  constructor
  · rintro ⟨⟨a, i⟩, hr⟩
    obtain ⟨s, hs, hstream⟩ := (h i.stream).mp ⟨a, i.call, hr⟩
    exact ⟨s, hs, i.stream, hstream.symm⟩
  · rintro ⟨s, hs, rest, hrest⟩
    obtain ⟨a, call', hr⟩ := (h rest).mpr ⟨s, hs, hrest.symm⟩
    exact ⟨_, hr⟩

/-- A peer that closes at once leaves the receiver of a truth value asking for ever. -/
theorem not_decode_ends :
    ¬∀ (c : Source) (fresh : (t : Ty) → Value t) (t : Ty) (val : Value t) (stream : Bytes),
      (∀ j, c.recvs j ≠ .failed) → Ends .fuel (decode c fresh t val ⟨0, stream⟩) := by
  intro hends
  have hnever : ∀ fuel, decode zeroSource zeroed .bool false ⟨0, []⟩ fuel = .error .fuel := by
    intro fuel
    have hread : Read zeroSource (writeBool false) 1 ⟨0, []⟩ fuel = .error .fuel :=
      Read_closed zeroSource_recvs (by decide) (by decide) (writeBool false) 0 fuel
    have hdecode : decode zeroSource zeroed .bool false ⟨0, []⟩ fuel
        = (Read zeroSource (writeBool false) 1 ⟨0, []⟩ fuel).bind fun p =>
            .ok (decide (p.1 ≠ [0]), p.2) := rfl
    rw [hdecode, hread]
    rfl
  exact not_ends hnever (hends zeroSource zeroed .bool false [] zeroSource_recvs)

/-- Of a pair of truth values, the second one may still be to come. -/
theorem decode_returns_iff_pair :
    (∃ r, Returns (decode zeroSource zeroed (.pair .bool .bool) (false, false) ⟨0, [1, 0]⟩) r)
      ∧ ¬∃ r, Returns (decode zeroSource zeroed (.pair .bool .bool) (false, false) ⟨0, [1]⟩) r := by
  have hiff := decode_returns_iff zeroSource_recvs zeroed (.pair .bool .bool) (false, false)
  constructor
  · refine (hiff [1, 0]).mpr ⟨[1, 0], ?_, List.prefix_rfl⟩
    exact Language.mem_mul.mpr ⟨[1], rfl, [0], rfl, rfl⟩
  · intro hreturns
    obtain ⟨s, hs, hprefix⟩ := (hiff [1]).mp hreturns
    obtain ⟨first, hfirst, second, hsecond, rfl⟩ := Language.mem_mul.mp hs
    have hlength := hprefix.length_le
    have hone : first.length = 1 := hfirst
    have hother : second.length = 1 := hsecond
    rw [List.length_append, hone, hother, List.length_singleton] at hlength
    omega

/-! ### What is decoded -/

/-- The decoder and the reader give the same value and leave the same bytes, where both give one. -/
def Agrees (f : Decoder α) (read : Bytes → Option (α × Bytes)) : Prop :=
  ∀ i v rest r, Returns (f i) r → read i.stream = some (v, rest) → r.1 = v ∧ r.2.stream = rest

theorem Agrees.bind {read : Bytes → Option (α × Bytes)} {k : α → Bytes → Option (β × Bytes)}
    (hstable : ∀ i, Stable .fuel (f i)) (hf : Agrees f read) (hg : ∀ a, Agrees (g a) (k a)) :
    Agrees (f >>= g) fun s => read s >>= fun p => k p.1 p.2 := by
  intro i v rest r h hread
  obtain ⟨p, hp, hr⟩ := (returns_bind_iff hstable).mp h
  obtain ⟨q, hq, hread'⟩ := Option.bind_eq_some_iff.mp hread
  obtain ⟨heq, hleft⟩ := hf i q.1 q.2 p hp hq
  rw [heq] at hr
  rw [← hleft] at hread'
  exact hg q.1 p.2 v rest r hr hread'

theorem agrees_pure (a : α) : Agrees (pure a) fun s => some (a, s) := by
  intro i v rest r h hread
  obtain ⟨depth, hdepth⟩ := h
  cases hdepth depth le_rfl
  cases hread
  exact ⟨rfl, rfl⟩

theorem agrees_stuck (e : Stuck) (read : Bytes → Option (α × Bytes)) :
    Agrees (stuck e) read := by
  rintro i v rest r ⟨depth, hdepth⟩
  cases hdepth depth le_rfl

theorem agrees_Read (hc : ∀ j, c.recvs j ≠ .failed) (hbuffer : buffer.length = len.toNat) :
    Agrees (Read c buffer len) (readData len.toNat) := by
  intro i v rest r h hread
  obtain ⟨-, got, hgot, hstream, hdata⟩ := (returns_Read_iff hc).mp ⟨r.2.call, h⟩
  rw [hstream, readData_append hgot] at hread
  cases hread
  rw [hdata, hgot, ← hbuffer, List.drop_length, List.append_nil]
  exact ⟨rfl, rfl⟩

theorem agrees_integer (hc : ∀ j, c.recvs j ≠ .failed) (p w : ℕ) {n : ℕ} (hn : n < 2 ^ 32) :
    Agrees (decodeInteger c p w n) (readInteger p w n) := by
  have hlen : (BitVec.ofNat 32 n).toNat = n := toNat_ofNat_of_lt hn
  have h := agrees_Read hc ((c.length_stale n).trans hlen.symm)
  rw [hlen] at h
  exact h.bind (Read_stable _ _ _) fun data => agrees_pure _

theorem agrees_bool (hc : ∀ j, c.recvs j ≠ .failed) (val : Bool) :
    Agrees (decodeBool c val) readBool := by
  have hbuffer : (writeBool val).length = (1 : BitVec 32).toNat := rfl
  refine (agrees_Read hc hbuffer).bind (Read_stable _ _ _)
    (k := fun data s => if data = [0] then some (false, s)
      else if data = [1] then some (true, s) else none) fun data => ?_
  rintro i v rest r ⟨depth, hdepth⟩ hread
  cases hdepth depth le_rfl
  split_ifs at hread with hzero hone
  · cases hread
    exact ⟨decide_eq_false (fun h => h hzero), rfl⟩
  · cases hread
    exact ⟨decide_eq_true hzero, rfl⟩

theorem agrees_string (hc : ∀ j, c.recvs j ≠ .failed) : Agrees (decodeString c) readString := by
  refine (agrees_integer hc 32 32 (by decide : 4 < 2 ^ 32)).bind
    (decodes_integer hc 32 32 (by decide)).stable
    (k := fun len s => readData len.toNat s >>= fun p =>
      some ((p.1 ++ [0]).takeWhile (· ≠ 0), p.2)) fun len => ?_
  by_cases hlen : len + 1 = 0
  · rw [if_pos hlen]
    exact agrees_stuck _ _
  · rw [if_neg hlen]
    exact (agrees_Read hc (c.length_stale len.toNat)).bind (Read_stable _ _ _)
      fun data => agrees_pure _

theorem agrees_items {item : α → Decoder α} {readItem : α → Bytes → Option (α × Bytes)}
    (hitem : ∀ a, Decodes (item a) L) (hagrees : ∀ a, Agrees (item a) (readItem a))
    (left i : ℕ) (curr : α) (l : List α) :
    Agrees (forSize (fun s : α × List α => do
        let curr ← item s.1
        pure (curr, s.2 ++ [curr])) left i (curr, l) >>= fun s => pure s.2)
      (readItems readItem left curr l) := by
  induction left generalizing i curr l with
  | zero => exact agrees_pure l
  | succ left ih =>
      rw [forSize, bind_assoc, bind_assoc]
      refine (hagrees curr).bind (hitem curr).stable
        (k := fun curr s => readItems readItem left curr (l ++ [curr]) s) fun curr => ?_
      rw [pure_bind]
      split_ifs with hlast
      · exact ih _ _ _
      · exact agrees_stuck _ _

theorem agrees_entries {κ ν : Type} [LinearOrder κ] {key : κ → Decoder κ} {value : ν → Decoder ν}
    {readKey : κ → Bytes → Option (κ × Bytes)} {readVal : ν → Bytes → Option (ν × Bytes)}
    (hkey : ∀ k, Decodes (key k) L) (hvalue : ∀ v, Decodes (value v) M)
    (hkey' : ∀ k, Agrees (key k) (readKey k)) (hvalue' : ∀ v, Agrees (value v) (readVal v))
    (left i : ℕ) (currKey : κ) (currVal : ν) (m : SortedMap κ ν) :
    Agrees (forSize (fun s : κ × ν × SortedMap κ ν => do
        let currKey ← key s.1
        let currVal ← value s.2.1
        pure (currKey, currVal, s.2.2.assign currKey currVal)) left i (currKey, currVal, m)
        >>= fun s => pure s.2.2)
      (readEntries readKey readVal left currKey currVal m) := by
  induction left generalizing i currKey currVal m with
  | zero => exact agrees_pure m
  | succ left ih =>
      rw [forSize, bind_assoc, bind_assoc]
      refine (hkey' currKey).bind (hkey currKey).stable
        (k := fun currKey s => readVal currVal s >>= fun p =>
          readEntries readKey readVal left currKey p.1 (m.assign currKey p.1) p.2) fun currKey => ?_
      rw [bind_assoc]
      refine (hvalue' currVal).bind (hvalue currVal).stable
        (k := fun currVal s =>
          readEntries readKey readVal left currKey currVal (m.assign currKey currVal) s)
        fun currVal => ?_
      rw [pure_bind]
      split_ifs with hlast
      · exact ih _ _ _ _
      · exact agrees_stuck _ _

/-- **The loops of `Recv` are what `read` stands for.** Where both give a value, it is the same, and
the same bytes are left. -/
theorem decode_agrees (hc : ∀ j, c.recvs j ≠ .failed) (fresh : (t : Ty) → Value t) (t : Ty)
    (val : Value t) : Agrees (decode c fresh t val) (read fresh t val) := by
  have hcount := agrees_integer hc 32 32 (by decide : 4 < 2 ^ 32)
  have hstable := (decodes_integer hc 32 32 (by decide : 4 < 2 ^ 31)).stable
  induction t with
  | bool => exact agrees_bool hc val
  | short | unsignedShort => exact agrees_integer hc 32 16 (by decide)
  | int | unsignedInt => exact hcount
  | long | unsignedLong => exact agrees_integer hc 64 64 (by decide)
  | string => exact agrees_string hc
  | pair a b iha ihb =>
      refine (iha val.1).bind (decodes hc fresh a val.1).stable
        (k := fun first s => read fresh b val.2 s >>= fun p => some ((first, p.1), p.2))
        fun first => ?_
      exact (ihb val.2).bind (decodes hc fresh b val.2).stable fun second => agrees_pure _
  | vector a ih =>
      refine hcount.bind hstable (k := fun size s =>
        readItems (read fresh a) size.toNat (fresh a) [] s) fun size => ?_
      exact agrees_items (decodes hc fresh a) ih size.toNat 0 (fresh a) []
  | map a b iha ihb =>
      refine hcount.bind hstable (k := fun size s =>
        readEntries (read fresh a) (read fresh b) size.toNat (fresh a) (fresh b) .empty s)
        fun size => ?_
      exact agrees_entries (decodes hc fresh a) (decodes hc fresh b) iha ihb size.toNat 0 (fresh a)
        (fresh b) .empty

end Networking.Stream
