import Networking.Stream.Decoding

/-!
# What is sent is received

`operator<<` hands its buffers to `Write` one after the other, and `Write` does not look at what
`Send` returns. So when a call of `send` fails, the rest of one buffer is missing and the buffers
behind it follow all the same. At the other end the same values come out exactly when no call of
`send` has failed, however both ends cut the stream.
-/

namespace Networking.Stream

open Fuel Segment Wire

/-! ### Writing -/

/-- The calls of `send` so far, and what the kernel has taken. -/
structure Output where
  call : ℕ
  sent : Bytes

/-- `Write`. The length is an `int`, and where it is negative `Send` reads behind the buffer. -/
def Output.Write (sends : ℕ → Progress) (buffer : Bytes) (o : Output) (fuel : ℕ) :
    Except Stuck Output :=
  if buffer.length < 2 ^ 31 then
    Send (fun k => sends (o.call + k)) buffer fuel >>= fun r =>
      .ok ⟨o.call + r.calls, o.sent ++ r.taken⟩
  else
    .error .overrun

/-- The buffers that `operator<<` passes to `Write`, in order. -/
def buffers : (t : Ty) → Value t → List Bytes
  | .bool, val => [writeBool val]
  | .short, val => [writeShort val]
  | .unsignedShort, val => [writeUnsignedShort val]
  | .int, val => [writeInt val]
  | .unsignedInt, val => [writeUnsignedInt val]
  | .long, val => [writeLong val]
  | .unsignedLong, val => [writeUnsignedLong val]
  | .string, (val : Bytes) =>
      let len := BitVec.ofNat 32 val.length
      [writeUnsignedInt len, val.take len.toNat]
  | .pair a b, (p : Value a × Value b) => buffers a p.1 ++ buffers b p.2
  | .vector a, (v : List (Value a)) =>
      writeUnsignedInt (BitVec.ofNat 32 v.length) :: v.flatMap (buffers a)
  | .map a b, (m : SortedMap (Value a) (Value b)) =>
      writeUnsignedInt (BitVec.ofNat 32 m.entries.length)
        :: m.entries.flatMap fun p => buffers a p.1 ++ buffers b p.2

def Output.writeEach (sends : ℕ → Progress) : List Bytes → Output → ℕ → Except Stuck Output
  | [], o, _ => .ok o
  | buffer :: rest, o, fuel => o.Write sends buffer fuel >>= fun o => o.writeEach sends rest fuel

/-- One `operator<<` after the other. -/
def Output.put (sends : ℕ → Progress) (items : List Item) : Output → ℕ → Except Stuck Output :=
  Output.writeEach sends (items.flatMap fun i => buffers i.1 i.2)

def decodeAll (c : Source) (fresh : (t : Ty) → Value t) : List Item → Decoder (List Item)
  | [] => pure []
  | ⟨t, dst⟩ :: dsts => do
      let v ← decode c fresh t dst
      let rest ← decodeAll c fresh dsts
      pure (⟨t, v⟩ :: rest)

/-! ### The buffers of a value -/

theorem flatten_flatMap {α : Type} {f : α → List Bytes} {g : α → Bytes} (l : List α)
    (h : ∀ x ∈ l, (f x).flatten = g x) : (l.flatMap f).flatten = l.flatMap g := by
  induction l with
  | nil => rfl
  | cons x l ih =>
      rw [List.flatMap_cons, List.flatten_append, h x (.head l), List.flatMap_cons,
        ih fun y hy => h y (.tail x hy)]

/-- Together the buffers are what the value looks like on the wire. -/
theorem flatten_buffers (t : Ty) (v : Value t) : (buffers t v).flatten = write t v := by
  induction t with
  | bool | short | unsignedShort | int | unsignedInt | long | unsignedLong =>
      exact List.append_nil _
  | string =>
      change writeUnsignedInt _ ++ (_ ++ []) = writeUnsignedInt _ ++ _
      rw [List.append_nil]
  | pair a b iha ihb =>
      change (buffers a v.1 ++ buffers b v.2).flatten = _
      rw [List.flatten_append, iha, ihb]
      rfl
  | vector a ih =>
      change (writeUnsignedInt _ :: List.flatMap (buffers a) v).flatten = _
      rw [List.flatten_cons, flatten_flatMap v fun x _ => ih x]
      rfl
  | map a b iha ihb =>
      change (writeUnsignedInt _
        :: v.entries.flatMap fun p => buffers a p.1 ++ buffers b p.2).flatten = _
      rw [List.flatten_cons, flatten_flatMap v.entries fun p _ => by
        rw [List.flatten_append, iha, ihb]]
      rfl

theorem length_putData {p : ℕ} (signed : Bool) (n : ℕ) (val : BitVec p) :
    (putData signed n val).length = n := by
  rw [putData, List.length_map, List.length_range]

theorem length_of_mem_buffers {t : Ty} {v : Value t} {buffer : Bytes} (hfits : Fits t v)
    (hmem : buffer ∈ buffers t v) : buffer.length < 2 ^ 31 := by
  have hcount : ∀ n : ℕ, (writeUnsignedInt (BitVec.ofNat 32 n)).length < 2 ^ 31 := by
    intro n
    rw [writeUnsignedInt, length_putData]
    decide
  induction t with
  | bool =>
      rw [List.mem_singleton.mp hmem]
      exact (by decide : 1 < 2 ^ 31)
  | short | unsignedShort | int | unsignedInt | long | unsignedLong =>
      rw [List.mem_singleton.mp hmem]
      refine (length_putData _ _ _).trans_lt ?_
      decide
  | string =>
      rcases List.mem_cons.mp hmem with rfl | hmem
      · exact hcount _
      · rw [List.mem_singleton.mp hmem]
        exact (List.length_take_le' _ _).trans_lt hfits
  | pair a b iha ihb =>
      rcases List.mem_append.mp hmem with hmem | hmem
      · exact iha hfits.1 hmem
      · exact ihb hfits.2 hmem
  | vector a ih =>
      rcases List.mem_cons.mp hmem with rfl | hmem
      · exact hcount _
      · obtain ⟨x, hx, hmem⟩ := List.mem_flatMap.mp hmem
        exact ih (hfits.2 x hx) hmem
  | map a b iha ihb =>
      rcases List.mem_cons.mp hmem with rfl | hmem
      · exact hcount _
      · obtain ⟨p, hp, hmem⟩ := List.mem_flatMap.mp hmem
        rcases List.mem_append.mp hmem with hmem | hmem
        · exact iha (hfits.2 p hp).1 hmem
        · exact ihb (hfits.2 p hp).2 hmem

/-! ### What the kernel takes -/

variable {sends : ℕ → Progress} {o o' o'' : Output} {data data' bytes bytes' : Bytes}

/-- Of some data the kernel has taken some bytes, and all of them exactly when no call failed. -/
structure Passed (sends : ℕ → Progress) (o o' : Output) (data bytes : Bytes) : Prop where
  sent : o'.sent = o.sent ++ bytes
  calls : o.call ≤ o'.call
  length_le : bytes.length ≤ data.length
  eq_of_length : data.length ≤ bytes.length → bytes = data
  length_iff : data.length ≤ bytes.length ↔ ∀ k, o.call ≤ k → k < o'.call → sends k ≠ .failed

theorem Passed.append (h : Passed sends o o' data bytes) (h' : Passed sends o' o'' data' bytes') :
    Passed sends o o'' (data ++ data') (bytes ++ bytes') := by
  have hle := h.length_le
  have hle' := h'.length_le
  have hcalls := h.calls
  have hcalls' := h'.calls
  have hboth : (data ++ data').length ≤ (bytes ++ bytes').length
      ↔ data.length ≤ bytes.length ∧ data'.length ≤ bytes'.length := by
    rw [List.length_append, List.length_append]
    omega
  refine ⟨?_, hcalls.trans hcalls', ?_, fun hlength => ?_, hboth.trans ?_⟩
  · rw [h'.sent, h.sent, List.append_assoc]
  · rw [List.length_append, List.length_append]
    omega
  · rw [h.eq_of_length (hboth.mp hlength).1, h'.eq_of_length (hboth.mp hlength).2]
  · rw [h.length_iff, h'.length_iff]
    constructor
    · intro hall k hlow hhigh
      rcases Nat.lt_or_ge k o'.call with hlt | hge
      · exact hall.1 k hlow hlt
      · exact hall.2 k hge hhigh
    · intro hall
      exact ⟨fun k hlow hhigh => hall k hlow (hhigh.trans_le hcalls'),
        fun k hlow hhigh => hall k (hcalls.trans hlow) hhigh⟩

/-- A call that fails leaves something of the data behind. -/
theorem sendLoop_short {call total fuel : ℕ} {ret : ℤ} {taken : Bytes} {r : Sent}
    (hret : 0 ≤ ret) (htotal : total ≤ data.length) (hpassed : taken.length = total)
    (h : sendLoop sends data fuel call total ret taken = .ok r)
    (hall : data.length ≤ r.taken.length) : 0 ≤ r.ret := by
  induction fuel generalizing call total ret taken with
  | zero => cases h
  | succ fuel ih =>
      rw [sendLoop] at h
      split_ifs at h with hdone
      · cases h
        exact hret
      · cases hsend : Segment.send (sends call) (data.drop total) with
        | none =>
            rw [hsend] at h
            cases h
            dsimp only at hall
            omega
        | some bytes =>
            rw [hsend] at h
            dsimp only at h
            split_ifs at h
            have hle := (send_spec hsend).1.length_le
            rw [List.length_drop] at hle
            refine ih (Int.natCast_nonneg _) (by omega) ?_ h
            rw [List.length_append, hpassed]

theorem exists_Write (sends : ℕ → Progress) (hdata : data.length < 2 ^ 31) (o : Output) :
    ∃ o' bytes, Returns (o.Write sends data) o' ∧ Passed sends o o' data bytes := by
  obtain ⟨r, hr, hsends⟩ := exists_Send (fun k => sends (o.call + k)) hdata
  refine ⟨⟨o.call + r.calls, o.sent ++ r.taken⟩, r.taken, ?_, rfl, Nat.le_add_right _ _,
    hsends.inOrder.length_le, hsends.inOrder.eq_of_length_le, ?_, ?_⟩
  · have hwrite := hr.map fun r => (⟨o.call + r.calls, o.sent ++ r.taken⟩ : Output)
    exact hwrite.congr fun fuel => if_pos hdata
  · intro hlength k hlow hhigh hfailed
    obtain ⟨depth, hdepth⟩ := hr
    have hret : 0 ≤ r.ret :=
      sendLoop_short le_rfl (Nat.zero_le _) rfl (hdepth depth le_rfl) hlength
    have hminus : r.ret = -1 := by
      refine hsends.reports.ret_iff.mpr ⟨k - o.call, ?_, ?_⟩
      · dsimp only at hhigh
        omega
      · rwa [Nat.add_sub_cancel' hlow]
    omega
  · intro hall
    have hwhole : r.taken = data := by
      refine hsends.all fun k hk => hall (o.call + k) (Nat.le_add_right _ _) ?_
      dsimp only
      omega
    rw [hwhole]

theorem exists_writeEach (sends : ℕ → Progress) {l : List Bytes}
    (hl : ∀ buffer ∈ l, buffer.length < 2 ^ 31) (o : Output) :
    ∃ o' bytes, Returns (o.writeEach sends l) o' ∧ Passed sends o o' l.flatten bytes := by
  induction l generalizing o with
  | nil =>
      refine ⟨o, [], returns_of_forall fun _ => rfl, (List.append_nil _).symm, le_rfl, le_rfl,
        fun _ => rfl, iff_of_true le_rfl fun k hlow hhigh => absurd hlow (Nat.not_le.mpr hhigh)⟩
  | cons buffer l ih =>
      obtain ⟨o₁, bytes, hwrite, hpassed⟩ := exists_Write sends (hl buffer (.head l)) o
      obtain ⟨o₂, bytes', hrest, hpassed'⟩ := ih (fun b hb => hl b (.tail buffer hb)) o₁
      exact ⟨o₂, bytes ++ bytes', hwrite.bind hrest, hpassed.append hpassed'⟩

/-! ### What a value costs -/

variable {α β σ : Type} {f : Decoder α} {g : α → Decoder β} {c : Source}

/-- A decoder that comes to an end with `a` has taken at least `cost a` bytes. -/
def Costs (f : Decoder α) (cost : α → ℕ) : Prop :=
  ∀ i r, Returns (f i) r → cost r.1 + r.2.stream.length ≤ i.stream.length

theorem Costs.bind {cost : α → ℕ} {total : β → ℕ} (hstable : ∀ i, Stable .fuel (f i))
    (hf : Costs f cost) (hg : ∀ a, Costs (g a) fun b => total b - cost a) :
    Costs (f >>= g) total := by
  intro i r h
  obtain ⟨p, hp, hr⟩ := (returns_bind_iff hstable).mp h
  have hfirst := hf i p hp
  have hsecond : total r.1 - cost p.1 + r.2.stream.length ≤ p.2.stream.length := hg p.1 p.2 r hr
  omega

theorem costs_pure {cost : α → ℕ} {a : α} (ha : cost a = 0) : Costs (pure a) cost := by
  rintro i r ⟨depth, hdepth⟩
  cases hdepth depth le_rfl
  rw [ha, Nat.zero_add]

theorem Costs.map {cost : β → ℕ} {cost' : α → ℕ} {k : α → β} (hstable : ∀ i, Stable .fuel (f i))
    (hf : Costs f cost') (hk : ∀ a, cost (k a) ≤ cost' a) :
    Costs (f >>= fun a => pure (k a)) cost :=
  hf.bind hstable fun a => costs_pure (Nat.sub_eq_zero_of_le (hk a))

theorem costs_stuck (e : Stuck) (cost : α → ℕ) : Costs (stuck e) cost := by
  rintro i r ⟨depth, hdepth⟩
  cases hdepth depth le_rfl

theorem Costs.mono {cost cost' : α → ℕ} (hf : Costs f cost) (hle : ∀ a, cost' a ≤ cost a) :
    Costs f cost' := fun i r h => (Nat.add_le_add_right (hle r.1) _).trans (hf i r h)

theorem costs_Read (hc : ∀ j, c.recvs j ≠ .failed) (buffer : Bytes) (len : BitVec 32) :
    Costs (Read c buffer len) fun _ => len.toNat := by
  rintro ⟨call, stream⟩ ⟨data, i⟩ h
  obtain ⟨-, got, hgot, rfl, -⟩ := (returns_Read_iff hc).mp ⟨i.call, h⟩
  rw [List.length_append, hgot]

theorem costs_Read_length (hc : ∀ j, c.recvs j ≠ .failed) {buffer : Bytes} {len : BitVec 32}
    (hbuffer : buffer.length = len.toNat) : Costs (Read c buffer len) List.length := by
  rintro ⟨call, stream⟩ ⟨data, i⟩ h
  obtain ⟨-, got, hgot, rfl, rfl⟩ := (returns_Read_iff hc).mp ⟨i.call, h⟩
  have hempty : buffer.drop got.length = [] := List.drop_eq_nil_of_le (by omega)
  rw [hempty, List.append_nil, List.length_append]

theorem costs_forSize {body : σ → Decoder σ} {cost : σ → ℕ}
    (hstable : ∀ s i, Stable .fuel (body s i))
    (hbody : ∀ s, Costs (body s) fun s' => cost s' - cost s) (left i : ℕ) (s : σ) :
    Costs (forSize body left i s) fun s' => cost s' - cost s := by
  induction left generalizing i s with
  | zero => exact costs_pure (Nat.sub_self _)
  | succ left ih =>
      refine (hbody s).bind (hstable s) fun s₁ => ?_
      split_ifs
      · exact (ih (i + 1) s₁).mono fun s' => by omega
      · exact costs_stuck _ _

theorem costs_integer (hc : ∀ j, c.recvs j ≠ .failed) (p w : ℕ) {n : ℕ} (hn : n < 2 ^ 32) :
    Costs (decodeInteger c p w n) fun _ => n := by
  refine Costs.map (fun i => Read_stable c (c.stale n) (BitVec.ofNat 32 n) i)
    (costs_Read hc (c.stale n) (BitVec.ofNat 32 n)) fun _ => ?_
  exact (toNat_ofNat_of_lt hn).ge

/-- **No value is read from fewer bytes than it is written in.** -/
theorem decode_costs (hc : ∀ j, c.recvs j ≠ .failed) (fresh : (t : Ty) → Value t) (t : Ty)
    (val : Value t) : Costs (decode c fresh t val) fun v => (write t v).length := by
  have hcount := costs_integer hc 32 32 (by decide : 4 < 2 ^ 32)
  have hstable := (decodes_integer hc 32 32 (by decide : 4 < 2 ^ 31)).stable
  have hhead : ∀ n : ℕ, (writeUnsignedInt (BitVec.ofNat 32 n)).length = 4 := fun n =>
    length_putData false 4 _
  induction t with
  | bool =>
      have hread := costs_Read hc (writeBool val) 1
      exact hread.map (Read_stable c (writeBool val) 1) fun _ => le_rfl
  | short | unsignedShort =>
      have hinteger := costs_integer hc 32 16 (by decide : 2 < 2 ^ 32)
      exact hinteger.mono fun v => (length_putData _ _ _).le
  | int | unsignedInt => exact hcount.mono fun v => (length_putData _ _ _).le
  | long | unsignedLong =>
      have hinteger := costs_integer hc 64 64 (by decide : 8 < 2 ^ 32)
      exact hinteger.mono fun v => (length_putData _ _ _).le
  | string =>
      refine hcount.bind hstable fun len => ?_
      split_ifs
      · exact costs_stuck _ _
      · refine Costs.map (Read_stable c _ len) (costs_Read_length hc (c.length_stale _))
          fun buf => ?_
        have hcut : ((buf ++ [0]).takeWhile (· ≠ 0)).length ≤ buf.length := by
          rw [takeWhile_append_zero]
          exact (List.takeWhile_sublist _).length_le
        change (writeUnsignedInt _ ++ List.take _ _).length - 4 ≤ _
        rw [List.length_append, hhead, Nat.add_sub_cancel_left]
        exact (List.length_take_le' _ _).trans hcut
  | pair a b iha ihb =>
      refine (iha val.1).bind (decodes hc fresh a val.1).stable fun first => ?_
      refine (ihb val.2).map (decodes hc fresh b val.2).stable fun second => ?_
      change (write a first ++ write b second).length - (write a first).length ≤ _
      rw [List.length_append]
      omega
  | vector a ih =>
      refine hcount.bind hstable fun size => ?_
      have hitem : ∀ s : Value a × List (Value a), Decodes (do
          let curr ← decode c fresh a s.1
          pure (curr, s.2 ++ [curr])) (encodings a) := fun s => (decodes hc fresh a s.1).map _
      have hcost : ∀ s : Value a × List (Value a), Costs (do
          let curr ← decode c fresh a s.1
          pure (curr, s.2 ++ [curr]))
          fun s' => (s'.2.flatMap (write a)).length - (s.2.flatMap (write a)).length := by
        intro s
        refine (ih s.1).map (decodes hc fresh a s.1).stable fun curr => ?_
        rw [List.flatMap_append, List.flatMap_singleton, List.length_append]
        omega
      refine (costs_forSize (fun s => (hitem s).stable) hcost size.toNat 0 (fresh a, [])).map
        (decodes_forSize hitem size.toNat (by decide) _).stable fun s => ?_
      change (writeUnsignedInt _ ++ s.2.flatMap (write a)).length - 4
        ≤ (s.2.flatMap (write a)).length - 0
      rw [List.length_append, hhead]
      omega
  | map a b iha ihb =>
      refine hcount.bind hstable fun size => ?_
      have hentry : ∀ s : Value a × Value b × SortedMap (Value a) (Value b), Decodes (do
          let currKey ← decode c fresh a s.1
          let currVal ← decode c fresh b s.2.1
          pure (currKey, currVal, s.2.2.assign currKey currVal)) (encodings a * encodings b) :=
        fun s => (decodes hc fresh a s.1).bind fun _ => (decodes hc fresh b s.2.1).map _
      have hcost : ∀ s : Value a × Value b × SortedMap (Value a) (Value b), Costs (do
          let currKey ← decode c fresh a s.1
          let currVal ← decode c fresh b s.2.1
          pure (currKey, currVal, s.2.2.assign currKey currVal))
          fun s' => (s'.2.2.entries.map fun p => (write a p.1 ++ write b p.2).length).sum
            - (s.2.2.entries.map fun p => (write a p.1 ++ write b p.2).length).sum := by
        intro s
        refine (iha s.1).bind (decodes hc fresh a s.1).stable fun currKey => ?_
        refine (ihb s.2.1).map (decodes hc fresh b s.2.1).stable fun currVal => ?_
        have hassign := SortedMap.sum_assignList_le
          (fun p : Value a × Value b => (write a p.1 ++ write b p.2).length) currKey currVal
          s.2.2.entries
        dsimp only at hassign
        have hlength : (write a currKey ++ write b currVal).length
          = (write a currKey).length + (write b currVal).length := List.length_append
        change (List.map _ (SortedMap.assignList currKey currVal s.2.2.entries)).sum - _ - _ ≤ _
        omega
      refine (costs_forSize (fun s => (hentry s).stable) hcost size.toNat 0
        (fresh a, fresh b, .empty)).map
        (decodes_forSize hentry size.toNat (by decide) _).stable fun s => ?_
      change (writeUnsignedInt _
        ++ s.2.2.entries.flatMap fun p => write a p.1 ++ write b p.2).length - 4 ≤ _ - 0
      rw [List.length_append, hhead, List.length_flatMap]
      omega

/-! ### Both ends -/

variable {items dsts : List Item}

theorem writeString_eq {val : Bytes} (hval : val.length < 2 ^ 31) :
    writeString val = writeUnsignedInt (BitVec.ofNat 32 val.length) ++ val := by
  have hlen : (BitVec.ofNat 32 val.length).toNat = val.length := toNat_ofNat_of_lt (by omega)
  rw [writeString, hlen, List.take_length]

/-- What `operator<<` writes is a whole value. -/
theorem write_mem_encodings {t : Ty} {v : Value t} (hfits : Fits t v) :
    write t v ∈ encodings t := by
  induction t with
  | bool => exact (rfl : (writeBool v).length = 1)
  | short | unsignedShort | int | unsignedInt | long | unsignedLong => exact length_putData _ _ _
  | string =>
      exact ⟨List.length v, hfits, v, rfl, writeString_eq hfits⟩
  | pair a b iha ihb =>
      exact Language.append_mem_mul (iha hfits.1) (ihb hfits.2)
  | vector a ih =>
      refine ⟨List.length v, hfits.1, List.flatMap (write a) v, ?_, rfl⟩
      refine Language.mem_pow.mpr ⟨List.map (write a) v, rfl, List.length_map _, fun s hs => ?_⟩
      obtain ⟨x, hx, rfl⟩ := List.mem_map.mp hs
      exact ih (hfits.2 x hx)
  | map a b iha ihb =>
      refine ⟨v.entries.length, hfits.1, v.entries.flatMap fun p => write a p.1 ++ write b p.2, ?_,
        rfl⟩
      refine Language.mem_pow.mpr ⟨v.entries.map fun p => write a p.1 ++ write b p.2, rfl,
        List.length_map _, fun s hs => ?_⟩
      obtain ⟨p, hp, rfl⟩ := List.mem_map.mp hs
      exact Language.append_mem_mul (iha (hfits.2 p hp).1) (ihb (hfits.2 p hp).2)

/-- The decoder comes to an end on a value that has been written, with what `read` gives. -/
theorem decode_write (hc : ∀ j, c.recvs j ≠ .failed) (fresh : (t : Ty) → Value t) {t : Ty}
    {v : Value t} (hfits : Fits t v) (dst : Value t) (call : ℕ) (rest : Bytes) :
    ∃ call', Returns (decode c fresh t dst ⟨call, write t v ++ rest⟩) (cut t v, ⟨call', rest⟩) := by
  obtain ⟨a, call', h⟩ := ((decodes hc fresh t dst).returns_iff call (write t v ++ rest) rest).mpr
    ⟨write t v, write_mem_encodings hfits, rfl⟩
  have hread := read_write fresh t hfits dst rest
  obtain ⟨rfl, -⟩ := decode_agrees hc fresh t dst _ _ _ _ h hread
  exact ⟨call', h⟩

theorem decodeAll_costs (hc : ∀ j, c.recvs j ≠ .failed) (fresh : (t : Ty) → Value t)
    (dsts : List Item) :
    (∀ i, Stable .fuel (decodeAll c fresh dsts i))
      ∧ Costs (decodeAll c fresh dsts) fun got => (writeAll got).length := by
  induction dsts with
  | nil => exact ⟨fun i => stable_const _, costs_pure rfl⟩
  | cons item dsts ih =>
      obtain ⟨t, dst⟩ := item
      have hstable := (decodes hc fresh t dst).stable
      refine ⟨stable_bind hstable fun v => stable_bind ih.1 fun rest i => stable_const _,
        (decode_costs hc fresh t dst).bind hstable fun v => ih.2.map ih.1 fun rest => ?_⟩
      rw [writeAll, List.flatMap_cons, List.length_append]
      exact (Nat.add_sub_cancel_left _ _).le

theorem decodeAll_writeAll (hc : ∀ j, c.recvs j ≠ .failed) (fresh : (t : Ty) → Value t)
    (hfits : ∀ i ∈ items, Fits i.1 i.2) (htypes : dsts.map Sigma.fst = items.map Sigma.fst)
    (call : ℕ) (rest : Bytes) :
    ∃ call', Returns (decodeAll c fresh dsts ⟨call, writeAll items ++ rest⟩)
      (items.map fun i => ⟨i.1, cut i.1 i.2⟩, ⟨call', rest⟩) := by
  induction items generalizing dsts call with
  | nil =>
      obtain rfl : dsts = [] := List.map_eq_nil_iff.mp htypes
      exact ⟨call, returns_of_forall fun _ => rfl⟩
  | cons item items ih =>
      obtain ⟨⟨t, dst⟩, dsts, rfl⟩ := List.exists_cons_of_ne_nil (l := dsts) (by
        rintro rfl
        cases htypes)
      obtain ⟨t', v⟩ := item
      obtain ⟨rfl, hrest⟩ : t = t' ∧ dsts.map Sigma.fst = items.map Sigma.fst :=
        List.cons.inj htypes
      rw [writeAll, List.flatMap_cons, List.append_assoc]
      obtain ⟨mid, hfirst⟩ := decode_write hc fresh (hfits _ (.head _)) dst call
        (writeAll items ++ rest)
      obtain ⟨call', hothers⟩ := ih (fun i hi => hfits i (.tail _ hi)) hrest mid
      have hstable := (decodes hc fresh t dst).stable
      refine ⟨call', (returns_bind_iff hstable).mpr ⟨_, hfirst, ?_⟩⟩
      exact (returns_bind_iff (decodeAll_costs hc fresh dsts).1).mpr
        ⟨_, hothers, returns_of_forall fun _ => rfl⟩

/-- **What is sent is received exactly when no call of `send` fails.** All the calls of `Write` come
to an end. Then the other end, which reads the same types, gets the values that were written and
leaves what comes behind them, if no call of `send` has failed, and never otherwise. -/
theorem received_iff_sent (hc : ∀ j, c.recvs j ≠ .failed) (fresh : (t : Ty) → Value t)
    (sends : ℕ → Progress) (hfits : ∀ i ∈ items, Fits i.1 i.2)
    (hfree : ∀ i ∈ items, NulFree i.1 i.2) (htypes : dsts.map Sigma.fst = items.map Sigma.fst) :
    ∃ o, Returns (Output.put sends items ⟨0, []⟩) o
      ∧ ∀ rest, (∃ call', Returns (decodeAll c fresh dsts ⟨0, o.sent ++ rest⟩)
          (items, ⟨call', rest⟩)) ↔ ∀ k < o.call, sends k ≠ .failed := by
  have hsmall : ∀ buffer ∈ items.flatMap fun i => buffers i.1 i.2, buffer.length < 2 ^ 31 := by
    intro buffer hmem
    obtain ⟨i, hi, hmem⟩ := List.mem_flatMap.mp hmem
    exact length_of_mem_buffers (hfits i hi) hmem
  obtain ⟨o, bytes, hput, hpassed⟩ := exists_writeEach sends hsmall ⟨0, []⟩
  rw [flatten_flatMap items fun i _ => flatten_buffers i.1 i.2] at hpassed
  have hsent : o.sent = bytes := hpassed.sent
  refine ⟨o, hput, fun rest => ?_⟩
  calc (∃ call', Returns (decodeAll c fresh dsts ⟨0, o.sent ++ rest⟩) (items, ⟨call', rest⟩))
      ↔ (writeAll items).length ≤ bytes.length := ?_
    _ ↔ ∀ k, 0 ≤ k → k < o.call → sends k ≠ .failed := hpassed.length_iff
    _ ↔ ∀ k < o.call, sends k ≠ .failed := by simp only [Nat.zero_le, true_implies]
  constructor
  · rintro ⟨call', h⟩
    have hcost := (decodeAll_costs hc fresh dsts).2 _ _ h
    dsimp only at hcost
    rw [List.length_append, hsent] at hcost
    omega
  · intro hlength
    have hwhole : o.sent = writeAll items := hsent.trans (hpassed.eq_of_length hlength)
    obtain ⟨call', h⟩ := decodeAll_writeAll hc fresh hfits htypes 0 rest
    have hsame : (items.map fun i => (⟨i.1, cut i.1 i.2⟩ : Item)) = items := by
      refine (List.map_congr_left fun i hi => ?_).trans (List.map_id items)
      rw [cut_eq_self _ (hfree i hi)]
      rfl
    rw [hsame, ← hwhole] at h
    exact ⟨call', h⟩

def byteSource : Source := { zeroSource with recvs := fun _ => .upTo 1 }

/-- The third call of `send` fails, in the vector. -/
theorem received_iff_sent_failing :
    ∃ o, Returns (Output.put (fun k => if k = 2 then .failed else .whole)
        [⟨.pair .string (.vector .int), sampleValue⟩] ⟨0, []⟩) o
      ∧ ∀ rest, ¬∃ call', Returns (decodeAll byteSource zeroed
          [⟨.pair .string (.vector .int), zeroed _⟩] ⟨0, o.sent ++ rest⟩)
          ([⟨.pair .string (.vector .int), sampleValue⟩], ⟨call', rest⟩) := by
  obtain ⟨o, hput, hiff⟩ := @received_iff_sent byteSource
    [⟨.pair .string (.vector .int), sampleValue⟩]
    [⟨.pair .string (.vector .int), zeroed _⟩] (fun j hfailed => by cases hfailed) zeroed
    (fun k => if k = 2 then .failed else .whole)
    (by
      intro i hi
      rw [List.mem_singleton.mp hi]
      exact sampleValue_fits)
    (by
      intro i hi
      rw [List.mem_singleton.mp hi]
      exact ⟨(by decide : (0 : Byte) ∉ ofString "AB"), fun _ _ => trivial⟩) rfl
  have hcalls : Returns (Output.put (fun k => if k = 2 then .failed else .whole)
      [⟨.pair .string (.vector .int), sampleValue⟩] ⟨0, []⟩)
      ⟨5, writeUnsignedInt 2 ++ ofString "AB" ++ writeInt 1 ++ writeInt (-1)⟩ := by
    refine ⟨3, fun fuel hfuel => ?_⟩
    obtain ⟨fuel, rfl⟩ : ∃ n, fuel = n + 3 := ⟨fuel - 3, by omega⟩
    rfl
  obtain rfl := hput.unique hcalls
  exact ⟨_, hput, fun rest hreceived => (hiff rest).mp hreceived 2 (by decide) rfl⟩

end Networking.Stream
