import Networking.Resolver.Circles

/-!
# Where `recParse` leaves the location

A pointer is passed, but a closing zero byte is not. So the fields of a record are read from their
first byte on exactly when the owner name ends in a pointer, and one byte early when it ends in its
own zero byte. `parseRRSIG` moves the location on behind the name of the signer, and nothing does so
behind an owner name.
-/

namespace Networking.Resolver

open Wire Fuel

variable {msg : Bytes} {follow : ℕ → Prop} {off next location : ℕ} {labels : List Bytes}
  {ending : Ending}

theorem byteAt_of_isPrefix {part : Bytes} (h : part <+: msg.drop off) {i : ℕ}
    (hi : i < part.length) : byteAt msg (off + i) = part[i] := by
  rw [byteAt, List.getD_eq_getElem?_getD, getElem?_of_isPrefix h hi, Option.getD_some]

theorem isPointer_iff (c : Byte) : isPointer c ↔ 192 ≤ c.toNat := by
  revert c
  decide

/-! ### What an encoding leads to -/

theorem linked_root (h : [0] <+: msg.drop off) : linked msg off = none :=
  if_pos (byteAt_of_isPrefix h (i := 0) (by simp))

theorem byteAt_label {label : Bytes} (hlen : label.length ≤ 63)
    (h : BitVec.ofNat 8 label.length :: label <+: msg.drop off) :
    (byteAt msg off).toNat = label.length ∧ isPointer (byteAt msg off) = false := by
  have hhead : byteAt msg off = BitVec.ofNat 8 label.length :=
    byteAt_of_isPrefix h (i := 0) (by simp)
  have htoNat : (byteAt msg off).toNat = label.length := by
    rw [hhead]
    exact toNat_ofNat_of_lt (by omega)
  refine ⟨htoNat, ?_⟩
  rw [← Bool.not_eq_true, isPointer_iff, htoNat]
  omega

theorem linked_label {label : Bytes} (hpos : 0 < label.length) (hlen : label.length ≤ 63)
    (h : BitVec.ofNat 8 label.length :: label <+: msg.drop off) :
    linked msg off = some (off + 1 + label.length) := by
  obtain ⟨htoNat, hpointer⟩ := byteAt_label hlen h
  have hne : byteAt msg off ≠ 0 := ne_zero_of_toNat_pos (by omega)
  rw [linked, if_neg hne, if_neg (by rw [hpointer]; exact Bool.false_ne_true), htoNat]

theorem byteAt_pointer {target : ℕ} (hwidth : target < 2 ^ 14)
    (h : bigEndian 2 (BitVec.ofNat 16 (0xC000 + target)) <+: msg.drop off) :
    (byteAt msg off).toNat = 192 + target / 256 ∧ (byteAt msg (off + 1)).toNat = target % 256 := by
  rw [bigEndian_two, toNat_ofNat_of_lt (by omega)] at h
  have hhead := byteAt_of_isPrefix h (i := 0) (by simp)
  have hlast := byteAt_of_isPrefix h (i := 1) (by simp)
  rw [List.getElem_cons_zero] at hhead
  rw [List.getElem_cons_succ, List.getElem_cons_zero] at hlast
  constructor
  · rw [← Nat.add_zero off, hhead, BitVec.toNat_ofNat]
    omega
  · rw [hlast, BitVec.toNat_ofNat]
    omega

/-- Of the target of a pointer, `recParse` uses the low six bits. -/
theorem linked_pointer {target : ℕ} (hwidth : target < 2 ^ 14)
    (h : bigEndian 2 (BitVec.ofNat 16 (0xC000 + target)) <+: msg.drop off) :
    isPointer (byteAt msg off) ∧ linked msg off = some (target % 64) := by
  obtain ⟨hhead, hlast⟩ := byteAt_pointer hwidth h
  have hpointer : isPointer (byteAt msg off) := by
    rw [isPointer_iff, hhead]
    omega
  have hne : byteAt msg off ≠ 0 := ne_zero_of_toNat_pos (by omega)
  refine ⟨hpointer, ?_⟩
  rw [linked, if_neg hne, if_pos hpointer, word16, toNat_value16, hhead, hlast, if_pos (by omega),
    and_mask]
  apply congrArg some
  omega

theorem location_of_nameEnds (hname : NameAt follow msg off labels next ending)
    (hends : NameEnds msg off location) : location = leftAt next ending := by
  induction hname generalizing location with
  | root hbytes =>
      cases hends with
      | zero _ => rfl
      | link hlink _ =>
          rw [linked_root hbytes] at hlink
          cases hlink
  | label hpos hlen hbytes _ ih =>
      cases hends with
      | zero hlink =>
          rw [linked_label hpos hlen hbytes] at hlink
          cases hlink
      | link hlink hrest =>
          rw [linked_label hpos hlen hbytes] at hlink
          cases hlink
          rw [(byteAt_label hlen hbytes).2, if_neg Bool.false_ne_true]
          exact ih hrest
  | pointer hbytes hwidth _ _ _ _ =>
      obtain ⟨hpointer, hto⟩ := linked_pointer hwidth hbytes
      cases hends with
      | zero hlink =>
          rw [hto] at hlink
          cases hlink
      | link _ _ => exact if_pos hpointer

/-! ### The location behind a name -/

theorem exists_returns_recParse_iff (msg : Bytes) (off : ℕ) (first : Bool) :
    (∃ r, Returns (fun fuel => recParse msg fuel off first) r)
      ↔ NameInside msg off ∧ ¬InCircle msg off := by
  rw [exists_returns_iff (stable_recParse msg off first), safe_recParse_iff, ends_iff_acc,
    acc_iff_not_inCircle]

theorem location_of_returns (hname : NameAt follow msg off labels next ending) {first : Bool}
    {r : Bytes × ℕ} (h : Returns (fun fuel => recParse msg fuel off first) r) :
    r.2 = leftAt next ending := by
  obtain ⟨depth, hdepth⟩ := h
  exact location_of_nameEnds hname (nameEnds_of_recParse (hdepth depth le_rfl))

theorem returns_behind_iff (hname : NameAt follow msg off labels next ending) (first : Bool) :
    (∃ name, Returns (fun fuel => recParse msg fuel off first) (name, next))
      ↔ ending = .pointer ∧ NameInside msg off ∧ ¬InCircle msg off := by
  rw [← exists_returns_recParse_iff msg off first]
  constructor
  · rintro ⟨name, h⟩
    have hleft : next = leftAt next ending := location_of_returns hname h
    cases ending with
    | zero =>
        have hlt := hname.lt
        rw [leftAt] at hleft
        omega
    | pointer => exact ⟨rfl, _, h⟩
  · rintro ⟨rfl, ⟨name, location⟩, h⟩
    obtain rfl : location = next := location_of_returns hname h
    exact ⟨name, h⟩

/-! ### The fields behind a name -/

/-- What `atoi16` makes of a number in the message: from 2¹⁵ on, its low byte is one too small. -/
def heard (x : BitVec 16) : BitVec 16 :=
  value16 (BitVec.ofNat 8 (x.toNat / 256)) (BitVec.ofNat 8 x.toNat)

theorem atoi16_of_bigEndian {x : BitVec 16} (h : bigEndian 2 x <+: msg.drop off) :
    atoi16 msg off = .ok (heard x, off + 2) := by
  rw [bigEndian_two] at h
  exact atoi16_of_isPrefix h

theorem toNat_heard (x : BitVec 16) :
    (heard x).toNat
      = x.toNat / 256 * 256 + (x.toNat % 256 + if 2 ^ 15 ≤ x.toNat then 255 else 0) % 256 := by
  have hx : x.toNat < 2 ^ 16 := x.isLt
  rw [heard, toNat_value16, BitVec.toNat_ofNat, BitVec.toNat_ofNat]
  split_ifs <;> omega

/-- The numbers that `atoi16` reads right. -/
theorem heard_eq_iff (x : BitVec 16) : heard x = x ↔ x.toNat < 2 ^ 15 := by
  rw [← BitVec.toNat_inj, toNat_heard]
  split_ifs <;> omega

theorem atoi32_of_bigEndian {x : BitVec 32} (h : bigEndian 4 x <+: msg.drop off) :
    atoi32 msg off = .ok (x, off + 4) := by
  have hlen := length_le_of_isPrefix h (by simp [← List.length_pos_iff])
  have htake := take_of_isPrefix h
  rw [length_bigEndian] at hlen htake
  have hbytes : ((msg ++ [0]).drop off).take 4 = bigEndian 4 x := by
    rw [List.drop_append_of_le_length (by omega), List.take_append_of_le_length (by
      rw [List.length_drop]
      omega), htake]
  have hvalue : swap 4 (ofMemory 32 (bigEndian 4 x)) = x := swap_swap (n := 4) rfl x
  rw [atoi32, if_pos (by omega), hbytes, hvalue]

/-- The fields of the record as they are read from its own bytes. -/
def Record.heard (rr : Record) (name : Bytes) : Fields :=
  ⟨name, Resolver.heard rr.type, Resolver.heard rr.cls, rr.ttl,
    Resolver.heard (BitVec.ofNat 16 rr.rdata.length)⟩

theorem fieldsBehind_of_body {rr : Record} (h : rr.body <+: msg.drop next) (name : Bytes) :
    fieldsBehind msg (name, next) = .ok (rr.heard name, next + 10) := by
  obtain ⟨htype, hcls, httl, hrdlength, -, -⟩ := Record.body_isPrefix h
  rw [fieldsBehind, atoi16_of_bigEndian htype, ok_bind]
  dsimp only
  rw [atoi16_of_bigEndian hcls, ok_bind]
  dsimp only
  rw [atoi32_of_bigEndian httl, ok_bind]
  dsimp only
  rw [atoi16_of_bigEndian hrdlength, ok_bind]
  rfl

theorem returns_readFields {name : Bytes} {rr : Record}
    (hname : Returns (fun fuel => recParse msg fuel off true) (name, next))
    (hbody : rr.body <+: msg.drop next) :
    Returns (fun fuel => readFields fuel msg off) (rr.heard name, next + 10) := by
  have hfields : Returns (fun _ => fieldsBehind msg (name, next)) (rr.heard name, next + 10) :=
    returns_of_forall fun _ => fieldsBehind_of_body hbody name
  exact (hname.bind (k := fun r _ => fieldsBehind msg r) hfields).congr fun fuel =>
    readFields_eq fuel msg off

/-- **Where `recParse` leaves the location.** For every name of a message, the call at its start
leaves the location behind the encoding exactly when that ends in a pointer and the call returns at
all. Then the fields that are read next are those of the record whose name it is. -/
theorem recParse_leaves_behind_iff (hname : NameAt (fun _ => True) msg off labels next ending) :
    (∀ first, (∃ name, Returns (fun fuel => recParse msg fuel off first) (name, next))
        ↔ ending = .pointer ∧ NameInside msg off ∧ ¬InCircle msg off)
      ∧ ∀ name, Returns (fun fuel => recParse msg fuel off true) (name, next) →
        ∀ rr : Record, rr.body <+: msg.drop next →
          Returns (fun fuel => readFields fuel msg off) (rr.heard name, next + 10) := by
  refine ⟨returns_behind_iff hname, ?_⟩
  intro name h rr hbody
  exact returns_readFields h hbody

/-- A name, a pointer to it, and the fields of an address record. -/
def pointedOwner : Bytes := [1, 97, 0, 192, 0, 0, 1, 0, 1, 0, 0, 0, 60, 0, 4, 192, 0, 2, 1]

theorem pointedOwner_nameAt : NameAt (fun _ => True) pointedOwner 3 [[97]] 5 .pointer := by
  have hroot : NameAt (fun _ => True) pointedOwner 2 [] 3 .zero := .root (by decide)
  have hname : NameAt (fun _ => True) pointedOwner 0 [[97]] 3 .zero :=
    .label (by decide) (by decide) (by decide) hroot
  exact .pointer (by decide) (by decide) (by decide) trivial hname

theorem recParse_leaves_behind_iff_sample :
    (∀ first, (∃ name, Returns (fun fuel => recParse pointedOwner fuel 3 first) (name, 5))
        ↔ Ending.pointer = .pointer ∧ NameInside pointedOwner 3 ∧ ¬InCircle pointedOwner 3)
      ∧ ∀ name, Returns (fun fuel => recParse pointedOwner fuel 3 true) (name, 5) →
        ∀ rr : Record, rr.body <+: pointedOwner.drop 5 →
          Returns (fun fuel => readFields fuel pointedOwner 3) (rr.heard name, 5 + 10) :=
  recParse_leaves_behind_iff pointedOwner_nameAt

/-- The header of a referral with one additional record, and a record that names the root. -/
def rootOwner : Bytes :=
  [0, 0, 132, 0, 0, 0, 0, 0, 0, 0, 0, 1, 0, 0, 41, 16, 0, 0, 0, 0, 0, 0, 0]

theorem rootOwner_nameAt : NameAt (fun _ => True) rootOwner 12 [] 13 .zero :=
  .root (by decide)

theorem rootOwner_not_left_behind :
    ¬∀ (msg : Bytes) (off next : ℕ) (labels : List Bytes) (ending : Ending),
      NameAt (fun _ => True) msg off labels next ending →
      ∃ name, Returns (fun fuel => recParse msg fuel off true) (name, next) := by
  intro h
  obtain ⟨name, depth, hdepth⟩ := h rootOwner 12 13 [] .zero rootOwner_nameAt
  have hstays : recParse rootOwner (depth + 1) 12 true = .ok ([], 12) := rfl
  cases hstays.symm.trans (hdepth (depth + 1) (Nat.le_succ depth))

end Networking.Resolver
