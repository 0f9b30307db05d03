import Networking.Lib.Fuel
import Networking.Resolver.Message

/-!
# What `recParse` reads

`recParse` decodes a name by recursion on its labels and follows a compression pointer through the
low six bits of its target only. So it reads the names all of whose pointers lead below offset 64,
and it leaves the location behind the encoding when that ends in a pointer, but on the zero byte
when it ends there. The location does not depend on where the pointers lead.
-/

namespace Networking.Resolver

open Wire Fuel

/-! ### The readers on known bytes -/

section Readers

variable {msg part : Bytes} {off : ℕ}

theorem charAt_of_isPrefix (h : part <+: msg.drop off) {i : ℕ} (hi : i < part.length) :
    charAt msg (off + i) = .ok part[i] := by
  rw [charAt, getElem?_of_isPrefix h hi]

def value16 (c d : Byte) : BitVec 16 :=
  swap 2 ((c.signExtend 32 + d.signExtend 32 <<< 8).setWidth 16 : BitVec 16)

theorem toNat_swap_two (x : BitVec 16) :
    (swap 2 x).toNat = x.toNat % 256 * 256 + x.toNat / 256 := by
  have hbytes : (memory 2 x).reverse = [x.extractLsb' 8 8, x.extractLsb' 0 8] := rfl
  have hx : x.toNat < 65536 := x.isLt
  rw [swap, hbytes, toNat_ofMemory_cons (by decide), toNat_ofMemory_cons (by decide)]
  simp only [BitVec.extractLsb'_toNat, ofMemory, Nat.shiftRight_eq_div_pow, BitVec.ofNat_eq_ofNat,
    BitVec.toNat_ofNat, Nat.pow_zero, Nat.div_one, Nat.reducePow, Nat.zero_mod, Nat.mul_zero,
    Nat.add_zero]
  have hhigh : x.toNat / 256 % 256 = x.toNat / 256 := by omega
  rw [hhigh, Nat.mod_eq_of_lt (show x.toNat % 256 < 65536 by omega)]
  omega

/-- A first byte from 128 on is negative as a `char`, and the borrow takes one from the second. -/
theorem toNat_value16 (c d : Byte) :
    (value16 c d).toNat
      = c.toNat * 256 + (d.toNat + if 128 ≤ c.toNat then 255 else 0) % 256 := by
  have hc : c.toNat < 256 := c.isLt
  have hd : d.toNat < 256 := d.isLt
  have hsign : ∀ b : Byte, (b.signExtend 32).toNat
      = b.toNat + if 128 ≤ b.toNat then 2 ^ 32 - 2 ^ 8 else 0 := by
    intro b
    have hb : b.toNat < 2 ^ 32 := lt_trans b.isLt (by decide)
    rw [BitVec.toNat_signExtend, BitVec.msb_eq_decide, BitVec.toNat_setWidth, Nat.mod_eq_of_lt hb]
    simp
  rw [value16, toNat_swap_two, BitVec.toNat_setWidth, BitVec.toNat_add, BitVec.toNat_shiftLeft,
    Nat.shiftLeft_eq, hsign, hsign]
  split_ifs <;> omega

/-- The mask with which `recParse` cuts a pointer. -/
theorem and_mask (n : ℕ) : n &&& 63 = n % 64 := Nat.and_two_pow_sub_one_eq_mod n 6

theorem atoi16_of_isPrefix {c d : Byte} (h : [c, d] <+: msg.drop off) :
    atoi16 msg off = .ok (value16 c d, off + 2) := by
  have hc : charAt msg off = .ok c := charAt_of_isPrefix h (i := 0) (by simp)
  have hd : charAt msg (off + 1) = .ok d := charAt_of_isPrefix h (i := 1) (by simp)
  rw [atoi16, hc, ok_bind, hd]
  rfl

theorem bigEndian_two (x : BitVec 16) :
    bigEndian 2 x = [BitVec.ofNat 8 (x.toNat / 256), BitVec.ofNat 8 x.toNat] := by
  have hbytes : bigEndian 2 x = [x.extractLsb' 8 8, x.extractLsb' 0 8] := rfl
  rw [hbytes, BitVec.extractLsb', BitVec.extractLsb', Nat.shiftRight_eq_div_pow,
    Nat.shiftRight_zero]

theorem atoi16_of_small {x : BitVec 16} (hsmall : x.toNat < 2 ^ 15)
    (h : bigEndian 2 x <+: msg.drop off) : atoi16 msg off = .ok (x, off + 2) := by
  rw [bigEndian_two] at h
  rw [atoi16_of_isPrefix h]
  congr 2
  apply BitVec.eq_of_toNat_eq
  rw [toNat_value16, BitVec.toNat_ofNat, BitVec.toNat_ofNat]
  split_ifs <;> omega

theorem atoi16_isOk {x : BitVec 16} (h : bigEndian 2 x <+: msg.drop off) :
    ∃ value, atoi16 msg off = .ok (value, off + 2) := by
  rw [bigEndian_two] at h
  exact ⟨_, atoi16_of_isPrefix h⟩

theorem atoi32_isOk {x : BitVec 32} (h : bigEndian 4 x <+: msg.drop off) :
    ∃ value, atoi32 msg off = .ok (value, off + 4) := by
  have hlen := length_le_of_isPrefix h (by simp [← List.length_pos_iff])
  rw [length_bigEndian] at hlen
  exact ⟨_, if_pos (by omega)⟩

theorem substr_of_isPrefix (h : part <+: msg.drop off) (hoff : off ≤ msg.length) :
    substr msg off part.length = .ok part := by
  rw [substr, if_pos hoff, take_of_isPrefix h]

theorem copyLabel_of_isPrefix (h : part <+: msg.drop off) :
    copyLabel msg part.length off = .ok part := by
  induction part generalizing off with
  | nil => rfl
  | cons c rest ih =>
      have hc : charAt msg off = .ok c := charAt_of_isPrefix h (i := 0) (by simp)
      have hrest : rest <+: msg.drop (off + 1) := isPrefix_drop_of_append [c] h
      rw [List.length_cons, copyLabel, hc, ok_bind, ih hrest]
      rfl

end Readers

/-! ### Names -/

/-- The text `recParse` builds: dots between the labels, and one in front unless it is first. -/
def nameText (first : Bool) (labels : List Bytes) : Bytes :=
  if first then dotted labels else labels.flatMap fun label => ofString "." ++ label

theorem nameText_nil (first : Bool) : nameText first [] = [] := by
  cases first <;> rfl

theorem dotted_cons (label : Bytes) (rest : List Bytes) :
    dotted (label :: rest) = label ++ rest.flatMap fun l => ofString "." ++ l := by
  induction rest generalizing label with
  | nil => simp [dotted, List.intercalate]
  | cons l rest ih =>
      have hsplit : dotted (label :: l :: rest)
          = label ++ (ofString "." ++ dotted (l :: rest)) := by
        simp [dotted, List.intercalate, List.intersperse]
      rw [hsplit, ih, List.flatMap_cons, List.append_assoc]

theorem nameText_cons (first : Bool) (label : Bytes) (rest : List Bytes) :
    nameText first (label :: rest) = if first then label ++ nameText false rest
      else ofString "." ++ label ++ nameText false rest := by
  cases first with
  | true => exact dotted_cons label rest
  | false => simp [nameText]

/-- Where `recParse` leaves the location: a closing zero byte is read but not passed. -/
def leftAt (next : ℕ) : Ending → ℕ
  | .zero => next - 1
  | .pointer => next

section Cases

variable {msg : Bytes} {off next target : ℕ} {label text : Bytes} {first : Bool}

theorem recParse_root (hbytes : [0] <+: msg.drop off) (first : Bool) :
    Returns (fun fuel => recParse msg fuel off first) ([], off) := by
  have hzero : charAt msg off = .ok 0 := charAt_of_isPrefix hbytes (i := 0) (by simp)
  refine (returns_of_forall (f := fun _ => .ok ([], off)) fun _ => rfl).succ fun fuel => ?_
  rw [recParse, hzero]
  rfl

theorem recParse_label (hpos : 0 < label.length) (hlen : label.length ≤ 63)
    (hbytes : BitVec.ofNat 8 label.length :: label <+: msg.drop off)
    (hrest : Returns (fun fuel => recParse msg fuel (off + 1 + label.length) false)
      (text, next)) (first : Bool) :
    Returns (fun fuel => recParse msg fuel off first)
      (if first then label ++ text else ofString "." ++ label ++ text, next) := by
  have hhead : charAt msg off = .ok (BitVec.ofNat 8 label.length) :=
    charAt_of_isPrefix hbytes (i := 0) (by simp)
  have hlabel : copyLabel msg label.length (off + 1) = .ok label :=
    copyLabel_of_isPrefix (isPrefix_drop_of_append [_] hbytes)
  have htoNat : (BitVec.ofNat 8 label.length).toNat = label.length :=
    toNat_ofNat_of_lt (by omega)
  have hne : BitVec.ofNat 8 label.length ≠ 0 := ne_zero_of_toNat_pos (by omega)
  have hbit : bit (BitVec.ofNat 8 label.length) 6 = false := by
    rw [bit, BitVec.getLsbD, htoNat]
    exact Nat.testBit_lt_two_pow (by omega)
  apply (hrest.map fun r =>
    (if first then label ++ r.1 else ofString "." ++ label ++ r.1, r.2)).succ
  intro fuel
  rw [recParse, hhead, ok_bind, if_neg hne, hbit, Bool.and_false, if_neg Bool.false_ne_true,
    htoNat, hlabel]
  rfl

/-- Of the target of a pointer, six bits are left. -/
theorem recParse_pointer
    (hbytes : bigEndian 2 (BitVec.ofNat 16 (0xC000 + target)) <+: msg.drop off)
    (hwidth : target < 2 ^ 14)
    (hrest : Returns (fun fuel => recParse msg fuel (target % 64) first) (text, next)) :
    Returns (fun fuel => recParse msg fuel off first) (text, off + 2) := by
  have htoNat : (BitVec.ofNat 16 (0xC000 + target)).toNat = 0xC000 + target :=
    toNat_ofNat_of_lt (by omega)
  rw [bigEndian_two, htoNat] at hbytes
  have hhead : charAt msg off = .ok (BitVec.ofNat 8 ((0xC000 + target) / 256)) :=
    charAt_of_isPrefix hbytes (i := 0) (by simp)
  have hhigh : (BitVec.ofNat 8 ((0xC000 + target) / 256)).toNat = 192 + target / 256 := by
    rw [BitVec.toNat_ofNat]
    omega
  have hne : BitVec.ofNat 8 ((0xC000 + target) / 256) ≠ 0 := ne_zero_of_toNat_pos (by omega)
  have hbits : (bit (BitVec.ofNat 8 ((0xC000 + target) / 256)) 7
      && bit (BitVec.ofNat 8 ((0xC000 + target) / 256)) 6) = true := by
    have hall : ∀ k < 64, (bit (BitVec.ofNat 8 (192 + k)) 7
        && bit (BitVec.ofNat 8 (192 + k)) 6) = true := by decide
    rw [show (0xC000 + target) / 256 = 192 + target / 256 by omega]
    exact hall _ (by omega)
  have htarget : ((value16 (BitVec.ofNat 8 ((0xC000 + target) / 256))
      (BitVec.ofNat 8 (0xC000 + target))).toNat + 1) &&& 63 = target % 64 := by
    rw [toNat_value16, hhigh, BitVec.toNat_ofNat, and_mask, if_pos (by omega)]
    omega
  refine (hrest.map fun r => (r.1, off + 2)).succ fun fuel => ?_
  rw [recParse, hhead, ok_bind, if_neg hne, if_pos hbits, atoi16_of_isPrefix hbytes, ok_bind]
  simp only [htarget]
  rfl

end Cases

/-- A pointer whose target `recParse` computes right. -/
def Near (target : ℕ) : Prop := target < 64

/-- **`recParse` on near names.** With enough fuel it returns the labels, and it passes the encoding
exactly when that ends in a pointer. -/
theorem recParse_nameAt {msg : Bytes} {off next : ℕ} {labels : List Bytes} {ending : Ending}
    (hname : NameAt Near msg off labels next ending) (first : Bool) :
    Returns (fun fuel => recParse msg fuel off first)
      (nameText first labels, leftAt next ending) := by
  induction hname generalizing first with
  | root hbytes =>
      rw [nameText_nil]
      exact recParse_root hbytes first
  | label hpos hlen hbytes _ ih =>
      rw [nameText_cons]
      exact recParse_label hpos hlen hbytes (ih false) first
  | @pointer off target next labels ending hbytes hwidth _ hnear _ ih =>
      have hrest := ih first
      rw [← Nat.mod_eq_of_lt hnear] at hrest
      exact recParse_pointer hbytes hwidth hrest

/-- A pointer whose target, cut to six bits, is a name, be it the right one or not. -/
def Landing (msg : Bytes) (target : ℕ) : Prop :=
  ∃ labels next ending, NameAt Near msg (target % 64) labels next ending

/-- Where the text of the name does not matter, it is enough that each pointer leads to some name:
the location is behind the encoding all the same. -/
theorem recParse_landing {msg : Bytes} {off next : ℕ} {labels : List Bytes} {ending : Ending}
    (hname : NameAt (Landing msg) msg off labels next ending) (first : Bool) :
    ∃ text, Returns (fun fuel => recParse msg fuel off first) (text, leftAt next ending) := by
  induction hname generalizing first with
  | root hbytes => exact ⟨_, recParse_root hbytes first⟩
  | label hpos hlen hbytes _ ih =>
      obtain ⟨text, hrest⟩ := ih false
      exact ⟨_, recParse_label hpos hlen hbytes hrest first⟩
  | pointer hbytes hwidth _ hlanding _ _ =>
      obtain ⟨labels, next, ending, hname⟩ := hlanding
      exact ⟨_, recParse_pointer hbytes hwidth (recParse_nameAt hname first)⟩

end Networking.Resolver
