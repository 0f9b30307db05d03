import Mathlib.Data.List.GetD
import Mathlib.Tactic.Ring

/-!
# Bytes and words

A little-endian machine keeps a word in memory least significant byte first. `memory n x` is the
image of `x` in `n` bytes and `ofMemory` reads one back; `swap` is the byte reversal that `htons`,
`htonl` and their inverses perform there. Everything is proved once for all widths, bit by bit.
-/

namespace Wire

abbrev Byte := BitVec 8

abbrev Bytes := List Byte

def ofString (s : String) : Bytes := s.toList.map fun c => BitVec.ofNat 8 c.toNat

variable {w n : ℕ}

/-- A number is written in the characters `0` to `9`. -/
theorem digit_of_mem_ofString {c : Byte}
    (hc : c ∈ ofString (String.ofList (Nat.toDigits 10 n))) : 48 ≤ c ∧ c ≤ 57 := by
  obtain ⟨d, hd, rfl⟩ := List.mem_map.mp hc
  rw [String.toList_ofList] at hd
  have hdigit := Nat.isDigit_of_mem_toDigits (by decide) (by decide) hd
  rw [Char.isDigit, Bool.and_eq_true, decide_eq_true_eq, decide_eq_true_eq] at hdigit
  have hlow : 48 ≤ d.toNat := UInt32.le_iff_toNat_le.mp hdigit.1
  have hhigh : d.toNat ≤ 57 := UInt32.le_iff_toNat_le.mp hdigit.2
  constructor <;> bv_omega

/-- The `n` bytes a word occupies in memory, least significant first. -/
def memory (n : ℕ) (x : BitVec w) : Bytes := (List.range n).map fun i => x.extractLsb' (8 * i) 8

def ofMemory (w : ℕ) : Bytes → BitVec w
  | [] => 0
  | b :: bs => ofMemory w bs <<< 8 ||| b.setWidth w

/-- The word with the bytes of `x` in reverse order. -/
def swap (n : ℕ) (x : BitVec w) : BitVec w := ofMemory w (memory n x).reverse

/-- The `n` bytes of a word in network order, most significant first. -/
def bigEndian (n : ℕ) (x : BitVec w) : Bytes := (memory n x).reverse

@[simp]
theorem length_memory (n : ℕ) (x : BitVec w) : (memory n x).length = n := by
  simp [memory]

@[simp]
theorem length_bigEndian (n : ℕ) (x : BitVec w) : (bigEndian n x).length = n := by
  simp [bigEndian]

theorem getElem_memory (x : BitVec w) {i : ℕ} (hi : i < (memory n x).length) :
    (memory n x)[i] = x.extractLsb' (8 * i) 8 := by
  simp [memory]

theorem getLsbD_ofMemory (bs : Bytes) (j : ℕ) :
    (ofMemory w bs).getLsbD j = (decide (j < w) && (bs.getD (j / 8) 0).getLsbD (j % 8)) := by
  induction bs generalizing j with
  | nil => simp [ofMemory]
  | cons b bs ih =>
      rw [ofMemory, BitVec.getLsbD_or, BitVec.getLsbD_shiftLeft, BitVec.getLsbD_setWidth, ih]
      by_cases hj : j < 8
      · rw [Nat.div_eq_of_lt hj, Nat.mod_eq_of_lt hj]
        simp [hj]
      · have hdiv : j / 8 = (j - 8) / 8 + 1 := by omega
        have hmod : j % 8 = (j - 8) % 8 := by omega
        have hhigh : b.getLsbD j = false := BitVec.getLsbD_of_ge b j (by omega)
        rw [hdiv, hmod, List.getD_cons_succ, hhigh]
        by_cases hw : j < w
        · have hw' : j - 8 < w := by omega
          simp [hj, hw, hw']
        · simp [hw]

theorem ofMemory_memory (hw : w ≤ 8 * n) (x : BitVec w) : ofMemory w (memory n x) = x := by
  apply BitVec.eq_of_getLsbD_eq
  intro j hj
  have hlt : j / 8 < (memory n x).length := by
    rw [length_memory]
    omega
  rw [getLsbD_ofMemory, List.getD_eq_getElem _ _ hlt, getElem_memory]
  have hbit : 8 * (j / 8) + j % 8 = j := by omega
  have hmod : j % 8 < 8 := by omega
  simp [hj, hbit, hmod]

theorem memory_ofMemory (hw : 8 * n ≤ w) {bs : Bytes} (hlen : bs.length = n) :
    memory n (ofMemory w bs) = bs := by
  apply List.ext_getElem (by rw [length_memory, hlen])
  intro i hi hi'
  rw [getElem_memory]
  apply BitVec.eq_of_getLsbD_eq
  intro j hj
  have hdiv : (8 * i + j) / 8 = i := by omega
  have hmod : (8 * i + j) % 8 = j := by omega
  have hlt : 8 * i + j < w := by omega
  rw [BitVec.getLsbD_extractLsb', getLsbD_ofMemory, hdiv, hmod, List.getD_eq_getElem _ _ hi']
  simp [hj, hlt]

/-- A word read from memory, byte by byte: the first byte has the least weight. -/
theorem toNat_ofMemory_cons (hw : 8 ≤ w) (b : Byte) (bs : Bytes) :
    (ofMemory w (b :: bs)).toNat = (b.toNat + 256 * (ofMemory w bs).toNat) % 2 ^ w := by
  obtain ⟨v, rfl⟩ : ∃ v, w = 8 + v := ⟨w - 8, by omega⟩
  have hb : b.toNat < 2 ^ 8 := b.isLt
  have hpow : 2 ^ (8 + v) = 256 * 2 ^ v := by rw [Nat.pow_add]
  have hle : 2 ^ 8 ≤ 2 ^ (8 + v) := Nat.pow_le_pow_right (by omega) hw
  have hshift : (ofMemory (8 + v) bs).toNat <<< 8 % 2 ^ (8 + v)
      = ((ofMemory (8 + v) bs).toNat % 2 ^ v) <<< 8 := by
    rw [Nat.shiftLeft_eq, Nat.shiftLeft_eq, hpow, Nat.mul_comm, Nat.mul_mod_mul_left, Nat.mul_comm]
  rw [ofMemory, BitVec.toNat_or, BitVec.toNat_shiftLeft, BitVec.toNat_setWidth,
    Nat.mod_eq_of_lt (lt_of_lt_of_le hb hle), hshift, ← Nat.shiftLeft_add_eq_or_of_lt hb,
    Nat.shiftLeft_eq, hpow, Nat.mod_mul]
  have hdiv : (b.toNat + 256 * (ofMemory (8 + v) bs).toNat) / 256
      = (ofMemory (8 + v) bs).toNat := by
    omega
  rw [hdiv]
  omega

theorem memory_swap (hw : 8 * n ≤ w) (x : BitVec w) :
    memory n (swap n x) = (memory n x).reverse :=
  memory_ofMemory hw (by simp)

theorem memory_swap_eq_bigEndian (hw : 8 * n ≤ w) (x : BitVec w) :
    memory n (swap n x) = bigEndian n x :=
  memory_swap hw x

/-- Swapping twice is the identity: a host word survives the way over the network. -/
theorem swap_swap (hw : w = 8 * n) (x : BitVec w) : swap n (swap n x) = x := by
  rw [swap, memory_swap (le_of_eq hw.symm), List.reverse_reverse, ofMemory_memory (le_of_eq hw)]

theorem toNat_ofNat_of_lt (hn : n < 2 ^ w) : (BitVec.ofNat w n).toNat = n := by
  rw [BitVec.toNat_ofNat, Nat.mod_eq_of_lt hn]

theorem ne_zero_of_toNat_pos {x : BitVec w} (h : 0 < x.toNat) : x ≠ 0 := by
  rintro rfl
  exact absurd BitVec.toNat_zero h.ne'

/-! ### Bytes found at an offset -/

theorem getElem?_of_isPrefix {α : Type*} {msg part : List α} {off i : ℕ} (h : part <+: msg.drop off)
    (hi : i < part.length) : msg[off + i]? = some part[i] := by
  obtain ⟨rest, hrest⟩ := h
  rw [← List.getElem?_drop, ← hrest, List.getElem?_append_left hi, List.getElem?_eq_getElem hi]

theorem length_le_of_isPrefix {α : Type*} {msg part : List α} {off : ℕ} (h : part <+: msg.drop off)
    (hpart : part ≠ []) : off + part.length ≤ msg.length := by
  have hlen := h.length_le
  have hpos := List.length_pos_iff.mpr hpart
  rw [List.length_drop] at hlen
  omega

theorem take_of_isPrefix {α : Type*} {msg part : List α} {off : ℕ} (h : part <+: msg.drop off) :
    (msg.drop off).take part.length = part :=
  (List.prefix_iff_eq_take.mp h).symm

theorem isPrefix_drop_of_append {α : Type*} {msg second : List α} {off : ℕ} (first : List α)
    (h : first ++ second <+: msg.drop off) : second <+: msg.drop (off + first.length) := by
  obtain ⟨rest, hrest⟩ := h
  refine ⟨rest, ?_⟩
  rw [← List.drop_drop, ← hrest, List.append_assoc, List.drop_left]

theorem append_isPrefix_drop {α : Type*} {msg first second : List α} {off : ℕ}
    (hfirst : first <+: msg.drop off) (hsecond : second <+: msg.drop (off + first.length)) :
    first ++ second <+: msg.drop off := by
  obtain ⟨rest, hrest⟩ := hfirst
  rw [← List.drop_drop, ← hrest, List.drop_left] at hsecond
  obtain ⟨rest', hrest'⟩ := hsecond
  exact ⟨rest', by rw [← hrest, ← hrest', List.append_assoc]⟩

end Wire
