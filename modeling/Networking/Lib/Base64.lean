import Mathlib.Data.List.Basic
import Networking.Lib.Wire

/-!
# Base64

The encoding of bytes as text in groups of three, with padding, and its decoder. Without padding the
text is the sequence of the six-bit digits, of which the last one is filled up with zero bits.
-/

namespace Base64

open Wire

def digit (n : ℕ) : Byte :=
  if n < 26 then BitVec.ofNat 8 (65 + n)
  else if n < 52 then BitVec.ofNat 8 (71 + n)
  else if n < 62 then BitVec.ofNat 8 (n - 4)
  else if n = 62 then 43
  else 47

def value (c : Byte) : Option ℕ :=
  if 65 ≤ c ∧ c ≤ 90 then some (c.toNat - 65)
  else if 97 ≤ c ∧ c ≤ 122 then some (c.toNat - 71)
  else if 48 ≤ c ∧ c ≤ 57 then some (c.toNat + 4)
  else if c = 43 then some 62
  else if c = 47 then some 63
  else none

def pad : Byte := 61

/-! The digits of three bytes, and the bytes of four digits. -/

def digit₁ (a : Byte) : ℕ := a.toNat / 4

def digit₂ (a b : Byte) : ℕ := a.toNat % 4 * 16 + b.toNat / 16

def digit₃ (b c : Byte) : ℕ := b.toNat % 16 * 4 + c.toNat / 64

def digit₄ (c : Byte) : ℕ := c.toNat % 64

def byte₁ (w x : ℕ) : Byte := BitVec.ofNat 8 (w * 4 + x / 16)

def byte₂ (x y : ℕ) : Byte := BitVec.ofNat 8 (x % 16 * 16 + y / 4)

def byte₃ (y z : ℕ) : Byte := BitVec.ofNat 8 (y % 4 * 64 + z)

def encode : Bytes → Bytes
  | [] => []
  | [a] => [digit (digit₁ a), digit (digit₂ a 0), pad, pad]
  | [a, b] => [digit (digit₁ a), digit (digit₂ a b), digit (digit₃ b 0), pad]
  | a :: b :: c :: rest =>
      digit (digit₁ a) :: digit (digit₂ a b) :: digit (digit₃ b c) :: digit (digit₄ c)
        :: encode rest

/-- The digits alone. -/
def unpadded : Bytes → Bytes
  | [] => []
  | [a] => [digit (digit₁ a), digit (digit₂ a 0)]
  | [a, b] => [digit (digit₁ a), digit (digit₂ a b), digit (digit₃ b 0)]
  | a :: b :: c :: rest =>
      digit (digit₁ a) :: digit (digit₂ a b) :: digit (digit₃ b c) :: digit (digit₄ c)
        :: unpadded rest

/-- A decoder that takes groups of four characters, with padding in the last one only. -/
def decode : Bytes → Option Bytes
  | [] => some []
  | w :: x :: y :: z :: rest => do
      let w ← value w
      let x ← value x
      if z = pad then
        if rest ≠ [] then
          none
        else if y = pad then
          some [byte₁ w x]
        else do
          let y ← value y
          some [byte₁ w x, byte₂ x y]
      else do
        let y ← value y
        let z ← value z
        let bytes ← decode rest
        some (byte₁ w x :: byte₂ x y :: byte₃ y z :: bytes)
  | _ => none

/-- A newline in front of each character that has `width` characters before it in its line. -/
def insertLinebreaks (width : ℕ) : ℕ → Bytes → Bytes
  | _, [] => []
  | 0, c :: text => 10 :: c :: insertLinebreaks width (width - 1) text
  | left + 1, c :: text => c :: insertLinebreaks width left text

def removeLinebreaks (text : Bytes) : Bytes := text.filter (· ≠ 10)

variable {bytes text : Bytes}

/-! ### Digits -/

theorem value_digit : ∀ n < 64, value (digit n) = some n := by
  decide

theorem digit_ne : ∀ n < 64, digit n ≠ pad ∧ digit n ≠ 10 := by
  decide

theorem digit₁_lt (a : Byte) : digit₁ a < 64 := by
  have ha := a.isLt
  rw [digit₁]
  omega

theorem digit₂_lt (a b : Byte) : digit₂ a b < 64 := by
  have hb := b.isLt
  rw [digit₂]
  omega

theorem digit₃_lt (b c : Byte) : digit₃ b c < 64 := by
  have hc := c.isLt
  rw [digit₃]
  omega

theorem digit₄_lt (c : Byte) : digit₄ c < 64 := Nat.mod_lt _ (by decide)

theorem byte₁_digits (a b : Byte) : byte₁ (digit₁ a) (digit₂ a b) = a := by
  have ha := a.isLt
  have hb := b.isLt
  apply BitVec.eq_of_toNat_eq
  rw [byte₁, digit₁, digit₂, BitVec.toNat_ofNat]
  omega

theorem byte₂_digits (a b c : Byte) : byte₂ (digit₂ a b) (digit₃ b c) = b := by
  have hb := b.isLt
  have hc := c.isLt
  apply BitVec.eq_of_toNat_eq
  rw [byte₂, digit₂, digit₃, BitVec.toNat_ofNat]
  omega

theorem byte₃_digits (b c : Byte) : byte₃ (digit₃ b c) (digit₄ c) = c := by
  have hc := c.isLt
  apply BitVec.eq_of_toNat_eq
  rw [byte₃, digit₃, digit₄, BitVec.toNat_ofNat]
  omega

/-! ### Encoding and decoding -/

/-- **The decoder gives back** what was encoded. -/
theorem decode_encode (bytes : Bytes) : decode (encode bytes) = some bytes := by
  induction bytes using encode.induct with
  | case1 => rfl
  | case2 a =>
      simp only [encode, decode, value_digit _ (digit₁_lt a), value_digit _ (digit₂_lt a 0),
        byte₁_digits, ne_eq, not_true_eq_false, ↓reduceIte, Option.bind_eq_bind, Option.bind_some]
  | case3 a b =>
      have hne : digit (digit₃ b 0) ≠ pad := (digit_ne _ (digit₃_lt b 0)).1
      simp only [encode, decode, value_digit _ (digit₁_lt a), value_digit _ (digit₂_lt a b),
        value_digit _ (digit₃_lt b 0), byte₁_digits, byte₂_digits, ne_eq, not_true_eq_false,
        ↓reduceIte, if_neg hne, Option.bind_eq_bind, Option.bind_some]
  | case4 a b c rest ih =>
      have hne : digit (digit₄ c) ≠ pad := (digit_ne _ (digit₄_lt c)).1
      simp only [encode, decode, value_digit _ (digit₁_lt a), value_digit _ (digit₂_lt a b),
        value_digit _ (digit₃_lt b c), value_digit _ (digit₄_lt c), byte₁_digits, byte₂_digits,
        byte₃_digits, if_neg hne, ih, Option.bind_eq_bind, Option.bind_some]

/-- `"Man"` and `"Ma"`. -/
example : encode [77, 97, 110] = [84, 87, 70, 117] ∧ encode [77, 97] = [84, 87, 69, 61] := by
  decide

/-- The text is the digits with the padding that the length asks for. -/
theorem encode_eq (bytes : Bytes) :
    encode bytes = unpadded bytes ++ List.replicate ((3 - bytes.length % 3) % 3) pad := by
  induction bytes using encode.induct with
  | case1 => rfl
  | case2 a => rfl
  | case3 a b => rfl
  | case4 a b c rest ih =>
      simp only [List.length_cons]
      rw [show (rest.length + 1 + 1 + 1) % 3 = rest.length % 3 by omega, encode, unpadded, ih]
      rfl

theorem length_unpadded (bytes : Bytes) :
    (unpadded bytes).length = (8 * bytes.length + 5) / 6 := by
  induction bytes using encode.induct with
  | case1 => rfl
  | case2 a => simp [unpadded]
  | case3 a b => simp [unpadded]
  | case4 a b c rest ih =>
      simp only [unpadded, List.length_cons, ih]
      omega

theorem four_dvd_of_decode (h : decode text = some bytes) : 4 ∣ text.length := by
  induction text using decode.induct generalizing bytes with
  | case1 => exact dvd_zero 4
  | case2 w x y z rest ih =>
      have hrest : 4 ∣ rest.length := by
        simp only [decode, Option.bind_eq_bind, Option.bind_eq_some_iff] at h
        obtain ⟨w', -, x', -, h⟩ := h
        by_cases hz : z = pad
        · rw [if_pos hz] at h
          by_cases hrest : rest ≠ []
          · rw [if_pos hrest] at h
            cases h
          · rw [not_not.mp hrest]
            exact dvd_zero 4
        · rw [if_neg hz] at h
          simp only [Option.bind_eq_some_iff] at h
          obtain ⟨y', -, z', -, bytes', hbytes, -⟩ := h
          exact ih hbytes
      simp only [List.length_cons]
      omega
  | case3 text hnil hcons =>
      rw [decode.eq_3 text hnil hcons] at h
      cases h

/-! ### Line breaks -/

theorem unpadded_ne_newline (bytes : Bytes) : ∀ c ∈ unpadded bytes, c ≠ 10 := by
  have hne (n : ℕ) (hn : n < 64) : digit n ≠ 10 := (digit_ne n hn).2
  induction bytes using encode.induct with
  | case1 => exact fun _ h => absurd h List.not_mem_nil
  | case2 a =>
      simp only [unpadded, List.forall_mem_cons]
      exact ⟨hne _ (digit₁_lt a), hne _ (digit₂_lt a 0), fun _ h => absurd h List.not_mem_nil⟩
  | case3 a b =>
      simp only [unpadded, List.forall_mem_cons]
      exact ⟨hne _ (digit₁_lt a), hne _ (digit₂_lt a b), hne _ (digit₃_lt b 0),
        fun _ h => absurd h List.not_mem_nil⟩
  | case4 a b c rest ih =>
      simp only [unpadded, List.forall_mem_cons]
      exact ⟨hne _ (digit₁_lt a), hne _ (digit₂_lt a b), hne _ (digit₃_lt b c),
        hne _ (digit₄_lt c), ih⟩

/-- Without its line breaks the text is as before. -/
theorem removeLinebreaks_insertLinebreaks (width left : ℕ) (htext : ∀ c ∈ text, c ≠ 10) :
    removeLinebreaks (insertLinebreaks width left text) = text := by
  induction text generalizing left with
  | nil => cases left <;> rfl
  | cons c text ih =>
      rw [List.forall_mem_cons] at htext
      have hc : c ≠ 10 := htext.1
      cases left with
      | zero =>
          rw [insertLinebreaks, removeLinebreaks, List.filter_cons_of_neg (by decide),
            List.filter_cons_of_pos (by exact decide_eq_true hc), ← removeLinebreaks,
            ih _ htext.2]
      | succ left =>
          rw [insertLinebreaks, removeLinebreaks,
            List.filter_cons_of_pos (by exact decide_eq_true hc), ← removeLinebreaks,
            ih _ htext.2]

end Base64
