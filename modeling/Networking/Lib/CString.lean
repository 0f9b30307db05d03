import Mathlib.Data.List.TakeWhile
import Networking.Lib.Wire

/-!
# Strings of C

A string is what stands in memory before the first zero byte. The functions of the C library that
work on one are given as they behave on memory, and each has a rule for the string alone.
-/

namespace CString

open Wire

/-- The string that begins a piece of memory. -/
def text (mem : Bytes) : Bytes := mem.takeWhile (· ≠ 0)

def strlen (mem : Bytes) : ℕ := (text mem).length

def strchr (mem : Bytes) (c : Byte) : Option ℕ := (text mem).findIdx? (· = c)

def strrchr (mem : Bytes) (c : Byte) : Option ℕ :=
  ((text mem).reverse.findIdx? (· = c)).map (strlen mem - 1 - ·)

/-- What `strncpy` writes: the string cut at `n` bytes, or padded with zero bytes. -/
def strncpy (n : ℕ) (src : Bytes) : Bytes := (text src).takeD n 0

def takeLine : ℕ → Bytes → Bytes
  | 0, _ => []
  | _, [] => []
  | n + 1, b :: bs => b :: if b = 10 then [] else takeLine n bs

/-- A line of at most `size - 1` bytes with a zero byte behind it, over what the buffer holds. There
is no result at the end of the file. -/
def fgets (buff : Bytes) (size : ℕ) (file : Bytes) : Option (Bytes × Bytes) :=
  if file = [] then
    none
  else
    let line := takeLine (size - 1) file
    some (line ++ 0 :: buff.drop (line.length + 1), file.drop line.length)

def isSpace (b : Byte) : Bool := b = 32 || 9 ≤ b && b ≤ 13

def isDigit (b : Byte) : Bool := 48 ≤ b && b ≤ 57

def decimal (digits : Bytes) : ℕ := digits.foldl (fun n b => 10 * n + (b.toNat - 48)) 0

/-- `strtol` in base ten, for a `long` of 64 bits. -/
def strtol (mem : Bytes) : ℤ :=
  match (text mem).dropWhile isSpace with
  | 45 :: digits => max (-2 ^ 63) (-(decimal (digits.takeWhile isDigit) : ℤ))
  | 43 :: digits => min (2 ^ 63 - 1) (decimal (digits.takeWhile isDigit) : ℤ)
  | digits => min (2 ^ 63 - 1) (decimal (digits.takeWhile isDigit) : ℤ)

def atoi (mem : Bytes) : BitVec 32 := BitVec.ofInt 32 (strtol mem)

variable {mem string front back line rest file buff : Bytes} {c : Byte} {k n i : ℕ}

/-! ### The string in memory -/

theorem text_append_zero (hstring : 0 ∉ string) (rest : Bytes) :
    text (string ++ 0 :: rest) = string := by
  have hall : ∀ b ∈ string, decide (b ≠ 0) = true := by
    intro b hb
    apply decide_eq_true
    rintro rfl
    exact hstring hb
  rw [text, List.takeWhile_append_of_pos hall, List.takeWhile_cons_of_neg (by decide),
    List.append_nil]

theorem text_line_append (line rest : Bytes) : text (line ++ 0 :: rest) = text line := by
  induction line with
  | nil => exact List.takeWhile_cons_of_neg (by decide)
  | cons b line ih =>
      rw [text, text, List.cons_append, List.takeWhile_cons, List.takeWhile_cons]
      split_ifs
      · exact congrArg (b :: ·) ih
      · rfl

theorem length_text_lt (hzero : 0 ∈ mem) : (text mem).length < mem.length := by
  refine lt_of_le_of_ne (List.takeWhile_prefix _).length_le fun hlength => ?_
  have hself := (List.takeWhile_prefix (fun b : Byte => decide (b ≠ 0))).eq_of_length hlength
  exact absurd (List.takeWhile_eq_self_iff.mp hself 0 hzero) (by decide)

theorem zero_not_mem_text (mem : Bytes) : 0 ∉ text mem := fun hzero =>
  absurd (List.mem_takeWhile_imp hzero) (by decide)

theorem text_cons_of_ne {b : Byte} (hb : b ≠ 0) (mem : Bytes) : text (b :: mem) = b :: text mem :=
  List.takeWhile_cons_of_pos (decide_eq_true hb)

theorem text_cons_zero (mem : Bytes) : text (0 :: mem) = [] :=
  List.takeWhile_cons_of_neg (by decide)

theorem text_drop (hk : k ≤ (text mem).length) : text (mem.drop k) = (text mem).drop k := by
  induction mem generalizing k with
  | nil => simp [text]
  | cons b mem ih =>
      cases k with
      | zero => rfl
      | succ k =>
          by_cases hb : b = 0
          · rw [hb, text_cons_zero] at hk
            exact absurd hk (Nat.not_succ_le_zero k)
          · rw [text_cons_of_ne hb, List.length_cons] at hk
            rw [text_cons_of_ne hb, List.drop_succ_cons, List.drop_succ_cons, ih (by omega)]

/-- A zero byte cuts the string. -/
theorem text_set_zero (hk : k < (text mem).length) : text (mem.set k 0) = (text mem).take k := by
  induction mem generalizing k with
  | nil => cases hk
  | cons b mem ih =>
      by_cases hb : b = 0
      · rw [hb, text_cons_zero] at hk
        cases hk
      · rw [text_cons_of_ne hb] at hk ⊢
        cases k with
        | zero => exact text_cons_zero mem
        | succ k =>
            rw [List.length_cons] at hk
            rw [List.set_cons_succ, text_cons_of_ne hb, List.take_succ_cons, ih (by omega)]

theorem takeD_eq_append {α : Type*} {l : List α} (hn : l.length ≤ n) (a : α) :
    l.takeD n a = l ++ List.replicate (n - l.length) a := by
  induction l generalizing n with
  | nil => simp
  | cons b l ih =>
      obtain ⟨n, rfl⟩ : ∃ m, n = m + 1 := ⟨n - 1, by rw [List.length_cons] at hn; omega⟩
      rw [List.length_cons] at hn ⊢
      rw [List.takeD, List.headD_cons, List.tail_cons, ih (by omega), Nat.add_sub_add_right,
        List.cons_append]

theorem strncpy_eq (hn : (text mem).length < n) :
    strncpy n mem = text mem ++ 0 :: List.replicate (n - (text mem).length - 1) 0 := by
  have hpad : n - (text mem).length = n - (text mem).length - 1 + 1 := by
    omega
  rw [strncpy, takeD_eq_append (Nat.le_of_lt hn), hpad, List.replicate_succ, ← hpad]

/-- A string that is shorter than the field is stored with its terminator. -/
theorem text_strncpy (hn : (text mem).length < n) : text (strncpy n mem) = text mem := by
  rw [strncpy_eq hn, text_append_zero (zero_not_mem_text mem)]

theorem zero_mem_strncpy (hn : (text mem).length < n) : 0 ∈ strncpy n mem := by
  rw [strncpy_eq hn]
  exact List.mem_append_right _ List.mem_cons_self

/-! ### Searching -/

theorem findIdx?_eq_none {l : Bytes} (hl : c ∉ l) : l.findIdx? (· = c) = none := by
  rw [List.findIdx?_eq_none_iff]
  intro b hb
  apply decide_eq_false
  rintro rfl
  exact hl hb

theorem findIdx?_append_cons (hfront : c ∉ front) (back : Bytes) :
    (front ++ c :: back).findIdx? (· = c) = some front.length := by
  rw [List.findIdx?_append, findIdx?_eq_none hfront, Option.none_or, List.findIdx?_cons,
    if_pos (decide_eq_true rfl), Option.map_some, Nat.zero_add]

theorem strchr_eq (hmem : text mem = front ++ c :: back) (hfront : c ∉ front) :
    strchr mem c = some front.length := by
  rw [strchr, hmem, findIdx?_append_cons hfront]

theorem strrchr_eq (hmem : text mem = front ++ c :: back) (hback : c ∉ back) :
    strrchr mem c = some front.length := by
  have hreverse : (front ++ c :: back).reverse = back.reverse ++ c :: front.reverse := by
    simp
  rw [strrchr, strlen, hmem, hreverse, findIdx?_append_cons (by simpa using hback),
    Option.map_some, List.length_append, List.length_cons, List.length_reverse]
  congr 1
  omega

theorem strchr_eq_none (hmem : c ∉ text mem) : strchr mem c = none := findIdx?_eq_none hmem

theorem strrchr_eq_none (hmem : c ∉ text mem) : strrchr mem c = none := by
  rw [strrchr, findIdx?_eq_none (fun h => hmem (List.mem_reverse.mp h)), Option.map_none]

theorem exists_last_of_mem {l : Bytes} (hc : c ∈ l) :
    ∃ front back, l = front ++ c :: back ∧ c ∉ back := by
  obtain ⟨back, front, hsplit, hback⟩ := List.eq_append_cons_of_mem (List.mem_reverse.mpr hc)
  refine ⟨front.reverse, back.reverse, ?_, by simpa using hback⟩
  rw [← List.reverse_reverse l, hsplit]
  simp

/-! ### Lines -/

theorem length_takeLine_pos (n : ℕ) (hfile : file ≠ []) : 0 < (takeLine (n + 1) file).length := by
  cases file with
  | nil => exact absurd rfl hfile
  | cons b bs => exact Nat.succ_pos _

/-- A line that fits is read with its newline. -/
theorem takeLine_append (hline : 10 ∉ line) (hn : line.length < n) (rest : Bytes) :
    takeLine n (line ++ 10 :: rest) = line ++ [10] := by
  induction line generalizing n with
  | nil =>
      obtain ⟨n, rfl⟩ : ∃ m, n = m + 1 := ⟨n - 1, by omega⟩
      rfl
  | cons b line ih =>
      obtain ⟨n, rfl⟩ : ∃ m, n = m + 1 := ⟨n - 1, by omega⟩
      have hb : b ≠ 10 := fun h => hline (h ▸ List.mem_cons_self)
      rw [List.cons_append, takeLine, if_neg hb,
        ih (fun h => hline (.tail b h)) (Nat.lt_of_succ_lt_succ hn), List.cons_append]

/-- The pieces that a file is read in by calls of `fgets`. -/
def lines (size : ℕ) (file : Bytes) : List Bytes :=
  if hfile : file = [] then
    []
  else
    takeLine (size + 1) file :: lines size (file.drop (takeLine (size + 1) file).length)
termination_by file.length
decreasing_by
  have hpos := length_takeLine_pos size hfile
  have hlen := List.length_pos_iff.mpr hfile
  rw [List.length_drop]
  omega

theorem fgets_eq_none (buff : Bytes) (n : ℕ) : fgets buff n [] = none := if_pos rfl

theorem fgets_eq_some (hfile : file ≠ []) (buff : Bytes) (n : ℕ) :
    ∃ line buff' file', fgets buff (n + 2) file = some (buff', file') ∧ text buff' = text line
      ∧ lines n file = line :: lines n file' := by
  refine ⟨_, _, _, if_neg hfile, text_line_append _ _, ?_⟩
  rw [lines, dif_neg hfile]
  rfl

theorem fgets_append (hline : 10 ∉ line) (hn : line.length + 1 < n) (buff rest : Bytes) :
    fgets buff n (line ++ 10 :: rest)
      = some (line ++ 10 :: 0 :: buff.drop (line.length + 2), rest) := by
  have htake := takeLine_append hline (by omega : line.length < n - 1) rest
  have hne : line ++ 10 :: rest ≠ [] := by simp
  rw [fgets, if_neg hne]
  simp only [htake]
  simp

/-! ### Numbers -/

theorem of_isDigit (hc : isDigit c = true) : isSpace c = false ∧ c ≠ 45 ∧ c ≠ 43 := by
  simp only [isDigit, Bool.and_eq_true, decide_eq_true_eq] at hc
  simp only [isSpace, Bool.or_eq_false_iff, Bool.and_eq_false_iff, decide_eq_false_iff_not]
  refine ⟨⟨?_, .inr ?_⟩, ?_, ?_⟩ <;> bv_omega

/-- A numeral is read as its value, up to what is not a digit. -/
theorem atoi_eq {digits : Bytes} (hdigits : ∀ b ∈ digits, isDigit b = true)
    (hne : digits ≠ []) (hvalue : decimal digits < 2 ^ 31)
    (hmem : text mem = digits ++ c :: rest) (hc : isDigit c = false) :
    atoi mem = BitVec.ofNat 32 (decimal digits) := by
  have htake : (digits ++ c :: rest).takeWhile isDigit = digits := by
    rw [List.takeWhile_append_of_pos hdigits, List.takeWhile_cons_of_neg (by simp [hc]),
      List.append_nil]
  have hnumber : strtol mem = (decimal digits : ℤ) := by
    obtain ⟨d, ds, rfl⟩ := List.exists_cons_of_ne_nil hne
    obtain ⟨hspace, hminus, hplus⟩ := of_isDigit (hdigits d List.mem_cons_self)
    have hdrop : (text mem).dropWhile isSpace = d :: (ds ++ c :: rest) := by
      rw [hmem, List.cons_append, List.dropWhile_cons_of_neg (by simp [hspace])]
    rw [strtol, hdrop]
    split
    case h_1 heq => exact absurd (List.cons.inj heq).1 hminus
    case h_2 heq => exact absurd (List.cons.inj heq).1 hplus
    case h_3 =>
      rw [List.cons_append] at htake
      rw [htake]
      omega
  rw [atoi, hnumber, BitVec.ofInt_natCast]

end CString
