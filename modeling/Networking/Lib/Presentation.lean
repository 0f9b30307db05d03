import Networking.Lib.Wire

/-!
# Addresses as text

`inet_pton` reads the text of an address. An IPv4 address is four decimal numbers with dots between
them. An IPv6 address is eight groups of up to four hexadecimal digits with colons between them; the
last two groups may be an IPv4 address, and two colons may stand for groups that are zero.

A text that is made from the parts of an address by joining them is split into these parts again, so
each part has to be read only by itself.
-/

namespace Presentation

open Wire

/-- The value of a digit, in either case. -/
def digitVal (c : Byte) : Option ℕ :=
  if 48 ≤ c ∧ c ≤ 57 then some (c.toNat - 48)
  else if 97 ≤ c ∧ c ≤ 102 then some (c.toNat - 87)
  else if 65 ≤ c ∧ c ≤ 70 then some (c.toNat - 55)
  else none

def nextDigit (base n : ℕ) (c : Byte) : Option ℕ :=
  (digitVal c).bind fun d => if d < base then some (n * base + d) else none

def numeral (base : ℕ) (text : Bytes) : Option ℕ :=
  if text = [] then none else text.foldlM (nextDigit base) 0

/-- A decimal number up to 255 without zeros in front. -/
def octet (text : Bytes) : Option Byte :=
  if 1 < text.length ∧ text.head? = some 48 then none
  else (numeral 10 text).bind fun n => if n < 256 then some (BitVec.ofNat 8 n) else none

/-- `inet_pton` with `AF_INET`. -/
def ptonV4 (text : Bytes) : Option Bytes := do
  let address ← (text.splitOn 46).mapM octet
  if address.length = 4 then some address else none

def group (text : Bytes) : Option Bytes :=
  if 4 < text.length then none
  else (numeral 16 text).map fun n => [BitVec.ofNat 8 (n / 256), BitVec.ofNat 8 n]

def groups (parts : List Bytes) : Option Bytes := (parts.mapM group).map List.flatten

/-- Groups, or groups and an IPv4 address behind them. -/
def lastGroups (parts : List Bytes) : Option Bytes :=
  groups parts <|> do
    let bytes ← groups parts.dropLast
    let quad ← parts.getLast?.bind ptonV4
    some (bytes ++ quad)

/-- What is before and behind two colons. -/
def cutColons : Bytes → Option (Bytes × Bytes)
  | c :: c' :: text =>
      if c = 58 ∧ c' = 58 then some ([], text)
      else (cutColons (c' :: text)).map fun (front, back) => (c :: front, back)
  | _ => none

/-- `inet_pton` with `AF_INET6`. -/
def ptonV6 (text : Bytes) : Option Bytes :=
  match cutColons text with
  | none => do
      let address ← lastGroups (text.splitOn 58)
      if address.length = 16 then some address else none
  | some (front, back) => do
      let front ← if front = [] then some [] else groups (front.splitOn 58)
      let back ← if back = [] then some [] else lastGroups (back.splitOn 58)
      let known := front.length + back.length
      if known ≤ 14 then some (front ++ List.replicate (16 - known) 0 ++ back) else none

/-! ### Numbers -/

/-- The character of a digit. -/
def digit (d : ℕ) : Byte := BitVec.ofNat 8 (Nat.digitChar d).toNat

def digits (base n : ℕ) : Bytes := ofString (String.ofList (Nat.toDigits base n))

variable {base d n : ℕ} {text front : Bytes} {parts : List Bytes}

theorem ofString_ofList (chars : List Char) :
    ofString (String.ofList chars) = chars.map fun c => BitVec.ofNat 8 c.toNat := by
  rw [ofString, String.toList_ofList]

theorem digits_eq_if (hbase : 1 < base) (n : ℕ) :
    digits base n
      = if n < base then [digit n] else digits base (n / base) ++ [digit (n % base)] := by
  simp only [digits, ofString_ofList]
  rw [Nat.toDigits_eq_if hbase]
  split_ifs
  · rfl
  · rw [List.map_append]
    rfl

theorem digits_ne_nil (base n : ℕ) : digits base n ≠ [] := by
  rw [digits, ofString_ofList, Ne, List.map_eq_nil_iff]
  exact Nat.toDigits_ne_nil

theorem digitVal_digit (hd : d < 16) : digitVal (digit d) = some d :=
  (by decide : ∀ d < 16, digitVal (digit d) = some d) d hd

theorem nextDigit_digit (hd : d < base) (hbase : base ≤ 16) (n : ℕ) :
    nextDigit base n (digit d) = some (n * base + d) := by
  rw [nextDigit, digitVal_digit (hd.trans_le hbase)]
  exact if_pos hd

theorem foldlM_digits (hone : 1 < base) (hbase : base ≤ 16) (n : ℕ) :
    (digits base n).foldlM (nextDigit base) 0 = some n := by
  induction n using Nat.strong_induction_on with
  | _ n ih =>
      rw [digits_eq_if hone]
      split_ifs with hsmall
      · rw [List.foldlM_cons, nextDigit_digit hsmall hbase, Nat.zero_mul, Nat.zero_add]
        rfl
      · have hlast : n % base < base := Nat.mod_lt n (by omega)
        rw [List.foldlM_append, ih (n / base) (Nat.div_lt_self (by omega) hone)]
        change (nextDigit base (n / base) (digit (n % base))).bind some = some n
        rw [nextDigit_digit hlast hbase, Option.bind_some, Nat.mul_comm, Nat.div_add_mod]

theorem numeral_digits (hone : 1 < base) (hbase : base ≤ 16) (n : ℕ) :
    numeral base (digits base n) = some n := by
  rw [numeral, if_neg (digits_ne_nil base n), foldlM_digits hone hbase]

/-- A number is written without zeros in front. -/
theorem head_digits_ne (hone : 1 < base) (hbase : base ≤ 16) (hn : 0 < n) :
    (digits base n).head? ≠ some (digit 0) := by
  induction n using Nat.strong_induction_on with
  | _ n ih =>
      rw [digits_eq_if hone]
      split_ifs with hsmall
      · intro hhead
        have hvalue := congrArg digitVal (Option.some.inj hhead)
        rw [digitVal_digit (hsmall.trans_le hbase), digitVal_digit (by decide)] at hvalue
        exact hn.ne' (Option.some.inj hvalue)
      · have hsome := mt List.head?_eq_none_iff.mp (digits_ne_nil base (n / base))
        obtain ⟨first, hfirst⟩ := Option.ne_none_iff_exists'.mp hsome
        rw [List.head?_append, hfirst, Option.some_or, ← hfirst]
        exact ih _ (Nat.div_lt_self hn hone) (Nat.div_pos (by omega) (by omega))

/-! ### Parts -/

theorem octet_digits (c : Byte) : octet (digits 10 c.toNat) = some c := by
  have hhead : ¬(1 < (digits 10 c.toNat).length ∧ (digits 10 c.toNat).head? = some 48) := by
    rintro ⟨hlong, hzero⟩
    by_cases hc : c.toNat = 0
    · rw [hc] at hlong
      exact absurd hlong (by decide)
    · exact head_digits_ne (by decide) (by decide) (Nat.pos_of_ne_zero hc) hzero
  rw [octet, if_neg hhead, numeral_digits (by decide) (by decide), Option.bind_some, if_pos c.isLt,
    BitVec.ofNat_toNat, BitVec.setWidth_eq]

/-- A byte as two hexadecimal digits. -/
def hexPair (c : Byte) : Bytes := [digit (c.toNat / 16), digit (c.toNat % 16)]

theorem group_hexPair (a b : Byte) : group (hexPair a ++ hexPair b) = some [a, b] := by
  have hdigit : ∀ n d, d < 16 → nextDigit 16 n (digit d) = some (n * 16 + d) :=
    fun n d hd => nextDigit_digit hd le_rfl n
  have hnumeral : numeral 16 (hexPair a ++ hexPair b) = some (a.toNat * 256 + b.toNat) := by
    have hvalue : ((a.toNat / 16 * 16 + a.toNat % 16) * 16 + b.toNat / 16) * 16 + b.toNat % 16
        = a.toNat * 256 + b.toNat := by
      omega
    simp [numeral, hexPair, hdigit, Nat.div_lt_of_lt_mul, Nat.mod_lt, a.isLt, b.isLt, hvalue]
  have hhigh : (a.toNat * 256 + b.toNat) / 256 = a.toNat := by
    omega
  have hlow : BitVec.ofNat 8 (a.toNat * 256 + b.toNat) = b := by
    apply BitVec.eq_of_toNat_eq
    rw [BitVec.toNat_ofNat]
    omega
  have hlen : ¬4 < (hexPair a ++ hexPair b).length := Nat.lt_irrefl 4
  rw [group, if_neg hlen, hnumeral, Option.map_some, hhigh, hlow, BitVec.ofNat_toNat,
    BitVec.setWidth_eq]

theorem colon_not_mem_hexPair (c : Byte) : 58 ∉ hexPair c := by
  have hdigit : ∀ d < 16, 58 ≠ digit d := by decide
  intro hmem
  rcases List.mem_cons.mp hmem with hhigh | hmem
  · exact hdigit _ (by omega) hhigh
  · exact hdigit _ (by omega) (List.mem_singleton.mp hmem)

theorem mapM_map_of_forall {α β γ : Type} {read : β → Option γ} {write : α → β} {value : α → γ}
    {l : List α} (h : ∀ a ∈ l, read (write a) = some (value a)) :
    (l.map write).mapM read = some (l.map value) := by
  induction l with
  | nil => rfl
  | cons a l ih =>
      obtain ⟨ha, hl⟩ := List.forall_mem_cons.mp h
      rw [List.map_cons, List.mapM_cons, ha, ih hl]
      rfl

/-! ### Addresses -/

/-- **A dotted quad** is read as the four bytes that are written in it. -/
theorem ptonV4_intercalate {address : Bytes} (hlen : address.length = 4) :
    ptonV4 ([46].intercalate (address.map fun c => digits 10 c.toNat)) = some address := by
  have hdot : ∀ part ∈ address.map fun c => digits 10 c.toNat, (46 : Byte) ∉ part := by
    intro part hpart hmem
    obtain ⟨c, -, rfl⟩ := List.mem_map.mp hpart
    exact absurd (digit_of_mem_ofString hmem).1 (by decide)
  have hne : (address.map fun c => digits 10 c.toNat) ≠ [] := by
    rw [Ne, List.map_eq_nil_iff]
    rintro rfl
    cases hlen
  have hoctets : (address.map fun c => digits 10 c.toNat).mapM octet = some (address.map id) :=
    mapM_map_of_forall fun c _ => octet_digits c
  rw [List.map_id] at hoctets
  rw [ptonV4, List.splitOn_intercalate 46 hdot hne, hoctets]
  exact if_pos hlen

theorem cutColons_cons {c : Byte} (hc : c ≠ 58) (h : cutColons text = none) :
    cutColons (c :: text) = none := by
  cases text with
  | nil => rfl
  | cons c' text => rw [cutColons, if_neg fun hboth => hc hboth.1, h, Option.map_none]

theorem cutColons_append (hfront : 58 ∉ front) (h : cutColons text = none) :
    cutColons (front ++ text) = none := by
  induction front with
  | nil => exact h
  | cons c front ih =>
      rw [List.mem_cons, not_or] at hfront
      exact cutColons_cons (Ne.symm hfront.1) (ih hfront.2)

theorem cutColons_colon (hhead : text.head? ≠ some 58) (h : cutColons text = none) :
    cutColons (58 :: text) = none := by
  cases text with
  | nil => rfl
  | cons c text =>
      have hc : ¬((58 : Byte) = 58 ∧ c = 58) := fun hboth => hhead (congrArg some hboth.2)
      rw [cutColons, if_neg hc, h, Option.map_none]

theorem head_intercalate_ne {part : Bytes} (hne : part ≠ []) (hpart : 58 ∉ part)
    (parts : List Bytes) : ([58].intercalate (part :: parts)).head? ≠ some 58 := by
  obtain ⟨c, chars, rfl⟩ := List.exists_cons_of_ne_nil hne
  have hhead : ([58].intercalate ((c :: chars) :: parts)).head? = some c := by
    cases parts with
    | nil => rw [List.intercalate_singleton, List.head?_cons]
    | cons part' parts =>
        rw [List.intercalate_cons_cons, List.cons_append, List.cons_append, List.head?_cons]
  rw [hhead]
  intro hc
  exact hpart (Option.some.inj hc ▸ List.mem_cons_self)

/-- There are no two colons together where no part is empty. -/
theorem cutColons_intercalate (hparts : ∀ part ∈ parts, part ≠ [] ∧ 58 ∉ part) :
    cutColons ([58].intercalate parts) = none := by
  induction parts with
  | nil => rfl
  | cons part parts ih =>
      obtain ⟨⟨-, hpart⟩, hrest⟩ := List.forall_mem_cons.mp hparts
      cases parts with
      | nil =>
          rw [List.intercalate_singleton, ← List.append_nil part]
          exact cutColons_append hpart rfl
      | cons part' parts =>
          rw [List.intercalate_cons_cons, List.append_assoc]
          refine cutColons_append hpart (cutColons_colon ?_ (ih hrest))
          obtain ⟨⟨hne, hcolon⟩, -⟩ := List.forall_mem_cons.mp hrest
          exact head_intercalate_ne hne hcolon parts

/-- **Eight groups** of four digits are read as the bytes that are written in them. -/
theorem ptonV6_intercalate {pairs : List (Byte × Byte)} (hlen : pairs.length = 8) :
    ptonV6 ([58].intercalate (pairs.map fun p => hexPair p.1 ++ hexPair p.2))
      = some (pairs.flatMap fun p => [p.1, p.2]) := by
  have hparts : ∀ part ∈ pairs.map fun p => hexPair p.1 ++ hexPair p.2,
      part ≠ [] ∧ (58 : Byte) ∉ part := by
    intro part hpart
    obtain ⟨p, -, rfl⟩ := List.mem_map.mp hpart
    refine ⟨List.cons_ne_nil _ _, fun hmem => ?_⟩
    rcases List.mem_append.mp hmem with hfirst | hsecond
    · exact colon_not_mem_hexPair p.1 hfirst
    · exact colon_not_mem_hexPair p.2 hsecond
  have hne : (pairs.map fun p => hexPair p.1 ++ hexPair p.2) ≠ [] := by
    rw [Ne, List.map_eq_nil_iff]
    rintro rfl
    cases hlen
  have hgroups : lastGroups (pairs.map fun p => hexPair p.1 ++ hexPair p.2)
      = some (pairs.flatMap fun p => [p.1, p.2]) := by
    rw [lastGroups, groups, mapM_map_of_forall fun p _ => group_hexPair p.1 p.2]
    rfl
  have hlength : (pairs.flatMap fun p => [p.1, p.2]).length = 16 := by
    simp only [List.length_flatMap, List.length_cons, List.length_nil, List.map_const', hlen,
      List.sum_replicate_nat]
  rw [ptonV6, cutColons_intercalate hparts]
  dsimp only
  rw [List.splitOn_intercalate 58 (fun part hpart => (hparts part hpart).2) hne, hgroups]
  exact if_pos hlength

end Presentation
