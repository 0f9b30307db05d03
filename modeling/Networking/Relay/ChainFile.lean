import Networking.Lib.CString
import Networking.Lib.Fuel
import Networking.Relay.Request

/-!
# The chain file

`main` of `awget` reads the number of stepping stones and then a line for each. It cuts the line in
place: behind the last blank for the port, at the last character for the newline and at the first
comma for the host.
-/

namespace Networking.Relay

open Wire CString Fuel

/-- Why `main` does not get to `socketSetup`. `failed` is a return of -1. -/
inductive Fault
  | failed
  | nullPointer
  | underrun
  | overrun
  | divideByZero
  deriving DecidableEq

def buffSize : ℕ := 8192

/-- The buffer with the line cut, and where `curr` points to in it. -/
def cutLine (buff : Bytes) : Except Fault (ℕ × Bytes) :=
  match strrchr buff 32 with
  | none => .error .nullPointer
  | some space =>
      let curr := space + 1
      let last : ℤ := curr + strlen (buff.drop curr) - 1
      if last < 0 then
        .error .underrun
      else
        let buff := buff.set last.toNat 0
        match strchr buff 44 with
        | none => .error .nullPointer
        | some comma => .ok (curr, buff.set comma 0)

/-- An element of an array that is filled with zero bytes. -/
def ListElement.zero : ListElement := .ofImage (List.replicate ListElement.size 0)

def ListElement.fill (e : ListElement) (host port : Bytes) : ListElement :=
  ⟨e.version, strncpy 256 host, strncpy 8 port, List.takeD_length _ _ _, List.takeD_length _ _ _⟩

/-- The loop over the lines, for `left` of them from the index `c` on. -/
def readElements :
    ℕ → ℕ → List ListElement → Bytes → Bytes → Except Fault (List ListElement)
  | 0, _, elements, _, _ => .ok elements
  | left + 1, c, elements, buff, file =>
      match fgets buff buffSize file with
      | none => .error .failed
      | some (buff, file) => do
          let (curr, buff) ← cutLine buff
          match elements[c]? with
          | none => .error .overrun
          | some e =>
              readElements left (c + 1) (elements.set c (e.fill buff (buff.drop curr))) buff file

/-- `main` from the first line of the file to `rand() % header.l_size--`. -/
def chainList (buff file : Bytes) : Except Fault (BitVec 32 × List ListElement) :=
  match fgets buff buffSize file with
  | none => .error .failed
  | some (buff, file) => do
      let lSize := atoi buff
      let elements ← readElements lSize.toNat 0 (List.replicate buffSize .zero) buff file
      if lSize = 0 then .error .divideByZero else .ok (lSize, elements)

variable {buff file : Bytes} {elements : List ListElement}

/-! ### A line -/

variable {front back : Bytes}

/-- The character that `main` takes for the newline is the last of the line. -/
theorem text_cut (htext : text buff = front ++ 32 :: back) :
    text (buff.set (front.length + back.length) 0) = (text buff).dropLast := by
  have hlength : (text buff).length = front.length + back.length + 1 := by
    rw [htext, List.length_append, List.length_cons, Nat.add_assoc]
  rw [text_set_zero (by omega), List.dropLast_eq_take, hlength, Nat.add_sub_cancel]

theorem last_eq (htext : text buff = front ++ 32 :: back) :
    ((front.length + 1 : ℕ) : ℤ) + strlen (buff.drop (front.length + 1)) - 1
      = (front.length + back.length : ℕ) := by
  have hlength : (text buff).length = front.length + back.length + 1 := by
    rw [htext, List.length_append, List.length_cons, Nat.add_assoc]
  rw [strlen, text_drop (by omega), List.length_drop, hlength]
  omega

theorem cutLine_of_strchr (htext : text buff = front ++ 32 :: back) (hback : 32 ∉ back)
    {comma : ℕ} (hcomma : strchr (buff.set (front.length + back.length) 0) 44 = some comma) :
    cutLine buff
      = .ok (front.length + 1, (buff.set (front.length + back.length) 0).set comma 0) := by
  rw [cutLine, strrchr_eq htext hback]
  dsimp only
  rw [last_eq htext, if_neg (by omega), Int.toNat_natCast, hcomma]

theorem cutLine_of_strchr_none (htext : text buff = front ++ 32 :: back) (hback : 32 ∉ back)
    (hcomma : strchr (buff.set (front.length + back.length) 0) 44 = none) :
    cutLine buff = .error .nullPointer := by
  rw [cutLine, strrchr_eq htext hback]
  dsimp only
  rw [last_eq htext, if_neg (by omega), Int.toNat_natCast, hcomma]

/-! ### A file as documented -/

/-- A pair of a host and a port, with what stands between them in its line before the last blank. -/
structure Row where
  host : Bytes
  filler : Bytes
  port : Bytes
  length_host : host.length < 256
  length_port : port.length < 8
  comma : 44 ∉ host
  space : 32 ∉ port
  plain : ∀ b ∈ host ++ filler ++ port, b ≠ 0 ∧ b ≠ 10
  fits : (host ++ 44 :: (filler ++ 32 :: port)).length + 1 < buffSize

def Row.line (r : Row) : Bytes := r.host ++ 44 :: (r.filler ++ 32 :: r.port)

def chainFile (digits : Bytes) (rows : List Row) (rest : Bytes) : Bytes :=
  digits ++ 10 :: (rows.flatMap (fun r => r.line ++ [10]) ++ rest)

variable {r : Row} {rows : List Row}

theorem Row.plain_line (r : Row) : ∀ b ∈ r.line, b ≠ 0 ∧ b ≠ 10 := by
  intro b hb
  have hplain := r.plain b
  simp only [Row.line, List.mem_append, List.mem_cons] at hb hplain
  rcases hb with hhost | rfl | hfiller | rfl | hport
  · exact hplain (.inl (.inl hhost))
  · decide
  · exact hplain (.inl (.inr hfiller))
  · decide
  · exact hplain (.inr hport)

/-- **A line is cut** into its host and its port. -/
theorem cutLine_eq (r : Row) (hbuff : text buff = r.line ++ [10]) :
    ∃ curr buff', cutLine buff = .ok (curr, buff') ∧ text buff' = r.host
      ∧ text (buff'.drop curr) = r.port := by
  obtain ⟨front, hfront⟩ : ∃ front, front = r.host ++ 44 :: r.filler := ⟨_, rfl⟩
  have hsplit : r.line = front ++ 32 :: r.port := by
    rw [hfront, Row.line, List.append_assoc, List.cons_append]
  have hhost : r.host.length < r.line.length := by
    rw [Row.line, List.length_append]
    exact Nat.lt_add_of_pos_right (Nat.succ_pos _)
  -- the last blank is the one in front of the port
  have hlast : text buff = front ++ 32 :: (r.port ++ [10]) := by
    rw [hbuff, hsplit]
    simp
  have hback : 32 ∉ r.port ++ [10] := by
    rw [List.mem_append, List.mem_singleton]
    rintro (hport | h)
    · exact r.space hport
    · cases h
  -- the newline goes, and then the first comma
  set cut := buff.set (front.length + (r.port ++ [10]).length) 0 with hcut
  have hline : text cut = r.line := by
    rw [hcut, text_cut hlast, hbuff, List.dropLast_concat]
  have hcomma : strchr cut 44 = some r.host.length := strchr_eq hline r.comma
  refine ⟨_, _, cutLine_of_strchr hlast hback hcomma, ?_, ?_⟩
  · rw [text_set_zero (by rw [hline]; exact hhost), hline, Row.line, List.take_left]
  · have hle : front.length + 1 ≤ r.line.length := by
      rw [hsplit, List.length_append, List.length_cons]
      omega
    have hdrop : r.line.drop (front.length + 1) = r.port := by
      rw [hsplit, List.drop_append, List.drop_of_length_le (Nat.le_succ _)]
      simp
    have hbefore : r.host.length < front.length + 1 := by
      rw [hfront, List.length_append]
      exact Nat.lt_succ_of_le (Nat.le_add_right _ _)
    rw [List.drop_set_of_lt hbefore, text_drop (by rw [hline]; exact hle), hline, hdrop]

/-- An element holds the host and the port of a pair, each with its terminator. -/
def Row.Stored (r : Row) (e : ListElement) : Prop :=
  (text e.host = r.host ∧ 0 ∈ e.host) ∧ text e.port = r.port ∧ 0 ∈ e.port

theorem Row.stored_fill (e : ListElement) {host port : Bytes} (hhost : text host = r.host)
    (hport : text port = r.port) : r.Stored (e.fill host port) := by
  have hh : (text host).length < 256 := hhost ▸ r.length_host
  have hp : (text port).length < 8 := hport ▸ r.length_port
  exact ⟨⟨(text_strncpy hh).trans hhost, zero_mem_strncpy hh⟩,
    (text_strncpy hp).trans hport, zero_mem_strncpy hp⟩

theorem fgets_line (r : Row) (buff rest : Bytes) :
    ∃ buff', fgets buff buffSize (r.line ++ 10 :: rest) = some (buff', rest)
      ∧ text buff' = r.line ++ [10] := by
  have hnewline : 10 ∉ r.line := fun h => (r.plain_line 10 h).2 rfl
  have hzero : 0 ∉ r.line ++ [10] := by
    rw [List.mem_append, List.mem_singleton]
    rintro (h | h)
    · exact (r.plain_line 0 h).1 rfl
    · cases h
  refine ⟨_, fgets_append hnewline r.fits buff rest, ?_⟩
  have hsplit := List.append_cons r.line 10 (0 :: buff.drop (r.line.length + 2))
  rw [hsplit, text_append_zero hzero]

/-- The lines that are left go to the elements from the index `c` on, and the others stay. -/
theorem readElements_eq (rows : List Row) (buff rest : Bytes) (elements : List ListElement) (c : ℕ)
    (hc : c + rows.length ≤ elements.length) :
    ∃ elements', readElements rows.length c elements buff
        (rows.flatMap (fun r => r.line ++ [10]) ++ rest) = .ok elements'
      ∧ (∀ i < c, elements'[i]? = elements[i]?)
      ∧ ∀ (i : ℕ) (r : Row), rows[i]? = some r → ∃ e, elements'[c + i]? = some e ∧ r.Stored e := by
  induction rows generalizing buff elements c with
  | nil => exact ⟨elements, rfl, fun _ _ => rfl, fun _ _ h => by simp at h⟩
  | cons r rows ih =>
      rw [List.length_cons] at hc
      have hfile : (r :: rows).flatMap (fun r => r.line ++ [10]) ++ rest
          = r.line ++ 10 :: (rows.flatMap (fun r => r.line ++ [10]) ++ rest) := by
        simp
      obtain ⟨buff', hgets, htext⟩ := fgets_line r buff
        (rows.flatMap (fun r => r.line ++ [10]) ++ rest)
      obtain ⟨curr, cut, hcut, hhost, hport⟩ := cutLine_eq r htext
      have hget : elements[c]? = some elements[c] := List.getElem?_eq_getElem (by omega)
      set filled := elements.set c (elements[c].fill cut (cut.drop curr)) with hfilled
      obtain ⟨elements', hread, hbefore, hrows⟩ :=
        ih cut filled (c + 1) (by rw [hfilled, List.length_set]; omega)
      refine ⟨elements', ?_, ?_, ?_⟩
      · rw [hfile, List.length_cons, readElements, hgets]
        dsimp only
        rw [hcut, ok_bind, hget]
        exact hread
      · intro i hi
        rw [hbefore i (by omega), hfilled, List.getElem?_set_ne (by omega)]
      · intro i row hrow
        cases i with
        | zero =>
            obtain rfl : r = row := by simpa using hrow
            refine ⟨elements[c].fill cut (cut.drop curr), ?_, Row.stored_fill _ hhost hport⟩
            rw [Nat.add_zero, hbefore c (Nat.lt_succ_self c), hfilled,
              List.getElem?_set_self (by omega)]
        | succ i =>
            rw [← Nat.add_assoc, Nat.add_right_comm]
            exact hrows i row (by simpa using hrow)

/-- **A file as documented is read as its pairs**, in their order. -/
theorem chainList_chainFile (buff digits rest : Bytes) (rows : List Row)
    (hdigits : ∀ b ∈ digits, isDigit b = true) (hshort : digits.length + 1 < buffSize)
    (hcount : decimal digits = rows.length) (hrows : rows ≠ [])
    (hfits : rows.length ≤ buffSize) :
    ∃ elements, chainList buff (chainFile digits rows rest)
        = .ok (BitVec.ofNat 32 rows.length, elements)
      ∧ ∀ (i : ℕ) (r : Row), rows[i]? = some r → ∃ e, elements[i]? = some e ∧ r.Stored e := by
  have hpos : 0 < rows.length := List.length_pos_iff.mpr hrows
  have hsmall : rows.length < 2 ^ 31 := Nat.lt_of_le_of_lt hfits (by decide)
  have hne : digits ≠ [] := by
    rintro rfl
    exact absurd hcount (Nat.ne_of_lt hpos)
  have hnewline : 10 ∉ digits := fun h => absurd (hdigits 10 h) (by decide)
  have hzero : 0 ∉ digits ++ [10] := by
    rw [List.mem_append, List.mem_singleton]
    rintro (h | h)
    · exact absurd (hdigits 0 h) (by decide)
    · cases h
  set buff' := digits ++ 10 :: 0 :: buff.drop (digits.length + 2) with hbuff'
  have hgets : fgets buff buffSize (chainFile digits rows rest)
      = some (buff', rows.flatMap (fun r => r.line ++ [10]) ++ rest) :=
    fgets_append hnewline hshort buff _
  have htext : text buff' = digits ++ 10 :: [] := by
    rw [hbuff', List.append_cons, text_append_zero hzero]
  have hatoi : atoi buff' = BitVec.ofNat 32 rows.length := by
    rw [atoi_eq hdigits hne (hcount ▸ hsmall) htext (by decide), hcount]
  have hnat : (BitVec.ofNat 32 rows.length).toNat = rows.length := by
    rw [BitVec.toNat_ofNat, Nat.mod_eq_of_lt (by omega)]
  have hnonzero : BitVec.ofNat 32 rows.length ≠ 0 := by
    intro h
    rw [h] at hnat
    exact absurd hnat (Nat.ne_of_lt hpos)
  obtain ⟨elements, hread, -, hstored⟩ := readElements_eq rows buff' rest
    (List.replicate buffSize .zero) 0 (by rw [List.length_replicate]; omega)
  refine ⟨elements, ?_, ?_⟩
  · rw [chainList, hgets]
    dsimp only
    rw [hatoi, hnat, hread, ok_bind, if_neg hnonzero]
  · intro i r hrow
    rw [← Nat.zero_add i]
    exact hstored i r hrow

/-- `"onion, 24516"` and `"pepper,18 18468"`. -/
def sampleRows : List Row :=
  [⟨[111, 110, 105, 111, 110], [], [50, 52, 53, 49, 54], by decide, by decide, by decide,
      by decide, by decide, by decide⟩,
    ⟨[112, 101, 112, 112, 101, 114], [49, 56], [49, 56, 52, 54, 56], by decide, by decide,
      by decide, by decide, by decide, by decide⟩]

theorem chainList_chainFile_sample :
    ∃ elements, chainList [] (chainFile [50] sampleRows []) = .ok (2, elements)
      ∧ ∀ (i : ℕ) (r : Row), sampleRows[i]? = some r → ∃ e, elements[i]? = some e ∧ r.Stored e :=
  chainList_chainFile [] [50] [] sampleRows (by decide) (by decide) (by decide) (by decide)
    (by decide)

/-! ### Any file -/

/-- The line has a blank, and a comma that is not its last character. -/
def Cuttable (line : Bytes) : Prop := 32 ∈ text line ∧ 44 ∈ (text line).dropLast

theorem cutLine_of_cuttable (hcut : Cuttable buff) : ∃ cut, cutLine buff = .ok cut := by
  obtain ⟨hspace, hcomma⟩ := hcut
  obtain ⟨front, back, htext, hback⟩ := exists_last_of_mem hspace
  rw [← text_cut htext] at hcomma
  obtain ⟨before, after, hsplit, hbefore⟩ := List.eq_append_cons_of_mem hcomma
  exact ⟨_, cutLine_of_strchr htext hback (strchr_eq hsplit hbefore)⟩

theorem cutLine_of_not_cuttable (hcut : ¬ Cuttable buff) : cutLine buff = .error .nullPointer := by
  by_cases hspace : 32 ∈ text buff
  · obtain ⟨front, back, htext, hback⟩ := exists_last_of_mem hspace
    have hcomma : 44 ∉ text (buff.set (front.length + back.length) 0) := by
      rw [text_cut htext]
      exact fun h => hcut ⟨hspace, h⟩
    exact cutLine_of_strchr_none htext hback (strchr_eq_none hcomma)
  · rw [cutLine, strrchr_eq_none hspace]

/-- `main` returns -1 or gets through. -/
def Orderly {α : Type} (x : Except Fault α) : Prop := x = .error .failed ∨ ∃ a, x = .ok a

theorem not_orderly {α : Type} {fault : Fault} (hfault : fault ≠ .failed) :
    ¬ Orderly (.error fault : Except Fault α) := by
  rintro (h | ⟨a, h⟩)
  · exact hfault (Except.error.inj h)
  · cases h

theorem orderly_bind_ok {α β : Type} (x : Except Fault α) (f : α → β) :
    Orderly (x >>= fun a => .ok (f a)) ↔ Orderly x := by
  cases x with
  | error fault => simp [Orderly]
  | ok a => simp [Orderly]

theorem orderly_readElements_iff (left : ℕ) (buff file : Bytes) (elements : List ListElement)
    (c : ℕ) (hc : c ≤ elements.length) :
    Orderly (readElements left c elements buff file)
      ↔ ((lines (buffSize - 2) file).take left).length ≤ elements.length - c
        ∧ ∀ line ∈ (lines (buffSize - 2) file).take left, Cuttable line := by
  induction left generalizing buff file elements c with
  | zero => simp [readElements, Orderly]
  | succ left ih =>
      by_cases hfile : file = []
      · subst hfile
        simp [readElements, Orderly, fgets_eq_none, lines]
      obtain ⟨line, buff', file', hgets, htext, hlines⟩ :=
        fgets_eq_some hfile buff (buffSize - 2)
      have hread : fgets buff buffSize file = some (buff', file') := hgets
      have hcuttable : Cuttable buff' ↔ Cuttable line := by
        rw [Cuttable, Cuttable, htext]
      rw [hlines, List.take_succ_cons, List.forall_mem_cons, List.length_cons, readElements, hread]
      dsimp only
      by_cases hline : Cuttable line
      · obtain ⟨⟨curr, cut⟩, hcut⟩ := cutLine_of_cuttable (hcuttable.mpr hline)
        rw [hcut, ok_bind]
        dsimp only
        by_cases hlt : c < elements.length
        · rw [List.getElem?_eq_getElem hlt]
          dsimp only
          rw [ih cut file' _ (c + 1) (by rw [List.length_set]; omega), List.length_set]
          constructor
          · rintro ⟨hlen, hall⟩
            exact ⟨by omega, hline, hall⟩
          · rintro ⟨hlen, -, hall⟩
            exact ⟨by omega, hall⟩
        · rw [List.getElem?_eq_none (by omega)]
          exact iff_of_false (not_orderly (by decide)) (fun h => by omega)
      · rw [cutLine_of_not_cuttable (fun h => hline (hcuttable.mp h)), error_bind]
        exact iff_of_false (not_orderly (by decide)) (fun h => hline h.2.1)

/-- The number in the first line is not zero, and of as many lines behind it, if there are, there
are at most as many as `elements` has places, and each can be cut. -/
def Accepted (file : Bytes) : Prop :=
  ∀ first rest, lines (buffSize - 2) file = first :: rest →
    atoi first ≠ 0 ∧ (rest.take (atoi first).toNat).length ≤ buffSize
      ∧ ∀ line ∈ rest.take (atoi first).toNat, Cuttable line

/-- **The exact condition** for `main` to read a file without a fault. -/
theorem orderly_chainList_iff (buff file : Bytes) :
    Orderly (chainList buff file) ↔ Accepted file := by
  by_cases hfile : file = []
  · subst hfile
    simp [chainList, Orderly, Accepted, fgets_eq_none, lines]
  obtain ⟨line, buff', file', hgets, htext, hlines⟩ := fgets_eq_some hfile buff (buffSize - 2)
  have hread : fgets buff buffSize file = some (buff', file') := hgets
  have hatoi : atoi buff' = atoi line := by
    rw [atoi, atoi, strtol, strtol, htext]
  have haccepted : Accepted file ↔ atoi line ≠ 0
      ∧ ((lines (buffSize - 2) file').take (atoi line).toNat).length ≤ buffSize
      ∧ ∀ l ∈ (lines (buffSize - 2) file').take (atoi line).toNat, Cuttable l := by
    rw [Accepted, hlines]
    constructor
    · exact fun h => h _ _ rfl
    · rintro h first rest heq
      obtain ⟨rfl, rfl⟩ := List.cons.inj heq
      exact h
  have hloop := orderly_readElements_iff (atoi line).toNat buff' file'
    (List.replicate buffSize .zero) 0 (Nat.zero_le _)
  rw [List.length_replicate, Nat.sub_zero] at hloop
  rw [haccepted, ← hloop, chainList, hread]
  dsimp only
  rw [hatoi]
  by_cases hzero : atoi line = 0
  · -- nothing is read, and the remainder is taken modulo zero
    have hdiv : (do
        let elements ← readElements (atoi line).toNat 0 (List.replicate buffSize .zero) buff' file'
        if atoi line = 0 then .error .divideByZero else .ok (atoi line, elements))
          = (.error .divideByZero : Except Fault (BitVec 32 × List ListElement)) := by
      rw [hzero]
      rfl
    rw [hdiv]
    exact iff_of_false (not_orderly (by decide)) (fun h => h.1 hzero)
  · simp only [if_neg hzero]
    rw [orderly_bind_ok]
    exact (and_iff_right hzero).symm

/-- A file that announces no stepping stone is not refused, but divided by. -/
theorem not_orderly_chainList : ¬ ∀ buff file, Orderly (chainList buff file) := by
  intro h
  have hzero : chainList [] [48, 10] = .error .divideByZero := rfl
  have hfile := h [] [48, 10]
  rw [hzero] at hfile
  exact not_orderly (by decide) hfile

/-- A line without a comma ends in a write through a null pointer. -/
example : (chainList [] [49, 10, 97, 32, 98, 10]).map Prod.fst = .error .nullPointer := rfl

end Networking.Relay
