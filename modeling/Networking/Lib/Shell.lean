import Networking.Lib.Wire

/-!
# Words of a shell command

A shell takes a line apart into words. Blanks and newlines stand between words, quoting takes the
meaning from a character and is removed itself, and what belongs to an operator or begins an
expansion makes the line more than one simple command.

The scan is a machine over the characters of the line. Every character adds at most one to what the
words found so far occupy, and only a character that stands for itself, or a blank that ends a word,
adds one. So a line that is just long enough for its words has nothing else in it.
-/

namespace Shell

open Wire

def isBlank (c : Byte) : Bool := c = 32 || c = 9 || c = 10

/-- The characters that, unquoted, belong to an operator or begin an expansion. -/
def isActive (c : Byte) : Bool := (ofString ";&|<>$`()").contains c

def isQuoting (c : Byte) : Bool := (ofString "'\"\\").contains c

def isPattern (c : Byte) : Bool := (ofString "*?[").contains c

/-- A word, and whether the shell may put the names of files or of a directory in its place. -/
structure Word where
  text : Bytes
  pattern : Bool
  deriving DecidableEq

inductive Mode
  | plain
  | escape
  | single
  | double
  | doubleEscape
  | comment
  deriving DecidableEq

/-- The words that have ended, and the one that has begun. -/
structure Scan where
  mode : Mode
  words : List Word
  current : Option Word
  deriving DecidableEq

/-- A quotation begins a word even when nothing is in it. -/
def begun (current : Option Word) : Word := current.getD ⟨[], false⟩

/-- An unquoted tilde means something at the start of a word only. -/
def extend : Option Word → Byte → Word
  | none, c => ⟨[c], isPattern c || c = 126⟩
  | some word, c => ⟨word.text ++ [c], word.pattern || isPattern c⟩

/-- A character that has lost its meaning. -/
def quoted (current : Option Word) (c : Byte) : Word :=
  { begun current with text := (begun current).text ++ [c] }

def Scan.next (s : Scan) (c : Byte) : Option Scan :=
  match s.mode with
  | .plain =>
      if isBlank c then some { s with words := s.words ++ s.current.toList, current := none }
      else if isActive c then none
      else if c = 92 then some { s with mode := .escape }
      else if c = 39 then some { s with mode := .single, current := some (begun s.current) }
      else if c = 34 then some { s with mode := .double, current := some (begun s.current) }
      else if c = 35 ∧ s.current = none then some { s with mode := .comment }
      else some { s with current := some (extend s.current c) }
  | .escape =>
      -- an escaped newline is removed with the backslash
      if c = 10 then some { s with mode := .plain }
      else some { s with mode := .plain, current := some (quoted s.current c) }
  | .single =>
      if c = 39 then some { s with mode := .plain }
      else some { s with current := some (quoted s.current c) }
  | .double =>
      if c = 34 then some { s with mode := .plain }
      else if c = 36 ∨ c = 96 then none
      else if c = 92 then some { s with mode := .doubleEscape }
      else some { s with current := some (quoted s.current c) }
  | .doubleEscape =>
      if c = 10 then some { s with mode := .double }
      else if (ofString "$`\"\\").contains c then
        some { s with mode := .double, current := some (quoted s.current c) }
      else
        -- the backslash stays
        some { s with mode := .double, current := some (quoted (some (quoted s.current 92)) c) }
  | .comment => if c = 10 then some { s with mode := .plain } else some s

/-- What the line consists of when it ends. An open quotation does not end. -/
def Scan.finish (s : Scan) : Option (List Word) :=
  if s.mode = .plain ∨ s.mode = .comment then some (s.words ++ s.current.toList) else none

def Scan.start : Scan := ⟨.plain, [], none⟩

/-- The words of a line that is one simple command. -/
def parse (line : Bytes) : Option (List Word) :=
  (line.foldlM Scan.next Scan.start).bind Scan.finish

/-- **The line is one simple command with these words**, and the program gets them as they are.
`literal` says of a word that can stand for files that the shell leaves it alone. -/
def Simple (literal : Bytes → Prop) (line : Bytes) (words : List Bytes) : Prop :=
  ∃ parsed, parse line = some parsed ∧ parsed.map Word.text = words
    ∧ ∀ word ∈ parsed, word.pattern = true → literal word.text

def isOrdinary (c : Byte) : Bool := !(isBlank c || isActive c || isQuoting c)

/-- The characters of the word call for an expansion into names of files. -/
def hasPattern (word : Bytes) : Bool := word.any isPattern || word.head? = some 126

/-- A word that stands for itself when it is written into a line. -/
structure Plain (literal : Bytes → Prop) (word : Bytes) : Prop where
  ne_nil : word ≠ []
  ordinary : ∀ c ∈ word, isOrdinary c = true
  head_ne : word.head? ≠ some 35
  literal : hasPattern word = true → literal word

variable {literal : Bytes → Prop} {s t : Scan} {c : Byte} {line word : Bytes} {words : List Bytes}

/-! ### How much room the words take -/

/-- The room of words that are written one behind the other, with one character behind each. -/
def room (words : List Word) : ℕ := (words.map fun word => word.text.length + 1).sum

/-- What a scan has found so far, with the backslash that it may still have to put back. -/
def Scan.occupied (s : Scan) : ℕ :=
  room s.words + s.current.elim 0 (·.text.length) + if s.mode = .doubleEscape then 1 else 0

@[simp]
theorem room_append (words words' : List Word) :
    room (words ++ words') = room words + room words' := by
  rw [room, List.map_append, List.sum_append, room, room]

theorem room_eq (words : List Word) :
    room words = ((words.map Word.text).map fun text => text.length + 1).sum := by
  rw [room, List.map_map]
  rfl

theorem room_toList (current : Option Word) :
    room current.toList = current.elim 0 (·.text.length) + if current = none then 0 else 1 := by
  cases current with
  | none => rfl
  | some word => rfl

@[simp]
theorem length_begun (current : Option Word) :
    (begun current).text.length = current.elim 0 (·.text.length) := by
  cases current with
  | none => rfl
  | some word => rfl

theorem length_extend (current : Option Word) (c : Byte) :
    (extend current c).text.length = current.elim 0 (·.text.length) + 1 := by
  cases current with
  | none => rfl
  | some word => exact List.length_append

theorem length_quoted (current : Option Word) (c : Byte) :
    (quoted current c).text.length = current.elim 0 (·.text.length) + 1 := by
  rw [quoted, List.length_append, length_begun, List.length_singleton]

theorem Scan.occupied_next (h : s.next c = some t) : t.occupied ≤ s.occupied + 1 := by
  obtain ⟨mode, words, current⟩ := s
  cases mode with
  | plain =>
      have hroom := room_toList current
      simp only [next] at h
      split_ifs at h with hblank hactive hback hsingle hdouble hhash <;> cases h
      · simp only [occupied, room_append, Option.elim_none]
        split_ifs at hroom ⊢ <;> omega
      · simp [occupied]
      · simp [occupied]
      · simp [occupied]
      · simp [occupied]
      · simp [occupied, length_extend, Nat.add_assoc]
  | escape =>
      simp only [next] at h
      split_ifs at h <;> cases h
      · simp [occupied]
      · simp [occupied, length_quoted, Nat.add_assoc]
  | single =>
      simp only [next] at h
      split_ifs at h <;> cases h
      · simp [occupied]
      · simp [occupied, length_quoted, Nat.add_assoc]
  | double =>
      simp only [next] at h
      split_ifs at h <;> cases h
      · simp [occupied]
      · -- the backslash counts from here on, in case it stays
        simp [occupied]
      · simp [occupied, length_quoted, Nat.add_assoc]
  | doubleEscape =>
      simp only [next] at h
      split_ifs at h <;> cases h
      · simp [occupied, Nat.add_assoc]
      · simp [occupied, length_quoted, Nat.add_assoc]
      · simp [occupied, length_quoted, Nat.add_assoc]
  | comment =>
      simp only [next] at h
      split_ifs at h <;> cases h
      · simp [occupied]
      · simp [occupied]

/-- Outside of quotations, the character that adds one is a blank behind a word or stands for
itself. -/
theorem Scan.next_cases (hmode : s.mode = .plain) (h : s.next c = some t)
    (htight : t.occupied = s.occupied + 1) :
    (isBlank c = true ∧ t = ⟨.plain, s.words ++ s.current.toList, none⟩ ∧ s.current ≠ none)
      ∨ (isOrdinary c = true ∧ t = ⟨.plain, s.words, some (extend s.current c)⟩
        ∧ (s.current = none → c ≠ 35)) := by
  obtain ⟨mode, words, current⟩ := s
  subst hmode
  have hroom := room_toList current
  simp only [next] at h
  split_ifs at h with hblank hactive hback hsingle hdouble hhash <;> cases h
  · left
    refine ⟨hblank, rfl, ?_⟩
    rintro (rfl : current = none)
    simp [occupied] at htight
  · simp [occupied] at htight
  · simp [occupied] at htight
  · simp [occupied] at htight
  · simp [occupied] at htight
  · right
    refine ⟨?_, rfl, fun hnone heq => hhash ⟨heq, hnone⟩⟩
    simp [isOrdinary, hblank, hactive, isQuoting, ofString]
    grind

theorem occupied_foldlM (h : line.foldlM Scan.next s = some t) :
    t.occupied ≤ s.occupied + line.length := by
  induction line generalizing s with
  | nil =>
      cases h
      exact le_rfl
  | cons c line ih =>
      obtain ⟨u, hnext, hline⟩ := Option.bind_eq_some_iff.mp h
      have hc := Scan.occupied_next hnext
      have hrest := ih hline
      rw [List.length_cons]
      omega

/-- **A line has at least the room that its words take.** -/
theorem room_le_of_parse {parsed : List Word} (h : parse line = some parsed) :
    room parsed ≤ line.length + 1 := by
  obtain ⟨s, hscan, hfinish⟩ := Option.bind_eq_some_iff.mp h
  have hle := occupied_foldlM hscan
  have hroom := room_toList s.current
  have hstart : Scan.start.occupied = 0 := rfl
  rw [Scan.finish] at hfinish
  split_ifs at hfinish
  cases hfinish
  rw [Scan.occupied] at hle
  rw [room_append]
  split_ifs at hroom <;> omega

/-! ### Lines without any room to spare -/

/-- Every character adds one. -/
def Tight (s : Scan) (line : Bytes) (t : Scan) : Prop :=
  line.foldlM Scan.next s = some t ∧ t.occupied = s.occupied + line.length

theorem Tight.cons (h : Tight s (c :: line) t) :
    ∃ u, s.next c = some u ∧ u.occupied = s.occupied + 1 ∧ Tight u line t := by
  obtain ⟨hscan, htight⟩ := h
  obtain ⟨u, hnext, hline⟩ := Option.bind_eq_some_iff.mp hscan
  have hc := Scan.occupied_next hnext
  have hrest := occupied_foldlM hline
  rw [List.length_cons] at htight
  exact ⟨u, hnext, by omega, hline, by omega⟩

theorem Tight.append {back : Bytes} (h : Tight s (line ++ back) t) :
    ∃ u, Tight s line u ∧ Tight u back t := by
  obtain ⟨hscan, htight⟩ := h
  rw [List.foldlM_append] at hscan
  obtain ⟨u, hline, hback⟩ := Option.bind_eq_some_iff.mp hscan
  have hfront := occupied_foldlM hline
  have hrest := occupied_foldlM hback
  rw [List.length_append] at htight
  exact ⟨u, ⟨hline, by omega⟩, hback, by omega⟩

/-- A line without room to spare consists of words and of the blanks that end them. -/
theorem Tight.plain (hmode : s.mode = .plain) (h : Tight s line t) :
    t.mode = .plain ∧ (∀ c ∈ line, isBlank c = true ∨ isOrdinary c = true)
      ∧ t.words.length = s.words.length + line.countP isBlank := by
  induction line generalizing s with
  | nil =>
      cases h.1
      exact ⟨hmode, by simp, rfl⟩
  | cons c line ih =>
      obtain ⟨u, hnext, hone, hrest⟩ := h.cons
      rcases Scan.next_cases hmode hnext hone with ⟨hblank, rfl, hsome⟩ | ⟨hordinary, rfl, -⟩
      · obtain ⟨ht, hall, hcount⟩ := ih rfl hrest
        refine ⟨ht, List.forall_mem_cons.mpr ⟨.inl hblank, hall⟩, ?_⟩
        have hlength : s.current.toList.length = 1 := by
          obtain ⟨word, hword⟩ := Option.ne_none_iff_exists'.mp hsome
          rw [hword]
          rfl
        rw [hcount, List.length_append, hlength, List.countP_cons_of_pos hblank]
        omega
      · obtain ⟨ht, hall, hcount⟩ := ih rfl hrest
        have hblank : ¬isBlank c = true := by
          intro hblank
          simp [isOrdinary, hblank] at hordinary
        exact ⟨ht, List.forall_mem_cons.mpr ⟨.inr hordinary, hall⟩,
          by rw [hcount, List.countP_cons_of_neg hblank]⟩

/-- The words of a line, with a blank between each two. -/
def lineOf (words : List Bytes) : Bytes := (ofString " ").intercalate words

theorem lineOf_cons_cons (word word' : Bytes) (words : List Bytes) :
    lineOf (word :: word' :: words) = word ++ 32 :: lineOf (word' :: words) := by
  rw [lineOf, List.intercalate_cons_cons, List.append_assoc]
  rfl

theorem lineOf_singleton (word : Bytes) : lineOf [word] = word := List.intercalate_singleton

theorem length_lineOf (word : Bytes) (words : List Bytes) :
    (lineOf (word :: words)).length + 1
      = ((word :: words).map fun word => word.length + 1).sum := by
  induction words generalizing word with
  | nil => rw [lineOf_singleton, List.map_singleton, List.sum_singleton]
  | cons word' words ih =>
      have hrest := ih word'
      rw [lineOf_cons_cons, List.length_append, List.length_cons, List.map_cons, List.sum_cons]
      omega

theorem tight_of_parse {parsed : List Word} (h : parse line = some parsed)
    (hroom : room parsed = line.length + 1) :
    ∃ s word, Tight Scan.start line s ∧ s.current = some word ∧ parsed = s.words ++ [word] := by
  obtain ⟨s, hscan, hfinish⟩ := Option.bind_eq_some_iff.mp h
  have hle := occupied_foldlM hscan
  have hlast := room_toList s.current
  have hstart : Scan.start.occupied = 0 := rfl
  rw [Scan.finish] at hfinish
  split_ifs at hfinish
  cases hfinish
  rw [room_append] at hroom
  have hoccupied : s.occupied = room s.words + s.current.elim 0 (·.text.length)
      + if s.mode = .doubleEscape then 1 else 0 := rfl
  cases hcurrent : s.current with
  | none =>
      rw [if_pos hcurrent] at hlast
      omega
  | some word =>
      rw [if_neg (by rw [hcurrent]; exact Option.some_ne_none word)] at hlast
      exact ⟨s, word, ⟨hscan, by omega⟩, hcurrent, rfl⟩

/-- Where nothing is dropped, no word is empty and none begins a comment. -/
theorem Tight.starts (hmode : s.mode = .plain) (hcurrent : s.current = none)
    (h : Tight s (lineOf words) t) (hend : t.current ≠ none) :
    ∀ word ∈ words, word ≠ [] ∧ word.head? ≠ some 35 := by
  induction words generalizing s with
  | nil => exact List.forall_mem_nil _
  | cons word words ih =>
      -- the line as this word and what is behind it
      obtain ⟨rest, hline, hrest⟩ : ∃ rest, lineOf (word :: words) = word ++ rest
          ∧ (words = [] ∧ rest = [] ∨ words ≠ [] ∧ rest = 32 :: lineOf words) := by
        cases words with
        | nil => exact ⟨[], by rw [lineOf_singleton, List.append_nil], .inl ⟨rfl, rfl⟩⟩
        | cons word' words =>
            exact ⟨_, lineOf_cons_cons word word' words, .inr ⟨List.cons_ne_nil _ _, rfl⟩⟩
      rw [hline] at h
      obtain ⟨u, hword, hbehind⟩ := h.append
      obtain ⟨humode, -, -⟩ := hword.plain hmode
      have hfirst : word ≠ [] ∧ word.head? ≠ some 35 := by
        cases word with
        | nil =>
            -- nothing is scanned before the blank or the end
            cases hword.1
            rcases hrest with ⟨-, rfl⟩ | ⟨-, rfl⟩
            · cases hbehind.1
              exact absurd hcurrent hend
            · obtain ⟨v, hnext, hone, -⟩ := hbehind.cons
              rcases Scan.next_cases hmode hnext hone with ⟨-, -, hsome⟩ | ⟨hordinary, -, -⟩
              · exact absurd hcurrent hsome
              · exact absurd hordinary (by decide)
        | cons c word =>
            obtain ⟨v, hnext, hone, -⟩ := hword.cons
            refine ⟨List.cons_ne_nil c word, fun hhead => ?_⟩
            obtain rfl : c = 35 := Option.some.inj hhead
            rcases Scan.next_cases hmode hnext hone with ⟨hblank, -, -⟩ | ⟨-, -, hstart⟩
            · exact absurd hblank (by decide)
            · exact hstart hcurrent rfl
      rcases hrest with ⟨rfl, -⟩ | ⟨-, rfl⟩
      · exact List.forall_mem_singleton.mpr hfirst
      · obtain ⟨v, hnext, hone, htail⟩ := hbehind.cons
        rcases Scan.next_cases humode hnext hone with ⟨-, rfl, -⟩ | ⟨hordinary, -, -⟩
        · exact List.forall_mem_cons.mpr ⟨hfirst, ih rfl rfl htail⟩
        · exact absurd hordinary (by decide)

/-- A blank in a word is one too many. -/
theorem countP_lineOf (word : Bytes) (words : List Bytes) :
    (lineOf (word :: words)).countP isBlank
      = ((word :: words).map fun word => word.countP isBlank).sum + words.length := by
  induction words generalizing word with
  | nil => rw [lineOf_singleton, List.map_singleton, List.sum_singleton, List.length_nil, add_zero]
  | cons word' words ih =>
      rw [lineOf_cons_cons, List.countP_append, List.countP_cons_of_pos (by decide), ih word',
        List.map_cons (a := word), List.sum_cons, List.length_cons]
      omega

theorem mem_lineOf (hword : word ∈ words) (hc : c ∈ word) : c ∈ lineOf words := by
  induction words with
  | nil => cases hword
  | cons first words ih =>
      cases words with
      | nil =>
          rw [lineOf_singleton, ← List.mem_singleton.mp hword]
          exact hc
      | cons second words =>
          rw [lineOf_cons_cons]
          rcases List.mem_cons.mp hword with rfl | hrest
          · exact List.mem_append_left _ hc
          · exact List.mem_append_right _ (.tail _ (ih hrest))

/-! ### Plain words -/

theorem Plain.of_not_hasPattern (hne : word ≠ []) (hordinary : ∀ c ∈ word, isOrdinary c = true)
    (hhead : word.head? ≠ some 35) (hpattern : hasPattern word = false) : Plain literal word := by
  refine ⟨hne, hordinary, hhead, fun h => ?_⟩
  rw [hpattern] at h
  cases h

theorem Scan.next_ordinary (hc : isOrdinary c = true) {current : Option Word}
    (hstart : current = none → c ≠ 35) (words : List Word) :
    Scan.next ⟨.plain, words, current⟩ c = some ⟨.plain, words, some (extend current c)⟩ := by
  simp only [isOrdinary, Bool.not_eq_true', Bool.or_eq_false_iff] at hc
  obtain ⟨⟨hblank, hactive⟩, hquoting⟩ := hc
  have hne : ∀ d, isQuoting d = true → c ≠ d := by
    rintro d hd rfl
    exact absurd hd (by simp [hquoting])
  simp only [next]
  rw [if_neg (by simp [hblank]), if_neg (by simp [hactive]), if_neg (hne 92 (by decide)),
    if_neg (hne 39 (by decide)), if_neg (hne 34 (by decide)),
    if_neg fun h => hstart h.2 h.1]

theorem foldlM_ordinary (hline : ∀ c ∈ line, isOrdinary c = true) (words : List Word)
    (current : Word) :
    line.foldlM Scan.next ⟨.plain, words, some current⟩ = some ⟨.plain, words,
      some ⟨current.text ++ line, current.pattern || line.any isPattern⟩⟩ := by
  induction line generalizing current with
  | nil => simp
  | cons c line ih =>
      obtain ⟨hc, hline⟩ := List.forall_mem_cons.mp hline
      rw [List.foldlM_cons, Scan.next_ordinary hc (by simp)]
      exact (ih hline _).trans (by simp [extend, Bool.or_assoc])

theorem Plain.foldlM (h : Plain literal word) (words : List Word) :
    word.foldlM Scan.next ⟨.plain, words, none⟩
      = some ⟨.plain, words, some ⟨word, hasPattern word⟩⟩ := by
  cases word with
  | nil => exact absurd rfl h.ne_nil
  | cons c word =>
      obtain ⟨hc, hword⟩ := List.forall_mem_cons.mp h.ordinary
      rw [List.foldlM_cons, Scan.next_ordinary hc fun _ heq => h.head_ne (by rw [heq]; rfl)]
      refine (foldlM_ordinary hword words _).trans ?_
      simp only [extend, hasPattern, List.any_cons, List.head?_cons, List.singleton_append]
      congr 4
      grind

theorem Plain.foldlM_lineOf (hwords : ∀ word ∈ words, Plain literal word) (hne : words ≠ [])
    (before : List Word) :
    ((lineOf words).foldlM Scan.next ⟨.plain, before, none⟩).bind Scan.finish
      = some (before ++ words.map fun word => ⟨word, hasPattern word⟩) := by
  induction words generalizing before with
  | nil => exact absurd rfl hne
  | cons word words ih =>
      obtain ⟨hword, hwords⟩ := List.forall_mem_cons.mp hwords
      cases words with
      | nil =>
          rw [lineOf_singleton, hword.foldlM]
          rfl
      | cons word' words =>
          have hblank : Scan.next ⟨.plain, before, some ⟨word, hasPattern word⟩⟩ 32
              = some ⟨.plain, before ++ [⟨word, hasPattern word⟩], none⟩ := rfl
          have hrest := ih hwords (List.cons_ne_nil _ _) (before ++ [⟨word, hasPattern word⟩])
          rw [List.append_assoc, List.singleton_append] at hrest
          rw [lineOf_cons_cons, List.foldlM_append, hword.foldlM, Option.bind_eq_bind,
            Option.bind_some, List.foldlM_cons, hblank, Option.bind_eq_bind, Option.bind_some]
          exact hrest

theorem Simple.length_le (h : Simple literal line words) : (lineOf words).length ≤ line.length := by
  obtain ⟨parsed, hparse, rfl, -⟩ := h
  have hroom := room_le_of_parse hparse
  cases parsed with
  | nil => exact Nat.zero_le _
  | cons word parsed =>
      have hline := length_lineOf word.text (parsed.map Word.text)
      rw [room_eq] at hroom
      rw [List.map_cons] at hroom ⊢
      omega

/-- **Words joined by blanks** are the words of the line exactly if all of them are plain. -/
theorem simple_lineOf_iff (hne : words ≠ []) :
    Simple literal (lineOf words) words ↔ ∀ word ∈ words, Plain literal word := by
  obtain ⟨first, others, rfl⟩ := List.exists_cons_of_ne_nil hne
  constructor
  · rintro ⟨parsed, hparse, htexts, hliteral⟩
    have hroom : room parsed = (lineOf (first :: others)).length + 1 := by
      rw [length_lineOf, ← htexts, room_eq]
    obtain ⟨s, last, htight, hcurrent, rfl⟩ := tight_of_parse hparse hroom
    obtain ⟨-, hall, hcount⟩ := htight.plain rfl
    have hstarts := htight.starts rfl rfl (by rw [hcurrent]; exact Option.some_ne_none last)
    -- the blanks of the line are those between its words
    have hlength : s.words.length = others.length := by
      have hmap := congrArg List.length htexts
      rw [List.length_map, List.length_append, List.length_singleton, List.length_cons] at hmap
      omega
    have hsum : ((first :: others).map fun word => word.countP isBlank).sum = 0 := by
      have hblanks := countP_lineOf first others
      have hnone : Scan.start.words.length = 0 := rfl
      omega
    have hordinary : ∀ word ∈ first :: others, ∀ c ∈ word, isOrdinary c = true := by
      intro word hword c hc
      have hzero := List.sum_eq_zero_iff_forall_eq_nat.mp hsum _ (List.mem_map_of_mem hword)
      have hblank := List.countP_eq_zero.mp hzero c hc
      exact (hall c (mem_lineOf hword hc)).resolve_left hblank
    have hplain : ∀ word ∈ first :: others, Plain (fun _ => True) word := fun word hword =>
      ⟨(hstarts word hword).1, hordinary word hword, (hstarts word hword).2, fun _ => trivial⟩
    have hscan := Plain.foldlM_lineOf hplain hne []
    have hparsed := Option.some.inj (hparse.symm.trans hscan)
    rw [hparsed, List.nil_append] at hliteral
    intro word hword
    refine ⟨(hstarts word hword).1, hordinary word hword, (hstarts word hword).2, fun h => ?_⟩
    exact hliteral ⟨word, hasPattern word⟩ (List.mem_map_of_mem hword) h
  · intro hplain
    refine ⟨_, Plain.foldlM_lineOf hplain hne [], ?_, ?_⟩
    · rw [List.nil_append, List.map_map]
      exact List.map_id' _
    · intro word hword hpattern
      obtain ⟨text, htext, rfl⟩ := List.mem_map.mp hword
      exact (hplain text htext).literal hpattern

end Shell
