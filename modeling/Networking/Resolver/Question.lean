import Networking.Lib.Words
import Networking.Resolver.Attempt

/-!
# Making the question

`makeQuestion` puts spaces in place of the dots of a host name, reads the result word by word from a
stream and writes each word behind its length to `QNAME`. It fills in the fields of the question
that it is given; the byte count is one of them that it only ever increments.
-/

namespace Networking.Resolver

open Wire

/-- The characters `>>` skips. -/
def isSpace (c : Byte) : Bool := c = 32 || (9 ≤ c.toNat && c.toNat ≤ 13)

def unDot (c : Byte) : Byte := if c = 46 then 32 else c

def makeHeader : Header := ⟨0, 0, 1, 0, 0, 1⟩

/-- `q.QNAME[index] = c`, within the array. -/
def Question.setQname (q : Question) (index : ℕ) (c : Byte) : Option Question :=
  if index < filenameMax then
    some { q with
      qname := q.qname.set index c
      length_qname := by rw [List.length_set, q.length_qname] }
  else none

/-- The inner loop, which writes the characters of a word and counts them. -/
def putChars : Bytes → Question → ℕ → Option (Question × ℕ)
  | [], q, index => some (q, index)
  | c :: j, q, index => do
      let q ← q.setQname index c
      putChars j { q with numBytes := q.numBytes + 1 } (index + 1)

/-- One round of the outer loop, on the word `j`. -/
def putWord (j : Bytes) (q : Question) (index : ℕ) : Option (Question × ℕ) := do
  let numChar : Byte := BitVec.ofNat 8 j.length
  let q ← q.setQname index numChar
  let (q, index) ← putChars j q (index + 1)
  return ({ q with numBytes := q.numBytes + 1 }, index)

/-- The outer loop on what is left in the stream. Each round takes a character at least, so there
are no more rounds than characters. -/
def putWords : ℕ → Bytes → Question → ℕ → Option (Question × ℕ)
  | 0, _, q, index => some (q, index)
  | rounds + 1, ss, q, index =>
      match Words.scan isSpace ss with
      | none => some (q, index)
      | some (j, ss) => do
          let (q, index) ← putWord j q index
          putWords rounds ss q index

/-- The bytes that the source calls a cludge. -/
def oddBytes : Bytes := [0, 0, 41, 16, 0, 0, 0, 128, 0, 0, 0]

theorem length_oddBytes : oddBytes.length = 11 := rfl

def makeQuestion (name : Bytes) (q : Question) : Option Question := do
  let ss := name.map unDot
  let (q, _) ← putWords ss.length ss q 0
  return { q with
    qtype := 28
    qclass := 1
    qodd := oddBytes
    length_qodd := length_oddBytes }

/-! ### What it writes -/

/-- `bytes` is written at `index`, and `numBytes` has grown by `count`. -/
structure Written (q : Question) (index : ℕ) (bytes : Bytes) (count : ℤ) (q' : Question) :
    Prop where
  qname : q'.qname = q.qname.take index ++ (bytes ++ q.qname.drop (index + bytes.length))
  numBytes : q'.numBytes = q.numBytes + count

variable {q q' q'' : Question} {index : ℕ} {bytes more j : Bytes} {m n : ℤ}

theorem written_nil (q : Question) (index : ℕ) : Written q index [] 0 q where
  qname := by
    rw [List.nil_append, List.length_nil, Nat.add_zero, List.take_append_drop]
  numBytes := (Int.add_zero _).symm

theorem Written.trans (h : Written q index bytes m q') (hindex : index ≤ filenameMax)
    (hmore : Written q' (index + bytes.length) more n q'') :
    Written q index (bytes ++ more) (m + n) q'' where
  qname := by
    have htake : (q.qname.take index).length = index := by
      rw [List.length_take, q.length_qname]
      omega
    have hlen : (q.qname.take index ++ bytes).length = index + bytes.length := by
      rw [List.length_append, htake]
    have hfront : q'.qname.take (index + bytes.length) = q.qname.take index ++ bytes := by
      rw [h.qname, ← List.append_assoc, List.take_left' hlen]
    have hback : q'.qname.drop (index + bytes.length + more.length)
        = q.qname.drop (index + (bytes ++ more).length) := by
      rw [h.qname, ← List.append_assoc, ← List.drop_drop, List.drop_left' hlen, List.drop_drop,
        List.length_append, Nat.add_assoc]
    rw [hmore.qname, hfront, hback, List.append_assoc, List.append_assoc]
  numBytes := by rw [hmore.numBytes, h.numBytes, Int.add_assoc]

theorem Written.count (h : Written q index bytes n q') :
    Written q index bytes (n + 1) { q' with numBytes := q'.numBytes + 1 } where
  qname := h.qname
  numBytes := by rw [h.numBytes, Int.add_assoc]

theorem setQname_spec (q : Question) (c : Byte) (hindex : index < filenameMax) :
    ∃ q', q.setQname index c = some q' ∧ Written q index [c] 0 q' := by
  refine ⟨_, if_pos hindex, ?_, (Int.add_zero _).symm⟩
  dsimp only
  rw [List.set_eq_take_append_cons_drop, if_pos (by rwa [q.length_qname]), List.length_singleton,
    List.singleton_append]

theorem putChars_spec (q : Question) (hfits : index + j.length ≤ filenameMax) :
    ∃ q', putChars j q index = some (q', index + j.length)
      ∧ Written q index j j.length q' := by
  induction j generalizing q index with
  | nil => exact ⟨q, rfl, written_nil q index⟩
  | cons c j ih =>
      rw [List.length_cons] at hfits
      obtain ⟨q', hset, hwritten⟩ := setQname_spec q c (show index < filenameMax by omega)
      obtain ⟨q'', hput, hrest⟩ := ih { q' with numBytes := q'.numBytes + 1 }
        (show index + 1 + j.length ≤ filenameMax by omega)
      have hboth := hwritten.count.trans (by omega) hrest
      rw [List.singleton_append] at hboth
      refine ⟨q'', ?_, ?_⟩
      · rw [putChars, hset]
        refine hput.trans ?_
        rw [List.length_cons, Nat.add_assoc, Nat.add_comm 1]
      · rwa [List.length_cons, Nat.cast_succ, Int.add_comm, ← Int.zero_add 1]

/-- A label as it stands in a message. -/
def encodeLabel (label : Bytes) : Bytes := BitVec.ofNat 8 label.length :: label

theorem putWord_spec (q : Question) (hfits : index + (encodeLabel j).length ≤ filenameMax) :
    ∃ q', putWord j q index = some (q', index + (encodeLabel j).length)
      ∧ Written q index (encodeLabel j) (encodeLabel j).length q' := by
  rw [encodeLabel, List.length_cons] at hfits
  obtain ⟨q', hset, hwritten⟩ :=
    setQname_spec q (BitVec.ofNat 8 j.length) (show index < filenameMax by omega)
  obtain ⟨q'', hput, hchars⟩ :=
    putChars_spec q' (show index + 1 + j.length ≤ filenameMax by omega)
  have hboth := (hwritten.trans (by omega) hchars).count
  rw [List.singleton_append, Int.zero_add] at hboth
  refine ⟨_, ?_, hboth⟩
  rw [putWord, hset]
  dsimp only [Option.bind_eq_bind, Option.bind_some]
  rw [hput, encodeLabel, List.length_cons, Nat.add_assoc, Nat.add_comm 1]
  rfl

def encoding (labels : List Bytes) : Bytes := labels.flatMap encodeLabel

theorem encoding_cons (label : Bytes) (rest : List Bytes) :
    encoding (label :: rest) = encodeLabel label ++ encoding rest := List.flatMap_cons

/-- The loop writes the words of the stream, in order. -/
theorem putWords_spec (q : Question) {rounds : ℕ} {ss : Bytes} (hrounds : ss.length ≤ rounds)
    (hfits : index + (encoding (Words.wordsOf isSpace ss)).length ≤ filenameMax) :
    ∃ q', putWords rounds ss q index
        = some (q', index + (encoding (Words.wordsOf isSpace ss)).length)
      ∧ Written q index (encoding (Words.wordsOf isSpace ss))
        (encoding (Words.wordsOf isSpace ss)).length q' := by
  induction rounds generalizing q index ss with
  | zero =>
      obtain rfl : ss = [] := List.eq_nil_of_length_eq_zero (by omega)
      exact ⟨q, rfl, written_nil q index⟩
  | succ rounds ih =>
      have hwords := Words.wordsOf_eq_scan isSpace ss
      cases hscan : Words.scan isSpace ss with
      | none =>
          rw [hscan] at hwords
          rw [putWords, hscan, hwords]
          exact ⟨q, rfl, written_nil q index⟩
      | some next =>
          obtain ⟨j, rest⟩ := next
          rw [hscan] at hwords
          dsimp only at hwords
          have hshorter := Words.length_of_scan hscan
          rw [hwords, encoding_cons, List.length_append] at hfits
          obtain ⟨q', hput, hword⟩ := putWord_spec q
            (show index + (encodeLabel j).length ≤ filenameMax by omega)
          obtain ⟨q'', hputs, hrest⟩ := ih q' (show rest.length ≤ rounds by omega)
            (show index + (encodeLabel j).length + _ ≤ filenameMax by omega)
          refine ⟨q'', ?_, ?_⟩
          · rw [putWords, hscan, hwords, encoding_cons, List.length_append, ← Nat.add_assoc,
              ← hputs]
            dsimp only
            rw [hput]
            rfl
          · rw [hwords, encoding_cons, List.length_append, Nat.cast_add]
            exact hword.trans (by omega) hrest

/-! ### The labels of a host name -/

def isSeparator (c : Byte) : Bool := c = 46 || isSpace c

/-- The maximal runs of characters of a host name that are neither dots nor whitespace. -/
def hostLabels (host : Bytes) : List Bytes := Words.wordsOf isSeparator host

theorem wordsOf_unDot (host : Bytes) :
    Words.wordsOf isSpace (host.map unDot) = hostLabels host := by
  apply Words.wordsOf_map
  · decide
  · decide

/-- **What `makeQuestion` makes of a question.** The labels of the host name are written over the
start of `QNAME`, and what was there behind them stays, as do the bytes counted before. -/
theorem makeQuestion_spec (q : Question) {host : Bytes}
    (hfits : (encoding (hostLabels host)).length ≤ filenameMax) :
    ∃ q', makeQuestion host q = some q'
      ∧ q'.qname = encoding (hostLabels host) ++ q.qname.drop (encoding (hostLabels host)).length
      ∧ q'.numBytes = q.numBytes + (encoding (hostLabels host)).length
      ∧ q'.qtype = 28 ∧ q'.qclass = 1 ∧ q'.qodd = oddBytes := by
  rw [← wordsOf_unDot] at hfits ⊢
  obtain ⟨q', hput, hwritten⟩ := putWords_spec q (le_refl (host.map unDot).length)
    (show 0 + _ ≤ _ by rwa [Nat.zero_add])
  have hqname := hwritten.qname
  rw [List.take_zero, List.nil_append, Nat.zero_add] at hqname
  rw [makeQuestion, hput]
  exact ⟨_, rfl, hqname, hwritten.numBytes, rfl, rfl, rfl⟩

end Networking.Resolver
