import Mathlib.Data.List.TakeWhile

/-!
# The words of a text

A text is cut into words at its separators: the words are the maximal runs of other characters. A
scanner that skips separators and then takes characters up to the next one reads them in order.
-/

namespace Words

variable {α : Type*} {sep : α → Bool} {c : α} {l word : List α} {parts : List (List α)}

/-- The words of a text: what is left between its separators, without the empty pieces. -/
def wordsOf (sep : α → Bool) (l : List α) : List (List α) :=
  (l.splitOnP sep).filter fun word => !word.isEmpty

/-- A word is not empty and holds no separator. -/
def IsWord (sep : α → Bool) (word : List α) : Prop := word ≠ [] ∧ ∀ c ∈ word, sep c = false

@[simp]
theorem wordsOf_nil : wordsOf sep ([] : List α) = [] := rfl

theorem wordsOf_cons_of_sep (h : sep c = true) (l : List α) :
    wordsOf sep (c :: l) = wordsOf sep l := by
  rw [wordsOf, List.splitOnP_cons_eq_if_modifyHead, if_pos h, List.filter_cons_of_neg (by simp),
    wordsOf]

theorem wordsOf_of_isWord (h : IsWord sep word) : wordsOf sep word = [word] := by
  rw [wordsOf, List.splitOnP_eq_singleton h.2, List.filter_cons_of_pos (by simpa using h.1),
    List.filter_nil]

theorem wordsOf_append_cons (h : IsWord sep word) (hc : sep c = true) (l : List α) :
    wordsOf sep (word ++ c :: l) = word :: wordsOf sep l := by
  rw [wordsOf, List.splitOnP_append_cons_of_forall_mem h.2 c hc,
    List.filter_cons_of_pos (by simpa using h.1), wordsOf]

theorem isWord_of_mem (h : word ∈ wordsOf sep l) : IsWord sep word := by
  obtain ⟨hmem, hne⟩ := List.mem_filter.mp h
  refine ⟨by simpa using hne, ?_⟩
  clear h hne
  induction l generalizing word with
  | nil =>
      rw [List.splitOnP_nil, List.mem_singleton] at hmem
      subst hmem
      simp
  | cons c l ih =>
      obtain ⟨first, rest, hsplit⟩ := List.exists_cons_of_ne_nil (List.splitOnP_ne_nil sep l)
      rw [List.splitOnP_cons_eq_if_modifyHead, hsplit] at hmem
      rw [hsplit] at ih
      split_ifs at hmem with hc
      · rcases List.mem_cons.mp hmem with rfl | hmem
        · simp
        · exact ih hmem
      · rw [List.modifyHead_cons] at hmem
        rcases List.mem_cons.mp hmem with rfl | hmem
        · intro d hd
          rcases List.mem_cons.mp hd with rfl | hd
          · exact Bool.eq_false_iff.mpr hc
          · exact ih (List.mem_cons_self) d hd
        · exact ih (List.mem_cons_of_mem _ hmem)

/-- Joined by a separator, words are the words of the text. -/
theorem wordsOf_intercalate (hc : sep c = true) (h : ∀ word ∈ parts, IsWord sep word) :
    wordsOf sep ([c].intercalate parts) = parts := by
  induction parts with
  | nil => rfl
  | cons word rest ih =>
      rw [List.forall_mem_cons] at h
      cases rest with
      | nil =>
          rw [show [c].intercalate [word] = word by simp [List.intercalate]]
          exact wordsOf_of_isWord h.1
      | cons next rest =>
          have hsplit : [c].intercalate (word :: next :: rest)
              = word ++ c :: [c].intercalate (next :: rest) := by
            simp [List.intercalate]
          rw [hsplit, wordsOf_append_cons h.1 hc, ih h.2]

/-- Putting other characters in place of the separators changes no word. -/
theorem wordsOf_map {sep' : α → Bool} {f : α → α} (hsep : ∀ c, sep' (f c) = sep c)
    (hkeep : ∀ c, sep c = false → f c = c) (l : List α) :
    wordsOf sep' (l.map f) = wordsOf sep l := by
  have hsplit : (l.map f).splitOnP sep' = l.splitOnP sep := by
    induction l with
    | nil => rfl
    | cons c l ih =>
        rw [List.map_cons, List.splitOnP_cons_eq_if_modifyHead,
          List.splitOnP_cons_eq_if_modifyHead, hsep, ih]
        split_ifs with hc
        · rfl
        · rw [hkeep c (Bool.eq_false_iff.mpr hc)]
  rw [wordsOf, hsplit, wordsOf]

/-! ### Scanning -/

/-- The next word of a text and what follows it. -/
def scan (sep : α → Bool) (l : List α) : Option (List α × List α) :=
  match l.dropWhile sep with
  | [] => none
  | c :: rest => some ((c :: rest).takeWhile fun c => !sep c, (c :: rest).dropWhile fun c => !sep c)

theorem head_of_dropWhile {p : α → Bool} {rest : List α} (h : l.dropWhile p = c :: rest) :
    p c = false := by
  have hhead := List.head_dropWhile_not p (l := l) (by simp [h])
  simpa [h] using hhead

theorem wordsOf_dropWhile (sep : α → Bool) (l : List α) :
    wordsOf sep (l.dropWhile sep) = wordsOf sep l := by
  induction l with
  | nil => rfl
  | cons c l ih =>
      rw [List.dropWhile_cons]
      split_ifs with hc
      · rw [ih, wordsOf_cons_of_sep hc]
      · rfl

/-- **Scanning** takes the words off a text one by one. -/
theorem wordsOf_eq_scan (sep : α → Bool) (l : List α) :
    wordsOf sep l = match scan sep l with
      | none => []
      | some (word, rest) => word :: wordsOf sep rest := by
  rw [← wordsOf_dropWhile, scan]
  cases h : l.dropWhile sep with
  | nil => rfl
  | cons c rest =>
      have hc : sep c = false := head_of_dropWhile h
      have hword : IsWord sep ((c :: rest).takeWhile fun c => !sep c) := by
        refine ⟨by simp [hc], fun d hd => ?_⟩
        simpa using List.mem_takeWhile_imp hd
      calc wordsOf sep (c :: rest)
          = wordsOf sep (((c :: rest).takeWhile fun c => !sep c)
            ++ (c :: rest).dropWhile fun c => !sep c) := by
            rw [List.takeWhile_append_dropWhile]
        _ = ((c :: rest).takeWhile fun c => !sep c)
            :: wordsOf sep ((c :: rest).dropWhile fun c => !sep c) := by
            cases hrest : (c :: rest).dropWhile fun c => !sep c with
            | nil => rw [List.append_nil, wordsOf_of_isWord hword, wordsOf_nil]
            | cons d rest' =>
                have hd : sep d = true := by simpa using head_of_dropWhile hrest
                rw [wordsOf_append_cons hword hd, wordsOf_cons_of_sep hd]

theorem length_of_scan {rest : List α} (h : scan sep l = some (word, rest)) :
    rest.length < l.length := by
  unfold scan at h
  split at h
  · cases h
  · rename_i c tail hdrop
    cases h
    have hc : sep c = false := head_of_dropWhile hdrop
    have hle : tail.length + 1 ≤ l.length := by
      rw [← List.length_cons, ← hdrop]
      exact (List.dropWhile_sublist sep).length_le
    rw [List.dropWhile_cons_of_pos (by simp [hc])]
    exact Nat.lt_of_le_of_lt (List.dropWhile_sublist _).length_le hle

end Words
