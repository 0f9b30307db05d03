import Mathlib.Data.List.Induction
import Networking.Sched.Log

/-!
# The categories of the log

`catb` opens a category and `cate` closes one. The depth is counted in `_indent`, which is an
`uint8_t`: `cate` looks whether it is zero, `catb` does not look whether it is 255.
-/

namespace Networking.Sched.Logging

variable {indentSize indent : BitVec 8} {ops : List Op} {cur d : ℕ} {stack : List ℕ}

/-- What calls on the event-loop thread write, from an `_indent` of 0 on, and `_indent` then. -/
def calls (indentSize : BitVec 8) (ops : List Op) : List Item × BitVec 8 :=
  ops.foldl (fun (items, indent) op =>
    (items ++ (direct indentSize indent op).1, (direct indentSize indent op).2)) ([], 0)

/-- Nothing is closed where nothing is open. -/
def nextDepth (d : ℕ) : Op → ℕ
  | .catb => d + 1
  | .cate => d - 1
  | .text _ | .int _ | .endl | .flush => d

/-- How many categories are open. -/
def depth (ops : List Op) : ℕ := ops.foldl nextDepth 0

/-- A reader of the log who remembers the indentation of the current line, and that of the line of
each brace that is open. A brace that closes has to stand as the last one opened does. -/
def readItem : ℕ × List ℕ → Item → Option (ℕ × List ℕ)
  | (_, stack), .lineStart _ spaces => some (spaces, stack)
  | (cur, stack), .char _ => some (cur, stack)
  | (cur, stack), .mark c =>
      if c = 123 then
        some (cur, cur :: stack)
      else if c = 125 then
        match stack with
        | [] => none
        | opened :: stack => if opened = cur then some (cur, stack) else none
      else
        some (cur, stack)

def readItems (items : List Item) : Option (ℕ × List ℕ) := items.foldlM readItem (0, [])

/-- `_indent` is the depth, and the braces are those of the categories. -/
structure Nested (indentSize : BitVec 8) (ops : List Op) : Prop where
  indent : (calls indentSize ops).2.toNat = depth ops
  braces : ∃ cur stack, readItems (calls indentSize ops).1 = some (cur, stack)
    ∧ stack.length = depth ops

/-- The indentations of the categories that are open, the innermost first. -/
def levels (size : ℕ) : ℕ → List ℕ
  | 0 => []
  | d + 1 => d * size :: levels size d

@[simp]
theorem length_levels (size d : ℕ) : (levels size d).length = d := by
  induction d with
  | zero => rfl
  | succ d ih => rw [levels, List.length_cons, ih]

theorem calls_concat (indentSize : BitVec 8) (ops : List Op) (op : Op) :
    calls indentSize (ops ++ [op])
      = ((calls indentSize ops).1 ++ (direct indentSize (calls indentSize ops).2 op).1,
        (direct indentSize (calls indentSize ops).2 op).2) := by
  rw [calls, List.foldl_append]
  rfl

theorem depth_concat (ops : List Op) (op : Op) :
    depth (ops ++ [op]) = nextDepth (depth ops) op := by
  rw [depth, List.foldl_append]
  rfl

theorem readItems_append {front back : List Item} :
    readItems (front ++ back) = (readItems front).bind fun s => back.foldlM readItem s := by
  rw [readItems, List.foldlM_append]
  rfl

theorem foldlM_text {items : List Item} (hitems : ∀ c, .mark c ∉ items) (cur : ℕ)
    (stack : List ℕ) : ∃ cur', items.foldlM readItem (cur, stack) = some (cur', stack) := by
  induction items generalizing cur with
  | nil => exact ⟨cur, rfl⟩
  | cons item items ih =>
      have hrest : ∀ c, .mark c ∉ items := fun c hmem => hitems c (.tail item hmem)
      cases item with
      | char c => exact ih hrest cur
      | lineStart indent spaces => exact ih hrest spaces
      | mark c => exact absurd (.head items) (hitems c)

theorem mark_not_mem_sections {line : Item} (hline : ∀ c, line ≠ .mark c) (rounds : ℕ)
    (val : Wire.Bytes) (c : Wire.Byte) : .mark c ∉ sections line rounds val := by
  induction rounds generalizing val with
  | zero => simp [sections]
  | succ rounds ih =>
      rw [sections]
      split
      · simp
      · rename_i rest _
        have hrest := ih rest
        simp [hrest, (hline c).symm]

theorem mark_not_mem_chars (val : Wire.Bytes) (c : Wire.Byte) :
    .mark c ∉ val.map Item.char := by
  simp

theorem lineStart_eq (hindent : indent.toNat = d) :
    lineStart indentSize indent = .lineStart indent (d * indentSize.toNat) := by
  rw [lineStart, hindent]

theorem foldlM_opening (i j : BitVec 8) (outer inner cur : ℕ) (stack : List ℕ) :
    [.mark newline, .lineStart i outer, .mark 123, .mark newline, .lineStart j inner].foldlM
      readItem (cur, stack) = some (inner, outer :: stack) := rfl

theorem foldlM_closing (i : BitVec 8) (outer cur : ℕ) (stack : List ℕ) :
    [.mark newline, .lineStart i outer, .mark 125].foldlM readItem (cur, outer :: stack)
      = some (outer, stack) := by
  simp [readItem, newline]

/-- **One call**, as long as the depth fits: what it writes is read as what it does. -/
theorem readItem_direct (indentSize : BitVec 8) (hindent : indent.toNat = d) (op : Op)
    (hdepth : nextDepth d op < 2 ^ 8) (cur : ℕ) :
    (direct indentSize indent op).2.toNat = nextDepth d op
      ∧ ∃ cur', (direct indentSize indent op).1.foldlM readItem (cur, levels indentSize.toNat d)
        = some (cur', levels indentSize.toNat (nextDepth d op)) := by
  have hline : ∀ c, lineStart indentSize indent ≠ .mark c := fun _ h => by cases h
  cases op with
  | text val => exact ⟨hindent, foldlM_text (mark_not_mem_sections hline _ _) _ _⟩
  | int val => exact ⟨hindent, foldlM_text (mark_not_mem_chars _) _ _⟩
  | endl =>
      refine ⟨hindent, foldlM_text (fun c hmem => ?_) _ _⟩
      simp [direct, lineStart] at hmem
  | flush => exact ⟨hindent, cur, rfl⟩
  | catb =>
      rw [nextDepth] at hdepth ⊢
      have hnext : (indent + 1).toNat = d + 1 := by
        rw [BitVec.toNat_add, hindent]
        exact Nat.mod_eq_of_lt hdepth
      rw [direct, lineStart_eq hindent, lineStart_eq hnext]
      exact ⟨hnext, _, foldlM_opening _ _ _ _ _ _⟩
  | cate =>
      cases d with
      | zero =>
          have hzero : ¬0 < indent := by
            rw [BitVec.lt_def, hindent]
            exact Nat.lt_irrefl 0
          rw [direct, if_neg hzero]
          exact ⟨hindent, cur, rfl⟩
      | succ d =>
          have hpos : 0 < indent := by
            rw [BitVec.lt_def, hindent]
            exact Nat.succ_pos d
          have hnext : (indent - 1).toNat = d := by
            bv_omega
          rw [direct, if_pos hpos, lineStart_eq hnext]
          exact ⟨hnext, _, foldlM_closing _ _ _ _⟩

/-- What is written while the depth has always fitted is read as the categories that are open. -/
theorem readItems_calls (indentSize : BitVec 8)
    (hdepth : ∀ before, before <+: ops → depth before < 2 ^ 8) :
    (calls indentSize ops).2.toNat = depth ops ∧ ∃ cur, readItems (calls indentSize ops).1
      = some (cur, levels indentSize.toNat (depth ops)) := by
  induction ops using List.reverseRecOn with
  | nil => exact ⟨rfl, 0, rfl⟩
  | append_singleton ops op ih =>
      obtain ⟨hindent, cur, hread⟩ :=
        ih fun before hbefore => hdepth before (hbefore.trans (List.prefix_append ops [op]))
      have hlast := hdepth (ops ++ [op]) List.prefix_rfl
      rw [depth_concat] at hlast ⊢
      obtain ⟨hnext, cur', hitems⟩ := readItem_direct indentSize hindent op hlast cur
      rw [calls_concat]
      refine ⟨hnext, cur', ?_⟩
      rw [readItems_append, hread]
      exact hitems

/-- **Categories.** After every call of a sequence, `_indent` is the depth and the braces match in
number and indentation, exactly if the depth is never more than 255. -/
theorem nested_iff (indentSize : BitVec 8) (ops : List Op) :
    (∀ before, before <+: ops → Nested indentSize before)
      ↔ ∀ before, before <+: ops → depth before < 2 ^ 8 := by
  constructor
  · intro h before hbefore
    rw [← (h before hbefore).indent]
    exact (calls indentSize before).2.isLt
  · intro h before hbefore
    obtain ⟨hindent, cur, hread⟩ :=
      readItems_calls indentSize fun first hfirst => h first (hfirst.trans hbefore)
    exact ⟨hindent, cur, _, hread, length_levels _ _⟩

theorem indent_replicate (indentSize : BitVec 8) (n : ℕ) :
    (calls indentSize (List.replicate n .catb)).2 = BitVec.ofNat 8 n
      ∧ depth (List.replicate n .catb) = n := by
  induction n with
  | zero => exact ⟨rfl, rfl⟩
  | succ n ih =>
      rw [List.replicate_succ', calls_concat, depth_concat, ih.2]
      refine ⟨?_, rfl⟩
      rw [direct, ih.1]
      exact (BitVec.ofNat_add n 1).symm

/-- With 256 categories open, `_indent` is 0 again. -/
theorem not_nested_catb : ¬Nested 2 (List.replicate 256 .catb) := by
  intro h
  obtain ⟨hindent, hdepth⟩ := indent_replicate 2 256
  have hsame := h.indent
  rw [hindent, hdepth] at hsame
  exact absurd hsame (by decide)

end Networking.Sched.Logging
