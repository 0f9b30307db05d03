import Networking.Lib.Followed
import Networking.Sched.Conserved

/-!
# Every line has its prefix

All calls of the event-loop thread and all events put a prefix behind each newline, but for one: the
event of `endl` writes the string it carries as it is. So the lines of the file have their prefixes
exactly as long as `endl` is called on no buffer that holds a newline, and a buffer that does is
split right if `flush`, a category or its size push it out.
-/

namespace Networking.Sched.Logging

open Wire Transition Followed

variable {l l' : Log} {action : Action} {items : List Item} {indent indentSize : BitVec 8}
  {e : Event} {val : Bytes}

/-! ### Newlines and prefixes -/

def Item.IsNewline : Item → Prop
  | .char c | .mark c => c = newline
  | .lineStart .. => False

/-- What `line_start` writes, with the spaces of the `_indent` there was. -/
def Item.IsPrefix (indentSize : BitVec 8) : Item → Prop
  | .lineStart indent spaces => spaces = indent.toNat * indentSize.toNat
  | .char _ | .mark _ => False

/-- Every newline is followed by a prefix. -/
def Prefixed (indentSize : BitVec 8) (items : List Item) : Prop :=
  Answered Item.IsNewline (Item.IsPrefix indentSize) items

def Ended (items : List Item) : Prop := Closed Item.IsNewline items

def Log.file (l : Log) : List Item := l.ostr.map Prod.fst

/-- An event whose text is split, or needs not be. -/
def Event.Splits : Event → Prop
  | .endl str => newline ∉ str
  | .flush _ | .catb | .cate | .other => True

/-! ### What a call and an event write -/

theorem prefixed_chars (h : newline ∉ val) : Prefixed indentSize (val.map .char) := by
  apply answered_of_forall
  intro item hitem
  obtain ⟨c, hc, rfl⟩ := List.mem_map.mp hitem
  rintro rfl
  exact h hc

theorem ended_chars (h : newline ∉ val) : Ended (val.map .char) := by
  have hprefixed : Prefixed 0 (val.map .char) := prefixed_chars h
  exact hprefixed.2

theorem prefixed_line (indentSize indent : BitVec 8) (item : Item) :
    Prefixed indentSize [item, lineStart indentSize indent] :=
  answered_pair rfl id

/-- A string that is split has its prefixes, and does not end in a newline. -/
theorem prefixed_sections (indentSize indent : BitVec 8) {rounds : ℕ} (h : val.length ≤ rounds) :
    Prefixed indentSize (sections (lineStart indentSize indent) rounds val) := by
  induction rounds generalizing val with
  | zero =>
      obtain rfl : val = [] := List.eq_nil_of_length_eq_zero (by omega)
      exact answered_nil
  | succ rounds ih =>
      rcases sections_succ (lineStart indentSize indent) rounds val with
        ⟨hnot, hwhole⟩ | ⟨part, rest, hval, hpart, hsplit⟩
      · rw [hwhole]
        exact prefixed_chars hnot
      · have hrest : rest.length ≤ rounds := by
          rw [hval, List.length_append, List.length_cons] at h
          omega
        have hline := prefixed_line indentSize indent (.char newline)
        have hfirst := (answered_append_iff (ended_chars hpart)).mpr ⟨prefixed_chars hpart, hline⟩
        rw [hsplit]
        exact (answered_append_iff hfirst.2).mpr ⟨hfirst, ih hrest⟩

theorem newline_not_mem_intText (n : ℤ) : newline ∉ intText n := by
  intro h
  rcases List.mem_append.mp h with hsign | hdigit
  · split_ifs at hsign with hneg
    · exact absurd (List.mem_singleton.mp hsign) (by decide)
    · cases hsign
  · exact absurd (digit_of_mem_ofString hdigit).1 (by decide)

/-- A call of the event-loop thread puts a prefix behind every newline. -/
theorem prefixed_direct (indentSize indent : BitVec 8) (op : Op) :
    Prefixed indentSize (direct indentSize indent op).1 := by
  cases op with
  | text val => exact prefixed_sections indentSize indent le_rfl
  | int val => exact prefixed_chars (newline_not_mem_intText val)
  | endl => exact prefixed_line indentSize indent (.char newline)
  | flush => exact answered_nil
  | catb =>
      have hfirst := prefixed_line indentSize indent (.mark newline)
      have hbrace : Prefixed indentSize [.mark 123] :=
        answered_of_forall fun item hitem => by
          rw [List.mem_singleton.mp hitem]
          exact (by decide : (123 : Byte) ≠ newline)
      have hlast := prefixed_line indentSize (indent + 1) (.mark newline)
      exact (answered_append_iff hfirst.2).mpr
        ⟨hfirst, (answered_append_iff hbrace.2).mpr ⟨hbrace, hlast⟩⟩
  | cate =>
      have hfirst := prefixed_line indentSize (indent - 1) (.mark newline)
      have hbrace : Prefixed indentSize [.mark 125] :=
        answered_of_forall fun item hitem => by
          rw [List.mem_singleton.mp hitem]
          exact (by decide : (125 : Byte) ≠ newline)
      rw [direct]
      split_ifs
      · exact (answered_append_iff hfirst.2).mpr ⟨hfirst, hbrace⟩
      · exact answered_nil

theorem execute_endl (indentSize indent : BitVec 8) (str : Bytes) :
    (execute indentSize indent (.endl str)).1
      = str.map .char ++ [.char newline, lineStart indentSize indent] := rfl

/-- **Executing an event** puts a prefix behind every newline unless the event writes its text as it
is and that holds a newline. Either way it does not end in a newline. -/
theorem prefixed_execute_iff (indentSize indent : BitVec 8) (e : Event) :
    (Prefixed indentSize (execute indentSize indent e).1 ↔ e.Splits)
      ∧ Ended (execute indentSize indent e).1 := by
  cases e with
  | endl str =>
      rw [execute_endl]
      have hline := prefixed_line indentSize indent (.char newline)
      have hended : Ended (str.map .char ++ [.char newline, lineStart indentSize indent]) := by
        rw [← List.singleton_append, ← List.append_assoc]
        exact closed_concat id
      refine ⟨⟨fun h hmem => ?_, fun hnot => ?_⟩, hended⟩
      · -- what follows the newline of the text is a character, if only the one that ends the line
        obtain ⟨before, after, rfl⟩ := List.append_of_mem hmem
        rw [List.map_append, List.map_cons, List.append_assoc] at h
        cases after with
        | nil =>
            have hnext : (Item.char newline).IsPrefix indentSize := Answered.next h rfl
            exact hnext
        | cons c after =>
            have hnext : (Item.char c).IsPrefix indentSize := Answered.next h rfl
            exact hnext
      · exact (answered_append_iff (ended_chars hnot)).mpr ⟨prefixed_chars hnot, hline⟩
  | flush str =>
      have h := prefixed_direct indentSize indent (.text str)
      exact ⟨iff_of_true h trivial, h.2⟩
  | catb =>
      have h := prefixed_direct indentSize indent .catb
      exact ⟨iff_of_true h trivial, h.2⟩
  | cate =>
      have h := prefixed_direct indentSize indent .cate
      exact ⟨iff_of_true h trivial, h.2⟩
  | other => exact ⟨iff_of_true answered_nil trivial, closed_nil⟩

/-! ### Every step -/

/-- What holds in every run. -/
structure Runs (indentSize : BitVec 8) (l : Log) : Prop where
  size : l.indentSize = indentSize
  ended : Ended l.file
  next : ∀ e, l.next = some e → e.Splits

/-- The lines of the file have their prefixes, and so will those that are still to be written. -/
def Log.Clean (indentSize : BitVec 8) (l : Log) : Prop :=
  Prefixed indentSize l.file ∧ ∀ e ∈ l.pending, e.Splits

/-- The call is not of `endl` on a buffer that holds a newline. -/
def Safe (l : Log) (action : Action) : Prop := action = .work .endl → newline ∉ l.buff

theorem file_put (l : Log) (written : List Item × BitVec 8) (worker : Bool) :
    (l.put written worker).file = l.file ++ written.1 := by
  rw [Log.file, Log.put, Log.file, List.map_append, List.map_map]
  congr 1
  exact List.map_id' _

theorem frame_append (l : Log) (val : Bytes) :
    (l.append val).file = l.file ∧ (l.append val).indentSize = l.indentSize := by
  rw [Log.append]
  dsimp only
  split_ifs <;> exact ⟨rfl, rfl⟩

/-- A call of the other thread does not touch the file. -/
theorem frame_work (l : Log) (op : Op) :
    (l.work op).file = l.file ∧ (l.work op).indentSize = l.indentSize := by
  cases op with
  | text val => exact frame_append l val
  | int val => exact frame_append l (intText val)
  | endl | flush | catb | cate => exact ⟨rfl, rfl⟩

theorem next_splits_work (hnext : l.next = none) (op : Op) :
    ∀ e, (l.work op).next = some e → e.Splits := by
  intro e he
  rcases next_work hnext he with rfl | rfl <;> trivial

theorem forall_pending_handOver_iff (l : Log) (event : Bytes → Event) :
    (∀ e ∈ (l.handOver event).pending, e.Splits)
      ↔ (∀ e ∈ l.pending, e.Splits) ∧ (event l.buff).Splits := by
  rw [pending_handOver, List.forall_mem_append, List.forall_mem_singleton]

/-- A buffer that is too large goes to the loop in an event of `flush`. -/
theorem forall_pending_append_iff (l : Log) (val : Bytes) :
    (∀ e ∈ (l.append val).pending, e.Splits) ↔ ∀ e ∈ l.pending, e.Splits := by
  rw [Log.append]
  dsimp only
  split_ifs
  · apply (forall_pending_handOver_iff _ .flush).trans
    exact and_iff_left trivial
  · exact Iff.rfl

/-- **What a call of the other thread hands over** is split, unless it is the text that `endl` finds
in the buffer. -/
theorem forall_pending_work_iff (l : Log) (op : Op) :
    (∀ e ∈ (l.work op).pending, e.Splits)
      ↔ (∀ e ∈ l.pending, e.Splits) ∧ Safe l (.work op) := by
  have hsafe : op ≠ .endl → Safe l (.work op) := by
    intro hne heq
    cases heq
    exact absurd rfl hne
  cases op with
  | text val | int val =>
      apply (forall_pending_append_iff l _).trans
      exact (and_iff_left (hsafe (by simp))).symm
  | endl =>
      apply (forall_pending_handOver_iff l .endl).trans
      apply and_congr_right
      intro _
      exact ⟨fun hsplits _ => hsplits, fun hsafe => hsafe rfl⟩
  | flush | catb | cate =>
      apply (forall_pending_handOver_iff l .flush).trans
      apply and_congr_right
      intro _
      exact iff_of_true trivial (hsafe (by simp))

theorem forall_pending_push_iff (l : Log) (he : e.Splits) :
    (∀ f ∈ l.taken.toList ++ (l.queue ++ [e]), f.Splits) ↔ ∀ f ∈ l.pending, f.Splits := by
  rw [← List.append_assoc, List.forall_mem_append, List.forall_mem_singleton]
  exact and_iff_left he

/-- **One step** keeps the prefixes of all lines exactly when it is safe. -/
theorem Runs.step (h : Runs indentSize l) (hstep : step l action = some l') :
    Runs indentSize l' ∧ (l'.Clean indentSize ↔ l.Clean indentSize ∧ Safe l action) := by
  obtain ⟨hsize, hended, hnextSplits⟩ := h
  have hsafe : (∀ op, action ≠ .work op) → Safe l action := fun hne heq => absurd heq (hne .endl)
  cases step_moves hstep with
  | work op hnext =>
      obtain ⟨hfile, hsame⟩ := frame_work l op
      refine ⟨⟨hsame.trans hsize, hfile ▸ hended, next_splits_work hnext op⟩, ?_⟩
      rw [Log.Clean, Log.Clean, hfile, forall_pending_work_iff, and_assoc]
  | @signal e hnext =>
      have hnone : ∀ f, (none : Option Event) = some f → f.Splits := by simp
      refine ⟨⟨hsize, hended, hnone⟩, Iff.trans ?_ (and_iff_left (hsafe (by simp))).symm⟩
      exact and_congr_right fun _ => forall_pending_push_iff l (hnextSplits e hnext)
  | other =>
      refine ⟨⟨hsize, hended, hnextSplits⟩, Iff.trans ?_ (and_iff_left (hsafe (by simp))).symm⟩
      exact and_congr_right fun _ => forall_pending_push_iff (e := .other) l trivial
  | @take e queue htaken hqueue =>
      refine ⟨⟨hsize, hended, hnextSplits⟩, Iff.trans ?_ (and_iff_left (hsafe (by simp))).symm⟩
      rw [Log.Clean, Log.Clean, Log.pending, Log.pending, htaken, hqueue]
      rfl
  | @execute e htaken =>
      obtain ⟨hsplits, hends⟩ := prefixed_execute_iff l.indentSize l.indent e
      have hfile := file_put l (Logging.execute l.indentSize l.indent e) (e ≠ .other)
      refine ⟨⟨hsize, ?_, hnextSplits⟩, Iff.trans ?_ (and_iff_left (hsafe (by simp))).symm⟩
      · exact hfile ▸ hended.append hends
      · -- what the event owed is now in the file
        have hpending : l.pending = e :: l.queue := by
          rw [Log.pending, htaken]
          rfl
        have hfiles : Prefixed l.indentSize
              (l.file ++ (Logging.execute l.indentSize l.indent e).1)
            ↔ Prefixed l.indentSize l.file
              ∧ Prefixed l.indentSize (Logging.execute l.indentSize l.indent e).1 :=
          answered_append_iff hended
        rw [← hfile] at hfiles
        rw [Log.Clean, Log.Clean, hpending, List.forall_mem_cons, ← hsplits, ← and_assoc, ← hsize]
        exact and_congr_left fun _ => hfiles
  | direct op =>
      have hdirect := prefixed_direct l.indentSize l.indent op
      have hfile := file_put l (Logging.direct l.indentSize l.indent op) false
      refine ⟨⟨hsize, ?_, hnextSplits⟩, Iff.trans ?_ (and_iff_left (hsafe (by simp))).symm⟩
      · exact hfile ▸ hended.append hdirect.2
      · have hfiles :
            Prefixed indentSize (l.put (Logging.direct l.indentSize l.indent op) false).file
              ↔ Prefixed indentSize l.file := by
          rw [hfile]
          exact (answered_append_iff hended).trans (and_iff_left (hsize ▸ hdirect))
        exact and_congr_left fun _ => hfiles

theorem runs_opened (maxBuffer : ℕ) (indentSize indent : BitVec 8) :
    Runs indentSize (opened maxBuffer indentSize indent) where
  size := rfl
  ended := closed_concat (l := []) id
  next := nofun

theorem clean_opened (maxBuffer : ℕ) (indentSize indent : BitVec 8) :
    (opened maxBuffer indentSize indent).Clean indentSize := by
  refine ⟨answered_of_forall ?_, by simp [Log.pending, opened]⟩
  intro item hitem
  rw [List.mem_singleton.mp hitem]
  exact id

/-- **Every line has its prefix** while `endl` has been called on no buffer that holds a newline,
and once it has, some line of the file has none as soon as the loop has drained the queue. -/
theorem file_prefixed_iff {maxBuffer : ℕ} {input : ℕ → Action} {k : ℕ}
    (hk : along step (opened maxBuffer indentSize indent) input k = some l) :
    ((∀ j < k, ∀ t, along step (opened maxBuffer indentSize indent) input j = some t →
        Safe t (input j)) → Prefixed indentSize l.file)
      ∧ (l.pending = [] → Prefixed indentSize l.file →
        ∀ j < k, ∀ t, along step (opened maxBuffer indentSize indent) input j = some t →
          Safe t (input j)) := by
  have hclean := along_iff_of_step (Runs indentSize) (Log.Clean indentSize) Safe
    (runs_opened maxBuffer indentSize indent) (clean_opened maxBuffer indentSize indent)
    (fun t a u h hstep => h.step hstep) hk
  refine ⟨fun hsafe => (hclean.mpr hsafe).1, fun hdrained hfile => hclean.mp ⟨hfile, ?_⟩⟩
  rw [hdrained]
  exact nofun

/-- Text that holds a newline is handed over by `flush`, and only then the line is ended. -/
def flushed (k : ℕ) : Action :=
  [.work (.text [97, newline, 98]), .work .flush, .work .endl, .take, .execute, .take,
    .execute].getD k .other

theorem file_prefixed_iff_sample :
    ∃ l, along step (opened 1024 2 0) flushed 7 = some l ∧ l.pending = []
      ∧ Prefixed 2 l.file := by
  have hsome : (along step (opened 1024 2 0) flushed 7).map Log.pending = some [] := by decide
  obtain ⟨l, hl, hdrained⟩ := Option.map_eq_some_iff.mp hsome
  refine ⟨l, hl, hdrained, (file_prefixed_iff hl).1 ?_⟩
  intro j hj t ht hendl
  have hbuffs : ∀ j < 7, flushed j = .work .endl →
      ∀ b ∈ (along step (opened 1024 2 0) flushed j).map Log.buff, newline ∉ b := by decide
  exact hbuffs j hj hendl t.buff (Option.mem_map_of_mem Log.buff ht)

/-- A thread that writes a newline and then ends the line. -/
def unflushed (k : ℕ) : Action :=
  [.work (.text [newline]), .work .endl, .take, .execute].getD k .other

/-- The first newline in the file is followed by the second. -/
theorem not_file_prefixed :
    ¬∀ (maxBuffer : ℕ) (indentSize indent : BitVec 8) (input : ℕ → Action) (k : ℕ) (l : Log),
      along step (opened maxBuffer indentSize indent) input k = some l → l.pending = [] →
        Prefixed indentSize l.file := by
  intro h
  have hfile : (along step (opened 1024 2 0) unflushed 4).map
      (fun l => (l.pending, l.file)) = some ([], [lineStart 2 0, .char newline, .char newline,
        lineStart 2 0]) := by decide
  obtain ⟨l, hl, hpair⟩ := Option.map_eq_some_iff.mp hfile
  rw [Prod.mk.injEq] at hpair
  have hprefixed := h 1024 2 0 unflushed 4 l hl hpair.1
  rw [hpair.2] at hprefixed
  have hnext : (Item.char newline).IsPrefix 2 := by
    change Prefixed 2 ([lineStart 2 0] ++ .char newline :: .char newline :: [lineStart 2 0])
      at hprefixed
    exact Answered.next hprefixed rfl
  exact hnext

end Networking.Sched.Logging
