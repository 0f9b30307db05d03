import Networking.Lib.Words
import Networking.Sched.Log

/-!
# No text is lost

Text goes from the buffer of the other thread into events and from these into the file. It takes one
of four ways, and whatever the loop does in between, the text of all calls is in the file, in the
events and in the buffer, in this order.
-/

namespace Networking.Sched.Logging

open Wire Transition

variable {l l' : Log} {action : Action} {line : Item} {items : List Item}
  {indent indentSize : BitVec 8}

/-! ### The text in the file and in the queue -/

def Item.text : Item → Bytes
  | .char c => [c]
  | .mark _ | .lineStart .. => []

/-- The text of the other thread in the file. -/
def fileText (ostr : List (Item × Bool)) : Bytes :=
  ostr.flatMap fun put => if put.2 then put.1.text else []

/-- The text that an event carries. -/
def Event.text : Event → Bytes
  | .endl str => str ++ [newline]
  | .flush str => str
  | .catb | .cate | .other => []

/-- The events that have not been executed yet, in order. -/
def Log.pending (l : Log) : List Event := l.taken.toList ++ l.queue

def Log.Conserves (l : Log) : Prop :=
  l.written = fileText l.ostr ++ l.pending.flatMap Event.text ++ l.buff

theorem fileText_append (ostr more : List (Item × Bool)) :
    fileText (ostr ++ more) = fileText ostr ++ fileText more :=
  List.flatMap_append

theorem fileText_worker (items : List Item) :
    fileText (items.map fun item => (item, true)) = items.flatMap Item.text := by
  rw [fileText, List.flatMap_map]
  rfl

theorem fileText_other (items : List Item) :
    fileText (items.map fun item => (item, false)) = [] := by
  rw [fileText, List.flatMap_map]
  simp

theorem text_chars (val : Bytes) : (val.map Item.char).flatMap Item.text = val := by
  induction val with
  | nil => rfl
  | cons c val ih =>
      rw [List.map_cons, List.flatMap_cons, ih]
      rfl

/-! ### Executing an event -/

/-- What the loop of `operator<<` does to a string that holds a newline. -/
theorem sections_succ (line : Item) (rounds : ℕ) (val : Bytes) :
    newline ∉ val ∧ sections line (rounds + 1) val = val.map .char
      ∨ ∃ part rest, val = part ++ newline :: rest ∧ newline ∉ part
        ∧ sections line (rounds + 1) val
          = part.map .char ++ [.char newline, line] ++ sections line rounds rest := by
  rw [sections]
  cases hdrop : val.dropWhile (· ≠ newline) with
  | nil =>
      refine .inl ⟨fun hmem => ?_, rfl⟩
      simpa using List.dropWhile_eq_nil_iff.mp hdrop newline hmem
  | cons c rest =>
      obtain rfl : c = newline := by simpa using Words.head_of_dropWhile hdrop
      refine .inr ⟨val.takeWhile (· ≠ newline), rest, ?_, fun hmem => ?_, rfl⟩
      · rw [← hdrop, List.takeWhile_append_dropWhile]
      · simpa using List.mem_takeWhile_imp hmem

/-- Splitting a string loses none of it. -/
theorem text_sections (hline : line.text = []) (rounds : ℕ) (val : Bytes) :
    (sections line rounds val).flatMap Item.text = val := by
  induction rounds generalizing val with
  | zero => exact text_chars val
  | succ rounds ih =>
      rcases sections_succ line rounds val with ⟨-, hwhole⟩ | ⟨part, rest, hval, -, hsplit⟩
      · rw [hwhole, text_chars]
      · rw [hsplit, List.flatMap_append, List.flatMap_append, text_chars, ih, hval,
          List.flatMap_cons, List.flatMap_singleton, hline, Item.text, List.append_nil,
          List.append_assoc, List.singleton_append]

/-- The file receives the text that an event carries. -/
theorem text_execute (indentSize indent : BitVec 8) (e : Event) :
    (execute indentSize indent e).1.flatMap Item.text = e.text := by
  cases e with
  | endl str =>
      rw [execute, List.flatMap_append, text_chars]
      rfl
  | flush str => exact text_sections rfl str.length str
  | catb => rfl
  | cate =>
      rw [execute, direct]
      split_ifs <;> rfl
  | other => rfl

/-! ### Every step -/

theorem pending_handOver (l : Log) (event : Bytes → Event) :
    (l.handOver event).pending = l.pending ++ [event l.buff] := by
  rw [Log.pending, Log.handOver, ← List.append_assoc, Log.pending]

/-- Handing over the buffer, with what the event adds to it. -/
theorem Log.Conserves.handOver (h : l.Conserves) (event : Bytes → Event) (ending : Bytes)
    (hevent : ∀ str, (event str).text = str ++ ending) :
    ({ l.handOver event with written := l.written ++ ending } : Log).Conserves := by
  have htext : (l.handOver event).pending.flatMap Event.text
      = l.pending.flatMap Event.text ++ (l.buff ++ ending) := by
    rw [pending_handOver, List.flatMap_append, List.flatMap_singleton, hevent]
  change l.written ++ ending
    = fileText l.ostr ++ (l.handOver event).pending.flatMap Event.text ++ []
  rw [Log.Conserves] at h
  rw [htext, h]
  simp only [List.append_assoc, List.append_nil]

theorem Log.Conserves.flush (h : l.Conserves) : (l.handOver .flush).Conserves := by
  have hflushed := h.handOver .flush [] fun str => (List.append_nil str).symm
  rwa [List.append_nil] at hflushed

theorem Log.Conserves.append (h : l.Conserves) (val : Bytes) : (l.append val).Conserves := by
  have hmore : ({ l with buff := l.buff ++ val, written := l.written ++ val } : Log).Conserves := by
    rw [Log.Conserves] at h ⊢
    change l.written ++ val = fileText l.ostr ++ l.pending.flatMap Event.text ++ (l.buff ++ val)
    rw [h, List.append_assoc]
  rw [Log.append]
  dsimp only
  split_ifs
  · exact hmore.flush
  · exact hmore

theorem Log.Conserves.work (h : l.Conserves) (op : Op) : (l.work op).Conserves := by
  cases op with
  | text val => exact h.append val
  | int val => exact h.append (intText val)
  | endl => exact h.handOver .endl [newline] fun str => rfl
  | flush => exact h.flush
  | catb => exact h.flush
  | cate => exact h.flush

/-- What is still to be pushed of `catb` and `cate` carries no text. -/
def Log.NextSilent (l : Log) : Prop := ∀ e, l.next = some e → e.text = []

theorem next_append (l : Log) (val : Bytes) : (l.append val).next = l.next := by
  rw [Log.append]
  dsimp only
  split_ifs <;> rfl

theorem next_work (hnext : l.next = none) {op : Op} {e : Event}
    (he : (l.work op).next = some e) : e = .catb ∨ e = .cate := by
  cases op with
  | text val | int val =>
      rw [Log.work, next_append, hnext] at he
      cases he
  | endl | flush =>
      change l.next = some e at he
      rw [hnext] at he
      cases he
  | catb =>
      cases he
      exact .inl rfl
  | cate =>
      cases he
      exact .inr rfl

theorem nextSilent_work (hnext : l.next = none) (op : Op) : (l.work op).NextSilent := by
  intro e he
  rcases next_work hnext he with rfl | rfl <;> rfl

/-- An event at the end of the queue that carries no text. -/
theorem Log.Conserves.push (h : l.Conserves) {e : Event} (he : e.text = []) :
    l.written = fileText l.ostr ++ (l.taken.toList ++ (l.queue ++ [e])).flatMap Event.text
      ++ l.buff := by
  rw [Log.Conserves, Log.pending] at h
  rw [← List.append_assoc, List.flatMap_append, List.flatMap_singleton, he, List.append_nil, h]

theorem Log.Conserves.step (h : l.Conserves) (hsilent : l.NextSilent)
    (hstep : step l action = some l') : l'.Conserves ∧ l'.NextSilent := by
  cases step_moves hstep with
  | work op hnext => exact ⟨h.work op, nextSilent_work hnext op⟩
  | @signal e hnext => exact ⟨h.push (hsilent e hnext), nofun⟩
  | other => exact ⟨h.push rfl, hsilent⟩
  | @take e queue htaken hqueue =>
      refine ⟨?_, hsilent⟩
      rw [Log.Conserves, Log.pending, htaken, hqueue] at h
      exact h
  | @execute e htaken =>
      refine ⟨?_, hsilent⟩
      rw [Log.Conserves, Log.pending, htaken] at h
      have hfile : fileText ((execute l.indentSize l.indent e).1.map fun item =>
          (item, decide (e ≠ .other))) = e.text := by
        by_cases he : e = .other
        · subst he
          rfl
        · rw [decide_eq_true he, fileText_worker, text_execute]
      change l.written = fileText (l.ostr ++ _) ++ l.queue.flatMap Event.text ++ l.buff
      rw [fileText_append, hfile, h]
      simp [List.append_assoc]
  | direct op =>
      refine ⟨?_, hsilent⟩
      change l.written = fileText (l.ostr ++ _) ++ l.pending.flatMap Event.text ++ l.buff
      rw [fileText_append, fileText_other, List.append_nil]
      exact h

/-- **No text is lost.** For every size of the buffer and every interleaving of the calls of the
other thread with the event loop, in every state: the text of the calls is the text that the
executed events have put in the file, the text of the events that are still to be executed, and the
buffer. -/
theorem text_conserved {maxBuffer : ℕ}
    (hreach : Reaches step (fun _ _ => True) (opened maxBuffer indentSize indent) l) :
    l.written = fileText l.ostr ++ l.pending.flatMap Event.text ++ l.buff := by
  have hinv : l.Conserves ∧ l.NextSilent := by
    apply hreach.invariant (P := fun l => l.Conserves ∧ l.NextSilent)
    · exact ⟨rfl, nofun⟩
    · intro t action u h _ hnext
      exact h.1.step h.2 hnext
  exact hinv.1

/-- A run that takes all four ways: a buffer of two characters overflows, and `endl`, `flush` and
`catb` push out the rest. -/
def sampleRun : List Action :=
  [.work (.text (ofString "abc")), .work (.int (-1)), .work .endl, .direct (.text [newline]), .take,
    .execute, .take, .work (.text [newline]), .execute, .work .flush, .work (.text [97]),
    .work .catb, .signal, .take, .execute, .work (.text [98])]

theorem text_conserved_sample :
    ∃ l, along step (opened 2 2 0) (fun k => sampleRun.getD k .other) 16 = some l
      ∧ l.buff = ofString "b"
      ∧ l.written = fileText l.ostr ++ l.pending.flatMap Event.text ++ l.buff := by
  have hbuff : (along step (opened 2 2 0) (fun k => sampleRun.getD k .other) 16).map Log.buff
      = some (ofString "b") := by decide
  obtain ⟨l, hl, hb⟩ := Option.map_eq_some_iff.mp hbuff
  refine ⟨l, hl, hb, ?_⟩
  exact text_conserved (reaches_of_along (fun _ _ => True) (fun _ _ => trivial) hl)

end Networking.Sched.Logging
