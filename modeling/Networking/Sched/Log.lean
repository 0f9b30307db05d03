import Networking.Lib.Transition
import Networking.Lib.Wire

/-!
# `Log`

The log as a state machine over two threads. The event-loop thread writes to the file; another
thread collects its text in `_buff` and hands it over in events, which the loop takes from the queue
and executes. `_buff` belongs to that thread, so a call that pushes one event is one step, and the
calls that push two are two steps.

The prefix of a line is one item of the file, whatever it says of the time and the process. The
file keeps, for the record, the `_indent` with which a prefix was written, and which items the
events of the other thread have put there.
-/

namespace Networking.Sched.Logging

open Wire

def newline : Byte := 10

/-- What is written to the file: a character of some text, one of the marks of a category, or what
`line_start` writes. -/
inductive Item
  | char (c : Byte)
  | mark (c : Byte)
  | lineStart (indent : BitVec 8) (spaces : ℕ)
  deriving DecidableEq

/-- The calls of a thread. `int` stands for the operators of all integer types. -/
inductive Op
  | text (val : Bytes)
  | int (val : ℤ)
  | endl
  | flush
  | catb
  | cate
  deriving DecidableEq

/-- The events of the log, with the strings that are bound to them, and those of others. -/
inductive Event
  | endl (str : Bytes)
  | flush (str : Bytes)
  | catb
  | cate
  | other
  deriving DecidableEq

/-- The log and the event queue. `next` is an event that the other thread has still to push before
its call returns, and `written` is the text of its calls so far. -/
structure Log where
  maxBuffer : ℕ
  indentSize : BitVec 8
  indent : BitVec 8
  ostr : List (Item × Bool)
  buff : Bytes
  queue : List Event
  taken : Option Event
  next : Option Event
  written : Bytes

/-- `_buff << val` and `_ostr << val` for an integer. -/
def intText (val : ℤ) : Bytes :=
  (if val < 0 then [45] else []) ++ ofString (String.ofList (Nat.toDigits 10 val.natAbs))

/-! ### The event-loop thread -/

/-- `line_start`, which puts `_indent_size` spaces for each indent. -/
def lineStart (indentSize indent : BitVec 8) : Item :=
  .lineStart indent (indent.toNat * indentSize.toNat)

/-- The loop of `operator<<` that splits a string at its newlines. Each round takes one, so there
are no more rounds than characters. -/
def sections (line : Item) : ℕ → Bytes → List Item
  | 0, val => val.map .char
  | rounds + 1, val =>
      match val.dropWhile (· ≠ newline) with
      | [] => val.map .char
      | _ :: rest =>
          (val.takeWhile (· ≠ newline)).map .char ++ [.char newline, line]
            ++ sections line rounds rest

/-- What a call on the event-loop thread writes, and `_indent` behind it. -/
def direct (indentSize indent : BitVec 8) : Op → List Item × BitVec 8
  | .text val => (sections (lineStart indentSize indent) val.length val, indent)
  | .int val => ((intText val).map .char, indent)
  | .endl => ([.char newline, lineStart indentSize indent], indent)
  | .flush => ([], indent)
  | .catb => ([.mark newline, lineStart indentSize indent, .mark 123, .mark newline,
      lineStart indentSize (indent + 1)], indent + 1)
  | .cate =>
      if 0 < indent then
        ([.mark newline, lineStart indentSize (indent - 1), .mark 125], indent - 1)
      else ([], indent)

/-- What the loop writes when it executes an event. -/
def execute (indentSize indent : BitVec 8) : Event → List Item × BitVec 8
  -- the string goes to the file as it is, and only then the line is ended
  | .endl str => (str.map .char ++ (direct indentSize indent .endl).1, indent)
  | .flush str => direct indentSize indent (.text str)
  | .catb => direct indentSize indent .catb
  | .cate => direct indentSize indent .cate
  | .other => ([], indent)

/-! ### The other thread -/

/-- `Signal` with `_buff.str()`, and `_buff.str("")`. -/
def Log.handOver (l : Log) (event : Bytes → Event) : Log :=
  { l with queue := l.queue ++ [event l.buff], buff := [] }

/-- `_buff << val`, and the call of `flush` when the buffer is too large. -/
def Log.append (l : Log) (val : Bytes) : Log :=
  let l := { l with buff := l.buff ++ val, written := l.written ++ val }
  if l.maxBuffer < l.buff.length then l.handOver .flush else l

def Log.work (l : Log) : Op → Log
  | .text val => l.append val
  | .int val => l.append (intText val)
  | .endl => { l.handOver .endl with written := l.written ++ [newline] }
  | .flush => l.handOver .flush
  | .catb => { l.handOver .flush with next := some .catb }
  | .cate => { l.handOver .flush with next := some .cate }

/-! ### Runs -/

inductive Action
  /-- The other thread makes a call, and `signal` is the second event of `catb` and `cate`. -/
  | work (op : Op)
  | signal
  /-- Some thread signals an event that has nothing to do with the log. -/
  | other
  | take
  | execute
  /-- The event-loop thread makes a call of its own. -/
  | direct (op : Op)
  deriving DecidableEq

def Log.put (l : Log) (written : List Item × BitVec 8) (worker : Bool) : Log :=
  { l with ostr := l.ostr ++ written.1.map fun item => (item, worker), indent := written.2 }

def step (l : Log) : Action → Option Log
  | .work op => if l.next = none then some (l.work op) else none
  | .signal => l.next.map fun e => { l with queue := l.queue ++ [e], next := none }
  | .other => some { l with queue := l.queue ++ [.other] }
  | .take =>
      match l.taken, l.queue with
      | none, e :: queue => some { l with queue := queue, taken := some e }
      | _, _ => none
  | .execute =>
      l.taken.map fun e =>
        { l.put (Logging.execute l.indentSize l.indent e) (e ≠ .other) with taken := none }
  | .direct op =>
      if l.taken = none ∨ l.taken = some .other then
        some (l.put (Logging.direct l.indentSize l.indent op) false)
      else none

/-- The log behind `open`. -/
def opened (maxBuffer : ℕ) (indentSize indent : BitVec 8) : Log :=
  ⟨maxBuffer, indentSize, indent, [(lineStart indentSize indent, false)], [], [], none, none, []⟩

/-- Everything a step can do. -/
inductive Moves (l : Log) : Action → Log → Prop
  | work (op : Op) (hnext : l.next = none) : Moves l (.work op) (l.work op)
  | signal {e : Event} (hnext : l.next = some e) :
      Moves l .signal { l with queue := l.queue ++ [e], next := none }
  | other : Moves l .other { l with queue := l.queue ++ [.other] }
  | take {e : Event} {queue : List Event} (htaken : l.taken = none)
      (hqueue : l.queue = e :: queue) : Moves l .take { l with queue := queue, taken := some e }
  | execute {e : Event} (htaken : l.taken = some e) :
      Moves l .execute
        { l.put (Logging.execute l.indentSize l.indent e) (e ≠ .other) with taken := none }
  | direct (op : Op) : Moves l (.direct op) (l.put (Logging.direct l.indentSize l.indent op) false)

theorem step_moves {l l' : Log} {action : Action} (hstep : step l action = some l') :
    Moves l action l' := by
  cases action with
  | work op =>
      obtain ⟨hnext, hl'⟩ := Option.ite_none_right_eq_some.mp hstep
      cases hl'
      exact .work op hnext
  | signal =>
      obtain ⟨e, hnext, rfl⟩ := Option.map_eq_some_iff.mp hstep
      exact .signal hnext
  | other =>
      cases hstep
      exact .other
  | take =>
      dsimp only [step] at hstep
      split at hstep
      · rename_i e queue htaken hqueue
        cases hstep
        exact .take htaken hqueue
      · cases hstep
  | execute =>
      obtain ⟨e, htaken, rfl⟩ := Option.map_eq_some_iff.mp hstep
      exact .execute htaken
  | direct op =>
      obtain ⟨-, hl'⟩ := Option.ite_none_right_eq_some.mp hstep
      cases hl'
      exact .direct op

end Networking.Sched.Logging
