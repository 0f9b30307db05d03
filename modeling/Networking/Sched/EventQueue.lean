import Networking.Lib.Condition
import Networking.Lib.Transition

/-!
# `EventQueue`

The event queue as a state machine. Any thread may push an event at any time; threads that have
called `Enter` take events from the queue and execute them. The critical sections under `_lock` are
one step each, and `_wait` releases the lock. What an event does apart from ending is left open: the
events it signals are pushed by steps of their own.
-/

namespace Networking.Sched

open Condition

variable {φ : Type}

structure Event (φ : Type) where
  name : String
  func : φ
  deriving DecidableEq

def noName : String := "no_name"

/-- Where a thread stands. `looping` is before the critical section of the loop, `parked` and
`notified` are in `_wait`, `leaving` has caught `FlowController`, and `undefined` has called `front`
on an empty queue. -/
inductive Pc (φ : Type)
  | outside
  | entering
  | looping
  | parked
  | notified
  | taken (e : Event φ)
  | executing (e : Event φ)
  | updating (e : Event φ)
  | leaving
  | undefined

/-- A thread, with its local variable `logging`. -/
structure Thread (φ : Type) where
  pc : Pc φ
  logging : Bool

inductive LogOp
  | catb (name : String)
  | cate
  deriving DecidableEq

/-- What happened to an event, for the record. -/
inductive Note (φ : Type)
  | began (e : Event φ)
  | returned (e : Event φ)
  | terminated (e : Event φ)
  | updated

/-- The queue, with the events ever pushed, the notes of the loop and what it has logged. -/
structure EventQueue (φ : Type) where
  queue : List (Event φ)
  thread : Option ℕ
  threads : List (Thread φ)
  log : List LogOp
  pushed : List (Event φ)
  notes : List (Note φ)

def EventQueue.init (n : ℕ) : EventQueue φ := ⟨[], none, .replicate n ⟨.outside, false⟩, [], [], []⟩

inductive Action (φ : Type)
  | push (e : Event φ)
  /-- A thread calls `enter`. Its variable `logging` is not initialized. -/
  | enter (i : ℕ) (logging : Bool)
  | run (i : ℕ) (verbEvent : Bool)
  | finish (i : ℕ) (terminates : Bool)
  /-- The update functor calls `Terminate`. -/
  | terminate (i : ℕ)
  | spurious (i : ℕ)

def Pc.Parked : Pc φ → Prop
  | .parked => True
  | _ => False

instance : DecidablePred (Pc.Parked (φ := φ))
  | .parked => .isTrue trivial
  | .outside | .entering | .looping | .notified | .taken _ | .executing _ | .updating _ | .leaving
  | .undefined => .isFalse id

def Thread.wake (t : Thread φ) : Thread φ := { t with pc := .notified }

/-- `front` and `pop_front`, with the lock held. -/
def pop (q : EventQueue φ) (i : ℕ) (t : Thread φ) : EventQueue φ :=
  match q.queue with
  | [] => { q with threads := q.threads.set i { t with pc := .undefined } }
  | e :: queue => { q with queue := queue, threads := q.threads.set i { t with pc := .taken e } }

def run (q : EventQueue φ) (i : ℕ) (t : Thread φ) (verbEvent : Bool) : Option (EventQueue φ) :=
  match t.pc with
  | .entering =>
      some { q with thread := some i, threads := q.threads.set i { t with pc := .looping } }
  | .looping =>
      if q.queue.length = 0 then
        some { q with threads := q.threads.set i { t with pc := .parked } }
      else
        some (pop q i t)
  -- the size was tested by an `if`: behind `_wait` nobody looks at it again
  | .notified => some (pop q i t)
  | .taken e =>
      let logs := e.name ≠ noName ∧ verbEvent
      some { q with
        log := if logs then q.log ++ [.catb e.name] else q.log
        threads := q.threads.set i ⟨.executing e, if logs then true else t.logging⟩
        notes := q.notes ++ [.began e] }
  | .updating _ =>
      some { q with
        threads := q.threads.set i { t with pc := .looping }
        notes := q.notes ++ [.updated] }
  | .leaving => some { q with thread := none, threads := q.threads.set i { t with pc := .outside } }
  | _ => none

def finish (q : EventQueue φ) (i : ℕ) (t : Thread φ) (terminates : Bool) :
    Option (EventQueue φ) :=
  match t.pc with
  | .executing e =>
      some { q with
        log := if t.logging then q.log ++ [.cate] else q.log
        threads := q.threads.set i ⟨if terminates then .leaving else .updating e, false⟩
        notes := q.notes ++ [if terminates then .terminated e else .returned e] }
  | _ => none

def terminate (q : EventQueue φ) (i : ℕ) (t : Thread φ) : Option (EventQueue φ) :=
  match t.pc with
  | .updating _ =>
      some { q with
        log := if t.logging then q.log ++ [.cate] else q.log
        threads := q.threads.set i ⟨.leaving, false⟩
        notes := q.notes ++ [.updated] }
  | _ => none

def step (q : EventQueue φ) : Action φ → Option (EventQueue φ)
  | .push e =>
      some { q with
        queue := q.queue ++ [e]
        threads := notifyAll (fun t => t.pc.Parked) Thread.wake q.threads
        pushed := q.pushed ++ [e] }
  | .enter i logging =>
      q.threads[i]?.bind fun t =>
        match t.pc with
        | .outside => some { q with threads := q.threads.set i ⟨.entering, logging⟩ }
        | _ => none
  | .run i verbEvent => q.threads[i]?.bind fun t => run q i t verbEvent
  | .finish i terminates => q.threads[i]?.bind fun t => finish q i t terminates
  | .terminate i => q.threads[i]?.bind fun t => terminate q i t
  | .spurious i =>
      q.threads[i]?.bind fun t =>
        match t.pc with
        | .parked => some { q with threads := q.threads.set i t.wake }
        | _ => none

end Networking.Sched
