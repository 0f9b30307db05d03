import Networking.Lib.Condition
import Networking.Lib.Transition

/-!
# `threadpool`

The pool as a state machine. The critical sections under `_lock` are one step each, `_wait` releases
the lock, and a step may be taken by any thread whose turn it is. Tasks are of any type; what they
do apart from ending does not matter, since a task that puts others does it by a step of its own.
-/

namespace Networking.Pool

open Condition

/-- Where a worker stands: at the test of `_running`, before the critical section of `_take`, in
`_wait`, woken there but without the lock, executing a task, or done. -/
inductive Pc (τ : Type)
  | loop
  | take
  | parked
  | notified
  | exec (task : τ)
  | returned
  deriving DecidableEq

variable {τ : Type}

def Pc.Parked : Pc τ → Prop
  | .parked => True
  | _ => False

instance : DecidablePred (Pc.Parked (τ := τ))
  | .parked => .isTrue trivial
  | .loop | .take | .notified | .exec _ | .returned => .isFalse id

/-- A worker that `_waiting` counts: it is in `_wait`, or has not left it with the lock. -/
def Pc.waits : Pc τ → Bool
  | .parked | .notified => true
  | _ => false

/-- A pool, with the tasks ever put and the tasks ever handed out, for the record. -/
structure Threadpool (τ : Type) where
  threads : List (Pc τ)
  queue : List τ
  running : Bool
  nthreads : BitVec 8
  waiting : BitVec 8
  working : BitVec 8
  puts : List τ
  handed : List τ

def Threadpool.init (nthreads : BitVec 8) : Threadpool τ := ⟨[], [], true, nthreads, 0, 0, [], []⟩

inductive Action (τ : Type)
  /-- `put`, with the worker that `notify_one` wakes. -/
  | put (task : τ) (woken : Option ℕ)
  | run (i : ℕ)
  | spurious (i : ℕ)
  | stop

/-- `_take` with the lock held, at the test of its loop. -/
def take (p : Threadpool τ) (i : ℕ) : Threadpool τ :=
  match p.queue with
  | [] =>
      if p.running then
        { p with
          waiting := p.waiting + 1
          working := p.working - 1
          threads := p.threads.set i .parked }
      else
        { p with threads := p.threads.set i .loop }
  | task :: queue =>
      { p with
        queue := queue
        threads := p.threads.set i (.exec task)
        handed := p.handed ++ [task] }

def put (p : Threadpool τ) (task : τ) (woken : Option ℕ) : Option (Threadpool τ) :=
  -- a worker that is notified and does not have the lock yet still counts as waiting
  let threads :=
    if p.waiting = 0 ∧ p.threads.length < p.nthreads.toNat then p.threads ++ [.loop] else p.threads
  (notifyOne Pc.Parked (fun _ => .notified) threads woken).map fun threads =>
    { p with queue := p.queue ++ [task], threads := threads, puts := p.puts ++ [task] }

def step (p : Threadpool τ) : Action τ → Option (Threadpool τ)
  | .put task woken => put p task woken
  | .run i =>
      match p.threads[i]? with
      | some .loop =>
          some { p with threads := p.threads.set i (if p.running then .take else .returned) }
      | some .take => some (take p i)
      | some .notified =>
          -- the counters are set right before `_running` is tested again
          let p := { p with working := p.working + 1, waiting := p.waiting - 1 }
          some (if p.running then take p i else { p with threads := p.threads.set i .loop })
      | some (.exec _) => some { p with threads := p.threads.set i .loop }
      | _ => none
  | .spurious i =>
      match p.threads[i]? with
      | some .parked => some { p with threads := p.threads.set i .notified }
      | _ => none
  | .stop =>
      some { p with
        running := false
        threads := notifyAll Pc.Parked (fun _ => .notified) p.threads }

end Networking.Pool
