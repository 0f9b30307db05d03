import Networking.Lib.Transition
import Networking.Sched.EventQueue

/-!
# SIGCHLD and the event loop

The event-loop thread in smaller steps, so that the handler of SIGCHLD may interrupt it at any of
them, also between locking and unlocking `_lock`. The handler runs on the thread it interrupts,
which does not go on before the handler returns, and it is not interrupted itself: `signal` blocks
SIGCHLD while its handler runs. Other threads may push events.
-/

namespace Networking.Sched.Signals

variable {φ : Type}

/-- What an event calls: what `handle_chld` signals, a line of the log or something else. -/
inductive Call (φ : Type)
  | death (pid : ℕ) (status : ℤ)
  | endl
  | other (func : φ)

/-- The stages of a critical section: before the lock, behind it and at its end. -/
inductive Stage
  | lock
  | held
  | unlock
  deriving DecidableEq

/-- Where the event-loop thread stands. It calls `push` from outside of `enter` or from an event,
which is `running` with all that follows it outside of the critical sections. -/
inductive Pc (φ : Type)
  | outside
  | push (stage : Stage) (e : Event (Call φ)) (inside : Bool)
  | enter (stage : Stage)
  | take (stage : Stage)
  | parked
  | notified
  | pop
  | running
  | leave (stage : Stage)
  | undefined

/-- The owner of `_lock`. The handler is told from the code it interrupts. -/
inductive Owner
  | loop
  | handler
  | thread (i : ℕ)
  deriving DecidableEq

/-- Where `handle_chld` stands: at `waitpid`, in the `push` of a line of the log, or in that of
`event_signal`. -/
inductive Handler
  | waitpid
  | log (locked : Bool) (pid : ℕ) (status : ℤ)
  | signal (locked : Bool) (pid : ℕ) (status : ℤ)
  deriving DecidableEq

/-- The scheduler, with the children that have terminated and not been waited for. `registered`
says that `_thread` is the event-loop thread. -/
structure State (φ : Type) where
  verbose : Bool
  pc : Pc φ
  registered : Bool
  lock : Option Owner
  queue : List (Event (Call φ))
  handler : Option Handler
  pending : Bool
  children : List (ℕ × ℤ)

def State.init (verbose : Bool) : State φ := ⟨verbose, .outside, false, none, [], none, false, []⟩

inductive Action (φ : Type)
  | push (e : Event (Call φ))
  | enter
  | run
  /-- The event returns, or it throws `FlowController`. -/
  | finish (terminates : Bool)
  | spurious
  | exit (pid : ℕ) (status : ℤ)
  | deliver
  /-- The handler goes on, at `waitpid` with the child that is found. -/
  | handle (child : ℕ)
  | threadLock (i : ℕ)
  | threadPush (i : ℕ) (e : Event (Call φ))

/-- `push_back` and `notify_all`. -/
def pushBack (s : State φ) (e : Event (Call φ)) : State φ :=
  { s with
    queue := s.queue ++ [e]
    pc := match s.pc with
      | .parked => .notified
      | pc => pc }

/-- The event-loop thread takes `_lock`, if nobody has it. -/
def acquire (s : State φ) (pc : Pc φ) : Option (State φ) :=
  if s.lock = none then some { s with lock := some .loop, pc := pc } else none

def release (s : State φ) (pc : Pc φ) : Option (State φ) :=
  some { s with lock := none, pc := pc }

def run (s : State φ) : Option (State φ) :=
  match s.pc with
  | .push .lock e inside => acquire s (.push .held e inside)
  | .push .held e inside => some (pushBack { s with pc := .push .unlock e inside } e)
  | .push .unlock _ inside => release s (if inside then .running else .outside)
  | .enter .lock => acquire s (.enter .held)
  | .enter .held => some { s with registered := true, pc := .enter .unlock }
  | .enter .unlock => release s (.take .lock)
  | .take .lock => acquire s (.take .held)
  | .take .held => if s.queue.length = 0 then release s .parked else some { s with pc := .pop }
  | .notified => acquire s .pop
  | .pop =>
      match s.queue with
      | [] => some { s with pc := .undefined }
      | _ :: queue => some { s with queue := queue, pc := .take .unlock }
  | .take .unlock => release s .running
  | .leave .lock => acquire s (.leave .held)
  | .leave .held => some { s with registered := false, pc := .leave .unlock }
  | .leave .unlock => release s .outside
  | _ => none

/-- `handle_chld`. A line of the log is written at once by the thread that is registered, and
signalled like an event by any other. -/
def handle (s : State φ) (child : ℕ) : Handler → Option (State φ)
  | .waitpid =>
      if s.children = [] then
        some { s with handler := none }
      else
        s.children[child]?.map fun (pid, status) =>
          { s with
            children := s.children.eraseIdx child
            handler := some (if s.verbose ∧ ¬s.registered then .log false pid status
              else .signal false pid status) }
  | .log false pid status =>
      if s.lock = none then
        some { s with lock := some .handler, handler := some (.log true pid status) }
      else
        none
  | .log true pid status =>
      some { pushBack s ⟨noName, .endl⟩ with
        lock := none
        handler := some (.signal false pid status) }
  | .signal false pid status =>
      if s.lock = none then
        some { s with lock := some .handler, handler := some (.signal true pid status) }
      else
        none
  | .signal true pid status =>
      some { pushBack s ⟨"&Agent::death", .death pid status⟩ with
        lock := none
        handler := some .waitpid }

/-- The event-loop thread goes on only when the handler does not run. -/
def ofLoop (s : State φ) (s' : Option (State φ)) : Option (State φ) :=
  if s.handler = none then s' else none

def step (s : State φ) : Action φ → Option (State φ)
  | .push e => ofLoop s <|
      match s.pc with
      | .outside => some { s with pc := .push .lock e false }
      | .running => some { s with pc := .push .lock e true }
      | _ => none
  | .enter => ofLoop s <|
      match s.pc with
      | .outside => some { s with pc := .enter .lock }
      | _ => none
  | .run => ofLoop s (run s)
  | .finish terminates => ofLoop s <|
      match s.pc with
      | .running => some { s with pc := if terminates then .leave .lock else .take .lock }
      | _ => none
  | .spurious =>
      match s.pc with
      | .parked => some { s with pc := .notified }
      | _ => none
  | .exit pid status => some { s with children := s.children ++ [(pid, status)], pending := true }
  | .deliver =>
      if s.handler = none ∧ s.pending then
        some { s with handler := some .waitpid, pending := false }
      else
        none
  | .handle child => s.handler.bind (handle s child)
  | .threadLock i => if s.lock = none then some { s with lock := some (.thread i) } else none
  | .threadPush i e =>
      if s.lock = some (.thread i) then some { pushBack s e with lock := none } else none

end Networking.Sched.Signals
