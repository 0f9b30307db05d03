import Networking.Lib.Fair
import Networking.Sched.Deadlock
import Networking.Sched.Reaping

/-!
# The scheduler from start to end

The constructor of the scheduler signals the event that writes the header of the log and one that
terminates, and enters the event queue on its own thread. There are no other threads, but SIGCHLD
may interrupt it anywhere. Its thread never waits for an event, and it returns unless the handler
waits for the lock of the thread. The deaths that are signalled too late are never called.
-/

namespace Networking.Sched.Signals.Startup

open Transition
open scoped List

/-- What the events of the constructor call. -/
inductive Func
  | logHeader
  | terminate

def logHeader : Event (Call Func) := ⟨"&Scheduler::logHeader", .other .logHeader⟩

def terminate : Event (Call Func) := ⟨noName, .other .terminate⟩

/-- A line that the thread writes to the log before it has entered the queue. -/
def callLine : Event (Call Func) := ⟨noName, .endl⟩

/-- The options that decide what the constructor signals. -/
structure Options where
  help : Bool
  kill : Bool
  shutdown : Bool
  reset : Bool

inductive Statement
  | signal (e : Event (Call Func))
  | enter

def statements (o : Options) : List Statement :=
  (if o.kill then [.signal callLine] else []) ++ (if o.shutdown then [.signal callLine] else [])
    ++ (if o.reset then [.signal callLine] else [])
    ++ [.signal logHeader, .signal terminate, .enter]

/-- The constructor from where it has parsed the command line. For `--help` it prints the options
and calls `exit`. -/
def scheduler (o : Options) : Option (List Statement) :=
  if o.help then none else some (statements o)

def Statement.action : Statement → Signals.Action Func
  | .signal e => .push e
  | .enter => .enter

/-- `Terminate` throws a `FlowController`. -/
def throws (e : Event (Call Func)) : Bool :=
  match e.func with
  | .other .terminate => true
  | _ => false

/-- The program, with the statements that are left of the constructor and the events that the loop
has taken. -/
structure Program where
  record : Record Func
  rest : List Statement
  taken : List (Event (Call Func))

def Program.start (verbose : Bool) (o : Options) : Option Program :=
  (scheduler o).map fun rest => ⟨.start verbose, rest, []⟩

inductive Action
  | call
  | run
  | finish
  | spurious
  | exit (pid : ℕ) (status : ℤ)
  | deliver
  | handle (child : ℕ)

def popped (s : State Func) : List (Event (Call Func)) :=
  match s.pc with
  | .pop => s.queue.take 1
  | _ => []

def Program.through (p : Program) (a : Signals.Action Func) : Option Program :=
  (recordStep p.record a).map fun r => { p with record := r }

def step (p : Program) : Action → Option Program
  | .call =>
      match p.rest with
      | [] => none
      | statement :: rest => { p with rest := rest }.through statement.action
  | .run => { p with taken := p.taken ++ popped p.record.state }.through .run
  | .finish => p.through (.finish (p.taken.getLast?.any throws))
  | .spurious => p.through .spurious
  | .exit pid status => p.through (.exit pid status)
  | .deliver => p.through .deliver
  | .handle child => p.through (.handle child)

def Program.Returned (p : Program) : Prop := p.rest = [] ∧ p.record.state.pc = .outside

/-- The event is none of a log line and none of the death of a child. -/
def own (e : Event (Call Func)) : Bool :=
  match e.func with
  | .other _ => true
  | _ => false

variable {p p₀ p' : Program} {s' : State Func} {e : Event (Call Func)} {rest rest' : List Statement}
  {taken taken' : List (Event (Call Func))} {exited : List (ℕ × ℤ)} {verbose : Bool} {o : Options}

/-! ### The order of the events -/

def Unthrown (taken : List (Event (Call Func))) : Prop := ∀ e ∈ taken, throws e = false

/-- The last event has been taken, and none before it has thrown. -/
def Handed (taken : List (Event (Call Func))) : Prop := ∃ before e, taken = before ++ [e]
  ∧ Unthrown before

/-- The last event has thrown. -/
def Thrown (taken : List (Event (Call Func))) : Prop := ∃ before e, taken = before ++ [e]
  ∧ Unthrown before ∧ throws e = true

/-- What is left of the constructor before it enters the queue. -/
def Before (rest : List Statement) : Prop :=
  ∃ events : List (Event (Call Func)), rest = events.map .signal ++ [.enter]

/-- The statements that are left, and the events that have been taken, at a point of the thread. -/
def At (rest : List Statement) (taken : List (Event (Call Func))) : Pc Func → Prop
  | .outside => taken = [] ∧ Before rest ∨ rest = [] ∧ Thrown taken
  | .push _ _ inside => inside = false ∧ taken = [] ∧ Before rest
  | .enter _ => rest = [] ∧ taken = []
  | .take .unlock | .running => rest = [] ∧ Handed taken
  | .take .lock | .take .held | .pop => rest = [] ∧ Unthrown taken
  | .leave _ => rest = [] ∧ Thrown taken
  | .parked | .notified | .undefined => False

/-- The event that is about to be pushed. -/
def pushing : Pc Func → List (Event (Call Func))
  | .push .lock e _ | .push .held e _ => [e]
  | _ => []

def Statement.event : Statement → Option (Event (Call Func))
  | .signal e => some e
  | .enter => none

def ahead (pc : Pc Func) (rest : List Statement) : List (Event (Call Func)) :=
  pushing pc ++ rest.filterMap Statement.event

structure Ordered (p : Program) : Prop where
  queue : p.taken ++ p.record.state.queue = p.record.pushed
  own : (p.record.pushed ++ ahead p.record.state.pc p.rest).filter own = [logHeader, terminate]
  point : At p.rest p.taken p.record.state.pc

theorem start_eq_some (h : Program.start verbose o = some p₀) :
    p₀ = ⟨.start verbose, statements o, []⟩ := by
  obtain ⟨rest, hrest, rfl⟩ := Option.map_eq_some_iff.mp h
  obtain ⟨-, hstatements⟩ := Option.ite_none_left_eq_some.mp hrest
  rw [Option.some.inj hstatements]

theorem ordered_start (h : Program.start verbose o = some p₀) : Ordered p₀ := by
  obtain rfl := start_eq_some h
  obtain ⟨help, kill, shutdown, reset⟩ := o
  refine ⟨rfl, ?_, .inl ⟨rfl, ?_⟩⟩
  · cases kill <;> cases shutdown <;> cases reset <;> rfl
  · refine ⟨(statements ⟨help, kill, shutdown, reset⟩).filterMap Statement.event, ?_⟩
    cases kill <;> cases shutdown <;> cases reset <;> rfl

theorem Ordered.next (h : Ordered p)
    (hqueue : taken' ++ s'.queue = p.taken ++ p.record.state.queue ++ appended p.record.state s')
    (hown : (appended p.record.state s' ++ ahead s'.pc rest').filter Startup.own
      = (ahead p.record.state.pc p.rest).filter Startup.own)
    (hpoint : At rest' taken' s'.pc) :
    Ordered ⟨⟨s', exited, p.record.pushed ++ appended p.record.state s'⟩, rest', taken'⟩ := by
  refine ⟨?_, ?_, hpoint⟩
  · rw [hqueue, h.queue]
  · rw [List.append_assoc, List.filter_append, hown, ← List.filter_append, h.own]

/-- A step that only appends other events than the constructor's. -/
theorem Ordered.quiet (h : Ordered p) {events : List (Event (Call Func))}
    (hpc : s'.pc = p.record.state.pc) (hqueue : s'.queue = p.record.state.queue ++ events)
    (hevents : events.filter Startup.own = []) :
    Ordered ⟨⟨s', exited, p.record.pushed ++ appended p.record.state s'⟩, p.rest, p.taken⟩ := by
  have happended : appended p.record.state s' = events := by
    rw [appended, hqueue, List.drop_left]
  refine h.next ?_ ?_ (hpc ▸ h.point)
  · rw [happended, hqueue, List.append_assoc]
  · rw [happended, hpc, List.filter_append, hevents, List.nil_append]

/-- A step of the thread that leaves the queue alone. -/
theorem Ordered.move (h : Ordered p) {pc : Pc Func} {registered : Bool} {lock : Option Owner}
    (hown : (ahead pc rest').filter Startup.own
      = (ahead p.record.state.pc p.rest).filter Startup.own)
    (hpoint : At rest' p.taken pc) :
    Ordered ⟨⟨{ p.record.state with pc := pc, registered := registered, lock := lock }, exited,
      p.record.pushed ++ appended p.record.state
        { p.record.state with pc := pc, registered := registered, lock := lock }⟩, rest',
      p.taken⟩ := by
  have hnone : appended p.record.state
      { p.record.state with pc := pc, registered := registered, lock := lock } = [] :=
    appended_of_length_le le_rfl
  refine h.next ?_ ?_ hpoint
  · rw [hnone, List.append_nil]
  · rw [hnone, List.nil_append]
    exact hown

theorem Ordered.queue_ne_nil (h : Ordered p) (hahead : ahead p.record.state.pc p.rest = [])
    (hunthrown : Unthrown p.taken) : p.record.state.queue ≠ [] := by
  intro hnil
  have hown := h.own
  have hqueue := h.queue
  rw [hnil, List.append_nil] at hqueue
  rw [hahead, List.append_nil, ← hqueue] at hown
  have hmem : terminate ∈ p.taken.filter Startup.own := by
    rw [hown]
    exact .tail _ (.head _)
  exact absurd (hunthrown _ (List.mem_filter.mp hmem).1) Bool.true_eq_false.mp

theorem popped_eq_nil (s : State Func) (hpop : s.pc ≠ .pop) : popped s = [] := by
  unfold popped
  split
  case h_1 hpc => exact absurd hpc hpop
  case h_2 => rfl

/-- A step of the thread within `push` or `enter` that neither pushes nor pops. -/
theorem Ordered.thread (h : Ordered p) {pc₀ pc : Pc Func} {registered : Bool} {lock : Option Owner}
    (hpc : p.record.state.pc = pc₀) (hpop : pc₀ ≠ .pop) (hpushing : pushing pc = pushing pc₀)
    (hpoint : At p.rest p.taken pc₀ → At p.rest p.taken pc) :
    Ordered ⟨⟨{ p.record.state with pc := pc, registered := registered, lock := lock }, exited,
      p.record.pushed ++ appended p.record.state
        { p.record.state with pc := pc, registered := registered, lock := lock }⟩, p.rest,
      p.taken ++ popped p.record.state⟩ := by
  subst hpc
  rw [popped_eq_nil _ hpop, List.append_nil]
  exact h.move (by rw [ahead, hpushing, ahead]) (hpoint h.point)

theorem Ordered.run (h : Ordered p) (hrun : Signals.run p.record.state = some s') :
    Ordered ⟨⟨s', exited, p.record.pushed ++ appended p.record.state s'⟩, p.rest,
      p.taken ++ popped p.record.state⟩ := by
  unfold Signals.run at hrun
  split at hrun
  case h_1 hpc =>
    obtain ⟨-, hrun⟩ := Option.ite_none_right_eq_some.mp hrun
    cases hrun
    exact h.thread hpc nofun rfl id
  case h_2 e inside hpc =>
    cases hrun
    have happended : appended p.record.state
        (pushBack { p.record.state with pc := .push .unlock e inside } e) = [e] :=
      appended_pushBack rfl
    rw [popped_eq_nil _ (hpc ▸ nofun), List.append_nil]
    refine h.next ?_ ?_ ?_
    · rw [happended, List.append_assoc]
      rfl
    · rw [happended, ahead, ahead, hpc]
      rfl
    · have hpoint := h.point
      rw [hpc] at hpoint
      exact hpoint
  case h_3 inside hpc =>
    cases hrun
    refine h.thread hpc nofun (by cases inside <;> rfl) ?_
    rintro ⟨rfl, hnil, hbefore⟩
    exact .inl ⟨hnil, hbefore⟩
  case h_4 hpc =>
    obtain ⟨-, hrun⟩ := Option.ite_none_right_eq_some.mp hrun
    cases hrun
    exact h.thread hpc nofun rfl id
  case h_5 hpc =>
    cases hrun
    exact h.thread hpc nofun rfl id
  case h_6 hpc =>
    cases hrun
    refine h.thread hpc nofun rfl ?_
    rintro ⟨hrest, hnil⟩
    exact ⟨hrest, hnil ▸ nofun⟩
  case h_7 hpc =>
    obtain ⟨-, hrun⟩ := Option.ite_none_right_eq_some.mp hrun
    cases hrun
    exact h.thread hpc nofun rfl id
  case h_8 hpc =>
    have hpoint := h.point
    rw [hpc] at hpoint
    have hne : p.record.state.queue.length ≠ 0 := by
      refine fun hnil => h.queue_ne_nil ?_ hpoint.2 (List.eq_nil_of_length_eq_zero hnil)
      rw [ahead, hpc, hpoint.1]
      rfl
    rw [if_neg hne] at hrun
    cases hrun
    exact h.thread hpc nofun rfl id
  case h_9 hpc =>
    have hpoint := h.point
    rw [hpc] at hpoint
    exact hpoint.elim
  case h_10 hpc =>
    have hpoint := h.point
    rw [hpc] at hpoint
    obtain ⟨hrest, hunthrown⟩ := hpoint
    split at hrun
    case h_1 hnil =>
      refine absurd hnil (h.queue_ne_nil ?_ hunthrown)
      rw [ahead, hpc, hrest]
      rfl
    case h_2 e queue hqueue =>
      cases hrun
      have happended : appended p.record.state
          { p.record.state with queue := queue, pc := .take .unlock } = [] := by
        apply appended_of_length_le
        rw [hqueue]
        exact Nat.le_succ _
      have hpopped : popped p.record.state = [e] := by
        rw [popped, hpc, hqueue]
        rfl
      refine h.next ?_ ?_ ?_
      · rw [happended, hpopped, hqueue, List.append_assoc, List.append_nil]
        rfl
      · rw [happended, ahead, ahead, hpc]
        rfl
      · rw [hpopped]
        exact ⟨hrest, _, e, rfl, hunthrown⟩
  case h_11 hpc =>
    cases hrun
    exact h.thread hpc nofun rfl id
  case h_12 hpc =>
    obtain ⟨-, hrun⟩ := Option.ite_none_right_eq_some.mp hrun
    cases hrun
    exact h.thread hpc nofun rfl id
  case h_13 hpc =>
    cases hrun
    exact h.thread hpc nofun rfl id
  case h_14 hpc =>
    cases hrun
    exact h.thread hpc nofun rfl .inr
  case h_15 => cases hrun

theorem pushBack_pc (s : State Func) (e : Event (Call Func)) (hpc : s.pc ≠ .parked) :
    (pushBack s e).pc = s.pc := by
  unfold pushBack
  dsimp only
  split
  case h_1 hparked => exact absurd hparked hpc
  case h_2 => rfl

theorem Ordered.not_parked (h : Ordered p) : p.record.state.pc ≠ .parked :=
  fun hpc => (hpc ▸ h.point : At p.rest p.taken .parked)

/-- The handler finds a child or none, takes the lock or gives it back, and pushes events that are
not the constructor's. -/
theorem Ordered.handle (h : Ordered p) {child : ℕ} {handler : Handler}
    (hhandle : Signals.handle p.record.state child handler = some s') :
    Ordered ⟨⟨s', exited, p.record.pushed ++ appended p.record.state s'⟩, p.rest, p.taken⟩ := by
  unfold Signals.handle at hhandle
  split at hhandle
  case h_1 =>
    by_cases hnone : p.record.state.children = []
    · rw [if_pos hnone] at hhandle
      cases hhandle
      exact h.quiet rfl (List.append_nil _).symm rfl
    · rw [if_neg hnone] at hhandle
      obtain ⟨c, -, rfl⟩ := Option.map_eq_some_iff.mp hhandle
      exact h.quiet rfl (List.append_nil _).symm rfl
  case h_2 | h_4 =>
    obtain ⟨-, hhandle⟩ := Option.ite_none_right_eq_some.mp hhandle
    cases hhandle
    exact h.quiet rfl (List.append_nil _).symm rfl
  case h_3 =>
    cases hhandle
    exact h.quiet (pushBack_pc _ ⟨noName, .endl⟩ h.not_parked) rfl rfl
  case h_5 pid status =>
    cases hhandle
    exact h.quiet (pushBack_pc _ ⟨"&Agent::death", .death pid status⟩ h.not_parked) rfl rfl

theorem Ordered.call (h : Ordered p) {statement : Statement} (hrest : p.rest = statement :: rest)
    (hstep : Signals.step p.record.state statement.action = some s') :
    Ordered ⟨⟨s', exited, p.record.pushed ++ appended p.record.state s'⟩, rest, p.taken⟩ := by
  have hpoint := h.point
  cases statement with
  | signal e =>
      obtain ⟨-, hstep⟩ := ofLoop_eq_some hstep
      split at hstep
      case h_1 hpc =>
        cases hstep
        rw [hpc, hrest] at hpoint
        obtain ⟨hnil, events, hevents⟩ | ⟨habsurd, -⟩ := hpoint
        · cases events with
          | nil => cases hevents
          | cons e' events =>
              obtain ⟨⟨⟩, rfl⟩ := List.cons.inj hevents
              exact h.move (by rw [hpc, hrest]; rfl) ⟨rfl, hnil, events, rfl⟩
        · cases habsurd
      case h_2 hpc =>
        rw [hpc, hrest] at hpoint
        cases hpoint.1
      case h_3 => cases hstep
  | enter =>
      obtain ⟨-, hstep⟩ := ofLoop_eq_some hstep
      split at hstep
      case h_1 hpc =>
        cases hstep
        rw [hpc, hrest] at hpoint
        obtain ⟨hnil, events, hevents⟩ | ⟨habsurd, -⟩ := hpoint
        · cases events with
          | nil =>
              obtain ⟨-, rfl⟩ := List.cons.inj hevents
              exact h.move (by rw [hpc, hrest]; rfl) ⟨rfl, hnil⟩
          | cons e' events => cases hevents
        · cases habsurd
      case h_2 => cases hstep

theorem Ordered.finish (h : Ordered p)
    (hstep : Signals.step p.record.state (.finish (p.taken.getLast?.any throws)) = some s') :
    Ordered ⟨⟨s', exited, p.record.pushed ++ appended p.record.state s'⟩, p.rest, p.taken⟩ := by
  have hpoint := h.point
  obtain ⟨-, hstep⟩ := ofLoop_eq_some hstep
  split at hstep
  case h_1 hpc =>
    cases hstep
    rw [hpc] at hpoint
    obtain ⟨hrest, before, e, htaken, hunthrown⟩ := hpoint
    have hlast : p.taken.getLast?.any throws = throws e := by
      rw [htaken, List.getLast?_concat, Option.any_some]
    rw [hlast]
    cases hthrows : throws e with
    | true =>
        exact h.move (by rw [hpc]; rfl) ⟨hrest, before, e, htaken, hunthrown, hthrows⟩
    | false =>
        refine h.move (by rw [hpc]; rfl) ⟨hrest, ?_⟩
        rw [htaken]
        exact List.forall_mem_append.mpr ⟨hunthrown, List.forall_mem_singleton.mpr hthrows⟩
  case h_2 => cases hstep

theorem through_eq_some {a : Signals.Action Func} (h : p.through a = some p') :
    ∃ s', Signals.step p.record.state a = some s'
      ∧ p' = ⟨⟨s', p.record.exited ++ a.exited, p.record.pushed ++ appended p.record.state s'⟩,
        p.rest, p.taken⟩ := by
  obtain ⟨r, hr, rfl⟩ := Option.map_eq_some_iff.mp h
  obtain ⟨s', hs, rfl⟩ := Option.map_eq_some_iff.mp hr
  exact ⟨s', hs, rfl⟩

theorem Ordered.step {a : Action} (h : Ordered p) (hstep : Startup.step p a = some p') :
    Ordered p' := by
  cases a with
  | call =>
      rw [Startup.step] at hstep
      split at hstep
      case h_1 => cases hstep
      case h_2 statement rest hrest =>
        obtain ⟨s', hs, rfl⟩ := through_eq_some hstep
        exact h.call hrest hs
  | run =>
      obtain ⟨s', hs, rfl⟩ := through_eq_some (a := .run) hstep
      exact h.run (ofLoop_eq_some hs).2
  | finish =>
      obtain ⟨s', hs, rfl⟩ := through_eq_some hstep
      exact h.finish hs
  | spurious =>
      obtain ⟨s', hs, rfl⟩ := through_eq_some hstep
      rw [Signals.step] at hs
      split at hs
      case h_1 hparked => exact absurd hparked h.not_parked
      case h_2 => cases hs
  | exit pid status =>
      obtain ⟨s', hs, rfl⟩ := through_eq_some hstep
      cases hs
      exact h.quiet rfl (List.append_nil _).symm rfl
  | deliver =>
      obtain ⟨s', hs, rfl⟩ := through_eq_some hstep
      obtain ⟨-, hs⟩ := Option.ite_none_right_eq_some.mp hs
      cases hs
      exact h.quiet rfl (List.append_nil _).symm rfl
  | handle child =>
      obtain ⟨s', hs, rfl⟩ := through_eq_some hstep
      obtain ⟨handler, -, hhandle⟩ := Option.bind_eq_some_iff.mp hs
      exact h.handle hhandle

/-! ### The whole program -/

theorem ordinary_of_mem {statement : Statement} (h : statement ∈ statements o) :
    statement.action.Ordinary := by
  obtain ⟨help, kill, shutdown, reset⟩ := o
  have hall : ∀ statement ∈ statements ⟨help, kill, shutdown, reset⟩, statement = .enter
      ∨ ∃ e, statement = .signal e ∧ death e = none := by
    cases kill <;> cases shutdown <;> cases reset <;> simp [statements, callLine, logHeader,
      terminate, death]
  obtain rfl | ⟨e, rfl, he⟩ := hall statement h
  · trivial
  · exact he

theorem record_of_through {a : Signals.Action Func} (h : p.through a = some p') :
    p'.rest = p.rest ∧ recordStep p.record a = some p'.record := by
  obtain ⟨r, hr, rfl⟩ := Option.map_eq_some_iff.mp h
  exact ⟨rfl, hr⟩

/-- What a step of the program is for the thread, its handler and the lock. -/
def Action.signals (p : Program) : Action → Option (Signals.Action Func)
  | .call => p.rest.head?.map Statement.action
  | .run => some .run
  | .finish => some (.finish (p.taken.getLast?.any throws))
  | .spurious => some .spurious
  | .exit pid status => some (.exit pid status)
  | .deliver => some .deliver
  | .handle child => some (.handle child)

theorem recordStep_of_step {a : Action} (hstep : step p a = some p') :
    p'.rest <:+ p.rest ∧ ∃ act, a.signals p = some act
      ∧ recordStep p.record act = some p'.record := by
  cases a with
  | call =>
      rw [step] at hstep
      split at hstep
      case h_1 => cases hstep
      case h_2 statement rest hnext =>
        obtain ⟨hsame, hr⟩ := record_of_through hstep
        rw [Action.signals, hnext, hsame]
        exact ⟨List.suffix_cons _ _, _, rfl, hr⟩
  | run =>
      obtain ⟨hsame, hr⟩ := record_of_through (a := .run) hstep
      exact ⟨hsame ▸ List.suffix_refl _, _, rfl, hr⟩
  | finish | spurious | exit pid status | deliver | handle child =>
      obtain ⟨hsame, hr⟩ := record_of_through hstep
      exact ⟨hsame ▸ List.suffix_refl _, _, rfl, hr⟩

theorem ordinary_of_signals {a : Action} {act : Signals.Action Func}
    (hrest : p.rest <:+ statements o) (h : a.signals p = some act) :
    act.Ordinary ∧ ∀ i, act ≠ .threadLock i := by
  cases a with
  | call =>
      obtain ⟨statement, hhead, rfl⟩ := Option.map_eq_some_iff.mp h
      refine ⟨ordinary_of_mem (hrest.mem (List.mem_of_head? hhead)), ?_⟩
      cases statement <;> nofun
  | run | finish | spurious | exit pid status | deliver | handle child =>
      cases h
      exact ⟨trivial, nofun⟩

/-- No other thread takes the lock. -/
theorem lock_of_step {s s' : State Func} {act : Signals.Action Func}
    (hact : ∀ i, act ≠ .threadLock i) (hstep : Signals.step s act = some s')
    (hfree : ∀ i, s.lock ≠ some (.thread i)) : ∀ i, s'.lock ≠ some (.thread i) := by
  cases act with
  | push e | enter | finish terminates =>
      obtain ⟨-, hstep⟩ := ofLoop_eq_some hstep
      split at hstep <;> cases hstep <;> exact hfree
  | run =>
      intro i hlock
      rcases (LoopStep.of_run (ofLoop_eq_some hstep).2).lock with ⟨-, h, -⟩ | ⟨-, h, -⟩ | ⟨h, -⟩
      · cases h.symm.trans hlock
      · cases h.symm.trans hlock
      · exact hfree i (h.symm.trans hlock)
  | spurious =>
      rw [Signals.step] at hstep
      split at hstep <;> cases hstep
      exact hfree
  | exit pid status =>
      cases hstep
      exact hfree
  | deliver =>
      obtain ⟨-, hstep⟩ := Option.ite_none_right_eq_some.mp hstep
      cases hstep
      exact hfree
  | handle child =>
      obtain ⟨handler, -, hhandle⟩ := Option.bind_eq_some_iff.mp hstep
      intro i hlock
      cases HandlerStep.of_handle hhandle with
      | done _ _ h | found _ _ h => exact hfree i (h.symm.trans hlock)
      | lock _ _ h | unlock _ h => cases h.symm.trans hlock
  | threadLock i => exact absurd rfl (hact i)
  | threadPush i e =>
      obtain ⟨-, hstep⟩ := Option.ite_none_right_eq_some.mp hstep
      cases hstep
      intro j hlock
      cases hlock

/-- What holds of the program throughout. -/
structure Inv (o : Options) (p : Program) : Prop where
  ordered : Ordered p
  rest : p.rest <:+ statements o
  accounted : p.record.Accounted
  lock : Invariant p.record.state
  free : ∀ i, p.record.state.lock ≠ some (.thread i)

theorem inv_start (h : Program.start verbose o = some p₀) : Inv o p₀ := by
  have hordered := ordered_start h
  obtain rfl := start_eq_some h
  exact ⟨hordered, List.suffix_refl _, accounted_start verbose, invariant_init verbose, nofun⟩

theorem Inv.step {a : Action} (h : Inv o p) (hstep : Startup.step p a = some p') : Inv o p' := by
  obtain ⟨hrest, act, hsignals, hrecord⟩ := recordStep_of_step hstep
  obtain ⟨hordinary, hact⟩ := ordinary_of_signals h.rest hsignals
  obtain ⟨s', hs, hr⟩ := Option.map_eq_some_iff.mp hrecord
  have hlock : Invariant p'.record.state := by
    rw [← hr]
    exact h.lock.step hs
  have hfree : ∀ i, p'.record.state.lock ≠ some (.thread i) := by
    rw [← hr]
    exact lock_of_step hact hs h.free
  exact ⟨h.ordered.step hstep, hrest.trans h.rest, h.accounted.step hordinary hrecord, hlock,
    hfree⟩

theorem reaches_inv (hstart : Program.start verbose o = some p₀)
    {allowed : Program → Action → Prop} (hreach : Reaches step allowed p₀ p) : Inv o p :=
  hreach.invariant (inv_start hstart) fun _ _ _ h _ hstep => h.step hstep

theorem own_of_throws (h : throws e = true) : own e = true := by
  unfold throws at h
  unfold own
  split at h
  case h_1 hfunc => rw [hfunc]
  case h_2 => cases h

theorem append_cons_eq_pair {α : Type*} {l r : List α} {x a b : α} (h : l ++ x :: r = [a, b]) :
    x = a ∨ l = [a] ∧ x = b ∧ r = [] := by
  cases l with
  | nil => exact .inl (List.cons.inj h).1
  | cons y l =>
      obtain ⟨rfl, hrest⟩ := List.cons.inj h
      cases l with
      | nil =>
          obtain ⟨rfl, rfl⟩ := List.cons.inj hrest
          exact .inr ⟨rfl, rfl, rfl⟩
      | cons z l =>
          have hlength := congrArg List.length hrest
          simp at hlength

/-- When the constructor has returned, its events have been taken. -/
theorem Ordered.returned (h : Ordered p) (hreturned : p.Returned) : ∃ before between,
    p.taken = before ++ logHeader :: (between ++ [terminate])
      ∧ ∀ e ∈ before ++ between ++ p.record.state.queue, Startup.own e = false := by
  obtain ⟨hrest, hpc⟩ := hreturned
  have hown := h.own
  have hpoint := h.point
  rw [← h.queue, hpc, hrest] at hown
  rw [hpc, hrest] at hpoint
  obtain ⟨-, events, habsurd⟩ | ⟨-, taken, e, htaken, -, hthrows⟩ := hpoint
  · exact absurd habsurd.symm (List.append_ne_nil_of_right_ne_nil _ (List.cons_ne_nil _ _))
  have hnone : ahead Pc.outside [] = [] := rfl
  rw [htaken, hnone, List.append_nil, List.filter_append, List.filter_append, List.filter_singleton,
    own_of_throws hthrows, cond_true, List.append_assoc, List.singleton_append] at hown
  rcases append_cons_eq_pair hown with rfl | ⟨hfront, rfl, hqueue⟩
  · cases hthrows
  · obtain ⟨before, between, rfl, hbefore, -, hbetween⟩ := List.filter_eq_cons_iff.mp hfront
    refine ⟨before, between, by rw [htaken, List.append_assoc, List.cons_append], ?_⟩
    rw [List.filter_eq_nil_iff] at hbetween hqueue
    intro e he
    rcases List.mem_append.mp he with he | he
    · rcases List.mem_append.mp he with he | he
      · exact Bool.eq_false_of_not_eq_true (hbefore e he)
      · exact Bool.eq_false_of_not_eq_true (hbetween e he)
    · exact Bool.eq_false_of_not_eq_true (hqueue e he)

/-- **The scheduler from start to end.** In every state that the program reaches, wherever SIGCHLD
interrupts it, its thread does not wait for an event and has not called `front` on an empty queue,
and the events pushed are those it has taken and those in the queue. When the constructor has
returned, it has taken the event of the header and later the one that terminates, and beside these
only lines of the log and the deaths that were signalled before the latter. For each child that has
exited, the event of its death has been taken, or it is behind the last one taken, or the handler
has it in hand, or nobody has waited for the child. -/
theorem taken_of_reaches (hstart : Program.start verbose o = some p₀)
    (hreach : Reaches step (fun _ _ => True) p₀ p) :
    (p.record.state.pc ≠ .parked ∧ p.record.state.pc ≠ .undefined)
      ∧ p.taken ++ p.record.state.queue = p.record.pushed
      ∧ (p.Returned → ∃ before between,
        p.taken = before ++ logHeader :: (between ++ [terminate])
          ∧ ∀ e ∈ before ++ between ++ p.record.state.queue, own e = false)
      ∧ p.record.exited ~ p.taken.filterMap death ++ (p.record.state.queue.filterMap death
        ++ p.record.state.inHand ++ p.record.state.children) := by
  have h := reaches_inv hstart hreach
  refine ⟨⟨h.ordered.not_parked, fun hpc => ?_⟩, h.ordered.queue, h.ordered.returned, ?_⟩
  · exact (hpc ▸ h.ordered.point : At p.rest p.taken .undefined)
  · have hexited := h.accounted.exited
    rw [Record.deaths, ← h.ordered.queue, List.filterMap_append] at hexited
    simpa only [List.append_assoc] using hexited

/-- A child exits, and the handler signals its death. -/
def exits (pid : ℕ) : List Action :=
  [.exit pid 0, .deliver, .handle 0, .handle 0, .handle 0, .handle 0]

/-- One child exits before the constructor signals anything, the other while the loop runs. -/
def twoExits : List Action :=
  [exits 7, [.call, .run, .run, .run], [.call, .run, .run, .run], [.call, .run, .run, .run],
    [.run, .run, .run, .run, .finish], exits 8, [.run, .run, .run, .run, .finish],
    [.run, .run, .run, .run, .finish], [.run, .run, .run]].flatten

/-- The death of the second child is never called. -/
theorem taken_of_reaches_sample :
    ∃ p₀, Program.start false ⟨false, false, false, false⟩ = some p₀
      ∧ ∃ p, Reaches step (fun _ _ => True) p₀ p ∧ p.Returned
        ∧ p.taken.filterMap death = [(7, 0)] ∧ p.record.state.queue.filterMap death = [(8, 0)]
        ∧ ((p.record.state.pc ≠ .parked ∧ p.record.state.pc ≠ .undefined)
          ∧ p.taken ++ p.record.state.queue = p.record.pushed
          ∧ (p.Returned → ∃ before between,
            p.taken = before ++ logHeader :: (between ++ [terminate])
              ∧ ∀ e ∈ before ++ between ++ p.record.state.queue, own e = false)
          ∧ p.record.exited ~ p.taken.filterMap death ++ (p.record.state.queue.filterMap death
            ++ p.record.state.inHand ++ p.record.state.children)) := by
  have hreach : Reaches step (fun _ _ => True)
      ⟨.start false, statements ⟨false, false, false, false⟩, []⟩ _ :=
    reaches_of_follow twoExits rfl
  exact ⟨_, rfl, _, hreach, ⟨rfl, rfl⟩, rfl, rfl,
    taken_of_reaches (o := ⟨false, false, false, false⟩) rfl hreach⟩

end Networking.Sched.Signals.Startup
