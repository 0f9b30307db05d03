import Networking.Sched.EventQueue
import Networking.Sched.Log

/-!
# The marks of `enter`

`enter` opens a category for an event that it logs and closes it when the event is over, also when
the event has called `Terminate`. Whether there is one to close is in the local variable `logging`,
which is set when a category is opened and reset when it is closed, but not at the start.
-/

namespace Networking.Sched.Entering

open Transition Wire
open Logging (Op Item direct)

/-- `Scheduler::verb_event()`, from `_verbose`. -/
def verbEvent (verbose : BitVec 32) : Bool := verbose &&& 0x40 ≠ 0

/-- What an event or the update functor does: its calls on the log, what it makes of `_verbose`, and
whether it calls `Terminate` in the end. -/
structure Body where
  ops : List Op
  verbose : BitVec 32 → BitVec 32
  terminates : Bool

/-- An event that is taken from the queue, and `func` behind it. -/
structure Round where
  name : String
  event : Body
  func : Body

/-- What `enter` does, one after the other. -/
inductive Call
  | taken (name : String)
  /-- `"EVENT_START[ "` and what follows it, up to `catb`. -/
  | start (name : String)
  | work (ops : List Op)
  | cate
  | returned

/-- The handler of `FlowController`, and the end of `enter`. -/
def leave (logging : Bool) : List Call := (if logging then [.cate] else []) ++ [.returned]

def Logs (name : String) (verbose : BitVec 32) : Prop := name ≠ noName ∧ verbEvent verbose = true

instance (name : String) (verbose : BitVec 32) : Decidable (Logs name verbose) :=
  inferInstanceAs (Decidable (_ ∧ _))

/-- A round from the call of the event on, with what follows the round. -/
def finish (logging : Bool) (r : Round) (calls : List Call) : List Call :=
  .work r.event.ops ::
    if r.event.terminates then leave logging
    else (if logging then [.cate] else []) ++ .work r.func.ops ::
      if r.func.terminates then leave false else calls

/-- The event loop. When there is no event left, it waits. -/
def loop : Bool → BitVec 32 → List Round → List Call
  | _, _, [] => []
  | logging, verbose, r :: rounds =>
      let logs := Logs r.name verbose
      let logging := if logs then true else logging
      .taken r.name :: ((if logs then [.start r.name] else [])
        ++ finish logging r (loop false (r.func.verbose (r.event.verbose verbose)) rounds))

/-- The calls on the log that belong to one of `enter`. -/
def Call.ops : Call → List Op
  | .start name => [.text (ofString "EVENT_START[ "), .text (ofString name),
      .text (ofString " ] "), .catb]
  | .work ops => ops
  | .cate => [.cate]
  | .taken _ | .returned => []

/-- What the calls write, and `_indent` behind them. -/
def written (indentSize indent : BitVec 8) (ops : List Op) : List Item × BitVec 8 :=
  ops.foldl (fun (items, indent) op =>
    (items ++ (direct indentSize indent op).1, (direct indentSize indent op).2)) ([], indent)

structure Run where
  calls : List Call
  ostr : List Item
  indent : BitVec 8

/-- `enter`, where the memory of `logging` holds some byte. -/
def enter (indentSize indent : BitVec 8) (memory : Byte) (verbose : BitVec 32)
    (rounds : List Round) : Run :=
  let calls := loop (memory ≠ 0) verbose rounds
  let (ostr, indent) := written indentSize indent (calls.flatMap Call.ops)
  ⟨calls, ostr, indent⟩

/-- Whether a category is open that `enter` has opened. None may be when the next event is taken and
when `enter` returns, and one that is closed has to be open. -/
def pair : Bool → Call → Option Bool
  | pending, .taken _ => if pending then none else some false
  | pending, .start _ => if pending then none else some true
  | pending, .work _ => some pending
  | pending, .cate => if pending then some false else none
  | pending, .returned => if pending then none else some false

/-- Each category that `enter` opens is closed once, in time, and nothing else is closed. -/
def Paired (calls : List Call) : Prop := calls.foldlM pair false = some false

variable {logging pending : Bool} {verbose : BitVec 32} {rounds : List Round} {r : Round}
  {indentSize indent : BitVec 8} {calls : List Call}

/-! ### The pairs -/

theorem foldlM_leave (logging : Bool) : (leave logging).foldlM pair logging = some false := by
  cases logging <;> rfl

/-- A category that is open when the event is called is closed behind it. -/
theorem foldlM_finish (logging : Bool) (r : Round) (hrest : calls.foldlM pair false = some false) :
    (finish logging r calls).foldlM pair logging = some false := by
  rw [finish]
  cases hevent : r.event.terminates with
  | true => exact foldlM_leave logging
  | false =>
      cases hfunc : r.func.terminates with
      | true => cases logging <;> rfl
      | false => cases logging <;> exact hrest

theorem foldlM_loop (hlogging : logging = true → ∀ r ∈ rounds.head?, Logs r.name verbose) :
    (loop logging verbose rounds).foldlM pair false = some false := by
  induction rounds generalizing logging verbose with
  | nil => rfl
  | cons r rounds ih =>
      have hrest : (loop false (r.func.verbose (r.event.verbose verbose)) rounds).foldlM pair false
          = some false := ih nofun
      by_cases hlogs : Logs r.name verbose
      · simp only [loop, if_pos hlogs]
        exact foldlM_finish true r hrest
      · have hfalse : logging = false := by
          rw [← Bool.not_eq_true]
          exact fun htrue => hlogs (hlogging htrue r rfl)
        simp only [loop, if_neg hlogs, hfalse]
        exact foldlM_finish false r hrest

/-- A category is closed that nobody has opened. -/
theorem foldlM_loop_of_not_logs (hlogs : ¬Logs r.name verbose) (rounds : List Round) :
    (loop true verbose (r :: rounds)).foldlM pair false = none := by
  simp only [loop, if_neg hlogs, finish]
  cases hevent : r.event.terminates with
  | true => rfl
  | false => rfl

/-- **`enter` closes what it opens** and nothing else exactly if `logging` is false at the start, or
no event is taken, or the first event is logged. -/
theorem paired_iff (indentSize indent : BitVec 8) (memory : Byte) (verbose : BitVec 32)
    (rounds : List Round) : Paired (enter indentSize indent memory verbose rounds).calls
      ↔ memory = 0 ∨ ∀ r ∈ rounds.head?, Logs r.name verbose := by
  have hcalls : (enter indentSize indent memory verbose rounds).calls
      = loop (memory ≠ 0) verbose rounds := rfl
  rw [hcalls, Paired]
  by_cases hmemory : memory = 0
  · refine iff_of_true (foldlM_loop fun htrue => ?_) (.inl hmemory)
    exact absurd hmemory (of_decide_eq_true htrue)
  · rw [or_iff_right hmemory, decide_eq_true hmemory]
    constructor
    · rintro h r hr
      by_contra hlogs
      obtain ⟨rounds', rfl⟩ := List.head?_eq_some_iff.mp hr
      rw [foldlM_loop_of_not_logs hlogs] at h
      cases h
    · exact fun hfirst => foldlM_loop fun _ => hfirst

/-- The flag is set by chance, and the first event has no name. It is in a category of its caller,
which is closed with it. -/
theorem not_paired_unnamed :
    ¬Paired
        (enter 2 1 1 0x40 [⟨noName, ⟨[.text (ofString "hi")], id, false⟩, ⟨[], id, true⟩⟩]).calls
      ∧ (enter 2 1 1 0x40 [⟨noName, ⟨[.text (ofString "hi")], id, false⟩, ⟨[], id, true⟩⟩]).indent
        = 0 := by
  refine ⟨fun h => ?_, rfl⟩
  cases h

/-! ### The indentation -/

def indentBehind (indentSize indent : BitVec 8) (ops : List Op) : BitVec 8 :=
  ops.foldl (fun indent op => (direct indentSize indent op).2) indent

theorem written_snd (indentSize indent : BitVec 8) (ops : List Op) :
    (written indentSize indent ops).2 = indentBehind indentSize indent ops := by
  have hfold : ∀ (items : List Item) (indent : BitVec 8), (ops.foldl (fun (items, indent) op =>
      (items ++ (direct indentSize indent op).1, (direct indentSize indent op).2))
        (items, indent)).2 = indentBehind indentSize indent ops := by
    induction ops with
    | nil => exact fun _ _ => rfl
    | cons op ops ih => exact fun _ _ => ih _ _
  exact hfold [] indent

theorem indentBehind_append (indentSize indent : BitVec 8) (ops ops' : List Op) :
    indentBehind indentSize indent (ops ++ ops')
      = indentBehind indentSize (indentBehind indentSize indent ops) ops' := List.foldl_append

/-- `_indent` inside and outside of the category of an event. -/
def level (indent : BitVec 8) (pending : Bool) : BitVec 8 := if pending then indent + 1 else indent

/-- The calls leave the categories open that are open. -/
def Keeps (indentSize indent : BitVec 8) (ops : List Op) : Prop :=
  ∀ pending, indentBehind indentSize (level indent pending) ops = level indent pending

theorem indentBehind_call {c : Call} {pending' : Bool} (hindent : indent.toNat < 255)
    (hwork : ∀ ops, c = .work ops → Keeps indentSize indent ops)
    (hpair : pair pending c = some pending') :
    indentBehind indentSize (level indent pending) c.ops = level indent pending' := by
  cases c with
  | work ops =>
      cases hpair
      exact hwork ops rfl pending
  | taken name | start name | returned =>
      cases pending <;> cases hpair
      rfl
  | cate =>
      cases pending <;> cases hpair
      have hpos : 0 < indent + 1 := by
        bv_omega
      change (direct indentSize (indent + 1) .cate).2 = indent
      rw [direct, if_pos hpos]
      exact BitVec.add_sub_cancel indent 1

theorem indentBehind_calls {pending' : Bool} (hindent : indent.toNat < 255)
    (hwork : ∀ ops, .work ops ∈ calls → Keeps indentSize indent ops)
    (hpair : calls.foldlM pair pending = some pending') :
    indentBehind indentSize (level indent pending) (calls.flatMap Call.ops)
      = level indent pending' := by
  induction calls generalizing pending with
  | nil =>
      cases hpair
      rfl
  | cons c calls ih =>
      obtain ⟨between, hc, hcalls⟩ := Option.bind_eq_some_iff.mp hpair
      have hfirst := indentBehind_call hindent (fun ops heq => hwork ops (heq ▸ .head calls)) hc
      rw [List.flatMap_cons, indentBehind_append, hfirst]
      exact ih (fun ops hmem => hwork ops (.tail c hmem)) hcalls

theorem mem_finish_work {ops : List Op} (hmem : .work ops ∈ finish logging r calls) :
    (ops = r.event.ops ∨ ops = r.func.ops) ∨ .work ops ∈ calls := by
  have hcate : ∀ logging : Bool, .work ops ∉ (if logging then [Call.cate] else []) := by
    intro logging hmem
    cases logging <;> simp at hmem
  have hleave : ∀ logging, .work ops ∉ leave logging := by
    intro logging hmem
    rcases List.mem_append.mp hmem with hmem | hmem
    · exact hcate logging hmem
    · cases List.mem_singleton.mp hmem
  rw [finish] at hmem
  rcases List.mem_cons.mp hmem with heq | hmem
  · exact .inl (.inl (Call.work.inj heq))
  cases hevent : r.event.terminates with
  | true =>
      rw [hevent] at hmem
      exact absurd hmem (hleave logging)
  | false =>
      rw [hevent] at hmem
      rcases List.mem_append.mp hmem with hmem | hmem
      · exact absurd hmem (hcate logging)
      rcases List.mem_cons.mp hmem with heq | hmem
      · exact .inl (.inr (Call.work.inj heq))
      cases hfunc : r.func.terminates with
      | true =>
          rw [hfunc] at hmem
          exact absurd hmem (hleave false)
      | false =>
          rw [hfunc] at hmem
          exact .inr hmem

theorem mem_loop_work {ops : List Op} (hmem : .work ops ∈ loop logging verbose rounds) :
    ∃ r ∈ rounds, ops = r.event.ops ∨ ops = r.func.ops := by
  induction rounds generalizing logging verbose with
  | nil => cases hmem
  | cons r rounds ih =>
      rcases List.mem_cons.mp hmem with heq | hmem
      · cases heq
      rcases List.mem_append.mp hmem with hmem | hmem
      · split_ifs at hmem
        · cases List.mem_singleton.mp hmem
        · cases hmem
      rcases mem_finish_work hmem with hself | hrest
      · exact ⟨r, .head rounds, hself⟩
      · obtain ⟨r', hr', hops⟩ := ih hrest
        exact ⟨r', .tail r hr', hops⟩

/-- **The log is left as it was found.** Where the categories of `enter` are paired and every event
closes what it opens, `_indent` is behind `enter` what it was before. -/
theorem indent_enter (hindent : indent.toNat < 255) {memory : Byte}
    (hfirst : memory = 0 ∨ ∀ r ∈ rounds.head?, Logs r.name verbose)
    (hrounds : ∀ r ∈ rounds,
      Keeps indentSize indent r.event.ops ∧ Keeps indentSize indent r.func.ops) :
    (enter indentSize indent memory verbose rounds).indent = indent := by
  have hpaired : Paired (loop (memory ≠ 0) verbose rounds) := by
    refine foldlM_loop fun htrue => hfirst.resolve_left ?_
    exact of_decide_eq_true htrue
  have hwork : ∀ ops, .work ops ∈ loop (memory ≠ 0) verbose rounds →
      Keeps indentSize indent ops := by
    intro ops hmem
    obtain ⟨r, hr, rfl | rfl⟩ := mem_loop_work hmem
    · exact (hrounds r hr).1
    · exact (hrounds r hr).2
  exact (written_snd _ _ _).trans (indentBehind_calls hindent hwork hpaired)

/-- An event that opens a category and closes it, and one that ends the loop. -/
def categoryRounds : List Round :=
  [⟨"copy", ⟨[.catb, .endl, .cate], id, false⟩, ⟨[.endl], id, false⟩⟩,
    ⟨noName, ⟨[], id, true⟩, ⟨[], id, false⟩⟩]

theorem indent_enter_category : (enter 2 1 7 0x40 categoryRounds).indent = 1 := by
  refine indent_enter (by decide) (.inr ?_) ?_
  · intro r hr
    cases hr
    exact ⟨(by decide : "copy" ≠ noName), (by decide : verbEvent 0x40 = true)⟩
  · intro r hr
    rcases List.mem_cons.mp hr with rfl | hr
    · exact ⟨fun pending => by cases pending <;> rfl, fun pending => by cases pending <;> rfl⟩
    · rw [List.mem_singleton.mp hr]
      exact ⟨fun _ => rfl, fun _ => rfl⟩

/-! ### The event queue -/

/-- What a call of `enter` adds to the log of the event queue. -/
def Call.logOp : Call → Option LogOp
  | .start name => some (.catb name)
  | .cate => some .cate
  | .taken _ | .work _ | .returned => none

def marks (calls : List Call) : List LogOp := calls.filterMap Call.logOp

/-- An event of the queue, with the update functor of the call that takes it. -/
def Round.toEvent (r : Round) : Event Round := ⟨r.name, r⟩

/-- `_verbose` behind the events that are over and the update functors behind them. -/
def verboseBehind (verbose : BitVec 32) (notes : List (Note Round)) : BitVec 32 :=
  notes.foldl (fun verbose note =>
    match note with
    | .returned e => e.func.func.verbose (e.func.event.verbose verbose)
    | .terminated e => e.func.event.verbose verbose
    | .began _ | .updated => verbose) verbose

/-- How the functor that thread `t` has called ends, by the round of its event. -/
def EndsAs (t : Thread Round) (terminates : Bool) : Prop :=
  match t.pc with
  | .executing e => terminates = e.func.event.terminates
  | .updating e => terminates = e.func.func.terminates
  | _ => True

/-- Thread `i` is the one that moves, its functors end as their rounds say, and it reads the
verbosity that they have left behind. `verbose` is what it was before any event. -/
def Own (i : ℕ) (verbose : BitVec 32) (q : EventQueue Round) : Action Round → Prop
  | .run j verb =>
      j = i ∧ verb = verbEvent (verboseBehind verbose q.notes) ∧ ∀ t ∈ q.threads[i]?, EndsAs t false
  | .finish j terminates => j = i ∧ ∀ t ∈ q.threads[i]?, EndsAs t terminates
  | .terminate j => j = i ∧ ∀ t ∈ q.threads[i]?, EndsAs t true
  | .push _ | .enter _ _ | .spurious _ => False

/-- The calls that a thread still has before it, which stands at `pc` and finds `rounds` in the
queue. -/
inductive Ahead (verbose : BitVec 32) : Pc Round → Bool → List Round → List Call → Prop
  | entering {logging : Bool} {rounds : List Round} :
      Ahead verbose .entering logging rounds (loop logging verbose rounds)
  | looping {logging : Bool} {rounds : List Round} :
      Ahead verbose .looping logging rounds (loop logging verbose rounds)
  | parked {logging : Bool} : Ahead verbose .parked logging [] []
  | taken {logging : Bool} {r : Round} {rounds : List Round} :
      Ahead verbose (.taken r.toEvent) logging rounds
        ((if Logs r.name verbose then [.start r.name] else [])
          ++ finish (if Logs r.name verbose then true else logging) r
            (loop false (r.func.verbose (r.event.verbose verbose)) rounds))
  | executing {logging : Bool} {r : Round} {rounds : List Round} :
      Ahead verbose (.executing r.toEvent) logging rounds
        (finish logging r (loop false (r.func.verbose (r.event.verbose verbose)) rounds))
  | updating {r : Round} {rounds : List Round} :
      Ahead verbose (.updating r.toEvent) false rounds
        (.work r.func.ops :: if r.func.terminates then leave false else loop false verbose rounds)
  | leaving {rounds : List Round} : Ahead verbose .leaving false rounds [.returned]
  | outside {rounds : List Round} : Ahead verbose .outside false rounds []

/-- Thread `i` is `t`, with `rounds` in the queue and `calls` before it. -/
structure Position (i : ℕ) (verbose : BitVec 32) (q : EventQueue Round) (t : Thread Round)
    (rounds : List Round) (calls : List Call) : Prop where
  thread : q.threads[i]? = some t
  queue : q.queue = rounds.map Round.toEvent
  ahead : Ahead (verboseBehind verbose q.notes) t.pc t.logging rounds calls

/-- The steps that a thread still has before it are fewer than this. -/
def bound (t : Thread Round) (rounds : List Round) : ℕ :=
  5 * rounds.length + match t.pc with
    | .taken _ => 5
    | .executing _ => 4
    | .updating _ => 3
    | .entering => 2
    | .looping | .leaving => 1
    | .outside | .parked | .notified | .undefined => 0

variable {q q' : EventQueue Round} {i : ℕ} {t t' : Thread Round} {rounds' : List Round}
  {done calls' : List Call} {a : Action Round}

theorem verboseBehind_concat (verbose : BitVec 32) (notes : List (Note Round)) (note : Note Round) :
    verboseBehind verbose (notes ++ [note]) = match note with
      | .returned e => e.func.func.verbose (e.func.event.verbose (verboseBehind verbose notes))
      | .terminated e => e.func.event.verbose (verboseBehind verbose notes)
      | .began _ | .updated => verboseBehind verbose notes := by
  rw [verboseBehind, verboseBehind, List.foldl_append]
  rfl

theorem marks_append (calls calls' : List Call) :
    marks (calls ++ calls') = marks calls ++ marks calls' := List.filterMap_append

/-- A step of the thread, which makes the calls `done`. -/
structure Advances (i : ℕ) (verbose : BitVec 32) (q q' : EventQueue Round) (t : Thread Round)
    (rounds : List Round) (done calls : List Call) : Prop where
  log : q'.log = q.log ++ marks done
  next : ∃ t' rounds', Position i verbose q' t' rounds' calls ∧ bound t' rounds' < bound t rounds

theorem Position.advances (h : Position i verbose q t rounds calls)
    (hthreads : q'.threads = q.threads.set i t') (hqueue : q'.queue = rounds'.map Round.toEvent)
    (hlog : q'.log = q.log ++ marks done)
    (hahead : Ahead (verboseBehind verbose q'.notes) t'.pc t'.logging rounds' calls')
    (hbound : bound t' rounds' < bound t rounds) :
    Advances i verbose q q' t rounds done calls' := by
  refine ⟨hlog, t', rounds', ⟨?_, hqueue, hahead⟩, hbound⟩
  rw [hthreads]
  exact List.getElem?_set_self (List.getElem?_eq_some_iff.mp h.thread).1

/-- **One step** of the thread makes the first of the calls that it has before it. -/
theorem Position.run (h : Position i verbose q t rounds calls)
    (hends : EndsAs t false)
    (hrun : run q i t (verbEvent (verboseBehind verbose q.notes)) = some q') :
    ∃ done calls', calls = done ++ calls' ∧ Advances i verbose q q' t rounds done calls' := by
  obtain ⟨pc, logging⟩ := t
  have hahead := h.ahead
  have hqueue := h.queue
  have hnil : q.log = q.log ++ marks [] := (List.append_nil _).symm
  cases hahead with
  | entering =>
      cases hrun
      exact ⟨[], _, rfl, h.advances rfl hqueue hnil .looping (by simp [bound])⟩
  | looping =>
      cases rounds with
      | nil =>
          rw [Sched.run, if_pos (by rw [hqueue]; rfl)] at hrun
          cases hrun
          exact ⟨[], _, rfl, h.advances rfl hqueue hnil .parked (by simp [bound])⟩
      | cons r rounds =>
          rw [Sched.run, if_neg (by rw [hqueue]; exact Nat.succ_ne_zero _), pop, hqueue] at hrun
          cases hrun
          refine ⟨[.taken r.name], _, rfl,
            h.advances rfl rfl (List.append_nil _).symm .taken ?_⟩
          simp only [bound, List.length_cons]
          omega
  | @taken _ r _ =>
      cases hrun
      refine ⟨_, _, rfl, h.advances rfl hqueue ?_ ?_ (by simp [bound])⟩
      · by_cases hlogs : Logs r.name (verboseBehind verbose q.notes)
        · rw [if_pos hlogs]
          exact if_pos hlogs
        · rw [if_neg hlogs]
          exact (if_neg hlogs).trans (List.append_nil _).symm
      · rw [verboseBehind_concat]
        exact .executing
  | @updating r =>
      have hfunc : false = r.func.terminates := hends
      rw [← hfunc]
      cases hrun
      refine ⟨[.work r.func.ops], _, rfl,
        h.advances rfl hqueue (List.append_nil _).symm ?_ (by simp [bound])⟩
      rw [verboseBehind_concat]
      exact .looping
  | leaving =>
      cases hrun
      exact ⟨[.returned], [], rfl,
        h.advances rfl hqueue (List.append_nil _).symm .outside (by simp [bound])⟩
  | parked | executing | outside => cases hrun

theorem marks_cate (ops : List Op) (logging : Bool) :
    marks (.work ops :: if logging then [.cate] else []) = if logging then [.cate] else [] := by
  cases logging <;> rfl

theorem Position.finish (h : Position i verbose q t rounds calls) {terminates : Bool}
    (hends : EndsAs t terminates) (hfinish : Sched.finish q i t terminates = some q') :
    ∃ done calls', calls = done ++ calls' ∧ Advances i verbose q q' t rounds done calls' := by
  obtain ⟨pc, logging⟩ := t
  have hahead := h.ahead
  cases hahead with
  | @executing _ r _ =>
      obtain rfl : terminates = r.event.terminates := hends
      cases hfinish
      have hlog : (if logging then q.log ++ [.cate] else q.log)
          = q.log ++ marks (.work r.event.ops :: if logging then [.cate] else []) := by
        rw [marks_cate]
        cases logging
        · exact (List.append_nil _).symm
        · rfl
      rw [Entering.finish]
      cases hevent : r.event.terminates with
      | true =>
          exact ⟨_, _, rfl, h.advances rfl h.queue hlog .leaving (by simp [bound])⟩
      | false =>
          refine ⟨_, .work r.func.ops :: _, rfl, h.advances rfl h.queue hlog ?_
            (by simp [bound])⟩
          rw [verboseBehind_concat]
          exact .updating
  | entering | looping | taken | updating | leaving | parked | outside => cases hfinish

/-- The update functor leaves the loop. -/
theorem Position.terminate (h : Position i verbose q t rounds calls) (hends : EndsAs t true)
    (hterminate : Sched.terminate q i t = some q') :
    ∃ done calls', calls = done ++ calls' ∧ Advances i verbose q q' t rounds done calls' := by
  obtain ⟨pc, logging⟩ := t
  have hahead := h.ahead
  cases hahead with
  | @updating r =>
      have hfunc : true = r.func.terminates := hends
      rw [← hfunc]
      cases hterminate
      exact ⟨[.work r.func.ops], _, rfl, h.advances rfl h.queue (List.append_nil _).symm .leaving
        (by simp [bound])⟩
  | entering | looping | taken | executing | leaving | parked | outside => cases hterminate

theorem Position.step (h : Position i verbose q t rounds calls) (ha : Own i verbose q a)
    (hstep : Sched.step q a = some q') :
    ∃ done calls', calls = done ++ calls' ∧ Advances i verbose q q' t rounds done calls' := by
  cases a with
  | run j verb =>
      obtain ⟨rfl, rfl, hends⟩ := ha
      rw [Sched.step, h.thread, Option.bind_some] at hstep
      exact h.run (hends t h.thread) hstep
  | finish j terminates =>
      obtain ⟨rfl, hends⟩ := ha
      rw [Sched.step, h.thread, Option.bind_some] at hstep
      exact h.finish (hends t h.thread) hstep
  | terminate j =>
      obtain ⟨rfl, hends⟩ := ha
      rw [Sched.step, h.thread, Option.bind_some] at hstep
      exact h.terminate (hends t h.thread) hstep
  | push | enter | spurious => exact ha.elim

/-- As long as a call is before it, the thread can go on. -/
theorem Position.exists_step (h : Position i verbose q t rounds calls) (hcalls : calls ≠ []) :
    ∃ a q', Own i verbose q a ∧ Sched.step q a = some q' := by
  have hbind : ∀ {f : Thread Round → Option (EventQueue Round)}, (q.threads[i]?.bind f) = f t := by
    intro f
    rw [h.thread, Option.bind_some]
  have hends : ∀ {terminates}, EndsAs t terminates → ∀ u ∈ q.threads[i]?, EndsAs u terminates := by
    intro terminates ht u hu
    obtain rfl := Option.some.inj (h.thread.symm.trans hu)
    exact ht
  have hown : EndsAs t false →
      Own i verbose q (.run i (verbEvent (verboseBehind verbose q.notes))) :=
    fun ht => ⟨rfl, rfl, hends ht⟩
  obtain ⟨pc, logging⟩ := t
  have hahead := h.ahead
  cases hahead with
  | looping =>
      by_cases hempty : q.queue.length = 0
      · exact ⟨_, _, hown trivial, hbind.trans (if_pos hempty)⟩
      · exact ⟨_, _, hown trivial, hbind.trans (if_neg hempty)⟩
  | entering | taken | leaving => exact ⟨_, _, hown trivial, hbind⟩
  | @executing _ r _ => exact ⟨.finish i r.event.terminates, _, ⟨rfl, hends rfl⟩, hbind⟩
  | @updating r =>
      cases hfunc : r.func.terminates with
      | false => exact ⟨_, _, hown hfunc.symm, hbind⟩
      | true => exact ⟨.terminate i, _, ⟨rfl, hends hfunc.symm⟩, hbind⟩
  | parked | outside => exact absurd rfl hcalls

/-- **Every run** of the thread makes the calls that it has before it, one after the other. -/
theorem Position.of_reaches (h : Position i verbose q t rounds calls)
    (hreach : Reaches Sched.step (Own i verbose) q q') :
    ∃ done calls', calls = done ++ calls' ∧ q'.log = q.log ++ marks done
      ∧ ∃ t' rounds', Position i verbose q' t' rounds' calls' := by
  refine hreach.invariant (P := fun q' => ∃ done calls', calls = done ++ calls'
    ∧ q'.log = q.log ++ marks done ∧ ∃ t' rounds', Position i verbose q' t' rounds' calls')
    ⟨[], calls, rfl, (List.append_nil _).symm, t, rounds, h⟩ ?_
  rintro p a p' ⟨done, _, rfl, hlog, t', rounds', hp⟩ ha hstep
  obtain ⟨done', calls', rfl, hadvances⟩ := hp.step ha hstep
  obtain ⟨t'', rounds'', hp', -⟩ := hadvances.next
  refine ⟨done ++ done', calls', (List.append_assoc _ _ _).symm, ?_, t'', rounds'', hp'⟩
  rw [hadvances.log, hlog, List.append_assoc, marks_append]

/-- A run that goes on makes them all. -/
theorem Position.exists_reaches (h : Position i verbose q t rounds calls) :
    ∃ q', Reaches Sched.step (Own i verbose) q q' ∧ q'.log = q.log ++ marks calls := by
  induction hn : bound t rounds using Nat.strong_induction_on generalizing q t rounds calls with
  | h n ih =>
      by_cases hcalls : calls = []
      · exact ⟨q, .refl, by rw [hcalls]; exact (List.append_nil _).symm⟩
      obtain ⟨a, q₁, ha, hstep⟩ := h.exists_step hcalls
      obtain ⟨done, calls', rfl, hadvances⟩ := h.step ha hstep
      obtain ⟨t₁, rounds₁, h₁, hlt⟩ := hadvances.next
      obtain ⟨q', hreach, hlog⟩ := ih _ (hn ▸ hlt) h₁ rfl
      refine ⟨q', (Reaches.refl.tail ha hstep).trans hreach, ?_⟩
      rw [hlog, hadvances.log, List.append_assoc, marks_append]

/-- **`enter` is what a thread of the event queue does** that calls it: wherever the thread stands,
it has logged the marks of the first calls of `enter` and can make those that are left. -/
theorem simulates_enter (hi : q.threads[i]? = some ⟨.outside, logging⟩)
    (hqueue : q.queue = rounds.map Round.toEvent) (indentSize indent : BitVec 8) (memory : Byte)
    (verbose : BitVec 32) :
    ∃ q₁, step q (.enter i (memory ≠ 0)) = some q₁
      ∧ (∀ q', Reaches step (Own i verbose) q₁ q' → ∃ done rest,
        (enter indentSize indent memory (verboseBehind verbose q.notes) rounds).calls = done ++ rest
          ∧ q'.log = q.log ++ marks done
          ∧ ∃ q'', Reaches step (Own i verbose) q' q'' ∧ q''.log = q'.log ++ marks rest) := by
  have henter : step q (.enter i (memory ≠ 0))
      = some { q with threads := q.threads.set i ⟨.entering, memory ≠ 0⟩ } := by
    rw [step, hi, Option.bind_some]
  refine ⟨_, henter, fun q' hreach => ?_⟩
  have hposition : Position i verbose { q with threads := q.threads.set i ⟨.entering, memory ≠ 0⟩ }
      ⟨.entering, memory ≠ 0⟩ rounds (loop (memory ≠ 0) (verboseBehind verbose q.notes) rounds) :=
    ⟨List.getElem?_set_self (List.getElem?_eq_some_iff.mp hi).1, hqueue, .entering⟩
  obtain ⟨done, rest, hcalls, hlog, t', rounds', h'⟩ := hposition.of_reaches hreach
  exact ⟨done, rest, hcalls, hlog, h'.exists_reaches⟩

def categoryQueue : EventQueue Round :=
  ⟨categoryRounds.map Round.toEvent, none, [⟨.outside, false⟩], [],
    categoryRounds.map Round.toEvent, []⟩

/-- The only thread finds both events in the queue. -/
theorem simulates_enter_category :
    ∃ q₁, step categoryQueue (.enter 0 true) = some q₁
      ∧ (∀ q', Reaches step (Own 0 0x40) q₁ q' → ∃ done rest,
        (enter 2 1 7 0x40 categoryRounds).calls = done ++ rest ∧ q'.log = [] ++ marks done
          ∧ ∃ q'', Reaches step (Own 0 0x40) q' q'' ∧ q''.log = q'.log ++ marks rest) :=
  simulates_enter rfl rfl 2 1 7 0x40

end Networking.Sched.Entering
