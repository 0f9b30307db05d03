import Networking.Sched.Empty
import Networking.Sched.Order

/-!
# Any number of threads in the loop

`enter` does not refuse a second thread: the exception that it is to throw is still to be written.
With several threads inside, spurious wakeups and calls of `Terminate`, the order of the events is
gone. But as long as no thread calls `front` on an empty queue, none is lost and none is executed
twice: each event that has been pushed is in the queue, in the hands of one thread, or over.
-/

namespace Networking.Sched

open Condition Transition
open scoped List

variable {φ : Type} {q q' : EventQueue φ} {threads : List (Thread φ)} {t t' : Thread φ} {i : ℕ}
  {e : Event φ} {β : Type}

/-- The event that the thread has taken and not ended yet. -/
def Pc.held : Pc φ → List (Event φ)
  | .taken e | .executing e => [e]
  | _ => []

def Pc.executed : Pc φ → List (Event φ)
  | .executing e => [e]
  | _ => []

def Note.ended? : Note φ → Option (Event φ)
  | .returned e | .terminated e => some e
  | _ => none

def EventQueue.held (q : EventQueue φ) : List (Event φ) := q.threads.flatMap fun t => t.pc.held

def EventQueue.executing (q : EventQueue φ) : List (Event φ) :=
  q.threads.flatMap fun t => t.pc.executed

def EventQueue.ended (q : EventQueue φ) : List (Event φ) := q.notes.filterMap Note.ended?

/-- Where the events are. -/
structure Shared (q : EventQueue φ) : Prop where
  pushed : q.pushed ~ q.ended ++ q.held ++ q.queue
  executed : q.executed ~ q.ended ++ q.executing

/-! ### One thread changes -/

theorem flatMap_set (f : Thread φ → List β) (hi : threads[i]? = some t) (t' : Thread φ) :
    (threads.set i t').flatMap f ++ f t ~ threads.flatMap f ++ f t' := by
  obtain ⟨hlt, rfl⟩ := List.getElem?_eq_some_iff.mp hi
  have hsplit : threads.flatMap f = (threads.take i).flatMap f
      ++ (f threads[i] ++ (threads.drop (i + 1)).flatMap f) := by
    rw [← List.flatMap_cons, ← List.flatMap_append, List.getElem_cons_drop, List.take_append_drop]
  rw [hsplit, List.set_eq_take_append_cons_drop, if_pos hlt, List.flatMap_append,
    List.flatMap_cons, List.append_assoc, List.append_assoc _ _ (f t')]
  refine List.Perm.append_left _ ?_
  calc f t' ++ (threads.drop (i + 1)).flatMap f ++ f threads[i]
      ~ f threads[i] ++ (f t' ++ (threads.drop (i + 1)).flatMap f) := List.perm_append_comm
    _ ~ f threads[i] ++ ((threads.drop (i + 1)).flatMap f ++ f t') :=
        List.perm_append_comm.append_left _
    _ = f threads[i] ++ (threads.drop (i + 1)).flatMap f ++ f t' := (List.append_assoc _ _ _).symm

theorem flatMap_set_same (f : Thread φ → List β) (hi : threads[i]? = some t) (hf : f t' = f t) :
    (threads.set i t').flatMap f ~ threads.flatMap f := by
  have hperm := flatMap_set f hi t'
  rw [hf] at hperm
  exact (List.perm_append_right_iff _).mp hperm

theorem flatMap_notifyAll (threads : List (Thread φ)) (f : Pc φ → List β)
    (hf : f .parked = f .notified) :
    (notifyAll (fun t => t.pc.Parked) Thread.wake threads).flatMap (fun t => f t.pc)
      = threads.flatMap fun t => f t.pc := by
  rw [notifyAll, List.flatMap_map]
  refine List.flatMap_congr fun t _ => ?_
  by_cases hparked : t.pc.Parked
  · rw [if_pos hparked]
    cases hpc : t.pc with
    | parked => exact hf.symm
    | _ =>
        rw [hpc] at hparked
        exact hparked.elim
  · rw [if_neg hparked]

/-- A thread goes on without taking or ending an event. -/
theorem Shared.move (h : Shared q) (hi : q.threads[i]? = some t) (t' : Thread φ)
    (hheld : t'.pc.held = t.pc.held) (hexecuted : t'.pc.executed = t.pc.executed)
    (hthreads : q'.threads = q.threads.set i t') (hqueue : q'.queue = q.queue)
    (hpushed : q'.pushed = q.pushed) (hended : q'.ended = q.ended)
    (hnotes : q'.executed = q.executed) : Shared q' where
  pushed := by
    have hperm := flatMap_set_same (fun t => t.pc.held) hi hheld
    rw [← hthreads] at hperm
    rw [hpushed, hended, hqueue]
    exact h.pushed.trans ((hperm.symm.append_left _).append_right _)
  executed := by
    have hperm := flatMap_set_same (fun t => t.pc.executed) hi hexecuted
    rw [← hthreads] at hperm
    rw [hnotes, hended]
    exact h.executed.trans (hperm.symm.append_left _)

/-- The functor of the event is called. -/
theorem Shared.begin (h : Shared q) (hi : q.threads[i]? = some t) (t' : Thread φ)
    (hheld : t'.pc.held = t.pc.held) (hidle : t.pc.executed = []) (hbegun : t'.pc.executed = [e])
    (hthreads : q'.threads = q.threads.set i t') (hqueue : q'.queue = q.queue)
    (hpushed : q'.pushed = q.pushed) (hended : q'.ended = q.ended)
    (hnotes : q'.executed = q.executed ++ [e]) : Shared q' where
  pushed := by
    have hperm := flatMap_set_same (fun t => t.pc.held) hi hheld
    rw [← hthreads] at hperm
    rw [hpushed, hended, hqueue]
    exact h.pushed.trans ((hperm.symm.append_left _).append_right _)
  executed := by
    have hperm := flatMap_set (fun t => t.pc.executed) hi t'
    rw [hidle, hbegun, List.append_nil, ← hthreads] at hperm
    rw [hnotes, hended]
    calc q.executed ++ [e]
        ~ q.ended ++ q.executing ++ [e] := h.executed.append_right _
      _ = q.ended ++ (q.executing ++ [e]) := List.append_assoc _ _ _
      _ ~ q.ended ++ q'.executing := hperm.symm.append_left _

/-- The event is over, whether its functor has returned or has thrown. -/
theorem Shared.over (h : Shared q) (hi : q.threads[i]? = some t) (t' : Thread φ)
    (hheld : t.pc.held = [e]) (hexecuted : t.pc.executed = [e]) (hfree : t'.pc.held = [])
    (hidle : t'.pc.executed = []) (hthreads : q'.threads = q.threads.set i t')
    (hqueue : q'.queue = q.queue) (hpushed : q'.pushed = q.pushed)
    (hended : q'.ended = q.ended ++ [e]) (hnotes : q'.executed = q.executed) : Shared q' where
  pushed := by
    have hperm := flatMap_set (fun t => t.pc.held) hi t'
    rw [hheld, hfree, List.append_nil, ← hthreads] at hperm
    rw [hpushed, hended, hqueue]
    refine h.pushed.trans (List.Perm.append_right _ ?_)
    rw [List.append_assoc]
    exact (hperm.symm.trans List.perm_append_comm).append_left _
  executed := by
    have hperm := flatMap_set (fun t => t.pc.executed) hi t'
    rw [hexecuted, hidle, List.append_nil, ← hthreads] at hperm
    rw [hnotes, hended]
    refine h.executed.trans ?_
    rw [List.append_assoc]
    exact (hperm.symm.trans List.perm_append_comm).append_left _

/-- The first event goes from the queue into the hands of the thread. -/
theorem Shared.pop (h : Shared q) (hi : q.threads[i]? = some t) (hheld : t.pc.held = [])
    (hexecuted : t.pc.executed = []) (hdefined : (pop q i t).Defined) : Shared (pop q i t) := by
  have hne : q.queue ≠ [] := fun hempty => not_defined_pop hempty hi hdefined
  unfold Sched.pop
  split
  case h_1 hqueue => exact absurd hqueue hne
  case h_2 e queue hqueue =>
    have hperm := flatMap_set (fun t => t.pc.held) hi { t with pc := .taken e }
    have hsame : (q.threads.set i { t with pc := .taken e }).flatMap (fun t => t.pc.executed)
        ~ q.executing := flatMap_set_same (fun t => t.pc.executed) hi hexecuted.symm
    rw [hheld, List.append_nil] at hperm
    refine ⟨?_, h.executed.trans (hsame.symm.append_left _)⟩
    calc q.pushed
        ~ q.ended ++ q.held ++ q.queue := h.pushed
      _ = q.ended ++ (q.held ++ [e]) ++ queue := by rw [hqueue]; simp
      _ ~ q.ended ++ (q.threads.set i { t with pc := .taken e }).flatMap (fun t => t.pc.held)
            ++ queue := (hperm.symm.append_left _).append_right _

theorem Shared.run {verbEvent : Bool} (h : Shared q) (hi : q.threads[i]? = some t)
    (hrun : run q i t verbEvent = some q') (hdefined : q'.Defined) : Shared q' := by
  obtain ⟨pc, logging⟩ := t
  cases pc with
  | entering =>
      cases hrun
      exact h.move hi ⟨.looping, logging⟩ rfl rfl rfl rfl rfl rfl rfl
  | looping =>
      rw [Sched.run] at hrun
      split_ifs at hrun
      · cases hrun
        exact h.move hi ⟨.parked, logging⟩ rfl rfl rfl rfl rfl rfl rfl
      · cases hrun
        exact h.pop hi rfl rfl hdefined
  | notified =>
      cases hrun
      exact h.pop hi rfl rfl hdefined
  | taken e =>
      cases hrun
      -- the event stays in the hands of the thread and has begun now
      refine h.begin hi ⟨.executing e, if e.name ≠ noName ∧ verbEvent then true else logging⟩ rfl
        rfl rfl rfl rfl rfl ?_ ?_
      · simp [EventQueue.ended, Note.ended?]
      · simp [EventQueue.executed, Note.began?]
  | updating e =>
      cases hrun
      refine h.move hi ⟨.looping, logging⟩ rfl rfl rfl rfl rfl ?_ ?_
      · simp [EventQueue.ended, Note.ended?]
      · simp [EventQueue.executed, Note.began?]
  | leaving =>
      cases hrun
      exact h.move hi ⟨.outside, logging⟩ rfl rfl rfl rfl rfl rfl rfl
  | outside | parked | executing | undefined => cases hrun

theorem Shared.finish {terminates : Bool} (h : Shared q) (hi : q.threads[i]? = some t)
    (hfinish : finish q i t terminates = some q') : Shared q' := by
  obtain ⟨pc, logging⟩ := t
  cases pc with
  | executing e =>
      cases hfinish
      have hpc : (if terminates then Pc.leaving else .updating e).held = []
          ∧ (if terminates then Pc.leaving else .updating e).executed = [] := by
        cases terminates <;> exact ⟨rfl, rfl⟩
      refine h.over hi ⟨if terminates then .leaving else .updating e, false⟩ rfl rfl hpc.1 hpc.2 rfl
        rfl rfl ?_ ?_
      · cases terminates <;> simp [EventQueue.ended, Note.ended?]
      · cases terminates <;> simp [EventQueue.executed, Note.began?]
  | outside | entering | looping | parked | notified | taken | updating | leaving | undefined =>
      cases hfinish

theorem Shared.terminate (h : Shared q) (hi : q.threads[i]? = some t)
    (hterminate : terminate q i t = some q') : Shared q' := by
  obtain ⟨pc, logging⟩ := t
  cases pc with
  | updating e =>
      cases hterminate
      refine h.move hi ⟨.leaving, false⟩ rfl rfl rfl rfl rfl ?_ ?_
      · simp [EventQueue.ended, Note.ended?]
      · simp [EventQueue.executed, Note.began?]
  | outside | entering | looping | parked | notified | taken | executing | leaving | undefined =>
      cases hterminate

/-! ### Every run -/

theorem shared_init (n : ℕ) : Shared (EventQueue.init (φ := φ) n) := by
  have hnil : ∀ f : Pc φ → List (Event φ), f .outside = [] →
      (EventQueue.init (φ := φ) n).threads.flatMap (fun t => f t.pc) = [] := by
    intro f hf
    refine List.flatMap_eq_nil_iff.mpr fun t ht => ?_
    rw [List.eq_of_mem_replicate ht]
    exact hf
  constructor
  · rw [EventQueue.held, hnil Pc.held rfl]
    exact .refl _
  · rw [EventQueue.executing, hnil Pc.executed rfl]
    exact .refl _

theorem EventQueue.Defined.of_set (hq' : q'.Defined) (hi : q.threads[i]? = some t)
    (ht : t.pc.isUndefined = false) (hthreads : q'.threads = q.threads.set i t') : q.Defined := by
  intro u hu
  obtain ⟨j, hj⟩ := List.getElem?_of_mem hu
  by_cases hji : j = i
  · rw [hji, hi] at hj
    rwa [← Option.some.inj hj]
  · refine hq' u (List.mem_of_getElem? (i := j) ?_)
    rw [hthreads, List.getElem?_set_ne (Ne.symm hji), hj]

/-- A thread that has called `front` on an empty queue goes no further. -/
theorem EventQueue.Defined.of_step {a : Action φ} (hq' : q'.Defined)
    (hstep : step q a = some q') : q.Defined := by
  cases a with
  | push e =>
      cases hstep
      intro t ht
      have hthread := hq' _ (List.mem_map_of_mem ht)
      by_cases hparked : t.pc.Parked
      · rw [hparked.eq_parked]
        rfl
      · rwa [if_neg hparked] at hthread
  | enter i logging =>
      obtain ⟨⟨pc, logging'⟩, hi, hstep⟩ := Option.bind_eq_some_iff.mp hstep
      cases pc <;> cases hstep
      exact hq'.of_set hi rfl rfl
  | run i verbEvent =>
      obtain ⟨⟨pc, logging⟩, hi, hrun⟩ := Option.bind_eq_some_iff.mp hstep
      cases pc with
      | looping =>
          rw [run] at hrun
          split_ifs at hrun
          · cases hrun
            exact hq'.of_set hi rfl rfl
          · cases hrun
            obtain ⟨_, hthreads⟩ := threads_pop q i ⟨.looping, logging⟩
            exact hq'.of_set hi rfl hthreads
      | notified =>
          cases hrun
          obtain ⟨_, hthreads⟩ := threads_pop q i ⟨.notified, logging⟩
          exact hq'.of_set hi rfl hthreads
      | entering | taken | updating | leaving =>
          cases hrun
          exact hq'.of_set hi rfl rfl
      | outside | parked | executing | undefined => cases hrun
  | finish i terminates =>
      obtain ⟨⟨pc, logging⟩, hi, hstep⟩ := Option.bind_eq_some_iff.mp hstep
      cases pc <;> cases hstep
      exact hq'.of_set hi rfl rfl
  | terminate i =>
      obtain ⟨⟨pc, logging⟩, hi, hstep⟩ := Option.bind_eq_some_iff.mp hstep
      cases pc <;> cases hstep
      exact hq'.of_set hi rfl rfl
  | spurious i =>
      obtain ⟨⟨pc, logging⟩, hi, hstep⟩ := Option.bind_eq_some_iff.mp hstep
      cases pc <;> cases hstep
      exact hq'.of_set hi rfl rfl

theorem shared_step {a : Action φ} (h : Shared q) (hstep : step q a = some q')
    (hdefined : q'.Defined) : Shared q' := by
  cases a with
  | push e =>
      cases hstep
      refine ⟨?_, ?_⟩
      · have hheld := flatMap_notifyAll q.threads Pc.held rfl
        rw [EventQueue.held, hheld, ← List.append_assoc]
        exact h.pushed.append_right [e]
      · have hexecuting := flatMap_notifyAll q.threads Pc.executed rfl
        rw [EventQueue.executing, hexecuting]
        exact h.executed
  | enter i logging =>
      obtain ⟨t, hi, hstep⟩ := Option.bind_eq_some_iff.mp hstep
      split at hstep
      case h_1 hpc =>
        cases hstep
        exact h.move hi ⟨.entering, logging⟩ (by rw [hpc]; rfl) (by rw [hpc]; rfl) rfl rfl rfl rfl
          rfl
      case h_2 => cases hstep
  | run i verbEvent =>
      obtain ⟨t, hi, hstep⟩ := Option.bind_eq_some_iff.mp hstep
      exact h.run hi hstep hdefined
  | finish i terminates =>
      obtain ⟨t, hi, hstep⟩ := Option.bind_eq_some_iff.mp hstep
      exact h.finish hi hstep
  | terminate i =>
      obtain ⟨t, hi, hstep⟩ := Option.bind_eq_some_iff.mp hstep
      exact h.terminate hi hstep
  | spurious i =>
      obtain ⟨t, hi, hstep⟩ := Option.bind_eq_some_iff.mp hstep
      split at hstep
      case h_1 hpc =>
        cases hstep
        exact h.move hi t.wake (by rw [hpc]; rfl) (by rw [hpc]; rfl) rfl rfl rfl rfl rfl
      case h_2 => cases hstep

/-- **No event is lost and none is doubled.** However many threads are in the loop, and whenever
they wake, as long as none of them has called `front` on an empty queue: an event that has been
pushed is in the queue, held by one thread, or over, and one that has begun is being executed by one
thread, or over. -/
theorem events_shared {n : ℕ} (hreach : Reaches step (fun _ _ => True) (EventQueue.init n) q)
    (hdefined : q.Defined) :
    q.pushed ~ q.ended ++ q.held ++ q.queue ∧ q.executed ~ q.ended ++ q.executing :=
  have hshared := hreach.invariant (P := fun q => q.Defined → Shared q) (fun _ => shared_init n)
    (fun _ _ _ h _ hstep hdefined' => shared_step (h (hdefined'.of_step hstep)) hstep hdefined')
    hdefined
  ⟨hshared.pushed, hshared.executed⟩

/-- Two threads are woken by one event and one of them finds the other event, which came behind. -/
def twoInside : List (Action Unit) :=
  [.enter 0 false, .enter 1 true, .run 0 true, .run 1 true, .run 0 true, .run 1 true,
    .push ⟨"first", ()⟩, .push ⟨"second", ()⟩, .run 1 true, .run 0 true, .run 1 true,
    .finish 1 false]

theorem events_shared_two :
    ∃ q : EventQueue Unit, Reaches step (fun _ _ => True) (EventQueue.init 2) q
      ∧ q.Defined ∧ q.ended = [⟨"first", ()⟩] ∧ q.held = [⟨"second", ()⟩] ∧ q.executing = []
      ∧ q.pushed ~ q.ended ++ q.held ++ q.queue ∧ q.executed ~ q.ended ++ q.executing := by
  have hreach : Reaches step (fun _ _ => True) (EventQueue.init 2) _ :=
    reaches_of_follow twoInside rfl
  exact ⟨_, hreach, by decide, rfl, rfl, rfl, events_shared hreach (by decide)⟩

end Networking.Sched
