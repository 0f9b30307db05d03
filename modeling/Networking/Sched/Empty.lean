import Networking.Sched.EventQueue

/-!
# Taking from an empty queue

The size of the queue is tested once, before the wait. Several threads may be woken by one push, and
a wait may end without any, so a thread that comes out of it may find the queue empty and call
`front` all the same. This is ruled out as long as there is an event for each thread that has been
woken, and only then: when there are more of these threads than events, they may be the next to go
on.
-/

namespace Networking.Sched

open Condition Transition

variable {φ : Type} {q q' : EventQueue φ} {t t' : Thread φ} {i n : ℕ} {a : Action φ}

def Pc.isNotified : Pc φ → Bool
  | .notified => true
  | _ => false

def Pc.isLooping : Pc φ → Bool
  | .looping => true
  | _ => false

def Pc.isUndefined : Pc φ → Bool
  | .undefined => true
  | _ => false

/-- No thread has called `front` on an empty queue. -/
def EventQueue.Defined (q : EventQueue φ) : Prop := ∀ t ∈ q.threads, t.pc.isUndefined = false

/-- The number of threads that have come out of the wait and do not have the lock yet. -/
def EventQueue.woken (q : EventQueue φ) : ℕ := q.threads.countP fun t => t.pc.isNotified

def EventQueue.waiting (q : EventQueue φ) : ℕ := q.threads.countP fun t => t.pc.Parked

/-- There is an event for each thread that has been woken. -/
def EventQueue.Enough (q : EventQueue φ) : Prop := q.woken ≤ q.queue.length

/-- A push wakes no more threads than there are events then, no wait ends by itself unless an event
is left for the thread, and no thread takes an event without waiting unless it leaves one for each
thread that has been woken. -/
def Action.Covered (q : EventQueue φ) : Action φ → Prop
  | .push _ => q.woken + q.waiting ≤ q.queue.length + 1
  | .spurious _ => q.woken < q.queue.length
  | .run i _ => ∀ t ∈ q.threads[i]?, t.pc.isLooping → q.queue ≠ [] → q.woken < q.queue.length
  | .enter _ _ | .finish _ _ | .terminate _ => True

instance (q : EventQueue φ) : DecidablePred (Action.Covered q)
  | .push _ => inferInstanceAs (Decidable (_ ≤ _))
  | .spurious _ => inferInstanceAs (Decidable (_ < _))
  | .run i _ =>
      inferInstanceAs (Decidable
        (∀ t ∈ q.threads[i]?, t.pc.isLooping → ¬q.queue = [] → q.woken < q.queue.length))
  | .enter _ _ | .finish _ _ | .terminate _ => .isTrue trivial

/-- A thread that has been woken goes on. -/
def Action.Resumes (q : EventQueue φ) : Action φ → Prop
  | .run i _ => ∃ t ∈ q.threads[i]?, t.pc.isNotified
  | _ => False

instance (q : EventQueue φ) : Decidable q.Defined :=
  inferInstanceAs (Decidable (∀ t ∈ q.threads, _))

/-! ### One step -/

theorem threads_pop (q : EventQueue φ) (i : ℕ) (t : Thread φ) :
    ∃ pc, (pop q i t).threads = q.threads.set i { t with pc := pc } := by
  rw [pop]
  split <;> exact ⟨_, rfl⟩

theorem woken_set (hi : q.threads[i]? = some t) (hthreads : q'.threads = q.threads.set i t') :
    q'.woken + (if t.pc.isNotified then 1 else 0)
      = q.woken + if t'.pc.isNotified then 1 else 0 := by
  rw [EventQueue.woken, EventQueue.woken, hthreads]
  exact countP_set_add (fun t : Thread φ => t.pc.isNotified) hi t'

theorem woken_pos (hi : q.threads[i]? = some t) (ht : t.pc.isNotified = true) : 0 < q.woken :=
  List.countP_pos_iff.mpr ⟨t, List.mem_of_getElem? hi, ht⟩

theorem EventQueue.Defined.set (hq : q.Defined) (hthreads : q'.threads = q.threads.set i t')
    (ht' : t'.pc.isUndefined = false) : q'.Defined := by
  intro u hu
  rw [hthreads] at hu
  rcases List.mem_or_eq_of_mem_set hu with hold | rfl
  · exact hq u hold
  · exact ht'

/-- A thread moves, and is neither woken nor takes an event. -/
theorem enough_move {P : Prop} (hq : q.Enough) (hdefined : q.Defined)
    (hi : q.threads[i]? = some t) (hthreads : q'.threads = q.threads.set i t')
    (hqueue : q'.queue = q.queue) (hold : t.pc.isNotified = false)
    (hnew : t'.pc.isNotified = false) (ht' : t'.pc.isUndefined = false) (hP : P) :
    (q'.Enough ↔ P) ∧ q'.Defined := by
  have hwoken := woken_set hi hthreads
  rw [hold, hnew] at hwoken
  refine ⟨iff_of_true ?_ hP, hdefined.set hthreads ht'⟩
  rw [EventQueue.Enough, hqueue]
  exact (Nat.add_right_cancel hwoken).le.trans hq

/-- The wait of a thread ends by itself. -/
theorem enough_wake (hdefined : q.Defined) (hi : q.threads[i]? = some t)
    (hthreads : q'.threads = q.threads.set i t') (hqueue : q'.queue = q.queue)
    (hold : t.pc.isNotified = false) (hnew : t'.pc.isNotified = true)
    (ht' : t'.pc.isUndefined = false) :
    (q'.Enough ↔ q.woken < q.queue.length) ∧ q'.Defined := by
  have hwoken := woken_set hi hthreads
  rw [hold, hnew] at hwoken
  have hsucc : q'.woken = q.woken + 1 := hwoken
  refine ⟨?_, hdefined.set hthreads ht'⟩
  rw [EventQueue.Enough, hsucc, hqueue, Nat.succ_le_iff]

/-- A thread takes an event. -/
theorem woken_pop (hne : q.queue ≠ []) (hi : q.threads[i]? = some t) :
    (pop q i t).woken + (if t.pc.isNotified then 1 else 0) = q.woken
      ∧ (pop q i t).queue.length + 1 = q.queue.length ∧ (q.Defined → (pop q i t).Defined) := by
  obtain ⟨e, queue, hqueue⟩ := List.exists_cons_of_ne_nil hne
  have hpop : pop q i t
      = { q with queue := queue, threads := q.threads.set i { t with pc := .taken e } } := by
    rw [pop, hqueue]
  have hthreads : (pop q i t).threads = q.threads.set i { t with pc := .taken e } := by rw [hpop]
  have hwoken := woken_set hi hthreads
  refine ⟨hwoken, ?_, fun hdefined => hdefined.set hthreads rfl⟩
  rw [hpop, hqueue, List.length_cons]

theorem not_defined_pop (hempty : q.queue = []) (hi : q.threads[i]? = some t) :
    ¬(pop q i t).Defined := by
  intro hdefined
  rw [pop, hempty] at hdefined
  have hbad := hdefined _ (List.mem_set (List.getElem?_eq_some_iff.mp hi).1 _)
  cases hbad

theorem Pc.Parked.eq_parked {pc : Pc φ} (hpc : pc.Parked) : pc = .parked := by
  cases pc <;> first | rfl | exact hpc.elim

theorem woken_push {e : Event φ} (hstep : step q (.push e) = some q') :
    q'.woken = q.woken + q.waiting := by
  cases hstep
  rw [EventQueue.woken, EventQueue.woken, EventQueue.waiting, notifyAll]
  induction q.threads with
  | nil => rfl
  | cons t threads ih =>
      simp only [List.map_cons, List.countP_cons] at ih ⊢
      rw [ih]
      by_cases hparked : t.pc.Parked
      · have hwake : t.wake.pc.isNotified = true := rfl
        have hsleep : t.pc.isNotified = false := by
          rw [hparked.eq_parked]
          rfl
        rw [if_pos hparked, hwake, hsleep, decide_eq_true hparked]
        simp
        omega
      · rw [if_neg hparked, decide_eq_false hparked]
        simp
        omega

theorem EventQueue.Defined.push {e : Event φ} (hq : q.Defined)
    (hstep : step q (.push e) = some q') : q'.Defined := by
  cases hstep
  rw [EventQueue.Defined, notifyAll, List.forall_mem_map]
  intro t ht
  split_ifs
  · rfl
  · exact hq t ht

theorem enough_run {verbEvent : Bool} (hq : q.Enough) (hdefined : q.Defined)
    (hi : q.threads[i]? = some t) (hrun : run q i t verbEvent = some q') :
    (q'.Enough ↔ (Action.run i verbEvent).Covered q) ∧ q'.Defined := by
  have hcovered : (Action.run i verbEvent).Covered q
      ↔ (t.pc.isLooping → q.queue ≠ [] → q.woken < q.queue.length) := by
    simp [Action.Covered, hi]
  rw [hcovered]
  obtain ⟨pc, logging⟩ := t
  cases pc with
  | looping =>
      rw [run] at hrun
      split_ifs at hrun with hempty
      · cases hrun
        exact enough_move hq hdefined hi rfl rfl rfl rfl rfl
          fun _ hne => absurd (List.length_eq_zero_iff.mp hempty) hne
      · cases hrun
        have hne : q.queue ≠ [] := mt List.length_eq_zero_iff.mpr hempty
        obtain ⟨hwoken, hlength, hdefined'⟩ := woken_pop hne hi
        rw [EventQueue.Enough]
        refine ⟨?_, hdefined' hdefined⟩
        simp only [Pc.isLooping, Pc.isNotified, Bool.false_eq_true, if_false] at hwoken ⊢
        rw [forall_true_left, forall_prop_of_true hne]
        omega
  | notified =>
      cases hrun
      have hpos := woken_pos hi rfl
      have hne : q.queue ≠ [] := List.length_pos_iff.mp (hpos.trans_le hq)
      obtain ⟨hwoken, hlength, hdefined'⟩ := woken_pop hne hi
      refine ⟨iff_of_true ?_ (by simp [Pc.isLooping]), hdefined' hdefined⟩
      rw [EventQueue.Enough] at hq ⊢
      simp only [Pc.isNotified, if_true] at hwoken
      omega
  | entering | taken | updating | leaving =>
      cases hrun
      exact enough_move hq hdefined hi rfl rfl rfl rfl rfl (by simp [Pc.isLooping])
  | outside | parked | executing | undefined => cases hrun

/-- **One step** keeps an event for each thread that has been woken exactly when it is covered. -/
theorem enough_step (hq : q.Enough) (hdefined : q.Defined) (hstep : step q a = some q') :
    (q'.Enough ↔ a.Covered q) ∧ q'.Defined := by
  cases a with
  | push e =>
      refine ⟨?_, hdefined.push hstep⟩
      rw [EventQueue.Enough, woken_push hstep]
      cases hstep
      rw [List.length_append]
      rfl
  | enter i logging =>
      obtain ⟨⟨pc, logging'⟩, hi, hstep⟩ := Option.bind_eq_some_iff.mp hstep
      cases pc <;> cases hstep
      exact enough_move hq hdefined hi rfl rfl rfl rfl rfl trivial
  | run i verbEvent =>
      obtain ⟨t, hi, hrun⟩ := Option.bind_eq_some_iff.mp hstep
      exact enough_run hq hdefined hi hrun
  | finish i terminates =>
      obtain ⟨⟨pc, logging⟩, hi, hstep⟩ := Option.bind_eq_some_iff.mp hstep
      cases pc <;> cases hstep
      cases terminates <;> exact enough_move hq hdefined hi rfl rfl rfl rfl rfl trivial
  | terminate i =>
      obtain ⟨⟨pc, logging⟩, hi, hstep⟩ := Option.bind_eq_some_iff.mp hstep
      cases pc <;> cases hstep
      exact enough_move hq hdefined hi rfl rfl rfl rfl rfl trivial
  | spurious i =>
      obtain ⟨⟨pc, logging⟩, hi, hstep⟩ := Option.bind_eq_some_iff.mp hstep
      cases pc <;> cases hstep
      exact enough_wake hdefined hi rfl rfl rfl rfl rfl

/-! ### Every run -/

theorem exists_resumes (hq : 0 < q.woken) :
    ∃ i t, q.threads[i]? = some t ∧ t.pc.isNotified = true
      ∧ Reaches step Action.Resumes q (pop q i t) := by
  obtain ⟨⟨pc, logging⟩, ht, hpc⟩ := List.countP_pos_iff.mp hq
  obtain ⟨i, hi⟩ := List.getElem?_of_mem ht
  have hstep : step q (.run i false) = some (pop q i ⟨pc, logging⟩) := by
    rw [step, hi, Option.bind_some]
    cases pc <;> first | rfl | cases hpc
  have hresumes : Action.Resumes q (.run i false) := ⟨⟨pc, logging⟩, hi, hpc⟩
  exact ⟨i, ⟨pc, logging⟩, hi, hpc, .tail .refl hresumes hstep⟩

/-- With fewer events than threads that have been woken, these may be the next to go on, and then
one of them finds the queue empty. -/
theorem exists_undefined (hq : ¬q.Enough) :
    ∃ q', Reaches step Action.Resumes q q' ∧ ¬q'.Defined := by
  rw [EventQueue.Enough, not_le] at hq
  induction hlength : q.queue.length generalizing q with
  | zero =>
      obtain ⟨i, t, hi, ht, hreach⟩ := exists_resumes (Nat.zero_lt_of_lt hq)
      exact ⟨_, hreach, not_defined_pop (List.length_eq_zero_iff.mp hlength) hi⟩
  | succ m ih =>
      obtain ⟨i, t, hi, ht, hfirst⟩ := exists_resumes (Nat.zero_lt_of_lt hq)
      have hne : q.queue ≠ [] := List.length_pos_iff.mp (by omega)
      obtain ⟨hwoken, hqueue, -⟩ := woken_pop hne hi
      rw [if_pos ht] at hwoken
      obtain ⟨q', hreach, hundefined⟩ := ih (q := pop q i t) (by omega) (by omega)
      exact ⟨q', hfirst.trans hreach, hundefined⟩

/-- A thread that has been woken goes on to take an event, and needs no other one to do so. -/
theorem resumes_covered (ha : a.Resumes q) : a.Covered q := by
  cases a with
  | run i verbEvent =>
      obtain ⟨t, hi, ht⟩ := ha
      intro u hu hlooping
      obtain rfl : t = u := Option.some.inj (hi.symm.trans hu)
      cases hpc : t.pc <;> simp [hpc, Pc.isNotified, Pc.isLooping] at ht hlooping
  | _ => exact ha.elim

/-- Whatever the threads that have been woken do next, none finds the queue empty. -/
def EventQueue.Secure (q : EventQueue φ) : Prop :=
  ∀ q', Reaches step Action.Resumes q q' → q'.Defined

theorem EventQueue.Secure.defined (hq : q.Secure) : q.Defined := hq q .refl

theorem secure_iff_enough : q.Secure ↔ q.Enough ∧ q.Defined := by
  constructor
  · intro hsecure
    refine ⟨?_, hsecure.defined⟩
    by_contra hnot
    obtain ⟨q', hreach, hundefined⟩ := exists_undefined hnot
    exact hundefined (hsecure q' hreach)
  · intro hq q' hreach
    refine (hreach.invariant (P := fun q => q.Enough ∧ q.Defined) hq ?_).2
    rintro p a p' ⟨hp, hdefined⟩ ha hstep
    obtain ⟨hiff, hdefined'⟩ := enough_step hp hdefined hstep
    exact ⟨hiff.mpr (resumes_covered ha), hdefined'⟩

theorem secure_step (hq : q.Secure) (hstep : step q a = some q') : q'.Secure ↔ a.Covered q := by
  obtain ⟨henough, hdefined⟩ := secure_iff_enough.mp hq
  obtain ⟨hiff, hdefined'⟩ := enough_step henough hdefined hstep
  rw [secure_iff_enough, and_iff_left hdefined', hiff]

theorem secure_init (n : ℕ) : (EventQueue.init n : EventQueue φ).Secure := by
  rw [secure_iff_enough]
  have hthreads : ∀ t ∈ (EventQueue.init n : EventQueue φ).threads, t = ⟨.outside, false⟩ :=
    fun t ht => List.eq_of_mem_replicate ht
  constructor
  · rw [EventQueue.Enough, EventQueue.woken, List.countP_eq_zero.mpr]
    · exact Nat.zero_le _
    · intro t ht
      rw [hthreads t ht]
      exact Bool.false_ne_true
  · intro t ht
    rw [hthreads t ht]
    rfl

/-- In every state of a run the threads that have been woken find an event, each of them, exactly if
each step is covered. -/
theorem secure_iff_covered {input : ℕ → Action φ} {k : ℕ}
    (hk : along step (EventQueue.init n) input k = some q) :
    (∀ j ≤ k, ∀ p, along step (EventQueue.init n) input j = some p → p.Secure)
      ↔ ∀ j < k, ∀ p, along step (EventQueue.init n) input j = some p →
        (input j).Covered p :=
  along_forall_iff EventQueue.Secure (fun p a => a.Covered p) (secure_init n)
    (fun _ _ _ hp hstep => secure_step hp hstep) hk

/-- **Taking an event.** In a run of any number of threads whose steps are covered, with an event
for each thread that a step leaves woken, no thread has called `front` on an empty queue in any
state. The steps are covered exactly if in every state none of the threads that have been woken by
then does so next, in whatever order they go on. -/
theorem defined_of_covered {input : ℕ → Action φ} {k : ℕ}
    (hk : along step (EventQueue.init n) input k = some q) :
    ((∀ j < k, ∀ p, along step (EventQueue.init n) input j = some p → (input j).Covered p) →
        ∀ j ≤ k, ∀ p, along step (EventQueue.init n) input j = some p → p.Defined)
      ∧ ((∀ j < k, ∀ p, along step (EventQueue.init n) input j = some p → (input j).Covered p)
        ↔ ∀ j ≤ k, ∀ p, along step (EventQueue.init n) input j = some p → p.Secure) := by
  have hiff := secure_iff_covered hk
  exact ⟨fun hcovered j hj p hp => (hiff.mpr hcovered j hj p hp).defined, hiff.symm⟩

/-- Threads 0 and 1 wait, and one event wakes them both. -/
def bothWoken (e : Event φ) : List (Action φ) :=
  [.enter 0 false, .run 0 false, .run 0 false, .enter 1 false, .run 1 false, .run 1 false, .push e,
    .run 0 false, .run 1 false]

/-- The push is the step that is not covered: two threads wait, and there is one event. With one
thread in the wait it is covered. -/
theorem defined_of_covered_sample :
    (∃ q : EventQueue ℕ, along step (EventQueue.init 2)
        (fun j => (bothWoken ⟨"tick", 0⟩).getD j (.spurious 0)) 7 = some q
      ∧ ¬∀ j ≤ 7, ∀ p, along step (EventQueue.init 2)
          (fun j => (bothWoken ⟨"tick", 0⟩).getD j (.spurious 0)) j = some p → p.Secure)
    ∧ ∃ q : EventQueue ℕ, along step (EventQueue.init 2)
        (fun j => [.enter 0 false, .run 0 false, .run 0 false, .push ⟨"tick", 0⟩].getD j
          (.run 0 false)) 5 = some q
      ∧ ∀ j ≤ 5, ∀ p, along step (EventQueue.init 2)
          (fun j => [.enter 0 false, .run 0 false, .run 0 false, .push ⟨"tick", 0⟩].getD j
            (.run 0 false)) j = some p → p.Defined := by
  refine ⟨⟨_, rfl, fun hsecure => ?_⟩, _, rfl, (defined_of_covered rfl).1 ?_⟩
  · have hcovered := (defined_of_covered rfl).2.mpr hsecure 6 (by decide) _ rfl
    exact absurd hcovered (by decide)
  · intro j hj p hp
    have hcases : j = 0 ∨ j = 1 ∨ j = 2 ∨ j = 3 ∨ j = 4 := by omega
    rcases hcases with rfl | rfl | rfl | rfl | rfl <;> cases hp <;> decide

/-- The first thread takes the event, and the second calls `front` on the empty queue. -/
theorem not_defined_bothWoken :
    ¬∀ (n : ℕ) (q : EventQueue ℕ), Reaches step (fun _ _ => True) (EventQueue.init n) q →
      q.Defined := by
  intro hdefined
  have hrun : along step (EventQueue.init 2)
      (fun j => (bothWoken ⟨"tick", 0⟩).getD j (.spurious 0)) 9 = some _ := rfl
  exact absurd (hdefined 2 _ (reaches_of_along _ (fun _ _ => trivial) hrun) _
    (.tail _ (.head _))) Bool.noConfusion

end Networking.Sched
