import Networking.Pool.Handout

/-!
# Unused capacity

`put` starts a worker only when `_waiting` is 0, and the counter lags: a worker that has been
notified counts until it has the lock. Two tasks put in quick succession may both rely on one such
worker. It takes the first, and the second stays behind it although the pool could start a worker.
The puts after which this can happen are known from the state before them.
-/

namespace Networking.Pool

open Condition Transition

variable {τ : Type} {n : BitVec 8} {p p' q : Threadpool τ} {a : Action τ} {i : ℕ} {pc pc' : Pc τ}
  {task : τ}

def Pc.Busy : Pc τ → Prop
  | .exec _ => True
  | _ => False

/-- A worker that is going to look at the queue before anything else. -/
def Pc.awake : Pc τ → Bool
  | .loop | .take | .notified => true
  | .parked | .exec _ | .returned => false

/-- Nothing can move until a task ends. -/
def Threadpool.Settled (p : Threadpool τ) : Prop := ∀ pc ∈ p.threads, pc.Busy ∨ pc.Parked

/-- No task is left in the queue while there is capacity for it. -/
def Threadpool.Full (p : Threadpool τ) : Prop :=
  p.Settled → p.queue ≠ [] →
    p.threads.length = p.nthreads.toNat ∧ ∀ pc ∈ p.threads, pc.Busy

/-- A `put` that has somebody for the task: a worker that it starts or wakes, one that is awake and
not needed for the tasks before it, or all the workers that there may be. -/
def Action.Covered (p : Threadpool τ) : Action τ → Prop
  | .put _ _ => p.waiting = 0 ∨ p.threads.length = p.nthreads.toNat
      ∨ (∃ pc ∈ p.threads, pc.Parked) ∨ p.queue.length < p.threads.countP Pc.awake
  | _ => True

instance (p : Threadpool τ) : DecidablePred (Action.Covered p)
  | .put _ _ => inferInstanceAs (Decidable (_ ∨ _ ∨ _ ∨ _))
  | .run _ | .spurious _ | .stop => .isTrue trivial

def Action.Works : Action τ → Prop
  | .run _ | .spurious _ => True
  | .put _ _ | .stop => False

/-- Each task in the queue has a worker that is awake, or else no worker is spared. -/
def Threadpool.Room (p : Threadpool τ) : Prop :=
  p.queue.length ≤ p.threads.countP Pc.awake
    ∨ p.threads.length = p.nthreads.toNat ∧ ∀ pc ∈ p.threads, ¬pc.Parked

/-! ### Every task has its worker -/

theorem not_parked_set {threads : List (Pc τ)} (hnone : ∀ pc ∈ threads, ¬pc.Parked)
    (hpc' : ¬pc'.Parked) : ∀ pc ∈ threads.set i pc', ¬pc.Parked := by
  intro pc hpc
  rcases List.mem_or_eq_of_mem_set hpc with hold | rfl
  · exact hnone pc hold
  · exact hpc'

theorem Pc.not_awake (hpc : pc.Busy ∨ pc.Parked) : ¬pc.awake = true := by
  cases pc with
  | exec | parked | returned => exact nofun
  | loop | take | notified => exact (hpc.elim id id).elim

theorem countP_awake_of_settled (hsettled : p.Settled) : p.threads.countP Pc.awake = 0 :=
  List.countP_eq_zero.mpr fun pc hpc => Pc.not_awake (hsettled pc hpc)

theorem Threadpool.Room.full (hroom : p.Room) : p.Full := by
  intro hsettled hqueue
  rcases hroom with hlen | ⟨hsize, hnone⟩
  · rw [countP_awake_of_settled hsettled] at hlen
    exact absurd (List.eq_nil_of_length_eq_zero (Nat.le_zero.mp hlen)) hqueue
  · exact ⟨hsize, fun pc hpc => (hsettled pc hpc).resolve_right (hnone pc hpc)⟩

theorem Threadpool.Room.move (hroom : p.Room) (hpc : p.threads[i]? = some pc)
    (hawake : pc'.awake = true) (hparked : ¬pc'.Parked) :
    Threadpool.Room { p with threads := p.threads.set i pc' } := by
  rcases hroom with hlen | ⟨hsize, hnone⟩
  · have hcount := countP_set_add Pc.awake hpc pc'
    rw [if_pos hawake] at hcount
    have hle : (if pc.awake then 1 else 0) ≤ 1 := by split_ifs <;> omega
    exact .inl (by dsimp only; omega)
  · exact .inr ⟨by rwa [List.length_set], not_parked_set hnone hparked⟩

theorem Threadpool.Room.take (hroom : p.Room) (hrunning : p.running = true)
    (hpc : p.threads[i]? = some .take) : Threadpool.Room (Pool.take p i) := by
  unfold Pool.take
  split
  case h_1 hqueue =>
    rw [if_pos hrunning]
    refine .inl ?_
    rw [hqueue]
    exact Nat.zero_le _
  case h_2 task queue hqueue =>
    rcases hroom with hlen | ⟨hsize, hnone⟩
    · have hcount := countP_set_add Pc.awake hpc (.exec task)
      simp only [Pc.awake, if_true, Bool.false_eq_true, if_false] at hcount
      rw [hqueue, List.length_cons] at hlen
      exact .inl (by dsimp only; omega)
    · exact .inr ⟨by rwa [List.length_set], not_parked_set hnone id⟩

theorem Threadpool.Room.works (hroom : p.Room) (hrunning : p.running = true) (ha : a.Works)
    (hstep : step p a = some p') : p'.Room := by
  cases a with
  | put | stop => exact ha.elim
  | run i =>
      simp only [step] at hstep
      split at hstep
      case h_1 hpc =>
        cases hstep
        rw [if_pos hrunning]
        exact hroom.move hpc rfl id
      case h_2 hpc =>
        cases hstep
        exact hroom.take hrunning hpc
      case h_3 hpc =>
        have hlt := (List.getElem?_eq_some_iff.mp hpc).1
        rw [if_pos hrunning] at hstep
        cases hstep
        have hcounters : Threadpool.Room
            { p with working := p.working + 1, waiting := p.waiting - 1 } := hroom
        have hmove := hcounters.move (i := i) hpc (rfl : (Pc.take : Pc τ).awake = true) id
        have htake := hmove.take hrunning (List.getElem?_set_self hlt)
        rwa [take_set] at htake
      case h_4 hpc =>
        cases hstep
        exact hroom.move hpc rfl id
      case h_5 => cases hstep
  | spurious i =>
      simp only [step] at hstep
      split at hstep
      case h_1 hpc =>
        cases hstep
        exact hroom.move hpc rfl id
      case h_2 => cases hstep

theorem Threadpool.Room.notify {threads : List (Pc τ)} (hroom : p.Room)
    (hthreads : threads = p.threads ∨ threads = p.threads ++ [.loop])
    (hpc : threads[i]? = some pc) (hparked : pc.Parked) :
    p.queue.length + 1 ≤ (threads.set i .notified).countP Pc.awake := by
  have hmem : pc ∈ p.threads := by
    have hmem := List.mem_of_getElem? hpc
    rcases hthreads with rfl | rfl
    · exact hmem
    · rcases List.mem_append.mp hmem with hold | hnew
      · exact hold
      · rw [List.mem_singleton.mp hnew] at hparked
        exact hparked.elim
  have hlen := hroom.resolve_right fun hfull => hfull.2 pc hmem hparked
  have hle : p.threads.countP Pc.awake ≤ threads.countP Pc.awake := by
    rcases hthreads with rfl | rfl
    · exact le_rfl
    · rw [List.countP_append]
      exact Nat.le_add_right _ _
  have hcount := countP_set_add Pc.awake hpc .notified
  rw [if_neg (Pc.not_awake (.inr hparked)), if_pos (by rfl)] at hcount
  omega

theorem Threadpool.Room.put {woken : Option ℕ} (h : Invariant n p) (hroom : p.Room)
    (hcovered : (Action.put task woken).Covered p) (hput : Pool.put p task woken = some p') :
    p'.Room := by
  obtain ⟨threads', hnotify, rfl⟩ := Option.map_eq_some_iff.mp hput
  rcases notifyOne_cases hnotify with ⟨rfl, hnone⟩ | ⟨j, pc, hpc, hparked, rfl⟩
  · split_ifs at hnone ⊢ with hspawn
    · have hlen := hroom.resolve_right fun hfull => hspawn.2.ne hfull.1
      refine .inl ?_
      rw [List.length_append, List.countP_append]
      exact Nat.add_le_add_right hlen 1
    · rcases hcovered with hzero | hsize | ⟨pc, hpc, hparked⟩ | hspare
      · have hge : p.nthreads.toNat ≤ p.threads.length :=
          Nat.le_of_not_lt fun hlt => hspawn ⟨hzero, hlt⟩
        exact .inr ⟨le_antisymm (h.nthreads ▸ h.size) hge, hnone⟩
      · exact .inr ⟨hsize, hnone⟩
      · exact absurd hparked (hnone pc hpc)
      · refine .inl ?_
        rw [List.length_append, List.length_singleton]
        exact hspare
  · refine .inl ?_
    rw [List.length_append, List.length_singleton]
    refine hroom.notify ?_ hpc hparked
    split_ifs
    · exact .inr rfl
    · exact .inl rfl

theorem Threadpool.Room.step (h : Invariant n p) (hroom : p.Room) (ha : a ≠ .stop)
    (hcovered : a.Covered p) (hstep : Pool.step p a = some p') : p'.Room := by
  cases a with
  | put task woken => exact hroom.put h hcovered hstep
  | run i => exact hroom.works h.running (a := .run i) trivial hstep
  | spurious i => exact hroom.works h.running (a := .spurious i) trivial hstep
  | stop => exact absurd rfl ha

/-! ### A put that is not covered -/

/-- The queue is longer than what the workers that are awake will take from it, none is parked,
and there are fewer workers than there may be. -/
structure Short (n : BitVec 8) (p : Threadpool τ) : Prop where
  invariant : Invariant n p
  behind : p.threads.countP Pc.awake < p.queue.length
  size : p.threads.length < n.toNat
  none_parked : ∀ pc ∈ p.threads, ¬pc.Parked

theorem Invariant.short {woken : Option ℕ} (h : Invariant n p)
    (hcovered : ¬(Action.put task woken).Covered p) (hput : Pool.put p task woken = some p')
    (h' : Invariant n p') : Short n p' := by
  simp only [Action.Covered, not_or, not_lt] at hcovered
  obtain ⟨hwaiting, hsize, hnone, hbehind⟩ := hcovered
  obtain ⟨threads', hnotify, rfl⟩ := Option.map_eq_some_iff.mp hput
  rw [if_neg fun hspawn => hwaiting hspawn.1] at hnotify
  rcases notifyOne_cases hnotify with ⟨rfl, hnone'⟩ | ⟨j, pc, hpc, hparked, -⟩
  · refine ⟨h', ?_, ?_, hnone'⟩
    · rw [List.length_append, List.length_singleton]
      exact Nat.lt_succ_of_le hbehind
    · rw [h.nthreads] at hsize
      exact lt_of_le_of_ne h.size hsize
  · exact absurd ⟨pc, List.mem_of_getElem? hpc, hparked⟩ hnone

/-- A worker that has not come to the critical section of `_take`. -/
def Pc.outside : Pc τ → Bool
  | .loop => true
  | .take | .parked | .notified | .exec _ | .returned => false

/-- The steps of a worker until it executes a task, when there are enough. -/
def Pc.ahead (pc : Pc τ) : ℕ := (if pc.awake then 1 else 0) + if pc.outside then 1 else 0

theorem Short.move (h : Short n p) (hpc : p.threads[i]? = some pc) (h' : Invariant n p')
    (hthreads : p'.threads = p.threads.set i pc') (hqueue : p'.queue = p.queue)
    (hawake : pc'.awake = pc.awake) (hparked : ¬pc'.Parked) : Short n p' := by
  refine ⟨h', ?_, ?_, ?_⟩
  · have hcount := countP_set_add Pc.awake hpc pc'
    rw [hawake] at hcount
    rw [hthreads, hqueue, Nat.add_right_cancel hcount]
    exact h.behind
  · rw [hthreads, List.length_set]
    exact h.size
  · rw [hthreads]
    exact not_parked_set h.none_parked hparked

theorem Short.take (h : Short n p) (hpc : p.threads[i]? = some .take) :
    Short n (Pool.take p i) ∧ ∃ task, (Pool.take p i).threads = p.threads.set i (.exec task) := by
  have h' := h.invariant.take hpc
  have hbehind := h.behind
  obtain ⟨task, queue, hqueue⟩ :=
    List.exists_cons_of_ne_nil (List.ne_nil_of_length_pos (Nat.zero_lt_of_lt hbehind))
  have hcount := countP_set_add Pc.awake hpc (.exec task)
  simp only [Pc.awake, if_true, Bool.false_eq_true, if_false] at hcount
  rw [hqueue, List.length_cons] at hbehind
  simp only [Pool.take, hqueue] at h' ⊢
  refine ⟨⟨h', ?_, ?_, not_parked_set h.none_parked id⟩, task, rfl⟩
  · dsimp only
    omega
  · rw [List.length_set]
    exact h.size

/-- A worker that is awake goes on to a task, and the queue remains too long for the others. -/
theorem Short.exists_step (h : Short n p) (hpc : p.threads[i]? = some pc)
    (hawake : pc.awake = true) :
    ∃ p', step p (.run i) = some p' ∧ Short n p'
      ∧ ∃ pc', p'.threads = p.threads.set i pc' ∧ pc'.ahead < pc.ahead := by
  have hlt := (List.getElem?_eq_some_iff.mp hpc).1
  cases pc with
  | parked | exec | returned => cases hawake
  | loop =>
      have h' := h.invariant.move hpc (rfl : (Pc.take : Pc τ).waits = _) id nofun
      refine ⟨_, ?_, h.move hpc h' rfl rfl rfl id, .take, rfl, Nat.one_lt_two⟩
      simp only [step, hpc, h.invariant.running, if_true]
  | take =>
      obtain ⟨h', task, htask⟩ := h.take hpc
      refine ⟨_, ?_, h', .exec task, htask, Nat.one_pos⟩
      simp only [step, hpc]
  | notified =>
      have hmove := h.move hpc (h.invariant.wake hpc) rfl rfl rfl id
      obtain ⟨h', task, htask⟩ := hmove.take (List.getElem?_set_self hlt)
      rw [List.set_set] at htask
      refine ⟨_, ?_, h', .exec task, htask, Nat.one_pos⟩
      simp only [step, hpc]
      rw [if_pos h.invariant.running]
      exact congrArg some
        (take_set { p with working := p.working + 1, waiting := p.waiting - 1 } i .take).symm

theorem Invariant.settled (h : Invariant n p) (hawake : ∀ pc ∈ p.threads, ¬pc.awake = true) :
    p.Settled := by
  intro pc hpc
  have hasleep := hawake pc hpc
  have halive := h.alive pc hpc
  cases pc with
  | loop | take | notified => exact absurd rfl hasleep
  | parked => exact .inr trivial
  | exec => exact .inl trivial
  | returned => exact absurd rfl halive

/-- When all workers that are awake have gone on, each executes a task, and one task is left. -/
theorem Short.exists_not_full (h : Short n p) :
    ∃ q, Reaches step (fun _ a => a.Works) p q ∧ ¬q.Full := by
  induction hahead : p.threads.countP Pc.awake + p.threads.countP Pc.outside
    using Nat.strong_induction_on generalizing p with
  | _ k ih =>
      by_cases hawake : ∃ pc ∈ p.threads, pc.awake = true
      · obtain ⟨pc, hmem, hawake⟩ := hawake
        obtain ⟨i, hi⟩ := List.getElem?_of_mem hmem
        obtain ⟨p', hstep, h', pc', hthreads, hless⟩ := h.exists_step hi hawake
        have hcount := countP_set_add Pc.awake hi pc'
        have houtside := countP_set_add Pc.outside hi pc'
        rw [← hthreads] at hcount houtside
        unfold Pc.ahead at hless
        obtain ⟨q, hreach, hfull⟩ := ih _ (by omega) h' rfl
        have hfirst : Reaches step (fun _ a => a.Works) p p' :=
          .tail (a := .run i) .refl trivial hstep
        exact ⟨q, hfirst.trans hreach, hfull⟩
      · refine ⟨p, .refl, fun hfull => ?_⟩
        have hsettled := h.invariant.settled fun pc hpc hpcAwake => hawake ⟨pc, hpc, hpcAwake⟩
        have hqueue := List.ne_nil_of_length_pos (Nat.zero_lt_of_lt h.behind)
        have hsize := (hfull hsettled hqueue).1
        rw [h.invariant.nthreads] at hsize
        exact h.size.ne hsize

/-! ### Every run -/

theorem room_init : (Threadpool.init n : Threadpool τ).Room := .inl (Nat.zero_le _)

/-- Whatever the workers do before the next `put`, no task is left while there is capacity. -/
def Threadpool.Served (p : Threadpool τ) : Prop :=
  ∀ q, Reaches step (fun _ a => a.Works) p q → q.Full

theorem Action.Works.ne_stop (ha : a.Works) : a ≠ .stop := by
  rintro rfl
  exact ha

theorem Threadpool.Room.served (hn : 0 < n.toNat) (h : Invariant n p) (hroom : p.Room) :
    p.Served := by
  intro q hreach
  have hq := hreach.invariant (P := fun q => Invariant n q ∧ q.Room) ⟨h, hroom⟩
    fun _ _ _ ht ha hstep => ⟨ht.1.step hn ha.ne_stop hstep, ht.2.works ht.1.running ha hstep⟩
  exact hq.2.full

theorem Invariant.short_of_not_covered (h : Invariant n p) (hcovered : ¬a.Covered p)
    (hstep : Pool.step p a = some p') (h' : Invariant n p') : Short n p' := by
  cases a with
  | put task woken => exact h.short hcovered hstep h'
  | run | spurious | stop => exact absurd trivial hcovered

theorem invariant_room_of_along (hn : 0 < n.toNat) {input : ℕ → Action τ} {k : ℕ}
    (hinput : ∀ j, input j ≠ .stop) (hk : along step (Threadpool.init n) input k = some p)
    (hcovered : ∀ j < k, ∀ q, along step (Threadpool.init n) input j = some q →
      (input j).Covered q) : Invariant n p ∧ p.Room := by
  induction k generalizing p with
  | zero =>
      cases hk
      exact ⟨invariant_init, room_init⟩
  | succ k ih =>
      obtain ⟨q, hq, hstep⟩ := Option.bind_eq_some_iff.mp hk
      obtain ⟨h, hroom⟩ := ih hq fun j hj => hcovered j (Nat.lt_succ_of_lt hj)
      exact ⟨h.step hn (hinput k) hstep,
        hroom.step h (hinput k) (hcovered k (Nat.lt_succ_self k) q hq) hstep⟩

/-- **No task waits for capacity that there is.** In every run before `stop`, the workers never come
to a state where each executes a task or is parked, tasks are left, and a worker could be started or
is parked, exactly when every `put` of the run finds somebody for its task. -/
theorem served_iff_covered (hn : 0 < n.toNat) {input : ℕ → Action τ}
    (hinput : ∀ j, input j ≠ .stop) {k : ℕ}
    (hk : along step (Threadpool.init n) input k = some p) :
    (∀ j ≤ k, ∀ q, along step (Threadpool.init n) input j = some q → q.Served)
      ↔ ∀ j < k, ∀ q, along step (Threadpool.init n) input j = some q → (input j).Covered q := by
  constructor
  · intro hserved j
    induction j using Nat.strong_induction_on with
    | _ j ih =>
        intro hj q hq
        obtain ⟨h, -⟩ := invariant_room_of_along hn hinput hq
          fun i hi => ih i hi (lt_trans hi hj)
        cases hstep : step q (input j) with
        | none =>
            rw [along_of_halt hq hstep hj] at hk
            cases hk
        | some q' =>
            by_contra hnot
            have h' := h.step hn (hinput j) hstep
            obtain ⟨r, hreach, hfull⟩ := (h.short_of_not_covered hnot hstep h').exists_not_full
            have hq' := (along_succ hq).trans hstep
            exact hfull (hserved (j + 1) hj q' hq' r hreach)
  · intro hcovered j hj q hq
    obtain ⟨h, hroom⟩ := invariant_room_of_along hn hinput hq
      fun i hi => hcovered i (lt_of_lt_of_le hi hj)
    exact hroom.served hn h

/-- Two tasks are put while the only worker is parked, and it takes the first of them. -/
def twoPuts : List (Action ℕ) :=
  [.put 1 none, .run 0, .run 0, .run 0, .run 0, .run 0, .put 2 (some 0), .put 3 none, .run 0]

theorem twoPuts_ne_stop (j : ℕ) : twoPuts.getD j (.spurious 0) ≠ .stop := by
  have hputs : ∀ a ∈ twoPuts, a ≠ .stop := by simp [twoPuts]
  rw [List.getD_eq_getElem?_getD]
  cases hj : twoPuts[j]? with
  | none => exact nofun
  | some a => exact hputs a (List.mem_of_getElem? hj)

/-- Up to the second of them nothing is left behind; the third finds the worker woken, but not for
it. -/
theorem served_iff_covered_sample :
    (∃ p, along step (Threadpool.init 2) (fun j => twoPuts.getD j (.spurious 0)) 7 = some p
      ∧ ∀ j ≤ 7, ∀ q, along step (Threadpool.init 2)
        (fun j => twoPuts.getD j (.spurious 0)) j = some q → q.Served)
    ∧ ∃ p, along step (Threadpool.init 2) (fun j => twoPuts.getD j (.spurious 0)) 8 = some p
      ∧ ¬∀ j ≤ 8, ∀ q, along step (Threadpool.init 2)
        (fun j => twoPuts.getD j (.spurious 0)) j = some q → q.Served := by
  refine ⟨⟨_, rfl, (served_iff_covered (by decide) twoPuts_ne_stop rfl).mpr ?_⟩, _, rfl,
    fun hserved => ?_⟩
  · intro j hj p hp
    have hcases : j = 0 ∨ j = 1 ∨ j = 2 ∨ j = 3 ∨ j = 4 ∨ j = 5 ∨ j = 6 := by omega
    rcases hcases with rfl | rfl | rfl | rfl | rfl | rfl | rfl <;> cases hp <;> decide
  · have hcovered := (served_iff_covered (by decide) twoPuts_ne_stop rfl).mp hserved 7
      (by decide) _ rfl
    exact absurd hcovered (by decide)

/-- The second task is left behind the first, although the pool could start a second worker. -/
theorem not_full_twoPuts :
    ¬∀ (n : BitVec 8) (p : Threadpool ℕ), 0 < n.toNat →
      Reaches step (fun _ a => a ≠ .stop) (Threadpool.init n) p → p.Full := by
  intro hfull
  have hrun : along step (Threadpool.init 2) (fun j => twoPuts.getD j (.spurious 0)) 9 = some _ :=
    rfl
  have hreach := reaches_of_along (fun _ a => a ≠ .stop) (fun _ => twoPuts_ne_stop) hrun
  have hsize := (hfull 2 _ (by decide) hreach ?_ nofun).1
  · exact absurd hsize (by decide)
  · intro pc hpc
    rw [List.mem_singleton.mp hpc]
    exact .inl trivial

end Networking.Pool
