import Networking.Pool.Threadpool

/-!
# What the pool does with its tasks

Before `stop`, tasks are handed out in the order in which they were put, and a task in the queue is
never left to workers that all sleep. The counter `_waiting` also counts the workers that have been
notified but do not have the lock yet. So when `put` neither starts a worker nor finds one to
notify, one of these is on its way, or all the workers there may be are up.
-/

namespace Networking.Pool

open Condition Transition

variable {τ : Type} {n : BitVec 8} {p p' : Threadpool τ} {i : ℕ} {pc pc' : Pc τ} {task : τ}

structure Invariant (n : BitVec 8) (p : Threadpool τ) : Prop where
  running : p.running = true
  nthreads : p.nthreads = n
  tasks : p.handed ++ p.queue = p.puts
  size : p.threads.length ≤ n.toNat
  waiting : p.waiting = BitVec.ofNat 8 (p.threads.countP Pc.waits)
  alive : ∀ pc ∈ p.threads, pc ≠ .returned
  awake : p.queue ≠ [] → ∃ pc ∈ p.threads, ¬pc.Parked

theorem invariant_init : Invariant n (Threadpool.init n : Threadpool τ) where
  running := rfl
  nthreads := rfl
  tasks := rfl
  size := Nat.zero_le _
  waiting := rfl
  alive := by simp [Threadpool.init]
  awake h := absurd rfl h

/-! ### A worker moves -/

theorem countP_waits_set {threads : List (Pc τ)} (hpc : threads[i]? = some pc)
    (hwaits : pc'.waits = pc.waits) :
    (threads.set i pc').countP Pc.waits = threads.countP Pc.waits := by
  have hcount := countP_set_add Pc.waits hpc pc'
  rw [hwaits] at hcount
  exact Nat.add_right_cancel hcount

theorem Invariant.move (h : Invariant n p) (hpc : p.threads[i]? = some pc)
    (hwaits : pc'.waits = pc.waits) (hparked : ¬pc'.Parked) (halive : pc' ≠ .returned) :
    Invariant n { p with threads := p.threads.set i pc' } where
  running := h.running
  nthreads := h.nthreads
  tasks := h.tasks
  size := by simpa using h.size
  waiting := by
    rw [countP_waits_set hpc hwaits]
    exact h.waiting
  alive q hq := by
    rcases List.mem_or_eq_of_mem_set hq with hold | rfl
    · exact h.alive q hold
    · exact halive
  awake _ := ⟨pc', List.mem_set (List.getElem?_eq_some_iff.mp hpc).1 _, hparked⟩

/-- A worker goes to sleep only when the queue is empty, and takes the first task otherwise. -/
theorem Invariant.take (h : Invariant n p) (hpc : p.threads[i]? = some .take) :
    Invariant n (Pool.take p i) := by
  have hlt := (List.getElem?_eq_some_iff.mp hpc).1
  unfold Pool.take
  split
  case h_1 hqueue =>
    rw [if_pos h.running]
    have hget : p.threads[i] = .take := (List.getElem?_eq_some_iff.mp hpc).2
    refine ⟨h.running, h.nthreads, h.tasks, by simpa using h.size, ?_, ?_, absurd hqueue⟩
    · rw [List.countP_set hlt, hget, h.waiting, BitVec.ofNat_add]
      rfl
    · intro q hq
      rcases List.mem_or_eq_of_mem_set hq with hold | rfl
      · exact h.alive q hold
      · exact nofun
  case h_2 task queue hqueue =>
    have hmove := h.move hpc (rfl : (Pc.exec task).waits = _) id nofun
    refine ⟨hmove.running, hmove.nthreads, ?_, hmove.size, hmove.waiting, hmove.alive,
      fun _ => ⟨.exec task, List.mem_set hlt _, id⟩⟩
    have htasks := h.tasks
    rw [hqueue] at htasks
    rw [List.append_assoc]
    exact htasks

theorem Invariant.wake (h : Invariant n p) (hpc : p.threads[i]? = some .notified) :
    Invariant n { p with
      working := p.working + 1
      waiting := p.waiting - 1
      threads := p.threads.set i .take } := by
  obtain ⟨hlt, hget⟩ := List.getElem?_eq_some_iff.mp hpc
  have hpos : 0 < p.threads.countP Pc.waits :=
    List.countP_pos_iff.mpr ⟨_, List.getElem_mem hlt, by rw [hget]; rfl⟩
  obtain ⟨k, hk⟩ : ∃ k, p.threads.countP Pc.waits = k + 1 :=
    ⟨_, (Nat.succ_pred_eq_of_pos hpos).symm⟩
  refine ⟨h.running, h.nthreads, h.tasks, by simpa using h.size, ?_, ?_,
    fun _ => ⟨.take, List.mem_set hlt _, id⟩⟩
  · have hcount : (p.threads.set i .take).countP Pc.waits = k := by
      rw [List.countP_set hlt, hget, hk]
      rfl
    rw [hcount, h.waiting, hk, BitVec.ofNat_add]
    exact BitVec.add_sub_cancel _ _
  · intro q hq
    rcases List.mem_or_eq_of_mem_set hq with hold | rfl
    · exact h.alive q hold
    · exact nofun

theorem take_set (p : Threadpool τ) (i : ℕ) (pc : Pc τ) :
    take { p with threads := p.threads.set i pc } i = take p i := by
  simp only [take, List.set_set]

/-- After `put`, some worker is up: one that was started, one that was notified, or one that did not
sleep. -/
theorem Invariant.put {woken : Option ℕ} (h : Invariant n p) (hn : 0 < n.toNat)
    (hput : Pool.put p task woken = some p') : Invariant n p' := by
  obtain ⟨threads', hnotify, rfl⟩ := Option.map_eq_some_iff.mp hput
  -- a pool without workers starts one, since none is waiting and `nthreads` is positive
  have hstart : ∀ {threads : List (Pc τ)}, threads = (if p.waiting = 0 ∧
      p.threads.length < p.nthreads.toNat then p.threads ++ [.loop] else p.threads) →
      threads ≠ [] ∧ threads.length ≤ n.toNat
        ∧ threads.countP Pc.waits = p.threads.countP Pc.waits
        ∧ ∀ pc ∈ threads, pc ≠ .returned := by
    intro threads hthreads
    split_ifs at hthreads with hspawn
    · subst hthreads
      refine ⟨by simp, ?_, by simp [Pc.waits], fun pc hpc => ?_⟩
      · have hlt := hspawn.2
        rw [h.nthreads] at hlt
        rw [List.length_append, List.length_singleton]
        exact hlt
      · rcases List.mem_append.mp hpc with hold | hnew
        · exact h.alive pc hold
        · rw [List.mem_singleton.mp hnew]
          exact nofun
    · subst hthreads
      refine ⟨?_, h.size, rfl, h.alive⟩
      intro hnone
      refine hspawn ⟨?_, ?_⟩
      · rw [h.waiting, hnone]
        rfl
      · rw [hnone, h.nthreads]
        exact hn
  obtain ⟨hne, hsize, hcount, halive⟩ := hstart rfl
  refine ⟨h.running, h.nthreads, ?_, ?_, ?_, ?_, fun _ =>
    exists_not_parked_of_notifyOne (fun _ => id) hne hnotify⟩
  · rw [← List.append_assoc, h.tasks]
  · rcases notifyOne_cases hnotify with ⟨rfl, -⟩ | ⟨j, pc, -, -, rfl⟩
    · exact hsize
    · simpa using hsize
  · rcases notifyOne_cases hnotify with ⟨rfl, -⟩ | ⟨j, pc, hpc, hparked, rfl⟩
    · rw [hcount]
      exact h.waiting
    · have hwaits : Pc.waits (.notified : Pc τ) = pc.waits := by
        cases pc <;> first | rfl | exact absurd hparked id
      rw [countP_waits_set hpc hwaits, hcount]
      exact h.waiting
  · rcases notifyOne_cases hnotify with ⟨rfl, -⟩ | ⟨j, pc, -, -, rfl⟩
    · exact halive
    · intro q hq
      rcases List.mem_or_eq_of_mem_set hq with hold | rfl
      · exact halive q hold
      · exact nofun

theorem Invariant.step {a : Action τ} (h : Invariant n p) (hn : 0 < n.toNat) (ha : a ≠ .stop)
    (hstep : Pool.step p a = some p') : Invariant n p' := by
  cases a with
  | put task woken => exact h.put hn hstep
  | run i =>
      simp only [Pool.step] at hstep
      split at hstep
      case h_1 hpc =>
        cases hstep
        rw [if_pos h.running]
        exact h.move hpc rfl id nofun
      case h_2 hpc =>
        cases hstep
        exact h.take hpc
      case h_3 hpc =>
        have hlt := (List.getElem?_eq_some_iff.mp hpc).1
        rw [if_pos h.running] at hstep
        cases hstep
        have htake := (h.wake hpc).take (i := i) (List.getElem?_set_self hlt)
        rwa [take_set { p with working := p.working + 1, waiting := p.waiting - 1 }] at htake
      case h_4 hpc =>
        cases hstep
        exact h.move hpc rfl id nofun
      case h_5 => cases hstep
  | spurious i =>
      simp only [Pool.step] at hstep
      split at hstep
      case h_1 hpc =>
        cases hstep
        exact h.move hpc rfl id nofun
      case h_2 => cases hstep
  | stop => exact absurd rfl ha

/-- **No task is lost or stranded before `stop`.** Under every interleaving, the tasks handed out
and those in the queue are the tasks put, in order; and while there are tasks in the queue, some
worker is not asleep. -/
theorem handed_and_awake (hn : 0 < n.toNat)
    (hreach : Reaches step (fun _ a => a ≠ .stop) (Threadpool.init n : Threadpool τ) p) :
    p.handed ++ p.queue = p.puts
      ∧ (p.queue ≠ [] → ∃ pc ∈ p.threads, pc ≠ .parked ∧ pc ≠ .returned) := by
  have h : Invariant n p := hreach.invariant invariant_init
    fun _ _ _ h ha hstep => h.step hn ha hstep
  refine ⟨h.tasks, fun hqueue => ?_⟩
  obtain ⟨pc, hpc, hawake⟩ := h.awake hqueue
  refine ⟨pc, hpc, ?_, h.alive pc hpc⟩
  rintro rfl
  exact hawake trivial

theorem handed_and_awake_sample :
    ∃ p : Threadpool ℕ, (p.handed = [7] ∧ p.queue = [8]) ∧ p.handed ++ p.queue = p.puts
      ∧ (p.queue ≠ [] → ∃ pc ∈ p.threads, pc ≠ .parked ∧ pc ≠ .returned) := by
  have hput : Reaches step (fun _ a => a ≠ .stop) (Threadpool.init 1 : Threadpool ℕ) _ :=
    .tail (a := .put 8 none) (.tail (a := .put 7 none) .refl nofun rfl) nofun rfl
  have htake : Reaches step (fun _ a => a ≠ .stop) (Threadpool.init 1 : Threadpool ℕ) _ :=
    .tail (a := .run 0) (.tail (a := .run 0) hput nofun rfl) nofun rfl
  exact ⟨_, ⟨rfl, rfl⟩, handed_and_awake (by decide) htake⟩

end Networking.Pool
