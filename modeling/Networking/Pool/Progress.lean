import Networking.Lib.Fair
import Networking.Pool.Handout
import Networking.Pool.Stop

/-!
# Progress of the pool

In a run that is fair to the workers, every task that is put is handed out in the end, since a
worker that is up comes for the next task after three steps at most, and while there are tasks some
worker is up. Fairness to a worker that executes a task means that the task ends.
-/

namespace Networking.Pool

open Condition Transition

variable {τ : Type} {n : BitVec 8} {p p' : Threadpool τ} {a : Action τ} {i j : ℕ} {pc : Pc τ}

/-! ### What a step does to one worker -/

theorem getElem?_of_put {task : τ} {woken : Option ℕ} (hput : put p task woken = some p')
    (hi : p.threads[i]? = some pc) (hup : ¬pc.Parked) : p'.threads[i]? = some pc := by
  obtain ⟨threads, hnotify, rfl⟩ := Option.map_eq_some_iff.mp hput
  have hstart : ∀ {threads : List (Pc τ)}, threads = (if p.waiting = 0 ∧
      p.threads.length < p.nthreads.toNat then p.threads ++ [.loop] else p.threads) →
      threads[i]? = some pc := by
    intro threads hthreads
    split_ifs at hthreads
    · rw [hthreads, List.getElem?_append_left (List.getElem?_eq_some_iff.mp hi).1, hi]
    · rw [hthreads, hi]
  rcases notifyOne_cases hnotify with ⟨rfl, -⟩ | ⟨j, pc', hj, hparked, rfl⟩
  · exact hstart rfl
  · have hne : j ≠ i := by
      rintro rfl
      obtain rfl : pc' = pc := Option.some.inj (hj.symm.trans (hstart rfl))
      exact hup hparked
    change (List.set _ j _)[i]? = some pc
    rw [List.getElem?_set_ne hne, hstart rfl]

theorem take_threads (p : Threadpool τ) (i : ℕ) :
    ∃ pc', (take p i).threads = p.threads.set i pc' := by
  unfold take
  split
  · split_ifs
    · exact ⟨_, rfl⟩
    · exact ⟨_, rfl⟩
  · exact ⟨_, rfl⟩

theorem run_threads (hstep : step p (.run j) = some p') :
    ∃ pc', p'.threads = p.threads.set j pc' := by
  simp only [step] at hstep
  split at hstep
  · cases hstep
    exact ⟨_, rfl⟩
  · cases hstep
    exact take_threads p j
  · cases hstep
    split_ifs
    · exact take_threads _ j
    · exact ⟨_, rfl⟩
  · cases hstep
    exact ⟨_, rfl⟩
  · cases hstep

theorem spurious_threads (hstep : step p (.spurious j) = some p') :
    p.threads[j]? = some .parked ∧ p' = { p with threads := p.threads.set j .notified } := by
  simp only [step] at hstep
  split at hstep
  case h_1 hpc =>
    cases hstep
    exact ⟨hpc, rfl⟩
  case h_2 => cases hstep

/-- Only its own steps move a worker that is up. -/
theorem getElem?_of_other (ha : a ≠ .stop) (hne : a ≠ .run i) (hstep : step p a = some p')
    (hi : p.threads[i]? = some pc) (hup : ¬pc.Parked) : p'.threads[i]? = some pc := by
  cases a with
  | put task woken => exact getElem?_of_put hstep hi hup
  | run j =>
      obtain ⟨pc', hthreads⟩ := run_threads hstep
      rw [hthreads, List.getElem?_set_ne (by rintro rfl; exact hne rfl), hi]
  | spurious j =>
      obtain ⟨hj, rfl⟩ := spurious_threads hstep
      have hji : j ≠ i := by
        rintro rfl
        obtain rfl : Pc.parked = pc := Option.some.inj (hj.symm.trans hi)
        exact hup trivial
      change (List.set _ j _)[i]? = some pc
      rw [List.getElem?_set_ne hji, hi]
  | stop => exact absurd rfl ha

/-! ### Tasks -/

/-- The steps after which a worker has come for the next task, at most. -/
def Pc.climb : Pc τ → ℕ
  | .exec _ => 3
  | .loop => 2
  | .take | .notified => 1
  | .parked | .returned => 0

/-- A step of a worker that is up hands a task out or brings the worker closer to it. -/
theorem climb_of_run (hinv : Invariant n p) (hqueue : p.queue ≠ [])
    (hstep : step p (.run i) = some p') (hi : p.threads[i]? = some pc) :
    p.handed.length < p'.handed.length
      ∨ p'.handed = p.handed ∧ ∃ pc', p'.threads[i]? = some pc' ∧ ¬pc'.Parked
        ∧ pc'.climb < pc.climb := by
  obtain ⟨hlt, hget⟩ := List.getElem?_eq_some_iff.mp hi
  -- with the queue not empty, `_take` hands out its first task
  have htake : ∀ p : Threadpool τ, p.queue ≠ [] →
      (take p i).handed.length = p.handed.length + 1 := by
    intro p hqueue
    obtain ⟨task, queue, hcons⟩ := List.exists_cons_of_ne_nil hqueue
    rw [take, hcons]
    exact List.length_append
  simp only [step, hi] at hstep
  cases pc with
  | loop =>
      rw [if_pos hinv.running] at hstep
      cases hstep
      exact .inr ⟨rfl, .take, List.getElem?_set_self hlt, id, Nat.lt_succ_self 1⟩
  | take =>
      cases hstep
      rw [htake p hqueue]
      exact .inl (Nat.lt_succ_self _)
  | notified =>
      dsimp only at hstep
      rw [if_pos hinv.running] at hstep
      cases hstep
      left
      have hgrown := htake { p with working := p.working + 1, waiting := p.waiting - 1 } hqueue
      rw [hgrown]
      exact Nat.lt_succ_self _
  | exec task =>
      cases hstep
      exact .inr ⟨rfl, .loop, List.getElem?_set_self hlt, id, Nat.lt_succ_self 2⟩
  | parked | returned => cases hstep

/-- What has been put and what has been handed out only grows. -/
theorem record_of_step (hstep : step p a = some p') :
    p.puts <+: p'.puts ∧ p.handed <+: p'.handed := by
  have htake : ∀ (p : Threadpool τ) (i : ℕ), p.puts <+: (take p i).puts
      ∧ p.handed <+: (take p i).handed := by
    intro p i
    unfold take
    split
    · split_ifs <;> exact ⟨List.prefix_rfl, List.prefix_rfl⟩
    · exact ⟨List.prefix_rfl, List.prefix_append _ _⟩
  cases a with
  | put task woken =>
      obtain ⟨threads, -, rfl⟩ := Option.map_eq_some_iff.mp hstep
      exact ⟨List.prefix_append _ _, List.prefix_rfl⟩
  | run i =>
      simp only [step] at hstep
      split at hstep <;> cases hstep
      · exact ⟨List.prefix_rfl, List.prefix_rfl⟩
      · exact htake p i
      · split_ifs
        · exact htake { p with working := p.working + 1, waiting := p.waiting - 1 } i
        · exact ⟨List.prefix_rfl, List.prefix_rfl⟩
      · exact ⟨List.prefix_rfl, List.prefix_rfl⟩
  | spurious i =>
      obtain ⟨-, rfl⟩ := spurious_threads hstep
      exact ⟨List.prefix_rfl, List.prefix_rfl⟩
  | stop =>
      cases hstep
      exact ⟨List.prefix_rfl, List.prefix_rfl⟩

/-- Task number `m` has been put. -/
structure Asked (n : BitVec 8) (m : ℕ) (p : Threadpool τ) : Prop where
  inv : Invariant n p
  put : m < p.puts.length

theorem Asked.queue {m : ℕ} (h : Asked n m p) (hopen : p.handed.length ≤ m) : p.queue ≠ [] := by
  intro hnil
  have htasks := congrArg List.length h.inv.tasks
  rw [hnil, List.append_nil] at htasks
  have hput := h.put
  omega

theorem Asked.step {m : ℕ} (h : Asked n m p) (hn : 0 < n.toNat) (ha : a ≠ .stop)
    (hstep : Pool.step p a = some p') : Asked n m p' :=
  ⟨h.inv.step hn ha hstep, h.put.trans_le (record_of_step hstep).1.length_le⟩

variable {run : Run step (fun _ a => a ≠ .stop) (Threadpool.init n : Threadpool τ)}

/-- **A round.** While a task that has been put is not handed out, some task is. -/
theorem asked_leadsTo (hn : 0 < n.toNat) (hfair : ∀ i, run.Fair (· = .run i)) (m h : ℕ) :
    run.LeadsTo (fun p => Asked n m p ∧ p.handed.length = h ∧ h ≤ m)
      fun p => Asked n m p ∧ h < p.handed.length := by
  intro k hk
  obtain ⟨hasked, hhanded, hm⟩ := hk
  obtain ⟨pc, hpc, hup⟩ := hasked.inv.awake (hasked.queue (hhanded.le.trans hm))
  obtain ⟨i, hi⟩ := List.getElem?_of_mem hpc
  -- the worker at index `i` is up, and stays so until a task has been handed out
  refine (hfair i).leadsTo
    (fun p => Asked n m p ∧ p.handed.length = h ∧ ∃ pc, p.threads[i]? = some pc ∧ ¬pc.Parked)
    (fun p => Asked n m p ∧ h < p.handed.length) (fun p => (p.threads[i]?.map Pc.climb).getD 0)
    ?_ ?_ k ⟨hasked, hhanded, pc, hi, hup⟩
  · rintro p ⟨hasked, -, pc, hi, hup⟩ -
    obtain ⟨p', hstep⟩ := exists_step_of_awake hi (by rintro rfl; exact hup trivial)
      (hasked.inv.alive pc (List.mem_of_getElem? hi))
    exact ⟨_, p', rfl, nofun, hstep⟩
  · rintro p a p' ⟨hasked, hhanded, pc, hi, hup⟩ - ha hstep
    have hnext := hasked.step hn ha hstep
    rcases (record_of_step hstep).2.length_le.eq_or_lt with hsame | hmore
    · right
      by_cases hrun : a = .run i
      · subst hrun
        rcases climb_of_run hasked.inv (hasked.queue (hhanded.le.trans hm)) hstep hi with
          hgrown | ⟨-, pc', hi', hup', hlt⟩
        · omega
        · refine ⟨⟨hnext, hsame ▸ hhanded, pc', hi', hup'⟩, ?_, fun _ => ?_⟩
          · simpa [hi, hi'] using hlt.le
          · simpa [hi, hi'] using hlt
      · have hi' := getElem?_of_other ha hrun hstep hi hup
        exact ⟨⟨hnext, hsame ▸ hhanded, pc, hi', hup⟩, by rw [hi, hi'], fun h => absurd h hrun⟩
    · exact .inl ⟨hnext, hhanded ▸ hmore⟩

/-- **Every task is handed out.** In every run without `stop` that is fair to the workers, whatever
the interleaving, the task put as number `m` is in the end handed out as number `m`. -/
theorem handed_of_fair (hn : 0 < n.toNat) (hfair : ∀ i, run.Fair (· = .run i)) {k m : ℕ} {task : τ}
    (hput : (run.state k).puts[m]? = some task) :
    ∃ j ≥ k, (run.state j).handed[m]? = some task := by
  have hinv : ∀ k, Invariant n (run.state k) := fun k => (run.reaches k).invariant invariant_init
    fun _ _ _ h ha hstep => h.step hn ha hstep
  have hgoal : run.LeadsTo (Asked n m) fun p => m < p.handed.length := by
    apply Run.leadsTo_of_rounds _ _ fun p => m + 1 - p.handed.length
    rintro c k ⟨hasked, hc⟩
    rcases Nat.lt_or_ge m (run.state k).handed.length with hdone | hopen
    · exact ⟨k, le_rfl, .inl hdone⟩
    · obtain ⟨j, hj, hnext, hmore⟩ :=
        asked_leadsTo hn hfair m (run.state k).handed.length k ⟨hasked, rfl, hopen⟩
      exact ⟨j, hj, .inr ⟨hnext, by omega⟩⟩
  obtain ⟨j, hj, hlt⟩ := hgoal k ⟨hinv k, (List.getElem?_eq_some_iff.mp hput).1⟩
  refine ⟨j, hj, ?_⟩
  have hkeeps : ∀ p a p', (run.state k).puts <+: p.puts → a ≠ .stop → step p a = some p' →
      (run.state k).puts <+: p'.puts :=
    fun p a p' hp _ hstep => hp.trans (record_of_step hstep).1
  obtain ⟨rest, hrest⟩ := run.always hkeeps hj List.prefix_rfl
  calc (run.state j).handed[m]? = (run.state j).puts[m]? := by
        rw [← (hinv j).tasks, List.getElem?_append_left hlt]
    _ = (run.state k).puts[m]? := by
        rw [← hrest, List.getElem?_append_left (List.getElem?_eq_some_iff.mp hput).1]
    _ = some task := hput

/-- A worker takes the task, ends it, and goes to sleep. -/
def oneTask : List (Action ℕ) := .put 7 none :: .replicate 5 (.run 0)

theorem handed_of_fair_one :
    ∃ run : Run step (fun _ a => a ≠ .stop) (Threadpool.init 1 : Threadpool ℕ),
      (∀ i, run.Fair (· = .run i)) ∧ (run.state 1).handed = []
        ∧ ∃ j ≥ 1, (run.state j).handed[0]? = some 7 := by
  have henabled : ∀ k a, oneTask[k]? = some a → a ≠ .stop
      ∧ step (after step (Threadpool.init 1) oneTask k) a
        = some (after step (Threadpool.init 1) oneTask (k + 1)) := by
    intro k a ha
    match k with
    | 0 | 1 | 2 | 3 | 4 | 5 =>
        cases ha
        exact ⟨nofun, rfl⟩
    | k + 6 => cases ha
  let run : Run step (fun _ a => a ≠ .stop) (Threadpool.init 1 : Threadpool ℕ) :=
    .ofList oneTask henabled
  have hfair : ∀ i, run.Fair (· = .run i) := by
    intro i
    apply Run.ofList_fair
    rintro _ rfl
    cases i with
    | zero => rfl
    | succ i => rfl
  exact ⟨run, hfair, rfl, handed_of_fair (by decide) hfair rfl⟩

end Networking.Pool
