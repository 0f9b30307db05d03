import Networking.Lib.Fair
import Networking.Sched.Order

/-!
# Progress of the loop

With one thread at a time in `enter`, in a run that is fair to the threads, an event that is pushed
is executed in the end, unless the loop is left and nobody ever enters again. It does not matter how
many events are pushed meanwhile, nor how often the loop is terminated. Fairness to a thread that
executes an event means that the event ends.
-/

namespace Networking.Sched

open Condition Transition

variable {φ : Type} {q q' : EventQueue φ} {t : Thread φ} {i j h m : ℕ} {a : Action φ}

/-- The steps of the thread at index `i` behind its call of `enter`. -/
def Action.Moves (i : ℕ) : Action φ → Prop
  | .run j _ | .finish j _ | .terminate j => j = i
  | _ => False

/-- The steps after which a thread inside has taken up an event or has left, at most. -/
def Pc.climb : Pc φ → ℕ
  | .executing _ => 5
  | .entering | .updating _ => 4
  | .looping | .notified => 3
  | .taken _ => 2
  | .leaving => 1
  | .outside | .parked | .undefined => 0

/-- A thread that has not executed an event since it was outside. -/
def Pc.Fresh : Pc φ → Prop
  | .executing _ | .updating _ | .leaving => False
  | _ => True

/-! ### What a step does to the thread inside -/

theorem Orderly.at_thread (horder : Orderly q) (hi : q.threads[i]? = some t)
    (hin : t.pc ≠ .outside) : Alone q.threads i ∧ ∃ history, Holds history q t.pc := by
  obtain ⟨history, pc, hinside, hholds⟩ := horder
  cases hinside with
  | nobody hall => exact absurd (hall t (List.mem_of_getElem? hi)) hin
  | @one j u hj _ halone =>
      obtain rfl : i = j := by
        by_contra hne
        exact hin (halone i t hi hne)
      obtain rfl : u = t := Option.some.inj (hj.symm.trans hi)
      exact ⟨halone, history, hholds⟩

/-- With an event pending, a thread without one finds the queue not empty. -/
theorem Holds.queue {history : List (Event φ × Bool)} {pc : Pc φ} (hholds : Holds history q pc)
    (hhand : pc.inHand = []) (hpending : q.executed.length < q.pushed.length) : q.queue ≠ [] := by
  intro hnil
  have horder := congrArg List.length hholds.order
  rw [hhand, hnil, List.append_nil, List.append_nil] at horder
  omega

/-- A step of the thread inside, with an event pending. -/
theorem climb_of_run {history : List (Event φ × Bool)} {verbEvent : Bool}
    (hi : q.threads[i]? = some t) (hholds : Holds history q t.pc)
    (hpending : q.executed.length < q.pushed.length)
    (hstep : step q (.run i verbEvent) = some q') :
    q.executed.length < q'.executed.length
      ∨ q'.executed = q.executed ∧ ∃ t', q'.threads = q.threads.set i t'
        ∧ t'.pc.climb < t.pc.climb ∧ (t.pc.Fresh → t'.pc.Fresh ∧ t'.pc ≠ .outside) := by
  have hpop : t.pc.inHand = [] → ∃ e, (pop q i t).executed = q.executed
      ∧ (pop q i t).threads = q.threads.set i { t with pc := .taken e } := by
    intro hhand
    obtain ⟨e, queue, hcons⟩ := List.exists_cons_of_ne_nil (hholds.queue hhand hpending)
    rw [pop, hcons]
    exact ⟨e, rfl, rfl⟩
  rw [step, hi, Option.bind_some, run] at hstep
  split at hstep
  case h_1 hpc =>
    cases hstep
    refine .inr ⟨rfl, _, rfl, ?_, fun _ => ⟨trivial, fun h => by cases h⟩⟩
    rw [hpc]
    exact Nat.lt_succ_self 3
  case h_2 hpc =>
    rw [if_neg fun hempty => hholds.queue (by rw [hpc]; rfl) hpending
      (List.eq_nil_of_length_eq_zero hempty)] at hstep
    obtain ⟨e, hexecuted, hthreads⟩ := hpop (by rw [hpc]; rfl)
    cases hstep
    refine .inr ⟨hexecuted, _, hthreads, ?_, fun _ => ⟨trivial, fun h => by cases h⟩⟩
    rw [hpc]
    exact Nat.lt_succ_self 2
  case h_3 hpc =>
    obtain ⟨e, hexecuted, hthreads⟩ := hpop (by rw [hpc]; rfl)
    cases hstep
    refine .inr ⟨hexecuted, _, hthreads, ?_, fun _ => ⟨trivial, fun h => by cases h⟩⟩
    rw [hpc]
    exact Nat.lt_succ_self 2
  case h_4 e hpc =>
    cases hstep
    left
    simp only [EventQueue.executed, List.filterMap_append, List.length_append]
    exact Nat.lt_succ_self _
  case h_5 e hpc =>
    cases hstep
    refine .inr ⟨?_, _, rfl, ?_, fun hfresh => ?_⟩
    · rw [executed_append rfl rfl]
      exact List.append_nil _
    · rw [hpc]
      exact Nat.lt_succ_self 3
    · rw [hpc] at hfresh
      exact hfresh.elim
  case h_6 hpc =>
    cases hstep
    refine .inr ⟨rfl, _, rfl, ?_, fun hfresh => ?_⟩
    · rw [hpc]
      exact Nat.lt_succ_self 0
    · rw [hpc] at hfresh
      exact hfresh.elim
  case h_7 => cases hstep

theorem climb_of_finish {terminates : Bool} (hi : q.threads[i]? = some t)
    (hstep : step q (.finish i terminates) = some q') :
    q'.executed = q.executed ∧ ∃ t', q'.threads = q.threads.set i t'
      ∧ t'.pc.climb < t.pc.climb ∧ ¬t.pc.Fresh := by
  rw [step, hi, Option.bind_some, finish] at hstep
  split at hstep
  case h_2 => cases hstep
  case h_1 e hpc =>
    cases hstep
    refine ⟨?_, _, rfl, ?_, ?_⟩
    · rw [executed_append rfl rfl]
      cases terminates <;> exact List.append_nil _
    · rw [hpc]
      cases terminates
      · exact Nat.lt_succ_self 4
      · exact Nat.lt_of_sub_eq_succ rfl
    · rw [hpc]
      exact id

theorem Pc.woken_of_ne {pc : Pc φ} (h : pc ≠ .parked) : pc.woken = pc := by
  cases pc with
  | parked => exact absurd rfl h
  | outside | entering | looping | notified | taken | executing | updating | leaving
    | undefined => rfl

/-- A push changes nothing of what has been executed, and wakes only those that are parked. -/
theorem executed_of_push {e : Event φ} (hstep : step q (.push e) = some q') :
    q'.executed = q.executed ∧ ∀ j : ℕ, (q'.threads[j]?).map Thread.pc
      = (q.threads[j]?).map fun t : Thread φ => t.pc.woken := by
  cases hstep
  refine ⟨rfl, fun j => ?_⟩
  change (List.map _ q.threads)[j]?.map Thread.pc = _
  rw [List.getElem?_map, Option.map_map]
  congr 1
  funext t
  dsimp only [Function.comp_apply]
  rw [Pc.woken]
  split_ifs <;> rfl

/-- A thread that steps inside is active. -/
theorem active_of_moves (ha : a.Moves j) (hstep : step q a = some q') :
    ∃ t, q.threads[j]? = some t ∧ t.pc ≠ .outside := by
  cases a with
  | run i verbEvent =>
      obtain rfl : i = j := ha
      obtain ⟨t, hi, hrun⟩ := Option.bind_eq_some_iff.mp hstep
      refine ⟨t, hi, fun hout => ?_⟩
      rw [run, hout] at hrun
      cases hrun
  | finish i terminates =>
      obtain rfl : i = j := ha
      obtain ⟨t, hi, hfinish⟩ := Option.bind_eq_some_iff.mp hstep
      refine ⟨t, hi, fun hout => ?_⟩
      rw [finish, hout] at hfinish
      cases hfinish
  | terminate i =>
      obtain rfl : i = j := ha
      obtain ⟨t, hi, hterminate⟩ := Option.bind_eq_some_iff.mp hstep
      refine ⟨t, hi, fun hout => ?_⟩
      rw [terminate, hout] at hterminate
      cases hterminate
  | push | enter | spurious => exact ha.elim

/-! ### Rounds -/

/-- The record only grows. -/
theorem record_of_step (hstep : step q a = some q') :
    q.pushed <+: q'.pushed ∧ q.notes <+: q'.notes := by
  have hpop : ∀ (i : ℕ) (t : Thread φ), q.pushed <+: (pop q i t).pushed
      ∧ q.notes <+: (pop q i t).notes := by
    intro i t
    unfold pop
    split <;> exact ⟨List.prefix_rfl, List.prefix_rfl⟩
  cases a with
  | push e =>
      cases hstep
      exact ⟨List.prefix_append _ _, List.prefix_rfl⟩
  | enter i logging =>
      obtain ⟨t, -, henter⟩ := Option.bind_eq_some_iff.mp hstep
      split at henter <;> cases henter
      exact ⟨List.prefix_rfl, List.prefix_rfl⟩
  | run i verbEvent =>
      obtain ⟨t, -, hrun⟩ := Option.bind_eq_some_iff.mp hstep
      unfold run at hrun
      split at hrun
      case h_1 =>
        cases hrun
        exact ⟨List.prefix_rfl, List.prefix_rfl⟩
      case h_2 =>
        split_ifs at hrun
        · cases hrun
          exact ⟨List.prefix_rfl, List.prefix_rfl⟩
        · cases hrun
          exact hpop i t
      case h_3 =>
        cases hrun
        exact hpop i t
      case h_4 =>
        cases hrun
        exact ⟨List.prefix_rfl, List.prefix_append _ _⟩
      case h_5 =>
        cases hrun
        exact ⟨List.prefix_rfl, List.prefix_append _ _⟩
      case h_6 =>
        cases hrun
        exact ⟨List.prefix_rfl, List.prefix_rfl⟩
      case h_7 => cases hrun
  | finish i terminates =>
      obtain ⟨t, -, hfinish⟩ := Option.bind_eq_some_iff.mp hstep
      unfold finish at hfinish
      split at hfinish <;> cases hfinish
      exact ⟨List.prefix_rfl, List.prefix_append _ _⟩
  | terminate i =>
      obtain ⟨t, -, hterminate⟩ := Option.bind_eq_some_iff.mp hstep
      unfold terminate at hterminate
      split at hterminate <;> cases hterminate
      exact ⟨List.prefix_rfl, List.prefix_append _ _⟩
  | spurious i =>
      obtain ⟨t, -, hspurious⟩ := Option.bind_eq_some_iff.mp hstep
      split at hspurious <;> cases hspurious
      exact ⟨List.prefix_rfl, List.prefix_rfl⟩

theorem executed_of_step (hstep : step q a = some q') : q.executed <+: q'.executed := by
  obtain ⟨rest, hrest⟩ := (record_of_step hstep).2
  rw [EventQueue.executed, EventQueue.executed, ← hrest, List.filterMap_append]
  exact List.prefix_append _ _

/-- An event is pending, `h` events have been executed, and the thread at index `i` is inside; if
`fresh`, it has not executed an event since it was outside. -/
structure Pending (h i : ℕ) (fresh : Prop) (q : EventQueue φ) : Prop where
  order : Orderly q
  executed : q.executed.length = h
  pushed : h < q.pushed.length
  inside : ∃ t, q.threads[i]? = some t ∧ t.pc ≠ .outside ∧ (fresh → t.pc.Fresh)

def Pending.rank (i : ℕ) (q : EventQueue φ) : ℕ := (q.threads[i]?.map fun t => t.pc.climb).getD 0

/-- One more event has been executed, or all threads are outside. -/
def Round (h : ℕ) (fresh : Prop) (q : EventQueue φ) : Prop :=
  h < q.executed.length ∨ ¬fresh ∧ ∀ t ∈ q.threads, t.pc = .outside

theorem all_outside (halone : Alone q.threads i) (hout : t.pc = .outside)
    (hi : i < q.threads.length) : ∀ u ∈ q.threads.set i t, u.pc = .outside := by
  intro u hu
  obtain ⟨j, hj⟩ := List.getElem?_of_mem hu
  by_cases hji : j = i
  · rw [hji, List.getElem?_set_self hi] at hj
    rw [← Option.some.inj hj, hout]
  · exact halone.set t j u hj hji

theorem Pending.step {fresh : Prop} (hp : Pending h i fresh q) (ha : OneInside q a)
    (hstep : Sched.step q a = some q') :
    Round h fresh q' ∨ Pending h i fresh q' ∧ rank i q' ≤ rank i q
      ∧ (a.Moves i → rank i q' < rank i q) := by
  have horder := hp.order.step ha hstep
  have hpushed : h < q'.pushed.length := hp.pushed.trans_le (record_of_step hstep).1.length_le
  obtain ⟨t, hi, hin, hfresh⟩ := hp.inside
  obtain ⟨halone, history, hholds⟩ := hp.order.at_thread hi hin
  have hlt := (List.getElem?_eq_some_iff.mp hi).1
  -- a step of a thread that is inside is one of this thread
  have hself : ∀ j, a.Moves j → j = i := by
    intro j hj
    obtain ⟨u, hu, hactive⟩ := active_of_moves hj hstep
    by_contra hne
    exact hactive (halone j u hu hne)
  have hmoved : ∀ t', q'.executed = q.executed → q'.threads = q.threads.set i t' →
      t'.pc.climb < t.pc.climb → (fresh → t'.pc.Fresh ∧ t'.pc ≠ .outside) →
      Round h fresh q' ∨ Pending h i fresh q' ∧ rank i q' ≤ rank i q
        ∧ (a.Moves i → rank i q' < rank i q) := by
    intro t' hexecuted hthreads hclimb hkeeps
    have hi' : q'.threads[i]? = some t' := by rw [hthreads, List.getElem?_set_self hlt]
    by_cases hout : t'.pc = .outside
    · left
      refine .inr ⟨fun hf => (hkeeps hf).2 hout, ?_⟩
      rw [hthreads]
      exact all_outside halone hout hlt
    · right
      refine ⟨⟨horder, ?_, hpushed, t', hi', hout, fun hf => (hkeeps hf).1⟩, ?_, fun _ => ?_⟩
      · rw [hexecuted, hp.executed]
      · simpa [rank, hi, hi'] using hclimb.le
      · simpa [rank, hi, hi'] using hclimb
  cases a with
  | push e =>
      obtain ⟨hexecuted, hwoken⟩ := executed_of_push hstep
      have hnot : t.pc ≠ .parked := fun hparked =>
        hholds.queue (by rw [hparked]; rfl) (by rw [hp.executed]; exact hp.pushed)
          (hholds.parked hparked)
      have hi' := hwoken i
      rw [hi, Option.map_some, Pc.woken_of_ne hnot] at hi'
      obtain ⟨t', ht', hpc⟩ := Option.map_eq_some_iff.mp hi'
      right
      refine ⟨⟨horder, ?_, hpushed, t', ht', ?_, ?_⟩, ?_, nofun⟩
      · rw [hexecuted, hp.executed]
      · rwa [hpc]
      · rwa [hpc]
      · simp [rank, hi, ht', hpc]
  | enter j logging => exact absurd (ha t (List.mem_of_getElem? hi)) hin
  | spurious j | terminate j => exact absurd ha id
  | run j verbEvent =>
      obtain rfl := hself j rfl
      rcases climb_of_run hi hholds (by rw [hp.executed]; exact hp.pushed) hstep with
        hmore | ⟨hexecuted, t', hthreads, hclimb, hkeeps⟩
      · rw [hp.executed] at hmore
        exact .inl (.inl hmore)
      · exact hmoved t' hexecuted hthreads hclimb fun hf => hkeeps (hfresh hf)
  | finish j terminates =>
      obtain rfl := hself j rfl
      obtain ⟨hexecuted, t', hthreads, hclimb, hnot⟩ := climb_of_finish hi hstep
      exact hmoved t' hexecuted hthreads hclimb fun hf => absurd (hfresh hf) hnot

/-! ### Every fair run -/

variable {n : ℕ} {run : Run step OneInside (EventQueue.init n : EventQueue φ)}

theorem orderly_state (run : Run step OneInside (EventQueue.init n : EventQueue φ)) (k : ℕ) :
    Orderly (run.state k) :=
  (run.reaches k).invariant (orderly_init n) fun _ _ _ h ha hstep => h.step ha hstep

/-- **A round.** With an event pending, one more is executed or the loop is left. A thread that has
just come in executes one before it leaves. -/
theorem pending_leadsTo (hfair : ∀ i, run.Fair (Action.Moves i)) (h i : ℕ) (fresh : Prop) :
    run.LeadsTo (Pending h i fresh) (Round h fresh) := by
  apply (hfair i).leadsTo _ _ (Pending.rank i)
  · intro q hp _
    obtain ⟨t, hi, hin, -⟩ := hp.inside
    obtain ⟨-, history, hholds⟩ := hp.order.at_thread hi hin
    have hrun : (Sched.run q i t true).isSome →
        ∃ a u, Action.Moves i a ∧ OneInside q a ∧ step q a = some u := by
      intro hsome
      obtain ⟨q', hq⟩ := Option.isSome_iff_exists.mp hsome
      exact ⟨.run i true, q', rfl, trivial, by rw [step, hi, Option.bind_some, hq]⟩
    cases hpc : t.pc with
    | outside => exact absurd hpc hin
    | undefined => exact absurd hpc hholds.defined
    | parked =>
        have hpending : q.executed.length < q.pushed.length := hp.executed ▸ hp.pushed
        exact absurd (hholds.parked hpc) (hholds.queue (by rw [hpc]; rfl) hpending)
    | executing e =>
        have hsome : (Sched.finish q i t false).isSome := by rw [Sched.finish, hpc]; rfl
        obtain ⟨q', hq⟩ := Option.isSome_iff_exists.mp hsome
        exact ⟨.finish i false, q', rfl, trivial, by rw [step, hi, Option.bind_some, hq]⟩
    | looping =>
        apply hrun
        rw [Sched.run, hpc]
        dsimp only
        split_ifs <;> rfl
    | entering | notified | taken | updating | leaving =>
        apply hrun
        rw [Sched.run, hpc]
        rfl
  · intro q a q' hp _ ha hstep
    exact hp.step ha hstep

/-- Event number `h` is pending and no thread inside has executed an event yet, or it has been
executed. -/
structure Renewed (h : ℕ) (q : EventQueue φ) : Prop where
  order : Orderly q
  pushed : h < q.pushed.length
  fresh : h < q.executed.length ∨ q.executed.length = h ∧ ∀ t ∈ q.threads, t.pc.Fresh

theorem fresh_set {t' : Thread φ} (hfresh : t'.pc.Fresh) (hall : ∀ t ∈ q.threads, t.pc.Fresh) :
    ∀ t ∈ q.threads.set i t', t.pc.Fresh := by
  intro u hu
  rcases List.mem_or_eq_of_mem_set hu with hold | rfl
  · exact hall u hold
  · exact hfresh

theorem Renewed.step (hq : Renewed h q) (ha : OneInside q a) (hstep : Sched.step q a = some q') :
    Renewed h q' := by
  have hpushed : h < q'.pushed.length := hq.pushed.trans_le (record_of_step hstep).1.length_le
  refine ⟨hq.order.step ha hstep, hpushed, ?_⟩
  rcases hq.fresh with hmore | ⟨hsame, hall⟩
  · exact .inl (hmore.trans_le (executed_of_step hstep).length_le)
  cases a with
  | push e =>
      obtain ⟨hexecuted, hwoken⟩ := executed_of_push hstep
      refine .inr ⟨hexecuted ▸ hsame, fun u hu => ?_⟩
      obtain ⟨j, hj⟩ := List.getElem?_of_mem hu
      have hpc := hwoken j
      rw [hj, Option.map_some] at hpc
      obtain ⟨t, ht, hpc⟩ := Option.map_eq_some_iff.mp hpc.symm
      rw [← hpc, Pc.woken]
      split_ifs
      · trivial
      · exact hall t (List.mem_of_getElem? ht)
  | enter i logging =>
      obtain ⟨t, -, henter⟩ := Option.bind_eq_some_iff.mp hstep
      split at henter <;> cases henter
      exact .inr ⟨hsame, fresh_set trivial hall⟩
  | spurious i | terminate i => exact absurd ha id
  | run i verbEvent =>
      obtain ⟨t, hi, hin⟩ := active_of_moves (a := .run i verbEvent) (j := i) rfl hstep
      obtain ⟨-, history, hholds⟩ := hq.order.at_thread hi hin
      rcases climb_of_run hi hholds (by rw [hsame]; exact hq.pushed) hstep with
        hmore | ⟨hexecuted, t', hthreads, -, hkeeps⟩
      · exact .inl (hsame ▸ hmore)
      · refine .inr ⟨hexecuted ▸ hsame, ?_⟩
        rw [hthreads]
        exact fresh_set (hkeeps (hall t (List.mem_of_getElem? hi))).1 hall
  | finish i terminates =>
      obtain ⟨t, hi, -⟩ := active_of_moves (a := .finish i terminates) (j := i) rfl hstep
      obtain ⟨-, t', -, -, hnot⟩ := climb_of_finish hi hstep
      exact absurd (hall t (List.mem_of_getElem? hi)) hnot

/-- **An event pending is executed**, if the loop is entered again and again. -/
theorem executed_of_pending (hfair : ∀ i, run.Fair (Action.Moves i))
    (hagain : ∀ k, ∃ j ≥ k, ∃ t ∈ (run.state j).threads, t.pc ≠ .outside) {k : ℕ}
    (hh : (run.state k).executed.length = h) (hpushed : h < (run.state k).pushed.length) :
    ∃ j ≥ k, h < (run.state j).executed.length := by
  -- from a time on, with some thread inside, to the next execution or to the way out
  have hround : ∀ k (fresh : Prop), (run.state k).executed.length = h →
      h < (run.state k).pushed.length →
      (∃ t ∈ (run.state k).threads, t.pc ≠ .outside ∧ (fresh → t.pc.Fresh)) →
      ∃ j ≥ k, Round h fresh (run.state j) := by
    rintro k fresh hh hpushed ⟨t, ht, hin⟩
    obtain ⟨i, hi⟩ := List.getElem?_of_mem ht
    exact pending_leadsTo hfair h i fresh k ⟨orderly_state run k, hh, hpushed, t, hi, hin⟩
  by_contra hnever
  push Not at hnever
  have hgrows : ∀ {j l}, j ≤ l → (run.state j).executed.length ≤ (run.state l).executed.length
      ∧ (run.state j).pushed.length ≤ (run.state l).pushed.length := by
    intro j l hjl
    refine run.always (I := fun q => (run.state j).executed.length ≤ q.executed.length
      ∧ (run.state j).pushed.length ≤ q.pushed.length) ?_ hjl ⟨le_rfl, le_rfl⟩
    rintro q a q' ⟨hexecuted, hpushed⟩ - hstep
    exact ⟨hexecuted.trans (executed_of_step hstep).length_le,
      hpushed.trans (record_of_step hstep).1.length_le⟩
  have hsame : ∀ j ≥ k, (run.state j).executed.length = h
      ∧ h < (run.state j).pushed.length := fun j hj =>
    ⟨le_antisymm (hnever j hj) (hh ▸ (hgrows hj).1), hpushed.trans_le (hgrows hj).2⟩
  -- the loop is left without a further event
  obtain ⟨j, hj, hout⟩ : ∃ j ≥ k, ∀ t ∈ (run.state j).threads, t.pc = .outside := by
    obtain ⟨j, hj, t, ht, hin⟩ := hagain k
    obtain ⟨l, hl, hmore | hout⟩ :=
      hround j False (hsame j hj).1 (hsame j hj).2 ⟨t, ht, hin, False.elim⟩
    · exact absurd hmore (hnever l (hl.trans' hj)).not_gt
    · exact ⟨l, hl.trans' hj, hout.2⟩
  -- whoever enters then takes the event up first
  obtain ⟨l, hl, t, ht, hin⟩ := hagain j
  have hrenewed : Renewed h (run.state l) :=
    run.always (fun _ _ _ hq ha hstep => hq.step ha hstep) hl
      ⟨orderly_state run j, (hsame j hj).2, .inr ⟨(hsame j hj).1, fun t ht => by
        rw [hout t ht]
        trivial⟩⟩
  have hkl := hl.trans' hj
  rcases hrenewed.fresh with hmore | ⟨-, hall⟩
  · exact absurd hmore (hnever l hkl).not_gt
  · obtain ⟨i, hi, hmore | hout⟩ :=
      hround l True (hsame l hkl).1 (hsame l hkl).2 ⟨t, ht, hin, fun _ => hall t ht⟩
    · exact absurd hmore (hnever i (hi.trans' hkl)).not_gt
    · exact hout.1 trivial

/-- **Every event is executed.** In every run with one thread at a time inside that is fair to the
threads, the event pushed as number `m` is in the end executed as number `m`, unless from some time
on no thread is inside. -/
theorem executed_of_fair (hfair : ∀ i, run.Fair (Action.Moves i)) {k m : ℕ} {e : Event φ}
    (hpushed : (run.state k).pushed[m]? = some e) :
    (∃ j ≥ k, (run.state j).executed[m]? = some e)
      ∨ ∃ j, ∀ l ≥ j, ∀ t ∈ (run.state l).threads, t.pc = .outside := by
  by_cases hleft : ∃ j, ∀ l ≥ j, ∀ t ∈ (run.state l).threads, t.pc = .outside
  · exact .inr hleft
  left
  push Not at hleft
  have hlt := (List.getElem?_eq_some_iff.mp hpushed).1
  have hkept : ∀ j ≥ k, (run.state k).pushed <+: (run.state j).pushed := fun j hj =>
    run.always (fun _ _ _ hq _ hstep => List.IsPrefix.trans hq (record_of_step hstep).1) hj
      List.prefix_rfl
  -- one event after the other, up to number `m`
  have hreached : ∀ d ≤ m + 1, ∃ j ≥ k, d ≤ (run.state j).executed.length := by
    intro d hd
    induction d with
    | zero => exact ⟨k, le_rfl, Nat.zero_le _⟩
    | succ d ih =>
        obtain ⟨j, hj, hle⟩ := ih (by omega)
        rcases hle.eq_or_lt with hsame | hmore
        · have hpending : d < (run.state j).pushed.length := by
            have hlength := (hkept j hj).length_le
            omega
          obtain ⟨l, hl, hmore⟩ := executed_of_pending hfair hleft hsame.symm hpending
          exact ⟨l, hl.trans' hj, hmore⟩
        · exact ⟨j, hj, hmore⟩
  obtain ⟨j, hj, hle⟩ := hreached (m + 1) le_rfl
  obtain ⟨history, pc, -, hholds⟩ := orderly_state run j
  obtain ⟨rest, hrest⟩ := hkept j hj
  refine ⟨j, hj, ?_⟩
  calc (run.state j).executed[m]? = (run.state j).pushed[m]? := by
        rw [← hholds.order, List.append_assoc, List.getElem?_append_left hle]
    _ = (run.state k).pushed[m]? := by rw [← hrest, List.getElem?_append_left hlt]
    _ = some e := hpushed

/-- A thread executes an event and waits for the next. -/
def oneEvent : List (Action ℕ) :=
  [.enter 0 false, .run 0 true, .push ⟨noName, 7⟩, .run 0 true, .run 0 true, .finish 0 false,
    .run 0 true, .run 0 true]

theorem executed_of_fair_one :
    ∃ run : Run step OneInside (EventQueue.init 1 : EventQueue ℕ),
      (∀ i, run.Fair (Action.Moves i)) ∧ (run.state 3).executed = []
        ∧ ((∃ j ≥ 3, (run.state j).executed[0]? = some ⟨noName, 7⟩)
          ∨ ∃ j, ∀ l ≥ j, ∀ t ∈ (run.state l).threads, t.pc = .outside) := by
  have henabled : ∀ k a, oneEvent[k]? = some a →
      OneInside (after step (EventQueue.init 1) oneEvent k) a
        ∧ step (after step (EventQueue.init 1) oneEvent k) a
          = some (after step (EventQueue.init 1) oneEvent (k + 1)) := by
    intro k a ha
    match k with
    | 0 =>
        cases ha
        refine ⟨fun t ht => ?_, rfl⟩
        rw [(List.mem_replicate.mp ht).2]
    | 1 | 2 | 3 | 4 | 5 | 6 | 7 =>
        cases ha
        exact ⟨trivial, rfl⟩
    | k + 8 => cases ha
  let run : Run step OneInside (EventQueue.init 1 : EventQueue ℕ) := .ofList oneEvent henabled
  have hfair : ∀ i, run.Fair (Action.Moves i) := by
    intro i
    apply Run.ofList_fair
    intro a ha
    cases a with
    | run j verbEvent => cases j <;> rfl
    | finish j terminates => cases j <;> rfl
    | terminate j => cases j <;> rfl
    | push | enter | spurious => exact ha.elim
  exact ⟨run, hfair, rfl, executed_of_fair hfair rfl⟩

end Networking.Sched
