import Mathlib.Order.Nat

/-!
# Computations with fuel

A loop or a recursion whose end is not evident is a function of a fuel that fails when the fuel runs
out. `Returns f a` says that the computation comes to an end and what it gives: from some fuel on,
`f` is `a`. The rules below build such facts along the structure of the computation.
-/

namespace Fuel

variable {ε : Type*} {α β : Type}

@[simp]
theorem ok_bind (a : α) (g : α → Except ε β) : (Except.ok a >>= g) = g a := rfl

@[simp]
theorem error_bind (e : ε) (g : α → Except ε β) : (Except.error e >>= g) = .error e := rfl

theorem bind_eq_ok {x : Except ε α} {g : α → Except ε β} {b : β} :
    x >>= g = .ok b ↔ ∃ a, x = .ok a ∧ g a = .ok b := by
  cases x with
  | error e => simp
  | ok a => simp

/-- From some fuel on, the computation returns `a`. -/
def Returns (f : ℕ → Except ε α) (a : α) : Prop := ∃ depth, ∀ fuel, depth ≤ fuel → f fuel = .ok a

variable {f g : ℕ → Except ε α} {a b : α}

theorem returns_of_forall (h : ∀ fuel, f fuel = .ok a) : Returns f a := ⟨0, fun fuel _ => h fuel⟩

theorem Returns.unique (ha : Returns f a) (hb : Returns f b) : a = b := by
  obtain ⟨n, hn⟩ := ha
  obtain ⟨m, hm⟩ := hb
  have h := (hn (max n m) (le_max_left n m)).symm.trans (hm (max n m) (le_max_right n m))
  exact Except.ok.inj h

theorem Returns.succ (hg : Returns g a) (hstep : ∀ fuel, f (fuel + 1) = g fuel) : Returns f a := by
  obtain ⟨depth, hdepth⟩ := hg
  refine ⟨depth + 1, fun fuel hfuel => ?_⟩
  obtain ⟨fuel, rfl⟩ : ∃ n, fuel = n + 1 := ⟨fuel - 1, by omega⟩
  rw [hstep, hdepth fuel (by omega)]

theorem returns_of_ok (hstep : ∀ fuel, f (fuel + 1) = .ok a) : Returns f a :=
  (returns_of_forall fun _ => rfl).succ hstep

theorem Returns.bind {k : α → ℕ → Except ε β} {b : β} (hf : Returns f a) (hk : Returns (k a) b) :
    Returns (fun fuel => f fuel >>= fun x => k x fuel) b := by
  obtain ⟨n, hn⟩ := hf
  obtain ⟨m, hm⟩ := hk
  refine ⟨max n m, fun fuel hfuel => ?_⟩
  change (f fuel >>= fun x => k x fuel) = .ok b
  rw [hn fuel (le_trans (le_max_left n m) hfuel), ok_bind,
    hm fuel (le_trans (le_max_right n m) hfuel)]

theorem Returns.map (hf : Returns f a) (k : α → β) :
    Returns (fun fuel => f fuel >>= fun x => .ok (k x)) (k a) :=
  hf.bind (k := fun x _ => .ok (k x)) (returns_of_forall fun _ => rfl)

/-- Once its first half returns, a sequence returns what its second half does. -/
theorem Returns.bind_iff {k : α → ℕ → Except ε β} {b : β} (hf : Returns f a) :
    Returns (fun fuel => f fuel >>= fun x => k x fuel) b ↔ Returns (k a) b := by
  refine ⟨fun h => ?_, hf.bind⟩
  obtain ⟨n, hn⟩ := hf
  obtain ⟨m, hm⟩ := h
  refine ⟨max n m, fun fuel hfuel => ?_⟩
  have hrun := hm fuel (le_trans (le_max_right n m) hfuel)
  dsimp only at hrun
  rwa [hn fuel (le_trans (le_max_left n m) hfuel), ok_bind] at hrun

theorem Returns.congr (hf : Returns f a) (h : ∀ fuel, g fuel = f fuel) : Returns g a := by
  obtain ⟨depth, hdepth⟩ := hf
  exact ⟨depth, fun fuel hfuel => (h fuel).trans (hdepth fuel hfuel)⟩

theorem Returns.mapError {ε' : Type*} (hf : Returns f a) (g : ε → ε') :
    Returns (fun fuel => (f fuel).mapError g) a := by
  obtain ⟨depth, hdepth⟩ := hf
  refine ⟨depth, fun fuel hfuel => ?_⟩
  dsimp only
  rw [hdepth fuel hfuel]
  rfl

/-- With enough fuel, the computation comes to an end: to a result, or to a failure other than `e`,
which stands for the fuel that ran out. -/
def Ends (e : ε) (f : ℕ → Except ε α) : Prop := ∃ fuel, f fuel ≠ .error e

variable {e : ε}

theorem ends_of_ok (hstep : ∀ fuel, f (fuel + 1) = .ok a) : Ends e f := by
  refine ⟨1, ?_⟩
  rw [hstep 0]
  exact nofun

theorem ends_of_error {e' : ε} (hne : e' ≠ e) (hstep : ∀ fuel, f (fuel + 1) = .error e') :
    Ends e f :=
  ⟨1, fun h => hne (Except.error.inj ((hstep 0).symm.trans h))⟩

theorem Ends.succ (hg : Ends e g) (hstep : ∀ fuel, f (fuel + 1) = g fuel) : Ends e f := by
  obtain ⟨fuel, hfuel⟩ := hg
  exact ⟨fuel + 1, by rwa [hstep]⟩

theorem ends_succ_iff (hzero : f 0 = .error e) (hstep : ∀ fuel, f (fuel + 1) = g fuel) :
    Ends e f ↔ Ends e g := by
  refine ⟨fun hf => ?_, fun hg => hg.succ hstep⟩
  obtain ⟨fuel, hfuel⟩ := hf
  cases fuel with
  | zero => exact absurd hzero hfuel
  | succ fuel => exact ⟨fuel, by rwa [← hstep]⟩

theorem not_ends (h : ∀ fuel, f fuel = .error e) : ¬Ends e f := fun ⟨fuel, hfuel⟩ => hfuel (h fuel)

theorem ends_map_iff (k : α → β) :
    Ends e (fun fuel => f fuel >>= fun x => .ok (k x)) ↔ Ends e f := by
  refine exists_congr fun fuel => not_congr ?_
  dsimp only
  cases f fuel with
  | error e' => rw [error_bind, Except.error.injEq, Except.error.injEq]
  | ok a =>
      rw [ok_bind]
      exact iff_of_false nofun nofun

/-! ### Failures -/

/-- More fuel changes nothing once it has not run out. -/
def Stable (e : ε) (f : ℕ → Except ε α) : Prop :=
  ∀ fuel, f fuel ≠ .error e → f (fuel + 1) = f fuel

theorem Stable.le (hf : Stable e f) {fuel more : ℕ} (hle : fuel ≤ more) (h : f fuel ≠ .error e) :
    f more = f fuel := by
  induction more, hle using Nat.le_induction with
  | base => rfl
  | succ more _ ih => rw [hf more (by rwa [ih]), ih]

theorem Stable.returns (hf : Stable e f) {fuel : ℕ} (h : f fuel = .ok a) : Returns f a := by
  refine ⟨fuel, fun more hle => (hf.le hle ?_).trans h⟩
  rw [h]
  exact nofun

theorem stable_const (x : Except ε α) : Stable e fun _ => x := fun _ _ => rfl

theorem Stable.bind (hf : Stable e f) {g : α → ℕ → Except ε β} (hg : ∀ a, Stable e (g a)) :
    Stable e fun fuel => f fuel >>= fun a => g a fuel := by
  intro fuel h
  dsimp only at h ⊢
  cases ha : f fuel with
  | error e' =>
      have hne : f fuel ≠ .error e := by
        rintro hf'
        rw [hf', error_bind] at h
        exact h rfl
      rw [hf fuel hne, ha]
      rfl
  | ok a =>
      have hne : f fuel ≠ .error e := by
        rw [ha]
        exact nofun
      rw [ha, ok_bind] at h
      rw [hf fuel hne, ha, ok_bind, ok_bind]
      exact hg a fuel h

/-- The computation fails in no way but for want of fuel. -/
def Safe (e : ε) (f : ℕ → Except ε α) : Prop := ∀ fuel e', f fuel = .error e' → e' = e

theorem safe_ok (a : α) : Safe e fun _ => .ok a := fun _ _ h => nomatch h

/-- **A result** is there exactly when the computation neither fails nor goes on for ever. -/
theorem exists_returns_iff (hf : Stable e f) : (∃ a, Returns f a) ↔ Safe e f ∧ Ends e f := by
  constructor
  · rintro ⟨a, depth, hdepth⟩
    refine ⟨fun fuel e' he => ?_, depth, fun h => nomatch (hdepth depth le_rfl).symm.trans h⟩
    by_contra hne
    have hmore := hf.le (le_max_left fuel depth) (by
      rw [he]
      exact fun h => hne (Except.error.inj h))
    rw [hdepth _ (le_max_right fuel depth), he] at hmore
    cases hmore
  · rintro ⟨hsafe, fuel, hfuel⟩
    cases h : f fuel with
    | error e' =>
        rw [h, hsafe fuel e' h] at hfuel
        exact absurd rfl hfuel
    | ok a => exact ⟨a, hf.returns h⟩

theorem Stable.returns_bind_iff (hf : Stable e f) {g : α → ℕ → Except ε β} {b : β} :
    Returns (fun fuel => f fuel >>= fun a => g a fuel) b ↔ ∃ a, Returns f a ∧ Returns (g a) b := by
  constructor
  · intro h
    obtain ⟨depth, hdepth⟩ := h
    obtain ⟨a, ha, -⟩ := bind_eq_ok.mp (hdepth depth le_rfl)
    have hreturns : Returns f a := hf.returns ha
    exact ⟨a, hreturns, hreturns.bind_iff.mp ⟨depth, hdepth⟩⟩
  · rintro ⟨a, ha, hb⟩
    exact ha.bind hb

theorem exists_returns_bind_iff {g : α → ℕ → Except ε β} (hf : Stable e f) :
    (∃ b, Returns (fun fuel => f fuel >>= fun a => g a fuel) b)
      ↔ ∃ a, Returns f a ∧ ∃ b, Returns (g a) b := by
  simp only [hf.returns_bind_iff]
  rw [exists_comm]
  simp only [exists_and_left]

/-- **A sequence is safe** when its first half is, and its second half on every result. -/
theorem safe_bind_iff {g : α → ℕ → Except ε β} (hf : Stable e f) (hg : ∀ a, Stable e (g a)) :
    Safe e (fun fuel => f fuel >>= fun a => g a fuel)
      ↔ Safe e f ∧ ∀ a, Returns f a → Safe e (g a) := by
  refine ⟨fun h => ⟨fun fuel e' he => h fuel e' ?_, fun a ha fuel e' he => ?_⟩,
    fun h fuel e' he => ?_⟩
  · dsimp only
    rw [he, error_bind]
  · by_contra hne
    obtain ⟨depth, hdepth⟩ := ha
    have hmore : g a (max fuel depth) = .error e' := by
      refine ((hg a).le (le_max_left fuel depth) ?_).trans he
      rw [he]
      exact fun heq => hne (Except.error.inj heq)
    refine hne (h (max fuel depth) e' ?_)
    dsimp only
    rw [hdepth _ (le_max_right fuel depth), ok_bind, hmore]
  · dsimp only at he
    cases ha : f fuel with
    | error e'' =>
        rw [ha, error_bind] at he
        cases he
        exact h.1 fuel _ ha
    | ok a =>
        rw [ha, ok_bind] at he
        exact h.2 a (hf.returns ha) fuel e' he

theorem safe_map_iff (k : α → β) :
    Safe e (fun fuel => f fuel >>= fun x => .ok (k x)) ↔ Safe e f := by
  apply forall₂_congr
  intro fuel e'
  dsimp only
  cases f fuel with
  | error e'' => rw [error_bind, Except.error.injEq, Except.error.injEq]
  | ok a =>
      rw [ok_bind]
      exact iff_of_true nofun nofun

/-- A step without fuel that gives `a` under the condition `c`, and fails for good otherwise. -/
structure Guarded (e : ε) (x : Except ε α) (c : Prop) (a : α) : Prop where
  ok : c → x = .ok a
  fails : ¬c → ∃ e', x = .error e' ∧ e' ≠ e

variable {x : Except ε α} {c c' : Prop}

theorem guarded_ok (a : α) : Guarded e (.ok a) True a := ⟨fun _ => rfl, fun h => absurd trivial h⟩

theorem Guarded.congr (hx : Guarded e x c a) (hc : c ↔ c') : Guarded e x c' a :=
  ⟨fun h => hx.ok (hc.mpr h), fun h => hx.fails (mt hc.mp h)⟩

theorem Guarded.bind {k : α → Except ε β} {b : β} (hx : Guarded e x c a)
    (hk : Guarded e (k a) c' b) : Guarded e (x >>= k) (c ∧ c') b := by
  by_cases hc : c
  · rw [hx.ok hc, ok_bind]
    exact hk.congr (and_iff_right hc).symm
  · obtain ⟨e', he, hne⟩ := hx.fails hc
    rw [he, error_bind]
    exact ⟨fun h => absurd h.1 hc, fun _ => ⟨e', rfl, hne⟩⟩

theorem Guarded.map (hx : Guarded e x c a) (k : α → β) :
    Guarded e (x >>= fun a => .ok (k a)) c (k a) :=
  (hx.bind (k := fun a => .ok (k a)) (guarded_ok (k a))).congr (iff_of_eq (and_true c))

theorem Guarded.safe_bind_iff {g : α → ℕ → Except ε β} (hx : Guarded e x c a) :
    Safe e (fun fuel => x >>= fun a => g a fuel) ↔ c ∧ Safe e (g a) := by
  by_cases hc : c
  · rw [hx.ok hc]
    exact (and_iff_right hc).symm
  · obtain ⟨e', he, hne⟩ := hx.fails hc
    rw [he]
    exact iff_of_false (fun h => hne (h 0 e' rfl)) fun h => hc h.1

theorem Guarded.exists_returns_bind_iff {g : α → ℕ → Except ε β} (hx : Guarded e x c a) :
    (∃ b, Returns (fun fuel => x >>= fun a => g a fuel) b) ↔ c ∧ ∃ b, Returns (g a) b := by
  by_cases hc : c
  · rw [hx.ok hc]
    exact (and_iff_right hc).symm
  · obtain ⟨e', he, -⟩ := hx.fails hc
    rw [he]
    refine iff_of_false ?_ fun h => hc h.1
    rintro ⟨b, depth, hdepth⟩
    cases hdepth depth le_rfl

end Fuel
