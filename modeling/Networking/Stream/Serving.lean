import Mathlib.Data.List.Perm.Basic
import Mathlib.Order.Nat
import Networking.Lib.Transition

/-!
# The rounds of `Server`

Each round puts the listening socket and the connections in a set, with `max` as the largest of the
descriptors, and has `select` watch what is below its first argument. Descriptors are not negative,
so the `uint32_t` of `fd()` and the `int` of `select` hold them.

What `select` reports is arbitrary here, in particular it may report what it is not asked to watch.
-/

namespace Networking.Stream.Serving

open Transition
open scoped List

/-- What the loop does next. -/
inductive Pc
  | fill
  | select (socs : List ℕ) (largest : ℕ)
  | accept
  | returned
  deriving DecidableEq

/-- The descriptors of `_soc` and of the keys of `_conns`. -/
structure Server where
  pc : Pc
  soc : ℕ
  conns : List ℕ
  deriving DecidableEq

def Server.start (soc : ℕ) : Server := ⟨.fill, soc, []⟩

/-- The loop over the connections, which are iterated over in some order. -/
def fillLoop : List ℕ → List ℕ → ℕ → List ℕ × ℕ
  | [], socs, largest => (socs, largest)
  | fd :: order, socs, largest => fillLoop order (fd :: socs) (max fd largest)

/-- The set and `max` of a round. -/
def fill (soc : ℕ) (order : List ℕ) : List ℕ × ℕ := fillLoop order [soc] (max soc 0)

inductive Action
  | fill (order : List ℕ)
  /-- `select` fails, or leaves some descriptors in the set. -/
  | select (ready : Option (List ℕ))
  | accept (fd : ℕ)

/-- What the loop does with the answer of `select`. -/
def Server.selected (s : Server) (socs : List ℕ) : Option (List ℕ) → Option Server
  | none => some { s with pc := .returned }
  | some ready =>
      if ready ⊆ socs then
        some { s with pc := if s.soc ∈ ready then .accept else .fill }
      else none

def step (s : Server) : Action → Option Server
  | .fill order =>
      if s.pc = .fill ∧ order ~ s.conns then
        some { s with pc := .select (fill s.soc order).1 (fill s.soc order).2 }
      else none
  | .select ready =>
      match s.pc with
      | .select socs _ => s.selected socs ready
      | _ => none
  | .accept fd =>
      if s.pc = .accept ∧ fd ≠ s.soc ∧ fd ∉ s.conns then
        some { s with pc := .fill, conns := fd :: s.conns }
      else none

/-- What `select` is to watch is below its first argument. -/
def Watched (socs : List ℕ) (largest : ℕ) : Prop := ∀ fd ∈ socs, fd < largest

variable {s t : Server} {a : Action} {conns socs order : List ℕ} {soc largest fd : ℕ}

/-- The set has every descriptor, and `largest` is the largest of them. -/
structure Filled (soc : ℕ) (conns socs : List ℕ) (largest : ℕ) : Prop where
  mem_iff : ∀ fd, fd ∈ socs ↔ fd = soc ∨ fd ∈ conns
  largest_mem : largest ∈ socs
  le_largest : ∀ fd ∈ socs, fd ≤ largest

theorem Filled.cons (h : Filled soc conns socs largest) (fd : ℕ) :
    Filled soc (fd :: conns) (fd :: socs) (max fd largest) where
  mem_iff fd' := by
    rw [List.mem_cons, h.mem_iff, List.mem_cons]
    exact or_left_comm
  largest_mem := by
    rcases le_total fd largest with hle | hle
    · rw [max_eq_right hle]
      exact .tail fd h.largest_mem
    · rw [max_eq_left hle]
      exact .head socs
  le_largest fd' hfd' := by
    rcases List.mem_cons.mp hfd' with rfl | hold
    · exact le_max_left _ _
    · exact (h.le_largest fd' hold).trans (le_max_right _ _)

theorem Filled.fillLoop (h : Filled soc conns socs largest) (order : List ℕ) :
    Filled soc (order.reverse ++ conns) (fillLoop order socs largest).1
      (fillLoop order socs largest).2 := by
  induction order generalizing conns socs largest with
  | nil => exact h
  | cons fd order ih =>
      rw [List.reverse_cons, List.append_assoc]
      exact ih (h.cons fd)

theorem filled_fill (soc : ℕ) (horder : order ~ conns) :
    Filled soc conns (fill soc order).1 (fill soc order).2 := by
  have hfirst : Filled soc [] [soc] (max soc 0) := ⟨by simp, by simp, by simp⟩
  obtain ⟨hmem, hlargest, hle⟩ := hfirst.fillLoop order
  refine ⟨fun fd => (hmem fd).trans ?_, hlargest, hle⟩
  rw [List.append_nil, List.mem_reverse, horder.mem_iff]

/-- `select` is called with a set that is filled. -/
def Server.Regular (s : Server) : Prop :=
  ∀ socs largest, s.pc = .select socs largest → Filled s.soc s.conns socs largest

theorem Server.Regular.step (hstep : Serving.step s a = some t) : t.Regular := by
  cases a with
  | fill order =>
      obtain ⟨⟨-, horder⟩, hstep⟩ := Option.ite_none_right_eq_some.mp hstep
      cases hstep
      intro socs largest hpc
      cases hpc
      exact filled_fill s.soc horder
  | select ready =>
      cases hselect : s.pc with
      | fill | accept | returned =>
          simp only [Serving.step, hselect] at hstep
          cases hstep
      | select socs largest =>
          simp only [Serving.step, hselect] at hstep
          intro socs' largest' hpc
          cases ready with
          | none =>
              cases hstep
              cases hpc
          | some ready =>
              obtain ⟨-, hstep⟩ := Option.ite_none_right_eq_some.mp hstep
              cases hstep
              dsimp only at hpc
              split_ifs at hpc
  | accept fd =>
      obtain ⟨-, hstep⟩ := Option.ite_none_right_eq_some.mp hstep
      cases hstep
      intro socs largest hpc
      cases hpc

/-- **No round watches everything.** Whenever `select` is called, its set has the listening socket
and all connections, and the largest of them, but no other, is not below the first argument. -/
theorem never_watched (hreach : Reaches step (fun _ _ => True) (.start soc) s)
    (hpc : s.pc = .select socs largest) :
    (∀ fd, fd ∈ socs ↔ fd = s.soc ∨ fd ∈ s.conns) ∧ ¬Watched socs largest
      ∧ largest ∈ socs ∧ ∀ fd ∈ socs, fd ≠ largest → fd < largest := by
  have hregular : s.Regular := by
    refine hreach.invariant (fun _ _ h => ?_) fun _ _ _ _ _ hstep => .step hstep
    cases h
  obtain ⟨hmem, hlargest, hle⟩ := hregular socs largest hpc
  refine ⟨hmem, fun hwatched => ?_, hlargest, fun fd hfd hne => ?_⟩
  · exact absurd (hwatched largest hlargest) (lt_irrefl largest)
  · exact lt_of_le_of_ne (hle fd hfd) hne

theorem never_watched_sample :
    ∃ s : Server, s.pc = .select [5, 7] 7 ∧ s.conns = [5] ∧ ¬Watched [5, 7] 7 := by
  have hreach : Reaches step (fun _ _ => True) (.start 7) _ :=
    .tail (a := .fill [5]) (.tail (a := .accept 5) (.tail (a := .select (some [7]))
      (.tail (a := .fill []) .refl trivial rfl) trivial rfl) trivial rfl) trivial rfl
  obtain ⟨s, hs, hpc, hconns⟩ : ∃ s, Reaches step (fun _ _ => True) (.start 7) s
      ∧ s.pc = .select [5, 7] 7 ∧ s.conns = [5] := ⟨_, hreach, rfl, rfl⟩
  exact ⟨s, hpc, hconns, (never_watched hs hpc).2.1⟩

theorem not_watched_first :
    ∃ s : Server, Reaches step (fun _ _ => True) (.start 3) s ∧ s.pc = .select [3] 3
      ∧ ¬Watched [3] 3 := by
  refine ⟨_, .tail (a := .fill []) .refl trivial rfl, rfl, ?_⟩
  rw [Watched]
  decide

/-! ### Nobody is served -/

/-- `select` waits until a descriptor that it watches is ready. -/
def Waits (s : Server) : Action → Prop
  | .select (some ready) =>
      ∀ socs largest, s.pc = .select socs largest → ∃ fd ∈ ready, fd < largest
  | .fill _ | .select none | .accept _ => True

/-- Nobody has been accepted, and nobody is about to be. -/
structure Server.Deaf (s : Server) : Prop where
  regular : s.Regular
  conns : s.conns = []
  pc : s.pc ≠ .accept

/-- Without connections, there is nothing that `select` could wait for. -/
theorem Server.Deaf.select (h : s.Deaf) {ready : List ℕ} (hpc : s.pc = .select socs largest)
    (hwaits : Waits s (.select (some ready))) : step s (.select (some ready)) = none := by
  have hfilled := h.regular socs largest hpc
  rw [h.conns] at hfilled
  obtain ⟨fd, hfd, hlt⟩ := hwaits socs largest hpc
  simp only [Serving.step, hpc]
  refine if_neg fun hsub => ?_
  have hsoc : fd = s.soc := by simpa using (hfilled.mem_iff fd).mp (hsub hfd)
  have hlargest : largest = s.soc := by
    simpa using (hfilled.mem_iff largest).mp hfilled.largest_mem
  omega

theorem Server.Deaf.step (h : s.Deaf) (hwaits : Waits s a) (hstep : Serving.step s a = some t) :
    t.Deaf := by
  have hregular : t.Regular := .step hstep
  cases a with
  | fill order =>
      obtain ⟨-, hstep⟩ := Option.ite_none_right_eq_some.mp hstep
      cases hstep
      exact ⟨hregular, h.conns, nofun⟩
  | select ready =>
      cases hpc : s.pc with
      | fill | accept | returned =>
          simp only [Serving.step, hpc] at hstep
          cases hstep
      | select socs largest =>
          cases ready with
          | none =>
              simp only [Serving.step, hpc] at hstep
              cases hstep
              exact ⟨hregular, h.conns, nofun⟩
          | some ready =>
              rw [h.select hpc hwaits] at hstep
              cases hstep
  | accept fd =>
      obtain ⟨⟨hpc, -⟩, -⟩ := Option.ite_none_right_eq_some.mp hstep
      exact absurd hpc h.pc

/-- **No connection is ever accepted.** The listening socket is alone in the set and is not watched,
so that `select` does not come back but with a failure. -/
theorem never_accepts (hreach : Reaches step Waits (.start soc) s) :
    s.conns = [] ∧ s.pc ≠ .accept ∧ ∀ socs largest ready, s.pc = .select socs largest →
      Waits s (.select (some ready)) → step s (.select (some ready)) = none := by
  have hstart : (Server.start soc).Deaf := ⟨fun _ _ hpc => (by cases hpc), rfl, nofun⟩
  have hdeaf : s.Deaf := hreach.invariant hstart fun _ _ _ h hwaits hstep => h.step hwaits hstep
  exact ⟨hdeaf.conns, hdeaf.pc, fun socs largest ready hpc hwaits => hdeaf.select hpc hwaits⟩

/-- The only socket is that with the descriptor 3. -/
theorem never_accepts_first :
    ∃ s : Server, s.pc = .select [3] 3 ∧ s.conns = []
      ∧ ∀ ready, Waits s (.select (some ready)) → step s (.select (some ready)) = none := by
  have hreach : Reaches step Waits (.start 3) _ := .tail (a := .fill []) .refl trivial rfl
  obtain ⟨s, hs, hpc⟩ : ∃ s, Reaches step Waits (.start 3) s ∧ s.pc = .select [3] 3 :=
    ⟨_, hreach, rfl⟩
  obtain ⟨hconns, -, hblocked⟩ := never_accepts hs
  exact ⟨s, hpc, hconns, fun ready => hblocked [3] 3 ready hpc⟩

end Networking.Stream.Serving
