import Networking.Net.Connect

/-!
# `operator=` on handles

The handle that is assigned to gives its reference up before it reads the fields of the other. What
it then reads is what the other had before, unless the two are one and the reference was the last.
-/

namespace Networking.Net

open Counted Transition Wire

variable {w w' : World} {h h' : SyncSocket} {i asn b c : ℕ}

/-- Handle `i` is now connected exactly if the handle `h` was, and to the same socket, which is
open; its counter is the number of the handles of the socket. -/
def Assigned (w w' : World) (h : SyncSocket) (i : ℕ) : Prop :=
  ∃ h', w'.handles[i]? = some (some h') ∧ h'.conn = h.conn ∧ (h.conn = true →
    (h'.fd = h.fd ∧ h'.tcp = h.tcp ∧ h'.src = h.src ∧ h'.len = h.len)
      ∧ (∀ b, h.src = some b → ∃ bytes, w.buffers[b]? = some (some bytes)
        ∧ w'.buffers[b]? = some (some bytes))
      ∧ w'.closed.count h.fd < w'.opened.count h.fd
      ∧ ∃ c, h'.refs = some c ∧ w'.counters[c]? = some (some (w'.references h.fd)))

/-- An address that is still there has not changed. -/
theorem buffers_checkClose (w : World) (h : SyncSocket) (b : ℕ) :
    (checkClose w h).1.buffers[b]? = w.buffers[b]?
      ∨ (checkClose w h).1.buffers[b]?.join = none := by
  unfold checkClose
  split_ifs
  · split
    · exact .inl rfl
    · exact .inl rfl
    · dsimp only
      cases h.src with
      | none => exact .inl rfl
      | some b' =>
          rw [deleteBuffer]
          dsimp only
          cases w.buffers[b']?.join with
          | none => exact .inl rfl
          | some bytes =>
              dsimp only
              by_cases heq : b' = b
              · right
                rw [heq, List.getElem?_set_self']
                cases w.buffers[b]? <;> rfl
              · exact .inl (List.getElem?_set_ne heq)
  · exact .inl rfl

theorem Invariant.counter_eq (hw : Invariant w) (hh : w.Connected h) :
    ∃ c, h.refs = some c ∧ w.counters[c]? = some (some (w.references h.fd)) := by
  obtain ⟨c, hrefs, hslot⟩ := hw.exists_slot hh
  refine ⟨c, hrefs, ?_⟩
  rw [hw.references_eq hh hrefs]
  exact Option.join_eq_some_iff.mp (hw.owned.counter hslot)

/-- Only the last handle of a socket is reset. -/
theorem checkClose_snd_eq (hw : Invariant w) (hasn : w.handles[asn]? = some (some h))
    (hlast : ¬(h.conn = true ∧ w.references h.fd = 1)) : (checkClose w h).2 = h := by
  cases hconn : h.conn with
  | false => simp [checkClose, hconn]
  | true =>
      have hh : w.Connected h := ⟨List.mem_of_getElem? hasn, hconn⟩
      obtain ⟨c, hrefs, -⟩ := hw.exists_slot hh
      rw [hw.checkClose_snd hasn hconn hrefs, ← hw.references_eq hh hrefs,
        if_neg fun hone => hlast ⟨hconn, hone⟩]

/-- What is read from the source once the target has given its reference up. -/
theorem assign_cases (hi : w.handles[i]? = some (some h')) (hasn : w.handles[asn]? = some (some h))
    (hassign : assign w i asn h' = some w') :
    ∃ cpy, w'.handles[i]? = some (some cpy) ∧ (i ≠ asn → cpy = h)
      ∧ (i = asn → cpy = (checkClose w h).2)
      ∧ w'.buffers = (checkClose w h').1.buffers := by
  have hlt : i < w.handles.length := (List.getElem?_eq_some_iff.mp hi).1
  obtain ⟨hhandles, -⟩ := checkClose_same w h'
  cases hclose : checkClose w h' with
  | mk w₁ h₁ =>
      rw [hclose] at hhandles
      rw [assign, hclose] at hassign
      obtain ⟨cpy, hcpy, rfl⟩ := Option.map_eq_some_iff.mp hassign
      obtain ⟨hhandles', -, hbuffers⟩ := addRef_same (w₁.setHandle i (some h₁)) cpy
      rw [Option.join_eq_some_iff, World.setHandle, hhandles] at hcpy
      refine ⟨cpy, ?_, fun hne => ?_, ?_, hbuffers⟩
      · rw [World.setHandle, hhandles', World.setHandle, hhandles, List.set_set,
          List.getElem?_set_self hlt]
      · rw [List.getElem?_set_ne hne, hasn] at hcpy
        exact (Option.some.inj (Option.some.inj hcpy)).symm
      · rintro rfl
        rw [List.getElem?_set_self hlt] at hcpy
        obtain rfl : h' = h := Option.some.inj (Option.some.inj (hi.symm.trans hasn))
        rw [hclose]
        exact (Option.some.inj (Option.some.inj hcpy)).symm

/-- **Assignment.** In a state where the handles own what they share, `a = b` makes `a` what `b` was
exactly if it does not assign the only handle of a socket to itself. -/
theorem assigned_iff (hreach : Reaches step (fun w a => a.Safe w) .init w)
    (hasn : w.handles[asn]? = some (some h)) (hstep : step w (.assign i asn) = some w') :
    Assigned w w' h i ↔ ¬(i = asn ∧ h.conn = true ∧ w.references h.fd = 1) := by
  have hw : Invariant w := hreach.invariant invariant_init
    fun _ _ _ hw ha hstep => hw.step ha hstep
  have hw' : Invariant w' := hw.step (a := .assign i asn) trivial hstep
  obtain ⟨h', hi, hassign⟩ := Option.bind_eq_some_iff.mp hstep
  obtain ⟨cpy, hcpy, hother, hself, hbuffers⟩ :=
    assign_cases (Option.join_eq_some_iff.mp hi) hasn hassign
  constructor
  · rintro ⟨cpy', hcpy', hconn', -⟩ ⟨heq, hconn, hone⟩
    obtain rfl : cpy = cpy' := Option.some.inj (Option.some.inj (hcpy.symm.trans hcpy'))
    -- `check_close` has reset the handle
    obtain ⟨c, hrefs, -⟩ := hw.exists_slot ⟨List.mem_of_getElem? hasn, hconn⟩
    have hreset := hw.checkClose_snd hasn hconn hrefs
    rw [← hw.references_eq ⟨List.mem_of_getElem? hasn, hconn⟩ hrefs, hone, if_pos rfl] at hreset
    rw [hself heq, hreset, hconn] at hconn'
    cases hconn'
  · intro hnot
    have hsame : cpy = h := by
      by_cases heq : i = asn
      · exact (hself heq).trans (checkClose_snd_eq hw hasn fun hlast => hnot ⟨heq, hlast⟩)
      · exact hother heq
    subst hsame
    refine ⟨cpy, hcpy, rfl, fun hconn => ⟨⟨rfl, rfl, rfl, rfl⟩, fun b hb => ?_, ?_, ?_⟩⟩
    · obtain ⟨bytes, hbytes⟩ :=
        (hw.ownership.buffer cpy b ⟨List.mem_of_getElem? hasn, hconn⟩ hb).1
      obtain ⟨bytes', hbytes'⟩ :=
        (hw'.ownership.buffer cpy b ⟨List.mem_of_getElem? hcpy, hconn⟩ hb).1
      refine ⟨bytes, hbytes, ?_⟩
      rw [hbuffers] at hbytes' ⊢
      rcases buffers_checkClose w h' b with hkeeps | hgone
      · rw [hkeeps, hbytes]
      · rw [hbytes'] at hgone
        cases hgone
    · have hbalance := hw'.ownership.closed cpy.fd
      rw [if_neg fun hzero => references_eq_zero_iff.mp hzero cpy
        ⟨List.mem_of_getElem? hcpy, hconn⟩ rfl] at hbalance
      omega
    · exact hw'.counter_eq ⟨List.mem_of_getElem? hcpy, hconn⟩

theorem assigned_iff_shared :
    ∃ (w w' : World) (h : SyncSocket), step w (.assign 0 0) = some w' ∧ h.conn = true
      ∧ h.fd = 5 ∧ Assigned w w' h 0 := by
  have hcopy : Reaches step (fun w a => a.Safe w) .init _ :=
    .tail (a := .copy 0) (.tail (a := .constructUdp 5 [2, 0] true) .refl trivial rfl) trivial rfl
  obtain ⟨w, hreach, hasn, hone, w', hstep⟩ : ∃ w, Reaches step (fun w a => a.Safe w) .init w
      ∧ w.handles[0]? = some (some ⟨5, some 0, true, false, some 0, 2⟩) ∧ w.references 5 = 2
      ∧ ∃ w', step w (.assign 0 0) = some w' := ⟨_, hcopy, rfl, rfl, _, rfl⟩
  refine ⟨w, w', _, hstep, rfl, rfl, (assigned_iff hreach hasn hstep).mpr ?_⟩
  rintro ⟨-, -, hlast⟩
  rw [hone] at hlast
  cases hlast

/-- The only handle of descriptor 5 is assigned to itself and loses its socket. -/
theorem not_assigned_self :
    ∃ (w w' : World) (h : SyncSocket), Reaches step (fun w a => a.Safe w) .init w
      ∧ w.handles[0]? = some (some h) ∧ step w (.assign 0 0) = some w' ∧ w'.closed = [5]
      ∧ ¬Assigned w w' h 0 := by
  have hconstruct : Reaches step (fun w a => a.Safe w) .init _ :=
    .tail (a := .constructTcp 5) .refl trivial rfl
  refine ⟨_, _, _, hconstruct, rfl, rfl, rfl, ?_⟩
  rintro ⟨h', hh', hconn, -⟩
  cases hh'
  cases hconn

end Networking.Net
