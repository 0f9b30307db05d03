import Mathlib.Data.List.Perm.Subperm
import Mathlib.Data.List.Nodup
import Mathlib.Data.List.Range

/-!
# Things that are to be given back

A program obtains things one after the other, numbered in that order, and is to give back each of
them once. At any time it holds some and has given back others. A thing it no longer holds without
having given it back is lost for good, so the books balance at the end exactly when nothing has been
lost on the way.
-/

namespace Ledger

open scoped List

variable {n i : ℕ} {held held' closed : List ℕ}

/-- Of the first `n` things, some are held and others have been given back, none of them twice. -/
def Kept (n : ℕ) (held closed : List ℕ) : Prop := held ++ closed <+~ List.range n

/-- None of the things is lost. -/
def Complete (n : ℕ) (held closed : List ℕ) : Prop := held.length + closed.length = n

theorem Kept.length_le (h : Kept n held closed) : held.length + closed.length ≤ n := by
  have hle := List.Subperm.length_le h
  rwa [List.length_append, List.length_range] at hle

theorem Kept.nodup (h : Kept n held closed) : (held ++ closed).Nodup := by
  obtain ⟨l, hperm, hsub⟩ := h
  exact hperm.nodup_iff.mp (List.nodup_range.sublist hsub)

theorem Kept.perm (h : Kept n held closed) (hperm : held ~ held') : Kept n held' closed :=
  (List.Perm.subperm_right (hperm.append_right closed)).mp h

/-- The next thing is obtained. -/
theorem Kept.obtain (h : Kept n held closed) : Kept (n + 1) (n :: held) closed := by
  have hrange : n :: List.range n ~ List.range (n + 1) := by
    rw [List.range_succ]
    exact (List.perm_append_singleton n (List.range n)).symm
  exact ((List.subperm_cons n).mpr h).trans hrange.subperm

theorem complete_obtain_iff : Complete (n + 1) (n :: held) closed ↔ Complete n held closed := by
  rw [Complete, Complete, List.length_cons]
  omega

/-- A thing is given back. -/
theorem Kept.close (h : Kept n (i :: held) closed) : Kept n held (i :: closed) := by
  have hmove : i :: held ++ closed ~ held ++ i :: closed := List.perm_middle.symm
  exact hmove.symm.subperm.trans h

theorem complete_close_iff : Complete n held (i :: closed) ↔ Complete n (i :: held) closed := by
  rw [Complete, Complete, List.length_cons, List.length_cons]
  omega

theorem complete_perm_iff (hperm : held ~ held') :
    Complete n held' closed ↔ Complete n held closed := by
  rw [Complete, Complete, hperm.length_eq]

/-- A thing is lost. -/
theorem Kept.lose (h : Kept n (i :: held) closed) :
    Kept n held closed ∧ ¬Complete n held closed := by
  have hle := h.length_le
  refine ⟨List.Subperm.trans (List.sublist_cons_self i (held ++ closed)).subperm h, ?_⟩
  rw [Complete]
  rw [List.length_cons] at hle
  omega

/-- All that is held is lost at once. -/
theorem Kept.forget (h : Kept n held closed) (hheld : held ≠ []) :
    Kept n [] closed ∧ ¬Complete n [] closed := by
  have hle := h.length_le
  have hpos := List.length_pos_iff.mpr hheld
  refine ⟨List.Subperm.trans (List.sublist_append_right held closed).subperm h, ?_⟩
  rw [Complete, List.length_nil]
  omega

/-- **The books balance** at the end exactly when nothing is lost. -/
theorem Kept.count_eq_one_iff (h : Kept n [] closed) :
    (∀ i < n, closed.count i = 1) ↔ Complete n [] closed := by
  have hsub : closed <+~ List.range n := h
  rw [Complete, List.length_nil, Nat.zero_add]
  constructor
  · intro hcount
    apply le_antisymm
    · simpa using hsub.length_le
    · have hall : List.range n <+~ closed := by
        apply List.subperm_of_subset List.nodup_range
        intro i hi
        have hone := hcount i (List.mem_range.mp hi)
        exact List.count_pos_iff.mp (by omega)
      simpa using hall.length_le
  · intro hlength i hi
    have hperm : closed ~ List.range n := by
      apply hsub.perm_of_length_le
      rw [List.length_range, hlength]
    rw [hperm.count_eq]
    exact List.count_eq_one_of_mem List.nodup_range (List.mem_range.mpr hi)

end Ledger
