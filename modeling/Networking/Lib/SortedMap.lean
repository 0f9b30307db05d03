import Mathlib.Algebra.Ring.Nat
import Mathlib.Data.List.Lex
import Mathlib.Data.Prod.Lex

/-!
# Ordered associative containers

A map kept as the list of its entries in the order of their keys. Assigning to a key in ascending
order appends the entry, so a map is rebuilt by assigning its own entries.
-/

/-- A finite map with its entries in strict key order. -/
@[ext]
structure SortedMap (κ ν : Type*) [LinearOrder κ] where
  entries : List (κ × ν)
  sorted : entries.Pairwise fun p q => p.1 < q.1

namespace SortedMap

variable {κ ν : Type*} [LinearOrder κ] {k : κ} {x : ν} {p : κ × ν} {l : List (κ × ν)}

def assignList (k : κ) (x : ν) : List (κ × ν) → List (κ × ν)
  | [] => [(k, x)]
  | q :: l =>
      if k < q.1 then (k, x) :: q :: l
      else if k = q.1 then (q.1, x) :: l
      else q :: assignList k x l

theorem mem_assignList (hp : p ∈ assignList k x l) : p = (k, x) ∨ p ∈ l := by
  induction l with
  | nil => exact .inl (List.mem_singleton.mp hp)
  | cons q l ih =>
      rw [assignList] at hp
      split_ifs at hp with hlt heq
      · exact List.mem_cons.mp hp
      · rcases List.mem_cons.mp hp with rfl | hmem
        · exact .inl (by rw [heq])
        · exact .inr (.tail q hmem)
      · rcases List.mem_cons.mp hp with rfl | hmem
        · exact .inr (.head l)
        · exact (ih hmem).imp_right (.tail q)

theorem sorted_assignList (hl : l.Pairwise fun p q => p.1 < q.1) :
    (assignList k x l).Pairwise fun p q => p.1 < q.1 := by
  induction l with
  | nil => exact List.pairwise_singleton _ _
  | cons q l ih =>
      obtain ⟨hq, hrest⟩ := List.pairwise_cons.mp hl
      rw [assignList]
      split_ifs with hlt heq
      · refine List.pairwise_cons.mpr ⟨fun p hp => ?_, hl⟩
        rcases List.mem_cons.mp hp with rfl | hmem
        · exact hlt
        · exact hlt.trans (hq p hmem)
      · exact List.pairwise_cons.mpr ⟨hq, hrest⟩
      · refine List.pairwise_cons.mpr ⟨fun p hp => ?_, ih hrest⟩
        rcases mem_assignList hp with rfl | hmem
        · exact lt_of_le_of_ne (not_lt.mp hlt) (Ne.symm heq)
        · exact hq p hmem

theorem assignList_of_forall_lt (hlt : ∀ p ∈ l, p.1 < k) : assignList k x l = l ++ [(k, x)] := by
  induction l with
  | nil => rfl
  | cons q l ih =>
      have hq := hlt q (.head l)
      rw [assignList, if_neg hq.not_gt, if_neg hq.ne', ih fun p hp => hlt p (.tail q hp),
        List.cons_append]

/-- Assigning puts one entry in, and may take one out. -/
theorem sum_assignList_le (cost : κ × ν → ℕ) (k : κ) (x : ν) (l : List (κ × ν)) :
    ((assignList k x l).map cost).sum ≤ cost (k, x) + (l.map cost).sum := by
  induction l with
  | nil => exact le_rfl
  | cons q l ih =>
      rw [assignList]
      split_ifs with hlt heq
      · exact le_rfl
      · rw [← heq]
        simp only [List.map_cons, List.sum_cons]
        omega
      · simp only [List.map_cons, List.sum_cons]
        omega

open scoped List in
theorem perm_assignList_of_not_mem (hk : ∀ p ∈ l, p.1 ≠ k) : assignList k x l ~ (k, x) :: l := by
  induction l with
  | nil => exact .refl _
  | cons q l ih =>
      have hq := hk q (.head l)
      rw [assignList, if_neg hq.symm]
      split_ifs
      · exact .refl _
      · exact ((ih fun p hp => hk p (.tail q hp)).cons q).trans (.swap _ _ _)

open scoped List in
/-- An assignment to a key that is there replaces one entry. -/
theorem perm_assignList_of_mem (hl : l.Pairwise fun p q => p.1 < q.1) (hp : p ∈ l) :
    ∃ rest, l ~ p :: rest ∧ assignList p.1 x l ~ (p.1, x) :: rest := by
  induction l with
  | nil => cases hp
  | cons q l ih =>
      obtain ⟨hq, hrest⟩ := List.pairwise_cons.mp hl
      rw [assignList]
      rcases List.mem_cons.mp hp with rfl | hmem
      · rw [if_neg (lt_irrefl p.1), if_pos rfl]
        exact ⟨l, .refl _, .refl _⟩
      · have hlt := hq p hmem
        obtain ⟨rest, hold, hnew⟩ := ih hrest hmem
        rw [if_neg hlt.not_gt, if_neg hlt.ne']
        exact ⟨q :: rest, (hold.cons q).trans (.swap _ _ _), (hnew.cons q).trans (.swap _ _ _)⟩

def empty : SortedMap κ ν := ⟨[], .nil⟩

def assign (m : SortedMap κ ν) (k : κ) (x : ν) : SortedMap κ ν :=
  ⟨assignList k x m.entries, sorted_assignList m.sorted⟩

def assignAll (m : SortedMap κ ν) (l : List (κ × ν)) : SortedMap κ ν :=
  l.foldl (fun m p => m.assign p.1 p.2) m

@[simp]
theorem assignAll_nil (m : SortedMap κ ν) : m.assignAll [] = m := rfl

@[simp]
theorem assignAll_cons (m : SortedMap κ ν) (p : κ × ν) (l : List (κ × ν)) :
    m.assignAll (p :: l) = (m.assign p.1 p.2).assignAll l := rfl

theorem mem_entries_assignAll {m : SortedMap κ ν} (hp : p ∈ (m.assignAll l).entries) :
    p ∈ m.entries ∨ p ∈ l := by
  induction l generalizing m with
  | nil => exact .inl hp
  | cons q l ih =>
      rcases ih hp with hmem | hmem
      · rcases mem_assignList hmem with rfl | hold
        · exact .inr (.head l)
        · exact .inl hold
      · exact .inr (.tail q hmem)

theorem entries_assignAll (m : SortedMap κ ν)
    (hsorted : (m.entries ++ l).Pairwise fun p q => p.1 < q.1) :
    (m.assignAll l).entries = m.entries ++ l := by
  induction l generalizing m with
  | nil => exact (List.append_nil _).symm
  | cons q l ih =>
      have hlast : ∀ p ∈ m.entries, p.1 < q.1 := fun p hp =>
        (List.pairwise_append.mp hsorted).2.2 p hp q (.head l)
      have happend : (m.assign q.1 q.2).entries = m.entries ++ [q] :=
        assignList_of_forall_lt hlast
      rw [assignAll_cons, ih, happend, List.append_assoc, List.singleton_append]
      rw [happend, List.append_assoc]
      exact hsorted

/-- **A map is rebuilt from its entries.** -/
theorem assignAll_entries (m : SortedMap κ ν) : empty.assignAll m.entries = m := by
  ext1
  exact entries_assignAll empty m.sorted

/-- The order of containers: that of their entries, from the first one on. -/
instance [LinearOrder ν] : LinearOrder (SortedMap κ ν) :=
  LinearOrder.lift' (fun m => m.entries.map toLex) fun m m' h => by
    ext1
    exact List.map_injective_iff.mpr toLex.injective h

end SortedMap
