import Mathlib.Data.Finset.Card

/-!
# Descending a referral graph

Each node of a graph either answers (`out s = none`) or refers to a list of nodes. A walk goes down
from a list to one of its nodes, then to a node of the list that one refers to, and never visits a
node twice. A dead end is a walk that stops at a list with nothing left to try: every node of it is
on the walk already or refers to nobody. A new node that refers to nobody is lame.
-/

namespace Descent

variable {α : Type*} (out : α → Option (List α)) (start : List α)

/-- A walk from the list `start` over the nodes `path`, in order, down to the list `here`. -/
inductive Walk : List α → List α → Prop
  | nil : Walk [] start
  | snoc {path here next : List α} {s : α} (hwalk : Walk path here) (hmem : s ∈ here)
      (hnew : s ∉ path) (hout : out s = some next) (hnext : next ≠ []) : Walk (path ++ [s]) next

/-- Some walk ends at a list that holds a node with an answer. -/
def Answerable : Prop := ∃ path here s, Walk out start path here ∧ s ∈ here ∧ out s = none

/-- A node that is of no use to a walk over `path`. -/
def Spent (path : List α) (s : α) : Prop := s ∈ path ∨ out s = some []

/-- Some walk ends at a list of spent nodes. -/
def DeadEnd : Prop := ∃ path here, Walk out start path here ∧ ∀ s ∈ here, Spent out path s

/-- Some walk ends at a list with a node that is new to it and refers to nobody. -/
def Lame : Prop := ∃ path here s, Walk out start path here ∧ s ∈ here ∧ s ∉ path ∧ out s = some []

variable {out start} {path here : List α} {s : α}

theorem Walk.nodup (hwalk : Walk out start path here) : path.Nodup := by
  induction hwalk with
  | nil => exact List.nodup_nil
  | snoc _ _ hnew _ _ ih =>
      exact ih.append (List.nodup_singleton _) (List.disjoint_singleton.mpr hnew)

theorem Walk.mem_of_closed {U : α → Prop} (hstart : ∀ s ∈ start, U s)
    (hclosed : ∀ s l, U s → out s = some l → ∀ t ∈ l, U t) (hwalk : Walk out start path here) :
    (∀ s ∈ path, U s) ∧ ∀ s ∈ here, U s := by
  induction hwalk with
  | nil => exact ⟨by simp, hstart⟩
  | snoc _ hmem _ hout _ ih =>
      have hs := ih.2 _ hmem
      refine ⟨fun t ht => ?_, hclosed _ _ hs hout⟩
      rcases List.mem_append.mp ht with hold | hlast
      · exact ih.1 t hold
      · rwa [List.mem_singleton.mp hlast]

/-- Over a finite closed set of nodes no walk is longer than the set is large. -/
theorem Walk.length_le [DecidableEq α] {nodes : Finset α} (hstart : ∀ s ∈ start, s ∈ nodes)
    (hclosed : ∀ s ∈ nodes, ∀ l, out s = some l → ∀ t ∈ l, t ∈ nodes)
    (hwalk : Walk out start path here) : path.length ≤ nodes.card := by
  have hmem := (hwalk.mem_of_closed hstart fun s l hs => hclosed s hs l).1
  rw [← List.toFinset_card_of_nodup hwalk.nodup]
  exact Finset.card_le_card fun s hs => hmem s (List.mem_toFinset.mp hs)

end Descent
