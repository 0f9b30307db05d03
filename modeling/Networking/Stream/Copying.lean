import Networking.Stream.Sharing

/-!
# Copying, moving and assigning any `Socket`

Not every object has a counter: the default one has none, nor has what a failed constructor leaves.
To take a reference from such an object is to follow a null pointer. So is an assignment of an
object to itself when nothing else shares its counter, which is deleted before it is read again.
-/

namespace Networking.Stream

open Counted Transition Wire

variable {w w' : Sockets} {s t soc : Socket} {i j c n : ℕ} {a : Action}

/-- The actions on objects, and a constructor that finds no connection: whatever it leaves in the
other fields, there is no counter. -/
inductive Event
  | act (a : Action)
  | unconnected (s : Socket)

def stepEvent (w : Sockets) : Event → Option Sockets
  | .act a => step w a
  | .unconnected s => if s.count = none then some (w.construct s) else none

/-- What is taken from has a counter, and where it is also what is assigned to, something else has
the same counter. -/
def Action.Safe (w : Sockets) : Action → Prop
  | .copy j | .move j => ∀ s, w.objects[j]? = some (some s) → s.count ≠ none
  | .assign i j => ∀ s, w.objects[j]? = some (some s) →
      ∃ c, s.count = some c ∧ (i = j → ∃ n, w.counters[c]? = some (some n) ∧ 2 ≤ n)
  | _ => True

def Event.Safe (w : Sockets) : Event → Prop
  | .act a => a.Safe w
  | .unconnected _ => True

/-- The object that an operation gives a reference to, and the one that it takes it from. -/
def Action.takes (w : Sockets) : Action → Option (ℕ × ℕ)
  | .copy j | .move j => some (w.objects.length, j)
  | .assign i j => some (i, j)
  | _ => none

/-- The object refers to the same descriptor by the same counter. -/
def Sockets.Refers (w : Sockets) (i : ℕ) (s : Socket) : Prop :=
  ∃ t, w.objects[i]? = some (some t) ∧ t.fd = s.fd ∧ t.count = s.count

/-- The descriptor has been opened once more than it has been closed. -/
def Sockets.Open (w : Sockets) (fd : ℤ) : Prop := w.closed.count fd < w.opened.count fd

/-- No null pointer is followed, and both objects refer to what the second one referred to. -/
structure Taken (w w' : Sockets) (i j : ℕ) : Prop where
  fault : w'.fault = false
  refers : ∀ s, w.objects[j]? = some (some s) →
    w'.Refers i s ∧ w'.Refers j s ∧ (w.Open s.fd → w'.Open s.fd)

/-! ### What becomes of the objects -/

@[simp]
theorem dropCount_objects (w : Sockets) (s : Socket) : (dropCount w s).1.objects = w.objects := by
  rw [dropCount]
  split
  · rfl
  · split <;> rfl

@[simp]
theorem addCount_objects (w : Sockets) (s : Socket) : (addCount w s).objects = w.objects := by
  rw [addCount]
  split <;> rfl

theorem addCount_fault (hs : s.count = none) : (addCount w s).fault = true := by
  rw [addCount, hs]
  rfl

theorem exists_dropCount_snd (w : Sockets) (s : Socket) :
    ∃ fd count, (dropCount w s).2 = { s with fd := fd, count := count } := by
  rw [dropCount]
  split
  · exact ⟨s.fd, s.count, rfl⟩
  · split
    · exact ⟨s.fd, s.count, rfl⟩
    · exact ⟨s.fd, s.count, rfl⟩
    · exact ⟨-1, none, rfl⟩

/-- What is assigned from another object is that object. -/
theorem assign_of_ne (hne : i ≠ j) (hj : w.objects[j]? = some (some soc))
    (hassign : assign w i j s soc = some w') :
    w'.objects = w.objects.set i (some soc) ∧ (soc.count = none → w'.fault = true) := by
  obtain ⟨fd, count, hsnd⟩ :=
    exists_dropCount_snd w { s with host := soc.host, port := soc.port, type := soc.type }
  have hobjects := dropCount_objects w
    { s with host := soc.host, port := soc.port, type := soc.type }
  cases hdrop : dropCount w { s with host := soc.host, port := soc.port, type := soc.type } with
  | mk w₁ t =>
      rw [hdrop] at hsnd hobjects
      dsimp only at hsnd hobjects
      subst hsnd
      rw [assign, hdrop] at hassign
      obtain ⟨soc', hsoc', rfl⟩ := Option.map_eq_some_iff.mp hassign
      rw [Sockets.setObject, List.getElem?_set_ne hne, hobjects, hj] at hsoc'
      obtain rfl : soc = soc' := Option.some.inj hsoc'
      refine ⟨?_, addCount_fault⟩
      simp only [Sockets.setObject, addCount_objects, List.set_set, hobjects]

/-- An assignment to itself decrements the counter and increments it again, if that is not too late.
-/
theorem assign_self (hi : w.objects[i]? = some (some s)) (hc : s.count = some c)
    (hn : w.counters[c]? = some (some n)) (hshared : 2 ≤ n) : assign w i i s s = some w := by
  obtain ⟨hlt, hget⟩ := List.getElem?_eq_some_iff.mp hi
  obtain ⟨hltc, hgetc⟩ := List.getElem?_eq_some_iff.mp hn
  have hrelease : release w.counters c = some (w.counters.set c (some (n - 1)), false) := by
    rw [release, hn, Option.join_some, Option.map_some, if_neg (by omega)]
  have hretain : retain (w.counters.set c (some (n - 1))) c = some w.counters := by
    rw [retain, List.getElem?_set_self hltc, Option.join_some, Option.map_some, List.set_set,
      Nat.sub_add_cancel (by omega), ← hgetc, List.set_getElem_self]
  have hdrop : dropCount w s = ({ w with counters := w.counters.set c (some (n - 1)) }, s) := by
    rw [dropCount, hc]
    dsimp only
    rw [hrelease]
  have hself : w.objects.set i (some s) = w.objects := by
    rw [← hget, List.set_getElem_self]
  have hadd : addCount { w with counters := w.counters.set c (some (n - 1)) } s = w := by
    rw [addCount, hc, Option.bind_some, hretain]
  rw [assign, hdrop]
  dsimp only [Sockets.setObject]
  rw [hself, hi, Option.join_some, Option.map_some, hadd, hself]

theorem dropCount_of_none (hs : s.count = none) : (dropCount w s).2.count = none := by
  rw [dropCount, hs]
  exact hs

theorem dropCount_of_last (hc : s.count = some c) (hn : w.counters[c]? = some (some n))
    (hlast : n ≤ 1) : (dropCount w s).2.count = none := by
  have hrelease : release w.counters c = some (w.counters.set c none, true) := by
    rw [release, hn, Option.join_some, Option.map_some, if_pos (by omega)]
  rw [dropCount, hc]
  dsimp only
  rw [hrelease]

/-- Once the counter is gone, it is read from the object that has lost it. -/
theorem assign_self_fault (hi : w.objects[i]? = some (some s))
    (hgone : (dropCount w s).2.count = none) (hassign : assign w i i s s = some w') :
    w'.fault = true := by
  have hobjects := dropCount_objects w s
  have hlt := (List.getElem?_eq_some_iff.mp hi).1
  cases hdrop : dropCount w s with
  | mk w₁ t =>
      rw [hdrop] at hgone hobjects
      dsimp only at hgone hobjects
      rw [assign, hdrop] at hassign
      obtain ⟨soc', hsoc', rfl⟩ := Option.map_eq_some_iff.mp hassign
      rw [Sockets.setObject, List.getElem?_set_self (by rwa [hobjects])] at hsoc'
      obtain rfl : t = soc' := Option.some.inj hsoc'
      exact addCount_fault hgone

/-! ### Every state reached -/

theorem Sockets.Valid.stepEvent (hw : w.Valid) {e : Event} (he : e.Safe w)
    (hstep : Stream.stepEvent w e = some w') : w'.Valid := by
  cases e with
  | unconnected s =>
      obtain ⟨hs, heq⟩ := Option.ite_none_right_eq_some.mp hstep
      cases heq
      exact hw.constructNull hs
  | act a =>
      have hact : Stream.step w a = some w' := hstep
      cases a with
      | assign i j =>
          obtain ⟨s, hi, hbind⟩ := Option.bind_eq_some_iff.mp hact
          obtain ⟨soc, hj, hassign⟩ := Option.bind_eq_some_iff.mp hbind
          have hget := Option.join_eq_some_iff.mp hi
          have hsoc := Option.join_eq_some_iff.mp hj
          obtain ⟨c, hc, hshared⟩ := he soc hsoc
          by_cases hne : i = j
          · subst hne
            obtain rfl : s = soc := Option.some.inj (hi.symm.trans hj)
            obtain ⟨n, hn, hle⟩ := hshared rfl
            cases (assign_self hget hc hn hle).symm.trans hassign
            exact hw
          · have hcount : soc.count ≠ none := hc ▸ Option.some_ne_none c
            exact (hw.assign hget hsoc hne hcount hassign).1
      | construct | manage | copy | move | destroy =>
          refine (hw.step ?_ hact).1
          exact he

/-- A descriptor that an object refers to is open. -/
theorem Sockets.Valid.isOpen (hw : w.Valid) (hi : w.objects[i]? = some (some s))
    (hs : s.count ≠ none) : w.Open s.fd := by
  have hcount := hw.shared.closed s.fd
  have hrefs : w.references s.fd ≠ 0 := by
    intro hzero
    rw [Sockets.references, List.countP_eq_zero] at hzero
    apply hzero _ (List.mem_of_getElem? hi)
    obtain ⟨c, hc⟩ := Option.ne_none_iff_exists'.mp hs
    simp [hc]
  rw [if_neg hrefs] at hcount
  rw [Sockets.Open]
  omega

theorem Sockets.Valid.taken_copy_iff (hw : w.Valid) (hj : w.objects[j]? = some (some s)) :
    Taken w ((Stream.addCount w s).construct s) w.objects.length j ↔ s.count ≠ none := by
  constructor
  · intro htaken hnone
    cases (addCount_fault hnone).symm.trans htaken.fault
  · intro hcount
    obtain ⟨hvalid, hopened, hclosed⟩ := hw.copy (List.mem_of_getElem? hj) hcount
    have hlt := (List.getElem?_eq_some_iff.mp hj).1
    have hobjects : ((Stream.addCount w s).construct s).objects = w.objects ++ [some s] :=
      congrArg (· ++ [some s]) (addCount_objects w s)
    refine ⟨hvalid.fault, fun t ht => ?_⟩
    obtain rfl : s = t := Option.some.inj (Option.some.inj (hj.symm.trans ht))
    refine ⟨⟨s, ?_, rfl, rfl⟩, ⟨s, ?_, rfl, rfl⟩, fun hopen => ?_⟩
    · rw [hobjects, List.getElem?_concat_length]
    · rw [hobjects, List.getElem?_append_left hlt, hj]
    · change (Stream.addCount w s).closed.count s.fd < (Stream.addCount w s).opened.count s.fd
      rwa [hopened, hclosed]

theorem Sockets.Valid.taken_assign_iff (hw : w.Valid) (hi : w.objects[i]? = some (some s))
    (hj : w.objects[j]? = some (some soc)) (hne : i ≠ j)
    (hassign : Stream.assign w i j s soc = some w') : Taken w w' i j ↔ soc.count ≠ none := by
  obtain ⟨hobjects, hfault⟩ := assign_of_ne hne hj hassign
  constructor
  · intro htaken hnone
    cases (hfault hnone).symm.trans htaken.fault
  · intro hcount
    have hvalid := (hw.assign hi hj hne hcount hassign).1
    have hlt := (List.getElem?_eq_some_iff.mp hi).1
    have hi' : w'.objects[i]? = some (some soc) := by
      rw [hobjects, List.getElem?_set_self hlt]
    refine ⟨hvalid.fault, fun t ht => ?_⟩
    obtain rfl : soc = t := Option.some.inj (Option.some.inj (hj.symm.trans ht))
    refine ⟨⟨soc, hi', rfl, rfl⟩, ⟨soc, ?_, rfl, rfl⟩, fun _ => hvalid.isOpen hi' hcount⟩
    rw [hobjects, List.getElem?_set_ne hne, hj]

theorem Sockets.Valid.taken_self_iff (hw : w.Valid) (hi : w.objects[i]? = some (some s))
    (hassign : Stream.assign w i i s s = some w') :
    Taken w w' i i ↔ ∃ c, s.count = some c ∧ ∃ n, w.counters[c]? = some (some n) ∧ 2 ≤ n := by
  constructor
  · intro htaken
    cases hc : s.count with
    | none =>
        cases (assign_self_fault hi (dropCount_of_none hc) hassign).symm.trans htaken.fault
    | some c =>
        obtain ⟨n, hn⟩ := hw.shared.live s c (List.mem_of_getElem? hi) hc
        refine ⟨c, rfl, n, hn, ?_⟩
        by_contra hlast
        have hgone := dropCount_of_last hc hn (by omega)
        cases (assign_self_fault hi hgone hassign).symm.trans htaken.fault
  · rintro ⟨c, hc, n, hn, hle⟩
    cases (assign_self hi hc hn hle).symm.trans hassign
    refine ⟨hw.fault, fun t ht => ?_⟩
    exact ⟨⟨t, ht, rfl, rfl⟩, ⟨t, ht, rfl, rfl⟩, id⟩

theorem forall_get_iff {P : Socket → Prop} (hj : w.objects[j]? = some (some s)) :
    (∀ t, w.objects[j]? = some (some t) → P t) ↔ P s := by
  constructor
  · intro hall
    exact hall s hj
  · intro hs t ht
    cases hj.symm.trans ht
    exact hs

/-- The operations that take from an object, and what each of them leaves. -/
theorem Sockets.Valid.taken_iff (hw : w.Valid) (ha : a.takes w = some (i, j))
    (hstep : Stream.step w a = some w') : Taken w w' i j ↔ a.Safe w := by
  cases a with
  | copy j | move j =>
      cases ha
      obtain ⟨s, hj, rfl⟩ := Option.map_eq_some_iff.mp hstep
      have hget := Option.join_eq_some_iff.mp hj
      refine (hw.taken_copy_iff hget).trans ?_
      exact (forall_get_iff (P := fun s => s.count ≠ none) hget).symm
  | assign i j =>
      cases ha
      obtain ⟨s, hi, hbind⟩ := Option.bind_eq_some_iff.mp hstep
      obtain ⟨soc, hj, hassign⟩ := Option.bind_eq_some_iff.mp hbind
      have hget := Option.join_eq_some_iff.mp hi
      have hsoc := Option.join_eq_some_iff.mp hj
      refine Iff.trans ?_ (forall_get_iff hsoc).symm
      by_cases hne : i = j
      · subst hne
        obtain rfl : s = soc := Option.some.inj (hi.symm.trans hj)
        rw [hw.taken_self_iff hget hassign]
        simp
      · rw [hw.taken_assign_iff hget hsoc hne hassign, Option.ne_none_iff_exists']
        simp [hne]
  | construct | manage | destroy => cases ha

/-- **Taking a reference.** In every state that safe steps lead to, copying, moving and assigning
follow no null pointer and leave both objects with the reference, exactly when what is taken from
has a counter, which for an assignment to itself must be shared. -/
theorem taken_iff_of_reaches (hreach : Reaches stepEvent (fun w e => e.Safe w) .init w)
    (ha : a.takes w = some (i, j)) (hstep : step w a = some w') :
    Taken w w' i j ↔ a.Safe w := by
  have hw : w.Valid := hreach.invariant valid_init fun _ _ _ hw he hnext => hw.stepEvent he hnext
  exact hw.taken_iff ha hstep

/-- A default object, as in a default `Stream`, cannot be copied. -/
theorem not_taken :
    ¬∀ (w w' : Sockets) (a : Action) (i j : ℕ),
      Reaches stepEvent (fun w e => e.Safe w) .init w → a.takes w = some (i, j) →
        step w a = some w' → Taken w w' i j := by
  intro htaken
  have hdefault : Reaches stepEvent (fun w e => e.Safe w) .init _ :=
    .tail (a := .act .construct) .refl trivial rfl
  cases (htaken _ _ (.copy 0) 1 0 hdefault rfl rfl).fault

/-- The only object that refers to a descriptor, assigned to itself. -/
theorem taken_iff_of_reaches_self :
    ∃ w w' : Sockets, w'.fault = true ∧ (Taken w w' 0 0 ↔ (Action.assign 0 0).Safe w) := by
  have hmanage : Reaches stepEvent (fun w e => e.Safe w) .init _ :=
    .tail (a := .act (.manage 5 .client)) .refl trivial rfl
  exact ⟨_, _, rfl, taken_iff_of_reaches (a := .assign 0 0) hmanage rfl rfl⟩

end Networking.Stream
