import Networking.Stream.Socket

/-!
# Who shares a `Socket`

The counter of a descriptor is the number of the objects that refer to it, those that were moved
from among them. It takes that nothing is copied, moved or assigned from an object without a
counter, and no object is assigned to itself.
-/

namespace Networking.Stream

open Counted Transition Wire

variable {w w' : Sockets} {s t soc : Socket} {i j c : ℕ} {fd : ℤ} {x : ℕ × ℤ}

/-- The counter and the descriptor that an object refers to. -/
def Socket.hold (s : Socket) : Option (ℕ × ℤ) := s.count.map fun c => (c, s.fd)

def Sockets.slots (w : Sockets) : List (Option (ℕ × ℤ)) := slotsOf Socket.hold w.objects

structure Sockets.Valid (w : Sockets) : Prop where
  owned : Owned w.counters w.slots
  descriptors : Exclusive some w.slots
  log : Balanced w.opened w.closed (InUse some w.slots)
  fault : w.fault = false

theorem valid_init : Sockets.init.Valid where
  owned := ⟨fun _ => rfl, nofun⟩
  descriptors := nofun
  log := by
    refine ⟨?_, fun _ _ => rfl⟩
    rintro fd ⟨c, g, hmem, -⟩
    cases hmem
  fault := rfl

theorem Socket.exists_hold (hcount : s.count = some c) : s.hold = some (c, s.fd) := by
  rw [hold, hcount]
  rfl

theorem getElem?_slots {s : Option Socket} (hi : w.objects[i]? = some s) :
    w.slots[i]? = some (s.bind Socket.hold) :=
  getElem?_slotsOf hi

theorem Sockets.Valid.reassign (hw : w.Valid) {objects : List (Option Socket)}
    {counters : List (Option ℕ)} {slots : List (Option (ℕ × ℤ))}
    (hslots : slotsOf Socket.hold objects = slots) (howned : Owned counters slots)
    (hdescriptors : Exclusive some slots)
    (huse : ∀ fd, InUse some slots fd ↔ InUse some w.slots fd) :
    Sockets.Valid { w with objects := objects, counters := counters } := by
  subst hslots
  exact ⟨howned, hdescriptors, hw.log.congr huse, hw.fault⟩

/-! ### The counter goes down and up -/

/-- After its reference is dropped an object counts as gone, whatever becomes of its fields. -/
theorem Sockets.Valid.dropCount (hw : w.Valid) (hi : w.objects[i]? = some (some s))
    (ht : t.hold = s.hold) :
    ∃ w' t', dropCount w t = (w', t') ∧ w'.objects = w.objects ∧ w'.opened = w.opened
      ∧ w.closed <+: w'.closed ∧ (t.count = none → w'.closed = w.closed)
      ∧ (w'.setObject i none).Valid := by
  have hslots : slotsOf Socket.hold (w.objects.set i none) = w.slots.set i none := slotsOf_set none
  have hslot := getElem?_slots hi
  rw [Option.bind_some, ← ht] at hslot
  cases hcount : t.count with
  | none =>
      refine ⟨w, t, by simp [Stream.dropCount, hcount], rfl, rfl, List.prefix_rfl, fun _ => rfl, ?_⟩
      have hhold : t.hold = none := by
        rw [Socket.hold, hcount]
        rfl
      have hself : w.slots.set i none = w.slots := by
        obtain ⟨hlt, hget⟩ := List.getElem?_eq_some_iff.mp (hslot.trans (congrArg some hhold))
        rw [← hget, List.set_getElem_self]
      rw [hself] at hslots
      exact hw.reassign hslots hw.owned hw.descriptors fun _ => .rfl
  | some c =>
      rw [Socket.exists_hold hcount] at hslot
      obtain ⟨counters, hrelease, howned⟩ := hw.owned.release hslot
      by_cases hlast : holders (w.slots.set i none) c = 0
      · rw [decide_eq_true hlast] at hrelease
        have hexclusive := hw.descriptors.release (i := i)
        have hlog : Balanced w.opened (w.closed ++ [t.fd]) (InUse some (w.slots.set i none)) := by
          refine hw.log.close ⟨c, t.fd, List.mem_of_getElem? hslot, rfl⟩ fun fd => ?_
          rw [inUse_release hw.owned hw.descriptors hslot]
          simp only [Option.some.injEq, hlast, and_true, ne_eq]
        rw [← hslots] at howned hexclusive hlog
        exact ⟨{ w with counters := counters, closed := w.closed ++ [t.fd] },
          { t with fd := -1, count := none }, by simp [Stream.dropCount, hcount, hrelease], rfl,
          rfl, List.prefix_append _ _, nofun, howned, hexclusive, hlog, hw.fault⟩
      · rw [decide_eq_false hlast] at hrelease
        refine ⟨{ w with counters := counters }, t, by simp [Stream.dropCount, hcount, hrelease],
          rfl, rfl, List.prefix_rfl, nofun,
          hw.reassign hslots howned hw.descriptors.release fun fd => ?_⟩
        rw [inUse_release hw.owned hw.descriptors hslot]
        exact and_iff_left fun h => hlast h.2

/-- An object that is given the reference of another counts as one more. -/
theorem Sockets.Valid.addCount (hw : w.Valid) (hi : w.objects[i]? = some none)
    (hs : s.hold = some x) (hx : some x ∈ w.slots) :
    ∃ counters, (∀ objects, addCount { w with objects := objects } s
        = { w with objects := objects, counters := counters })
      ∧ ({ w with counters := counters }.setObject i (some s)).Valid := by
  obtain ⟨c, hcount, rfl⟩ := Option.map_eq_some_iff.mp hs
  have hslot := getElem?_slots hi
  obtain ⟨counters, hretain, howned⟩ := hw.owned.share hslot hx
  have hslots : slotsOf Socket.hold (w.objects.set i (some s))
      = w.slots.set i (some (c, s.fd)) := by
    rw [slotsOf_set, Option.bind_some, hs]
    rfl
  exact ⟨counters, by simp [Stream.addCount, hcount, hretain],
    hw.reassign hslots howned (hw.descriptors.share hslot hx) fun _ => inUse_share hslot hx⟩

/-! ### The operations -/

/-- What is copied, moved or assigned from has a counter, and is not the object assigned to. -/
def Action.Proper (w : Sockets) : Action → Prop
  | .copy j | .move j => ∀ s, w.objects[j]? = some (some s) → s.count ≠ none
  | .assign i j => i ≠ j ∧ ∀ s, w.objects[j]? = some (some s) → s.count ≠ none
  | _ => True

/-- What a step does apart from staying valid: it does not both open and close, and it closes
nothing when the object that is destroyed or assigned to has no counter. -/
structure Change (w : Sockets) (a : Action) (w' : Sockets) : Prop where
  opened : w.opened <+: w'.opened
  closed : w.closed <+: w'.closed
  once : w'.opened = w.opened ∨ w'.closed = w.closed
  countless : ∀ i s, (a = .destroy i ∨ ∃ j, a = .assign i j) → w.objects[i]? = some (some s) →
    s.count = none → w'.closed = w.closed

theorem getElem?_append_none (w : Sockets) :
    ({ w with objects := w.objects ++ [none] } : Sockets).objects[w.objects.length]? = some none :=
  List.getElem?_concat_length

theorem construct_eq (w : Sockets) (s : Socket) :
    w.construct s = ({ w with objects := w.objects ++ [none] } : Sockets).setObject
      w.objects.length (some s) := by
  simp [Sockets.construct, Sockets.setObject]

theorem Sockets.Valid.append_none (hw : w.Valid) :
    Sockets.Valid { w with objects := w.objects ++ [none] } :=
  hw.reassign (slotsOf_append none) hw.owned.append_none hw.descriptors.append_none
    fun _ => inUse_append_none

theorem Sockets.Valid.constructNull (hw : w.Valid) (hs : s.count = none) :
    (w.construct s).Valid := by
  have hhold : s.hold = none := by
    rw [Socket.hold, hs]
    rfl
  refine hw.reassign ((slotsOf_append (some s)).trans ?_) hw.owned.append_none
    hw.descriptors.append_none fun _ => inUse_append_none
  rw [Option.bind_some, hhold]
  rfl

theorem Sockets.Valid.manage (hw : w.Valid) (hfd : w.Fresh fd) (type : SocketType) :
    ({ w with counters := w.counters ++ [some 1], opened := w.opened ++ [fd] }.construct
      ⟨[], 0, type, fd, some w.counters.length⟩).Valid := by
  have hnone := hw.append_none
  have hslot := getElem?_slots (getElem?_append_none w)
  have hunused := hnone.log.not_used hfd.2
  have howned := hnone.owned.create hslot fd
  have hexclusive := hnone.descriptors.create (c := w.counters.length) hslot fun k hk =>
    Option.some.inj hk ▸ hunused
  have hlog : Balanced (w.opened ++ [fd]) w.closed (InUse some (Sockets.slots { w with
      objects := w.objects ++ [none] } |>.set w.objects.length (some (w.counters.length, fd)))) :=
    hnone.log.open hfd.2 fun k => (inUse_create hslot).trans (or_congr_right Option.some_inj)
  have hslots : slotsOf Socket.hold ((w.objects ++ [none]).set w.objects.length
      (some ⟨[], 0, type, fd, some w.counters.length⟩))
      = (Sockets.slots { w with objects := w.objects ++ [none] }).set w.objects.length
        (some (w.counters.length, fd)) := slotsOf_set _
  rw [← hslots] at howned hexclusive hlog
  rw [construct_eq]
  exact ⟨howned, hexclusive, hlog, hnone.fault⟩

theorem Sockets.Valid.copy (hw : w.Valid) (hmem : some s ∈ w.objects) (hs : s.count ≠ none) :
    ((Stream.addCount w s).construct s).Valid ∧ (Stream.addCount w s).opened = w.opened
      ∧ (Stream.addCount w s).closed = w.closed := by
  obtain ⟨c, hcount⟩ := Option.ne_none_iff_exists'.mp hs
  have hhold := Socket.exists_hold hcount
  have hslot : some (c, s.fd) ∈ w.slots := mem_slotsOf_iff.mpr ⟨s, hmem, hhold⟩
  obtain ⟨counters, hadd, hvalid⟩ := hw.append_none.addCount (getElem?_append_none w) hhold
    (mem_slotsOf_iff.mpr ⟨s, List.mem_append_left _ hmem, hhold⟩)
  have hself : Stream.addCount w s = { w with counters := counters } := hadd w.objects
  rw [hself, construct_eq]
  exact ⟨hvalid, rfl, rfl⟩

theorem Sockets.Valid.assign (hw : w.Valid) (hi : w.objects[i]? = some (some s))
    (hj : w.objects[j]? = some (some soc)) (hne : i ≠ j) (hsoc : soc.count ≠ none)
    (hassign : Stream.assign w i j s soc = some w') :
    w'.Valid ∧ w'.opened = w.opened ∧ w.closed <+: w'.closed
      ∧ (s.count = none → w'.closed = w.closed) := by
  obtain ⟨c, hcount⟩ := Option.ne_none_iff_exists'.mp hsoc
  have hhold := Socket.exists_hold hcount
  obtain ⟨w₁, t, hdrop, hobjects, hopened, hclosed, hcountless, hvalid⟩ := hw.dropCount hi
    (t := { s with host := soc.host, port := soc.port, type := soc.type }) rfl
  rw [Stream.assign, hdrop] at hassign
  obtain ⟨soc', hsoc', rfl⟩ := Option.map_eq_some_iff.mp hassign
  have hj' : (w₁.setObject i none).objects[j]? = some (some soc) := by
    rw [Sockets.setObject, List.getElem?_set_ne hne, hobjects, hj]
  obtain rfl : soc = soc' := by
    have hget := Option.join_eq_some_iff.mp hsoc'
    rw [Sockets.setObject, List.getElem?_set_ne hne, hobjects, hj] at hget
    exact Option.some.inj (Option.some.inj hget)
  have hlt : i < w₁.objects.length := hobjects ▸ (List.getElem?_eq_some_iff.mp hi).1
  obtain ⟨counters, hadd, hshared⟩ := hvalid.addCount
    (s := { t with count := soc.count, fd := soc.fd }) (List.getElem?_set_self hlt) hhold
    (mem_slotsOf_iff.mpr ⟨soc, List.mem_of_getElem? hj', hhold⟩)
  have hself := hadd (w₁.setObject i (some t)).objects
  simp only [Sockets.setObject, List.set_set] at hself hshared ⊢
  rw [hself]
  simp only [List.set_set]
  exact ⟨hshared, hopened, hclosed, hcountless⟩

theorem Sockets.Valid.destroy (hw : w.Valid) (hi : w.objects[i]? = some (some s)) :
    ((Stream.dropCount w s).1.setObject i none).Valid
      ∧ (Stream.dropCount w s).1.opened = w.opened ∧ w.closed <+: (Stream.dropCount w s).1.closed
      ∧ (s.count = none → (Stream.dropCount w s).1.closed = w.closed) := by
  obtain ⟨w₁, t, hdrop, -, hopened, hclosed, hcountless, hvalid⟩ := hw.dropCount hi rfl
  rw [hdrop]
  exact ⟨hvalid, hopened, hclosed, hcountless⟩

/-- Where an action destroys or assigns one object only, its counter is the one that matters. -/
theorem countless_of_object {a : Action} {i : ℕ} {s : Socket}
    (hget : w.objects[i]? = some (some s))
    (ha : ∀ k, (a = .destroy k ∨ ∃ j, a = .assign k j) → k = i)
    (hcountless : s.count = none → w'.closed = w.closed) :
    ∀ k t, (a = .destroy k ∨ ∃ j, a = .assign k j) → w.objects[k]? = some (some t) →
      t.count = none → w'.closed = w.closed := by
  intro k t hk ht hcount
  rw [ha k hk, hget] at ht
  cases ht
  exact hcountless hcount

theorem Sockets.Valid.step (hw : w.Valid) {a : Action} (ha : a.Proper w)
    (hstep : Stream.step w a = some w') : w'.Valid ∧ Change w a w' := by
  cases a with
  | construct =>
      cases hstep
      exact ⟨hw.constructNull rfl, List.prefix_rfl, List.prefix_rfl, .inl rfl, by simp⟩
  | manage fd type =>
      rw [Stream.step, Option.ite_none_right_eq_some] at hstep
      obtain ⟨hfd, hstep⟩ := hstep
      cases hstep
      exact ⟨hw.manage hfd type, List.prefix_append _ _, List.prefix_rfl, .inr rfl, by simp⟩
  | copy j | move j =>
      obtain ⟨s, hj, rfl⟩ := Option.map_eq_some_iff.mp hstep
      have hget := Option.join_eq_some_iff.mp hj
      obtain ⟨hvalid, hopened, hclosed⟩ := hw.copy (List.mem_of_getElem? hget) (ha s hget)
      exact ⟨hvalid, hopened ▸ List.prefix_rfl, hclosed ▸ List.prefix_rfl, .inl hopened, by simp⟩
  | assign i j =>
      obtain ⟨s, hi, hbind⟩ := Option.bind_eq_some_iff.mp hstep
      obtain ⟨soc, hj, hassign⟩ := Option.bind_eq_some_iff.mp hbind
      have hget := Option.join_eq_some_iff.mp hi
      have hsoc := Option.join_eq_some_iff.mp hj
      obtain ⟨hvalid, hopened, hclosed, hcountless⟩ :=
        hw.assign hget hsoc ha.1 (ha.2 soc hsoc) hassign
      refine ⟨hvalid, hopened ▸ List.prefix_rfl, hclosed, .inl hopened,
        countless_of_object hget (fun k hk => ?_) hcountless⟩
      rcases hk with heq | ⟨j', heq⟩ <;> cases heq
      rfl
  | destroy i =>
      obtain ⟨s, hi, rfl⟩ := Option.map_eq_some_iff.mp hstep
      have hget := Option.join_eq_some_iff.mp hi
      obtain ⟨hvalid, hopened, hclosed, hcountless⟩ := hw.destroy hget
      refine ⟨hvalid, hopened ▸ List.prefix_rfl, hclosed, .inl hopened,
        countless_of_object hget (fun k hk => ?_) hcountless⟩
      rcases hk with heq | ⟨j', heq⟩ <;> cases heq
      rfl

/-! ### What this says of the objects -/

/-- How many live objects refer to a descriptor, those without a counter not among them. -/
def Sockets.references (w : Sockets) (fd : ℤ) : ℕ :=
  w.objects.countP fun s => s.any fun s => s.count.isSome && s.fd = fd

/-- **Sharing.** The state of the counters and the descriptors that the objects share. -/
structure Shared (w : Sockets) : Prop where
  /-- A descriptor that is not closed yet has one counter, held by the objects that refer to it. -/
  counter : ∀ fd, w.closed.count fd < w.opened.count fd → 1 ≤ w.references fd
    ∧ ∃ c, w.counters[c]? = some (some (w.references fd))
      ∧ ∀ s, some s ∈ w.objects → s.count ≠ none → (s.count = some c ↔ s.fd = fd)
  /-- A descriptor is closed as often as it was opened, but for once while it is referred to. -/
  closed : ∀ fd, w.opened.count fd = w.closed.count fd + if w.references fd = 0 then 0 else 1
  live : ∀ s c, some s ∈ w.objects → s.count = some c → ∃ n, w.counters[c]? = some (some n)
  fault : w.fault = false

theorem references_eq_users (w : Sockets) (fd : ℤ) : w.references fd = users some w.slots fd := by
  rw [Sockets.references, users, Sockets.slots, slotsOf, List.countP_map]
  apply List.countP_congr
  intro s _
  rcases s with - | s
  · simp
  · cases hcount : s.count <;> simp [hcount, Socket.hold]

theorem references_eq_zero_iff (w : Sockets) (fd : ℤ) :
    w.references fd = 0 ↔ ¬InUse some w.slots fd := by
  rw [references_eq_users, users_eq_zero_iff]

theorem Sockets.Valid.shared (hw : w.Valid) : Shared w where
  counter fd hfd := by
    have hused : InUse some w.slots fd := by
      by_contra hunused
      have hclosed := hw.log.unused fd hunused
      omega
    obtain ⟨c, fd', hslot, hfd'⟩ := hused
    obtain rfl : fd' = fd := Option.some.inj hfd'
    have heq : w.references fd' = holders w.slots c :=
      (references_eq_users w fd').trans (users_eq_holders hw.owned hw.descriptors hslot rfl)
    refine ⟨heq ▸ holders_pos hslot, c, ?_, fun s hs hne => ?_⟩
    · rw [heq]
      exact Option.join_eq_some_iff.mp (hw.owned.counter hslot)
    · obtain ⟨c', hcount⟩ := Option.ne_none_iff_exists'.mp hne
      have hslot' : some (c', s.fd) ∈ w.slots :=
        mem_slotsOf_iff.mpr ⟨s, hs, Socket.exists_hold hcount⟩
      rw [hcount, Option.some.injEq]
      constructor
      · rintro rfl
        exact hw.owned.same hslot' hslot
      · rintro rfl
        exact hw.descriptors hslot' hslot rfl rfl
  closed fd := hw.log.count (references_eq_zero_iff w fd)
  live s c hs hcount := by
    have hslot : some (c, s.fd) ∈ w.slots := mem_slotsOf_iff.mpr ⟨s, hs, Socket.exists_hold hcount⟩
    exact ⟨_, Option.join_eq_some_iff.mp (hw.owned.counter hslot)⟩
  fault := hw.fault

/-- **The descriptors of `Socket`.** In every state the counters are the numbers of the objects that
share them. A step closes exactly the descriptors that it leaves without an object, once each, and
an object without a counter never makes it close one. -/
theorem shared_of_reaches (hreach : Reaches step (fun w a => a.Proper w) .init w) :
    Shared w ∧ ∀ a w', a.Proper w → step w a = some w' →
      (∀ fd, w'.closed.count fd
        = w.closed.count fd + if w.references fd ≠ 0 ∧ w'.references fd = 0 then 1 else 0)
      ∧ ∀ i s, (a = .destroy i ∨ ∃ j, a = .assign i j) → w.objects[i]? = some (some s) →
          s.count = none → w'.closed = w.closed := by
  have hw : w.Valid := hreach.invariant valid_init
    fun _ _ _ hw ha hstep => (hw.step ha hstep).1
  refine ⟨hw.shared, fun a w' ha hstep => ?_⟩
  obtain ⟨hw', hchange⟩ := hw.step ha hstep
  exact ⟨fun fd => hw.log.closed_count hw'.log hchange.opened hchange.closed hchange.once
    (references_eq_zero_iff w fd) (references_eq_zero_iff w' fd), hchange.countless⟩

/-- As long as there are fewer than `2 ^ 32` objects, no counter wraps around. -/
theorem counter_le_objects (hreach : Reaches step (fun w a => a.Proper w) .init w) {c n : ℕ}
    (hc : w.counters[c]? = some (some n)) : n ≤ w.objects.countP Option.isSome := by
  have hw : w.Valid := hreach.invariant valid_init
    fun _ _ _ hw ha hstep => (hw.step ha hstep).1
  exact hw.owned.le_live (by rw [hc, Option.join_some])

theorem shared_of_reaches_sample :
    ∃ w : Sockets, (w.counters = [some 2] ∧ w.opened = [5] ∧ w.closed = []) ∧ Shared w
      ∧ ∀ a w', a.Proper w → step w a = some w' →
        (∀ fd, w'.closed.count fd
          = w.closed.count fd + if w.references fd ≠ 0 ∧ w'.references fd = 0 then 1 else 0)
        ∧ ∀ i s, (a = .destroy i ∨ ∃ j, a = .assign i j) → w.objects[i]? = some (some s) →
            s.count = none → w'.closed = w.closed := by
  have hmove : Reaches step (fun w a => a.Proper w) .init _ :=
    .tail (a := .move 0) (.tail (a := .manage 5 .client) .refl trivial rfl)
      (fun s hs => by cases hs; exact nofun) rfl
  have hassign : Reaches step (fun w a => a.Proper w) .init _ :=
    .tail (a := .assign 0 1) hmove ⟨by decide, fun s hs => by cases hs; exact nofun⟩ rfl
  exact ⟨_, ⟨rfl, rfl, rfl⟩, shared_of_reaches hassign⟩

end Networking.Stream
