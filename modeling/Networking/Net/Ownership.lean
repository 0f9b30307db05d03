import Networking.Net.Groups

/-!
# Who owns a descriptor

Every operation on handles gives a reference up, hands one on or starts a group. So the counter of a
descriptor is the number of the handles that refer to it, and the step that takes the last of them
closes the descriptor and releases the buffer.
-/

namespace Networking.Net

open Counted Transition Wire

variable {w w' : World} {h s : SyncSocket} {i c : ℕ} {fd : ℤ} {x : ℕ × Shared}

/-! ### The operations -/

/-- What an operation does apart from keeping the invariant: it does not both open and close, and a
handle refers to what some handle referred to before, or to something new. -/
structure Change (w w' : World) : Prop where
  opened : w.opened <+: w'.opened
  closed : w.closed <+: w'.closed
  once : w'.opened = w.opened ∨ w'.closed = w.closed
  slots : ∀ c g, some (c, g) ∈ w'.slots →
    some (c, g) ∈ w.slots ∨ w.Fresh g.fd ∧ ∀ b, g.src = some b → b = w.buffers.length

theorem slots_construct (w : World) (h : SyncSocket) :
    (w.construct h).slots = w.slots ++ [h.hold] :=
  slotsOf_append (some h)

theorem getElem?_append_none (w : World) :
    ({ w with handles := w.handles ++ [none] } : World).handles[w.handles.length]? = some none :=
  List.getElem?_concat_length

theorem construct_eq (w : World) (h : SyncSocket) :
    w.construct h = ({ w with handles := w.handles ++ [none] } : World).setHandle w.handles.length
      (some h) := by
  simp [World.construct, World.setHandle]

theorem Invariant.constructNull (hw : Invariant w) (fd : ℤ) :
    Invariant (w.construct (.null fd)) := by
  rw [construct_eq]
  have hnone := hw.append_none
  rw [← setHandle_self (getElem?_append_none w)] at hnone
  apply hnone.setHandle rfl rfl
  intro h heq
  rw [← Option.some.inj heq]
  exact .null fd

theorem Change.constructNull {counters : List (Option ℕ)} :
    Change w ({ w with counters := counters }.construct (.null fd)) where
  opened := List.prefix_rfl
  closed := List.prefix_rfl
  once := .inl rfl
  slots c g hg := by
    rw [slots_construct] at hg
    exact .inl (mem_append_none_iff.mp hg)

theorem Invariant.constructNew (hw : Invariant w) (hfd : w.Fresh fd) (tried : List ℤ)
    (htried : ∀ fd ∈ tried, 0 ≤ fd) (peer : Option Bytes) (len : ℕ) :
    Invariant ({ w with
      counters := w.counters ++ [some 1]
      buffers := w.buffers ++ (peer.map some).toList
      opened := w.opened ++ tried ++ [fd]
      closed := w.closed ++ tried }.construct (w.newHandle fd peer len)) := by
  have hnew := hw.append_none.create (getElem?_append_none w) hfd tried htried peer len
  rw [construct_eq]
  exact hnew

theorem Change.constructNew (hfd : w.Fresh fd) {counters : List (Option ℕ)}
    {buffers : List (Option Bytes)} (peer : Option Bytes) (len : ℕ) :
    Change w ({ w with
      counters := counters
      buffers := buffers
      opened := w.opened ++ [fd] }.construct (w.newHandle fd peer len)) where
  opened := List.prefix_append _ _
  closed := List.prefix_rfl
  once := .inr rfl
  slots c g hg := by
    rw [slots_construct] at hg
    rcases List.mem_append.mp hg with hold | hnew
    · exact .inl hold
    · cases List.mem_singleton.mp hnew
      refine .inr ⟨hfd, fun b hb => ?_⟩
      obtain ⟨bytes, -, rfl⟩ := Option.map_eq_some_iff.mp hb
      rfl

theorem Invariant.copy (hw : Invariant w) (hmem : some h ∈ w.handles) :
    Invariant ((Net.addRef w h).construct h) ∧ Change w ((Net.addRef w h).construct h) := by
  obtain ⟨counters, hadd, hinv⟩ := hw.append_none.addRef (getElem?_append_none w)
    (hw.proper h hmem) fun x hx => mem_slots (List.mem_append_left _ hmem) hx
  have hself : Net.addRef w h = { w with counters := counters } := hadd w.handles
  rw [hself]
  refine ⟨?_, List.prefix_rfl, List.prefix_rfl, .inl rfl, fun c g hg => .inl ?_⟩
  · rw [construct_eq]
    exact hinv
  · rw [slots_construct] at hg
    rcases List.mem_append.mp hg with hold | hnew
    · exact hold
    · exact mem_slots hmem (List.mem_singleton.mp hnew).symm

theorem Invariant.destroy (hw : Invariant w) (hi : w.handles[i]? = some (some h)) :
    Invariant ((Net.checkClose w h).1.setHandle i none)
      ∧ Change w ((Net.checkClose w h).1.setHandle i none) := by
  obtain ⟨w₁, h₁, hclose, hhandles, hopened, hclosed, hinv, -⟩ := hw.checkClose hi
  rw [hclose]
  refine ⟨hinv, hopened ▸ List.prefix_rfl, hclosed, .inl hopened, fun c g hg => .inl ?_⟩
  have hslots : w₁.slots = w.slots := congrArg (slotsOf _) hhandles
  exact hslots ▸ (mem_slotsOf_set hg).resolve_right (Option.some_ne_none _).symm

theorem Invariant.assign (hw : Invariant w) (hi : w.handles[i]? = some (some h)) {asn : ℕ}
    (hassign : Net.assign w i asn h = some w') : Invariant w' ∧ Change w w' := by
  obtain ⟨w₁, h₁, hclose, hhandles, hopened, hclosed, hinv, hproper, hhold⟩ := hw.checkClose hi
  rw [Net.assign, hclose] at hassign
  obtain ⟨cpy, hcpy, rfl⟩ := Option.map_eq_some_iff.mp hassign
  have hlt : i < w₁.handles.length := hhandles ▸ (List.getElem?_eq_some_iff.mp hi).1
  -- what is read from the assigned handle itself is what `check_close` has left there
  have hsource : cpy.Proper ∧ ∀ x, cpy.hold = some x → some x ∈ (w₁.setHandle i none).slots := by
    have hget := Option.join_eq_some_iff.mp hcpy
    by_cases hself : i = asn
    · rw [World.setHandle, ← hself, List.getElem?_set_self hlt] at hget
      cases hget
      exact ⟨hproper, hhold⟩
    · rw [World.setHandle, List.getElem?_set_ne hself] at hget
      have hmem : some cpy ∈ (w₁.setHandle i none).handles :=
        List.mem_of_getElem? ((List.getElem?_set_ne hself).trans hget)
      exact ⟨hinv.proper cpy hmem, fun x hx => mem_slots hmem hx⟩
  obtain ⟨counters, hadd, hshared⟩ :=
    hinv.addRef (List.getElem?_set_self hlt) hsource.1 hsource.2
  have hresult : (Net.addRef (w₁.setHandle i (some h₁)) cpy).setHandle i (some cpy)
      = { w₁ with counters := counters }.setHandle i (some cpy) := by
    have hself := hadd (w₁.setHandle i (some h₁)).handles
    simp only [World.setHandle] at hself ⊢
    rw [hself]
    simp only [List.set_set]
  have hinv' : Invariant ({ w₁ with counters := counters }.setHandle i (some cpy)) := by
    simpa only [World.setHandle, List.set_set] using hshared
  rw [hresult]
  refine ⟨hinv', hopened ▸ List.prefix_rfl, hclosed, .inl hopened, fun c g hg => .inl ?_⟩
  have hslots : w₁.slots = w.slots := congrArg (slotsOf _) hhandles
  rw [← hslots]
  rcases mem_slotsOf_set hg with hold | hnew
  · exact hold
  · exact (mem_slotsOf_set (hsource.2 _ hnew)).resolve_right (Option.some_ne_none _).symm

/-- The operations that take no host name. -/
def Action.Local : Action → Prop
  | .constructConnect .. | .connect .. => False
  | _ => True

theorem Invariant.stepLocal (hw : Invariant w) {a : Action} (ha : a.Local)
    (hstep : step w a = some w') : Invariant w' ∧ Change w w' := by
  cases a with
  | construct =>
      cases hstep
      exact ⟨hw.constructNull 0, .constructNull⟩
  | constructTcp fd =>
      rw [step, Option.ite_none_right_eq_some] at hstep
      obtain ⟨hfd, hstep⟩ := hstep
      cases hstep
      refine ⟨?_, .constructNew hfd none 0⟩
      have hnew := hw.constructNew hfd [] nofun none 0
      simp only [List.append_nil, Option.map_none, Option.toList_none] at hnew
      exact hnew
  | constructUdp fd src allocated =>
      rw [step, Option.ite_none_right_eq_some] at hstep
      obtain ⟨hfd, hstep⟩ := hstep
      cases hstep
      rw [constructUdp]
      split_ifs
      · refine ⟨?_, .constructNew hfd (some src) src.length⟩
        have hnew := hw.constructNew hfd [] nofun (some src) src.length
        simp only [List.append_nil] at hnew
        exact hnew
      · exact ⟨hw.append_deleted.constructNull (-1), .constructNull⟩
  | constructConnect tcp servers => exact ha.elim
  | copy cpy =>
      obtain ⟨h, hcpy, rfl⟩ := Option.map_eq_some_iff.mp hstep
      exact hw.copy (List.mem_of_getElem? (Option.join_eq_some_iff.mp hcpy))
  | assign i asn =>
      obtain ⟨h, hi, hassign⟩ := Option.bind_eq_some_iff.mp hstep
      exact hw.assign (Option.join_eq_some_iff.mp hi) hassign
  | destroy i =>
      obtain ⟨h, hi, rfl⟩ := Option.map_eq_some_iff.mp hstep
      exact hw.destroy (Option.join_eq_some_iff.mp hi)
  | connect i tcp servers => exact ha.elim

/-! ### What the invariant says of the handles -/

/-- A live handle with `_conn` set. -/
def World.Connected (w : World) (h : SyncSocket) : Prop := some h ∈ w.handles ∧ h.conn = true

/-- How many live handles with `_conn` set refer to a descriptor. -/
def World.references (w : World) (fd : ℤ) : ℕ :=
  w.handles.countP fun s => s.any fun h => h.conn && h.fd = fd

/-- **Ownership.** The state of the counters, the descriptors and the buffers that the handles
share. -/
structure Ownership (w : World) : Prop where
  /-- A descriptor that is not closed yet has one counter, held by the handles that refer to it. -/
  counter : ∀ fd, w.closed.count fd < w.opened.count fd → 1 ≤ w.references fd
    ∧ ∃ c, w.counters[c]? = some (some (w.references fd))
      ∧ ∀ h, w.Connected h → (h.refs = some c ↔ h.fd = fd)
  /-- A descriptor is closed as often as it was taken over, but for once while it is referred to. -/
  closed : ∀ fd, w.opened.count fd = w.closed.count fd + if w.references fd = 0 then 0 else 1
  /-- A buffer is there as long as handles point to it, and these refer to one descriptor. -/
  buffer : ∀ h b, w.Connected h → h.src = some b → (∃ bytes, w.buffers[b]? = some (some bytes))
    ∧ ∀ h', w.Connected h' → h'.src = some b → h'.fd = h.fd
  released : ∀ b bytes, w.buffers[b]? = some (some bytes) → ∃ h, w.Connected h ∧ h.src = some b
  fault : w.fault = false

theorem Invariant.exists_slot (hw : Invariant w) (hh : w.Connected h) :
    ∃ c, h.refs = some c ∧ some (c, h.shared) ∈ w.slots := by
  obtain ⟨c, hrefs, hhold⟩ := (hw.proper h hh.1).exists_hold hh.2
  exact ⟨c, hrefs, mem_slots hh.1 hhold⟩

theorem exists_connected {g : Shared} (hg : some (c, g) ∈ w.slots) :
    ∃ h, w.Connected h ∧ h.refs = some c ∧ h.shared = g := by
  obtain ⟨h, hs, hhold⟩ := mem_slotsOf_iff.mp hg
  simp only [SyncSocket.hold, Option.ite_none_right_eq_some] at hhold
  obtain ⟨hconn, hhold⟩ := hhold
  obtain ⟨c', hc, heq⟩ := Option.map_eq_some_iff.mp hhold
  cases heq
  exact ⟨h, ⟨hs, hconn⟩, hc, rfl⟩

theorem Invariant.refs_iff (hw : Invariant w) (hh : w.Connected h) (hrefs : h.refs = some c)
    (hs : w.Connected s) : s.refs = some c ↔ s.fd = h.fd := by
  obtain ⟨c₁, hc₁, hslot₁⟩ := hw.exists_slot hh
  obtain ⟨c₂, hc₂, hslot₂⟩ := hw.exists_slot hs
  obtain rfl : c = c₁ := Option.some.inj (hrefs.symm.trans hc₁)
  constructor
  · intro hc
    obtain rfl : c = c₂ := Option.some.inj (hc.symm.trans hc₂)
    exact congrArg Shared.fd (hw.owned.same hslot₂ hslot₁)
  · intro hfd
    rw [hc₂, hw.descriptors hslot₂ hslot₁ rfl (congrArg some hfd.symm)]

theorem World.Connected.setHandle (hh : (w.setHandle i none).Connected h) (s : Option SyncSocket) :
    (w.setHandle i s).Connected h := by
  obtain ⟨j, hj⟩ := List.getElem?_of_mem hh.1
  have hne : i ≠ j := by
    rintro rfl
    rw [World.setHandle, List.getElem?_set_self'] at hj
    cases hi : w.handles[i]? <;> rw [hi] at hj <;> cases hj
  refine ⟨List.mem_of_getElem? (i := j) ?_, hh.2⟩
  rw [World.setHandle, List.getElem?_set_ne hne] at hj ⊢
  exact hj

theorem references_setHandle (hi : i < w.handles.length) (hconn : h.conn = true) :
    (w.setHandle i (some h)).references h.fd = (w.setHandle i none).references h.fd + 1 := by
  simp only [World.references, World.setHandle, List.countP_set hi]
  simp [hconn]

theorem Invariant.references_eq_users (hw : Invariant w) (fd : ℤ) :
    w.references fd = users Shared.descriptor w.slots fd := by
  rw [World.references, users, World.slots, slotsOf, List.countP_map]
  apply List.countP_congr
  intro s hs
  cases s with
  | none => simp
  | some s =>
      cases hconn : s.conn with
      | false => simp [hconn, SyncSocket.hold]
      | true =>
          obtain ⟨c, -, hhold⟩ := (hw.proper s hs).exists_hold hconn
          simp [hconn, hhold, Shared.descriptor, SyncSocket.shared]

theorem Invariant.references_eq (hw : Invariant w) (hh : w.Connected h) (hrefs : h.refs = some c) :
    w.references h.fd = holders w.slots c := by
  obtain ⟨c', hc', hslot⟩ := hw.exists_slot hh
  obtain rfl : c' = c := Option.some.inj (hc'.symm.trans hrefs)
  rw [hw.references_eq_users]
  exact users_eq_holders hw.owned hw.descriptors hslot rfl

theorem references_eq_zero_iff :
    w.references fd = 0 ↔ ∀ h, w.Connected h → h.fd ≠ fd := by
  rw [World.references, List.countP_eq_zero]
  constructor
  · intro h s hs hfd
    exact h _ hs.1 (by simp [hs.2, hfd])
  · intro h s hs hany
    obtain ⟨s, rfl, hboth⟩ := (Option.any_eq_true _ _).mp hany
    simp only [Bool.and_eq_true, decide_eq_true_eq] at hboth
    exact h s ⟨hs, hboth.1⟩ hboth.2

theorem Invariant.inUse_iff (hw : Invariant w) :
    InUse Shared.descriptor w.slots fd ↔ ∃ h, w.Connected h ∧ h.fd = fd := by
  constructor
  · rintro ⟨c, g, hg, hfd⟩
    obtain ⟨h, hh, -, rfl⟩ := exists_connected hg
    exact ⟨h, hh, Option.some.inj hfd⟩
  · rintro ⟨h, hh, rfl⟩
    obtain ⟨c, -, hslot⟩ := hw.exists_slot hh
    exact ⟨c, h.shared, hslot, rfl⟩

theorem Invariant.references_eq_zero_iff (hw : Invariant w) :
    w.references fd = 0 ↔ ¬InUse Shared.descriptor w.slots fd := by
  rw [hw.references_eq_users, users_eq_zero_iff]

theorem Invariant.ownership (hw : Invariant w) : Ownership w where
  counter fd hfd := by
    have hused : InUse Shared.descriptor w.slots fd := by
      by_contra hunused
      have hclosed := hw.log.unused fd hunused
      omega
    obtain ⟨h, hh, rfl⟩ := hw.inUse_iff.mp hused
    obtain ⟨c, hrefs, hslot⟩ := hw.exists_slot hh
    have heq := hw.references_eq hh hrefs
    refine ⟨heq ▸ holders_pos hslot, c, ?_, fun s hs => hw.refs_iff hh hrefs hs⟩
    rw [heq]
    exact Option.join_eq_some_iff.mp (hw.owned.counter hslot)
  closed _ := hw.log.count hw.references_eq_zero_iff
  buffer h b hh hb := by
    obtain ⟨c, hrefs, hslot⟩ := hw.exists_slot hh
    constructor
    · have hsome := (hw.buffers b).mpr ⟨c, h.shared, hslot, hb⟩
      obtain ⟨bytes, hbytes⟩ := Option.isSome_iff_exists.mp hsome
      exact ⟨bytes, Option.join_eq_some_iff.mp hbytes⟩
    · intro s hs hsrc
      obtain ⟨c', hrefs', hslot'⟩ := hw.exists_slot hs
      obtain rfl := hw.srcs hslot' hslot hsrc hb
      exact (hw.refs_iff hh hrefs hs).mp hrefs'
  released b bytes hb := by
    obtain ⟨c, g, hg, hsrc⟩ := (hw.buffers b).mp (by rw [hb]; rfl)
    obtain ⟨h, hh, -, rfl⟩ := exists_connected hg
    exact ⟨h, hh, hsrc⟩
  fault := hw.fault

/-- What a step closes and releases. -/
structure Releases (w w' : World) : Prop where
  /-- Exactly the descriptors are closed, once each, that some handle referred to and none does
  now. -/
  closed : ∀ fd, w'.closed.count fd
    = w.closed.count fd + if w.references fd ≠ 0 ∧ w'.references fd = 0 then 1 else 0
  /-- The buffer of a descriptor is released in the step that closes the descriptor. -/
  buffer : ∀ h b, w.Connected h → h.src = some b →
    (w'.buffers[b]?.join = none ↔ w'.references h.fd = 0)

theorem Change.releases (hw : Invariant w) (hw' : Invariant w') (hchange : Change w w') :
    Releases w w' where
  closed _ := hw.log.closed_count hw'.log hchange.opened hchange.closed hchange.once
    hw.references_eq_zero_iff hw'.references_eq_zero_iff
  buffer h b hh hb := by
    obtain ⟨c, -, hslot⟩ := hw.exists_slot hh
    constructor
    · intro hreleased
      refine hw'.references_eq_zero_iff.mpr ?_
      rintro ⟨c', g, hg, hfd⟩
      rcases hchange.slots c' g hg with hold | ⟨hfresh, -⟩
      · obtain rfl := hw.descriptors hold hslot hfd rfl
        obtain rfl := hw.owned.same hold hslot
        have hsome := (hw'.buffers b).mpr ⟨c', h.shared, hg, hb⟩
        rw [hreleased] at hsome
        cases hsome
      · rw [Option.some.inj hfd] at hfresh
        exact hw.not_inUse_of_fresh hfresh ⟨c, h.shared, hslot, rfl⟩
    · intro hzero
      apply Option.not_isSome_iff_eq_none.mp
      intro hsome
      obtain ⟨c', g, hg, hsrc⟩ := (hw'.buffers b).mp hsome
      rcases hchange.slots c' g hg with hold | ⟨-, hnew⟩
      · obtain rfl := hw.srcs hold hslot hsrc hb
        obtain rfl := hw.owned.same hold hslot
        exact hw'.references_eq_zero_iff.mp hzero ⟨c', h.shared, hg, rfl⟩
      · rw [hnew b hsrc] at hb
        exact hw.not_inUse_length ⟨c, h.shared, hslot, hb⟩

/-- **The descriptors of `sync_socket`.** In every state the handles own what they share, and every
step closes and releases what it leaves without a connected handle. -/
theorem ownership_of_reaches (hreach : Reaches step (fun _ a => a.Local) .init w) :
    Ownership w ∧ ∀ a w', a.Local → step w a = some w' → Releases w w' := by
  have hw : Invariant w := hreach.invariant invariant_init
    fun _ _ _ hw ha hstep => (hw.stepLocal ha hstep).1
  refine ⟨hw.ownership, fun a w' ha hstep => ?_⟩
  obtain ⟨hw', hchange⟩ := hw.stepLocal ha hstep
  exact hchange.releases hw hw'

/-- As long as there are fewer than `2 ^ 31` handles, no counter overflows. -/
theorem counter_le_handles (hreach : Reaches step (fun _ a => a.Local) .init w) {c n : ℕ}
    (hc : w.counters[c]? = some (some n)) : n ≤ w.handles.countP Option.isSome := by
  have hw : Invariant w := hreach.invariant invariant_init
    fun _ _ _ hw ha hstep => (hw.stepLocal ha hstep).1
  exact hw.owned.le_live (by rw [hc, Option.join_some])

theorem ownership_of_reaches_sample :
    ∃ w : World, (w.counters = [some 1] ∧ w.opened = [5] ∧ w.closed = []) ∧ Ownership w
      ∧ ∀ a w', a.Local → step w a = some w' → Releases w w' := by
  have hcopy : Reaches step (fun _ a => a.Local) .init _ :=
    .tail (a := .copy 0) (.tail (a := .constructUdp 5 [2, 0] true) .refl trivial rfl) trivial rfl
  have hdestroy : Reaches step (fun _ a => a.Local) .init _ :=
    .tail (a := .destroy 1) (.tail (a := .assign 0 0) hcopy trivial rfl) trivial rfl
  exact ⟨_, ⟨rfl, rfl, rfl⟩, ownership_of_reaches hdestroy⟩

end Networking.Net
