import Networking.Net.SyncSocket

/-!
# The handles of a socket

The handles that are connected to one socket hold the same fields, so they form a group with one
counter, one descriptor and at most one buffer. A handle may leave its group, join another or start
one with a descriptor that is not open and memory that is new.
-/

namespace Networking.Net

open Counted Transition Wire

/-- What the handles of a socket share apart from the counter. -/
structure Shared where
  fd : ℤ
  tcp : Bool
  src : Option ℕ
  len : ℕ

def Shared.descriptor (g : Shared) : Option ℤ := some g.fd

variable {w w' : World} {h s : SyncSocket} {i c : ℕ} {fd : ℤ} {x : ℕ × Shared}

def SyncSocket.shared (h : SyncSocket) : Shared := ⟨h.fd, h.tcp, h.src, h.len⟩

/-- The counter that a handle refers to, and what belongs to it. -/
def SyncSocket.hold (h : SyncSocket) : Option (ℕ × Shared) :=
  if h.conn then h.refs.map fun c => (c, h.shared) else none

def World.slots (w : World) : List (Option (ℕ × Shared)) := slotsOf SyncSocket.hold w.handles

/-- The pointers of a handle are null but for a counter when it is connected, and a buffer when it
is connected by UDP. -/
structure SyncSocket.Proper (h : SyncSocket) : Prop where
  refs : h.refs.isSome = h.conn
  src : h.src.isSome = (h.conn && !h.tcp)

structure Invariant (w : World) : Prop where
  owned : Owned w.counters w.slots
  descriptors : Exclusive Shared.descriptor w.slots
  srcs : Exclusive Shared.src w.slots
  proper : ∀ h, some h ∈ w.handles → h.Proper
  log : Balanced w.opened w.closed (InUse Shared.descriptor w.slots)
  nonneg : ∀ fd ∈ w.opened, 0 ≤ fd
  buffers : ∀ b, w.buffers[b]?.join.isSome ↔ InUse Shared.src w.slots b
  fault : w.fault = false

theorem invariant_init : Invariant .init where
  owned := ⟨fun _ => rfl, nofun⟩
  descriptors := nofun
  srcs := nofun
  proper := nofun
  log := by
    refine ⟨?_, fun _ _ => rfl⟩
    rintro fd ⟨c, g, hmem, -⟩
    cases hmem
  nonneg := nofun
  buffers b := by
    refine ⟨nofun, ?_⟩
    rintro ⟨c, g, hmem, -⟩
    cases hmem
  fault := rfl

/-! ### Handles and slots -/

theorem SyncSocket.Proper.null (fd : ℤ) : (SyncSocket.null fd).Proper := ⟨rfl, rfl⟩

theorem SyncSocket.hold_of_not_conn (hconn : h.conn = false) : h.hold = none := by
  rw [hold, hconn]
  rfl

theorem SyncSocket.Proper.exists_hold (hproper : h.Proper) (hconn : h.conn = true) :
    ∃ c, h.refs = some c ∧ h.hold = some (c, h.shared) := by
  obtain ⟨c, hc⟩ := Option.isSome_iff_exists.mp (hproper.refs.trans hconn)
  exact ⟨c, hc, by rw [hold, hconn, hc]; rfl⟩

theorem slots_setHandle (w : World) (i : ℕ) (s : Option SyncSocket) :
    (w.setHandle i s).slots = w.slots.set i (s.bind SyncSocket.hold) :=
  slotsOf_set s

theorem getElem?_slots {s : Option SyncSocket} (hi : w.handles[i]? = some s) :
    w.slots[i]? = some (s.bind SyncSocket.hold) :=
  getElem?_slotsOf hi

theorem mem_slots (hmem : some h ∈ w.handles) (hhold : h.hold = some x) : some x ∈ w.slots :=
  mem_slotsOf_iff.mpr ⟨h, hmem, hhold⟩

theorem Invariant.setHandle {s s' : Option SyncSocket} (hw : Invariant (w.setHandle i s))
    (hs : s.bind SyncSocket.hold = none) (hs' : s'.bind SyncSocket.hold = none)
    (hproper : ∀ h, s' = some h → h.Proper) : Invariant (w.setHandle i s') := by
  have hslots : (w.setHandle i s').slots = (w.setHandle i s).slots := by
    rw [slots_setHandle, slots_setHandle, hs, hs']
  obtain ⟨howned, hfds, hsrcs, hold, hlog, hnonneg, hbuffers, hfault⟩ := hw
  rw [← hslots] at howned hfds hsrcs hlog hbuffers
  refine ⟨howned, hfds, hsrcs, fun h hh => ?_, hlog, hnonneg, hbuffers, hfault⟩
  obtain ⟨j, hj⟩ := List.getElem?_of_mem hh
  rw [World.setHandle, List.getElem?_set] at hj
  split_ifs at hj with hji hlt
  · exact hproper h (Option.some.inj hj)
  · refine hold h (List.mem_of_getElem? (i := j) ?_)
    rw [World.setHandle, List.getElem?_set_ne hji]
    exact hj

theorem setHandle_self {s : Option SyncSocket} (hi : w.handles[i]? = some s) :
    w.setHandle i s = w := by
  obtain ⟨hlt, rfl⟩ := List.getElem?_eq_some_iff.mp hi
  rw [World.setHandle, List.set_getElem_self]

theorem Invariant.reassign (hw : Invariant w) {handles : List (Option SyncSocket)}
    {counters : List (Option ℕ)} {slots : List (Option (ℕ × Shared))}
    (hslots : ({ w with handles := handles, counters := counters } : World).slots = slots)
    (howned : Owned counters slots) (hdescriptors : Exclusive Shared.descriptor slots)
    (hsrcs : Exclusive Shared.src slots)
    (huse : ∀ {κ : Type} {key : Shared → Option κ} (_ : Exclusive key w.slots) (k : κ),
      InUse key slots k ↔ InUse key w.slots k)
    (hproper : ∀ h, some h ∈ handles → h.Proper) :
    Invariant { w with handles := handles, counters := counters } := by
  subst hslots
  exact ⟨howned, hdescriptors, hsrcs, hproper, hw.log.congr (huse hw.descriptors), hw.nonneg,
    fun b => (hw.buffers b).trans (huse hw.srcs b).symm, hw.fault⟩

/-! ### `check_close` -/

theorem Invariant.giveUp {counters : List (Option ℕ)} {g : Shared} (hw : Invariant w)
    (hi : w.slots[i]? = some (some (c, g))) (howned : Owned counters (w.slots.set i none))
    (hlast : holders (w.slots.set i none) c ≠ 0) :
    Invariant ({ w with counters := counters }.setHandle i none) := by
  refine hw.reassign (slots_setHandle w i none) howned hw.descriptors.release hw.srcs.release ?_ ?_
  · intro κ key hkey k
    rw [Option.bind_none, inUse_release hw.owned hkey hi]
    exact and_iff_left fun h => hlast h.2
  · exact fun h hh => hw.proper h ((List.mem_or_eq_of_mem_set hh).resolve_right nofun)

/-- The last handle takes the counter, the buffer and the descriptor with it. -/
theorem Invariant.close {counters : List (Option ℕ)} {buffers : List (Option Bytes)} {g : Shared}
    (hw : Invariant w) (hi : w.slots[i]? = some (some (c, g)))
    (howned : Owned counters (w.slots.set i none))
    (hlast : holders (w.slots.set i none) c = 0)
    (hbuffers : ∀ b, buffers[b]?.join.isSome ↔ w.buffers[b]?.join.isSome ∧ g.src ≠ some b) :
    Invariant ({ w with
      counters := counters
      buffers := buffers
      closed := w.closed ++ [g.fd] }.setHandle i none) := by
  have hslots := slots_setHandle w i none
  have huse : ∀ {κ : Type} {key : Shared → Option κ} (_ : Exclusive key w.slots) (k : κ),
      InUse key (w.setHandle i none).slots k ↔ InUse key w.slots k ∧ key g ≠ some k := by
    intro κ key hkey k
    rw [hslots, Option.bind_none, inUse_release hw.owned hkey hi, hlast]
    simp only [and_true, ne_eq]
  refine ⟨?_, ?_, ?_, fun h hh => ?_, ?_, hw.nonneg, fun b => ?_, hw.fault⟩
  · rwa [← Option.bind_none SyncSocket.hold, ← hslots] at howned
  · exact hslots ▸ hw.descriptors.release
  · exact hslots ▸ hw.srcs.release
  · exact hw.proper h ((List.mem_or_eq_of_mem_set hh).resolve_right nofun)
  · refine hw.log.close ⟨c, g, List.mem_of_getElem? hi, rfl⟩ fun fd => ?_
    exact (huse hw.descriptors fd).trans (and_congr_right' (not_congr Option.some_inj))
  · calc buffers[b]?.join.isSome ↔ w.buffers[b]?.join.isSome ∧ g.src ≠ some b := hbuffers b
      _ ↔ InUse Shared.src w.slots b ∧ g.src ≠ some b := and_congr_left' (hw.buffers b)
      _ ↔ _ := (huse hw.srcs b).symm

theorem deleteBuffer_eq {src : Option ℕ}
    (hsrc : ∀ b, src = some b → w.buffers[b]?.join.isSome) :
    ∃ buffers, deleteBuffer w src = { w with buffers := buffers }
      ∧ ∀ b, buffers[b]?.join.isSome ↔ w.buffers[b]?.join.isSome ∧ src ≠ some b := by
  cases src with
  | none => exact ⟨w.buffers, rfl, fun b => by simp⟩
  | some b =>
      obtain ⟨bytes, hbytes⟩ := Option.isSome_iff_exists.mp (hsrc b rfl)
      refine ⟨w.buffers.set b none, by rw [deleteBuffer, hbytes], fun b' => ?_⟩
      have hlt : b < w.buffers.length := by
        by_contra hge
        rw [List.getElem?_eq_none (by omega)] at hbytes
        cases hbytes
      by_cases hb : b = b'
      · rw [← hb, List.getElem?_set_self hlt]
        simp
      · rw [List.getElem?_set_ne hb]
        simp [hb]

/-- After `check_close` the handle counts as gone. Either it was the last of its group and has null
pointers, or others hold what it still points to. -/
theorem Invariant.checkClose (hw : Invariant w) (hi : w.handles[i]? = some (some h)) :
    ∃ w' h', checkClose w h = (w', h') ∧ w'.handles = w.handles ∧ w'.opened = w.opened
      ∧ w.closed <+: w'.closed ∧ Invariant (w'.setHandle i none) ∧ h'.Proper
      ∧ ∀ x, h'.hold = some x → some x ∈ (w'.setHandle i none).slots := by
  have hproper := hw.proper h (List.mem_of_getElem? hi)
  cases hconn : h.conn with
  | false =>
      have hhold := SyncSocket.hold_of_not_conn hconn
      have hw' : Invariant (w.setHandle i (some h)) := by rwa [setHandle_self hi]
      refine ⟨w, h, by simp [Net.checkClose, hconn], rfl, rfl, List.prefix_rfl,
        hw'.setHandle hhold rfl nofun, hproper, fun x hx => ?_⟩
      rw [hhold] at hx
      cases hx
  | true =>
      obtain ⟨c, hrefs, hhold⟩ := hproper.exists_hold hconn
      have hslot := (getElem?_slots hi).trans (congrArg some hhold)
      obtain ⟨counters, hrelease, howned⟩ := hw.owned.release hslot
      by_cases hlast : holders (w.slots.set i none) c = 0
      · rw [decide_eq_true hlast] at hrelease
        have hsrc : ∀ b, h.src = some b → w.buffers[b]?.join.isSome :=
          fun b hb => (hw.buffers b).mpr ⟨c, _, List.mem_of_getElem? hslot, hb⟩
        obtain ⟨buffers, hdelete, hbuffers⟩ :=
          deleteBuffer_eq (w := { w with counters := counters }) hsrc
        refine ⟨{ w with counters := counters, buffers := buffers, closed := w.closed ++ [h.fd] },
          .null (-1), ?_, rfl, rfl, List.prefix_append _ _,
          hw.close hslot howned hlast hbuffers, .null _, nofun⟩
        simp [Net.checkClose, hconn, hrefs, hrelease, hdelete]
      · rw [decide_eq_false hlast] at hrelease
        refine ⟨{ w with counters := counters }, h, ?_, rfl, rfl, List.prefix_rfl,
          hw.giveUp hslot howned hlast, hproper, fun x hx => ?_⟩
        · simp [Net.checkClose, hconn, hrefs, hrelease]
        · obtain ⟨g, hg⟩ := exists_of_holders_pos (Nat.pos_of_ne_zero hlast)
          obtain rfl := hw.owned.same (List.mem_of_getElem? hslot) (mem_of_mem_set_none hg)
          rw [slots_setHandle]
          rwa [← Option.some.inj (hhold.symm.trans hx)]

/-! ### Receiving a reference -/

/-- A handle that is given the fields of another refers to what that one refers to. -/
theorem Invariant.addRef (hw : Invariant w) (hi : w.handles[i]? = some none) (hproper : h.Proper)
    (hmem : ∀ x, h.hold = some x → some x ∈ w.slots) :
    ∃ counters, (∀ handles, addRef { w with handles := handles } h
        = { w with handles := handles, counters := counters })
      ∧ Invariant ({ w with counters := counters }.setHandle i (some h)) := by
  cases hconn : h.conn with
  | false =>
      have hhold := SyncSocket.hold_of_not_conn hconn
      have hw' : Invariant (w.setHandle i none) := by rwa [setHandle_self hi]
      refine ⟨w.counters, by simp [Net.addRef, hconn], hw'.setHandle rfl hhold fun h' heq => ?_⟩
      rwa [← Option.some.inj heq]
  | true =>
      obtain ⟨c, hrefs, hhold⟩ := hproper.exists_hold hconn
      have hslot := getElem?_slots hi
      have hshared := hmem _ hhold
      obtain ⟨counters, hretain, howned⟩ := hw.owned.share hslot hshared
      refine ⟨counters, by simp [Net.addRef, hconn, hrefs, hretain], ?_⟩
      rw [← hhold, ← Option.bind_some (f := SyncSocket.hold)] at howned
      refine hw.reassign (slots_setHandle w i (some h)) howned ?_ ?_ ?_ fun h' hh' => ?_
      · rw [Option.bind_some, hhold]
        exact hw.descriptors.share hslot hshared
      · rw [Option.bind_some, hhold]
        exact hw.srcs.share hslot hshared
      · intro κ key _ k
        rw [Option.bind_some, hhold]
        exact inUse_share hslot hshared
      · rcases List.mem_or_eq_of_mem_set hh' with hold | heq
        · exact hw.proper h' hold
        · rwa [Option.some.inj heq]

theorem Invariant.not_inUse_of_fresh (hw : Invariant w) (hfd : w.Fresh fd) :
    ¬InUse Shared.descriptor w.slots fd :=
  hw.log.not_used hfd.2

theorem Invariant.not_inUse_length (hw : Invariant w) :
    ¬InUse Shared.src w.slots w.buffers.length := by
  intro hused
  have hbuffer := (hw.buffers _).mpr hused
  rw [List.getElem?_eq_none le_rfl] at hbuffer
  cases hbuffer

theorem isSome_append_toList {β : Type} (l : List (Option β)) (peer : Option β) (b : ℕ) :
    (l ++ (peer.map some).toList)[b]?.join.isSome
      ↔ l[b]?.join.isSome ∨ (peer.map fun _ => l.length) = some b := by
  cases peer with
  | none => simp
  | some x =>
      simp only [Option.map_some, Option.toList_some, Option.some.injEq]
      rcases Nat.lt_trichotomy b l.length with hlt | rfl | hgt
      · rw [List.getElem?_append_left hlt, or_iff_left hlt.ne']
      · rw [List.getElem?_concat_length]
        simp
      · rw [List.getElem?_eq_none (by simp; omega), List.getElem?_eq_none (by omega),
          or_iff_left hgt.ne]

/-- A handle with a counter of its own, and with a buffer of its own for the address of a peer. -/
def World.newHandle (w : World) (fd : ℤ) (peer : Option Bytes) (len : ℕ) : SyncSocket :=
  ⟨fd, some w.counters.length, true, peer.isNone, peer.map fun _ => w.buffers.length, len⟩

/-- A handle is given a descriptor that is not open. On the way to it, some other descriptors may
have been opened and closed again. -/
theorem Invariant.create (hw : Invariant w) (hi : w.handles[i]? = some none) (hfd : w.Fresh fd)
    (tried : List ℤ) (htried : ∀ fd ∈ tried, 0 ≤ fd) (peer : Option Bytes) (len : ℕ) :
    Invariant { w with
      handles := w.handles.set i (some (w.newHandle fd peer len))
      counters := w.counters ++ [some 1]
      buffers := w.buffers ++ (peer.map some).toList
      opened := w.opened ++ tried ++ [fd]
      closed := w.closed ++ tried } := by
  have hslot := getElem?_slots hi
  have hslots := slots_setHandle w i (some (w.newHandle fd peer len))
  have huse : ∀ {κ : Type} {key : Shared → Option κ} (k : κ),
      InUse key (w.setHandle i (some (w.newHandle fd peer len))).slots k
        ↔ InUse key w.slots k ∨ key (w.newHandle fd peer len).shared = some k := by
    intro κ key k
    rw [hslots]
    exact inUse_create hslot
  refine ⟨hslots ▸ hw.owned.create hslot _, hslots ▸ hw.descriptors.create hslot ?_,
    hslots ▸ hw.srcs.create hslot ?_, fun h hh => ?_, ?_, fun x hx => ?_, fun b => ?_, hw.fault⟩
  · intro x hx
    cases hx
    exact hw.not_inUse_of_fresh hfd
  · intro b hb
    obtain ⟨bytes, -, rfl⟩ := Option.map_eq_some_iff.mp hb
    exact hw.not_inUse_length
  · rcases List.mem_or_eq_of_mem_set hh with hold | heq
    · exact hw.proper h hold
    · cases heq
      exact ⟨rfl, by cases peer <;> rfl⟩
  · refine (hw.log.append tried).open ?_ fun x => ?_
    · simp only [List.count_append, hfd.2]
    · exact (huse x).trans (or_congr_right Option.some_inj)
  · rcases List.mem_append.mp hx with hx | hx
    · exact (List.mem_append.mp hx).elim (hw.nonneg x) (htried x)
    · rw [List.mem_singleton.mp hx]
      exact hfd.1
  · calc (w.buffers ++ (peer.map some).toList)[b]?.join.isSome
        ↔ w.buffers[b]?.join.isSome ∨ (w.newHandle fd peer len).shared.src = some b :=
          isSome_append_toList _ _ _
      _ ↔ InUse Shared.src w.slots b ∨ (w.newHandle fd peer len).shared.src = some b :=
          or_congr_left (hw.buffers b)
      _ ↔ _ := (huse b).symm

theorem Invariant.append_deleted (hw : Invariant w) :
    Invariant { w with counters := w.counters ++ [none] } :=
  hw.reassign rfl hw.owned.append_deleted hw.descriptors hw.srcs (fun _ _ => .rfl) hw.proper

theorem Invariant.append_none (hw : Invariant w) :
    Invariant { w with handles := w.handles ++ [none] } := by
  have hslots : ({ w with handles := w.handles ++ [none] } : World).slots = w.slots ++ [none] :=
    slotsOf_append none
  exact hw.reassign hslots hw.owned.append_none hw.descriptors.append_none hw.srcs.append_none
    (fun _ _ => inUse_append_none) fun h hh => hw.proper h (by simpa using hh)

theorem Invariant.checkClose_snd (hw : Invariant w) (hi : w.handles[i]? = some (some h))
    (hconn : h.conn = true) (hrefs : h.refs = some c) :
    (Net.checkClose w h).2 = if holders w.slots c = 1 then .null (-1) else h := by
  obtain ⟨c', hc', hhold⟩ := (hw.proper h (List.mem_of_getElem? hi)).exists_hold hconn
  obtain rfl : c' = c := Option.some.inj (hc'.symm.trans hrefs)
  have hslot := (getElem?_slots hi).trans (congrArg some hhold)
  obtain ⟨counters, hrelease, -⟩ := hw.owned.release hslot
  have hcount := holders_set hslot none c'
  simp only [Option.map_some, if_true, Option.map_none, reduceCtorEq, if_false] at hcount
  by_cases hlast : holders (w.slots.set i none) c' = 0
  · rw [decide_eq_true hlast] at hrelease
    rw [if_pos (by omega)]
    simp [Net.checkClose, hconn, hrefs, hrelease]
  · rw [decide_eq_false hlast] at hrelease
    rw [if_neg (by omega)]
    simp [Net.checkClose, hconn, hrefs, hrelease]

end Networking.Net
