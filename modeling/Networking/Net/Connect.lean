import Networking.Net.Ownership

/-!
# `connect` on a handle that is shared

`connect` first gives the old reference up. A handle that was not the last of its group keeps its
fields, and what is left in them does harm when no address works, because `_conn` is still set, and
when a UDP handle becomes a TCP handle, because `_src` still points to the buffer of the others.
-/

namespace Networking.Net

open Counted Transition Wire

variable {w w' : World} {h h' s : SyncSocket} {i c : ℕ} {fd fd' : ℤ} {tcp : Bool}
  {servers : List Address} {curr : Address}

/-- The loop over the addresses stops at an entry for which this holds. -/
def Address.Succeeds (tcp : Bool) (a : Address) : Prop :=
  0 ≤ a.socket ∧ (tcp = true → a.connects = true)

/-- A `connect` that does what it is meant to do: the handle shares its old descriptor with no other
connected handle, or some address works and the handle does not change from UDP to TCP. -/
def Action.Safe (w : World) : Action → Prop
  | .connect i tcp servers =>
      ∀ h, w.handles[i]? = some (some h) → h.conn = true → w.references h.fd = 1
        ∨ (∃ a ∈ servers, a.Succeeds tcp) ∧ ¬(h.tcp = false ∧ tcp = true)
  | _ => True

def Action.Destroys : Action → Prop
  | .destroy _ => True
  | _ => False

/-! ### The loop over the addresses -/

def World.tried (w : World) (fds : List ℤ) : World :=
  { w with opened := w.opened ++ fds, closed := w.closed ++ fds }

theorem fresh_tried_iff (fds : List ℤ) : (w.tried fds).Fresh fd ↔ w.Fresh fd := by
  simp only [World.Fresh, World.tried, List.count_append, Nat.add_right_cancel_iff]

theorem tried_cons (w : World) (fd : ℤ) (fds : List ℤ) :
    (w.tried [fd]).tried fds = w.tried (fd :: fds) := by
  simp [World.tried]

/-- What the loop does with an address: no socket, no connection, or both. -/
theorem tryAddresses_cons {result : World × ℤ × Option Address}
    (htry : tryAddresses tcp w fd (curr :: servers) = some result) :
    (curr.socket < 0 ∧ tryAddresses tcp w curr.socket servers = some result)
      ∨ (w.Fresh curr.socket ∧ ¬curr.Succeeds tcp
        ∧ tryAddresses tcp (w.tried [curr.socket]) curr.socket servers = some result)
      ∨ w.Fresh curr.socket ∧ curr.Succeeds tcp
        ∧ ({ w with opened := w.opened ++ [curr.socket] }, curr.socket, some curr) = result := by
  rw [tryAddresses] at htry
  split_ifs at htry with hsocket hfresh hconnect
  · exact .inl ⟨hsocket, htry⟩
  · exact .inr (.inl ⟨hfresh, fun h => hconnect.2 (h.2 hconnect.1), htry⟩)
  · have hconnects : tcp = true → curr.connects = true := fun htcp => by
      by_contra h
      exact hconnect ⟨htcp, h⟩
    exact .inr (.inr ⟨hfresh, ⟨not_lt.mp hsocket, hconnects⟩, Option.some.inj htry⟩)

theorem tryAddresses_none (htry : tryAddresses tcp w fd servers = some (w', fd', none)) :
    (∃ fds, (∀ x ∈ fds, 0 ≤ x) ∧ w' = w.tried fds) ∧ (∀ a ∈ servers, ¬a.Succeeds tcp)
      ∧ (fd' = fd ∨ fd' < 0 ∨ w.Fresh fd') := by
  induction servers generalizing w fd with
  | nil =>
      cases htry
      exact ⟨⟨[], nofun, by simp [World.tried]⟩, nofun, .inl rfl⟩
  | cons curr servers ih =>
      rcases tryAddresses_cons htry with ⟨hsocket, hrest⟩ | ⟨hfresh, hfails, hrest⟩ | ⟨-, -, heq⟩
      · obtain ⟨hworld, hservers, hfd⟩ := ih hrest
        refine ⟨hworld, ?_, .inr (hfd.elim (fun h => .inl (h ▸ hsocket)) id)⟩
        exact List.forall_mem_cons.mpr ⟨fun h => h.1.not_gt hsocket, hservers⟩
      · obtain ⟨⟨fds, hfds, rfl⟩, hservers, hfd⟩ := ih hrest
        refine ⟨⟨curr.socket :: fds, List.forall_mem_cons.mpr ⟨hfresh.1, hfds⟩, tried_cons ..⟩,
          List.forall_mem_cons.mpr ⟨hfails, hservers⟩, .inr ?_⟩
        rcases hfd with rfl | hneg | hlater
        · exact .inr hfresh
        · exact .inl hneg
        · exact .inr ((fresh_tried_iff _).mp hlater)
      · cases heq

theorem tryAddresses_some (htry : tryAddresses tcp w fd servers = some (w', fd', some curr)) :
    (∃ fds, (∀ x ∈ fds, 0 ≤ x)
        ∧ w' = { w.tried fds with opened := w.opened ++ fds ++ [fd'] })
      ∧ w.Fresh fd' ∧ ∃ a ∈ servers, a.Succeeds tcp := by
  induction servers generalizing w fd with
  | nil => cases htry
  | cons a servers ih =>
      rcases tryAddresses_cons htry with ⟨-, hrest⟩ | ⟨hfresh, -, hrest⟩ | ⟨hfresh, hsucceeds, heq⟩
      · obtain ⟨hworld, hfd, b, hb, hsucceeds⟩ := ih hrest
        exact ⟨hworld, hfd, b, .tail a hb, hsucceeds⟩
      · obtain ⟨⟨fds, hfds, rfl⟩, hfd, b, hb, hsucceeds⟩ := ih hrest
        refine ⟨⟨a.socket :: fds, List.forall_mem_cons.mpr ⟨hfresh.1, hfds⟩, ?_⟩,
          (fresh_tried_iff _).mp hfd, b, .tail a hb, hsucceeds⟩
        simp [World.tried]
      · cases heq
        exact ⟨⟨[], nofun, by simp [World.tried]⟩, hfresh, _, .head servers, hsucceeds⟩

/-! ### `connect` -/

theorem Invariant.tried (hw : Invariant w) {fds : List ℤ} (hfds : ∀ x ∈ fds, 0 ≤ x) :
    Invariant (w.tried fds) :=
  ⟨hw.owned, hw.descriptors, hw.srcs, hw.proper, hw.log.append fds,
    fun x hx => (List.mem_append.mp hx).elim (hw.nonneg x) (hfds x), hw.buffers, hw.fault⟩

section

variable {w₁ : World} {h₁ : SyncSocket} (hclose : checkClose w h = (w₁, h₁))

include hclose

theorem connect_throws (hconnect : connect w h tcp servers = some (w', h', false)) :
    (∃ fds, (∀ x ∈ fds, 0 ≤ x) ∧ w' = w₁.tried fds) ∧ (∀ a ∈ servers, ¬a.Succeeds tcp)
      ∧ ∃ fd, h' = { h₁ with fd := fd } ∧ (fd = h₁.fd ∨ fd < 0 ∨ w₁.Fresh fd) := by
  rw [connect, hclose] at hconnect
  obtain ⟨⟨w₂, fd, curr⟩, htry, hresult⟩ := Option.map_eq_some_iff.mp hconnect
  cases curr with
  | none =>
      cases hresult
      obtain ⟨hworld, hservers, hfd⟩ := tryAddresses_none htry
      exact ⟨hworld, hservers, fd, rfl, hfd⟩
  | some curr =>
      dsimp only at hresult
      split_ifs at hresult <;> cases hresult

/-- The fields of a handle that has been connected. By TCP it keeps `_src` and `_len`. -/
theorem connect_returns (hconnect : connect w h tcp servers = some (w', h', true)) :
    ∃ fds fd peer len, (∀ x ∈ fds, 0 ≤ x) ∧ w₁.Fresh fd ∧ (∃ a ∈ servers, a.Succeeds tcp)
      ∧ peer.isNone = tcp
      ∧ w' = { w₁ with
          counters := w₁.counters ++ [some 1]
          buffers := w₁.buffers ++ (peer.map some).toList
          opened := w₁.opened ++ fds ++ [fd]
          closed := w₁.closed ++ fds }
      ∧ h' = { w₁.newHandle fd peer len with
          src := if tcp then h₁.src else some w₁.buffers.length } := by
  rw [connect, hclose] at hconnect
  obtain ⟨⟨w₂, fd, curr⟩, htry, hresult⟩ := Option.map_eq_some_iff.mp hconnect
  cases curr with
  | none => cases hresult
  | some curr =>
      obtain ⟨⟨fds, hfds, rfl⟩, hfresh, hsucceeds⟩ := tryAddresses_some htry
      cases tcp with
      | true =>
          simp only [if_true, Prod.mk.injEq, and_true] at hresult
          obtain ⟨rfl, rfl⟩ := hresult
          refine ⟨fds, fd, none, h₁.len, hfds, hfresh, hsucceeds, rfl, ?_, rfl⟩
          simp only [World.tried, Option.map_none, Option.toList_none, List.append_nil]
      | false =>
          simp only [Bool.false_eq_true, if_false, Prod.mk.injEq, and_true] at hresult
          obtain ⟨rfl, rfl⟩ := hresult
          exact ⟨fds, fd, some curr.addr, curr.addr.length, hfds, hfresh, hsucceeds, rfl, rfl, rfl⟩

end

theorem newHandle_src {peer : Option Bytes} {len : ℕ} {src : Option ℕ} (hpeer : peer.isNone = tcp)
    (hsrc : tcp = true → src = none) :
    ({ w.newHandle fd peer len with
        src := if tcp then src else some w.buffers.length } : SyncSocket)
      = w.newHandle fd peer len := by
  cases peer with
  | none =>
      obtain rfl : true = tcp := hpeer
      rw [if_pos rfl, hsrc rfl]
      rfl
  | some bytes =>
      obtain rfl : false = tcp := hpeer
      rfl

theorem Invariant.checkClose_conn (hw : Invariant w) (hi : w.handles[i]? = some (some h)) :
    (Net.checkClose w h).2.conn = false
      ∨ (Net.checkClose w h).2 = h ∧ h.conn = true ∧ w.references h.fd ≠ 1 := by
  cases hconn : h.conn with
  | false =>
      left
      simp [Net.checkClose, hconn]
  | true =>
      obtain ⟨c, hrefs, -⟩ := hw.exists_slot ⟨List.mem_of_getElem? hi, hconn⟩
      have hsnd := hw.checkClose_snd hi hconn hrefs
      rw [← hw.references_eq ⟨List.mem_of_getElem? hi, hconn⟩ hrefs] at hsnd
      split_ifs at hsnd with hone
      · left
        rw [hsnd]
        rfl
      · exact .inr ⟨hsnd, rfl, hone⟩

theorem Invariant.connect (hw : Invariant w) (hi : w.handles[i]? = some (some h)) {returned : Bool}
    (hsafe : (Action.connect i tcp servers).Safe w)
    (hconnect : Net.connect w h tcp servers = some (w', h', returned)) :
    Invariant (w'.setHandle i (some h')) := by
  obtain ⟨w₁, h₁, hclose, hhandles, -, -, hinv, hproper, -⟩ := hw.checkClose hi
  have hlt : i < w₁.handles.length := hhandles ▸ (List.getElem?_eq_some_iff.mp hi).1
  have hconn := hw.checkClose_conn hi
  simp only [hclose] at hconn
  cases returned with
  | false =>
      obtain ⟨⟨fds, hfds, rfl⟩, hservers, fd, rfl, -⟩ := connect_throws hclose hconnect
      rcases hconn with hconn | ⟨-, hconn, hshared⟩
      · have hhold : SyncSocket.hold { h₁ with fd := fd } = none :=
          SyncSocket.hold_of_not_conn hconn
        have htried : Invariant ((w₁.tried fds).setHandle i none) := hinv.tried hfds
        refine htried.setHandle rfl hhold fun s hs => ?_
        rw [← Option.some.inj hs]
        exact ⟨hproper.refs, hproper.src⟩
      · rcases hsafe h hi hconn with hone | ⟨⟨a, ha, hsucceeds⟩, -⟩
        · exact absurd hone hshared
        · exact absurd hsucceeds (hservers a ha)
  | true =>
      obtain ⟨fds, fd, peer, len, hfds, hfresh, -, hpeer, rfl, rfl⟩ :=
        connect_returns hclose hconnect
      have hsrc : tcp = true → h₁.src = none := by
        intro htcp
        rw [← Option.not_isSome_iff_eq_none, hproper.src]
        rcases hconn with hconn | ⟨rfl, hconn, hshared⟩
        · simp [hconn]
        · have hold := ((hsafe h₁ hi hconn).resolve_left hshared).2
          have htcp₁ : h₁.tcp = true := by
            by_contra hudp
            exact hold ⟨Bool.eq_false_of_not_eq_true hudp, htcp⟩
          simp [htcp₁]
      have hnew := hinv.create (List.getElem?_set_self hlt) hfresh fds hfds peer len
      simp only [World.setHandle, List.set_set] at hnew
      rw [newHandle_src hpeer hsrc]
      exact hnew

theorem Invariant.constructConnect (hw : Invariant w) {returned : Bool}
    (hconnect : Net.connect w { SyncSocket.null 0 with tcp := tcp } tcp servers
      = some (w', h', returned)) :
    Invariant (if returned then w'.construct h' else w') := by
  have hclose : Net.checkClose w { SyncSocket.null 0 with tcp := tcp }
    = (w, { SyncSocket.null 0 with tcp := tcp }) := rfl
  cases returned with
  | false =>
      obtain ⟨⟨fds, hfds, rfl⟩, -⟩ := connect_throws hclose hconnect
      exact hw.tried hfds
  | true =>
      obtain ⟨fds, fd, peer, len, hfds, hfresh, -, hpeer, rfl, rfl⟩ :=
        connect_returns hclose hconnect
      have hnew := hw.constructNew hfresh fds hfds peer len
      rw [← newHandle_src hpeer fun _ => rfl] at hnew
      exact hnew

theorem Invariant.step (hw : Invariant w) {a : Action} (ha : a.Safe w)
    (hstep : Net.step w a = some w') : Invariant w' := by
  cases a with
  | constructConnect tcp servers =>
      obtain ⟨⟨w₁, h₁, returned⟩, hconnect, rfl⟩ := Option.map_eq_some_iff.mp hstep
      exact hw.constructConnect hconnect
  | connect i tcp servers =>
      obtain ⟨h, hi, hbind⟩ := Option.bind_eq_some_iff.mp hstep
      obtain ⟨⟨w₁, h₁, returned⟩, hconnect, rfl⟩ := Option.map_eq_some_iff.mp hbind
      exact hw.connect (Option.join_eq_some_iff.mp hi) ha hconnect
  | construct | constructTcp | constructUdp | copy | assign | destroy =>
      refine (hw.stepLocal ?_ hstep).1
      trivial

/-! ### What goes wrong -/

theorem Ownership.not_dangling (hw : Ownership w) (hh : w.Connected h) :
    w.opened.count h.fd ≠ w.closed.count h.fd := by
  have hclosed := hw.closed h.fd
  rw [if_neg fun hzero => references_eq_zero_iff.mp hzero h hh rfl] at hclosed
  omega

theorem connected_setHandle (hi : i < w.handles.length) (hconn : h.conn = true) :
    (w.setHandle i (some h)).Connected h :=
  ⟨List.mem_set hi _, hconn⟩

section

variable {w₁ : World} (hinv : Invariant (w₁.setHandle i none)) (hi : i < w₁.handles.length)
  (hconn : h.conn = true) (hs : (w₁.setHandle i none).Connected s)
  (hshared : s.shared = h.shared)

include hinv hi hconn hs hshared

/-- A handle that `connect` leaves with `_conn` set when it throws. It counts twice, or it refers to
a descriptor that is not open. -/
theorem not_ownership_throws (fds : List ℤ) (hfd : fd = h.fd ∨ fd < 0 ∨ w₁.Fresh fd) :
    ¬Ownership ((w₁.tried fds).setHandle i (some { h with fd := fd })) := by
  intro howner
  have hopen := howner.not_dangling
    (connected_setHandle (w := w₁.tried fds) (h := { h with fd := fd }) hi hconn)
  have hbalance := hinv.ownership.closed fd
  simp only [World.setHandle, World.tried, List.count_append] at hopen hbalance
  rcases hfd with rfl | hneg | hfresh
  · have hsfd : s.fd = h.fd := congrArg Shared.fd hshared
    have hopened : w₁.closed.count h.fd < w₁.opened.count h.fd := by
      split_ifs at hbalance <;> omega
    obtain ⟨-, c, hcounter, hc⟩ := hinv.ownership.counter h.fd hopened
    obtain ⟨-, c', hcounter', hc'⟩ := howner.counter h.fd (by
      simp only [World.setHandle, World.tried, List.count_append]
      omega)
    have hcs : s.refs = some c := (hc s hs).mpr hsfd
    have hcs' : s.refs = some c' := (hc' s (hs.setHandle (some h))).mpr hsfd
    obtain rfl : c = c' := Option.some.inj (hcs.symm.trans hcs')
    have hcount : ((w₁.tried fds).setHandle i (some h)).references h.fd
        = (w₁.setHandle i none).references h.fd + 1 := references_setHandle hi hconn
    have heq := hcounter.symm.trans hcounter'
    rw [hcount] at heq
    simp at heq
  · have hzero : w₁.opened.count fd = 0 :=
      List.count_eq_zero.mpr fun hmem => hneg.not_ge (hinv.nonneg fd hmem)
    omega
  · have hclosed := hfresh.2
    omega

/-- A handle that was connected by UDP and is connected by TCP keeps the buffer of the others. -/
theorem not_ownership_udp {peer : Option Bytes} {len : ℕ} {counters : List (Option ℕ)}
    {buffers : List (Option Bytes)} {opened closed : List ℤ} (hfresh : w₁.Fresh fd)
    (hudp : h.tcp = false) (hproper : h.Proper) :
    ¬Ownership ({ w₁ with
      counters := counters
      buffers := buffers
      opened := opened
      closed := closed }.setHandle i (some { w₁.newHandle fd peer len with src := h.src })) := by
  intro howner
  obtain ⟨b, hb⟩ : ∃ b, h.src = some b := by
    rw [← Option.isSome_iff_exists, hproper.src, hconn, hudp]
    rfl
  have hsb : s.src = some b := (congrArg Shared.src hshared).trans hb
  have hfd : fd = s.fd := ((howner.buffer s b (hs.setHandle _) hsb).2 _
    (connected_setHandle hi rfl) hb)
  obtain ⟨c, -, hslot⟩ := hinv.exists_slot hs
  rw [hfd] at hfresh
  exact hinv.not_inUse_of_fresh hfresh ⟨c, s.shared, hslot, rfl⟩

end

/-- `connect` on a handle that shares its descriptor, with no address that works or from UDP to
TCP. -/
theorem Invariant.not_ownership_connect (hw : Invariant w) (hi : w.handles[i]? = some (some h))
    (hconn : h.conn = true) (hshared : w.references h.fd ≠ 1)
    (hbad : (∃ a ∈ servers, a.Succeeds tcp) → h.tcp = false ∧ tcp = true) {returned : Bool}
    (hconnect : Net.connect w h tcp servers = some (w', h', returned)) :
    ¬Ownership (w'.setHandle i (some h')) := by
  have hh : w.Connected h := ⟨List.mem_of_getElem? hi, hconn⟩
  obtain ⟨c, hrefs, hslot⟩ := hw.exists_slot hh
  obtain ⟨w₁, h₁, hclose, hhandles, -, -, hinv, hproper, hhold⟩ := hw.checkClose hi
  have hlt : i < w₁.handles.length := hhandles ▸ (List.getElem?_eq_some_iff.mp hi).1
  -- another handle still refers to the descriptor
  obtain rfl : h₁ = h := by
    have hsnd := hw.checkClose_snd hi hconn hrefs
    rwa [if_neg (hw.references_eq hh hrefs ▸ hshared), hclose] at hsnd
  obtain ⟨s, hs, -, hsshared⟩ := exists_connected
    (hhold (c, h₁.shared) (by rw [SyncSocket.hold, hconn, hrefs]; rfl))
  cases returned with
  | false =>
      obtain ⟨⟨fds, -, rfl⟩, -, fd, rfl, hfd⟩ := connect_throws hclose hconnect
      exact not_ownership_throws hinv hlt hconn hs hsshared fds hfd
  | true =>
      obtain ⟨fds, fd, peer, len, -, hfresh, hsucceeds, -, rfl, rfl⟩ :=
        connect_returns hclose hconnect
      obtain ⟨hudp, rfl⟩ := hbad hsucceeds
      exact not_ownership_udp hinv hlt hconn hs hsshared hfresh hudp hproper

/-- **`connect` and ownership.** In every run in which each `connect` is one that does what it is
meant to do, the handles own what they share. What any `connect` leaves behind is owned, then and
while handles are destroyed, exactly when it is such a one. -/
theorem ownership_iff_safe (hreach : Reaches step (fun w a => a.Safe w) .init w) :
    Ownership w ∧ ∀ a w', step w a = some w' →
      ((∀ u, Reaches step (fun _ a => a.Destroys) w' u → Ownership u) ↔ a.Safe w) := by
  have hw : Invariant w := hreach.invariant invariant_init
    fun _ _ _ hw ha hstep => hw.step ha hstep
  refine ⟨hw.ownership, fun a w' hstep => ⟨fun howner => ?_, fun ha u hu => ?_⟩⟩
  · cases a with
    | connect i tcp servers =>
        intro h hi hconn
        by_contra hnot
        rw [not_or, not_and, not_not] at hnot
        obtain ⟨h', hi', hbind⟩ := Option.bind_eq_some_iff.mp hstep
        obtain rfl : h' = h := by
          simpa using (Option.join_eq_some_iff.mp hi').symm.trans hi
        obtain ⟨⟨w₁, h₁, returned⟩, hconnect, rfl⟩ := Option.map_eq_some_iff.mp hbind
        exact hw.not_ownership_connect hi hconn hnot.1 hnot.2 hconnect (howner _ .refl)
    | construct | constructTcp | constructUdp | constructConnect | copy | assign | destroy =>
        trivial
  · have hw' := hw.step ha hstep
    have hu' : Invariant u := hu.invariant hw' fun t a u ht ha hstep => by
      cases a with
      | destroy i => exact ht.step (a := .destroy i) trivial hstep
      | construct | constructTcp | constructUdp | constructConnect | copy | assign | connect =>
          exact ha.elim
    exact hu'.ownership

theorem ownership_iff_safe_sample :
    ∃ w : World, (w.opened = [5, 7] ∧ w.closed = []) ∧ Ownership w ∧ ∀ a w', step w a = some w' →
      ((∀ u, Reaches step (fun _ a => a.Destroys) w' u → Ownership u) ↔ a.Safe w) := by
  have hcopy : Reaches step (fun w a => a.Safe w) .init _ :=
    .tail (a := .copy 0) (.tail (a := .constructUdp 5 [2, 0] true) .refl trivial rfl) trivial rfl
  have hconnect : Reaches step (fun w a => a.Safe w) .init _ :=
    .tail (a := .connect 1 false [⟨[2, 1], 7, true⟩]) hcopy (fun h _ _ =>
      .inr ⟨⟨_, .head _, by decide, fun _ => rfl⟩, fun hbad => nomatch hbad.2⟩) rfl
  exact ⟨_, ⟨rfl, rfl⟩, ownership_iff_safe hconnect⟩

/-- Two handles share descriptor 5, and one of them finds no address that works. Its destructor
closes descriptor 7 once more and deletes the counter, and the other then uses that counter. -/
theorem not_ownership_after_connect :
    ¬∀ w, Reaches step (fun _ _ => True) .init w → ∀ i tcp servers w',
      step w (.connect i tcp servers) = some w' →
      ∀ u, Reaches step (fun _ a => a.Destroys) w' u → Ownership u := by
  intro howner
  have hcopy : Reaches step (fun _ _ => True) .init _ :=
    .tail (a := .copy 0) (.tail (a := .constructTcp 5) .refl trivial rfl) trivial rfl
  have hafter := howner _ hcopy 1 true [⟨[2, 1], 7, false⟩] _ rfl _
    (.tail (a := .destroy 0) (.tail (a := .destroy 1) .refl trivial rfl) trivial rfl)
  cases hafter.fault

end Networking.Net
