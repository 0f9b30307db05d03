import Networking.Lib.Drawing
import Networking.Relay.Receive

/-!
# The way of a request

`awget` and the stepping stones draw the elements of the chain list one after another, without
replacement: each passes on the elements it has not drawn, and their number. When what is sent is
received whole, every element is drawn once, and the hop that is sent none runs `last_ss`.
-/

namespace Networking.Relay

open Wire Segment Fuel Drawing

variable {sends : ℕ → Progress} {header : ListHeader} {elements list : List ListElement}
  {buffer sent : Bytes} {hop : Hop}

/-! ### What is sent -/

/-- The elements that the sending loop has still to send, from the index `i` on. -/
def kept (skip i : ℕ) (rest : List ListElement) : List ListElement :=
  if skip < i then rest else rest.eraseIdx (skip - i)

theorem sendList_whole (hsends : ∀ i, sends i = .whole) {skip left i : ℕ}
    (hleft : i + left ≤ list.length) :
    sendList sends skip left i list sent
      = .ok (sent ++ (kept skip i ((list.drop i).take left)).flatMap ListElement.image) := by
  induction left generalizing i sent with
  | zero => simp [sendList, kept]
  | succ left ih =>
      have hlt : i < list.length := by omega
      rw [sendList, List.drop_eq_getElem_cons hlt, List.take_succ_cons]
      split_ifs with hskip
      · rw [List.getElem?_eq_getElem hlt]
        simp only [hsends, send_whole]
        rw [ih (by omega), List.append_assoc, kept, kept]
        by_cases hpast : skip < i
        · rw [if_pos hpast, if_pos (by omega), List.flatMap_cons]
        · obtain ⟨k, hk⟩ : ∃ k, skip - i = k + 1 := ⟨skip - i - 1, by omega⟩
          rw [if_neg hpast, if_neg (by omega), hk, List.eraseIdx_cons_succ, List.flatMap_cons,
            show skip - (i + 1) = k by omega]
      · obtain rfl : i = skip := not_not.mp hskip
        rw [ih (by omega), kept, kept, if_pos (Nat.lt_succ_self i), if_neg (Nat.lt_irrefl i),
          Nat.sub_self, List.eraseIdx_cons_zero]

theorem sendHeader_whole (listH : ListHeader) : sendHeader .whole listH = .ok listH.image := by
  rw [sendHeader, send_whole]
  simp

theorem sendList_all (hsends : ∀ i, sends i = .whole) {skip : ℕ}
    (htake : list.take elements.length = elements) :
    sendList sends skip elements.length 0 list sent
      = .ok (sent ++ (elements.eraseIdx skip).flatMap ListElement.image) := by
  have hle : elements.length ≤ list.length := by
    have hlen := congrArg List.length htake
    rw [List.length_take] at hlen
    omega
  rw [sendList_whole hsends (by omega), List.drop_zero, htake, kept, if_neg (Nat.not_lt_zero _),
    Nat.sub_zero]

/-- **`awget` passes on the request.** -/
theorem awget_whole (hsends : ∀ i, sends i = .whole) (hsize : header.lSize.toNat = elements.length)
    {rand : ℕ} {stone : ListElement} (hstone : elements[rand % elements.length]? = some stone) :
    awget header elements rand .whole sends
      = .ok (stone, request { header with lSize := header.lSize - 1 }
          (elements.eraseIdx (rand % elements.length))) := by
  have hzero : header.lSize ≠ 0 := by
    intro hzero
    rw [hzero] at hsize
    rw [List.eq_nil_of_length_eq_zero hsize.symm] at hstone
    cases hstone
  simp only [awget, if_neg hzero, hsize, hstone, sendHeader_whole, ok_bind,
    sendList_all hsends (List.take_length), request]

/-- The log of a hop, from the heading to the line before it waits. -/
def hopLog (hop : Hop) (fName : Bytes) (elements : List ListElement) : Except Stop Bytes := do
  let buffer ← heading hop.station fName >>= logList hop.list elements elements.length
  let text ← hostPort " next SS is " (arrived hop.list elements elements.length)
    (hop.rand % elements.length)
  let buffer ← sprintf buffer text
  sprintf buffer (ofString " waiting for file...\n")

/-- Every call of the hop succeeds, and gets all there is where it receives an element or sends. -/
structure Hop.Smooth (hop : Hop) : Prop where
  headerRecvs : ∀ j, hop.headerRecvs j ≠ .failed
  elementRecvs : ∀ j, hop.elementRecvs j = .whole
  connects : hop.connects = true
  headerSend : hop.headerSend = .whole
  elementSends : ∀ j, hop.elementSends j = .whole

inductive Handled
  | last (listH : ListHeader)
  | curr (listH : ListHeader) (stone : ListElement) (sent : Bytes)

/-- `connection`, and `curr_ss` up to where it waits for the file. -/
def handle (fuel : ℕ) (hop : Hop) (stream : Bytes) : Except Stop Handled := do
  match ← connection fuel hop stream with
  | .last listH => .ok (.last listH)
  | .curr listH list buffer => do
      let (stone, sent) ← forward hop listH list buffer
      .ok (.curr listH stone sent)

theorem handle_last (hsmooth : hop.Smooth) (hzero : header.lSize = 0) :
    Returns (fun fuel => handle fuel hop (request header [])) (.last header) := by
  obtain ⟨depth, hdepth⟩ := recvHeader_returns hsmooth.headerRecvs
    { header with lSize := swap 4 header.lSize } (([] : List ListElement).flatMap ListElement.image)
  refine ⟨depth, fun fuel hfuel => ?_⟩
  have hread : recvHeader hop.headerRecvs fuel 0 [] (request header []) = _ := hdepth fuel hfuel
  simp only [handle, connection, hread, ok_bind, swap_swap (n := 4) rfl, if_pos hzero]

/-- **A stepping stone passes on the request.** -/
theorem handle_curr (hsmooth : hop.Smooth) (hsize : header.lSize.toNat = elements.length)
    (hmax : elements.length ≤ listSize) {text : Bytes}
    (hlog : hopLog hop header.fName elements = .ok text) {stone : ListElement}
    (hstone : elements[hop.rand % elements.length]? = some stone) :
    Returns (fun fuel => handle fuel hop (request header elements))
      (.curr header stone (request { header with lSize := header.lSize - 1 }
        (elements.eraseIdx (hop.rand % elements.length)))) := by
  have hne : elements ≠ [] := by
    rintro rfl
    cases hstone
  obtain ⟨buffer, hreceived, hlog⟩ := bind_eq_ok.mp hlog
  obtain ⟨line, hline, hlog⟩ := bind_eq_ok.mp hlog
  obtain ⟨buffer', hbuffer', hlog⟩ := bind_eq_ok.mp hlog
  have hconnection := connection_whole hop hsmooth.headerRecvs
    (fun j _ => by rw [hsmooth.elementRecvs]) hsize hne hmax hreceived
  have hpicked : (arrived hop.list elements elements.length)[hop.rand % elements.length]?
      = some stone := by
    rw [arrived, List.take_length, List.getElem?_append_left, hstone]
    exact (List.getElem?_eq_some_iff.mp hstone).1
  have hforward : forward hop header (arrived hop.list elements elements.length) buffer
      = .ok (stone, request { header with lSize := header.lSize - 1 }
          (elements.eraseIdx (hop.rand % elements.length))) := by
    simp only [forward, hsize, hline, ok_bind, hbuffer', hpicked, hsmooth.connects, if_true, hlog,
      hsmooth.headerSend, sendHeader_whole, swap_swap (n := 4) rfl, BitVec.sub_add_cancel,
      sendList_all hsmooth.elementSends (take_arrived hop.list elements), request]
  obtain ⟨depth, hdepth⟩ := hconnection
  refine ⟨depth, fun fuel hfuel => ?_⟩
  have hread : connection fuel hop (request header elements) = _ := hdepth fuel hfuel
  simp only [handle, hread, ok_bind, hforward]

/-! ### The whole way -/

/-- A stepping stone that has been contacted, and the request it has received. -/
structure Visit where
  stone : ListElement
  stream : Bytes
  listH : ListHeader
  last : Bool

/-- The visits from a stepping stone on, given those from the next one on. -/
def proceed (stone : ListElement) (stream : Bytes)
    (next : ListElement → Bytes → Except Stop (List Visit)) : Handled → Except Stop (List Visit)
  | .last listH => .ok [⟨stone, stream, listH, true⟩]
  | .curr listH stone' sent => do
      let visits ← next stone' sent
      .ok (⟨stone, stream, listH, false⟩ :: visits)

/-- The stepping stones from the one at the place `i` of the way on. -/
def journey (hops : ℕ → Hop) : ℕ → ℕ → ListElement → Bytes → Except Stop (List Visit)
  | 0, _, _, _ => .error .outOfFuel
  | fuel + 1, i, stone, stream => do
      let handled ← handle fuel (hops i) stream
      proceed stone stream (journey hops fuel (i + 1)) handled

def fetch (fuel : ℕ) (header : ListHeader) (elements : List ListElement) (rand : ℕ)
    (headerSend : Progress) (sends : ℕ → Progress) (hops : ℕ → Hop) :
    Except Stop (List Visit) := do
  let (stone, sent) ← awget header elements rand headerSend sends
  journey hops fuel 0 stone sent

def picks (rand : ℕ) (hops : ℕ → Hop) : ℕ → ℕ
  | 0 => rand
  | i + 1 => (hops i).rand

/-- The visit at the place `i` of the way, when the elements are drawn by `pick`. -/
structure VisitAt (header : ListHeader) (elements : List ListElement) (pick : ℕ → ℕ) (i : ℕ)
    (v : Visit) : Prop where
  stone : drawn pick elements i = some v.stone
  lSize : v.listH.lSize.toNat = elements.length - (i + 1)
  fName : v.listH.fName = header.fName
  stream : v.stream = request v.listH (left pick elements (i + 1))
  last : v.last = true ↔ i + 1 = elements.length

def ListHeader.withSize (header : ListHeader) (n : ℕ) : ListHeader :=
  { header with lSize := BitVec.ofNat 32 n }

theorem ListHeader.toNat_withSize (header : ListHeader) {n : ℕ} (hn : n ≤ listSize) :
    (header.withSize n).lSize.toNat = n := by
  have hmax : listSize = 1024 := rfl
  exact toNat_ofNat_of_lt (by omega)

theorem ListHeader.withSize_sub_one (header : ListHeader) (n : ℕ) :
    { header.withSize (n + 1) with lSize := (header.withSize (n + 1)).lSize - 1 }
      = header.withSize n := by
  have hword : BitVec.ofNat 32 (n + 1) - 1 = BitVec.ofNat 32 n := by
    rw [BitVec.ofNat_add]
    exact BitVec.add_sub_cancel _ _
  rw [withSize, hword, withSize]

section Journey

variable {hops : ℕ → Hop} {pick : ℕ → ℕ}

/-- **From any place on.** The stepping stones that are left are visited. -/
theorem journey_returns (hsmooth : ∀ i < elements.length, (hops i).Smooth)
    (hmax : elements.length ≤ listSize)
    (hpick : ∀ i, pick (i + 1) = (hops i).rand)
    (hlog : ∀ i, i + 1 < elements.length →
      ∃ text, hopLog (hops i) header.fName (left pick elements (i + 1)) = .ok text)
    {m i : ℕ} (hm : i + 1 + m = elements.length) {stone : ListElement}
    (hstone : drawn pick elements i = some stone) :
    ∃ visits, Returns (fun fuel => journey hops fuel i stone
        (request (header.withSize m) (left pick elements (i + 1)))) visits
      ∧ visits.length = m + 1
      ∧ ∀ k ≤ m, ∃ v, visits[k]? = some v ∧ VisitAt header elements pick (i + k) v := by
  have hlen : (left pick elements (i + 1)).length = m := by
    rw [length_left]
    omega
  have hcount := header.toNat_withSize (n := m) (by omega)
  -- on the number of stepping stones behind this one
  induction m generalizing i stone with
  | zero =>
      have hempty := List.eq_nil_of_length_eq_zero hlen
      have hlast := handle_last (hsmooth i (by omega)) (rfl : (header.withSize 0).lSize = 0)
      refine ⟨[⟨stone, request (header.withSize 0) [], header.withSize 0, true⟩], ?_, rfl, ?_⟩
      · rw [hempty]
        exact (hlast.bind
          (k := fun handled fuel => proceed stone _ (journey hops fuel (i + 1)) handled)
          (returns_of_forall fun _ => rfl)).succ fun _ => rfl
      · intro k hk
        obtain rfl : k = 0 := by omega
        refine ⟨_, rfl, hstone, ?_, rfl, by rw [Nat.add_zero, hempty], ?_⟩
        · rw [hcount]
          omega
        · simp only [true_iff]
          omega
  | succ m ih =>
      obtain ⟨next, hnext⟩ := exists_drawn pick (l := elements) (k := i + 1) (by omega)
      have hget : (left pick elements (i + 1))[(hops i).rand
          % (left pick elements (i + 1)).length]? = some next := by
        rw [← hpick]
        exact hnext
      obtain ⟨text, htext⟩ := hlog i (by omega)
      have hcurr := handle_curr (hsmooth i (by omega))
        (hcount.trans hlen.symm) (by omega) htext hget
      rw [ListHeader.withSize_sub_one] at hcurr
      have hrest : (left pick elements (i + 1)).eraseIdx
          ((hops i).rand % (left pick elements (i + 1)).length)
            = left pick elements (i + 1 + 1) := by
        rw [← hpick]
        rfl
      rw [hrest] at hcurr
      obtain ⟨visits, hreturns, hvisits, hall⟩ := ih (i := i + 1) (by omega) hnext
        (by rw [length_left]; omega) (header.toNat_withSize (by omega))
      refine ⟨⟨stone, request (header.withSize (m + 1)) (left pick elements (i + 1)),
        header.withSize (m + 1), false⟩ :: visits, ?_, by rw [List.length_cons, hvisits], ?_⟩
      · have hproceed := hreturns.map (⟨stone, request (header.withSize (m + 1))
          (left pick elements (i + 1)), header.withSize (m + 1), false⟩ :: ·)
        exact (hcurr.bind (k := fun handled fuel => proceed stone
          (request (header.withSize (m + 1)) (left pick elements (i + 1)))
          (journey hops fuel (i + 1)) handled) hproceed).succ fun _ => rfl
      · intro k hk
        cases k with
        | zero =>
            refine ⟨_, rfl, hstone, ?_, rfl, rfl, ?_⟩
            · rw [hcount]
              omega
            · simp only [Bool.false_eq_true, false_iff]
              omega
        | succ k =>
            obtain ⟨v, hv, hvisit⟩ := hall k (by omega)
            refine ⟨v, hv, ?_⟩
            rwa [Nat.add_right_comm] at hvisit

/-- What holds of the visit at the place `i` of the way, which leads over the positions `path` of
the chain list. -/
structure OnPath (header : ListHeader) (elements : List ListElement) (path : List ℕ) (i : ℕ)
    (v : Visit) : Prop where
  stone : ∃ j, path[i]? = some j ∧ elements[j]? = some v.stone
  lSize : v.listH.lSize.toNat = elements.length - (i + 1)
  fName : v.listH.fName = header.fName
  following : ∃ rest, v.stream = request v.listH rest ∧ rest.length = v.listH.lSize.toNat
  empty : v.listH.lSize = 0 ↔ i + 1 = elements.length
  last : v.last = true ↔ i + 1 = elements.length

theorem VisitAt.onPath {i : ℕ} {v : Visit} (h : VisitAt header elements pick i v)
    (hi : i < elements.length) :
    OnPath header elements (draws pick (List.range elements.length) elements.length) i v := by
  refine ⟨?_, h.lSize, h.fName, ⟨_, h.stream, ?_⟩, ?_, h.last⟩
  · obtain ⟨j, hj, hstone⟩ := exists_drawn_range h.stone
    exact ⟨j, by rw [getElem?_draws hi (by simp), hj], hstone⟩
  · rw [length_left, h.lSize]
  · have hzero : (0 : BitVec 32).toNat = 0 := rfl
    rw [← BitVec.toNat_inj, h.lSize, hzero]
    omega

/-- **The way of a request.** Every position of the chain list is visited once; the hop at the place
`i` is sent the elements behind it and their number, with the name unchanged; the last one, and no
other, runs `last_ss`. -/
theorem fetch_visits {rand : ℕ} (hsends : ∀ i, sends i = .whole)
    (hsmooth : ∀ i < elements.length, (hops i).Smooth)
    (hsize : header.lSize.toNat = elements.length) (hne : elements ≠ [])
    (hmax : elements.length ≤ listSize)
    (hlog : ∀ i, i + 1 < elements.length → ∃ text,
      hopLog (hops i) header.fName (left (picks rand hops) elements (i + 1)) = .ok text) :
    ∃ path visits, Returns (fun fuel => fetch fuel header elements rand .whole sends hops) visits
      ∧ path.Perm (List.range elements.length) ∧ visits.length = elements.length
      ∧ ∀ i < elements.length, ∃ v, visits[i]? = some v ∧ OnPath header elements path i v := by
  obtain ⟨m, hm⟩ : ∃ m, elements.length = m + 1 :=
    ⟨elements.length - 1, by have := List.length_pos_iff.mpr hne; omega⟩
  obtain ⟨stone, hstone⟩ := exists_drawn (picks rand hops) (l := elements) (k := 0) (by omega)
  have hself : header = header.withSize (m + 1) := by
    ext1
    · rfl
    · rw [← hm, ← hsize]
      exact (BitVec.ofNat_toNat 32 header.lSize).symm
    · rfl
  have hawget := awget_whole hsends hsize
    (show elements[rand % elements.length]? = some stone from hstone)
  obtain ⟨visits, hreturns, hlength, hall⟩ := journey_returns (i := 0) (m := m) hsmooth hmax
    (fun _ => rfl) hlog (by omega) hstone
  refine ⟨draws (picks rand hops) (List.range elements.length) elements.length, visits, ?_, ?_,
    by omega, fun i hi => ?_⟩
  · apply hreturns.congr
    intro fuel
    have hrest : { header with lSize := header.lSize - 1 } = header.withSize m := by
      rw [← ListHeader.withSize_sub_one, ← hself]
    rw [fetch, hawget, ok_bind, hrest]
    rfl
  · have hperm := draws_perm (picks rand hops) (List.range elements.length)
    rwa [List.length_range] at hperm
  · obtain ⟨v, hv, hvisit⟩ := hall i (by omega)
    rw [Nat.zero_add] at hvisit
    exact ⟨v, hv, hvisit.onPath hi⟩

end Journey

/-! ### Two stepping stones -/

theorem hopLog_of_terminated {fName heading' : Bytes} (stone : ListElement)
    (hheading : heading hop.station fName = .ok heading')
    (hterminated : ∀ e ∈ elements, e.Terminated)
    (hstone : elements[hop.rand % elements.length]? = some stone)
    (hfits : heading'.length + (elements.flatMap (ListElement.text " ")).length
      + (stone.text " next SS is ").length + 21 < bufSize) :
    ∃ text, hopLog hop fName elements = .ok text := by
  have hpicked : (arrived hop.list elements elements.length)[hop.rand % elements.length]?
      = some stone := by
    rw [arrived, List.take_length, List.getElem?_append_left, hstone]
    exact (List.getElem?_eq_some_iff.mp hstone).1
  have hwaiting : (ofString " waiting for file...\n").length = 21 := rfl
  have hlist := logList_eq hop.list heading' hterminated le_rfl
    (by rw [List.take_length, List.length_append]; omega)
  rw [hopLog, hheading, ok_bind, hlist, ok_bind,
    hostPort_eq hpicked (hterminated _ (List.mem_of_getElem? hstone)), ok_bind, sprintf, if_pos,
    ok_bind, sprintf, if_pos]
  · exact ⟨_, rfl⟩
  · simp only [List.take_length, List.length_append, hwaiting]
    omega
  · simp only [List.take_length, List.length_append]
    omega

def smoothHop : Hop := { sampleHop 300 with elementRecvs := fun _ => .whole }

theorem smoothHop_smooth : smoothHop.Smooth :=
  ⟨by simp [smoothHop, sampleHop], fun _ => rfl, rfl, rfl, fun _ => rfl⟩

theorem fetch_visits_sample :
    ∃ path visits, Returns (fun fuel => fetch fuel (sampleRequest.withSize 2)
        [sampleStone, sampleStone] 0 .whole (fun _ => .whole) (fun _ => smoothHop)) visits
      ∧ path.Perm (List.range 2) ∧ visits.length = 2
      ∧ ∀ i < 2, ∃ v, visits[i]? = some v
        ∧ OnPath (sampleRequest.withSize 2) [sampleStone, sampleStone] path i v := by
  refine fetch_visits (fun _ => rfl) (fun _ _ => smoothHop_smooth) rfl (by simp) (by decide) ?_
  intro i hi
  obtain rfl : i = 0 := by
    simp only [List.length_cons, List.length_nil] at hi
    omega
  exact hopLog_of_terminated sampleStone sample_heading sampleStone_terminated rfl (by decide)

end Networking.Relay
