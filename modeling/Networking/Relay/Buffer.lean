import Networking.Relay.Chain

/-!
# The two bounds of `curr_ss`

A stepping stone stores the elements in an array of 1024 and writes a line for each into a buffer of
8192 bytes. Both grow with what the peer sends, and neither is checked: `last_ss` uses `snprintf`,
`curr_ss` does not.
-/

namespace Networking.Relay

open Wire Segment Fuel

variable {hop : Hop} {header : ListHeader} {elements list : List ListElement}
  {buffer text stream : Bytes} {recvs : ℕ → Progress} {α β : Type}

/-- `curr_ss` up to where it waits for the file. -/
def currSsRequest (hop : Hop) (listH : ListHeader) (stream : Bytes) :
    Except Stop (ListElement × Bytes) := do
  let buffer ← heading hop.station listH.fName
  let (list, buffer, _) ← recvList hop.elementRecvs listH.lSize.toNat 0 hop.list buffer stream
  forward hop listH list buffer

/-- A stepping stone does this for every header with elements left. -/
theorem handle_eq_currSsRequest {fuel : ℕ} {rest : Bytes}
    (hheader : recvHeader hop.headerRecvs fuel 0 [] stream = .ok (header, rest))
    (hsize : swap 4 header.lSize ≠ 0) :
    handle fuel hop stream
      = currSsRequest hop { header with lSize := swap 4 header.lSize } rest >>= fun r =>
          .ok (.curr { header with lSize := swap 4 header.lSize } r.1 r.2) := by
  simp only [handle, connection, hheader, ok_bind, if_neg hsize, currSsRequest, bind_assoc]

def headingText (station : Station) (fName : Bytes) : Bytes :=
  ofString "ss <" ++ station.mHost ++ ofString ", " ++ station.mPort ++ ofString ">:\n Request: "
    ++ fName.takeWhile (· ≠ 0) ++ ofString "\n chainlist is\n"

/-- Everything that the buffer has to hold at last. -/
def logText (hop : Hop) (header : ListHeader) (elements : List ListElement) : Bytes :=
  headingText hop.station header.fName
    ++ elements.flatMap (ListElement.text " ")
    ++ (elements[hop.rand % elements.length]?.elim [] (ListElement.text " next SS is "))
    ++ if hop.connects then ofString " waiting for file...\n" else []

/-! ### Computations that overrun -/

/-- The computation gives `a` if something fits, and runs over the end of an array otherwise. -/
structure Bounded (x : Except Stop α) (p : Prop) (a : α) : Prop where
  ok : p → x = .ok a
  overrun : ¬p → x = .error .overrun

variable {x : Except Stop α} {p q : Prop} {a : α}

theorem Bounded.congr (hx : Bounded x p a) (h : p ↔ q) : Bounded x q a :=
  ⟨fun hfits => hx.ok (h.mpr hfits), fun hfits => hx.overrun (mt h.mp hfits)⟩

theorem Bounded.bind {k : α → Except Stop β} {b : β} (hx : Bounded x p a)
    (hk : p → Bounded (k a) q b) : Bounded (x >>= k) (p ∧ q) b := by
  by_cases hfits : p
  · rw [hx.ok hfits, ok_bind]
    exact (hk hfits).congr (and_iff_right hfits).symm
  · rw [hx.overrun hfits, error_bind]
    exact ⟨fun h => absurd h.1 hfits, fun _ => rfl⟩

theorem Bounded.bind_ne_overrun_iff {k : α → Except Stop β} (hx : Bounded x p a)
    (hk : p → (k a ≠ .error .overrun ↔ q)) :
    x >>= k ≠ .error .overrun ↔ p ∧ q := by
  by_cases hfits : p
  · rw [hx.ok hfits, ok_bind, hk hfits]
    exact (and_iff_right hfits).symm
  · rw [hx.overrun hfits, error_bind]
    exact iff_of_false (fun h => h rfl) fun h => hfits h.1

theorem bind_ne_overrun {k : α → Except Stop β} (hx : x ≠ .error .overrun)
    (hk : ∀ a, k a ≠ .error .overrun) : x >>= k ≠ .error .overrun := by
  cases x with
  | error e =>
      rw [error_bind]
      exact fun h => hx (congrArg _ (Except.error.inj h))
  | ok a => exact hk a

theorem bounded_sprintf (buffer text : Bytes) :
    Bounded (sprintf buffer text) (buffer.length + text.length < bufSize) (buffer ++ text) := by
  constructor
  · intro hfits
    rw [sprintf, if_pos hfits]
  · intro hfits
    rw [sprintf, if_neg hfits]

theorem bounded_heading (station : Station) {fName : Bytes} (hname : 0 ∈ fName) :
    Bounded (heading station fName) ((headingText station fName).length < bufSize)
      (headingText station fName) := by
  rw [heading, cstr, if_pos hname, ok_bind]
  refine (bounded_sprintf [] (headingText station fName)).congr ?_
  rw [List.length_nil, Nat.zero_add]

/-! ### The list -/

/-- **The receiving loop** needs room for the elements and for their lines. -/
theorem recvList_bounded (hwhole : ∀ j, recvs j = .whole)
    (hterminated : ∀ e ∈ elements, e.Terminated) {i : ℕ} (hi : i ≤ list.length)
    (hbuffer : buffer.length < bufSize) :
    Bounded (recvList recvs elements.length i list buffer (elements.flatMap ListElement.image))
      (i + elements.length ≤ list.length
        ∧ buffer.length + (elements.flatMap (ListElement.text " ")).length < bufSize)
      (list.take i ++ elements ++ list.drop (i + elements.length),
        buffer ++ elements.flatMap (ListElement.text " "), []) := by
  induction elements generalizing i list buffer with
  | nil =>
      refine ⟨fun _ => ?_, fun h => absurd ⟨hi, hbuffer⟩ h⟩
      simp [recvList]
  | cons e elements ih =>
      have hterminated' := fun e' he' => hterminated e' (.tail e he')
      rw [List.length_cons, recvList]
      by_cases hlt : i < list.length
      · have hget : (list.set i e)[i]? = some e := List.getElem?_set_self hlt
        rw [List.getElem?_eq_getElem hlt, List.flatMap_cons, hwhole,
          recv_whole (ListElement.length_image e)]
        dsimp only
        rw [ListElement.store_image, hostPort_eq hget (hterminated e (.head elements)), ok_bind]
        have htake : (list.set i e).take (i + 1) = list.take i ++ [e] := by
          rw [List.take_add_one, hget, List.take_set_of_le (le_refl i)]
          rfl
        have hdrop : (list.set i e).drop (i + 1 + elements.length)
            = list.drop (i + (elements.length + 1)) := by
          rw [List.drop_set_of_lt (by omega), Nat.add_assoc, Nat.add_comm 1]
        have hlist : list.take i ++ e :: elements ++ list.drop (i + (elements.length + 1))
            = (list.set i e).take (i + 1) ++ elements
              ++ (list.set i e).drop (i + 1 + elements.length) := by
          rw [htake, hdrop]
          simp
        rw [hlist, List.flatMap_cons, ← List.append_assoc]
        have hrest := fun hfits : buffer.length + (e.text " ").length < bufSize =>
          @ih (list.set i e) (buffer ++ e.text " ") hterminated' (i + 1)
            (by rw [List.length_set]; omega) (by rwa [List.length_append])
        refine ((bounded_sprintf buffer (e.text " ")).bind hrest).congr ?_
        rw [List.length_set, List.length_append, List.length_append]
        constructor
        · rintro ⟨-, hroom, hfits⟩
          exact ⟨by omega, by omega⟩
        · rintro ⟨hroom, hfits⟩
          exact ⟨by omega, by omega, by omega⟩
      · rw [List.getElem?_eq_none (by omega)]
        exact ⟨fun h => absurd h.1 (by omega), fun _ => rfl⟩

/-! ### The next stepping stone -/

theorem sendHeader_ne_overrun (p : Progress) (listH : ListHeader) :
    sendHeader p listH ≠ .error .overrun := by
  rw [sendHeader]
  cases send p listH.image with
  | none => simp
  | some bytes =>
      dsimp only
      split_ifs <;> simp

theorem sendList_ne_overrun {sends : ℕ → Progress} {skip left i : ℕ} {sent : Bytes}
    (hleft : i + left ≤ list.length) : sendList sends skip left i list sent ≠ .error .overrun := by
  induction left generalizing i sent with
  | zero => exact nofun
  | succ left ih =>
      rw [sendList, List.getElem?_eq_getElem (by omega)]
      split_ifs with hskip
      · dsimp only
        cases send (sends i) list[i].image with
        | none => simp
        | some bytes => exact ih (by omega)
      · exact ih (by omega)

theorem forward_ne_overrun_iff {tail : List ListElement}
    (hsize : header.lSize.toNat = elements.length) (hne : elements ≠ [])
    (hterminated : ∀ e ∈ elements, e.Terminated) :
    forward hop header (elements ++ tail) buffer ≠ .error .overrun
      ↔ (buffer
          ++ elements[hop.rand % elements.length]?.elim [] (ListElement.text " next SS is ")
          ++ if hop.connects then ofString " waiting for file...\n" else []).length < bufSize := by
  have hlt : hop.rand % elements.length < elements.length :=
    Nat.mod_lt _ (List.length_pos_iff.mpr hne)
  set next := hop.rand % elements.length with hnext
  have hstone : (elements ++ tail)[next]? = some elements[next] := by
    rw [List.getElem?_append_left hlt, List.getElem?_eq_getElem hlt]
  rw [List.getElem?_eq_getElem hlt, Option.elim_some, forward, hsize, ← hnext,
    hostPort_eq hstone (hterminated _ (List.getElem_mem hlt)), ok_bind, hstone]
  dsimp only
  have hline := bounded_sprintf buffer (elements[next].text " next SS is ")
  cases hop.connects with
  | false =>
      simp only [Bool.false_eq_true, if_false, List.append_nil, List.length_append]
      refine (hline.bind_ne_overrun_iff (q := True) fun _ => ?_).trans (and_iff_left trivial)
      simp
  | true =>
      have hlast : ∀ (sent : Bytes) (count : BitVec 32), count = header.lSize →
          sendList hop.elementSends next count.toNat 0 (elements ++ tail) sent
            ≠ .error .overrun := by
        intro sent count hcount
        apply sendList_ne_overrun
        rw [hcount, hsize, List.length_append]
        omega
      refine (hline.bind_ne_overrun_iff (q := (buffer ++ elements[next].text " next SS is ").length
        + (ofString " waiting for file...\n").length < bufSize) fun _ => ?_).trans ?_
      · rw [if_pos rfl]
        refine ((bounded_sprintf _ _).bind_ne_overrun_iff (q := True) fun _ => ?_).trans
          (and_iff_left trivial)
        refine iff_of_true (bind_ne_overrun (sendHeader_ne_overrun _ _) fun sent => ?_) trivial
        refine bind_ne_overrun (hlast sent _ ?_) fun sent => by simp
        rw [swap_swap (n := 4) rfl, BitVec.sub_add_cancel]
      · rw [if_pos rfl]
        simp only [List.length_append]
        omega

/-- **`curr_ss` stays within its arrays** exactly when there are at most 1024 elements and the text
fits the buffer. -/
theorem currSsRequest_ne_overrun_iff (hop : Hop) (hsize : header.lSize.toNat = elements.length)
    (hne : elements ≠ []) (hname : 0 ∈ header.fName) (hterminated : ∀ e ∈ elements, e.Terminated)
    (hwhole : ∀ j, hop.elementRecvs j = .whole) :
    currSsRequest hop header (elements.flatMap ListElement.image) ≠ .error .overrun
      ↔ elements.length ≤ listSize ∧ (logText hop header elements).length < bufSize := by
  have hlist : hop.list.length = listSize := hop.length_list
  have hheading := bounded_heading hop.station hname
  have hrest : (headingText hop.station header.fName).length < bufSize →
      ((recvList hop.elementRecvs elements.length 0 hop.list (headingText hop.station header.fName)
          (elements.flatMap ListElement.image) >>= fun r => forward hop header r.1 r.2.1)
        ≠ .error .overrun
        ↔ (elements.length ≤ listSize ∧ (headingText hop.station header.fName).length
            + (elements.flatMap (ListElement.text " ")).length < bufSize)
          ∧ (logText hop header elements).length < bufSize) := by
    intro hfits
    have hrun := recvList_bounded hwhole hterminated (Nat.zero_le hop.list.length) hfits
    rw [List.take_zero, List.nil_append, Nat.zero_add, hlist] at hrun
    exact hrun.bind_ne_overrun_iff fun _ => forward_ne_overrun_iff hsize hne hterminated
  have hprefix : (headingText hop.station header.fName).length
        + (elements.flatMap (ListElement.text " ")).length
      ≤ (logText hop header elements).length := by
    rw [logText, List.length_append, List.length_append, List.length_append]
    omega
  rw [currSsRequest, hsize]
  refine (hheading.bind_ne_overrun_iff hrest).trans ?_
  constructor
  · rintro ⟨-, ⟨hmax, -⟩, htext⟩
    exact ⟨hmax, htext⟩
  · rintro ⟨hmax, htext⟩
    exact ⟨by omega, ⟨hmax, by omega⟩, htext⟩

/-! ### More elements than the array has -/

theorem currSsRequest_of_lt (hop : Hop) (hsize : header.lSize.toNat = elements.length)
    (hmany : listSize < elements.length) (hname : 0 ∈ header.fName)
    (hterminated : ∀ e ∈ elements, e.Terminated) (hwhole : ∀ j, hop.elementRecvs j = .whole) :
    currSsRequest hop header (elements.flatMap ListElement.image) = .error .overrun := by
  have hheading := bounded_heading hop.station hname
  have hlist : hop.list.length = listSize := hop.length_list
  rw [currSsRequest, hsize]
  by_cases hfits : (headingText hop.station header.fName).length < bufSize
  · have hrun := recvList_bounded hwhole hterminated (Nat.zero_le hop.list.length) hfits
    rw [hheading.ok hfits, ok_bind, hrun.overrun (fun h => absurd h.1 (by omega)), error_bind]
  · rw [hheading.overrun hfits, error_bind]

/-- An element with an empty host and an empty port. -/
def emptyStone : ListElement :=
  ⟨1, List.replicate 256 0, List.replicate 8 0, List.length_replicate, List.length_replicate⟩

theorem emptyStone_terminated (n : ℕ) : ∀ e ∈ List.replicate n emptyStone, e.Terminated := by
  intro e he
  rw [List.eq_of_mem_replicate he]
  exact ⟨List.mem_replicate.mpr ⟨by decide, rfl⟩, List.mem_replicate.mpr ⟨by decide, rfl⟩⟩

theorem zero_mem_sampleRequest : 0 ∈ sampleRequest.fName :=
  List.mem_append_right _ (List.mem_replicate.mpr ⟨by decide, rfl⟩)

/-- Of 1025 elements the last one is stored behind the array. -/
theorem currSsRequest_overruns :
    ¬∀ (hop : Hop) (header : ListHeader) (elements : List ListElement),
      header.lSize.toNat = elements.length → elements ≠ [] → 0 ∈ header.fName →
        (∀ e ∈ elements, e.Terminated) → (∀ j, hop.elementRecvs j = .whole) →
          currSsRequest hop header (elements.flatMap ListElement.image) ≠ .error .overrun := by
  intro hall
  have hsize : (1025 : BitVec 32).toNat = (List.replicate 1025 emptyStone).length :=
    List.length_replicate.symm
  have hmany : listSize < (List.replicate 1025 emptyStone).length := by
    rw [List.length_replicate]
    decide
  exact hall smoothHop { sampleRequest with lSize := 1025 } _ hsize
    (List.ne_nil_of_length_pos (Nat.zero_lt_of_lt hmany)) zero_mem_sampleRequest
    (emptyStone_terminated 1025) (fun _ => rfl)
    (currSsRequest_of_lt smoothHop hsize hmany zero_mem_sampleRequest (emptyStone_terminated 1025)
      fun _ => rfl)

/-- One element, and a line for it. -/
theorem currSsRequest_ne_overrun_iff_sample :
    currSsRequest smoothHop sampleRequest ([sampleStone].flatMap ListElement.image)
        ≠ .error .overrun
      ∧ (currSsRequest smoothHop sampleRequest ([sampleStone].flatMap ListElement.image)
          ≠ .error .overrun
        ↔ 1 ≤ listSize ∧ (logText smoothHop sampleRequest [sampleStone]).length < bufSize) := by
  have hiff : currSsRequest smoothHop sampleRequest ([sampleStone].flatMap ListElement.image)
      ≠ .error .overrun
      ↔ 1 ≤ listSize ∧ (logText smoothHop sampleRequest [sampleStone]).length < bufSize :=
    currSsRequest_ne_overrun_iff smoothHop rfl (by simp) zero_mem_sampleRequest
      sampleStone_terminated fun _ => rfl
  exact ⟨hiff.mpr ⟨by decide, by decide⟩, hiff⟩

end Networking.Relay
