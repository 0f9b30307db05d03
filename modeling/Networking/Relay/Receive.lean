import Mathlib.Data.List.TakeWhile
import Networking.Lib.Fuel
import Networking.Relay.Request

/-!
# What a request is received as

The header is received by a loop that goes on until all of it has arrived. An element is received by
one call of `recv`, whose count is never looked at: when it stores only a part of the element, the
rest keeps what was in memory, and the next call takes the missing bytes for the next element.
-/

namespace Networking.Relay

open Wire Segment Fuel

/-- The bytes of a request: the header, its count in network order, and the elements. -/
def request (header : ListHeader) (elements : List ListElement) : Bytes :=
  { header with lSize := swap 4 header.lSize : ListHeader }.image
    ++ elements.flatMap ListElement.image

variable {recvs : ℕ → Progress} {header : ListHeader} {elements list list' : List ListElement}
  {buffer buffer' stream stream' rest : Bytes}

/-! ### The header -/

/-- **The header arrives.** However the stream is cut, the loop ends with the header that was sent
and leaves what follows it. -/
theorem recvHeader_returns (hrecvs : ∀ j, recvs j ≠ .failed) (header : ListHeader) (rest : Bytes) :
    Returns (fun fuel => recvHeader recvs fuel 0 [] (header.image ++ rest)) (header, rest) := by
  suffices h : ∀ missing got : Bytes, ∀ call, got ++ missing = header.image →
      Returns (fun fuel => recvHeader recvs fuel call got (missing ++ rest)) (header, rest) from
    h header.image [] 0 rfl
  intro missing
  induction hn : missing.length using Nat.strong_induction_on generalizing missing with
  | _ n ih =>
      intro got call hsplit
      have hlen := congrArg List.length hsplit
      rw [List.length_append, ListHeader.length_image] at hlen
      by_cases hlt : got.length < ListHeader.size
      · obtain ⟨bytes, stream, hrecv⟩ :=
          exists_recv (hrecvs call) (ListHeader.size - got.length) (missing ++ rest)
        obtain ⟨happ, hle, hpos⟩ := recv_spec hrecv
        have hmissing : missing ≠ [] := List.ne_nil_of_length_pos (by omega)
        have hbytes := hpos (by omega) (List.append_ne_nil_of_left_ne_nil hmissing rest)
        obtain ⟨missing', rfl⟩ : bytes <+: missing :=
          List.prefix_of_prefix_length_le ⟨stream, happ⟩ ⟨rest, rfl⟩ (by omega)
        obtain rfl : stream = missing' ++ rest := by
          rw [List.append_assoc] at happ
          exact List.append_cancel_left happ
        rw [List.length_append] at hn
        refine Returns.succ (ih _ (by omega) missing' rfl (got ++ bytes) (call + 1)
          (by rw [List.append_assoc, hsplit])) fun fuel => ?_
        rw [recvHeader, if_pos hlt, hrecv]
      · obtain rfl : missing = [] := List.eq_nil_of_length_eq_zero (by omega)
        rw [List.append_nil] at hsplit
        subst hsplit
        refine Returns.succ (g := fun _ => .ok (header, rest)) (returns_of_forall fun _ => rfl)
          fun fuel => ?_
        rw [recvHeader, if_neg hlt, ListHeader.ofImage_image, List.nil_append]

/-! ### The list -/

/-- The array once the first `k` elements have arrived. -/
def arrived (list elements : List ListElement) (k : ℕ) : List ListElement :=
  elements.take k ++ list.drop k

/-- The log text of the first `k` elements, each written when it has arrived. -/
def logList (list elements : List ListElement) : ℕ → Bytes → Except Stop Bytes
  | 0, buffer => .ok buffer
  | k + 1, buffer => do
      let buffer ← logList list elements k buffer
      let text ← hostPort " " (arrived list elements (k + 1)) k
      sprintf buffer text

/-- The log text of a request fits the buffer, for elements that arrive in the array `list`. -/
def LogFits (station : Station) (fName : Bytes) (elements list : List ListElement) : Prop :=
  ∃ text, (heading station fName >>= logList list elements elements.length) = .ok text

theorem recvList_add (recvs : ℕ → Progress) (m k i : ℕ) (list : List ListElement)
    (buffer stream : Bytes) :
    recvList recvs (m + k) i list buffer stream
      = recvList recvs m i list buffer stream >>= fun r =>
          recvList recvs k (i + m) r.1 r.2.1 r.2.2 := by
  induction m generalizing i list buffer stream with
  | zero => rw [Nat.zero_add, recvList, ok_bind, Nat.add_zero]
  | succ m ih =>
      have hcount : m + 1 + k = (m + k) + 1 := by omega
      have hindex : i + (m + 1) = i + 1 + m := by omega
      rw [hcount, hindex]
      simp only [recvList]
      cases list[i]? with
      | none => rfl
      | some e =>
          cases recv (recvs i) ListElement.size stream with
          | none => rfl
          | some r =>
              simp only [ih, bind_assoc]

theorem getElem?_recvList {left i : ℕ}
    (h : recvList recvs left i list buffer stream = .ok (list', buffer', stream')) {j : ℕ}
    (hj : j < i) : list'[j]? = list[j]? := by
  induction left generalizing i list buffer stream with
  | zero =>
      cases h
      rfl
  | succ left ih =>
      rw [recvList] at h
      cases he : list[i]? with
      | none => simp [he] at h
      | some e =>
          cases hrecv : recv (recvs i) ListElement.size stream with
          | none => simp [he, hrecv] at h
          | some r =>
              simp only [he, hrecv] at h
              obtain ⟨text, -, h⟩ := bind_eq_ok.mp h
              obtain ⟨buffer₁, -, h⟩ := bind_eq_ok.mp h
              rw [ih h (by omega), List.getElem?_set_ne (by omega)]

theorem arrived_succ {k : ℕ} (hk : k < elements.length) (hlist : k < list.length) :
    (arrived list elements k).set k elements[k] = arrived list elements (k + 1) := by
  have hlen : (elements.take k).length = k := by
    rw [List.length_take]
    omega
  rw [arrived, arrived, List.set_append_right _ _ (le_of_eq hlen), hlen, Nat.sub_self,
    List.drop_eq_getElem_cons hlist, List.set_cons_zero, List.take_add_one,
    List.getElem?_eq_getElem hk, List.append_assoc]
  rfl

theorem getElem?_arrived {k : ℕ} (hk : k ≤ elements.length) (hlist : k < list.length) :
    (arrived list elements k)[k]? = some list[k] := by
  have hlen : (elements.take k).length = k := by
    rw [List.length_take]
    omega
  rw [arrived, List.getElem?_append_right (le_of_eq hlen), hlen, Nat.sub_self,
    List.getElem?_drop, Nat.add_zero, List.getElem?_eq_getElem hlist]

theorem flatMap_drop_succ {k : ℕ} (hk : k < elements.length) :
    (elements.drop k).flatMap ListElement.image
      = elements[k].image ++ (elements.drop (k + 1)).flatMap ListElement.image := by
  rw [List.drop_eq_getElem_cons hk, List.flatMap_cons]

/-- **The elements arrive.** As long as each call stores a whole element, the array holds the
elements sent, and the log is that of the elements. -/
theorem recvList_whole {k : ℕ} (hk : k ≤ elements.length) (hlist : elements.length ≤ list.length)
    (hwhole : ∀ j < k, recv (recvs j) ListElement.size
      = recv (β := Byte) .whole ListElement.size) :
    recvList recvs k 0 list buffer (elements.flatMap ListElement.image)
      = logList list elements k buffer >>= fun text =>
          .ok (arrived list elements k, text, (elements.drop k).flatMap ListElement.image) := by
  induction k with
  | zero => simp [recvList, logList, arrived]
  | succ k ih =>
      have hlt : k < elements.length := hk
      rw [recvList_add, ih (by omega) fun j hj => hwhole j (by omega), logList]
      simp only [bind_assoc, ok_bind]
      refine congrArg _ (funext fun text => ?_)
      rw [Nat.zero_add, recvList, getElem?_arrived (by omega) (by omega)]
      simp only
      rw [hwhole k (by omega), flatMap_drop_succ hlt,
        recv_whole (ListElement.length_image elements[k])]
      simp only
      rw [ListElement.store_image, arrived_succ hlt (by omega)]
      simp only [recvList]

/-- The first short piece leaves its element with bytes that were never received. -/
theorem recvList_short {j n : ℕ} (hn : elements.length = n) (hj : j < n)
    (hlist : n ≤ list.length) {count : ℕ} (hcount : count < ListElement.size)
    (hshort : recvs j = .upTo count)
    (hwhole : ∀ i < j, recv (recvs i) ListElement.size
      = recv (β := Byte) .whole ListElement.size)
    (h : recvList recvs n 0 list buffer (elements.flatMap ListElement.image)
      = .ok (list', buffer', stream')) :
    ∃ e e' : ListElement, list[j]? = some e ∧ list'[j]? = some e'
      ∧ ∃ i < ListElement.size, e'.image[i]? = e.image[i]? := by
  subst hn
  -- the loop up to the element `j`, the round that receives it, and the rest, which leaves it alone
  obtain ⟨m, hm⟩ : ∃ m, elements.length = j + (1 + m) := ⟨elements.length - j - 1, by omega⟩
  have hlt : j < list.length := by omega
  rw [hm, recvList_add, recvList_whole (by omega) hlist hwhole] at h
  simp only [bind_assoc, ok_bind] at h
  obtain ⟨text, -, h⟩ := bind_eq_ok.mp h
  rw [recvList_add] at h
  obtain ⟨r, hround, h⟩ := bind_eq_ok.mp h
  have hlong : ListElement.size
      ≤ ((elements.drop j).flatMap ListElement.image).length := by
    rw [flatMap_drop_succ hj, List.length_append, ListElement.length_image]
    exact Nat.le_add_right _ _
  simp only [recvList, Nat.zero_add] at hround
  rw [getElem?_arrived (by omega) hlt] at hround
  simp only [hshort] at hround
  rw [recv_upTo_of_lt hcount (by decide) hlong] at hround
  obtain ⟨text', -, hround⟩ := bind_eq_ok.mp hround
  obtain ⟨buffer₁, -, hround⟩ := bind_eq_ok.mp hround
  cases hround
  have hsize : (max count 1) < ListElement.size := max_lt hcount (by decide)
  have hkept := getElem?_recvList h (j := j) (by omega)
  have hin : j < (arrived list elements j).length := by
    rw [arrived, List.length_append, List.length_take, List.length_drop]
    omega
  rw [List.getElem?_set_self hin] at hkept
  exact ⟨_, _, List.getElem?_eq_getElem hlt, hkept, max count 1, hsize,
    ListElement.getElem?_image_store _ (List.length_take_le _ _) hsize⟩

/-- An element that differs from `e` in every byte. -/
def ListElement.other (e : ListElement) : ListElement := .ofImage (e.image.map (· + 1))

theorem ListElement.getElem?_image_other (e : ListElement) {i : ℕ} (hi : i < ListElement.size) :
    e.other.image[i]? ≠ e.image[i]? := by
  have hlt : i < e.image.length := by rwa [length_image]
  rw [other, image_ofImage (by rw [List.length_map, length_image]), List.getElem?_map,
    List.getElem?_eq_getElem hlt, Option.map_some]
  intro h
  have hbyte : e.image[i] + 1 = e.image[i] := Option.some_injective _ h
  bv_omega

/-! ### The request -/

def Hop.withList (hop : Hop) (list : List ListElement) (length_list : list.length = listSize) :
    Hop :=
  { hop with list := list, length_list := length_list }

variable {hop : Hop}

theorem connection_returns_iff (hop : Hop) (hheader : ∀ j, hop.headerRecvs j ≠ .failed)
    (hsize : header.lSize.toNat = elements.length) (hne : elements ≠ [])
    {incoming : Incoming} :
    Returns (fun fuel => connection fuel hop (request header elements)) incoming
      ↔ (do
          let buffer ← heading hop.station header.fName
          let (list, buffer, _) ← recvList hop.elementRecvs elements.length 0 hop.list buffer
            (elements.flatMap ListElement.image)
          .ok (Incoming.curr header list buffer) : Except Stop Incoming) = .ok incoming := by
  have hzero : header.lSize ≠ 0 := by
    intro hzero
    rw [hzero] at hsize
    exact hne (List.eq_nil_of_length_eq_zero hsize.symm)
  obtain ⟨depth, hdepth⟩ := recvHeader_returns hheader
    { header with lSize := swap 4 header.lSize } (elements.flatMap ListElement.image)
  have hconnection : ∀ fuel, depth ≤ fuel →
      connection fuel hop (request header elements) = (do
          let buffer ← heading hop.station header.fName
          let (list, buffer, _) ← recvList hop.elementRecvs elements.length 0 hop.list buffer
            (elements.flatMap ListElement.image)
          .ok (Incoming.curr header list buffer) : Except Stop Incoming) := by
    intro fuel hfuel
    have hread : recvHeader hop.headerRecvs fuel 0 [] (request header elements) = _ :=
      hdepth fuel hfuel
    rw [connection, hread, ok_bind]
    simp only [swap_swap (n := 4) rfl, if_neg hzero, hsize]
  constructor
  · rintro ⟨depth', h⟩
    rw [← hconnection (max depth depth') (le_max_left _ _)]
    exact h _ (le_max_right _ _)
  · intro h
    exact ⟨depth, fun fuel hfuel => (hconnection fuel hfuel).trans h⟩

theorem take_arrived (list elements : List ListElement) :
    (arrived list elements elements.length).take elements.length = elements := by
  rw [arrived, List.take_length, List.take_left]

theorem connection_whole (hop : Hop) (hheader : ∀ j, hop.headerRecvs j ≠ .failed)
    (hwhole : ∀ j < elements.length, recv (hop.elementRecvs j) ListElement.size
      = recv (β := Byte) .whole ListElement.size)
    (hsize : header.lSize.toNat = elements.length) (hne : elements ≠ [])
    (hmax : elements.length ≤ listSize) {text : Bytes}
    (hlog : heading hop.station header.fName >>= logList hop.list elements elements.length
      = .ok text) :
    Returns (fun fuel => connection fuel hop (request header elements))
      (.curr header (arrived hop.list elements elements.length) text) := by
  rw [connection_returns_iff hop hheader hsize hne]
  have hlist : elements.length ≤ hop.list.length := by
    rwa [hop.length_list]
  obtain ⟨buffer, hheading, hlog⟩ := bind_eq_ok.mp hlog
  rw [hheading, ok_bind, recvList_whole le_rfl hlist hwhole, hlog]
  rfl

/-- What a call of `recv` leaves out of an element shows in the array. -/
theorem elementCuts_of_received (hop : Hop) (elementCuts : ℕ → ℕ)
    (hheader : ∀ j, hop.headerRecvs j ≠ .failed)
    (hcuts : ∀ j, hop.elementRecvs j = .upTo (elementCuts j))
    (hsize : header.lSize.toNat = elements.length) (hne : elements ≠ [])
    (hmax : elements.length ≤ listSize)
    (hreceived : ∀ list hlist, ∃ list' buffer,
      Returns (fun fuel => connection fuel (hop.withList list hlist) (request header elements))
        (.curr header list' buffer)
      ∧ list'.take elements.length = elements) :
    ∀ j < elements.length, ListElement.size ≤ elementCuts j := by
  by_contra hcut
  push Not at hcut
  obtain ⟨hj, hshort⟩ := Nat.find_spec hcut
  set j := Nat.find hcut with hdef
  have hwhole : ∀ i < j, recv (hop.elementRecvs i) ListElement.size
      = recv (β := Byte) .whole ListElement.size := by
    intro i hi
    have hmin := Nat.find_min hcut hi
    push Not at hmin
    funext stream
    rw [hcuts, recv_upTo_of_le (hmin (by omega)) (by decide)]
  -- an array that differs from the element in every byte gives away a byte that never came
  have hlist : (List.replicate listSize elements[j].other).length = listSize :=
    List.length_replicate
  obtain ⟨list', buffer, hreturns, htake⟩ := hreceived _ hlist
  rw [connection_returns_iff (hop.withList _ hlist) hheader hsize hne] at hreturns
  obtain ⟨text, -, hreturns⟩ := bind_eq_ok.mp hreturns
  obtain ⟨⟨list₁, buffer₁, stream₁⟩, hrun, heq⟩ := bind_eq_ok.mp hreturns
  cases heq
  obtain ⟨e, e', he, he', i, hi, himage⟩ := recvList_short rfl hj
    (hmax.trans (le_of_eq hlist.symm)) hshort (hcuts j) hwhole hrun
  have hold : e = elements[j].other := List.eq_of_mem_replicate (List.mem_of_getElem? he)
  have hnew : e' = elements[j] := by
    have hsent : (list'.take elements.length)[j]? = some e' := by
      rw [List.getElem?_take_of_lt hj, he']
    rw [htake, List.getElem?_eq_getElem hj] at hsent
    exact (Option.some_injective _ hsent).symm
  rw [hold, hnew] at himage
  exact ListElement.getElem?_image_other _ hi himage.symm

/-- **How a request is received.** For whatever the array held before, the header and the elements
are those that were sent, exactly when every call that receives an element gets all of it. -/
theorem request_received_iff {elementCuts : ℕ → ℕ} (hheader : ∀ j, hop.headerRecvs j ≠ .failed)
    (hcuts : ∀ j, hop.elementRecvs j = .upTo (elementCuts j))
    (hsize : header.lSize.toNat = elements.length) (hne : elements ≠ [])
    (hmax : elements.length ≤ listSize)
    (hlog : ∀ list : List ListElement, list.length = listSize →
      LogFits hop.station header.fName elements list) :
    (∀ list hlist, ∃ list' buffer,
        Returns (fun fuel => connection fuel (hop.withList list hlist) (request header elements))
          (.curr header list' buffer)
        ∧ list'.take elements.length = elements)
      ↔ ∀ j < elements.length, ListElement.size ≤ elementCuts j := by
  refine ⟨elementCuts_of_received hop elementCuts hheader hcuts hsize hne hmax, ?_⟩
  intro hcuts' list hlist
  obtain ⟨text, htext⟩ := hlog list hlist
  have hwhole : ∀ j < elements.length, recv (hop.elementRecvs j) ListElement.size
      = recv (β := Byte) .whole ListElement.size := by
    intro j hj
    funext stream
    rw [hcuts, recv_upTo_of_le (hcuts' j hj) (by decide)]
  exact ⟨_, text, connection_whole (hop.withList list hlist) hheader hwhole hsize hne hmax
    htext, take_arrived list elements⟩

/-! ### The log of elements whose strings end -/

def ListElement.Terminated (e : ListElement) : Prop := 0 ∈ e.host ∧ 0 ∈ e.port

/-- What the log says of an element whose strings have terminators. -/
def ListElement.text (before : String) (e : ListElement) : Bytes :=
  ofString before ++ ofString "<" ++ e.host.takeWhile (· ≠ 0) ++ ofString ", "
    ++ e.port.takeWhile (· ≠ 0) ++ ofString ">\n"

theorem cstr_append {text : Bytes} (hzero : 0 ∈ text) (rest : Bytes) :
    cstr (text ++ rest) = .ok (text.takeWhile (· ≠ 0)) := by
  rw [cstr, if_pos (List.mem_append_left rest hzero), List.takeWhile_append, if_neg]
  intro hall
  have hself := (List.takeWhile_prefix (fun b : Byte => decide (b ≠ 0))).eq_of_length hall
  exact absurd (List.takeWhile_eq_self_iff.mp hself 0 hzero) (by decide)

theorem hostPort_eq {before : String} {e : ListElement} {i : ℕ} (he : list[i]? = some e)
    (hterminated : e.Terminated) : hostPort before list i = .ok (e.text before) := by
  obtain ⟨hlt, rfl⟩ := List.getElem?_eq_some_iff.mp he
  have hmem : elementsFrom list i
      = list[i].version :: (list[i].host ++ (list[i].port ++ elementsFrom list (i + 1))) := by
    rw [elementsFrom, List.drop_eq_getElem_cons hlt, List.flatMap_cons, ListElement.image,
      List.cons_append, List.append_assoc, elementsFrom]
  have hport : (elementsFrom list i).drop 257 = list[i].port ++ elementsFrom list (i + 1) := by
    rw [hmem, List.drop_succ_cons, List.drop_left' list[i].length_host]
  rw [hostPort, hport, hmem, List.drop_succ_cons, List.drop_zero, cstr_append hterminated.1,
    cstr_append hterminated.2]
  rfl

theorem logList_eq (list : List ListElement) (buffer : Bytes)
    (hterminated : ∀ e ∈ elements, e.Terminated) {k : ℕ}
    (hk : k ≤ elements.length)
    (hfits : (buffer ++ (elements.take k).flatMap (ListElement.text " ")).length < bufSize) :
    logList list elements k buffer
      = .ok (buffer ++ (elements.take k).flatMap (ListElement.text " ")) := by
  induction k with
  | zero => simp [logList]
  | succ k ih =>
      have hlt : k < elements.length := hk
      have hsplit : (elements.take (k + 1)).flatMap (ListElement.text " ")
          = (elements.take k).flatMap (ListElement.text " ") ++ elements[k].text " " := by
        rw [List.take_add_one, List.getElem?_eq_getElem hlt, List.flatMap_append]
        exact congrArg _ (List.flatMap_singleton _ _)
      rw [hsplit, ← List.append_assoc] at hfits ⊢
      have harrived : (arrived list elements (k + 1))[k]? = some elements[k] := by
        rw [arrived, List.getElem?_append_left (by rw [List.length_take]; omega),
          List.getElem?_take_of_lt (Nat.lt_succ_self k), List.getElem?_eq_getElem hlt]
      rw [List.length_append] at hfits
      rw [logList, ih (by omega) (by omega), ok_bind,
        hostPort_eq harrived (hterminated _ (List.getElem_mem hlt)), ok_bind, sprintf,
        if_pos hfits]

theorem logFits_of_terminated {station : Station} {fName heading' : Bytes}
    (hheading : heading station fName = .ok heading')
    (hterminated : ∀ e ∈ elements, e.Terminated)
    (hfits : heading'.length + (elements.flatMap (ListElement.text " ")).length < bufSize) :
    LogFits station fName elements list := by
  refine ⟨heading' ++ (elements.take elements.length).flatMap (ListElement.text " "), ?_⟩
  rw [hheading, ok_bind, logList_eq list heading' hterminated le_rfl]
  rwa [List.take_length, List.length_append]

/-! ### One element, cut after its first byte -/

def sampleStone : ListElement where
  version := 1
  host := ofString "b" ++ List.replicate 255 0
  port := ofString "2" ++ List.replicate 7 0
  length_host := by rw [List.length_append, List.length_replicate]; rfl
  length_port := rfl

def sampleRequest : ListHeader where
  version := 1
  lSize := 1
  fName := ofString "u" ++ List.replicate 4095 0
  length_fName := by rw [List.length_append, List.length_replicate]; rfl

/-- A hop to which everything is delivered in pieces of at most `count` bytes. -/
def sampleHop (count : ℕ) : Hop where
  station := ⟨ofString "a", ofString "1"⟩
  headerRecvs _ := .upTo count
  elementRecvs _ := .upTo count
  list := List.replicate listSize sampleStone
  rand := 0
  connects := true
  headerSend := .whole
  elementSends _ := .whole
  length_list := List.length_replicate

theorem sampleStone_terminated : ∀ e ∈ [sampleStone], e.Terminated := by
  intro e he
  rw [List.mem_singleton.mp he]
  exact ⟨List.mem_append_right _ (List.mem_replicate.mpr ⟨by decide, rfl⟩),
    List.mem_append_right _ (List.mem_replicate.mpr ⟨by decide, rfl⟩)⟩

theorem sample_heading : heading ⟨ofString "a", ofString "1"⟩ sampleRequest.fName
    = .ok (ofString "ss <a, 1>:\n Request: u\n chainlist is\n") := by
  have hzero : 0 ∈ sampleRequest.fName :=
    List.mem_append_right _ (List.mem_replicate.mpr ⟨by decide, rfl⟩)
  have hrequest : cstr sampleRequest.fName = .ok (ofString "u") := by
    rw [cstr, if_pos hzero]
    rfl
  rw [heading, hrequest]
  rfl

theorem sample_logFits (list : List ListElement) :
    LogFits ⟨ofString "a", ofString "1"⟩ sampleRequest.fName [sampleStone] list :=
  logFits_of_terminated sample_heading sampleStone_terminated (by decide)

theorem request_received_iff_sample :
    (∀ list hlist, ∃ list' buffer,
        Returns (fun fuel => connection fuel ((sampleHop 300).withList list hlist)
          (request sampleRequest [sampleStone])) (.curr sampleRequest list' buffer)
        ∧ list'.take 1 = [sampleStone])
      ↔ ∀ j < 1, ListElement.size ≤ 300 :=
  @request_received_iff sampleRequest [sampleStone] (sampleHop 300) (fun _ => 300)
    (by simp [sampleHop]) (fun _ => rfl) rfl (by simp) (by decide) fun list _ => sample_logFits list

/-- Cut after one byte, the element is not received. -/
theorem cut_element_lost :
    ¬∀ list hlist, ∃ list' buffer,
        Returns (fun fuel => connection fuel ((sampleHop 1).withList list hlist)
          (request sampleRequest [sampleStone])) (.curr sampleRequest list' buffer)
        ∧ list'.take 1 = [sampleStone] := by
  intro hreceived
  have hcuts := elementCuts_of_received (sampleHop 1) (fun _ => 1)
    (by simp [sampleHop]) (fun _ => rfl) rfl (by simp) (by decide) hreceived 0 Nat.zero_lt_one
  exact absurd hcuts (by decide)

end Networking.Relay
