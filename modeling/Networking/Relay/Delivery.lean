import Mathlib.Data.List.Flatten
import Networking.Relay.Buffer
import Networking.Relay.Chain
import Networking.Relay.ChainFile
import Networking.Relay.File
import Networking.Relay.Wget

/-!
# A file is fetched

`main` of `awget` reads the chain file, sends the request to the stepping stone that it draws, and
writes what comes back to a file. Each stepping stone waits for the file of the next one, so the way
of the file is the way of the request backwards: a stepping stone answers its connection once the
one it has opened has been answered.
-/

namespace Networking.Relay

open Wire Segment Fuel Drawing CString

/-- What the handling of a connection depends on: for the request, for the file on its way back, and
for `last_ss` the descriptor of the connection, what a command leaves in the temporary file, and how
far the calls get that send it. -/
structure Place where
  hop : Hop
  copier : Copier
  s : ℕ
  fetched : Bytes → Bytes
  headerSend : Progress
  sends : ℕ → Progress

/-- `last_ss`: the bytes it sends. -/
def Place.lastSs (fuel : ℕ) (p : Place) (fname : Bytes) : Except Stop Bytes := do
  let command ← lastSsCommand p.s fname
  Relay.lastSs fuel p.headerSend p.sends (p.fetched command)

/-- `connection` at a stepping stone, given what the next one does: the visits from here on, and the
bytes that are sent back. -/
def answer (fuel : ℕ) (p : Place) (stone : ListElement) (stream : Bytes)
    (next : ListElement → Bytes → Except Stop (List Visit × Bytes)) :
    Handled → Except Stop (List Visit × Bytes)
  | .last listH => do
      let back ← p.lastSs fuel listH.fName
      .ok ([⟨stone, stream, listH, true⟩], back)
  | .curr listH stone' sent => do
      let (visits, back) ← next stone' sent
      let copied ← currSs fuel p.copier back
      .ok (⟨stone, stream, listH, false⟩ :: visits, copied.forwarded)

/-- The stepping stones from the one at the place `i` of the way on. -/
def relay (places : ℕ → Place) : ℕ → ℕ → ListElement → Bytes → Except Stop (List Visit × Bytes)
  | 0, _, _, _ => .error .outOfFuel
  | fuel + 1, i, stone, stream => do
      let handled ← handle fuel (places i).hop stream
      answer fuel (places i) stone stream (relay places fuel (i + 1)) handled

/-- The header that `main` fills in. -/
def mainHeader (lSize : BitVec 32) (url : Bytes) : ListHeader :=
  ⟨1, lSize, strncpy filenameMax url, List.takeD_length _ _ _⟩

/-- `main` of `awget`, for the contents of the chain file: the stepping stones visited, and the file
written. -/
def awgetMain (fuel : ℕ) (buff file url : Bytes) (rand : ℕ) (headerSend : Progress)
    (sends : ℕ → Progress) (places : ℕ → Place) (copier : Copier) :
    Except (Fault ⊕ Stop) (List Visit × Bytes) := do
  let (lSize, elements) ← (chainList buff file).mapError .inl
  Except.mapError .inr (do
    let (stone, sent) ← awget (mainHeader lSize url) elements rand headerSend sends
    let (visits, stream) ← relay places fuel 0 stone sent
    let (_, written) ← awgetFile fuel copier stream
    .ok (visits, written))

/-- Every call of the handling succeeds, and gets all there is where it has to. -/
structure Place.Smooth (p : Place) : Prop where
  hop : p.hop.Smooth
  copier : p.copier.Smooth
  headerSend : p.headerSend = .whole
  sends : ∀ j, p.sends j ≠ .failed

variable {places : ℕ → Place} {header : ListHeader} {elements array : List ListElement}
  {sends : ℕ → Progress} {fData url : Bytes} {pick : ℕ → ℕ} {hop : Hop}

/-! ### The stepping stones -/

theorem handle_next (hsmooth : hop.Smooth) (hmax : elements.length ≤ listSize) {m i : ℕ}
    (hpick : pick (i + 1) = hop.rand)
    (hlog : ∃ text, hopLog hop header.fName (left pick elements (i + 1)) = .ok text)
    (hm : i + 1 + (m + 1) = elements.length) :
    ∃ next, drawn pick elements (i + 1) = some next
      ∧ Returns (fun fuel => handle fuel hop
          (request (header.withSize (m + 1)) (left pick elements (i + 1))))
        (.curr (header.withSize (m + 1)) next
          (request (header.withSize m) (left pick elements (i + 1 + 1)))) := by
  have hlen : (left pick elements (i + 1)).length = m + 1 := by
    rw [length_left]
    omega
  have hcount := header.toNat_withSize (n := m + 1) (by omega)
  obtain ⟨next, hnext⟩ := exists_drawn pick (l := elements) (k := i + 1) (by omega)
  obtain ⟨text, htext⟩ := hlog
  have hget : (left pick elements (i + 1))[hop.rand % (left pick elements (i + 1)).length]?
      = some next := by
    rw [← hpick]
    exact hnext
  have hcurr := handle_curr hsmooth (hcount.trans hlen.symm) (by omega) htext hget
  rw [ListHeader.withSize_sub_one, ← hpick] at hcurr
  exact ⟨next, hnext, hcurr⟩

/-- **From any place on.** The stepping stones that are left are visited, and the file comes back.
-/
theorem relay_returns (hsmooth : ∀ i < elements.length, (places i).Smooth)
    (hmax : elements.length ≤ listSize) (hpick : ∀ i, pick (i + 1) = (places i).hop.rand)
    (hlog : ∀ i, i + 1 < elements.length → ∃ text,
      hopLog (places i).hop header.fName (left pick elements (i + 1)) = .ok text)
    {command : Bytes}
    (hcommand : lastSsCommand (places (elements.length - 1)).s header.fName = .ok command)
    (hfetched : (places (elements.length - 1)).fetched command = fData) (hne : fData ≠ [])
    (hshort : fData.length < 2 ^ 31) {m i : ℕ} (hm : i + 1 + m = elements.length)
    {stone : ListElement} (hstone : drawn pick elements i = some stone) :
    ∃ visits, Returns (fun fuel => relay places fuel i stone
        (request (header.withSize m) (left pick elements (i + 1)))) (visits, fileStream fData)
      ∧ visits.length = m + 1
      ∧ ∀ k ≤ m, ∃ v, visits[k]? = some v ∧ VisitAt header elements pick (i + k) v := by
  have hplace := hsmooth i (by omega)
  have hcount := header.toNat_withSize (n := m) (by omega)
  -- on the number of stepping stones behind this one
  induction m generalizing i stone with
  | zero =>
      have hempty : left pick elements (i + 1) = [] := by
        apply List.eq_nil_of_length_eq_zero
        rw [length_left]
        omega
      obtain rfl : i = elements.length - 1 := by omega
      have hlast := handle_last hplace.hop (rfl : (header.withSize 0).lSize = 0)
      have hback : Returns (fun fuel => (places (elements.length - 1)).lastSs fuel header.fName)
          (fileStream fData) := by
        apply (lastSs_returns hplace.sends hne).congr
        intro fuel
        rw [Place.lastSs, hcommand, ok_bind, hplace.headerSend, hfetched]
      refine ⟨[⟨stone, request (header.withSize 0) [], header.withSize 0, true⟩], ?_, rfl, ?_⟩
      · rw [hempty]
        have hanswer := hback.map
          (Prod.mk [(⟨stone, request (header.withSize 0) [], header.withSize 0, true⟩ : Visit)])
        exact (hlast.bind (k := fun handled fuel => answer fuel (places (elements.length - 1)) stone
          (request (header.withSize 0) []) (relay places fuel (elements.length - 1 + 1)) handled)
          hanswer).succ fun _ => rfl
      · intro k hk
        obtain rfl : k = 0 := by omega
        refine ⟨_, rfl, hstone, ?_, rfl, by rw [Nat.add_zero, hempty], ?_⟩
        · rw [hcount]
          omega
        · simp only [true_iff]
          omega
  | succ m ih =>
      obtain ⟨next, hnext, hcurr⟩ := handle_next hplace.hop hmax (hpick i) (hlog i (by omega)) hm
      obtain ⟨visits, hreturns, hvisits, hall⟩ := ih (i := i + 1) (by omega) hnext
        (hsmooth (i + 1) (by omega)) (header.toNat_withSize (by omega))
      have hcopied := currSs_returns hplace.copier hshort
      refine ⟨⟨stone, request (header.withSize (m + 1)) (left pick elements (i + 1)),
        header.withSize (m + 1), false⟩ :: visits, ?_, by rw [List.length_cons, hvisits], ?_⟩
      · have hanswer := hreturns.bind
          (k := fun r fuel => currSs fuel (places i).copier r.2 >>= fun copied =>
            .ok ((⟨stone, request (header.withSize (m + 1)) (left pick elements (i + 1)),
              header.withSize (m + 1), false⟩ : Visit) :: r.1, copied.forwarded))
          (hcopied.map fun copied => (_, copied.forwarded))
        exact (hcurr.bind (k := fun handled fuel => answer fuel (places i) stone
          (request (header.withSize (m + 1)) (left pick elements (i + 1)))
          (relay places fuel (i + 1)) handled) hanswer).succ fun _ => rfl
      · intro k hk
        cases k with
        | zero =>
            refine ⟨_, rfl, hstone, ?_, rfl, rfl, ?_⟩
            · rw [hcount]
              omega
            · simp only [Bool.false_eq_true, false_iff]
              omega
        | succ k =>
            obtain ⟨v, hv, hvisit⟩ := hall k (by omega)
            refine ⟨v, hv, ?_⟩
            rwa [Nat.add_right_comm] at hvisit

theorem stones_perm {visits : List Visit} (hlength : visits.length = elements.length)
    (hall : ∀ k < elements.length, ∃ v, visits[k]? = some v
      ∧ VisitAt header elements pick k v) :
    (visits.map Visit.stone).Perm elements := by
  have hdraws := draws_perm pick elements
  have heq : visits.map Visit.stone = draws pick elements elements.length := by
    refine List.ext_getElem? fun k => ?_
    rcases lt_or_ge k elements.length with hk | hk
    · obtain ⟨v, hv, hvisit⟩ := hall k hk
      rw [List.getElem?_map, hv, getElem?_draws hk le_rfl, hvisit.stone]
      rfl
    · rw [List.getElem?_eq_none (by rw [List.length_map]; omega),
        List.getElem?_eq_none (by rw [hdraws.length_eq]; exact hk)]
  rw [heq]
  exact hdraws

/-! ### The log -/

theorem length_text_next {e : ListElement} (he : e.Terminated) :
    (e.text " next SS is ").length ≤ 279 := by
  have hhost : (text e.host).length < e.host.length := length_text_lt he.1
  have hport : (text e.port).length < e.port.length := length_text_lt he.2
  have htext : (e.text " next SS is ").length = 17 + (text e.host).length
      + (text e.port).length := by
    have hbefore : (ofString " next SS is ").length = 12 := rfl
    have hopen : (ofString "<").length = 1 := rfl
    have hcomma : (ofString ", ").length = 2 := rfl
    have hclose : (ofString ">\n").length = 2 := rfl
    simp only [ListElement.text, List.length_append, hbefore, hopen, hcomma, hclose, text]
    omega
  rw [e.length_host] at hhost
  rw [e.length_port] at hport
  omega

/-- The buffer of a stepping stone holds what it logs: the whole list is long enough an estimate. -/
theorem exists_hopLog {fName : Bytes} (hname : 0 ∈ fName)
    (hterminated : ∀ e ∈ elements, e.Terminated) {i : ℕ} (hi : i < elements.length)
    (hrand : hop.rand = pick i)
    (hfits : (headingText hop.station fName).length
      + (elements.flatMap (ListElement.text " ")).length + 300 < bufSize) :
    ∃ text, hopLog hop fName (left pick elements i) = .ok text := by
  obtain ⟨stone, hstone⟩ := exists_drawn pick hi
  have hmem : ∀ e ∈ left pick elements i, e.Terminated := fun e he =>
    hterminated e (mem_of_mem_left he)
  have hlist : ((left pick elements i).flatMap (ListElement.text " ")).length
      ≤ (elements.flatMap (ListElement.text " ")).length :=
    ((left_sublist pick elements i).flatMap _).length_le
  have hnext := length_text_next (hterminated stone (mem_of_mem_left (List.mem_of_getElem? hstone)))
  have hheading : heading hop.station fName = .ok (headingText hop.station fName) :=
    (bounded_heading hop.station hname).ok (by omega)
  refine hopLog_of_terminated stone hheading hmem ?_ (by omega)
  rw [hrand]
  exact hstone

/-! ### `main` -/

theorem length_readElements {left c : ℕ} {buff file : Bytes} {elements' : List ListElement}
    (h : readElements left c elements buff file = .ok elements') :
    elements'.length = elements.length := by
  induction left generalizing c elements buff file with
  | zero =>
      cases h
      rfl
  | succ left ih =>
      rw [readElements] at h
      split at h
      case h_1 => cases h
      case h_2 buff' file' hgets =>
        obtain ⟨⟨curr, cut⟩, -, h⟩ := bind_eq_ok.mp h
        dsimp only at h
        split at h
        case h_1 => cases h
        case h_2 e he => rw [ih h, List.length_set]

theorem chainList_ok {lSize : BitVec 32} {buff file : Bytes}
    (h : chainList buff file = .ok (lSize, array)) : lSize ≠ 0 ∧ array.length = buffSize := by
  rw [chainList] at h
  split at h
  case h_1 => cases h
  case h_2 buff' file' hgets =>
    obtain ⟨elements, hread, h⟩ := bind_eq_ok.mp h
    split_ifs at h with hzero
    cases h
    exact ⟨hzero, (length_readElements hread).trans List.length_replicate⟩

/-- `awget` on an array that holds more than the elements of the request. -/
theorem awget_array (hsends : ∀ i, sends i = .whole) (hsize : header.lSize.toNat = elements.length)
    (htake : array.take elements.length = elements) {rand : ℕ} {stone : ListElement}
    (hstone : elements[rand % elements.length]? = some stone) :
    awget header array rand .whole sends
      = .ok (stone, request { header with lSize := header.lSize - 1 }
          (elements.eraseIdx (rand % elements.length))) := by
  have hlt : rand % elements.length < elements.length := (List.getElem?_eq_some_iff.mp hstone).1
  have hzero : header.lSize ≠ 0 := by
    intro hzero
    rw [hzero] at hsize
    exact absurd hsize (by have : (0 : BitVec 32).toNat = 0 := rfl; omega)
  have hget : array[rand % elements.length]? = some stone := by
    rw [← List.getElem?_take_of_lt hlt, htake, hstone]
  simp only [awget, if_neg hzero, hsize, hget, sendHeader_whole, ok_bind,
    sendList_all hsends htake, request]

/-- **`awget` fetches the file.** From every chain file that `main` gets through, when the calls
succeed and the logs fit, the request goes to every stepping stone of the list once, with the name
unchanged, and `awget` writes the file that the last of them has fetched. -/
theorem awgetMain_delivers {buff file : Bytes} {lSize : BitVec 32} {rand : ℕ} {copier : Copier}
    (hchain : chainList buff file = .ok (lSize, array)) (hmax : lSize.toNat ≤ listSize)
    (hterminated : ∀ e ∈ array.take lSize.toNat, e.Terminated)
    (hurl : (text url).length < filenameMax) (hsends : ∀ i, sends i = .whole)
    (hsmooth : ∀ i < lSize.toNat, (places i).Smooth) (hcopier : copier.Smooth)
    (hlog : ∀ i < lSize.toNat, (headingText (places i).hop.station url).length
      + ((array.take lSize.toNat).flatMap (ListElement.text " ")).length + 300 < bufSize)
    (hfetched : ∀ command, lastSsCommand (places (lSize.toNat - 1)).s
      (strncpy filenameMax url) = .ok command → (places (lSize.toNat - 1)).fetched command = fData)
    (hne : fData ≠ []) (hshort : fData.length < 2 ^ 31) :
    ∃ visits, Returns (fun fuel => awgetMain fuel buff file url rand .whole sends places copier)
        (visits, fData)
      ∧ (visits.map Visit.stone).Perm (array.take lSize.toNat)
      ∧ ∀ v ∈ visits, text v.listH.fName = text url := by
  obtain ⟨hzero, hlength⟩ := chainList_ok hchain
  have hbuff : listSize ≤ buffSize := by decide
  set elements := array.take lSize.toNat with helements
  set header := mainHeader lSize url with hheader
  have hlen : elements.length = lSize.toNat := by
    rw [helements, List.length_take]
    omega
  have hpos : 0 < elements.length := by
    rw [hlen, Nat.pos_iff_ne_zero]
    exact fun h => hzero (BitVec.eq_of_toNat_eq h)
  have hname : text header.fName = text url := text_strncpy hurl
  have hend : 0 ∈ header.fName := zero_mem_strncpy hurl
  rw [← hlen] at hmax hsmooth hlog hfetched
  have hcommand := lastSsCommand_eq (places (elements.length - 1)).s hend
  -- the stepping stones are drawn by `awget` first, and then by one another
  set pick := picks rand fun i => (places i).hop with hpick
  obtain ⟨stone, hstone⟩ := exists_drawn pick (l := elements) (k := 0) hpos
  have hlogs : ∀ i, i + 1 < elements.length → ∃ text,
      hopLog (places i).hop header.fName (left pick elements (i + 1)) = .ok text := by
    intro i hi
    refine exists_hopLog hend hterminated hi rfl ?_
    have hheading : headingText (places i).hop.station header.fName
        = headingText (places i).hop.station url := by
      rw [headingText, headingText]
      exact congrArg (fun name => _ ++ _ ++ _ ++ _ ++ _ ++ name ++ _) hname
    rw [hheading]
    exact hlog i (by omega)
  obtain ⟨visits, hreturns, hvisits, hall⟩ := relay_returns (m := elements.length - 1) hsmooth hmax
    (fun _ => rfl) hlogs hcommand (hfetched _ hcommand) hne hshort (i := 0) (by omega) hstone
  have hself : header = header.withSize (elements.length - 1 + 1) := by
    ext1
    · rfl
    · rw [ListHeader.withSize, Nat.sub_add_cancel hpos, hlen]
      exact (BitVec.ofNat_toNat 32 lSize).symm
    · rfl
  have htake : array.take elements.length = elements := by rw [hlen]
  have hrequest : awget header array rand .whole sends
      = .ok (stone, request { header with lSize := header.lSize - 1 }
          (elements.eraseIdx (rand % elements.length))) :=
    awget_array hsends hlen.symm htake hstone
  have hfirst : { header with lSize := header.lSize - 1 }
      = header.withSize (elements.length - 1) := by
    rw [← ListHeader.withSize_sub_one, ← hself]
  rw [hfirst] at hrequest
  refine ⟨visits, ?_, ?_, ?_⟩
  · have hwritten := hreturns.bind (k := fun r fuel => awgetFile fuel copier r.2 >>= fun w =>
      .ok (r.1, w.2)) ((awgetFile_returns hcopier hshort).map fun w => (visits, w.2))
    refine (hwritten.mapError Sum.inr).congr fun fuel => ?_
    rw [awgetMain, hchain]
    change Except.mapError _ (awget header array rand .whole sends >>= _) = _
    rw [hrequest]
    rfl
  · have hvisit : ∀ k < elements.length, ∃ v, visits[k]? = some v
        ∧ VisitAt header elements pick k v := by
      intro k hk
      simpa only [Nat.zero_add] using hall k (by omega)
    exact stones_perm (by omega) hvisit
  · intro v hv
    obtain ⟨k, hk⟩ := List.getElem?_of_mem hv
    have hlt : k < visits.length := (List.getElem?_eq_some_iff.mp hk).1
    obtain ⟨w, hw, hvisit⟩ := hall k (by omega)
    obtain rfl : v = w := Option.some.inj (hk.symm.trans hw)
    rw [hvisit.fName, hname]

/-! ### Over two stepping stones -/

def samplePlace : Place where
  hop := smoothHop
  copier := sampleCopier
  s := 4
  fetched _ := ofString "file"
  headerSend := .whole
  sends _ := .upTo 2

theorem samplePlace_smooth : samplePlace.Smooth :=
  ⟨smoothHop_smooth, sampleCopier_smooth, rfl, by simp [samplePlace]⟩

theorem awgetMain_delivers_sample :
    ∃ (array : List ListElement) (visits : List Visit),
      Returns (fun fuel => awgetMain fuel [] (chainFile [50] sampleRows []) (ofString "a.b/c") 7
          .whole (fun _ => .whole) (fun _ => samplePlace) sampleCopier) (visits, ofString "file")
        ∧ (visits.map Visit.stone).Perm (array.take 2)
        ∧ ∀ v ∈ visits, text v.listH.fName = ofString "a.b/c" := by
  obtain ⟨array, hchain, hends, hfits⟩ : ∃ array : List ListElement,
      chainList [] (chainFile [50] sampleRows []) = .ok (2, array)
        ∧ ((array.take 2).all fun e => decide (0 ∈ e.host ∧ 0 ∈ e.port)) = true
        ∧ ((array.take 2).flatMap (ListElement.text " ")).length = 33 :=
    ⟨_, rfl, rfl, rfl⟩
  have hterminated : ∀ e ∈ array.take 2, e.Terminated := by
    intro e he
    simpa only [decide_eq_true_eq, ListElement.Terminated] using List.all_eq_true.mp hends e he
  have hlog : (headingText samplePlace.hop.station (ofString "a.b/c")).length
      + ((array.take 2).flatMap (ListElement.text " ")).length + 300 < bufSize := by
    rw [hfits]
    decide
  obtain ⟨visits, hvisits⟩ := awgetMain_delivers hchain (by decide) hterminated (by decide)
    (fun _ => rfl) (fun _ _ => samplePlace_smooth) sampleCopier_smooth (fun _ _ => hlog)
    (fun _ _ => rfl) (by decide) (by decide)
  exact ⟨array, visits, hvisits⟩

end Networking.Relay
