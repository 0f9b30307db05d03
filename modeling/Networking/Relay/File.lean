import Networking.Lib.Fuel
import Networking.Relay.Request

/-!
# The file on its way back

`last_ss` sends a header with the size of the file, then the file, in pieces of at most `BUF_SIZE`
bytes of which `send` may take a part. Each stepping stone on the way back copies the header and
then as many bytes as it announces; `awget` writes them to its file.
-/

namespace Networking.Relay

open Wire Segment Fuel

/-- The loop of `last_ss` that sends the file, from the offset `cursor` on. -/
def sendFile (sends : ℕ → Progress) (fData : Bytes) :
    ℕ → ℕ → ℕ → Bytes → Except Stop Bytes
  | 0, _, _, _ => .error .outOfFuel
  | fuel + 1, call, cursor, sent =>
      if cursor < fData.length then
        match send (sends call)
          ((fData.drop cursor).take (min bufSize (fData.length - cursor))) with
        | none => .error .failed
        | some bytes => sendFile sends fData fuel (call + 1) (cursor + bytes.length) (sent ++ bytes)
      else
        .ok sent

/-- `last_ss` on the file fetched: the bytes it sends. An empty file cannot be mapped. -/
def lastSs (fuel : ℕ) (headerSend : Progress) (sends : ℕ → Progress) (fData : Bytes) :
    Except Stop Bytes :=
  if fData = [] then
    .error .failed
  else
    let fileF : FileHeader := ⟨1, swap 4 (BitVec.ofNat 32 fData.length)⟩
    match send headerSend fileF.image with
    | none => .error .failed
    | some bytes => sendFile sends fData fuel 0 0 bytes

/-- The loop that copies a file of size `fSize` in `curr_ss` and in `awget`: `i` is the counter,
`got` what has been received and `put` what has been sent on or written. -/
def copyFile (fSize : BitVec 32) (recvs puts : ℕ → Progress) :
    ℕ → ℕ → BitVec 32 → Bytes → Bytes → Bytes → Except Stop (Bytes × Bytes)
  | 0, _, _, _, _, _ => .error .outOfFuel
  | fuel + 1, call, i, stream, got, put =>
      if i < fSize then
        match recv (recvs call) bufSize stream with
        | none => .error .failed
        | some (buffer, stream) =>
            match send (puts call) buffer with
            | none => .error .failed
            | some bytes =>
                copyFile fSize recvs puts fuel (call + 1) (i + BitVec.ofNat 32 buffer.length) stream
                  (got ++ buffer) (put ++ bytes)
      else
        .ok (got, put)

/-- How far the calls get that handle the file at one place of the way, and what its `file_header`
holds before it is received. -/
structure Copier where
  file : FileHeader
  headerRecv : Progress
  recvs : ℕ → Progress
  headerPut : Progress
  puts : ℕ → Progress

structure Copied where
  fSize : BitVec 32
  received : Bytes
  forwarded : Bytes

def FileHeader.store (h : FileHeader) (bs : Bytes) : FileHeader :=
  ofImage (bs ++ h.image.drop bs.length)

def currSs (fuel : ℕ) (c : Copier) (stream : Bytes) : Except Stop Copied := do
  match recv c.headerRecv FileHeader.size stream with
  | none => .error .failed
  | some (bytes, stream) =>
      let file := c.file.store bytes
      -- the header goes on as it came, and is put in host order behind that
      match send c.headerPut file.image with
      | none => .error .failed
      | some sent => do
          let file := { file with fSize := swap 4 file.fSize }
          let (got, put) ← copyFile file.fSize c.recvs c.puts fuel 0 0 stream bytes sent
          .ok ⟨file.fSize, got, put⟩

/-- `awget` from where it waits for the file: the size announced, and what is written. -/
def awgetFile (fuel : ℕ) (c : Copier) (stream : Bytes) : Except Stop (BitVec 32 × Bytes) := do
  match recv c.headerRecv FileHeader.size stream with
  | none => .error .failed
  | some (bytes, stream) =>
      let recInfo := c.file.store bytes
      let recInfo := { recInfo with fSize := swap 4 recInfo.fSize }
      let (_, written) ← copyFile recInfo.fSize c.recvs c.puts fuel 0 0 stream [] []
      .ok (recInfo.fSize, written)

/-- The stepping stones on the way back, the one next to `last_ss` first, and the bytes that come
out behind them. -/
def wayBack (fuel : ℕ) : List Copier → Bytes → Except Stop (List Copied × Bytes)
  | [], stream => .ok ([], stream)
  | c :: copiers, stream => do
      let copied ← currSs fuel c stream
      let (rest, out) ← wayBack fuel copiers copied.forwarded
      .ok (copied :: rest, out)

def fetchFile (fuel : ℕ) (headerSend : Progress) (sends : ℕ → Progress) (copiers : List Copier)
    (awget : Copier) (fData : Bytes) : Except Stop (List Copied × BitVec 32 × Bytes) := do
  let stream ← lastSs fuel headerSend sends fData
  let (hops, stream) ← wayBack fuel copiers stream
  let result ← awgetFile fuel awget stream
  .ok (hops, result)

variable {sends recvs puts : ℕ → Progress} {fSize : BitVec 32} {fData stream got put : Bytes}
  {c : Copier}

/-! ### The loops -/

/-- **The file is sent.** Whatever part of a piece `send` takes, the loop goes on behind it. -/
theorem sendFile_returns (hsends : ∀ j, sends j ≠ .failed) (call cursor : ℕ) (sent : Bytes) :
    Returns (fun fuel => sendFile sends fData fuel call cursor sent)
      (sent ++ fData.drop cursor) := by
  induction hn : fData.length - cursor using Nat.strong_induction_on generalizing call cursor sent
    with
  | _ n ih =>
      by_cases hlt : cursor < fData.length
      · obtain ⟨bytes, hsend⟩ := exists_send (hsends call)
          ((fData.drop cursor).take (min bufSize (fData.length - cursor)))
        obtain ⟨hpart, hpos⟩ := send_spec hsend
        have hpiece : 0 < bytes.length := by
          refine hpos (List.ne_nil_of_length_pos ?_)
          have hbuf : bufSize = 8192 := rfl
          rw [List.length_take, List.length_drop]
          omega
        obtain ⟨rest, hrest⟩ := hpart.trans (List.take_prefix _ _)
        have hdrop : fData.drop (cursor + bytes.length) = rest := by
          rw [← List.drop_drop, ← hrest, List.drop_left]
        have hnext := ih _ (by omega) (call + 1) (cursor + bytes.length) (sent ++ bytes) rfl
        rw [hdrop, List.append_assoc, hrest] at hnext
        apply hnext.succ
        intro fuel
        rw [sendFile, if_pos hlt, hsend]
      · refine (returns_of_forall (f := fun _ => .ok _) fun _ => rfl).succ fun fuel => ?_
        rw [sendFile, if_neg hlt, List.drop_of_length_le (by omega), List.append_nil]

/-- **The file is copied.** However it arrives, the loop takes as many bytes as are announced. -/
theorem copyFile_returns (hrecvs : ∀ j, recvs j ≠ .failed) (hputs : ∀ j, puts j = .whole)
    (call i : ℕ) (stream got put : Bytes) (hsize : fSize.toNat = i + stream.length) :
    Returns (fun fuel => copyFile fSize recvs puts fuel call (BitVec.ofNat 32 i) stream got put)
      (got ++ stream, put ++ stream) := by
  have hlimit := fSize.isLt
  have hi : (BitVec.ofNat 32 i).toNat = i := toNat_ofNat_of_lt (by omega)
  -- on what is left of the stream, since a piece is never empty
  induction hn : stream.length using Nat.strong_induction_on generalizing call i stream got put with
  | _ n ih =>
      by_cases hlt : BitVec.ofNat 32 i < fSize
      · obtain ⟨buffer, rest, hrecv⟩ := exists_recv (hrecvs call) bufSize stream
        obtain ⟨rfl, -, hpos⟩ := recv_spec hrecv
        have hcount : i < fSize.toNat := by
          rw [← hi]
          exact hlt
        have hne : buffer ++ rest ≠ [] := List.ne_nil_of_length_pos (by omega)
        have hpiece := hpos (by decide) hne
        rw [List.length_append] at hsize hn
        have hnext := ih rest.length (by omega) (call + 1) (i + buffer.length) rest (got ++ buffer)
          (put ++ buffer) (by omega) (toNat_ofNat_of_lt (by omega)) rfl
        rw [List.append_assoc, List.append_assoc] at hnext
        apply hnext.succ
        intro fuel
        rw [copyFile, if_pos hlt, hrecv]
        simp only [hputs, send_whole, BitVec.ofNat_add]
      · have hcount : fSize.toNat ≤ i := by
          rw [← hi]
          exact Nat.le_of_not_lt hlt
        obtain rfl : stream = [] := List.eq_nil_of_length_eq_zero (by omega)
        refine (returns_of_forall (f := fun _ => .ok _) fun _ => rfl).succ fun fuel => ?_
        rw [copyFile, if_neg hlt, List.append_nil, List.append_nil]

/-! ### The way of a file -/

/-- What goes over every connection: the header with the size in network order, and the file. -/
def fileStream (fData : Bytes) : Bytes :=
  FileHeader.image ⟨1, swap 4 (BitVec.ofNat 32 fData.length)⟩ ++ fData

theorem FileHeader.store_image (h h' : FileHeader) : h.store h'.image = h' := by
  have hnone : h.image.drop h'.image.length = [] :=
    List.drop_of_length_le (by rw [length_image, length_image])
  rw [store, hnone, List.append_nil, ofImage_image]

/-- The header is received whole, data in pieces of any size, and what is put is put whole. -/
structure Copier.Smooth (c : Copier) : Prop where
  headerRecv : c.headerRecv = .whole
  recvs : ∀ j, c.recvs j ≠ .failed
  headerPut : c.headerPut = .whole
  puts : ∀ j, c.puts j = .whole

theorem lastSs_returns (hsends : ∀ j, sends j ≠ .failed) (hne : fData ≠ []) :
    Returns (fun fuel => lastSs fuel .whole sends fData) (fileStream fData) := by
  apply (sendFile_returns hsends 0 0 _).congr
  intro fuel
  rw [lastSs, if_neg hne]
  simp only [send_whole]

theorem toNat_length (hmax : fData.length < 2 ^ 31) :
    (BitVec.ofNat 32 fData.length).toNat = fData.length :=
  toNat_ofNat_of_lt (by omega)

/-- **A stepping stone passes on the file.** It forwards the bytes it receives. -/
theorem currSs_returns (hsmooth : c.Smooth) (hmax : fData.length < 2 ^ 31) :
    Returns (fun fuel => currSs fuel c (fileStream fData))
      ⟨BitVec.ofNat 32 fData.length, fileStream fData, fileStream fData⟩ := by
  have hcopy := copyFile_returns hsmooth.recvs hsmooth.puts 0 0 fData
    (FileHeader.image ⟨1, swap 4 (BitVec.ofNat 32 fData.length)⟩)
    (FileHeader.image ⟨1, swap 4 (BitVec.ofNat 32 fData.length)⟩)
    ((toNat_length hmax).trans (Nat.zero_add _).symm)
  refine (hcopy.map fun r => (⟨BitVec.ofNat 32 fData.length, r.1, r.2⟩ : Copied)).congr
    fun fuel => ?_
  rw [currSs, fileStream, hsmooth.headerRecv, recv_whole (FileHeader.length_image _)]
  simp only [FileHeader.store_image, hsmooth.headerPut, send_whole, swap_swap (n := 4) rfl]
  rfl

theorem awgetFile_returns (hsmooth : c.Smooth) (hmax : fData.length < 2 ^ 31) :
    Returns (fun fuel => awgetFile fuel c (fileStream fData))
      (BitVec.ofNat 32 fData.length, fData) := by
  have hcopy := copyFile_returns hsmooth.recvs hsmooth.puts 0 0 fData [] []
    ((toNat_length hmax).trans (Nat.zero_add _).symm)
  refine (hcopy.map fun r => (BitVec.ofNat 32 fData.length, r.2)).congr fun fuel => ?_
  rw [awgetFile, fileStream, hsmooth.headerRecv, recv_whole (FileHeader.length_image _)]
  simp only [FileHeader.store_image, swap_swap (n := 4) rfl]
  rfl

theorem wayBack_returns {copiers : List Copier} (hsmooth : ∀ c ∈ copiers, c.Smooth)
    (hmax : fData.length < 2 ^ 31) :
    Returns (fun fuel => wayBack fuel copiers (fileStream fData))
      (copiers.map fun _ => ⟨BitVec.ofNat 32 fData.length, fileStream fData, fileStream fData⟩,
        fileStream fData) := by
  induction copiers with
  | nil => exact returns_of_forall fun _ => rfl
  | cons c copiers ih =>
      have hrest := ih fun c' hc' => hsmooth c' (.tail c hc')
      exact (currSs_returns (hsmooth c (.head copiers)) hmax).bind
        (k := fun copied fuel => do
          let (rest, out) ← wayBack fuel copiers copied.forwarded
          .ok (copied :: rest, out))
        (hrest.map fun r => (⟨BitVec.ofNat 32 fData.length, fileStream fData, fileStream fData⟩
          :: r.1, r.2))

theorem fetchFile_returns (hsends : ∀ j, sends j ≠ .failed) {copiers : List Copier}
    (hcopiers : ∀ c ∈ copiers, c.Smooth) {awget : Copier} (hawget : awget.Smooth)
    (hne : fData ≠ []) (hmax : fData.length < 2 ^ 31) :
    Returns (fun fuel => fetchFile fuel .whole sends copiers awget fData)
      (copiers.map fun _ => ⟨BitVec.ofNat 32 fData.length, fileStream fData, fileStream fData⟩,
        BitVec.ofNat 32 fData.length, fData) := by
  have hback := (wayBack_returns hcopiers hmax).bind
    (k := fun r fuel => awgetFile fuel awget r.2 >>= fun result => .ok (r.1, result))
    ((awgetFile_returns hawget hmax).map (Prod.mk _))
  have hfetch := (lastSs_returns hsends hne).bind
    (k := fun stream fuel => wayBack fuel copiers stream >>= fun r =>
      awgetFile fuel awget r.2 >>= fun result => .ok (r.1, result)) hback
  exact hfetch.congr fun fuel => rfl

/-- **The way of a file.** However it is cut behind its header, which is received whole and so has
been sent whole, every loop ends, every stepping stone decodes the size of the file and forwards
what it receives, and `awget` writes the file. -/
theorem fetchFile_delivers (hsends : ∀ j, sends j ≠ .failed) {copiers : List Copier}
    (hcopiers : ∀ c ∈ copiers, c.Smooth) {awget : Copier} (hawget : awget.Smooth)
    (hne : fData ≠ []) (hmax : fData.length < 2 ^ 31) :
    ∃ hops fSize, Returns (fun fuel => fetchFile fuel .whole sends copiers awget fData)
        (hops, fSize, fData)
      ∧ fSize.toNat = fData.length ∧ hops.length = copiers.length
      ∧ ∀ hop ∈ hops, hop.received = fileStream fData ∧ hop.forwarded = hop.received
        ∧ hop.fSize.toNat = fData.length := by
  refine ⟨_, _, fetchFile_returns hsends hcopiers hawget hne hmax, toNat_length hmax,
    by rw [List.length_map], fun hop hhop => ?_⟩
  obtain ⟨-, -, rfl⟩ := List.mem_map.mp hhop
  exact ⟨rfl, rfl, toNat_length hmax⟩

/-- A place of the way to which data comes byte by byte. -/
def sampleCopier : Copier := ⟨⟨0, 0⟩, .whole, fun _ => .upTo 1, .whole, fun _ => .whole⟩

theorem sampleCopier_smooth : sampleCopier.Smooth :=
  ⟨rfl, by simp [sampleCopier], rfl, fun _ => rfl⟩

theorem fetchFile_delivers_sample :
    ∃ hops fSize, Returns (fun fuel => fetchFile fuel .whole (fun _ => .upTo 2)
        [sampleCopier, sampleCopier] sampleCopier (ofString "file")) (hops, fSize, ofString "file")
      ∧ fSize.toNat = 4 ∧ hops.length = 2
      ∧ ∀ hop ∈ hops, hop.received = fileStream (ofString "file") ∧ hop.forwarded = hop.received
        ∧ hop.fSize.toNat = 4 :=
  fetchFile_delivers (by simp) (by simp [sampleCopier_smooth]) sampleCopier_smooth (by decide)
    (by decide)

end Networking.Relay
