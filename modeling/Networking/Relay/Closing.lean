import Networking.Relay.File

/-!
# A peer that closes

When the peer has closed its end and everything has been read, `recv` returns 0, which is neither an
error nor progress. The receive loops of the relay only look for -1, so each of them ends exactly if
the stream holds what the loop waits for.
-/

namespace Networking.Relay

open Wire Segment Fuel

variable {recvs puts : ℕ → Progress} {fSize i : BitVec 32} {stream got put : Bytes}

theorem whole_ne_failed (j : ℕ) : (fun _ : ℕ => Progress.whole) j ≠ .failed := nofun

theorem failed_ne_outOfFuel : Stop.failed ≠ .outOfFuel := by
  decide

/-! ### The header -/

theorem recvHeader_closed (hrecvs : ∀ j, recvs j ≠ .failed) (hlt : got.length < ListHeader.size)
    (fuel call : ℕ) : recvHeader recvs fuel call got [] = .error .outOfFuel := by
  induction fuel generalizing call with
  | zero => rfl
  | succ fuel ih =>
      rw [recvHeader, if_pos hlt, recv_closed (hrecvs call)]
      dsimp only
      rw [List.append_nil, ih]

theorem recvHeader_ends_iff (hrecvs : ∀ j, recvs j ≠ .failed) (call : ℕ) (got stream : Bytes) :
    Ends .outOfFuel (fun fuel => recvHeader recvs fuel call got stream)
      ↔ ListHeader.size ≤ got.length + stream.length := by
  induction hn : stream.length using Nat.strong_induction_on generalizing call got stream with
  | _ n ih =>
      by_cases hlt : got.length < ListHeader.size
      · by_cases hne : stream = []
        · subst hne
          obtain rfl : 0 = n := hn
          exact iff_of_false (not_ends fun fuel => recvHeader_closed hrecvs hlt fuel call)
            (by omega)
        · obtain ⟨bytes, rest, hrecv⟩ :=
            exists_recv (hrecvs call) (ListHeader.size - got.length) stream
          obtain ⟨rfl, -, hpos⟩ := recv_spec hrecv
          have hpiece := hpos (by omega) hne
          rw [List.length_append] at hn
          have hnext := ih rest.length (by omega) (call + 1) (got ++ bytes) rest rfl
          rw [List.length_append] at hnext
          rw [← hn, ← Nat.add_assoc, ← hnext]
          refine ends_succ_iff rfl fun fuel => ?_
          rw [recvHeader, if_pos hlt, hrecv]
      · have hdone : ∀ fuel, recvHeader recvs (fuel + 1) call got stream
            = .ok (ListHeader.ofImage got, stream) := by
          intro fuel
          rw [recvHeader, if_neg hlt]
        exact iff_of_true (ends_of_ok hdone) (by omega)

/-! ### The file -/

/-- The bytes behind the header last for the size announced. The counter is an `int`: for a size
so close to `2 ^ 32` that a piece can carry the counter past it, they have to last for what the
counter shows. -/
def Lasts (fSize : BitVec 32) (length : ℕ) : Prop :=
  if fSize.toNat ≤ 2 ^ 32 - bufSize then fSize.toNat ≤ length else fSize.toNat ≤ length % 2 ^ 32

instance (fSize : BitVec 32) (length : ℕ) : Decidable (Lasts fSize length) := by
  unfold Lasts
  infer_instance

/-- What a piece adds to the counter, it takes from the stream. -/
theorem lasts_add_iff (hlt : i < fSize) {piece : ℕ} (hpiece : piece ≤ bufSize) (rest : ℕ) :
    Lasts fSize ((i + BitVec.ofNat 32 piece).toNat + rest)
      ↔ Lasts fSize (i.toNat + (piece + rest)) := by
  have hcount : i.toNat < fSize.toNat := hlt
  have hbuf : bufSize = 8192 := rfl
  rw [BitVec.toNat_add, BitVec.toNat_ofNat, Nat.add_mod_mod, Lasts, Lasts]
  split_ifs with hsmall
  · rw [Nat.mod_eq_of_lt (by omega), Nat.add_assoc]
  · rw [Nat.mod_add_mod, Nat.add_assoc]

theorem not_lasts_zero (hlt : i < fSize) : ¬Lasts fSize (i.toNat + 0) := by
  have hcount : i.toNat < fSize.toNat := hlt
  rw [Lasts]
  split_ifs <;> omega

theorem lt_of_not_lasts (hsmall : fSize.toNat ≤ 2 ^ 32 - bufSize) {length : ℕ}
    (h : ¬Lasts fSize (i.toNat + length)) : i < fSize := by
  rw [Lasts, if_pos hsmall] at h
  rw [BitVec.lt_def]
  omega

theorem copyFile_ends (hrecvs : ∀ j, recvs j ≠ .failed) (call : ℕ) (i : BitVec 32)
    (stream got put : Bytes) (hlasts : Lasts fSize (i.toNat + stream.length)) :
    Ends .outOfFuel fun fuel => copyFile fSize recvs puts fuel call i stream got put := by
  induction hn : stream.length using Nat.strong_induction_on generalizing call i stream got put with
  | _ n ih =>
      by_cases hlt : i < fSize
      · obtain ⟨buffer, rest, hrecv⟩ := exists_recv (hrecvs call) bufSize stream
        obtain ⟨rfl, hmost, hpos⟩ := recv_spec hrecv
        by_cases hne : buffer ++ rest = []
        · rw [hne] at hlasts
          exact absurd hlasts (not_lasts_zero hlt)
        · have hpiece := hpos (by decide) hne
          rw [List.length_append] at hn hlasts
          cases hsend : send (puts call) buffer with
          | none =>
              apply ends_of_error failed_ne_outOfFuel
              intro fuel
              rw [copyFile, if_pos hlt, hrecv]
              dsimp only
              rw [hsend]
          | some bytes =>
              have hnext := ih rest.length (by omega) (call + 1)
                (i + BitVec.ofNat 32 buffer.length) rest (got ++ buffer) (put ++ bytes)
                ((lasts_add_iff hlt hmost _).mpr hlasts) rfl
              apply hnext.succ
              intro fuel
              rw [copyFile, if_pos hlt, hrecv]
              dsimp only
              rw [hsend]
      · apply ends_of_ok (a := (got, put))
        intro fuel
        rw [copyFile, if_neg hlt]

/-- A copy that stays below the size announced, whatever comes, never ends. -/
theorem copyFile_never (hrecvs : ∀ j, recvs j ≠ .failed) (J : ℕ → BitVec 32 → Bytes → Prop)
    (hlt : ∀ call i stream, J call i stream → i < fSize)
    (hnext : ∀ call i stream buffer rest, J call i stream →
      recv (recvs call) bufSize stream = some (buffer, rest) →
        J (call + 1) (i + BitVec.ofNat 32 buffer.length) rest)
    (fuel call : ℕ) (i : BitVec 32) (stream got put : Bytes) (hJ : J call i stream) :
    copyFile fSize recvs (fun _ => .whole) fuel call i stream got put = .error .outOfFuel := by
  induction fuel generalizing call i stream got put with
  | zero => rfl
  | succ fuel ih =>
      obtain ⟨buffer, rest, hrecv⟩ := exists_recv (hrecvs call) bufSize stream
      rw [copyFile, if_pos (hlt call i stream hJ), hrecv]
      dsimp only
      rw [send_whole]
      exact ih _ _ _ _ _ (hnext call i stream buffer rest hJ hrecv)

/-- Byte by byte, but past the end of the counter in one piece. -/
def jumping (fSize : BitVec 32) (call : ℕ) : Progress :=
  if call % fSize.toNat + 1 = fSize.toNat then .upTo (2 ^ 32 - fSize.toNat + 1) else .upTo 1

theorem jumping_ne_failed (fSize : BitVec 32) (call : ℕ) : jumping fSize call ≠ .failed := by
  unfold jumping
  split_ifs <;> exact nofun

/-- The counter along such a stream, and what it shows when the stream is at its end. -/
structure Jumps (fSize : BitVec 32) (call : ℕ) (i : BitVec 32) (stream : Bytes) : Prop where
  lt : i < fSize
  short : ¬Lasts fSize (i.toNat + stream.length)
  count : stream = [] ∨ i.toNat = call % fSize.toNat

theorem Jumps.next {call : ℕ} {buffer rest : Bytes} (hlarge : 2 ^ 32 - bufSize < fSize.toNat)
    (h : Jumps fSize call i stream)
    (hrecv : recv (jumping fSize call) bufSize stream = some (buffer, rest)) :
    Jumps fSize (call + 1) (i + BitVec.ofNat 32 buffer.length) rest := by
  obtain ⟨rfl, hmost, -⟩ := recv_spec hrecv
  have hshort := h.short
  rw [List.length_append] at hshort
  have hshort' := mt (lasts_add_iff h.lt hmost rest.length).mp hshort
  by_cases hnil : buffer ++ rest = []
  · obtain ⟨rfl, rfl⟩ := List.append_eq_nil_iff.mp hnil
    rw [List.length_nil, BitVec.add_zero] at hshort' ⊢
    exact ⟨h.lt, hshort', .inl rfl⟩
  · have hcount := h.count.resolve_left hnil
    have hsome := List.length_pos_iff.mpr hnil
    rw [List.length_append] at hsome
    have hbuf : bufSize = 8192 := rfl
    have hmax := fSize.isLt
    have hlt : i.toNat < fSize.toNat := h.lt
    have hmod : (call + 1) % fSize.toNat = (i.toNat + 1) % fSize.toNat := by
      rw [hcount, Nat.mod_add_mod]
    have hsum : (i + BitVec.ofNat 32 buffer.length).toNat = (i.toNat + buffer.length) % 2 ^ 32 := by
      rw [BitVec.toNat_add, BitVec.toNat_ofNat, Nat.add_mod_mod]
    rw [Lasts, if_neg (by omega)] at hshort
    unfold jumping at hrecv
    rw [← hcount] at hrecv
    split_ifs at hrecv with hlast
    · have hlen := length_of_recv_upTo hrecv
      rw [List.length_append] at hlen
      have hzero : (i + BitVec.ofNat 32 buffer.length).toNat = 0 := by
        omega
      rw [hlast, Nat.mod_self] at hmod
      refine ⟨?_, hshort', .inr (hzero.trans hmod.symm)⟩
      rw [BitVec.lt_def, hzero]
      omega
    · have hlen := length_of_recv_upTo hrecv
      rw [List.length_append] at hlen
      have hone : buffer.length = 1 := by
        omega
      rw [hone] at hsum hshort' ⊢
      replace hsum := hsum.trans (Nat.mod_eq_of_lt (by omega))
      replace hmod := hmod.trans (Nat.mod_eq_of_lt (by omega))
      refine ⟨?_, hshort', .inr (hsum.trans hmod.symm)⟩
      rw [BitVec.lt_def, hsum]
      omega

/-- **The copy of a file ends** on every cut of the stream exactly when the stream lasts. -/
theorem copyFile_ends_iff (stream got put : Bytes) :
    (∀ recvs puts, (∀ j, recvs j ≠ .failed) →
        Ends .outOfFuel fun fuel => copyFile fSize recvs puts fuel 0 0 stream got put)
      ↔ Lasts fSize stream.length := by
  have hzero : (0 : BitVec 32).toNat + stream.length = stream.length := Nat.zero_add _
  constructor
  · intro hends
    by_contra hshort
    rw [← hzero] at hshort
    have hpos : (0 : BitVec 32) < fSize := by
      by_contra hnot
      have hsize : fSize.toNat = 0 := by simpa [BitVec.lt_def] using hnot
      exact hshort (by simp [Lasts, hsize])
    by_cases hsmall : fSize.toNat ≤ 2 ^ 32 - bufSize
    · have hnever := copyFile_never whole_ne_failed
        (fun _ i stream => ¬Lasts fSize (i.toNat + stream.length))
        (fun _ i stream h => lt_of_not_lasts hsmall h) fun _ i stream buffer rest h hrecv => ?_
      · exact not_ends (fun fuel => hnever fuel 0 0 stream got put hshort)
          (hends _ (fun _ => .whole) whole_ne_failed)
      · obtain ⟨rfl, hmost, -⟩ := recv_spec hrecv
        rw [List.length_append] at h
        exact mt (lasts_add_iff (lt_of_not_lasts hsmall h) hmost rest.length).mp h
    · have hnever := copyFile_never (jumping_ne_failed fSize) (Jumps fSize)
        (fun _ _ _ h => h.lt) (fun _ _ _ _ _ h => h.next (Nat.lt_of_not_le hsmall))
      exact not_ends (fun fuel => hnever fuel 0 0 stream got put
        ⟨hpos, hshort, .inr (Nat.zero_mod _).symm⟩) (hends _ _ (jumping_ne_failed fSize))
  · intro hlasts recvs puts hrecvs
    rw [← hzero] at hlasts
    exact copyFile_ends hrecvs 0 0 stream got put hlasts

/-! ### The loops of the relay -/

def HeaderEnds (stream : Bytes) : Prop :=
  ∀ recvs, (∀ j, recvs j ≠ .failed) →
    Ends .outOfFuel fun fuel => recvHeader recvs fuel 0 [] stream

/-- `run`, from where it waits for the file, ends on a stream, of which the first call stores a part
over what `file` holds. -/
def FileEnds {α : Type} (run : ℕ → Copier → Bytes → Except Stop α) (file : FileHeader)
    (headerRecv : Progress) (stream : Bytes) : Prop :=
  ∀ recvs headerPut puts, (∀ j, recvs j ≠ .failed) →
    Ends .outOfFuel fun fuel => run fuel ⟨file, headerRecv, recvs, headerPut, puts⟩ stream

/-- What comes behind the header lasts for the size in it. -/
def Delivered (file : FileHeader) (headerRecv : Progress) (stream : Bytes) : Prop :=
  match recv headerRecv FileHeader.size stream with
  | none => True
  | some (bytes, rest) => Lasts (swap 4 (file.store bytes).fSize) rest.length

theorem headerEnds_iff (stream : Bytes) :
    HeaderEnds stream ↔ ListHeader.size ≤ stream.length := by
  have hiff : ∀ recvs : ℕ → Progress, (∀ j, recvs j ≠ .failed) →
      (Ends .outOfFuel (fun fuel => recvHeader recvs fuel 0 [] stream)
        ↔ ListHeader.size ≤ stream.length) := by
    intro recvs hrecvs
    have hends := recvHeader_ends_iff hrecvs 0 [] stream
    rwa [List.length_nil, Nat.zero_add] at hends
  constructor
  · intro hends
    exact (hiff _ whole_ne_failed).mp (hends _ whole_ne_failed)
  · intro hsize recvs hrecvs
    exact (hiff recvs hrecvs).mpr hsize

variable {c : Copier} {bytes rest : Bytes}

theorem currSs_eq (hrecv : recv c.headerRecv FileHeader.size stream = some (bytes, rest))
    {sent : Bytes} (hsend : send c.headerPut (c.file.store bytes).image = some sent) (fuel : ℕ) :
    currSs fuel c stream
      = copyFile (swap 4 (c.file.store bytes).fSize) c.recvs c.puts fuel 0 0 rest bytes sent
        >>= fun r => .ok ⟨swap 4 (c.file.store bytes).fSize, r.1, r.2⟩ := by
  rw [currSs, hrecv]
  dsimp only
  rw [hsend]

theorem awgetFile_eq (hrecv : recv c.headerRecv FileHeader.size stream = some (bytes, rest))
    (fuel : ℕ) :
    awgetFile fuel c stream
      = copyFile (swap 4 (c.file.store bytes).fSize) c.recvs c.puts fuel 0 0 rest [] []
        >>= fun r => .ok (swap 4 (c.file.store bytes).fSize, r.2) := by
  rw [awgetFile, hrecv]

theorem currSs_ends_iff (file : FileHeader) (headerRecv : Progress) (stream : Bytes) :
    FileEnds currSs file headerRecv stream ↔ Delivered file headerRecv stream := by
  unfold FileEnds Delivered
  cases hrecv : recv headerRecv FileHeader.size stream with
  | none =>
      refine iff_of_true (fun recvs headerPut puts _ =>
        ends_of_error failed_ne_outOfFuel fun fuel => ?_) trivial
      rw [currSs]
      dsimp only
      rw [hrecv]
  | some r =>
      dsimp only
      constructor
      · intro hends
        rw [← copyFile_ends_iff r.2 r.1 (file.store r.1).image]
        intro recvs puts hrecvs
        have hrun := hends recvs .whole puts hrecvs
        simp only [currSs_eq (c := ⟨file, headerRecv, recvs, .whole, puts⟩) hrecv (send_whole _)]
          at hrun
        exact (ends_map_iff _).mp hrun
      · intro hlasts recvs headerPut puts hrecvs
        cases hsend : send headerPut (file.store r.1).image with
        | none =>
            apply ends_of_error failed_ne_outOfFuel
            intro fuel
            rw [currSs]
            dsimp only
            rw [hrecv]
            dsimp only
            rw [hsend]
        | some sent =>
            have hcopy := (copyFile_ends_iff r.2 r.1 sent).mpr hlasts recvs puts hrecvs
            simp only [currSs_eq (c := ⟨file, headerRecv, recvs, headerPut, puts⟩) hrecv hsend]
            exact (ends_map_iff _).mpr hcopy

theorem awgetFile_ends_iff (file : FileHeader) (headerRecv : Progress) (stream : Bytes) :
    FileEnds awgetFile file headerRecv stream ↔ Delivered file headerRecv stream := by
  unfold FileEnds Delivered
  cases hrecv : recv headerRecv FileHeader.size stream with
  | none =>
      refine iff_of_true (fun recvs headerPut puts _ =>
        ends_of_error failed_ne_outOfFuel fun fuel => ?_) trivial
      rw [awgetFile]
      dsimp only
      rw [hrecv]
  | some r =>
      dsimp only
      rw [← copyFile_ends_iff r.2 [] []]
      have hrun : ∀ recvs headerPut puts,
          Ends .outOfFuel
              (fun fuel => awgetFile fuel ⟨file, headerRecv, recvs, headerPut, puts⟩ stream)
            ↔ Ends .outOfFuel fun fuel =>
              copyFile (swap 4 (file.store r.1).fSize) recvs puts fuel 0 0 r.2 [] [] := by
        intro recvs headerPut puts
        simp only [awgetFile_eq (c := ⟨file, headerRecv, recvs, headerPut, puts⟩) hrecv]
        exact ends_map_iff _
      constructor
      · intro hends recvs puts hrecvs
        exact (hrun recvs .whole puts).mp (hends recvs .whole puts hrecvs)
      · intro hends recvs headerPut puts hrecvs
        exact (hrun recvs headerPut puts).mpr (hends recvs puts hrecvs)

/-- **The receive loops end**, however the stream is cut, exactly when it holds a whole
`list_header`, or behind the `file_header` the bytes that this announces. -/
theorem loops_end_iff (stream : Bytes) (file : FileHeader) (headerRecv : Progress) :
    (HeaderEnds stream ↔ ListHeader.size ≤ stream.length)
      ∧ (FileEnds currSs file headerRecv stream ↔ Delivered file headerRecv stream)
      ∧ (FileEnds awgetFile file headerRecv stream ↔ Delivered file headerRecv stream) := by
  exact ⟨headerEnds_iff stream, currSs_ends_iff file headerRecv stream,
    awgetFile_ends_iff file headerRecv stream⟩

/-- A peer that closes at once leaves the header loop asking for ever. -/
theorem not_loops_end :
    ¬∀ (stream : Bytes) (file : FileHeader) (headerRecv : Progress), headerRecv ≠ .failed →
      HeaderEnds stream ∧ FileEnds currSs file headerRecv stream
        ∧ FileEnds awgetFile file headerRecv stream := by
  intro hends
  have hshort : ([] : Bytes).length < ListHeader.size := by decide
  have hnever := recvHeader_closed whole_ne_failed hshort
  exact not_ends (fun fuel => hnever fuel 0) ((hends [] ⟨0, 0⟩ .whole nofun).1 _ whole_ne_failed)

end Networking.Relay
