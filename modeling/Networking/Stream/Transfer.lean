import Networking.Lib.Fuel
import Networking.Lib.Segment
import Networking.Stream.Types

/-!
# `Send` and `Recv`

Both repeat a system call until all the bytes have been moved or a call fails. The kernel decides
how many bytes each call moves, so what holds here holds for every such sequence.
-/

namespace Networking.Stream

open Fuel Segment Wire

/-- Why a call has no result: it goes on for ever, an `int` overflows, or a write misses its buffer.
-/
inductive Stuck
  | fuel
  | overflow
  | overrun
  deriving DecidableEq

/-- What `Send` returns, with the bytes handed to the kernel and the number of calls of `send`. -/
structure Sent where
  ret : ℤ
  taken : Bytes
  calls : ℕ
  deriving DecidableEq

/-- The loop of `Send`. The sum in `total` has to be an `int`. -/
def sendLoop (sends : ℕ → Progress) (data : Bytes) :
    ℕ → ℕ → ℕ → ℤ → Bytes → Except Stuck Sent
  | 0, _, _, _, _ => .error .fuel
  | fuel + 1, call, total, ret, taken =>
      if total = data.length then
        .ok ⟨ret, taken, call⟩
      else
        match Segment.send (sends call) (data.drop total) with
        | none => .ok ⟨-1, taken, call + 1⟩
        | some bytes =>
            if total + bytes.length < 2 ^ 31 then
              sendLoop sends data fuel (call + 1) (total + bytes.length) bytes.length
                (taken ++ bytes)
            else
              .error .overflow

def Send (sends : ℕ → Progress) (data : Bytes) (fuel : ℕ) : Except Stuck Sent :=
  sendLoop sends data fuel 0 0 0 []

/-- What `Recv` returns, with the buffer, the bytes still to come and the number of calls of `recv`.
-/
structure Received where
  ret : ℤ
  data : Bytes
  stream : Bytes
  calls : ℕ
  deriving DecidableEq

/-- The bytes from `total` on replaced by `bytes`. -/
def store (data : Bytes) (total : ℕ) (bytes : Bytes) : Bytes :=
  data.take total ++ bytes ++ data.drop (total + bytes.length)

def recvLoop (recvs : ℕ → Progress) (size : ℕ) :
    ℕ → ℕ → ℕ → ℤ → Bytes → Bytes → Except Stuck Received
  | 0, _, _, _, _, _ => .error .fuel
  | fuel + 1, call, total, ret, data, stream =>
      if total = size then
        .ok ⟨ret, data, stream, call⟩
      else
        match recv (recvs call) (size - total) stream with
        | none => .ok ⟨-1, data, stream, call + 1⟩
        | some (bytes, stream) =>
            if total + bytes.length < 2 ^ 31 then
              recvLoop recvs size fuel (call + 1) (total + bytes.length) bytes.length
                (store data total bytes) stream
            else
              .error .overflow

def Recv (recvs : ℕ → Progress) (size : ℕ) (data stream : Bytes) (fuel : ℕ) :
    Except Stuck Received :=
  recvLoop recvs size fuel 0 0 0 data stream

variable {sends recvs : ℕ → Progress} {size call total fuel : ℕ} {ret : ℤ}
  {data stream taken got rest : Bytes}

/-! ### What is reported -/

/-- The result is -1 exactly when a call failed, which is then the last one. -/
structure Reports (results : ℕ → Progress) (ret : ℤ) (calls : ℕ) : Prop where
  ret_iff : ret = -1 ↔ ∃ k < calls, results k = .failed
  last : ∀ k < calls, results k = .failed → k + 1 = calls

theorem reports_done (hret : 0 ≤ ret) (hbefore : ∀ k < call, sends k ≠ .failed) :
    Reports sends ret call := by
  constructor
  · apply iff_of_false
    · omega
    · rintro ⟨k, hk, hfailed⟩
      exact hbefore k hk hfailed
  · intro k hk hfailed
    exact absurd hfailed (hbefore k hk)

theorem reports_failed (hfailed : sends call = .failed)
    (hbefore : ∀ k < call, sends k ≠ .failed) : Reports sends (-1) (call + 1) := by
  constructor
  · exact iff_of_true rfl ⟨call, Nat.lt_succ_self call, hfailed⟩
  · intro k hk hk'
    by_contra hne
    exact hbefore k (by omega) hk'

theorem forall_lt_succ_ne_failed (hcall : sends call ≠ .failed)
    (hbefore : ∀ k < call, sends k ≠ .failed) : ∀ k < call + 1, sends k ≠ .failed := by
  intro k hk
  rcases Nat.lt_succ_iff_lt_or_eq.mp hk with hlt | rfl
  · exact hbefore k hlt
  · exact hcall

theorem send_eq_none_iff {p : Progress} : Segment.send p data = none ↔ p = .failed := by
  cases p with
  | failed => exact iff_of_true rfl rfl
  | upTo count => exact iff_of_false nofun nofun
  | whole => exact iff_of_false nofun nofun

theorem recv_eq_none_iff {p : Progress} : recv p size stream = none ↔ p = .failed := by
  cases p with
  | failed => exact iff_of_true rfl rfl
  | upTo count => exact iff_of_false nofun nofun
  | whole => exact iff_of_false nofun nofun

/-! ### Sending -/

/-- The kernel got a prefix of the data, and all of it unless a call failed. -/
structure Sends (sends : ℕ → Progress) (data : Bytes) (r : Sent) : Prop where
  inOrder : r.taken <+: data
  all : (∀ k < r.calls, sends k ≠ .failed) → r.taken = data
  reports : Reports sends r.ret r.calls

theorem take_append_of_isPrefix_drop {bytes : Bytes} (hbytes : bytes <+: data.drop total) :
    data.take total ++ bytes = data.take (total + bytes.length) := by
  rw [List.take_add, ← List.prefix_iff_eq_take.mp hbytes]

/-- The bytes handed over so far are the first `total` ones. -/
theorem sendLoop_sends {r : Sent} (hret : 0 ≤ ret) (hbefore : ∀ k < call, sends k ≠ .failed)
    (htaken : taken = data.take total)
    (h : sendLoop sends data fuel call total ret taken = .ok r) : Sends sends data r := by
  induction fuel generalizing call total ret taken with
  | zero => cases h
  | succ fuel ih =>
      rw [sendLoop] at h
      split_ifs at h with hdone
      · cases h
        refine ⟨?_, fun _ => ?_, reports_done hret hbefore⟩
        · rw [htaken]
          exact List.take_prefix total data
        · rw [htaken, hdone, List.take_length]
      · cases hsend : Segment.send (sends call) (data.drop total) with
        | none =>
            rw [hsend] at h
            cases h
            have hfailed := send_eq_none_iff.mp hsend
            refine ⟨?_, fun hall => ?_, reports_failed hfailed hbefore⟩
            · rw [htaken]
              exact List.take_prefix total data
            · exact absurd hfailed (hall call (Nat.lt_succ_self call))
        | some bytes =>
            rw [hsend] at h
            dsimp only at h
            split_ifs at h
            have hok : sends call ≠ .failed := fun hfailed => by
              rw [send_eq_none_iff.mpr hfailed] at hsend
              cases hsend
            refine ih (Int.natCast_nonneg _) (forall_lt_succ_ne_failed hok hbefore) ?_ h
            rw [htaken]
            exact take_append_of_isPrefix_drop (send_spec hsend).1

/-- Every call but a failing one makes progress. -/
theorem sendLoop_returns (sends : ℕ → Progress) (hdata : data.length < 2 ^ 31)
    (htotal : total ≤ data.length) (call : ℕ) (ret : ℤ) (taken : Bytes) :
    ∃ r, Returns (fun fuel => sendLoop sends data fuel call total ret taken) r := by
  induction hn : data.length - total using Nat.strong_induction_on
    generalizing call total ret taken with
  | _ n ih =>
      by_cases hdone : total = data.length
      · refine ⟨⟨ret, taken, call⟩, returns_of_ok fun fuel => ?_⟩
        rw [sendLoop, if_pos hdone]
      · cases hsend : Segment.send (sends call) (data.drop total) with
        | none =>
            refine ⟨⟨-1, taken, call + 1⟩, returns_of_ok fun fuel => ?_⟩
            rw [sendLoop, if_neg hdone, hsend]
        | some bytes =>
            obtain ⟨hfront, hpos⟩ := send_spec hsend
            have hne : data.drop total ≠ [] := by
              rw [Ne, List.drop_eq_nil_iff]
              omega
            have hsome := hpos hne
            have hle := hfront.length_le
            rw [List.length_drop] at hle
            obtain ⟨r, hr⟩ := ih (data.length - (total + bytes.length)) (by omega) (by omega)
              (call + 1) bytes.length (taken ++ bytes) rfl
            refine ⟨r, hr.succ fun fuel => ?_⟩
            rw [sendLoop, if_neg hdone, hsend]
            exact if_pos (by omega)

theorem exists_Send (sends : ℕ → Progress) (hdata : data.length < 2 ^ 31) :
    ∃ r, Returns (Send sends data) r ∧ Sends sends data r := by
  obtain ⟨r, hr⟩ := sendLoop_returns sends hdata (Nat.zero_le _) 0 0 []
  refine ⟨r, hr, ?_⟩
  obtain ⟨depth, hdepth⟩ := hr
  exact sendLoop_sends le_rfl (fun k hk => absurd hk (Nat.not_lt_zero k)) List.take_zero.symm
    (hdepth depth le_rfl)

/-! ### Receiving -/

/-- The next bytes of the stream are at the start of the buffer, `size` of them unless a call
failed, and the rest of the buffer is what it was. -/
structure Receives (recvs : ℕ → Progress) (size : ℕ) (data stream got : Bytes) (r : Received) :
    Prop where
  next : stream = got ++ r.stream
  data_eq : r.data = got ++ data.drop got.length
  length_le : got.length ≤ size
  length_lt : got.length < 2 ^ 31
  all : (∀ k < r.calls, recvs k ≠ .failed) → got.length = size
  reports : Reports recvs r.ret r.calls

theorem store_append (got data bytes : Bytes) :
    store (got ++ data.drop got.length) got.length bytes
      = got ++ bytes ++ data.drop (got ++ bytes).length := by
  rw [store, List.take_left, List.length_append, ← List.drop_drop, List.drop_left, List.drop_drop]

/-- The buffer and the stream share out what was in the stream. -/
theorem recvLoop_receives (got : Bytes) {data' stream' : Bytes} {r : Received} (hret : 0 ≤ ret)
    (hbefore : ∀ k < call, recvs k ≠ .failed) (hstream : stream = got ++ stream')
    (hdata : data' = got ++ data.drop got.length) (hgot : got.length ≤ size)
    (hlt : got.length < 2 ^ 31)
    (h : recvLoop recvs size fuel call got.length ret data' stream' = .ok r) :
    ∃ got, Receives recvs size data stream got r := by
  induction fuel generalizing call got ret data' stream' with
  | zero => cases h
  | succ fuel ih =>
      rw [recvLoop] at h
      split_ifs at h with hdone
      · cases h
        exact ⟨got, hstream, hdata, hgot, hlt, fun _ => hdone, reports_done hret hbefore⟩
      · cases hrecv : recv (recvs call) (size - got.length) stream' with
        | none =>
            rw [hrecv] at h
            cases h
            have hfailed := recv_eq_none_iff.mp hrecv
            refine ⟨got, hstream, hdata, hgot, hlt, fun hall => ?_, reports_failed hfailed hbefore⟩
            exact absurd hfailed (hall call (Nat.lt_succ_self call))
        | some p =>
            obtain ⟨bytes, rest⟩ := p
            rw [hrecv] at h
            dsimp only at h
            split_ifs at h with hsum
            have hok : recvs call ≠ .failed := fun hfailed => by
              rw [recv_eq_none_iff.mpr hfailed] at hrecv
              cases hrecv
            obtain ⟨hpieces, hmost, -⟩ := recv_spec hrecv
            rw [← List.length_append] at h
            refine ih (got ++ bytes) (Int.natCast_nonneg _) (forall_lt_succ_ne_failed hok hbefore)
              ?_ ?_ ?_ (by rwa [List.length_append]) h
            · rw [hstream, ← hpieces, List.append_assoc]
            · rw [hdata, store_append]
            · rw [List.length_append]
              omega

theorem Recv_receives {r : Received} (h : Returns (Recv recvs size data stream) r) :
    ∃ got, Receives recvs size data stream got r := by
  obtain ⟨depth, hdepth⟩ := h
  exact recvLoop_receives [] le_rfl (fun k hk => absurd hk (Nat.not_lt_zero k)) rfl rfl
    (Nat.zero_le size) (by decide) (hdepth depth le_rfl)

/-- At most `n` calls are left when so many bytes are missing and still come, or when one of the
next `n` calls fails. -/
theorem recvLoop_returns (hsize : size < 2 ^ 31) (n : ℕ) (ret : ℤ) (data : Bytes)
    (htotal : total ≤ size)
    (hends : (size - total ≤ n ∧ size - total ≤ stream.length)
      ∨ ∃ j, call ≤ j ∧ j < call + n ∧ recvs j = .failed) :
    ∃ r, Returns (fun fuel => recvLoop recvs size fuel call total ret data stream) r := by
  induction n generalizing call total ret data stream with
  | zero =>
      have hdone : total = size := by
        rcases hends with ⟨hle, -⟩ | ⟨j, hle, hlt, -⟩
        · omega
        · omega
      refine ⟨⟨ret, data, stream, call⟩, returns_of_ok fun fuel => ?_⟩
      rw [recvLoop, if_pos hdone]
  | succ n ih =>
      by_cases hdone : total = size
      · refine ⟨⟨ret, data, stream, call⟩, returns_of_ok fun fuel => ?_⟩
        rw [recvLoop, if_pos hdone]
      · cases hrecv : recv (recvs call) (size - total) stream with
        | none =>
            refine ⟨⟨-1, data, stream, call + 1⟩, returns_of_ok fun fuel => ?_⟩
            rw [recvLoop, if_neg hdone, hrecv]
        | some p =>
            obtain ⟨bytes, rest⟩ := p
            obtain ⟨hpieces, hmost, hpos⟩ := recv_spec hrecv
            have hlen := congrArg List.length hpieces
            rw [List.length_append] at hlen
            have hnext : (size - (total + bytes.length) ≤ n
                  ∧ size - (total + bytes.length) ≤ rest.length)
                ∨ ∃ j, call + 1 ≤ j ∧ j < call + 1 + n ∧ recvs j = .failed := by
              rcases hends with ⟨hle, hcome⟩ | ⟨j, hle, hlt, hfailed⟩
              · have hne : stream ≠ [] := List.ne_nil_of_length_pos (by omega)
                have hsome := hpos (by omega) hne
                exact .inl ⟨by omega, by omega⟩
              · have hj : j ≠ call := by
                  rintro rfl
                  rw [recv_eq_none_iff.mpr hfailed] at hrecv
                  cases hrecv
                exact .inr ⟨j, by omega, by omega, hfailed⟩
            obtain ⟨r, hr⟩ := ih bytes.length (store data total bytes) (by omega) hnext
            refine ⟨r, hr.succ fun fuel => ?_⟩
            rw [recvLoop, if_neg hdone, hrecv]
            exact if_pos (by omega)

theorem exists_Recv (recvs : ℕ → Progress) (hsize : size < 2 ^ 31) (data stream : Bytes)
    (hends : size ≤ stream.length ∨ ∃ j, recvs j = .failed) :
    ∃ r got, Returns (Recv recvs size data stream) r ∧ Receives recvs size data stream got r := by
  have hreturns : ∃ r, Returns (Recv recvs size data stream) r := by
    rcases hends with hcome | ⟨j, hfailed⟩
    · exact recvLoop_returns hsize size 0 data (Nat.zero_le _) (.inl ⟨Nat.sub_le _ _, hcome⟩)
    · exact recvLoop_returns hsize (j + 1) 0 data (Nat.zero_le _)
        (.inr ⟨j, Nat.zero_le j, by omega, hfailed⟩)
  obtain ⟨r, hr⟩ := hreturns
  obtain ⟨got, hgot⟩ := Recv_receives hr
  exact ⟨r, got, hr, hgot⟩

theorem recvLoop_stable (recvs : ℕ → Progress) (size call total : ℕ) (ret : ℤ)
    (data stream : Bytes) :
    Stable .fuel fun fuel => recvLoop recvs size fuel call total ret data stream := by
  intro fuel h
  dsimp only at h ⊢
  induction fuel generalizing call total ret data stream with
  | zero => exact absurd rfl h
  | succ fuel ih =>
      rw [recvLoop] at h
      rw [recvLoop, recvLoop]
      split_ifs at h ⊢ with hdone
      · rfl
      · cases hrecv : recv (recvs call) (size - total) stream with
        | none => rfl
        | some p =>
            rw [hrecv] at h
            dsimp only at h ⊢
            split_ifs at h ⊢ with hsum
            · exact ih _ _ _ _ _ h
            · rfl

theorem Recv_stable (recvs : ℕ → Progress) (size : ℕ) (data stream : Bytes) :
    Stable .fuel (Recv recvs size data stream) := recvLoop_stable recvs size 0 0 0 data stream

/-- Where no call fails, `Recv` comes to an end exactly if the stream lasts. -/
theorem exists_returns_Recv_iff (hrecvs : ∀ j, recvs j ≠ .failed) :
    (∃ r, Returns (Recv recvs size data stream) r) ↔ size < 2 ^ 31 ∧ size ≤ stream.length := by
  constructor
  · rintro ⟨r, hr⟩
    obtain ⟨got, hgot⟩ := Recv_receives hr
    have hlen := hgot.all fun k _ => hrecvs k
    refine ⟨hlen ▸ hgot.length_lt, ?_⟩
    rw [hgot.next, List.length_append]
    omega
  · rintro ⟨hsize, hcome⟩
    obtain ⟨r, got, hr, -⟩ := exists_Recv recvs hsize data stream (.inl hcome)
    exact ⟨r, hr⟩

/-- At the end of the stream `Recv` asks for ever. -/
theorem recvLoop_closed (hrecvs : ∀ j, recvs j ≠ .failed) (hlt : total < size)
    (hsize : size < 2 ^ 31) (fuel call : ℕ) (ret : ℤ) (data : Bytes) :
    recvLoop recvs size fuel call total ret data [] = .error .fuel := by
  induction fuel generalizing call ret data with
  | zero => rfl
  | succ fuel ih =>
      rw [recvLoop, if_neg (Nat.ne_of_lt hlt), recv_closed (hrecvs call)]
      dsimp only
      rw [if_pos (by rw [List.length_nil]; omega)]
      exact ih _ _ _

/-! ### From one side to the other -/

/-- **Exact transfer.** Whatever the kernel does with each call, `Send` hands it a prefix of the
data and `Recv` stores the next bytes of the stream, everything unless a call fails. What one side
sends is what the other side receives. -/
theorem transfer_exact (sends recvs : ℕ → Progress) :
    (∀ data : Bytes, data.length < 2 ^ 31 →
        ∃ r, Returns (Send sends data) r ∧ Sends sends data r)
      ∧ (∀ (size : ℕ) (data stream : Bytes), size < 2 ^ 31 →
          (size ≤ stream.length ∨ ∃ j, recvs j = .failed) →
        ∃ r got, Returns (Recv recvs size data stream) r
          ∧ Receives recvs size data stream got r)
      ∧ ∀ data buffer rest : Bytes, data.length < 2 ^ 31 → (∀ k, sends k ≠ .failed) →
        (∀ k, recvs k ≠ .failed) →
          ∃ s r, Returns (Send sends data) s
            ∧ Returns (Recv recvs data.length buffer (s.taken ++ rest)) r
            ∧ r.data = data ++ buffer.drop data.length ∧ r.stream = rest := by
  refine ⟨fun data hdata => exists_Send sends hdata,
    fun size data stream hsize hends => exists_Recv recvs hsize data stream hends,
    fun data buffer rest hdata hsends hrecvs => ?_⟩
  obtain ⟨s, hs, hsent⟩ := exists_Send sends hdata
  have htaken := hsent.all fun k _ => hsends k
  obtain ⟨r, got, hr, hgot⟩ := exists_Recv recvs hdata buffer (s.taken ++ rest)
    (.inl (by rw [htaken, List.length_append]; omega))
  have hlen := hgot.all fun k _ => hrecvs k
  have hnext := hgot.next
  rw [htaken] at hnext
  obtain ⟨rfl, hrest⟩ := List.append_inj hnext hlen.symm
  exact ⟨s, r, hs, hr, hgot.data_eq, hrest.symm⟩

/-- Sent in two pieces, received in three, with a byte more in the buffer and in the stream. -/
theorem transfer_exact_three :
    ∃ s r, Returns (Send (fun _ => .upTo 2) [1, 2, 3]) s
      ∧ Returns (Recv (fun _ => .upTo 1) 3 [0, 0, 0, 9] (s.taken ++ [4])) r
      ∧ r.data = [1, 2, 3, 9] ∧ r.stream = [4] := by
  refine (transfer_exact _ _).2.2 [1, 2, 3] [0, 0, 0, 9] [4] (by decide) ?_ ?_
  · intro k hfailed
    cases hfailed
  · intro k hfailed
    cases hfailed

end Networking.Stream
