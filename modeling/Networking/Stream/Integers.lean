import Networking.Stream.Operators

/-!
# Integers on a `Stream`

The masks and shifts of the operators are the little-endian image of the integer, whatever its sign,
so each integer is read back from the bytes it was written as.
-/

namespace Networking.Stream

open Wire

variable {p w n : ℕ} {s : Bytes}

theorem dataByte_eq {i : ℕ} (hi : 8 * i + 8 ≤ p) (signed : Bool) (val : BitVec p) :
    dataByte signed val i = val.extractLsb' (8 * i) 8 := by
  have hmask : ∀ j < 8, (0xFF#p <<< (8 * i)).getLsbD (8 * i + j) = true := by
    intro j hj
    have hff : (0xFF#p).getLsbD j = true := by
      rw [BitVec.getLsbD_ofNat]
      have htest : Nat.testBit 0xFF j = decide (j < 8) := Nat.testBit_two_pow_sub_one 8 j
      have hlt : j < p := by omega
      rw [htest, decide_eq_true hj, decide_eq_true hlt, Bool.and_true]
    rw [BitVec.getLsbD_shiftLeft]
    simp [hff]
    omega
  apply BitVec.eq_of_getLsbD_eq
  intro j hj
  have hlow : (val &&& (0xFF#p <<< (8 * i))).getLsbD (8 * i + j) = val.getLsbD (8 * i + j) := by
    rw [BitVec.getLsbD_and, hmask j hj, Bool.and_true]
  rw [dataByte, BitVec.getLsbD_setWidth, BitVec.getLsbD_extractLsb']
  cases signed with
  | true =>
      rw [if_pos rfl, BitVec.getLsbD_sshiftRight, if_pos (by omega), hlow]
      simp [hj]
      omega
  | false =>
      rw [if_neg Bool.false_ne_true, BitVec.getLsbD_ushiftRight, hlow]

theorem putData_eq (hn : 8 * n ≤ p) (signed : Bool) (val : BitVec p) :
    putData signed n val = memory n val := by
  refine List.map_congr_left fun i hi => dataByte_eq ?_ signed val
  have := List.mem_range.mp hi
  omega

theorem memory_signExtend (hn : 8 * n ≤ w) (hp : w ≤ p) (val : BitVec w) :
    memory n (val.signExtend p) = memory n val := by
  apply List.map_congr_left
  intro i hi
  have hlt := List.mem_range.mp hi
  apply BitVec.eq_of_getLsbD_eq
  intro j hj
  rw [BitVec.getLsbD_extractLsb', BitVec.getLsbD_extractLsb', BitVec.getLsbD_signExtend]
  have hw : 8 * i + j < w := by omega
  have hp' : 8 * i + j < p := by omega
  simp [hw, hp']

theorem memory_setWidth (hn : 8 * n ≤ w) (hp : w ≤ p) (val : BitVec w) :
    memory n (val.setWidth p) = memory n val := by
  apply List.map_congr_left
  intro i hi
  have hlt := List.mem_range.mp hi
  apply BitVec.eq_of_getLsbD_eq
  intro j hj
  rw [BitVec.getLsbD_extractLsb', BitVec.getLsbD_extractLsb', BitVec.getLsbD_setWidth]
  have hp' : 8 * i + j < p := by omega
  simp [hp']

theorem getData_eq (i : ℕ) (data : Bytes) : getData p i data = ofMemory p data <<< (8 * i) := by
  induction data generalizing i with
  | nil => simp [getData, ofMemory]
  | cons b data ih =>
      have hshift : 8 * (i + 1) = 8 + 8 * i := by omega
      rw [getData, ih, ofMemory, BitVec.shiftLeft_or_distrib, hshift, BitVec.shiftLeft_add,
        BitVec.or_comm]

theorem setWidth_ofMemory (hw : w ≤ p) (data : Bytes) :
    (ofMemory p data).setWidth w = ofMemory w data := by
  apply BitVec.eq_of_getLsbD_eq
  intro j hj
  rw [BitVec.getLsbD_setWidth, getLsbD_ofMemory, getLsbD_ofMemory]
  have hp : j < p := by omega
  simp [hj, hp]

theorem readData_append {data : Bytes} (hlen : data.length = n) (s : Bytes) :
    readData n (data ++ s) = some (data, s) := by
  rw [readData, if_pos (by rw [List.length_append]; omega), ← hlen, List.take_left, List.drop_left]

/-- **Integers are read back.** -/
theorem readInteger_memory (hw : w = 8 * n) (hp : w ≤ p) (val : BitVec w) (s : Bytes) :
    readInteger p w n (memory n val ++ s) = some (val, s) := by
  have hword : (getData p 0 (memory n val)).setWidth w = val := by
    rw [getData_eq, Nat.mul_zero, BitVec.shiftLeft_zero, setWidth_ofMemory hp,
      ofMemory_memory (le_of_eq hw)]
  rw [readInteger, readData_append (length_memory n val), Option.bind_eq_bind, Option.bind_some]
  exact congrArg (fun x => some (x, s)) hword

@[simp]
theorem readShort_writeShort (val : BitVec 16) (s : Bytes) :
    readShort (writeShort val ++ s) = some (val, s) := by
  have himage : writeShort val = memory 2 val := by
    rw [writeShort, putData_eq (by decide), memory_signExtend (by decide) (by decide)]
  rw [himage, readShort, readInteger_memory (n := 2) rfl (by decide)]

@[simp]
theorem readUnsignedShort_writeUnsignedShort (val : BitVec 16) (s : Bytes) :
    readUnsignedShort (writeUnsignedShort val ++ s) = some (val, s) := by
  have himage : writeUnsignedShort val = memory 2 val := by
    rw [writeUnsignedShort, putData_eq (by decide), memory_setWidth (by decide) (by decide)]
  rw [himage, readUnsignedShort, readInteger_memory (n := 2) rfl (by decide)]

@[simp]
theorem readInt_writeInt (val : BitVec 32) (s : Bytes) :
    readInt (writeInt val ++ s) = some (val, s) := by
  have himage : writeInt val = memory 4 val := by
    rw [writeInt, putData_eq (by decide)]
  rw [himage, readInt, readInteger_memory (n := 4) rfl (by decide)]

@[simp]
theorem readUnsignedInt_writeUnsignedInt (val : BitVec 32) (s : Bytes) :
    readUnsignedInt (writeUnsignedInt val ++ s) = some (val, s) := by
  have himage : writeUnsignedInt val = memory 4 val := by
    rw [writeUnsignedInt, putData_eq (by decide)]
  rw [himage, readUnsignedInt, readInteger_memory (n := 4) rfl (by decide)]

@[simp]
theorem readLong_writeLong (val : BitVec 64) (s : Bytes) :
    readLong (writeLong val ++ s) = some (val, s) := by
  have himage : writeLong val = memory 8 val := by
    rw [writeLong, putData_eq (by decide)]
  rw [himage, readLong, readInteger_memory (n := 8) rfl (by decide)]

@[simp]
theorem readUnsignedLong_writeUnsignedLong (val : BitVec 64) (s : Bytes) :
    readUnsignedLong (writeUnsignedLong val ++ s) = some (val, s) := by
  have himage : writeUnsignedLong val = memory 8 val := by
    rw [writeUnsignedLong, putData_eq (by decide)]
  rw [himage, readUnsignedLong, readInteger_memory (n := 8) rfl (by decide)]

@[simp]
theorem readBool_writeBool (val : Bool) (s : Bytes) :
    readBool (writeBool val ++ s) = some (val, s) := by
  cases val <;> rfl

end Networking.Stream
