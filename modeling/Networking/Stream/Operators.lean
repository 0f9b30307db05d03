import Networking.Stream.Types

/-!
# The operators of `Stream`

`operator<<` as the bytes it writes, and `operator>>` as what it leaves in its argument, with the
bytes still to come. `Write` and `Read` move all the bytes asked for; a read at the end of the
stream has no result.
-/

namespace Networking.Stream

open Wire

/-! ### Integers -/

/-- `(val & (0xFF << 8 * i)) >> (8 * i)`, as the byte it is assigned to. Shifting a signed word to
the right copies its sign. -/
def dataByte {p : ℕ} (signed : Bool) (val : BitVec p) (i : ℕ) : Byte :=
  let masked := val &&& (0xFF#p <<< (8 * i))
  (if signed then masked.sshiftRight (8 * i) else masked >>> (8 * i)).setWidth 8

def putData {p : ℕ} (signed : Bool) (n : ℕ) (val : BitVec p) : Bytes :=
  (List.range n).map (dataByte signed val)

def writeShort (val : BitVec 16) : Bytes := putData true 2 (val.signExtend 32)

def writeUnsignedShort (val : BitVec 16) : Bytes := putData true 2 (val.setWidth 32)

def writeInt (val : BitVec 32) : Bytes := putData true 4 val

def writeUnsignedInt (val : BitVec 32) : Bytes := putData false 4 val

def writeLong (val : BitVec 64) : Bytes := putData true 8 val

def writeUnsignedLong (val : BitVec 64) : Bytes := putData false 8 val

/-- `data[i] << (8 * i) | data[i + 1] << (8 * (i + 1)) | ...`, in words of `p` bits. -/
def getData (p : ℕ) : ℕ → Bytes → BitVec p
  | _, [] => 0
  | i, b :: data => (b.setWidth p <<< (8 * i)) ||| getData p (i + 1) data

def readData (n : ℕ) (s : Bytes) : Option (Bytes × Bytes) :=
  if n ≤ s.length then some (s.take n, s.drop n) else none

/-- The integers: `n` bytes are combined in words of `p` bits, and assigned to one of `w` bits. -/
def readInteger (p w n : ℕ) (s : Bytes) : Option (BitVec w × Bytes) := do
  let (data, s) ← readData n s
  some ((getData p 0 data).setWidth w, s)

def readShort : Bytes → Option (BitVec 16 × Bytes) := readInteger 32 16 2

def readUnsignedShort : Bytes → Option (BitVec 16 × Bytes) := readInteger 32 16 2

def readInt : Bytes → Option (BitVec 32 × Bytes) := readInteger 32 32 4

def readUnsignedInt : Bytes → Option (BitVec 32 × Bytes) := readInteger 32 32 4

def readLong : Bytes → Option (BitVec 64 × Bytes) := readInteger 64 64 8

def readUnsignedLong : Bytes → Option (BitVec 64 × Bytes) := readInteger 64 64 8

/-! ### Truth values and strings -/

def writeBool (val : Bool) : Bytes := [if val then 1 else 0]

/-- Of a `bool`, only the representations 0 and 1 have a meaning. -/
def readBool (s : Bytes) : Option (Bool × Bytes) := do
  let (data, s) ← readData 1 s
  if data = [0] then some (false, s) else if data = [1] then some (true, s) else none

def writeString (val : Bytes) : Bytes :=
  let len := BitVec.ofNat 32 val.length
  writeUnsignedInt len ++ val.take len.toNat

/-- What is read goes through a buffer that ends with a zero byte, and `append` takes it for a
string of C. -/
def readString (s : Bytes) : Option (Bytes × Bytes) := do
  let (len, s) ← readUnsignedInt s
  let (data, s) ← readData len.toNat s
  let buf := data ++ [0]
  some (buf.takeWhile (· ≠ 0), s)

/-! ### Containers -/

/-- The loop that reads the items of a vector, from the one last read into `curr`. -/
def readItems {α : Type} (readItem : α → Bytes → Option (α × Bytes)) :
    ℕ → α → List α → Bytes → Option (List α × Bytes)
  | 0, _, v, s => some (v, s)
  | left + 1, curr, v, s => do
      let (curr, s) ← readItem curr s
      readItems readItem left curr (v ++ [curr]) s

/-- The loop that reads the entries of a map, from the one last read into `curr_key` and `curr_val`.
-/
def readEntries {κ ν : Type} [LinearOrder κ] (readKey : κ → Bytes → Option (κ × Bytes))
    (readVal : ν → Bytes → Option (ν × Bytes)) :
    ℕ → κ → ν → SortedMap κ ν → Bytes → Option (SortedMap κ ν × Bytes)
  | 0, _, _, m, s => some (m, s)
  | left + 1, currKey, currVal, m, s => do
      let (currKey, s) ← readKey currKey s
      let (currVal, s) ← readVal currVal s
      readEntries readKey readVal left currKey currVal (m.assign currKey currVal) s

/-- `operator<<`. -/
def write : (t : Ty) → Value t → Bytes
  | .bool, val => writeBool val
  | .short, val => writeShort val
  | .unsignedShort, val => writeUnsignedShort val
  | .int, val => writeInt val
  | .unsignedInt, val => writeUnsignedInt val
  | .long, val => writeLong val
  | .unsignedLong, val => writeUnsignedLong val
  | .string, val => writeString val
  | .pair a b, (p : Value a × Value b) => write a p.1 ++ write b p.2
  | .vector a, (v : List (Value a)) =>
      writeUnsignedInt (BitVec.ofNat 32 v.length) ++ v.flatMap (write a)
  | .map a b, (m : SortedMap (Value a) (Value b)) =>
      writeUnsignedInt (BitVec.ofNat 32 m.entries.length)
        ++ m.entries.flatMap fun p => write a p.1 ++ write b p.2

/-- `operator>>` into an argument that holds a value already. The local variables of the container
operators hold the values `fresh` before anything is read into them. -/
def read (fresh : (t : Ty) → Value t) : (t : Ty) → Value t → Bytes → Option (Value t × Bytes)
  | .bool, _, s => readBool s
  | .short, _, s => readShort s
  | .unsignedShort, _, s => readUnsignedShort s
  | .int, _, s => readInt s
  | .unsignedInt, _, s => readUnsignedInt s
  | .long, _, s => readLong s
  | .unsignedLong, _, s => readUnsignedLong s
  | .string, _, s => readString s
  | .pair a b, (p : Value a × Value b), s => do
      let (first, s) ← read fresh a p.1 s
      let (second, s) ← read fresh b p.2 s
      some ((first, second), s)
  | .vector a, _, s => do
      let (size, s) ← readUnsignedInt s
      readItems (read fresh a) size.toNat (fresh a) [] s
  | .map a b, _, s => do
      let (size, s) ← readUnsignedInt s
      readEntries (read fresh a) (read fresh b) size.toNat (fresh a) (fresh b) .empty s

end Networking.Stream
