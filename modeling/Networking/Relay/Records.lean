import Mathlib.Data.List.TakeDrop
import Networking.Lib.Wire

/-!
# The records of the relay protocol

The three packed structures that `awget` and the stepping stones exchange. They are sent as they
stand in memory, so each has an image; the integers in them are in the order their owner left them
in.
-/

namespace Networking.Relay

open Wire

def filenameMax : ℕ := 4096

@[ext]
structure ListHeader where
  version : Byte
  lSize : BitVec 32
  fName : Bytes
  length_fName : fName.length = filenameMax
  deriving DecidableEq

@[ext]
structure ListElement where
  version : Byte
  host : Bytes
  port : Bytes
  length_host : host.length = 256
  length_port : port.length = 8
  deriving DecidableEq

@[ext]
structure FileHeader where
  version : Byte
  fSize : BitVec 32
  deriving DecidableEq

def ListHeader.size : ℕ := 4101

def ListElement.size : ℕ := 265

def FileHeader.size : ℕ := 5

def ListHeader.image (h : ListHeader) : Bytes := h.version :: (memory 4 h.lSize ++ h.fName)

def ListElement.image (e : ListElement) : Bytes := e.version :: (e.host ++ e.port)

def FileHeader.image (h : FileHeader) : Bytes := h.version :: memory 4 h.fSize

/-- The structure that given bytes of memory make up. -/
def ListHeader.ofImage (bs : Bytes) : ListHeader where
  version := bs.headD 0
  lSize := ofMemory 32 ((bs.drop 1).take 4)
  fName := (bs.drop 5).takeD filenameMax 0
  length_fName := List.takeD_length _ _ _

def ListElement.ofImage (bs : Bytes) : ListElement where
  version := bs.headD 0
  host := (bs.drop 1).takeD 256 0
  port := (bs.drop 257).takeD 8 0
  length_host := List.takeD_length _ _ _
  length_port := List.takeD_length _ _ _

def FileHeader.ofImage (bs : Bytes) : FileHeader where
  version := bs.headD 0
  fSize := ofMemory 32 ((bs.drop 1).take 4)

@[simp]
theorem ListHeader.length_image (h : ListHeader) : h.image.length = ListHeader.size := by
  simp [ListHeader.image, h.length_fName, ListHeader.size, filenameMax]

@[simp]
theorem ListElement.length_image (e : ListElement) : e.image.length = ListElement.size := by
  simp [ListElement.image, e.length_host, e.length_port, ListElement.size]

@[simp]
theorem FileHeader.length_image (h : FileHeader) : h.image.length = FileHeader.size := by
  simp [FileHeader.image, FileHeader.size]

theorem takeD_of_length {bs : Bytes} {n : ℕ} (hlen : bs.length = n) : bs.takeD n 0 = bs := by
  rw [List.takeD_eq_take _ (le_of_eq hlen.symm), List.take_of_length_le (le_of_eq hlen)]

theorem ListHeader.ofImage_image (h : ListHeader) : ListHeader.ofImage h.image = h := by
  have hsize : (h.image.drop 1).take 4 = memory 4 h.lSize :=
    List.take_left' (length_memory 4 h.lSize)
  have hrest : h.image.drop 5 = h.fName := by
    simp [ListHeader.image]
  have hword : (ListHeader.ofImage h.image).lSize = ofMemory 32 ((h.image.drop 1).take 4) := rfl
  have hname : (ListHeader.ofImage h.image).fName = (h.image.drop 5).takeD filenameMax 0 := rfl
  ext1
  · rfl
  · rw [hword, hsize, ofMemory_memory (by decide)]
  · rw [hname, hrest, takeD_of_length h.length_fName]

theorem ListElement.ofImage_image (e : ListElement) : ListElement.ofImage e.image = e := by
  have hfirst : e.image.drop 1 = e.host ++ e.port := rfl
  have hrest : e.image.drop 257 = e.port := by
    rw [ListElement.image, List.drop_succ_cons, List.drop_left' e.length_host]
  have hhost : (ListElement.ofImage e.image).host = (e.image.drop 1).takeD 256 0 := rfl
  have hport : (ListElement.ofImage e.image).port = (e.image.drop 257).takeD 8 0 := rfl
  ext1
  · rfl
  · rw [hhost, hfirst, List.takeD_left' e.length_host]
  · rw [hport, hrest, takeD_of_length e.length_port]

theorem ListElement.image_ofImage {bs : Bytes} (hlen : bs.length = ListElement.size) :
    (ListElement.ofImage bs).image = bs := by
  obtain ⟨b, bs, rfl⟩ := List.exists_cons_of_ne_nil (l := bs) (by rintro rfl; cases hlen)
  have hbs : bs.length = 264 := by simpa [ListElement.size] using hlen
  have hrest : ((b :: bs).drop 257).length = 8 := by simp [hbs]
  simp only [ListElement.image, ListElement.ofImage, List.headD_cons, List.drop_succ_cons,
    List.drop_zero]
  rw [List.takeD_eq_take _ (by omega), List.takeD_eq_take _ (by simp [hbs]),
    List.take_of_length_le (l := bs.drop 256) (by simp [hbs]), List.take_append_drop]

theorem FileHeader.ofImage_image (h : FileHeader) : FileHeader.ofImage h.image = h := by
  have hsize : (h.image.drop 1).take 4 = memory 4 h.fSize :=
    List.take_of_length_le (le_of_eq (length_memory 4 h.fSize))
  have hword : (FileHeader.ofImage h.image).fSize = ofMemory 32 ((h.image.drop 1).take 4) := rfl
  ext1
  · rfl
  · rw [hword, hsize, ofMemory_memory (by decide)]

/-- The element in memory once a call of `recv` has stored some bytes at its start. -/
def ListElement.store (e : ListElement) (bs : Bytes) : ListElement :=
  ListElement.ofImage (bs ++ e.image.drop bs.length)

theorem ListElement.store_image (e e' : ListElement) : e.store e'.image = e' := by
  have hnone : e.image.drop e'.image.length = [] :=
    List.drop_of_length_le (by rw [length_image, length_image])
  rw [store, hnone, List.append_nil, ofImage_image]

/-- What a short piece does not reach keeps its contents. -/
theorem ListElement.getElem?_image_store (e : ListElement) {bs : Bytes} {i : ℕ}
    (hlen : bs.length ≤ i) (hi : i < ListElement.size) :
    (e.store bs).image[i]? = e.image[i]? := by
  have himage := e.length_image
  rw [store, image_ofImage (by rw [List.length_append, List.length_drop]; omega),
    List.getElem?_append_right hlen, List.getElem?_drop, Nat.add_sub_cancel' hlen]

end Networking.Relay
