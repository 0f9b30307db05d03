import Mathlib.Data.List.TakeWhile
import Networking.Stream.Integers

/-!
# Reading back what was written

Each value is read back from exactly the bytes it was written as, at every level of nesting. What is
read back is the value with its strings cut at their first zero byte, so it is the value that was
written exactly when no string in it holds one.
-/

namespace Networking.Stream

open Wire

def cutText (val : Bytes) : Bytes := val.takeWhile (· ≠ 0)

def TextNulFree (val : Bytes) : Prop := 0 ∉ val

/-- The strings and containers in the value have lengths below `2 ^ 31`. -/
def Fits : (t : Ty) → Value t → Prop
  | .string, (val : Bytes) => val.length < 2 ^ 31
  | .pair a b, (p : Value a × Value b) => Fits a p.1 ∧ Fits b p.2
  | .vector a, (v : List (Value a)) => v.length < 2 ^ 31 ∧ ∀ x ∈ v, Fits a x
  | .map a b, (m : SortedMap (Value a) (Value b)) =>
      m.entries.length < 2 ^ 31 ∧ ∀ p ∈ m.entries, Fits a p.1 ∧ Fits b p.2
  | _, _ => True

/-- No string in the value holds a zero byte. -/
def NulFree : (t : Ty) → Value t → Prop
  | .string, val => TextNulFree val
  | .pair a b, (p : Value a × Value b) => NulFree a p.1 ∧ NulFree b p.2
  | .vector a, (v : List (Value a)) => ∀ x ∈ v, NulFree a x
  | .map a b, (m : SortedMap (Value a) (Value b)) =>
      ∀ p ∈ m.entries, NulFree a p.1 ∧ NulFree b p.2
  | _, _ => True

/-- The value with its strings cut at their first zero byte. Keys that become equal are one key. -/
def cut : (t : Ty) → Value t → Value t
  | .string, val => cutText val
  | .pair a b, (p : Value a × Value b) => (cut a p.1, cut b p.2)
  | .vector a, (v : List (Value a)) => v.map (cut a)
  | .map a b, (m : SortedMap (Value a) (Value b)) =>
      SortedMap.empty.assignAll (m.entries.map fun p => (cut a p.1, cut b p.2))
  | .bool, val => val
  | .short, val => val
  | .unsignedShort, val => val
  | .int, val => val
  | .unsignedInt, val => val
  | .long, val => val
  | .unsignedLong, val => val

/-! ### Strings -/

theorem takeWhile_append_zero (data : Bytes) :
    (data ++ [0]).takeWhile (fun b => decide (b ≠ 0))
      = data.takeWhile (fun b => decide (b ≠ 0)) := by
  induction data with
  | nil => rfl
  | cons b data ih =>
      by_cases hb : b = 0
      · simp [hb]
      · rw [List.cons_append, List.takeWhile_cons_of_pos (by simpa using hb), ih,
          List.takeWhile_cons_of_pos (by simpa using hb)]

theorem readString_writeString {val : Bytes} (hval : val.length < 2 ^ 31) (s : Bytes) :
    readString (writeString val ++ s) = some (cutText val, s) := by
  have hlen : (BitVec.ofNat 32 val.length).toNat = val.length := toNat_ofNat_of_lt (by omega)
  have hall : val.take (BitVec.ofNat 32 val.length).toNat = val := by
    rw [hlen, List.take_length]
  rw [readString, writeString]
  simp only [hall, List.append_assoc, readUnsignedInt_writeUnsignedInt, Option.bind_eq_bind,
    Option.bind_some, readData_append hlen.symm, takeWhile_append_zero,
    cutText]

/-! ### Containers -/

section Containers

variable {α κ ν : Type} [LinearOrder κ]

theorem readItems_flatMap {readItem : α → Bytes → Option (α × Bytes)} {writeItem : α → Bytes}
    {cutItem : α → α} {l : List α}
    (hitem : ∀ x ∈ l, ∀ curr s, readItem curr (writeItem x ++ s) = some (cutItem x, s))
    (curr : α) (v : List α) (s : Bytes) :
    readItems readItem l.length curr v (l.flatMap writeItem ++ s)
      = some (v ++ l.map cutItem, s) := by
  induction l generalizing curr v with
  | nil => simp [readItems]
  | cons x l ih =>
      rw [List.length_cons, readItems, List.flatMap_cons, List.append_assoc, hitem x (.head l),
        Option.bind_eq_bind, Option.bind_some]
      simp only
      rw [ih fun y hy => hitem y (.tail x hy)]
      simp

theorem readEntries_flatMap {readKey : κ → Bytes → Option (κ × Bytes)}
    {readVal : ν → Bytes → Option (ν × Bytes)} {writeKey : κ → Bytes} {writeVal : ν → Bytes}
    {cutKey : κ → κ} {cutVal : ν → ν} {l : List (κ × ν)}
    (hkey : ∀ p ∈ l, ∀ curr s, readKey curr (writeKey p.1 ++ s) = some (cutKey p.1, s))
    (hval : ∀ p ∈ l, ∀ curr s, readVal curr (writeVal p.2 ++ s) = some (cutVal p.2, s))
    (currKey : κ) (currVal : ν) (m : SortedMap κ ν) (s : Bytes) :
    readEntries readKey readVal l.length currKey currVal m
        (l.flatMap (fun p => writeKey p.1 ++ writeVal p.2) ++ s)
      = some (m.assignAll (l.map fun p => (cutKey p.1, cutVal p.2)), s) := by
  induction l generalizing currKey currVal m with
  | nil => simp [readEntries]
  | cons p l ih =>
      rw [List.length_cons, readEntries, List.flatMap_cons, List.append_assoc, List.append_assoc,
        hkey p (.head l), Option.bind_eq_bind, Option.bind_some]
      simp only
      rw [hval p (.head l), Option.bind_eq_bind, Option.bind_some]
      simp only
      rw [ih (fun q hq => hkey q (.tail p hq)) fun q hq => hval q (.tail p hq)]
      simp

end Containers

/-! ### Values -/

section Unfold

variable (fresh : (t : Ty) → Value t) {a b : Ty} (s : Bytes)

theorem read_pair (dst : Value a × Value b) : read fresh (.pair a b) dst s = (do
    let (first, s) ← read fresh a dst.1 s
    let (second, s) ← read fresh b dst.2 s
    some ((first, second), s)) := rfl

theorem read_vector (dst : Value (.vector a)) : read fresh (.vector a) dst s = (do
    let (size, s) ← readUnsignedInt s
    readItems (read fresh a) size.toNat (fresh a) [] s) := rfl

theorem read_map (dst : Value (.map a b)) : read fresh (.map a b) dst s = (do
    let (size, s) ← readUnsignedInt s
    readEntries (read fresh a) (read fresh b) size.toNat (fresh a) (fresh b) .empty s) := rfl

end Unfold

/-- **Every value is read from its own bytes.** Whatever the argument held before and whatever
follows, `operator>>` takes the bytes that `operator<<` wrote and leaves the value cut at its zero
bytes. -/
theorem read_write (fresh : (t : Ty) → Value t) (t : Ty) {v : Value t} (hfits : Fits t v)
    (dst : Value t) (s : Bytes) : read fresh t dst (write t v ++ s) = some (cut t v, s) := by
  -- on the type; the rest stays arbitrary, since the items of a container follow one another
  induction t generalizing s with
  | bool => exact readBool_writeBool v s
  | short => exact readShort_writeShort v s
  | unsignedShort => exact readUnsignedShort_writeUnsignedShort v s
  | int => exact readInt_writeInt v s
  | unsignedInt => exact readUnsignedInt_writeUnsignedInt v s
  | long => exact readLong_writeLong v s
  | unsignedLong => exact readUnsignedLong_writeUnsignedLong v s
  | string => exact readString_writeString hfits s
  | pair a b iha ihb =>
      obtain ⟨first, second⟩ := v
      have hbytes : write (.pair a b) (first, second) ++ s
          = write a first ++ (write b second ++ s) := List.append_assoc _ _ _
      refine (congrArg _ hbytes).trans ((read_pair fresh _ dst).trans ?_)
      rw [iha hfits.1, Option.bind_eq_bind, Option.bind_some]
      simp only
      rw [ihb hfits.2, Option.bind_eq_bind, Option.bind_some]
      rfl
  | vector a ih =>
      have hsize := toNat_ofNat_of_lt (lt_trans hfits.1 (by decide : 2 ^ 31 < 2 ^ 32))
      have hitems := readItems_flatMap (l := v) (s := s)
        (fun x hx curr s => ih (hfits.2 x hx) curr s) (fresh a) []
      refine (congrArg _ (List.append_assoc _ _ _)).trans ((read_vector fresh _ dst).trans ?_)
      rw [readUnsignedInt_writeUnsignedInt, Option.bind_eq_bind, Option.bind_some]
      simp only
      rw [hsize, hitems]
      rfl
  | map a b iha ihb =>
      have hsize := toNat_ofNat_of_lt (lt_trans hfits.1 (by decide : 2 ^ 31 < 2 ^ 32))
      have hentries := readEntries_flatMap (l := v.entries) (s := s)
        (fun p hp curr s => iha (hfits.2 p hp).1 curr s)
        (fun p hp curr s => ihb (hfits.2 p hp).2 curr s) (fresh a) (fresh b) .empty
      refine (congrArg _ (List.append_assoc _ _ _)).trans ((read_map fresh _ dst).trans ?_)
      rw [readUnsignedInt_writeUnsignedInt, Option.bind_eq_bind, Option.bind_some]
      simp only
      rw [hsize, hentries]
      rfl

/-! ### Zero bytes -/

theorem textNulFree_cutText (val : Bytes) : TextNulFree (cutText val) := fun hzero =>
  absurd (List.mem_takeWhile_imp hzero) (by decide)

theorem cutText_eq_self {val : Bytes} (hval : TextNulFree val) : cutText val = val :=
  List.takeWhile_eq_self_iff.mpr fun _ hb => decide_eq_true fun hzero => hval (hzero ▸ hb)

theorem nulFree_cut (t : Ty) (v : Value t) : NulFree t (cut t v) := by
  induction t with
  | bool | short | unsignedShort | int | unsignedInt | long | unsignedLong => trivial
  | string => exact textNulFree_cutText v
  | pair a b iha ihb => exact ⟨iha v.1, ihb v.2⟩
  | vector a ih =>
      intro x hx
      obtain ⟨y, -, rfl⟩ := List.mem_map.mp hx
      exact ih y
  | map a b iha ihb =>
      intro p hp
      rcases SortedMap.mem_entries_assignAll hp with hnone | hmem
      · cases hnone
      · obtain ⟨q, -, rfl⟩ := List.mem_map.mp hmem
        exact ⟨iha q.1, ihb q.2⟩

theorem cut_eq_self (t : Ty) {v : Value t} (hv : NulFree t v) : cut t v = v := by
  induction t with
  | bool | short | unsignedShort | int | unsignedInt | long | unsignedLong => rfl
  | string => exact cutText_eq_self hv
  | pair a b iha ihb => exact Prod.ext (iha hv.1) (ihb hv.2)
  | vector a ih =>
      have hitems : List.map (cut a) v = List.map id v :=
        List.map_congr_left fun x hx => ih (hv x hx)
      exact hitems.trans (List.map_id v)
  | map a b iha ihb =>
      have hentries : v.entries.map (fun p => (cut a p.1, cut b p.2)) = v.entries :=
        calc v.entries.map (fun p => (cut a p.1, cut b p.2)) = v.entries.map id :=
              List.map_congr_left fun p hp => Prod.ext (iha (hv p hp).1) (ihb (hv p hp).2)
          _ = v.entries := List.map_id _
      exact (congrArg SortedMap.empty.assignAll hentries).trans (SortedMap.assignAll_entries v)

theorem cut_eq_self_iff {t : Ty} {v : Value t} : cut t v = v ↔ NulFree t v :=
  ⟨fun h => h ▸ nulFree_cut t v, cut_eq_self t⟩

/-- **What is read back.** The value read is the value written, exactly when no string in it holds a
zero byte. -/
theorem read_write_iff (fresh : (t : Ty) → Value t) {t : Ty} {v : Value t} (hfits : Fits t v)
    (dst : Value t) : (read fresh t dst (write t v)).map Prod.fst = some v ↔ NulFree t v := by
  have hread := read_write fresh t hfits dst []
  rw [List.append_nil] at hread
  rw [hread, Option.map_some, Option.some_inj]
  exact cut_eq_self_iff

/-! ### Sequences -/

abbrev Item : Type := (t : Ty) × Value t

def writeAll (items : List Item) : Bytes := items.flatMap fun i => write i.1 i.2

def readAll (fresh : (t : Ty) → Value t) : List Item → Bytes → Option (List Item × Bytes)
  | [], s => some ([], s)
  | ⟨t, dst⟩ :: dsts, s => do
      let (v, s) ← read fresh t dst s
      let (rest, s) ← readAll fresh dsts s
      some (⟨t, v⟩ :: rest, s)

theorem readAll_writeAll (fresh : (t : Ty) → Value t) {items dsts : List Item}
    (hfits : ∀ i ∈ items, Fits i.1 i.2) (htypes : dsts.map Sigma.fst = items.map Sigma.fst)
    (s : Bytes) : readAll fresh dsts (writeAll items ++ s)
      = some (items.map fun i => ⟨i.1, cut i.1 i.2⟩, s) := by
  induction items generalizing dsts with
  | nil =>
      obtain rfl : dsts = [] := List.map_eq_nil_iff.mp htypes
      rfl
  | cons item items ih =>
      obtain ⟨⟨t, dst⟩, dsts, rfl⟩ := List.exists_cons_of_ne_nil (l := dsts) (by
        rintro rfl
        cases htypes)
      obtain ⟨t', v⟩ := item
      obtain ⟨rfl, hrest⟩ : t = t' ∧ dsts.map Sigma.fst = items.map Sigma.fst :=
        List.cons.inj htypes
      rw [readAll, writeAll, List.flatMap_cons, List.append_assoc,
        read_write fresh t (hfits _ (.head _)), Option.bind_eq_bind, Option.bind_some]
      simp only
      rw [← writeAll, ih (fun i hi => hfits i (.tail _ hi)) hrest, Option.bind_eq_bind,
        Option.bind_some]
      rfl

/-- **The stream stays in step.** Reading the types written takes exactly the bytes written, also
where a string is cut, and the values without zero bytes are read back. -/
theorem readAll_writeAll_inStep (fresh : (t : Ty) → Value t) {items dsts : List Item}
    (hfits : ∀ i ∈ items, Fits i.1 i.2) (htypes : dsts.map Sigma.fst = items.map Sigma.fst)
    (s : Bytes) : ∃ got, readAll fresh dsts (writeAll items ++ s) = some (got, s)
      ∧ got.map Sigma.fst = items.map Sigma.fst
      ∧ ∀ (i : ℕ) (item : Item), items[i]? = some item → NulFree item.1 item.2 →
        got[i]? = some item := by
  refine ⟨_, readAll_writeAll fresh hfits htypes s, ?_, fun i item hitem hfree => ?_⟩
  · rw [List.map_map]
    rfl
  · rw [List.getElem?_map, hitem, Option.map_some, cut_eq_self _ hfree]

/-! ### A string with a zero byte -/

def zeroed : (t : Ty) → Value t
  | .bool => false
  | .short | .unsignedShort => (0 : BitVec 16)
  | .int | .unsignedInt => (0 : BitVec 32)
  | .long | .unsignedLong => (0 : BitVec 64)
  | .string => ([] : Bytes)
  | .pair a b => (zeroed a, zeroed b)
  | .vector _ => []
  | .map _ _ => SortedMap.empty

def sampleText : Bytes := [65, 0, 66]

theorem sampleText_fits : Fits .string sampleText := (by decide : sampleText.length < 2 ^ 31)

/-- Of `"A\0B"`, only `"A"` is read back. -/
theorem zero_byte_cuts_string :
    (read zeroed .string (zeroed .string) (write .string sampleText)).map Prod.fst
        = some (ofString "A")
      ∧ (read zeroed .string (zeroed .string) (write .string sampleText)).map Prod.fst
        ≠ some sampleText := by
  have hread := read_write zeroed .string sampleText_fits (zeroed .string) []
  have hcut : cut .string sampleText = ofString "A" := rfl
  rw [List.append_nil, hcut] at hread
  rw [hread]
  exact ⟨rfl, fun h => absurd (Option.some_injective Bytes h) (by decide)⟩

def sampleValue : Value (.pair .string (.vector .int)) :=
  (ofString "AB", ([1, -1] : List (BitVec 32)))

theorem sampleValue_fits : Fits (.pair .string (.vector .int)) sampleValue :=
  ⟨(by decide : (ofString "AB").length < 2 ^ 31), (by decide : 2 < 2 ^ 31), fun _ _ => trivial⟩

/-- A pair is read back, and a string with a zero byte is not. -/
theorem read_write_iff_sample :
    (read zeroed (.pair .string (.vector .int)) (zeroed _)
        (write (.pair .string (.vector .int)) sampleValue)).map Prod.fst = some sampleValue
      ∧ ¬(read zeroed .string (zeroed .string) (write .string sampleText)).map Prod.fst
        = some sampleText := by
  refine ⟨(read_write_iff zeroed sampleValue_fits _).mpr ⟨?_, fun _ _ => trivial⟩, fun hread => ?_⟩
  · exact (by decide : (0 : Byte) ∉ ofString "AB")
  · have hfree : (0 : Byte) ∉ sampleText := (read_write_iff zeroed sampleText_fits _).mp hread
    exact hfree (by decide)

/-- A string that is cut, followed by a value that is read back. -/
def sampleItems : List Item := [⟨.string, sampleText⟩, ⟨.pair .string (.vector .int), sampleValue⟩]

theorem readAll_writeAll_inStep_sample :
    ∃ got, readAll zeroed (sampleItems.map fun i => ⟨i.1, zeroed i.1⟩)
        (writeAll sampleItems ++ [7]) = some (got, [7])
      ∧ got.map Sigma.fst = sampleItems.map Sigma.fst
      ∧ ∀ (i : ℕ) (item : Item), sampleItems[i]? = some item → NulFree item.1 item.2 →
        got[i]? = some item :=
  @readAll_writeAll_inStep zeroed sampleItems _
    (List.forall_mem_cons.mpr ⟨sampleText_fits, List.forall_mem_singleton.mpr sampleValue_fits⟩)
    rfl [7]

end Networking.Stream
