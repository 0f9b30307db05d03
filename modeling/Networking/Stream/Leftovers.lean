import Networking.Stream.RoundTrip

/-!
# What a decode leaves of its destination

The operators for strings, vectors and maps clear their argument before they read into it. The
message class `data` of the scaling project assigns the entries it reads to its map and does not
clear it, so the entries of other keys stay.

An `unordered_map` is a function from its keys, and its iteration gives its entries in any order.
-/

namespace Networking.Stream

open Wire

/-- `std::unordered_map<int, std::string>`. -/
abbrev StringMap : Type := BitVec 32 → Option Bytes

/-- `std::pair<int, std::string>`. -/
abbrev Entry : Type := BitVec 32 × Bytes

abbrev entryTy : Ty := .pair .int .string

/-- An order in which the map is iterated over. -/
structure Enumerates (entries : List Entry) (map : StringMap) : Prop where
  nodup : (entries.map Prod.fst).Nodup
  mem_iff : ∀ k x, (k, x) ∈ entries ↔ map k = some x

/-- `data::Serialize`. -/
def serializeData (entries : List Entry) : Bytes :=
  writeUnsignedInt (BitVec.ofNat 32 entries.length) ++ entries.flatMap (write entryTy)

/-- The loop of `data::Deserialize`, from the pair last read into `curr`. -/
def readPairs (fresh : (t : Ty) → Value t) :
    ℕ → Value entryTy → StringMap → Bytes → Option (StringMap × Bytes)
  | 0, _, map, s => some (map, s)
  | left + 1, curr, map, s => do
      let (curr, s) ← read fresh entryTy curr s
      let (first, second) : Entry := curr
      readPairs fresh left curr (Function.update map first (some second)) s

/-- `data::Deserialize` into an object that holds a map already. -/
def deserializeData (fresh : (t : Ty) → Value t) (map : StringMap) (s : Bytes) :
    Option (StringMap × Bytes) := do
  let (size, s) ← readUnsignedInt s
  readPairs fresh size.toNat (fresh entryTy) map s

/-- Decoding into either of two destinations gives the value, and leaves what follows. -/
def DecodesAnew {σ : Type} (decode : σ → Bytes → Option (σ × Bytes)) (image : Bytes)
    (value dst dst' : σ) : Prop :=
  ∀ rest, decode dst (image ++ rest) = some (value, rest)
    ∧ decode dst' (image ++ rest) = some (value, rest)

variable {entries : List Entry} {map : StringMap} {k : BitVec 32} {x : Bytes}

def assignEntries (map : StringMap) (entries : List Entry) : StringMap :=
  entries.foldl (fun map p => Function.update map p.1 (some p.2)) map

theorem assignEntries_of_not_mem (hk : k ∉ entries.map Prod.fst) (map : StringMap) :
    assignEntries map entries k = map k := by
  induction entries generalizing map with
  | nil => rfl
  | cons p entries ih =>
      rw [List.map_cons, List.mem_cons, not_or] at hk
      exact (ih hk.2 _).trans (Function.update_of_ne hk.1 _ _)

theorem assignEntries_of_mem (hnodup : (entries.map Prod.fst).Nodup) (hmem : (k, x) ∈ entries)
    (map : StringMap) : assignEntries map entries k = some x := by
  induction entries generalizing map with
  | nil => cases hmem
  | cons p entries ih =>
      obtain ⟨hnot, hrest⟩ := List.nodup_cons.mp hnodup
      rcases List.mem_cons.mp hmem with rfl | hmem
      · exact (assignEntries_of_not_mem hnot _).trans (Function.update_self _ _ _)
      · exact ih hrest hmem _

/-- The entries of the other keys stay. -/
theorem assignEntries_eq_iff {value : StringMap} (hvalue : Enumerates entries value)
    (map : StringMap) :
    assignEntries map entries = value ↔ ∀ k, (map k).isSome = true → (value k).isSome = true := by
  have hkey : ∀ k, k ∈ entries.map Prod.fst ↔ (value k).isSome = true := by
    intro k
    rw [Option.isSome_iff_exists, List.mem_map]
    constructor
    · rintro ⟨⟨_, x⟩, hmem, rfl⟩
      exact ⟨x, (hvalue.mem_iff _ x).mp hmem⟩
    · rintro ⟨x, hx⟩
      exact ⟨(k, x), (hvalue.mem_iff k x).mpr hx, rfl⟩
  constructor
  · rintro rfl k hk
    by_contra hnone
    rw [assignEntries_of_not_mem fun hmem => hnone ((hkey k).mp hmem)] at hnone
    exact hnone hk
  · intro hsubset
    funext k
    by_cases hmem : k ∈ entries.map Prod.fst
    · obtain ⟨⟨_, x⟩, hentry, rfl⟩ := List.mem_map.mp hmem
      rw [assignEntries_of_mem hvalue.nodup hentry, (hvalue.mem_iff _ x).mp hentry]
    · have hvalueNone := fun h => hmem ((hkey k).mpr h)
      rw [assignEntries_of_not_mem hmem, Option.not_isSome_iff_eq_none.mp hvalueNone,
        Option.not_isSome_iff_eq_none.mp fun h => hvalueNone (hsubset k h)]

theorem readPairs_flatMap (fresh : (t : Ty) → Value t)
    (hentries : ∀ p ∈ entries, Fits entryTy p ∧ NulFree entryTy p) (curr : Value entryTy)
    (map : StringMap) (rest : Bytes) :
    readPairs fresh entries.length curr map (entries.flatMap (write entryTy) ++ rest)
      = some (assignEntries map entries, rest) := by
  induction entries generalizing curr map with
  | nil => rfl
  | cons p entries ih =>
      obtain ⟨⟨hfits, hfree⟩, hrest⟩ := List.forall_mem_cons.mp hentries
      have hbytes : (p :: entries).flatMap (write entryTy) ++ rest
          = write entryTy p ++ (entries.flatMap (write entryTy) ++ rest) :=
        List.append_assoc _ _ _
      have hread := read_write fresh entryTy hfits curr (entries.flatMap (write entryTy) ++ rest)
      rw [cut_eq_self entryTy hfree, ← hbytes] at hread
      rw [List.length_cons, readPairs, hread]
      exact ih hrest p (Function.update map p.1 (some p.2))

theorem deserializeData_serializeData (fresh : (t : Ty) → Value t)
    (hlength : entries.length < 2 ^ 31)
    (hentries : ∀ p ∈ entries, Fits entryTy p ∧ NulFree entryTy p) (map : StringMap)
    (rest : Bytes) :
    deserializeData fresh map (serializeData entries ++ rest)
      = some (assignEntries map entries, rest) := by
  have hsize : (BitVec.ofNat 32 entries.length).toNat = entries.length :=
    toNat_ofNat_of_lt (by omega)
  have hpairs := readPairs_flatMap fresh hentries (fresh entryTy) map rest
  rw [← hsize] at hpairs
  rw [deserializeData, serializeData, List.append_assoc, readUnsignedInt_writeUnsignedInt]
  exact hpairs

/-- **Leftovers.** Into any two destinations, a value of the stream types is decoded to itself. The
map of a `data` is so exactly if it has every key of the two maps that the destinations held. -/
theorem decodesAnew_iff (fresh : (t : Ty) → Value t) :
    (∀ (t : Ty) (v dst dst' : Value t), Fits t v → NulFree t v →
        DecodesAnew (read fresh t) (write t v) v dst dst')
      ∧ ∀ (entries : List Entry) (value map map' : StringMap), Enumerates entries value →
        entries.length < 2 ^ 31 → (∀ p ∈ entries, Fits entryTy p ∧ NulFree entryTy p) →
        (DecodesAnew (deserializeData fresh) (serializeData entries) value map map'
          ↔ ∀ k, (map k).isSome = true ∨ (map' k).isSome = true → (value k).isSome = true) := by
  constructor
  · intro t v dst dst' hfits hfree rest
    rw [read_write fresh t hfits, read_write fresh t hfits, cut_eq_self t hfree]
    exact ⟨rfl, rfl⟩
  · intro entries value map map' hvalue hlength hentries
    have hdecode := deserializeData_serializeData fresh hlength hentries
    have hsubset : ∀ map rest, deserializeData fresh map (serializeData entries ++ rest)
        = some (value, rest) ↔ ∀ k, (map k).isSome = true → (value k).isSome = true := by
      intro map rest
      rw [hdecode, Option.some_inj, Prod.mk.injEq, and_iff_left rfl]
      exact assignEntries_eq_iff hvalue map
    constructor
    · intro h k hk
      obtain ⟨hfirst, hsecond⟩ := h []
      exact hk.elim ((hsubset map []).mp hfirst k) ((hsubset map' []).mp hsecond k)
    · intro h rest
      exact ⟨(hsubset map rest).mpr fun k hk => h k (.inl hk),
        (hsubset map' rest).mpr fun k hk => h k (.inr hk)⟩

def singleEntry (k : BitVec 32) (x : Bytes) : StringMap := fun k' => if k' = k then some x else none

theorem enumerates_singleEntry (k : BitVec 32) (x : Bytes) :
    Enumerates [(k, x)] (singleEntry k x) where
  nodup := List.pairwise_singleton _ k
  mem_iff k' x' := by
    rw [List.mem_singleton, Prod.mk.injEq, singleEntry, Option.ite_none_right_eq_some,
      Option.some_inj, eq_comm (a := x')]

theorem sampleEntry_fits : ∀ p ∈ ([(1, ofString "it")] : List Entry),
    Fits entryTy p ∧ NulFree entryTy p := by
  intro p hp
  rw [List.mem_singleton.mp hp]
  exact ⟨⟨trivial, (by decide : (ofString "it").length < 2 ^ 31)⟩, trivial,
    (by decide : 0 ∉ ofString "it")⟩

theorem decodesAnew_iff_sample :
    DecodesAnew (deserializeData zeroed) (serializeData [(1, ofString "it")])
      (singleEntry 1 (ofString "it")) (fun _ => none) (singleEntry 1 (ofString "Yay")) := by
  apply ((decodesAnew_iff zeroed).2 _ _ _ _ (enumerates_singleEntry 1 (ofString "it"))
    (by decide) sampleEntry_fits).mpr
  intro k hk
  by_cases hone : k = 1
  · rw [hone]
    rfl
  · rw [singleEntry, if_neg hone] at hk
    rcases hk with hk | hk <;> cases hk

/-- The map held an entry for 2 before, and still holds it. -/
theorem not_decodesAnew_leftover :
    Enumerates [(1, ofString "it")] (singleEntry 1 (ofString "it"))
      ∧ ¬DecodesAnew (deserializeData zeroed) (serializeData [(1, ofString "it")])
        (singleEntry 1 (ofString "it")) (fun _ => none) (singleEntry 2 (ofString "worked")) := by
  refine ⟨enumerates_singleEntry 1 (ofString "it"), fun h => ?_⟩
  have hsecond := (h []).2
  rw [deserializeData_serializeData zeroed (by decide) sampleEntry_fits, Option.some_inj,
    Prod.mk.injEq] at hsecond
  have htwo : some (ofString "worked") = none := congrFun hsecond.1 2
  cases htwo

end Networking.Stream
