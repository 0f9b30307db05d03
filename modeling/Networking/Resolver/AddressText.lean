import Networking.Lib.Presentation
import Networking.Resolver.Answers

/-!
# Reading the text of `ParseIP`

The addresses that are queried next and those that are reported go through the text that `ParseIP`
makes. `inet_pton` gives the bytes back.
-/

namespace Networking.Resolver

open Presentation Wire

variable {b b' : Bytes}

theorem hexByte_toNat (c : Byte) : hexByte c.toNat = hexPair c := by
  rw [hexByte, ofString_ofList]
  rfl

theorem ipv6Text_eq (b : Bytes) : ipv6Text b = [58].intercalate
    (((List.range 8).map fun i => (byteAt b (2 * i), byteAt b (2 * i + 1))).map fun p =>
      hexPair p.1 ++ hexPair p.2) := by
  simp only [ipv6Text, hexByte_toNat, List.map_map]
  rfl

/-- The eight groups have the bytes in their order. -/
theorem flatMap_pairs (hlen : b.length = 16) :
    ((List.range 8).map fun i => (byteAt b (2 * i), byteAt b (2 * i + 1))).flatMap
      (fun p => [p.1, p.2]) = b := by
  match b, hlen with
  | [_, _, _, _, _, _, _, _, _, _, _, _, _, _, _, _], _ => rfl

theorem ptonV6_parseIP (hlen : b.length = 16) : ptonV6 (parseIP b true) = some b := by
  rw [parseIP_eq_ipv6Text hlen, ipv6Text_eq, ptonV6_intercalate (by simp), flatMap_pairs hlen]

theorem ptonV4_parseIP (hlen : b.length = 4) : ptonV4 (parseIP b false) = some b := by
  rw [parseIP_eq_dottedQuad hlen]
  exact ptonV4_intercalate hlen

theorem colon_mem_parseIP (hlen : b.length = 16) : 58 ∈ parseIP b true := by
  -- the third byte begins a group
  have htwo : (b[2], 2) ∈ b.zipIdx :=
    List.mk_mem_zipIdx_iff_getElem?.mpr (List.getElem?_eq_getElem _)
  refine List.mem_flatMap.mpr ⟨(b[2], 2), htwo, List.mem_append_left _ ?_⟩
  change 58 ∈ ofString ":"
  decide

theorem colon_not_mem_parseIP (b : Bytes) : 58 ∉ parseIP b false := by
  intro hmem
  obtain ⟨⟨c, i⟩, -, hc⟩ := List.mem_flatMap.mp hmem
  rcases List.mem_append.mp hc with hdot | hdigit
  · split_ifs at hdot
    · exact absurd (List.mem_singleton.mp hdot) (by decide)
    · cases hdot
  · exact absurd (digit_of_mem_ofString hdigit).2 (by decide)

/-- What is read from a text is the only thing that it stands for. -/
theorem eq_of_read {read : Bytes → Option Bytes} {text text' : Bytes} (h : read text = some b)
    (h' : read text' = some b') (heq : text = text') : b = b' := by
  rw [heq, h'] at h
  exact (Option.some.inj h).symm

/-- **The text of an address** is read as the address, and no two addresses have the same text. -/
theorem parseIP_read :
    (∀ b : Bytes, b.length = 16 → ptonV6 (parseIP b true) = some b)
      ∧ (∀ b : Bytes, b.length = 4 → ptonV4 (parseIP b false) = some b)
      ∧ ∀ b b' : Bytes, b.length = 4 ∨ b.length = 16 → b'.length = 4 ∨ b'.length = 16 → b ≠ b' →
        parseIP b (b.length = 16) ≠ parseIP b' (b'.length = 16) := by
  refine ⟨fun b => ptonV6_parseIP, fun b => ptonV4_parseIP, ?_⟩
  intro b b' hb hb' hne htext
  rcases hb with hfour | hsixteen <;> rcases hb' with hfour' | hsixteen'
  · rw [hfour, hfour'] at htext
    exact hne (eq_of_read (ptonV4_parseIP hfour) (ptonV4_parseIP hfour') htext)
  · rw [hfour, hsixteen'] at htext
    exact colon_not_mem_parseIP b (htext ▸ colon_mem_parseIP hsixteen')
  · rw [hsixteen, hfour'] at htext
    exact colon_not_mem_parseIP b' (htext ▸ colon_mem_parseIP hsixteen)
  · rw [hsixteen, hsixteen'] at htext
    exact hne (eq_of_read (ptonV6_parseIP hsixteen) (ptonV6_parseIP hsixteen') htext)

/-- The groups of the first address have zeros in front, and the last two addresses have the same
digits. -/
theorem parseIP_read_samples :
    ptonV6 (parseIP [32, 1, 13, 184, 0, 0, 0, 0, 0, 0, 0, 0, 0, 255, 0, 10] true)
        = some [32, 1, 13, 184, 0, 0, 0, 0, 0, 0, 0, 0, 0, 255, 0, 10]
      ∧ ptonV4 (parseIP [129, 82, 255, 0] false) = some [129, 82, 255, 0]
      ∧ parseIP [1, 11, 1, 1] false ≠ parseIP [11, 1, 1, 1] false :=
  ⟨parseIP_read.1 _ rfl, parseIP_read.2.1 _ rfl,
    parseIP_read.2.2 [1, 11, 1, 1] [11, 1, 1, 1] (.inl rfl) (.inl rfl) (by decide)⟩

end Networking.Resolver
