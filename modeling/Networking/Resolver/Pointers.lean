import Networking.Resolver.Location

/-!
# Which pointers `recParse` follows

The mask with which `recParse` cuts the two marking bits off a pointer leaves six bits of the
fourteen. The names of a message are read right as long as their pointers lead below offset 64, and
for every offset beyond there is a message in which a pointer to it is misread.
-/

namespace Networking.Resolver

open Wire Fuel

variable {msg : Bytes} {off location : ℕ} {c : Byte}

/-! ### A name of one character -/

theorem length_copyLabel {count : ℕ} {label : Bytes} (h : copyLabel msg count off = .ok label) :
    label.length = count := by
  induction count generalizing off label with
  | zero =>
      cases h
      rfl
  | succ count ih =>
      obtain ⟨c, -, h⟩ := bind_eq_ok.mp h
      obtain ⟨rest, hrest, h⟩ := bind_eq_ok.mp h
      cases h
      rw [List.length_cons, ih hrest]

theorem head_copyLabel {count : ℕ} {label : Bytes}
    (h : copyLabel msg (count + 1) off = .ok (c :: label)) : byteAt msg off = c := by
  obtain ⟨d, hd, h⟩ := bind_eq_ok.mp h
  obtain ⟨rest, -, h⟩ := bind_eq_ok.mp h
  cases h
  by_cases hoff : off ≤ msg.length
  · rw [(guarded_charAt msg off).ok hoff] at hd
    exact Except.ok.inj hd
  · obtain ⟨e, he, -⟩ := (guarded_charAt msg off).fails hoff
    rw [he] at hd
    cases hd

/-- A name of one character is a label of length one or a pointer. -/
theorem recParse_eq_char {fuel : ℕ} (h : recParse msg fuel off true = .ok ([c], location)) :
    (byteAt msg off = 1 ∧ byteAt msg (off + 1) = c)
      ∨ (isPointer (byteAt msg off) ∧ ∃ off' fuel' location', linked msg off = some off'
        ∧ recParse msg fuel' off' true = .ok ([c], location')) := by
  cases fuel with
  | zero => cases h
  | succ fuel =>
      by_cases hin : Inside msg off
      case neg =>
        obtain ⟨e, -, he⟩ := exists_error_of_not_inside hin true
        rw [he] at h
        cases h
      simp only [recParse_succ hin.le, if_true] at h
      split_ifs at h with hzero hpointer
      · cases h
      · obtain ⟨value, hvalue, h⟩ := bind_eq_ok.mp h
        obtain ⟨r, hr, h⟩ := bind_eq_ok.mp h
        unfold Inside at hin
        rw [if_pos hpointer] at hin
        rw [(guarded_atoi16 msg off).ok hin] at hvalue
        cases hvalue
        have hname : r.1 = [c] := congrArg Prod.fst (Except.ok.inj h)
        rw [← hname, linked, if_neg hzero, if_pos hpointer]
        exact .inr ⟨hpointer, _, fuel, r.2, rfl, hr⟩
      · obtain ⟨label, hlabel, h⟩ := bind_eq_ok.mp h
        obtain ⟨r, -, h⟩ := bind_eq_ok.mp h
        have htext : label ++ r.1 = [c] := congrArg Prod.fst (Except.ok.inj h)
        have hlen := length_copyLabel hlabel
        have hne : (byteAt msg off).toNat ≠ 0 := fun h => hzero (BitVec.eq_of_toNat_eq h)
        have hone : (byteAt msg off).toNat = 1 := by
          have := congrArg List.length htext
          rw [List.length_append, List.length_singleton] at this
          omega
        obtain ⟨d, rfl⟩ := List.length_eq_one_iff.mp (hlen.trans hone)
        rw [List.singleton_append, List.cons.injEq] at htext
        rw [hone, htext.1] at hlabel
        exact .inl ⟨BitVec.eq_of_toNat_eq hone, head_copyLabel hlabel⟩

/-! ### A pointer that is misread -/

/-- The record in front of the target. -/
def padding (target : ℕ) : Record := ⟨[], 10, 1, 0, List.replicate (target - 23) 0⟩

def owned : Record := ⟨[[97]], 10, 1, 0, []⟩

def trapHeader : Bytes := [0, 0, 0, 0, 0, 0, 0, 3, 0, 0, 0, 0]

/-- Three records: one that fills the message up to `target`, one whose owner name stands there, and
one whose owner name is a pointer to it. -/
def trap (target : ℕ) : Bytes :=
  trapHeader ++ ([0] ++ ((padding target).body ++ ([1, 97] ++ ([0] ++ (owned.body
    ++ (bigEndian 2 (BitVec.ofNat 16 (0xC000 + target)) ++ (owned.body ++ [])))))))

variable {target : ℕ}

theorem length_padding (htarget : 64 ≤ target) : (padding target).body.length = target - 13 := by
  rw [Record.length_body, padding, List.length_replicate]
  omega

/-- What stands where in the message. -/
theorem trap_isPrefix (htarget : 64 ≤ target) :
    [0] <+: (trap target).drop 12 ∧ (padding target).body <+: (trap target).drop 13
      ∧ [1, 97] <+: (trap target).drop target ∧ [0] <+: (trap target).drop (target + 2)
      ∧ owned.body <+: (trap target).drop (target + 3)
      ∧ bigEndian 2 (BitVec.ofNat 16 (0xC000 + target)) <+: (trap target).drop (target + 13)
      ∧ owned.body <+: (trap target).drop (target + 15) := by
  have hall : trap target <+: (trap target).drop 0 := List.prefix_refl _
  have hroot := isPrefix_drop_of_append _ hall
  have hpadding := isPrefix_drop_of_append _ hroot
  have hlabel := isPrefix_drop_of_append _ hpadding
  have hzero := isPrefix_drop_of_append _ hlabel
  have hbody := isPrefix_drop_of_append _ hzero
  have hpointer := isPrefix_drop_of_append _ hbody
  have hlast := isPrefix_drop_of_append _ hpointer
  have hfirst : 0 + trapHeader.length + [(0 : Byte)].length + (padding target).body.length
      = target := by
    rw [length_padding htarget]
    change 13 + (target - 13) = target
    omega
  rw [hfirst] at hlabel hzero hbody hpointer hlast
  exact ⟨(List.prefix_append _ _).trans hroot, (List.prefix_append _ _).trans hpadding,
    (List.prefix_append _ _).trans hlabel, (List.prefix_append _ _).trans hzero,
    (List.prefix_append _ _).trans hbody, (List.prefix_append _ _).trans hpointer,
    (List.prefix_append _ _).trans hlast⟩

theorem trap_length (htarget : 64 ≤ target) : (trap target).length = target + 25 := by
  simp only [trap, List.length_append, length_padding htarget, length_bigEndian,
    Record.length_body, List.length_singleton, List.length_nil]
  change 12 + (1 + (target - 13 + (2 + (1 + (10 + (2 + (10 + 0))))))) = target + 25
  omega

theorem trap_nameAt (follow : ℕ → Prop) (htarget : 64 ≤ target) (hwidth : target < 2 ^ 14)
    (hfollow : follow target) :
    NameAt follow (trap target) 12 [] 13 .zero
      ∧ NameAt follow (trap target) target owned.owner (target + 3) .zero
      ∧ NameAt follow (trap target) (target + 13) owned.owner (target + 15) .pointer := by
  obtain ⟨hroot, -, hlabel, hzero, -, hpointer, -⟩ := trap_isPrefix htarget
  have hname : NameAt follow (trap target) target owned.owner (target + 3) .zero :=
    .label (by decide) (by decide) hlabel (.root hzero)
  exact ⟨.root hroot, hname, .pointer hpointer hwidth (by omega) hfollow hname⟩

theorem trap_counts (target : ℕ) : CountsAt (trap target) 0 3 0 0 := by
  have hbytes : bigEndian 2 (BitVec.ofNat 16 0) ++ (bigEndian 2 (BitVec.ofNat 16 3)
      ++ (bigEndian 2 (BitVec.ofNat 16 0) ++ bigEndian 2 (BitVec.ofNat 16 0)))
      = [0, 0, 0, 3, 0, 0, 0, 0] := by decide
  rw [CountsAt, hbytes]
  exact List.prefix_append [0, 0, 0, 3, 0, 0, 0, 0] _

theorem trap_wellFormed (htarget : 64 ≤ target) (hwidth : target < 2 ^ 14) :
    WellFormed (trap target) := by
  obtain ⟨hroot, hname, hpointed⟩ := trap_nameAt (fun _ => True) htarget hwidth trivial
  obtain ⟨-, hpadding, -, -, hbody, -, hlast⟩ := trap_isPrefix htarget
  have hlen : (padding target).rdata.length = target - 23 := List.length_replicate
  have hfirst : RecordAt (fun _ => True) (trap target) 12 (padding target) .zero
      (13 + 10 + (padding target).rdata.length) := .mk hroot (by omega) hpadding
  have hsecond : RecordAt (fun _ => True) (trap target) target owned .zero (target + 13) :=
    .mk hname (by decide) hbody
  have hthird : RecordAt (fun _ => True) (trap target) (target + 13) owned .pointer
      (target + 25) := .mk hpointed (by decide) hlast
  rw [hlen, show 13 + 10 + (target - 23) = target by omega] at hfirst
  refine ⟨0, [padding target, owned, owned], [], [], 12, target + 25, target + 25, by simp,
    trap_counts target, .nil,
    .cons hfirst trivial (.cons hsecond trivial (.cons hthird trivial .nil)), .nil, ?_⟩
  rw [trap_length htarget]
  exact .nil

def trapStart : Bytes :=
  trapHeader ++ ([0] ++ (bigEndian 2 (10 : BitVec 16) ++ (bigEndian 2 (1 : BitVec 16)
    ++ bigEndian 4 (0 : BitVec 32))))

theorem trapStart_isPrefix (target : ℕ) : trapStart <+: (trap target).drop 0 := by
  rw [List.drop_zero, trap, Record.body]
  simp only [trapStart, padding, List.append_assoc, List.prefix_append_right_inj]
  exact List.prefix_append _ _

theorem trapStart_bytes : ∀ i < 21,
    (trapStart.getD i 0 = 1 → i < 20 ∧ trapStart.getD (i + 1) 0 ≠ 97)
      ∧ isPointer (trapStart.getD i 0) = false := by
  decide

/-- Below offset 64, no name of the message is the one that stands at the target. -/
theorem trap_bytes (htarget : 64 ≤ target) (hwidth : target < 2 ^ 14) :
    (byteAt (trap target) (target % 64) = 1 → byteAt (trap target) (target % 64 + 1) ≠ 97)
      ∧ (isPointer (byteAt (trap target) (target % 64)) →
        linked (trap target) (target % 64) = some 0) := by
  obtain ⟨-, hpadding, -, -, -, -, -⟩ := trap_isPrefix htarget
  obtain ⟨-, -, -, hlength, hdata, -⟩ := Record.body_isPrefix hpadding
  have hlen : (padding target).rdata.length = target - 23 := List.length_replicate
  have hstart : ∀ i < 21, byteAt (trap target) i = trapStart.getD i 0 := by
    intro i hi
    have hbyte := byteAt_of_isPrefix (trapStart_isPrefix target) hi
    rw [Nat.zero_add] at hbyte
    rw [hbyte, List.getD_eq_getElem _ _ hi]
  have hzero : ∀ i, 23 ≤ i → i < 64 → byteAt (trap target) i = 0 := by
    intro i hlow hhigh
    obtain ⟨j, rfl⟩ := Nat.exists_eq_add_of_le hlow
    rw [byteAt_of_isPrefix hdata (by omega)]
    exact List.getElem_replicate _
  rw [bigEndian_two, hlen, toNat_ofNat_of_lt (by omega)] at hlength
  have hhigh : byteAt (trap target) 21 = BitVec.ofNat 8 ((target - 23) / 256) :=
    byteAt_of_isPrefix hlength (i := 0) (by simp)
  have hlow : byteAt (trap target) 22 = BitVec.ofNat 8 (target - 23) :=
    byteAt_of_isPrefix hlength (i := 1) (by simp)
  have hmod : target % 64 < 64 := Nat.mod_lt target (by decide)
  by_cases h21 : target % 64 < 21
  · obtain ⟨hone, hpointer⟩ := trapStart_bytes _ h21
    rw [← hstart _ h21] at hone hpointer
    refine ⟨fun h => ?_, fun h => ?_⟩
    · obtain ⟨hlt, hnext⟩ := hone h
      rwa [hstart _ (by omega)]
    · rw [hpointer] at h
      cases h
  by_cases h23 : 23 ≤ target % 64
  · rw [hzero _ h23 hmod]
    exact ⟨fun h => absurd h (by decide), fun h => absurd h (by decide)⟩
  rcases (by omega : target % 64 = 21 ∨ target % 64 = 22) with h | h
  -- the high byte of the length
  · rw [h, hhigh, hlow, isPointer_iff, BitVec.toNat_ofNat]
    refine ⟨fun _ hc => ?_, fun hc => absurd hc (by omega)⟩
    have hlast : (target - 23) % 256 = 97 :=
      (BitVec.toNat_ofNat _ 8).symm.trans (congrArg BitVec.toNat hc)
    omega
  -- its low byte, which may look like a pointer, and then to offset 0
  · rw [h]
    refine ⟨fun hc => ?_, fun hpointer => ?_⟩
    · have hlast : (target - 23) % 256 = 1 :=
        (BitVec.toNat_ofNat _ 8).symm.trans (congrArg BitVec.toNat (hlow.symm.trans hc))
      omega
    · have hbyte : (byteAt (trap target) 22).toNat = (target - 23) % 256 := by
        rw [hlow, BitVec.toNat_ofNat]
      have hnonzero : byteAt (trap target) 22 ≠ 0 := by
        intro hc
        rw [hc] at hpointer
        exact absurd hpointer (by decide)
      have hpointed := (isPointer_iff _).mp hpointer
      have hnext : (byteAt (trap target) 23).toNat = 0 := by
        rw [hzero 23 (by omega) (by omega)]
        rfl
      rw [linked, if_neg hnonzero, if_pos hpointer, word16, toNat_value16, hnext,
        if_pos (by omega), and_mask]
      apply congrArg some
      omega

/-- **A pointer beyond offset 63 is misread** in the message made for it. -/
theorem trap_misread (htarget : 64 ≤ target) (hwidth : target < 2 ^ 14) (fuel : ℕ) :
    recParse (trap target) fuel (target + 13) true ≠ .ok ([97], location) := by
  intro h
  obtain ⟨-, -, -, -, -, hpointer, -⟩ := trap_isPrefix htarget
  obtain ⟨hpointed, hlink⟩ := linked_pointer hwidth hpointer
  rcases recParse_eq_char h with ⟨hone, -⟩ | ⟨-, off, fuel, location, hoff, h⟩
  · rw [hone] at hpointed
    exact absurd hpointed (by decide)
  obtain rfl := Option.some.inj (hlink.symm.trans hoff)
  obtain ⟨hlabel, hzero⟩ := trap_bytes htarget hwidth
  rcases recParse_eq_char h with ⟨hone, hchar⟩ | ⟨hpointed, off, fuel, location, hoff, h⟩
  · exact hlabel hone hchar
  obtain rfl := Option.some.inj ((hzero hpointed).symm.trans hoff)
  have hbyte : byteAt (trap target) 0 = 0 := rfl
  rcases recParse_eq_char h with ⟨hone, -⟩ | ⟨hpointed, -⟩
  · rw [hbyte] at hone
    exact absurd hone (by decide)
  · rw [hbyte] at hpointed
    exact absurd hpointed (by decide)

/-! ### The names that are read right -/

/-- **The pointers of a message.** The names whose pointers lead to offsets of some kind are read
right in every message, exactly when all offsets of that kind are below 64. -/
theorem recParse_reads_iff (follow : ℕ → Prop) :
    (∀ msg off labels next ending, WellFormed msg → NameAt follow msg off labels next ending →
        ∃ location, Returns (fun fuel => recParse msg fuel off true) (dotted labels, location))
      ↔ ∀ target < 2 ^ 14, follow target → target < 64 := by
  constructor
  · intro h target hwidth hfollow
    by_contra hfar
    have htarget : 64 ≤ target := Nat.le_of_not_lt hfar
    obtain ⟨-, -, hname⟩ := trap_nameAt follow htarget hwidth hfollow
    obtain ⟨location, depth, hdepth⟩ := h _ _ _ _ _ (trap_wellFormed htarget hwidth) hname
    exact trap_misread htarget hwidth depth (hdepth depth le_rfl)
  · intro h msg off labels next ending _ hname
    exact ⟨_, recParse_nameAt (hname.mono h) true⟩

/-- The name at offset 64, and a pointer to it. -/
theorem not_recParse_reads :
    ¬∀ msg off labels next ending, WellFormed msg →
      NameAt (fun _ => True) msg off labels next ending →
      ∃ location, Returns (fun fuel => recParse msg fuel off true) (dotted labels, location) := by
  intro h
  obtain ⟨-, -, hname⟩ := trap_nameAt (fun _ => True) (le_refl 64) (by decide) trivial
  obtain ⟨location, depth, hdepth⟩ := h _ _ _ _ _ (trap_wellFormed (le_refl 64) (by decide)) hname
  exact trap_misread (le_refl 64) (by decide) depth (hdepth depth le_rfl)

end Networking.Resolver
