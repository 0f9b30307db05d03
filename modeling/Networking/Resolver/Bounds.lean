import Mathlib.Logic.Relation
import Networking.Lib.Fuel
import Networking.Resolver.Names
import Networking.Resolver.Success

/-!
# How far `parse` reads

Nothing in `parse` or below it looks at the size of the response, except `substr`. So it stays
within the message and its terminator exactly when the records that it expects lie there: every
label and every pointer on the way of a name, the fixed fields, and where data are taken out, their
start.
-/

namespace Networking.Resolver

open Wire Fuel

variable {msg : Bytes} {off off' next : ℕ}

/-! ### Where things stand -/

/-- The byte at an offset, or the terminator. -/
def byteAt (msg : Bytes) (off : ℕ) : Byte := msg.getD off 0

def word16 (msg : Bytes) (off : ℕ) : BitVec 16 := value16 (byteAt msg off) (byteAt msg (off + 1))

def isPointer (c : Byte) : Bool := bit c 7 && bit c 6

/-- Where a name goes on behind the label or the pointer at `off`. -/
def linked (msg : Bytes) (off : ℕ) : Option ℕ :=
  if byteAt msg off = 0 then none
  else if isPointer (byteAt msg off) then some (((word16 msg off).toNat + 1) &&& 63)
  else some (off + 1 + (byteAt msg off).toNat)

/-- The zero byte, the pointer or the label at `off` lies within the message and its terminator. -/
def Inside (msg : Bytes) (off : ℕ) : Prop :=
  off + (if isPointer (byteAt msg off) then 1 else (byteAt msg off).toNat) ≤ msg.length

/-- So does everything on the way of the name at `off`. -/
def NameInside (msg : Bytes) (off : ℕ) : Prop :=
  ∀ off', Relation.ReflTransGen (fun i j => linked msg i = some j) off off' → Inside msg off'

/-- The name at `off` has an end, and the fields behind it are read from `next` on. -/
inductive NameEnds (msg : Bytes) : ℕ → ℕ → Prop
  | zero {off : ℕ} (h : linked msg off = none) : NameEnds msg off off
  | link {off off' next : ℕ} (h : linked msg off = some off') (hrest : NameEnds msg off' next) :
      NameEnds msg off (if isPointer (byteAt msg off) then off + 2 else next)

/-- The records from `off` on lie within the message and its terminator, and of those that are
marked, the data start there. -/
def RecordsInside (msg : Bytes) : List Bool → ℕ → Prop
  | [], _ => True
  | marked :: rest, off => NameInside msg off ∧ ∀ next, NameEnds msg off next →
      next + 9 ≤ msg.length ∧ (marked = true → next + 10 ≤ msg.length)
        ∧ RecordsInside msg rest (next + 10 + (word16 msg (next + 8)).toNat)

/-- So does a signature record up to its signature. -/
def SignatureInside (msg : Bytes) (off : ℕ) : Prop :=
  NameInside msg off ∧ ∀ next, NameEnds msg off next →
    next + 27 ≤ msg.length ∧ NameInside msg (next + 28)
      ∧ ∀ last, NameEnds msg (next + 28) last → last + 1 ≤ msg.length

def AnswerInside (msg : Bytes) (off : ℕ) : Prop :=
  NameInside msg off ∧ ∀ next, NameEnds msg off next →
    next + 10 ≤ msg.length
      ∧ SignatureInside msg (next + 10 + (word16 msg (next + 8)).toNat)

/-- A count of the header as `parse` reads it. -/
def countAt (msg : Bytes) (off : ℕ) : BitVec 16 := (byteAt msg off).signExtend 16

/-- **The layout that `parse` relies on.** -/
def ResponseInside (response : Bytes) (qSize : ℕ) : Prop :=
  11 ≤ response.length ∧ (byteAt response 3 &&& 15 = 0 →
    if bit (byteAt response 2) 2 ∧ countAt response 7 ≠ 0 then AnswerInside response qSize
    else RecordsInside response
      (List.replicate ((countAt response 7).toNat + (countAt response 9).toNat) false
        ++ List.replicate (countAt response 11).toNat true) qSize)

/-! ### The readers -/

theorem guarded_charAt (msg : Bytes) (off : ℕ) :
    Guarded .depth (charAt msg off) (off ≤ msg.length) (byteAt msg off) := by
  unfold charAt byteAt
  rw [List.getD_eq_getElem?_getD]
  cases h : msg[off]? with
  | some c =>
      have hlt := (List.getElem?_eq_some_iff.mp h).1
      exact ⟨fun _ => rfl, fun hnot => absurd hlt.le hnot⟩
  | none =>
      have hle := List.getElem?_eq_none_iff.mp h
      refine ⟨fun hoff => if_pos (le_antisymm hoff hle), fun hnot => ⟨.read, ?_, nofun⟩⟩
      exact if_neg fun heq => hnot heq.le

theorem guarded_atoi8 (msg : Bytes) (off : ℕ) :
    Guarded .depth (atoi8 msg off) (off ≤ msg.length) (byteAt msg off, off + 1) :=
  (guarded_charAt msg off).map fun c => (c, off + 1)

theorem guarded_atoi16 (msg : Bytes) (off : ℕ) :
    Guarded .depth (atoi16 msg off) (off + 1 ≤ msg.length) (word16 msg off, off + 2) := by
  have hpair := (guarded_charAt msg off).bind (k := fun c => do
    let d ← charAt msg (off + 1)
    .ok (value16 c d, off + 2)) ((guarded_charAt msg (off + 1)).map fun d => (_, off + 2))
  exact hpair.congr (by omega)

theorem guarded_atoi32 (msg : Bytes) (off : ℕ) :
    ∃ value, Guarded .depth (atoi32 msg off) (off + 3 ≤ msg.length) (value, off + 4) := by
  refine ⟨_, fun h => if_pos (by omega), fun h => ⟨.copy, if_neg (by omega), nofun⟩⟩

theorem guarded_substr (msg : Bytes) (off count : ℕ) :
    Guarded .depth (substr msg off count) (off ≤ msg.length) ((msg.drop off).take count) :=
  ⟨fun h => if_pos h, fun h => ⟨.substr, if_neg h, nofun⟩⟩

theorem guarded_copyLabel (msg : Bytes) (count off : ℕ) :
    ∃ label, Guarded .depth (copyLabel msg count off) (count = 0 ∨ off + count ≤ msg.length + 1)
      label := by
  induction count generalizing off with
  | zero => exact ⟨_, (guarded_ok []).congr (iff_of_true trivial (.inl rfl))⟩
  | succ count ih =>
      obtain ⟨label, hlabel⟩ := ih (off + 1)
      have hboth := (guarded_charAt msg off).bind (k := fun c => do
        let rest ← copyLabel msg count (off + 1)
        .ok (c :: rest)) (hlabel.map fun rest => _ :: rest)
      exact ⟨_, hboth.congr (by omega)⟩

def fieldsBehind (records : Bytes) (r : Bytes × ℕ) : Except Fault (Fields × ℕ) := do
  let (type, location) ← atoi16 records r.2
  let (cls, location) ← atoi16 records location
  let (ttl, location) ← atoi32 records location
  let (rdlength, location) ← atoi16 records location
  return (⟨r.1, type, cls, ttl, rdlength⟩, location)

theorem readFields_eq (fuel : ℕ) (records : Bytes) (location : ℕ) :
    readFields fuel records location
      = recParse records fuel location true >>= fieldsBehind records := rfl

theorem guarded_fieldsBehind (msg name : Bytes) (next : ℕ) :
    ∃ fields : Fields, fields.rdlength = word16 msg (next + 8)
      ∧ Guarded .depth (fieldsBehind msg (name, next)) (next + 9 ≤ msg.length)
        (fields, next + 10) := by
  obtain ⟨ttl, httl⟩ := guarded_atoi32 msg (next + 4)
  refine ⟨⟨name, word16 msg next, word16 msg (next + 2), ttl, word16 msg (next + 8)⟩, rfl, ?_⟩
  have hread : Guarded .depth (fieldsBehind msg (name, next)) _ _ :=
    (guarded_atoi16 msg next).bind ((guarded_atoi16 msg (next + 2)).bind
      (httl.bind ((guarded_atoi16 msg (next + 8)).bind (guarded_ok _))))
  exact hread.congr (by rw [and_true]; omega)

theorem guarded_readSigFields (msg : Bytes) (off : ℕ) :
    ∃ sig, Guarded .depth (readSigFields msg off) (off + 17 ≤ msg.length) (sig, off + 18) := by
  obtain ⟨orgTtl, horgTtl⟩ := guarded_atoi32 msg (off + 4)
  obtain ⟨sigExp, hsigExp⟩ := guarded_atoi32 msg (off + 8)
  obtain ⟨tSign, htSign⟩ := guarded_atoi32 msg (off + 12)
  have hread : Guarded .depth (readSigFields msg off) _ _ :=
    (guarded_atoi16 msg off).bind ((guarded_atoi8 msg (off + 2)).bind
      ((guarded_atoi8 msg (off + 3)).bind (horgTtl.bind (hsigExp.bind (htSign.bind
        ((guarded_atoi16 msg (off + 16)).bind (guarded_ok _)))))))
  exact ⟨_, hread.congr (by rw [and_true]; omega)⟩

/-! ### A name -/

theorem recParse_succ (hoff : off ≤ msg.length) (fuel : ℕ) (first : Bool) :
    recParse msg (fuel + 1) off first
      = if byteAt msg off = 0 then .ok ([], off)
        else if isPointer (byteAt msg off) then
          atoi16 msg off >>= fun value =>
            recParse msg fuel ((value.1.toNat + 1) &&& 63) first >>= fun r => .ok (r.1, value.2)
        else
          copyLabel msg (byteAt msg off).toNat (off + 1) >>= fun label =>
            recParse msg fuel (off + 1 + (byteAt msg off).toNat) false >>= fun r =>
              .ok (if first then label ++ r.1 else ofString "." ++ label ++ r.1, r.2) := by
  rw [recParse, (guarded_charAt msg off).ok hoff]
  rfl

theorem exists_error_of_not_inside (h : ¬Inside msg off) (first : Bool) :
    ∃ e, e ≠ .depth ∧ ∀ fuel, recParse msg (fuel + 1) off first = .error e := by
  unfold Inside at h
  by_cases hoff : off ≤ msg.length
  · have hzero : byteAt msg off ≠ 0 := by
      intro hzero
      rw [hzero] at h
      exact h hoff
    by_cases hpointer : isPointer (byteAt msg off)
    · rw [if_pos hpointer] at h
      obtain ⟨e, he, hne⟩ := (guarded_atoi16 msg off).fails h
      refine ⟨e, hne, fun fuel => ?_⟩
      rw [recParse_succ hoff, if_neg hzero, if_pos hpointer, he, error_bind]
    · rw [if_neg hpointer] at h
      obtain ⟨label, hlabel⟩ := guarded_copyLabel msg (byteAt msg off).toNat (off + 1)
      obtain ⟨e, he, hne⟩ := hlabel.fails (by omega)
      refine ⟨e, hne, fun fuel => ?_⟩
      rw [recParse_succ hoff, if_neg hzero, if_neg hpointer, he, error_bind]
  · obtain ⟨e, he, hne⟩ := (guarded_charAt msg off).fails hoff
    exact ⟨e, hne, fun fuel => by rw [recParse, he, error_bind]⟩

theorem Inside.le (hin : Inside msg off) : off ≤ msg.length := (Nat.le_add_right _ _).trans hin

theorem recParse_of_linked_none (hin : Inside msg off) (h : linked msg off = none) (fuel : ℕ)
    (first : Bool) : recParse msg (fuel + 1) off first = .ok ([], off) := by
  unfold linked at h
  split_ifs at h with hzero
  rw [recParse_succ hin.le, if_pos hzero]

/-- A label or a pointer is a call for what it leads to, and only a label leaves the location where
that call does. -/
theorem recParse_of_linked (hin : Inside msg off) (h : linked msg off = some off') (first : Bool) :
    ∃ (first' : Bool) (text : Bytes → Bytes), ∀ fuel, recParse msg (fuel + 1) off first
      = recParse msg fuel off' first' >>= fun r =>
        .ok (text r.1, if isPointer (byteAt msg off) then off + 2 else r.2) := by
  have hlast : off + (if isPointer (byteAt msg off) then 1 else (byteAt msg off).toNat)
      ≤ msg.length := hin
  unfold linked at h
  split_ifs at h hlast with hzero hpointer
  · cases h
    refine ⟨first, id, fun fuel => ?_⟩
    rw [recParse_succ hin.le, if_neg hzero, if_pos hpointer, (guarded_atoi16 msg off).ok hlast,
      ok_bind]
    simp only [if_pos hpointer, id]
  · cases h
    obtain ⟨label, hlabel⟩ := guarded_copyLabel msg (byteAt msg off).toNat (off + 1)
    refine ⟨false, fun rest => if first then label ++ rest else ofString "." ++ label ++ rest,
      fun fuel => ?_⟩
    rw [recParse_succ hin.le, if_neg hzero, if_neg hpointer, hlabel.ok (by omega), ok_bind]
    simp only [if_neg hpointer]

theorem stable_recParse (msg : Bytes) (off : ℕ) (first : Bool) :
    Stable .depth fun fuel => recParse msg fuel off first := by
  intro fuel
  induction fuel generalizing off first with
  | zero => exact fun h => absurd rfl h
  | succ fuel ih =>
      intro h
      dsimp only at h ih ⊢
      by_cases hin : Inside msg off
      · cases hlink : linked msg off with
        | none => rw [recParse_of_linked_none hin hlink, recParse_of_linked_none hin hlink]
        | some off' =>
            obtain ⟨first', text, hcall⟩ := recParse_of_linked hin hlink first
            rw [hcall] at h
            have hne : recParse msg fuel off' first' ≠ .error .depth := by
              intro he
              rw [he, error_bind] at h
              exact h rfl
            rw [hcall, hcall, ih off' first' hne]
      · obtain ⟨e, -, he⟩ := exists_error_of_not_inside hin first
        rw [he, he]

theorem NameInside.inside (h : NameInside msg off) : Inside msg off := h off .refl

theorem NameInside.linked (h : NameInside msg off) (hlink : linked msg off = some off') :
    NameInside msg off' :=
  fun i hi => h i (.head hlink hi)

theorem inside_of_safe {first : Bool}
    (hsafe : Safe .depth fun fuel => recParse msg fuel off first) : Inside msg off := by
  by_contra hin
  obtain ⟨e, hne, he⟩ := exists_error_of_not_inside hin first
  exact hne (hsafe 1 e (he 0))

theorem exists_safe_of_linked {first : Bool}
    (hsafe : Safe .depth fun fuel => recParse msg fuel off first)
    (hlink : linked msg off = some off') :
    ∃ first', Safe .depth fun fuel => recParse msg fuel off' first' := by
  obtain ⟨first', text, hcall⟩ := recParse_of_linked (inside_of_safe hsafe) hlink first
  refine ⟨first', fun fuel e he => hsafe (fuel + 1) e ?_⟩
  dsimp only at he ⊢
  rw [hcall, he, error_bind]

/-- **A name is read within the message** exactly when all that lies on its way is there. -/
theorem safe_recParse_iff (msg : Bytes) (off : ℕ) (first : Bool) :
    Safe .depth (fun fuel => recParse msg fuel off first) ↔ NameInside msg off := by
  constructor
  · intro hsafe off' hreach
    induction hreach using Relation.ReflTransGen.head_induction_on generalizing first with
    | refl => exact inside_of_safe hsafe
    | head hlink _ ih =>
        obtain ⟨first', hsafe'⟩ := exists_safe_of_linked hsafe hlink
        exact ih first' hsafe'
  · intro hname fuel
    induction fuel generalizing off first with
    | zero =>
        intro e he
        exact (Except.error.inj he).symm
    | succ fuel ih =>
        intro e he
        dsimp only at he
        cases hlink : linked msg off with
        | none =>
            rw [recParse_of_linked_none hname.inside hlink] at he
            cases he
        | some off' =>
            obtain ⟨first', text, hcall⟩ := recParse_of_linked hname.inside hlink first
            rw [hcall] at he
            cases hr : recParse msg fuel off' first' with
            | error e' =>
                rw [hr, error_bind] at he
                cases he
                exact ih off' first' (hname.linked hlink) e hr
            | ok r =>
                rw [hr, ok_bind] at he
                cases he

theorem nameEnds_of_recParse {fuel : ℕ} {first : Bool} {r : Bytes × ℕ}
    (h : recParse msg fuel off first = .ok r) : NameEnds msg off r.2 := by
  induction fuel generalizing off first r with
  | zero => cases h
  | succ fuel ih =>
      by_cases hin : Inside msg off
      · cases hlink : linked msg off with
        | none =>
            rw [recParse_of_linked_none hin hlink] at h
            cases h
            exact .zero hlink
        | some off' =>
            obtain ⟨first', text, hcall⟩ := recParse_of_linked hin hlink first
            rw [hcall] at h
            obtain ⟨r', hr', heq⟩ := bind_eq_ok.mp h
            cases heq
            exact .link hlink (ih hr')
      · obtain ⟨e, -, he⟩ := exists_error_of_not_inside hin first
        rw [he] at h
        cases h

theorem exists_returns_of_nameEnds (hname : NameInside msg off) (hends : NameEnds msg off next)
    (first : Bool) :
    ∃ name, Returns (fun fuel => recParse msg fuel off first) (name, next) := by
  induction hends generalizing first with
  | @zero off hlink =>
      exact ⟨[], (returns_of_forall (f := fun _ => .ok ([], off)) fun _ => rfl).succ
        (recParse_of_linked_none hname.inside hlink · first)⟩
  | @link off off' next hlink _ ih =>
      obtain ⟨first', text, hcall⟩ := recParse_of_linked hname.inside hlink first
      obtain ⟨name, hreturns⟩ := ih (hname.linked hlink) first'
      exact ⟨text name, (hreturns.map fun r =>
        (text r.1, if isPointer (byteAt msg off) then off + 2 else r.2)).succ hcall⟩

/-- **What follows a name** is read where the name ends. -/
theorem safe_name_bind_iff {β : Type} {g : Bytes × ℕ → ℕ → Except Fault β} {P : ℕ → Prop}
    (hstable : ∀ r, Stable .depth (g r))
    (hsafe : ∀ name next, Safe .depth (g (name, next)) ↔ P next) (msg : Bytes) (off : ℕ) :
    Safe .depth (fun fuel => recParse msg fuel off true >>= fun r => g r fuel)
      ↔ NameInside msg off ∧ ∀ next, NameEnds msg off next → P next := by
  rw [safe_bind_iff (stable_recParse msg off true) hstable, safe_recParse_iff]
  apply and_congr_right
  intro hname
  constructor
  · intro h next hends
    obtain ⟨name, hreturns⟩ := exists_returns_of_nameEnds hname hends true
    exact (hsafe name next).mp (h _ hreturns)
  · rintro h r ⟨depth, hdepth⟩
    exact (hsafe r.1 r.2).mpr (h r.2 (nameEnds_of_recParse (hdepth depth le_rfl)))

/-! ### Records -/

variable {β : Type}

theorem stable_fields_bind {g : Fields × ℕ → ℕ → Except Fault β}
    (hstable : ∀ r, Stable .depth (g r)) (msg : Bytes) (off : ℕ) :
    Stable .depth fun fuel => readFields fuel msg off >>= fun r => g r fuel :=
  ((stable_recParse msg off true).bind fun r => stable_const (fieldsBehind msg r)).bind hstable

theorem safe_fields_bind_iff {g : Fields × ℕ → ℕ → Except Fault β} {P : ℕ → Prop}
    (hstable : ∀ r, Stable .depth (g r))
    (hsafe : ∀ fields next, fields.rdlength = word16 msg (next + 8) →
      (Safe .depth (g (fields, next + 10)) ↔ P next)) (off : ℕ) :
    Safe .depth (fun fuel => readFields fuel msg off >>= fun r => g r fuel)
      ↔ NameInside msg off ∧ ∀ next, NameEnds msg off next → next + 9 ≤ msg.length ∧ P next := by
  simp only [readFields_eq, bind_assoc]
  refine safe_name_bind_iff (fun r => (stable_const _).bind hstable) (fun name next => ?_) msg off
  obtain ⟨fields, hlength, hfields⟩ := guarded_fieldsBehind msg name next
  rw [hfields.safe_bind_iff, hsafe fields next hlength]

theorem stable_skipRecords (msg : Bytes) (count off : ℕ) :
    Stable .depth fun fuel => skipRecords fuel msg count off := by
  induction count generalizing off with
  | zero => exact stable_const _
  | succ count ih => exact stable_fields_bind (fun r => ih _) msg off

theorem safe_skip_bind_iff {g : ℕ → ℕ → Except Fault β} (hstable : ∀ off, Stable .depth (g off))
    {rest : List Bool} (hsafe : ∀ off, Safe .depth (g off) ↔ RecordsInside msg rest off)
    (count off : ℕ) :
    Safe .depth (fun fuel => skipRecords fuel msg count off >>= fun off => g off fuel)
      ↔ RecordsInside msg (List.replicate count false ++ rest) off := by
  induction count generalizing off with
  | zero => exact hsafe off
  | succ count ih =>
      simp only [skipRecords, bind_assoc]
      calc Safe .depth (fun fuel => readFields fuel msg off >>= fun r =>
            skipRecords fuel msg count (r.2 + r.1.rdlength.toNat) >>= fun off => g off fuel)
          ↔ NameInside msg off ∧ ∀ next, NameEnds msg off next → next + 9 ≤ msg.length
            ∧ RecordsInside msg (List.replicate count false ++ rest)
              (next + 10 + (word16 msg (next + 8)).toNat) := by
            apply safe_fields_bind_iff (fun r => (stable_skipRecords msg count _).bind hstable)
            intro fields next hlength
            rw [← hlength]
            exact ih _
        _ ↔ RecordsInside msg (List.replicate (count + 1) false ++ rest) off := by
            simp only [List.replicate_succ, List.cons_append, RecordsInside, Bool.false_eq_true,
              false_implies, true_and]

theorem stable_addRecords (msg : Bytes) (count off : ℕ) (newList : List Server) :
    Stable .depth fun fuel => addRecords fuel msg count off newList := by
  induction count generalizing off newList with
  | zero => exact stable_const _
  | succ count ih =>
      exact stable_fields_bind (fun r => (stable_const _).bind fun bytes => ih _ _) msg off

theorem safe_addRecords_iff (msg : Bytes) (count off : ℕ) (newList : List Server) :
    Safe .depth (fun fuel => addRecords fuel msg count off newList)
      ↔ RecordsInside msg (List.replicate count true) off := by
  induction count generalizing off newList with
  | zero => exact iff_of_true (safe_ok newList) trivial
  | succ count ih =>
      calc Safe .depth (fun fuel => addRecords fuel msg (count + 1) off newList)
          ↔ NameInside msg off ∧ ∀ next, NameEnds msg off next → next + 9 ≤ msg.length
            ∧ next + 10 ≤ msg.length ∧ RecordsInside msg (List.replicate count true)
              (next + 10 + (word16 msg (next + 8)).toNat) := by
            apply safe_fields_bind_iff
              (fun r => (stable_const _).bind fun bytes => stable_addRecords msg count _ _)
            intro fields next hlength
            rw [(guarded_substr msg (next + 10) fields.rdlength.toNat).safe_bind_iff, ← hlength,
              ih]
        _ ↔ RecordsInside msg (List.replicate (count + 1) true) off := by
            simp only [List.replicate_succ, RecordsInside, true_implies]

/-- **`nextParse` reads within the message** exactly when the records of the three sections do. -/
theorem safe_nextParse_iff (msg : Bytes) (off : ℕ) (ancount nscount arcount : BitVec 16) :
    Safe .depth (fun fuel => nextParse fuel msg off ancount nscount arcount)
      ↔ RecordsInside msg (List.replicate (ancount.toNat + nscount.toNat) false
        ++ List.replicate arcount.toNat true) off := by
  rw [← List.replicate_append_replicate, List.append_assoc]
  refine safe_skip_bind_iff (fun off => (stable_skipRecords msg _ off).bind fun off =>
    stable_addRecords msg _ off []) (fun off => ?_) _ off
  exact safe_skip_bind_iff (fun off => stable_addRecords msg _ off [])
    (fun off => safe_addRecords_iff msg _ off []) _ off

/-! ### The answer -/

variable {lib : Library} {queryName : Bytes}

theorem stable_parseRRSIG (lib : Library) (msg : Bytes) (off : ℕ) :
    Stable .depth fun fuel => parseRRSIG lib fuel msg off :=
  stable_fields_bind (fun _ => (stable_const _).bind fun _ =>
    (stable_recParse msg _ true).bind fun _ => stable_const _) msg off

theorem safe_parseRRSIG_iff (lib : Library) (msg : Bytes) (off : ℕ) :
    Safe .depth (fun fuel => parseRRSIG lib fuel msg off) ↔ SignatureInside msg off := by
  calc Safe .depth (fun fuel => parseRRSIG lib fuel msg off)
      ↔ NameInside msg off ∧ ∀ next, NameEnds msg off next → next + 9 ≤ msg.length
        ∧ next + 27 ≤ msg.length ∧ NameInside msg (next + 28)
        ∧ ∀ last, NameEnds msg (next + 28) last → last + 1 ≤ msg.length := by
        apply safe_fields_bind_iff (fun _ => (stable_const _).bind fun _ =>
          (stable_recParse msg _ true).bind fun _ => stable_const _)
        intro fields next _
        obtain ⟨sig, hsig⟩ := guarded_readSigFields msg (next + 10)
        rw [hsig.safe_bind_iff]
        refine and_congr (by omega) (safe_name_bind_iff (fun _ => stable_const _)
          (fun name last => ?_) msg (next + 28))
        exact (guarded_substr msg (last + 1) _).safe_bind_iff.trans (and_iff_left (safe_ok _))
    _ ↔ SignatureInside msg off := by
        refine and_congr_right fun _ => forall₂_congr fun next _ => and_iff_right_of_imp ?_
        intro h
        exact le_trans (by omega) h.1

theorem safe_successParse_iff (lib : Library) (queryName msg : Bytes) (off : ℕ)
    (ancount : BitVec 16) :
    Safe .depth (fun fuel => successParse lib queryName fuel msg off ancount)
      ↔ AnswerInside msg off := by
  calc Safe .depth (fun fuel => successParse lib queryName fuel msg off ancount)
      ↔ NameInside msg off ∧ ∀ next, NameEnds msg off next → next + 9 ≤ msg.length
        ∧ next + 10 ≤ msg.length
        ∧ SignatureInside msg (next + 10 + (word16 msg (next + 8)).toNat) := by
        apply safe_fields_bind_iff (fun _ => (stable_const _).bind fun _ =>
          (stable_parseRRSIG lib msg _).bind fun _ => stable_const _)
        intro fields next hlength
        rw [(guarded_substr msg (next + 10) fields.rdlength.toNat).safe_bind_iff, ← hlength,
          ← safe_parseRRSIG_iff lib]
        exact and_congr_right fun _ => safe_map_iff _
    _ ↔ AnswerInside msg off := by
        refine and_congr_right fun _ => forall₂_congr fun next _ => and_iff_right_of_imp ?_
        intro h
        exact le_trans (by omega) h.1

/-! ### A response -/

def readHeader (response : Bytes) : Except Fault (Byte × Byte × Byte × Byte × Byte) := do
  let c2 ← charAt response 2
  let c3 ← charAt response 3
  let c7 ← charAt response 7
  let c9 ← charAt response 9
  let c11 ← charAt response 11
  return (c2, c3, c7, c9, c11)

theorem guarded_readHeader (response : Bytes) :
    Guarded .depth (readHeader response) (11 ≤ response.length)
      (byteAt response 2, byteAt response 3, byteAt response 7, byteAt response 9,
        byteAt response 11) := by
  have hread : Guarded .depth (readHeader response) _ _ :=
    (guarded_charAt response 2).bind ((guarded_charAt response 3).bind
      ((guarded_charAt response 7).bind ((guarded_charAt response 9).bind
        ((guarded_charAt response 11).bind (guarded_ok _)))))
  exact hread.congr (by rw [and_true]; omega)

/-- What `parse` does, with `successParse`, once it has read the header. -/
def parseBehind (lib : Library) (queryName response : Bytes) (qSize : ℕ)
    (h : Byte × Byte × Byte × Byte × Byte) (fuel : ℕ) : Except Fault (Parsed × Bytes) :=
  let (c2, c3, c7, c9, c11) := h
  let ancount := c7.signExtend 16
  match (c3 &&& 15).toNat with
  | 0 =>
      if bit c2 2 && ancount ≠ 0 then
        successParse lib queryName fuel response qSize ancount >>= fun printed =>
          .ok (.successParse response qSize ancount, printed)
      else
        nextParse fuel response qSize ancount (c9.signExtend 16) (c11.signExtend 16) >>= fun list =>
          .ok (.servers list, [])
  | 1 => .ok (.fatal, [])
  | 3 => if bit c2 2 && ancount = 0 then .ok (.noRecord, []) else .ok (.servers [], [])
  | _ => .ok (.servers [], [])

theorem parseAndPrint_eq (fuel : ℕ) (response : Bytes) (qSize : ℕ) :
    parseAndPrint lib queryName fuel response qSize
      = readHeader response >>= fun h => parseBehind lib queryName response qSize h fuel := by
  simp only [parseAndPrint, parse, readHeader, bind_assoc, pure_bind]
  refine bind_congr fun c2 => bind_congr fun c3 => bind_congr fun c7 => bind_congr fun c9 =>
    bind_congr fun c11 => ?_
  unfold parseBehind
  dsimp only
  generalize (c3 &&& 15).toNat = rcode
  match rcode with
  | 0 =>
      change (ite _ _ _ >>= _) = ite _ _ _
      split_ifs
      · rfl
      · rw [bind_assoc]
        rfl
  | 1 | 2 | _ + 4 => rfl
  | 3 => split_ifs <;> rfl

theorem safe_parseBehind_iff (response : Bytes) (qSize : ℕ) :
    Safe .depth (parseBehind lib queryName response qSize (byteAt response 2, byteAt response 3,
        byteAt response 7, byteAt response 9, byteAt response 11))
      ↔ (byteAt response 3 &&& 15 = 0 →
        if bit (byteAt response 2) 2 ∧ countAt response 7 ≠ 0 then AnswerInside response qSize
        else RecordsInside response
          (List.replicate ((countAt response 7).toNat + (countAt response 9).toNat) false
            ++ List.replicate (countAt response 11).toNat true) qSize) := by
  have hzero : byteAt response 3 &&& 15 = 0 ↔ (byteAt response 3 &&& 15).toNat = 0 :=
    BitVec.toNat_inj.symm
  rw [hzero]
  unfold parseBehind countAt
  dsimp only
  generalize (byteAt response 3 &&& 15).toNat = rcode
  match rcode with
  | 0 =>
      refine Iff.trans ?_ (forall_prop_of_true rfl).symm
      change Safe _ (fun fuel => ite _ _ _) ↔ _
      have hboth : (bit (byteAt response 2) 2 && decide ((byteAt response 7).signExtend 16 ≠ 0))
          = true ↔ bit (byteAt response 2) 2 ∧ (byteAt response 7).signExtend 16 ≠ 0 := by
        rw [Bool.and_eq_true, decide_eq_true_eq]
      simp only [hboth]
      split_ifs
      · exact (safe_map_iff _).trans (safe_successParse_iff lib queryName response qSize _)
      · exact (safe_map_iff _).trans (safe_nextParse_iff response qSize _ _ _)
  | 1 | 2 | _ + 4 => exact iff_of_true (safe_ok _) nofun
  | 3 =>
      refine iff_of_true ?_ nofun
      change Safe _ (fun fuel => ite _ _ _)
      split_ifs <;> exact safe_ok _

/-- **How far `parse` reads.** For every response and every offset, `parse` and all that it calls
read, copy and take out nothing behind the terminator exactly when the layout that it relies on is
there. -/
theorem reads_inside_iff (lib : Library) (queryName response : Bytes) (qSize : ℕ) :
    (∀ fuel fault, parseAndPrint lib queryName fuel response qSize = .error fault →
        fault = .depth)
      ↔ ResponseInside response qSize := by
  have hsafe := (guarded_readHeader response).safe_bind_iff
    (g := parseBehind lib queryName response qSize)
  simp only [← parseAndPrint_eq] at hsafe
  exact hsafe.trans (and_congr_right fun _ => safe_parseBehind_iff response qSize)

/-- An empty response is read at index 2. -/
theorem not_reads_inside :
    ¬∀ (lib : Library) (queryName response : Bytes) (qSize : ℕ), response.length ≤ 8191 →
      ∀ fuel fault, parseAndPrint lib queryName fuel response qSize = .error fault →
        fault = .depth := by
  intro h
  cases h ⟨id, id⟩ [] [] 0 (Nat.zero_le _) 0 .read rfl

end Networking.Resolver
