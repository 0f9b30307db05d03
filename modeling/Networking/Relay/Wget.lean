import Networking.Lib.CString
import Networking.Lib.Shell
import Networking.Relay.Request

/-!
# The command of the last stepping stone

`last_ss` has `wget` fetch the file. The command goes to a shell through a buffer of 256 bytes, and
the name in it is the one that the peer has sent.
-/

namespace Networking.Relay

open Wire Shell

/-- `buffer` of `last_ss`, with its terminator. -/
def commandSize : ℕ := 256

/-- `%d` for a descriptor. -/
def descriptorText (s : ℕ) : Bytes := ofString (String.ofList (Nat.toDigits 10 s))

/-- `snprintf(buffer, sizeof(buffer), "wget %s --output-document=file_%d.tmp --quiet", fname, s)`,
and what `system` is given. -/
def lastSsCommand (s : ℕ) (fname : Bytes) : Except Stop Bytes := do
  let name ← cstr fname
  let text := ofString "wget " ++ name ++ ofString " --output-document=file_" ++ descriptorText s
    ++ ofString ".tmp --quiet"
  .ok (text.take (commandSize - 1))

def outputOption (s : ℕ) : Bytes :=
  ofString "--output-document=file_" ++ descriptorText s ++ ofString ".tmp"

/-- The shell runs `wget` once, on the name that has been received. -/
def RunsWget (literal : Bytes → Prop) (s : ℕ) (fname : Bytes) : Prop :=
  ∃ command, lastSsCommand s fname = .ok command ∧ Simple literal command
    [ofString "wget", CString.text fname, outputOption s, ofString "--quiet"]

variable {literal : Bytes → Prop} {s : ℕ} {fname : Bytes}

theorem isOrdinary_of_digit {c : Byte} (hlow : 48 ≤ c) (hhigh : c ≤ 57) :
    isOrdinary c = true ∧ isPattern c = false := by
  simp only [isOrdinary, isBlank, isActive, isQuoting, isPattern, ofString]
  simp
  bv_omega

theorem plain_outputOption (literal : Bytes → Prop) (s : ℕ) : Plain literal (outputOption s) := by
  have hdigits : ∀ c ∈ descriptorText s, isOrdinary c = true ∧ isPattern c = false := fun c hc =>
    isOrdinary_of_digit (digit_of_mem_ofString hc).1 (digit_of_mem_ofString hc).2
  have hall : ∀ c ∈ outputOption s, isOrdinary c = true ∧ isPattern c = false := by
    intro c hc
    rcases List.mem_append.mp hc with hfront | hback
    · rcases List.mem_append.mp hfront with hoption | hdigit
      · exact (by decide : ∀ c ∈ ofString "--output-document=file_", isOrdinary c = true
          ∧ isPattern c = false) c hoption
      · exact hdigits c hdigit
    · exact (by decide : ∀ c ∈ ofString ".tmp", isOrdinary c = true
        ∧ isPattern c = false) c hback
  have hhead : (outputOption s).head? = some 45 := rfl
  refine ⟨List.cons_ne_nil _ _, fun c hc => (hall c hc).1, by rw [hhead]; decide, fun h => ?_⟩
  rw [hasPattern, Bool.or_eq_true, List.any_eq_true, hhead] at h
  rcases h with ⟨c, hc, hpattern⟩ | htilde
  · rw [(hall c hc).2] at hpattern
    cases hpattern
  · exact absurd htilde (by decide)

/-- What the command consists of before it is cut. -/
def commandWords (s : ℕ) (name : Bytes) : List Bytes :=
  [ofString "wget", name, outputOption s, ofString "--quiet"]

theorem lineOf_commandWords (s : ℕ) (name : Bytes) :
    lineOf (commandWords s name) = ofString "wget " ++ name ++ ofString " --output-document=file_"
      ++ descriptorText s ++ ofString ".tmp --quiet" := by
  have hfront : ofString "wget " = ofString "wget" ++ [32] := by decide
  have hoption : ofString " --output-document=file_"
      = 32 :: ofString "--output-document=file_" := by
    decide
  have hback : ofString ".tmp --quiet" = ofString ".tmp" ++ 32 :: ofString "--quiet" := by decide
  rw [hfront, hoption, hback, commandWords, lineOf_cons_cons, lineOf_cons_cons, lineOf_cons_cons,
    lineOf_singleton, outputOption]
  simp only [List.append_assoc, List.cons_append, List.nil_append]

theorem lastSsCommand_eq (s : ℕ) (hname : 0 ∈ fname) :
    lastSsCommand s fname
      = .ok ((lineOf (commandWords s (CString.text fname))).take (commandSize - 1)) := by
  have hcstr : cstr fname = .ok (CString.text fname) := if_pos hname
  rw [lastSsCommand, hcstr, lineOf_commandWords]
  rfl

theorem length_commandWords (s : ℕ) (name : Bytes) :
    (lineOf (commandWords s name)).length = name.length + (descriptorText s).length + 41 := by
  have hfront : (ofString "wget ").length = 5 := by decide
  have hoption : (ofString " --output-document=file_").length = 24 := by decide
  have hback : (ofString ".tmp --quiet").length = 12 := by decide
  rw [lineOf_commandWords, List.length_append, List.length_append, List.length_append,
    List.length_append, hfront, hoption, hback]
  omega

/-- **The shell runs `wget` on the name and does nothing else** exactly if the name is a word that
stands for itself and the command fits in the buffer. -/
theorem runsWget_iff (literal : Bytes → Prop) (s : ℕ) (hname : 0 ∈ fname) :
    RunsWget literal s fname ↔ Plain literal (CString.text fname)
      ∧ (CString.text fname).length + (descriptorText s).length + 41 < commandSize := by
  have hlength := length_commandWords s (CString.text fname)
  have hcommand := lastSsCommand_eq s hname
  constructor
  · rintro ⟨command, hrun, hsimple⟩
    rw [hcommand] at hrun
    obtain rfl := Except.ok.inj hrun
    -- a command that is cut has no room for its last word
    have hle : (lineOf (commandWords s (CString.text fname))).length ≤ commandSize - 1 :=
      hsimple.length_le.trans (List.length_take_le _ _)
    rw [List.take_of_length_le hle] at hsimple
    have hplain := (simple_lineOf_iff (List.cons_ne_nil _ _)).mp hsimple
    have hfit : 0 < commandSize := by decide
    exact ⟨hplain _ (.tail _ (.head _)), by omega⟩
  · rintro ⟨hplain, hfit⟩
    refine ⟨_, hcommand, ?_⟩
    rw [List.take_of_length_le (by omega)]
    apply (simple_lineOf_iff (List.cons_ne_nil _ _)).mpr
    intro word hword
    simp only [List.mem_cons, List.not_mem_nil, or_false] at hword
    rcases hword with rfl | rfl | rfl | rfl
    · exact .of_not_hasPattern (by decide) (by decide) (by decide) (by decide)
    · exact hplain
    · exact plain_outputOption literal s
    · exact .of_not_hasPattern (by decide) (by decide) (by decide) (by decide)

theorem runsWget_iff_mem : RunsWget literal s fname ↔ 0 ∈ fname
    ∧ Plain literal (CString.text fname)
    ∧ (CString.text fname).length + (descriptorText s).length + 41 < commandSize := by
  by_cases hname : 0 ∈ fname
  · rw [runsWget_iff literal s hname, and_iff_right hname]
  · refine iff_of_false ?_ fun h => hname h.1
    rintro ⟨command, hcommand, -⟩
    rw [lastSsCommand, cstr, if_neg hname] at hcommand
    cases hcommand

instance [DecidablePred literal] (word : Bytes) : Decidable (Plain literal word) :=
  decidable_of_iff (word ≠ [] ∧ word.all isOrdinary = true ∧ word.head? ≠ some 35
      ∧ (hasPattern word = true → literal word))
    ⟨fun ⟨hne, hordinary, hhead, hliteral⟩ =>
        ⟨hne, List.all_eq_true.mp hordinary, hhead, hliteral⟩,
      fun h => ⟨h.ne_nil, List.all_eq_true.mpr h.ordinary, h.head_ne, h.literal⟩⟩

instance [DecidablePred literal] : Decidable (RunsWget literal s fname) :=
  decidable_of_iff (fname.contains 0 = true ∧ Plain literal (CString.text fname)
      ∧ (CString.text fname).length + (descriptorText s).length + 41 < commandSize)
    (by rw [List.contains_iff_mem]; exact runsWget_iff_mem.symm)

theorem runsWget_iff_homePage :
    0 ∈ ofString "www.cs.colostate.edu/~cs457/" ++ [0]
      ∧ RunsWget (fun _ => False) 4 (ofString "www.cs.colostate.edu/~cs457/" ++ [0]) :=
  ⟨by decide, (runsWget_iff (fun _ => False) 4 (by decide)).mpr
    ⟨⟨by decide, by decide, by decide, by decide⟩, by decide⟩⟩

theorem not_runsWget_semicolon :
    0 ∈ ofString "a;rm -r ." ++ [0]
      ∧ ¬RunsWget (fun _ => True) 4 (ofString "a;rm -r ." ++ [0]) := by
  refine ⟨by decide, ?_⟩
  rintro ⟨command, hcommand, parsed, hparse, -⟩
  rw [lastSsCommand_eq 4 (by decide)] at hcommand
  obtain rfl := Except.ok.inj hcommand
  have hnone : parse ((lineOf (commandWords 4 (CString.text (ofString "a;rm -r ." ++ [0])))).take
      (commandSize - 1)) = none := by
    decide
  rw [hnone] at hparse
  cases hparse

end Networking.Relay
