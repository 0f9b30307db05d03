import Mathlib.Algebra.Group.Nat.Defs
import Mathlib.Data.List.Perm.Subperm
import Mathlib.Order.Fin.Basic
import Networking.Lib.SortedMap
import Networking.Lib.Transition

/-!
# `_service`

`add_port` tries the addresses of a port until a socket is bound to one, and enters the socket in
`ports`; the destructor closes the sockets entered there. The system returns a descriptor that is
not open, so a number may come again once it is closed. `ports_master` has room for 1024 numbers;
behind it stand the other fields.
-/

namespace Networking.Net.Service

open Transition
open scoped List

abbrev Port := Fin (2 ^ 16)

/-- An entry of the list of `getaddrinfo`, with what `socket` returns for it, and whether
`setsockopt` and `bind` succeed on the socket. -/
structure Address where
  socket : Option ℤ
  setsockopt : Bool
  bind : Bool

/-- A call of `add_port`. There is no list when `getaddrinfo` fails. -/
structure Call where
  port : Port
  tcp : Bool
  result : Option (List Address)

def fdSetSize : ℤ := 1024

/-- The fields that `add_port` writes. For the record, the descriptors that it has opened and that
are open, and whether `FD_SET` has written behind `ports_master`, over `ports_max` and the map. -/
structure State where
  ports : SortedMap Port ℤ
  portsMaster : List ℤ
  portsMax : ℤ
  fdBlar : ℤ
  tcp : Bool
  opened : List ℤ
  overrun : Bool

def State.init : State := ⟨.empty, [], 0, 0, true, [], false⟩

def State.fds (s : State) : List ℤ := s.ports.entries.map Prod.snd

/-- How the loop over the addresses is left: with a socket that is bound, by the exception in it, or
at the end of the list. -/
inductive Exit
  | bound (fd : ℤ)
  | thrown
  | exhausted
  deriving DecidableEq

/-- The loop, with the descriptors open before and after it. There is no result when `socket` would
return a descriptor that is open. -/
def tryAddresses (opened : List ℤ) : List Address → Option (List ℤ × Exit)
  | [] => some (opened, .exhausted)
  | curr :: rest =>
      match curr.socket with
      | none => tryAddresses opened rest
      | some fd =>
          if fd < 0 ∨ fd ∈ opened then none
          else if !curr.setsockopt then some (fd :: opened, .thrown)
          else if curr.bind then some (fd :: opened, .bound fd)
          else tryAddresses ((fd :: opened).erase fd) rest

/-- What `add_port` writes once a socket is bound. -/
def State.enter (s : State) (call : Call) (fd : ℤ) (opened : List ℤ) : State where
  ports := s.ports.assign call.port fd
  portsMaster := s.portsMaster ++ [fd]
  portsMax := max fd s.portsMax
  fdBlar := fd
  tcp := call.tcp
  opened := opened
  overrun := fdSetSize ≤ fd

/-- `add_port`, and whether it returns or throws. What `listen` returns only changes what is
printed. -/
def addPort (s : State) (call : Call) : Option (State × Bool) :=
  match call.result with
  | none => some (s, false)
  | some result =>
      (tryAddresses s.opened result).map fun (opened, exit) =>
        match exit with
        | .bound fd => (s.enter call fd opened, true)
        | .thrown | .exhausted => ({ s with opened := opened }, false)

/-- There is no step from a state with an overrun: what the fields hold is not defined. -/
def step (s : State) (call : Call) : Option State :=
  if s.overrun then none else (addPort s call).map Prod.fst

/-- The loop of the destructor: what it leaves open, provided that every `soc_close` is on a
descriptor that is open. -/
def closeAll : List ℤ → List ℤ → Option (List ℤ)
  | opened, [] => some opened
  | opened, fd :: fds => if fd ∈ opened then closeAll (opened.erase fd) fds else none

/-- The map is intact, the descriptors that are open are those entered in it, and the destructor
closes each once and leaves none open. -/
structure State.Matches (s : State) : Prop where
  intact : s.overrun = false
  exact : ∀ fd, fd ∈ s.opened ↔ fd ∈ s.fds
  destructor : closeAll s.opened s.fds = some []

/-- The first address whose socket leaves the loop. -/
def decisive (result : List Address) : Option Address :=
  result.find? fun curr => curr.socket.isSome && (!curr.setsockopt || curr.bind)

/-- `setsockopt` does not fail, and when a socket is bound, the port is a new one and the number of
the socket has a place in `ports_master`. -/
def Call.Safe (s : State) (call : Call) : Prop :=
  ∀ result curr, call.result = some result → decisive result = some curr →
    curr.setsockopt = true ∧ (∀ entry ∈ s.ports.entries, entry.1 ≠ call.port)
      ∧ ∀ fd ∈ curr.socket, fd < fdSetSize

variable {s s' : State} {call : Call} {opened opened' fds : List ℤ} {result : List Address}
  {exit : Exit}

/-! ### The loop -/

/-- What the loop leaves open, by the way it is left. -/
inductive Left (opened : List ℤ) (result : List Address) : List ℤ → Exit → Prop
  | bound {fd : ℤ} {curr : Address} (hfd : fd ∉ opened) (hcurr : decisive result = some curr)
      (hset : curr.setsockopt = true) (hsocket : curr.socket = some fd) :
      Left opened result (fd :: opened) (.bound fd)
  | thrown {fd : ℤ} {curr : Address} (hfd : fd ∉ opened) (hcurr : decisive result = some curr)
      (hset : curr.setsockopt = false) : Left opened result (fd :: opened) .thrown
  | exhausted (hnone : decisive result = none) : Left opened result opened .exhausted

theorem left_of_tryAddresses (h : tryAddresses opened result = some (opened', exit)) :
    Left opened result opened' exit := by
  induction result with
  | nil =>
      cases h
      exact .exhausted rfl
  | cons curr rest ih =>
      -- an address that does not leave the loop changes nothing
      have hskip : (curr.socket.isSome && (!curr.setsockopt || curr.bind)) = false →
          Left opened rest opened' exit → Left opened (curr :: rest) opened' exit := by
        intro hfirst hrest
        have hdecisive : decisive (curr :: rest) = decisive rest :=
          List.find?_cons_of_neg (by rw [hfirst]; exact Bool.false_ne_true)
        cases hrest with
        | bound hfd hcurr hset hsocket => exact .bound hfd (hdecisive.trans hcurr) hset hsocket
        | thrown hfd hcurr hset => exact .thrown hfd (hdecisive.trans hcurr) hset
        | exhausted hnone => exact .exhausted (hdecisive.trans hnone)
      rw [tryAddresses] at h
      cases hsocket : curr.socket with
      | none =>
          rw [hsocket] at h
          exact hskip (by rw [hsocket]; rfl) (ih h)
      | some fd =>
          simp only [hsocket, List.erase_cons_head] at h
          split_ifs at h with hfd hset hbind
          · cases h
            rw [not_or] at hfd
            rw [Bool.not_eq_true'] at hset
            exact .thrown hfd.2 (List.find?_cons_of_pos (by simp [hsocket, hset])) hset
          · cases h
            rw [not_or] at hfd
            rw [Bool.not_eq_true', Bool.not_eq_false] at hset
            exact .bound hfd.2 (List.find?_cons_of_pos (by simp [hsocket, hbind])) hset hsocket
          · rw [Bool.not_eq_true', Bool.not_eq_false] at hset
            rw [Bool.not_eq_true] at hbind
            exact hskip (by simp [hset, hbind]) (ih h)

/-! ### The books -/

/-- What is in `ports` is open, each descriptor under one port. -/
structure State.Kept (s : State) : Prop where
  nodup : s.opened.Nodup
  subperm : s.fds <+~ s.opened

theorem closeAll_of_perm (h : opened ~ fds) : closeAll opened fds = some [] := by
  induction fds generalizing opened with
  | nil => rw [closeAll, h.eq_nil]
  | cons fd fds ih =>
      rw [closeAll, if_pos (h.mem_iff.mpr (.head fds))]
      exact ih ((h.erase fd).trans (by rw [List.erase_cons_head]))

theorem State.Kept.matches_iff (hs : s.Kept) :
    s.Matches ↔ s.overrun = false ∧ s.fds ~ s.opened := by
  constructor
  · intro h
    refine ⟨h.intact, ?_⟩
    have hnodup : s.fds.Nodup := by
      obtain ⟨l, hperm, hsub⟩ := hs.subperm
      exact hperm.nodup_iff.mp (hs.nodup.sublist hsub)
    exact (List.perm_ext_iff_of_nodup hnodup hs.nodup).mpr fun fd => (h.exact fd).symm
  · exact fun ⟨hintact, h⟩ => ⟨hintact, fun fd => h.symm.mem_iff, closeAll_of_perm h.symm⟩

theorem not_perm_cons {fd : ℤ} (h : fds <+~ opened) : ¬fds ~ fd :: opened := by
  intro hperm
  have hlength := hperm.length_eq
  have hle := h.length_le
  rw [List.length_cons] at hlength
  omega

theorem State.Kept.init : State.init.Kept := ⟨.nil, .refl _⟩

theorem State.Matches.init : State.init.Matches := ⟨rfl, fun _ => .rfl, rfl⟩

theorem fds_assign (ports : SortedMap Port ℤ) (port : Port) (fd : ℤ) :
    let fds := ports.entries.map Prod.snd
    let fds' := (ports.assign port fd).entries.map Prod.snd
    ((∀ entry ∈ ports.entries, entry.1 ≠ port) ∧ fds' ~ fd :: fds)
      ∨ ((∃ entry ∈ ports.entries, entry.1 = port)
        ∧ ∃ old rest, fds ~ old :: rest ∧ fds' ~ fd :: rest) := by
  by_cases hnew : ∀ entry ∈ ports.entries, entry.1 ≠ port
  · exact .inl ⟨hnew, (SortedMap.perm_assignList_of_not_mem hnew).map Prod.snd⟩
  · right
    push Not at hnew
    obtain ⟨entry, hmem, rfl⟩ := hnew
    obtain ⟨rest, hold, hassigned⟩ :=
      SortedMap.perm_assignList_of_mem (x := fd) ports.sorted hmem
    exact ⟨⟨entry, hmem, rfl⟩, entry.2, rest.map Prod.snd, hold.map Prod.snd,
      hassigned.map Prod.snd⟩

/-- Entering a socket keeps the books right, unless the port had one already or the number has no
place in `ports_master`. -/
theorem State.Kept.enter (hs : s.Kept) (hintact : s.overrun = false) (call : Call) {fd : ℤ}
    (hfd : fd ∉ s.opened) :
    (s.enter call fd (fd :: s.opened)).Kept
      ∧ ((s.enter call fd (fd :: s.opened)).Matches
        ↔ s.Matches ∧ (∀ entry ∈ s.ports.entries, entry.1 ≠ call.port) ∧ fd < fdSetSize) := by
  have hplace : (s.enter call fd (fd :: s.opened)).overrun = false ↔ fd < fdSetSize := by
    simp [State.enter]
  have hnodup : (fd :: s.opened).Nodup := List.nodup_cons.mpr ⟨hfd, hs.nodup⟩
  rcases fds_assign s.ports call.port fd with ⟨hnew, hperm⟩ | ⟨hold, old, rest, hfds, hperm⟩
  · have hkept : (s.enter call fd (fd :: s.opened)).Kept :=
      ⟨hnodup, hperm.subperm.trans ((List.subperm_cons fd).mpr hs.subperm)⟩
    refine ⟨hkept, hkept.matches_iff.trans ?_⟩
    rw [hs.matches_iff, hplace, and_iff_right hintact, and_iff_right hnew, and_comm]
    exact and_congr_left fun _ => (hperm.congr_left _).trans (List.perm_cons fd)
  · have hbefore : old :: rest <+~ s.opened := hfds.symm.subperm.trans hs.subperm
    have hrest : rest <+~ s.opened := (List.sublist_cons_self old rest).subperm.trans hbefore
    have hkept : (s.enter call fd (fd :: s.opened)).Kept :=
      ⟨hnodup, hperm.subperm.trans ((List.subperm_cons fd).mpr hrest)⟩
    refine ⟨hkept, iff_of_false (fun h => ?_) fun h => ?_⟩
    · -- the descriptor that the port had before is in the map no more
      have hlength : (fd :: rest).length = (fd :: s.opened).length :=
        (hperm.symm.trans (hkept.matches_iff.mp h).2).length_eq
      have hle := hbefore.length_le
      rw [List.length_cons, List.length_cons] at hlength
      rw [List.length_cons] at hle
      omega
    · obtain ⟨entry, hmem, heq⟩ := hold
      exact h.2.1 entry hmem heq

/-- The call is safe or not by the address that leaves the loop. -/
theorem safe_iff {curr : Address} (hresult : call.result = some result)
    (hcurr : decisive result = some curr) : call.Safe s ↔
      curr.setsockopt = true ∧ (∀ entry ∈ s.ports.entries, entry.1 ≠ call.port)
        ∧ ∀ fd ∈ curr.socket, fd < fdSetSize := by
  constructor
  · exact fun h => h result curr hresult hcurr
  · intro h result' curr' hresult' hcurr'
    cases hresult.symm.trans hresult'
    cases hcurr.symm.trans hcurr'
    exact h

/-- **One call** loses a descriptor exactly when it is not safe. -/
theorem State.Kept.step (hs : s.Kept) (hstep : Service.step s call = some s') :
    s'.Kept ∧ (s'.Matches ↔ s.Matches ∧ call.Safe s) := by
  unfold Service.step at hstep
  split_ifs at hstep with hoverrun
  rw [Bool.not_eq_true] at hoverrun
  obtain ⟨⟨_, returned⟩, hcall, rfl⟩ := Option.map_eq_some_iff.mp hstep
  rw [addPort] at hcall
  cases hresult : call.result with
  | none =>
      rw [hresult] at hcall
      cases hcall
      refine ⟨hs, (and_iff_left ?_).symm⟩
      intro result curr h
      cases hresult.symm.trans h
  | some result =>
      rw [hresult] at hcall
      obtain ⟨⟨opened, exit⟩, htry, hleft⟩ := Option.map_eq_some_iff.mp hcall
      cases left_of_tryAddresses htry with
      | bound hfd hcurr hset hsocket =>
          cases hleft
          rw [safe_iff hresult hcurr, and_iff_right hset, hsocket]
          simpa using hs.enter hoverrun call hfd
      | @thrown fd curr hfd hcurr hset =>
          cases hleft
          have hkept : State.Kept { s with opened := fd :: s.opened } :=
            ⟨List.nodup_cons.mpr ⟨hfd, hs.nodup⟩, hs.subperm.trans List.subperm_cons_self⟩
          refine ⟨hkept, iff_of_false (fun h => ?_) fun h => ?_⟩
          · exact not_perm_cons hs.subperm (hkept.matches_iff.mp h).2
          · have hfalse := ((safe_iff hresult hcurr).mp h.2).1
            rw [hset] at hfalse
            cases hfalse
      | exhausted hnone =>
          cases hleft
          refine ⟨hs, (and_iff_left ?_).symm⟩
          intro result' curr hresult' hcurr
          cases hresult.symm.trans hresult'
          cases hnone.symm.trans hcurr

/-- **The map and the open descriptors match** after every call, exactly if in no call `setsockopt`
has failed and no socket has been bound for a port that was in the map, or with a number that has no
place in `ports_master`. -/
theorem matches_iff_along (input : ℕ → Call) {k : ℕ}
    (hk : along step .init input k = some s) :
    s.Matches ↔ ∀ j < k, ∀ t, along step .init input j = some t → (input j).Safe t :=
  along_iff_of_step State.Kept State.Matches (fun t call => call.Safe t) .init .init
    (fun _ _ _ ht hstep => ht.step hstep) hk

/-- Two ports; the first address of the second one is in use. -/
def twoPorts (k : ℕ) : Call :=
  [⟨80, true, some [⟨some 3, true, true⟩]⟩,
    ⟨81, true, some [⟨none, true, true⟩, ⟨some 4, true, false⟩, ⟨some 4, true, true⟩]⟩].getD k
    ⟨0, true, none⟩

theorem matches_iff_along_twoPorts :
    ∃ s, along step .init twoPorts 2 = some s ∧ s.fds = [3, 4] ∧ s.Matches := by
  obtain ⟨s, hk, hfds⟩ : ∃ s, along step .init twoPorts 2 = some s ∧ s.fds = [3, 4] :=
    ⟨_, rfl, rfl⟩
  refine ⟨s, hk, hfds, (matches_iff_along twoPorts hk).mpr fun j hj t ht => ?_⟩
  obtain rfl | rfl : j = 0 ∨ j = 1 := by
    omega
  · cases ht
    intro result curr hresult hcurr
    cases hresult
    cases hcurr
    exact ⟨rfl, by rintro entry ⟨⟩, by decide⟩
  · obtain ⟨t', ht', hports⟩ : ∃ t', along step .init twoPorts 1 = some t'
        ∧ t'.ports.entries = [(80, 3)] := ⟨_, rfl, rfl⟩
    cases ht'.symm.trans ht
    intro result curr hresult hcurr
    cases hresult
    cases hcurr
    refine ⟨rfl, ?_, by decide⟩
    rw [hports]
    decide

/-- `setsockopt` fails, and the socket stays open. -/
def failing (_ : ℕ) : Call := ⟨80, true, some [⟨some 3, false, true⟩]⟩

theorem not_matches_failing :
    ∃ s, along step .init failing 1 = some s ∧ s.opened = [3] ∧ s.fds = [] ∧ ¬s.Matches := by
  refine ⟨_, rfl, rfl, rfl, fun h => ?_⟩
  cases (h.exact 3).mp (.head _)

end Networking.Net.Service
