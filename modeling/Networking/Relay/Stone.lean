import Mathlib.Logic.Function.Basic
import Networking.Relay.Descriptors
import Networking.Relay.File
import Networking.Relay.Wget

/-!
# The stepping stone as a process

`server` accepts connections and starts a thread for each, which runs `connection` next to the
others. What the threads share is the table of open descriptors and the directory: the kernel gives
any number that is not in use, `close` gives up a number whoever has it, and `wget` writes to a file
that is named after the descriptor of the connection. A thread takes the steps of its system calls
one by one, and `wget` runs between them as a process of its own.
-/

namespace Networking.Relay.Stone

open Transition Wire Descriptors

/-! ### The machine -/

/-- `snprintf(buffer, sizeof(buffer), "file_%d.tmp", s)`, after `system` has returned. -/
def tempName (s : ℕ) : Bytes := ofString "file_" ++ descriptorText s ++ ofString ".tmp"

/-- How far the call of `system` is. `wget` runs once it has opened its output. -/
inductive Fetch
  | before
  | running
  | returned
  deriving DecidableEq

/-- A thread, with the numbers of the descriptors it has obtained, and the inode of the output or of
the file it has opened. For the record, what its own `wget` has written, the file that was there
when `system` returned, and what `last_ss` has sent. -/
structure Thread where
  s : ℕ
  found : Found
  handler : Handler
  others : List ℕ
  fetch : Fetch
  inode : ℕ
  wrote : Option Bytes
  file : Option Bytes
  sent : Bytes

/-- The number of a descriptor that the thread has obtained, by its place in the order in which the
thread has obtained them. -/
def Thread.number (t : Thread) : ℕ → ℕ
  | 0 => t.s
  | d + 1 => t.others.getD d 0

/-- Who has obtained a descriptor. -/
inductive Owner
  | listening
  | thread (i d : ℕ)
  deriving DecidableEq

structure Process where
  table : ℕ → Option Owner
  threads : List Thread
  dir : Bytes → Option ℕ
  data : ℕ → Bytes
  inodes : ℕ

/-- The process at the accept loop of `server`, in a directory with whatever files. -/
def Process.init (sockfd : ℕ) (dir : Bytes → Option ℕ) (data : ℕ → Bytes) (inodes : ℕ) : Process :=
  ⟨Function.update (fun _ => none) sockfd (some .listening), [], dir, data, inodes⟩

inductive Event
  | accept (fd : ℕ) (found : Found)
  /-- `wget` opens its output. -/
  | output (i : ℕ)
  | write (i : ℕ) (bs : Bytes)
  /-- `system` returns. -/
  | system (i : ℕ)
  | call (i : ℕ) (r : Outcome)

def value : Outcome → ℕ
  | .failed => 0
  | .returned n => n

/-- `--output-document` truncates the file, or creates it. This is what becomes of the directory if
the shell has made of the command a single `wget` with that option. -/
def Process.output (p : Process) (i : ℕ) (t : Thread) : Process :=
  let inode := (p.dir (tempName t.s)).getD p.inodes
  { p with
    dir := Function.update p.dir (tempName t.s) (some inode)
    data := Function.update p.data inode []
    inodes := max p.inodes (inode + 1)
    threads := p.threads.set i { t with fetch := .running, inode := inode, wrote := some [] } }

def Process.write (p : Process) (i : ℕ) (t : Thread) (bs : Bytes) : Process :=
  { p with
    data := Function.update p.data t.inode (p.data t.inode ++ bs)
    threads := p.threads.set i { t with wrote := t.wrote.map (· ++ bs) } }

def Process.system (p : Process) (i : ℕ) (t : Thread) : Process :=
  let file := (p.dir (tempName t.s)).map p.data
  { p with threads := p.threads.set i { t with fetch := .returned, file := file } }

def fileHeader (stSize : ℕ) : FileHeader := ⟨1, swap 4 (BitVec.ofNat 32 stSize)⟩

/-- What a call finds out about the file and does with it. -/
def Thread.use (p : Process) (t : Thread) (r : Outcome) : Thread :=
  match t.handler.pc, r with
  | .openFile, .returned _ => { t with inode := (p.dir (tempName t.s)).getD 0 }
  | .fstat, .returned _ => { t with found := { t.found with stSize := (p.data t.inode).length } }
  | .sendFileHeader, .returned n => { t with sent := (fileHeader t.found.stSize).image.take n }
  | .sendFile cursor, .returned n =>
      { t with sent := t.sent ++ ((p.data t.inode).drop cursor).take n }
  | _, _ => t

/-- The thread after a call that takes its handler to `h`. -/
def Thread.after (p : Process) (t : Thread) (r : Outcome) (h : Handler) : Thread :=
  { t.use p r with
    handler := h
    others := if t.handler.obtained < h.obtained then t.others ++ [value r] else t.others }

def Process.tableAfter (p : Process) (i : ℕ) (t : Thread) (r : Outcome) (h : Handler) :
    ℕ → Option Owner :=
  if t.handler.obtained < h.obtained then
    Function.update p.table (value r) (some (.thread i t.handler.obtained))
  else if t.handler.closed.length < h.closed.length then
    Function.update p.table (t.number (h.closed.headD 0)) none
  else
    p.table

def Process.dirAfter (p : Process) (t : Thread) (r : Outcome) : Bytes → Option ℕ :=
  match t.handler.pc, r with
  | .remove, .returned _ => Function.update p.dir (tempName t.s) none
  | _, _ => p.dir

def Process.call (p : Process) (i : ℕ) (t : Thread) (r : Outcome) : Option Process :=
  (Descriptors.step t.found t.handler r).map fun h =>
    { p with
      table := p.tableAfter i t r h
      dir := p.dirAfter t r
      threads := p.threads.set i (t.after p r h) }

def step (p : Process) : Event → Option Process
  | .accept fd found =>
      some { p with
        table := Function.update p.table fd (some (.thread p.threads.length 0))
        threads := p.threads ++ [⟨fd, found, accepted, [], .before, 0, none, none, []⟩] }
  | .output i => p.threads[i]?.bind fun t =>
      if t.handler.pc = .openFile ∧ t.fetch = .before then some (p.output i t) else none
  | .write i bs => p.threads[i]?.bind fun t =>
      if t.handler.pc = .openFile ∧ t.fetch = .running then some (p.write i t bs) else none
  | .system i => p.threads[i]?.bind fun t =>
      if t.handler.pc = .openFile ∧ t.fetch ≠ .returned then some (p.system i t) else none
  | .call i r => p.threads[i]?.bind fun t =>
      if t.handler.pc = .openFile ∧ t.fetch ≠ .returned then none else p.call i t r

/-- What a call of a thread may return. A mapping of no bytes fails, and a file that is not there is
neither opened nor removed. -/
def Thread.MayReturn (p : Process) (t : Thread) (n : ℕ) : Prop :=
  match t.handler.pc with
  | .openFile => p.table n = none ∧ p.dir (tempName t.s) ≠ none
  | .socket _ => p.table n = none
  | .mmap => 0 < t.found.stSize
  | .sendFileHeader => 0 < n ∧ n ≤ FileHeader.size
  | .sendFile cursor => 0 < n ∧ n ≤ min bufSize (t.found.stSize - cursor)
  | .remove => p.dir (tempName t.s) ≠ none
  | _ => True

/-- What the kernel does. Any call may fail. -/
def Kernel (p : Process) : Event → Prop
  | .accept fd _ => p.table fd = none
  | .call i (.returned n) => ∀ t ∈ p.threads[i]?, t.MayReturn p n
  | _ => True

/-- No thread gets to where nothing is defined. -/
def Within (p : Process) : Event → Prop
  | .call i r => ∀ t ∈ p.threads[i]?, InBounds t.found t.handler r
  | _ => True

/-- A name is fetched only if the shell passes it on to a single `wget`, which takes it for what it
is to fetch and not for an option. -/
def Fetchable (literal : Bytes → Prop) : Event → Prop
  | .accept fd found => found.lSize = 0 →
      RunsWget literal fd found.fName ∧ (CString.text found.fName).head? ≠ some 45
  | _ => True

instance (p : Process) : DecidablePred (Within p)
  | .call i r => inferInstanceAs (Decidable (∀ t ∈ p.threads[i]?, InBounds t.found t.handler r))
  | .accept _ _ | .output _ | .write _ _ | .system _ => .isTrue trivial

instance (literal : Bytes → Prop) [DecidablePred literal] : DecidablePred (Fetchable literal)
  | .accept fd found => inferInstanceAs (Decidable (found.lSize = 0 →
      RunsWget literal fd found.fName ∧ (CString.text found.fName).head? ≠ some 45))
  | .output _ | .write _ _ | .system _ | .call _ _ => .isTrue trivial

instance (p : Process) (t : Thread) (n : ℕ) : Decidable (t.MayReturn p n) := by
  unfold Thread.MayReturn
  split <;> infer_instance

instance (p : Process) : DecidablePred (Kernel p)
  | .accept fd _ => inferInstanceAs (Decidable (p.table fd = none))
  | .call i (.returned n) => inferInstanceAs (Decidable (∀ t ∈ p.threads[i]?, t.MayReturn p n))
  | .call _ .failed | .output _ | .write _ _ | .system _ => .isTrue trivial

variable {sockfd i j d e n : ℕ} {dir : Bytes → Option ℕ} {data : ℕ → Bytes} {inodes : ℕ}
  {table : ℕ → Option Owner} {threads : List Thread} {t t' u : Thread} {p p' : Process}
  {found : Found} {h h' : Handler} {r : Outcome} {ev : Event}

/-! ### Descriptors -/

/-- The thread has obtained the descriptor and not closed it. -/
def Thread.Open (t : Thread) (d : ℕ) : Prop := d < t.handler.obtained ∧ d ∉ t.handler.closed

/-- The descriptors open in the process are the listening one and those that the threads have
obtained and not closed, each with a number of its own. -/
structure Owned (sockfd : ℕ) (table : ℕ → Option Owner) (threads : List Thread) : Prop where
  listening : ∀ n, table n = some .listening ↔ n = sockfd
  thread : ∀ n i d, table n = some (.thread i d) ↔
    ∃ t, threads[i]? = some t ∧ t.Open d ∧ t.number d = n
  kept : ∀ t ∈ threads, t.handler.Kept ∧ t.others.length + 1 = t.handler.obtained

theorem owned_init (sockfd : ℕ) :
    Owned sockfd (Function.update (fun _ => none) sockfd (some .listening)) [] where
  listening n := by
    by_cases hn : n = sockfd
    · simp [hn]
    · simp [hn]
  thread n i d := by
    by_cases hn : n = sockfd
    · simp [hn]
    · simp [hn]
  kept := nofun

/-- A thread that keeps its descriptors may change in everything else. -/
theorem Owned.same (howned : Owned sockfd table threads) (hi : threads[i]? = some t)
    (hs : t'.s = t.s) (hothers : t'.others = t.others)
    (hobtained : t'.handler.obtained = t.handler.obtained)
    (hclosed : t'.handler.closed = t.handler.closed) (hkept : t'.handler.Kept) :
    Owned sockfd table (threads.set i t') := by
  have hlt := (List.getElem?_eq_some_iff.mp hi).1
  have hopen : ∀ d, t'.Open d ↔ t.Open d := by
    intro d
    rw [Thread.Open, Thread.Open, hobtained, hclosed]
  have hnumber : ∀ d, t'.number d = t.number d := by
    intro d
    cases d with
    | zero => exact hs
    | succ d => rw [Thread.number, Thread.number, hothers]
  refine ⟨howned.listening, fun n j d => ?_, fun u hu => ?_⟩
  · rw [howned.thread]
    by_cases hji : j = i
    · subst hji
      rw [List.getElem?_set_self hlt, hi]
      simp only [Option.some.injEq, exists_eq_left', hopen, hnumber]
    · rw [List.getElem?_set_ne (Ne.symm hji)]
  · rcases List.mem_or_eq_of_mem_set hu with hold | rfl
    · exact howned.kept u hold
    · refine ⟨hkept, ?_⟩
      rw [hothers, hobtained]
      exact (howned.kept t (List.mem_of_getElem? hi)).2

theorem Owned.number_ne (howned : Owned sockfd table threads) (hfree : table n = none)
    (hi : threads[i]? = some t) (hd : t.Open d) : t.number d ≠ n := by
  intro hn
  have howner := (howned.thread n i d).mpr ⟨t, hi, hd, hn⟩
  rw [hfree] at howner
  cases howner

theorem mem_range_of_kept (hkept : h.Kept) (hd : d ∈ h.held ++ h.closed) : d < h.obtained :=
  List.mem_range.mp (List.Subperm.subset hkept hd)

/-- The kernel gives a thread a number that is not in use. -/
theorem Owned.obtain (howned : Owned sockfd table threads) (hi : threads[i]? = some t)
    (hfree : table n = none) (hs : t'.s = t.s) (hothers : t'.others = t.others ++ [n])
    (hobtained : t'.handler.obtained = t.handler.obtained + 1)
    (hclosed : t'.handler.closed = t.handler.closed) (hkept : t'.handler.Kept) :
    Owned sockfd (Function.update table n (some (.thread i t.handler.obtained)))
      (threads.set i t') := by
  have hlt := (List.getElem?_eq_some_iff.mp hi).1
  obtain ⟨hold, hlength⟩ := howned.kept t (List.mem_of_getElem? hi)
  have hsame : ∀ d < t.handler.obtained, t'.number d = t.number d := by
    intro d hd
    cases d with
    | zero => exact hs
    | succ d =>
        rw [Thread.number, Thread.number, hothers, List.getD_append _ _ _ _ (by omega)]
  have hnew : t'.number t.handler.obtained = n := by
    rw [← hlength, Thread.number, hothers, List.getD_append_right _ _ _ _ le_rfl, Nat.sub_self]
    rfl
  have hopen : ∀ d, t'.Open d ↔ t.Open d ∨ d = t.handler.obtained := by
    intro d
    have hnot : t.handler.obtained ∉ t.handler.closed := fun hmem =>
      lt_irrefl _ (mem_range_of_kept hold (List.mem_append_right _ hmem))
    rw [Thread.Open, Thread.Open, hobtained, hclosed]
    constructor
    · rintro ⟨hle, hmem⟩
      rcases Nat.lt_succ_iff_lt_or_eq.mp hle with hlt | rfl
      · exact .inl ⟨hlt, hmem⟩
      · exact .inr rfl
    · rintro (⟨hlt, hmem⟩ | rfl)
      · exact ⟨Nat.lt_succ_of_lt hlt, hmem⟩
      · exact ⟨Nat.lt_succ_self _, hnot⟩
  refine ⟨fun m => ?_, fun m j d => ?_, fun u hu => ?_⟩
  · by_cases hm : m = n
    · subst hm
      rw [Function.update_self, ← howned.listening, hfree]
      simp
    · rw [Function.update_of_ne hm, howned.listening]
  · by_cases hji : j = i
    · subst hji
      rw [List.getElem?_set_self hlt]
      simp only [Option.some.injEq, exists_eq_left', hopen]
      by_cases hm : m = n
      · subst hm
        rw [Function.update_self]
        constructor
        · intro heq
          cases heq
          exact ⟨.inr rfl, hnew⟩
        · rintro ⟨hd | rfl, hnumber⟩
          · rw [hsame d hd.1] at hnumber
            exact absurd hnumber (howned.number_ne hfree hi hd)
          · rfl
      · rw [Function.update_of_ne hm, howned.thread, hi]
        simp only [Option.some.injEq, exists_eq_left']
        constructor
        · rintro ⟨hd, hnumber⟩
          exact ⟨.inl hd, (hsame d hd.1).trans hnumber⟩
        · rintro ⟨hd | rfl, hnumber⟩
          · exact ⟨hd, (hsame d hd.1).symm.trans hnumber⟩
          · exact absurd (hnumber.symm.trans hnew) hm
    · rw [List.getElem?_set_ne (Ne.symm hji)]
      by_cases hm : m = n
      · subst hm
        rw [Function.update_self]
        constructor
        · intro heq
          cases heq
          exact absurd rfl hji
        · rintro ⟨u, hj, hd, hnumber⟩
          exact absurd hnumber (howned.number_ne hfree hj hd)
      · rw [Function.update_of_ne hm, howned.thread]
  · rcases List.mem_or_eq_of_mem_set hu with hmem | rfl
    · exact howned.kept u hmem
    · refine ⟨hkept, ?_⟩
      rw [hothers, hobtained, List.length_append, List.length_singleton, hlength]

/-- A thread closes a descriptor that it has not closed yet. -/
theorem Owned.close (howned : Owned sockfd table threads) (hi : threads[i]? = some t)
    (hopen : t.Open d) (hs : t'.s = t.s) (hothers : t'.others = t.others)
    (hobtained : t'.handler.obtained = t.handler.obtained)
    (hclosed : t'.handler.closed = d :: t.handler.closed) (hkept : t'.handler.Kept) :
    Owned sockfd (Function.update table (t.number d) none) (threads.set i t') := by
  have hlt := (List.getElem?_eq_some_iff.mp hi).1
  have howner : table (t.number d) = some (.thread i d) :=
    (howned.thread _ i d).mpr ⟨t, hi, hopen, rfl⟩
  have hnumber : ∀ e, t'.number e = t.number e := by
    intro e
    cases e with
    | zero => exact hs
    | succ e => rw [Thread.number, Thread.number, hothers]
  have hstill : ∀ e, t'.Open e ↔ t.Open e ∧ e ≠ d := by
    intro e
    rw [Thread.Open, Thread.Open, hobtained, hclosed, List.mem_cons]
    tauto
  have hother : ∀ j u e, threads[j]? = some u → u.Open e → u.number e = t.number d →
      j = i ∧ e = d := by
    intro j u e hj he hn
    have hsame := (howned.thread _ j e).mpr ⟨u, hj, he, hn⟩
    rw [howner] at hsame
    cases hsame
    exact ⟨rfl, rfl⟩
  refine ⟨fun m => ?_, fun m j e => ?_, fun u hu => ?_⟩
  · by_cases hm : m = t.number d
    · subst hm
      rw [Function.update_self, ← howned.listening, howner]
      simp
    · rw [Function.update_of_ne hm, howned.listening]
  · by_cases hm : m = t.number d
    · subst hm
      rw [Function.update_self]
      refine iff_of_false nofun ?_
      rintro ⟨u, hj, he, hn⟩
      by_cases hji : j = i
      · rw [hji, List.getElem?_set_self hlt] at hj
        obtain rfl := Option.some.inj hj
        obtain ⟨hold, hne⟩ := (hstill e).mp he
        exact hne (hother i t e hi hold ((hnumber e).symm.trans hn)).2
      · rw [List.getElem?_set_ne (Ne.symm hji)] at hj
        exact hji (hother j u e hj he hn).1
    · rw [Function.update_of_ne hm, howned.thread]
      by_cases hji : j = i
      · rw [hji, List.getElem?_set_self hlt, hi]
        simp only [Option.some.injEq, exists_eq_left', hnumber, hstill]
        constructor
        · rintro ⟨he, hn⟩
          exact ⟨⟨he, fun hed => hm (by rw [← hn, hed])⟩, hn⟩
        · rintro ⟨⟨he, -⟩, hn⟩
          exact ⟨he, hn⟩
      · rw [List.getElem?_set_ne (Ne.symm hji)]
  · rcases List.mem_or_eq_of_mem_set hu with hmem | rfl
    · exact howned.kept u hmem
    · refine ⟨hkept, ?_⟩
      rw [hothers, hobtained]
      exact (howned.kept t (List.mem_of_getElem? hi)).2

theorem getElem?_concat {threads : List Thread} :
    (threads ++ [t])[i]? = some u ↔ threads[i]? = some u ∨ i = threads.length ∧ u = t := by
  rcases Nat.lt_trichotomy i threads.length with hlt | rfl | hgt
  · rw [List.getElem?_append_left hlt]
    exact (or_iff_left fun h => hlt.ne h.1).symm
  · simp [eq_comm]
  · rw [List.getElem?_eq_none (by simp; omega), List.getElem?_eq_none hgt.le]
    apply iff_of_false
    · intro h
      cases h
    · rintro (h | ⟨rfl, -⟩)
      · cases h
      · exact lt_irrefl _ hgt

/-- A thread is started for the connection that `accept` returns. -/
theorem Owned.accept (howned : Owned sockfd table threads) (hfree : table n = none)
    (hs : t.s = n) (hothers : t.others = []) (hhandler : t.handler = accepted) :
    Owned sockfd (Function.update table n (some (.thread threads.length 0)))
      (threads ++ [t]) := by
  have hopen : ∀ d, t.Open d ↔ d = 0 := by
    intro d
    rw [Thread.Open, hhandler]
    simp [accepted, Descriptors.s]
  refine ⟨fun m => ?_, fun m j d => ?_, fun u hu => ?_⟩
  · by_cases hm : m = n
    · subst hm
      rw [Function.update_self, ← howned.listening, hfree]
      simp
    · rw [Function.update_of_ne hm, howned.listening]
  · by_cases hm : m = n
    · subst hm
      rw [Function.update_self]
      constructor
      · intro heq
        cases heq
        exact ⟨t, List.getElem?_concat_length, (hopen 0).mpr rfl, hs⟩
      · rintro ⟨u, hj, hd, hnumber⟩
        rcases getElem?_concat.mp hj with hold | ⟨rfl, rfl⟩
        · exact absurd hnumber (howned.number_ne hfree hold hd)
        · rw [(hopen d).mp hd]
    · rw [Function.update_of_ne hm, howned.thread]
      constructor
      · rintro ⟨u, hj, hd, hnumber⟩
        exact ⟨u, getElem?_concat.mpr (.inl hj), hd, hnumber⟩
      · rintro ⟨u, hj, hd, hnumber⟩
        rcases getElem?_concat.mp hj with hold | ⟨rfl, rfl⟩
        · exact ⟨u, hold, hd, hnumber⟩
        · rw [(hopen d).mp hd] at hnumber
          exact absurd (hnumber.symm.trans hs) hm
  · rcases List.mem_append.mp hu with hmem | hnew
    · exact howned.kept u hmem
    · obtain rfl := List.mem_singleton.mp hnew
      rw [hhandler, hothers]
      exact ⟨kept_accepted, rfl⟩

/-- Only `open` and `socket` give a descriptor. -/
theorem obtain_of_step (hstep : Descriptors.step found h r = some h')
    (hmore : h.obtained < h'.obtained) :
    ∃ n, r = .returned n ∧ (h.pc = .openFile ∨ ∃ left, h.pc = .socket left) := by
  cases step_moves hstep with
  | goto | close | lose | stray => exact absurd hmore (lt_irrefl _)
  | @obtain pc n hsafe hreturned hpc => exact ⟨n, hreturned, hpc⟩

theorem open_of_held (hkept : t.handler.Kept) (hd : d ∈ t.handler.held) : t.Open d :=
  ⟨mem_range_of_kept hkept (List.mem_append_left _ hd), fun hclosed =>
    List.disjoint_of_nodup_append (Ledger.Kept.nodup hkept) hd hclosed⟩

theorem Thread.s_use (p : Process) (t : Thread) (r : Outcome) : (t.use p r).s = t.s := by
  unfold Thread.use
  split <;> rfl

/-- **One call** of a thread. It obtains a number that is free, gives up one of its own, or leaves
the table as it is. -/
theorem Owned.call (howned : Owned sockfd p.table p.threads) (hi : p.threads[i]? = some t)
    (hkernel : Kernel p (.call i r)) (hstep : Descriptors.step t.found t.handler r = some h) :
    Owned sockfd (p.tableAfter i t r h) (p.threads.set i (t.after p r h)) := by
  obtain ⟨hkept, -⟩ := howned.kept t (List.mem_of_getElem? hi)
  have hs := t.s_use p r
  have hnext := (hkept.step hstep).1
  have hmoves := step_moves hstep
  unfold Process.tableAfter
  split_ifs with hobtain hclose
  · obtain ⟨n, rfl, hpc⟩ := obtain_of_step hstep hobtain
    have hfree : p.table n = none := by
      have hmay := hkernel t hi
      unfold Thread.MayReturn at hmay
      rcases hpc with hpc | ⟨left, hpc⟩
      · rw [hpc] at hmay
        exact hmay.1
      · rw [hpc] at hmay
        exact hmay
    refine howned.obtain hi hfree hs ?_ ?_ ?_ hnext
    · rw [Thread.after, if_pos hobtain]
    · cases hmoves with
      | goto | close | lose | stray => exact absurd hobtain (lt_irrefl _)
      | obtain => rfl
    · cases hmoves with
      | goto | close | lose | stray => exact absurd hobtain (lt_irrefl _)
      | obtain => rfl
  · cases hmoves with
    | goto | obtain | lose | stray => exact absurd hclose (lt_irrefl _)
    | @close fd pc hsafe hheld =>
        have hopen := open_of_held hkept (hheld.symm.subset List.mem_cons_self)
        refine howned.close hi hopen hs ?_ rfl rfl hnext
        rw [Thread.after, if_neg hobtain]
  · refine howned.same hi hs ?_ ?_ ?_ hnext
    · rw [Thread.after, if_neg hobtain]
    · cases hmoves with
      | goto | close | lose | stray => rfl
      | obtain => exact absurd (Nat.lt_succ_self _) hobtain
    · cases hmoves with
      | goto | obtain | lose | stray => rfl
      | close => exact absurd (Nat.lt_succ_self _) hclose

theorem Owned.step (howned : Owned sockfd p.table p.threads) (hkernel : Kernel p ev)
    (hstep : Stone.step p ev = some p') : Owned sockfd p'.table p'.threads := by
  cases ev with
  | accept fd found =>
      cases hstep
      exact howned.accept hkernel rfl rfl rfl
  | output i | write i bs =>
      obtain ⟨t, hi, hstep⟩ := Option.bind_eq_some_iff.mp hstep
      split_ifs at hstep
      cases hstep
      exact howned.same hi rfl rfl rfl rfl (howned.kept t (List.mem_of_getElem? hi)).1
  | system i =>
      obtain ⟨t, hi, hstep⟩ := Option.bind_eq_some_iff.mp hstep
      split_ifs at hstep
      cases hstep
      exact howned.same hi rfl rfl rfl rfl (howned.kept t (List.mem_of_getElem? hi)).1
  | call i r =>
      obtain ⟨t, hi, hstep⟩ := Option.bind_eq_some_iff.mp hstep
      split_ifs at hstep
      obtain ⟨h, hh, rfl⟩ := Option.map_eq_some_iff.mp hstep
      exact howned.call hi hkernel hh

/-- A request for the file behind the name. -/
def requestFor (name : Bytes) : Found := ⟨⟨[], []⟩, name, [], 0, 0, 0, 0, 0⟩

end Networking.Relay.Stone
