import RegisterMachine.Proofs.Machine.Footprint
import RegisterMachine.Proofs.Machine.Output
import RegisterMachine.Proofs.Machine.PostMortem
import RegisterMachine.Proofs.Session.Command
import RegisterMachine.Proofs.Session.Disassembly
import RegisterMachine.Proofs.Session.Table

/-! # The instruction pointer stays in range

The instruction pointer of a machine is at most one past the end of memory, whatever has been done
to the machine (`Machine.Arises.ip_le`): only a jump sets it, to an address of memory, and it moves
on only from an instruction that is there.  A session keeps this bound from cycle to cycle
(`cycle_ip_le`, `cycle_error_ip_le`), with any commands.

A session asks for commands only where it has found an instruction, and the addresses that commands
have in them were checked when they were read.  So what can go wrong with an address at a question
does not (`WellAsked`).  Neither does it go wrong when an instruction touches a patched word, which
is there both when it is put back and when the breakpoint is set again (`FindsWords`). -/

namespace RegisterMachine

/-! ## Machines that there are -/

namespace Machine
variable {m n : Machine} {i : Instruction}

/-- **The machines that there are**: a blank one, and those that come from it by loading programs,
running them for as long as one likes, fetching instructions, and carrying out instructions of any
kind.  What fails to load or to be fetched leaves the machine as it was, and so does looking at the
next instruction. -/
inductive Arises : Machine → Prop
  | blank : Arises blank
  | load {m n : Machine} {p : Program} (hm : Arises m) (h : m.load p = .ok n) : Arises n
  | run {m : Machine} (hm : Arises m) (fuel : Nat) : Arises (m.run fuel).state
  | fetch {m n : Machine} {address : Nat} {i : Instruction} (hm : Arises m)
      (h : m.fetch = .ok (address, i, n)) : Arises n
  | carryOut {m : Machine} (hm : Arises m) (i : Instruction) : Arises (m.carryOut i).2

/-- A jump goes to an address of memory, and nothing else sets the instruction pointer. -/
theorem ip_apply_le (hm : m.ip ≤ memorySize) (e : Effect) : (m.apply e).ip ≤ memorySize := by
  cases e with
  | jump target => exact Nat.le_of_lt target.isLt
  | finish | assign | store | print | idle => exact hm

theorem ip_advance_le (h : m.peek = .ok i) : m.advance.ip ≤ memorySize :=
  lt_of_peek h

theorem step_error_ip_le {c : Crash Machine} (hm : m.ip ≤ memorySize) (h : m.step = .error c) :
    c.state.ip ≤ memorySize := by
  rcases step_error_cases h with ⟨-, hstate⟩ | ⟨i, fault, hpeek, -, rfl⟩
  · rw [hstate]
    exact hm
  · exact ip_advance_le hpeek

/-- A run leads at most one past the end of memory. -/
theorem run_ip_le (hm : m.ip ≤ memorySize) (fuel : Nat) :
    (m.run fuel).state.ip ≤ memorySize := by
  have hstart : (m.setMode .running).ip ≤ memorySize := hm
  exact iterate_invariant (fun n : Machine => n.ip ≤ memorySize) (fun _ => ip_le_of_step)
    step_error_ip_le hstart fuel

theorem carryOut_ip_le (hm : m.ip ≤ memorySize) (i : Instruction) :
    (m.carryOut i).2.ip ≤ memorySize := by
  cases he : m.effect i with
  | error fault =>
    rw [carryOut_of_fault he]
    exact hm
  | ok e =>
    rw [carryOut_of_effect he]
    exact ip_apply_le hm e

/-- **The instruction pointer of every machine** is at most one past the end of memory. -/
theorem Arises.ip_le (h : m.Arises) : m.ip ≤ memorySize := by
  induction h with
  | blank => exact Nat.zero_le _
  | load _ h _ =>
    unfold Machine.load at h
    split at h
    · cases h
    · rw [← Except.ok.inj h]
      exact Nat.zero_le _
  | run _ fuel ih => exact run_ip_le ih fuel
  | @fetch m n address i _ h _ =>
    cases hpeek : m.peek with
    | error trap => simp [Machine.fetch, hpeek, Except.map] at h
    | ok found =>
      simp only [Machine.fetch, hpeek, Except.map, Except.ok.injEq, Prod.mk.injEq] at h
      rw [← h.2.2]
      exact ip_advance_le hpeek
  | carryOut _ i ih => exact carryOut_ip_le ih i

end Machine

/-! ## Breakpoints in range -/

namespace Patched
variable {p q : Patched} {address : Nat} {i : Instruction}

theorem exists_set (h : address < memorySize) : ∃ new q, p.set address = .ok (new, q) := by
  simp only [set, h, dite_true]
  split <;> exact ⟨_, _, rfl⟩

theorem exists_clear (h : address < memorySize) : ∃ found q, p.clear address = .ok (found, q) := by
  simp only [clear, h, dite_true]
  by_cases hword : p.machine.word ⟨address, h⟩ = breakpointWord
  · rw [if_pos hword]
    split <;> exact ⟨_, _, rfl⟩
  · rw [if_neg hword]
    exact ⟨_, _, rfl⟩

theorem exists_view (p : Patched) (h : address < memorySize) : ∃ w, p.view? address = some w := by
  rw [← p.plain_word? ⟨address, h⟩]
  exact ⟨_, p.plain.word?_eq ⟨address, h⟩⟩

/-- A patched machine that finds an instruction has not come to the end of memory. -/
theorem lt_of_arrival {a : Arrival} (h : p.arrival = .ok a) : p.machine.ip < memorySize := by
  refine Nat.lt_of_not_le fun hle => ?_
  simp only [arrival, Machine.peek_of_le hle] at h
  cases h

/-- **An instruction finds the words that it touches**: when the word that belongs there is put
back, memory has the address and the breakpoint word at it; when the breakpoint is set again, memory
has the address, and the word found there is the one that is saved, whether the instruction has
succeeded or not. -/
def FindsWords (p : Patched) (i : Instruction) : Prop :=
  ∀ a saved, p.touched? i = some (a, saved) →
    p.machine.word? a = some breakpointWord ∧
      ∃ w, ((p.machine.setWord a saved).carryOut i).2.word? a = some w ∧
        (∀ q, p.execute i = .ok q → q.breakpoints.saved? a = some w) ∧
        ∀ c, p.execute i = .error c → c.state.breakpoints.saved? a = some w

theorem Consistent.findsWords (hc : p.Consistent) (i : Instruction) : p.FindsWords i := by
  intro a saved ht
  obtain ⟨-, hsaved⟩ := touched?_eq_some_iff.mp ht
  refine ⟨by rw [Machine.word?_eq, hc.word_eq a hsaved], _, Machine.word?_eq _ a, ?_, ?_⟩
  · intro q hq
    simp only [execute, ht] at hq
    split at hq
    · cases hq
    · rename_i next hnext
      cases hq
      rw [Machine.carryOut_eq_ok_iff.mpr hnext]
      exact Breakpoints.saved?_save_self _ _ _
  · intro c hq
    simp only [execute, ht] at hq
    split at hq
    · rename_i trap htrap
      cases hq
      rw [Machine.carryOut_eq_error_iff.mpr ⟨htrap, rfl⟩]
      exact Breakpoints.saved?_save_self _ _ _
    · cases hq

end Patched

/-! ## Sessions -/

/-- **A question at which nothing can go wrong with an address**: it is put at the instruction
pointer, inside of memory; there is a word to describe; and where the command that is read sets or
clears a breakpoint, there can be one. -/
structure Session.WellAsked (q : Session) (address : Nat) : Prop where
  inRange : address < memorySize
  pointer : q.machine.ip = address
  describes : ∃ w, q.view? address = some w
  sets : ∀ given, q.nextCommand? = some (.setBreakpoint given) →
    ∃ new p, (q.toPatched.write (.prompt address)).set (given.getD address) = .ok (new, p)
  clears : ∀ given, q.nextCommand? = some (.clearBreakpoint given) →
    ∃ found p, (q.toPatched.write (.prompt address)).clear (given.getD address) = .ok (found, p)

namespace Session
variable {m : Machine} {s t x q : Session} {count fuel address : Nat}
  {front before after history : List Event}

theorem ip_plain (s : Session) : s.plain.ip = s.machine.ip :=
  s.toPatched.sameButMemory_plain.ip.symm

/-- The session that executes an instruction is still where it has found it. -/
theorem ip_ready (s : Session) (a : Arrival) : (s.ready a).machine.ip = s.machine.ip :=
  Patched.ip_eq_of_unnoticed (s.unnoticed_ready a)

/-- **A cycle leads at most one past the end of memory.** -/
theorem cycle_ip_le (h : s.cycle = .ok t) : t.machine.ip ≤ memorySize := by
  obtain ⟨a, harrival, hcase⟩ := cycle_ok_cases h
  have hlt : (s.ready a).machine.ip < memorySize := by
    rw [ip_ready]
    exact Patched.lt_of_arrival harrival
  rcases hcase with ⟨-, -, rfl⟩ | ⟨-, hexecute, -⟩
  · exact Nat.le_of_lt hlt
  · obtain ⟨e, -, hleaves⟩ := execute_ok_cases hexecute
    rw [← ip_plain] at hlt
    have hadvanced : (s.ready a).plain.advance.ip ≤ memorySize := hlt
    rw [← ip_plain, hleaves.plain]
    exact Machine.ip_apply_le hadvanced e

/-- So does a cycle that is stopped. -/
theorem cycle_error_ip_le {c : Crash Session} (hs : s.machine.ip ≤ memorySize)
    (h : s.cycle = .error c) : c.state.machine.ip ≤ memorySize := by
  rcases cycle_error_cases h with ⟨-, -, hstate⟩ | ⟨a, harrival, -, hexecute, -⟩
  · rw [hstate]
    exact hs
  · obtain ⟨fault, -, -, hleaves⟩ := execute_error_cases hexecute
    have hlt : (s.ready a).plain.ip < memorySize := by
      rw [ip_plain, ip_ready]
      exact Patched.lt_of_arrival harrival
    rw [← ip_plain, hleaves.plain]
    exact hlt

theorem Cycled.ip_le (h : s.Cycled count front x) (hs : s.machine.ip ≤ memorySize) :
    x.machine.ip ≤ memorySize := by
  cases h with
  | refl => exact hs
  | snoc _ _ hcycle => exact cycle_ip_le hcycle

theorem proceed_ip_le (hs : s.machine.ip ≤ memorySize) (fuel : Nat) :
    (s.proceed fuel).state.machine.ip ≤ memorySize :=
  iterate_invariant (fun t : Session => t.machine.ip ≤ memorySize) (fun _ => cycle_ip_le)
    cycle_error_ip_le hs fuel

/-- **The bound holds in every session that can be reached.** -/
theorem Reachable.ip_le (hs : Reachable m history s) (hm : m.ip ≤ memorySize) :
    s.machine.ip ≤ memorySize := by
  induction hs with
  | start script => exact hm
  | set _ hset ih =>
    rcases Patched.set_ok_cases hset with ⟨-, rfl⟩ | ⟨_, -, -, -, rfl⟩
    · exact ih
    · exact ih
  | clear _ hclear ih =>
    rcases Patched.clear_ok_cases hclear with ⟨-, rfl⟩ | ⟨_, _, -, -, rfl⟩
    · exact ih
    · exact ih
  | @run _ s fuel _ _ ih => exact proceed_ip_le (s := s.begun) ih fuel

/-! ## Questions -/

theorem getD_lt {given : Option Nat} (haddress : address < memorySize)
    (hgiven : ∀ a, given = some a → a < memorySize) : given.getD address < memorySize := by
  cases given with
  | none => exact haddress
  | some a => exact hgiven a rfl

/-- A command that is read has no address out of range. -/
theorem lt_of_nextCommand? {c : Command} {a : Nat} (h : q.nextCommand? = some c)
    (ha : c.address? = some a) : a < memorySize := by
  obtain ⟨t, rest, -, ht⟩ := nextCommand?_eq_some_iff.mp h
  exact Command.lt_of_read (Command.ofText?_eq_some_iff.mp ht) ha

/-- **At no question does anything go wrong with an address.** -/
theorem wellAsked_of_asked (h : s.events fuel = before ++ .asked address q :: after) :
    q.WellAsked address := by
  obtain ⟨count, front, x, a, pre, post, more, -, -, harrival, -, haddress, hquestions, -, -⟩ :=
    asked_in_cycle h
  have hlt : address < memorySize := by
    rw [haddress]
    exact Patched.lt_of_arrival harrival
  have hip : q.machine.ip = x.machine.ip :=
    Patched.ip_eq_of_unnoticed (unnoticed_question (by rw [hquestions]; simp))
  refine ⟨hlt, hip.trans haddress.symm, q.toPatched.exists_view hlt, ?_, ?_⟩
  · intro given hnext
    exact Patched.exists_set (getD_lt hlt fun a ha => lt_of_nextCommand? hnext ha)
  · intro given hnext
    exact Patched.exists_clear (getD_lt hlt fun a ha => lt_of_nextCommand? hnext ha)

theorem Observed.ip_le (hs : Observed m history s) (hm : m.ip ≤ memorySize) :
    s.machine.ip ≤ memorySize := by
  cases hs with
  | reachable hs => exact hs.ip_le hm
  | asking _ h =>
    have hasked := wellAsked_of_asked h
    rw [hasked.pointer]
    exact Nat.le_of_lt hasked.inRange

/-- **The instruction pointer stays in range**, and what depends on it.  Of every machine that there
is, and of every session that can be looked at when the machine has been given to it:

* the instruction pointer is at most one past the end of memory, so the next one is a 64-bit number,
  and this holds at every cycle of a run, whether or not the run ends;
* every question of a run is asked inside of memory, where there is a word to describe, and no
  command that is read there sets or clears a breakpoint out of range;
* every instruction that is executed in a run finds the patched word that it touches. -/
theorem Observed.pointer_in_range (hm : m.Arises) (hs : Observed m history s) :
    m.ip ≤ memorySize ∧ s.machine.ip ≤ memorySize ∧ s.machine.ip + 1 < UInt64.size ∧
      (∀ count front x, s.begun.Cycled count front x → x.machine.ip ≤ memorySize) ∧
      (∀ fuel, (s.run fuel).state.machine.ip ≤ memorySize) ∧
      (∀ fuel before address q after, s.log fuel = before ++ .asked address q :: after →
        q.WellAsked address) ∧
      ∀ count front x a, s.begun.Cycled count front x → x.arrival = .ok a →
        (x.ready a).toPatched.advance.FindsWords a.instruction := by
  have hle := hs.ip_le hm.ip_le
  have hbegun : s.begun.machine.ip ≤ memorySize := hle
  refine ⟨hm.ip_le, hle, ?_, ?_, ?_, ?_, ?_⟩
  · have hsizes : memorySize + 1 < UInt64.size := by decide
    omega
  · exact fun count front x h => h.ip_le hbegun
  · exact fun fuel => proceed_ip_le hbegun fuel
  · exact fun fuel before address q after h => wellAsked_of_asked h
  · intro count front x a h _
    have hx := (h.simulates (consistent_begun hs.consistent) (.refl _)).1
    have hready := (x.unnoticed_ready a).consistent hx
    have hadvanced : (x.ready a).toPatched.advance.Consistent :=
      Patched.Consistent.congr hready rfl rfl
    exact hadvanced.findsWords _

/-- A program stores an instruction at the last address of memory, where a breakpoint is set, jumps
there, and then runs past the end. -/
theorem pointer_in_range_past_the_end :
    let p : Program := [0x060002, 0xff0102, 0x010005, 0xff0208]
    let m : Machine := { Machine.blank with memory := Machine.memoryOf p }
    let s := start m ["b 255".toList, "r".toList, "d".toList, "s".toList]
    m.Arises ∧ (s.run 8).trap? = some ⟨256, .pointerOutOfRange 256⟩ ∧
      (s.run 8).state.machine.ip ≤ memorySize ∧
      ∀ before address q after, s.log 8 = before ++ .asked address q :: after →
        address < 256 ∧ ∃ w, q.view? address = some w := by
  intro p m s
  have hload : Machine.blank.load p = .ok m := rfl
  have hm : m.Arises := .load .blank hload
  have hs : Reachable m [] s := .start _
  obtain ⟨-, -, -, -, hrun, hasked, -⟩ := (Observed.reachable hs).pointer_in_range hm
  refine ⟨hm, by decide +kernel, hrun 8, ?_⟩
  intro before address q after h
  have hq := hasked 8 before address q after h
  exact ⟨hq.inRange, hq.describes⟩

end Session
end RegisterMachine
