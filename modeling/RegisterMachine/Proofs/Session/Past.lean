import RegisterMachine.Proofs.Session.Dialogue
import RegisterMachine.Proofs.Session.Trimmed

/-! # What has been written has no say

A machine writes to its transcript and never reads it, and neither does a session.  So what was
written before a run has no part in what happens in it: `withPast` puts something older under all
that a session has written, and every function of a session commutes with that, from one command
(`obey_withPast`) over a cycle (`cycle_withPast`) to a whole run (`proceed_withPast`).

Two sessions that differ in what they have written differ in nothing else when they have been run;
each is the `silent` session with a past of its own. -/

namespace RegisterMachine

theorem Transcript.text_append (prompts : Bool) (recent past : Transcript) :
    text prompts (recent ++ past) = past.text prompts ++ recent.text prompts := by
  simp [text, entries]

/-! ## Machines -/

namespace Machine

/-- A machine that has written something else before. -/
def withPast (past : Transcript) (m : Machine) : Machine :=
  { m with transcript := m.transcript ++ past }

variable (past : Transcript) (m : Machine)

theorem effect_withPast (i : Instruction) : (m.withPast past).effect i = m.effect i :=
  effect_congr rfl fun _ _ => rfl

theorem apply_withPast (e : Effect) : (m.withPast past).apply e = (m.apply e).withPast past := by
  cases e <;> rfl

theorem execute_withPast (i : Instruction) :
    (m.withPast past).execute i = (m.execute i).map (withPast past) := by
  cases he : m.effect i with
  | error fault =>
    rw [execute_of_fault he, execute_of_fault ((m.effect_withPast past i).trans he)]
    rfl
  | ok e =>
    rw [execute_of_effect he, execute_of_effect ((m.effect_withPast past i).trans he),
      apply_withPast]
    rfl

end Machine

/-! ## Patched machines -/

namespace Patched

/-- A patched machine that has written something else before. -/
def withPast (past : Transcript) (p : Patched) : Patched :=
  { p with machine := p.machine.withPast past }

variable (past : Transcript) (p : Patched) (address : Nat)

theorem settle_withPast (r : Except Breakpoints.OutOfRange (Bool × Patched)) :
    (p.withPast past).settle (r.map fun result => (result.1, result.2.withPast past)) =
      (p.settle r).withPast past := by
  cases r <;> rfl

theorem set_withPast : (p.withPast past).set address =
    (p.set address).map fun result => (result.1, result.2.withPast past) := by
  by_cases hlt : address < memorySize
  · simp only [set, hlt, dite_true]
    by_cases hold : (p.breakpoints.isSet address || p.machine.word ⟨address, hlt⟩ == breakpointWord)
    · rw [if_pos hold]
      exact if_pos hold
    · rw [if_neg hold]
      exact if_neg hold
  · simp only [set, hlt, dite_false]
    rfl

theorem clear_withPast : (p.withPast past).clear address =
    (p.clear address).map fun result => (result.1, result.2.withPast past) := by
  by_cases hlt : address < memorySize
  · have hsame : (p.withPast past).machine.word ⟨address, hlt⟩ = p.machine.word ⟨address, hlt⟩ := rfl
    have htable : (p.withPast past).breakpoints = p.breakpoints := rfl
    simp only [clear, hlt, dite_true, hsame, htable]
    by_cases hword : p.machine.word ⟨address, hlt⟩ = breakpointWord
    · rw [if_pos hword, if_pos hword]
      cases p.breakpoints.saved? address <;> rfl
    · rw [if_neg hword, if_neg hword]
      rfl
  · simp only [clear, hlt, dite_false]
    rfl

theorem writeDump_withPast : (p.withPast past).writeDump = p.writeDump.withPast past := by
  have hreport : (p.machine.transcript ++ past).report p.dump =
      p.machine.transcript.report p.dump ++ past :=
    (List.append_assoc _ _ _).symm
  show Patched.mk { p.machine with transcript := (p.machine.transcript ++ past).report p.dump } _ = _
  rw [hreport]
  rfl

/-- **A command does the same whatever was written before.** -/
theorem obey_withPast (c : Command) :
    (p.withPast past).obey address c = (p.obey address c).withPast past := by
  cases c with
  | disassemble | step | run | quit => rfl
  | memory => exact p.writeDump_withPast past
  | setBreakpoint given => rw [obey, set_withPast, settle_withPast, obey]
  | clearBreakpoint given => rw [obey, clear_withPast, settle_withPast, obey]

theorem heed_withPast (t : Text) :
    (p.withPast past).heed address t = (p.heed address t).withPast past := by
  unfold heed
  split
  · rfl
  · split
    · rfl
    · exact p.obey_withPast past address _

theorem execute_withPast (i : Instruction) :
    (p.withPast past).execute i = mapStep (withPast past) (p.execute i) := by
  have htouched : (p.withPast past).touched? i = p.touched? i := rfl
  cases ht : p.touched? i with
  | none =>
    simp only [execute, htouched, ht]
    rw [show (p.withPast past).machine = p.machine.withPast past from rfl, Machine.execute_withPast]
    cases p.machine.execute i <;> rfl
  | some found =>
    obtain ⟨a, w⟩ := found
    simp only [execute, htouched, ht]
    rw [show (p.withPast past).machine.setWord a w = (p.machine.setWord a w).withPast past from rfl,
      Machine.execute_withPast]
    cases (p.machine.setWord a w).execute i <;> rfl

end Patched

/-! ## Sessions -/

namespace Session

/-- A session that has written something else before. -/
def withPast (past : Transcript) (s : Session) : Session :=
  { s with toPatched := s.toPatched.withPast past }

/-- A session that has written nothing. -/
def silent (s : Session) : Session :=
  { s with toPatched := { s.toPatched with machine := { s.machine with transcript := [] } } }

theorem withPast_silent (s : Session) : s.silent.withPast s.machine.transcript = s := rfl

theorem silent_withPast (past : Transcript) (s : Session) : (s.withPast past).silent = s.silent :=
  rfl

theorem written_withPast (prompts : Bool) (past : Transcript) (s : Session) :
    (s.withPast past).written prompts = past.text prompts ++ s.written prompts :=
  Transcript.text_append prompts s.machine.transcript past

variable (past : Transcript)

/-- **A pause is the same whatever was written before.** -/
theorem converse_withPast (address : Nat) (script : Script) (p : Patched) :
    (p.withPast past).converse address script = (p.converse address script).withPast past := by
  induction script generalizing p with
  | nil => rfl
  | cons t rest ih =>
    have hheed : ((p.withPast past).write (.prompt address)).heed address t =
        ((p.write (.prompt address)).heed address t).withPast past :=
      Patched.heed_withPast past (p.write (.prompt address)) address t
    rw [Patched.converse_cons, Patched.converse_cons, hheed]
    split
    · rfl
    · exact ih _

variable (s : Session)

theorem isFinished_withPast : (s.withPast past).isFinished = s.isFinished := rfl

theorem ready_withPast (a : Arrival) : (s.withPast past).ready a = (s.ready a).withPast past := by
  unfold ready
  split
  · exact converse_withPast past s.machine.ip s.unread (s.toPatched.setMode .stepping)
  · rfl

theorem execute_withPast (i : Instruction) :
    (s.withPast past).execute i = mapStep (withPast past) (s.execute i) := by
  have hpatched := s.toPatched.advance.execute_withPast past i
  cases hx : s.toPatched.advance.execute i with
  | error c =>
    rw [hx] at hpatched
    rw [execute_of_error hx]
    exact execute_of_error (s := s.withPast past) hpatched
  | ok q =>
    rw [hx] at hpatched
    rw [execute_of_ok hx]
    exact execute_of_ok (s := s.withPast past) hpatched

/-- **A cycle is the same whatever was written before.** -/
theorem cycle_withPast : (s.withPast past).cycle = mapStep (withPast past) s.cycle :=
  cycle_map rfl (s.ready_withPast past) (isFinished_withPast past) (execute_withPast past)

theorem proceed_withPast (fuel : Nat) :
    (s.withPast past).proceed fuel = (s.proceed fuel).map (withPast past) :=
  iterate_map (isFinished_withPast past) (cycle_withPast past) fuel s

end Session
end RegisterMachine
