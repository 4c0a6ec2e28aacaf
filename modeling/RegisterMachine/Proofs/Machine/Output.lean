import RegisterMachine.Machine.Dump
import RegisterMachine.Proofs.Machine.Steps

/-! # What a run writes

A machine that is left to itself writes nothing but the words that its program prints
(`isOutput_run`), so all there is to read afterwards are those words, one a line
(`text_run_of_load`); a dump comes after them (`text_writeDump`). -/

namespace RegisterMachine

/-- **An invariant of a run**: what every step keeps, also one that is stopped, holds at the end. -/
theorem iterate_invariant {σ : Type} {done : σ → Bool} {step : σ → Except (Crash σ) σ}
    (invariant : σ → Prop) (hok : ∀ {s next}, invariant s → step s = .ok next → invariant next)
    (herror : ∀ {s c}, invariant s → step s = .error c → invariant c.state) {s : σ}
    (h : invariant s) (fuel : Nat) : invariant (iterate done step fuel s).state := by
  induction fuel generalizing s with
  | zero =>
    unfold iterate
    split <;> exact h
  | succ fuel ih =>
    unfold iterate
    split
    · exact h
    · split
      · rename_i c hc
        exact herror h hc
      · rename_i next hnext
        exact ih (hok h hnext)

namespace Transcript

/-- Nothing was written but words that a program printed. -/
def IsOutput (t : Transcript) : Prop :=
  ∀ e ∈ t, ∃ w, e = .printed w

theorem isOutput_nil : IsOutput [] := by
  simp [IsOutput]

theorem IsOutput.cons {t : Transcript} (h : t.IsOutput) (w : Word) :
    IsOutput (.printed w :: t) :=
  List.forall_mem_cons.mpr ⟨⟨w, rfl⟩, h⟩

/-- **Output is the printed words**, one a line. -/
theorem text_of_isOutput {t : Transcript} (prompts : Bool) (h : t.IsOutput) :
    t.text prompts = Program.print t.printed := by
  induction t with
  | nil => rfl
  | cons e t ih =>
    obtain ⟨⟨w, rfl⟩, ht⟩ := List.forall_mem_cons.mp h
    rw [text_cons, printed_cons, ih ht]
    simp [Program.print, Program.lines, Entry.text, Entry.printed?]

theorem text_report (prompts : Bool) (t : Transcript) (lines : List Text) :
    (t.report lines).text prompts = t.text prompts ++ lines.flatMap (· ++ ['\n']) := by
  rw [text, entries_report, List.flatMap_append, List.flatMap_map]
  rfl

end Transcript

/-- The line that an effect writes. -/
def Effect.output : Effect → Text
  | print w => w.text ++ ['\n']
  | _ => []

namespace Machine
variable {m n : Machine}

theorem text_writeDump (prompts : Bool) (m : Machine) :
    m.writeDump.transcript.text prompts =
      m.transcript.text prompts ++ m.dump.flatMap (· ++ ['\n']) :=
  m.transcript.text_report prompts m.dump

theorem transcript_advance (m : Machine) : m.advance.transcript = m.transcript := rfl

/-- An effect writes the word that it prints, if it prints one. -/
theorem text_apply (prompts : Bool) (m : Machine) (e : Effect) :
    (m.apply e).transcript.text prompts = m.transcript.text prompts ++ e.output := by
  cases e with
  | print w => exact m.transcript.text_cons prompts (.printed w)
  | finish | assign | store | jump | idle => exact (List.append_nil _).symm

theorem isOutput_apply (h : m.transcript.IsOutput) (e : Effect) :
    (m.apply e).transcript.IsOutput := by
  cases e with
  | print w => exact h.cons w
  | finish | assign | store | jump | idle => exact h

theorem isOutput_step (h : m.transcript.IsOutput) (hs : m.step = .ok n) :
    n.transcript.IsOutput := by
  obtain ⟨i, e, -, -, rfl⟩ := step_ok_cases hs
  have hadvance : m.advance.transcript.IsOutput := h
  exact isOutput_apply hadvance e

theorem isOutput_step_error {c : Crash Machine} (h : m.transcript.IsOutput)
    (hs : m.step = .error c) : c.state.transcript.IsOutput := by
  rcases step_error_cases hs with ⟨-, hstate⟩ | ⟨i, fault, -, -, rfl⟩
  · rw [hstate]
    exact h
  · exact h

/-- **A run writes output only.** -/
theorem isOutput_run (h : m.transcript.IsOutput) (fuel : Nat) :
    (m.run fuel).state.transcript.IsOutput := by
  have hstart : (m.setMode .running).transcript.IsOutput := h
  exact iterate_invariant (fun n : Machine => n.transcript.IsOutput) isOutput_step
    isOutput_step_error hstart fuel

theorem transcript_of_load {p : Program} (h : m.load p = .ok n) : n.transcript = m.transcript := by
  unfold load at h
  split at h
  · cases h
  · rw [← Except.ok.inj h]

/-- **A program that is run on a blank machine** leaves nothing to read but what it printed. -/
theorem text_run_of_load {p : Program} (h : blank.load p = .ok m) (prompts : Bool) (fuel : Nat) :
    (m.run fuel).state.transcript.text prompts =
      Program.print (m.run fuel).state.transcript.printed := by
  have hblank : m.transcript.IsOutput := by
    rw [transcript_of_load h]
    exact Transcript.isOutput_nil
  exact Transcript.text_of_isOutput prompts (isOutput_run hblank fuel)

end Machine
end RegisterMachine
