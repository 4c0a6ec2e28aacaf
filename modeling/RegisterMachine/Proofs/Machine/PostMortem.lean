import RegisterMachine.Proofs.Machine.Lifetime

/-! # What a run leaves behind

A run that ends leaves a machine in which its ending can be read off.  After a halt the halting
instruction stands just before the instruction pointer.  After a fault the instruction that failed
is still in its place, and what is said about it is true of this word and of the registers as they
are (`Explains`); nothing has changed since the instruction before it.

The run itself is opened by `run_cases`.  What is added here is what its steps keep: the mode as
long as nothing halts, and an instruction pointer that is at most one past the end of memory. -/

namespace RegisterMachine
namespace Machine
variable {m n : Machine} {i : Instruction} {stops : List Nat} {count : Nat}

/-! ## What steps keep -/

theorem lt_of_peek (h : m.peek = .ok i) : m.ip < memorySize := by
  refine Nat.lt_of_not_le fun hle => ?_
  rw [peek_of_le hle] at h
  cases h

/-- The next instruction is the word at the instruction pointer. -/
theorem exists_word_of_peek (h : m.peek = .ok i) :
    ∃ w, m.word? m.ip = some w ∧ i = Instruction.decode w := by
  have hlt := lt_of_peek h
  refine ⟨m.word ⟨m.ip, hlt⟩, m.word?_eq ⟨m.ip, hlt⟩, ?_⟩
  exact Except.ok.inj (h.symm.trans (peek_of_lt hlt))

/-- A step leads at most one past the end of memory. -/
theorem ip_le_of_step (h : m.step = .ok n) : n.ip ≤ memorySize := by
  obtain ⟨i, e, hp, -, rfl⟩ := step_ok_cases h
  have hlt := lt_of_peek hp
  cases e with
  | jump target => exact Nat.le_of_lt target.isLt
  | finish | assign | store | print | idle => exact hlt

/-- The only change a halting instruction makes is that the machine is done. -/
theorem eq_of_step_of_haltsNext (hhalts : m.haltsNext = true) (h : m.step = .ok n) :
    n = { m with ip := m.ip + 1, mode := .finished } := by
  obtain ⟨i, e, hp, he, rfl⟩ := step_ok_cases h
  have hfinish : m.effect i = .ok .finish := effect_eq_finish_iff.mpr ((haltsNext_iff hp).mp hhalts)
  rw [hfinish] at he
  cases he
  rfl

theorem mode_of_step (hhalts : m.haltsNext = false) (h : m.step = .ok n) : n.mode = m.mode := by
  obtain ⟨i, e, hp, he, rfl⟩ := step_ok_cases h
  refine mode_apply_of_ne_finish _ _ ?_
  rintro rfl
  rw [(haltsNext_iff hp).mpr (effect_eq_finish_iff.mp he)] at hhalts
  cases hhalts

theorem Proceeds.mode_eq (h : m.Proceeds stops count n) : n.mode = m.mode := by
  induction h with
  | start => rfl
  | step _ _ hhalts hstep ih => rw [mode_of_step hhalts hstep, ih]

theorem Proceeds.ip_le (h : m.Proceeds stops count n) (hm : m.ip ≤ memorySize) :
    n.ip ≤ memorySize := by
  cases h with
  | start => exact hm
  | step _ _ _ hstep => exact ip_le_of_step hstep

/-! ## Words that explain a fault -/

/-- **A word of memory explains a fault**: it is an instruction for which a machine with these
registers has to give this fault. -/
def Explains (m : Machine) (w : Word) : Fault → Prop
  | .pointerOutOfRange _ => False
  | .unknownOpcode code => code.toNat = w.toNat % 256 ∧ ∀ o : Opcode, o.code ≠ code
  | .unexpectedBreakpoint => w.toNat % 256 = Opcode.breakpoint.code.toNat
  | .invalidRegister operand =>
    (Instruction.decode w).registerOperands.find? (fun r => registerCount ≤ r.toNat) = some operand
  | .invalidAddress address =>
    m.Misses (Instruction.decode w) address ∧
      ∀ r ∈ (Instruction.decode w).registerOperands, r.toNat < registerCount

theorem explains_of_failsWith {w : Word} {fault : Fault}
    (h : m.FailsWith (Instruction.decode w) fault) : m.Explains w fault := by
  cases h with
  | unknown ho =>
    refine ⟨Instruction.toNat_decode_code w, fun o hcode => ?_⟩
    rw [Instruction.opcode?_eq_some_iff.mpr hcode.symm] at ho
    cases ho
  | breakpoint ho =>
    rw [Explains, ← Instruction.toNat_decode_code, Instruction.opcode?_eq_some_iff.mp ho]
  | register hf => exact hf
  | address ho hp hr hw => exact ⟨FailsWith.misses (.address ho hp hr hw), hr⟩

/-- **How a step is stopped**: at the end of memory, or just behind a word that explains why. -/
theorem stopped_cases {c : Crash Machine} (hm : m.ip ≤ memorySize) (h : m.step = .error c) :
    (c.trap = ⟨memorySize, .pointerOutOfRange memorySize⟩ ∧ m.ip = memorySize ∧ c.state = m) ∨
      ∃ w, c.trap.address = m.ip ∧ c.state = { m with ip := m.ip + 1 } ∧ m.word? m.ip = some w ∧
        c.state.Explains w c.trap.fault := by
  rcases step_error_cases h with ⟨hp, hstate⟩ | ⟨i, fault, hp, he, rfl⟩
  · have hle : memorySize ≤ m.ip := by
      refine Nat.le_of_not_lt fun hlt => ?_
      rw [peek_of_lt hlt] at hp
      cases hp
    have hend : m.ip = memorySize := Nat.le_antisymm hm hle
    rw [peek_of_le hle, hend] at hp
    exact .inl ⟨(Except.error.inj hp).symm, hend, hstate⟩
  · obtain ⟨w, hw, rfl⟩ := exists_word_of_peek hp
    have hadvanced := (m.effect_advance (Instruction.decode w)).trans he
    exact .inr ⟨w, rfl, rfl, hw, explains_of_failsWith (failsWith_of_effect hadvanced)⟩

/-! ## The end of a run -/

/-- **A run leaves a machine that explains how it ended.**  Let the instruction pointer be at most
one past the end of memory, and let the run have come to `last` before its last instruction, with
no halt on the way.

* A run that completes has executed the halting instruction of `last` and changed nothing else.
  That instruction stands just before the instruction pointer.
* A run that crashes leaves everything as it is in `last` but the instruction pointer, and is still
  running.  The instruction pointer is at the end of memory, where nothing can be fetched; or it is
  one past the address of the trap, where the word stands that explains the fault. -/
theorem run_explained (hm : m.ip ≤ memorySize) (fuel : Nat) :
    (∀ n, m.run fuel = .completed n →
      n.mode = .finished ∧ 1 ≤ n.ip ∧ n.ip ≤ memorySize ∧
        (∃ w, n.word? (n.ip - 1) = some w ∧ (Instruction.decode w).opcode? = some .halt) ∧
        ∃ count last, (m.setMode .running).Proceeds [] count last ∧ last.haltsNext = true ∧
          last.step = .ok n ∧ n = { last with ip := last.ip + 1, mode := .finished }) ∧
      ∀ c, m.run fuel = .crashed c →
        c.state.mode = .running ∧
          (∃ count last, (m.setMode .running).Proceeds [] count last ∧ last.step = .error c ∧
            last.ip = c.trap.address ∧ c.state = { last with ip := c.state.ip }) ∧
          (c.trap = ⟨memorySize, .pointerOutOfRange memorySize⟩ ∧ c.state.ip = memorySize ∨
            ∃ w, c.state.ip = c.trap.address + 1 ∧ c.state.word? c.trap.address = some w ∧
              c.state.Explains w c.trap.fault) := by
  have hstart : (m.setMode .running).ip ≤ memorySize := hm
  have hrun : m.run fuel = iterate isFinished step fuel (m.setMode .running) := rfl
  rw [hrun]
  cases run_cases (m := m.setMode .running) rfl fuel with
  | outOfFuel _ hend => simp [hend]
  | @completed count last n h hhalts hstep hend =>
    rw [hend]
    refine ⟨?_, by simp⟩
    intro n' hn'
    cases hn'
    cases hp : last.peek with
    | error trap =>
      rw [step_of_peek_error hp] at hstep
      cases hstep
    | ok i =>
      obtain ⟨w, hw, hi⟩ := exists_word_of_peek hp
      obtain rfl := eq_of_step_of_haltsNext hhalts hstep
      refine ⟨rfl, Nat.le_add_left _ _, lt_of_peek hp, ⟨w, hw, ?_⟩, count, last, h, hhalts, hstep,
        rfl⟩
      rw [← hi]
      exact (haltsNext_iff hp).mp hhalts
  | @crashed count last c h hstep hend =>
    rw [hend]
    refine ⟨by simp, ?_⟩
    intro c' hc'
    cases hc'
    have hmode : last.mode = .running := h.mode_eq
    rcases stopped_cases (h.ip_le hstart) hstep with
      ⟨htrap, hip, hstate⟩ | ⟨w, haddress, hstate, hw, hexplains⟩
    · refine ⟨?_, ⟨count, last, h, hstep, ?_, ?_⟩, .inl ⟨htrap, ?_⟩⟩
      · rw [hstate, hmode]
      · rw [hip, htrap]
      · rw [hstate]
      · rw [hstate, hip]
    · refine ⟨?_, ⟨count, last, h, hstep, haddress.symm, ?_⟩, .inr ⟨w, ?_, ?_, ?_⟩⟩
      · rw [hstate]
        exact hmode
      · rw [hstate]
      · rw [hstate, haddress]
      · rw [hstate, haddress]
        exact hw
      · exact hexplains

/-- A register runs below zero and is then taken for an address. -/
theorem run_explained_below_zero :
    let m : Machine :=
      { Machine.blank with memory := memoryOf [0x010102, 0x010007, 0x000203, 0x000001] }
    ∃ c, m.run 8 = .crashed c ∧ c.trap = ⟨2, .invalidAddress 0xffffffff⟩ ∧
      c.state.mode = .running ∧ c.state.ip = 3 ∧
      ∃ w, c.state.word? 2 = some w ∧ c.state.Misses (Instruction.decode w) 0xffffffff := by
  intro m
  obtain ⟨c, hrun, htrap⟩ := Ending.exists_crashed (e := m.run 8)
    (show _ = some ⟨2, .invalidAddress 0xffffffff⟩ by decide +kernel)
  have hm : m.ip ≤ memorySize := by decide
  obtain ⟨hmode, -, ⟨hend, -⟩ | ⟨w, hip, hw, hexplains⟩⟩ := (run_explained hm 8).2 c hrun
  · rw [htrap] at hend
    cases hend
  · rw [htrap] at hip hw hexplains
    exact ⟨c, hrun, htrap, hmode, hip, w, hw, hexplains.1⟩

end Machine
end RegisterMachine
