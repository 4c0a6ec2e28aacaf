import RegisterMachine.Proofs.Machine.Effect

/-! # Steps of a machine

A machine that is left to itself takes one step after the other.  `after` counts them and stops at
a trap, whatever mode the machine is in; `trail` lists the states from which a bounded run takes
its steps.

Two machines are `Alike` when no program can tell them apart: they have the same memory, registers
and instruction pointer, and have printed the same words.  They may differ in mode and in what else
was written.  Alike machines take the same steps (`Alike.step_ok`, `Alike.step_error`). -/

namespace RegisterMachine

/-- The states from which a bounded run takes its steps, in order.  The last of them may be one from
which a step was stopped. -/
def trail {σ : Type} (done : σ → Bool) (step : σ → Except (Crash σ) σ) : Nat → σ → List σ
  | 0, _ => []
  | fuel + 1, s =>
    if done s then []
    else
      s :: match step s with
        | .error _ => []
        | .ok next => trail done step fuel next

theorem Ending.eq_completed {σ : Type} {e : Ending σ} (hfinal : e.isFinal = true)
    (htrap : e.trap? = none) : e = .completed e.state := by
  cases e with
  | completed s => rfl
  | crashed c => cases htrap
  | outOfFuel s => cases hfinal

theorem Ending.exists_crashed {σ : Type} {e : Ending σ} {trap : Trap} (h : e.trap? = some trap) :
    ∃ c, e = .crashed c ∧ c.trap = trap := by
  cases e with
  | completed s | outOfFuel s => cases h
  | crashed c => exact ⟨c, rfl, Option.some.inj h⟩

namespace Machine

/-! ## The memory of a program -/

theorem word_of_memory {m : Machine} {p : Program} (hm : m.memory = memoryOf p)
    (address : Fin memorySize) : m.word address = p[address.val]?.getD 0 := by
  simp [word, hm, memoryOf]

/-- Memory holds the words of the program and zeros. -/
theorem word_mem_of_memory {m : Machine} {p : Program} (hm : m.memory = memoryOf p)
    (address : Fin memorySize) : m.word address ∈ 0 :: p := by
  rw [word_of_memory hm]
  cases h : p[address.val]? with
  | none => exact List.mem_cons_self
  | some w => exact List.mem_cons_of_mem _ (List.mem_of_getElem? h)

/-! ## A step, opened once -/

section Step
variable {m : Machine} {i : Instruction} {e : Effect}

theorem peek_of_lt (h : m.ip < memorySize) :
    m.peek = .ok (Instruction.decode (m.word ⟨m.ip, h⟩)) := by
  simp only [peek, m.word?_eq ⟨m.ip, h⟩]

theorem peek_of_le (h : memorySize ≤ m.ip) : m.peek = .error ⟨m.ip, .pointerOutOfRange m.ip⟩ := by
  simp only [peek, word?_eq_none_iff.mpr h]

theorem execute_of_effect (he : m.effect i = .ok e) : m.execute i = .ok (m.apply e) := by
  simp only [execute, he]

theorem execute_of_fault {fault : Fault} (he : m.effect i = .error fault) :
    m.execute i = .error ⟨m.ip - 1, fault⟩ := by
  simp only [execute, he]

theorem effect_advance (m : Machine) (i : Instruction) : m.advance.effect i = m.effect i :=
  effect_congr rfl fun _ _ => rfl

theorem step_of_effect (hp : m.peek = .ok i) (he : m.effect i = .ok e) :
    m.step = .ok (m.advance.apply e) := by
  have hx := execute_of_effect ((m.effect_advance i).trans he)
  simp only [step, hp, hx]

theorem step_of_fault {fault : Fault} (hp : m.peek = .ok i) (he : m.effect i = .error fault) :
    m.step = .error ⟨⟨m.ip, fault⟩, m.advance⟩ := by
  have hx := execute_of_fault ((m.effect_advance i).trans he)
  simp only [step, hp, hx]
  rfl

theorem step_of_peek_error {trap : Trap} (hp : m.peek = .error trap) :
    m.step = .error ⟨trap, m⟩ := by
  simp only [step, hp]

/-- A step that is taken makes the change of the next instruction. -/
theorem step_ok_cases {n : Machine} (h : m.step = .ok n) :
    ∃ i e, m.peek = .ok i ∧ m.effect i = .ok e ∧ n = m.advance.apply e := by
  cases hp : m.peek with
  | error trap =>
    rw [step_of_peek_error hp] at h
    cases h
  | ok i =>
    cases he : m.effect i with
    | error fault =>
      rw [step_of_fault hp he] at h
      cases h
    | ok e =>
      rw [step_of_effect hp he] at h
      cases h
      exact ⟨i, e, rfl, he, rfl⟩

/-- A step is stopped by a pointer that is out of range, or by what is wrong with the next
instruction. -/
theorem step_error_cases {c : Crash Machine} (h : m.step = .error c) :
    (m.peek = .error c.trap ∧ c.state = m) ∨
      ∃ i fault, m.peek = .ok i ∧ m.effect i = .error fault ∧
        c = ⟨⟨m.ip, fault⟩, m.advance⟩ := by
  cases hp : m.peek with
  | error trap =>
    rw [step_of_peek_error hp] at h
    cases h
    exact .inl ⟨rfl, rfl⟩
  | ok i =>
    cases he : m.effect i with
    | error fault =>
      rw [step_of_fault hp he] at h
      cases h
      exact .inr ⟨i, fault, rfl, he, rfl⟩
    | ok e =>
      rw [step_of_effect hp he] at h
      cases h

end Step

/-! ## Changes, field by field -/

section Apply
variable (m : Machine) (e : Effect)

theorem apply_idle : m.apply .idle = m := rfl

/-- The word that a store replaces is the only one that changes. -/
theorem word_apply_of_forall_ne {address : Fin memorySize} (h : ∀ w, e ≠ .store address w) :
    (m.apply e).word address = m.word address := by
  cases e with
  | store other w =>
    refine word_setWord_of_ne m w fun he => ?_
    exact h w (he ▸ rfl)
  | _ => rfl

theorem mode_advance : m.advance.mode = m.mode := rfl

theorem mode_apply_of_ne_finish (h : e ≠ .finish) : (m.apply e).mode = m.mode := by
  cases e with
  | finish => exact absurd rfl h
  | _ => rfl

end Apply

/-- Memory is the same if it has the same words. -/
theorem memory_ext {m n : Machine} (h : ∀ address, m.word address = n.word address) :
    m.memory = n.memory :=
  Vector.ext fun address hlt => h ⟨address, hlt⟩

/-- Machines that differ in memory at most. -/
structure SameButMemory (m n : Machine) : Prop where
  ip : m.ip = n.ip
  registers : m.registers = n.registers
  mode : m.mode = n.mode
  transcript : m.transcript = n.transcript

namespace SameButMemory
variable {m n k : Machine}

protected theorem symm (h : m.SameButMemory n) : n.SameButMemory m :=
  ⟨h.ip.symm, h.registers.symm, h.mode.symm, h.transcript.symm⟩

protected theorem trans (h : m.SameButMemory n) (h' : n.SameButMemory k) : m.SameButMemory k :=
  ⟨h.ip.trans h'.ip, h.registers.trans h'.registers, h.mode.trans h'.mode,
    h.transcript.trans h'.transcript⟩

theorem setWord (m : Machine) (address : Fin memorySize) (w : Word) :
    m.SameButMemory (m.setWord address w) := ⟨rfl, rfl, rfl, rfl⟩

theorem advance (h : m.SameButMemory n) : m.advance.SameButMemory n.advance :=
  ⟨congrArg (· + 1) h.ip, h.registers, h.mode, h.transcript⟩

/-- The same change keeps two machines apart in memory only. -/
theorem apply (h : m.SameButMemory n) (e : Effect) : (m.apply e).SameButMemory (n.apply e) := by
  cases e with
  | finish => exact ⟨h.ip, h.registers, rfl, h.transcript⟩
  | assign index w =>
    exact ⟨h.ip, congrArg (fun r => r.set index w) h.registers, h.mode, h.transcript⟩
  | store address w => exact ⟨h.ip, h.registers, h.mode, h.transcript⟩
  | jump target => exact ⟨rfl, h.registers, h.mode, h.transcript⟩
  | print w => exact ⟨h.ip, h.registers, h.mode, congrArg (Entry.printed w :: ·) h.transcript⟩
  | idle => exact h

/-- Machines that differ in memory at most, and not there, are the same. -/
theorem eq (h : m.SameButMemory n) (hw : ∀ address, m.word address = n.word address) : m = n := by
  have hmemory := memory_ext hw
  obtain ⟨memory, ip, registers, mode, transcript⟩ := m
  obtain ⟨hip, hregisters, hmode, htranscript⟩ := h
  simp only at hip hregisters hmode htranscript hmemory
  subst hip hregisters hmode htranscript hmemory
  rfl

end SameButMemory

/-- What an instruction stores, and where, if it can be executed and is a store. -/
def stored? (m : Machine) (i : Instruction) : Option (Fin memorySize × Word) :=
  match m.effect i with
  | .ok (.store address w) => some (address, w)
  | _ => none

theorem stored?_eq_some_iff {m : Machine} {i : Instruction} {address : Fin memorySize} {w : Word} :
    m.stored? i = some (address, w) ↔ m.effect i = .ok (.store address w) := by
  unfold stored?
  split
  · rename_i he
    rw [he]
    simp
  · rename_i hne
    simp only [reduceCtorEq, false_iff]
    exact fun he => hne _ _ he

/-- What is stored is up to the registers alone. -/
theorem stored?_congr {m n : Machine} (hr : m.registers = n.registers) (i : Instruction) :
    m.stored? i = n.stored? i := by
  refine Option.ext fun found => ?_
  obtain ⟨address, w⟩ := found
  rw [stored?_eq_some_iff, stored?_eq_some_iff]
  exact ⟨effect_store_congr hr, effect_store_congr hr.symm⟩

/-- What the next instruction stores, and where. -/
def storesNext? (m : Machine) : Option (Fin memorySize × Word) :=
  m.peek.toOption.bind m.stored?

/-- Whether the next instruction ends the program. -/
def haltsNext (m : Machine) : Bool :=
  m.peek.toOption.bind Instruction.opcode? == some .halt

theorem haltsNext_iff {m : Machine} {i : Instruction} (hp : m.peek = .ok i) :
    m.haltsNext = true ↔ i.opcode? = some .halt := by
  simp [haltsNext, hp, Except.toOption]

/-- Nothing keeps a machine from halting. -/
theorem step_of_haltsNext {m : Machine} (h : m.haltsNext = true) : ∃ n, m.step = .ok n := by
  cases hp : m.peek with
  | error trap => simp [haltsNext, hp, Except.toOption] at h
  | ok i =>
    have hfinish : m.effect i = .ok .finish := effect_eq_finish_iff.mpr ((haltsNext_iff hp).mp h)
    exact ⟨_, step_of_effect hp hfinish⟩

/-- A step leaves a machine done if it halts, or if the machine was done before. -/
theorem isFinished_step {m n : Machine} (h : m.step = .ok n) :
    n.isFinished = (m.haltsNext || m.isFinished) := by
  obtain ⟨i, e, hp, he, rfl⟩ := step_ok_cases h
  by_cases hf : e = .finish
  · subst hf
    rw [(haltsNext_iff hp).mpr (effect_eq_finish_iff.mp he)]
    rfl
  · have hne : m.haltsNext = false := by
      refine Bool.eq_false_iff.mpr fun hhalt => hf ?_
      have hfinish : m.effect i = .ok .finish :=
        effect_eq_finish_iff.mpr ((haltsNext_iff hp).mp hhalt)
      exact Except.ok.inj (he.symm.trans hfinish)
    rw [hne, Bool.false_or, isFinished, mode_apply_of_ne_finish _ _ hf]
    rfl

/-- The machine after a number of steps, whatever mode it is in, or the crash that one of them ends
in. -/
def after (m : Machine) : Nat → Except (Crash Machine) Machine
  | 0 => .ok m
  | count + 1 =>
    match m.step with
    | .error c => .error c
    | .ok next => next.after count

theorem after_succ_of_step {m n : Machine} (h : m.step = .ok n) (count : Nat) :
    m.after (count + 1) = n.after count := by
  simp only [after, h]

theorem after_add {m n : Machine} {count : Nat} (h : m.after count = .ok n) (more : Nat) :
    m.after (count + more) = n.after more := by
  induction count generalizing m with
  | zero =>
    cases h
    rw [Nat.zero_add]
  | succ count ih =>
    cases hs : m.step with
    | error c => simp [after, hs] at h
    | ok next =>
      rw [after_succ_of_step hs] at h
      rw [Nat.succ_add, after_succ_of_step hs, ih h]

theorem after_one_iff {m n : Machine} : m.after 1 = .ok n ↔ m.step = .ok n := by
  cases h : m.step <;> simp [after, h]

/-! ## Machines that no program can tell apart -/

/-- **The same to every program**: memory, registers and instruction pointer, and the words printed
so far. -/
structure Alike (m n : Machine) : Prop where
  memory : m.memory = n.memory
  ip : m.ip = n.ip
  registers : m.registers = n.registers
  printed : m.transcript.printed = n.transcript.printed

namespace Alike
variable {m n k : Machine}

protected theorem refl (m : Machine) : m.Alike m := ⟨rfl, rfl, rfl, rfl⟩

protected theorem symm (h : m.Alike n) : n.Alike m :=
  ⟨h.memory.symm, h.ip.symm, h.registers.symm, h.printed.symm⟩

protected theorem trans (h : m.Alike n) (h' : n.Alike k) : m.Alike k :=
  ⟨h.memory.trans h'.memory, h.ip.trans h'.ip, h.registers.trans h'.registers,
    h.printed.trans h'.printed⟩

theorem word (h : m.Alike n) (address : Fin memorySize) : m.word address = n.word address := by
  simp only [Machine.word, h.memory]

theorem peek (h : m.Alike n) : m.peek = n.peek := by
  simp only [Machine.peek, word?, h.memory, h.ip]

theorem effect (h : m.Alike n) (i : Instruction) : m.effect i = n.effect i :=
  effect_congr h.registers fun a _ => h.word a

theorem haltsNext (h : m.Alike n) : m.haltsNext = n.haltsNext := by
  simp only [Machine.haltsNext, h.peek]

theorem advance (h : m.Alike n) : m.advance.Alike n.advance :=
  ⟨h.memory, congrArg (· + 1) h.ip, h.registers, h.printed⟩

theorem apply (h : m.Alike n) (e : Effect) : (m.apply e).Alike (n.apply e) := by
  cases e with
  | finish => exact ⟨h.memory, h.ip, h.registers, h.printed⟩
  | assign index w =>
    exact ⟨h.memory, h.ip, congrArg (fun r => r.set index w) h.registers, h.printed⟩
  | store address w =>
    exact ⟨congrArg (fun r => r.set address w) h.memory, h.ip, h.registers, h.printed⟩
  | jump target => exact ⟨h.memory, rfl, h.registers, h.printed⟩
  | print w =>
    refine ⟨h.memory, h.ip, h.registers, ?_⟩
    simp only [Machine.apply, write, Transcript.printed_cons, h.printed]
  | idle => exact h

/-- Alike machines take the same step. -/
theorem step_ok {m' : Machine} (h : m.Alike n) (hs : m.step = .ok m') :
    ∃ n', n.step = .ok n' ∧ m'.Alike n' := by
  obtain ⟨i, e, hp, he, rfl⟩ := step_ok_cases hs
  refine ⟨n.advance.apply e, ?_, h.advance.apply e⟩
  exact step_of_effect (h.peek ▸ hp) (h.effect i ▸ he)

/-- Alike machines are stopped by the same trap. -/
theorem step_error {c : Crash Machine} (h : m.Alike n) (hs : m.step = .error c) :
    ∃ c', n.step = .error c' ∧ c'.trap = c.trap ∧ c.state.Alike c'.state := by
  rcases step_error_cases hs with ⟨hp, hstate⟩ | ⟨i, fault, hp, he, rfl⟩
  · refine ⟨⟨c.trap, n⟩, step_of_peek_error (h.peek ▸ hp), rfl, ?_⟩
    rw [hstate]
    exact h
  · have hstep := step_of_fault (h.peek ▸ hp) (h.effect i ▸ he)
    refine ⟨⟨⟨n.ip, fault⟩, n.advance⟩, hstep, ?_, h.advance⟩
    rw [h.ip]

end Alike

end Machine
end RegisterMachine
