import RegisterMachine.Machine.Run

/-! # What an instruction depends on and what it changes

An instruction looks at its operands, at the registers, and at no more than one word of memory,
the one at its data address (`effect_congr`).  It changes a word of memory only if it is a store,
and then the word at that same address (`dataAddress?_of_store`).

Why an instruction fails is said once, for all operations, in `FailsWith`
(`failsWith_of_effect`); where an address is at fault, a pointer register holds it (`Misses`). -/

namespace RegisterMachine

/-! ## Computations that may fail -/

section Bind
variable {ε α β : Type} {x : Except ε α}

theorem bind_eq_ok_iff {f : α → Except ε β} {b : β} :
    x >>= f = .ok b ↔ ∃ a, x = .ok a ∧ f a = .ok b := by
  cases x with
  | error e => simp [bind, Except.bind]
  | ok a => simp [bind, Except.bind]

theorem bind_eq_error_iff {f : α → Except ε β} {e : ε} :
    x >>= f = .error e ↔ x = .error e ∨ ∃ a, x = .ok a ∧ f a = .error e := by
  cases x with
  | error e' => simp [bind, Except.bind]
  | ok a => simp [bind, Except.bind]

theorem exists_ok_of_any {f : α → Bool} (h : x.toOption.any f = true) :
    ∃ a, x = .ok a ∧ f a = true := by
  cases x with
  | error e => cases h
  | ok a => exact ⟨a, rfl, h⟩

end Bind

/-! ## Operands -/

theorem registerOf_eq_ok_iff {index : UInt8} {r : Fin registerCount} :
    registerOf index = .ok r ↔ index.toNat = r.val := by
  unfold registerOf
  split
  · simp [Fin.ext_iff]
  · rename_i h
    simp only [reduceCtorEq, false_iff]
    exact fun he => h (he ▸ r.isLt)

theorem registerOf_eq_error_iff {index : UInt8} {fault : Fault} :
    registerOf index = .error fault ↔
      registerCount ≤ index.toNat ∧ fault = .invalidRegister index := by
  unfold registerOf
  split
  · rename_i h
    simp [Nat.not_le.mpr h]
  · rename_i h
    simp [Nat.not_lt.mp h, eq_comm]

theorem addressOf_eq_error_iff {w : Word} {fault : Fault} :
    addressOf w = .error fault ↔ memorySize ≤ w.toNat ∧ fault = .invalidAddress w := by
  unfold addressOf
  split
  · rename_i h
    simp [Nat.not_le.mpr h]
  · rename_i h
    simp [Nat.not_lt.mp h, eq_comm]

/-- Every value of an operand is an address. -/
theorem addressOf_toUInt32_ne_error (value : UInt8) (fault : Fault) :
    addressOf value.toUInt32 ≠ .error fault := by
  intro h
  have hle := (addressOf_eq_error_iff.mp h).1
  have hlt := value.toNat_lt
  simp only [UInt8.toNat_toUInt32, memorySize] at hle
  omega

/-- The operands of an instruction that name registers, in order. -/
def Instruction.registerOperands (i : Instruction) : List UInt8 :=
  match i.opcode?.map Opcode.format with
  | some .register | some .registerValue => [i.first]
  | some .registerPair => [i.first, i.second]
  | _ => []

namespace Machine

/-! ## The footprint of an instruction -/

section Footprint
variable {m n : Machine} {i : Instruction}

theorem register_congr (hr : m.registers = n.registers) (index : Fin registerCount) :
    m.register index = n.register index := by
  simp only [register, hr]

theorem dataAddress?_congr (hr : m.registers = n.registers) (i : Instruction) :
    m.dataAddress? i = n.dataAddress? i := by
  simp only [dataAddress?, register_congr hr]

theorem dataAddress?_eq_some {operand : UInt8} {pointer : Fin registerCount}
    {address : Fin memorySize} (ho : i.pointer? = some operand)
    (hp : registerOf operand = .ok pointer) (ha : addressOf (m.register pointer) = .ok address) :
    m.dataAddress? i = some address := by
  simp [dataAddress?, ho, hp, ha, Except.toOption]

/-- **An instruction does the same on two machines** that have the same registers and the same
word at its data address. -/
theorem effect_congr (hr : m.registers = n.registers)
    (hw : ∀ a, m.dataAddress? i = some a → m.word a = n.word a) : m.effect i = n.effect i := by
  have hreg := register_congr hr
  -- the operations that read memory do so at the data address
  have hread : ∀ operand pointer address, i.pointer? = some operand →
      registerOf operand = .ok pointer → addressOf (n.register pointer) = .ok address →
      m.word address = n.word address := by
    intro operand pointer address ho hp ha
    exact hw address (dataAddress?_eq_some ho hp (hreg pointer ▸ ha))
  cases ho : i.opcode? with
  | none => simp only [effect, ho]
  | some o =>
    cases o with
    | load =>
      simp only [effect, ho, perform, hreg]
      refine bind_congr fun target => ?_
      cases hp : registerOf i.second with
      | error fault => rfl
      | ok pointer =>
        cases ha : addressOf (n.register pointer) with
        | error fault => simp [ha, bind, Except.bind]
        | ok address =>
          simp [ha, bind, Except.bind, hread _ _ _ (by simp [Instruction.pointer?, ho]) hp ha]
    | printMemory =>
      simp only [effect, ho, perform, hreg]
      cases hp : registerOf i.first with
      | error fault => rfl
      | ok pointer =>
        cases ha : addressOf (n.register pointer) with
        | error fault => simp [ha, bind, Except.bind]
        | ok address =>
          simp [ha, bind, Except.bind, hread _ _ _ (by simp [Instruction.pointer?, ho]) hp ha]
    | _ => simp only [effect, ho, perform, hreg]

/-- Only a store replaces a word of memory. -/
theorem opcode?_of_store {address : Fin memorySize} {w : Word}
    (h : m.effect i = .ok (.store address w)) : i.opcode? = some .store := by
  cases ho : i.opcode? with
  | none => simp [effect, ho] at h
  | some o =>
    cases o with
    | store => rfl
    | halt | breakpoint => simp [effect, ho, perform] at h
    | _ =>
      simp only [effect, ho, perform, bind_eq_ok_iff, pure, Except.pure, Except.ok.injEq] at h
      grind

/-- An instruction that replaces a word of memory replaces the one at its data address. -/
theorem dataAddress?_of_store {address : Fin memorySize} {w : Word}
    (h : m.effect i = .ok (.store address w)) : m.dataAddress? i = some address := by
  have ho := opcode?_of_store h
  simp only [effect, ho, perform, bind_eq_ok_iff] at h
  obtain ⟨source, -, pointer, hp, found, ha, he⟩ := h
  cases he
  exact dataAddress?_eq_some (by simp [Instruction.pointer?, ho]) hp ha

/-- What a store does is up to the registers alone. -/
theorem effect_store_congr {address : Fin memorySize} {w : Word}
    (hr : m.registers = n.registers) (h : m.effect i = .ok (.store address w)) :
    n.effect i = .ok (.store address w) := by
  have ho := opcode?_of_store h
  simp only [effect, ho, perform, register_congr hr] at h ⊢
  exact h

/-- Only the halting instruction ends the program. -/
theorem effect_eq_finish_iff : m.effect i = .ok .finish ↔ i.opcode? = some .halt := by
  cases ho : i.opcode? with
  | none => simp [effect, ho]
  | some o =>
    cases o with
    | halt => simp [effect, ho, perform]
    | breakpoint => simp [effect, ho, perform]
    | _ =>
      simp only [effect, ho, perform, bind_eq_ok_iff, pure, Except.pure, Except.ok.injEq]
      grind

end Footprint

/-! ## Why an instruction fails -/

/-- The reasons for which a machine cannot execute an instruction, each with the fault it gives.
Registers are checked before the address that one of them holds, so an address is only at fault
if all register operands are right. -/
inductive FailsWith (m : Machine) (i : Instruction) : Fault → Prop
  /-- No operation has the code. -/
  | unknown (ho : i.opcode? = none) : FailsWith m i (.unknownOpcode i.code)
  /-- The instruction is a breakpoint. -/
  | breakpoint (ho : i.opcode? = some .breakpoint) : FailsWith m i .unexpectedBreakpoint
  /-- The operand is the first that should name a register and does not. -/
  | register {operand : UInt8}
      (hf : i.registerOperands.find? (fun r => registerCount ≤ r.toNat) = some operand) :
      FailsWith m i (.invalidRegister operand)
  /-- The register that should hold the data address holds something else. -/
  | address {operand : UInt8} {pointer : Fin registerCount}
      (ho : i.pointer? = some operand) (hp : registerOf operand = .ok pointer)
      (hr : ∀ r ∈ i.registerOperands, r.toNat < registerCount)
      (hw : memorySize ≤ (m.register pointer).toNat) :
      FailsWith m i (.invalidAddress (m.register pointer))

section Failure
variable {m : Machine} {i : Instruction} {fault : Fault}

theorem failsWith_first (hr : i.registerOperands.head? = some i.first)
    (h : registerOf i.first = .error fault) : m.FailsWith i fault := by
  obtain ⟨hle, rfl⟩ := registerOf_eq_error_iff.mp h
  obtain ⟨rest, hrest⟩ := List.head?_eq_some_iff.mp hr
  exact .register (by rw [hrest]; simp [List.find?, hle])

theorem failsWith_second (hr : i.registerOperands = [i.first, i.second])
    {r : Fin registerCount} (hfirst : registerOf i.first = .ok r)
    (h : registerOf i.second = .error fault) : m.FailsWith i fault := by
  obtain ⟨hle, rfl⟩ := registerOf_eq_error_iff.mp h
  have hlt : ¬ registerCount ≤ i.first.toNat := by
    rw [registerOf_eq_ok_iff.mp hfirst]
    exact Nat.not_le.mpr r.isLt
  exact .register (by rw [hr]; simp [List.find?, hle, hlt])

theorem toNat_lt_of_registerOf {index : UInt8} {r : Fin registerCount}
    (h : registerOf index = .ok r) : index.toNat < registerCount := by
  rw [registerOf_eq_ok_iff.mp h]
  exact r.isLt

/-- **Whatever stops an instruction is one of the four reasons.** -/
theorem failsWith_of_effect (h : m.effect i = .error fault) : m.FailsWith i fault := by
  cases ho : i.opcode? with
  | none =>
    simp only [effect, ho] at h
    cases h
    exact .unknown ho
  | some o =>
    cases o with
    | halt => simp [effect, ho, perform] at h
    | breakpoint =>
      simp only [effect, ho, perform] at h
      cases h
      exact .breakpoint ho
    | loadValue | printRegister =>
      simp only [effect, ho, perform, bind_eq_error_iff] at h
      rcases h with h | ⟨_, _, h⟩
      · exact failsWith_first (by simp [Instruction.registerOperands, ho, Opcode.format]) h
      · cases h
    | branchZero | branchNonzero =>
      simp only [effect, ho, perform, bind_eq_error_iff] at h
      rcases h with h | ⟨_, _, h | ⟨_, _, h⟩⟩
      · exact failsWith_first (by simp [Instruction.registerOperands, ho, Opcode.format]) h
      · exact absurd h (addressOf_toUInt32_ne_error _ _)
      · cases h
    | copy | add | subtract =>
      have hr : i.registerOperands = [i.first, i.second] := by
        simp [Instruction.registerOperands, ho, Opcode.format]
      simp only [effect, ho, perform, bind_eq_error_iff] at h
      rcases h with h | ⟨_, hfirst, h | ⟨_, _, h⟩⟩
      · exact failsWith_first (by rw [hr]; rfl) h
      · exact failsWith_second hr hfirst h
      · cases h
    | load | store =>
      have hr : i.registerOperands = [i.first, i.second] := by
        simp [Instruction.registerOperands, ho, Opcode.format]
      simp only [effect, ho, perform, bind_eq_error_iff] at h
      rcases h with h | ⟨_, hfirst, h | ⟨pointer, hsecond, h | ⟨_, _, h⟩⟩⟩
      · exact failsWith_first (by rw [hr]; rfl) h
      · exact failsWith_second hr hfirst h
      · obtain ⟨hw, rfl⟩ := addressOf_eq_error_iff.mp h
        refine .address (by simp [Instruction.pointer?, ho]) hsecond ?_ hw
        simp [hr, toNat_lt_of_registerOf hfirst, toNat_lt_of_registerOf hsecond]
      · cases h
    | printMemory =>
      have hr : i.registerOperands = [i.first] := by
        simp [Instruction.registerOperands, ho, Opcode.format]
      simp only [effect, ho, perform, bind_eq_error_iff] at h
      rcases h with h | ⟨pointer, hfirst, h | ⟨_, _, h⟩⟩
      · exact failsWith_first (by rw [hr]; rfl) h
      · obtain ⟨hw, rfl⟩ := addressOf_eq_error_iff.mp h
        refine .address (by simp [Instruction.pointer?, ho]) hfirst ?_ hw
        simp [hr, toNat_lt_of_registerOf hfirst]
      · cases h

/-- An instruction that reads or writes memory finds a word in its pointer register that is no
address. -/
structure Misses (m : Machine) (i : Instruction) (w : Word) : Prop where
  opcode : i.opcode? = some .load ∨ i.opcode? = some .store ∨ i.opcode? = some .printMemory
  pointer : ∃ operand index, i.pointer? = some operand ∧ registerOf operand = .ok index ∧
    m.register index = w
  outside : memorySize ≤ w.toNat

/-- **Only a pointer register is ever blamed for an address.** -/
theorem FailsWith.misses {w : Word} (h : m.FailsWith i (.invalidAddress w)) : m.Misses i w := by
  cases h with
  | @address operand index ho hp _ hw =>
    refine ⟨?_, ⟨operand, index, ho, hp, rfl⟩, hw⟩
    unfold Instruction.pointer? at ho
    split at ho
    · rename_i hopcode
      exact .inl hopcode
    · rename_i hopcode
      exact .inr (.inl hopcode)
    · rename_i hopcode
      exact .inr (.inr hopcode)
    · cases ho

theorem misses_of_effect {w : Word} (h : m.effect i = .error (.invalidAddress w)) :
    m.Misses i w :=
  (failsWith_of_effect h).misses

end Failure

end Machine
end RegisterMachine
