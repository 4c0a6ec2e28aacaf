import RegisterMachine.Assembly.Assemble
import RegisterMachine.Proofs.Machine.Effect

/-! # Well-formed instructions

An instruction is well formed when its operation is known and not reserved, and every operand that
should name a register does.  Whatever the assembler accepts is well formed, word by word
(`wellFormed_of_ofSource`).  A well-formed instruction can only fail for what a register holds, and
never for what the instruction is (`WellFormed.fault_eq`). -/

namespace RegisterMachine

/-- **An instruction that a source can ask for.** -/
structure Instruction.WellFormed (i : Instruction) : Prop where
  known : ∃ o, i.opcode? = some o ∧ o.isReserved = false
  registers : ∀ r ∈ i.registerOperands, r.toNat < registerCount

/-- The only thing that can be wrong with a well-formed instruction is the address that it finds in
a register. -/
theorem Instruction.WellFormed.fault_eq {m : Machine} {i : Instruction} {fault : Fault}
    (h : i.WellFormed) (he : m.effect i = .error fault) : ∃ w, fault = .invalidAddress w := by
  obtain ⟨o, ho, hreserved⟩ := h.known
  cases Machine.failsWith_of_effect he with
  | unknown hnone =>
    rw [ho] at hnone
    cases hnone
  | breakpoint hbreak =>
    rw [ho] at hbreak
    cases hbreak
    cases hreserved
  | @register operand hf =>
    have hlt := h.registers operand (List.mem_of_find?_eq_some hf)
    have hle := List.find?_some hf
    simp only [decide_eq_true_eq] at hle
    omega
  | address => exact ⟨_, rfl⟩

namespace Assembly
variable {table : LabelTable} {o : Opcode} {tokens : List Text} {first second : UInt8}

theorem register_lt {token : Text} {r : UInt8} (h : register token = .ok r) :
    r.toNat < registerCount := by
  unfold register at h
  split at h
  · cases h
  · split at h
    · rename_i n _ hlt
      cases h
      rw [UInt8.toNat_ofNat']
      exact Nat.lt_of_le_of_lt (Nat.mod_le _ _) hlt
    · cases h

/-- The operands that are read for an operation name registers wherever its format says so. -/
theorem registers_of_operands (h : operands table o tokens = .ok (first, second)) :
    ∀ r ∈ (⟨o.code, first, second⟩ : Instruction).registerOperands, r.toNat < registerCount := by
  have ho : (⟨o.code, first, second⟩ : Instruction).opcode? = some o :=
    Instruction.opcode?_eq_some_iff.mpr rfl
  unfold operands at h
  -- a case for each format, and one for a wrong number of operands
  split at h <;> rename_i hformat
  · simp [Instruction.registerOperands, ho, hformat]
  · simp only [bind_eq_ok_iff] at h
    obtain ⟨a, ha, hpair⟩ := h
    cases hpair
    simp [Instruction.registerOperands, ho, hformat, register_lt ha]
  · simp only [bind_eq_ok_iff] at h
    obtain ⟨a, ha, b, hb, hpair⟩ := h
    cases hpair
    simp [Instruction.registerOperands, ho, hformat, register_lt ha, register_lt hb]
  · simp only [bind_eq_ok_iff] at h
    obtain ⟨a, ha, b, hb, hpair⟩ := h
    cases hpair
    simp [Instruction.registerOperands, ho, hformat, register_lt ha]
  · cases h

theorem wellFormed_of_line {l : Line} {w : Word} (h : l.compile table = .ok w) :
    (Instruction.decode w).WellFormed := by
  unfold Line.compile at h
  split at h
  · cases h
  · split at h
    · cases h
    · rename_i o _
      split at h
      · cases h
      · rename_i hreserved
        split at h
        · cases h
        · rename_i first second hoperands
          cases h
          rw [Instruction.decode_encode]
          refine ⟨⟨o, Instruction.opcode?_eq_some_iff.mpr rfl, ?_⟩, registers_of_operands hoperands⟩
          exact Bool.eq_false_iff.mpr hreserved

theorem wellFormed_of_compile {ls : List Line} {p : Program} (h : compile table ls = .ok p) :
    ∀ w ∈ p, (Instruction.decode w).WellFormed := by
  induction ls generalizing p with
  | nil =>
    cases h
    simp
  | cons l rest ih =>
    simp only [compile] at h
    split at h
    · cases h
    · rename_i w hw
      cases hrest : compile table rest with
      | error e =>
        rw [hrest] at h
        cases h
      | ok q =>
        rw [hrest] at h
        cases h
        intro w' hw'
        rcases List.mem_cons.mp hw' with rfl | hw'
        · exact wellFormed_of_line hw
        · exact ih hrest w' hw'

/-- **Every word of an assembled program is a well-formed instruction.** -/
theorem wellFormed_of_ofSource {source : List Text} {p : Program}
    (h : (ofSource source).program = .ok p) : ∀ w ∈ p, (Instruction.decode w).WellFormed := by
  simp only [ofSource, ofSections] at h
  split at h
  · cases h
  · split at h
    · cases h
    · exact wellFormed_of_compile h

end Assembly
end RegisterMachine
