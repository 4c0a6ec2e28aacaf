import RegisterMachine.Machine.InPlace
import RegisterMachine.Proofs.Machine.Steps

/-! # The footprint of an instruction

An instruction that is carried out in place checks all its operands before it makes its one change
(`run_handle`), so it comes to the same as its effect, made at once, and leaves the machine as it
was if it fails (`carryOut_of_effect`, `carryOut_of_fault`).

From what an effect depends on follows the footprint: of all memory, an instruction reads and writes
at most the word at its data address (`carryOut_footprint`). -/

namespace RegisterMachine
namespace Machine

/-! ## In place and at once -/

/-- What is left of a machine when it has been decided what to do to it. -/
def made (m : Machine) : Except Fault Effect → Except Fault Unit × Machine
  | .ok e => (.ok (), m.apply e)
  | .error fault => (.error fault, m)

/-- A check changes nothing, whether it succeeds or not. -/
theorem run_check {α : Type} {m : Machine} {x : Except Fault α} {f : α → Action Unit}
    {g : α → Except Fault Effect} (h : ∀ a, (f a).run.run m = m.made (g a)) :
    (liftM x >>= f : Action Unit).run.run m = m.made (x >>= g) := by
  cases x with
  | error fault => rfl
  | ok a => exact h a

theorem run_get_bind (m : Machine) (f : Machine → Action Unit) :
    (get >>= f : Action Unit).run.run m = (f m).run.run m := rfl

/-- **Every operation makes its checks first and then its one change.** -/
theorem run_handle (m : Machine) (o : Opcode) (first second : UInt8) :
    (handle o first second).run.run m = m.made (m.perform o first second) := by
  cases o with
  | halt | breakpoint => rfl
  | loadValue | printRegister => exact run_check fun _ => rfl
  | copy | add | subtract => exact run_check fun _ => run_check fun _ => rfl
  | load | store =>
    refine run_check fun _ => run_check fun pointer => ?_
    rw [run_get_bind]
    exact run_check fun _ => rfl
  | printMemory =>
    refine run_check fun pointer => ?_
    rw [run_get_bind]
    exact run_check fun _ => rfl
  | branchZero | branchNonzero =>
    refine run_check fun condition => run_check fun target => ?_
    rw [run_get_bind]
    by_cases hzero : m.register condition = 0
    · simp only [hzero, ne_eq, not_true, if_true, if_false]
      rfl
    · simp only [hzero, ne_eq, not_false_iff, if_true, if_false]
      rfl

section CarryOut
variable {m n : Machine} {i : Instruction} {e : Effect} {trap : Trap}

theorem carryOut_of_effect (he : m.effect i = .ok e) : m.carryOut i = (.ok (), m.apply e) := by
  unfold effect at he
  split at he
  · cases he
  · rename_i o ho
    simp only [carryOut, ho, run_handle, he]
    rfl

theorem carryOut_of_fault {fault : Fault} (he : m.effect i = .error fault) :
    m.carryOut i = (.error ⟨m.ip - 1, fault⟩, m) := by
  unfold effect at he
  split at he
  · rename_i ho
    cases he
    simp only [carryOut, ho]
  · rename_i o ho
    simp only [carryOut, ho, run_handle, he]
    rfl

/-- **An instruction carried out in place** leaves the machine that executing it gives. -/
theorem carryOut_eq_ok_iff : m.carryOut i = (.ok (), n) ↔ m.execute i = .ok n := by
  cases he : m.effect i with
  | error fault => simp [carryOut_of_fault he, execute_of_fault he]
  | ok e => simp [carryOut_of_effect he, execute_of_effect he]

/-- **An instruction that is stopped in place** has changed nothing. -/
theorem carryOut_eq_error_iff :
    m.carryOut i = (.error trap, n) ↔ m.execute i = .error trap ∧ n = m := by
  cases he : m.effect i with
  | error fault =>
    simp only [carryOut_of_fault he, execute_of_fault he, Prod.mk.injEq, Except.error.injEq]
    exact and_congr_right fun _ => eq_comm
  | ok e => simp [carryOut_of_effect he, execute_of_effect he]

theorem carryOut_of_error (h : (m.carryOut i).1 = .error trap) : (m.carryOut i).2 = m :=
  (carryOut_eq_error_iff.mp (Prod.ext h rfl)).2

/-! ## The footprint -/

/-- **An instruction writes at its data address and nowhere else.** -/
theorem word_carryOut {a : Fin memorySize} (h : m.dataAddress? i ≠ some a) :
    (m.carryOut i).2.word a = m.word a := by
  cases he : m.effect i with
  | error fault => rw [carryOut_of_fault he]
  | ok e =>
    rw [carryOut_of_effect he]
    refine word_apply_of_forall_ne m e ?_
    rintro w rfl
    exact h (dataAddress?_of_store he)

/-- What an instruction writes at its data address is up to what it depends on. -/
theorem word_apply_congr (e : Effect) {a : Fin memorySize} (h : m.word a = n.word a) :
    (m.apply e).word a = (n.apply e).word a := by
  cases e with
  | store address w =>
    by_cases ha : a = address
    · subst ha
      simp [apply]
    · simp only [apply, word_setWord_of_ne _ w ha, h]
  | finish | assign | jump | print | idle => exact h

end CarryOut

/-- **The footprint of an instruction.**  Carried out on two machines that are the same but for
memory, and there have the same word at the data address of the instruction if it has one, an
instruction

* gives the same result, and leaves machines that are still the same but for memory and still have
  the same word at the data address;
* leaves all other words of both as they were;
* leaves both machines as they were if it fails.

What it gives and leaves is in all cases what executing it gives. -/
theorem carryOut_footprint {m n : Machine} {i : Instruction} (h : m.SameButMemory n)
    (hw : ∀ a, m.dataAddress? i = some a → m.word a = n.word a) :
    n.dataAddress? i = m.dataAddress? i ∧
      (m.carryOut i).1 = (n.carryOut i).1 ∧
      (m.carryOut i).2.SameButMemory (n.carryOut i).2 ∧
      (∀ a, m.dataAddress? i = some a → (m.carryOut i).2.word a = (n.carryOut i).2.word a) ∧
      (∀ a, m.dataAddress? i ≠ some a →
        (m.carryOut i).2.word a = m.word a ∧ (n.carryOut i).2.word a = n.word a) ∧
      (∀ trap, (m.carryOut i).1 = .error trap →
        (m.carryOut i).2 = m ∧ (n.carryOut i).2 = n) ∧
      ∀ k : Machine, (∀ left, k.execute i = .ok left ↔ k.carryOut i = (.ok (), left)) ∧
        ∀ trap, k.execute i = .error trap ↔ k.carryOut i = (.error trap, k) := by
  have haddress : n.dataAddress? i = m.dataAddress? i := dataAddress?_congr h.registers.symm i
  have heffect : m.effect i = n.effect i := effect_congr h.registers hw
  have hresult : (m.carryOut i).1 = (n.carryOut i).1 ∧
      (m.carryOut i).2.SameButMemory (n.carryOut i).2 ∧
      ∀ a, m.dataAddress? i = some a → (m.carryOut i).2.word a = (n.carryOut i).2.word a := by
    cases he : m.effect i with
    | error fault =>
      rw [carryOut_of_fault he, carryOut_of_fault (heffect ▸ he), h.ip]
      exact ⟨rfl, h, hw⟩
    | ok e =>
      rw [carryOut_of_effect he, carryOut_of_effect (heffect ▸ he)]
      exact ⟨rfl, h.apply e, fun a ha => word_apply_congr e (hw a ha)⟩
  obtain ⟨hsame, hleft, hword⟩ := hresult
  refine ⟨haddress, hsame, hleft, hword, ?_, ?_, ?_⟩
  · intro a ha
    exact ⟨word_carryOut ha, word_carryOut (haddress ▸ ha)⟩
  · intro trap htrap
    exact ⟨carryOut_of_error htrap, carryOut_of_error (hsame ▸ htrap)⟩
  · intro k
    refine ⟨fun left => carryOut_eq_ok_iff.symm, fun trap => ?_⟩
    rw [carryOut_eq_error_iff]
    simp

/-- The same store on two machines that have one word of memory in common. -/
theorem carryOut_footprint_of_store :
    let m : Machine := { Machine.blank with registers := #v[7, 5, 0, 0] }
    let n : Machine := { m with memory := (Vector.replicate memorySize 9).set 5 0 }
    let i : Instruction := ⟨Opcode.store.code, 0, 1⟩
    m.dataAddress? i = some 5 ∧ m.carryOut i = (.ok (), m.setWord 5 7) ∧
      (n.carryOut i).1 = .ok () ∧ (n.carryOut i).2.word 5 = 7 ∧
      ∀ a, a ≠ 5 → (n.carryOut i).2.word a = n.word a := by
  intro m n i
  have haddress : m.dataAddress? i = some 5 := by decide
  have hword : ∀ a, m.dataAddress? i = some a → m.word a = n.word a := by
    intro a ha
    obtain rfl := Option.some.inj (haddress.symm.trans ha)
    decide +kernel
  obtain ⟨-, hresult, -, hsame, hothers, -, hexecute⟩ :=
    carryOut_footprint (m := m) (n := n) ⟨rfl, rfl, rfl, rfl⟩ hword
  have hm : m.carryOut i = (.ok (), m.setWord 5 7) := ((hexecute m).1 _).mp rfl
  refine ⟨haddress, hm, ?_, ?_, ?_⟩
  · rw [← hresult, hm]
  · rw [← hsame 5 haddress, hm]
    simp
  · intro a ha
    refine (hothers a fun hat => ha ?_).2
    exact (Option.some.inj (haddress.symm.trans hat)).symm

end Machine
end RegisterMachine
