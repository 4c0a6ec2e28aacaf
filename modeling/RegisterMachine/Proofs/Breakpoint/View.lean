import RegisterMachine.Breakpoint.Patched
import RegisterMachine.Proofs.Machine.Steps

/-! # The program's view of a patched machine

`plain` puts every saved word back where it belongs.  Setting and clearing breakpoints does not
change it (`plain_of_set`, `plain_of_clear`), and executing an instruction on a patched machine is
executing it on the plain one (`execute_ok_cases`, `execute_error_cases`): the word that the
instruction touches is put back for as long as it takes, and every other word does not matter to
it. -/

namespace RegisterMachine

/-! ## The table -/

namespace Breakpoints
variable (table : Breakpoints) (address other : Nat) (w : Word)

theorem mem_addresses_iff : address ∈ table.addresses ↔ table.isSet address = true := by
  induction table with
  | nil => simp [addresses, isSet, saved?_nil]
  | cons entry rest ih =>
    obtain ⟨known, old⟩ := entry
    by_cases h : address = known
    · simp [addresses, isSet, saved?_cons, h]
    · simpa [addresses, isSet, saved?_cons, h] using ih

theorem isSet_eq_false_iff : table.isSet address = false ↔ table.saved? address = none := by
  simp [isSet]

/-- Saving another word for a known address keeps all places. -/
theorem addresses_save_of_isSet (h : table.isSet address = true) :
    (table.save address w).addresses = table.addresses := by
  induction table with
  | nil => simp [isSet, saved?_nil] at h
  | cons entry rest ih =>
    obtain ⟨known, old⟩ := entry
    by_cases hk : known = address
    · simp [save, hk, addresses]
    · have h' : address ≠ known := fun he => hk he.symm
      have hrest : isSet rest address = true := by
        simpa [isSet, saved?_cons, h'] using h
      simpa [save, hk, addresses] using ih hrest

/-- A new address comes last. -/
theorem addresses_save_of_not_isSet (h : table.isSet address = false) :
    (table.save address w).addresses = table.addresses ++ [address] := by
  induction table with
  | nil => rfl
  | cons entry rest ih =>
    obtain ⟨known, old⟩ := entry
    by_cases hk : known = address
    · simp [isSet, saved?_cons, hk] at h
    · have h' : address ≠ known := fun he => hk he.symm
      have hrest : isSet rest address = false := by
        simpa [isSet, saved?_cons, h'] using h
      simpa [save, hk, addresses] using ih hrest

theorem addresses_forget :
    (table.forget address).addresses = table.addresses.filter (· != address) := by
  simp only [addresses, forget, List.filter_map]
  rfl

@[simp] theorem saved?_forget_self : (table.forget address).saved? address = none := by
  rw [← isSet_eq_false_iff, Bool.eq_false_iff, ne_eq, ← mem_addresses_iff, addresses_forget]
  simp

theorem saved?_forget_of_ne (h : other ≠ address) :
    (table.forget address).saved? other = table.saved? other := by
  induction table with
  | nil => rfl
  | cons entry rest ih =>
    obtain ⟨known, old⟩ := entry
    simp only [forget] at ih
    by_cases hk : known = address
    · simp [forget, hk, saved?_cons, h, ih]
    · simp [forget, hk, saved?_cons, ih]

end Breakpoints

/-! ## The view -/

namespace Patched
variable {p q : Patched}

/-- Only memory is different in the view. -/
theorem sameButMemory_plain (p : Patched) : p.machine.SameButMemory p.plain := by
  constructor <;> simp only [plain]

theorem plain_registers (p : Patched) : p.plain.registers = p.machine.registers :=
  p.sameButMemory_plain.registers.symm

theorem plain_word (p : Patched) (address : Fin memorySize) :
    p.plain.word address = (p.breakpoints.saved? address).getD (p.machine.word address) := by
  simp [plain, Machine.word]

/-- A word is in the program's view, whether memory or the table holds it. -/
theorem plain_word? (p : Patched) (address : Fin memorySize) :
    p.plain.word? address = p.view? address := by
  rw [Machine.word?_eq, plain_word, view?, Machine.word?_eq]
  cases p.breakpoints.saved? address <;> rfl

/-- A machine that has the words of the view, and is the same in everything else, is the plain
machine. -/
theorem plain_eq {m : Machine} (h : p.machine.SameButMemory m)
    (hword : ∀ address : Fin memorySize,
      (p.breakpoints.saved? address).getD (p.machine.word address) = m.word address) :
    p.plain = m := by
  refine (p.sameButMemory_plain.symm.trans h).eq fun address => ?_
  rw [plain_word, hword]

/-! ## Setting and clearing -/

/-- Setting a breakpoint changes nothing, or marks a word that was free and saves it. -/
theorem set_ok_cases {address : Nat} {new : Bool} (h : p.set address = .ok (new, q)) :
    (new = false ∧ q = p) ∨
      ∃ hlt : address < memorySize, new = true ∧ p.breakpoints.isSet address = false ∧
        p.machine.word ⟨address, hlt⟩ ≠ breakpointWord ∧
        q = { machine := p.machine.setWord ⟨address, hlt⟩ breakpointWord
              breakpoints := p.breakpoints.save address (p.machine.word ⟨address, hlt⟩) } := by
  unfold set at h
  split at h
  · rename_i hlt
    simp only at h
    split at h
    · cases h
      exact .inl ⟨rfl, rfl⟩
    · rename_i hfree
      cases h
      simp only [Bool.or_eq_true, not_or, Bool.not_eq_true, beq_eq_false_iff_ne] at hfree
      exact .inr ⟨hlt, rfl, hfree.1, hfree.2, rfl⟩
  · cases h

theorem set_of_free {address : Nat} (hlt : address < memorySize)
    (hfree : p.breakpoints.isSet address = false)
    (hword : p.machine.word ⟨address, hlt⟩ ≠ breakpointWord) :
    p.set address = .ok (true,
      { machine := p.machine.setWord ⟨address, hlt⟩ breakpointWord
        breakpoints := p.breakpoints.save address (p.machine.word ⟨address, hlt⟩) }) := by
  simp [set, hlt, hfree, hword]

/-- Clearing a breakpoint changes nothing, or puts a saved word back and forgets it. -/
theorem clear_ok_cases {address : Nat} {found : Bool} (h : p.clear address = .ok (found, q)) :
    (found = false ∧ q = p) ∨
      ∃ (hlt : address < memorySize) (saved : Word), found = true ∧
        p.breakpoints.saved? address = some saved ∧
        q = { machine := p.machine.setWord ⟨address, hlt⟩ saved
              breakpoints := p.breakpoints.forget address } := by
  unfold clear at h
  split at h
  · rename_i hlt
    simp only at h
    split at h
    · split at h
      · cases h
        exact .inl ⟨rfl, rfl⟩
      · rename_i saved hsaved
        cases h
        exact .inr ⟨hlt, saved, rfl, hsaved, rfl⟩
    · cases h
      exact .inl ⟨rfl, rfl⟩
  · cases h

/-- **Setting a breakpoint does not change the view.** -/
theorem plain_of_set {address : Nat} {new : Bool} (h : p.set address = .ok (new, q)) :
    q.plain = p.plain := by
  rcases set_ok_cases h with ⟨-, rfl⟩ | ⟨hlt, -, hfree, -, rfl⟩
  · rfl
  · have hnone := (Breakpoints.isSet_eq_false_iff _ _).mp hfree
    refine plain_eq ((Machine.SameButMemory.setWord _ _ _).symm.trans p.sameButMemory_plain)
      fun other => ?_
    rw [plain_word]
    by_cases ho : other = ⟨address, hlt⟩
    · subst ho
      simp [hnone]
    · have hne : other.val ≠ address := fun he => ho (Fin.ext he)
      rw [Breakpoints.saved?_save_of_ne _ _ hne, Machine.word_setWord_of_ne _ _ ho]

/-- **Clearing a breakpoint does not change the view.** -/
theorem plain_of_clear {address : Nat} {found : Bool} (h : p.clear address = .ok (found, q)) :
    q.plain = p.plain := by
  rcases clear_ok_cases h with ⟨-, rfl⟩ | ⟨hlt, saved, -, hsaved, rfl⟩
  · rfl
  · refine plain_eq ((Machine.SameButMemory.setWord _ _ _).symm.trans p.sameButMemory_plain)
      fun other => ?_
    rw [plain_word]
    by_cases ho : other = ⟨address, hlt⟩
    · subst ho
      simp [hsaved]
    · have hne : other.val ≠ address := fun he => ho (Fin.ext he)
      rw [Breakpoints.saved?_forget_of_ne _ _ _ hne, Machine.word_setWord_of_ne _ _ ho]

/-! ## Executing -/

section Execute
variable {i : Instruction} {e : Effect} {address : Fin memorySize} {w : Word}

theorem touched?_eq_some_iff : p.touched? i = some (address, w) ↔
    p.machine.dataAddress? i = some address ∧ p.breakpoints.saved? address = some w := by
  unfold touched?
  cases p.machine.dataAddress? i with
  | none => simp
  | some found =>
    cases hs : p.breakpoints.saved? found with
    | none =>
      simp only [bind, Option.bind, hs, reduceCtorEq, Option.some.injEq, false_iff, not_and]
      rintro rfl
      simp [hs]
    | some saved =>
      simp only [bind, Option.bind, hs, pure, Option.some.injEq, Prod.mk.injEq]
      constructor
      · rintro ⟨rfl, rfl⟩
        exact ⟨rfl, hs⟩
      · rintro ⟨rfl, hw⟩
        exact ⟨rfl, Option.some.inj (hs.symm.trans hw)⟩

theorem saved?_eq_none_of_untouched (h : p.touched? i = none)
    (hd : p.machine.dataAddress? i = some address) : p.breakpoints.saved? address = none := by
  cases hs : p.breakpoints.saved? address with
  | none => rfl
  | some w =>
    rw [touched?_eq_some_iff.mpr ⟨hd, hs⟩] at h
    cases h

theorem effect_plain_of_untouched (h : p.touched? i = none) :
    p.plain.effect i = p.machine.effect i := by
  refine Machine.effect_congr p.plain_registers fun a ha => ?_
  rw [Machine.dataAddress?_congr p.plain_registers] at ha
  simp [plain_word, saved?_eq_none_of_untouched h ha]

/-- The word that is put back is the only one that matters to the instruction. -/
theorem effect_plain_of_touched (h : p.touched? i = some (address, w)) :
    p.plain.effect i = (p.machine.setWord address w).effect i := by
  obtain ⟨hd, hs⟩ := touched?_eq_some_iff.mp h
  refine Machine.effect_congr p.plain_registers fun a ha => ?_
  rw [Machine.dataAddress?_congr p.plain_registers, hd] at ha
  cases ha
  simp [plain_word, hs]

/-- A change that stores nothing over a saved word changes the view in the same way. -/
theorem plain_apply (h : ∀ a v, e = .store a v → p.breakpoints.saved? a = none) :
    { p with machine := p.machine.apply e }.plain = p.plain.apply e := by
  refine plain_eq (p.sameButMemory_plain.apply e) fun other => ?_
  by_cases hstore : ∃ v, e = .store other v
  · obtain ⟨v, rfl⟩ := hstore
    simp [Machine.apply, h other v rfl]
  · rw [Machine.word_apply_of_forall_ne _ _ (not_exists.mp hstore),
      Machine.word_apply_of_forall_ne _ _ (not_exists.mp hstore), plain_word]

/-- A change made while the saved word is back, which stores nothing elsewhere, changes the view in
the same way. -/
theorem plain_repatch_apply (hs : p.breakpoints.saved? address = some w)
    (h : ∀ a v, e = .store a v → a = address) :
    (p.repatch address ((p.machine.setWord address w).apply e)).plain = p.plain.apply e := by
  have hsame : ((p.machine.setWord address w).apply e).SameButMemory (p.plain.apply e) :=
    ((Machine.SameButMemory.setWord _ _ _).symm.trans p.sameButMemory_plain).apply e
  refine plain_eq ((Machine.SameButMemory.setWord _ _ _).symm.trans hsame) fun other => ?_
  simp only [repatch]
  -- at the address the table decides, elsewhere memory does
  by_cases ho : other = address
  · subst ho
    rw [Breakpoints.saved?_save_self, Option.getD_some]
    by_cases hstore : ∃ v, e = .store other v
    · obtain ⟨v, rfl⟩ := hstore
      simp [Machine.apply]
    · rw [Machine.word_apply_of_forall_ne _ _ (not_exists.mp hstore),
        Machine.word_apply_of_forall_ne _ _ (not_exists.mp hstore), plain_word, hs]
      simp
  · have hne : other.val ≠ address.val := fun he => ho (Fin.ext he)
    have hstore : ∀ v, e ≠ .store other v := fun v he => ho (h other v he)
    rw [Breakpoints.saved?_save_of_ne _ _ hne, Machine.word_setWord_of_ne _ _ ho,
      Machine.word_apply_of_forall_ne _ _ hstore, Machine.word_apply_of_forall_ne _ _ hstore,
      Machine.word_setWord_of_ne _ _ ho, plain_word]

/-- What is left of a patched machine when its instruction has made a change: the change was made
in place, or while the word it touched was back. -/
def Changed (p : Patched) (i : Instruction) (e : Effect) (q : Patched) : Prop :=
  (p.touched? i = none ∧ q = { p with machine := p.machine.apply e }) ∨
    ∃ address w, p.touched? i = some (address, w) ∧
      q = p.repatch address ((p.machine.setWord address w).apply e)

/-- **Executing an instruction that the plain machine can execute.** -/
theorem execute_of_effect (he : p.plain.effect i = .ok e) :
    ∃ q, p.execute i = .ok q ∧ p.Changed i e q := by
  cases ht : p.touched? i with
  | none =>
    rw [effect_plain_of_untouched ht] at he
    refine ⟨_, ?_, .inl ⟨ht, rfl⟩⟩
    simp only [execute, ht, Machine.execute_of_effect he]
  | some found =>
    obtain ⟨address, w⟩ := found
    rw [effect_plain_of_touched ht] at he
    refine ⟨_, ?_, .inr ⟨address, w, ht, rfl⟩⟩
    simp only [execute, ht, Machine.execute_of_effect he]

/-- **Executing an instruction that the plain machine cannot execute**: nothing changes, but the
word it would have touched has been out and back. -/
theorem execute_of_fault {fault : Fault} (he : p.plain.effect i = .error fault) :
    ∃ q, p.execute i = .error ⟨⟨p.machine.ip - 1, fault⟩, q⟩ ∧ p.Changed i .idle q := by
  cases ht : p.touched? i with
  | none =>
    rw [effect_plain_of_untouched ht] at he
    refine ⟨_, ?_, .inl ⟨ht, rfl⟩⟩
    simp only [execute, ht, Machine.execute_of_fault he]
    rfl
  | some found =>
    obtain ⟨address, w⟩ := found
    rw [effect_plain_of_touched ht] at he
    refine ⟨_, ?_, .inr ⟨address, w, ht, rfl⟩⟩
    simp only [execute, ht, Machine.execute_of_fault he]
    rfl

/-- A store goes to the data address, whatever machine it is looked up on. -/
theorem dataAddress?_of_store_plain {v : Word} (he : p.plain.effect i = .ok (.store address v)) :
    p.machine.dataAddress? i = some address := by
  rw [← Machine.dataAddress?_congr p.plain_registers]
  exact Machine.dataAddress?_of_store he

/-- The view changes as the plain machine does. -/
theorem Changed.plain_eq_apply (h : p.Changed i e q)
    (hstore : ∀ a v, e = .store a v → p.machine.dataAddress? i = some a) :
    q.plain = p.plain.apply e := by
  rcases h with ⟨ht, rfl⟩ | ⟨address, w, ht, rfl⟩
  · exact plain_apply fun a v he => saved?_eq_none_of_untouched ht (hstore a v he)
  · obtain ⟨hd, hs⟩ := touched?_eq_some_iff.mp ht
    refine plain_repatch_apply hs fun a v he => ?_
    exact Option.some.inj ((hstore a v he).symm.trans hd)

/-- **Executing an instruction never adds, removes or moves a breakpoint.** -/
theorem Changed.addresses_eq (h : p.Changed i e q) :
    q.breakpoints.addresses = p.breakpoints.addresses := by
  rcases h with ⟨-, rfl⟩ | ⟨address, w, ht, rfl⟩
  · rfl
  · obtain ⟨-, hs⟩ := touched?_eq_some_iff.mp ht
    exact Breakpoints.addresses_save_of_isSet _ _ _ (by simp [Breakpoints.isSet, hs])

/-- **A patched machine executes as the plain one does**, and the breakpoints stay where they are.
-/
theorem execute_ok_cases (h : p.execute i = .ok q) :
    ∃ e, p.plain.effect i = .ok e ∧ p.Changed i e q := by
  cases he : p.plain.effect i with
  | error fault =>
    obtain ⟨_, hx, -⟩ := execute_of_fault he
    rw [hx] at h
    cases h
  | ok e =>
    obtain ⟨_, hx, hq⟩ := execute_of_effect he
    rw [hx] at h
    cases h
    exact ⟨e, rfl, hq⟩

theorem execute_error_cases {c : Crash Patched} (h : p.execute i = .error c) :
    ∃ fault, p.plain.effect i = .error fault ∧ c.trap = ⟨p.machine.ip - 1, fault⟩ ∧
      p.Changed i .idle c.state := by
  cases he : p.plain.effect i with
  | error fault =>
    obtain ⟨_, hx, hq⟩ := execute_of_fault he
    rw [hx] at h
    cases h
    exact ⟨fault, rfl, rfl, hq⟩
  | ok e =>
    obtain ⟨_, hx, -⟩ := execute_of_effect he
    rw [hx] at h
    cases h

end Execute

end Patched
end RegisterMachine
