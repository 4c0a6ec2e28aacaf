import RegisterMachine.Proofs.Breakpoint.View

/-! # Memory and table agree

A patched machine is `Consistent` when its table lists different addresses of memory, and memory
holds the breakpoint word at each of them.  Setting, clearing and executing keep it so, also when an
instruction fails; nothing else touches memory or the table.

The converse, that the breakpoint word stands only where the table says so, is not kept: a program
may store it.  It holds as long as the program's own words are different from it
(`Unmarked`, `Unmarked.mem_addresses`). -/

namespace RegisterMachine
namespace Patched

/-- **The table and memory agree.** -/
structure Consistent (p : Patched) : Prop where
  distinct : p.breakpoints.addresses.Nodup
  inRange : ∀ a ∈ p.breakpoints.addresses, a < memorySize
  marked : ∀ a ∈ p.breakpoints.addresses, p.machine.word? a = some breakpointWord

/-- No word of the program is the breakpoint word. -/
def Unmarked (p : Patched) : Prop :=
  ∀ address, p.plain.word address ≠ breakpointWord

variable {p q : Patched}

theorem consistent_ofMachine (m : Machine) : (ofMachine m).Consistent := by
  constructor <;> simp [ofMachine, Breakpoints.addresses]

namespace Consistent

/-- Whatever leaves memory and table alone keeps them in agreement. -/
theorem congr (h : p.Consistent) (hm : q.machine.memory = p.machine.memory)
    (hb : q.breakpoints = p.breakpoints) : q.Consistent := by
  refine ⟨hb ▸ h.distinct, hb ▸ h.inRange, fun a ha => ?_⟩
  rw [Machine.word?, hm]
  exact h.marked a (hb ▸ ha)

theorem word_eq (h : p.Consistent) (address : Fin memorySize) {w : Word}
    (hs : p.breakpoints.saved? address = some w) : p.machine.word address = breakpointWord := by
  have hmem : address.val ∈ p.breakpoints.addresses :=
    (Breakpoints.mem_addresses_iff _ _).mpr (by simp [Breakpoints.isSet, hs])
  have hw := h.marked address.val hmem
  rw [Machine.word?_eq] at hw
  exact Option.some.inj hw

theorem set (h : p.Consistent) {address : Nat} {new : Bool} (hs : p.set address = .ok (new, q)) :
    q.Consistent := by
  rcases set_ok_cases hs with ⟨-, rfl⟩ | ⟨hlt, -, hfree, -, rfl⟩
  · exact h
  · have hnew : address ∉ p.breakpoints.addresses := by
      rw [Breakpoints.mem_addresses_iff]
      simp [hfree]
    have haddresses := Breakpoints.addresses_save_of_not_isSet p.breakpoints address
      (p.machine.word ⟨address, hlt⟩) hfree
    refine ⟨?_, ?_, ?_⟩
    · rw [haddresses, List.nodup_append]
      refine ⟨h.distinct, by simp, ?_⟩
      intro a ha b hb hab
      rw [List.mem_singleton] at hb
      exact hnew (hb ▸ hab ▸ ha)
    · intro a ha
      rw [haddresses, List.mem_append, List.mem_singleton] at ha
      rcases ha with ha | rfl
      · exact h.inRange a ha
      · exact hlt
    · intro a ha
      rw [haddresses, List.mem_append, List.mem_singleton] at ha
      rcases ha with ha | rfl
      · have hne : address ≠ a := fun he => hnew (he ▸ ha)
        simpa [Machine.word?, Machine.setWord, Vector.getElem?_set_ne, hne] using h.marked a ha
      · rw [(p.machine.setWord ⟨a, hlt⟩ breakpointWord).word?_eq ⟨a, hlt⟩]
        simp

theorem clear (h : p.Consistent) {address : Nat} {found : Bool}
    (hs : p.clear address = .ok (found, q)) : q.Consistent := by
  rcases clear_ok_cases hs with ⟨-, rfl⟩ | ⟨hlt, saved, -, -, rfl⟩
  · exact h
  · have haddresses := Breakpoints.addresses_forget p.breakpoints address
    refine ⟨?_, ?_, ?_⟩
    · rw [haddresses]
      exact h.distinct.filter _
    · intro a ha
      rw [haddresses, List.mem_filter] at ha
      exact h.inRange a ha.1
    · intro a ha
      rw [haddresses, List.mem_filter] at ha
      have hne : address ≠ a := by
        rintro rfl
        simp at ha
      simpa [Machine.word?, Machine.setWord, Vector.getElem?_set_ne, hne] using h.marked a ha.1

/-- **Executing keeps memory and table in agreement**, whether the instruction succeeds or not. -/
theorem changed (h : p.Consistent) {i : Instruction} {e : Effect} (hc : p.Changed i e q)
    (hstore : ∀ a v, e = .store a v → p.machine.dataAddress? i = some a) : q.Consistent := by
  have haddresses := hc.addresses_eq
  refine ⟨haddresses ▸ h.distinct, haddresses ▸ h.inRange, fun a ha => ?_⟩
  rw [haddresses] at ha
  have hlt := h.inRange a ha
  have hold : p.machine.word ⟨a, hlt⟩ = breakpointWord :=
    Option.some.inj ((p.machine.word?_eq ⟨a, hlt⟩).symm.trans (h.marked a ha))
  rw [q.machine.word?_eq ⟨a, hlt⟩]
  refine congrArg some ?_
  rcases hc with ⟨ht, rfl⟩ | ⟨address, w, ht, rfl⟩
  · -- a store in place goes where no breakpoint is
    have hne : ∀ v, e ≠ .store ⟨a, hlt⟩ v := by
      intro v he
      have hnone := saved?_eq_none_of_untouched ht (hstore _ v he)
      rw [Breakpoints.mem_addresses_iff] at ha
      simp [Breakpoints.isSet, hnone] at ha
    rw [Machine.word_apply_of_forall_ne _ _ hne, hold]
  · by_cases hat : (⟨a, hlt⟩ : Fin memorySize) = address
    · subst hat
      simp [repatch]
    · obtain ⟨hd, -⟩ := touched?_eq_some_iff.mp ht
      have hne : ∀ v, e ≠ .store ⟨a, hlt⟩ v := by
        intro v he
        exact hat (Option.some.inj ((hstore _ v he).symm.trans hd))
      simp only [repatch]
      rw [Machine.word_setWord_of_ne _ _ hat, Machine.word_apply_of_forall_ne _ _ hne,
        Machine.word_setWord_of_ne _ _ hat, hold]

end Consistent

theorem Unmarked.of_alike (hu : p.Unmarked) (h : q.plain.Alike p.plain) : q.Unmarked := by
  intro address
  rw [h.word]
  exact hu address

/-- Where the program has other words, the breakpoint word stands for a breakpoint. -/
theorem Unmarked.mem_addresses (hu : p.Unmarked) {address : Nat}
    (hw : p.machine.word? address = some breakpointWord) : address ∈ p.breakpoints.addresses := by
  have hlt : address < memorySize := by
    refine Nat.lt_of_not_le fun hle => ?_
    rw [Machine.word?_eq_none_iff.mpr hle] at hw
    cases hw
  rw [Breakpoints.mem_addresses_iff]
  cases hs : p.breakpoints.saved? address with
  | some w => simp [Breakpoints.isSet, hs]
  | none =>
    refine absurd ?_ (hu ⟨address, hlt⟩)
    rw [plain_word, hs, Option.getD_none]
    exact Option.some.inj ((p.machine.word?_eq ⟨address, hlt⟩).symm.trans hw)

end Patched
end RegisterMachine
