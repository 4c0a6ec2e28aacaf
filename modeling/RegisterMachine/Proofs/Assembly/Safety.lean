import RegisterMachine.Proofs.Assembly.WellFormed
import RegisterMachine.Proofs.Machine.Steps

/-! # Assembled programs do not go wrong in their own code

A run of an assembled program may still crash.  It may run out of its code, it may overwrite its
code, and it may take for an address what is none.  But as long as it executes words that the
assembler has put there, it never meets an instruction that is wrong in itself.

The argument is about the word at which a run crashes.  If no store went there, it is the word that
was loaded (`crash_cases`): a well-formed instruction inside the program, and zero after it. -/

namespace RegisterMachine

/-- Whether a fault lies in the instruction itself, whatever the registers hold. -/
def Fault.isOfCode : Fault → Bool
  | .invalidRegister _ | .unknownOpcode _ | .unexpectedBreakpoint => true
  | .pointerOutOfRange _ | .invalidAddress _ => false

namespace Machine
variable {m n : Machine} {fuel : Nat} {c : Crash Machine}

/-! ## Words that nothing is stored to -/

/-- Whether the next instruction is executed and stores to an address. -/
def storesAt (m : Machine) (address : Nat) : Bool :=
  m.storesNext?.any fun stored => stored.1.val == address

/-- The machines from which a run takes its steps, in order. -/
def visited (fuel : Nat) (m : Machine) : List Machine :=
  trail isFinished step fuel (m.setMode .running)

theorem word_step (h : m.step = .ok n) {address : Fin memorySize}
    (hs : m.storesAt address = false) : n.word address = m.word address := by
  obtain ⟨i, e, hp, he, rfl⟩ := step_ok_cases h
  refine word_apply_of_forall_ne _ _ ?_
  rintro w rfl
  have hstored : m.storesNext? = some (address, w) := by
    rw [storesNext?, hp]
    exact stored?_eq_some_iff.mpr he
  simp [storesAt, hstored] at hs

/-- **Where a run crashes**, every word to which nothing was stored is still there. -/
theorem crash_cases (h : iterate isFinished step fuel m = .crashed c) :
    ∃ last ∈ trail isFinished step fuel m, last.step = .error c ∧
      ∀ address : Fin memorySize,
        (∀ x ∈ trail isFinished step fuel m, x.storesAt address = false) →
        last.word address = m.word address := by
  induction fuel generalizing m with
  | zero =>
    unfold iterate at h
    split at h <;> cases h
  | succ fuel ih =>
    cases hd : m.isFinished with
    | true => simp [iterate, hd] at h
    | false =>
      cases hstep : m.step with
      | error crash =>
        simp only [iterate, hd, hstep, Bool.false_eq_true, if_false] at h
        cases h
        refine ⟨m, by simp [trail, hd], hstep, fun _ _ => rfl⟩
      | ok next =>
        simp only [iterate, hd, hstep, Bool.false_eq_true, if_false] at h
        obtain ⟨last, hlast, hcrash, hword⟩ := ih h
        have htrail : trail isFinished step (fuel + 1) m =
            m :: trail isFinished step fuel next := by
          simp [trail, hd, hstep]
        rw [htrail]
        refine ⟨last, List.mem_cons_of_mem _ hlast, hcrash, ?_⟩
        intro address hnone
        -- the word survives the rest of the run, and the first step before it
        rw [hword address fun x hx => hnone x (List.mem_cons_of_mem _ hx)]
        exact word_step hstep (hnone m List.mem_cons_self)

/-! ## Addresses that are none -/

theorem misses_of_execute {i : Instruction} {trap : Trap} {w : Word}
    (h : m.execute i = .error trap) (hw : trap.fault = .invalidAddress w) : m.Misses i w := by
  cases he : m.effect i with
  | ok e =>
    rw [execute_of_effect he] at h
    cases h
  | error fault =>
    rw [execute_of_fault he] at h
    cases h
    cases hw
    exact misses_of_effect he

/-! ## Loaded programs -/

theorem load_eq_ok (m : Machine) {p : Program} (h : p.length ≤ memorySize) :
    ∃ loaded, m.load p = .ok loaded ∧ loaded.memory = memoryOf p := by
  refine ⟨{ blank with memory := memoryOf p, transcript := m.transcript }, ?_, rfl⟩
  rw [load, if_neg (Nat.not_lt.mpr h)]

/-- **How a loaded program crashes**: past the end of memory, or at an instruction that fails.  If
nothing was stored there, it is the instruction of the program. -/
theorem crash_of_loaded {loaded : Machine} {p : Program} (hm : loaded.memory = memoryOf p)
    (h : loaded.run fuel = .crashed c) :
    (∃ ip, c.trap.fault = .pointerOutOfRange ip) ∨
      ∃ last ∈ loaded.visited fuel, ∃ i, last.ip = c.trap.address ∧ last.peek = .ok i ∧
        last.effect i = .error c.trap.fault ∧
        ((∀ x ∈ loaded.visited fuel, x.storesAt c.trap.address = false) →
          i = Instruction.decode (p[c.trap.address]?.getD 0)) := by
  obtain ⟨last, hlast, hstep, hword⟩ := crash_cases h
  by_cases hlt : last.ip < memorySize
  · have hpeek := peek_of_lt hlt
    rcases step_error_cases hstep with ⟨herror, -⟩ | ⟨i, fault, hi, he, rfl⟩
    · rw [hpeek] at herror
      cases herror
    · refine .inr ⟨last, hlast, i, rfl, hi, he, ?_⟩
      intro hnone
      have hstart : (loaded.setMode .running).memory = memoryOf p := hm
      rw [← Except.ok.inj (hpeek.symm.trans hi), hword ⟨last.ip, hlt⟩ hnone, word_of_memory hstart]
  · rw [step_of_peek_error (peek_of_le (Nat.not_lt.mp hlt))] at hstep
    cases hstep
    exact .inl ⟨_, rfl⟩

/-- Zero is no instruction. -/
theorem effect_decode_zero (m : Machine) :
    m.effect (Instruction.decode 0) = .error (.unknownOpcode 0) := rfl

end Machine

/-! ## Assembled programs -/

namespace Assembly
open Machine

/-- **An assembled program does not go wrong in its own code.**  It can be loaded if it fits, and in
whatever way a run of it crashes:

* a fault of the instruction itself lies outside of the program, or at an address to which the run
  has stored before;
* outside of the program, and if nothing was stored there, it is the unknown operation zero;
* an address is at fault only because the pointer register of a load, a store or a print holds one
  that memory does not have, and this is so of every instruction that any machine executes. -/
theorem ofSource_safe {source : List Text} {p : Program}
    (hp : (ofSource source).program = .ok p) (hfits : p.length ≤ memorySize) (m : Machine) :
    ∃ loaded, m.load p = .ok loaded ∧
      (∀ fuel c, loaded.run fuel = .crashed c → c.trap.fault.isOfCode = true →
        p.length ≤ c.trap.address ∨ ∃ x ∈ loaded.visited fuel, x.storesAt c.trap.address = true) ∧
      (∀ fuel c, loaded.run fuel = .crashed c → c.trap.fault.isOfCode = true →
        p.length ≤ c.trap.address → (∀ x ∈ loaded.visited fuel, x.storesAt c.trap.address = false) →
        c.trap.fault = .unknownOpcode 0) ∧
      (∀ fuel c w, loaded.run fuel = .crashed c → c.trap.fault = .invalidAddress w →
        ∃ x ∈ loaded.visited fuel, ∃ i, x.ip = c.trap.address ∧ x.peek = .ok i ∧ x.Misses i w) ∧
      ∀ (x : Machine) (i : Instruction) (trap : Trap) (w : Word), x.execute i = .error trap →
        trap.fault = .invalidAddress w → x.Misses i w := by
  obtain ⟨loaded, hload, hm⟩ := m.load_eq_ok hfits
  refine ⟨loaded, hload, ?_, ?_, ?_, fun _ _ _ _ => misses_of_execute⟩
  · intro fuel c hrun hcode
    rcases Nat.lt_or_ge c.trap.address p.length with hlt | hge
    · refine .inr (Decidable.byContradiction fun hnone => ?_)
      rcases crash_of_loaded hm hrun with ⟨ip, hip⟩ | ⟨last, -, i, -, -, he, hi⟩
      · rw [hip] at hcode
        cases hcode
      · -- the instruction is one of the program, and well formed
        have hinside : i = Instruction.decode p[c.trap.address] := by
          rw [hi, List.getElem?_eq_getElem hlt, Option.getD_some]
          intro x hx
          exact Bool.eq_false_iff.mpr fun hstores => hnone ⟨x, hx, hstores⟩
        have hwell : i.WellFormed := by
          rw [hinside]
          exact wellFormed_of_ofSource hp _ (List.getElem_mem hlt)
        obtain ⟨w, hw⟩ := hwell.fault_eq he
        rw [hw] at hcode
        cases hcode
    · exact .inl hge
  · intro fuel c hrun hcode hge hnone
    rcases crash_of_loaded hm hrun with ⟨ip, hip⟩ | ⟨last, -, i, -, -, he, hi⟩
    · rw [hip] at hcode
      cases hcode
    · rw [hi hnone, List.getElem?_eq_none hge, Option.getD_none, effect_decode_zero] at he
      exact (Except.error.inj he).symm
  · intro fuel c w hrun hw
    rcases crash_of_loaded hm hrun with ⟨ip, hip⟩ | ⟨last, hlast, i, haddress, hpeek, he, -⟩
    · rw [hip] at hw
      cases hw
    · rw [hw] at he
      exact ⟨last, hlast, i, haddress, hpeek, misses_of_effect he⟩

/-- A program overwrites its last instruction with a word that is none, and crashes there. -/
theorem ofSource_safe_overwritten :
    let source := ["ldc R0 255".toList, "ldc R1 3".toList, "str R0 R1".toList, "hlt".toList]
    let p : Program := [0xff0002, 0x030102, 0x010005, 0x000001]
    ∃ loaded c, (ofSource source).program = .ok p ∧ Machine.blank.load p = .ok loaded ∧
      loaded.run 8 = .crashed c ∧ c.trap = ⟨3, .unknownOpcode 255⟩ ∧
      ∃ x ∈ loaded.visited 8, x.storesAt 3 = true := by
  intro source p
  have hp : (ofSource source).program = .ok p := rfl
  have hload : Machine.blank.load p = .ok { Machine.blank with memory := memoryOf p } := rfl
  obtain ⟨loaded, hloaded, hcode, -⟩ := ofSource_safe hp (by decide) Machine.blank
  obtain rfl := Except.ok.inj (hload.symm.trans hloaded)
  obtain ⟨c, hrun, htrap⟩ := Ending.exists_crashed
    (e := Machine.run 8 { Machine.blank with memory := memoryOf p })
    (show _ = some ⟨3, .unknownOpcode 255⟩ by decide +kernel)
  rcases hcode 8 c hrun (by rw [htrap]; rfl) with hge | hstores
  · rw [htrap] at hge
    exact absurd hge (by decide)
  · rw [htrap] at hstores
    exact ⟨_, c, hp, hload, hrun, htrap, hstores⟩

end Assembly
end RegisterMachine
