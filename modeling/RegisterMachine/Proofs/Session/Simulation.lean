import RegisterMachine.Proofs.Session.Log

/-! # A cycle of a session is a step of the plain machine

A session arrives at an instruction, pauses, and executes it; the plain machine just takes a step.
The instruction that the session finds is the one that belongs there (`arrival_cases`), the pause is
not noticed (`unnoticed_ready`), and executing is what the plain machine does (`execute_ok_cases`,
`execute_error_cases`).  So a cycle is as many plain steps as it has executed instructions, and is
stopped where the plain machine is. -/

namespace RegisterMachine

/-! ## Arriving -/

namespace Patched
variable {p : Patched}

/-- **What a patched machine can find at the instruction pointer.** -/
inductive ArrivalCase (p : Patched) : Prop
  /-- Memory has ended. -/
  | outOfRange {trap : Trap} (hpeek : p.plain.peek = .error trap) (h : p.arrival = .error trap)
  /-- The program has a breakpoint of its own there. -/
  | unexpected {i : Instruction} (hpeek : p.plain.peek = .ok i)
      (hi : i.opcode? = some .breakpoint) (hset : p.machine.ip ∉ p.breakpoints.addresses)
      (h : p.arrival = .error ⟨p.machine.ip, .unexpectedBreakpoint⟩)
  /-- There is an instruction of the program.  It is paused at when stepping, and at breakpoints. -/
  | found {i : Instruction} (hpeek : p.plain.peek = .ok i)
      (h : p.arrival =
        .ok ⟨i, p.machine.mode == .stepping || p.breakpoints.isSet p.machine.ip⟩)

theorem arrival_cases (hc : p.Consistent) : p.ArrivalCase := by
  have hip : p.plain.ip = p.machine.ip := p.sameButMemory_plain.ip.symm
  by_cases hlt : p.machine.ip < memorySize
  · have hplain : p.plain.peek = .ok (Instruction.decode
        ((p.breakpoints.saved? p.machine.ip).getD (p.machine.word ⟨p.machine.ip, hlt⟩))) := by
      have hlt' : p.plain.ip < memorySize := by
        rw [hip]
        exact hlt
      rw [Machine.peek_of_lt hlt', plain_word]
      simp only [hip]
    cases hs : p.breakpoints.saved? p.machine.ip with
    | none =>
      rw [hs, Option.getD_none] at hplain
      have hset : p.breakpoints.isSet p.machine.ip = false := by simp [Breakpoints.isSet, hs]
      by_cases hi : (Instruction.decode (p.machine.word ⟨p.machine.ip, hlt⟩)).opcode? =
          some .breakpoint
      · refine .unexpected hplain hi ?_ ?_
        · rw [Breakpoints.mem_addresses_iff]
          simp [hset]
        · simp [arrival, Machine.peek_of_lt hlt, hi, hs]
      · exact .found hplain (by simp [arrival, Machine.peek_of_lt hlt, hi, hset])
    | some saved =>
      rw [hs, Option.getD_some] at hplain
      have hset : p.breakpoints.isSet p.machine.ip = true := by simp [Breakpoints.isSet, hs]
      -- memory has the breakpoint word there, since it agrees with the table
      have hi : (Instruction.decode (p.machine.word ⟨p.machine.ip, hlt⟩)).opcode? =
          some .breakpoint := by
        rw [hc.word_eq ⟨p.machine.ip, hlt⟩ hs]
        decide
      exact .found hplain (by simp [arrival, Machine.peek_of_lt hlt, hi, hs, hset])
  · have hle := Nat.le_of_not_lt hlt
    have hplain : p.plain.peek = .error ⟨p.machine.ip, .pointerOutOfRange p.machine.ip⟩ := by
      rw [← hip] at hle ⊢
      exact Machine.peek_of_le hle
    exact .outOfRange hplain (by simp only [arrival, Machine.peek_of_le hle])

/-- Where a patched machine arrives, it finds the instruction that belongs there. -/
theorem of_arrival {a : Arrival} (hc : p.Consistent) (h : p.arrival = .ok a) :
    p.plain.peek = .ok a.instruction ∧
      a.pauses = (p.machine.mode == .stepping || p.breakpoints.isSet p.machine.ip) := by
  cases arrival_cases hc with
  | outOfRange _ h' | unexpected _ _ _ h' =>
    rw [h] at h'
    cases h'
  | found hpeek h' =>
    rw [h] at h'
    cases h'
    exact ⟨hpeek, rfl⟩

/-- Moves past the next instruction. -/
def advance (p : Patched) : Patched :=
  { p with machine := p.machine.advance }

/-- A patched machine that moves on is a plain machine that moves on. -/
theorem plain_advance (p : Patched) : p.advance.plain = p.plain.advance :=
  plain_eq p.sameButMemory_plain.advance fun other => (p.plain_word other).symm

end Patched

namespace Session
variable {s : Session} {i : Instruction}

/-! ## Pausing -/

/-- Whether there is a pause or not, the program does not notice. -/
theorem unnoticed_ready (s : Session) (a : Arrival) :
    s.toPatched.Unnoticed (s.ready a).toPatched := by
  unfold ready
  split
  · exact (Patched.Unnoticed.setMode _ _).trans (Patched.Unnoticed.converse _ _ _)
  · exact .refl _

/-- No question of a pause is noticed by the program. -/
theorem unnoticed_question {q : Session} (h : q ∈ s.questions) :
    s.toPatched.Unnoticed q.toPatched :=
  (Patched.Unnoticed.setMode _ _).trans (Patched.Unnoticed.questions h)

/-! ## Executing -/

theorem execute_of_ok {q : Patched} (h : s.toPatched.advance.execute i = .ok q) :
    s.execute i = .ok { s with toPatched := q } := by
  simp only [Patched.advance] at h
  simp only [execute, h]

theorem execute_of_error {c : Crash Patched} (h : s.toPatched.advance.execute i = .error c) :
    s.execute i = .error ⟨c.trap, { s with toPatched := c.state }⟩ := by
  simp only [Patched.advance] at h
  simp only [execute, h]

/-- What an executed instruction leaves of a session: a machine as the program sees it, and the
breakpoints where they were. -/
structure Leaves (s t : Session) (n : Machine) : Prop where
  plain : t.plain = n
  addresses : t.breakpoints.addresses = s.breakpoints.addresses
  unread : t.unread = s.unread
  consistent : s.Consistent → t.Consistent

/-- A change of the machine that has moved on, seen from the session that has not. -/
theorem leaves_of_changed {e : Effect} {q : Patched}
    (hq : s.toPatched.advance.Changed i e q)
    (hstore : ∀ a v, e = .store a v → s.machine.dataAddress? i = some a) :
    s.Leaves { s with toPatched := q } (s.plain.advance.apply e) := by
  refine ⟨?_, hq.addresses_eq, rfl, fun hc => ?_⟩
  · rw [← s.toPatched.plain_advance]
    exact hq.plain_eq_apply hstore
  · have hadvanced : s.toPatched.advance.Consistent := Patched.Consistent.congr hc rfl rfl
    exact hadvanced.changed hq hstore

/-- An instruction that is executed changes the view as it changes the plain machine. -/
theorem execute_ok_cases {t : Session} (h : s.execute i = .ok t) :
    ∃ e, s.plain.effect i = .ok e ∧ s.Leaves t (s.plain.advance.apply e) := by
  cases hx : s.toPatched.advance.execute i with
  | error c =>
    rw [execute_of_error hx] at h
    cases h
  | ok q =>
    rw [execute_of_ok hx] at h
    cases h
    obtain ⟨e, he, hq⟩ := Patched.execute_ok_cases hx
    rw [s.toPatched.plain_advance, Machine.effect_advance] at he
    refine ⟨e, he, leaves_of_changed hq ?_⟩
    rintro a v rfl
    exact Patched.dataAddress?_of_store_plain he

/-- An instruction that is stopped leaves the view as it was. -/
theorem execute_error_cases {c : Crash Session} (h : s.execute i = .error c) :
    ∃ fault, s.plain.effect i = .error fault ∧ c.trap = ⟨s.machine.ip, fault⟩ ∧
      s.Leaves c.state s.plain.advance := by
  cases hx : s.toPatched.advance.execute i with
  | ok q =>
    rw [execute_of_ok hx] at h
    cases h
  | error c' =>
    rw [execute_of_error hx] at h
    cases h
    obtain ⟨fault, he, htrap, hq⟩ := Patched.execute_error_cases hx
    rw [s.toPatched.plain_advance, Machine.effect_advance] at he
    have hleaves := leaves_of_changed hq (by simp)
    rw [Machine.apply_idle] at hleaves
    exact ⟨fault, he, htrap, hleaves⟩

/-! ## A cycle -/

theorem executions_asks (s : Session) (a : Arrival) : Event.executions (s.asks a) = 0 := by
  unfold asks
  split
  · simp [Event.executions, List.countP_eq_zero, Event.isExecution]
  · rfl

/-- The instruction that is executed is the one that belongs there. -/
theorem peek_ready {a : Arrival} (hc : s.Consistent) (h : s.arrival = .ok a) :
    (s.ready a).plain.peek = .ok a.instruction := by
  rw [(s.unnoticed_ready a).alike.peek]
  exact (Patched.of_arrival hc h).1

/-- **A session is stopped as the plain machine is**, by the same trap and in the same state.  The
one exception is a breakpoint that nobody has set: the plain machine has moved past it, the session
has not. -/
def StoppedLike (c : Crash Session) (m : Machine) : Prop :=
  ∃ crash, m.step = .error crash ∧ crash.trap = c.trap ∧
    (c.state.plain.Alike crash.state ∨
      c.trap.fault = .unexpectedBreakpoint ∧
        c.trap.address ∉ c.state.breakpoints.addresses ∧
        c.state.machine.ip = c.trap.address ∧ c.state.plain.advance.Alike crash.state)

variable {m : Machine} {t : Session}

/-- **A cycle that goes on is as many plain steps as it has executions**: one, or none if it was
told to quit. -/
theorem cycle_ok_simulates (hc : s.Consistent) (ha : s.plain.Alike m) (h : s.cycle = .ok t) :
    t.Consistent ∧ ∃ n, m.after (Event.executions s.cycleEvents) = .ok n ∧ t.plain.Alike n := by
  obtain ⟨a, harrival, hcase⟩ := cycle_ok_cases h
  have hready := s.unnoticed_ready a
  rcases hcase with ⟨-, hevents, rfl⟩ | ⟨-, hexecute, hevents⟩
  · rw [hevents, executions_asks]
    exact ⟨hready.consistent hc, m, rfl, hready.alike.trans ha⟩
  · rw [hevents, Event.executions_append, executions_asks]
    obtain ⟨e, he, hleaves⟩ := execute_ok_cases hexecute
    have hstep := Machine.step_of_effect (peek_ready hc harrival) he
    obtain ⟨n, hn, halike⟩ := (hready.alike.trans ha).step_ok hstep
    refine ⟨hleaves.consistent (hready.consistent hc), n, Machine.after_one_iff.mpr hn, ?_⟩
    rw [hleaves.plain]
    exact halike

/-- **A cycle is stopped where the plain machine is.** -/
theorem cycle_error_simulates {c : Crash Session} (hc : s.Consistent) (ha : s.plain.Alike m)
    (h : s.cycle = .error c) :
    c.state.Consistent ∧ Event.executions s.cycleEvents = 0 ∧ StoppedLike c m := by
  rcases cycle_error_cases h with ⟨harrival, hevents, hstate⟩ | ⟨a, harrival, -, hexecute, hevents⟩
  · rw [hevents, hstate]
    refine ⟨hc, rfl, ?_⟩
    cases Patched.arrival_cases hc with
    | found _ h' =>
      rw [harrival] at h'
      cases h'
    | outOfRange hpeek h' =>
      obtain ⟨crash, hcrash, htrap, halike⟩ := ha.step_error (Machine.step_of_peek_error hpeek)
      rw [harrival] at h'
      cases h'
      refine ⟨crash, hcrash, htrap, .inl ?_⟩
      rw [hstate]
      exact halike
    | @unexpected i hpeek hi hset h' =>
      -- the session has looked before moving on; the plain machine moves on and then fails
      have heffect : s.plain.effect i = .error .unexpectedBreakpoint := by
        simp only [Machine.effect, hi, Machine.perform]
      obtain ⟨crash, hcrash, htrap, halike⟩ := ha.step_error (Machine.step_of_fault hpeek heffect)
      rw [harrival] at h'
      have hwhere : c.trap = ⟨s.machine.ip, .unexpectedBreakpoint⟩ := Except.error.inj h'
      refine ⟨crash, hcrash, ?_, .inr ?_⟩
      · rw [htrap, hwhere, ← s.toPatched.sameButMemory_plain.ip]
      · rw [hwhere, hstate]
        exact ⟨rfl, hset, rfl, halike⟩
  · have hready := s.unnoticed_ready a
    obtain ⟨fault, he, htrap, hleaves⟩ := execute_error_cases hexecute
    have hstep := Machine.step_of_fault (peek_ready hc harrival) he
    obtain ⟨crash, hcrash, htrap', halike⟩ := (hready.alike.trans ha).step_error hstep
    rw [hevents, executions_asks]
    refine ⟨hleaves.consistent (hready.consistent hc), rfl, crash, hcrash, ?_, .inl ?_⟩
    · rw [htrap', htrap, (s.ready a).toPatched.sameButMemory_plain.ip]
    · rw [hleaves.plain]
      exact halike

theorem isFinished_plain (s : Session) : s.plain.isFinished = s.isFinished := by
  rw [Session.isFinished, Machine.isFinished, Machine.isFinished,
    s.toPatched.sameButMemory_plain.mode]

/-- Executing leaves a session done if the instruction halts. -/
theorem isFinished_execute (hp : s.plain.peek = .ok i) (hs : s.isFinished = false)
    (hx : s.execute i = .ok t) : t.isFinished = s.plain.haltsNext := by
  obtain ⟨e, he, hleaves⟩ := execute_ok_cases hx
  have hstep := Machine.step_of_effect hp he
  rw [← isFinished_plain, hleaves.plain, Machine.isFinished_step hstep, isFinished_plain, hs,
    Bool.or_false]

/-- An instruction that does not halt leaves the mode. -/
theorem mode_execute (hp : s.plain.peek = .ok i) (hhalts : s.plain.haltsNext = false)
    (hx : s.execute i = .ok t) : t.machine.mode = s.machine.mode := by
  obtain ⟨e, he, hleaves⟩ := execute_ok_cases hx
  have hne : e ≠ .finish := by
    rintro rfl
    rw [(Machine.haltsNext_iff hp).mpr (Machine.effect_eq_finish_iff.mp he)] at hhalts
    cases hhalts
  rw [t.toPatched.sameButMemory_plain.mode, hleaves.plain,
    Machine.mode_apply_of_ne_finish _ _ hne, Machine.mode_advance,
    ← s.toPatched.sameButMemory_plain.mode]

/-- **A cycle that leaves the session done** has executed the halting instruction, or was told to
quit at its last question. -/
theorem cycle_ok_finished (hc : s.Consistent) (hs : s.isFinished = false) (h : s.cycle = .ok t)
    (ht : t.isFinished = true) :
    (Event.executions s.cycleEvents = 1 ∧ s.plain.haltsNext = true) ∨
      ∃ q, s.cycleEvents.getLast? = some (.asked t.machine.ip q) ∧ q.quitsNext = true := by
  obtain ⟨a, harrival, ⟨hready, hevents, rfl⟩ | ⟨hready, hexecute, hevents⟩⟩ := cycle_ok_cases h
  · -- a session that does not pause is not told to quit
    have hpauses : a.pauses = true := by
      refine Decidable.byContradiction fun hpauses => ?_
      rw [ready, if_neg hpauses, hs] at hready
      cases hready
    have hpause : s.ready a = s.pause := by rw [ready, if_pos hpauses]
    have hip : (s.ready a).machine.ip = s.machine.ip := by
      have hplain := (s.unnoticed_ready a).alike.ip
      rwa [← Patched.sameButMemory_plain _ |>.ip, ← Patched.sameButMemory_plain _ |>.ip] at hplain
    have hmode : s.pause.machine.mode = .finished := by
      rw [hpause] at hready
      exact eq_of_beq hready
    obtain ⟨q, hq, hquits⟩ := Patched.quitsNext_of_converse
      (p := s.toPatched.setMode .stepping) (by simp [Patched.setMode, Machine.setMode]) hmode
    refine .inr ⟨q, ?_, hquits⟩
    rw [hevents, asks, hpauses, if_pos rfl, questions, List.getLast?_map, hq, hip]
    rfl
  · have hhalts := isFinished_execute (peek_ready hc harrival) hready hexecute
    rw [ht, (s.unnoticed_ready a).alike.haltsNext] at hhalts
    refine .inl ⟨?_, hhalts.symm⟩
    rw [hevents, Event.executions_append, executions_asks]
    rfl

/-! ## Cycle after cycle -/

/-- **A number of cycles is a number of plain steps.** -/
theorem Cycled.simulates {count : Nat} {front : List Event} {x : Session}
    (h : s.Cycled count front x) (hc : s.Consistent) (ha : s.plain.Alike m) :
    x.Consistent ∧ ∃ n, m.after (Event.executions front) = .ok n ∧ x.plain.Alike n := by
  induction h with
  | refl => exact ⟨hc, m, rfl, ha⟩
  | snoc _ _ hcycle ih =>
    obtain ⟨hx, n, hn, halike⟩ := ih
    obtain ⟨hy, n', hn', halike'⟩ := cycle_ok_simulates hx halike hcycle
    refine ⟨hy, n', ?_, halike'⟩
    rw [Event.executions_append, Machine.after_add hn, hn']

/-- However a run ends, memory and table agree. -/
theorem consistent_proceed (hc : s.Consistent) (fuel : Nat) :
    (s.proceed fuel).state.Consistent := by
  cases s.run_cases fuel with
  | completed h _ _ hp | outOfFuel h _ _ hp =>
    rw [hp]
    exact (h.simulates hc (.refl _)).1
  | crashed h _ hcrash _ hp =>
    rw [hp]
    obtain ⟨hx, n, -, halike⟩ := h.simulates hc (.refl _)
    exact (cycle_error_simulates hx halike hcrash).1

theorem consistent_begun (hc : s.Consistent) : s.begun.Consistent :=
  (Patched.Unnoticed.setMode s.toPatched .stepping).consistent hc

/-- **Memory and table agree in every session that can be reached.** -/
theorem Reachable.consistent {history : List Event} (h : Reachable m history s) :
    s.Consistent := by
  induction h with
  | start script => exact Patched.consistent_ofMachine m
  | set _ hset ih => exact ih.set hset
  | clear _ hclear ih => exact ih.clear hclear
  | run _ _ ih => exact consistent_proceed (consistent_begun ih) _

end Session
end RegisterMachine
