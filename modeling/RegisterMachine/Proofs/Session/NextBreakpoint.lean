import RegisterMachine.Proofs.Machine.Lifetime
import RegisterMachine.Proofs.Session.Simulation

/-! # Running up to the next breakpoint

The command that lets a session run is taken at a pause.  From there the session executes the
instruction at which it has paused, whether or not a breakpoint is set there, and then one
instruction after the other until it arrives at a breakpoint.

`Machine.Proceeds` says the same of the plain machine: it takes a number of steps, none of which
halts, and stands at none of the given addresses in between.  The session pauses at the end of
exactly those stretches that end at a breakpoint (`Reachable.run_stops_next`); a stretch that ends
with a halt or a trap ends the run. -/

namespace RegisterMachine

namespace Session
variable {s t q : Session} {m n : Machine} {i : Instruction} {stops : List Nat} {script : Script}

/-! ## A session that runs -/

/-- **A session runs as a plain machine does**, with breakpoints at the given addresses and with the
given commands still unread. -/
structure RunsAs (s : Session) (stops : List Nat) (script : Script) (m : Machine) : Prop where
  mode : s.machine.mode = .running
  consistent : s.Consistent
  addresses : s.breakpoints.addresses = stops
  unread : s.unread = script
  alike : s.plain.Alike m

namespace RunsAs

theorem ip (h : s.RunsAs stops script m) : s.machine.ip = m.ip := by
  rw [s.toPatched.sameButMemory_plain.ip, h.alike.ip]

theorem isFinished (h : s.RunsAs stops script m) : s.isFinished = false :=
  isFinished_eq_false_iff.mpr (by simp [h.mode])

/-- An instruction that is executed is a step of the plain machine, and the session still runs
unless it has halted. -/
theorem execute_ok (h : s.RunsAs stops script m) (hp : s.plain.peek = .ok i)
    (hx : s.execute i = .ok t) :
    ∃ n, m.step = .ok n ∧ t.isFinished = m.haltsNext ∧ t.plain.Alike n ∧
      (m.haltsNext = false → t.RunsAs stops script n) := by
  obtain ⟨e, he, hleaves⟩ := execute_ok_cases hx
  obtain ⟨n, hn, halike⟩ := h.alike.step_ok (Machine.step_of_effect hp he)
  rw [← hleaves.plain] at halike
  refine ⟨n, hn, ?_, halike, fun hhalts => ⟨?_, ?_, ?_, ?_, halike⟩⟩
  · rw [isFinished_execute hp h.isFinished hx, h.alike.haltsNext]
  · rw [← h.alike.haltsNext] at hhalts
    rw [mode_execute hp hhalts hx, h.mode]
  · exact hleaves.consistent h.consistent
  · rw [hleaves.addresses, h.addresses]
  · rw [hleaves.unread, h.unread]

theorem execute_error {c : Crash Session} (h : s.RunsAs stops script m)
    (hp : s.plain.peek = .ok i) (hx : s.execute i = .error c) :
    ∃ crash, m.step = .error crash ∧ crash.trap = c.trap := by
  obtain ⟨fault, he, htrap, -⟩ := execute_error_cases hx
  obtain ⟨crash, hcrash, htrap', -⟩ := h.alike.step_error (Machine.step_of_fault hp he)
  refine ⟨crash, hcrash, ?_⟩
  rw [htrap', htrap, s.toPatched.sameButMemory_plain.ip]

end RunsAs

/-! ## Going past an instruction -/

/-- **A cycle executes its instruction and does not pause after that**: it goes on, or it is stopped
as the plain machine is.  What it has asked before is given. -/
inductive Passes (s : Session) (stops : List Nat) (script : Script) (m : Machine)
    (asked : List Event) : Prop
  | on {t : Session} {n : Machine} {e : Event} (hstep : m.step = .ok n) (hcycle : s.cycle = .ok t)
      (hevents : s.cycleEvents = asked ++ [e]) (he : e.isExecution = true)
      (hfinished : t.isFinished = m.haltsNext) (halike : t.plain.Alike n)
      (hruns : m.haltsNext = false → t.RunsAs stops script n)
  | off {c : Crash Session} {crash : Crash Machine} (hstep : m.step = .error crash)
      (hcycle : s.cycle = .error c) (htrap : crash.trap = c.trap) (hevents : s.cycleEvents = asked)

theorem Passes.of_ok {asked : List Event} (h : s.Passes stops script m asked)
    (hstep : m.step = .ok n) :
    ∃ t e, s.cycle = .ok t ∧ s.cycleEvents = asked ++ [e] ∧ e.isExecution = true ∧
      t.isFinished = m.haltsNext ∧ t.plain.Alike n ∧
      (m.haltsNext = false → t.RunsAs stops script n) := by
  cases h with
  | @on t n' e hstep' hcycle hevents he hfinished halike hruns =>
    obtain rfl : n = n' := Except.ok.inj (hstep.symm.trans hstep')
    exact ⟨t, e, hcycle, hevents, he, hfinished, halike, hruns⟩
  | off hstep' =>
    rw [hstep] at hstep'
    cases hstep'

theorem Passes.of_error {asked : List Event} {crash : Crash Machine}
    (h : s.Passes stops script m asked) (hstep : m.step = .error crash) :
    ∃ c, s.cycle = .error c ∧ c.trap = crash.trap ∧ s.cycleEvents = asked := by
  cases h with
  | on hstep' =>
    rw [hstep] at hstep'
    cases hstep'
  | @off c crash' hstep' hcycle htrap hevents =>
    obtain rfl : crash = crash' := Except.error.inj (hstep.symm.trans hstep')
    exact ⟨c, hcycle, htrap.symm, hevents⟩

theorem passes_of_ready {a : Arrival} (harrival : s.arrival = .ok a)
    (hp : (s.ready a).plain.peek = .ok a.instruction)
    (h : (s.ready a).RunsAs stops script m) : s.Passes stops script m (s.asks a) := by
  cases hcycle : s.cycle with
  | ok t =>
    obtain ⟨a', ha', hcase⟩ := cycle_ok_cases hcycle
    obtain rfl : a = a' := Except.ok.inj (harrival.symm.trans ha')
    rcases hcase with ⟨hfinished, -, -⟩ | ⟨-, hx, hevents⟩
    · rw [h.isFinished] at hfinished
      cases hfinished
    · obtain ⟨n, hn, hfinished, halike, hruns⟩ := h.execute_ok hp hx
      exact .on hn hcycle hevents rfl hfinished halike hruns
  | error c =>
    rcases cycle_error_cases hcycle with ⟨ha', -, -⟩ | ⟨a', ha', -, hx, hevents⟩
    · rw [harrival] at ha'
      cases ha'
    · obtain rfl : a = a' := Except.ok.inj (harrival.symm.trans ha')
      obtain ⟨crash, hcrash, htrap⟩ := h.execute_error hp hx
      exact .off hcrash hcycle htrap hevents

theorem RunsAs.pauses_eq {a : Arrival} (h : s.RunsAs stops script m)
    (harrival : s.arrival = .ok a) : a.pauses = s.breakpoints.isSet m.ip := by
  rw [(Patched.of_arrival h.consistent harrival).2, h.mode, h.ip]
  rfl

/-- A session that runs goes past every instruction at which no breakpoint is set. -/
theorem RunsAs.passes (h : s.RunsAs stops script m) (hip : m.ip ∉ stops) :
    s.Passes stops script m [] := by
  cases harrival : s.arrival with
  | error trap =>
    have hcycle : s.cycle = .error ⟨trap, s⟩ := by simp only [cycle, harrival]
    have hevents : s.cycleEvents = [] := by simp only [cycleEvents, harrival]
    obtain ⟨-, -, crash, hcrash, htrap, -⟩ := cycle_error_simulates h.consistent h.alike hcycle
    exact .off hcrash hcycle htrap hevents
  | ok a =>
    have hpauses : a.pauses = false := by
      rw [h.pauses_eq harrival, Bool.eq_false_iff, ne_eq, ← Breakpoints.mem_addresses_iff,
        h.addresses]
      exact hip
    have hready : s.ready a = s := by simp [ready, hpauses]
    have hasks : s.asks a = [] := by simp [asks, hpauses]
    have hpeek := peek_ready h.consistent harrival
    rw [← hasks]
    refine passes_of_ready harrival hpeek ?_
    rw [hready]
    exact h

/-- A session that runs pauses where a breakpoint is set, and asks for a command. -/
theorem RunsAs.asks (h : s.RunsAs stops script m) (hip : m.ip ∈ stops) :
    ∃ tail, s.cycleEvents = .asked m.ip s.begun :: tail := by
  have hset : s.machine.ip ∈ s.breakpoints.addresses := by
    rw [h.ip, h.addresses]
    exact hip
  cases Patched.arrival_cases h.consistent with
  | unexpected _ _ hfree => exact absurd hset hfree
  | outOfRange hpeek =>
    have hlt : s.plain.ip < memorySize := by
      rw [← s.toPatched.sameButMemory_plain.ip]
      exact h.consistent.inRange _ hset
    rw [Machine.peek_of_lt hlt] at hpeek
    cases hpeek
  | found _ harrival =>
    rw [h.ip, Breakpoints.mem_addresses_iff] at hset
    rw [← h.ip]
    exact cycleEvents_of_pauses harrival ((h.pauses_eq harrival).trans hset)

/-- **The session that is told to run goes past the instruction at which it has paused**, also if a
breakpoint is set there. -/
theorem passes_of_asked {a : Arrival} {pre post : List Session} {text : Text} (hc : s.Consistent)
    (harrival : s.arrival = .ok a) (hpauses : a.pauses = true)
    (hquestions : s.questions = pre ++ q :: post) (htext : q.unread = text :: script)
    (hrun : Command.ofText? text = some .run) :
    s.Passes q.breakpoints.addresses script q.plain
      (pre.map (.asked s.machine.ip) ++ [.asked s.machine.ip q]) := by
  have hends : Command.endsPause text = true := by
    rw [Command.endsPause, hrun]
    rfl
  -- the question is the last one of its pause, which leaves the session running
  obtain ⟨rfl, hconverse⟩ := Patched.converse_of_endsPause hquestions htext hends
  have hready : s.ready a =
      { toPatched := (q.toPatched.write (.prompt s.machine.ip)).setMode .running
        unread := script } := by
    rw [ready, if_pos hpauses, pause, hconverse, Patched.heed_of_command hrun]
    rfl
  have hasks : s.asks a = pre.map (.asked s.machine.ip) ++ [.asked s.machine.ip q] := by
    rw [asks, if_pos hpauses, hquestions, List.map_append]
    rfl
  have hq : q ∈ s.questions := by
    rw [hquestions]
    simp
  have hunnoticed := s.unnoticed_ready a
  rw [← hasks]
  refine passes_of_ready harrival (peek_ready hc harrival) ⟨?_, ?_, ?_, ?_, ?_⟩
  · rw [hready]
    rfl
  · exact hunnoticed.consistent hc
  · rw [hready]
    rfl
  · rw [hready]
  · exact hunnoticed.alike.trans (unnoticed_question hq).alike.symm

/-! ## A stretch without a pause -/

section Stretch
variable {asked es after : List Event} {count fuel address : Nat}

/-- **The session follows the plain machine** as long as that passes no breakpoint and does not
halt. -/
theorem Passes.follows (h : s.Passes stops script m asked) (hs : s.isFinished = false)
    (hp : m.Proceeds stops (count + 1) n) :
    ∃ es t, s.Cycled (count + 1) (asked ++ es) t ∧ (∀ e ∈ es, e.isExecution = true) ∧
      es.length = count + 1 ∧ t.RunsAs stops script n := by
  induction count generalizing n with
  | zero =>
    cases hp with
    | step hp _ hhalts hstep =>
      cases hp
      obtain ⟨t, e, hcycle, hevents, he, -, -, hruns⟩ := h.of_ok hstep
      refine ⟨[e], t, ?_, by simpa using he, rfl, hruns hhalts⟩
      rw [← hevents]
      exact Cycled.refl.snoc hs hcycle
  | succ count ih =>
    cases hp with
    | step hp hpasses hhalts hstep =>
      obtain ⟨es, t, ht, hes, hlength, hruns⟩ := ih hp
      -- the session stands at no breakpoint, and goes past one more instruction
      have hfree := hruns.passes (hpasses (Nat.succ_pos _))
      obtain ⟨u, e, hcycle, hevents, he, -, -, hruns'⟩ := hfree.of_ok hstep
      refine ⟨es ++ [e], u, ?_, ?_, by simp [hlength], hruns' hhalts⟩
      · rw [← List.append_assoc, ← List.nil_append [e], ← hevents]
        exact ht.snoc hruns.isFinished hcycle
      · exact List.forall_mem_append.mpr ⟨hes, by simpa using he⟩

/-- The last cycle of a stretch that ends at no breakpoint does not pause either. -/
theorem Passes.comes_to (h : s.Passes stops script m asked) (hs : s.isFinished = false)
    (hp : m.Proceeds stops count n) (hfree : 0 < count → n.ip ∉ stops) :
    ∃ front asked' t es, s.Cycled count front t ∧ t.isFinished = false ∧
      t.Passes stops script n asked' ∧ front ++ asked' = asked ++ es ∧
      (∀ e ∈ es, e.isExecution = true) ∧ es.length = count := by
  cases count with
  | zero =>
    cases hp
    exact ⟨[], asked, s, [], .refl, hs, h, by simp, by simp, rfl⟩
  | succ count =>
    obtain ⟨es, t, ht, hes, hlength, hruns⟩ := h.follows hs hp
    exact ⟨asked ++ es, [], t, es, ht, hruns.isFinished, hruns.passes (hfree (Nat.succ_pos _)),
      List.append_nil _, hes, hlength⟩

/-! ## How a stretch ends -/

/-- At a breakpoint there is a pause. -/
theorem Passes.pauses (h : s.Passes stops script m asked) (hs : s.isFinished = false)
    (hp : m.Proceeds stops (count + 1) n) (hstop : n.ip ∈ stops) :
    ∃ enough es q, (∀ e ∈ es, e.isExecution = true) ∧ es.length = count + 1 ∧
      q.plain.Alike n ∧ q.unread = script ∧ ∀ more, enough ≤ more →
        ∃ after, s.events more = asked ++ (es ++ .asked n.ip q :: after) := by
  obtain ⟨es, t, ht, hes, hlength, hruns⟩ := h.follows hs hp
  refine ⟨count + 1 + 1, es, t.begun, hes, hlength, ?_, hruns.unread, ?_⟩
  · exact (Patched.Unnoticed.setMode t.toPatched .stepping).alike.trans hruns.alike
  · intro more hmore
    obtain ⟨extra, rfl⟩ := Nat.exists_eq_add_of_le hmore
    obtain ⟨tail, htail⟩ := hruns.asks hstop
    obtain ⟨rest, hrest⟩ := events_succ_eq hruns.isFinished extra
    refine ⟨tail ++ rest, ?_⟩
    rw [Nat.add_assoc, Nat.add_comm 1, ht.events_add, hrest, htail]
    simp

/-- A trap ends the run. -/
theorem Passes.crashes {crash : Crash Machine} (h : s.Passes stops script m asked)
    (hs : s.isFinished = false) (hp : m.Proceeds stops count n)
    (hfree : 0 < count → n.ip ∉ stops) (hstep : n.step = .error crash) :
    ∃ enough es c, (∀ e ∈ es, e.isExecution = true) ∧ es.length = count ∧ c.trap = crash.trap ∧
      ∀ more, enough ≤ more → s.events more = asked ++ es ∧ s.proceed more = .crashed c := by
  obtain ⟨front, asked', t, es, ht, htf, hpasses, hfront, hes, hlength⟩ := h.comes_to hs hp hfree
  obtain ⟨c, hcycle, htrap, hevents⟩ := hpasses.of_error hstep
  refine ⟨count + 1, es, c, hes, hlength, htrap, ?_⟩
  intro more hmore
  obtain ⟨extra, rfl⟩ := Nat.exists_eq_add_of_le hmore
  rw [Nat.add_assoc, Nat.add_comm 1, ht.events_add, ht.proceed_add,
    events_succ_of_error htf hcycle, proceed_succ_of_error htf hcycle, hevents, hfront]
  exact ⟨rfl, rfl⟩

/-- A halt completes the run. -/
theorem Passes.completes (h : s.Passes stops script m asked) (hs : s.isFinished = false)
    (hp : m.Proceeds stops count n) (hfree : 0 < count → n.ip ∉ stops)
    (hhalts : n.haltsNext = true) :
    ∃ enough es t n', (∀ e ∈ es, e.isExecution = true) ∧ es.length = count + 1 ∧
      n.step = .ok n' ∧ t.plain.Alike n' ∧
      ∀ more, enough ≤ more → s.events more = asked ++ es ∧ s.proceed more = .completed t := by
  obtain ⟨front, asked', t, es, ht, htf, hpasses, hfront, hes, hlength⟩ := h.comes_to hs hp hfree
  obtain ⟨n', hstep⟩ := Machine.step_of_haltsNext hhalts
  obtain ⟨u, e, hcycle, hevents, he, hfinished, halike, -⟩ := hpasses.of_ok hstep
  have hu : u.isFinished = true := hfinished.trans hhalts
  have hcycled := ht.snoc htf hcycle
  refine ⟨count + 1, es ++ [e], u, n', ?_, by simp [hlength], hstep, halike, ?_⟩
  · exact List.forall_mem_append.mpr ⟨hes, by simpa using he⟩
  · intro more hmore
    obtain ⟨extra, rfl⟩ := Nat.exists_eq_add_of_le hmore
    rw [hcycled.events_add, hcycled.proceed_add, events_of_finished hu, proceed_of_finished hu,
      hevents, List.append_nil, ← List.append_assoc, hfront, List.append_assoc]
    exact ⟨rfl, rfl⟩

/-- The next question comes after one instruction at least, and the session runs on from there. -/
theorem Passes.events_cases (h : s.Passes stops script m asked) (hs : s.isFinished = false)
    (hevents : s.events fuel = asked ++ (es ++ .asked address q :: after))
    (hes : ∀ e ∈ es, e.isExecution = true) :
    ∃ (e : Event) (rest : List Event) (left : Nat) (t : Session) (n : Machine),
      es = e :: rest ∧ fuel = left + 1 ∧ m.haltsNext = false ∧ m.step = .ok n ∧
      t.RunsAs stops script n ∧ t.events left = rest ++ .asked address q :: after := by
  cases fuel with
  | zero => simp [events_zero] at hevents
  | succ left =>
    cases h with
    | off _ hcycle _ hasked =>
      rw [events_succ_of_error hs hcycle, hasked] at hevents
      simp at hevents
    | @on t n e hstep hcycle hone he hfinished _ hruns =>
      rw [events_succ_of_ok hs hcycle, hone, List.append_assoc, List.singleton_append] at hevents
      have htail := List.append_cancel_left hevents
      cases es with
      | nil =>
        obtain ⟨hhead, -⟩ := List.cons.inj htail
        rw [hhead] at he
        cases he
      | cons e' rest =>
        rw [List.cons_append] at htail
        obtain ⟨-, hrest⟩ := List.cons.inj htail
        have hhalts : m.haltsNext = false := by
          refine Bool.eq_false_iff.mpr fun hhalts => ?_
          rw [events_of_finished (hfinished.trans hhalts)] at hrest
          simp at hrest
        exact ⟨e', rest, left, t, n, rfl, rfl, hhalts, hstep, hruns hhalts, hrest⟩

/-- **A session that runs asks for nothing before the first breakpoint.** -/
theorem RunsAs.asked_at (h : s.RunsAs stops script m)
    (hevents : s.events fuel = es ++ .asked address q :: after)
    (hes : ∀ e ∈ es, e.isExecution = true) :
    ∃ n, m.Proceeds stops es.length n ∧ (0 < es.length → m.ip ∉ stops) ∧ n.ip ∈ stops ∧
      address = n.ip ∧ q.plain.Alike n := by
  induction fuel generalizing s m es with
  | zero => simp [events_zero] at hevents
  | succ fuel ih =>
    by_cases hip : m.ip ∈ stops
    · -- the question is the first event, so nothing was executed before it
      obtain ⟨tail, htail⟩ := h.asks hip
      obtain ⟨rest, hrest⟩ := events_succ_eq h.isFinished fuel
      rw [hrest, htail] at hevents
      cases es with
      | nil =>
        obtain ⟨hhead, -⟩ := List.cons.inj hevents
        cases hhead
        refine ⟨m, .start, by simp, hip, rfl, ?_⟩
        exact (Patched.Unnoticed.setMode s.toPatched .stepping).alike.trans h.alike
      | cons e es =>
        obtain ⟨hhead, -⟩ := List.cons.inj hevents
        have hexecution := hes e (by simp)
        rw [← hhead] at hexecution
        cases hexecution
    · obtain ⟨e, rest, left, t, n, rfl, hleft, hhalts, hstep, hruns, hrest⟩ :=
        (h.passes hip).events_cases h.isFinished hevents hes
      obtain rfl : fuel = left := Nat.succ.inj hleft
      obtain ⟨n', hproceeds, hfree, hstop⟩ :=
        ih hruns hrest fun e he => hes e (List.mem_cons_of_mem _ he)
      exact ⟨n', hproceeds.cons hhalts hstep hfree, fun _ => hip, hstop⟩

/-- **After a command to run, nothing is asked before the first breakpoint**, and not before one
instruction has been executed. -/
theorem Passes.asked_at (h : s.Passes stops script m asked) (hs : s.isFinished = false)
    (hevents : s.events fuel = asked ++ (es ++ .asked address q :: after))
    (hes : ∀ e ∈ es, e.isExecution = true) :
    ∃ count n, es.length = count + 1 ∧ m.Proceeds stops (count + 1) n ∧ n.ip ∈ stops ∧
      address = n.ip ∧ q.plain.Alike n := by
  obtain ⟨e, rest, left, t, n, rfl, -, hhalts, hstep, hruns, hrest⟩ :=
    h.events_cases hs hevents hes
  obtain ⟨n', hproceeds, hfree, hstop⟩ :=
    hruns.asked_at hrest fun e he => hes e (List.mem_cons_of_mem _ he)
  exact ⟨rest.length, n', rfl, hproceeds.cons hhalts hstep hfree, hstop⟩

end Stretch

/-! ## The command -/

/-- **The command to run stops at the next breakpoint.**  At a question, let a command to run be
read while breakpoints are set at some addresses.

* If the plain machine comes to one of these addresses, for the first time after at least one step,
  then there is the next question, after as many executions, and the session is there what the plain
  machine is.
* If the plain machine is stopped before that, the run crashes with the same trap; if it halts
  before that, the run is completed.  No command is read any more.
* There is no other next question. -/
theorem Reachable.run_stops_next {history before after : List Event} {fuel address : Nat}
    {text : Text} (hs : Reachable m history s)
    (h : s.log fuel = before ++ .asked address q :: after) (htext : q.unread = text :: script)
    (hrun : Command.ofText? text = some .run) :
    address = q.machine.ip ∧
      (∀ count n, q.plain.Proceeds q.breakpoints.addresses (count + 1) n →
        n.ip ∈ q.breakpoints.addresses →
        ∃ enough es t, (∀ e ∈ es, e.isExecution = true) ∧ es.length = count + 1 ∧
          t.plain.Alike n ∧ t.unread = script ∧ ∀ more, enough ≤ more → ∃ rest,
            s.log more = before ++ .asked address q :: (es ++ .asked n.ip t :: rest)) ∧
      (∀ count n crash, q.plain.Proceeds q.breakpoints.addresses count n →
        (0 < count → n.ip ∉ q.breakpoints.addresses) → n.step = .error crash →
        ∃ enough es c, (∀ e ∈ es, e.isExecution = true) ∧ es.length = count ∧
          c.trap = crash.trap ∧ ∀ more, enough ≤ more →
            s.log more = before ++ .asked address q :: es ∧ s.run more = .crashed c) ∧
      (∀ count n, q.plain.Proceeds q.breakpoints.addresses count n →
        (0 < count → n.ip ∉ q.breakpoints.addresses) → n.haltsNext = true →
        ∃ enough es t n', (∀ e ∈ es, e.isExecution = true) ∧ es.length = count + 1 ∧
          n.step = .ok n' ∧ t.plain.Alike n' ∧ ∀ more, enough ≤ more →
            s.log more = before ++ .asked address q :: es ∧ s.run more = .completed t) ∧
      (∀ es next t rest, after = es ++ .asked next t :: rest →
        (∀ e ∈ es, e.isExecution = true) →
        ∃ count n, es.length = count + 1 ∧
          q.plain.Proceeds q.breakpoints.addresses (count + 1) n ∧
          n.ip ∈ q.breakpoints.addresses ∧ next = n.ip ∧ t.plain.Alike n) := by
  obtain ⟨done, front, x, a, pre, post, left, hx, hxf, harrival, hpauses, rfl, hquestions, rfl,
    hleft⟩ := asked_in_cycle h
  have hc : x.Consistent := (hx.simulates (consistent_begun hs.consistent) (.refl _)).1
  have hpasses := passes_of_asked hc harrival hpauses hquestions htext hrun
  have hq : q ∈ x.questions := by
    rw [hquestions]
    simp
  -- the run up to the question, and what the cycle of the question makes of the rest
  have hlog : ∀ more, s.log (done + more) = front ++ x.events more := hx.events_add
  have hrun' : ∀ more, s.run (done + more) = x.proceed more := hx.proceed_add
  refine ⟨?_, ?_, ?_, ?_, ?_⟩
  · rw [x.toPatched.sameButMemory_plain.ip, q.toPatched.sameButMemory_plain.ip,
      (unnoticed_question hq).alike.ip]
  · intro count n hp hstop
    obtain ⟨enough, es, t, hes, hlength, halike, hunread, hmore⟩ := hpasses.pauses hxf hp hstop
    refine ⟨done + enough, es, t, hes, hlength, halike, hunread, ?_⟩
    intro more hle
    obtain ⟨extra, rfl⟩ := Nat.exists_eq_add_of_le hle
    obtain ⟨rest, hrest⟩ := hmore (enough + extra) (by omega)
    refine ⟨rest, ?_⟩
    rw [Nat.add_assoc, hlog, hrest]
    simp
  · intro count n crash hp hfree hstep
    obtain ⟨enough, es, c, hes, hlength, htrap, hmore⟩ := hpasses.crashes hxf hp hfree hstep
    refine ⟨done + enough, es, c, hes, hlength, htrap, ?_⟩
    intro more hle
    obtain ⟨extra, rfl⟩ := Nat.exists_eq_add_of_le hle
    obtain ⟨hevents, hproceed⟩ := hmore (enough + extra) (by omega)
    rw [Nat.add_assoc, hlog, hrun', hevents, hproceed]
    simp
  · intro count n hp hfree hhalts
    obtain ⟨enough, es, t, n', hes, hlength, hstep, halike, hmore⟩ :=
      hpasses.completes hxf hp hfree hhalts
    refine ⟨done + enough, es, t, n', hes, hlength, hstep, halike, ?_⟩
    intro more hle
    obtain ⟨extra, rfl⟩ := Nat.exists_eq_add_of_le hle
    obtain ⟨hevents, hproceed⟩ := hmore (enough + extra) (by omega)
    rw [Nat.add_assoc, hlog, hrun', hevents, hproceed]
    simp
  · intro es next t rest hafter hes
    have hevents : x.events left = pre.map (.asked x.machine.ip) ++ [.asked x.machine.ip q] ++
        (es ++ .asked next t :: rest) := by
      rw [hleft, hafter]
      simp
    exact hpasses.asked_at hxf hevents hes

/-- A loop of two instructions, entered at a breakpoint with the command to run: the breakpoint does
not stop the session before it has gone round once, and then it does. -/
theorem run_stops_next_round_a_loop :
    let m : Machine :=
      { Machine.blank with
        memory := Machine.memoryOf [0x010007, 0x000009, 0x000001]
        registers := #v[2, 1, 0, 0] }
    let p : Patched :=
      { machine := m.setWord 0 breakpointWord, breakpoints := Breakpoints.save 0 (m.word 0) [] }
    let s : Session := { toPatched := p, unread := ["r".toList, "r".toList] }
    ∃ enough es t, (∀ e ∈ es, e.isExecution = true) ∧ es.length = 2 ∧ t.unread = ["r".toList] ∧
      ∀ more, enough ≤ more → ∃ rest,
        s.log more = .asked 0 s.begun :: (es ++ .asked 0 t :: rest) := by
  intro m p s
  have hs : Reachable m [] s :=
    .set (.start s.unread) (Patched.set_of_free (by decide) rfl (by decide +kernel))
  obtain ⟨a, harrival, hpauses⟩ : ∃ a, s.begun.arrival = .ok a ∧ a.pauses = true :=
    exists_ok_of_any (by decide +kernel)
  obtain ⟨tail, htail⟩ := cycleEvents_of_pauses harrival hpauses
  obtain ⟨rest, hrest⟩ := events_succ_eq (s := s.begun) rfl 0
  have hlog : s.log 1 = [] ++ .asked 0 s.begun :: (tail ++ rest) := by
    rw [log, hrest, htail]
    rfl
  -- two steps of the plain machine, of which only the second leads to the breakpoint
  obtain ⟨n, hn, hfirst⟩ := exists_ok_of_any (x := s.begun.plain.step)
    (f := fun n => n.ip == 1 && !n.haltsNext) (by decide +kernel)
  obtain ⟨n', hn', hsecond⟩ := exists_ok_of_any (x := s.begun.plain.after 2)
    (f := fun n => n.ip == 0) (by decide +kernel)
  rw [Machine.after_succ_of_step hn, Machine.after_one_iff] at hn'
  simp only [Bool.and_eq_true, beq_iff_eq, Bool.not_eq_true'] at hfirst hsecond
  have hp : s.begun.plain.Proceeds s.begun.breakpoints.addresses 2 n' := by
    refine (Machine.Proceeds.start.step (by simp) (by decide +kernel) hn).step ?_ hfirst.2 hn'
    rw [hfirst.1]
    decide
  obtain ⟨-, hpauses, -⟩ := hs.run_stops_next hlog rfl (by decide)
  obtain ⟨enough, es, t, hes, hlength, -, hunread, hmore⟩ :=
    hpauses 1 n' hp (by rw [hsecond]; decide)
  rw [hsecond] at hmore
  exact ⟨enough, es, t, hes, hlength, hunread, hmore⟩

end Session
end RegisterMachine
