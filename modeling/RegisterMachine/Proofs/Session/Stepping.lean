import RegisterMachine.Proofs.Machine.Lifetime
import RegisterMachine.Proofs.Session.Simulation

/-! # Stepping through a program

A script without the command to run lets a session execute one instruction for each command to step,
and nothing else.  Every pause takes a text from the script, and the script comes to an end, so such
a session always does; what stops it before is the program, which may halt or be stopped by a trap.

The number of instructions is therefore the smaller one of two (`Reachable.run_steps`): of the
commands to step before the first one to quit, and of the instructions that the plain machine would
execute by itself (`Machine.Lasts`). -/

namespace RegisterMachine

/-! ## Scripts -/

namespace Script

/-- The number of commands to step before the first command to quit. -/
def stepsBeforeQuit (script : Script) : Nat :=
  (script.takeWhile fun t => Command.ofText? t != some .quit).countP fun t =>
    Command.ofText? t == some .step

variable {t : Text} {rest : Script}

theorem stepsBeforeQuit_of_quit (h : Command.ofText? t = some .quit) :
    stepsBeforeQuit (t :: rest) = 0 := by
  simp [stepsBeforeQuit, h]

theorem stepsBeforeQuit_of_step (h : Command.ofText? t = some .step) :
    stepsBeforeQuit (t :: rest) = rest.stepsBeforeQuit + 1 := by
  simp [stepsBeforeQuit, h]

/-- Every other text makes no difference. -/
theorem stepsBeforeQuit_of_ne (hquit : Command.ofText? t ≠ some .quit)
    (hstep : Command.ofText? t ≠ some .step) :
    stepsBeforeQuit (t :: rest) = rest.stepsBeforeQuit := by
  simp [stepsBeforeQuit, hquit, hstep]

end Script

/-! ## A pause -/

namespace Patched
variable {p : Patched} {script : Script}

/-- A pause takes a text from the script, unless there is none. -/
theorem unread_converse_suffix (address : Nat) (script : Script) (p : Patched) :
    (converse address script p).unread <:+ script.tail := by
  induction script generalizing p with
  | nil => exact List.suffix_rfl
  | cons t rest ih =>
    rw [converse_cons]
    split
    · exact List.suffix_rfl
    · exact (ih _).trans (List.tail_suffix rest)

/-- **How a pause ends without the command to run**: it is told to quit, or to step. -/
theorem converse_quits_or_steps (address : Nat)
    (hrun : ∀ t ∈ script, Command.ofText? t ≠ some .run) (hp : p.machine.mode = .stepping) :
    (script.stepsBeforeQuit = 0 ∧ (converse address script p).machine.mode = .finished) ∨
      (script.stepsBeforeQuit = (converse address script p).unread.stepsBeforeQuit + 1 ∧
        (converse address script p).machine.mode = .stepping) := by
  induction script generalizing p with
  | nil => exact .inl ⟨rfl, rfl⟩
  | cons t rest ih =>
    rw [converse_cons]
    by_cases hends : Command.endsPause t = true
    · rw [if_pos hends]
      obtain ⟨c, hc, hresumes⟩ := (Option.any_eq_true _ _).mp hends
      rw [heed_of_command hc]
      cases c with
      | step => exact .inr ⟨Script.stepsBeforeQuit_of_step hc, hp⟩
      | quit => exact .inl ⟨Script.stepsBeforeQuit_of_quit hc, rfl⟩
      | run => exact absurd hc (hrun t List.mem_cons_self)
      | disassemble | memory | setBreakpoint | clearBreakpoint => cases hresumes
    · rw [if_neg hends]
      have hne : ∀ c : Command, c.resumes = true → Command.ofText? t ≠ some c := by
        intro c hc ht
        exact hends (by simp [Command.endsPause, ht, hc])
      rw [Script.stepsBeforeQuit_of_ne (hne .quit rfl) (hne .step rfl)]
      refine ih (fun u hu => hrun u (List.mem_cons_of_mem _ hu)) ?_
      rw [mode_heed (Bool.eq_false_iff.mpr hends)]
      exact hp

end Patched

namespace Session
variable {s t : Session} {m n : Machine} {fuel : Nat}

/-! ## One cycle -/

/-- **A session steps as a plain machine does**, and will not be told to run. -/
structure StepsAs (s : Session) (m : Machine) : Prop where
  mode : s.machine.mode = .stepping
  consistent : s.Consistent
  unread : ∀ t ∈ s.unread, Command.ofText? t ≠ some .run
  alike : s.plain.Alike m

theorem StepsAs.isFinished (h : s.StepsAs m) : s.isFinished = false :=
  isFinished_eq_false_iff.mpr (by simp [h.mode])

/-- A session that steps pauses wherever it arrives. -/
theorem StepsAs.pauses {a : Arrival} (h : s.StepsAs m) (harrival : s.arrival = .ok a) :
    a.pauses = true := by
  rw [(Patched.of_arrival h.consistent harrival).2, h.mode]
  rfl

/-- It takes a text from the script, and is told to quit or to step. -/
theorem StepsAs.ready_cases {a : Arrival} (h : s.StepsAs m) (harrival : s.arrival = .ok a) :
    (s.ready a).unread <:+ s.unread.tail ∧
      ((s.unread.stepsBeforeQuit = 0 ∧ (s.ready a).machine.mode = .finished) ∨
        (s.unread.stepsBeforeQuit = (s.ready a).unread.stepsBeforeQuit + 1 ∧
          (s.ready a).machine.mode = .stepping)) := by
  rw [ready, if_pos (h.pauses harrival)]
  exact ⟨Patched.unread_converse_suffix _ _ _, Patched.converse_quits_or_steps _ h.unread rfl⟩

/-- **What a cycle of a session that steps can do.** -/
inductive StepCase (s : Session) (m : Machine) : Prop
  /-- It is told to quit, and executes nothing. -/
  | quits {t q : Session} (hcycle : s.cycle = .ok t) (ht : t.isFinished = true)
      (hsteps : s.unread.stepsBeforeQuit = 0) (hevents : Event.executions s.cycleEvents = 0)
      (halike : t.plain.Alike m)
      (hlast : s.cycleEvents.getLast? = some (.asked t.machine.ip q)) (hq : q.quitsNext = true)
  /-- It is told to step, and executes one instruction. -/
  | steps {t : Session} {n : Machine} (hcycle : s.cycle = .ok t) (hstep : m.step = .ok n)
      (hsteps : s.unread.stepsBeforeQuit = t.unread.stepsBeforeQuit + 1)
      (hevents : Event.executions s.cycleEvents = 1) (hless : t.unread.length < s.unread.length)
      (ht : t.isFinished = m.haltsNext) (hnext : m.haltsNext = false → t.StepsAs n)
  /-- It is stopped by a trap. -/
  | stopped {c : Crash Session} {crash : Crash Machine} (hcycle : s.cycle = .error c)
      (hstep : m.step = .error crash) (hevents : Event.executions s.cycleEvents = 0)

/-- Told to quit, the session executes nothing. -/
theorem StepsAs.quits (h : s.StepsAs m) (hcycle : s.cycle = .ok t) (ht : t.isFinished = true)
    (hsteps : s.unread.stepsBeforeQuit = 0) (hevents : Event.executions s.cycleEvents = 0) :
    s.StepCase m := by
  obtain ⟨-, n, hn, halike⟩ := cycle_ok_simulates h.consistent h.alike hcycle
  rw [hevents] at hn
  cases hn
  rcases cycle_ok_finished h.consistent h.isFinished hcycle ht with ⟨hone, -⟩ | ⟨q, hlast, hq⟩
  · omega
  · exact .quits hcycle ht hsteps hevents halike hlast hq

/-- Told to step, the session executes the instruction at which it has paused. -/
theorem StepsAs.steps {ready : Session} {i : Instruction} (h : s.StepsAs m)
    (hcycle : s.cycle = .ok t) (hready : s.toPatched.Unnoticed ready.toPatched)
    (hpeek : ready.plain.peek = .ok i) (hmode : ready.machine.mode = .stepping)
    (hsteps : s.unread.stepsBeforeQuit = ready.unread.stepsBeforeQuit + 1)
    (hunread : ready.unread <:+ s.unread.tail) (hx : ready.execute i = .ok t)
    (hevents : Event.executions s.cycleEvents = 1) : s.StepCase m := by
  obtain ⟨hconsistent, n, hn, halike⟩ := cycle_ok_simulates h.consistent h.alike hcycle
  rw [hevents, Machine.after_one_iff] at hn
  obtain ⟨e, -, hleaves⟩ := execute_ok_cases hx
  have hhalts : ready.plain.haltsNext = m.haltsNext := (hready.alike.trans h.alike).haltsNext
  refine .steps hcycle hn (by rw [hsteps, hleaves.unread]) hevents ?_ ?_ ?_
  · have hne : s.unread ≠ [] := by
      intro hnil
      rw [hnil] at hsteps
      cases hsteps
    have hlength := hunread.length_le
    have hpos := List.length_pos_iff.mpr hne
    rw [List.length_tail] at hlength
    rw [hleaves.unread]
    omega
  · have hrunning : ready.isFinished = false := isFinished_eq_false_iff.mpr (by simp [hmode])
    rw [isFinished_execute hpeek hrunning hx, hhalts]
  · intro hfalse
    refine ⟨?_, hconsistent, ?_, halike⟩
    · rw [mode_execute hpeek (hhalts.trans hfalse) hx, hmode]
    · intro u hu
      rw [hleaves.unread] at hu
      exact h.unread u (List.mem_of_mem_tail (hunread.subset hu))

/-- **Every cycle of a session that steps is one of these.** -/
theorem StepsAs.step_cases (h : s.StepsAs m) : s.StepCase m := by
  cases hcycle : s.cycle with
  | error c =>
    obtain ⟨-, hevents, crash, hcrash, -⟩ := cycle_error_simulates h.consistent h.alike hcycle
    exact .stopped hcycle hcrash hevents
  | ok t =>
    obtain ⟨a, harrival, hcase⟩ := cycle_ok_cases hcycle
    obtain ⟨hunread, hready⟩ := h.ready_cases harrival
    -- how the pause has ended decides whether an instruction is executed
    rcases hcase with ⟨hfinished, hevents, rfl⟩ | ⟨hrunning, hx, hevents⟩
    · rcases hready with ⟨hsteps, -⟩ | ⟨-, hmode⟩
      · refine h.quits hcycle hfinished hsteps ?_
        rw [hevents, executions_asks]
      · rw [isFinished_iff, hmode] at hfinished
        cases hfinished
    · rcases hready with ⟨-, hmode⟩ | ⟨hsteps, hmode⟩
      · exact absurd hmode (isFinished_eq_false_iff.mp hrunning)
      · refine h.steps hcycle (s.unnoticed_ready a) (peek_ready h.consistent harrival) hmode hsteps
          hunread hx ?_
        rw [hevents, Event.executions_append, executions_asks]
        rfl

/-! ## Whole runs -/

/-- **How a run ends that steps**: it quits when it has taken all its steps, or the program ends
before that. -/
inductive StepsEnd (s : Session) (m : Machine) (fuel : Nat) : Prop
  /-- All steps were taken. -/
  | quits {t q : Session} {n : Machine} (hend : s.proceed fuel = .completed t)
      (hevents : Event.executions (s.events fuel) = s.unread.stepsBeforeQuit)
      (hn : m.Proceeds [] s.unread.stepsBeforeQuit n) (halike : t.plain.Alike n)
      (hlast : (s.events fuel).getLast? = some (.asked t.machine.ip q)) (hq : q.quitsNext = true)
  /-- The last step taken was a halt. -/
  | halts {t : Session} {count : Nat} {n : Machine} (hend : s.proceed fuel = .completed t)
      (hevents : Event.executions (s.events fuel) = count + 1)
      (hle : count + 1 ≤ s.unread.stepsBeforeQuit) (hn : m.Proceeds [] count n)
      (hhalts : n.haltsNext = true)
  /-- The step after the last one taken was stopped. -/
  | stopped {c : Crash Session} {count : Nat} {n : Machine} {crash : Crash Machine}
      (hend : s.proceed fuel = .crashed c) (hevents : Event.executions (s.events fuel) = count)
      (hle : count ≤ s.unread.stepsBeforeQuit) (hn : m.Proceeds [] count n)
      (hstep : n.step = .error crash)

/-- One step more at the start. -/
theorem StepsEnd.cons (h : t.StepsEnd n fuel) (hs : s.isFinished = false) (hcycle : s.cycle = .ok t)
    (hstep : m.step = .ok n) (hhalts : m.haltsNext = false)
    (hsteps : s.unread.stepsBeforeQuit = t.unread.stepsBeforeQuit + 1)
    (hone : Event.executions s.cycleEvents = 1) : s.StepsEnd m (fuel + 1) := by
  have hproceed := @proceed_succ_of_ok s fuel t hs hcycle
  have hevents := @events_succ_of_ok s fuel t hs hcycle
  have hcount : Event.executions (s.events (fuel + 1)) = Event.executions (t.events fuel) + 1 := by
    rw [hevents, Event.executions_append, hone, Nat.add_comm]
  cases h with
  | quits hend hexecutions hn halike hlast hq =>
    refine .quits (hproceed.trans hend) (by omega) ?_ halike ?_ hq
    · rw [hsteps]
      exact hn.cons hhalts hstep (by simp)
    · rw [hevents, List.getLast?_append, hlast]
      rfl
  | halts hend hexecutions hle hn hlast =>
    exact .halts (hproceed.trans hend) (by omega) (by omega) (hn.cons hhalts hstep (by simp)) hlast
  | stopped hend hexecutions hle hn hlast =>
    refine .stopped (hproceed.trans hend) (by omega) ?_ (hn.cons hhalts hstep (by simp)) hlast
    omega

/-- **A session that steps comes to an end** with as much fuel as there are texts to read, and one
more. -/
theorem StepsAs.ends (h : s.StepsAs m) (hfuel : s.unread.length < fuel) : s.StepsEnd m fuel := by
  induction fuel generalizing s m with
  | zero => omega
  | succ fuel ih =>
    cases h.step_cases with
    | quits hcycle ht hsteps hevents halike hlast hq =>
      have hall := @events_succ_of_ok s fuel _ h.isFinished hcycle
      rw [events_of_finished ht, List.append_nil] at hall
      refine .quits ?_ ?_ (hsteps ▸ .start) halike ?_ hq
      · rw [proceed_succ_of_ok h.isFinished hcycle, proceed_of_finished ht]
      · rw [hall, hevents, hsteps]
      · rw [hall, hlast]
    | stopped hcycle hstep hevents =>
      refine .stopped (proceed_succ_of_error h.isFinished hcycle) ?_ (Nat.zero_le _) .start hstep
      rw [events_succ_of_error h.isFinished hcycle, hevents]
    | @steps t n hcycle hstep hsteps hevents hless ht hnext =>
      by_cases hhalts : m.haltsNext = true
      · have ht := ht.trans hhalts
        have hend : s.proceed (fuel + 1) = .completed t := by
          rw [proceed_succ_of_ok h.isFinished hcycle, proceed_of_finished ht]
        refine .halts hend ?_ (by omega) .start hhalts
        rw [events_succ_of_ok h.isFinished hcycle, events_of_finished ht, List.append_nil, hevents]
      · have hhalts := Bool.eq_false_iff.mpr hhalts
        exact (ih (hnext hhalts) (by omega)).cons h.isFinished hcycle hstep hhalts hsteps hevents

/-- **One step, one instruction.**  Let no text that a session has still to read be the command to
run.  With as much fuel as there are texts, and one more, every run of it comes to an end.

The plain machine executes a number of instructions by itself, up to and including one that halts,
or before one that is stopped, or without end.  The run executes as many of them as there are
commands to step before the first command to quit, or all of them if there are fewer.  If there are
more, the run is completed by quitting, and stands where the plain machine stands after as many
steps. -/
theorem Reachable.run_steps {history : List Event} (hs : Reachable m history s)
    (hrun : ∀ t ∈ s.unread, Command.ofText? t ≠ some .run) (hfuel : s.unread.length < fuel) :
    (s.run fuel).isFinal = true ∧ (∃ number, s.plain.Lasts number) ∧
      ∀ number, s.plain.Lasts number →
        (Event.executions (s.log fuel) : ℕ∞) = min (s.unread.stepsBeforeQuit : ℕ∞) number ∧
          ((s.unread.stepsBeforeQuit : ℕ∞) < number → ∃ t n q, s.run fuel = .completed t ∧
            s.plain.after s.unread.stepsBeforeQuit = .ok n ∧ t.plain.Alike n ∧
            t.machine.ip = n.ip ∧ (s.log fuel).getLast? = some (.asked t.machine.ip q) ∧
            q.quitsNext = true) := by
  have hbegun : s.begun.StepsAs s.plain :=
    ⟨rfl, consistent_begun hs.consistent, hrun,
      (Patched.Unnoticed.setMode s.toPatched .stepping).alike⟩
  have hunread : s.begun.unread = s.unread := rfl
  rw [run_eq, log]
  cases hbegun.ends hfuel with
  | @quits t q n hend hevents hn halike hlast hq =>
    rw [hunread] at hevents hn
    refine ⟨by rw [hend]; rfl, s.plain.exists_lasts, fun number hnumber => ⟨?_, fun _ => ?_⟩⟩
    · rw [hevents, min_eq_left (hnumber.le_of_proceeds hn)]
    · refine ⟨t, n, q, hend, hn.after_eq, halike, ?_, hlast, hq⟩
      rw [t.toPatched.sameButMemory_plain.ip, halike.ip]
  | halts hend hevents hle hn hhalts =>
    refine ⟨by rw [hend]; rfl, s.plain.exists_lasts, fun number hnumber => ?_⟩
    rw [hnumber.unique (.halts hn hhalts), hevents]
    have hle := Nat.cast_le (α := ℕ∞) |>.mpr hle
    exact ⟨(min_eq_right hle).symm, fun hlt => absurd hlt (not_lt.mpr hle)⟩
  | stopped hend hevents hle hn hstep =>
    refine ⟨by rw [hend]; rfl, s.plain.exists_lasts, fun number hnumber => ?_⟩
    rw [hnumber.unique (.stopped hn hstep), hevents]
    have hle := Nat.cast_le (α := ℕ∞) |>.mpr hle
    exact ⟨(min_eq_right hle).symm, fun hlt => absurd hlt (not_lt.mpr hle)⟩

/-- An instruction that jumps to itself, with a breakpoint that is set and cleared under it, and
texts in between that are blank or no commands: three steps, of a program that never ends. -/
theorem run_steps_in_a_loop :
    let m : Machine := { Machine.blank with memory := Machine.memoryOf [0x000008] }
    let s := start m (Script.ofText "b;s;x;n 1;n;;c;s;d;q;s".toList)
    s.plain.Lasts ⊤ ∧ Event.executions (s.log 12) = 3 ∧
      ∃ t n, s.run 12 = .completed t ∧ s.plain.after 3 = .ok n ∧ t.plain.Alike n ∧
        t.machine.ip = n.ip := by
  intro m s
  have hpeek : s.plain.peek = .ok (Instruction.decode 0x000008) := by decide +kernel
  have heffect : s.plain.effect (Instruction.decode 0x000008) = .ok (.jump 0) := by decide +kernel
  have hstay : ∀ n : Machine, n.ip = 0 → n.advance.apply (.jump 0) = n := by
    rintro ⟨memory, _, registers, mode, transcript⟩ rfl
    rfl
  have hstep : s.plain.step = .ok s.plain := by
    rw [Machine.step_of_effect hpeek heffect, hstay _ rfl]
  have hlasts : s.plain.Lasts ⊤ := by
    refine .forever fun count => ⟨s.plain, ?_⟩
    induction count with
    | zero => exact .start
    | succ count ih => exact ih.step (by simp) (by decide +kernel) hstep
  have hsteps : s.unread.stepsBeforeQuit = 3 := by decide +kernel
  have hs : Reachable m [] s := .start _
  have hrun : ∀ t ∈ s.unread, Command.ofText? t ≠ some .run := by decide +kernel
  have hfuel : s.unread.length < 12 := by decide +kernel
  obtain ⟨-, -, hall⟩ := hs.run_steps hrun hfuel
  obtain ⟨hcount, hquits⟩ := hall ⊤ hlasts
  rw [hsteps] at hcount hquits
  obtain ⟨t, n, q, ht, hn, halike, hip, -⟩ := hquits (ENat.natCast_lt_top 3)
  refine ⟨hlasts, ?_, t, n, ht, hn, halike, hip⟩
  rw [min_eq_left le_top] at hcount
  exact_mod_cast hcount

end Session
end RegisterMachine
