import RegisterMachine.Proofs.Session.Pause

/-! # What happens in a session

The log of a run is the list of what happened in it: commands were asked for, and instructions were
executed.  It is read off the states from which the run takes its cycles, so that log and run speak
about the same thing; with more fuel it gets longer, and what was in it stays.

`Reachable` says which sessions there are: those that come from a machine by setting and clearing
breakpoints and by running, with the log of everything that happened on the way.  `Observed` adds
the sessions that ask for a command inside a run. -/

namespace RegisterMachine

/-- Something that happens in a run of a session. -/
inductive Event where
  /-- A command is asked for at an address, by a session that has not read it yet. -/
  | asked (address : Nat) (s : Session)
  /-- A patched machine has executed the instruction at which it had arrived. -/
  | executed (p : Patched) (i : Instruction)

namespace Event

/-- Whether an instruction was executed. -/
def isExecution : Event → Bool
  | asked _ _ => false
  | executed _ _ => true

/-- What was stored, and where. -/
def stored? : Event → Option (Fin memorySize × Word)
  | asked _ _ => none
  | executed p i => p.machine.stored? i

/-- The number of instructions that were executed. -/
def executions (log : List Event) : Nat :=
  log.countP isExecution

@[simp] theorem executions_append (log log' : List Event) :
    executions (log ++ log') = executions log + executions log' :=
  List.countP_append

end Event

namespace Session

/-- A session that has paused if it has to. -/
def ready (s : Session) (a : Arrival) : Session :=
  if a.pauses then s.pause else s

/-- The sessions that ask for a command if there is a pause at the next instruction. -/
def questions (s : Session) : List Session :=
  Patched.questions s.machine.ip s.unread (s.toPatched.setMode .stepping)

/-- The commands that are asked for before the next instruction is executed. -/
def asks (s : Session) (a : Arrival) : List Event :=
  if a.pauses then s.questions.map (.asked s.machine.ip) else []

/-- What happens in one cycle. -/
def cycleEvents (s : Session) : List Event :=
  match s.arrival with
  | .error _ => []
  | .ok a =>
    s.asks a ++
      if (s.ready a).isFinished then []
      else
        match (s.ready a).execute a.instruction with
        | .error _ => []
        | .ok _ => [.executed (s.ready a).toPatched a.instruction]

/-- Goes on with a run, from a session in whatever mode. -/
def proceed (fuel : Nat) (s : Session) : Ending Session :=
  iterate isFinished cycle fuel s

/-- What happens while a run goes on. -/
def events (fuel : Nat) (s : Session) : List Event :=
  (trail isFinished cycle fuel s).flatMap cycleEvents

/-- A session at the start of a run. -/
def begun (s : Session) : Session :=
  { s with toPatched := s.toPatched.setMode .stepping }

/-- What happens in a run. -/
def log (fuel : Nat) (s : Session) : List Event :=
  s.begun.events fuel

theorem run_eq (fuel : Nat) (s : Session) : s.run fuel = s.begun.proceed fuel := rfl

theorem run_mono {s : Session} {fuel more : Nat} (hle : fuel ≤ more)
    (h : (s.run fuel).isFinal = true) : s.run more = s.run fuel :=
  iterate_mono hle h

theorem isFinished_iff {s : Session} : s.isFinished = true ↔ s.machine.mode = .finished :=
  beq_iff_eq

theorem isFinished_eq_false_iff {s : Session} :
    s.isFinished = false ↔ s.machine.mode ≠ .finished :=
  beq_eq_false_iff_ne

/-! ## One cycle -/

theorem cycle_eq_of_arrival {s : Session} {a : Arrival} (h : s.arrival = .ok a) :
    s.cycle = if (s.ready a).isFinished then .ok (s.ready a)
      else (s.ready a).execute a.instruction := by
  simp only [cycle, h]
  rfl

/-- **What a cycle can do that goes on**: it is told to quit, or it executes an instruction. -/
theorem cycle_ok_cases {s t : Session} (h : s.cycle = .ok t) :
    ∃ a, s.arrival = .ok a ∧
      ((s.ready a).isFinished = true ∧ s.cycleEvents = s.asks a ∧ t = s.ready a ∨
        (s.ready a).isFinished = false ∧ (s.ready a).execute a.instruction = .ok t ∧
          s.cycleEvents = s.asks a ++ [.executed (s.ready a).toPatched a.instruction]) := by
  cases ha : s.arrival with
  | error trap => simp [cycle, ha] at h
  | ok a =>
    refine ⟨a, rfl, ?_⟩
    rw [cycle_eq_of_arrival ha] at h
    cases hf : (s.ready a).isFinished with
    | true =>
      rw [hf, if_pos rfl] at h
      cases h
      exact .inl ⟨rfl, by simp [cycleEvents, ha, hf], rfl⟩
    | false =>
      rw [hf, if_neg Bool.false_ne_true] at h
      exact .inr ⟨rfl, h, by simp [cycleEvents, ha, hf, h]⟩

/-- **What can stop a cycle**: what it finds where it arrives, or what its instruction does. -/
theorem cycle_error_cases {s : Session} {c : Crash Session} (h : s.cycle = .error c) :
    (s.arrival = .error c.trap ∧ s.cycleEvents = [] ∧ c.state = s) ∨
      ∃ a, s.arrival = .ok a ∧ (s.ready a).isFinished = false ∧
        (s.ready a).execute a.instruction = .error c ∧ s.cycleEvents = s.asks a := by
  cases ha : s.arrival with
  | error trap =>
    simp only [cycle, ha] at h
    cases h
    exact .inl ⟨rfl, by simp [cycleEvents, ha], rfl⟩
  | ok a =>
    rw [cycle_eq_of_arrival ha] at h
    cases hf : (s.ready a).isFinished with
    | true => simp [hf] at h
    | false =>
      rw [hf, if_neg Bool.false_ne_true] at h
      exact .inr ⟨a, rfl, hf, h, by simp [cycleEvents, ha, hf, h]⟩

/-- What is asked in a cycle comes before anything is executed in it. -/
theorem cycleEvents_eq_of_arrival {s : Session} {a : Arrival} (h : s.arrival = .ok a) :
    ∃ tail, s.cycleEvents = s.asks a ++ tail ∧ ∀ e ∈ tail, e.isExecution = true := by
  cases hcycle : s.cycle with
  | error c =>
    rcases cycle_error_cases hcycle with ⟨ha, -, -⟩ | ⟨a', ha, -, -, hevents⟩ <;> rw [h] at ha
    · cases ha
    · cases ha
      exact ⟨[], by rw [hevents, List.append_nil], by simp⟩
  | ok t =>
    obtain ⟨a', ha, hcase⟩ := cycle_ok_cases hcycle
    rw [h] at ha
    cases ha
    rcases hcase with ⟨-, hevents, -⟩ | ⟨-, -, hevents⟩
    · exact ⟨[], by rw [hevents, List.append_nil], by simp⟩
    · exact ⟨_, hevents, by simp [Event.isExecution]⟩

/-- A cycle that pauses starts with a question, put to the session as it comes. -/
theorem cycleEvents_of_pauses {s : Session} {a : Arrival} (h : s.arrival = .ok a)
    (hpauses : a.pauses = true) :
    ∃ tail, s.cycleEvents = .asked s.machine.ip s.begun :: tail := by
  obtain ⟨tail, hevents, -⟩ := cycleEvents_eq_of_arrival h
  obtain ⟨others, hothers⟩ := List.head?_eq_some_iff.mp
    (Patched.head?_questions s.machine.ip s.unread (s.toPatched.setMode .stepping))
  refine ⟨others.map (.asked s.machine.ip) ++ tail, ?_⟩
  rw [hevents, asks, if_pos hpauses, questions, hothers]
  rfl

/-- **A command is asked for at the instruction pointer**, by one of the questions of a pause. -/
theorem cycleEvents_split {s q : Session} {address : Nat} {pre post : List Event}
    (h : s.cycleEvents = pre ++ .asked address q :: post) :
    address = s.machine.ip ∧ ∃ a before after, s.arrival = .ok a ∧ a.pauses = true ∧
      s.questions = before ++ q :: after ∧ pre = before.map (.asked s.machine.ip) := by
  cases ha : s.arrival with
  | error trap => simp [cycleEvents, ha] at h
  | ok a =>
    obtain ⟨tail, htail, hexecutions⟩ := cycleEvents_eq_of_arrival ha
    rw [htail] at h
    -- the tail has executions only, so the question is one of the pause
    have hasks : ∃ rest, s.asks a = pre ++ .asked address q :: rest := by
      rcases List.append_eq_append_iff.mp h with ⟨rest, -, hrest⟩ | ⟨rest, hrest, hpost⟩
      · have hmem := hexecutions (.asked address q) (by rw [hrest]; simp)
        cases hmem
      · cases rest with
        | nil =>
          have hmem := hexecutions (.asked address q) (by
            rw [← List.nil_append tail, ← hpost]
            simp)
          cases hmem
        | cons e rest =>
          obtain ⟨rfl, -⟩ := List.cons.inj hpost
          exact ⟨rest, hrest⟩
    obtain ⟨rest, hrest⟩ := hasks
    cases hpauses : a.pauses with
    | false => simp [asks, hpauses] at hrest
    | true =>
      rw [asks, hpauses, if_pos rfl, List.map_eq_append_iff] at hrest
      obtain ⟨before, others, hquestions, hpre, hothers⟩ := hrest
      obtain ⟨q', after, rfl, hq, -⟩ := List.map_eq_cons_iff.mp hothers
      cases hq
      exact ⟨rfl, a, before, after, rfl, hpauses, hquestions, hpre.symm⟩

/-! ## Going on -/

section Proceed
variable {s : Session} {fuel : Nat}

theorem proceed_zero (h : s.isFinished = false) : s.proceed 0 = .outOfFuel s := by
  simp [proceed, iterate, h]

theorem proceed_of_finished (h : s.isFinished = true) : s.proceed fuel = .completed s := by
  cases fuel <;> simp [proceed, iterate, h]

theorem proceed_succ_of_error {c : Crash Session} (h : s.isFinished = false)
    (hc : s.cycle = .error c) : s.proceed (fuel + 1) = .crashed c := by
  simp [proceed, iterate, h, hc]

theorem proceed_succ_of_ok {next : Session} (h : s.isFinished = false) (hc : s.cycle = .ok next) :
    s.proceed (fuel + 1) = next.proceed fuel := by
  simp [proceed, iterate, h, hc]

theorem events_zero : s.events 0 = [] := rfl

theorem events_of_finished (h : s.isFinished = true) : s.events fuel = [] := by
  cases fuel <;> simp [events, trail, h]

theorem events_succ_of_error {c : Crash Session} (h : s.isFinished = false)
    (hc : s.cycle = .error c) : s.events (fuel + 1) = s.cycleEvents := by
  simp [events, trail, h, hc]

theorem events_succ_of_ok {next : Session} (h : s.isFinished = false) (hc : s.cycle = .ok next) :
    s.events (fuel + 1) = s.cycleEvents ++ next.events fuel := by
  simp [events, trail, h, hc]

/-- With fuel left, a run starts with the events of a cycle. -/
theorem events_succ_eq (h : s.isFinished = false) (fuel : Nat) :
    ∃ rest, s.events (fuel + 1) = s.cycleEvents ++ rest := by
  cases hc : s.cycle with
  | error c => exact ⟨[], by rw [events_succ_of_error h hc, List.append_nil]⟩
  | ok t => exact ⟨t.events fuel, events_succ_of_ok h hc⟩

end Proceed

/-! ## Cycle after cycle -/

/-- **A session has come from another in a number of cycles**, in which the given events happened.
-/
inductive Cycled (s : Session) : Nat → List Event → Session → Prop
  | refl : Cycled s 0 [] s
  | snoc {count : Nat} {front : List Event} {x y : Session} (h : Cycled s count front x)
      (hx : x.isFinished = false) (hcycle : x.cycle = .ok y) :
      Cycled s (count + 1) (front ++ x.cycleEvents) y

namespace Cycled
variable {s t x : Session} {count fuel : Nat} {front before after : List Event} {e : Event}

theorem cons (hs : s.isFinished = false) (hcycle : s.cycle = .ok t) (h : t.Cycled count front x) :
    s.Cycled (count + 1) (s.cycleEvents ++ front) x := by
  induction h with
  | refl => simpa using Cycled.refl.snoc hs hcycle
  | snoc _ hx hy ih =>
    rw [← List.append_assoc]
    exact ih.snoc hx hy

/-- A run goes on from where its cycles have led. -/
theorem proceed_add (h : s.Cycled count front x) (more : Nat) :
    s.proceed (count + more) = x.proceed more := by
  induction h generalizing more with
  | refl => rw [Nat.zero_add]
  | snoc _ hx hy ih => rw [Nat.add_assoc, Nat.add_comm 1, ih, proceed_succ_of_ok hx hy]

theorem events_add (h : s.Cycled count front x) (more : Nat) :
    s.events (count + more) = front ++ x.events more := by
  induction h generalizing more with
  | refl => rw [Nat.zero_add, List.nil_append]
  | snoc _ hx hy ih =>
    rw [Nat.add_assoc, Nat.add_comm 1, ih, events_succ_of_ok hx hy, List.append_assoc]

end Cycled

/-- **How a bounded run ends**: after some cycles it is done, a cycle is stopped, or the fuel is
used up. -/
inductive RunCase (s : Session) (fuel : Nat) : Prop
  | completed {count : Nat} {front : List Event} {x : Session} (h : s.Cycled count front x)
      (hx : x.isFinished = true) (hevents : s.events fuel = front)
      (hproceed : s.proceed fuel = .completed x)
  | crashed {count : Nat} {front : List Event} {x : Session} {c : Crash Session}
      (h : s.Cycled count front x) (hx : x.isFinished = false) (hc : x.cycle = .error c)
      (hevents : s.events fuel = front ++ x.cycleEvents) (hproceed : s.proceed fuel = .crashed c)
  | outOfFuel {front : List Event} {x : Session} (h : s.Cycled fuel front x)
      (hx : x.isFinished = false) (hevents : s.events fuel = front)
      (hproceed : s.proceed fuel = .outOfFuel x)

theorem run_cases (s : Session) (fuel : Nat) : s.RunCase fuel := by
  cases hs : s.isFinished with
  | true => exact .completed .refl hs (events_of_finished hs) (proceed_of_finished hs)
  | false =>
    induction fuel generalizing s with
    | zero => exact .outOfFuel .refl hs events_zero (proceed_zero hs)
    | succ fuel ih =>
      cases hc : s.cycle with
      | error c =>
        exact .crashed .refl hs hc (events_succ_of_error hs hc) (proceed_succ_of_error hs hc)
      | ok t =>
        have hevents := @events_succ_of_ok s fuel t hs hc
        have hproceed := @proceed_succ_of_ok s fuel t hs hc
        cases ht : t.isFinished with
        | true =>
          rw [events_of_finished ht] at hevents
          rw [proceed_of_finished ht] at hproceed
          exact .completed (Cycled.refl.cons hs hc) ht hevents hproceed
        | false =>
          cases ih t ht with
          | completed h hx he hp =>
            exact .completed (h.cons hs hc) hx (he ▸ hevents) (hp ▸ hproceed)
          | crashed h hx hcrash he hp =>
            rw [he, ← List.append_assoc] at hevents
            exact .crashed (h.cons hs hc) hx hcrash hevents (hp ▸ hproceed)
          | outOfFuel h hx he hp =>
            exact .outOfFuel (h.cons hs hc) hx (he ▸ hevents) (hp ▸ hproceed)

/-- **Every event belongs to a cycle**, and the log goes on from that cycle. -/
theorem events_split {s : Session} {fuel : Nat} {before after : List Event} {e : Event}
    (h : s.events fuel = before ++ e :: after) :
    ∃ count front x pre post more, s.Cycled count front x ∧ x.isFinished = false ∧
      x.cycleEvents = pre ++ e :: post ∧ before = front ++ pre ∧
      x.events more = pre ++ e :: after := by
  induction fuel generalizing s before with
  | zero => simp [events_zero] at h
  | succ fuel ih =>
    cases hs : s.isFinished with
    | true => simp [events_of_finished hs] at h
    | false =>
      -- the event is one of this cycle, or of a later one
      have hcase : (∃ post, s.cycleEvents = before ++ e :: post) ∨
          ∃ t rest, s.cycle = .ok t ∧ t.events fuel = rest ++ e :: after ∧
            before = s.cycleEvents ++ rest := by
        cases hc : s.cycle with
        | error c =>
          rw [events_succ_of_error hs hc] at h
          exact .inl ⟨after, h⟩
        | ok t =>
          rw [events_succ_of_ok hs hc] at h
          rcases List.append_eq_append_iff.mp h with ⟨rest, hb, ht⟩ | ⟨rest, hfront, ht⟩
          · exact .inr ⟨t, rest, rfl, ht, hb⟩
          · -- an empty rest means that the event is the first one of the next cycle
            cases rest with
            | nil =>
              rw [List.nil_append] at ht
              rw [List.append_nil] at hfront
              exact .inr ⟨t, [], rfl, ht.symm, by rw [hfront, List.append_nil]⟩
            | cons e' rest =>
              obtain ⟨rfl, -⟩ := List.cons.inj ht
              exact .inl ⟨rest, hfront⟩
      rcases hcase with ⟨post, hevents⟩ | ⟨t, rest, hc, hrest, rfl⟩
      · exact ⟨0, [], s, before, post, fuel + 1, .refl, hs, hevents, rfl, h⟩
      · obtain ⟨count, front, x, pre, post, more, hx, hfin, hevents, rfl, hmore⟩ := ih hrest
        exact ⟨count + 1, s.cycleEvents ++ front, x, pre, post, more, hx.cons hs hc, hfin, hevents,
          by rw [List.append_assoc], hmore⟩

/-- **A command that is asked for in a run belongs to the pause of one of its cycles.** -/
theorem asked_in_cycle {s q : Session} {fuel address : Nat} {before after : List Event}
    (h : s.events fuel = before ++ .asked address q :: after) :
    ∃ count front x a pre post more, s.Cycled count front x ∧ x.isFinished = false ∧
      x.arrival = .ok a ∧ a.pauses = true ∧ address = x.machine.ip ∧
      x.questions = pre ++ q :: post ∧ before = front ++ pre.map (.asked x.machine.ip) ∧
      x.events more = pre.map (.asked x.machine.ip) ++ .asked address q :: after := by
  obtain ⟨count, front, x, pre, post, more, hx, hfin, hevents, rfl, hmore⟩ := events_split h
  obtain ⟨haddress, a, before', after', harrival, hpauses, hquestions, rfl⟩ :=
    cycleEvents_split hevents
  exact ⟨count, front, x, a, before', after', more, hx, hfin, harrival, hpauses, haddress,
    hquestions, rfl, hmore⟩

/-! ## Sessions that there are -/

/-- **The sessions that a machine can come to**, by setting and clearing breakpoints and by runs
that end, with everything that has happened in these runs. -/
inductive Reachable (m : Machine) : List Event → Session → Prop
  | start (script : Script) : Reachable m [] (start m script)
  | set {history : List Event} {s : Session} {address : Nat} {new : Bool} {p : Patched}
      (hs : Reachable m history s) (h : s.toPatched.set address = .ok (new, p)) :
      Reachable m history { s with toPatched := p }
  | clear {history : List Event} {s : Session} {address : Nat} {found : Bool} {p : Patched}
      (hs : Reachable m history s) (h : s.toPatched.clear address = .ok (found, p)) :
      Reachable m history { s with toPatched := p }
  | run {history : List Event} {s : Session} {fuel : Nat} (hs : Reachable m history s)
      (h : (s.run fuel).isFinal = true) :
      Reachable m (history ++ s.log fuel) (s.run fuel).state

/-- **The sessions that can be looked at**: those that can be reached, and those that ask for a
command in a run, whether or not the run ends. -/
inductive Observed (m : Machine) : List Event → Session → Prop
  | reachable {history : List Event} {s : Session} (hs : Reachable m history s) :
      Observed m history s
  | asking {history before after : List Event} {s t : Session} {fuel address : Nat}
      (hs : Reachable m history s) (h : s.log fuel = before ++ .asked address t :: after) :
      Observed m (history ++ before) t

end Session
end RegisterMachine
