import RegisterMachine.Proofs.Session.Log
import RegisterMachine.Proofs.Text.Split

/-! # Blanks around commands

A session trims what it reads, so the blanks around its commands make no difference.  This is said
as a map: `trimmed` takes them out of the texts that are still to be read, and every function of a
session commutes with it, from one question (`converse_map_trim`) over a cycle (`cycle_trimmed`) to
a whole run and its log (`run_trimmed`, `log_trimmed`). -/

namespace RegisterMachine

/-! ## Runs and maps of their states -/

section Map
variable {σ τ : Type} {done : σ → Bool} {step : σ → Except (Crash σ) σ} {done' : τ → Bool}
  {step' : τ → Except (Crash τ) τ} {f : σ → τ}

/-- The same trap in the image of a state. -/
def Crash.map (f : σ → τ) (c : Crash σ) : Crash τ :=
  ⟨c.trap, f c.state⟩

/-- The same ending in the image of a state. -/
def Ending.map (f : σ → τ) : Ending σ → Ending τ
  | .completed s => .completed (f s)
  | .crashed c => .crashed (c.map f)
  | .outOfFuel s => .outOfFuel (f s)

theorem Ending.state_map (f : σ → τ) (e : Ending σ) : (e.map f).state = f e.state := by
  cases e <;> rfl

theorem Ending.isFinal_map (f : σ → τ) (e : Ending σ) : (e.map f).isFinal = e.isFinal := by
  cases e <;> rfl

theorem Ending.map_map {υ : Type} (g : τ → υ) (f : σ → τ) (e : Ending σ) :
    (e.map f).map g = e.map (g ∘ f) := by
  cases e <;> rfl

/-- What a step comes to, in the image of its states. -/
def mapStep (f : σ → τ) (x : Except (Crash σ) σ) : Except (Crash τ) τ :=
  (x.map f).mapError (Crash.map f)

@[simp] theorem mapStep_ok (f : σ → τ) (s : σ) : mapStep f (.ok s) = .ok (f s) := rfl

/-- **A run commutes with a map of states that its steps commute with.** -/
theorem iterate_map (hdone : ∀ s, done' (f s) = done s)
    (hstep : ∀ s, step' (f s) = mapStep f (step s)) (fuel : Nat) (s : σ) :
    iterate done' step' fuel (f s) = (iterate done step fuel s).map f := by
  induction fuel generalizing s with
  | zero =>
    simp only [iterate, hdone]
    split <;> rfl
  | succ fuel ih =>
    simp only [iterate, hdone, hstep]
    split
    · rfl
    · cases step s with
      | error c => rfl
      | ok next => exact ih next

theorem trail_map (hdone : ∀ s, done' (f s) = done s)
    (hstep : ∀ s, step' (f s) = mapStep f (step s)) (fuel : Nat) (s : σ) :
    trail done' step' fuel (f s) = (trail done step fuel s).map f := by
  induction fuel generalizing s with
  | zero => rfl
  | succ fuel ih =>
    simp only [trail, hdone, hstep]
    split
    · rfl
    · cases step s with
      | error c => rfl
      | ok next => simp only [mapStep_ok, ih, List.map_cons]

end Map

/-! ## One question -/

theorem Command.ofText?_trim (t : Text) : Command.ofText? (Text.trim t) = Command.ofText? t := by
  rw [Command.ofText?, Command.ofText?, Text.trim_trim]

theorem Command.endsPause_trim (t : Text) :
    Command.endsPause (Text.trim t) = Command.endsPause t := by
  rw [Command.endsPause, Command.endsPause, Command.ofText?_trim]

/-- A session without the blanks around the texts that it will read. -/
def Session.trimmed (s : Session) : Session :=
  { s with unread := s.unread.map Text.trim }

/-- An event with the session that asks in it trimmed. -/
def Event.trimmed : Event → Event
  | asked address s => asked address s.trimmed
  | executed p i => executed p i

namespace Patched
variable (address : Nat) (p : Patched)

theorem heed_trim (t : Text) : p.heed address (Text.trim t) = p.heed address t := by
  rw [heed, heed, Text.trim_trim]

/-- **A pause takes no notice of blanks.** -/
theorem converse_map_trim (script : Script) :
    converse address (script.map Text.trim) p = (converse address script p).trimmed := by
  induction script generalizing p with
  | nil => rfl
  | cons t rest ih =>
    rw [List.map_cons, converse_cons, converse_cons, Command.endsPause_trim, heed_trim]
    split
    · rfl
    · exact ih _

theorem questions_map_trim (script : Script) :
    questions address (script.map Text.trim) p =
      (questions address script p).map Session.trimmed := by
  induction script generalizing p with
  | nil => rfl
  | cons t rest ih =>
    rw [List.map_cons, questions, questions, Command.endsPause_trim, heed_trim]
    split
    · rfl
    · rw [ih]
      rfl

end Patched

namespace Session
variable (s : Session)

/-! ## One cycle -/

/-- A cycle commutes with a map of sessions that pausing and executing commute with. -/
theorem cycle_map {f : Session → Session} {s : Session} (harrival : (f s).arrival = s.arrival)
    (hready : ∀ a, (f s).ready a = f (s.ready a))
    (hfinished : ∀ x, (f x).isFinished = x.isFinished)
    (hexecute : ∀ x i, (f x).execute i = mapStep f (x.execute i)) :
    (f s).cycle = mapStep f s.cycle := by
  cases ha : s.arrival with
  | error trap =>
    rw [ha] at harrival
    simp only [cycle, ha, harrival]
    rfl
  | ok a =>
    rw [cycle_eq_of_arrival ha, cycle_eq_of_arrival (harrival.trans ha), hready, hfinished,
      hexecute]
    split <;> rfl

theorem isFinished_trimmed : s.trimmed.isFinished = s.isFinished := rfl

theorem ready_trimmed (a : Arrival) : s.trimmed.ready a = (s.ready a).trimmed := by
  unfold ready
  split
  · exact Patched.converse_map_trim _ _ _
  · rfl

theorem asks_trimmed (a : Arrival) : s.trimmed.asks a = (s.asks a).map Event.trimmed := by
  unfold asks
  split
  · have hquestions : s.trimmed.questions = s.questions.map Session.trimmed :=
      Patched.questions_map_trim _ _ _
    rw [hquestions, List.map_map, List.map_map]
    rfl
  · rfl

theorem execute_trimmed (i : Instruction) :
    s.trimmed.execute i = mapStep trimmed (s.execute i) := by
  simp only [execute, trimmed]
  cases Patched.execute { s.toPatched with machine := s.machine.advance } i <;> rfl

/-- **A cycle takes no notice of blanks.** -/
theorem cycle_trimmed : s.trimmed.cycle = mapStep trimmed s.cycle :=
  cycle_map rfl s.ready_trimmed isFinished_trimmed execute_trimmed

theorem cycleEvents_trimmed : s.trimmed.cycleEvents = s.cycleEvents.map Event.trimmed := by
  have harrival : s.trimmed.arrival = s.arrival := rfl
  cases ha : s.arrival with
  | error trap => simp only [cycleEvents, harrival, ha, List.map_nil]
  | ok a =>
    simp only [cycleEvents, harrival, ha, ready_trimmed, asks_trimmed, isFinished_trimmed,
      execute_trimmed, List.map_append]
    split
    · rfl
    · cases (s.ready a).execute a.instruction <;> rfl

/-! ## Whole runs -/

/-- **A run takes no notice of blanks.** -/
theorem run_trimmed (fuel : Nat) : s.trimmed.run fuel = (s.run fuel).map trimmed :=
  iterate_map isFinished_trimmed cycle_trimmed fuel s.begun

theorem log_trimmed (fuel : Nat) : s.trimmed.log fuel = (s.log fuel).map Event.trimmed := by
  have htrail : trail isFinished cycle fuel s.trimmed.begun =
      (trail isFinished cycle fuel s.begun).map trimmed :=
    trail_map isFinished_trimmed cycle_trimmed fuel s.begun
  rw [log, events, htrail, log, events, List.flatMap_map, List.map_flatMap]
  exact List.flatMap_congr fun x _ => cycleEvents_trimmed x

end Session
end RegisterMachine
