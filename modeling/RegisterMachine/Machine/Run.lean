import RegisterMachine.Machine.Execute

/-! # Running

A step fetches the next instruction and executes it.  Running repeats steps until the machine
is done or a step traps; since a program may go on forever, the number of steps is bounded by a
*fuel* that the caller chooses, and running out of it is an ending of its own.  More fuel never
changes a run that has ended (`iterate_mono`).

The loop is the same for every kind of state that is run step by step, so it is stated once,
for an arbitrary step function. -/

namespace RegisterMachine

/-- The state in which a step was stopped by a trap. -/
structure Crash (σ : Type) where
  /-- What stopped it. -/
  trap : Trap
  /-- What was left. -/
  state : σ
deriving DecidableEq, Repr

/-- How a bounded run ends. -/
inductive Ending (σ : Type) where
  /-- The state is done. -/
  | completed (state : σ)
  /-- A step was stopped by a trap. -/
  | crashed (crash : Crash σ)
  /-- The fuel was used up first. -/
  | outOfFuel (state : σ)
deriving DecidableEq, Repr

namespace Ending

/-- The state at the end, whatever the ending. -/
def state {σ : Type} : Ending σ → σ
  | completed s => s
  | crashed c => c.state
  | outOfFuel s => s

/-- The trap that ended a run, if one did. -/
def trap? {σ : Type} : Ending σ → Option Trap
  | crashed c => some c.trap
  | _ => none

/-- Whether the run has ended for good. -/
def isFinal {σ : Type} : Ending σ → Bool
  | outOfFuel _ => false
  | _ => true

end Ending

/-- Repeats a step until the state is done, a step is stopped, or the fuel is used up. -/
def iterate {σ : Type} (done : σ → Bool) (step : σ → Except (Crash σ) σ) : Nat → σ → Ending σ
  | 0, s => if done s then .completed s else .outOfFuel s
  | fuel + 1, s =>
    if done s then .completed s
    else
      match step s with
      | .error c => .crashed c
      | .ok next => iterate done step fuel next

/-- More fuel does not change a run that has ended. -/
theorem iterate_mono {σ : Type} {done : σ → Bool} {step : σ → Except (Crash σ) σ} {fuel more : Nat}
    {s : σ} (hle : fuel ≤ more) (h : (iterate done step fuel s).isFinal = true) :
    iterate done step more s = iterate done step fuel s := by
  induction fuel generalizing more s with
  | zero =>
    have hd : done s = true := by
      cases hs : done s with
      | true => rfl
      | false => simp [iterate, hs, Ending.isFinal] at h
    cases more <;> simp [iterate, hd]
  | succ fuel ih =>
    cases more with
    | zero => omega
    | succ more =>
      cases hs : done s with
      | true => simp [iterate, hs]
      | false =>
        cases hn : step s with
        | error c => simp [iterate, hs, hn]
        | ok next =>
          simp only [iterate, hs, hn, Bool.false_eq_true, if_false] at h ⊢
          exact ih (by omega) h

namespace Machine

/-- Fetches and executes one instruction.  A machine that cannot fetch stays where it is; one
that cannot execute has moved past the instruction. -/
def step (m : Machine) : Except (Crash Machine) Machine :=
  match m.peek with
  | .error trap => .error ⟨trap, m⟩
  | .ok i =>
    match m.advance.execute i with
    | .error trap => .error ⟨trap, m.advance⟩
    | .ok next => .ok next

/-- Runs a machine from where it is until it is done. -/
def run (fuel : Nat) (m : Machine) : Ending Machine :=
  iterate isFinished step fuel (m.setMode .running)

end Machine
end RegisterMachine
