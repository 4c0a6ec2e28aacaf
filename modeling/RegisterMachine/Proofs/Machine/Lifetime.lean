import Mathlib.Data.ENat.Lattice
import RegisterMachine.Proofs.Machine.Steps

/-! # How long a machine goes on

`Proceeds` says that a machine takes a number of steps and does not halt in them.  Where it comes to
is determined by how many they are, so a machine that comes to a halt or to a trap cannot be taken
any further (`Proceeds.goes_on`).

With that, every machine has a number of instructions that it executes when it is left to itself
(`Lasts`): up to and including the one that halts, or those before the one that is stopped, or
without end.  How a run ends is said in the same words (`run_cases`). -/

namespace RegisterMachine

/-- **A machine comes to another in a number of steps** that do not halt, and passes none of the
given addresses on the way.  Where it starts and where it arrives does not matter. -/
inductive Machine.Proceeds (stops : List Nat) (m : Machine) : Nat → Machine → Prop
  | start : Proceeds stops m 0 m
  | step {count : Nat} {n n' : Machine} (h : Proceeds stops m count n)
      (hpasses : 0 < count → n.ip ∉ stops) (hhalts : n.haltsNext = false)
      (hstep : n.step = .ok n') : Proceeds stops m (count + 1) n'

theorem Machine.Proceeds.cons {stops : List Nat} {m m' n : Machine} {count : Nat}
    (hhalts : m.haltsNext = false) (hstep : m.step = .ok m')
    (hpasses : 0 < count → m'.ip ∉ stops) (h : m'.Proceeds stops count n) :
    m.Proceeds stops (count + 1) n := by
  induction h with
  | start => exact Proceeds.start.step (by simp) hhalts hstep
  | @step count n n' h hpass hhalts' hstep' ih =>
    have hfirst := hpasses (Nat.succ_pos _)
    refine (ih fun _ => hfirst).step ?_ hhalts' hstep'
    intro _
    -- the first step may be the only one so far
    cases count with
    | zero =>
      cases h
      exact hfirst
    | succ count => exact hpass (Nat.succ_pos _)

namespace Machine
variable {m n n' : Machine} {stops : List Nat} {count count' : Nat}

namespace Proceeds

theorem after_eq (h : m.Proceeds stops count n) : m.after count = .ok n := by
  induction h with
  | start => rfl
  | step _ _ _ hstep ih => rw [after_add ih, after_one_iff.mpr hstep]

/-- Where a machine comes to is up to the number of steps. -/
theorem unique (h : m.Proceeds stops count n) (h' : m.Proceeds stops count n') : n = n' :=
  Except.ok.inj (h.after_eq.symm.trans h'.after_eq)

/-- **A machine that comes further neither halts nor is stopped on the way.** -/
theorem goes_on (h : m.Proceeds stops count n) (h' : m.Proceeds stops count' n')
    (hlt : count < count') : n.haltsNext = false ∧ ∃ next, n.step = .ok next := by
  induction h' with
  | start => omega
  | @step count' x _ hx _ hhalts hstep ih =>
    by_cases hlast : count = count'
    · subst hlast
      rw [h.unique hx]
      exact ⟨hhalts, _, hstep⟩
    · exact ih (by omega)

/-- Nothing comes after a halt. -/
theorem le_of_halts (h : m.Proceeds stops count n) (hhalts : n.haltsNext = true)
    (h' : m.Proceeds stops count' n') : count' ≤ count := by
  refine Nat.le_of_not_lt fun hlt => ?_
  rw [(h.goes_on h' hlt).1] at hhalts
  cases hhalts

/-- Nothing comes after a trap. -/
theorem le_of_error {c : Crash Machine} (h : m.Proceeds stops count n) (hstep : n.step = .error c)
    (h' : m.Proceeds stops count' n') : count' ≤ count := by
  refine Nat.le_of_not_lt fun hlt => ?_
  obtain ⟨next, hnext⟩ := (h.goes_on h' hlt).2
  rw [hstep] at hnext
  cases hnext

end Proceeds

/-! ## The number of instructions -/

/-- **The number of instructions that a machine executes** if nothing but its program stops it. -/
inductive Lasts (m : Machine) : ℕ∞ → Prop
  /-- The last one halts. -/
  | halts {count : Nat} {n : Machine} (h : m.Proceeds [] count n) (hhalts : n.haltsNext = true) :
      Lasts m ((count + 1 : Nat) : ℕ∞)
  /-- The one after the last is stopped by a trap. -/
  | stopped {count : Nat} {n : Machine} {c : Crash Machine} (h : m.Proceeds [] count n)
      (hstep : n.step = .error c) : Lasts m (count : ℕ∞)
  /-- There is always one more. -/
  | forever (h : ∀ count, ∃ n, m.Proceeds [] count n) : Lasts m ⊤

/-- Every machine halts, is stopped, or goes on forever. -/
theorem exists_lasts (m : Machine) : ∃ number, m.Lasts number := by
  by_cases hhalt : ∃ count n, m.Proceeds [] count n ∧ n.haltsNext = true
  · obtain ⟨count, n, h, hhalts⟩ := hhalt
    exact ⟨_, .halts h hhalts⟩
  · by_cases hstop : ∃ count n c, m.Proceeds [] count n ∧ n.step = .error c
    · obtain ⟨count, n, c, h, hstep⟩ := hstop
      exact ⟨_, .stopped h hstep⟩
    · refine ⟨⊤, .forever fun count => ?_⟩
      induction count with
      | zero => exact ⟨m, .start⟩
      | succ count ih =>
        obtain ⟨n, hn⟩ := ih
        have hhalts : n.haltsNext = false :=
          Bool.eq_false_iff.mpr fun hhalts => hhalt ⟨count, n, hn, hhalts⟩
        cases hstep : n.step with
        | error c => exact absurd ⟨count, n, c, hn, hstep⟩ hstop
        | ok next => exact ⟨next, hn.step (by simp) hhalts hstep⟩

namespace Lasts
variable {number : ℕ∞}

/-- A machine takes no more steps than it lasts. -/
theorem le_of_proceeds (h : m.Lasts number) (hn : m.Proceeds [] count n) :
    (count : ℕ∞) ≤ number := by
  cases h with
  | halts h' hhalts => exact Nat.cast_le.mpr (Nat.le_succ_of_le (h'.le_of_halts hhalts hn))
  | stopped h' hstep => exact Nat.cast_le.mpr (h'.le_of_error hstep hn)
  | forever _ => exact le_top

theorem le_of_lasts {number' : ℕ∞} (h : m.Lasts number) (h' : m.Lasts number') :
    number ≤ number' := by
  cases h with
  | @halts count n hn hhalts =>
    cases h' with
    | halts hn' hhalts' => exact Nat.cast_le.mpr (Nat.succ_le_succ (hn'.le_of_halts hhalts' hn))
    | @stopped count' n' c hn' hstep =>
      have hle := hn'.le_of_error hstep hn
      -- the machine that halts takes a step, and the one that is stopped does not
      have hne : count ≠ count' := by
        rintro rfl
        obtain ⟨next, hnext⟩ := step_of_haltsNext hhalts
        rw [hn.unique hn', hstep] at hnext
        cases hnext
      exact Nat.cast_le.mpr (by omega)
    | forever _ => exact le_top
  | stopped hn _ => exact h'.le_of_proceeds hn
  | forever hall =>
    cases h' with
    | @halts count n hn hhalts =>
      obtain ⟨n', hn'⟩ := hall (count + 1)
      have hle := hn.le_of_halts hhalts hn'
      omega
    | @stopped count n c hn hstep =>
      obtain ⟨n', hn'⟩ := hall (count + 1)
      have hle := hn.le_of_error hstep hn'
      omega
    | forever _ => exact le_rfl

/-- **A machine executes one number of instructions.** -/
theorem unique {number' : ℕ∞} (h : m.Lasts number) (h' : m.Lasts number') : number = number' :=
  le_antisymm (h.le_of_lasts h') (h'.le_of_lasts h)

end Lasts

/-! ## How a run ends -/

/-- **How a bounded run of a machine ends**: it comes to an instruction that halts and executes it,
it comes to a step that is stopped, or the fuel is used up. -/
inductive RunCase (m : Machine) (fuel : Nat) : Prop
  | completed {count : Nat} {last n : Machine} (h : m.Proceeds [] count last)
      (hhalts : last.haltsNext = true) (hstep : last.step = .ok n)
      (hend : iterate isFinished step fuel m = .completed n)
  | crashed {count : Nat} {last : Machine} {c : Crash Machine} (h : m.Proceeds [] count last)
      (hstep : last.step = .error c) (hend : iterate isFinished step fuel m = .crashed c)
  | outOfFuel {last : Machine} (h : m.Proceeds [] fuel last)
      (hend : iterate isFinished step fuel m = .outOfFuel last)

theorem run_cases (hm : m.isFinished = false) (fuel : Nat) : m.RunCase fuel := by
  induction fuel generalizing m with
  | zero => exact .outOfFuel .start (by simp [iterate, hm])
  | succ fuel ih =>
    cases hstep : m.step with
    | error c => exact .crashed .start hstep (by simp [iterate, hm, hstep])
    | ok next =>
      have hnext : iterate isFinished step (fuel + 1) m = iterate isFinished step fuel next := by
        simp [iterate, hm, hstep]
      have hfinished := isFinished_step hstep
      rw [hm, Bool.or_false] at hfinished
      cases hhalts : m.haltsNext with
      | true =>
        -- the machine is done, so the rest of the run is nothing
        rw [hhalts] at hfinished
        refine .completed .start hhalts hstep (hnext.trans ?_)
        cases fuel <;> simp [iterate, hfinished]
      | false =>
        rw [hhalts] at hfinished
        cases ih hfinished with
        | completed h hlast hend hrest =>
          exact .completed (h.cons hhalts hstep (by simp)) hlast hend (hnext.trans hrest)
        | crashed h hend hrest =>
          exact .crashed (h.cons hhalts hstep (by simp)) hend (hnext.trans hrest)
        | outOfFuel h hrest =>
          exact .outOfFuel (h.cons hhalts hstep (by simp)) (hnext.trans hrest)

end Machine
end RegisterMachine
