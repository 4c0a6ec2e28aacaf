import RegisterMachine.Proofs.Session.Simulation

/-! # A session does what the plain machine does

The program cannot tell that it is run in a session.  Wherever breakpoints are set and cleared, and
whatever commands are given, a run of a session is a number of steps of the plain machine, exactly
as many as its log has executions, and it ends where the plain machine stands after them.

The two part in one place only.  The session looks at a breakpoint that nobody has set before it
moves on, so that this trap leaves it at the instruction and not behind it (`StoppedLike`). -/

namespace RegisterMachine
namespace Session

/-- **Transparency.**  A run that completes has the view, the registers, the instruction pointer and
the printed words of the plain machine after as many steps as the run has executed; the last of them
halts, or the last question of the run was answered by quitting.  A run that crashes has come as
far, and the next step of the plain machine is stopped in the same way. -/
theorem run_transparent {m : Machine} {history : List Event} {s : Session}
    (hs : Reachable m history s) (fuel : Nat) :
    (∀ t, s.run fuel = .completed t →
      (∃ n, s.plain.after (Event.executions (s.log fuel)) = .ok n ∧ t.plain.Alike n) ∧
        ((∃ k n, Event.executions (s.log fuel) = k + 1 ∧ s.plain.after k = .ok n ∧
            n.haltsNext = true) ∨
          ∃ q, (s.log fuel).getLast? = some (.asked t.machine.ip q) ∧ q.quitsNext = true)) ∧
      ∀ c, s.run fuel = .crashed c →
        ∃ n, s.plain.after (Event.executions (s.log fuel)) = .ok n ∧ StoppedLike c n := by
  have hc : s.begun.Consistent := consistent_begun hs.consistent
  have halike : s.begun.plain.Alike s.plain :=
    (Patched.Unnoticed.setMode s.toPatched .stepping).alike
  rw [run_eq, log]
  cases s.begun.run_cases fuel with
  | outOfFuel _ _ _ hproceed => simp [hproceed]
  | @completed count front x h hx hevents hproceed =>
    rw [hproceed, hevents]
    refine ⟨?_, by simp⟩
    intro t ht
    cases ht
    obtain ⟨-, hn⟩ := h.simulates hc halike
    refine ⟨hn, ?_⟩
    -- how the run has ended was decided in its last cycle
    cases h with
    | refl => cases hx
    | @snoc count' front' y _ h' hy hcycle =>
      obtain ⟨hconsistent, k, hk, hyk⟩ := h'.simulates hc halike
      rcases cycle_ok_finished hconsistent hy hcycle hx with ⟨hone, hhalts⟩ | ⟨q, hq, hquits⟩
      · refine .inl ⟨Event.executions front', k, ?_, hk, ?_⟩
        · rw [Event.executions_append, hone]
        · rw [← hyk.haltsNext]
          exact hhalts
      · refine .inr ⟨q, ?_, hquits⟩
        rw [List.getLast?_append, hq]
        rfl
  | @crashed count front x c h hx hcrash hevents hproceed =>
    rw [hproceed, hevents]
    refine ⟨by simp, ?_⟩
    intro c' hc'
    cases hc'
    obtain ⟨hconsistent, n, hn, hxn⟩ := h.simulates hc halike
    obtain ⟨-, hzero, hstopped⟩ := cycle_error_simulates hconsistent hxn hcrash
    refine ⟨n, ?_, hstopped⟩
    rw [Event.executions_append, hzero]
    exact hn

/-- A program that stores over a word at which a breakpoint is set, and then prints that word,
prints what it has stored. -/
theorem run_transparent_patched_store :
    let s := start
      { Machine.blank with
        memory := Machine.memoryOf [0x070002, 0x050102, 0x010005, 0x00010b, 0x000001] }
      ["b 5".toList, "r".toList]
    ∃ t n, s.run 8 = .completed t ∧ s.plain.after 5 = .ok n ∧ t.plain.Alike n ∧
      t.machine.transcript.printed = [7] ∧ t.breakpoints = [(5, 7)] := by
  intro s
  have hrun : s.run 8 = .completed (s.run 8).state :=
    Ending.eq_completed (by decide +kernel) (by decide +kernel)
  have hcount : Event.executions (s.log 8) = 5 := by decide +kernel
  obtain ⟨⟨n, hn, halike⟩, -⟩ := (run_transparent (.start _) 8).1 _ hrun
  rw [hcount] at hn
  exact ⟨_, n, hrun, hn, halike, by decide +kernel, by decide +kernel⟩

end Session
end RegisterMachine
