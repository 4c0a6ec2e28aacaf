import RegisterMachine.Proofs.Session.Past
import RegisterMachine.Proofs.Session.Stepping

/-! # Leaving a session and taking it up again

A session that was told to quit can be run again, with the commands that it has not read.  It then
pauses where it was left, and goes on as if it had never been told to quit
(`Reachable.quit_resumes`).

A session does not look ahead: up to the command to quit it has read the same texts as one that was
never given that command (`Cycled.followedBy`), and a pause that is taken up again at one of its
questions goes on from there (`cycle_eq_of_question`).  The prompt at which it was left is written
twice, and has no say in anything (`proceed_withPast`). -/

namespace RegisterMachine

/-! ## Scripts -/

/-- What comes before the end of a command is read before what comes after it. -/
theorem Script.ofText_append_cons {c : Char} (hc : endsCommand c = true) (t u : Text) :
    ofText (t ++ c :: u) = Text.pieces endsCommand t ++ ofText u := by
  induction t using Text.separated_induction endsCommand with
  | last t hnone =>
    rw [ofText, Text.entries_append_cons hnone hc, Text.pieces_of_forall_not hnone]
    rfl
  | next before d after hbefore hd ih =>
    rw [ofText, ofText] at ih
    rw [ofText, List.append_assoc, List.cons_append, Text.entries_append_cons hbefore hd, ih,
      Text.pieces_append_cons hbefore hd, ofText]
    rfl

/-- With a command to quit in between. -/
theorem Script.ofText_quit (t u : Text) : ofText (t ++ ";q;".toList ++ u) =
    Text.pieces endsCommand t ++ "q".toList :: ofText u := by
  rw [List.append_assoc]
  refine (ofText_append_cons rfl t ('q' :: ';' :: u)).trans ?_
  exact congrArg _ (ofText_append_cons rfl "q".toList u)

/-! ## One pause -/

namespace Patched
variable {p : Patched} {address : Nat} {first more : Script} {q : Session}

/-- **A pause ends among the first texts of its script or goes through all of them**, and which of
the two happens is not up to what comes after them. -/
theorem converse_append_cases (address : Nat) (first : Script) (p : Patched) :
    (∃ r rest, ∀ more, converse address (first ++ more) p = ⟨r, rest ++ more⟩) ∨
      ∃ r, ∀ more, converse address (first ++ more) p = converse address more r := by
  induction first generalizing p with
  | nil => exact .inr ⟨p, fun _ => rfl⟩
  | cons t first ih =>
    simp only [List.cons_append, converse_cons]
    by_cases hends : Command.endsPause t = true
    · simp only [hends, if_true]
      exact .inl ⟨_, first, fun _ => rfl⟩
    · simp only [hends, if_false, Bool.false_eq_true]
      exact ih _

theorem mem_questions_nil : q ∈ questions address [] p ↔ q = ⟨p, []⟩ :=
  List.mem_singleton

theorem mem_questions_cons {t : Text} {rest : Script} :
    q ∈ questions address (t :: rest) p ↔ q = ⟨p, t :: rest⟩ ∨
      Command.endsPause t = false ∧
        q ∈ questions address rest ((p.write (.prompt address)).heed address t) := by
  rw [questions, List.mem_cons]
  by_cases hends : Command.endsPause t = true
  · simp [hends]
  · simp [hends]

theorem unread_suffix_of_mem_questions (h : q ∈ questions address first p) :
    q.unread <:+ first := by
  induction first generalizing p with
  | nil =>
    obtain rfl := mem_questions_nil.mp h
    exact List.suffix_rfl
  | cons t rest ih =>
    rcases mem_questions_cons.mp h with rfl | ⟨-, h⟩
    · exact List.suffix_rfl
    · exact (ih h).trans (List.suffix_cons t rest)

/-- The mode is the same at every question. -/
theorem mode_of_mem_questions (h : q ∈ questions address first p) :
    q.machine.mode = p.machine.mode := by
  induction first generalizing p with
  | nil =>
    obtain rfl := mem_questions_nil.mp h
    rfl
  | cons t rest ih =>
    rcases mem_questions_cons.mp h with rfl | ⟨hends, h⟩
    · rfl
    · rw [ih h, mode_heed hends]
      rfl

/-- The question at which nothing has been read yet is the first one. -/
theorem eq_of_mem_questions (h : q ∈ questions address more p) (hq : q.unread = more) :
    q = ⟨p, more⟩ := by
  cases more with
  | nil => exact mem_questions_nil.mp h
  | cons t rest =>
    rcases mem_questions_cons.mp h with h | ⟨-, h⟩
    · exact h
    · have hlength := (unread_suffix_of_mem_questions h).length_le
      rw [hq, List.length_cons] at hlength
      omega

/-- **A pause can be taken up at the question at which its first texts are used up**, whatever comes
after them. -/
theorem converse_of_question (h : q ∈ questions address (first ++ more) p) (hq : q.unread = more)
    (more' : Script) : converse address (first ++ more') p = converse address more' q.toPatched := by
  induction first generalizing p with
  | nil =>
    obtain rfl := eq_of_mem_questions h hq
    rfl
  | cons t first ih =>
    rcases mem_questions_cons.mp h with rfl | ⟨hends, h⟩
    · have hlength : (t :: (first ++ more)).length = more.length := congrArg List.length hq
      simp only [List.length_cons, List.length_append] at hlength
      omega
    · rw [List.cons_append, converse_cons, hends, if_neg Bool.false_ne_true]
      exact ih h

theorem setMode_of_mode {mode : Mode} (h : p.machine.mode = mode) : p.setMode mode = p := by
  subst h
  rfl

end Patched

/-! ## What comes later is not read yet -/

namespace Session
variable {s x y q : Session} {more : Script} {count : Nat} {front : List Event}

/-- A session with other commands to read. -/
def given (script : Script) (s : Session) : Session :=
  { s with unread := script }

/-- A session with more commands after those that it has. -/
def followedBy (more : Script) (s : Session) : Session :=
  s.given (s.unread ++ more)

theorem execute_followedBy (more : Script) (s : Session) (i : Instruction) :
    (s.followedBy more).execute i = mapStep (followedBy more) (s.execute i) := by
  simp only [execute, followedBy, given]
  cases Patched.execute { s.toPatched with machine := s.machine.advance } i <;> rfl

/-- **A pause that leaves all of the later commands has not looked at them.** -/
theorem ready_followedBy {a : Arrival} (hne : more ≠ [])
    (hle : more.length ≤ ((s.followedBy more).ready a).unread.length) :
    ∃ r : Session, ∀ more', (s.followedBy more').ready a = r.followedBy more' := by
  by_cases hpauses : a.pauses = true
  · have hready : ∀ more', (s.followedBy more').ready a = Patched.converse s.machine.ip
        (s.unread ++ more') (s.toPatched.setMode .stepping) := by
      intro more'
      rw [ready, if_pos hpauses]
      rfl
    rcases Patched.converse_append_cases s.machine.ip s.unread (s.toPatched.setMode .stepping) with
      ⟨r, rest, hr⟩ | ⟨r, hr⟩
    · exact ⟨⟨r, rest⟩, fun more' => (hready more').trans (hr more')⟩
    · -- the pause would have taken one of the later commands
      have hsuffix := (Patched.unread_converse_suffix s.machine.ip more r).length_le
      have hpos := List.length_pos_iff.mpr hne
      rw [hready, hr] at hle
      rw [List.length_tail] at hsuffix
      omega
  · refine ⟨s, fun more' => ?_⟩
    rw [ready, if_neg hpauses]

/-- **A cycle that leaves all of the later commands has not looked at them.** -/
theorem cycle_followedBy (h : (s.followedBy more).cycle = .ok x) (hne : more ≠ [])
    (hle : more.length ≤ x.unread.length) :
    ∃ y : Session, x = y.followedBy more ∧
      ∀ more', (s.followedBy more').cycle = .ok (y.followedBy more') := by
  obtain ⟨a, harrival, hcase⟩ := cycle_ok_cases h
  have harrival' : ∀ more', (s.followedBy more').arrival = .ok a := fun _ => harrival
  rcases hcase with ⟨hfinished, -, rfl⟩ | ⟨hrunning, hx, -⟩
  · obtain ⟨r, hr⟩ := ready_followedBy hne hle
    rw [hr] at hfinished
    refine ⟨r, hr more, fun more' => ?_⟩
    rw [cycle_eq_of_arrival (harrival' more'), hr]
    exact if_pos hfinished
  · obtain ⟨e, -, hleaves⟩ := execute_ok_cases hx
    rw [hleaves.unread] at hle
    obtain ⟨r, hr⟩ := ready_followedBy hne hle
    rw [hr] at hrunning hx
    rw [execute_followedBy] at hx
    cases hr' : r.execute a.instruction with
    | error c =>
      rw [hr'] at hx
      cases hx
    | ok y =>
      rw [hr'] at hx
      cases hx
      refine ⟨y, rfl, fun more' => ?_⟩
      have hrunning' : (r.followedBy more').isFinished = false := hrunning
      rw [cycle_eq_of_arrival (harrival' more'), hr, hrunning', if_neg Bool.false_ne_true,
        execute_followedBy, hr']
      rfl

/-- A cycle leaves no more to read than there was. -/
theorem length_unread_of_cycle (h : s.cycle = .ok x) : x.unread.length ≤ s.unread.length := by
  obtain ⟨count, -, hunread⟩ := (accounts_cycle h).read
  rw [hunread, List.length_drop]
  omega

/-- **Cycles that leave all of the later commands have not looked at them.** -/
theorem Cycled.followedBy (h : (s.followedBy more).Cycled count front x) (hne : more ≠ [])
    (hle : more.length ≤ x.unread.length) :
    ∃ y : Session, x = y.followedBy more ∧
      ∀ more', ∃ front', (s.followedBy more').Cycled count front' (y.followedBy more') := by
  induction h with
  | refl => exact ⟨s, rfl, fun _ => ⟨[], .refl⟩⟩
  | snoc _ hx hcycle ih =>
    obtain ⟨y, rfl, hy⟩ := ih (hle.trans (length_unread_of_cycle hcycle))
    obtain ⟨z, rfl, hz⟩ := cycle_followedBy hcycle hne hle
    refine ⟨z, rfl, fun more' => ?_⟩
    obtain ⟨front', hfront'⟩ := hy more'
    exact ⟨_, hfront'.snoc hx (hz more')⟩

/-! ## Taking up a pause -/

/-- **A cycle goes on from any of its questions**: a session that starts there pauses at once, since
it is stepping, and finds the same instruction unless that is a breakpoint of the program. -/
theorem cycle_eq_of_question {a : Arrival} (hc : (y.followedBy more).Consistent)
    (harrival : (y.followedBy more).arrival = .ok a) (hpauses : a.pauses = true)
    (hq : q ∈ (y.followedBy more).questions) (hunread : q.unread = more)
    (hbreakpoint : ∀ i, q.plain.peek = .ok i → i.opcode? ≠ some .breakpoint) (more' : Script) :
    (y.followedBy more').cycle = (q.given more').cycle := by
  have hunnoticed := unnoticed_question hq
  have hmode : q.machine.mode = .stepping := Patched.mode_of_mem_questions hq
  have hip : q.machine.ip = y.machine.ip := Patched.ip_eq_of_unnoticed hunnoticed
  have hpause : (y.followedBy more').pause = (q.given more').pause := by
    have hconverse := Patched.converse_of_question hq hunread more'
    refine hconverse.trans ?_
    show Patched.converse y.machine.ip more' q.toPatched =
      Patched.converse q.machine.ip more' (q.toPatched.setMode .stepping)
    rw [Patched.setMode_of_mode hmode, hip]
  have hpeek : q.plain.peek = .ok a.instruction := by
    rw [hunnoticed.alike.peek, ← (unnoticed_ready (y.followedBy more) a).alike.peek]
    exact peek_ready hc harrival
  have harrival' : q.toPatched.arrival = .ok ⟨a.instruction, true⟩ := by
    cases Patched.arrival_cases (hunnoticed.consistent hc) with
    | outOfRange h _ =>
      rw [hpeek] at h
      cases h
    | unexpected h hi _ _ => exact absurd hi (hbreakpoint _ h)
    | found h h' =>
      rw [hpeek] at h
      cases h
      rw [h', hmode]
      rfl
  have hleft : (y.followedBy more').ready a = (y.followedBy more').pause := if_pos hpauses
  have hright : (q.given more').ready ⟨a.instruction, true⟩ =
      (q.given more').pause := if_pos rfl
  rw [cycle_eq_of_arrival (s := y.followedBy more') harrival,
    cycle_eq_of_arrival (s := q.given more') harrival', hleft, hright, hpause]

/-- A session that reads the command to quit at a question is left there. -/
theorem cycle_of_quit {a : Arrival} {pre post : List Session} {text : Text} {rest : Script}
    (harrival : x.arrival = .ok a) (hpauses : a.pauses = true)
    (hquestions : x.questions = pre ++ q :: post) (hunread : q.unread = text :: rest)
    (hquit : Command.ofText? text = some .quit) :
    x.cycle = .ok ⟨(q.toPatched.write (.prompt x.machine.ip)).setMode .finished, rest⟩ := by
  have hends : Command.endsPause text = true := by
    rw [Command.endsPause, hquit]
    rfl
  obtain ⟨-, hconverse⟩ := Patched.converse_of_endsPause hquestions hunread hends
  rw [Patched.heed_of_command hquit] at hconverse
  have hready : x.ready a = ⟨(q.toPatched.write (.prompt x.machine.ip)).setMode .finished, rest⟩ := by
    rw [ready, if_pos hpauses]
    exact hconverse
  rw [cycle_eq_of_arrival harrival, hready]
  exact if_pos rfl

/-- It can be run again, and is then the session at the question, with one prompt more. -/
theorem begun_of_quit {rest : Script} (hmode : q.machine.mode = .stepping) (address : Nat) :
    (⟨(q.toPatched.write (.prompt address)).setMode .finished, rest⟩ : Session).begun =
      (q.given rest).silent.withPast (.prompt address :: q.machine.transcript) := by
  have hbegun : (⟨(q.toPatched.write (.prompt address)).setMode .finished, rest⟩ : Session).begun =
      ⟨(q.toPatched.setMode .stepping).write (.prompt address), rest⟩ := rfl
  rw [hbegun, Patched.setMode_of_mode hmode]
  rfl

/-! ## Outcomes -/

/-- A run is decided by its first cycle. -/
theorem proceed_congr {s t : Session} {fuel : Nat} (hs : s.isFinished = false)
    (ht : t.isFinished = false) (h : s.cycle = t.cycle) :
    s.proceed (fuel + 1) = t.proceed (fuel + 1) := by
  simp [proceed, iterate, hs, ht, h]

/-- **Two sessions have the same outcome**: both can be run to an end or none, and in the end they
differ at most in the prompts that they have written. -/
structure SameOutcome (s t : Session) : Prop where
  ends : (∃ fuel, (s.run fuel).isFinal = true) ↔ ∃ fuel, (t.run fuel).isFinal = true
  agree : ∀ fuel fuel', (s.run fuel).isFinal = true → (t.run fuel').isFinal = true →
    (s.run fuel).map silent = (t.run fuel').map silent ∧
      (s.run fuel).state.written false = (t.run fuel').state.written false

/-- Sessions that come to the same silent session, with pasts that read the same, have the same
outcome. -/
theorem sameOutcome_of_withPast {s t : Session} (z : Session) (past past' : Transcript) (count : Nat)
    (hs : ∀ fuel, s.run fuel = (z.proceed fuel).map (withPast past))
    (ht : ∀ fuel, t.run (count + (fuel + 1)) = (z.proceed (fuel + 1)).map (withPast past'))
    (hpast : past.text false = past'.text false) : s.SameOutcome t := by
  have hfinal : ∀ fuel, (s.run (fuel + 1)).isFinal = (t.run (count + (fuel + 1))).isFinal := by
    intro fuel
    rw [hs, ht, Ending.isFinal_map, Ending.isFinal_map]
  refine ⟨⟨?_, ?_⟩, ?_⟩
  · rintro ⟨fuel, h⟩
    refine ⟨count + (fuel + 1), ?_⟩
    rw [← hfinal, run_mono (by omega) h]
    exact h
  · rintro ⟨fuel, h⟩
    refine ⟨fuel + 1, ?_⟩
    rw [hfinal, run_mono (by omega) h]
    exact h
  · intro fuel fuel' h h'
    -- with enough fuel for both, the two runs are compared at the same cycle
    have hleft := run_mono (show fuel ≤ max fuel fuel' + 1 by omega) h
    have hright := run_mono (show fuel' ≤ count + (max fuel fuel' + 1) by omega) h'
    rw [hs] at hleft
    rw [ht] at hright
    have hsilent : ∀ past, silent ∘ withPast past = silent := fun past =>
      funext (silent_withPast past)
    rw [← hleft, ← hright, Ending.map_map, Ending.map_map, hsilent, hsilent, Ending.state_map,
      Ending.state_map, written_withPast, written_withPast, hpast]
    exact ⟨rfl, rfl⟩

/-- **A session that was left at a question has the outcome of one that has come to the same pause**
with the commands that the other has not read. -/
theorem sameOutcome_of_question {s : Session} {a : Arrival} {rest : Script}
    (hc : (y.followedBy more).Consistent) (hy : (y.followedBy more).isFinished = false)
    (harrival : (y.followedBy more).arrival = .ok a) (hpauses : a.pauses = true)
    (hq : q ∈ (y.followedBy more).questions) (hunread : q.unread = more)
    (hbreakpoint : ∀ i, q.plain.peek = .ok i → i.opcode? ≠ some .breakpoint)
    (hs : s.begun.Cycled count front (y.followedBy rest)) :
    (⟨(q.toPatched.write (.prompt y.machine.ip)).setMode .finished, rest⟩ : Session).SameOutcome
      s := by
  have hmode : q.machine.mode = .stepping := Patched.mode_of_mem_questions hq
  refine sameOutcome_of_withPast (q.given rest).silent
    (.prompt y.machine.ip :: q.machine.transcript) q.machine.transcript count ?_ ?_ ?_
  · intro fuel
    rw [run_eq, begun_of_quit hmode, proceed_withPast]
  · intro fuel
    have hnot : (q.given rest).isFinished = false :=
      isFinished_eq_false_iff.mpr (by simp [given, hmode])
    have hsame := cycle_eq_of_question hc harrival hpauses hq hunread hbreakpoint rest
    calc s.run (count + (fuel + 1))
        = (y.followedBy rest).proceed (fuel + 1) := hs.proceed_add _
      _ = (q.given rest).proceed (fuel + 1) := proceed_congr hy hnot hsame
      _ = ((q.given rest).silent.withPast q.machine.transcript).proceed (fuel + 1) :=
        congrArg (proceed (fuel + 1)) (withPast_silent (q.given rest)).symm
      _ = _ := proceed_withPast q.machine.transcript (q.given rest).silent (fuel + 1)
  · rw [Transcript.text_cons]
    exact List.append_nil _

/-- **Quitting loses nothing.**  Let a session read a text of commands in which the command to quit
stands between two others, and let it read that command at a question.  Then its run is completed.

Unless the program has a breakpoint of its own at the instruction where the session has paused,
running it once more has the same outcome as one run with the text without the command to quit: one
of the two ends if the other does, with the same trap or none, the same machine, the same
breakpoints in the same order and the same commands left, and the two have written the same text. -/
theorem Reachable.quit_resumes {m : Machine} {history before after : List Event} {s q : Session}
    {fuel address : Nat} {first second : Text} (hs : Reachable m history s)
    (h : (s.given (Script.ofText (first ++ ";q;".toList ++ second))).log fuel =
      before ++ .asked address q :: after)
    (hq : q.unread = "q".toList :: Script.ofText second) :
    ∃ enough t, (∀ more, enough ≤ more →
        (s.given (Script.ofText (first ++ ";q;".toList ++ second))).run more = .completed t) ∧
      ((∀ i, q.plain.peek = .ok i → i.opcode? ≠ some .breakpoint) →
        t.SameOutcome (s.given (Script.ofText (first ++ ";".toList ++ second)))) := by
  rw [Script.ofText_quit] at h ⊢
  obtain ⟨count, front, x, a, pre, post, more, hx, hxf, harrival, hpauses, -, hquestions, -, -⟩ :=
    asked_in_cycle h
  have hcycle := cycle_of_quit harrival hpauses hquestions hq (by decide)
  refine ⟨count + 1, ⟨(q.toPatched.write (.prompt x.machine.ip)).setMode .finished,
    Script.ofText second⟩, ?_, ?_⟩
  · intro more hle
    obtain ⟨extra, rfl⟩ := Nat.exists_eq_add_of_le hle
    rw [run_eq, (hx.snoc hxf hcycle).proceed_add]
    exact proceed_of_finished rfl
  · intro hbreakpoint
    have hbegun : (s.given (Text.pieces Script.endsCommand first ++
        "q".toList :: Script.ofText second)).begun.Consistent := consistent_begun hs.consistent
    have hc : x.Consistent := (hx.simulates hbegun (.refl _)).1
    have hmem : q ∈ x.questions := by
      rw [hquestions]
      simp
    have hle : ("q".toList :: Script.ofText second).length ≤ x.unread.length := by
      rw [← hq]
      exact (Patched.unread_suffix_of_mem_questions hmem).length_le
    -- without the command to quit, the session comes to the same pause
    obtain ⟨y, rfl, hy⟩ := Cycled.followedBy
      (s := s.begun.given (Text.pieces Script.endsCommand first)) hx (by simp) hle
    obtain ⟨front', hfront'⟩ := hy (Script.ofText second)
    have hjoined := Script.ofText_append_cons (c := ';') rfl first second
    rw [List.append_assoc, show ";".toList ++ second = ';' :: second from rfl, hjoined]
    exact sameOutcome_of_question (y := y) hc hxf harrival hpauses hmem hq hbreakpoint hfront'

/-- A session is left at a breakpoint, which is cleared once it is taken up again.  The text that it
has written by then is that of a session which was not left. -/
theorem quit_resumes_at_breakpoint :
    let m : Machine :=
      { Machine.blank with memory := Machine.memoryOf [0x070002, 0x00000a, 0x000001] }
    let s := start m []
    let joined := s.given (Script.ofText ("b 1;r;d".toList ++ ";".toList ++ "c\nr".toList))
    ∃ enough t fuel, (∀ more, enough ≤ more →
        (s.given (Script.ofText ("b 1;r;d".toList ++ ";q;".toList ++ "c\nr".toList))).run more =
          .completed t) ∧
      (t.run fuel).isFinal = true ∧ (t.run fuel).map silent = (joined.run 8).map silent ∧
      (t.run fuel).state.written false = "prr | 0 | 0\n000007\n".toList := by
  intro m s joined
  have hasked : ((s.given (Script.ofText
      ("b 1;r;d".toList ++ ";q;".toList ++ "c\nr".toList))).log 8).any (fun e => e.casesOn
        (fun _ q => q.unread == "q".toList :: Script.ofText "c\nr".toList &&
          q.plain.peek.toOption.bind Instruction.opcode? == some .printRegister)
        fun _ _ => false) = true := by
    decide +kernel
  obtain ⟨e, hmem, he⟩ := List.any_eq_true.mp hasked
  cases e with
  | executed p i => cases he
  | asked address q =>
    simp only [Bool.and_eq_true, beq_iff_eq] at he
    obtain ⟨before, after, hlog⟩ := List.append_of_mem hmem
    obtain ⟨enough, t, ht, hsame⟩ := (Reachable.start (m := m) []).quit_resumes hlog he.1
    have hbreakpoint : ∀ i, q.plain.peek = .ok i → i.opcode? ≠ some .breakpoint := by
      intro i hi hcode
      simp [hi, hcode, Except.toOption] at he
    have houtcome := hsame hbreakpoint
    have hfinal : (joined.run 8).isFinal = true := by decide +kernel
    obtain ⟨fuel, hfuel⟩ := houtcome.ends.mpr ⟨8, hfinal⟩
    obtain ⟨hmap, hwritten⟩ := houtcome.agree fuel 8 hfuel hfinal
    refine ⟨enough, t, fuel, ht, hfuel, hmap, hwritten.trans ?_⟩
    decide +kernel

end Session
end RegisterMachine
