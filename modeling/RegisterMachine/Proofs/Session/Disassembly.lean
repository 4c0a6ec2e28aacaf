import RegisterMachine.Proofs.Text.Split
import RegisterMachine.Proofs.Session.Resumption

/-! # What a disassembly foretells

At a pause, a session can be asked what the next instruction is.  It looks up the word that belongs
at the instruction pointer, while the instruction that it will execute was found when it arrived
there; in between, breakpoints may have been set and cleared at that very address.  Both are read
off the view, which no command changes, so what is said is what will be done
(`Reachable.disassembly_foretells`).

A pause of a run is found from the log (`exists_pauses`), and the questions between which nothing is
executed are those of one pause (`Pauses.mem_questions`). -/

namespace RegisterMachine

/-! ## Instructions as text -/

theorem Text.decimal_injective {m n : Nat} (h : decimal m = decimal n) : m = n := by
  rw [← Nat.ofDigitChars_ten_toDigits (n := m), ← Nat.ofDigitChars_ten_toDigits (n := n)]
  exact congrArg _ h

/-- A number before a blank can be told from the text. -/
theorem Text.decimal_append_inj {m n : Nat} {t u : Text}
    (h : decimal m ++ ' ' :: t = decimal n ++ ' ' :: u) : m = n := by
  have hfree : ∀ k, ∀ c ∈ decimal k, (c == ' ') = false := by
    intro k c hc
    have hdigit := Nat.isDigit_of_mem_toDigits (by decide) (by decide) hc
    rw [beq_eq_false_iff_ne]
    rintro rfl
    cases hdigit
  have hpieces := congrArg (pieces (· == ' ')) h
  rw [pieces_append_cons (hfree m) rfl, pieces_append_cons (hfree n) rfl] at hpieces
  exact decimal_injective (List.cons.inj hpieces).1

/-- **The text of a word that is to be executed at an address**: the mnemonic and the operands, or
that no operation has its code. -/
inductive Disassembles (address : Nat) (w : Word) : Text → Prop
  | known {o : Opcode} (h : (Instruction.decode w).opcode? = some o) :
      Disassembles address w (o.mnemonic ++ " | ".toList ++
        Text.decimal (Instruction.decode w).first.toNat ++ " | ".toList ++
        Text.decimal (Instruction.decode w).second.toNat)
  | unknown (h : (Instruction.decode w).opcode? = none) :
      Disassembles address w ("Unknown op code ".toList ++
        Text.decimal (Instruction.decode w).code.toNat ++ " at ".toList ++ Text.paddedHex address)

/-- A mnemonic is the first three letters of a text that starts with it. -/
theorem Opcode.mnemonic_eq_take {o : Opcode} {rest t : Text} (h : o.mnemonic ++ rest = t) :
    o.mnemonic = t.take 3 := by
  have hlength : o.mnemonic.length = 3 := by cases o <;> rfl
  rw [← h, List.take_left' hlength]

namespace Disassembles
variable {address : Nat} {w : Word} {line : Text}

/-- No mnemonic starts like the text for an unknown operation. -/
theorem opcode?_of_unknown (h : Disassembles address w line) {n : Nat} {tail : Text}
    (hline : line = "Unknown op code ".toList ++ Text.decimal n ++ " at ".toList ++ tail) :
    (Instruction.decode w).opcode? = none ∧ (Instruction.decode w).code.toNat = n := by
  cases h with
  | @known o ho =>
    simp only [List.append_assoc] at hline
    have hnone : Opcode.ofMnemonic? o.mnemonic = none := by
      rw [Opcode.mnemonic_eq_take hline]
      rfl
    rw [Opcode.ofMnemonic?_mnemonic] at hnone
    cases hnone
  | unknown ho =>
    refine ⟨ho, ?_⟩
    simp only [List.append_assoc] at hline
    exact Text.decimal_append_inj (List.append_cancel_left hline)

/-- Only the text for a breakpoint starts with its mnemonic. -/
theorem opcode?_of_breakpoint (h : Disassembles address w line)
    (hline : Opcode.breakpoint.mnemonic <+: line) :
    (Instruction.decode w).opcode? = some .breakpoint := by
  obtain ⟨tail, htail⟩ := hline
  have hbrk := Opcode.mnemonic_eq_take htail
  cases h with
  | @known o ho =>
    simp only [List.append_assoc] at hbrk
    rw [← Opcode.mnemonic_eq_take rfl] at hbrk
    rw [ho, ← Opcode.ofMnemonic?_mnemonic o, ← hbrk, Opcode.ofMnemonic?_mnemonic]
  | unknown ho => cases hbrk

end Disassembles

/-- What is said at an address is the text of the word that belongs there. -/
theorem Patched.disassembles_describe {p : Patched} {address : Nat} {w : Word}
    (h : p.view? address = some w) : Disassembles address w (p.describe address) := by
  simp only [describe, h, Option.getD_some, Instruction.describe?]
  cases ho : (Instruction.decode w).opcode? with
  | none => exact .unknown ho
  | some o => exact .known ho

/-! ## The pauses of a run -/

namespace Session
variable {s x q r : Session} {fuel left address : Nat} {front before after rest : List Event}
  {a : Arrival}

/-- More fuel adds to what happens. -/
theorem events_isPrefix (s : Session) (fuel more : Nat) :
    s.events fuel <+: s.events (fuel + more) := by
  induction fuel generalizing s with
  | zero => exact List.nil_prefix
  | succ fuel ih =>
    rw [Nat.add_right_comm]
    cases hs : s.isFinished with
    | true => simp [events_of_finished hs]
    | false =>
      cases hc : s.cycle with
      | error c => simp [events_succ_of_error hs hc]
      | ok t =>
        rw [events_succ_of_ok hs hc, events_succ_of_ok hs hc]
        exact (List.prefix_append_right_inj _).mpr (ih t)

/-- A session that is not finished has come from an executed instruction, if from anything. -/
theorem Cycled.front_cases {count : Nat} (h : s.Cycled count front x) (hx : x.isFinished = false) :
    front = [] ∨ ∃ others p i, front = others ++ [.executed p i] := by
  cases h with
  | refl => exact .inl rfl
  | @snoc count front y x h hy hcycle =>
    obtain ⟨a, -, ⟨hfinished, -, rfl⟩ | ⟨-, -, hevents⟩⟩ := cycle_ok_cases hcycle
    · rw [hfinished] at hx
      cases hx
    · exact .inr ⟨front ++ y.asks a, _, _, by rw [hevents, List.append_assoc]⟩

/-- **A pause of a run**: after cycles in which the events `front` happened, there is fuel for one
more, which pauses. -/
structure Pauses (s : Session) (fuel : Nat) (front : List Event) (x : Session) (a : Arrival)
    (left : Nat) : Prop where
  cycled : ∃ count, s.Cycled count front x ∧ fuel = count + (left + 1)
  unfinished : x.isFinished = false
  arrival : x.arrival = .ok a
  pauses : a.pauses = true

/-- **Every question of a run is one of a pause of it.** -/
theorem exists_pauses (h : s.events fuel = before ++ .asked address q :: after) :
    ∃ front x a left pre post, s.Pauses fuel front x a left ∧ address = x.machine.ip ∧
      x.questions = pre ++ q :: post ∧ before = front ++ pre.map (.asked x.machine.ip) := by
  obtain ⟨count, front, x, a, pre, post, -, hx, hfin, harrival, hpauses, haddress, hquestions,
    rfl, -⟩ := asked_in_cycle h
  -- with less fuel, there would be no more events than before the pause
  have hlt : count < fuel := by
    by_contra hge
    obtain ⟨more, rfl⟩ := Nat.exists_eq_add_of_le (Nat.not_lt.mp hge)
    have hle := (s.events_isPrefix fuel more).length_le
    rw [h, ← Nat.add_zero (fuel + more), hx.events_add 0, events_zero] at hle
    simp at hle
  obtain ⟨left, rfl⟩ := Nat.exists_eq_add_of_lt hlt
  exact ⟨front, x, a, left, pre, post, ⟨⟨count, hx, rfl⟩, hfin, harrival, hpauses⟩, haddress,
    hquestions, rfl⟩

namespace Pauses

theorem events_eq (h : s.Pauses fuel front x a left) :
    s.events fuel = front ++ x.events (left + 1) := by
  obtain ⟨count, hx, rfl⟩ := h.cycled
  exact hx.events_add (left + 1)

theorem proceed_eq (h : s.Pauses fuel front x a left) :
    s.proceed fuel = x.proceed (left + 1) := by
  obtain ⟨count, hx, rfl⟩ := h.cycled
  exact hx.proceed_add (left + 1)

theorem asks_eq (h : s.Pauses fuel front x a left) :
    x.asks a = x.questions.map (.asked x.machine.ip) := by
  rw [asks, if_pos h.pauses]

theorem ready_eq (h : s.Pauses fuel front x a left) : x.ready a = x.pause := by
  rw [ready, if_pos h.pauses]

/-- **Questions between which nothing is executed belong to one pause.** -/
theorem mem_questions (h : s.Pauses fuel front x a left) {pre post : List Session}
    {between : List Event} (hquestions : x.questions = pre ++ r :: post)
    (hbefore : before ++ between = front ++ pre.map (.asked x.machine.ip))
    (hbetween : ∀ e ∈ between, e.isExecution = false)
    (hq : .asked address q ∈ between ++ [.asked x.machine.ip r]) :
    address = x.machine.ip ∧ q ∈ x.questions := by
  obtain ⟨count, hx, -⟩ := h.cycled
  -- what happened before the pause ends with an execution, so it is no part of `between`
  have hpart : ∀ e ∈ between, e ∈ pre.map (.asked x.machine.ip) := by
    rcases List.append_eq_append_iff.mp hbefore with ⟨early, hfront, hpre⟩ | ⟨early, -, hpre⟩
    · rcases List.eq_nil_or_concat early with rfl | ⟨others, e, rfl⟩
      · rw [hpre]
        exact fun e he => he
      · rcases hx.front_cases h.unfinished with hnil | ⟨earlier, p, i, hlast⟩
        · rw [hnil] at hfront
          simp at hfront
        · rw [hlast, List.concat_eq_append, ← List.append_assoc] at hfront
          obtain rfl : .executed p i = e := by simpa using congrArg List.getLast? hfront
          have hnone := hbetween (.executed p i) (by simp [hpre])
          cases hnone
    · intro e he
      rw [hpre]
      exact List.mem_append_right _ he
  have hmem : .asked address q ∈ x.questions.map (Event.asked x.machine.ip) := by
    rw [hquestions, List.map_append, List.map_cons]
    rcases List.mem_append.mp hq with hq | hq
    · exact List.mem_append_left _ (hpart _ hq)
    · rw [List.mem_singleton.mp hq]
      simp
  obtain ⟨q', hq', heq⟩ := List.mem_map.mp hmem
  cases heq
  exact ⟨rfl, hq'⟩

end Pauses

/-! ## One pause -/

/-- The command that a session reads next, if what it reads is one. -/
def nextCommand? (s : Session) : Option Command :=
  s.unread.head?.bind Command.ofText?

/-- What a session reads next lets execution go on. -/
def GoesOn (s : Session) : Prop :=
  s.nextCommand? = some .step ∨ s.nextCommand? = some .run

theorem nextCommand?_eq_some_iff {c : Command} :
    s.nextCommand? = some c ↔ ∃ t rest, s.unread = t :: rest ∧ Command.ofText? t = some c := by
  unfold nextCommand?
  cases s.unread <;> simp

theorem GoesOn.exists_text (h : s.GoesOn) :
    ∃ c t rest, s.unread = t :: rest ∧ Command.ofText? t = some c ∧ c.resumes = true ∧
      c ≠ .quit := by
  rcases h with h | h
  all_goals
    obtain ⟨t, rest, hunread, ht⟩ := nextCommand?_eq_some_iff.mp h
    exact ⟨_, t, rest, hunread, ht, rfl, by simp⟩

end Session

/-- A text that does not end a pause leads to the next question. -/
theorem Patched.questions_next {p : Patched} {address : Nat} {script rest : Script} {t : Text}
    {before after : List Session} {q : Session}
    (h : questions address script p = before ++ q :: after) (hq : q.unread = t :: rest)
    (ht : Command.endsPause t = false) :
    ∃ others, after =
      ⟨(q.toPatched.write (.prompt address)).heed address t, rest⟩ :: others := by
  induction script generalizing p before with
  | nil =>
    cases before with
    | nil =>
      cases h
      cases hq
    | cons b before => simp [questions] at h
  | cons u script ih =>
    simp only [questions] at h
    cases before with
    | nil =>
      obtain ⟨rfl, rfl⟩ := List.cons.inj h
      cases hq
      rw [ht, if_neg Bool.false_ne_true]
      exact List.head?_eq_some_iff.mp (head?_questions _ _ _)
    | cons b before =>
      obtain ⟨-, htail⟩ := List.cons.inj h
      split at htail
      · simp at htail
      · exact ih htail

namespace Session

/-- **What comes when execution goes on** from a session: its instruction is executed, or stops the
run. -/
inductive Carries (s : Session) (i : Instruction) (ending : Ending Session) (rest : List Event) :
    Prop
  | executed {p : Patched} {others : List Event} {e : Effect}
      (hrest : rest = .executed p i :: others) (halike : p.plain.Alike s.plain)
      (heffect : s.plain.effect i = .ok e)
  | stopped {c : Crash Session} {fault : Fault} (hrest : rest = []) (hending : ending = .crashed c)
      (htrap : c.trap = ⟨s.machine.ip, fault⟩) (heffect : s.plain.effect i = .error fault)

variable {s x q r : Session} {fuel left : Nat} {front before rest : List Event} {a : Arrival}
  {pre post : List Session}

/-- An instruction that cannot be executed stops the run with its fault. -/
theorem Carries.crashed {i : Instruction} {ending : Ending Session} {fault : Fault}
    (h : s.Carries i ending rest) (hfault : s.plain.effect i = .error fault) :
    ∃ c, ending = .crashed c ∧ c.trap = ⟨s.machine.ip, fault⟩ := by
  cases h with
  | executed _ _ heffect =>
    rw [hfault] at heffect
    cases heffect
  | @stopped c fault' _ hending htrap heffect =>
    obtain rfl : fault = fault' := Except.error.inj (hfault.symm.trans heffect)
    exact ⟨c, hending, htrap⟩

namespace Pauses

theorem consistent (h : s.Pauses fuel front x a left) (hc : s.Consistent) : x.Consistent := by
  obtain ⟨count, hx, -⟩ := h.cycled
  exact (hx.simulates hc (.refl _)).1

/-- **The word that belongs at a pause** is the same at all its questions, and the instruction that
was found on arrival is that word. -/
theorem exists_word (h : s.Pauses fuel front x a left) (hc : x.Consistent) :
    ∃ w, a.instruction = Instruction.decode w ∧ ∀ q ∈ x.questions, q.machine.ip = x.machine.ip ∧
      q.view? x.machine.ip = some w := by
  have hpeek := (Patched.of_arrival hc h.arrival).1
  have hlt : x.plain.ip < memorySize := by
    by_contra hge
    rw [Machine.peek_of_le (Nat.not_lt.mp hge)] at hpeek
    cases hpeek
  rw [Machine.peek_of_lt hlt] at hpeek
  refine ⟨x.plain.word ⟨x.plain.ip, hlt⟩, (Except.ok.inj hpeek).symm, fun q hq => ?_⟩
  have hunnoticed := unnoticed_question hq
  have hip : x.machine.ip = x.plain.ip := x.toPatched.sameButMemory_plain.ip
  refine ⟨Patched.ip_eq_of_unnoticed hunnoticed, ?_⟩
  rw [hip, ← q.toPatched.plain_word? ⟨x.plain.ip, hlt⟩, Machine.word?_eq, hunnoticed.alike.word]

/-- What comes after a question of a pause: the questions after it, and what is executed then. -/
theorem rest_eq (h : s.Pauses fuel front x a left) (hquestions : x.questions = pre ++ r :: post)
    (hrest : s.events fuel =
      front ++ pre.map (.asked x.machine.ip) ++ .asked x.machine.ip r :: rest) :
    ∃ others, rest = post.map (.asked x.machine.ip) ++ others ∧
      x.events (left + 1) = x.asks a ++ others := by
  obtain ⟨tail, htail, -⟩ := cycleEvents_eq_of_arrival h.arrival
  obtain ⟨later, hlater⟩ := events_succ_eq h.unfinished left
  have hall : x.events (left + 1) = x.asks a ++ (tail ++ later) := by
    rw [hlater, htail, List.append_assoc]
  refine ⟨tail ++ later, ?_, hall⟩
  rw [h.events_eq, hall, h.asks_eq, hquestions] at hrest
  simpa [List.append_assoc] using hrest.symm

/-- A question at which the session reads a command that ends no pause is followed by another. -/
theorem rest_of_stays (h : s.Pauses fuel front x a left)
    (hquestions : x.questions = pre ++ r :: post)
    (hrest : s.events fuel =
      front ++ pre.map (.asked x.machine.ip) ++ .asked x.machine.ip r :: rest)
    {c : Command} (hr : r.nextCommand? = some c) (hc : c.resumes = false) :
    ∃ others, rest =
      .asked x.machine.ip ⟨(r.toPatched.write (.prompt x.machine.ip)).obey x.machine.ip c,
        r.unread.tail⟩ :: others := by
  obtain ⟨t, unread, hunread, ht⟩ := nextCommand?_eq_some_iff.mp hr
  have hends : Command.endsPause t = false := by simp [Command.endsPause, ht, hc]
  obtain ⟨others, rfl⟩ := Patched.questions_next hquestions hunread hends
  obtain ⟨later, rfl, -⟩ := h.rest_eq hquestions hrest
  rw [Patched.heed_of_command ht, hunread]
  exact ⟨_, rfl⟩

/-- Told to go on, a session is ready to execute, and the program has not noticed. -/
theorem ready_of_goesOn (h : s.Pauses fuel front x a left)
    (hquestions : x.questions = pre ++ r :: post) (hr : r.GoesOn) :
    post = [] ∧ (x.ready a).isFinished = false ∧ (x.ready a).plain.Alike r.plain := by
  obtain ⟨c, t, unread, hunread, ht, hresumes, hquit⟩ := hr.exists_text
  have hends : Command.endsPause t = true := by simp [Command.endsPause, ht, hresumes]
  obtain ⟨hpost, hconverse⟩ := Patched.converse_of_endsPause hquestions hunread hends
  rw [Patched.heed_of_command ht] at hconverse
  have hready : x.ready a =
      ⟨(r.toPatched.write (.prompt x.machine.ip)).obey x.machine.ip c, unread⟩ :=
    h.ready_eq.trans hconverse
  have hmode : r.machine.mode = .stepping :=
    Patched.mode_of_mem_questions (p := x.toPatched.setMode .stepping)
      (hquestions ▸ List.mem_append_right pre List.mem_cons_self)
  rw [hready]
  refine ⟨hpost, isFinished_eq_false_iff.mpr (Patched.mode_obey_ne_finished ?_ hquit), ?_⟩
  · show r.machine.mode ≠ .finished
    simp [hmode]
  · exact ((Patched.Unnoticed.write r.toPatched rfl).trans (Patched.Unnoticed.obey _ _ c)).alike

/-- **After a question at which the session is told to go on**, the instruction that was found on
arrival is executed, or stops the run. -/
theorem rest_of_goesOn (h : s.Pauses fuel front x a left)
    (hquestions : x.questions = pre ++ r :: post)
    (hrest : s.events fuel =
      front ++ pre.map (.asked x.machine.ip) ++ .asked x.machine.ip r :: rest)
    (hr : r.GoesOn) :
    r.Carries a.instruction (s.proceed fuel) rest := by
  obtain ⟨rfl, hrunning, halike⟩ := h.ready_of_goesOn hquestions hr
  obtain ⟨others, hothers, hevents⟩ := h.rest_eq hquestions hrest
  rw [List.map_nil, List.nil_append] at hothers
  subst hothers
  cases hcycle : x.cycle with
  | ok y =>
    obtain ⟨a', harrival, hcase⟩ := cycle_ok_cases hcycle
    obtain rfl : a = a' := Except.ok.inj (h.arrival.symm.trans harrival)
    rcases hcase with ⟨hfinished, -⟩ | ⟨-, hx, hcycleEvents⟩
    · rw [hrunning] at hfinished
      cases hfinished
    · obtain ⟨e, heffect, -⟩ := execute_ok_cases hx
      rw [events_succ_of_ok h.unfinished hcycle, hcycleEvents, List.append_assoc] at hevents
      rw [halike.effect] at heffect
      exact .executed (List.append_cancel_left hevents).symm halike heffect
  | error c =>
    rcases cycle_error_cases hcycle with ⟨harrival, -⟩ | ⟨a', harrival, -, hx, hcycleEvents⟩
    · rw [h.arrival] at harrival
      cases harrival
    · obtain rfl : a = a' := Except.ok.inj (h.arrival.symm.trans harrival)
      rw [events_succ_of_error h.unfinished hcycle, hcycleEvents] at hevents
      obtain ⟨fault, heffect, htrap, -⟩ := execute_error_cases hx
      have hending : s.proceed fuel = .crashed c := by
        rw [h.proceed_eq, proceed_succ_of_error h.unfinished hcycle]
      rw [(x.ready a).toPatched.sameButMemory_plain.ip, halike.ip,
        ← r.toPatched.sameButMemory_plain.ip] at htrap
      rw [halike.effect] at heffect
      exact .stopped (List.self_eq_append_right.mp hevents) hending htrap heffect

end Pauses

/-! ## What is said is what will be done -/

/-- **What the text of a word foretells** at a question at its address, of a run of which the given
events are still to come: the command to disassemble is answered with that text, the command to step
or to run is followed by the instruction of that word, and the run is stopped there if the text says
that the word is none, or a breakpoint. -/
structure Foretells (s : Session) (fuel address : Nat) (w : Word) (line : Text) (r : Session)
    (rest : List Event) : Prop where
  pointer : r.machine.ip = address
  view : r.view? address = some w
  shown : r.nextCommand? = some .disassemble → ∃ others, rest = .asked address
    ⟨(r.toPatched.write (.prompt address)).write (.line line), r.unread.tail⟩ :: others
  executed : r.GoesOn → r.Carries (Instruction.decode w) (s.run fuel) rest
  unknown : ∀ n tail,
    line = "Unknown op code ".toList ++ Text.decimal n ++ " at ".toList ++ tail → r.GoesOn →
      ∃ c code, s.run fuel = .crashed c ∧ c.trap = ⟨address, .unknownOpcode code⟩ ∧ code.toNat = n
  breakpoint : Opcode.breakpoint.mnemonic <+: line → r.GoesOn →
    ∃ c, s.run fuel = .crashed c ∧ c.trap = ⟨address, .unexpectedBreakpoint⟩

/-- The text of the word at a pause foretells what comes after each of its questions. -/
theorem Pauses.foretells {w : Word} {line : Text} (h : s.begun.Pauses fuel front x a left)
    (hquestions : x.questions = pre ++ r :: post)
    (hrest : s.log fuel =
      front ++ pre.map (.asked x.machine.ip) ++ .asked x.machine.ip r :: rest)
    (hip : r.machine.ip = x.machine.ip) (hview : r.view? x.machine.ip = some w)
    (hinstruction : a.instruction = Instruction.decode w)
    (hline : r.describe x.machine.ip = line) :
    s.Foretells fuel x.machine.ip w line r rest := by
  have hcarries := h.rest_of_goesOn hquestions hrest
  rw [hinstruction] at hcarries
  have hdisassembles : Disassembles x.machine.ip w line :=
    hline ▸ Patched.disassembles_describe hview
  refine ⟨hip, hview, fun hr => ?_, hcarries, fun n tail hunknown hr => ?_, fun hbrk hr => ?_⟩
  · obtain ⟨others, rfl⟩ := h.rest_of_stays hquestions hrest hr rfl
    refine ⟨others, ?_⟩
    rw [← hline]
    rfl
  · obtain ⟨hopcode, hcode⟩ := hdisassembles.opcode?_of_unknown hunknown
    have hfault : r.plain.effect (Instruction.decode w) =
        .error (.unknownOpcode (Instruction.decode w).code) := by
      simp only [Machine.effect, hopcode]
    obtain ⟨c, hrun, htrap⟩ := (hcarries hr).crashed hfault
    exact ⟨c, _, hrun, hip ▸ htrap, hcode⟩
  · have hfault : r.plain.effect (Instruction.decode w) = .error .unexpectedBreakpoint := by
      simp only [Machine.effect, hdisassembles.opcode?_of_breakpoint hbrk, Machine.perform]
    rw [← hip]
    exact (hcarries hr).crashed hfault

/-- **What is said at a pause is what will be done.**  Let a run of a session that can be reached
ask for a command at an address.  There is a word with a text that foretells what comes at this
question and at every later one before the next instruction, whatever has been said at the questions
in between: it is the word that belongs there, whether or not a breakpoint is set, the command to
disassemble is answered with its text, and the command to step or to run executes it. -/
theorem Reachable.disassembly_foretells {m : Machine} {history after : List Event} {address : Nat}
    (hs : Reachable m history s) (h : s.log fuel = before ++ .asked address q :: after) :
    ∃ w line, Disassembles address w line ∧
      ∀ between next r rest, .asked address q :: after = between ++ .asked next r :: rest →
        (∀ e ∈ between, e.isExecution = false) →
        next = address ∧ s.Foretells fuel address w line r rest := by
  have hconsistent : s.begun.Consistent := consistent_begun hs.consistent
  obtain ⟨front, x, a, left, pre, post, hp, rfl, hquestions, -⟩ := exists_pauses h
  obtain ⟨w, -, hwords⟩ := hp.exists_word (hp.consistent hconsistent)
  have hq := (hwords q (by simp [hquestions])).2
  refine ⟨w, _, Patched.disassembles_describe hq, fun between next r rest hlater hnone => ?_⟩
  have hlog : s.log fuel = before ++ between ++ .asked next r :: rest := by
    rw [h, hlater, List.append_assoc]
  -- the later question may be of another pause, as far as its own place in the log says
  obtain ⟨front', x', a', left', pre', post', hp', rfl, hquestions', hbefore⟩ := exists_pauses hlog
  have hmem : .asked x.machine.ip q ∈ between ++ [.asked x'.machine.ip r] := by
    cases between <;> simp [(List.cons.inj hlater).1]
  obtain ⟨haddress, hmem'⟩ := hp'.mem_questions hquestions' hbefore hnone hmem
  obtain ⟨w', hinstruction, hwords'⟩ := hp'.exists_word (hp'.consistent hconsistent)
  obtain ⟨hip, hr⟩ := hwords' r (by simp [hquestions'])
  rw [haddress] at hq ⊢
  obtain rfl : w = w' := Option.some.inj (hq.symm.trans (hwords' q hmem').2)
  rw [hbefore] at hlog
  refine ⟨rfl, hp'.foretells hquestions' hlog hip hr hinstruction ?_⟩
  simp only [Patched.describe, hr, hq]

/-- A program stores the breakpoint word where a breakpoint is set, which is then cleared.  What is
said there is that the program has a breakpoint of its own, and stepping stops at it. -/
theorem disassembly_foretells_own_breakpoint :
    let m : Machine :=
      { Machine.blank with memory := Machine.memoryOf [0x0c0002, 0x030102, 0x010005, 0x000001] }
    let s := start m (Script.ofText "b 3;r;c;d;s".toList)
    ∃ before q r others c, s.log 8 = before ++ .asked 3 q :: .asked 3 r :: others ∧
      r.machine.transcript.head? = some (.line "brk | 0 | 0".toList) ∧
      s.run 8 = .crashed c ∧ c.trap = ⟨3, .unexpectedBreakpoint⟩ := by
  intro m s
  have hasked : (s.log 8).any (fun e => e.casesOn
      (fun address q => address == 3 && q.unread == Script.ofText "d;s".toList &&
        q.view? 3 == some breakpointWord) fun _ _ => false) = true := by
    decide +kernel
  obtain ⟨e, hmem, he⟩ := List.any_eq_true.mp hasked
  cases e with
  | executed p i => cases he
  | asked address q =>
    simp only [Bool.and_eq_true, beq_iff_eq] at he
    obtain ⟨⟨rfl, hunread⟩, hview⟩ := he
    obtain ⟨before, after, hlog⟩ := List.append_of_mem hmem
    obtain ⟨w, line, hline, hall⟩ := (Reachable.start (m := m) _).disassembly_foretells hlog
    obtain ⟨-, hq⟩ := hall [] 3 q after rfl (by simp)
    obtain rfl : w = breakpointWord := Option.some.inj (hq.view.symm.trans hview)
    obtain ⟨others, rfl⟩ := hq.shown (by rw [nextCommand?, hunread]; decide +kernel)
    obtain ⟨-, hr⟩ := hall [.asked 3 q] 3 _ others rfl (by simp [Event.isExecution])
    have hbrk : line = "brk | 0 | 0".toList := by
      cases hline with
      | @known o ho =>
        obtain rfl : o = .breakpoint := Option.some.inj (ho.symm.trans (by decide))
        decide
      | unknown ho => cases ho
    have hstep : q.unread.tail.head?.bind Command.ofText? = some .step := by
      rw [hunread]
      decide +kernel
    obtain ⟨c, hrun, htrap⟩ := hr.breakpoint (hbrk ▸ by decide) (.inl hstep)
    exact ⟨before, q, _, others, c, hlog, by rw [hbrk]; rfl, hrun, htrap⟩

end Session
end RegisterMachine
