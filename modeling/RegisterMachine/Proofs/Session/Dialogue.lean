import RegisterMachine.Proofs.Machine.Output
import RegisterMachine.Proofs.Session.Simulation

/-! # What is read and written in a session

Each question of a pause reads one text and answers it with some lines; each instruction that is
executed prints a word or nothing.  The log of a run therefore accounts for everything that is read
and written in it (`accounts_run`): the prompts and outputs of its events, one after the other, are
what the run has written, and the texts that its questions read are the first ones of the script,
with nothing left out and the end of the script after the last of them. -/

namespace RegisterMachine

/-- The line that is reported if no breakpoint can be at an address. -/
def Breakpoints.refusal (address : Nat) : List Text :=
  if address < memorySize then [] else [(⟨address⟩ : OutOfRange).message.toList]

namespace Patched
variable {p q : Patched} {address : Nat} {t : Text} {c : Command}

/-- The lines with which a command is answered. -/
def answerTo (p : Patched) (address : Nat) : Command → List Text
  | .disassemble => [p.describe address]
  | .memory => p.dump
  | .step | .run | .quit => []
  | .setBreakpoint given | .clearBreakpoint given => Breakpoints.refusal (given.getD address)

/-- The lines with which a text is answered. -/
def reply (p : Patched) (address : Nat) (t : Text) : List Text :=
  if (Text.trim t).isEmpty then []
  else
    match Command.read (Text.trim t) with
    | .error e => [e.message.toList]
    | .ok c => p.answerTo address c

theorem reply_write (e : Entry) : (p.write e).reply address t = p.reply address t := by
  have hanswer : ∀ c, (p.write e).answerTo address c = p.answerTo address c := by
    intro c
    cases c <;> rfl
  simp only [reply, hanswer]

theorem transcript_set (p : Patched) (address : Nat) :
    (p.settle (p.set address)).machine.transcript =
      p.machine.transcript.report (Breakpoints.refusal address) := by
  by_cases hlt : address < memorySize
  · simp only [Breakpoints.refusal, set, hlt, if_true, dite_true]
    split <;> rfl
  · simp only [Breakpoints.refusal, set, hlt, if_false, dite_false]
    rfl

theorem transcript_clear (p : Patched) (address : Nat) :
    (p.settle (p.clear address)).machine.transcript =
      p.machine.transcript.report (Breakpoints.refusal address) := by
  by_cases hlt : address < memorySize
  · simp only [Breakpoints.refusal, clear, hlt, if_true, dite_true]
    by_cases hword : p.machine.word ⟨address, hlt⟩ = breakpointWord
    · rw [if_pos hword]
      split <;> rfl
    · rw [if_neg hword]
      rfl
  · simp only [Breakpoints.refusal, clear, hlt, if_false, dite_false]
    rfl

/-- **A command writes its answer.** -/
theorem transcript_obey (p : Patched) (address : Nat) (c : Command) :
    (p.obey address c).machine.transcript =
      p.machine.transcript.report (p.answerTo address c) := by
  cases c with
  | disassemble | memory | step | run | quit => rfl
  | setBreakpoint given => exact p.transcript_set _
  | clearBreakpoint given => exact p.transcript_clear _

/-- **A text writes its reply.** -/
theorem transcript_heed (p : Patched) (address : Nat) (t : Text) :
    (p.heed address t).machine.transcript = p.machine.transcript.report (p.reply address t) := by
  by_cases hblank : (Text.trim t).isEmpty = true
  · rw [heed, if_pos hblank, reply, if_pos hblank]
    rfl
  · rw [heed, if_neg hblank, reply, if_neg hblank]
    cases Command.read (Text.trim t) with
    | error e => rfl
    | ok c => exact p.transcript_obey address c

theorem ip_eq_of_unnoticed (h : p.Unnoticed q) : q.machine.ip = p.machine.ip := by
  rw [q.sameButMemory_plain.ip, p.sameButMemory_plain.ip]
  exact h.alike.ip

end Patched

/-! ## Events -/

namespace Event

/-- The prompt at which a command is asked for: the address of the next instruction, and the keys.
-/
def prompt : Event → Text
  | asked _ s => Text.paddedHex s.machine.ip ++ " [bcdmnqrs]> ".toList
  | executed _ _ => []

/-- What is written apart from prompts: the reply to the text that is read, or the word that is
printed. -/
def output : Event → Text
  | asked address s =>
    match s.unread with
    | [] => []
    | t :: _ => (s.toPatched.reply address t).flatMap (· ++ ['\n'])
  | executed p i =>
    match p.plain.effect i with
    | .ok e => e.output
    | .error _ => []

/-- All that is written, with the prompt or without. -/
def shown (prompts : Bool) (e : Event) : Text :=
  (if prompts then e.prompt else []) ++ e.output

/-- What is read: the next text of the script, or its end. -/
def read? : Event → Option (Option Text)
  | asked _ s => some s.unread.head?
  | executed _ _ => none

/-- What is read in a log, read by read. -/
def reads (log : List Event) : List (Option Text) :=
  log.filterMap read?

theorem reads_append (log log' : List Event) : reads (log ++ log') = reads log ++ reads log' :=
  List.filterMap_append

end Event

/-! ## Accounts -/

namespace Session
variable {s t u : Session} {log log' : List Event}

/-- All that has been written, with the prompts or without. -/
def written (prompts : Bool) (s : Session) : Text :=
  s.machine.transcript.text prompts

/-- **A log accounts for what has happened** between two sessions: for all that was written, and for
every text that was read. -/
structure Accounts (log : List Event) (s t : Session) : Prop where
  written : ∀ prompts, t.written prompts = s.written prompts ++ log.flatMap (Event.shown prompts)
  read : ∃ count, Event.reads log = (List.range count).map (s.unread[·]?) ∧
    t.unread = s.unread.drop count

namespace Accounts

/-- Nothing was read, and nothing was written. -/
theorem of_eq (ht : t.machine.transcript = s.machine.transcript) (hu : t.unread = s.unread) :
    Accounts [] s t where
  written prompts := by rw [Session.written, Session.written, ht, List.flatMap_nil, List.append_nil]
  read := ⟨0, rfl, by rw [hu, List.drop_zero]⟩

protected theorem trans (h : Accounts log s t) (h' : Accounts log' t u) :
    Accounts (log ++ log') s u where
  written prompts := by
    rw [h'.written, h.written, List.flatMap_append, List.append_assoc]
  read := by
    obtain ⟨count, hreads, hunread⟩ := h.read
    obtain ⟨count', hreads', hunread'⟩ := h'.read
    refine ⟨count + count', ?_, by rw [hunread', hunread, List.drop_drop]⟩
    rw [Event.reads_append, hreads, hreads', List.range_add, List.map_append, List.map_map, hunread]
    simp only [Function.comp_def, List.getElem?_drop]

end Accounts

/-! ## One cycle -/

theorem text_prompt (prompts : Bool) (s : Session) (address : Nat) (hip : s.machine.ip = address) :
    (Entry.prompt address).text prompts =
      if prompts then (Event.asked address s).prompt else [] := by
  have hkeys : " [".toList ++ (Entry.promptKeys ++ "]> ".toList) = " [bcdmnqrs]> ".toList := by
    decide
  rw [Entry.text, Event.prompt, hip, List.append_assoc, List.append_assoc, hkeys]

/-- **One question, one text**: a prompt is written, a text is read, and its reply is written. -/
theorem accounts_heed {p : Patched} {address : Nat} (text : Text) (rest : Script)
    (hip : p.machine.ip = address) :
    Accounts [.asked address ⟨p, text :: rest⟩] ⟨p, text :: rest⟩
      ⟨(p.write (.prompt address)).heed address text, rest⟩ where
  written prompts := by
    have hprompt := text_prompt prompts ⟨p, text :: rest⟩ address hip
    rw [Session.written, Patched.transcript_heed, Transcript.text_report, Patched.reply_write,
      Patched.write, Machine.write, Transcript.text_cons, hprompt, List.append_assoc,
      List.flatMap_singleton]
    rfl
  read := ⟨1, rfl, rfl⟩

/-- **A pause is accounted for by its questions.** -/
theorem accounts_converse {p : Patched} {address : Nat} (script : Script)
    (hip : p.machine.ip = address) :
    Accounts ((Patched.questions address script p).map (.asked address)) ⟨p, script⟩
      (Patched.converse address script p) := by
  induction script generalizing p with
  | nil =>
    refine ⟨fun prompts => ?_, 1, rfl, rfl⟩
    have hprompt := text_prompt prompts ⟨p, []⟩ address hip
    rw [Session.written, Patched.converse, Patched.setMode, Machine.setMode, Patched.write,
      Machine.write, Transcript.text_cons, hprompt, Patched.questions, List.map_singleton,
      List.flatMap_singleton, Event.shown, Event.output, List.append_nil]
    rfl
  | cons text rest ih =>
    have hfirst := accounts_heed text rest hip
    have hnext : ((p.write (.prompt address)).heed address text).machine.ip = address := by
      rw [Patched.ip_eq_of_unnoticed (Patched.Unnoticed.answer p address text), hip]
    rw [Patched.converse_cons, Patched.questions]
    split
    · exact hfirst
    · exact hfirst.trans (ih hnext)

theorem accounts_ready (s : Session) (a : Arrival) : Accounts (s.asks a) s (s.ready a) := by
  unfold asks ready
  split
  · have hstart : Accounts [] s s.begun := .of_eq rfl rfl
    exact hstart.trans (accounts_converse s.unread rfl)
  · exact .of_eq rfl rfl

/-- **An instruction is accounted for by the word it prints.** -/
theorem accounts_execute {i : Instruction} (h : s.execute i = .ok t) :
    Accounts [.executed s.toPatched i] s t := by
  obtain ⟨e, he, hleaves⟩ := execute_ok_cases h
  refine ⟨fun prompts => ?_, 0, rfl, by rw [hleaves.unread, List.drop_zero]⟩
  have hevent : Event.shown prompts (.executed s.toPatched i) = e.output := by
    rw [Event.shown, Event.prompt, ite_self, List.nil_append, Event.output, he]
  rw [List.flatMap_singleton, hevent, Session.written, Session.written,
    t.sameButMemory_plain.transcript, hleaves.plain, Machine.text_apply, Machine.transcript_advance,
    ← s.sameButMemory_plain.transcript]

/-- An instruction that is stopped has written nothing. -/
theorem accounts_execute_error {i : Instruction} {c : Crash Session} (h : s.execute i = .error c) :
    Accounts [] s c.state := by
  obtain ⟨fault, -, -, hleaves⟩ := execute_error_cases h
  refine .of_eq ?_ hleaves.unread
  rw [c.state.sameButMemory_plain.transcript, hleaves.plain, Machine.transcript_advance,
    ← s.sameButMemory_plain.transcript]

theorem accounts_cycle (h : s.cycle = .ok t) : Accounts s.cycleEvents s t := by
  obtain ⟨a, -, ⟨-, hevents, rfl⟩ | ⟨-, hx, hevents⟩⟩ := cycle_ok_cases h <;> rw [hevents]
  · exact s.accounts_ready a
  · exact (s.accounts_ready a).trans (accounts_execute hx)

theorem accounts_cycle_error {c : Crash Session} (h : s.cycle = .error c) :
    Accounts s.cycleEvents s c.state := by
  rcases cycle_error_cases h with ⟨-, hevents, hstate⟩ | ⟨a, -, -, hx, hevents⟩ <;> rw [hevents]
  · rw [hstate]
    exact .of_eq rfl rfl
  · have hready := (s.accounts_ready a).trans (accounts_execute_error hx)
    rwa [List.append_nil] at hready

/-! ## Whole runs -/

theorem Cycled.accounts {count : Nat} (h : s.Cycled count log t) : Accounts log s t := by
  induction h with
  | refl => exact .of_eq rfl rfl
  | snoc _ _ hcycle ih => exact ih.trans (accounts_cycle hcycle)

/-- **A run is accounted for by its log**, whether it has ended or not. -/
theorem accounts_run (s : Session) (fuel : Nat) :
    Accounts (s.log fuel) s (s.run fuel).state := by
  have hbegun : Accounts [] s s.begun := .of_eq rfl rfl
  have hproceed : Accounts (s.begun.events fuel) s.begun (s.begun.proceed fuel).state := by
    cases s.begun.run_cases fuel with
    | completed h hx hevents hproceed | outOfFuel h hx hevents hproceed =>
      rw [hevents, hproceed]
      exact h.accounts
    | crashed h hx hc hevents hproceed =>
      rw [hevents, hproceed]
      exact h.accounts.trans (accounts_cycle_error hc)
  exact hbegun.trans hproceed

end Session
end RegisterMachine
