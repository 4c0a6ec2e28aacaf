import RegisterMachine.Session.Run
import RegisterMachine.Proofs.Breakpoint.Consistent

/-! # Pauses

A pause is a list of questions: at each of them the session asks for a command, reads one text, and
does what the text says.  A text that resumes execution ends the pause, and so does the end of the
script.

Nothing that happens at a pause is noticed by the program: the view, the registers, the instruction
pointer and the words printed are the same at every question and when the pause is over
(`Unnoticed.questions`, `Unnoticed.converse`). -/

namespace RegisterMachine

/-- The command that a text stands for, if it stands for one. -/
def Command.ofText? (t : Text) : Option Command :=
  (Command.read (Text.trim t)).toOption

/-- Whether a text ends a pause. -/
def Command.endsPause (t : Text) : Bool :=
  (Command.ofText? t).any Command.resumes

theorem Command.ofText?_eq_some_iff {t : Text} {c : Command} :
    Command.ofText? t = some c ↔ Command.read (Text.trim t) = .ok c := by
  unfold Command.ofText?
  cases Command.read (Text.trim t) <;> simp [Except.toOption]

theorem Command.ofText?_of_isEmpty {t : Text} (h : (Text.trim t).isEmpty = true) :
    Command.ofText? t = none := by
  rw [Command.ofText?, List.isEmpty_iff.mp h]
  rfl

namespace Patched

/-- Does what a text says: nothing if it is blank, a report if it is no command. -/
def heed (p : Patched) (address : Nat) (t : Text) : Patched :=
  if (Text.trim t).isEmpty then p
  else
    match Command.read (Text.trim t) with
    | .error e => p.write (.line e.message.toList)
    | .ok c => p.obey address c

/-- The session at each question of a pause, just before it asks. -/
def questions (address : Nat) : Script → Patched → List Session
  | [], p => [{ toPatched := p, unread := [] }]
  | t :: rest, p =>
    { toPatched := p, unread := t :: rest } ::
      if Command.endsPause t then []
      else questions address rest ((p.write (.prompt address)).heed address t)

variable {p q : Patched} {address : Nat} {t : Text} {c : Command}

theorem heed_of_command (h : Command.ofText? t = some c) : p.heed address t = p.obey address c := by
  have hread := Command.ofText?_eq_some_iff.mp h
  have hne : (Text.trim t).isEmpty = false := by
    cases he : (Text.trim t).isEmpty with
    | false => rfl
    | true =>
      rw [Command.ofText?_of_isEmpty he] at h
      cases h
  simp [heed, hne, hread]

/-- A text that is no command leaves everything but the transcript. -/
theorem heed_of_no_command (p : Patched) (address : Nat) (h : Command.ofText? t = none) :
    p.heed address t = p ∨ ∃ line, p.heed address t = p.write (.line line) := by
  unfold heed
  split
  · exact .inl rfl
  · split
    · exact .inr ⟨_, rfl⟩
    · rename_i hread
      rw [Command.ofText?_eq_some_iff.mpr hread] at h
      cases h

/-- One question of a pause: ask, read, do what the text says. -/
theorem converse_cons (address : Nat) (t : Text) (rest : Script) (p : Patched) :
    converse address (t :: rest) p =
      if Command.endsPause t then
        { toPatched := (p.write (.prompt address)).heed address t, unread := rest }
      else converse address rest ((p.write (.prompt address)).heed address t) := by
  rw [converse]
  by_cases hblank : (Text.trim t).isEmpty = true
  · simp [hblank, heed, Command.endsPause, Command.ofText?_of_isEmpty hblank]
  · cases hread : Command.read (Text.trim t) with
    | error e => simp [hblank, heed, hread, Command.endsPause, Command.ofText?, Except.toOption]
    | ok c => simp [hblank, heed, hread, Command.endsPause, Command.ofText?, Except.toOption]

/-- The first question is put to the session as it comes. -/
theorem head?_questions (address : Nat) (script : Script) (p : Patched) :
    (questions address script p).head? = some { toPatched := p, unread := script } := by
  cases script <;> rfl

/-! ## Commands do not show -/

/-- Machines that are alike in memory as it is, under the same table, are alike in the view. -/
theorem alike_plain (hb : q.breakpoints = p.breakpoints) (hm : q.machine.Alike p.machine) :
    q.plain.Alike p.plain := by
  have hmemory : q.plain.memory = p.plain.memory := by
    refine Machine.memory_ext fun a => ?_
    rw [plain_word, plain_word, hb, hm.word]
  refine ⟨hmemory, ?_, ?_, ?_⟩
  · rw [← q.sameButMemory_plain.ip, ← p.sameButMemory_plain.ip, hm.ip]
  · rw [plain_registers, plain_registers, hm.registers]
  · rw [← q.sameButMemory_plain.transcript, ← p.sameButMemory_plain.transcript, hm.printed]

/-- **A patched machine becomes another without the program noticing**: the view is alike, and
memory and table still agree. -/
structure Unnoticed (p q : Patched) : Prop where
  alike : q.plain.Alike p.plain
  consistent : p.Consistent → q.Consistent

namespace Unnoticed
variable {r : Patched}

protected theorem refl (p : Patched) : p.Unnoticed p := ⟨.refl _, id⟩

protected theorem trans (h : p.Unnoticed q) (h' : q.Unnoticed r) : p.Unnoticed r :=
  ⟨h'.alike.trans h.alike, h'.consistent ∘ h.consistent⟩

/-- Only mode and transcript are different, and nothing was printed. -/
theorem of_alike (hb : q.breakpoints = p.breakpoints) (hm : q.machine.Alike p.machine) :
    p.Unnoticed q :=
  ⟨alike_plain hb hm, fun hc => hc.congr hm.memory hb⟩

theorem setMode (p : Patched) (mode : Mode) : p.Unnoticed (p.setMode mode) :=
  of_alike rfl ⟨rfl, rfl, rfl, rfl⟩

theorem write (p : Patched) {e : Entry} (he : e.printed? = none) : p.Unnoticed (p.write e) := by
  refine of_alike rfl ⟨rfl, rfl, rfl, ?_⟩
  simp [Patched.write, Machine.write, Transcript.printed_cons, he]

theorem writeDump (p : Patched) : p.Unnoticed p.writeDump :=
  of_alike rfl ⟨rfl, rfl, rfl, Transcript.printed_report _ _⟩

theorem set (p : Patched) (address : Nat) : p.Unnoticed (p.settle (p.set address)) := by
  cases h : p.set address with
  | error e => exact write p rfl
  | ok result =>
    refine ⟨?_, fun hc => hc.set h⟩
    simp only [settle, plain_of_set h]
    exact .refl _

theorem clear (p : Patched) (address : Nat) : p.Unnoticed (p.settle (p.clear address)) := by
  cases h : p.clear address with
  | error e => exact write p rfl
  | ok result =>
    refine ⟨?_, fun hc => hc.clear h⟩
    simp only [settle, plain_of_clear h]
    exact .refl _

theorem obey (p : Patched) (address : Nat) (c : Command) : p.Unnoticed (p.obey address c) := by
  cases c with
  | disassemble => exact write p rfl
  | memory => exact writeDump p
  | step => exact .refl p
  | run => exact setMode p _
  | quit => exact setMode p _
  | setBreakpoint given => exact set p _
  | clearBreakpoint given => exact clear p _

theorem heed (p : Patched) (address : Nat) (t : Text) : p.Unnoticed (p.heed address t) := by
  cases h : Command.ofText? t with
  | some c =>
    rw [heed_of_command h]
    exact obey p address c
  | none =>
    rcases heed_of_no_command p address h with he | ⟨line, he⟩
    · rw [he]
      exact .refl p
    · rw [he]
      exact write p rfl

/-- One question, one text. -/
theorem answer (p : Patched) (address : Nat) (t : Text) :
    p.Unnoticed ((p.write (.prompt address)).heed address t) :=
  (write p rfl).trans (heed _ address t)

/-- **No question of a pause is noticed by the program.** -/
theorem questions {script : Script} {s : Session} (h : s ∈ questions address script p) :
    p.Unnoticed s.toPatched := by
  induction script generalizing p with
  | nil =>
    simp only [Patched.questions, List.mem_singleton] at h
    rw [h]
    exact .refl p
  | cons t rest ih =>
    simp only [Patched.questions, List.mem_cons] at h
    rcases h with rfl | h
    · exact .refl p
    · split at h
      · cases h
      · exact (answer p address t).trans (ih h)

/-- **No pause is noticed by the program.** -/
theorem converse (address : Nat) (script : Script) (p : Patched) :
    p.Unnoticed (converse address script p).toPatched := by
  induction script generalizing p with
  | nil => exact (write p rfl).trans (setMode _ _)
  | cons t rest ih =>
    rw [converse_cons]
    split
    · exact answer p address t
    · exact (answer p address t).trans (ih _)

end Unnoticed

/-! ## How a pause ends -/

theorem mode_obey (hc : c.resumes = false) : (p.obey address c).machine.mode = p.machine.mode := by
  have hset : ∀ a, (p.settle (p.set a)).machine.mode = p.machine.mode := by
    intro a
    cases h : p.set a with
    | error e => rfl
    | ok result =>
      rcases set_ok_cases h with ⟨-, hq⟩ | ⟨_, -, -, -, hq⟩ <;> rw [settle, hq]
      rfl
  have hclear : ∀ a, (p.settle (p.clear a)).machine.mode = p.machine.mode := by
    intro a
    cases h : p.clear a with
    | error e => rfl
    | ok result =>
      rcases clear_ok_cases h with ⟨-, hq⟩ | ⟨_, _, -, -, hq⟩ <;> rw [settle, hq]
      rfl
  cases c with
  | disassemble | memory => rfl
  | setBreakpoint given => exact hset _
  | clearBreakpoint given => exact hclear _
  | step | run | quit => simp [Command.resumes] at hc

theorem mode_heed (h : Command.endsPause t = false) :
    (p.heed address t).machine.mode = p.machine.mode := by
  cases ht : Command.ofText? t with
  | some c =>
    rw [heed_of_command ht]
    exact mode_obey (by simpa [Command.endsPause, ht] using h)
  | none =>
    rcases heed_of_no_command p address ht with he | ⟨line, he⟩
    · rw [he]
    · rw [he]
      rfl

/-- A text that ends a pause answers its last question. -/
theorem converse_of_endsPause {script rest : Script} {before after : List Session} {s : Session}
    (h : questions address script p = before ++ s :: after) (hs : s.unread = t :: rest)
    (ht : Command.endsPause t = true) :
    after = [] ∧ converse address script p =
      { toPatched := (s.toPatched.write (.prompt address)).heed address t, unread := rest } := by
  induction script generalizing p before with
  | nil =>
    simp only [questions] at h
    cases before with
    | nil =>
      cases h
      cases hs
    | cons b before => simp at h
  | cons u others ih =>
    simp only [questions] at h
    cases before with
    | nil =>
      obtain ⟨rfl, htail⟩ := List.cons.inj h
      cases hs
      rw [if_pos ht] at htail
      exact ⟨htail.symm, by rw [converse_cons, if_pos ht]⟩
    | cons b before =>
      -- there are more questions, so the first text has not ended the pause
      obtain ⟨-, htail⟩ := List.cons.inj h
      split at htail
      · simp at htail
      · rename_i hends
        obtain ⟨hafter, hconverse⟩ := ih htail
        exact ⟨hafter, by rw [converse_cons, if_neg hends, hconverse]⟩

end Patched

/-- Whether the text that a session reads next ends it: `quit`, or the end of the script. -/
def Session.quitsNext (s : Session) : Bool :=
  match s.unread with
  | [] => true
  | t :: _ => Command.ofText? t == some .quit

namespace Patched
variable {p : Patched} {address : Nat}

/-- Of the commands that resume, only `quit` ends the session. -/
theorem mode_obey_ne_finished {c : Command} (hp : p.machine.mode ≠ .finished) (hc : c ≠ .quit) :
    (p.obey address c).machine.mode ≠ .finished := by
  cases c with
  | step => exact hp
  | run => simp [obey, setMode, Machine.setMode]
  | quit => exact absurd rfl hc
  | disassemble | memory | setBreakpoint | clearBreakpoint =>
    rw [mode_obey rfl]
    exact hp

/-- A pause that ends the session does so at its last question. -/
theorem quitsNext_of_converse {script : Script} (hp : p.machine.mode ≠ .finished)
    (h : (converse address script p).machine.mode = .finished) :
    ∃ s, (questions address script p).getLast? = some s ∧ s.quitsNext = true := by
  induction script generalizing p with
  | nil => exact ⟨_, rfl, rfl⟩
  | cons t rest ih =>
    rw [converse_cons] at h
    simp only [questions]
    by_cases hends : Command.endsPause t = true
    · rw [if_pos hends] at h ⊢
      refine ⟨_, rfl, ?_⟩
      obtain ⟨c, hc, -⟩ := (Option.any_eq_true _ _).mp hends
      rw [heed_of_command hc] at h
      have hquit : c = .quit := by
        refine Classical.byContradiction fun hne => ?_
        exact mode_obey_ne_finished (p := p.write (.prompt address)) hp hne h
      simp [Session.quitsNext, hc, hquit]
    · -- the pause goes on, and the mode is not yet that of a finished session
      rw [if_neg hends] at h ⊢
      have hmode : ((p.write (.prompt address)).heed address t).machine.mode ≠ .finished := by
        rw [mode_heed (Bool.eq_false_iff.mpr hends)]
        exact hp
      obtain ⟨s, hs, hq⟩ := ih hmode h
      exact ⟨s, by rw [List.getLast?_cons, hs]; rfl, hq⟩

end Patched
end RegisterMachine
