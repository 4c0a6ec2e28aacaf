import RegisterMachine.Proofs.Session.Resumption

/-! # Commands that only look

A text that is blank, no command, or one of the two commands that show something, leaves no trace
but the lines with which it is answered.  Without those lines a machine is *muted*: of all that was
written it has only what the program printed.  What a session does to a machine does not hang on the
lines that are missing (`muted_congr`), so such texts can be left out of a script.

Two sessions are compared, one with a script in which texts are marked and one with only those that
are not (`Matches`).  In each cycle the first may ask more often, and apart from that they do the
same: `Woven` says so of their logs, question by question. -/

namespace RegisterMachine

/-! ## Machines without what was reported -/

/-- What the program has printed, of all that was written. -/
def Transcript.program (t : Transcript) : Transcript :=
  t.filter fun e => e.printed?.isSome

theorem Transcript.program_report (t : Transcript) (lines : List Text) :
    (t.report lines).program = t.program := by
  simp [program, report, List.filter_append, Entry.printed?]

namespace Patched

/-- A patched machine that has written only what the program printed. -/
def muted (p : Patched) : Patched :=
  { p with machine := { p.machine with transcript := p.machine.transcript.program } }

/-- A patched machine that has written nothing. -/
def silent (p : Patched) : Patched :=
  { p with machine := { p.machine with transcript := [] } }

variable {p q : Patched} {address : Nat} {t : Text}

theorem withPast_silent (p : Patched) : p.silent.withPast p.machine.transcript = p := rfl

theorem muted_withPast (past : Transcript) (p : Patched) :
    (p.withPast past).muted = p.muted.withPast past.program := by
  simp only [muted, withPast, Machine.withPast, Transcript.program, List.filter_append]

theorem muted_eq_iff : p.muted = q.muted ↔
    p.silent = q.silent ∧ p.machine.transcript.program = q.machine.transcript.program := by
  constructor
  · intro h
    have hsilent : p.muted.silent = q.muted.silent := by rw [h]
    have hprogram : p.muted.machine.transcript = q.muted.machine.transcript := by rw [h]
    exact ⟨hsilent, hprogram⟩
  · rintro ⟨hsilent, hprogram⟩
    rw [← p.withPast_silent, ← q.withPast_silent, muted_withPast, muted_withPast, hsilent, hprogram]

/-- **What takes no notice of the past takes no notice of what was reported.** -/
theorem muted_congr {f : Patched → Patched}
    (hf : ∀ past r, f (r.withPast past) = (f r).withPast past) (h : p.muted = q.muted) :
    (f p).muted = (f q).muted := by
  obtain ⟨hsilent, hprogram⟩ := muted_eq_iff.mp h
  rw [← p.withPast_silent, ← q.withPast_silent, hf, hf, muted_withPast, muted_withPast, hsilent,
    hprogram]

theorem muted_setMode (h : p.muted = q.muted) (mode : Mode) :
    (p.setMode mode).muted = (q.setMode mode).muted :=
  muted_congr (f := fun r => r.setMode mode) (fun _ _ => rfl) h

/-- One question, one text. -/
theorem muted_answer (h : p.muted = q.muted) (address : Nat) (t : Text) :
    ((p.write (.prompt address)).heed address t).muted =
      ((q.write (.prompt address)).heed address t).muted :=
  muted_congr (f := fun r => (r.write (.prompt address)).heed address t)
    (fun past r => heed_withPast past (r.write (.prompt address)) address t) h

theorem execute_muted (h : p.muted = q.muted) (i : Instruction) :
    mapStep muted (p.execute i) = mapStep muted (q.execute i) := by
  obtain ⟨hsilent, hprogram⟩ := muted_eq_iff.mp h
  have hmap : ∀ r : Patched, mapStep muted (r.execute i) =
      mapStep (fun x => x.muted.withPast r.machine.transcript.program) (r.silent.execute i) := by
    intro r
    have hpast := r.silent.execute_withPast r.machine.transcript i
    rw [withPast_silent] at hpast
    rw [hpast]
    cases r.silent.execute i with
    | error c => simp [mapStep, Except.map, Except.mapError, Crash.map, muted_withPast]
    | ok x => simp [mapStep, Except.map, Except.mapError, muted_withPast]
  rw [hmap p, hmap q, hsilent, hprogram]

/-- What is found at the instruction pointer does not hang on what was written. -/
theorem arrival_muted (h : p.muted = q.muted) : p.arrival = q.arrival := by
  show p.muted.arrival = q.muted.arrival
  rw [h]

theorem reply_muted (h : p.muted = q.muted) (address : Nat) (t : Text) :
    p.reply address t = q.reply address t := by
  have hmuted : ∀ r : Patched, r.muted.reply address t = r.reply address t := by
    intro r
    have hanswer : ∀ c, r.muted.answerTo address c = r.answerTo address c := by
      intro c
      cases c <;> rfl
    simp only [reply, hanswer]
  rw [← hmuted p, ← hmuted q, h]

theorem effect_muted (h : p.muted = q.muted) (i : Instruction) :
    p.plain.effect i = q.plain.effect i := by
  have hmuted : ∀ r : Patched, r.muted.plain.effect i = r.plain.effect i :=
    fun r => Machine.effect_congr rfl fun _ _ => rfl
  rw [← hmuted p, ← hmuted q, h]

end Patched

/-! ## Texts that only look -/

/-- **A text that only looks**: it is blank, no command, or one that shows something. -/
def Command.onlyLooks (t : Text) : Bool :=
  (Command.ofText? t).all fun c => c == .disassemble || c == .memory

theorem Command.endsPause_of_onlyLooks {t : Text} (h : Command.onlyLooks t = true) :
    Command.endsPause t = false := by
  unfold onlyLooks at h
  unfold endsPause
  cases hc : ofText? t with
  | none => rfl
  | some c => cases c <;> simp [hc, resumes] at h ⊢

namespace Patched
variable {p : Patched} {address : Nat} {t : Text}

/-- **The lines that a text shows which only looks**, at an address. -/
inductive Shows (p : Patched) (address : Nat) (t : Text) : List Text → Prop
  /-- A blank text shows nothing. -/
  | blank (h : Text.trim t = []) : Shows p address t []
  /-- One that is no command shows what is wrong with it. -/
  | rejected {e : Command.Error} (hne : Text.trim t ≠ [])
      (h : Command.read (Text.trim t) = .error e) : Shows p address t [e.message.toList]
  | disassembly (h : Command.read (Text.trim t) = .ok .disassemble) :
      Shows p address t [p.describe address]
  | dump (h : Command.read (Text.trim t) = .ok .memory) : Shows p address t p.dump

theorem shows_reply (h : Command.onlyLooks t = true) : p.Shows address t (p.reply address t) := by
  unfold reply
  by_cases hblank : (Text.trim t).isEmpty = true
  · rw [if_pos hblank]
    exact .blank (List.isEmpty_iff.mp hblank)
  · rw [if_neg hblank]
    cases hread : Command.read (Text.trim t) with
    | error e => exact .rejected (fun hnil => hblank (List.isEmpty_iff.mpr hnil)) hread
    | ok c =>
      rw [Command.onlyLooks, Command.ofText?_eq_some_iff.mpr hread] at h
      cases c with
      | disassemble => exact .disassembly hread
      | memory => exact .dump hread
      | step | run | quit | setBreakpoint | clearBreakpoint => cases h

theorem muted_write {e : Entry} (h : e.printed? = none) : (p.write e).muted = p.muted := by
  simp [muted, write, Machine.write, Transcript.program, h]

/-- **A text that only looks** leaves the machine as it was, but for what it shows. -/
theorem muted_answer_of_onlyLooks (p : Patched) (address : Nat)
    (h : Command.onlyLooks t = true) :
    ((p.write (.prompt address)).heed address t).muted = p.muted := by
  rw [← muted_write (p := p) (e := .prompt address) rfl]
  cases hc : Command.ofText? t with
  | none =>
    rcases heed_of_no_command (p.write (.prompt address)) address hc with he | ⟨line, he⟩
    · rw [he]
    · rw [he, muted_write rfl]
  | some c =>
    rw [heed_of_command hc]
    rw [Command.onlyLooks, hc] at h
    cases c with
    | disassemble => exact muted_write rfl
    | memory => simp only [obey, writeDump, muted, Transcript.program_report]
    | step | run | quit | setBreakpoint | clearBreakpoint => cases h

end Patched

/-! ## Marked scripts -/

/-- A text that is marked if it is to be left out. -/
structure Marked where
  /-- The text. -/
  text : Text
  /-- Whether it is left out. -/
  erased : Bool
deriving DecidableEq, Repr

namespace Marked

/-- All texts. -/
def all (ms : List Marked) : Script :=
  ms.map text

/-- The texts that are not left out. -/
def kept (ms : List Marked) : Script :=
  (ms.filter fun m => !m.erased).map text

/-- Only texts that look are left out. -/
def Harmless (ms : List Marked) : Prop :=
  ∀ m ∈ ms, m.erased = true → Command.onlyLooks m.text = true

/-- The marks of the texts that are read once they are joined.  An empty text at the end is not
read, so one that is the last of those not left out counts as left out. -/
def settle : List Marked → List Marked
  | [] => []
  | m :: rest =>
    if m.text.isEmpty && rest.all erased then
      if rest.isEmpty then [] else ⟨m.text, true⟩ :: settle rest
    else m :: settle rest

variable {m : Marked} {ms rest : List Marked}

theorem kept_cons_of_erased (h : m.erased = true) : kept (m :: rest) = kept rest := by
  simp [kept, h]

theorem kept_cons_of_not (h : m.erased = false) : kept (m :: rest) = m.text :: kept rest := by
  simp [kept, h]

theorem kept_eq_nil_iff : kept ms = [] ↔ ms.all erased = true := by
  simp [kept]

theorem all_settle (ms : List Marked) : all (settle ms) = Text.dropFinalEmpty (all ms) := by
  induction ms with
  | nil => rfl
  | cons m rest ih =>
    cases rest with
    | nil =>
      by_cases hempty : m.text.isEmpty = true
      · simp [settle, all, Text.dropFinalEmpty, hempty]
      · simp [settle, all, Text.dropFinalEmpty, hempty]
    | cons n rest =>
      have hnext : all (settle (m :: n :: rest)) = m.text :: all (settle (n :: rest)) := by
        rw [settle]
        split
        · rfl
        · rfl
      rw [hnext, ih]
      rfl

theorem kept_settle (ms : List Marked) : kept (settle ms) = Text.dropFinalEmpty (kept ms) := by
  induction ms with
  | nil => rfl
  | cons m rest ih =>
    rw [settle]
    by_cases hlast : (m.text.isEmpty && rest.all erased) = true
    · rw [if_pos hlast]
      obtain ⟨hempty, hrest⟩ := Bool.and_eq_true_iff.mp hlast
      have hnone : kept rest = [] := kept_eq_nil_iff.mpr hrest
      have hkept : Text.dropFinalEmpty (kept (m :: rest)) = [] := by
        cases he : m.erased with
        | true => rw [kept_cons_of_erased he, hnone]; rfl
        | false => rw [kept_cons_of_not he, hnone, Text.dropFinalEmpty, if_pos hempty]
      rw [hkept]
      split
      · rfl
      · rw [kept_cons_of_erased rfl, ih, hnone]
        rfl
    · rw [if_neg hlast]
      cases he : m.erased with
      | true => rw [kept_cons_of_erased he, kept_cons_of_erased he, ih]
      | false =>
        rw [kept_cons_of_not he, kept_cons_of_not he, ih]
        cases hrest : kept rest with
        | nil =>
          have hnonempty : ¬ m.text.isEmpty = true := fun hempty =>
            hlast (Bool.and_eq_true_iff.mpr ⟨hempty, kept_eq_nil_iff.mp hrest⟩)
          simp [Text.dropFinalEmpty, hnonempty]
        | cons t ts => rfl

theorem Harmless.settle (h : Harmless ms) : Harmless (settle ms) := by
  induction ms with
  | nil => exact h
  | cons m rest ih =>
    have hrest := ih fun n hn => h n (List.mem_cons_of_mem _ hn)
    rw [Marked.settle]
    split
    · rename_i hlast
      split
      · simp [Harmless]
      · obtain ⟨hempty, -⟩ := Bool.and_eq_true_iff.mp hlast
        refine List.forall_mem_cons.mpr ⟨fun _ => ?_, hrest⟩
        show Command.onlyLooks m.text = true
        rw [List.isEmpty_iff.mp hempty]
        decide
    · exact List.forall_mem_cons.mpr ⟨h m List.mem_cons_self, hrest⟩

end Marked

/-- Commands one after the other, as one text. -/
def Script.joined (ts : List Text) : Text :=
  List.intercalate [';'] ts

/-- **A text of joined commands** is read command by command, but for an empty one at its end. -/
theorem Script.ofText_joined {ts : List Text} (h : ∀ t ∈ ts, ∀ c ∈ t, endsCommand c = false) :
    ofText (joined ts) = Text.dropFinalEmpty ts := by
  induction ts with
  | nil => rfl
  | cons t ts ih =>
    obtain ⟨ht, hts⟩ := List.forall_mem_cons.mp h
    cases ts with
    | nil =>
      simp only [joined, List.intercalate_singleton]
      exact Text.entries_of_forall_not ht
    | cons u ts =>
      have hjoined : joined (t :: u :: ts) = t ++ ';' :: joined (u :: ts) := by
        simp [joined, List.intercalate]
      rw [hjoined, ofText, Text.entries_append_cons ht rfl]
      exact congrArg _ (ih hts)

/-! ## Logs of the two sessions -/

namespace Event

theorem output_executed {p q : Patched} (h : p.muted = q.muted) (i : Instruction) :
    output (.executed p i) = output (.executed q i) := by
  simp only [output, Patched.effect_muted h]

theorem output_asked {p q : Patched} (h : p.muted = q.muted) (address : Nat) (t : Text)
    (rest rest' : Script) :
    output (.asked address ⟨p, t :: rest⟩) = output (.asked address ⟨q, t :: rest'⟩) := by
  simp only [output, Patched.reply_muted h]

/-- **Two logs differ in questions at which marked texts are read**, of a script of which others are
left: all other events of the first are those of the second, one after the other, with the same
output, and the output at a marked text is what it shows. -/
inductive Woven : List Marked → List Event → List Event → List Marked → Prop
  | nil {ms : List Marked} : Woven ms [] [] ms
  /-- Both execute an instruction. -/
  | executed {ms left : List Marked} {log log' : List Event} {p q : Patched} {i : Instruction}
      (hsame : p.muted = q.muted) (houtput : output (.executed p i) = output (.executed q i))
      (h : Woven ms log log' left) :
      Woven ms (.executed p i :: log) (.executed q i :: log') left
  /-- Both read a text that is not marked. -/
  | kept {ms left : List Marked} {log log' : List Event} {address : Nat} {q r : Session} {t : Text}
      (hsame : q.toPatched.muted = r.toPatched.muted) (hq : q.unread.head? = some t)
      (hr : r.unread.head? = some t)
      (houtput : output (.asked address q) = output (.asked address r))
      (h : Woven ms log log' left) :
      Woven (⟨t, false⟩ :: ms) (.asked address q :: log) (.asked address r :: log') left
  /-- The first one reads a text that is marked. -/
  | erased {ms left : List Marked} {log log' : List Event} {address : Nat} {q : Session} {t : Text}
      {lines : List Text} (hq : q.unread.head? = some t)
      (hlines : q.toPatched.Shows address t lines)
      (houtput : output (.asked address q) = lines.flatMap (· ++ ['\n']))
      (h : Woven ms log log' left) :
      Woven (⟨t, true⟩ :: ms) (.asked address q :: log) log' left
  /-- Both meet the end of their scripts. -/
  | ended {left : List Marked} {log log' : List Event} {address : Nat} {q r : Session}
      (hsame : q.toPatched.muted = r.toPatched.muted) (hq : q.unread = []) (hr : r.unread = [])
      (h : Woven [] log log' left) :
      Woven [] (.asked address q :: log) (.asked address r :: log') left

theorem Woven.append {ms mid left : List Marked} {log log' more more' : List Event}
    (h : Woven ms log log' mid) (h' : Woven mid more more' left) :
    Woven ms (log ++ more) (log' ++ more') left := by
  induction h with
  | nil => exact h'
  | executed hsame houtput _ ih => exact .executed hsame houtput (ih h')
  | kept hsame hq hr houtput _ ih => exact .kept hsame hq hr houtput (ih h')
  | erased hq hlines houtput _ ih => exact .erased hq hlines houtput (ih h')
  | ended hsame hq hr _ ih => exact .ended hsame hq hr (ih h')

end Event

namespace Session
open Event (Woven)
variable {x y : Session} {ms left : List Marked} {p q : Patched}

/-- **Two sessions that differ in marked texts**: one has yet to read all of them, the other those
that are not marked, and apart from what was reported they are the same. -/
structure Matches (ms : List Marked) (x y : Session) : Prop where
  muted : x.toPatched.muted = y.toPatched.muted
  full : x.unread = Marked.all ms
  kept : y.unread = Marked.kept ms

namespace Matches

theorem ip (h : Matches ms x y) : x.machine.ip = y.machine.ip := by
  show x.toPatched.muted.machine.ip = y.toPatched.muted.machine.ip
  rw [h.muted]

theorem isFinished (h : Matches ms x y) : x.isFinished = y.isFinished := by
  show x.toPatched.muted.machine.isFinished = y.toPatched.muted.machine.isFinished
  rw [h.muted]

/-! ### One pause -/

/-- **A pause of both**, in which the first one reads marked texts as well. -/
theorem converse (hlooks : Marked.Harmless ms) (h : p.muted = q.muted) (address : Nat) :
    ∃ left, left <:+ ms ∧
      Woven ms ((Patched.questions address (Marked.all ms) p).map (.asked address))
        ((Patched.questions address (Marked.kept ms) q).map (.asked address)) left ∧
      Matches left (Patched.converse address (Marked.all ms) p)
        (Patched.converse address (Marked.kept ms) q) := by
  induction ms generalizing p q with
  | nil =>
    refine ⟨[], List.suffix_rfl, .ended h rfl rfl .nil, ?_, rfl, rfl⟩
    exact Patched.muted_congr (f := fun r => (r.write (.prompt address)).setMode .finished)
      (fun _ _ => rfl) h
  | cons m ms ih =>
    obtain ⟨hm, hms⟩ := List.forall_mem_cons.mp hlooks
    obtain ⟨t, erased⟩ := m
    have hall : Marked.all (⟨t, erased⟩ :: ms) = t :: Marked.all ms := rfl
    cases erased with
    | true =>
      have hlook : Command.onlyLooks t = true := hm rfl
      have hends := Command.endsPause_of_onlyLooks hlook
      obtain ⟨left, hleft, hwoven, hmatches⟩ :=
        ih hms ((p.muted_answer_of_onlyLooks address hlook).trans h)
      rw [hall, Marked.kept_cons_of_erased rfl, Patched.questions, Patched.converse_cons, hends]
      exact ⟨left, hleft.trans (List.suffix_cons _ _),
        .erased rfl (Patched.shows_reply hlook) rfl hwoven, hmatches⟩
    | false =>
      have hanswer := Patched.muted_answer h address t
      rw [hall, Marked.kept_cons_of_not rfl, Patched.questions, Patched.questions,
        Patched.converse_cons, Patched.converse_cons]
      have houtput := Event.output_asked h address t (Marked.all ms) (Marked.kept ms)
      by_cases hends : Command.endsPause t = true
      · simp only [hends, if_true]
        exact ⟨ms, List.suffix_cons _ _, .kept h rfl rfl houtput .nil, hanswer, rfl, rfl⟩
      · simp only [hends, if_false, Bool.false_eq_true]
        obtain ⟨left, hleft, hwoven, hmatches⟩ := ih hms hanswer
        exact ⟨left, hleft.trans (List.suffix_cons _ _), .kept h rfl rfl houtput hwoven, hmatches⟩

/-! ### One cycle -/

theorem ready (hlooks : Marked.Harmless ms) (h : Matches ms x y) (a : Arrival) :
    ∃ left, left <:+ ms ∧ Woven ms (x.asks a) (y.asks a) left ∧
      Matches left (x.ready a) (y.ready a) := by
  unfold asks Session.ready
  by_cases hpauses : a.pauses = true
  · simp only [hpauses, if_true, questions, pause, h.full, h.kept, h.ip]
    exact converse hlooks (Patched.muted_setMode h.muted .stepping) _
  · simp only [hpauses, if_false, Bool.false_eq_true]
    exact ⟨ms, List.suffix_rfl, .nil, h⟩

end Matches

/-- **Both go on alike**, or are stopped by the same trap. -/
inductive GoAlike (left : List Marked) (a b : Except (Crash Session) Session) : Prop
  | ok {x y : Session} (ha : a = .ok x) (hb : b = .ok y) (h : Matches left x y)
  | error {c d : Crash Session} (ha : a = .error c) (hb : b = .error d) (htrap : c.trap = d.trap)
      (h : Matches left c.state d.state)

namespace Matches

theorem execute (h : Matches left x y) (i : Instruction) :
    GoAlike left (x.execute i) (y.execute i) := by
  have hadvance : x.toPatched.advance.muted = y.toPatched.advance.muted :=
    Patched.muted_congr (f := Patched.advance) (fun _ _ => rfl) h.muted
  have hmap := Patched.execute_muted hadvance i
  cases hx : x.toPatched.advance.execute i with
  | ok p =>
    cases hy : y.toPatched.advance.execute i with
    | ok q =>
      rw [hx, hy] at hmap
      exact .ok (execute_of_ok hx) (execute_of_ok hy) ⟨Except.ok.inj hmap, h.full, h.kept⟩
    | error d =>
      rw [hx, hy] at hmap
      cases hmap
  | error c =>
    cases hy : y.toPatched.advance.execute i with
    | ok q =>
      rw [hx, hy] at hmap
      cases hmap
    | error d =>
      rw [hx, hy] at hmap
      obtain ⟨htrap, hstate⟩ := Crash.mk.inj (Except.error.inj hmap)
      exact .error (execute_of_error hx) (execute_of_error hy) htrap ⟨hstate, h.full, h.kept⟩

/-- **A cycle of both.** -/
theorem cycle (hlooks : Marked.Harmless ms) (h : Matches ms x y) :
    ∃ left, left <:+ ms ∧ Woven ms x.cycleEvents y.cycleEvents left ∧
      GoAlike left x.cycle y.cycle := by
  have harrival : x.arrival = y.arrival := Patched.arrival_muted h.muted
  cases ha : x.arrival with
  | error trap =>
    have hb : y.arrival = .error trap := harrival.symm.trans ha
    simp only [cycleEvents, Session.cycle, ha, hb]
    exact ⟨ms, List.suffix_rfl, .nil, .error rfl rfl rfl h⟩
  | ok a =>
    have hb : y.arrival = .ok a := harrival.symm.trans ha
    obtain ⟨left, hleft, hasks, hready⟩ := ready hlooks h a
    refine ⟨left, hleft, ?_⟩
    rw [cycle_eq_of_arrival ha, cycle_eq_of_arrival hb]
    simp only [cycleEvents, ha, hb, ← hready.isFinished]
    cases hf : (x.ready a).isFinished with
    | true =>
      simp only [if_true, List.append_nil]
      exact ⟨hasks, .ok rfl rfl hready⟩
    | false =>
      simp only [Bool.false_eq_true, if_false]
      have hexecute := hready.execute a.instruction
      refine ⟨hasks.append ?_, hexecute⟩
      cases hexecute with
      | ok hx hy =>
        rw [hx, hy]
        exact .executed hready.muted (Event.output_executed hready.muted _) .nil
      | error hx hy =>
        rw [hx, hy]
        exact .nil

end Matches

/-! ### Whole runs -/

/-- **Both run alike**: they end in the same way and, apart from what was reported, in the same
state, and differ in the marked texts that one of them has read, and in those it has yet to read. -/
structure RunAlike (ms : List Marked) (x y : Session) (fuel : Nat) : Prop where
  ending : (x.proceed fuel).map (fun z => z.toPatched.muted) =
    (y.proceed fuel).map (fun z => z.toPatched.muted)
  events : ∃ left, left <:+ ms ∧ Woven ms (x.events fuel) (y.events fuel) left ∧
    Matches left (x.proceed fuel).state (y.proceed fuel).state

theorem Matches.runAlike_of_finished (h : Matches ms x y) (hx : x.isFinished = true) (fuel : Nat) :
    RunAlike ms x y fuel := by
  have hy : y.isFinished = true := h.isFinished.symm.trans hx
  constructor
  · rw [proceed_of_finished hx, proceed_of_finished hy]
    exact congrArg Ending.completed h.muted
  · rw [proceed_of_finished hx, proceed_of_finished hy, events_of_finished hx,
      events_of_finished hy]
    exact ⟨ms, List.suffix_rfl, .nil, h⟩

/-- One cycle more at the start. -/
theorem RunAlike.cons {x' y' : Session} {mid : List Marked} {fuel : Nat}
    (h : RunAlike mid x' y' fuel) (hx : x.isFinished = false) (hy : y.isFinished = false)
    (hc : x.cycle = .ok x') (hd : y.cycle = .ok y') (hmid : mid <:+ ms)
    (hwoven : Woven ms x.cycleEvents y.cycleEvents mid) : RunAlike ms x y (fuel + 1) := by
  constructor
  · rw [proceed_succ_of_ok hx hc, proceed_succ_of_ok hy hd]
    exact h.ending
  · obtain ⟨left, hleft, hrest, hmatches⟩ := h.events
    rw [proceed_succ_of_ok hx hc, proceed_succ_of_ok hy hd, events_succ_of_ok hx hc,
      events_succ_of_ok hy hd]
    exact ⟨left, hleft.trans hmid, hwoven.append hrest, hmatches⟩

/-- **Sessions that differ in marked texts run alike.** -/
theorem Matches.runAlike (hlooks : Marked.Harmless ms) (h : Matches ms x y) (fuel : Nat) :
    RunAlike ms x y fuel := by
  induction fuel generalizing ms x y with
  | zero =>
    cases hx : x.isFinished with
    | true => exact h.runAlike_of_finished hx 0
    | false =>
      have hy : y.isFinished = false := h.isFinished.symm.trans hx
      constructor
      · rw [proceed_zero hx, proceed_zero hy]
        exact congrArg Ending.outOfFuel h.muted
      · rw [proceed_zero hx, proceed_zero hy]
        exact ⟨ms, List.suffix_rfl, .nil, h⟩
  | succ fuel ih =>
    cases hx : x.isFinished with
    | true => exact h.runAlike_of_finished hx (fuel + 1)
    | false =>
      have hy : y.isFinished = false := h.isFinished.symm.trans hx
      obtain ⟨mid, hmid, hwoven, hcycle⟩ := h.cycle hlooks
      cases hcycle with
      | ok hc hd hnext =>
        have hlooks' : Marked.Harmless mid := fun m hm => hlooks m (hmid.subset hm)
        exact (ih hlooks' hnext).cons hx hy hc hd hmid hwoven
      | @error c d hc hd htrap hstate =>
        constructor
        · rw [proceed_succ_of_error hx hc, proceed_succ_of_error hy hd]
          simp only [Ending.map, Crash.map, htrap, hstate.muted]
        · rw [proceed_succ_of_error hx hc, proceed_succ_of_error hy hd,
            events_succ_of_error hx hc, events_succ_of_error hy hd]
          exact ⟨mid, hmid, hwoven, hstate⟩

/-- The written text of a run, without prompts, is made of the outputs of its events. -/
theorem written_run (s : Session) (fuel : Nat) :
    (s.run fuel).state.written false = s.written false ++ (s.log fuel).flatMap Event.output :=
  (s.accounts_run fuel).written false

/-- **Texts that only look can be left out.**  Let texts without delimiters be joined to a script,
and let some of those be marked that are blank, no command, or one that shows something.  A run of a
session with all of them and a run with those that are not marked end after the same number of
cycles, or both do not; they end in the same way, with the same machine, mode, breakpoints in the
same order and printed words.  What they write is the output of their events, and these are the same
except at the marked texts that are read, at each of which there is the output of that text alone.
-/
theorem looking_erasable (s : Session) (texts : List Marked)
    (hfree : ∀ m ∈ texts, ∀ c ∈ m.text, Script.endsCommand c = false)
    (hlooks : ∀ m ∈ texts, m.erased = true → Command.onlyLooks m.text = true) :
    let full := s.given (Script.ofText (Script.joined (Marked.all texts)))
    let kept := s.given (Script.ofText (Script.joined (Marked.kept texts)))
    ((∃ fuel, (full.run fuel).isFinal = true) ↔ ∃ fuel, (kept.run fuel).isFinal = true) ∧
      ∀ fuel,
        (full.run fuel).map (fun x => x.toPatched.muted) =
          (kept.run fuel).map (fun x => x.toPatched.muted) ∧
        (full.run fuel).state.written false =
          s.written false ++ (full.log fuel).flatMap Event.output ∧
        (kept.run fuel).state.written false =
          s.written false ++ (kept.log fuel).flatMap Event.output ∧
        ∃ left, left <:+ Marked.settle texts ∧
          Woven (Marked.settle texts) (full.log fuel) (kept.log fuel) left ∧
          (full.run fuel).state.unread = Marked.all left ∧
          (kept.run fuel).state.unread = Marked.kept left := by
  intro full kept
  have hall : full.unread = Marked.all (Marked.settle texts) := by
    rw [Marked.all_settle]
    refine Script.ofText_joined fun t ht => ?_
    obtain ⟨m, hm, rfl⟩ := List.mem_map.mp ht
    exact hfree m hm
  have hkept : kept.unread = Marked.kept (Marked.settle texts) := by
    rw [Marked.kept_settle]
    refine Script.ofText_joined fun t ht => ?_
    obtain ⟨m, hm, rfl⟩ := List.mem_map.mp ht
    exact hfree m (List.mem_of_mem_filter hm)
  have hmatches : Matches (Marked.settle texts) full.begun kept.begun := ⟨rfl, hall, hkept⟩
  have halike : ∀ fuel, RunAlike (Marked.settle texts) full.begun kept.begun fuel :=
    hmatches.runAlike (Marked.Harmless.settle hlooks)
  have hfinal : ∀ fuel, (full.run fuel).isFinal = (kept.run fuel).isFinal := by
    intro fuel
    have hending := congrArg Ending.isFinal (halike fuel).ending
    rwa [Ending.isFinal_map, Ending.isFinal_map] at hending
  refine ⟨by simp only [hfinal], fun fuel => ⟨(halike fuel).ending, full.written_run fuel,
    kept.written_run fuel, ?_⟩⟩
  obtain ⟨left, hleft, hwoven, hstate⟩ := (halike fuel).events
  exact ⟨left, hleft, hwoven, hstate.full, hstate.kept⟩

/-- Texts of all four kinds are left out, the last of them after an empty one that is not: both runs
stop at the same breakpoint, and end there with their scripts. -/
theorem looking_erasable_at_breakpoint :
    let m : Machine :=
      { Machine.blank with memory := Machine.memoryOf [0x070002, 0x00000a, 0x00000a, 0x000001] }
    let texts : List Marked :=
      [⟨"d".toList, true⟩, ⟨"b 2".toList, false⟩, ⟨" ".toList, true⟩, ⟨"r".toList, false⟩,
        ⟨"foo".toList, true⟩, ⟨[], false⟩, ⟨"m".toList, true⟩]
    let full := (start m []).given (Script.ofText (Script.joined (Marked.all texts)))
    let kept := (start m []).given (Script.ofText (Script.joined (Marked.kept texts)))
    Script.joined (Marked.all texts) = "d;b 2; ;r;foo;;m".toList ∧
      Script.joined (Marked.kept texts) = "b 2;r;".toList ∧
      (kept.run 8).isFinal = true ∧ (kept.run 8).state.written false = "000007\n".toList ∧
      (full.run 8).map (fun x => x.toPatched.muted) =
        (kept.run 8).map (fun x => x.toPatched.muted) ∧
      Woven (Marked.settle texts) (full.log 8) (kept.log 8) [] := by
  intro m texts full kept
  -- decided on the characters of the texts, and not on all characters
  have hfree : (texts.all fun m => m.text.all fun c => !Script.endsCommand c) = true := by
    decide +kernel
  simp only [List.all_eq_true, Bool.not_eq_true'] at hfree
  obtain ⟨-, hruns⟩ := (start m []).looking_erasable texts hfree (by decide +kernel)
  obtain ⟨hmap, -, -, left, -, hwoven, hunread, -⟩ := hruns 8
  have hleft : left = [] := by
    have hnil : (full.run 8).state.unread = [] := by decide +kernel
    exact List.map_eq_nil_iff.mp (hunread.symm.trans hnil)
  exact ⟨by decide, by decide, by decide +kernel, by decide +kernel, hmap, hleft ▸ hwoven⟩

end Session
end RegisterMachine
