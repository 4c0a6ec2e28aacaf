import RegisterMachine.Cli.Directory
import RegisterMachine.Proofs.Assembly.Outcome
import RegisterMachine.Proofs.Assembly.Safety
import RegisterMachine.Proofs.Machine.Output
import RegisterMachine.Proofs.Program.RoundTrip
import RegisterMachine.Proofs.Text.Utf8

/-! # From a source to what its program shows

One command line assembles a source into a file, another runs that file.  Between them stand only
the files, of which nothing is assumed but that they read back as they were written (`Storage`), so
the two together do what assembling, loading and running do: the text of a program loses nothing
(`load_of_read`), and what a machine has written is all that is shown (`run_of_completed`,
`run_of_crashed`).

A source that cannot be assembled leaves everything as it was. -/

namespace RegisterMachine
namespace Cli

/-! ## Files -/

/-- **A place where files are kept**, in any of its states: what a command line finds there, and how
it is changed by writing a file. -/
structure Storage (σ : Type) where
  surroundings : σ → ByteArray → Surroundings
  write : σ → Path → ByteArray → σ
  /-- A file reads back as it was written. -/
  read_write : ∀ {place : σ} {stdin : ByteArray} {p : Path},
    (surroundings place stdin).writable p = true → ∀ content later,
      (surroundings (write place p content) later).read p = some content

namespace Storage
variable {σ : Type}

/-- The state after a command line has done its work. -/
def apply (storage : Storage σ) (place : σ) (r : Report) : σ :=
  match r.saved with
  | none => place
  | some (p, t) => storage.write place p (Text.encode t)

/-- Does what arguments ask for. -/
def perform (storage : Storage σ) (place : σ) (stdin : ByteArray) (fuel : Nat)
    (arguments : List Text) : Option (Report × σ) :=
  ((storage.surroundings place stdin).performArguments fuel arguments).map fun r =>
    (r, storage.apply place r)

end Storage

namespace Directory

theorem content?_write_self (d : Directory) (name : Text) (content : ByteArray) :
    (d.write name content).content? name = some content := by
  have hnone : (d.files.filter fun file => file.1 != name).lookup name = none := by
    refine List.lookup_eq_none_iff.mpr fun file hfile => ?_
    rw [bne_comm]
    exact (List.mem_filter.mp hfile).2
  rw [content?, write, List.lookup_append, hnone]
  simp

/-- A directory keeps files. -/
def storage : Storage Directory where
  surroundings := surroundings
  write d p content := p.name?.elim d fun name => d.write name content
  read_write := by
    intro d stdin p hwritable content later
    obtain ⟨name, hname⟩ := Option.isSome_iff_exists.mp hwritable
    simp only [surroundings, hname, Option.elim_some, Option.bind_some]
    exact d.content?_write_self name content

theorem perform_eq (d : Directory) (stdin : ByteArray) (fuel : Nat) (arguments : List Text) :
    d.perform stdin fuel arguments = storage.perform d stdin fuel arguments := by
  have happly : ∀ r, d.apply r = storage.apply d r := by
    intro r
    rcases hsaved : r.saved with _ | ⟨p, t⟩
    · simp only [apply, Storage.apply, hsaved]
    · cases hname : p.name? <;> simp [apply, Storage.apply, storage, hsaved, hname]
  simp only [perform, Storage.perform, happly]
  rfl

end Directory

/-! ## Assembling a source -/

/-- How a command line ended, as far as its caller can tell. -/
structure Report.Ends (r : Report) (code : Nat) (diagnostic : Option String) (stdout : Text) :
    Prop where
  exit : r.exit.code = code
  diagnostic : r.exit.diagnostic?.map Diagnostic.code = diagnostic
  stdout : r.stdout = stdout

/-- **The file of a program**: a line for each word, of six digits, from which the program is read
back. -/
structure Holds (t : Text) (p : Program) : Prop where
  lines : t = p.flatMap fun w => w.text ++ ['\n']
  width : ∀ w ∈ p, w.text.length = 6
  digits : ∀ w ∈ p, ∀ c ∈ w.text, c ∈ "0123456789abcdef".toList
  read : Program.read t = .ok p

theorem holds_print {p : Program} (h : ∀ w ∈ p, w.toNat < 0x1000000) : Holds (Program.print p) p where
  lines := List.flatMap_map _ _ _
  width w hw := Text.length_paddedHex_of_lt (h w hw)
  digits _ _ _ hc := Word.mem_hexDigits_of_mem_text hc
  read := Program.read_print p

namespace Surroundings
variable {s : Surroundings} {input output : Path} {t : Text}

theorem text?_of_read {path : Path} (hfile : path.isStream = false)
    (h : s.read path = some (Text.encode t)) : s.text? path = some t := by
  rw [text?, hfile, if_neg Bool.false_ne_true, h, Option.bind_some, Text.decode?_encode]

theorem performArguments_of_some {arguments : List Text} {invocation : Invocation}
    (h : Invocation.ofArguments? arguments = some invocation) (s : Surroundings) (fuel : Nat) :
    s.performArguments fuel arguments = s.perform fuel invocation := by
  simp only [performArguments, h]

/-- **A source that cannot be assembled** is reported, and nothing is saved. -/
theorem assemble_of_error {e : Assembly.Error} (ht : s.text? input = some t)
    (he : (Assembly.ofText t).program = .error e) (output : Path) :
    (s.assemble input output).saved = none ∧
      (s.assemble input output).Ends 1 (some e.diagnostic.code) [] := by
  simp only [assemble, ht, he, true_and]
  exact ⟨rfl, rfl, rfl⟩

/-- **A source that can be assembled** is saved as the text of its program. -/
theorem assemble_of_ok {p : Program} (ht : s.text? input = some t)
    (hp : (Assembly.ofText t).program = .ok p) (hfile : output.isStream = false)
    (hwritable : s.writable output = true) :
    (s.assemble input output).saved = some (output, Program.print p) ∧
      (s.assemble input output).Ends 0 none [] := by
  simp only [assemble, ht, hp, hfile, hwritable, Bool.false_eq_true, if_false, if_true, true_and]
  exact ⟨rfl, rfl, rfl⟩

end Surroundings

/-! ## Running the program -/

/-- **What a program comes to** that is loaded into a blank machine, run and shown, within a fuel:
an exit code, the code of a diagnostic, and what is read on standard output. -/
inductive Outcome (p : Program) (fuel : Nat) : Nat → Option String → Text → Prop
  /-- It does not fit in memory. -/
  | tooLong (h : memorySize < p.length) : Outcome p fuel 1 (some "vm::program_too_long") []
  /-- It is done: what it printed, then the machine. -/
  | completed {m last : Machine} (hload : Machine.blank.load p = .ok m)
      (hrun : m.run fuel = .completed last) :
      Outcome p fuel 0 none
        (Program.print last.transcript.printed ++ last.dump.flatMap (· ++ ['\n']))
  /-- It was stopped: what it had printed before. -/
  | crashed {m : Machine} {c : Crash Machine} (hload : Machine.blank.load p = .ok m)
      (hrun : m.run fuel = .crashed c) :
      Outcome p fuel 1 (some c.trap.fault.code) (Program.print c.state.transcript.printed)

/-- A program comes to something, or uses up the fuel. -/
theorem outcome_cases (p : Program) (fuel : Nat) :
    (∃ code diagnostic stdout, Outcome p fuel code diagnostic stdout) ∨
      ∃ m last, Machine.blank.load p = .ok m ∧ m.run fuel = .outOfFuel last := by
  rcases Nat.lt_or_ge memorySize p.length with hlong | hfits
  · exact .inl ⟨_, _, _, .tooLong hlong⟩
  · obtain ⟨m, hload, -⟩ := Machine.blank.load_eq_ok hfits
    cases hrun : m.run fuel with
    | completed last => exact .inl ⟨_, _, _, .completed hload hrun⟩
    | crashed c => exact .inl ⟨_, _, _, .crashed hload hrun⟩
    | outOfFuel last => exact .inr ⟨m, last, hload, hrun⟩

namespace Surroundings
variable {s : Surroundings} {path : Path} {p : Program} {fuel : Nat}

/-- **A program that was printed is loaded as it was.** -/
theorem load_of_read (hfile : path.isStream = false)
    (h : s.read path = some (Text.encode (Program.print p))) :
    s.load path = (Machine.blank.load p).mapError Failure.program := by
  simp only [load, text?_of_read hfile h, Program.read_print]
  cases Machine.blank.load p <;> rfl

/-- **Running shows what a program comes to**, and saves nothing. -/
theorem run_of_outcome {code : Nat} {diagnostic : Option String} {stdout : Text}
    (hfile : path.isStream = false) (h : s.read path = some (Text.encode (Program.print p)))
    (ho : Outcome p fuel code diagnostic stdout) (minimal : Bool) :
    ∃ r, s.run fuel path minimal = some r ∧ r.saved = none ∧ r.Ends code diagnostic stdout := by
  have hloaded := load_of_read hfile h
  cases ho with
  | tooLong hlong =>
    rw [Machine.load, if_pos hlong] at hloaded
    simp only [run, hloaded, Except.mapError]
    exact ⟨_, rfl, rfl, rfl, rfl, rfl⟩
  | @completed m last hload hrun =>
    have htext := Machine.text_run_of_load hload false fuel
    simp only [hrun, Ending.state] at htext
    rw [hload] at hloaded
    rw [← htext, ← Machine.text_writeDump]
    simp only [run, hloaded, Except.mapError, hrun]
    exact ⟨_, rfl, rfl, rfl, rfl, rfl⟩
  | @crashed m c hload hrun =>
    have htext := Machine.text_run_of_load hload false fuel
    simp only [hrun, Ending.state] at htext
    rw [hload] at hloaded
    rw [← htext]
    simp only [run, hloaded, Except.mapError, hrun]
    exact ⟨_, rfl, rfl, rfl, rfl, rfl⟩

theorem run_of_outOfFuel {m last : Machine} (hfile : path.isStream = false)
    (h : s.read path = some (Text.encode (Program.print p)))
    (hload : Machine.blank.load p = .ok m) (hrun : m.run fuel = .outOfFuel last) (minimal : Bool) :
    s.run fuel path minimal = none := by
  have hloaded := load_of_read hfile h
  rw [hload] at hloaded
  simp only [run, hloaded, Except.mapError, hrun]

/-- **Running shows nothing but what a program comes to.** -/
theorem run_ends_iff {code : Nat} {diagnostic : Option String} {stdout : Text}
    (hfile : path.isStream = false) (h : s.read path = some (Text.encode (Program.print p)))
    (minimal : Bool) :
    (∃ r, s.run fuel path minimal = some r ∧ r.saved = none ∧ r.Ends code diagnostic stdout) ↔
      Outcome p fuel code diagnostic stdout := by
  constructor
  · rintro ⟨r, hr, -, hends⟩
    rcases outcome_cases p fuel with ⟨_, _, _, ho⟩ | ⟨m, last, hload, hrun⟩
    · obtain ⟨r', hr', -, hends'⟩ := run_of_outcome hfile h ho minimal
      obtain rfl : r' = r := Option.some.inj (hr'.symm.trans hr)
      rw [← hends.exit, ← hends.diagnostic, ← hends.stdout, hends'.exit, hends'.diagnostic,
        hends'.stdout]
      exact ho
    · rw [run_of_outOfFuel hfile h hload hrun] at hr
      cases hr
  · intro ho
    exact run_of_outcome hfile h ho minimal

end Surroundings

/-! ## Both together -/

namespace Storage
variable {σ : Type} {storage : Storage σ} {place : σ} {stdin : ByteArray} {arguments : List Text}
  {input output : Path}

theorem perform_eq_some_iff {fuel : Nat} {r : Report} {after : σ} :
    storage.perform place stdin fuel arguments = some (r, after) ↔
      (storage.surroundings place stdin).performArguments fuel arguments = some r ∧
        storage.apply place r = after := by
  simp only [perform, Option.map_eq_some_iff, Prod.mk.injEq]
  constructor
  · rintro ⟨_, h, rfl, ha⟩
    exact ⟨h, ha⟩
  · rintro ⟨h, ha⟩
    exact ⟨r, h, rfl, ha⟩

theorem apply_of_saved_none {r : Report} (h : r.saved = none) : storage.apply place r = place := by
  simp only [apply, h]

/-- **Assembling a source into a file, and running that file.**  If the source cannot be assembled,
its error is reported, nothing is written, and everything stays as it was.  Otherwise the file holds
the words of the program, and running it ends just as the program does when its words are loaded
into a blank machine, run and shown. -/
theorem assemble_then_run {source : Text}
    (hassemble : Invocation.ofArguments? arguments = some (.assemble input output))
    (hsource : (storage.surroundings place stdin).text? input = some source)
    (hfile : output.isStream = false)
    (hwritable : (storage.surroundings place stdin).writable output = true) (fuel : Nat) :
    (∀ e, (Assembly.ofText source).program = .error e →
      ∃ r, storage.perform place stdin fuel arguments = some (r, place) ∧ r.saved = none ∧
        r.Ends 1 (some e.diagnostic.code) []) ∧
    ∀ p, (Assembly.ofText source).program = .ok p →
      ∃ r after t, storage.perform place stdin fuel arguments = some (r, after) ∧
        r.Ends 0 none [] ∧ Holds t p ∧
        (∀ later, (storage.surroundings after later).read output = some (Text.encode t)) ∧
        ∀ later fuel' arguments' minimal code diagnostic stdout,
          Invocation.ofArguments? arguments' = some (.run output minimal) →
          ((∃ r', storage.perform after later fuel' arguments' = some (r', after) ∧
              r'.saved = none ∧ r'.Ends code diagnostic stdout) ↔
            Outcome p fuel' code diagnostic stdout) := by
  have hperform : (storage.surroundings place stdin).performArguments fuel arguments =
      some ((storage.surroundings place stdin).assemble input output) :=
    Surroundings.performArguments_of_some hassemble _ fuel
  constructor
  · intro e he
    obtain ⟨hsaved, hends⟩ := Surroundings.assemble_of_error hsource he output
    exact ⟨_, perform_eq_some_iff.mpr ⟨hperform, apply_of_saved_none hsaved⟩, hsaved, hends⟩
  · intro p hp
    obtain ⟨hsaved, hends⟩ := Surroundings.assemble_of_ok hsource hp hfile hwritable
    have hread := storage.read_write hwritable (Text.encode (Program.print p))
    refine ⟨_, storage.write place output (Text.encode (Program.print p)), Program.print p,
      perform_eq_some_iff.mpr ⟨hperform, ?_⟩, hends,
      holds_print (Assembly.toNat_lt_of_ofSource hp), hread, ?_⟩
    · simp only [apply, hsaved]
    · intro later fuel' arguments' minimal code diagnostic stdout hrun
      have hreport := Surroundings.performArguments_of_some hrun
      rw [← Surroundings.run_ends_iff hfile (hread later) minimal]
      refine exists_congr fun r' => ?_
      rw [perform_eq_some_iff, hreport]
      constructor
      · rintro ⟨⟨hr, -⟩, hsaved, hends⟩
        exact ⟨hr, hsaved, hends⟩
      · rintro ⟨hr, hsaved, hends⟩
        exact ⟨⟨hr, apply_of_saved_none hsaved⟩, hsaved, hends⟩

/-- A program prints a word and then reads past the end of memory: in a directory with its source,
it is assembled into a file, and running the file shows the word and the fault. -/
theorem assemble_then_run_in_a_directory :
    let source := "ldc R0 42\nprr R0\nldc R1 255\nadd R1 R0\nprm R1\n".toList
    let d : Directory := { files := [("fault.as".toList, Text.encode source)] }
    let text := "2a0002\n00000a\nff0102\n000106\n00010b\n".toList
    ∃ r d', d.perform ByteArray.empty 0 (["assemble", "fault.as", "./fault.mx"].map String.toList) =
        some (r, d') ∧ r.Ends 0 none [] ∧ d'.content? "fault.mx".toList = some (Text.encode text) ∧
      ∃ r', d'.perform ByteArray.empty 8 (["run", "-m", "./fault.mx"].map String.toList) =
          some (r', d') ∧ r'.Ends 1 (some "vm::invalid_address") "00002a\n".toList := by
  intro source d text
  have hsource : (Directory.storage.surroundings d ByteArray.empty).text? "fault.as".toList =
      some source := Surroundings.text?_of_read (by decide) rfl
  have hassemble : Invocation.ofArguments?
      (["assemble", "fault.as", "./fault.mx"].map String.toList) =
        some (.assemble "fault.as".toList "./fault.mx".toList) := by decide
  let p : Program := [0x2a0002, 0x00000a, 0xff0102, 0x000106, 0x00010b]
  have hp : (Assembly.ofText source).program = .ok p := by decide
  obtain ⟨r, d', t, hr, hends, hholds, hread, hiff⟩ :=
    (assemble_then_run hassemble hsource (by decide) (by decide) 0).2 p hp
  have htext : t = text := hholds.lines.trans (by decide)
  rw [htext] at hread
  -- the program is stopped at its last instruction, after it has printed one word
  let m : Machine := { Machine.blank with memory := Machine.memoryOf p }
  have hload : Machine.blank.load p = .ok m := rfl
  obtain ⟨c, hcrashed, htrap⟩ := Ending.exists_crashed
    (show (m.run 8).trap? = some ⟨4, .invalidAddress 297⟩ by decide +kernel)
  have hprinted : (m.run 8).state.transcript.printed = [42] := by decide +kernel
  have houtcome : Outcome p 8 1 (some c.trap.fault.code)
      (Program.print c.state.transcript.printed) := .crashed hload hcrashed
  rw [hcrashed, Ending.state] at hprinted
  rw [htrap, hprinted] at houtcome
  obtain ⟨r', hr', -, hends'⟩ := (hiff ByteArray.empty 8
    (["run", "-m", "./fault.mx"].map String.toList) true _ _ _ (by decide)).mpr houtcome
  refine ⟨r, d', ?_, hends, hread ByteArray.empty, r', ?_, hends'⟩
  · rw [Directory.perform_eq]
    exact hr
  · rw [Directory.perform_eq]
    exact hr'

end Storage
end Cli
end RegisterMachine
