import RegisterMachine.Proofs.Session.Dialogue
import RegisterMachine.Proofs.Session.Trimmed
import RegisterMachine.Proofs.Text.Utf8

/-! # Commands that are piped and commands that are given

A text of commands can be given to a session as it is, or piped to it.  Without semicolons in it the
two are cut at the same places, but what is piped keeps its line ends (`map_trim_ofBytes`).  Since a
session takes no notice of blanks, the two sessions do the same from the first question to the end
of the last run (`Paired.trimmed_eq`), and what is seen of them differs in the prompts alone. -/

namespace RegisterMachine

/-! ## Scripts -/

namespace Script

/-- **What is piped comes line by line**, each line with its end. -/
theorem ofBytes_encode (t : Text) : ofBytes (Text.encode t) = Text.segments (· == '\n') t := by
  have hline : ∀ line : Text, Text.decode? ⟨(Text.encodedBytes line).toArray⟩ = some line := by
    intro line
    rw [← Text.encode_eq]
    exact Text.decode?_encode line
  have hlines : (Text.segments (· == '\n'.toUInt8) (Text.encode t).data.toList).map
      (fun line => Text.decode? ⟨line.toArray⟩) = (Text.segments (· == '\n') t).map some := by
    rw [Text.encode_eq, List.toList_toArray, Text.segments_encodedBytes, List.map_map]
    exact List.map_congr_left fun line _ => hline line
  rw [ofBytes, hlines, List.takeWhile_eq_self_iff.mpr (by simp), List.filterMap_map]
  exact List.filterMap_some

/-- Without semicolons, commands end with their lines. -/
theorem ofText_eq {t : Text} (h : ';' ∉ t) : ofText t = Text.entries (· == '\n') t := by
  have hends : ∀ c ∈ t, endsCommand c = (c == '\n') := by
    intro c hc
    have hne : (c == ';') = false := by
      rw [beq_eq_false_iff_ne]
      rintro rfl
      exact h hc
    rw [endsCommand, hne, Bool.false_or]
  rw [ofText, Text.entries, Text.pieces_congr hends, Text.entries]

/-- **Piped or given, the commands are the same** up to blanks. -/
theorem map_trim_ofBytes {t : Text} (h : ';' ∉ t) :
    (ofBytes (Text.encode t)).map Text.trim = (ofText t).map Text.trim := by
  have hblank : Text.isBlank '\n' = true := by decide
  rw [ofBytes_encode, ofText_eq h]
  have halike : List.Forall₂ (fun segment entry => Text.trim segment = Text.trim entry)
      (Text.segments (· == '\n') t) (Text.entries (· == '\n') t) := by
    refine (Text.segments_entries (· == '\n') t).imp fun segment entry h => ?_
    rcases h with rfl | ⟨c, hc, rfl⟩
    · rfl
    · rw [beq_iff_eq.mp hc, Text.trim_append_blank entry hblank]
  rw [← List.forall₂_eq_eq_eq]
  exact List.forall₂_map_left_iff.mpr (List.forall₂_map_right_iff.mpr halike)

end Script

/-! ## Sessions -/

namespace Patched

theorem reply_trim (p : Patched) (address : Nat) (t : Text) :
    p.reply address (Text.trim t) = p.reply address t := by
  rw [reply, reply, Text.trim_trim]

end Patched

namespace Event

theorem prompt_trimmed (e : Event) : e.trimmed.prompt = e.prompt := by
  cases e <;> rfl

theorem output_trimmed (e : Event) : e.trimmed.output = e.output := by
  cases e with
  | executed p i => rfl
  | asked address s =>
    rcases s with ⟨p, _ | ⟨t, rest⟩⟩
    · rfl
    · show ((p.reply address (Text.trim t)).flatMap (· ++ ['\n'])) = _
      rw [Patched.reply_trim]
      rfl

theorem shown_trimmed (prompts : Bool) (e : Event) : e.trimmed.shown prompts = e.shown prompts := by
  rw [shown, shown, prompt_trimmed, output_trimmed]

/-- Blanks around commands are not seen. -/
theorem flatMap_shown_trimmed (prompts : Bool) (log : List Event) :
    (log.map trimmed).flatMap (shown prompts) = log.flatMap (shown prompts) := by
  rw [List.flatMap_map]
  exact List.flatMap_congr fun e _ => shown_trimmed prompts e

theorem reads_map_trimmed (log : List Event) :
    reads (log.map trimmed) = (reads log).map (Option.map Text.trim) := by
  rw [reads, reads, List.filterMap_map, List.map_filterMap]
  refine List.filterMap_congr fun e _ => ?_
  cases e with
  | executed p i => rfl
  | asked address s => exact congrArg some List.head?_map

end Event

namespace Session
variable {m : Machine} {t : Text} {piped argument : Session}

/-- **Two sessions that are treated alike**: they start with the same machine, one with a text that
is piped to it and the other with the text as it is, the same breakpoints are set and cleared in
them, and they are run until they end. -/
inductive Paired (m : Machine) (t : Text) : Session → Session → Prop
  | start : Paired m t (start m (Script.ofBytes (Text.encode t))) (start m (Script.ofText t))
  | set {piped argument : Session} {address : Nat} {new new' : Bool} {p p' : Patched}
      (h : Paired m t piped argument) (hp : piped.toPatched.set address = .ok (new, p))
      (ha : argument.toPatched.set address = .ok (new', p')) :
      Paired m t { piped with toPatched := p } { argument with toPatched := p' }
  | clear {piped argument : Session} {address : Nat} {found found' : Bool} {p p' : Patched}
      (h : Paired m t piped argument) (hp : piped.toPatched.clear address = .ok (found, p))
      (ha : argument.toPatched.clear address = .ok (found', p')) :
      Paired m t { piped with toPatched := p } { argument with toPatched := p' }
  | run {piped argument : Session} {fuel fuel' : Nat} (h : Paired m t piped argument)
      (hp : (piped.run fuel).isFinal = true) (ha : (argument.run fuel').isFinal = true) :
      Paired m t (piped.run fuel).state (argument.run fuel').state

theorem map_trimmed_run (h : piped.trimmed = argument.trimmed) (fuel : Nat) :
    (piped.run fuel).map trimmed = (argument.run fuel).map trimmed := by
  rw [← run_trimmed, ← run_trimmed, h]

/-- **Sessions that are treated alike differ in blanks alone.** -/
theorem Paired.trimmed_eq (h : Paired m t piped argument) (ht : ';' ∉ t) :
    piped.trimmed = argument.trimmed := by
  induction h with
  | start => simp only [trimmed, Session.start, Script.map_trim_ofBytes ht]
  | set _ hp ha ih | clear _ hp ha ih =>
    obtain ⟨hpatched, hunread⟩ := Session.mk.inj ih
    rw [hpatched, ha] at hp
    cases hp
    rw [trimmed, trimmed, hunread]
  | @run piped argument fuel fuel' _ hp ha ih =>
    -- with enough fuel for both, the two runs are compared at the same fuel
    have hmap := map_trimmed_run ih (max fuel fuel')
    rw [run_mono (Nat.le_max_left _ _) hp, run_mono (Nat.le_max_right _ _) ha] at hmap
    rw [← Ending.state_map trimmed, hmap, Ending.state_map]

/-- **Piped commands do what given ones do.**  Every run of the one session ends like the run of the
other, with the same machine and the same breakpoints.  Both read the same number of times, each
time the next text of their own script, or its end.  What the piped run has written is what the
other has written, with a prompt before each read. -/
theorem Paired.run_agrees (h : Paired m t piped argument) (ht : ';' ∉ t) (fuel : Nat) :
    (piped.run fuel).map Session.toPatched = (argument.run fuel).map Session.toPatched ∧
      (∃ count, Event.reads (piped.log fuel) = (List.range count).map (piped.unread[·]?) ∧
        Event.reads (argument.log fuel) = (List.range count).map (argument.unread[·]?)) ∧
      (argument.run fuel).state.written false =
        argument.written false ++ (argument.log fuel).flatMap Event.output ∧
      (piped.run fuel).state.written true =
        piped.written true ++ (argument.log fuel).flatMap fun e => e.prompt ++ e.output := by
  have htrimmed := h.trimmed_eq ht
  have hlog : (piped.log fuel).map Event.trimmed = (argument.log fuel).map Event.trimmed := by
    rw [← log_trimmed, ← log_trimmed, htrimmed]
  have hpiped := piped.accounts_run fuel
  have hargument := argument.accounts_run fuel
  refine ⟨?_, ?_, ?_, ?_⟩
  · have hmap := congrArg (Ending.map Session.toPatched) (map_trimmed_run htrimmed fuel)
    rw [Ending.map_map, Ending.map_map] at hmap
    exact hmap
  · obtain ⟨count, hreads, -⟩ := hpiped.read
    obtain ⟨count', hreads', -⟩ := hargument.read
    have hlength : (Event.reads (piped.log fuel)).length =
        (Event.reads (argument.log fuel)).length := by
      have hreads := congrArg (fun log => (Event.reads log).length) hlog
      simpa only [Event.reads_map_trimmed, List.length_map] using hreads
    have hcount : count' = count := by
      simpa [hreads, hreads', eq_comm] using hlength
    exact ⟨count, hreads, hcount ▸ hreads'⟩
  · rw [hargument.written]
    rfl
  · rw [hpiped.written, ← Event.flatMap_shown_trimmed, hlog, Event.flatMap_shown_trimmed]
    rfl

/-- A line that ends in a carriage return, an empty one, one that is no command, and a last one
without an end: the piped session asks five times, the last time at the end of its script. -/
theorem run_agrees_line_by_line :
    let m : Machine :=
      { Machine.blank with memory := Machine.memoryOf [0x070002, 0x00000a, 0x000001] }
    let t := "s\r\n\nx\ns".toList
    let piped := start m (Script.ofBytes (Text.encode t))
    let argument := start m (Script.ofText t)
    (argument.run 8).isFinal = true ∧
      (piped.run 8).map Session.toPatched = (argument.run 8).map Session.toPatched ∧
      (argument.run 8).state.written false = "Unknown command 'x'\n000007\n".toList ∧
      (piped.run 8).state.written true = ("000000 [bcdmnqrs]> 000001 [bcdmnqrs]> " ++
        "000001 [bcdmnqrs]> Unknown command 'x'\n000001 [bcdmnqrs]> 000007\n" ++
        "000002 [bcdmnqrs]> ").toList := by
  intro m t piped argument
  have hfinal : (argument.run 8).isFinal = true := by decide +kernel
  obtain ⟨hmap, -, hargument, hpiped⟩ := (Paired.start (m := m) (t := t)).run_agrees (by decide) 8
  refine ⟨hfinal, hmap, hargument.trans ?_, hpiped.trans ?_⟩
  · decide +kernel
  · decide +kernel

end Session
end RegisterMachine
