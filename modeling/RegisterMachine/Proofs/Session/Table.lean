import RegisterMachine.Proofs.Session.Simulation

/-! # The breakpoint table in a session

In every session that can be looked at, memory and table agree: the table lists different addresses
of memory, and the breakpoint word stands at each of them.  Which addresses these are is up to the
commands alone.  `Event.tableAfter` replays a log: a command leaves the table that it leaves, and an
instruction changes nothing.

That the breakpoint word stands nowhere else is a matter of the whole history.  It is true until the
program has the breakpoint word among its own words, from the start or because it has stored it. -/

namespace RegisterMachine

/-- Whether a command is about the table. -/
def Command.editsTable : Command → Bool
  | .setBreakpoint _ | .clearBreakpoint _ => true
  | _ => false

/-- A session after the question that it has asked at an address. -/
def Session.answered (s : Session) (address : Nat) : Patched :=
  match s.unread with
  | [] => (s.toPatched.write (.prompt address)).setMode .finished
  | t :: _ => (s.toPatched.write (.prompt address)).heed address t

namespace Event

/-- The addresses of the table after something has happened. -/
def replay (table : List Nat) : Event → List Nat
  | asked address s => (s.answered address).breakpoints.addresses
  | executed _ _ => table

/-- The addresses of the table after everything in a log has happened. -/
def tableAfter (table : List Nat) (log : List Event) : List Nat :=
  log.foldl replay table

@[simp] theorem tableAfter_nil (table : List Nat) : tableAfter table [] = table := rfl

@[simp] theorem tableAfter_append (table : List Nat) (log log' : List Event) :
    tableAfter table (log ++ log') = tableAfter (tableAfter table log) log' :=
  List.foldl_append

end Event

/-! ## Questions -/

namespace Patched
variable {p : Patched} {address : Nat}

theorem breakpoints_obey {c : Command} (hc : c.editsTable = false) :
    (p.obey address c).breakpoints = p.breakpoints := by
  cases c with
  | setBreakpoint given | clearBreakpoint given => cases hc
  | _ => rfl

theorem breakpoints_heed {t : Text} (ht : ∀ c, Command.ofText? t = some c → c.editsTable = false) :
    (p.heed address t).breakpoints = p.breakpoints := by
  cases hc : Command.ofText? t with
  | some c =>
    rw [heed_of_command hc]
    exact breakpoints_obey (ht c hc)
  | none =>
    rcases heed_of_no_command p address hc with he | ⟨line, he⟩ <;> rw [he]
    rfl

/-- A pause leaves the table that its last question leaves. -/
theorem tableAfter_questions (address : Nat) (script : Script) (p : Patched) :
    Event.tableAfter p.breakpoints.addresses ((questions address script p).map (.asked address)) =
      (converse address script p).breakpoints.addresses := by
  induction script generalizing p with
  | nil => rfl
  | cons t rest ih =>
    rw [converse_cons, questions, List.map_cons]
    by_cases hends : Command.endsPause t = true
    · rw [if_pos hends, if_pos hends]
      rfl
    · rw [if_neg hends, if_neg hends]
      exact ih _

/-- A question finds the table that the questions before it have left. -/
theorem tableAfter_of_question {script : Script} {before after : List Session} {s : Session}
    (h : questions address script p = before ++ s :: after) :
    Event.tableAfter p.breakpoints.addresses (before.map (.asked address)) =
      s.breakpoints.addresses := by
  induction script generalizing p before with
  | nil =>
    simp only [questions] at h
    cases before with
    | nil =>
      cases h
      rfl
    | cons b before => simp at h
  | cons t rest ih =>
    simp only [questions] at h
    cases before with
    | nil =>
      cases h
      rfl
    | cons b before =>
      obtain ⟨rfl, htail⟩ := List.cons.inj h
      split at htail
      · simp at htail
      · have hrest := ih htail
        exact hrest

end Patched

namespace Session
variable {m : Machine} {s t x q : Session} {i : Instruction} {count fuel address : Nat}
  {front before after history : List Event}

/-! ## Which addresses the table has -/

theorem tableAfter_asks (s : Session) (a : Arrival) :
    Event.tableAfter s.breakpoints.addresses (s.asks a) = (s.ready a).breakpoints.addresses := by
  unfold asks ready
  split
  · exact Patched.tableAfter_questions s.machine.ip s.unread (s.toPatched.setMode .stepping)
  · rfl

theorem tableAfter_cycle (h : s.cycle = .ok t) :
    Event.tableAfter s.breakpoints.addresses s.cycleEvents = t.breakpoints.addresses := by
  obtain ⟨a, -, ⟨-, hevents, rfl⟩ | ⟨-, hexecute, hevents⟩⟩ := cycle_ok_cases h
  · rw [hevents, tableAfter_asks]
  · obtain ⟨e, -, hleaves⟩ := execute_ok_cases hexecute
    rw [hevents, Event.tableAfter_append, tableAfter_asks, hleaves.addresses]
    rfl

theorem tableAfter_cycle_error {c : Crash Session} (h : s.cycle = .error c) :
    Event.tableAfter s.breakpoints.addresses s.cycleEvents = c.state.breakpoints.addresses := by
  rcases cycle_error_cases h with ⟨-, hevents, hstate⟩ | ⟨a, -, -, hexecute, hevents⟩
  · rw [hevents, hstate, Event.tableAfter_nil]
  · obtain ⟨fault, -, -, hleaves⟩ := execute_error_cases hexecute
    rw [hevents, tableAfter_asks, hleaves.addresses]

theorem Cycled.tableAfter_eq (h : s.Cycled count front x) :
    Event.tableAfter s.breakpoints.addresses front = x.breakpoints.addresses := by
  induction h with
  | refl => rfl
  | snoc _ _ hcycle ih => rw [Event.tableAfter_append, ih, tableAfter_cycle hcycle]

/-- **A run leaves the addresses that its commands leave.** -/
theorem tableAfter_proceed (s : Session) (fuel : Nat) :
    Event.tableAfter s.breakpoints.addresses (s.events fuel) =
      (s.proceed fuel).state.breakpoints.addresses := by
  cases s.run_cases fuel with
  | completed h _ hevents hp | outOfFuel h _ hevents hp =>
    rw [hevents, hp]
    exact h.tableAfter_eq
  | crashed h _ hcrash hevents hp =>
    rw [hevents, hp, Event.tableAfter_append, h.tableAfter_eq]
    exact tableAfter_cycle_error hcrash

/-- **Every question finds the addresses that the commands before it have left.** -/
theorem tableAfter_of_asked (h : s.events fuel = before ++ .asked address q :: after) :
    Event.tableAfter s.breakpoints.addresses before = q.breakpoints.addresses := by
  obtain ⟨count, front, x, a, pre, post, more, hx, -, -, -, -, hquestions, rfl, -⟩ :=
    asked_in_cycle h
  rw [Event.tableAfter_append, hx.tableAfter_eq]
  exact Patched.tableAfter_of_question (p := x.toPatched.setMode .stepping) hquestions

/-! ## Where else the breakpoint word may stand -/

/-- **An instruction brings the breakpoint word among the words of the program only by storing it.**
-/
theorem unmarked_execute (hu : s.Unmarked)
    (hstored : ∀ a, s.machine.stored? i ≠ some (a, breakpointWord)) (h : s.execute i = .ok t) :
    t.Unmarked := by
  obtain ⟨e, he, hleaves⟩ := execute_ok_cases h
  intro address hword
  rw [hleaves.plain] at hword
  -- the word was stored just now, or it was there before
  by_cases hstore : ∃ w, e = .store address w
  · obtain ⟨w, rfl⟩ := hstore
    rw [← Machine.stored?_eq_some_iff, Machine.stored?_congr s.plain_registers] at he
    obtain rfl : w = breakpointWord := by simpa [Machine.apply] using hword
    exact hstored address he
  · rw [Machine.word_apply_of_forall_ne _ _ (not_exists.mp hstore)] at hword
    exact hu address hword

theorem unmarked_cycle (hu : s.Unmarked) (h : s.cycle = .ok t)
    (hstored : ∀ e ∈ s.cycleEvents, ∀ a, e.stored? ≠ some (a, breakpointWord)) : t.Unmarked := by
  obtain ⟨a, -, hcase⟩ := cycle_ok_cases h
  have hready := hu.of_alike (s.unnoticed_ready a).alike
  rcases hcase with ⟨-, -, rfl⟩ | ⟨-, hexecute, hevents⟩
  · exact hready
  · refine unmarked_execute hready ?_ hexecute
    exact hstored (.executed _ _) (by rw [hevents]; simp)

theorem unmarked_cycle_error {c : Crash Session} (hu : s.Unmarked) (h : s.cycle = .error c) :
    c.state.Unmarked := by
  rcases cycle_error_cases h with ⟨-, -, hstate⟩ | ⟨a, -, -, hexecute, -⟩
  · rw [hstate]
    exact hu
  · obtain ⟨fault, -, -, hleaves⟩ := execute_error_cases hexecute
    intro address hword
    rw [hleaves.plain] at hword
    exact hu.of_alike (s.unnoticed_ready a).alike address hword

theorem Cycled.unmarked (h : s.Cycled count front x) (hu : s.Unmarked)
    (hstored : ∀ e ∈ front, ∀ a, e.stored? ≠ some (a, breakpointWord)) : x.Unmarked := by
  induction h with
  | refl => exact hu
  | snoc _ _ hcycle ih =>
    simp only [List.mem_append] at hstored
    exact unmarked_cycle (ih fun e he => hstored e (.inl he)) hcycle
      fun e he => hstored e (.inr he)

theorem unmarked_proceed (hu : s.Unmarked)
    (hstored : ∀ e ∈ s.events fuel, ∀ a, e.stored? ≠ some (a, breakpointWord)) :
    (s.proceed fuel).state.Unmarked := by
  cases s.run_cases fuel with
  | completed h _ hevents hp | outOfFuel h _ hevents hp =>
    rw [hevents] at hstored
    rw [hp]
    exact h.unmarked hu hstored
  | crashed h _ hcrash hevents hp =>
    rw [hevents] at hstored
    rw [hp]
    refine unmarked_cycle_error (h.unmarked hu fun e he => ?_) hcrash
    exact hstored e (List.mem_append_left _ he)

/-! ## Sessions that can be looked at -/

theorem Reachable.unmarked (hs : Reachable m history s)
    (hm : ∀ address, m.word address ≠ breakpointWord)
    (hstored : ∀ e ∈ history, ∀ a, e.stored? ≠ some (a, breakpointWord)) : s.Unmarked := by
  induction hs with
  | start script =>
    intro address
    rw [Patched.plain_word]
    exact hm address
  | set _ hset ih =>
    rw [Patched.Unmarked, Patched.plain_of_set hset]
    exact ih hstored
  | clear _ hclear ih =>
    rw [Patched.Unmarked, Patched.plain_of_clear hclear]
    exact ih hstored
  | @run history s fuel _ _ ih =>
    simp only [List.mem_append] at hstored
    have hu := ih fun e he => hstored e (.inl he)
    have hbegun := hu.of_alike (Patched.Unnoticed.setMode s.toPatched .stepping).alike
    exact unmarked_proceed (s := s.begun) hbegun fun e he => hstored e (.inr he)

/-- A session that asks for a command is one that a cycle has paused, and the program has not
noticed. -/
theorem unnoticed_of_asked (h : s.events fuel = before ++ .asked address q :: after) :
    ∃ count front x, s.Cycled count front x ∧ front ⊆ before ∧
      x.toPatched.Unnoticed q.toPatched := by
  obtain ⟨count, front, x, a, pre, post, more, hx, -, -, -, -, hquestions, rfl, -⟩ :=
    asked_in_cycle h
  refine ⟨count, front, x, hx, List.subset_append_left _ _, unnoticed_question ?_⟩
  rw [hquestions]
  simp

theorem Observed.consistent (hs : Observed m history s) : s.Consistent := by
  cases hs with
  | reachable hs => exact hs.consistent
  | asking hs h =>
    obtain ⟨count, front, x, hx, -, hunnoticed⟩ := unnoticed_of_asked h
    exact hunnoticed.consistent (hx.simulates (consistent_begun hs.consistent) (.refl _)).1

theorem Observed.unmarked (hs : Observed m history s)
    (hm : ∀ address, m.word address ≠ breakpointWord)
    (hstored : ∀ e ∈ history, ∀ a, e.stored? ≠ some (a, breakpointWord)) : s.Unmarked := by
  cases hs with
  | reachable hs => exact hs.unmarked hm hstored
  | @asking _ _ _ s _ _ _ hs h =>
    simp only [List.mem_append] at hstored
    have hu := hs.unmarked hm fun e he => hstored e (.inl he)
    have hbegun : s.begun.Unmarked :=
      hu.of_alike (Patched.Unnoticed.setMode s.toPatched .stepping).alike
    obtain ⟨count, front, x, hx, hfront, hunnoticed⟩ := unnoticed_of_asked h
    have hxu := hx.unmarked hbegun fun e he => hstored e (.inr (hfront he))
    exact hxu.of_alike hunnoticed.alike

/-- **The breakpoint table.**  Wherever a session can be looked at, between runs and at every
question inside a run:

* the table lists different addresses of memory, and the breakpoint word stands at each of them;
* an instruction leaves the addresses of the table and their order, whether it succeeds or not, and
  so does every text but the commands that set and clear;
* in a run, the addresses at every question and at the end are those that the last command has left;
* if the machine had no breakpoint word at the start and no instruction has stored one, the
  breakpoint word stands only where the table says so. -/
theorem Observed.table_agrees (hs : Observed m history s) :
    s.Consistent ∧
      (∀ i t, s.execute i = .ok t → t.breakpoints.addresses = s.breakpoints.addresses) ∧
      (∀ i c, s.execute i = .error c → c.state.breakpoints.addresses = s.breakpoints.addresses) ∧
      (∀ address t, (∀ c, Command.ofText? t = some c → c.editsTable = false) →
        (s.heed address t).breakpoints = s.breakpoints) ∧
      (∀ fuel, (s.run fuel).state.breakpoints.addresses =
        Event.tableAfter s.breakpoints.addresses (s.log fuel)) ∧
      (∀ fuel before address q after, s.log fuel = before ++ .asked address q :: after →
        q.breakpoints.addresses = Event.tableAfter s.breakpoints.addresses before) ∧
      ((∀ address, m.word address ≠ breakpointWord) →
        (∀ e ∈ history, ∀ a, e.stored? ≠ some (a, breakpointWord)) →
        ∀ address, s.machine.word? address = some breakpointWord →
          address ∈ s.breakpoints.addresses) := by
  refine ⟨hs.consistent, ?_, ?_, ?_, ?_, ?_, ?_⟩
  · intro i t h
    obtain ⟨e, -, hleaves⟩ := execute_ok_cases h
    exact hleaves.addresses
  · intro i c h
    obtain ⟨fault, -, -, hleaves⟩ := execute_error_cases h
    exact hleaves.addresses
  · intro address t ht
    exact Patched.breakpoints_heed ht
  · intro fuel
    exact (tableAfter_proceed s.begun fuel).symm
  · intro fuel before address q after h
    exact (tableAfter_of_asked (s := s.begun) h).symm
  · intro hm hstored address hword
    exact (hs.unmarked hm hstored).mem_addresses hword

/-- A program stores over the word at which a breakpoint is set, and then runs into a word that is
no instruction. -/
theorem table_agrees_after_crash :
    let m : Machine :=
      { Machine.blank with memory := Machine.memoryOf [0x070002, 0x050102, 0x010005, 0x00010b] }
    let s := start m ["b 5".toList, "r".toList]
    let t := (s.run 8).state
    (s.run 8).trap? = some ⟨4, .unknownOpcode 0⟩ ∧ t.breakpoints = [(5, 7)] ∧ t.Consistent ∧
      ∀ address, t.machine.word? address = some breakpointWord → address ∈ [5] := by
  intro m s t
  have hreachable : Reachable m ([] ++ s.log 8) t := .run (.start _) (by decide +kernel)
  have hm : ∀ address, m.word address ≠ breakpointWord := by
    intro address hword
    have hmemory : m.memory = Machine.memoryOf [0x070002, 0x050102, 0x010005, 0x00010b] := rfl
    have hmem := Machine.word_mem_of_memory hmemory address
    rw [hword] at hmem
    exact absurd hmem (by decide)
  have hlog : (s.log 8).filterMap Event.stored? = [(5, 7)] := by decide +kernel
  have hstored : ∀ e ∈ [] ++ s.log 8, ∀ a, e.stored? ≠ some (a, breakpointWord) := by
    intro e he a hstored
    have hmem := List.mem_filterMap.mpr ⟨e, he, hstored⟩
    rw [List.nil_append, hlog, List.mem_singleton] at hmem
    exact absurd (Prod.mk.inj hmem).2 (by decide)
  have htable : t.breakpoints = [(5, 7)] := by decide +kernel
  obtain ⟨hc, -, -, -, -, -, hconverse⟩ := (Observed.reachable hreachable).table_agrees
  refine ⟨by decide +kernel, htable, hc, ?_⟩
  intro address hword
  have hmem := hconverse hm hstored address hword
  rwa [htable] at hmem

end Session
end RegisterMachine
