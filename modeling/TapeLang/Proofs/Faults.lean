import TapeLang.Proofs.Engine

/-!
# Moves that leave the tape, in the engine and in the interpreter

An engine that has code for its program reports an index outside of the tape exactly if the
interpreter does (`Engine.faultsAlike`). Both have then met the same move; tape, counters and output
are the same, while the cursors differ, and so do the indices that are reported if the sum is more
than a signed word can hold (`Engine.Stopped`).

Proof. The interpreter fails so exactly if it comes to a move that leaves the tape
(`Interpreter.faults_iff`), and there the machine has reported that index, as a word
(`Engine.Mirrors`). What the engine takes over from the machine is what the routine has written back
before the move is checked (`Engine.of_reported`).
-/

namespace TapeLang

namespace Engine

open X86
open Interpreter (Completes Overruns)

variable {σ : Type} {env : Environment} {sink : Sink σ} {e e' : Engine} {out out' sent : σ} {s s₀ : Interpreter}
  {index : Int} {capacity : Nat} {delta : Int64}

/-- A run ends with the report that the tape pointer would be `index` on a tape of `capacity` cells. -/
def Faults (env : Environment) (sink : Sink σ) (e : Engine) (out : σ) (index : Int) (capacity : Nat)
    (e' : Engine) (out' : σ) : Prop :=
  ∃ fuel, e.run env sink fuel out = (.ended (some (.outOfBounds index capacity)), e', out')

/-- An engine and the interpreter that have been stopped by a move, which the interpreter has met in
the state `s₀`. The engine reports `index`, the interpreter `limited`. -/
structure Stopped (e : Engine) (delta : Int64) (s₀ : Interpreter) (index : Int) (e' : Engine) (limited : Int)
    (s : Interpreter) : Prop where
  /-- The interpreter has counted and passed the move, and has changed nothing else. -/
  passed : s = ⟨s₀.tape, ⟨s₀.cursor.ip + 1, s₀.cursor.ptr⟩, s₀.halted, s₀.counters.map (·.record .move)⟩
  tape : e'.tape = s.tape
  counters : e'.counters = s.counters
  /-- The cursor of the engine is where its run started. -/
  cursor : e'.cursor = e.cursor
  exact (h : (s₀.cursor.ptr : Int) + delta.toInt ≤ 2 ^ 63 - 1) :
    index = s₀.cursor.ptr + delta.toInt ∧ limited = s₀.cursor.ptr + delta.toInt
  wrapped (h : 2 ^ 63 - 1 < (s₀.cursor.ptr : Int) + delta.toInt) :
    index = s₀.cursor.ptr + delta.toInt - 2 ^ 64 ∧ limited = 2 ^ 63 - 1

/-- An engine reports an index outside of the tape exactly if the interpreter does, and both have then
been stopped by the same move. -/
structure FaultsAlike (env : Environment) (sink : Sink σ) (e : Engine) (out : σ) : Prop where
  faults_iff : (∃ index capacity e' out', e.Faults env sink out index capacity e' out') ↔
    e.Accepted env ∧ ∃ index capacity s sent, e.interpreter.Faults e.program sink out index capacity s sent
  stopped {index limited : Int} {capacity capacity' : Nat} {e' : Engine} {out' : σ} {s : Interpreter} {sent : σ}
    (h : e.Faults env sink out index capacity e' out')
    (hs : e.interpreter.Faults e.program sink out limited capacity' s sent) :
    capacity = e.tape.capacity ∧ capacity' = e.tape.capacity ∧ out' = sent ∧
      ∃ delta s₀, Overruns e.program sink e.interpreter out delta s₀ sent ∧
        Stopped e delta s₀ index e' limited s

/-! ### Engines that do not enter code -/

/-- An engine that reports no index is like an interpreter that reports none. -/
theorem faultsAlike_of_not_faults
    (hengine : ∀ index capacity e' out', ¬ e.Faults env sink out index capacity e' out')
    (hinterpreter : e.Accepted env →
      ∀ index capacity s sent, ¬ e.interpreter.Faults e.program sink out index capacity s sent) :
    e.FaultsAlike env sink out := by
  constructor
  · constructor
    · rintro ⟨_, _, _, _, h⟩
      exact absurd h (hengine _ _ _ _)
    · rintro ⟨haccepted, _, _, _, _, h⟩
      exact absurd h (hinterpreter haccepted _ _ _ _)
  · intro _ _ _ _ _ _ _ _ h
    exact absurd h (hengine _ _ _ _)

theorem faultsAlike_of_finished (hf : e.finished = true) : e.FaultsAlike env sink out := by
  refine faultsAlike_of_not_faults ?_ ?_
  · rintro _ _ _ _ ⟨fuel, h⟩
    rw [run, enter_of_finished env hf] at h
    cases h
  · intro _ _ _ _ _
    exact Interpreter.not_faults_of_size_le rfl (finished_iff.1 hf)

/-- A program that is refused is not refused for an index. -/
theorem faultsAlike_of_refused (h : Ready env e) (hc : e.program.Compilable) (hf : e.finished = false)
    (hr : ∀ r, ¬ e.Code env r) : e.FaultsAlike env sink out := by
  refine faultsAlike_of_not_faults ?_ ?_
  · rintro _ _ _ _ ⟨fuel, hrun⟩
    obtain ⟨error, hgenerate, hcompile⟩ := exists_compile_error h hr
    obtain ⟨a, rfl⟩ := exists_assembly_of_generate_error h.linked hc
      ⟨e.tape.capacity_pos, Nat.le_of_lt e.tape.capacity_lt⟩ hgenerate
    rw [run, enter, hf, hcompile] at hrun
    cases hrun
  · rintro (haccepted | ⟨r, hcode⟩)
    · rw [hf] at haccepted
      cases haccepted
    · exact absurd hcode (hr r)

/-! ### Engines that enter code -/

section Running

variable {r : Routine} {offset : Nat}

/-- A run that enters code reports an index where the machine returns with that index recorded. -/
theorem faults_iff_of_enter {e₁ : Engine} {code : Array UInt8} {m : Machine σ}
    (henter : e.enter env out = .entered e₁ code m) :
    e.Faults env sink out index capacity e' out' ↔
      ∃ t word, (∃ n, advance (Machine.next env code sink) n m = some t) ∧ t.rip = env.returnAddress ∧
        t.host.fault = some (.outOfBounds word) ∧ index = word.toInt64.toInt ∧ capacity = t.tape.capacity ∧
        out' = t.host.out ∧ e' = { e₁ with tape := t.tape, counters := t.counters } := by
  constructor
  · rintro ⟨fuel, h⟩
    obtain ⟨t, ht, h⟩ := exists_returned_of_run henter h
    obtain ⟨hadvance, hrip⟩ := Machine.run_eq_returned_iff.1 ⟨fuel, ht⟩
    unfold finish at h
    split at h
    · rename_i f hfault
      cases f with
      | outOfBounds word =>
        cases h
        exact ⟨t, word, hadvance, hrip, hfault, rfl, rfl, rfl, rfl⟩
      | output error => cases h
    · generalize sink.flush t.host.out = flushed at h
      obtain ⟨answer, out₁⟩ := flushed
      cases answer <;> cases h
  · rintro ⟨t, word, hadvance, hrip, hfault, rfl, rfl, rfl, rfl⟩
    obtain ⟨fuel, ht⟩ := Machine.run_eq_returned_iff.2 ⟨hadvance, hrip⟩
    refine ⟨fuel, ?_⟩
    rw [run_of_returned henter ht]
    unfold finish
    rw [hfault]
    rfl

/-- Where the routine has reported a move, all that the engine takes over from the machine is the
interpreter's. -/
theorem of_reported (h : Ready env e) {bytes : Array UInt8}
    (hoverruns : Overruns e.program Sink.buffer e.interpreter #[] delta s bytes) {word : UInt64} {t : Machine σ}
    (ht : Machine.Reported env sink e.counting (e.entryMachine env offset out) (s.pass (.move delta)) bytes word t) :
    t.tape = s.tape ∧ t.counters = (s.pass (.move delta)).counters ∧
      t.host = ((⟨out, none⟩ : HostState σ).putAll sink bytes.toList).record (.outOfBounds word) := by
  obtain ⟨k, hk⟩ := hoverruns.reaches
  obtain ⟨_, _, _, hcounters⟩ := Interpreter.advance_keeps hk h.ptr_lt
  have hpassed : (s.pass (.move delta)).counters.isSome = e.counters.isSome := by
    rw [Interpreter.counters_pass, Option.isSome_map]
    exact hcounters
  exact of_returned h hpassed ht

/-- The engine has been stopped by the move that the routine has reported. -/
theorem stopped_of_move (r : Routine) (hptr : s.cursor.ptr < s.tape.capacity) {tape : Tape}
    {counters : Option Counters} (htape : tape = s.tape) (hcounters : counters = (s.pass (.move delta)).counters) :
    Stopped e delta s (UInt64.ofNat s.cursor.ptr + delta.toUInt64).toInt64.toInt
      { e.withRoutine r with tape, counters } (min ((s.cursor.ptr : Int) + delta.toInt) (2 ^ 63 - 1))
      (s.pass (.move delta)) where
  passed := rfl
  tape := htape
  counters := hcounters
  cursor := rfl
  exact hle := ⟨toInt_add_of_le hle, Int.min_eq_left hle⟩
  wrapped hlt := ⟨toInt_add_of_lt hptr hlt, Int.min_eq_right (Int.le_of_lt hlt)⟩

/-- The machine has recorded an index only where the interpreter comes to a move that leaves the tape. -/
theorem exists_overruns_of_fault (h : Ready env e) (hs : sink.Faultless) {code : Array UInt8} {word : UInt64}
    {t : Machine σ} (hmirrors : Mirrors env sink e code (e.entryMachine env offset out))
    (ht : ∃ n, advance (Machine.next env code sink) n (e.entryMachine env offset out) = some t)
    (hrip : t.rip = env.returnAddress) (hfault : t.host.fault = some (.outOfBounds word)) :
    ∃ delta s, Overruns e.program sink e.interpreter out delta s t.host.out ∧
      t.tape = s.tape ∧ t.counters = (s.pass (.move delta)).counters ∧
      word = UInt64.ofNat s.cursor.ptr + delta.toUInt64 := by
  rcases hmirrors.ends ht hrip with ⟨s, bytes, hcompletes, hexited⟩ | ⟨delta, s, bytes, hoverruns, hreported⟩
  · obtain ⟨_, _, hhost, _⟩ := of_exited h hs hcompletes hexited
    rw [hhost] at hfault
    cases hfault
  · obtain ⟨htape, hcounters, hhost⟩ := of_reported h hoverruns hreported
    rw [HostState.putAll_of_faultless hs rfl] at hhost
    rw [hhost] at hfault ⊢
    cases hfault
    exact ⟨delta, s, (Interpreter.overruns_iff hs).2 ⟨bytes, hoverruns, rfl⟩, htape, hcounters, rfl⟩

/-- Where the interpreter comes to a move that leaves the tape, the machine returns with an index
recorded. -/
theorem exists_fault_of_overruns (h : Ready env e) (hs : sink.Faultless) {code : Array UInt8}
    (hmirrors : Mirrors env sink e code (e.entryMachine env offset out))
    (hoverruns : Overruns e.program sink e.interpreter out delta s sent) :
    ∃ t word, (∃ n, advance (Machine.next env code sink) n (e.entryMachine env offset out) = some t) ∧
      t.rip = env.returnAddress ∧ t.host.fault = some (.outOfBounds word) := by
  obtain ⟨bytes, hbuffer, _⟩ := (Interpreter.overruns_iff hs).1 hoverruns
  obtain ⟨t, ht, hreported⟩ := hmirrors.reports hbuffer
  obtain ⟨_, _, hhost⟩ := of_reported h hbuffer hreported
  rw [HostState.putAll_of_faultless hs rfl] at hhost
  exact ⟨t, _, ht, hreported.rip, by rw [hhost]; rfl⟩

/-- The code of an engine faults as the interpreter does. -/
theorem faultsAlike_of_code (h : Ready env e) (hs : sink.Faultless) (hf : e.finished = false) (hr : e.Code env r) :
    e.FaultsAlike env sink out := by
  obtain ⟨offset, hresume, henter⟩ := exists_enter h hr hf out
  have hmirrors := mirrors h hr hresume sink out
  constructor
  · constructor
    · rintro ⟨_, _, _, _, hfaults⟩
      obtain ⟨t, word, ht, hrip, hfault, _⟩ := (faults_iff_of_enter henter).1 hfaults
      obtain ⟨delta, s₀, hoverruns, _⟩ := exists_overruns_of_fault h hs hmirrors ht hrip hfault
      exact ⟨.inr ⟨r, hr⟩, _, _, _, _,
        (Interpreter.faults_iff rfl h.ptr_lt).2 ⟨delta, s₀, hoverruns, rfl, rfl, rfl⟩⟩
    · rintro ⟨_, _, _, _, _, hfaults⟩
      obtain ⟨delta, s₀, hoverruns, _⟩ := (Interpreter.faults_iff rfl h.ptr_lt).1 hfaults
      obtain ⟨t, word, ht, hrip, hfault⟩ := exists_fault_of_overruns h hs hmirrors hoverruns
      exact ⟨_, _, _, _, (faults_iff_of_enter henter).2 ⟨t, word, ht, hrip, hfault, rfl, rfl, rfl, rfl⟩⟩
  · intro index limited capacity capacity' e' out' s sent hfaults hinterpreter
    obtain ⟨t, word, ht, hrip, hfault, rfl, rfl, rfl, rfl⟩ := (faults_iff_of_enter henter).1 hfaults
    obtain ⟨delta, s₀, hoverruns, htape, hcounters, rfl⟩ := exists_overruns_of_fault h hs hmirrors ht hrip hfault
    obtain ⟨delta', s₁, hoverruns', rfl, rfl, rfl⟩ := (Interpreter.faults_iff rfl h.ptr_lt).1 hinterpreter
    -- the two moves are one
    obtain ⟨rfl, rfl, rfl⟩ := hoverruns.unique hoverruns' rfl h.ptr_lt
    obtain ⟨k, hk⟩ := hoverruns'.reaches
    obtain ⟨_, hptr, hcapacity, _⟩ := Interpreter.advance_keeps hk h.ptr_lt
    refine ⟨?_, rfl, rfl, delta', s₁, hoverruns', stopped_of_move r hptr htape hcounters⟩
    rw [htape]
    exact hcapacity

/-- An engine that can be run faults as the interpreter does. -/
theorem faultsAlike (h : Ready env e) (hc : e.program.Compilable) (hs : sink.Faultless) (out : σ) :
    e.FaultsAlike env sink out := by
  cases hf : e.finished with
  | true => exact faultsAlike_of_finished hf
  | false =>
    by_cases hr : ∃ r, e.Code env r
    · obtain ⟨r, hr⟩ := hr
      exact faultsAlike_of_code h hs hf hr
    · exact faultsAlike_of_refused h hc hf (not_exists.1 hr)

end Running

section Resuming

variable {p : Program} {tape : Tape} {cursor : Cursor} {options : Options}

variable (env cursor options) in
/-- An engine that goes on from a state faults as the interpreter would. -/
theorem resume_faults_alike (hp : p.Linked) (hc : p.Compilable) (hs : sink.Faultless)
    (hptr : cursor.ptr < tape.capacity)
    (hsuits : ∀ r, Architecture.host.generate p ⟨tape.capacity, options.counting, env.host⟩ = .ok r →
      env.Suits ⟨tape.capacity, options.counting, env.host⟩ r.code) (out : σ) :
    ∃ e, resume p tape cursor options = .ok e ∧
      e.program = p ∧
      e.interpreter = ⟨tape, cursor, false, options.newCounters⟩ ∧
      (p.size ≤ maxSize → e.Accepted env) ∧
      e.FaultsAlike env sink out := by
  refine ⟨resumed p tape cursor options, resume_eq_ok hptr, rfl, rfl, accepted_of_size_le hp hc, ?_⟩
  rcases Nat.le_total cursor.ip p.size with hip | hip
  · exact faultsAlike (ready_resumed hp hip hptr hsuits) hc hs out
  · exact faultsAlike_of_finished (finished_iff.2 hip)

/-- From the second of two cells, a move that no signed word holds the sum of: the interpreter reports
the largest index, the engine the smallest. -/
theorem resume_faults_alike_overflow :
    let p : Program := #[.add 1, .output, .move 9223372036854775807]
    ∃ tape e e' s, Tape.new 2 = .ok tape ∧ resume p tape ⟨0, 1⟩ ⟨2, true⟩ = .ok e ∧
      e.Faults environment Sink.buffer #[] (-2 ^ 63) 2 e' #[1] ∧
      e.interpreter.Faults p Sink.buffer #[] (2 ^ 63 - 1) 2 s #[1] ∧
      e'.tape = s.tape ∧ e'.counters = s.counters ∧ e'.cursor = ⟨0, 1⟩ ∧ s.cursor = ⟨3, 1⟩ := by
  intro p
  have hlinked : p.Linked := Program.linked_of_block
    (.act (.add 1) (.act .output (.act (.move 9223372036854775807) .done)))
  have hcompilable : p.Compilable := by
    refine Dialect.mem_compilable.2 ?_
    simp [p, Instruction.Compilable]
  have hsuits (r : Routine) (hr : Architecture.host.generate p ⟨2, true, environment.host⟩ = .ok r) :
      environment.Suits ⟨2, true, environment.host⟩ r.code :=
    suits_of_generate rfl hlinked hcompilable (by decide) (by decide) hr
  obtain ⟨tape, htape⟩ : ∃ tape, Tape.new 2 = .ok tape := ⟨_, rfl⟩
  have hcapacity : tape.capacity = 2 := by cases htape; rfl
  have hptr : 1 < tape.capacity := by rw [hcapacity]; decide
  obtain ⟨e, he, hprogram, hinterpreter, haccepted, halike⟩ :=
    resume_faults_alike environment ⟨0, 1⟩ ⟨2, true⟩ hlinked hcompilable Sink.buffer_faultless hptr
      (by rw [hcapacity]; exact hsuits) #[]
  have hlive : e.interpreter.halted = false := by rw [hinterpreter]
  have hcells : e.interpreter.tape.capacity = 2 := by rw [hinterpreter, hcapacity]
  have hon : e.interpreter.cursor.ptr < e.interpreter.tape.capacity := by
    rw [hinterpreter]
    exact hptr
  obtain ⟨s₀, hs₀, hcursor, hsize⟩ : ∃ s₀, advance (Interpreter.next p Sink.buffer) 2 (e.interpreter, #[]) =
      some (s₀, #[1]) ∧ s₀.cursor = ⟨2, 1⟩ ∧ s₀.tape.capacity = 2 := by
    have hrun : (advance (Interpreter.next p Sink.buffer) 2 (e.interpreter, #[])).map
        (fun y => (y.1.cursor, y.1.tape.capacity, y.2)) = some (⟨2, 1⟩, 2, #[1]) := by
      rw [hinterpreter]
      cases htape
      dsimp only [p]
      rfl
    obtain ⟨⟨s₀, bytes⟩, hs₀, heq⟩ := Option.map_eq_some_iff.1 hrun
    simp only [Prod.mk.injEq] at heq
    obtain ⟨hcursor, hsize, rfl⟩ := heq
    exact ⟨s₀, hs₀, hcursor, hsize⟩
  have hsum : (s₀.cursor.ptr : Int) + Int64.toInt 9223372036854775807 = 9223372036854775808 := by
    rw [hcursor]
    rfl
  have hoverruns : Overruns p Sink.buffer e.interpreter #[] 9223372036854775807 s₀ #[1] := by
    refine ⟨⟨2, hs₀⟩, by rw [hcursor]; rfl, .inr ?_⟩
    rw [hsum, hsize]
    decide
  have hinterpreter' : e.interpreter.Faults p Sink.buffer #[] (2 ^ 63 - 1) 2
      (s₀.pass (.move 9223372036854775807)) #[1] := by
    refine (Interpreter.faults_iff hlive hon).2 ⟨_, s₀, hoverruns, rfl, ?_, hcells.symm⟩
    rw [hsum]
    rfl
  rw [← hprogram] at hinterpreter' hoverruns
  obtain ⟨_, _, e', _, hengine⟩ := halike.faults_iff.2 ⟨haccepted (by decide), _, _, _, _, hinterpreter'⟩
  obtain ⟨rfl, _, rfl, delta, s₁, hoverruns', hstopped⟩ := halike.stopped hengine hinterpreter'
  obtain ⟨rfl, rfl, _⟩ := hoverruns.unique hoverruns' hlive hon
  have hindex := (hstopped.wrapped (by rw [hsum]; decide)).1
  rw [hindex, hsum, show e.tape.capacity = 2 from hcells] at hengine
  rw [hprogram] at hinterpreter'
  have hstart : e.cursor = ⟨0, 1⟩ := congrArg Interpreter.cursor hinterpreter
  refine ⟨tape, e, e', _, htape, he, hengine, hinterpreter', hstopped.tape, hstopped.counters,
    hstopped.cursor.trans hstart, ?_⟩
  show (⟨s₁.cursor.ip + 1, s₁.cursor.ptr⟩ : Cursor) = _
  rw [hcursor]

end Resuming

end Engine

end TapeLang
