import TapeLang.Proofs.Failing
import TapeLang.Proofs.X86.Placement

/-!
# Engines that are called again and again

Once it is built, an engine may be compiled and run in any order, each time over another sink, which may
refuse anything (`Engine.Session`). All along it has the program and the tape capacity that it was built
with, and no code but that for this capacity; its cursor is where it was built or at the end, on the tape
(`Engine.Kept`). A run is never stuck, and `Engine.Changed` says of each of its exits what it changes.

Code may be generated for a program whose loop targets point anywhere. Neither code generation nor the
machine reads them, so the machine does what it does for the linked program with the same brackets
(`Engine.Kept.enter_relink`), of which all is known.
-/

namespace TapeLang

open X86

namespace Engine

variable {σ : Type} {env : Environment} {sink : Sink σ} {e e' e₀ : Engine} {out out' : σ} {p : Program}
  {host : HostCalls} {options : Options} {r : Routine} {answer : Option Error} {t : Machine σ}

/-- An engine as it is built, from the first cell of a tape of zeros or from where a run has been left. -/
inductive Built (p : Program) (options : Options) : Tape → Cursor → Engine → Prop
  | fresh {tape : Tape} {e : Engine} (htape : options.newTape = .ok tape) (h : Engine.new p options = .ok e) :
    Built p options tape .start e
  | resuming {tape : Tape} {cursor : Cursor} {e : Engine} (h : resume p tape cursor options = .ok e) :
    Built p options tape cursor e

/-- The code of the engine, if there is any, can be run there. -/
def Suited (env : Environment) (e : Engine) : Prop := ∀ r, e.Code env r → env.Suits (e.codeOptions env) r.code

/-- One call, with its answer. An error of `compile` leaves the engine as it is. A run is over any sink,
and any stack. -/
inductive Call (host : HostCalls) (e : Engine) : Option Error → Engine → Prop
  | compiled {e' : Engine} (h : e.compile host = .ok e') : Call host e none e'
  | refused {error : Error} (h : e.compile host = .error error) : Call host e (some error) e
  | ran {σ : Type} {env : Environment} {sink : Sink σ} {fuel : Nat} {out out' : σ} {answer : Option Error}
    {e' : Engine} (hhost : env.host = host) (hsuited : e.Suited env)
    (h : e.run env sink fuel out = (.ended answer, e', out')) : Call host e answer e'

/-- Calls, one after another whatever they answer. -/
inductive Session (host : HostCalls) (e₀ : Engine) : Engine → Prop
  | start : Session host e₀ e₀
  | call {answer : Option Error} {e e' : Engine} (h : Session host e₀ e) (hcall : Call host e answer e') :
    Session host e₀ e'

/-- What is left, after calls, of the engine `e₀` that was built. -/
structure Kept (host : HostCalls) (e₀ e : Engine) : Prop where
  program : e.program = e₀.program
  counting : e.counting = e₀.counting
  capacity : e.tape.capacity = e₀.tape.capacity
  cursor : e.cursor = e₀.cursor ∨ ∃ i, i < e.tape.capacity ∧ e.cursor = ⟨e.program.size, i⟩
  ptr_lt : e.cursor.ptr < e.tape.capacity
  counted : e.counters.isSome = e.counting
  compiled {r : Routine} (h : e.compiled = some r) :
    Architecture.host.generate e.program ⟨e.tape.capacity, e.counting, host⟩ = .ok r

/-- Code in which the index of every move is compared with `limit`. -/
def LimitedTo (limit : Nat) (host : HostCalls) (e : Engine) (r : Routine) : Prop :=
  ∃ last exit stub target, (Machine.extend last).toNat = limit ∧
    LaidOut (dialect last e.counting host) (readAt? r.code) e.program r exit stub target

/-- The routine of the engine is entered, and returns with the machine in the state `t`. -/
def Leaves (env : Environment) (sink : Sink σ) (e : Engine) (out : σ) (t : Machine σ) : Prop :=
  ∃ e₁ code m fuel, e.enter env out = .entered e₁ code m ∧ m.run env code sink fuel = .returned t

/-- What a run that is over has changed, by how it has ended. -/
inductive Changed (env : Environment) (sink : Sink σ) (e : Engine) (out : σ) : Option Error → Engine → σ → Prop
  /-- There was nothing to execute. -/
  | idle (hf : e.finished = true) : Changed env sink e out none e out
  /-- There is no code. -/
  | refused {error : Error} (hf : e.finished = false)
    (herror : Architecture.host.generate e.program (e.codeOptions env) = .error error) :
    Changed env sink e out (some error) e out
  /-- A fault was recorded: the cursor stays where it is. -/
  | faulted {r : Routine} {t : Machine σ} {f : HostFault} (hf : e.finished = false) (hr : e.Code env r)
    (ht : e.Leaves env sink out t) (hfault : t.host.fault = some f) (hcapacity : t.tape.capacity = e.tape.capacity)
    (hcounted : t.counters.isSome = e.counters.isSome) :
    Changed env sink e out (some (faultError e.tape.capacity f))
      ⟨e.program, e.counting, t.tape, e.cursor, t.counters, some r⟩ t.host.out
  /-- No fault was recorded: the cursor is at the end, whatever flushing answers. -/
  | passed {r : Routine} {t : Machine σ} (hf : e.finished = false) (hr : e.Code env r)
    (ht : e.Leaves env sink out t) (hfault : t.host.fault = none) (hcapacity : t.tape.capacity = e.tape.capacity)
    (hcounted : t.counters.isSome = e.counters.isSome) (hlt : (t.reg .rax).toNat < e.tape.capacity) :
    Changed env sink e out ((sink.flush t.host.out).1.map .output)
      ⟨e.program, e.counting, t.tape, ⟨e.program.size, (t.reg .rax).toNat⟩, t.counters, some r⟩
      (sink.flush t.host.out).2

/-! ### Loop targets -/

/-- The engine with other loop targets in its program. -/
def relink (q : Program) (e : Engine) : Engine := { e with program := q }

/-- Where there is code, the machine is entered as it is for the linked program with the same brackets. -/
theorem Kept.enter_relink (h : Kept env.host e₀ e) (hsuited : e.Suited env) (hf : e.finished = false)
    (hr : e.Code env r) {q : Program} (hq : q.Linked)
    (herase : q.toList.map Instruction.erase = e.program.toList.map Instruction.erase) (out : σ) :
    Ready env (e.relink q) ∧ (e.relink q).Code env r ∧ ∃ offset, r.resumeOffset? e.cursor.ip = some offset ∧
      e.enter env out = .entered (e.withRoutine r) r.code ((e.relink q).entryMachine env offset out) := by
  have hsize : q.size = e.program.size := by simpa using congrArg List.length herase
  have hcode (r : Routine) : (e.relink q).Code env r ↔ e.Code env r := by
    unfold Code
    show generate q _ = _ ↔ generate e.program _ = _
    rw [generate_congr herase]
    rfl
  have hip : (e.relink q).cursor.ip ≤ (e.relink q).program.size := by
    have hlt := ip_lt hf
    show e.cursor.ip ≤ q.size
    omega
  have hready : Ready env (e.relink q) :=
    { linked := hq
      counted := h.counted
      ip_le := hip
      ptr_lt := h.ptr_lt
      compiled := fun hc => (hcode _).2 (h.compiled hc)
      suits := fun hr => hsuited _ ((hcode _).1 hr) }
  have hunfinished : (e.relink q).finished = false := by
    show decide (q.size ≤ e.cursor.ip) = false
    rw [hsize]
    exact hf
  obtain ⟨offset, hresume, _⟩ := exists_enter hready ((hcode r).2 hr) hunfinished out
  have hcompile := compile_eq h.compiled hr (size_code_ne_zero hq ((hcode r).2 hr))
  exact ⟨hready, (hcode r).2 hr, offset, hresume, enter_eq hcompile hf hresume out⟩

/-- What suits the engine that was built suits it all along. -/
theorem Kept.suited (h : Kept host e₀ e) (hsuited : e₀.Suited env) : e.Suited env := by
  have hoptions : e.codeOptions env = e₀.codeOptions env := by rw [codeOptions, codeOptions, h.capacity, h.counting]
  intro r hr
  unfold Code at hr
  rw [hoptions, h.program] at hr
  rw [hoptions]
  exact hsuited r hr

/-! ### One run -/

/-- What the routine leaves keeps the size of the tape, and without a fault the index is on the tape. -/
theorem returned_keeps (h : Ready env e) {code : Array UInt8} {offset : Nat}
    (hmirrors : Mirrors env sink e code (e.entryMachine env offset out))
    (ht : ∃ n, advance (Machine.next env code sink) n (e.entryMachine env offset out) = some t)
    (hrip : t.rip = env.returnAddress) :
    t.tape.capacity = e.tape.capacity ∧ t.counters.isSome = e.counters.isSome ∧
      (t.host.fault = none → (t.reg .rax).toNat < e.tape.capacity) := by
  rcases hmirrors.ends ht hrip with ⟨s, bytes, hcompletes, hexited⟩ | ⟨delta, s, bytes, hoverruns, hreported⟩
  · obtain ⟨k, hk⟩ := hcompletes.reaches
    obtain ⟨_, hptr, hcapacity, hcounted⟩ := Interpreter.advance_keeps hk h.ptr_lt
    obtain ⟨htape, hcounters, _⟩ := of_returned h hcounted hexited.2
    replace hcapacity : s.tape.capacity = e.tape.capacity := hcapacity
    refine ⟨htape ▸ hcapacity, hcounters ▸ hcounted, fun _ => ?_⟩
    have hlt : s.cursor.ptr < 2 ^ 64 := Nat.lt_trans hptr (Nat.lt_trans s.tape.capacity_lt (by decide))
    rw [hexited.1, UInt64.toNat_ofNat_of_lt' hlt, ← hcapacity]
    exact hptr
  · obtain ⟨k, hk⟩ := hoverruns.reaches
    obtain ⟨_, _, hcapacity, hcounted⟩ := Interpreter.advance_keeps hk h.ptr_lt
    obtain ⟨htape, hcounters, hhost⟩ := of_reported h hoverruns hreported
    refine ⟨htape ▸ hcapacity, ?_, fun hfault => ?_⟩
    · rw [hcounters, Interpreter.counters_pass, Option.isSome_map]
      exact hcounted
    · rw [hhost] at hfault
      exact absurd hfault (HostState.fault_record_ne_none _ _)

/-- A run that is over has ended in one of four ways. -/
theorem Kept.changed_of_run (h : Kept env.host e₀ e) (hsuited : e.Suited env) {fuel : Nat} {ending : Ending}
    (hrun : e.run env sink fuel out = (ending, e', out')) (hending : ending ≠ .unfinished) :
    ∃ answer, ending = .ended answer ∧ Changed env sink e out answer e' out' := by
  cases hf : e.finished with
  | true =>
    rw [run, enter_of_finished env hf] at hrun
    cases hrun
    exact ⟨none, rfl, .idle hf⟩
  | false =>
    cases hg : Architecture.host.generate e.program (e.codeOptions env) with
    | error error =>
      rw [run, enter, hf, compile_error h.compiled hg] at hrun
      cases hrun
      exact ⟨_, rfl, .refused hf hg⟩
    | ok r =>
      obtain ⟨q, hq, herase⟩ := exists_linked_of_generate hg
      obtain ⟨hready, hr, offset, hresume, henter⟩ := h.enter_relink hsuited hf hg hq herase out
      obtain ⟨t, hadvance, hrip, hfinish⟩ := returned_of_run henter
        (fun _ _ ht hlast => rip_of_last hready hr hresume ht hlast) hrun hending
      obtain ⟨fuel, ht⟩ := Machine.run_eq_returned_iff.2 ⟨hadvance, hrip⟩
      have hleaves : e.Leaves env sink out t := ⟨_, _, _, fuel, henter, ht⟩
      obtain ⟨hcapacity, hcounters, hlt⟩ := returned_keeps hready (mirrors hready hr hresume sink out) hadvance hrip
      unfold finish at hfinish
      split at hfinish
      · rename_i f hfault
        cases hfinish
        rw [hcapacity]
        exact ⟨_, rfl, .faulted hf hg hleaves hfault hcapacity hcounters⟩
      · rename_i hfault
        cases hfinish
        exact ⟨_, rfl, .passed hf hg hleaves hfault hcapacity hcounters (hlt hfault)⟩

theorem run_of_finished (hf : e.finished = true) (env : Environment) (sink : Sink σ) (fuel : Nat) (out : σ) :
    e.run env sink fuel out = (.ended none, e, out) := by
  rw [run, enter_of_finished env hf]

theorem Kept.run_of_error (h : Kept env.host e₀ e) (hf : e.finished = false) {error : Error}
    (herror : Architecture.host.generate e.program (e.codeOptions env) = .error error) (sink : Sink σ) (fuel : Nat)
    (out : σ) : e.run env sink fuel out = (.ended (some error), e, out) := by
  rw [run, enter, hf, compile_error h.compiled herror]
  rfl

/-! ### Calls -/

theorem Built.eq_resumed {tape : Tape} {cursor : Cursor} (h : Built p options tape cursor e) :
    cursor.ptr < tape.capacity ∧ e = resumed p tape cursor options := by
  have hresumed {tape : Tape} {cursor : Cursor} (h : resume p tape cursor options = .ok e) :
      cursor.ptr < tape.capacity ∧ e = resumed p tape cursor options := by
    by_cases hptr : cursor.ptr < tape.capacity
    · rw [resume_eq_ok hptr] at h
      cases h
      exact ⟨hptr, rfl⟩
    · rw [resume, if_neg hptr] at h
      cases h
  cases h with
  | resuming h => exact hresumed h
  | fresh htape h =>
    rw [Engine.new, htape] at h
    exact hresumed h

theorem kept_resumed {tape : Tape} {cursor : Cursor} (hptr : cursor.ptr < tape.capacity) :
    Kept host (resumed p tape cursor options) (resumed p tape cursor options) :=
  ⟨rfl, rfl, rfl, .inl rfl, hptr, isSome_newCounters options, nofun⟩

/-- Compiling changes nothing but the routine, and that to the only one there is. -/
theorem Kept.compile_cases (h : Kept host e₀ e) :
    (∃ r, Architecture.host.generate e.program ⟨e.tape.capacity, e.counting, host⟩ = .ok r ∧
      e.compile host = .ok (e.withRoutine r)) ∨
    ∃ error, Architecture.host.generate e.program ⟨e.tape.capacity, e.counting, host⟩ = .error error ∧
      e.compile host = .error error := by
  obtain ⟨env, rfl⟩ : ∃ env : Environment, env.host = host := ⟨{ environment with host }, rfl⟩
  cases hg : Architecture.host.generate e.program ⟨e.tape.capacity, e.counting, env.host⟩ with
  | error error => exact .inr ⟨error, rfl, compile_error h.compiled hg⟩
  | ok r =>
    obtain ⟨q, hq, herase⟩ := exists_linked_of_generate hg
    have hsize : r.code.size ≠ 0 := size_code_ne_zero hq ((generate_congr herase).trans hg)
    exact .inl ⟨r, rfl, compile_eq h.compiled hg hsize⟩

theorem Kept.withRoutine (h : Kept host e₀ e)
    (hr : Architecture.host.generate e.program ⟨e.tape.capacity, e.counting, host⟩ = .ok r) :
    Kept host e₀ (e.withRoutine r) where
  program := h.program
  counting := h.counting
  capacity := h.capacity
  cursor := h.cursor
  ptr_lt := h.ptr_lt
  counted := h.counted
  compiled hc := by
    cases hc
    exact hr

theorem Kept.of_changed (h : Kept env.host e₀ e) (hchanged : Changed env sink e out answer e' out') :
    Kept env.host e₀ e' := by
  cases hchanged with
  | idle => exact h
  | refused => exact h
  | faulted _ hr _ _ hcapacity hcounted =>
    refine ⟨h.program, h.counting, hcapacity.trans h.capacity, ?_, ?_, hcounted.trans h.counted, fun hc => ?_⟩
    · rcases h.cursor with hcursor | ⟨i, hi, hcursor⟩
      · exact .inl hcursor
      · exact .inr ⟨i, hcapacity ▸ hi, hcursor⟩
    · exact hcapacity ▸ h.ptr_lt
    · cases hc
      rw [← hr, codeOptions, ← hcapacity]
  | passed _ hr _ _ hcapacity hcounted hlt =>
    refine ⟨h.program, h.counting, hcapacity.trans h.capacity, ?_, ?_, hcounted.trans h.counted, fun hc => ?_⟩
    · exact .inr ⟨_, hcapacity ▸ hlt, rfl⟩
    · exact hcapacity ▸ hlt
    · cases hc
      rw [← hr, codeOptions, ← hcapacity]

theorem Kept.call (h : Kept host e₀ e) (hcall : Call host e answer e') : Kept host e₀ e' := by
  cases hcall with
  | compiled hcompile =>
    rcases h.compile_cases with ⟨r, hr, heq⟩ | ⟨error, _, heq⟩
    · rw [heq] at hcompile
      cases hcompile
      exact h.withRoutine hr
    · rw [heq] at hcompile
      cases hcompile
  | refused => exact h
  | ran hhost hsuited hrun =>
    subst hhost
    obtain ⟨_, _, hchanged⟩ := h.changed_of_run hsuited hrun (by simp)
    exact h.of_changed hchanged

theorem Session.kept (h₀ : Kept host e₀ e₀) (h : Session host e₀ e) : Kept host e₀ e := by
  induction h with
  | start => exact h₀
  | call _ hcall ih => exact ih.call hcall

/-! ### Code -/

theorem Kept.self (h : Kept host e₀ e) : Kept host e e :=
  ⟨rfl, rfl, rfl, .inl rfl, h.ptr_lt, h.counted, h.compiled⟩

/-- The code there is stays. -/
theorem Kept.compiled_of_call (h : Kept host e₀ e) (hc : e.compiled = some r) (hcall : Call host e answer e') :
    e'.compiled = some r := by
  cases hcall with
  | compiled hcompile =>
    rw [compile, hc] at hcompile
    cases hcompile
    exact hc
  | refused => exact hc
  | ran hhost hsuited hrun =>
    subst hhost
    obtain ⟨_, _, hchanged⟩ := h.changed_of_run hsuited hrun (by simp)
    have hcode : e.Code _ r := h.compiled hc
    cases hchanged with
    | idle => exact hc
    | refused => exact hc
    | faulted _ hr =>
      cases hcode.symm.trans hr
      rfl
    | passed _ hr =>
      cases hcode.symm.trans hr
      rfl

theorem Session.compiled (h : Session host e e') (hkept : Kept host e e) (hc : e.compiled = some r) :
    e'.compiled = some r := by
  induction h with
  | start => exact hc
  | call hsession hcall ih => exact (hsession.kept hkept).compiled_of_call ih hcall

theorem Kept.limitedTo (h : Kept host e₀ e) (hc : e.compiled = some r) :
    LimitedTo (e.tape.capacity - 1) host e r := by
  obtain ⟨last, exit, stub, target, hlast, hlaid⟩ := exists_laidOut (h.compiled hc)
  exact ⟨last, exit, stub, target, (Machine.toNat_extend_last hlast).2, hlaid⟩

/-- All that a run can do that is entered now. -/
structure Served (env : Environment) (sink : Sink σ) (e : Engine) (out : σ) : Prop where
  idle (hf : e.finished = true) (fuel : Nat) : e.run env sink fuel out = (.ended none, e, out)
  refused {error : Error} (hf : e.finished = false)
    (herror : Architecture.host.generate e.program (e.codeOptions env) = .error error) (fuel : Nat) :
    e.run env sink fuel out = (.ended (some error), e, out)
  not_stuck (fuel : Nat) : (e.run env sink fuel out).1 ≠ .stuck
  changed {fuel : Nat} {answer : Option Error} {e' : Engine} {out' : σ}
    (h : e.run env sink fuel out = (.ended answer, e', out')) : Changed env sink e out answer e' out'

theorem Kept.served (h : Kept env.host e₀ e) (hsuited : e.Suited env) (sink : Sink σ) (out : σ) :
    e.Served env sink out where
  idle hf fuel := run_of_finished hf env sink fuel out
  refused hf herror fuel := h.run_of_error hf herror sink fuel out
  not_stuck fuel hstuck := by
    obtain ⟨_, hending, _⟩ := h.changed_of_run hsuited (Prod.ext hstuck rfl) (by simp)
    cases hending
  changed hrun := by
    obtain ⟨_, hending, hchanged⟩ := h.changed_of_run hsuited hrun (by simp)
    cases hending
    exact hchanged

/-- Whatever is called, in whatever order: an engine keeps its program and the size of its tape, and has no
code but that for this size; each run leaves it as it is or changes it in one of two ways. -/
theorem session_keeps {tape : Tape} {cursor : Cursor} (hbuilt : Built p options tape cursor e₀)
    (h : Session host e₀ e) :
    e₀ = resumed p tape cursor options ∧
    Kept host e₀ e ∧
    (∀ r, e.compiled = some r →
      LimitedTo (tape.capacity - 1) host e r ∧ ∀ e', Session host e e' → e'.compiled = some r) ∧
    ((∃ r, Architecture.host.generate p ⟨tape.capacity, options.counting, host⟩ = .ok r ∧
        e.compile host = .ok (e.withRoutine r)) ∨
      ∃ error, Architecture.host.generate p ⟨tape.capacity, options.counting, host⟩ = .error error ∧
        e.compile host = .error error) ∧
    ∀ {σ : Type} {env : Environment} (sink : Sink σ) (out : σ), env.host = host → e.Suited env →
      e.Served env sink out := by
  obtain ⟨hptr, rfl⟩ := hbuilt.eq_resumed
  have hkept := h.kept (kept_resumed hptr)
  have hcapacity : e.tape.capacity = tape.capacity := hkept.capacity
  refine ⟨rfl, hkept, fun r hc => ⟨?_, fun e' hlater => hlater.compiled hkept.self hc⟩, ?_, ?_⟩
  · rw [← hcapacity]
    exact hkept.limitedTo hc
  · have hcases := hkept.compile_cases
    rw [hkept.program, hkept.counting, hcapacity] at hcases
    exact hcases
  · rintro σ env sink out rfl hsuited
    exact hkept.served hsuited sink out

/-- A loop with targets that point nowhere, with counters, on a tape of two cells that is not the size asked
for: compiled, and run to the end over a buffer. -/
theorem session_keeps_stale :
    let p : Program := #[.loopBegin 9, .output, .loopEnd 7, .move 1]
    ∃ tape e₀ e₁ e₂ r, Tape.new 2 = .ok tape ∧ resume p tape .start ⟨7, true⟩ = .ok e₀ ∧
      e₀.compile environment.host = .ok e₁ ∧ e₁.compiled = some r ∧ LimitedTo 1 environment.host e₁ r ∧
      (∃ fuel, e₁.run environment Sink.buffer fuel #[] = (.ended none, e₂, #[])) ∧
      Session environment.host e₀ e₂ ∧ e₂.cursor = ⟨4, 1⟩ ∧ e₂.compiled = some r ∧
      e₂.Served environment Sink.buffer #[] := by
  intro p
  let q : Program := #[.loopBegin 2, .output, .loopEnd 0, .move 1]
  have hlinked : q.Linked := Program.linked_of_block (.loop (.act .output .done) (.act (.move 1) .done))
  have hcompilable : q.Compilable := by
    refine Dialect.mem_compilable.2 ?_
    simp [q, Instruction.Compilable]
  obtain ⟨tape, htape⟩ : ∃ tape, Tape.new 2 = .ok tape := ⟨_, rfl⟩
  have hcapacity : tape.capacity = 2 := by cases htape; rfl
  have hptr : Cursor.start.ptr < tape.capacity := by rw [hcapacity]; decide
  obtain ⟨r, hr, -⟩ := generate_accepts ⟨2, true, environment.host⟩ hlinked hcompilable (by decide) (by decide)
  have hstale : generate p ⟨2, true, environment.host⟩ = .ok r := (generate_congr rfl).trans hr
  have hsuits := suits_of_generate rfl hlinked hcompilable (by decide) (by decide) hr
  rw [← hcapacity] at hstale hsuits
  let e₀ := resumed p tape .start ⟨7, true⟩
  let e₁ := e₀.withRoutine r
  have hbuilt : Built p ⟨7, true⟩ tape .start e₀ := .resuming (resume_eq_ok hptr)
  have hcompile : e₀.compile environment.host = .ok e₁ := by
    obtain ⟨_, _, _, ⟨r', hr', hcompile⟩ | ⟨error, herror, _⟩, _⟩ := session_keeps hbuilt .start
    · cases hstale.symm.trans hr'
      exact hcompile
    · cases hstale.symm.trans herror
  have hsession : Session environment.host e₀ e₁ := Session.start.call (.compiled hcompile)
  obtain ⟨_, hkept, hcode, _⟩ := session_keeps hbuilt hsession
  have hsuited₀ : e₀.Suited environment := by
    intro r' hr'
    cases hstale.symm.trans hr'
    exact hsuits
  have hsuited := hkept.suited hsuited₀
  -- the run over a buffer, for the linked program
  obtain ⟨hready, hr', offset, hresume, henter⟩ := hkept.enter_relink hsuited rfl hstale hlinked rfl (#[] : Array UInt8)
  obtain ⟨s, hcompletes, hcursor⟩ : ∃ s, Interpreter.Completes q Sink.buffer (e₁.relink q).interpreter #[] s #[] ∧
      s.cursor = ⟨4, 1⟩ := by
    let m := (e₁.relink q).interpreter
    let m₁ := (m.pass (.loopBegin 2)).jumpPast 2
    have hskip : m.step q Sink.buffer #[] = (.running, m₁, #[]) := by
      cases htape
      rfl
    have hat : m₁.At q (.move 1) := ⟨rfl, rfl, hptr⟩
    have hoffset : m₁.tape.offset m₁.cursor.ptr 1 = .ok 1 := by
      have hone : 0 ≤ ((0 : Nat) : Int) + (1 : Int64).toInt ∧ ((0 : Nat) : Int) + (1 : Int64).toInt < (2 : Nat) := by
        decide
      rw [← show m₁.tape.capacity = 2 from hcapacity] at hone
      exact (Tape.offset_eq hat.ptr_lt 1).trans (if_pos hone)
    have hmove := Interpreter.step_move_ok hat hoffset Sink.buffer #[]
    exact ⟨(m₁.pass (.move 1)).withPtr 1, ⟨⟨2, (advance_succ (Interpreter.next_of_step hskip) 1).trans
      (advance_succ (Interpreter.next_of_step hmove) 0)⟩, rfl⟩, rfl⟩
  obtain ⟨t, hadvance, hexited⟩ := (mirrors hready hr' hresume Sink.buffer #[]).exits hcompletes
  obtain ⟨_, _, hhost, hend⟩ := of_exited hready Sink.buffer_faultless hcompletes hexited
  obtain ⟨fuel, ht⟩ := Machine.run_eq_returned_iff.2 ⟨hadvance, hexited.2.rip⟩
  let e₂ : Engine := ⟨p, true, t.tape, ⟨4, (t.reg .rax).toNat⟩, t.counters, some r⟩
  have hrun : e₁.run environment Sink.buffer fuel #[] = (.ended none, e₂, #[]) := by
    rw [run_of_returned henter ht, finish, hhost]
    rfl
  have hsession₂ := hsession.call (.ran rfl hsuited hrun)
  obtain ⟨_, hkept₂, _, _, hserved⟩ := session_keeps hbuilt hsession₂
  obtain ⟨hlimited, hstays⟩ := hcode r rfl
  rw [hcapacity] at hlimited
  exact ⟨tape, e₀, e₁, e₂, r, htape, resume_eq_ok hptr, hcompile, rfl, hlimited, ⟨fuel, hrun⟩, hsession₂,
    hend.trans hcursor, hstays e₂ (Session.start.call (.ran rfl hsuited hrun)),
    hserved Sink.buffer #[] rfl (hkept₂.suited hsuited₀)⟩

end Engine

end TapeLang
