import TapeLang.Proofs.X86.Correctness

/-!
# The engine agrees with the interpreter

An engine that has code for its program returns without an error exactly if the interpreter completes
its run from the same tape and cursor, and ends in the same state (`Engine.agrees`). So a run can be
handed over from the interpreter to the engine at any point (`Engine.resume_agrees`).

Proof. A run of the engine that returns is a run of the machine to the return address
(`Machine.run_eq_returned_iff`). Code is generated for the capacity of the tape and entered where the
cursor says (`X86.exists_backend`), so the machine exits where the interpreter completes its run; at a
move that leaves the tape it reports a fault, and then the engine does not return without an error
(`Engine.mirrors`).
-/

namespace TapeLang

open X86

namespace X86.Machine

variable {σ : Type} {env : Environment} {code : Array UInt8} {sink : Sink σ} {m t : Machine σ}

/-- A run returns when it is at the return address, which is where the machine makes no step. -/
theorem run_eq_returned_iff :
    (∃ fuel, run env code sink fuel m = .returned t) ↔
      (∃ n, advance (next env code sink) n m = some t) ∧ t.rip = env.returnAddress := by
  constructor
  · rintro ⟨fuel, h⟩
    induction fuel generalizing m with
    | zero => cases h
    | succ fuel ih =>
      rw [run] at h
      split at h
      case isTrue hrip =>
        cases h
        exact ⟨⟨0, rfl⟩, hrip⟩
      case isFalse hrip =>
        split at h
        case h_1 m₁ hstep =>
          have hnext : next env code sink m = some m₁ := by rw [next, if_neg hrip, hstep]
          obtain ⟨⟨n, hn⟩, ht⟩ := ih h
          exact ⟨⟨n + 1, (advance_succ hnext n).trans hn⟩, ht⟩
        case h_2 => cases h
  · rintro ⟨⟨n, hn⟩, ht⟩
    induction n generalizing m with
    | zero =>
      cases hn
      exact ⟨1, if_pos ht⟩
    | succ n ih =>
      rw [advance] at hn
      obtain ⟨m₁, hnext, hn⟩ := Option.bind_eq_some_iff.1 hn
      obtain ⟨fuel, hrun⟩ := ih hn
      refine ⟨fuel + 1, ?_⟩
      unfold next at hnext
      split at hnext
      · cases hnext
      · rename_i hrip
        rw [run, if_neg hrip, hnext]
        exact hrun

/-- A run that is stuck is at a state without a next step that is not at the return address. -/
theorem exists_last_of_stuck {fuel : Nat} (h : run env code sink fuel m = .stuck) :
    ∃ n t, advance (next env code sink) n m = some t ∧ next env code sink t = none ∧ t.rip ≠ env.returnAddress := by
  induction fuel generalizing m with
  | zero => cases h
  | succ fuel ih =>
    rw [run] at h
    split at h
    case isTrue => cases h
    case isFalse hrip =>
      split at h
      case h_1 m₁ hstep =>
        obtain ⟨n, t, hn, ht⟩ := ih h
        have hnext : next env code sink m = some m₁ := by rw [next, if_neg hrip, hstep]
        exact ⟨n + 1, t, (advance_succ hnext n).trans hn, ht⟩
      case h_2 hstep => exact ⟨0, m, rfl, by rw [next, if_neg hrip, hstep], hrip⟩

theorem next_of_rip_eq (h : m.rip = env.returnAddress) : next env code sink m = none := if_pos h

end X86.Machine

namespace Engine

open Interpreter (Completes Overruns after)

variable {σ : Type} {env : Environment} {sink : Sink σ} {e e' : Engine} {out out' sent : σ} {s : Interpreter}

/-! ### Engines that are about to run -/

/-- What the code of an engine is generated for. -/
def codeOptions (env : Environment) (e : Engine) : CodeOptions := ⟨e.tape.capacity, e.counting, env.host⟩

/-- The code of an engine, if there is any. -/
def Code (env : Environment) (e : Engine) (r : Routine) : Prop :=
  Architecture.host.generate e.program (e.codeOptions env) = .ok r

/-- There is code for the program, or nothing is left to execute. -/
def Accepted (env : Environment) (e : Engine) : Prop := e.finished = true ∨ ∃ r, e.Code env r

/-- An engine that can be run. -/
structure Ready (env : Environment) (e : Engine) : Prop where
  linked : e.program.Linked
  counted : e.counters.isSome = e.counting
  ip_le : e.cursor.ip ≤ e.program.size
  ptr_lt : e.cursor.ptr < e.tape.capacity
  compiled {r : Routine} (h : e.compiled = some r) : e.Code env r
  suits {r : Routine} (h : e.Code env r) : env.Suits (e.codeOptions env) r.code

/-- The engine with its routine. -/
def withRoutine (e : Engine) (r : Routine) : Engine := { e with compiled := some r }

theorem finished_iff : e.finished = true ↔ e.program.size ≤ e.cursor.ip := decide_eq_true_iff

theorem ip_lt (h : e.finished = false) : e.cursor.ip < e.program.size :=
  Nat.lt_of_not_le fun hle => by rw [finished_iff.2 hle] at h; cases h

section Entering

variable {r : Routine}

/-- Compiling gives the code there is. -/
theorem compile_eq (hcompiled : ∀ {r}, e.compiled = some r → e.Code env r) (hr : e.Code env r)
    (hsize : r.code.size ≠ 0) : e.compile env.host = .ok (e.withRoutine r) := by
  unfold compile withRoutine
  cases hc : e.compiled with
  | some r' =>
    have hr' := hcompiled hc
    unfold Code at hr hr'
    rw [hr] at hr'
    cases hr'
    have heq : e = { e with compiled := some r } := by rw [← hc]
    exact congrArg Except.ok heq
  | none =>
    show Architecture.host.generate e.program (e.codeOptions env) >>= _ = _
    rw [hr]
    show Image.ofCode r.code >>= _ = _
    rw [Image.ofCode, dif_neg hsize]
    rfl

/-- Without code there is nothing to run. -/
theorem compile_error (hcompiled : ∀ {r}, e.compiled = some r → e.Code env r) {error : Error}
    (herror : Architecture.host.generate e.program (e.codeOptions env) = .error error) :
    e.compile env.host = .error error := by
  unfold compile
  cases hc : e.compiled with
  | some r =>
    have hr := hcompiled hc
    unfold Code at hr
    rw [herror] at hr
    cases hr
  | none =>
    show Architecture.host.generate e.program (e.codeOptions env) >>= _ = _
    rw [herror]
    rfl

theorem exists_compile_error (h : Ready env e) (hr : ∀ r, ¬ e.Code env r) :
    ∃ error, Architecture.host.generate e.program (e.codeOptions env) = .error error ∧
      e.compile env.host = .error error := by
  cases hg : Architecture.host.generate e.program (e.codeOptions env) with
  | ok r => exact absurd hg (hr r)
  | error error => exact ⟨error, rfl, compile_error h.compiled hg⟩

variable (env) in
theorem enter_of_finished (hf : e.finished = true) (out : σ) : e.enter env out = .idle := by
  rw [enter, if_pos hf]

/-- With code the machine enters it where the cursor says. -/
theorem enter_eq (hcompile : e.compile env.host = .ok (e.withRoutine r)) (hf : e.finished = false) {offset : Nat}
    (hresume : r.resumeOffset? e.cursor.ip = some offset) (out : σ) :
    e.enter env out = .entered (e.withRoutine r) r.code (e.entryMachine env offset out) := by
  have hcompiled : (e.withRoutine r).compiled = some r := rfl
  have hcursor : (e.withRoutine r).cursor = e.cursor := rfl
  unfold enter
  simp only [hf, hcompile, hcompiled, hcursor, hresume, Bool.false_eq_true, if_false, Option.bind_some,
    Option.map_some]
  rfl

theorem exists_enter (h : Ready env e) (hr : e.Code env r) (hf : e.finished = false) (out : σ) :
    ∃ offset, r.resumeOffset? e.cursor.ip = some offset ∧
      e.enter env out = .entered (e.withRoutine r) r.code (e.entryMachine env offset out) := by
  obtain ⟨_, _, _, _, _, _, hoffset⟩ := generate_ok h.linked hr
  obtain ⟨offset, hoffset⟩ : ∃ offset, r.resumeOffset? e.cursor.ip = some offset := ⟨_, hoffset _ (ip_lt hf)⟩
  have hcompile := compile_eq h.compiled hr (size_code_ne_zero h.linked hr)
  exact ⟨offset, hoffset, enter_eq hcompile hf hoffset out⟩

end Entering

/-! ### Runs -/

/-- A run returns without an error. -/
def Returns (env : Environment) (sink : Sink σ) (e : Engine) (out : σ) (e' : Engine) (out' : σ) : Prop :=
  ∃ fuel, e.run env sink fuel out = (.ended none, e', out')

/-- The engine has ended in a state of the interpreter, which has sent `sent`. Unless there was nothing
to execute, the sink is flushed. -/
structure Ended (sink : Sink σ) (e : Engine) (s : Interpreter) (sent : σ) (e' : Engine) (out' : σ) : Prop where
  tape : e'.tape = s.tape
  cursor : e'.cursor = s.cursor
  counters : e'.counters = s.counters
  out : out' = if e.finished then sent else (sink.flush sent).2

/-- Runs of an engine agree with those of the interpreter. -/
structure Agrees (env : Environment) (sink : Sink σ) (e : Engine) (out : σ) : Prop where
  returns_iff : (∃ e' out', e.Returns env sink out e' out') ↔
    e.Accepted env ∧ ∃ s sent, Completes e.program sink e.interpreter out s sent
  ended {e' : Engine} {out' : σ} {s : Interpreter} {sent : σ} (h : e.Returns env sink out e' out')
    (hs : Completes e.program sink e.interpreter out s sent) : e.Ended sink s sent e' out'

theorem returns_of_finished (hf : e.finished = true) :
    e.Returns env sink out e' out' ↔ e' = e ∧ out' = out := by
  have hrun (fuel : Nat) : e.run env sink fuel out = (.ended none, e, out) := by
    rw [run, enter_of_finished env hf]
  constructor
  · rintro ⟨fuel, h⟩
    rw [hrun] at h
    cases h
    exact ⟨rfl, rfl⟩
  · rintro ⟨rfl, rfl⟩
    exact ⟨0, hrun 0⟩

theorem agrees_of_finished (h : Ready env e) (hf : e.finished = true) : e.Agrees env sink out := by
  have hself : Completes e.program sink e.interpreter out e.interpreter out :=
    ⟨⟨0, rfl⟩, Nat.le_antisymm h.ip_le (finished_iff.1 hf)⟩
  constructor
  · constructor
    · intro _
      exact ⟨.inl hf, _, _, hself⟩
    · intro _
      exact ⟨e, out, (returns_of_finished hf).2 ⟨rfl, rfl⟩⟩
  · intro e' out' s sent hreturns hs
    obtain ⟨rfl, rfl⟩ := (returns_of_finished hf).1 hreturns
    obtain ⟨rfl, rfl⟩ := hself.unique hs
    exact ⟨rfl, rfl, rfl, by rw [if_pos hf]⟩

section Running

variable {r : Routine} {offset : Nat}

/-- A run whose machine returns is over. -/
theorem run_of_returned {e₁ : Engine} {code : Array UInt8} {m t : Machine σ} {fuel : Nat}
    (henter : e.enter env out = .entered e₁ code m) (ht : m.run env code sink fuel = .returned t) :
    e.run env sink fuel out = e₁.finish sink t := by
  unfold run
  rw [henter]
  dsimp only
  rw [ht]

/-- A run that enters code is over when the machine returns. -/
theorem exists_returned_of_run {e₁ : Engine} {code : Array UInt8} {m : Machine σ} {fuel : Nat}
    {error : Option Error} (henter : e.enter env out = .entered e₁ code m)
    (h : e.run env sink fuel out = (.ended error, e', out')) :
    ∃ t, m.run env code sink fuel = .returned t ∧ e₁.finish sink t = (.ended error, e', out') := by
  unfold run at h
  rw [henter] at h
  dsimp only at h
  split at h
  case h_1 t ht => exact ⟨t, ht, h⟩
  case h_2 => cases h
  case h_3 => cases h

/-- A run that enters code returns without an error where the machine returns and no fault was recorded. -/
theorem returns_iff_of_enter (hs : sink.Faultless) {e₁ : Engine} {code : Array UInt8} {m : Machine σ}
    (henter : e.enter env out = .entered e₁ code m) :
    e.Returns env sink out e' out' ↔
      ∃ t, (∃ n, advance (Machine.next env code sink) n m = some t) ∧ t.rip = env.returnAddress ∧
        t.host.fault = none ∧ out' = (sink.flush t.host.out).2 ∧
        e' = { e₁ with
          tape := t.tape
          counters := t.counters
          cursor := ⟨e₁.program.size, (t.reg .rax).toNat⟩ } := by
  constructor
  · rintro ⟨fuel, h⟩
    obtain ⟨t, ht, h⟩ := exists_returned_of_run henter h
    obtain ⟨hadvance, hrip⟩ := Machine.run_eq_returned_iff.1 ⟨fuel, ht⟩
    unfold finish at h
    split at h
    · cases h
    · rename_i hfault
      rw [hs.flush_eq] at h
      cases h
      exact ⟨t, hadvance, hrip, hfault, rfl, rfl⟩
  · rintro ⟨t, hadvance, hrip, hfault, rfl, rfl⟩
    obtain ⟨fuel, ht⟩ := Machine.run_eq_returned_iff.2 ⟨hadvance, hrip⟩
    refine ⟨fuel, ?_⟩
    rw [run_of_returned henter ht]
    unfold finish
    rw [hfault]
    show (Ending.ended ((sink.flush t.host.out).1.map .output), _, (sink.flush t.host.out).2) = _
    rw [hs.flush]
    rfl

/-- All that the engine takes over from a machine that has returned. -/
theorem of_returned (h : Ready env e) {host : HostState σ} {calls : Nat} {t : Machine σ}
    (hcounted : s.counters.isSome = e.counters.isSome)
    (ht : Machine.Returned env e.counting (e.entryMachine env offset out) s host calls t) :
    t.tape = s.tape ∧ t.counters = s.counters ∧ t.host = host := by
  refine ⟨ht.memory.tape, ht.memory.counters.trans ?_, ht.memory.host⟩
  unfold Memory.countersOf
  split
  · rfl
  · rename_i hcounting
    rw [Bool.not_eq_true] at hcounting
    have hnone := h.counted
    rw [hnone, hcounting] at hcounted
    rw [hcounting, Option.isSome_eq_false_iff, Option.isNone_iff_eq_none] at hnone
    rw [Option.isSome_eq_false_iff, Option.isNone_iff_eq_none] at hcounted
    rw [hcounted]
    exact hnone

/-- Where the routine exits, all that the engine takes over from the machine is the interpreter's. -/
theorem of_exited (h : Ready env e) (hs : sink.Faultless) {bytes : Array UInt8}
    (hcompletes : Completes e.program Sink.buffer e.interpreter #[] s bytes) {t : Machine σ}
    (ht : Machine.Exited env sink e.counting (e.entryMachine env offset out) s bytes t) :
    t.tape = s.tape ∧ t.counters = s.counters ∧ t.host = ⟨sink.writeAll out bytes.toList, none⟩ ∧
      (⟨e.program.size, (t.reg .rax).toNat⟩ : Cursor) = s.cursor := by
  obtain ⟨⟨k, hk⟩, hend⟩ := hcompletes
  obtain ⟨hrax, hreturned⟩ := ht
  obtain ⟨_, hptr, _, hcounters⟩ := Interpreter.advance_keeps hk h.ptr_lt
  obtain ⟨htape, hcounted, hhost⟩ := of_returned h hcounters hreturned
  refine ⟨htape, hcounted, hhost.trans (HostState.putAll_of_faultless hs rfl _), ?_⟩
  have hlt : s.cursor.ptr < 2 ^ 64 := Nat.lt_trans hptr (Nat.lt_trans s.tape.capacity_lt (by decide))
  rw [hrax, UInt64.toNat_ofNat_of_lt' hlt, ← hend]

/-- A machine comes to an end where the interpreter does: it exits at the end of the program, and
reports a move that leaves the tape. -/
structure Mirrors (env : Environment) (sink : Sink σ) (e : Engine) (code : Array UInt8) (m : Machine σ) : Prop where
  exits {s : Interpreter} {bytes : Array UInt8} (h : Completes e.program Sink.buffer e.interpreter #[] s bytes) :
    ∃ t, (∃ n, advance (Machine.next env code sink) n m = some t) ∧ Machine.Exited env sink e.counting m s bytes t
  reports {delta : Int64} {s : Interpreter} {bytes : Array UInt8}
    (h : Overruns e.program Sink.buffer e.interpreter #[] delta s bytes) :
    ∃ t, (∃ n, advance (Machine.next env code sink) n m = some t) ∧
      Machine.Reported env sink e.counting m (s.pass (.move delta)) bytes
        (UInt64.ofNat s.cursor.ptr + delta.toUInt64) t
  ends {t : Machine σ} (ht : ∃ n, advance (Machine.next env code sink) n m = some t)
    (hrip : t.rip = env.returnAddress) :
    (∃ s bytes, Completes e.program Sink.buffer e.interpreter #[] s bytes ∧
      Machine.Exited env sink e.counting m s bytes t) ∨
    ∃ delta s bytes, Overruns e.program Sink.buffer e.interpreter #[] delta s bytes ∧
      Machine.Reported env sink e.counting m (s.pass (.move delta)) bytes
        (UInt64.ofNat s.cursor.ptr + delta.toUInt64) t

theorem mirrors (h : Ready env e) (hr : e.Code env r) (hresume : r.resumeOffset? e.cursor.ip = some offset)
    (sink : Sink σ) (out : σ) : Mirrors env sink e r.code (e.entryMachine env offset out) := by
  have hentered := entered env h.counted h.ptr_lt offset out
  obtain ⟨last, place, hsound, _, hcloses, _, n₀, y, htrail, hboundary⟩ :=
    exists_backend h.linked hr (h.suits hr) sink hresume rfl rfl hentered
  constructor
  · intro s bytes hs
    obtain ⟨n, t, ht, _, hexited⟩ := hsound.exists_exited hcloses htrail.advance hboundary hs
    exact ⟨t, ⟨n, ht⟩, hexited⟩
  · intro delta s bytes hs
    obtain ⟨n, t, ht, _, hreported⟩ := hsound.exists_reported hcloses htrail.advance hboundary hs
    exact ⟨t, ⟨n, ht⟩, hreported⟩
  · rintro t ⟨n, ht⟩ hrip
    exact hsound.exited_or_reported hcloses htrail.advance hboundary ht (Machine.next_of_rip_eq hrip)

/-- Without a fault the machine has exited. -/
theorem Mirrors.exists_exited {code : Array UInt8} {m t : Machine σ} (h : Mirrors env sink e code m)
    (ht : ∃ n, advance (Machine.next env code sink) n m = some t) (hrip : t.rip = env.returnAddress)
    (hfault : t.host.fault = none) :
    ∃ s bytes, Completes e.program Sink.buffer e.interpreter #[] s bytes ∧
      Machine.Exited env sink e.counting m s bytes t := by
  rcases h.ends ht hrip with hexited | ⟨_, _, _, _, hreported⟩
  · exact hexited
  · have hhost : t.host = _ := hreported.memory.host
    rw [hhost] at hfault
    exact absurd hfault (HostState.fault_record_ne_none _ _)

/-- The code of an engine does what the interpreter does. -/
theorem agrees_of_code (h : Ready env e) (hs : sink.Faultless) (hf : e.finished = false) (hr : e.Code env r) :
    e.Agrees env sink out := by
  obtain ⟨offset, hresume, henter⟩ := exists_enter h hr hf out
  have hmirrors := mirrors h hr hresume sink out
  constructor
  · constructor
    · rintro ⟨e', out', hreturns⟩
      obtain ⟨t, hadvance, hrip, hfault, _⟩ := (returns_iff_of_enter hs henter).1 hreturns
      obtain ⟨s, bytes, hcompletes, _⟩ := hmirrors.exists_exited hadvance hrip hfault
      exact ⟨.inr ⟨r, hr⟩, s, _, (Interpreter.completes_iff hs).2 ⟨bytes, hcompletes, rfl⟩⟩
    · rintro ⟨_, s, sent, hcompletes⟩
      obtain ⟨bytes, hcompletes, _⟩ := (Interpreter.completes_iff hs).1 hcompletes
      obtain ⟨t, hadvance, hexited⟩ := hmirrors.exits hcompletes
      obtain ⟨_, _, hhost, _⟩ := of_exited h hs hcompletes hexited
      have hfault : t.host.fault = none := by rw [hhost]
      exact ⟨_, _, (returns_iff_of_enter hs henter).2 ⟨t, hadvance, hexited.2.rip, hfault, rfl, rfl⟩⟩
  · intro e' out' s sent hreturns hcompletes
    obtain ⟨t, hadvance, hrip, hfault, rfl, rfl⟩ := (returns_iff_of_enter hs henter).1 hreturns
    obtain ⟨s', bytes, hcompletes', hexited⟩ := hmirrors.exists_exited hadvance hrip hfault
    obtain ⟨rfl, rfl⟩ := hcompletes.unique ((Interpreter.completes_iff hs).2 ⟨bytes, hcompletes', rfl⟩)
    obtain ⟨htape, hcounters, hhost, hcursor⟩ := of_exited h hs hcompletes' hexited
    refine ⟨htape, hcursor, hcounters, ?_⟩
    rw [hf, hhost]
    rfl

/-- An engine that can be run agrees with the interpreter. -/
theorem agrees (h : Ready env e) (hs : sink.Faultless) (out : σ) : e.Agrees env sink out := by
  cases hf : e.finished with
  | true => exact agrees_of_finished h hf
  | false =>
    by_cases hr : ∃ r, e.Code env r
    · obtain ⟨r, hr⟩ := hr
      exact agrees_of_code h hs hf hr
    · have hnever {e' : Engine} {out' : σ} : ¬ e.Returns env sink out e' out' := by
        rintro ⟨fuel, hrun⟩
        obtain ⟨error, _, herror⟩ := exists_compile_error h (not_exists.1 hr)
        rw [run, enter, hf, herror] at hrun
        cases hrun
      constructor
      · constructor
        · rintro ⟨_, _, hreturns⟩
          exact absurd hreturns hnever
        · rintro ⟨haccepted | hcode, _⟩
          · rw [hf] at haccepted
            cases haccepted
          · exact absurd hcode hr
      · intro _ _ _ _ hreturns _
        exact absurd hreturns hnever

end Running

/-! ### Engines that go on from a state -/

section Resuming

variable {p : Program} {tape : Tape} {cursor : Cursor} {options : Options}

/-- The engine that goes on from a tape and a cursor. -/
def resumed (p : Program) (tape : Tape) (cursor : Cursor) (options : Options) : Engine where
  program := p
  counting := options.counting
  tape := tape
  cursor := cursor
  counters := options.newCounters
  compiled := none

theorem resume_eq_ok (hptr : cursor.ptr < tape.capacity) :
    resume p tape cursor options = .ok (resumed p tape cursor options) := if_pos hptr

theorem isSome_newCounters (options : Options) : options.newCounters.isSome = options.counting := by
  unfold Options.newCounters
  cases options.counting <;> rfl

theorem ready_resumed (hp : p.Linked) (hip : cursor.ip ≤ p.size) (hptr : cursor.ptr < tape.capacity)
    (hsuits : ∀ r, (resumed p tape cursor options).Code env r →
      env.Suits ⟨tape.capacity, options.counting, env.host⟩ r.code) :
    Ready env (resumed p tape cursor options) where
  linked := hp
  counted := isSome_newCounters options
  ip_le := hip
  ptr_lt := hptr
  compiled {r} h := by cases h
  suits {r} hr := hsuits r hr

/-- Programs up to a size have code. -/
theorem accepted_of_size_le (hp : p.Linked) (hc : p.Compilable) (hsize : p.size ≤ maxSize) :
    (resumed p tape cursor options).Accepted env := by
  have hcapacity := tape.capacity_lt
  obtain ⟨r, hr, _⟩ := generate_accepts ⟨tape.capacity, options.counting, env.host⟩ hp hc
    ⟨tape.capacity_pos, Nat.le_of_lt hcapacity⟩ hsize
  exact .inr ⟨r, hr⟩

variable (env tape cursor options) in
/-- An engine goes on from a state as the interpreter would, and a run of the interpreter that is handed
over to an engine after any number of steps ends as it would have ended. -/
theorem resume_agrees (hp : p.Linked) (hc : p.Compilable) (hs : sink.Faultless) (hip : cursor.ip ≤ p.size)
    (hptr : cursor.ptr < tape.capacity)
    (hsuits : ∀ r, Architecture.host.generate p ⟨tape.capacity, options.counting, env.host⟩ = .ok r →
      env.Suits ⟨tape.capacity, options.counting, env.host⟩ r.code) (out : σ) :
    ∃ e, resume p tape cursor options = .ok e ∧
      e.interpreter = ⟨tape, cursor, false, options.newCounters⟩ ∧
      (p.size ≤ maxSize → e.Accepted env) ∧
      e.Agrees env sink out ∧
      ∀ s sent k, Completes p sink e.interpreter out s sent → e.Accepted env →
        let x := after p sink k (e.interpreter, out)
        ∃ e₁ e' out', resume p x.1.tape x.1.cursor options = .ok e₁ ∧ e₁.Returns env sink x.2 e' out' ∧
          e'.tape = s.tape ∧ e'.cursor = s.cursor ∧
          s.counters = (x.1.counters.bind fun a => e'.counters.map a.add) ∧
          out' = if e₁.finished then sent else (sink.flush sent).2 := by
  refine ⟨resumed p tape cursor options, resume_eq_ok hptr, rfl, accepted_of_size_le hp hc,
    agrees (ready_resumed hp hip hptr hsuits) hs out, ?_⟩
  intro s sent k hcompletes haccepted x
  obtain ⟨hrest, hvalid, hcapacity, hcounters⟩ := hcompletes.of_after rfl hptr k
  obtain ⟨t, ht, htape, hcursor, hsum⟩ :=
    hrest.resumed hvalid.live hvalid.ptr_lt (hcounters.trans (isSome_newCounters options))
  have hoptions : x.1.tape.capacity = tape.capacity := hcapacity
  have hcode (r : Routine) : (resumed p x.1.tape x.1.cursor options).Code env r ↔
      (resumed p tape cursor options).Code env r := by
    unfold Code codeOptions
    show Architecture.host.generate p ⟨x.1.tape.capacity, _, _⟩ = _ ↔ _
    rw [hoptions]
    rfl
  have hready : Ready env (resumed p x.1.tape x.1.cursor options) := by
    refine ready_resumed hp hvalid.ip_le hvalid.ptr_lt fun r hr => ?_
    rw [hoptions]
    exact hsuits r ((hcode r).1 hr)
  have haccepted₁ : (resumed p x.1.tape x.1.cursor options).Accepted env := by
    rcases haccepted with hfinished | ⟨r, hr⟩
    · have hx : x = ((resumed p tape cursor options).interpreter, out) :=
        Interpreter.after_of_size_le rfl (finished_iff.1 hfinished) k
      rw [hx]
      exact .inl hfinished
    · exact .inr ⟨r, (hcode r).2 hr⟩
  have hagrees := agrees hready hs x.2
  obtain ⟨e', out', hreturns⟩ := hagrees.returns_iff.2 ⟨haccepted₁, t, sent, ht⟩
  have hended := hagrees.ended hreturns ht
  refine ⟨_, e', out', resume_eq_ok hvalid.ptr_lt, hreturns, hended.tape.trans htape, hended.cursor.trans hcursor,
    ?_, hended.out⟩
  rw [hended.counters]
  exact hsum

/-- A loop that counts down, with counters, on a tape of two cells: run from the start, and handed over
at its closing bracket. -/
theorem resume_agrees_countdown :
    let p : Program := #[.add 2, .loopBegin 4, .output, .add 255, .loopEnd 1]
    ∃ tape e, Tape.new 2 = .ok tape ∧ resume p tape .start ⟨2, true⟩ = .ok e ∧
      (∃ e', e.Returns environment Sink.buffer #[] e' #[2, 1] ∧ e'.cursor = ⟨5, 0⟩) ∧
      let x := after p Sink.buffer 4 (e.interpreter, #[])
      ∃ e₁ e', resume p x.1.tape x.1.cursor ⟨2, true⟩ = .ok e₁ ∧
        e₁.Returns environment Sink.buffer x.2 e' #[2, 1] ∧ e'.cursor = ⟨5, 0⟩ := by
  intro p
  have hlinked : p.Linked := Program.linked_of_block
    (.act (.add 2) (.loop (.act .output (.act (.add 255) .done)) .done))
  have hcompilable : p.Compilable := by
    refine Dialect.mem_compilable.2 ?_
    simp [p, Instruction.Compilable]
  have hsuits (r : Routine) (hr : Architecture.host.generate p ⟨2, true, environment.host⟩ = .ok r) :
      environment.Suits ⟨2, true, environment.host⟩ r.code :=
    suits_of_generate rfl hlinked hcompilable (by decide) (by decide) hr
  obtain ⟨tape, htape⟩ : ∃ tape, Tape.new 2 = .ok tape := ⟨_, rfl⟩
  have hcapacity : tape.capacity = 2 := by cases htape; rfl
  obtain ⟨e, he, hinterpreter, haccepted, hagrees, hhandover⟩ :=
    resume_agrees environment tape .start ⟨2, true⟩ hlinked hcompilable Sink.buffer_faultless (by decide)
      (by rw [hcapacity]; decide) (by rw [hcapacity]; exact hsuits) #[]
  replace haccepted := haccepted (by decide)
  have hprogram : e.program = p := by
    rw [resume_eq_ok (by rw [hcapacity]; decide)] at he
    cases he
    rfl
  have hfinished : e.finished = false := by
    rw [finished, hprogram, show e.cursor = .start from congrArg Interpreter.cursor hinterpreter]
    rfl
  obtain ⟨s, hcompletes, hcursor⟩ : ∃ s, Completes p Sink.buffer e.interpreter #[] s #[2, 1] ∧ s.cursor = ⟨5, 0⟩ := by
    have hrun : (advance (Interpreter.next p Sink.buffer) 8 (e.interpreter, #[])).map (fun y => (y.1.cursor, y.2)) =
        some (⟨5, 0⟩, #[2, 1]) := by
      rw [hinterpreter]
      cases htape
      dsimp only [p]
      rfl
    obtain ⟨⟨s, bytes⟩, hs, heq⟩ := Option.map_eq_some_iff.1 hrun
    obtain ⟨hcursor, rfl⟩ := Prod.mk.inj heq
    exact ⟨s, ⟨⟨8, hs⟩, congrArg Cursor.ip hcursor⟩, hcursor⟩
  refine ⟨tape, e, htape, he, ?_, ?_⟩
  · obtain ⟨e', out', hreturns⟩ := hagrees.returns_iff.2 ⟨haccepted, s, _, hprogram ▸ hcompletes⟩
    have hended := hagrees.ended hreturns (hprogram ▸ hcompletes)
    obtain rfl : out' = #[2, 1] := by
      rw [hended.out, hfinished]
      rfl
    exact ⟨e', hreturns, hended.cursor.trans hcursor⟩
  · intro x
    obtain ⟨e₁, e', out', hresume, hreturns, _, hcursor', _, hout⟩ := hhandover s _ 4 hcompletes haccepted
    obtain rfl : out' = #[2, 1] := by
      rw [hout]
      split <;> rfl
    exact ⟨e₁, e', hresume, hreturns, hcursor'.trans hcursor⟩

end Resuming

end Engine

end TapeLang
