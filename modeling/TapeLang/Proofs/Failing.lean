import TapeLang.Proofs.Faults
import TapeLang.Proofs.X86.Recording

/-!
# Sinks that fail, in the engine and in the interpreter

Over a sink that may refuse a byte, the engine and the interpreter send the same bytes up to the first that
is refused, and none after it. The interpreter fails at once; the engine goes on without a word, and
reports that fault when the routine returns, whatever the routine meets on its way (`Engine.FailsAlike`).

Proof. What both send is what is sent of the bytes that the run over a buffer writes
(`Interpreter.issues_iff`, `X86.log_iff_of_entered`). When the machine returns, that run is at its end, so
that its bytes begin with those that have been sent (`Engine.exists_endsIn_of_returned`), and the host has
kept the first fault (`HostState.putAll_eq_send`).
-/

namespace TapeLang

open X86

namespace Engine

open Interpreter (Overruns EndsIn)

variable {σ : Type} {env : Environment} {sink : Sink σ} {e e' : Engine} {out out' : σ} {s : Interpreter}
  {log : List UInt8}

/-- At some time, these are the bytes that a run has sent, in this order. -/
def Issues (env : Environment) (sink : Sink σ) (e : Engine) (out : σ) (log : List UInt8) : Prop :=
  match e.enter env (out, #[]) with
  | .entered _ code m => ∃ n t, advance (Machine.next env code sink.logged) n m = some t ∧ t.host.log = log
  | _ => log = []

/-- An engine and the interpreter over a sink that may refuse a byte. -/
structure FailsAlike (env : Environment) (sink : Sink σ) (e : Engine) (out : σ) : Prop where
  issues_iff {log : List UInt8} : e.Issues env sink out log ↔ e.interpreter.Issues e.program sink out log
  /-- All bytes before the last one that has been sent were accepted. -/
  accepted {log : List UInt8} {b : UInt8} (h : e.Issues env sink out (log ++ [b])) : (sink.send out log).1 = none
  /-- Where a byte is refused, the interpreter fails at once. -/
  interpreter_fails {log : List UInt8} {fault : SinkError} {out' : σ}
    (h : e.interpreter.Issues e.program sink out log) (hsend : sink.send out log = (some fault, out')) :
    ∃ fuel s, e.interpreter.run e.program sink fuel out = (.failed (.output fault), s, out')
  /-- Where a byte is refused, that is how the engine ends, if it does. Neither has it sent anything else,
  nor has it flushed the sink. -/
  engine_fails {log : List UInt8} {fault : SinkError} {out' : σ} (h : e.Issues env sink out log)
    (hsend : sink.send out log = (some fault, out')) {fuel : Nat} {ending : Ending} {e' : Engine} {out'' : σ}
    (hrun : e.run env sink fuel out = (ending, e', out'')) (hending : ending ≠ .unfinished) :
    ending = .ended (some (.output fault)) ∧ out'' = out' ∧ e'.cursor = e.cursor ∧
      ∃ s, EndsIn e.program e.interpreter s ∧ e'.tape = s.tape ∧ e'.counters = s.counters
  /-- Whatever the sink answers, the engine comes to an end if the program does. -/
  ends_iff : (∃ fuel, (e.run env sink fuel out).1 ≠ .unfinished) ↔ ∃ s, EndsIn e.program e.interpreter s
  /-- A move that leaves the tape before a byte is refused stops both. -/
  overruns {delta : Int64} {s₀ : Interpreter} {sent : σ}
    (h : Overruns e.program sink e.interpreter out delta s₀ sent) :
    ∃ index e' limited s, e.Faults env sink out index e.tape.capacity e' sent ∧
      e.interpreter.Faults e.program sink out limited e.tape.capacity s sent ∧
      Stopped e delta s₀ index e' limited s

/-! ### Engines that have nothing to execute -/

theorem failsAlike_of_finished (hf : e.finished = true) : e.FailsAlike env sink out := by
  have hstart : Interpreter.next e.program Sink.buffer (e.interpreter, #[]) = none :=
    Interpreter.next_of_size_le rfl (finished_iff.1 hf)
  have hissues {log : List UInt8} : e.Issues env sink out log ↔ log = [] := by
    unfold Issues
    rw [enter_of_finished env hf]
  have hinterpreter {log : List UInt8} : e.interpreter.Issues e.program sink out log ↔ log = [] := by
    rw [Interpreter.issues_iff]
    constructor
    · rintro ⟨k, s, bytes, hk, rfl⟩
      obtain rfl := Nat.le_zero.1 (le_of_advance_of_none (n := 0) rfl hstart hk)
      cases hk
      rfl
    · rintro rfl
      exact ⟨0, _, _, rfl, rfl⟩
  have hrun (fuel : Nat) : e.run env sink fuel out = (.ended none, e, out) := by
    rw [run, enter_of_finished env hf]
  constructor
  · intro log
    rw [hissues, hinterpreter]
  · intro log b h
    have := hissues.1 h
    simp at this
  · intro log fault out' h hsend
    obtain rfl := hinterpreter.1 h
    cases hsend
  · intro log fault out' h hsend
    obtain rfl := hissues.1 h
    cases hsend
  · constructor
    · intro _
      refine ⟨e.interpreter, 1, .stopped none none, by simp, ?_⟩
      rw [Interpreter.run, Interpreter.step_of_size_le rfl (finished_iff.1 hf)]
      rfl
    · intro _
      exact ⟨0, by rw [hrun]; simp⟩
  · rintro delta s₀ sent ⟨⟨k, hk⟩, hmove, _⟩
    have hnext : Interpreter.next e.program sink (e.interpreter, out) = none :=
      Interpreter.next_of_size_le rfl (finished_iff.1 hf)
    obtain rfl := Nat.le_zero.1 (le_of_advance_of_none (n := 0) rfl hnext hk)
    cases hk
    have hnone : e.program[e.interpreter.cursor.ip]? = none := Array.getElem?_eq_none (finished_iff.1 hf)
    rw [hnone] at hmove
    cases hmove

/-! ### Engines that enter code -/

section Running

variable {r : Routine} {offset : Nat}

/-- What has been sent is what is sent of the bytes of the run over a buffer. -/
theorem issues_iff_of_code (h : Ready env e) (hr : e.Code env r) (hf : e.finished = false) :
    e.Issues env sink out log ↔
      ∃ k s bytes, advance (Interpreter.next e.program Sink.buffer) k (e.interpreter, #[]) = some (s, bytes) ∧
        log = sink.issued out bytes.toList := by
  obtain ⟨offset, hresume, henter⟩ := exists_enter h hr hf (out, (#[] : Array UInt8))
  unfold Issues
  rw [henter]
  exact log_iff_of_entered h.linked hr (h.suits hr) hresume rfl rfl rfl
    (entered env h.counted h.ptr_lt offset (out, #[]))

/-- The machine has no next step only at the return address. -/
theorem rip_of_last (h : Ready env e) (hr : e.Code env r) (hresume : r.resumeOffset? e.cursor.ip = some offset)
    {n : Nat} {t : Machine σ} (ht : advance (Machine.next env r.code sink) n (e.entryMachine env offset out) = some t)
    (hlast : Machine.next env r.code sink t = none) : t.rip = env.returnAddress := by
  obtain ⟨last, place, hsound, _, hcloses, _, n₀, y, htrail, hboundary⟩ :=
    exists_backend h.linked hr (h.suits hr) sink hresume rfl rfl (entered env h.counted h.ptr_lt offset out)
  rcases hsound.exited_or_reported hcloses htrail.advance hboundary ht hlast with ⟨_, _, _, hexited⟩ |
    ⟨_, _, _, _, hreported⟩
  · exact hexited.2.rip
  · exact hreported.rip

/-- A run that enters code and is over has returned, if its machine has a next step everywhere else. -/
theorem returned_of_run {e₁ : Engine} {code : Array UInt8} {m : Machine σ}
    (henter : e.enter env out = .entered e₁ code m)
    (hlast : ∀ n t, advance (Machine.next env code sink) n m = some t → Machine.next env code sink t = none →
      t.rip = env.returnAddress)
    {fuel : Nat} {ending : Ending} (hrun : e.run env sink fuel out = (ending, e', out'))
    (hending : ending ≠ .unfinished) :
    ∃ t, (∃ n, advance (Machine.next env code sink) n m = some t) ∧ t.rip = env.returnAddress ∧
      e₁.finish sink t = (ending, e', out') := by
  unfold run at hrun
  rw [henter] at hrun
  dsimp only at hrun
  split at hrun
  case h_1 t ht =>
    obtain ⟨hadvance, hrip⟩ := Machine.run_eq_returned_iff.1 ⟨fuel, ht⟩
    exact ⟨t, hadvance, hrip, hrun⟩
  case h_2 hstuck =>
    obtain ⟨n, t, ht, hnone, hrip⟩ := Machine.exists_last_of_stuck hstuck
    exact absurd (hlast n t ht hnone) hrip
  case h_3 =>
    cases hrun
    exact absurd rfl hending

theorem exists_returned (h : Ready env e) (hr : e.Code env r) (hf : e.finished = false) {fuel : Nat}
    {ending : Ending} (hrun : e.run env sink fuel out = (ending, e', out')) (hending : ending ≠ .unfinished) :
    ∃ offset t, r.resumeOffset? e.cursor.ip = some offset ∧
      (∃ n, advance (Machine.next env r.code sink) n (e.entryMachine env offset out) = some t) ∧
      t.rip = env.returnAddress ∧ (e.withRoutine r).finish sink t = (ending, e', out') := by
  obtain ⟨offset, hresume, henter⟩ := exists_enter h hr hf out
  obtain ⟨t, hadvance, hrip, hfinish⟩ :=
    returned_of_run henter (fun _ _ ht hlast => rip_of_last h hr hresume ht hlast) hrun hending
  exact ⟨offset, t, hresume, hadvance, hrip, hfinish⟩

/-- Where the routine has returned, the run over a buffer has no next step, and its whole run ends in what
the engine takes over; the first fault that its bytes meet is kept. -/
theorem exists_endsIn_of_returned (h : Ready env e) {code : Array UInt8} {t : Machine σ}
    (hmirrors : Mirrors env sink e code (e.entryMachine env offset out))
    (ht : ∃ n, advance (Machine.next env code sink) n (e.entryMachine env offset out) = some t)
    (hrip : t.rip = env.returnAddress) :
    ∃ k s₀ bytes s, advance (Interpreter.next e.program Sink.buffer) k (e.interpreter, #[]) = some (s₀, bytes) ∧
      Interpreter.next e.program Sink.buffer (s₀, bytes) = none ∧ EndsIn e.program e.interpreter s ∧
      t.tape = s.tape ∧ t.counters = s.counters ∧
      ∀ fault out', sink.send out bytes.toList = (some fault, out') → t.host = ⟨out', some (.output fault)⟩ := by
  rcases hmirrors.ends ht hrip with ⟨s, bytes, hcompletes, hexited⟩ | ⟨delta, s, bytes, hoverruns, hreported⟩
  · obtain ⟨k, hk⟩ := hcompletes.reaches
    obtain ⟨_, _, _, hcounters⟩ := Interpreter.advance_keeps hk h.ptr_lt
    obtain ⟨htape, hcounted, hhost⟩ := of_returned h hcounters hexited.2
    refine ⟨k, s, bytes, s, hk, Interpreter.next_of_ip_eq hcompletes.ip_eq _ _, hcompletes.endsIn, htape, hcounted, ?_⟩
    intro fault out' hsend
    rw [hhost]
    show (⟨out, none⟩ : HostState σ).putAll sink bytes.toList = _
    rw [HostState.putAll_eq_send, hsend]
    rfl
  · obtain ⟨k, hk⟩ := hoverruns.reaches
    obtain ⟨htape, hcounted, hhost⟩ := of_reported h hoverruns hreported
    refine ⟨k, s, bytes, s.pass (.move delta), hk, ?_, hoverruns.endsIn rfl h.ptr_lt, htape, hcounted, ?_⟩
    · exact Interpreter.next_of_failed (hoverruns.step_eq rfl h.ptr_lt)
    · intro fault out' hsend
      rw [hhost, HostState.putAll_eq_send, hsend]
      rfl

/-- Where the whole run ends, the routine returns. -/
theorem exists_returned_of_endsIn (h : Ready env e) (hr : e.Code env r)
    (hresume : r.resumeOffset? e.cursor.ip = some offset) (hends : EndsIn e.program e.interpreter s) :
    ∃ t, (∃ n, advance (Machine.next env r.code sink) n (e.entryMachine env offset out) = some t) ∧
      t.rip = env.returnAddress := by
  obtain ⟨k, s₀, bytes, hk, hlast⟩ := hends.exists_last
  obtain ⟨last, place, hsound, _, _, _, n₀, y, htrail, hboundary⟩ :=
    exists_backend h.linked hr (h.suits hr) sink hresume rfl rfl (entered env h.counted h.ptr_lt offset out)
  have hmirrors := mirrors h hr hresume sink out
  rcases hsound.completes_or_overruns hboundary hk hlast with hcompletes | ⟨delta, hoverruns⟩
  · obtain ⟨t, ht, hexited⟩ := hmirrors.exits hcompletes
    exact ⟨t, ht, hexited.2.rip⟩
  · obtain ⟨t, ht, hreported⟩ := hmirrors.reports hoverruns
    exact ⟨t, ht, hreported.rip⟩

/-- Where a byte is refused, the engine that is over has ended with that fault. -/
theorem ended_of_refused (h : Ready env e) (hr : e.Code env r) (hf : e.finished = false) {fault : SinkError} {sent : σ}
    (hissues : e.Issues env sink out log) (hsend : sink.send out log = (some fault, sent)) {fuel : Nat}
    {ending : Ending} (hrun : e.run env sink fuel out = (ending, e', out')) (hending : ending ≠ .unfinished) :
    ending = .ended (some (.output fault)) ∧ out' = sent ∧ e'.cursor = e.cursor ∧
      ∃ s, EndsIn e.program e.interpreter s ∧ e'.tape = s.tape ∧ e'.counters = s.counters := by
  obtain ⟨offset, t, hresume, hadvance, hrip, hfinish⟩ := exists_returned h hr hf hrun hending
  obtain ⟨n, s₀, bytes, s, hn, hlast, hends, htape, hcounters, hhost⟩ :=
    exists_endsIn_of_returned h (mirrors h hr hresume sink out) hadvance hrip
  obtain ⟨k, s₁, bytes₁, hk, rfl⟩ := (issues_iff_of_code h hr hf).1 hissues
  rw [Sink.send_issued] at hsend
  -- the byte was refused on the way to the end
  obtain ⟨rest, hrest⟩ := Interpreter.prefix_of_last hn hlast hk
  have hrefused := (Sink.send_append_of_refused hsend rest).1
  rw [hrest] at hrefused
  rw [finish, hhost fault sent hrefused] at hfinish
  cases hfinish
  exact ⟨rfl, rfl, rfl, s, hends, htape, hcounters⟩

/-- The engine comes to an end if the program does. -/
theorem ends_iff_of_code (h : Ready env e) (hr : e.Code env r) (hf : e.finished = false) :
    (∃ fuel, (e.run env sink fuel out).1 ≠ .unfinished) ↔ ∃ s, EndsIn e.program e.interpreter s := by
  constructor
  · rintro ⟨fuel, hending⟩
    obtain ⟨offset, t, hresume, hadvance, hrip, _⟩ := exists_returned h hr hf rfl hending
    obtain ⟨_, _, _, s, _, _, hends, _⟩ :=
      exists_endsIn_of_returned h (mirrors h hr hresume sink out) hadvance hrip
    exact ⟨s, hends⟩
  · rintro ⟨s, hends⟩
    obtain ⟨offset, hresume, henter⟩ := exists_enter h hr hf out
    obtain ⟨t, hadvance, hrip⟩ := exists_returned_of_endsIn h hr hresume hends
    obtain ⟨fuel, ht⟩ := Machine.run_eq_returned_iff.2 ⟨hadvance, hrip⟩
    refine ⟨fuel, ?_⟩
    rw [run_of_returned henter ht]
    unfold finish
    split
    · simp
    · simp

/-- A move that leaves the tape before a byte is refused stops the engine and the interpreter. -/
theorem exists_stopped_of_overruns (h : Ready env e) (hr : e.Code env r) (hf : e.finished = false) {delta : Int64}
    {s₀ : Interpreter} {sent : σ} (hoverruns : Overruns e.program sink e.interpreter out delta s₀ sent) :
    ∃ index e' limited s, e.Faults env sink out index e.tape.capacity e' sent ∧
      e.interpreter.Faults e.program sink out limited e.tape.capacity s sent ∧
      Stopped e delta s₀ index e' limited s := by
  obtain ⟨offset, hresume, henter⟩ := exists_enter h hr hf out
  obtain ⟨bytes, hbuffer, hsend⟩ := hoverruns.exists_send
  obtain ⟨k, hk⟩ := hbuffer.reaches
  obtain ⟨_, hptr, hcapacity, _⟩ := Interpreter.advance_keeps hk h.ptr_lt
  replace hcapacity : s₀.tape.capacity = e.tape.capacity := hcapacity
  obtain ⟨t, ht, hreported⟩ := (mirrors h hr hresume sink out).reports hbuffer
  obtain ⟨htape, hcounters, hhost⟩ := of_reported h hbuffer hreported
  rw [HostState.putAll_eq_send, hsend] at hhost
  have hinterpreter := hoverruns.faults rfl h.ptr_lt
  rw [hcapacity] at hinterpreter
  refine ⟨_, _, _, _, (faults_iff_of_enter henter).2 ⟨t, _, ht, hreported.rip, ?_, rfl, ?_, ?_, rfl⟩, hinterpreter,
    stopped_of_move r hptr htape hcounters⟩
  · rw [hhost]
    rfl
  · rw [htape, hcapacity]
  · rw [hhost]
    rfl

theorem failsAlike_of_code (h : Ready env e) (hr : e.Code env r) (hf : e.finished = false) :
    e.FailsAlike env sink out where
  issues_iff {log} := by rw [issues_iff_of_code h hr hf, Interpreter.issues_iff]
  accepted hissues := by
    obtain ⟨_, _, _, _, hlog⟩ := (issues_iff_of_code h hr hf).1 hissues
    exact Sink.accepted_of_issued hlog.symm
  interpreter_fails hissues hsend := by
    obtain ⟨_, _, _, hk, rfl⟩ := Interpreter.issues_iff.1 hissues
    rw [Sink.send_issued] at hsend
    exact Interpreter.exists_run_failed hk hsend
  engine_fails hissues hsend _ _ _ _ hrun hending := ended_of_refused h hr hf hissues hsend hrun hending
  ends_iff := ends_iff_of_code h hr hf
  overruns hoverruns := exists_stopped_of_overruns h hr hf hoverruns

/-- An engine that can be run and has code fails as the interpreter does. -/
theorem failsAlike (h : Ready env e) (haccepted : e.Accepted env) (sink : Sink σ) (out : σ) :
    e.FailsAlike env sink out := by
  cases hf : e.finished with
  | true => exact failsAlike_of_finished hf
  | false =>
    rcases haccepted with hfinished | ⟨r, hr⟩
    · rw [hf] at hfinished
      cases hfinished
    · exact failsAlike_of_code h hr hf

end Running

section Resuming

variable {p : Program} {tape : Tape} {cursor : Cursor} {options : Options}

variable (env cursor options) in
/-- An engine that goes on from a state and the interpreter that does report a sink that fails alike. -/
theorem resume_fails_alike (hp : p.Linked) (hc : p.Compilable) (hptr : cursor.ptr < tape.capacity)
    (hsuits : ∀ r, Architecture.host.generate p ⟨tape.capacity, options.counting, env.host⟩ = .ok r →
      env.Suits ⟨tape.capacity, options.counting, env.host⟩ r.code) (sink : Sink σ) (out : σ) :
    ∃ e, resume p tape cursor options = .ok e ∧
      e.program = p ∧
      e.interpreter = ⟨tape, cursor, false, options.newCounters⟩ ∧
      (p.size ≤ maxSize → e.Accepted env) ∧
      (e.Accepted env → e.FailsAlike env sink out) := by
  refine ⟨resumed p tape cursor options, resume_eq_ok hptr, rfl, rfl, accepted_of_size_le hp hc, ?_⟩
  intro haccepted
  rcases Nat.le_total cursor.ip p.size with hip | hip
  · exact failsAlike (ready_resumed hp hip hptr hsuits) haccepted sink out
  · exact failsAlike_of_finished (finished_iff.2 hip)

/-- A sink with room for one byte, and a program that writes two before it leaves the tape. -/
theorem resume_fails_alike_full :
    let p : Program := #[.add 1, .output, .output, .move 9]
    let out : Sink.Bounded := { limit := some 1 }
    let full : Sink.Bounded := { limit := some 1, bytes := #[1] }
    ∃ tape e, Tape.new 2 = .ok tape ∧ resume p tape .start ⟨2, true⟩ = .ok e ∧
      e.Issues environment Sink.bounded out [1, 1] ∧ e.interpreter.Issues p Sink.bounded out [1, 1] ∧
      (∃ fuel s, e.interpreter.run p Sink.bounded fuel out = (.failed (.output ⟨"sink full"⟩), s, full)) ∧
      ∃ fuel e', e.run environment Sink.bounded fuel out = (.ended (some (.output ⟨"sink full"⟩)), e', full) ∧
        e'.cursor = .start := by
  intro p out full
  have hlinked : p.Linked := Program.linked_of_block
    (.act (.add 1) (.act .output (.act .output (.act (.move 9) .done))))
  have hcompilable : p.Compilable := by
    refine Dialect.mem_compilable.2 ?_
    simp [p, Instruction.Compilable]
  have hsuits (r : Routine) (hr : Architecture.host.generate p ⟨2, true, environment.host⟩ = .ok r) :
      environment.Suits ⟨2, true, environment.host⟩ r.code :=
    suits_of_generate rfl hlinked hcompilable (by decide) (by decide) hr
  obtain ⟨tape, htape⟩ : ∃ tape, Tape.new 2 = .ok tape := ⟨_, rfl⟩
  have hcapacity : tape.capacity = 2 := by cases htape; rfl
  obtain ⟨e, he, hprogram, hinterpreter, haccepted, halike⟩ :=
    resume_fails_alike environment .start ⟨2, true⟩ hlinked hcompilable (by rw [hcapacity]; decide)
      (by rw [hcapacity]; exact hsuits) Sink.bounded out
  replace halike := halike (haccepted (by decide))
  have hsend : Sink.bounded.send out [1, 1] = (some ⟨"sink full"⟩, full) := rfl
  have hissues : e.interpreter.Issues e.program Sink.bounded out [1, 1] := by
    refine ⟨4, ?_⟩
    rw [hprogram, hinterpreter]
    cases htape
    dsimp only [p]
    rfl
  have hends : ∃ s, EndsIn e.program e.interpreter s := by
    have hrun : (advance (Interpreter.next p Sink.buffer) 3 (e.interpreter, #[])).map
        (fun y => (y.1.cursor, y.1.tape.capacity)) = some (⟨3, 0⟩, 2) := by
      rw [hinterpreter]
      cases htape
      dsimp only [p]
      rfl
    obtain ⟨⟨s₀, bytes⟩, hs₀, heq⟩ := Option.map_eq_some_iff.1 hrun
    obtain ⟨hcursor, hsize⟩ := Prod.mk.inj heq
    have hoverruns : Overruns p Sink.buffer e.interpreter #[] 9 s₀ bytes := by
      refine ⟨⟨3, hs₀⟩, by rw [hcursor]; rfl, .inr ?_⟩
      rw [hsize, hcursor]
      decide
    rw [hprogram]
    refine ⟨_, hoverruns.endsIn ?_ ?_⟩
    · rw [hinterpreter]
    · rw [hinterpreter]
      exact tape.capacity_pos
  have hengine := halike.issues_iff.2 hissues
  obtain ⟨fuel, hfuel⟩ := halike.ends_iff.2 hends
  obtain ⟨hending, hout, hcursor, _⟩ := halike.engine_fails hengine hsend rfl hfuel
  have hfails := halike.interpreter_fails hissues hsend
  have hstart : e.cursor = .start := congrArg Interpreter.cursor hinterpreter
  rw [hprogram] at hissues hfails
  exact ⟨tape, e, htape, he, hengine, hissues, hfails, fuel, _, Prod.ext hending (Prod.ext rfl hout),
    hcursor.trans hstart⟩

end Resuming

end Engine

end TapeLang
