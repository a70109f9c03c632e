import TapeLang.Proofs.Code.Recording
import TapeLang.Proofs.X86.Correctness

/-!
# What a run of x86-64 code has sent

The machine has its host do nothing but by a call (`Machine.calls_of_executeOp`), and a call sends one byte
to the sink or none. So the log of a sink that writes everything down only grows
(`Machine.log_prefix_of_next`), and what a run has sent is what is sent of the bytes that the interpreter
has written, until one is refused (`log_iff_of_entered`).
-/

namespace TapeLang

namespace HostState

variable {σ : Type} {calls : HostCalls} {sink : Sink σ} {target argument : UInt64}

/-- What a host has sent to a sink that writes it down. -/
def log (h : HostState (σ × Array UInt8)) : List UInt8 := h.out.2.toList

theorem log_prefix_of_call {h h' : HostState (σ × Array UInt8)}
    (hcall : h.call? calls sink.logged target argument = some h') : h.log <+: h'.log := by
  unfold call? at hcall
  split at hcall
  · cases hcall
    unfold put
    split
    · exact List.prefix_rfl
    · have hpush : (sink.logged.write h.out argument.toUInt8).2.2.toList = h.log ++ [argument.toUInt8] :=
        Array.toList_push
      generalize sink.logged.write h.out argument.toUInt8 = answer at hpush
      obtain ⟨_ | e, out⟩ := answer
      · exact ⟨[argument.toUInt8], hpush.symm⟩
      · exact ⟨[argument.toUInt8], hpush.symm⟩
  · split at hcall
    · cases hcall
      exact List.prefix_rfl
    · cases hcall

/-- The log of a host that has been given bytes. -/
theorem log_putAll (sink : Sink σ) (out : σ) (bytes : List UInt8) :
    ((⟨(out, #[]), none⟩ : HostState (σ × Array UInt8)).putAll sink.logged bytes).log = sink.issued out bytes := by
  rw [putAll_eq_send, Sink.send_logged, log, Array.empty_append]

end HostState

namespace X86

variable {σ : Type} {env : Environment} {sink : Sink σ} {code : Array UInt8}

namespace Machine

/-- The host of a machine is left alone, or a function is called. -/
def Calls (env : Environment) (sink : Sink σ) (m m' : Machine σ) : Prop :=
  m'.host = m.host ∨ ∃ target argument, m.host.call? env.host sink target argument = some m'.host

theorem host_of_pop {m m' : Machine σ} {v : UInt64} (h : m.pop? = some (v, m')) : m'.host = m.host := by
  unfold pop? at h
  split at h
  · split at h
    · cases h
      rfl
    · cases h
  · cases h

theorem calls_of_executeOp {m m' : Machine σ} {o : Op} (h : m.executeOp env sink o = some m') : Calls env sink m m' := by
  cases o with
  | call target =>
    rw [executeOp, call?] at h
    split at h
    · obtain ⟨host, hcall, h⟩ := Option.bind_eq_some_iff.1 h
      obtain rfl : host = m'.host := congrArg Machine.host (Option.some.inj h)
      exact .inr ⟨_, _, hcall⟩
    · cases h
  | load8 | loadZero8 | load64 =>
    rw [executeOp] at h
    obtain ⟨v, _, h⟩ := Option.bind_eq_some_iff.1 h
    cases h
    exact .inl rfl
  | store8 | store64 =>
    rw [executeOp] at h
    obtain ⟨v, _, h⟩ := Option.map_eq_some_iff.1 h
    cases h
    exact .inl rfl
  | pop | ret =>
    rw [executeOp] at h
    obtain ⟨⟨v, m₁⟩, hpop, h⟩ := Option.bind_eq_some_iff.1 h
    have hhost := host_of_pop hpop
    cases h
    exact .inl hhost
  | _ => exact .inl (congrArg Machine.host (Option.some.inj h)).symm

theorem calls_of_next {m m' : Machine σ} (h : next env code sink m = some m') : Calls env sink m m' := by
  unfold next at h
  split at h
  · cases h
  · unfold step at h
    obtain ⟨⟨i, rest⟩, _, h⟩ := Option.bind_eq_some_iff.1 h
    obtain ⟨a, h⟩ : ∃ a, (m.goto a).execute env sink i = some m' := ⟨_, h⟩
    cases i with
    | op o =>
      have hcalls : Calls env sink (m.goto a) m' := calls_of_executeOp h
      exact hcalls
    | branch b displacement =>
      cases h
      split
      · exact .inl rfl
      · exact .inl rfl

/-- The log only grows. -/
theorem log_prefix_of_next {m m' : Machine (σ × Array UInt8)} (h : next env code sink.logged m = some m') :
    m.host.log <+: m'.host.log := by
  rcases calls_of_next h with heq | ⟨_, _, hcall⟩
  · rw [heq]
  · exact HostState.log_prefix_of_call hcall

end Machine

open Machine

variable {p : Program} {s : Interpreter} {out : σ} {m₀ : Machine (σ × Array UInt8)} {last : Int32} {counting : Bool}
  {offset : Nat → Nat}

/-- Generated code keeps a log of what is sent of the bytes that are written, until one is refused. -/
theorem backend_records (hhost : m₀.host = ⟨(out, #[]), none⟩) :
    (backend env sink.logged p last counting code offset m₀).Records (Exited env sink.logged counting m₀)
      (Reported env sink.logged counting m₀) (fun m => m.host.log) (fun bytes => sink.issued out bytes.toList) := by
  have hlog (bytes : Array UInt8) : (m₀.host.putAll sink.logged bytes.toList).log = sink.issued out bytes.toList := by
    rw [hhost, HostState.log_putAll]
  constructor
  · intro m m' h
    exact log_prefix_of_next h
  · intro bytes b
    rw [Array.toList_push]
    rcases sink.issued_append_singleton out bytes.toList b with heq | heq
    · exact .inl heq
    · exact .inr ⟨b, heq⟩
  · intro s bytes x h k
    have hx : x.host = m₀.host.putAll sink.logged bytes.toList := h.memory.host
    show x.host.log = _
    rw [hx, hlog]
  · intro s bytes t h
    have ht : t.host = m₀.host.putAll sink.logged bytes.toList := h.2.memory.host
    show t.host.log = _
    rw [ht, hlog]
  · intro s bytes index t h
    have ht : t.host = (m₀.host.putAll sink.logged bytes.toList).record (.outOfBounds index) := h.memory.host
    show t.host.log = _
    rw [ht, ← hlog]
    rfl

/-- At all times, what a run of generated code has sent is what is sent of the bytes that the interpreter
has written, until one is refused. -/
theorem log_iff_of_entered {options : CodeOptions} {r : Routine} (hp : p.Linked)
    (hr : generate p options = .ok r) (henv : env.Suits options r.code) {resume : Nat}
    (hresume : r.resumeOffset? s.cursor.ip = some resume) (hlive : s.halted = false)
    (hcapacity : s.tape.capacity = options.capacity) (hhost : m₀.host = ⟨(out, #[]), none⟩)
    (hm : Entered env options.counting s (env.codeBase + UInt64.ofNat resume) m₀) {log : List UInt8} :
    (∃ n t, advance (next env r.code sink.logged) n m₀ = some t ∧ t.host.log = log) ↔
      ∃ k s' bytes, advance (Interpreter.next p Sink.buffer) k (s, #[]) = some (s', bytes) ∧
        log = sink.issued out bytes.toList := by
  obtain ⟨last, offset, hsound, _, hcloses, _, n₀, y, htrail, hboundary⟩ :=
    exists_backend hp hr henv sink.logged hresume hlive hcapacity hm
  have hstart : m₀.host.log = sink.issued out (#[] : Array UInt8).toList := by
    rw [hhost]
    rfl
  exact hsound.log_iff hcloses (backend_records hhost) htrail.advance hstart hboundary

end X86

end TapeLang
