import TapeLang.Proofs.Code.Host

/-!
# Bytes that are sent until one is refused

`Sink.send` stops at the first byte that the sink refuses, and `Sink.issued` is what it has sent by then, that byte
included. `Sink.logged` is a sink that writes down every byte that it is sent, so that it tells which bytes those are
(`Sink.send_logged`).

A host that keeps its first fault sends what `send` does, however many bytes it is given
(`HostState.putAll_eq_send`).
-/

namespace TapeLang

namespace Sink

variable {σ : Type} {sink : Sink σ} {out out' : σ} {e : SinkError} {bytes rest : List UInt8} {b : UInt8}

/-- Sends bytes until one is refused: how the sink answered in the end, and the sink then. -/
def send (sink : Sink σ) (out : σ) : List UInt8 → Option SinkError × σ
  | [] => (none, out)
  | b :: rest =>
    match sink.write out b with
    | (none, out) => send sink out rest
    | (some e, out) => (some e, out)

/-- The bytes that are sent until one is refused, with that one. -/
def issued (sink : Sink σ) (out : σ) : List UInt8 → List UInt8
  | [] => []
  | b :: rest =>
    match sink.write out b with
    | (none, out) => b :: issued sink out rest
    | (some _, _) => [b]

/-- A sink that writes down every byte that it is sent. -/
def logged (sink : Sink σ) : Sink (σ × Array UInt8) where
  write x b := ((sink.write x.1 b).1, (sink.write x.1 b).2, x.2.push b)
  flush x := ((sink.flush x.1).1, (sink.flush x.1).2, x.2)

/-- Accepts every byte and keeps none. -/
def discard : Sink Unit where
  write _ _ := (none, ())
  flush _ := (none, ())

theorem discard_faultless : discard.Faultless := ⟨fun _ _ => rfl, fun _ => rfl⟩

/-! ### A first byte -/

@[simp] theorem send_nil (sink : Sink σ) (out : σ) : sink.send out [] = (none, out) := rfl

@[simp] theorem issued_nil (sink : Sink σ) (out : σ) : sink.issued out [] = [] := rfl

theorem send_cons_of_ok (h : sink.write out b = (none, out')) (rest : List UInt8) :
    sink.send out (b :: rest) = sink.send out' rest := by
  rw [send, h]

theorem send_cons_of_refused (h : sink.write out b = (some e, out')) (rest : List UInt8) :
    sink.send out (b :: rest) = (some e, out') := by
  rw [send, h]

theorem issued_cons_of_ok (h : sink.write out b = (none, out')) (rest : List UInt8) :
    sink.issued out (b :: rest) = b :: sink.issued out' rest := by
  rw [issued, h]

theorem issued_cons_of_refused (h : sink.write out b = (some e, out')) (rest : List UInt8) :
    sink.issued out (b :: rest) = [b] := by
  rw [issued, h]

/-! ### Bytes one after another -/

/-- Where all bytes are accepted, what follows is sent. -/
theorem send_append_of_ok (h : sink.send out bytes = (none, out')) (rest : List UInt8) :
    sink.send out (bytes ++ rest) = sink.send out' rest ∧
      sink.issued out (bytes ++ rest) = bytes ++ sink.issued out' rest := by
  induction bytes generalizing out with
  | nil =>
    cases h
    exact ⟨rfl, rfl⟩
  | cons b bytes ih =>
    match hb : sink.write out b with
    | (none, out₁) =>
      rw [send_cons_of_ok hb] at h
      obtain ⟨hsend, hissued⟩ := ih h
      rw [List.cons_append, send_cons_of_ok hb, issued_cons_of_ok hb, hsend, hissued]
      exact ⟨rfl, rfl⟩
    | (some e, out₁) =>
      rw [send_cons_of_refused hb] at h
      cases h

/-- Where a byte is refused, nothing that follows is sent. -/
theorem send_append_of_refused (h : sink.send out bytes = (some e, out')) (rest : List UInt8) :
    sink.send out (bytes ++ rest) = (some e, out') ∧ sink.issued out (bytes ++ rest) = sink.issued out bytes := by
  induction bytes generalizing out with
  | nil => cases h
  | cons b bytes ih =>
    match hb : sink.write out b with
    | (none, out₁) =>
      rw [send_cons_of_ok hb] at h
      obtain ⟨hsend, hissued⟩ := ih h
      rw [List.cons_append, send_cons_of_ok hb, issued_cons_of_ok hb, issued_cons_of_ok hb, hsend, hissued]
      exact ⟨rfl, rfl⟩
    | (some e', out₁) =>
      rw [send_cons_of_refused hb] at h
      cases h
      rw [List.cons_append, send_cons_of_refused hb, issued_cons_of_refused hb, issued_cons_of_refused hb]
      exact ⟨rfl, rfl⟩

theorem issued_of_ok (h : sink.send out bytes = (none, out')) : sink.issued out bytes = bytes := by
  have := (send_append_of_ok h []).2
  rwa [List.append_nil, issued_nil, List.append_nil] at this

/-- How one byte more is answered: the sink answers, unless there was a fault. -/
theorem send_append_singleton_eq_iff {answer : Option SinkError} :
    sink.send out (bytes ++ [b]) = (answer, out') ↔
      (∃ out₁, sink.send out bytes = (none, out₁) ∧ sink.write out₁ b = (answer, out')) ∨
        ∃ e, answer = some e ∧ sink.send out bytes = (some e, out') := by
  match hfront : sink.send out bytes with
  | (none, out₁) =>
    have hone : sink.send out₁ [b] = sink.write out₁ b := by
      match hb : sink.write out₁ b with
      | (none, out₂) => exact send_cons_of_ok hb []
      | (some e, out₂) => exact send_cons_of_refused hb []
    rw [(send_append_of_ok hfront [b]).1, hone]
    constructor
    · intro h
      exact .inl ⟨out₁, rfl, h⟩
    · rintro (⟨_, hout, h⟩ | ⟨_, _, h⟩)
      · cases hout
        exact h
      · cases h
  | (some e, out₁) =>
    rw [(send_append_of_refused hfront [b]).1]
    constructor
    · intro h
      cases h
      exact .inr ⟨e, rfl, rfl⟩
    · rintro (⟨_, h, _⟩ | ⟨_, rfl, h⟩)
      · cases h
      · exact h

/-- Nothing but what is sent matters. -/
theorem send_issued (sink : Sink σ) (out : σ) (bytes : List UInt8) :
    sink.send out (sink.issued out bytes) = sink.send out bytes := by
  induction bytes generalizing out with
  | nil => rfl
  | cons b bytes ih =>
    match hb : sink.write out b with
    | (none, out₁) => rw [issued_cons_of_ok hb, send_cons_of_ok hb, send_cons_of_ok hb, ih]
    | (some e, out₁) => rw [issued_cons_of_refused hb, send_cons_of_refused hb, send_cons_of_refused hb]

/-- Every byte that is sent but the last is accepted. -/
theorem accepted_of_issued {front : List UInt8} (h : sink.issued out bytes = front ++ [b]) :
    (sink.send out front).1 = none := by
  induction bytes generalizing out front with
  | nil => simp at h
  | cons c bytes ih =>
    cases front with
    | nil => rfl
    | cons c' front =>
      match hc : sink.write out c with
      | (none, out₁) =>
        rw [issued_cons_of_ok hc] at h
        obtain ⟨rfl, hfront⟩ := List.cons.inj h
        rw [send_cons_of_ok hc]
        exact ih hfront
      | (some e, out₁) =>
        rw [issued_cons_of_refused hc] at h
        have hfront := (List.cons.inj h).2
        simp at hfront

/-- One byte more is one byte more sent, or none if there was a fault. -/
theorem issued_append_singleton (sink : Sink σ) (out : σ) (bytes : List UInt8) (b : UInt8) :
    sink.issued out (bytes ++ [b]) = sink.issued out bytes ∨
      sink.issued out (bytes ++ [b]) = sink.issued out bytes ++ [b] := by
  match h : sink.send out bytes with
  | (none, out') =>
    have hone : sink.issued out' [b] = [b] := by
      match hb : sink.write out' b with
      | (none, out₁) => exact issued_cons_of_ok hb []
      | (some e, out₁) => exact issued_cons_of_refused hb []
    rw [(send_append_of_ok h [b]).2, issued_of_ok h, hone]
    exact .inr rfl
  | (some e, out') => exact .inl (send_append_of_refused h [b]).2

/-- The log is what is sent. -/
theorem send_logged (sink : Sink σ) (out : σ) (log : Array UInt8) (bytes : List UInt8) :
    sink.logged.send (out, log) bytes =
      ((sink.send out bytes).1, (sink.send out bytes).2, log ++ (sink.issued out bytes).toArray) := by
  induction bytes generalizing out log with
  | nil => simp
  | cons b bytes ih =>
    match hb : sink.write out b with
    | (none, out₁) =>
      have hlogged : sink.logged.write (out, log) b = (none, out₁, log.push b) := by simp [logged, hb]
      rw [send_cons_of_ok hb, issued_cons_of_ok hb, send_cons_of_ok hlogged, ih, Array.push_eq_append]
      simp
    | (some e, out₁) =>
      have hlogged : sink.logged.write (out, log) b = (some e, out₁, log.push b) := by simp [logged, hb]
      rw [send_cons_of_refused hb, issued_cons_of_refused hb, send_cons_of_refused hlogged, Array.push_eq_append]

theorem log_eq_of_send_logged {answer : Option SinkError} {log : Array UInt8}
    (h : sink.logged.send (out, #[]) bytes = (answer, out', log)) : log.toList = sink.issued out bytes := by
  rw [send_logged, Array.empty_append] at h
  exact (congrArg (fun r => r.2.2.toList) h).symm

end Sink

/-! ### The host -/

namespace HostState

variable {σ : Type} {sink : Sink σ}

theorem put_of_fault {h : HostState σ} {f : HostFault} (hf : h.fault = some f) (b : UInt8) : h.put sink b = h := by
  rw [put, hf]
  rfl

theorem putAll_of_fault {h : HostState σ} {f : HostFault} (hf : h.fault = some f) (bytes : List UInt8) :
    h.putAll sink bytes = h := by
  induction bytes with
  | nil => rfl
  | cons b bytes ih =>
    show (h.put sink b).putAll sink bytes = h
    rw [put_of_fault hf, ih]

/-- A host that keeps its first fault sends bytes until one is refused. -/
theorem putAll_eq_send (sink : Sink σ) (out : σ) (bytes : List UInt8) :
    (⟨out, none⟩ : HostState σ).putAll sink bytes =
      ⟨(sink.send out bytes).2, (sink.send out bytes).1.map .output⟩ := by
  induction bytes generalizing out with
  | nil => rfl
  | cons b bytes ih =>
    show ((⟨out, none⟩ : HostState σ).put sink b).putAll sink bytes = _
    match hb : sink.write out b with
    | (none, out₁) =>
      have hput : (⟨out, none⟩ : HostState σ).put sink b = ⟨out₁, none⟩ := by simp [put, hb]
      rw [hput, ih, Sink.send_cons_of_ok hb]
    | (some e, out₁) =>
      have hput : (⟨out, none⟩ : HostState σ).put sink b = ⟨out₁, some (.output e)⟩ := by simp [put, hb, record]
      rw [hput, putAll_of_fault rfl, Sink.send_cons_of_refused hb]
      rfl

end HostState

end TapeLang
