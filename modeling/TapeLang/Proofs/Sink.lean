import TapeLang.Sink

/-!
# What a sink has been sent

A run writes its bytes one at a time, so all that matters of it to a sink is the sequence of bytes.
`writeAll` sends a sequence to a sink whatever it answers.
-/

namespace TapeLang.Sink

variable {σ : Type}

/-- A sink that never fails. -/
structure Faultless (sink : Sink σ) : Prop where
  write (out : σ) (b : UInt8) : (sink.write out b).1 = none
  flush (out : σ) : (sink.flush out).1 = none

/-- The sink after a sequence of bytes. -/
def writeAll (sink : Sink σ) (out : σ) (bytes : List UInt8) : σ :=
  bytes.foldl (fun out b => (sink.write out b).2) out

@[simp] theorem writeAll_nil (sink : Sink σ) (out : σ) : sink.writeAll out [] = out := rfl

@[simp] theorem writeAll_append_singleton (sink : Sink σ) (out : σ) (bytes : List UInt8) (b : UInt8) :
    sink.writeAll out (bytes ++ [b]) = (sink.write (sink.writeAll out bytes) b).2 := by
  simp [writeAll]

theorem Faultless.write_eq {sink : Sink σ} (h : sink.Faultless) (out : σ) (b : UInt8) :
    sink.write out b = (none, (sink.write out b).2) := by
  rw [← h.write out b]

theorem Faultless.flush_eq {sink : Sink σ} (h : sink.Faultless) (out : σ) :
    sink.flush out = (none, (sink.flush out).2) := by
  rw [← h.flush out]

theorem buffer_faultless : buffer.Faultless := ⟨fun _ _ => rfl, fun _ => rfl⟩

/-- A buffer holds what it was sent. -/
theorem writeAll_buffer (out : Array UInt8) (bytes : List UInt8) :
    buffer.writeAll out bytes = out ++ bytes.toArray := by
  induction bytes generalizing out with
  | nil => simp
  | cons b bytes ih =>
    show buffer.writeAll (out.push b) bytes = _
    rw [ih, Array.push_eq_append]
    simp

end TapeLang.Sink
