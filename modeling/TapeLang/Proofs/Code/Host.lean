import TapeLang.Code.Host
import TapeLang.Proofs.Sink

/-!
# What the host functions have done

All that a run does to the host is a sequence of bytes for one function and at most one index for the
other.
-/

namespace TapeLang.HostState

variable {σ : Type} {calls : HostCalls} {sink : Sink σ}

/-- The host after a sequence of bytes. -/
def putAll (sink : Sink σ) (h : HostState σ) (bytes : List UInt8) : HostState σ :=
  bytes.foldl (put sink) h

@[simp] theorem putAll_nil (h : HostState σ) : h.putAll sink [] = h := rfl

theorem putAll_append_singleton (h : HostState σ) (bytes : List UInt8) (b : UInt8) :
    h.putAll sink (bytes ++ [b]) = (h.putAll sink bytes).put sink b := by
  simp [putAll]

theorem call_putByte (h : HostState σ) (argument : UInt64) :
    h.call? calls sink calls.putByte argument = some (h.put sink argument.toUInt8) :=
  if_pos rfl

theorem call_outOfBounds (hne : calls.putByte ≠ calls.outOfBounds) (h : HostState σ) (argument : UInt64) :
    h.call? calls sink calls.outOfBounds argument = some (h.record (.outOfBounds argument)) := by
  rw [call?, if_neg hne.symm, if_pos rfl]

theorem fault_record_ne_none (h : HostState σ) (f : HostFault) : (h.record f).fault ≠ none := by
  obtain ⟨out, fault⟩ := h
  intro hnone
  cases fault <;> cases hnone

/-- A sink that never fails is sent every byte. -/
theorem putAll_of_faultless (hs : sink.Faultless) {h : HostState σ} (hf : h.fault = none) (bytes : List UInt8) :
    h.putAll sink bytes = ⟨sink.writeAll h.out bytes, none⟩ := by
  induction bytes generalizing h with
  | nil =>
    obtain ⟨out, fault⟩ := h
    cases hf
    rfl
  | cons b bytes ih =>
    have hput : h.put sink b = ⟨(sink.write h.out b).2, none⟩ := by
      rw [put, hf, hs.write_eq]
      rfl
    show (h.put sink b).putAll sink bytes = _
    rw [hput, ih rfl]
    rfl

end TapeLang.HostState
