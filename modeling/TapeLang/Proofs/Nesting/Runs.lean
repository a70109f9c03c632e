import TapeLang.Proofs.Completion
import TapeLang.Proofs.Nesting.Lockstep

/-!
# Runs of linked programs

The interpreter of a linked program ends where the thread of its block does (`Matches.exists_end`) and
has then written the same bytes (`Matches.written_of_run`).
-/

namespace TapeLang

namespace Interpreter

variable {σ : Type}

/-- The run never ends. -/
def RunsForever (p : Program) (sink : Sink σ) (m : Interpreter) (out : σ) : Prop :=
  ∀ n, (m.run p sink n out).1 = .unfinished

end Interpreter

theorem EndsAs.ne_unfinished {e : Thread.Ending} {ending : Interpreter.Ending} (h : EndsAs e ending) :
    ending ≠ .unfinished := by
  rintro rfl
  cases h

/-- An ending of the interpreter stands for one ending of a thread. -/
theorem EndsAs.unique {e e' : Thread.Ending} {ending : Interpreter.Ending} (h : EndsAs e ending)
    (h' : EndsAs e' ending) : e' = e := by
  cases h <;> cases h' <;> rfl

namespace Matches

variable {σ : Type} {p : Program} {sink : Sink σ} {out₀ out : σ} {m : Interpreter} {t : Thread}

/-- Where the interpreter has ended, the thread has. -/
theorem exists_end (hs : sink.Faultless) (h : Matches p sink out₀ m out t) {n : Nat}
    {ending : Interpreter.Ending} {m' : Interpreter} {out' : σ}
    (hr : m.run p sink n out = (ending, m', out')) (hend : ending ≠ .unfinished) :
    ∃ e w, t.run n = some (e, w) ∧ EndsWith e w sink out₀ ending m' out' := by
  have hrun := h.run hs n
  rw [hr] at hrun
  cases ht : t.run n with
  | none =>
    rw [ht] at hrun
    exact absurd hrun hend
  | some r =>
    rw [ht] at hrun
    obtain ⟨_, _, _, heq, hends⟩ := hrun
    cases heq
    exact ⟨r.1, r.2, rfl, hends⟩

/-- Interpreters that end as the same thread does end in the same place. -/
theorem EndsWith.agree {e : Thread.Ending} {w : World} {ending ending' : Interpreter.Ending}
    {m m' : Interpreter} {out out' : σ} (h : EndsWith e w sink out₀ ending m out)
    (h' : EndsWith e w sink out₀ ending' m' out') :
    out' = out ∧ m'.tape = m.tape ∧ m'.cursor.ptr = m.cursor.ptr ∧ m'.halted = m.halted :=
  ⟨h'.out.trans h.out.symm, h'.tape.trans h.tape.symm, h'.ptr.trans h.ptr.symm,
    h'.halted.trans h.halted.symm⟩

/-! ### Runs from the zeroed tape -/

section Start

variable {options : Options} {b : Block} {w : World}

theorem closed_buffer (out : Array UInt8) (e : Thread.Ending) : closed Sink.buffer out e = out := by
  cases e <;> rfl

/-- The bytes that the interpreter writes are those of the thread that has ended. -/
theorem written_of_run (hm : Interpreter.new options = .ok m) {n : Nat} {e : Thread.Ending}
    (h : Thread.run n ⟨b, World.start m.tape⟩ = some (e, w)) :
    m.written (b.linkedFrom 0).toArray n = w.output := by
  have hrun := (start b Sink.buffer #[] hm).run Sink.buffer_faultless n
  rw [h] at hrun
  obtain ⟨_, _, _, heq, hends⟩ := hrun
  rw [Interpreter.written, heq, hends.out, closed_buffer, Sink.writeAll_buffer, Array.empty_append]

/-- The bytes that the interpreter writes are those of the thread where it has come to. -/
theorem written_of_advance (hm : Interpreter.new options = .ok m) {n : Nat} {t : Thread}
    (h : advance Thread.next n ⟨b, World.start m.tape⟩ = some t) :
    m.written (b.linkedFrom 0).toArray n = t.world.output := by
  obtain ⟨_, _, heq, hmatch⟩ := (start b Sink.buffer #[] hm).run_of_advance Sink.buffer_faultless h
  rw [Interpreter.written, heq, hmatch.out, Sink.writeAll_buffer, Array.empty_append]

theorem runsForever_iff (hs : sink.Faultless) (hm : Interpreter.new options = .ok m) (out : σ) :
    m.RunsForever (b.linkedFrom 0).toArray sink out ↔ ∀ n, Thread.run n ⟨b, World.start m.tape⟩ = none := by
  constructor
  · intro h n
    cases hn : Thread.run n ⟨b, World.start m.tape⟩ with
    | none => rfl
    | some r =>
      have hrun := (start b sink out hm).run hs n
      rw [hn] at hrun
      obtain ⟨ending, m', out', heq, hends⟩ := hrun
      have hunfinished := h n
      rw [heq] at hunfinished
      exact absurd hunfinished hends.ending.ne_unfinished
  · intro h n
    have hrun := (start b sink out hm).run hs n
    rw [h n] at hrun
    exact hrun

end Start

end Matches

end TapeLang
