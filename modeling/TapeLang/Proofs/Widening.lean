import TapeLang.Proofs.Capacity
import TapeLang.Proofs.Session
import TapeLang.Proofs.Stepping

/-!
# The same run on a larger tape

Two states that differ in nothing but the size of their tapes (`Interpreter.Widened`) take the same step, unless the
one on the smaller tape fails with an index behind it (`Widened.step`): reading and writing are at the tape pointer,
which is on both tapes, and a move that stays on the smaller tape or leaves it at the front does so on both. From there
it goes on to any number of calls of `step` and to runs.

What the engine leaves is told by the run of the interpreter: whether it comes to the end of the program or to a move
that leaves the tape. The first goes over to a larger tape, the second where the index is not behind the smaller one
(`Widened.completes`, `Widened.overruns`). A run of the interpreter that ends on the larger tape ends on the smaller
one as well, if not in the same way (`Widened.completes_or_overruns`), so that an engine that never ends does not do
so on a larger tape.
-/

namespace TapeLang

namespace Error

/-- The error as a tape of that capacity reports it. -/
def onTape (capacity : Nat) : Error → Error
  | outOfBounds index _ => .outOfBounds index capacity
  | e => e

/-- The error is not that of an index behind a tape of that capacity. -/
def Within (capacity : Nat) (e : Error) : Prop :=
  ∀ index reported, e = .outOfBounds index reported → index < capacity

end Error

namespace Interpreter

variable {σ : Type} {p : Program} {sink : Sink σ} {c c' : Nat} {m m' t t' : Interpreter} {out sent : σ}
  {i : Instruction}

namespace Outcome

/-- What the outcome is on a tape of that capacity. -/
def onTape (capacity : Nat) : Outcome → Outcome
  | failed e => .failed (e.onTape capacity)
  | o => o

/-- The step has not failed with an index behind a tape of that capacity. -/
def Within (capacity : Nat) (o : Outcome) : Prop := ∀ e, o = .failed e → e.Within capacity

end Outcome

namespace Ending

/-- What the ending is on a tape of that capacity. -/
def onTape (capacity : Nat) : Ending → Ending
  | failed e => .failed (e.onTape capacity)
  | ending => ending

/-- The run has not failed with an index behind a tape of that capacity. -/
def Within (capacity : Nat) (ending : Ending) : Prop := ∀ e, ending = .failed e → e.Within capacity

end Ending

/-- Two states that are the same but for their tapes, of `c` cells and of `c'` cells: the first `c` cells are the same,
and all others are zero. -/
structure Widened (c c' : Nat) (m m' : Interpreter) : Prop where
  capacity : m.tape.capacity = c
  capacity' : m'.tape.capacity = c'
  ptr_lt : m.cursor.ptr < c
  cursor : m'.cursor = m.cursor
  halted : m'.halted = m.halted
  counters : m'.counters = m.counters
  cells : ∀ j < c, m'.tape.cell j = m.tape.cell j
  zeros : ∀ j, c ≤ j → m'.tape.cell j = 0

/-- How the step ends that comes after `k` steps. -/
def outcomeAt (p : Program) (sink : Sink σ) (k : Nat) (x : Interpreter × σ) : Outcome :=
  ((after p sink k x).1.step p sink (after p sink k x).2).1

theorem after_succ (p : Program) (sink : Sink σ) (k : Nat) (x : Interpreter × σ) :
    after p sink (k + 1) x = ((after p sink k x).1.step p sink (after p sink k x).2).2 := by
  induction k generalizing x with
  | zero => rfl
  | succ k ih => rw [after, ih, after]

/-- Two steps that differ in the sizes of the tapes only. -/
structure StepsAlike (c c' : Nat) (r r' : Outcome × Interpreter × σ) : Prop where
  outcome : r'.1 = r.1.onTape c'
  state : Widened c c' r.2.1 r'.2.1
  out : r'.2.2 = r.2.2

/-- Two runs that differ in the sizes of the tapes only. -/
structure EndsAlike (c c' : Nat) (r r' : Ending × Interpreter × σ) : Prop where
  ending : r'.1 = r.1.onTape c'
  state : Widened c c' r.2.1 r'.2.1
  out : r'.2.2 = r.2.2

namespace Widened

/-! ### What changes a state -/

theorem cell_eq (h : Widened c c' m m') : m'.cell = m.cell := by
  rw [cell, cell, h.cursor]
  exact h.cells _ h.ptr_lt

/-- States on the same two tapes. -/
theorem of_tapes (h : Widened c c' m m') (htape : t.tape = m.tape) (htape' : t'.tape = m'.tape)
    (hptr : t.cursor.ptr < c) (hcursor : t'.cursor = t.cursor) (hhalted : t'.halted = t.halted)
    (hcounters : t'.counters = t.counters) : Widened c c' t t' where
  capacity := htape ▸ h.capacity
  capacity' := htape' ▸ h.capacity'
  ptr_lt := hptr
  cursor := hcursor
  halted := hhalted
  counters := hcounters
  cells := by
    rw [htape, htape']
    exact h.cells
  zeros := by
    rw [htape']
    exact h.zeros

theorem pass (h : Widened c c' m m') (i : Instruction) : Widened c c' (m.pass i) (m'.pass i) :=
  h.of_tapes rfl rfl h.ptr_lt (by rw [Interpreter.pass, Interpreter.pass, h.cursor]) h.halted
    (by rw [counters_pass, counters_pass, h.counters])

theorem withPtr (h : Widened c c' m m') {ptr : Nat} (hptr : ptr < c) : Widened c c' (m.withPtr ptr) (m'.withPtr ptr) :=
  h.of_tapes rfl rfl hptr (by rw [Interpreter.withPtr, Interpreter.withPtr, h.cursor]) h.halted h.counters

theorem jumpPast (h : Widened c c' m m') (target : Nat) : Widened c c' (m.jumpPast target) (m'.jumpPast target) :=
  h.of_tapes rfl rfl h.ptr_lt (by rw [Interpreter.jumpPast, Interpreter.jumpPast, h.cursor]) h.halted h.counters

theorem halting (h : Widened c c' m m') : Widened c c' { m with halted := true } { m' with halted := true } :=
  h.of_tapes rfl rfl h.ptr_lt h.cursor rfl h.counters

theorem withCell (h : Widened c c' m m') (hle : c ≤ c') (v : UInt8) :
    Widened c c' (m.withCell v) (m'.withCell v) where
  capacity := (Tape.capacity_assign ..).trans h.capacity
  capacity' := (Tape.capacity_assign ..).trans h.capacity'
  ptr_lt := h.ptr_lt
  cursor := h.cursor
  halted := h.halted
  counters := h.counters
  cells j hj := by
    have hptr := h.ptr_lt
    rw [Interpreter.withCell, Interpreter.withCell, Tape.cell_assign, Tape.cell_assign, h.cursor, h.capacity,
      h.capacity', h.cells j hj]
    simp only [hptr, Nat.lt_of_lt_of_le hptr hle]
  zeros j hj := by
    have hptr := h.ptr_lt
    rw [Interpreter.withCell, Tape.cell_assign, h.cursor, if_neg (by omega)]
    exact h.zeros j hj

/-! ### One step -/

theorem at_iff (h : Widened c c' m m') (hle : c ≤ c') : m'.At p i ↔ m.At p i := by
  have hptr := h.ptr_lt
  constructor
  · rintro ⟨hlive, hi, -⟩
    exact ⟨h.halted ▸ hlive, h.cursor ▸ hi, h.capacity.symm ▸ hptr⟩
  · rintro ⟨hlive, hi, -⟩
    refine ⟨h.halted.trans hlive, h.cursor.symm ▸ hi, ?_⟩
    rw [h.cursor, h.capacity']
    omega

theorem finished_eq (h : Widened c c' m m') : m'.finished p = m.finished p := by
  rw [finished, finished, h.halted, h.cursor]

/-- A move stays on both tapes, or leaves both in the same way, unless it goes behind the smaller one. -/
theorem offset_cases (h : Widened c c' m m') (hle : c ≤ c') (delta : Int64) :
    (∃ ptr < c, m.tape.offset m.cursor.ptr delta = .ok ptr ∧ m'.tape.offset m'.cursor.ptr delta = .ok ptr) ∨
      ∃ index, m.tape.offset m.cursor.ptr delta = .error (.outOfBounds index c) ∧
        (index < c → m'.tape.offset m'.cursor.ptr delta = .error (.outOfBounds index c')) := by
  have hptr : m.cursor.ptr < m.tape.capacity := h.capacity.symm ▸ h.ptr_lt
  have hptr' : m'.cursor.ptr < m'.tape.capacity := by
    rw [h.cursor, h.capacity']
    exact Nat.lt_of_lt_of_le h.ptr_lt hle
  have hsize := m.tape.capacity_lt
  rw [Tape.offset_eq hptr, Tape.offset_eq hptr', h.cursor, h.capacity, h.capacity']
  rw [h.capacity] at hsize
  split
  case isTrue hstays => exact .inl ⟨_, by omega, rfl, if_pos (by omega)⟩
  case isFalse hleaves => exact .inr ⟨_, rfl, fun hindex => if_neg (by omega)⟩

/-- The same step is taken, unless the smaller tape is left at its end. -/
theorem step (h : Widened c c' m m') (hle : c ≤ c') (p : Program) (sink : Sink σ) (out : σ)
    (hwithin : (m.step p sink out).1.Within c) : StepsAlike c c' (m.step p sink out) (m'.step p sink out) := by
  rcases finished_or_exists_at (p := p) (m := m) (h.capacity.symm ▸ h.ptr_lt) with hfinished | ⟨i, hat⟩
  · rw [step_of_finished hfinished, step_of_finished (h.finished_eq.trans hfinished)]
    exact ⟨rfl, h, rfl⟩
  have hat' := (h.at_iff hle).2 hat
  have hpass := h.pass i
  cases i with
  | add delta =>
    rw [step_add hat, step_add hat', h.cell_eq]
    exact ⟨rfl, hpass.withCell hle _, rfl⟩
  | set value =>
    rw [step_set hat, step_set hat']
    exact ⟨rfl, hpass.withCell hle _, rfl⟩
  | move delta =>
    rcases h.offset_cases hle delta with ⟨ptr, hptr, hoffset, hoffset'⟩ | ⟨index, hoffset, hoffset'⟩
    · rw [step_move_ok hat hoffset, step_move_ok hat' hoffset']
      exact ⟨rfl, hpass.withPtr hptr, rfl⟩
    · rw [step_move_error hat hoffset] at hwithin ⊢
      rw [step_move_error hat' (hoffset' (hwithin _ rfl _ _ rfl))]
      exact ⟨rfl, hpass, rfl⟩
  | input =>
    rw [step_input hat, step_input hat', h.cursor]
    exact ⟨rfl, hpass, rfl⟩
  | output =>
    rw [step_output_answered hat, step_output_answered hat', h.cell_eq]
    refine ⟨?_, hpass, rfl⟩
    cases (sink.write out m.cell).1 <;> rfl
  | loopBegin close =>
    rw [step_loopBegin hat, step_loopBegin hat', h.cell_eq]
    refine ⟨rfl, ?_, rfl⟩
    dsimp only
    split
    · exact hpass.jumpPast close
    · exact hpass
  | loopEnd start =>
    rw [step_loopEnd hat, step_loopEnd hat', h.cell_eq]
    refine ⟨rfl, ?_, rfl⟩
    dsimp only
    split
    · exact hpass
    · exact hpass.jumpPast start
  | halt =>
    by_cases hz : m.cell = 0
    · rw [step_halt_zero hat hz, step_halt_zero hat' (h.cell_eq.trans hz)]
      exact ⟨rfl, hpass, rfl⟩
    · rw [step_halt_live hat hz, step_halt_live hat' (h.cell_eq ▸ hz), h.cursor]
      exact ⟨rfl, hpass.halting, rfl⟩

theorem exists_step (h : Widened c c' m m') (hle : c ≤ c') {o : Outcome} {out out' : σ}
    (hstep : m.step p sink out = (o, t, out')) (hwithin : o.Within c) :
    ∃ t', m'.step p sink out = (o.onTape c', t', out') ∧ Widened c c' t t' := by
  obtain ⟨houtcome, hstate, hout⟩ := h.step hle p sink out (by rwa [hstep])
  rw [hstep] at houtcome hstate hout
  exact ⟨_, Prod.ext houtcome (Prod.ext rfl hout), hstate⟩

/-! ### Calls of `step`, and runs -/

theorem after (h : Widened c c' m m') (hle : c ≤ c') (p : Program) (sink : Sink σ) (out : σ) (k : Nat)
    (hwithin : ∀ j < k, (outcomeAt p sink j (m, out)).Within c) :
    Widened c c' (after p sink k (m, out)).1 (after p sink k (m', out)).1 ∧
      (after p sink k (m', out)).2 = (after p sink k (m, out)).2 ∧
      ∀ j < k, outcomeAt p sink j (m', out) = (outcomeAt p sink j (m, out)).onTape c' := by
  induction k with
  | zero => exact ⟨h, rfl, by simp⟩
  | succ k ih =>
    obtain ⟨hk, hout, houtcomes⟩ := ih fun j hj => hwithin j (Nat.lt_succ_of_lt hj)
    have halike := hk.step hle p sink (Interpreter.after p sink k (m, out)).2 (hwithin k k.lt_succ_self)
    rw [after_succ, after_succ, hout]
    refine ⟨halike.state, halike.out, fun j hj => ?_⟩
    rcases Nat.lt_succ_iff_lt_or_eq.1 hj with hj | rfl
    · exact houtcomes j hj
    · rw [outcomeAt, outcomeAt, hout]
      exact halike.outcome

theorem run (h : Widened c c' m m') (hle : c ≤ c') (p : Program) (sink : Sink σ) (fuel : Nat) (out : σ)
    (hwithin : (m.run p sink fuel out).1.Within c) :
    EndsAlike c c' (m.run p sink fuel out) (m'.run p sink fuel out) := by
  induction fuel generalizing m m' out with
  | zero => exact ⟨rfl, h, rfl⟩
  | succ fuel ih =>
    rw [Interpreter.run] at hwithin ⊢
    rw [Interpreter.run]
    rcases hstep : m.step p sink out with ⟨o, m₁, out₁⟩
    rw [hstep] at hwithin
    cases o with
    | running =>
      obtain ⟨m₁', hstep', hstate⟩ := h.exists_step hle hstep (by simp [Outcome.Within])
      rw [hstep']
      exact ih hstate _ hwithin
    | stopped =>
      obtain ⟨m₁', hstep', hstate⟩ := h.exists_step hle hstep (by simp [Outcome.Within])
      rw [hstep']
      exact ⟨rfl, hstate, rfl⟩
    | halted ip =>
      obtain ⟨m₁', hstep', hstate⟩ := h.exists_step hle hstep (by simp [Outcome.Within])
      rw [hstep']
      exact ⟨rfl, hstate, rfl⟩
    | failed e =>
      obtain ⟨m₁', hstep', hstate⟩ :=
        h.exists_step hle hstep fun e' he => hwithin e' (congrArg Ending.failed (Outcome.failed.inj he))
      rw [hstep']
      exact ⟨rfl, hstate, rfl⟩

/-! ### How runs end -/

theorem next (h : Widened c c' m m') (hle : c ≤ c') {out out' : σ} (hnext : next p sink (m, out) = some (t, out')) :
    ∃ t', next p sink (m', out) = some (t', out') ∧ Widened c c' t t' := by
  obtain ⟨t', hstep', ht⟩ := h.exists_step hle (step_of_next hnext) (by simp [Outcome.Within])
  exact ⟨t', next_of_step hstep', ht⟩

theorem advance (h : Widened c c' m m') (hle : c ≤ c') {out out' : σ} {k : Nat}
    (hk : advance (Interpreter.next p sink) k (m, out) = some (t, out')) :
    ∃ t', advance (Interpreter.next p sink) k (m', out) = some (t', out') ∧ Widened c c' t t' := by
  induction k generalizing m m' out with
  | zero =>
    cases hk
    exact ⟨m', rfl, h⟩
  | succ k ih =>
    rw [TapeLang.advance] at hk
    obtain ⟨⟨m₁, out₁⟩, hnext, hk⟩ := Option.bind_eq_some_iff.1 hk
    obtain ⟨m₁', hnext', h₁⟩ := h.next hle hnext
    obtain ⟨t', hk', ht⟩ := ih h₁ hk
    exact ⟨t', (advance_succ hnext' k).trans hk', ht⟩

/-- A run that comes to the end of the program does so on a larger tape. -/
theorem completes (h : Widened c c' m m') (hle : c ≤ c') (hcompletes : Completes p sink m out t sent) :
    ∃ t', Completes p sink m' out t' sent ∧ Widened c c' t t' := by
  obtain ⟨⟨k, hk⟩, hend⟩ := hcompletes
  obtain ⟨t', hk', ht⟩ := h.advance hle hk
  exact ⟨t', ⟨⟨k, hk'⟩, by rw [ht.cursor, hend]⟩, ht⟩

/-- A run that comes to a move does so on a larger tape, and leaves that tape too, unless it ends in a cell behind the
smaller one. -/
theorem overruns {delta : Int64} (h : Widened c c' m m') (hle : c ≤ c') (hoverruns : Overruns p sink m out delta t sent)
    (hleaves : (t.cursor.ptr : Int) + delta.toInt < 0 ∨ (c' : Int) ≤ t.cursor.ptr + delta.toInt) :
    ∃ t', Overruns p sink m' out delta t' sent ∧ Widened c c' t t' := by
  obtain ⟨⟨k, hk⟩, hmove, -⟩ := hoverruns
  obtain ⟨t', hk', ht⟩ := h.advance hle hk
  refine ⟨t', ⟨⟨k, hk'⟩, ht.cursor ▸ hmove, ?_⟩, ht⟩
  rw [Tape.Leaves, ht.cursor, ht.capacity']
  exact hleaves

/-- What a run on the larger tape does, the one on the smaller tape does as well, up to a move that leaves it. -/
theorem advance_or_overruns (h : Widened c c' m m') (hle : c ≤ c') (hm : m.halted = false)
    {out out' : σ} {k : Nat} (hk : TapeLang.advance (Interpreter.next p sink) k (m', out) = some (t', out')) :
    (∃ t, TapeLang.advance (Interpreter.next p sink) k (m, out) = some (t, out') ∧ Widened c c' t t') ∨
      ∃ delta t sent, Overruns p sink m out delta t sent := by
  induction k generalizing m m' out with
  | zero =>
    cases hk
    exact .inl ⟨m, rfl, h⟩
  | succ k ih =>
    have hptr : m.cursor.ptr < m.tape.capacity := h.capacity.symm ▸ h.ptr_lt
    rcases hstep : m.step p sink out with ⟨o, m₁, out₂⟩
    by_cases hwithin : o.Within c
    · rw [TapeLang.advance] at hk
      obtain ⟨⟨m₁', out₁⟩, hnext', hk⟩ := Option.bind_eq_some_iff.1 hk
      -- the larger tape goes on, so the smaller one does
      obtain ⟨_, hstep', hstate⟩ := h.exists_step hle hstep hwithin
      rw [step_of_next hnext'] at hstep'
      obtain rfl : o = .running := by cases o <;> first | rfl | cases hstep'
      cases hstep'
      have hnext := next_of_step hstep
      obtain ⟨_, hhalted, _⟩ := next_keeps hnext hptr
      rcases ih hstate (hhalted.trans hm) hk with ⟨t, ht, hwidened⟩ | ⟨delta, t, sent, ⟨n, hn⟩, hmove, hleaves⟩
      · exact .inl ⟨t, (advance_succ hnext k).trans ht, hwidened⟩
      · exact .inr ⟨delta, t, sent, ⟨n + 1, (advance_succ hnext n).trans hn⟩, hmove, hleaves⟩
    · simp only [Outcome.Within, Error.Within, not_forall] at hwithin
      obtain ⟨_, rfl, index, reported, rfl, -⟩ := hwithin
      obtain ⟨delta, hmove, hleaves⟩ := leaves_of_step hm hptr hstep
      exact .inr ⟨delta, m, out, ⟨0, rfl⟩, hmove, hleaves⟩

/-- A run that ends on the larger tape ends on the smaller one. -/
theorem completes_or_overruns (h : Widened c c' m m') (hle : c ≤ c') (hm : m.halted = false)
    (hends : (∃ t' sent, Completes p sink m' out t' sent) ∨ ∃ delta t' sent, Overruns p sink m' out delta t' sent) :
    (∃ t sent, Completes p sink m out t sent) ∨ ∃ delta t sent, Overruns p sink m out delta t sent := by
  rcases hends with ⟨t', sent, ⟨k, hk⟩, hend⟩ | ⟨delta, t', sent, ⟨k, hk⟩, hmove, hleaves⟩
  · rcases h.advance_or_overruns hle hm hk with ⟨t, ht, hwidened⟩ | hoverruns
    · exact .inl ⟨t, sent, ⟨k, ht⟩, hwidened.cursor ▸ hend⟩
    · exact .inr hoverruns
  · rcases h.advance_or_overruns hle hm hk with ⟨t, ht, hwidened⟩ | hoverruns
    · refine .inr ⟨delta, t, sent, ⟨k, ht⟩, hwidened.cursor ▸ hmove, ?_⟩
      rw [Tape.Leaves, hwidened.cursor, hwidened.capacity'] at hleaves
      rw [Tape.Leaves, hwidened.capacity]
      omega
    · exact .inr hoverruns

end Widened

end Interpreter

/-! ### Engines -/

namespace Engine

open X86
open Interpreter (Completes Overruns Widened)

variable {σ : Type} {env env' : Environment} {sink : Sink σ} {e e' e₁ : Engine} {out out₁ sent : σ}
  {s s' : Interpreter} {r r' : Routine} {c c' : Nat} {fuel : Nat} {answer : Option Error}

/-- A run over a faultless sink ends without an error, at the end of the program, or with an index, at a move that
leaves the tape. -/
theorem ended_cases (h : Ready env e) (hr : e.Code env r) (hs : sink.Faultless) {ending : Ending}
    (hrun : e.run env sink fuel out = (ending, e₁, out₁)) (hending : ending ≠ .unfinished) :
    (ending = .ended none ∧ ∃ s sent, Completes e.program sink e.interpreter out s sent) ∨
      (∃ index capacity, ending = .ended (some (.outOfBounds index capacity))) ∧
        ∃ delta s sent, Overruns e.program sink e.interpreter out delta s sent := by
  cases hf : e.finished with
  | true =>
    rw [run_of_finished hf] at hrun
    cases hrun
    exact .inl ⟨rfl, _, _, ⟨0, rfl⟩, Nat.le_antisymm h.ip_le (finished_iff.1 hf)⟩
  | false =>
    obtain ⟨offset, t, hresume, hadvance, hrip, hfinish⟩ := exists_returned h hr hf hrun hending
    rcases (mirrors h hr hresume sink out).ends hadvance hrip with
      ⟨s, bytes, hcompletes, hexited⟩ | ⟨delta, s, bytes, hoverruns, hreported⟩
    · obtain ⟨_, _, hhost, _⟩ := of_exited h hs hcompletes hexited
      rw [finish, hhost] at hfinish
      have hanswer : Ending.ended ((sink.flush (sink.writeAll out bytes.toList)).1.map .output) = ending :=
        congrArg Prod.fst hfinish
      rw [hs.flush] at hanswer
      exact .inl ⟨hanswer.symm, _, _, (Interpreter.completes_iff hs).2 ⟨bytes, hcompletes, rfl⟩⟩
    · obtain ⟨_, _, hhost⟩ := of_reported h hoverruns hreported
      rw [HostState.putAll_of_faultless hs rfl] at hhost
      rw [finish, hhost] at hfinish
      cases hfinish
      exact .inr ⟨⟨_, _, rfl⟩, _, _, _, (Interpreter.overruns_iff hs).2 ⟨bytes, hoverruns, rfl⟩⟩

/-- A reported index that is not behind the tape is one in front of it, or the sum was more than a word can hold and has
become negative. So the move leaves every tape that is no smaller. -/
theorem Stopped.leaves_of_lt {delta : Int64} {s₀ : Interpreter} {index limited : Int}
    (h : Stopped e delta s₀ index e₁ limited s) (hleaves : s₀.tape.Leaves s₀.cursor.ptr delta)
    (hindex : index < s₀.tape.capacity) (hlt : c' < 2 ^ 31) :
    (s₀.cursor.ptr : Int) + delta.toInt < 0 ∨ (c' : Int) ≤ s₀.cursor.ptr + delta.toInt := by
  by_cases hfits : (s₀.cursor.ptr : Int) + delta.toInt ≤ 2 ^ 63 - 1
  · rw [(h.exact hfits).1] at hindex
    exact .inl (hleaves.resolve_right (Int.not_le.2 hindex))
  · exact .inr (by omega)

/-- The index that the engine reports is determined by the move. -/
theorem Stopped.index_eq {delta : Int64} {s₀ s₀' : Interpreter} {index index' limited limited' : Int} {e₁' : Engine}
    (h : Stopped e delta s₀ index e₁ limited s) (h' : Stopped e' delta s₀' index' e₁' limited' s')
    (hptr : s₀'.cursor.ptr = s₀.cursor.ptr) : index' = index := by
  by_cases hfits : (s₀.cursor.ptr : Int) + delta.toInt ≤ 2 ^ 63 - 1
  · rw [(h.exact hfits).1, (h'.exact (hptr ▸ hfits)).1, hptr]
  · have hover := Int.not_le.1 hfits
    rw [(h.wrapped hover).1, (h'.wrapped (hptr ▸ hover)).1, hptr]

/-- Two engines for the same program, about to go on from states that differ in the size of the tape. -/
structure WidenedReady (env env' : Environment) (c c' : Nat) (e e' : Engine) : Prop where
  ready : Ready env e
  ready' : Ready env' e'
  code : ∃ r, e.Code env r
  code' : ∃ r, e'.Code env' r
  program : e'.program = e.program
  widened : Widened c c' e.interpreter e'.interpreter
  le : c ≤ c'
  lt : c' < 2 ^ 31

namespace WidenedReady

theorem accepted (h : WidenedReady env env' c c' e e') : e.Accepted env := .inr h.code

theorem accepted' (h : WidenedReady env env' c c' e e') : e'.Accepted env' := .inr h.code'

theorem compilable (h : WidenedReady env env' c c' e e') : e.program.Compilable := by
  obtain ⟨r, hr⟩ := h.code
  obtain ⟨_, _, _, hc, _⟩ := generate_ok h.ready.linked hr
  exact hc

theorem finished_eq (h : WidenedReady env env' c c' e e') : e'.finished = e.finished := by
  have hcursor : e'.cursor = e.cursor := h.widened.cursor
  rw [finished, finished, h.program, hcursor]

/-- A run that returns does so on the larger tape, with the same output. -/
theorem returns (h : WidenedReady env env' c c' e e') (hs : sink.Faultless)
    (hreturns : e.Returns env sink out e₁ out₁) :
    ∃ e₁', e'.Returns env' sink out e₁' out₁ ∧ Widened c c' e₁.interpreter e₁'.interpreter := by
  have hagrees := agrees h.ready hs out
  have hagrees' := agrees h.ready' hs out
  obtain ⟨-, s, sent, hcompletes⟩ := hagrees.returns_iff.1 ⟨_, _, hreturns⟩
  obtain ⟨s', hcompletes', hwidened⟩ := h.widened.completes h.le hcompletes
  rw [← h.program] at hcompletes'
  obtain ⟨e₁', out₁', hreturns'⟩ := hagrees'.returns_iff.2 ⟨h.accepted', s', sent, hcompletes'⟩
  have hended := hagrees.ended hreturns hcompletes
  have hended' := hagrees'.ended hreturns' hcompletes'
  obtain rfl : out₁' = out₁ := by rw [hended.out, hended'.out, h.finished_eq]
  refine ⟨e₁', hreturns', hwidened.of_tapes hended.tape hended'.tape ?_ ?_ rfl ?_⟩
  · show e₁.cursor.ptr < c
    rw [hended.cursor]
    exact hwidened.ptr_lt
  · show e₁'.cursor = e₁.cursor
    rw [hended.cursor, hended'.cursor, hwidened.cursor]
  · show e₁'.counters = e₁.counters
    rw [hended.counters, hended'.counters, hwidened.counters]

/-- A run that reports an index that is not behind the smaller tape reports it on the larger one, too. -/
theorem faults (h : WidenedReady env env' c c' e e') (hs : sink.Faultless) {index : Int} {capacity : Nat}
    (hfaults : e.Faults env sink out index capacity e₁ out₁) (hindex : index < c) :
    ∃ e₁', e'.Faults env' sink out index c' e₁' out₁ ∧ Widened c c' e₁.interpreter e₁'.interpreter := by
  have halike := faultsAlike h.ready h.compilable hs out
  have halike' := faultsAlike h.ready' (h.program ▸ h.compilable) hs out
  have hptr_lt := h.ready.ptr_lt
  have hptr_lt' := h.ready'.ptr_lt
  obtain ⟨-, _, _, s, sent, hinterpreter⟩ := halike.faults_iff.1 ⟨_, _, _, _, hfaults⟩
  obtain ⟨-, -, rfl, delta, s₀, hoverruns, hstopped⟩ := halike.stopped hfaults hinterpreter
  obtain ⟨k, hk⟩ := hoverruns.reaches
  obtain ⟨_, _, hcapacity, _⟩ := Interpreter.advance_keeps hk hptr_lt
  -- the same move leaves the larger tape
  have hleaves := hstopped.leaves_of_lt hoverruns.leaves (by rwa [hcapacity.trans h.widened.capacity]) h.lt
  obtain ⟨s₀', hoverruns', hwidened⟩ := h.widened.overruns h.le hoverruns hleaves
  rw [← h.program] at hoverruns'
  have hinterpreter' := (Interpreter.faults_iff rfl hptr_lt').2 ⟨delta, s₀', hoverruns', rfl, rfl, rfl⟩
  obtain ⟨index', capacity', e₁', out₁', hfaults'⟩ := halike'.faults_iff.2 ⟨h.accepted', _, _, _, _, hinterpreter'⟩
  obtain ⟨hcapacity', -, rfl, delta', s₁', hoverruns'', hstopped'⟩ := halike'.stopped hfaults' hinterpreter'
  obtain ⟨rfl, rfl, -⟩ := hoverruns'.unique hoverruns'' rfl hptr_lt'
  obtain rfl := hstopped.index_eq hstopped' (congrArg Cursor.ptr hwidened.cursor)
  obtain rfl : capacity' = c' := hcapacity'.trans h.widened.capacity'
  refine ⟨e₁', hfaults', hwidened.of_tapes ?_ ?_ ?_ ?_ rfl ?_⟩
  · exact hstopped.tape.trans (by rw [hstopped.passed])
  · exact hstopped'.tape
  · show e₁.cursor.ptr < c
    rw [hstopped.cursor]
    exact h.widened.ptr_lt
  · show e₁'.cursor = e₁.cursor
    rw [hstopped.cursor, hstopped'.cursor]
    exact h.widened.cursor
  · show e₁'.counters = e₁.counters
    rw [hstopped.counters, hstopped'.counters, hstopped.passed, Interpreter.counters_pass, hwidened.counters]
    rfl

/-- A run that is over on the larger tape is over on the smaller one. -/
theorem ends (h : WidenedReady env env' c c' e e') (hs : sink.Faultless)
    (hends : (e'.run env' sink fuel out).1 ≠ .unfinished) : ∃ fuel, (e.run env sink fuel out).1 ≠ .unfinished := by
  obtain ⟨r', hr'⟩ := h.code'
  have hends' : (∃ t' sent, Completes e.program sink e'.interpreter out t' sent) ∨
      ∃ delta t' sent, Overruns e.program sink e'.interpreter out delta t' sent := by
    rw [← h.program]
    exact (ended_cases h.ready' hr' hs rfl hends).imp And.right And.right
  rcases h.widened.completes_or_overruns h.le rfl hends' with hcompletes | ⟨delta, t, sent, hoverruns⟩
  · obtain ⟨e₁, out₁, fuel, hrun⟩ := (agrees h.ready hs out).returns_iff.2 ⟨h.accepted, hcompletes⟩
    exact ⟨fuel, by simp [hrun]⟩
  · have hinterpreter := (Interpreter.faults_iff rfl h.ready.ptr_lt).2 ⟨delta, t, hoverruns, rfl, rfl, rfl⟩
    obtain ⟨_, _, e₁, out₁, fuel, hrun⟩ :=
      (faultsAlike h.ready h.compilable hs out).faults_iff.2 ⟨h.accepted, _, _, _, _, hinterpreter⟩
    exact ⟨fuel, by simp [hrun]⟩

end WidenedReady

end Engine

/-- States that a run starts from, on tapes of two sizes. -/
theorem Interpreter.widened_of_zeros {c c' : Nat} {t t' : Tape} (hcapacity : t.capacity = c)
    (hzeros : ∀ i, t.cell i = 0) (hcapacity' : t'.capacity = c') (hzeros' : ∀ i, t'.cell i = 0)
    (counters : Option Counters) :
    Widened c c' ⟨t, .start, false, counters⟩ ⟨t', .start, false, counters⟩ where
  capacity := hcapacity
  capacity' := hcapacity'
  ptr_lt := hcapacity ▸ t.capacity_pos
  cursor := rfl
  halted := rfl
  counters := rfl
  cells j _ := (hzeros' j).trans (hzeros j).symm
  zeros j _ := hzeros' j

/-- An engine with code that can be run from the start. -/
theorem Engine.ready_of_generate {p : Program} (hp : p.Linked) {env : X86.Environment} {c : Nat} {counting : Bool}
    {u : Tape} (hu : u.capacity = c) {r : Routine}
    (hr : Architecture.host.generate p ⟨c, counting, env.host⟩ = .ok r)
    (hsuits : env.Suits ⟨c, counting, env.host⟩ r.code) :
    Ready env (resumed p u .start ⟨c, counting⟩) ∧ (resumed p u .start ⟨c, counting⟩).Code env r := by
  subst hu
  refine ⟨ready_resumed hp (Nat.zero_le _) u.capacity_pos fun r₁ hr₁ => ?_, hr⟩
  obtain rfl : r = r₁ := Except.ok.inj (hr.symm.trans hr₁)
  exact hsuits

open Interpreter (Widened EndsAlike after outcomeAt)

/-- A larger tape changes no run that fits. As long as no step fails with an index behind the smaller tape, the same
steps are taken on the larger one, with the same outcomes but for the capacity that a failure reports, and so is a whole
run. What the engine answers, writes and leaves is the same in this sense, too, and where it never ends it does not
do so on the larger tape. -/
theorem larger_tape_agrees {σ : Type} {sink : Sink σ} {p : Program} (hp : p.Linked) (hs : sink.Faultless) {c c' : Nat}
    (hpos : 0 < c) (hle : c ≤ c') (hmax : c' ≤ Tape.maxCapacity) (counting : Bool) (out : σ) :
    ∃ m m' e e', Interpreter.new ⟨c, counting⟩ = .ok m ∧ Interpreter.new ⟨c', counting⟩ = .ok m' ∧
      Engine.new p ⟨c, counting⟩ = .ok e ∧ Engine.new p ⟨c', counting⟩ = .ok e' ∧
      (∀ k, (∀ j < k, (outcomeAt p sink j (m, out)).Within c) →
        Widened c c' (after p sink k (m, out)).1 (after p sink k (m', out)).1 ∧
          (after p sink k (m', out)).2 = (after p sink k (m, out)).2 ∧
          ∀ j < k, outcomeAt p sink j (m', out) = (outcomeAt p sink j (m, out)).onTape c') ∧
      (∀ fuel, (m.run p sink fuel out).1.Within c →
        EndsAlike c c' (m.run p sink fuel out) (m'.run p sink fuel out)) ∧
      ∀ (env env' : X86.Environment) (r r' : Routine),
        Architecture.host.generate p ⟨c, counting, env.host⟩ = .ok r →
        Architecture.host.generate p ⟨c', counting, env'.host⟩ = .ok r' →
        env.Suits ⟨c, counting, env.host⟩ r.code → env'.Suits ⟨c', counting, env'.host⟩ r'.code →
        (∀ fuel answer e₁ out₁, e.run env sink fuel out = (.ended answer, e₁, out₁) →
          (∀ error, answer = some error → error.Within c) →
          ∃ fuel' e₁', e'.run env' sink fuel' out = (.ended (answer.map (Error.onTape c')), e₁', out₁) ∧
            Widened c c' e₁.interpreter e₁'.interpreter) ∧
        ((∀ fuel, (e.run env sink fuel out).1 = .unfinished) →
          ∀ fuel, (e'.run env' sink fuel out).1 = .unfinished) := by
  have hcapacity : 0 < c ∧ c ≤ Tape.maxCapacity := ⟨hpos, hle.trans hmax⟩
  have hcapacity' : 0 < c' ∧ c' ≤ Tape.maxCapacity := ⟨Nat.lt_of_lt_of_le hpos hle, hmax⟩
  obtain ⟨t, ht, hzeros, hm⟩ := Interpreter.exists_new ⟨c, counting⟩ hcapacity
  obtain ⟨t', ht', hzeros', hm'⟩ := Interpreter.exists_new ⟨c', counting⟩ hcapacity'
  obtain ⟨u, hu, huzeros, he⟩ := Engine.exists_new p ⟨c, counting⟩ hcapacity
  obtain ⟨u', hu', huzeros', he'⟩ := Engine.exists_new p ⟨c', counting⟩ hcapacity'
  have hm₀ := Interpreter.widened_of_zeros ht hzeros ht' hzeros' (Options.newCounters ⟨c, counting⟩)
  refine ⟨_, _, _, _, hm, hm', he, he', fun k => hm₀.after hle p sink out k,
    fun fuel => hm₀.run hle p sink fuel out, fun env env' r r' hr hr' hsuits hsuits' => ?_⟩
  obtain ⟨hready, hcode⟩ := Engine.ready_of_generate hp hu hr hsuits
  obtain ⟨hready', hcode'⟩ := Engine.ready_of_generate hp hu' hr' hsuits'
  have hlt : c' < 2 ^ 31 := by
    rw [Tape.maxCapacity] at hmax
    omega
  have hw : Engine.WidenedReady env env' c c' _ _ := ⟨hready, hready', ⟨r, hcode⟩, ⟨r', hcode'⟩, rfl,
    Interpreter.widened_of_zeros hu huzeros hu' huzeros' _, hle, hlt⟩
  constructor
  · intro fuel answer e₁ out₁ hrun hwithin
    rcases Engine.ended_cases hready hcode hs hrun (by simp) with ⟨hanswer, -⟩ | ⟨⟨index, capacity, hanswer⟩, -⟩
    · cases hanswer
      obtain ⟨e₁', ⟨fuel', hrun'⟩, hwidened⟩ := hw.returns hs ⟨fuel, hrun⟩
      exact ⟨fuel', e₁', hrun', hwidened⟩
    · cases hanswer
      obtain ⟨e₁', ⟨fuel', hrun'⟩, hwidened⟩ := hw.faults hs ⟨fuel, hrun⟩ (hwithin _ rfl _ _ rfl)
      exact ⟨fuel', e₁', hrun', hwidened⟩
  · intro hnever fuel
    by_contra hends
    obtain ⟨fuel₁, hends₁⟩ := hw.ends hs hends
    exact hends₁ (hnever fuel₁)

/-- A byte, and then a move in front of the first cell, on tapes of one cell and of two: the index is the same, and each
report has the capacity of its tape. -/
theorem larger_tape_agrees_front :
    let p : Program := #[.add 1, .output, .move (-1)]
    ∃ m m' e e' e₁ e₁', Interpreter.new ⟨1, true⟩ = .ok m ∧ Interpreter.new ⟨2, true⟩ = .ok m' ∧
      Engine.new p ⟨1, true⟩ = .ok e ∧ Engine.new p ⟨2, true⟩ = .ok e' ∧
      (m.run p Sink.buffer 3 #[]).1 = .failed (.outOfBounds (-1) 1) ∧
      (m'.run p Sink.buffer 3 #[]).1 = .failed (.outOfBounds (-1) 2) ∧ (m'.run p Sink.buffer 3 #[]).2.2 = #[1] ∧
      e.Faults Engine.environment Sink.buffer #[] (-1) 1 e₁ #[1] ∧
      e'.Faults Engine.environment Sink.buffer #[] (-1) 2 e₁' #[1] := by
  intro p
  have hlinked : p.Linked := Program.linked_of_block (.act (.add 1) (.act .output (.act (.move (-1)) .done)))
  have hcompilable : p.Compilable := by
    refine Dialect.mem_compilable.2 ?_
    simp [p, Instruction.Compilable]
  have hgenerate (c : Nat) (hc : 0 < c ∧ c ≤ 2 ^ 31) :
      ∃ r, Architecture.host.generate p ⟨c, true, Engine.environment.host⟩ = .ok r ∧
        Engine.environment.Suits ⟨c, true, Engine.environment.host⟩ r.code := by
    obtain ⟨r, hr, hcode⟩ := X86.generate_accepts ⟨c, true, Engine.environment.host⟩ hlinked hcompilable hc
      (by decide)
    exact ⟨r, hr, X86.suits_environment rfl hcode⟩
  obtain ⟨r, hr, hsuits⟩ := hgenerate 1 (by decide)
  obtain ⟨r', hr', hsuits'⟩ := hgenerate 2 (by decide)
  obtain ⟨m, m', e, e', hm, hm', he, he', -, hrun, hengine⟩ :=
    larger_tape_agrees hlinked Sink.buffer_faultless (show 0 < 1 by decide) (show 1 ≤ 2 by decide) (by decide) true #[]
  -- the run on one cell
  obtain ⟨hending, hbytes⟩ : (m.run p Sink.buffer 3 #[]).1 = .failed (.outOfBounds (-1) 1) ∧
      (m.run p Sink.buffer 3 #[]).2.2 = #[1] := by
    refine Prod.mk.inj (?_ : (_, _) = (_, _))
    cases hm
    dsimp only [p]
    decide +kernel
  have hwithin : Error.Within 1 (.outOfBounds (-1) 1) := by
    rintro _ _ ⟨⟩
    decide
  have halike := hrun 3 (by
    rw [hending]
    rintro _ ⟨⟩
    exact hwithin)
  -- the engine on one cell reports what the interpreter does
  obtain ⟨hprogram, hinterpreter⟩ : e.program = p ∧ e.interpreter = m := by
    cases hm
    cases he
    exact ⟨rfl, rfl⟩
  obtain ⟨hready, hcode, hcapacity⟩ :
      Engine.Ready Engine.environment e ∧ e.Code Engine.environment r ∧ e.tape.capacity = 1 := by
    obtain ⟨u, hu, -, hnew⟩ := Engine.exists_new p ⟨1, true⟩ (by decide)
    cases he.symm.trans hnew
    exact ⟨(Engine.ready_of_generate hlinked hu hr hsuits).1, (Engine.ready_of_generate hlinked hu hr hsuits).2, hu⟩
  have hfaults := Engine.faultsAlike hready (hprogram ▸ hcompilable) Sink.buffer_faultless #[]
  have hinterpreted : e.interpreter.Faults e.program Sink.buffer #[] (-1) 1 (m.run p Sink.buffer 3 #[]).2.1 #[1] :=
    ⟨3, by rw [hprogram, hinterpreter, ← hending, ← hbytes]⟩
  obtain ⟨index, capacity, e₁, out₁, hfault⟩ := hfaults.faults_iff.2 ⟨.inr ⟨r, hcode⟩, _, _, _, _, hinterpreted⟩
  obtain ⟨rfl, -, rfl, delta, s₀, -, hstopped⟩ := hfaults.stopped hfault hinterpreted
  obtain rfl : index = -1 := by
    by_cases hfits : (s₀.cursor.ptr : Int) + delta.toInt ≤ 2 ^ 63 - 1
    · exact (hstopped.exact hfits).1.trans (hstopped.exact hfits).2.symm
    · exact absurd (hstopped.wrapped (Int.not_le.1 hfits)).2 (by decide)
  rw [hcapacity] at hfault
  -- and so does the one on two cells
  obtain ⟨fuel, hfuel⟩ := hfault
  obtain ⟨hanswers, -⟩ := hengine Engine.environment Engine.environment r r' hr hr' hsuits hsuits'
  obtain ⟨fuel', e₁', hfuel', -⟩ := hanswers fuel _ e₁ _ hfuel (by
    rintro _ ⟨⟩
    exact hwithin)
  refine ⟨m, m', e, e', e₁, e₁', hm, hm', he, he', hending, ?_, halike.out.trans hbytes, ⟨fuel, hfuel⟩, fuel', hfuel'⟩
  rw [halike.ending, hending]
  rfl

end TapeLang
