import TapeLang.Proofs.Completion

/-!
# Runs that leave the tape

Of all instructions only a move can fail with an index that is not on the tape. So a run that fails in
this way is told by the steps up to that move (`Interpreter.Overruns`), which has been counted and
passed when the run is over, and has changed nothing else (`Interpreter.faults_iff`).
-/

namespace TapeLang

namespace Tape

variable {t : Tape} {i : Nat} {delta : Int64}

/-- The cell that is `delta` cells from `i` is not on the tape. -/
def Leaves (t : Tape) (i : Nat) (delta : Int64) : Prop :=
  (i : Int) + delta.toInt < 0 ∨ (t.capacity : Int) ≤ i + delta.toInt

theorem offset_of_leaves (h : i < t.capacity) (hleaves : t.Leaves i delta) :
    t.offset i delta = .error (.outOfBounds (min ((i : Int) + delta.toInt) (2 ^ 63 - 1)) t.capacity) := by
  rw [offset_eq h, if_neg]
  unfold Leaves at hleaves
  omega

theorem leaves_of_offset_error (h : i < t.capacity) {e : Error} (he : t.offset i delta = .error e) :
    t.Leaves i delta := by
  rw [offset_eq h] at he
  unfold Leaves
  split at he
  · cases he
  · omega

end Tape

namespace Interpreter

variable {σ : Type} {p : Program} {sink : Sink σ} {m m' m'' : Interpreter} {out out' out'' : σ}
  {delta : Int64} {index : Int} {capacity : Nat}

/-- The run from a state comes to a move that leaves the tape, in the state `m'`. -/
structure Overruns (p : Program) (sink : Sink σ) (m : Interpreter) (out : σ) (delta : Int64) (m' : Interpreter)
    (out' : σ) : Prop where
  reaches : ∃ k, advance (next p sink) k (m, out) = some (m', out')
  move : p[m'.cursor.ip]? = some (.move delta)
  leaves : m'.tape.Leaves m'.cursor.ptr delta

/-- A run fails with the report that the tape pointer would be `index` on a tape of `capacity` cells. -/
def Faults (p : Program) (sink : Sink σ) (m : Interpreter) (out : σ) (index : Int) (capacity : Nat)
    (m' : Interpreter) (out' : σ) : Prop :=
  ∃ fuel, m.run p sink fuel out = (.failed (.outOfBounds index capacity), m', out')

/-- A faultless sink is sent what a buffer holds at that move. -/
theorem overruns_iff (hs : sink.Faultless) :
    Overruns p sink m out delta m' out' ↔
      ∃ bytes, Overruns p Sink.buffer m #[] delta m' bytes ∧ out' = sink.writeAll out bytes.toList := by
  constructor
  · rintro ⟨⟨k, hk⟩, hmove, hleaves⟩
    obtain ⟨bytes, ht, rfl⟩ := (advance_eq_some_iff hs).1 hk
    exact ⟨bytes, ⟨⟨k, ht⟩, hmove, hleaves⟩, rfl⟩
  · rintro ⟨bytes, ⟨⟨k, hk⟩, hmove, hleaves⟩, rfl⟩
    exact ⟨⟨k, (advance_eq_some_iff hs).2 ⟨bytes, hk, rfl⟩⟩, hmove, hleaves⟩

namespace Overruns

theorem at_move (h : Overruns p sink m out delta m' out') (hm : m.halted = false)
    (hptr : m.cursor.ptr < m.tape.capacity) : m'.At p (.move delta) := by
  obtain ⟨k, hk⟩ := h.reaches
  obtain ⟨hhalted, hptr', _⟩ := advance_keeps hk hptr
  exact ⟨hhalted.trans hm, h.move, hptr'⟩

/-- The move fails, and reports the sum as far as a signed word can hold it. -/
theorem step_eq (h : Overruns p sink m out delta m' out') (hm : m.halted = false)
    (hptr : m.cursor.ptr < m.tape.capacity) :
    m'.step p sink out' =
      (.failed (.outOfBounds (min ((m'.cursor.ptr : Int) + delta.toInt) (2 ^ 63 - 1)) m.tape.capacity),
        m'.pass (.move delta), out') := by
  have hat := h.at_move hm hptr
  obtain ⟨k, hk⟩ := h.reaches
  obtain ⟨_, _, hcapacity, _⟩ := advance_keeps hk hptr
  rw [← hcapacity]
  exact step_move_error hat (Tape.offset_of_leaves hat.ptr_lt h.leaves) sink out'

theorem unique {delta' : Int64} (h : Overruns p sink m out delta m' out')
    (h' : Overruns p sink m out delta' m'' out'') (hm : m.halted = false)
    (hptr : m.cursor.ptr < m.tape.capacity) : delta' = delta ∧ m'' = m' ∧ out'' = out' := by
  have hlast := next_of_failed (h.step_eq hm hptr)
  have hlast' := next_of_failed (h'.step_eq hm hptr)
  obtain ⟨⟨_, hk⟩, hmove, _⟩ := h
  obtain ⟨⟨_, hk'⟩, hmove', _⟩ := h'
  cases eq_of_advance_of_none hk hlast hk' hlast'
  rw [hmove] at hmove'
  cases hmove'
  exact ⟨rfl, rfl, rfl⟩

end Overruns

/-- A step that fails with an index is a move that leaves the tape. -/
theorem leaves_of_step (hm : m.halted = false) (hptr : m.cursor.ptr < m.tape.capacity)
    (h : m.step p sink out = (.failed (.outOfBounds index capacity), m', out')) :
    ∃ delta, p[m.cursor.ip]? = some (.move delta) ∧ m.tape.Leaves m.cursor.ptr delta := by
  cases hi : p[m.cursor.ip]? with
  | none => simp [step, hm, hi] at h
  | some i =>
    rcases performs_or_refuses ⟨hm, hi, hptr⟩ h with hperforms | ⟨e, ho, hrefuses, -⟩
    · rcases hperforms.goes with ⟨ho, -⟩ | ho <;> cases ho
    · cases ho
      cases hrefuses with
      | move hmove => exact ⟨_, rfl, Tape.leaves_of_offset_error hptr hmove⟩

/-- A run goes on from every state that it comes to. -/
theorem run_of_advance {k : Nat} (h : advance (next p sink) k (m, out) = some (m', out')) (n : Nat) :
    m.run p sink (k + n) out = m'.run p sink n out' := by
  induction k generalizing m out with
  | zero =>
    cases h
    rw [Nat.zero_add]
  | succ k ih =>
    rw [advance] at h
    obtain ⟨⟨m₁, out₁⟩, hy, h⟩ := Option.bind_eq_some_iff.1 h
    rw [Nat.succ_add, run, step_of_next hy]
    exact ih h

theorem not_faults_of_size_le (hm : m.halted = false) (hip : p.size ≤ m.cursor.ip) :
    ¬ m.Faults p sink out index capacity m' out' := by
  rintro ⟨_ | fuel, h⟩
  · cases h
  · rw [run, step_of_size_le hm hip] at h
    cases h

/-- A run fails with an index exactly if it comes to a move that leaves the tape. -/
theorem faults_iff (hm : m.halted = false) (hptr : m.cursor.ptr < m.tape.capacity) :
    m.Faults p sink out index capacity m' out' ↔
      ∃ delta m₀, Overruns p sink m out delta m₀ out' ∧ m' = m₀.pass (.move delta) ∧
        index = min ((m₀.cursor.ptr : Int) + delta.toInt) (2 ^ 63 - 1) ∧ capacity = m.tape.capacity := by
  constructor
  · rintro ⟨fuel, h⟩
    induction fuel generalizing m out with
    | zero => cases h
    | succ fuel ih =>
      rw [run] at h
      split at h
      case h_1 m₁ out₁ hstep =>
        have hnext := next_of_step hstep
        obtain ⟨_, hhalted, hptr₁, hcapacity, _⟩ := next_keeps hnext hptr
        obtain ⟨delta, m₀, ⟨⟨k, hk⟩, hmove, hleaves⟩, hfailed⟩ := ih (hhalted.trans hm) hptr₁ h
        rw [hcapacity] at hfailed
        exact ⟨delta, m₀, ⟨⟨k + 1, (advance_succ hnext k).trans hk⟩, hmove, hleaves⟩, hfailed⟩
      case h_2 => cases h
      case h_3 => cases h
      case h_4 hstep =>
        cases h
        obtain ⟨delta, hmove, hleaves⟩ := leaves_of_step hm hptr hstep
        have hoverruns : Overruns p sink m out delta m out := ⟨⟨0, rfl⟩, hmove, hleaves⟩
        rw [hoverruns.step_eq hm hptr] at hstep
        cases hstep
        exact ⟨delta, m, hoverruns, rfl, rfl, rfl⟩
  · rintro ⟨delta, m₀, h, rfl, rfl, rfl⟩
    have hstep := h.step_eq hm hptr
    obtain ⟨k, hk⟩ := h.reaches
    refine ⟨k + 1, ?_⟩
    rw [run_of_advance hk, run, hstep]

end Interpreter

end TapeLang
