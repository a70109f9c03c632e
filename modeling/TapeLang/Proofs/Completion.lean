import TapeLang.Proofs.Code.Trail
import TapeLang.Proofs.Interpreter

/-!
# Runs of the interpreter to the end

A run is told by its steps (`Interpreter.Completes`). What it does depends neither on which faultless
sink it writes to (`Interpreter.next_writeAll`) nor on what was counted before it began
(`Interpreter.next_addCounters`), and it can be interrupted at any point
(`Interpreter.Completes.resumed`).
-/

namespace TapeLang

/-! ### Sums of counters -/

theorem Kind.index_surjective (i : Fin 8) : ∃ k : Kind, k.index = i := by
  have hall : ∀ i : Fin 8, ∃ k ∈ all, k.index = i := by decide
  obtain ⟨k, _, hk⟩ := hall i
  exact ⟨k, hk⟩

namespace Counters

/-- The sum of two counts for each kind. -/
def add (a b : Counters) : Counters := ⟨Vector.ofFn fun i => a.counts.get i + b.counts.get i⟩

theorem get_add (a b : Counters) (k : Kind) : (a.add b).get k = a.get k + b.get k := by
  show (Vector.ofFn _)[(k.index : Nat)] = _
  rw [Vector.getElem_ofFn]
  rfl

theorem ext_get {a b : Counters} (h : ∀ k, a.get k = b.get k) : a = b := by
  obtain ⟨a⟩ := a
  obtain ⟨b⟩ := b
  congr 1
  apply Vector.ext
  intro i hi
  obtain ⟨k, hk⟩ := Kind.index_surjective ⟨i, hi⟩
  obtain rfl : (k.index : Nat) = i := congrArg Fin.val hk
  exact h k

theorem add_record (a b : Counters) (k : Kind) : (a.add b).record k = a.add (b.record k) := by
  apply ext_get
  intro l
  rw [record, get_set, get_add, get_add, get_add, record, get_set]
  split
  · rename_i hkl
    rw [hkl, UInt64.add_assoc]
  · rfl

theorem add_zero (a : Counters) : a.add zero = a := by
  apply ext_get
  intro k
  have hzero : zero.get k = 0 := by cases k <;> rfl
  rw [get_add, hzero, UInt64.add_zero]

end Counters

namespace Interpreter

variable {σ : Type} {p : Program} {sink : Sink σ} {m m' : Interpreter} {out out' : σ}

/-! ### Sinks -/

/-- The result of a step over a buffer, as a step over another sink has it. -/
def sent (sink : Sink σ) (out : σ) (r : Outcome × Interpreter × Array UInt8) : Outcome × Interpreter × σ :=
  (r.1, r.2.1, sink.writeAll out r.2.2.toList)

theorem attempt_sent {α : Type} {bytes : Array UInt8} {next : α → Outcome × Interpreter × σ}
    {next' : α → Outcome × Interpreter × Array UInt8} (h : ∀ a, next a = sent sink out (next' a)) (m : Interpreter)
    (result : Except Error α) :
    m.attempt (sink.writeAll out bytes.toList) result next = sent sink out (m.attempt bytes result next') := by
  cases result with
  | ok a => exact h a
  | error e => rfl

theorem execute_sent (hs : sink.Faultless) (i : Instruction) (ip : Nat) (m : Interpreter) (bytes : Array UInt8) :
    m.execute sink i ip (sink.writeAll out bytes.toList) = sent sink out (m.execute Sink.buffer i ip bytes) := by
  unfold execute
  cases i with
  | input => rfl
  | output =>
    apply attempt_sent
    intro cell
    rw [hs.write_eq]
    show (_, m, _) = (_, m, sink.writeAll out (bytes.push cell).toList)
    rw [Array.toList_push, Sink.writeAll_append_singleton]
    rfl
  | add delta =>
    apply attempt_sent
    intro cell
    apply attempt_sent
    intro tape
    rfl
  | move delta =>
    apply attempt_sent
    intro ptr
    rfl
  | set value =>
    apply attempt_sent
    intro tape
    rfl
  | loopBegin close =>
    apply attempt_sent
    intro cell
    rfl
  | loopEnd start =>
    apply attempt_sent
    intro cell
    rfl
  | halt =>
    apply attempt_sent
    intro cell
    by_cases hz : cell = 0
    · rw [if_pos hz, if_pos hz]
      rfl
    · rw [if_neg hz, if_neg hz]
      rfl

theorem step_sent (hs : sink.Faultless) (m : Interpreter) (bytes : Array UInt8) :
    m.step p sink (sink.writeAll out bytes.toList) = sent sink out (m.step p Sink.buffer bytes) := by
  unfold step
  by_cases hm : m.halted = true
  · rw [if_pos hm, if_pos hm]
    rfl
  · rw [if_neg hm, if_neg hm]
    cases p[m.cursor.ip]? with
    | none => rfl
    | some i => exact execute_sent hs i _ _ bytes

/-- A faultless sink is sent the bytes that a buffer keeps. -/
theorem next_writeAll (hs : sink.Faultless) (out : σ) (x : Interpreter × Array UInt8) :
    next p sink (x.1, sink.writeAll out x.2.toList) =
      (next p Sink.buffer x).map fun y => (y.1, sink.writeAll out y.2.toList) := by
  unfold next
  rw [step_sent hs]
  generalize x.1.step p Sink.buffer x.2 = r
  obtain ⟨o, m', bytes⟩ := r
  cases o <;> rfl

/-- The bytes that a run writes until it ends, or in so many steps if it does not. -/
def written (p : Program) (m : Interpreter) (n : Nat) : List UInt8 := (m.run p Sink.buffer n #[]).2.2.toList

/-! ### Counters -/

/-- The state in which more had been counted before. -/
def addCounters (a : Counters) (m : Interpreter) : Interpreter := { m with counters := m.counters.map a.add }

theorem pass_addCounters (a : Counters) (m : Interpreter) (i : Instruction) :
    (m.addCounters a).pass i = (m.pass i).addCounters a := by
  unfold pass addCounters
  rw [Option.map_map, Option.map_map]
  congr 2
  funext c
  exact a.add_record c i.kind

/-- The result of a step, had more been counted before. -/
def added (a : Counters) (r : Outcome × Interpreter × σ) : Outcome × Interpreter × σ :=
  (r.1, r.2.1.addCounters a, r.2.2)

theorem attempt_added {α : Type} {a : Counters} {next next' : α → Outcome × Interpreter × σ}
    (h : ∀ b, next b = added a (next' b)) (m : Interpreter) (out : σ) (result : Except Error α) :
    (m.addCounters a).attempt out result next = added a (m.attempt out result next') := by
  cases result with
  | ok b => exact h b
  | error e => rfl

theorem execute_added (a : Counters) (sink : Sink σ) (i : Instruction) (ip : Nat) (m : Interpreter) (out : σ) :
    (m.addCounters a).execute sink i ip out = added a (m.execute sink i ip out) := by
  unfold execute
  cases i with
  | input => rfl
  | output =>
    apply attempt_added
    intro cell
    generalize sink.write out cell = answer
    obtain ⟨fault, out'⟩ := answer
    cases fault <;> rfl
  | add delta =>
    apply attempt_added
    intro cell
    apply attempt_added
    intro tape
    rfl
  | move delta =>
    apply attempt_added
    intro ptr
    rfl
  | set value =>
    apply attempt_added
    intro tape
    rfl
  | loopBegin close =>
    apply attempt_added
    intro cell
    split <;> rfl
  | loopEnd start =>
    apply attempt_added
    intro cell
    split <;> rfl
  | halt =>
    apply attempt_added
    intro cell
    split <;> rfl

/-- What was counted before a step is of no account to it. -/
theorem next_addCounters (a : Counters) (x : Interpreter × σ) :
    next p sink (x.1.addCounters a, x.2) = (next p sink x).map fun y => (y.1.addCounters a, y.2) := by
  have hstep : (x.1.addCounters a).step p sink x.2 = added a (x.1.step p sink x.2) := by
    have hhalted : (x.1.addCounters a).halted = x.1.halted := rfl
    have hcursor : (x.1.addCounters a).cursor = x.1.cursor := rfl
    unfold step
    rw [hhalted, hcursor]
    by_cases hm : x.1.halted = true
    · rw [if_pos hm, if_pos hm]
      rfl
    · rw [if_neg hm, if_neg hm]
      cases p[x.1.cursor.ip]? with
      | none => rfl
      | some i =>
        show ((x.1.addCounters a).pass i).execute sink i x.1.cursor.ip x.2 = _
        rw [pass_addCounters, execute_added]
  unfold next
  rw [hstep]
  generalize x.1.step p sink x.2 = r
  obtain ⟨o, m', out'⟩ := r
  cases o <;> rfl

/-! ### Runs to the end -/

/-- A state that a run can go on from. -/
structure Valid (p : Program) (m : Interpreter) : Prop where
  live : m.halted = false
  ip_le : m.cursor.ip ≤ p.size
  ptr_lt : m.cursor.ptr < m.tape.capacity

/-- The run from a state reaches the end of the program without a fault, in the state `m'`. -/
structure Completes (p : Program) (sink : Sink σ) (m : Interpreter) (out : σ) (m' : Interpreter) (out' : σ) : Prop where
  reaches : ∃ k, advance (next p sink) k (m, out) = some (m', out')
  ip_eq : m'.cursor.ip = p.size

theorem next_of_ip_eq (hip : m.cursor.ip = p.size) (sink : Sink σ) (out : σ) : next p sink (m, out) = none := by
  unfold next step
  rw [hip, Array.getElem?_eq_none (Nat.le_refl _)]
  cases m.halted <;> rfl

theorem Completes.unique {m'' : Interpreter} {out'' : σ} (h : Completes p sink m out m' out')
    (h' : Completes p sink m out m'' out'') : m'' = m' ∧ out'' = out' := by
  obtain ⟨⟨k, hk⟩, hend⟩ := h
  obtain ⟨⟨k', hk'⟩, hend'⟩ := h'
  have heq := eq_of_advance_of_none hk' (next_of_ip_eq hend' sink out'') hk (next_of_ip_eq hend sink out')
  cases heq
  exact ⟨rfl, rfl⟩

/-- What a run does over a faultless sink, so many steps long, is what it does over a buffer. -/
theorem advance_eq_some_iff (hs : sink.Faultless) {k : Nat} :
    advance (next p sink) k (m, out) = some (m', out') ↔
      ∃ bytes, advance (next p Sink.buffer) k (m, #[]) = some (m', bytes) ∧ out' = sink.writeAll out bytes.toList := by
  have hmap : advance (next p sink) k (m, out) =
      (advance (next p Sink.buffer) k (m, #[])).map fun y => (y.1, sink.writeAll out y.2.toList) :=
    advance_map (f := fun y : Interpreter × Array UInt8 => (y.1, sink.writeAll out y.2.toList))
      (fun x => next_writeAll hs out x) k (m, #[])
  rw [hmap]
  constructor
  · intro hk
    obtain ⟨⟨t, bytes⟩, ht, heq⟩ := Option.map_eq_some_iff.1 hk
    cases heq
    exact ⟨bytes, ht, rfl⟩
  · rintro ⟨bytes, hk, rfl⟩
    rw [hk]
    rfl

/-- A faultless sink is sent what a buffer holds in the end. -/
theorem completes_iff (hs : sink.Faultless) :
    Completes p sink m out m' out' ↔
      ∃ bytes, Completes p Sink.buffer m #[] m' bytes ∧ out' = sink.writeAll out bytes.toList := by
  constructor
  · rintro ⟨⟨k, hk⟩, hend⟩
    obtain ⟨bytes, ht, rfl⟩ := (advance_eq_some_iff hs).1 hk
    exact ⟨bytes, ⟨⟨k, ht⟩, hend⟩, rfl⟩
  · rintro ⟨bytes, ⟨⟨k, hk⟩, hend⟩, rfl⟩
    exact ⟨⟨k, (advance_eq_some_iff hs).2 ⟨bytes, hk, rfl⟩⟩, hend⟩

theorem next_keeps (h : next p sink (m, out) = some (m', out')) (hptr : m.cursor.ptr < m.tape.capacity) :
    m.cursor.ip < p.size ∧ m'.halted = m.halted ∧ m'.cursor.ptr < m'.tape.capacity ∧
      m'.tape.capacity = m.tape.capacity ∧ m'.counters.isSome = m.counters.isSome := by
  have hstep := step_of_next h
  cases hm : m.halted with
  | true => simp [step, hm] at hstep
  | false =>
    cases hi : p[m.cursor.ip]? with
    | none => simp [step, hm, hi] at hstep
    | some i =>
      have hat : m.At p i := ⟨hm, hi, hptr⟩
      rcases performs_or_refuses hat hstep with hperforms | ⟨_, ho, _⟩
      · rcases hperforms.goes with ⟨-, hhalted⟩ | ho
        · have hptr' : m'.cursor.ptr < m'.tape.capacity := by
            rw [hperforms.capacity]
            exact hperforms.ptr_lt
          have hcounters : m'.counters.isSome = m.counters.isSome := by rw [hperforms.counters, Option.isSome_map]
          exact ⟨hat.ip_lt, hhalted.trans hm, hptr', hperforms.capacity, hcounters⟩
        · cases ho
      · cases ho

theorem advance_keeps {k : Nat} (h : advance (next p sink) k (m, out) = some (m', out'))
    (hptr : m.cursor.ptr < m.tape.capacity) :
    m'.halted = m.halted ∧ m'.cursor.ptr < m'.tape.capacity ∧ m'.tape.capacity = m.tape.capacity ∧
      m'.counters.isSome = m.counters.isSome := by
  induction k generalizing m out with
  | zero =>
    cases h
    exact ⟨rfl, hptr, rfl, rfl⟩
  | succ k ih =>
    rw [advance] at h
    obtain ⟨⟨m₁, out₁⟩, hy, h⟩ := Option.bind_eq_some_iff.1 h
    obtain ⟨_, hhalted, hptr₁, hcapacity, hcounters⟩ := next_keeps hy hptr
    obtain ⟨hhalted', hptr', hcapacity', hcounters'⟩ := ih h hptr₁
    exact ⟨hhalted'.trans hhalted, hptr', hcapacity'.trans hcapacity, hcounters'.trans hcounters⟩

/-- The state after so many calls of `step`. -/
def after (p : Program) (sink : Sink σ) : Nat → Interpreter × σ → Interpreter × σ
  | 0, x => x
  | k + 1, x => after p sink k (x.1.step p sink x.2).2

theorem after_of_size_le (hm : m.halted = false) (hip : p.size ≤ m.cursor.ip) (k : Nat) :
    after p sink k (m, out) = (m, out) := by
  induction k with
  | zero => rfl
  | succ k ih =>
    rw [after, step_of_size_le hm hip]
    exact ih

/-- A run that completes still does so after any number of steps. -/
theorem Completes.of_after (h : Completes p sink m out m' out') (hm : m.halted = false)
    (hptr : m.cursor.ptr < m.tape.capacity) (k : Nat) :
    Completes p sink (after p sink k (m, out)).1 (after p sink k (m, out)).2 m' out' ∧
      Valid p (after p sink k (m, out)).1 ∧
      (after p sink k (m, out)).1.tape.capacity = m.tape.capacity ∧
      (after p sink k (m, out)).1.counters.isSome = m.counters.isSome := by
  induction k generalizing m out with
  | zero =>
    refine ⟨h, ⟨hm, ?_, hptr⟩, rfl, rfl⟩
    obtain ⟨⟨_ | n, hn⟩, hend⟩ := h
    · cases hn
      exact Nat.le_of_eq hend
    · rw [advance] at hn
      obtain ⟨y, hy, _⟩ := Option.bind_eq_some_iff.1 hn
      exact Nat.le_of_lt (next_keeps hy hptr).1
  | succ k ih =>
    obtain ⟨⟨_ | n, hn⟩, hend⟩ := h
    · obtain ⟨rfl, rfl⟩ : m = m' ∧ out = out' := by
        cases hn
        exact ⟨rfl, rfl⟩
      rw [after_of_size_le hm (Nat.le_of_eq hend.symm)]
      exact ⟨⟨⟨0, rfl⟩, hend⟩, ⟨hm, Nat.le_of_eq hend, hptr⟩, rfl, rfl⟩
    · rw [advance] at hn
      obtain ⟨⟨m₁, out₁⟩, hy, hn⟩ := Option.bind_eq_some_iff.1 hn
      obtain ⟨_, hhalted, hptr₁, hcapacity, hcounters⟩ := next_keeps hy hptr
      have := ih ⟨⟨n, hn⟩, hend⟩ (hhalted.trans hm) hptr₁
      rw [hcapacity, hcounters] at this
      simp only [after, step_of_next hy]
      exact this

/-- A run that completes also does so with fresh counters, and then counts what was left to count. -/
theorem Completes.resumed (h : Completes p sink m out m' out') (hm : m.halted = false)
    (hptr : m.cursor.ptr < m.tape.capacity) {options : Options} (hc : m.counters.isSome = options.counting) :
    ∃ t, Completes p sink ⟨m.tape, m.cursor, false, options.newCounters⟩ out t out' ∧ t.tape = m'.tape ∧
      t.cursor = m'.cursor ∧ m'.counters = m.counters.bind fun a => t.counters.map a.add := by
  obtain ⟨⟨k, hk⟩, hend⟩ := h
  let t₀ : Interpreter := ⟨m.tape, m.cursor, false, options.newCounters⟩
  -- before the state, the run had counted `a`
  obtain ⟨a, hadd, hsum⟩ : ∃ a : Counters, t₀.addCounters a = m ∧ ∀ c : Option Counters,
      c.isSome = t₀.counters.isSome → c.map a.add = m.counters.bind fun a => c.map a.add := by
    obtain ⟨tape, cursor, halted, counters⟩ := m
    cases hm
    simp only [t₀, Options.newCounters, ← hc]
    cases counters with
    | none =>
      refine ⟨.zero, rfl, fun c hnone => ?_⟩
      cases c with
      | none => rfl
      | some c => cases hnone
    | some a =>
      refine ⟨a, ?_, fun c _ => rfl⟩
      show (⟨tape, cursor, false, some (a.add .zero)⟩ : Interpreter) = _
      rw [a.add_zero]
  have hmap : advance (next p sink) k (t₀.addCounters a, out) =
      (advance (next p sink) k (t₀, out)).map fun y => (y.1.addCounters a, y.2) :=
    advance_map (f := fun y => (y.1.addCounters a, y.2)) (fun x => next_addCounters a x) k (t₀, out)
  rw [show (t₀.addCounters a, out) = (m, out) by rw [hadd], hk] at hmap
  obtain ⟨⟨t, out₁⟩, ht, heq⟩ := Option.map_eq_some_iff.1 hmap.symm
  cases heq
  exact ⟨t, ⟨⟨k, ht⟩, hend⟩, rfl, rfl, hsum _ (advance_keeps ht hptr).2.2.2⟩

end Interpreter

end TapeLang
