import TapeLang.Proofs.Stepping

/-!
# What a run counts

`Interpreter.kinds` are the kinds of the instructions that a run executes, one after another, and the counters at its
end are how often each occurs among them (`Interpreter.run_counts`). Counts are words that wrap; the sequence does not,
so that two runs are compared by their sequences.

`Interpreter.Goes` is a part of a run, by the kinds that it executes. Parts are put together to a run that ends
(`Interpreter.Goes.run_eq`), and a program has one such run (`Interpreter.run_of_ended`).
-/

namespace TapeLang

namespace Counters

/-- These counters have counted instructions of these kinds. -/
structure Counts (c : Counters) (kinds : List Kind) : Prop where
  get (k : Kind) : c.get k = UInt64.ofNat (kinds.count k)
  total : c.total = UInt64.ofNat kinds.length

theorem counts_zero : zero.Counts [] where
  get k := by cases k <;> rfl
  total := total_zero

/-- One instruction more. -/
theorem Counts.record {c : Counters} {kinds : List Kind} (h : c.Counts kinds) (k : Kind) :
    (c.record k).Counts (kinds ++ [k]) where
  get l := by
    rw [get_record, h.get, List.count_append, List.count_singleton]
    by_cases hkl : k = l
    · rw [if_pos hkl, if_pos (by simp [hkl]), UInt64.ofNat_add]
      rfl
    · rw [if_neg hkl, if_neg (by simpa using hkl), Nat.add_zero]
  total := by
    rw [total_record, h.total, List.length_append, List.length_singleton, UInt64.ofNat_add]
    rfl

end Counters

namespace Interpreter

variable {σ : Type} {p : Program} {sink : Sink σ} {m m' m₁ m₂ : Interpreter} {out out' out₁ out₂ : σ} {o : Outcome}

/-- The kind of the next instruction, if there is one. -/
def nextKind (p : Program) (m : Interpreter) : List Kind := (p[m.cursor.ip]?.map Instruction.kind).toList

/-- The kinds of the instructions that a run of less than so many steps executes, in order. -/
def kinds (p : Program) (sink : Sink σ) : Nat → Interpreter → σ → List Kind
  | 0, _, _ => []
  | fuel + 1, m, out =>
    match m.step p sink out with
    | (.running, m', out') => m.nextKind p ++ kinds p sink fuel m' out'
    | (.stopped, _, _) => []
    | (_, _, _) => m.nextKind p

/-- A part of a run, and the kinds of the instructions that it executes. -/
inductive Goes (p : Program) (sink : Sink σ) : Interpreter → σ → List Kind → Interpreter → σ → Prop
  | refl (m : Interpreter) (out : σ) : Goes p sink m out [] m out
  | step {m m₁ m₂ : Interpreter} {out out₁ out₂ : σ} {i : Instruction} {kinds : List Kind}
    (hi : p[m.cursor.ip]? = some i) (h : m.step p sink out = (.running, m₁, out₁))
    (hgoes : Goes p sink m₁ out₁ kinds m₂ out₂) : Goes p sink m out (i.kind :: kinds) m₂ out₂

/-! ### One step -/

theorem nextKind_eq {i : Instruction} (hi : p[m.cursor.ip]? = some i) : m.nextKind p = [i.kind] := by
  rw [nextKind, hi]
  rfl

/-- An instruction is executed, and the counters are left alone. -/
structure Keeps (m : Interpreter) (r : Outcome × Interpreter × σ) : Prop where
  executed : r.1 ≠ .stopped
  counters : r.2.1.counters = m.counters

theorem keeps_running (h : m'.counters = m.counters) (out : σ) : m.Keeps (.running, m', out) := ⟨nofun, h⟩

theorem keeps_attempt {α : Type} {next : α → Outcome × Interpreter × σ} (h : ∀ a, m.Keeps (next a))
    (r : Except Error α) : m.Keeps (m.attempt out r next) := by
  cases r with
  | ok a => exact h a
  | error e => exact ⟨nofun, rfl⟩

theorem keeps_assign (m : Interpreter) (v : UInt8) (out : σ) : m.Keeps (m.assign v out) := by
  unfold assign
  refine keeps_attempt (fun tape => ?_) _
  exact ⟨nofun, rfl⟩

/-- An instruction is counted when it is passed, and not again when it is executed. -/
theorem keeps_execute (sink : Sink σ) (i : Instruction) (ip : Nat) (m : Interpreter) (out : σ) :
    m.Keeps (m.execute sink i ip out) := by
  unfold execute onCell
  cases i with
  | add delta => exact keeps_attempt (fun cell => keeps_assign m (cell + delta) out) _
  | move delta =>
    refine keeps_attempt (fun ptr => ?_) _
    exact ⟨nofun, rfl⟩
  | input => exact ⟨nofun, rfl⟩
  | output =>
    refine keeps_attempt (fun cell => ?_) _
    rcases sink.write out cell with ⟨_ | e, out'⟩
    · exact ⟨nofun, rfl⟩
    · exact ⟨nofun, rfl⟩
  | loopBegin close =>
    refine keeps_attempt (fun cell => keeps_running ?_ out) _
    split <;> rfl
  | loopEnd start =>
    refine keeps_attempt (fun cell => keeps_running ?_ out) _
    split <;> rfl
  | set value => exact keeps_assign m value out
  | halt =>
    refine keeps_attempt (fun cell => ?_) _
    by_cases hz : cell = 0
    · rw [if_pos hz]
      exact ⟨nofun, rfl⟩
    · rw [if_neg hz]
      exact ⟨nofun, rfl⟩

theorem step_counts (h : m.step p sink out = (o, m', out')) :
    o = .stopped ∧ m' = m ∨
      ∃ i, p[m.cursor.ip]? = some i ∧ o ≠ .stopped ∧ m'.counters = m.counters.map (·.record i.kind) := by
  unfold step at h
  split at h
  · cases h
    exact .inl ⟨rfl, rfl⟩
  · split at h
    · cases h
      exact .inl ⟨rfl, rfl⟩
    · rename_i i hi
      obtain ⟨hne, hcounters⟩ := keeps_execute sink i m.cursor.ip (m.pass i) out
      rw [h] at hne hcounters
      exact .inr ⟨i, hi, hne, hcounters⟩

/-! ### Runs -/

/-- The counters at the end of a run have counted what it executes. -/
theorem run_counts {n : Nat} {ending : Ending} (h : m.run p sink n out = (ending, m', out')) {c : Counters}
    {before : List Kind} (hc : m.counters = some c) (hcounts : c.Counts before) :
    ∃ c', m'.counters = some c' ∧ c'.Counts (before ++ m.kinds p sink n out) := by
  induction n generalizing m out c before with
  | zero =>
    cases h
    exact ⟨c, hc, by rwa [kinds, List.append_nil]⟩
  | succ n ih =>
    unfold run at h
    unfold kinds
    rcases hstep : m.step p sink out with ⟨o, m₁, out₁⟩
    rw [hstep] at h
    rcases step_counts hstep with ⟨rfl, rfl⟩ | ⟨i, hi, hne, hcounters⟩
    · obtain rfl : m₁ = m' := congrArg (·.2.1) h
      exact ⟨c, hc, by rwa [List.append_nil]⟩
    · rw [hc, Option.map_some] at hcounters
      have hrecord := hcounts.record i.kind
      rw [nextKind_eq hi]
      cases o with
      | running =>
        dsimp only
        rw [List.singleton_append, List.append_cons]
        exact ih h hcounters hrecord
      | stopped => exact absurd rfl hne
      | halted ip =>
        obtain rfl : m₁ = m' := congrArg (·.2.1) h
        exact ⟨_, hcounters, hrecord⟩
      | failed e =>
        obtain rfl : m₁ = m' := congrArg (·.2.1) h
        exact ⟨_, hcounters, hrecord⟩

/-- A run that has ended is the whole run, however many more steps it is given. -/
theorem run_of_ended {n k : Nat} (h : (m.run p sink n out).1 ≠ .unfinished) (hnk : n ≤ k) :
    m.run p sink k out = m.run p sink n out ∧ m.kinds p sink k out = m.kinds p sink n out := by
  induction n generalizing m out k with
  | zero => exact absurd rfl h
  | succ n ih =>
    obtain ⟨k, rfl⟩ : ∃ l, k = l + 1 := ⟨k - 1, by omega⟩
    unfold run at h ⊢
    unfold kinds
    rcases hstep : m.step p sink out with ⟨o, m₁, out₁⟩
    rw [hstep] at h
    cases o with
    | running =>
      obtain ⟨hrun, hkinds⟩ := ih h (Nat.le_of_succ_le_succ hnk)
      exact ⟨hrun, by simp only [hkinds]⟩
    | stopped => exact ⟨rfl, rfl⟩
    | halted ip => exact ⟨rfl, rfl⟩
    | failed e => exact ⟨rfl, rfl⟩

/-- Two runs from one state that have both ended are the same. -/
theorem kinds_of_ended {n k : Nat} (hn : (m.run p sink n out).1 ≠ .unfinished)
    (hk : (m.run p sink k out).1 ≠ .unfinished) :
    m.run p sink n out = m.run p sink k out ∧ m.kinds p sink n out = m.kinds p sink k out := by
  rcases Nat.le_total n k with hle | hle
  · obtain ⟨hrun, hkinds⟩ := run_of_ended hn hle
    exact ⟨hrun.symm, hkinds.symm⟩
  · exact run_of_ended hk hle

namespace Goes

variable {kinds kinds' : List Kind}

theorem trans (h : Goes p sink m out kinds m₁ out₁) (h' : Goes p sink m₁ out₁ kinds' m₂ out₂) :
    Goes p sink m out (kinds ++ kinds') m₂ out₂ := by
  induction h with
  | refl m out => exact h'
  | step hi hstep _ ih => exact .step hi hstep (ih h')

theorem single {i : Instruction} (hi : p[m.cursor.ip]? = some i) (h : m.step p sink out = (.running, m₁, out₁)) :
    Goes p sink m out [i.kind] m₁ out₁ :=
  .step hi h (.refl m₁ out₁)

/-- A run goes on from where a part of it has come to. -/
theorem run_eq (h : Goes p sink m out kinds m₁ out₁) (n : Nat) :
    m.run p sink (kinds.length + n) out = m₁.run p sink n out₁ ∧
      m.kinds p sink (kinds.length + n) out = kinds ++ m₁.kinds p sink n out₁ := by
  induction h with
  | refl m out => exact ⟨by rw [List.length_nil, Nat.zero_add], by rw [List.length_nil, Nat.zero_add, List.nil_append]⟩
  | step hi hstep _ ih =>
    obtain ⟨hrun, hkinds⟩ := ih
    rw [List.length_cons, Nat.succ_add, run, Interpreter.kinds, hstep, nextKind_eq hi]
    exact ⟨hrun, congrArg _ hkinds⟩

end Goes

end Interpreter

end TapeLang
