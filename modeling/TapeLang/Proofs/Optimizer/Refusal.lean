import TapeLang.Proofs.Capacity
import TapeLang.Proofs.Optimizer.Passes
import TapeLang.Proofs.Refusal
import TapeLang.Proofs.Session

/-!
# What is refused after optimizing

An empty loop has machine code as a pair of brackets, but the optimizer turns it into a `halt`, which has none. So
an optimized program is refused for what the original program has anywhere, reachable or not: an input, a `halt` or
an empty loop (`Program.Unsupported`).

A sweep makes none of these and removes none: a redex of two brackets becomes a `halt`, and the others take neither an
input nor a `halt` and bring no two brackets together (`unsupported_swept`). Where nothing is left to rewrite there
is no empty loop, so the generators refuse the result at its first input or `halt`. The engine generates code before
it does anything else, and is as it was when there is none (`Engine.refused_of_run`).
-/

namespace TapeLang

open Nesting (Balanced)

namespace Program

variable {l : List Instruction} {i : Instruction} {p q : Program}

/-! ### What a sweep does not touch -/

/-- There is an input, a `halt` or an empty loop somewhere. -/
def Unsupported (l : List Instruction) : Prop :=
  .input ∈ l ∨ .halt ∈ l ∨ ∃ close start, [.loopBegin close, .loopEnd start] <:+: l

/-- An empty loop that starts with the first instruction is one that is no redex with what follows, or there is none. -/
theorem unsupported_cons : Unsupported (i :: l) ↔
    i = .input ∨ i = .halt ∨ (∃ close start, [.loopBegin close, .loopEnd start] <+: i :: l) ∨ Unsupported l := by
  simp only [Unsupported, List.mem_cons, List.infix_cons_iff, exists_or]
  grind

theorem not_prefix_of_fits (h : Fits i.kind l) : ¬ ∃ close start, [.loopBegin close, .loopEnd start] <+: i :: l := by
  rintro ⟨close, start, t, ht⟩
  simp only [List.cons_append, List.nil_append, List.cons.injEq] at ht
  obtain ⟨rfl, rfl⟩ := ht
  rw [fits_cons] at h
  cases h

/-- Where the first instruction is no redex with what follows, it is the only thing to look at besides. -/
theorem unsupported_cons_of_fits (h : Fits i.kind l) :
    Unsupported (i :: l) ↔ i = .input ∨ i = .halt ∨ Unsupported l := by
  rw [unsupported_cons]
  simp only [not_prefix_of_fits h, false_or]

/-- An instruction that is no input, no `halt` and opens no loop does not matter. -/
@[simp] theorem unsupported_cons_plain (hinput : i ≠ .input) (hhalt : i ≠ .halt)
    (hopen : ∀ close, i ≠ .loopBegin close) :
    Unsupported (i :: l) ↔ Unsupported l := by
  rw [unsupported_cons]
  refine ⟨?_, fun h => .inr (.inr (.inr h))⟩
  rintro (rfl | rfl | ⟨close, start, t, ht⟩ | h)
  · exact absurd rfl hinput
  · exact absurd rfl hhalt
  · cases ht
    exact absurd rfl (hopen close)
  · exact h

theorem unsupported_cons_of_kind (hi : i.kind = .add ∨ i.kind = .move) : Unsupported (i :: l) ↔ Unsupported l := by
  cases i <;> simp [Instruction.kind] at hi <;> simp

theorem unsupported_dropWhile {k : Kind} (hk : k = .add ∨ k = .move) (l : List Instruction) :
    Unsupported (l.dropWhile (·.kind = k)) ↔ Unsupported l := by
  induction l with
  | nil => rfl
  | cons i l ih =>
    rw [List.dropWhile_cons]
    split
    · rename_i hi
      rw [ih, unsupported_cons_of_kind (of_decide_eq_true hi ▸ hk)]
    · rfl

/-- A rewrite takes away no input and no `halt`, and makes a `halt` of an empty loop only. -/
theorem unsupported_rewrite? {rest : List Instruction} {j : Instruction} (h : rewrite? l = some (j, rest)) :
    (j = .halt ∨ Unsupported rest) ↔ Unsupported l := by
  rcases rewrite?_kinds h with ⟨i, i', r, rfl, hi, hi', hj, rfl⟩ | ⟨close, start, rfl, rfl⟩ | ⟨close, start, rfl, rfl⟩
  · have hne : j ≠ .halt := by
      rintro rfl
      rcases hi with hi | hi <;> rw [hi] at hj <;> cases hj
    rw [unsupported_cons_of_kind hi, unsupported_cons_of_kind (hi' ▸ hi), unsupported_dropWhile hi, or_iff_right hne]
  · have hfits : Fits (Instruction.loopBegin close).kind (.add 255 :: .loopEnd start :: rest) := fits_cons.2 rfl
    simp [unsupported_cons_of_fits hfits]
  · exact iff_of_true (.inl rfl) (.inr (.inr ⟨close, start, [], rest, rfl⟩))

/-- A sweep keeps what is refused, if not in its place. -/
theorem unsupported_swept (l : List Instruction) : Unsupported (swept l) ↔ Unsupported l := by
  fun_induction swept l with
  | case1 => rfl
  | case2 i l j rest hr ih =>
    rw [unsupported_cons_of_fits (fits_of_rewrite? hr).swept, ih, ← unsupported_rewrite? hr,
      or_iff_right (ne_input_of_rewrite? hr)]
  | case3 i l hr ih =>
    have hfits := fits_of_rewrite?_none hr
    rw [unsupported_cons_of_fits hfits.swept, ih, unsupported_cons_of_fits hfits]

theorem unsupported_simplify (p : Program) : Unsupported p.simplify.toList ↔ Unsupported p.toList := by
  fun_induction simplify p with
  | case1 p q hsweep _ ih => rw [ih, ← unsupported_swept p.toList, ← toList_sweep, hsweep]
  | case2 p q hsweep => rw [← unsupported_swept p.toList, ← toList_sweep, hsweep]

/-! ### After optimizing -/

/-- A normal program has no empty loop. -/
theorem Normal.unsupported_iff (h : Normal l) : Unsupported l ↔ .input ∈ l ∨ .halt ∈ l := by
  refine or_congr_right (or_iff_left ?_)
  rintro ⟨close, start, hin⟩
  exact h _ (.empty close start) hin

theorem mem_iff_of_erased_eq (h : q.erased = p.erased) (hi : ∀ j : Instruction, j.erase = i ↔ j = i) :
    i ∈ q.toList ↔ i ∈ p.toList := by
  have hmem (p : Program) : i ∈ p.toList ↔ i ∈ p.erased.toList := by simp [hi]
  rw [hmem, h, ← hmem]

theorem exists_optimize_iff : (∃ q, p.optimize = .ok q) ↔ Balanced Instruction.side? p.toList := by
  rw [← Nesting.balanced_congr (depth_simplify p 0), ← exists_linked_iff]
  rfl

/-- What is left of an empty loop is a `halt`, wherever it was. -/
theorem unsupported_iff_of_optimize (h : p.optimize = .ok q) :
    Unsupported p.toList ↔ .input ∈ q.toList ∨ .halt ∈ q.toList := by
  have herased := erased_of_linked h
  rw [← unsupported_simplify, (normal_simplify p).unsupported_iff,
    mem_iff_of_erased_eq herased fun j => by cases j <;> simp [Instruction.erase],
    mem_iff_of_erased_eq herased fun j => by cases j <;> simp [Instruction.erase]]

/-- The instruction at `k` is the first input or `halt`. -/
structure FirstUnsupported (p : Program) (k : Nat) (i : Instruction) : Prop where
  get : p[k]? = some i
  kind : i = .input ∨ i = .halt
  first : ∀ j < k, p[j]? ≠ some .input ∧ p[j]? ≠ some .halt

theorem exists_firstUnsupported_iff : (∃ k i, p.FirstUnsupported k i) ↔ .input ∈ p.toList ∨ .halt ∈ p.toList := by
  classical
  have hmem (i : Instruction) : i ∈ p.toList ↔ ∃ k : Nat, p[k]? = some i := by simp [List.mem_iff_getElem?]
  constructor
  · rintro ⟨k, i, h⟩
    rcases h.kind with rfl | rfl
    · exact .inl ((hmem _).2 ⟨k, h.get⟩)
    · exact .inr ((hmem _).2 ⟨k, h.get⟩)
  · rw [hmem, hmem, ← exists_or]
    intro hexists
    have hfirst (j : Nat) (hj : j < Nat.find hexists) := not_or.1 (Nat.find_min hexists hj)
    rcases Nat.find_spec hexists with hk | hk
    · exact ⟨_, _, hk, .inl rfl, hfirst⟩
    · exact ⟨_, _, hk, .inr rfl, hfirst⟩

theorem compilable_iff : p.Compilable ↔ .input ∉ p.toList ∧ .halt ∉ p.toList := by
  rw [Dialect.mem_compilable]
  exact ⟨fun h => ⟨fun hi => (h _ hi).1 rfl, fun hi => (h _ hi).2 rfl⟩,
    fun h i hi => ⟨fun heq => h.1 (heq ▸ hi), fun heq => h.2 (heq ▸ hi)⟩⟩

variable {k : Nat}

/-- With balanced brackets nothing else is in the way of translation. -/
theorem FirstUnsupported.offendsAt (h : p.FirstUnsupported k i) (hp : Balanced Instruction.side? p.toList) :
    p.OffendsAt k ∧ ∀ j < k, ¬ p.OffendsAt j := by
  constructor
  · have hk := h.get
    rcases h.kind with rfl | rfl
    · exact .input hk
    · exact .halt hk
  · refine forall_not_offendsAt_iff.2 ⟨fun j hj => ?_, ?_⟩
    · obtain ⟨m, hm⟩ := List.mem_iff_getElem?.1 hj
      have hlt : m < k := by
        have := (List.getElem?_eq_some_iff.1 hm).1
        rw [List.length_take] at this
        omega
      rw [List.getElem?_take_of_lt hlt, Array.getElem?_toList] at hm
      exact ⟨fun heq => (h.first m hlt).1 (heq ▸ hm), fun heq => (h.first m hlt).2 (heq ▸ hm)⟩
    · -- reading gets to the end, and so to any index before it
      have hdepth := Nesting.balanced_iff_depth.1 hp
      rw [← List.take_append_drop k p.toList, Nesting.depth_append, Option.bind_eq_some_iff] at hdepth
      obtain ⟨n, hn, -⟩ := hdepth
      exact ⟨n, hn⟩

end Program

/-- Code generation stops at the first input or `halt`, and says so nowhere else. -/
theorem Architecture.generate_notCompilable_iff (arch : Architecture) {p : Program} (options : CodeOptions) {k : Nat}
    {i : Instruction} (hp : p.Linked) (hcapacity : 0 < options.capacity ∧ options.capacity ≤ 2 ^ 31) :
    arch.generate p options = .error (.notCompilable k i) ↔ p.FirstUnsupported k i := by
  have hstops {k : Nat} {i : Instruction} (h : p.FirstUnsupported k i) :
      arch.generate p options = .error (.notCompilable k i) := by
    obtain ⟨hoffends, hfirst⟩ := h.offendsAt (Nesting.nested_iff_balanced.1 hp.nested)
    obtain ⟨hx86, ha64⟩ := generate_of_routine_error hcapacity
      fun d => d.routine_of_offendsAt hoffends hfirst h.get
    have hrefusal : i.refusal k = .notCompilable k i := by rcases h.kind with rfl | rfl <;> rfl
    rw [hrefusal] at hx86 ha64
    cases arch with
    | x86_64 => exact hx86
    | aarch64 => exact ha64
  refine ⟨fun hg => ?_, hstops⟩
  have haccepts : arch.AcceptsCapacity options.capacity := by
    cases arch with
    | x86_64 => exact hcapacity
    | aarch64 => exact hcapacity.1
  have hc : ¬ p.Compilable := fun hc => by
    obtain ⟨a, ha⟩ := arch.exists_assembly_error options hp hc haccepts hg
    cases ha
  obtain ⟨_, _, hfirst⟩ :=
    Program.exists_firstUnsupported_iff.2 (or_iff_not_and_not.2 (mt Program.compilable_iff.2 hc))
  cases hg.symm.trans (hstops hfirst)
  exact hfirst

/-! ### Engines -/

namespace Engine

variable {σ : Type} {env : X86.Environment} {sink : Sink σ} {e e' e₀ : Engine} {out out' : σ} {fuel ip : Nat}
  {i : Instruction}

/-- That there is no code for an instruction is said before anything is run. -/
theorem refused_of_run (h : e.run env sink fuel out = (.ended (some (.notCompilable ip i)), e', out')) :
    e.enter env out = .refused (.notCompilable ip i) ∧ e' = e ∧ out' = out := by
  rw [run] at h
  split at h
  · cases h
  · next error henter =>
    cases h
    exact ⟨henter, rfl, rfl⟩
  · next e₁ code m henter =>
    split at h
    · next t ht =>
      -- what the routine leaves is a fault of the host, or an answer of the sink
      rw [finish] at h
      split at h
      · next f hf => cases f <;> cases h
      · cases hflush : (sink.flush t.host.out).1 <;> simp [hflush] at h
    · cases h
    · cases h

/-- A run of an engine reports an instruction without machine code exactly if code generation does. -/
theorem Kept.run_notCompilable_iff (h : Kept env.host e₀ e) :
    e.run env sink fuel out = (.ended (some (.notCompilable ip i)), e', out') ↔
      (e.finished = false ∧ Architecture.host.generate e.program (e.codeOptions env) = .error (.notCompilable ip i)) ∧
        e' = e ∧ out' = out := by
  constructor
  · intro hrun
    obtain ⟨henter, rfl, rfl⟩ := refused_of_run hrun
    rw [enter] at henter
    split at henter
    · cases henter
    · next hf =>
      refine ⟨⟨Bool.eq_false_of_not_eq_true hf, ?_⟩, rfl, rfl⟩
      rcases h.compile_cases with ⟨r, -, hcompile⟩ | ⟨error, hg, hcompile⟩
      · rw [hcompile] at henter
        dsimp only at henter
        split at henter <;> cases henter
      · rw [hcompile] at henter
        cases henter
        exact hg
  · rintro ⟨⟨hf, hg⟩, rfl, rfl⟩
    exact h.run_of_error hf hg sink fuel out'

end Engine

/-- The engine refuses an optimized program exactly if the original one has an input, a `halt` or an empty loop
anywhere, whether or not a run gets there. It names the first input or `halt` of the optimized program, and is as it
was, with nothing written. -/
theorem optimized_refused_iff (p : Program) (options : Options) (hp : Balanced Instruction.side? p.toList)
    (hcapacity : 0 < options.capacity ∧ options.capacity ≤ Tape.maxCapacity) :
    ∃ q e, p.optimize = .ok q ∧ Engine.new q options = .ok e ∧
      ∀ (σ : Type) (env : X86.Environment) (sink : Sink σ) (fuel : Nat) (out : σ),
        ((∃ ip i e' out', e.run env sink fuel out = (.ended (some (.notCompilable ip i)), e', out')) ↔
          .input ∈ p.toList ∨ .halt ∈ p.toList ∨
            ∃ close start, [.loopBegin close, .loopEnd start] <:+: p.toList) ∧
        ∀ ip i e' out', e.run env sink fuel out = (.ended (some (.notCompilable ip i)), e', out') →
          (q[ip]? = some i ∧ (i = .input ∨ i = .halt) ∧
            ∀ j < ip, q[j]? ≠ some .input ∧ q[j]? ≠ some .halt) ∧
          e' = e ∧ out' = out := by
  obtain ⟨q, hq⟩ := Program.exists_optimize_iff.2 hp
  obtain ⟨tape, -, -, hnew⟩ := Engine.exists_new q options hcapacity
  refine ⟨q, _, hq, hnew, fun σ env sink fuel out => ?_⟩
  have hrange : 0 < tape.capacity ∧ tape.capacity ≤ 2 ^ 31 := ⟨tape.capacity_pos, Nat.le_of_lt tape.capacity_lt⟩
  have hkept : Engine.Kept env.host _ (Engine.resumed q tape .start options) := Engine.kept_resumed tape.capacity_pos
  -- the engine reports what code generation reports, and that is the first input or `halt`
  have hrun (ip : Nat) (i : Instruction) (e' : Engine) (out' : σ) :
      (Engine.resumed q tape .start options).run env sink fuel out =
          (.ended (some (.notCompilable ip i)), e', out') ↔
        q.FirstUnsupported ip i ∧ e' = Engine.resumed q tape .start options ∧ out' = out := by
    have hgenerate := Architecture.host.generate_notCompilable_iff
      ((Engine.resumed q tape .start options).codeOptions env) (i := i) (k := ip) (Program.linked_of_optimize hq) hrange
    rw [hkept.run_notCompilable_iff]
    refine and_congr_left fun _ => ⟨fun h => hgenerate.1 h.2, fun h => ⟨?_, hgenerate.2 h⟩⟩
    have hlt := (Array.getElem?_eq_some_iff.1 h.get).1
    exact decide_eq_false (Nat.not_le.2 (Nat.lt_of_le_of_lt (Nat.zero_le ip) hlt))
  constructor
  · show _ ↔ Program.Unsupported p.toList
    rw [Program.unsupported_iff_of_optimize hq, ← Program.exists_firstUnsupported_iff]
    refine exists_congr fun ip => exists_congr fun i => ⟨?_, fun h => ⟨_, _, (hrun ip i _ _).2 ⟨h, rfl, rfl⟩⟩⟩
    rintro ⟨e', out', h⟩
    exact ((hrun ip i e' out').1 h).1
  · intro ip i e' out' h
    obtain ⟨hfirst, he, hout⟩ := (hrun ip i e' out').1 h
    exact ⟨⟨hfirst.get, hfirst.kind, hfirst.first⟩, he, hout⟩

/-- `[[]]` from a cell that is zero: the inner loop is never reached, and the program is refused for it. -/
theorem optimized_refused_unreachable :
    Balanced Instruction.side? [.loopBegin 3, .loopBegin 2, .loopEnd 1, .loopEnd 0] ∧
    (0 < 1 ∧ 1 ≤ Tape.maxCapacity) ∧
    ∃ q e, Program.optimize #[.loopBegin 3, .loopBegin 2, .loopEnd 1, .loopEnd 0] = .ok q ∧
      Engine.new q ⟨1, true⟩ = .ok e ∧
      ∀ fuel, e.run Engine.environment Sink.buffer fuel #[] = (.ended (some (.notCompilable 1 .halt)), e, #[]) := by
  have hbalanced : Balanced Instruction.side? [.loopBegin 3, .loopBegin 2, .loopEnd 1, .loopEnd 0] :=
    Nesting.balanced_iff_depth.2 rfl
  have hcapacity : 0 < 1 ∧ 1 ≤ Tape.maxCapacity := by decide
  obtain ⟨q, e, hq, he, hrun⟩ := optimized_refused_iff #[.loopBegin 3, .loopBegin 2, .loopEnd 1, .loopEnd 0] ⟨1, true⟩
    hbalanced hcapacity
  refine ⟨hbalanced, hcapacity, q, e, hq, he, fun fuel => ?_⟩
  obtain ⟨hiff, hreport⟩ := hrun _ Engine.environment Sink.buffer fuel #[]
  obtain ⟨ip, i, e', out', h⟩ := hiff.2 (.inr (.inr ⟨2, 1, [.loopBegin 3], [.loopEnd 0], rfl⟩))
  obtain ⟨⟨hget, hkind, hfirst⟩, rfl, rfl⟩ := hreport ip i e' out' h
  -- what the optimizer gives is `[`, a `halt` and `]`
  have hoptimize : Program.optimize #[.loopBegin 3, .loopBegin 2, .loopEnd 1, .loopEnd 0] =
      .ok #[.loopBegin 2, .halt, .loopEnd 0] := by decide +kernel
  cases hq.symm.trans hoptimize
  obtain _ | _ | ip := ip
  · cases hget
    simp at hkind
  · cases hget
    exact h
  · exact absurd rfl (hfirst 1 (by omega)).2

end TapeLang
