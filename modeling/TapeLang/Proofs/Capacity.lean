import TapeLang.CommandLine.Job
import TapeLang.Proofs.A64.Acceptance
import TapeLang.Proofs.Engine

/-!
# Which capacities are accepted

A tape has between one and `2 ^ 31 - 1` cells, and the interpreter and the engine start on exactly these
(`Interpreter.new_error_iff`, `Engine.new_error_iff`). A generator has no tape and checks the capacity on its own:
on x86-64 the last index has to be an immediate of 32 bits, so one capacity more is accepted, and on AArch64 any but
zero (`Architecture.AcceptsCapacity`). Nothing else is refused as a capacity, since an error of translation or of
assembly is never that one (`Architecture.generate_error_iff`).
-/

namespace TapeLang

/-! ### Tapes and what runs on them -/

/-- A new tape has the size asked for, and no cell that is not zero. -/
theorem Tape.exists_new {capacity : Nat} (h : 0 < capacity ∧ capacity ≤ Tape.maxCapacity) :
    ∃ t, Tape.new capacity = .ok t ∧ t.capacity = capacity ∧ ∀ i, t.cell i = 0 := by
  rw [Tape.new, dif_pos h]
  exact ⟨_, rfl, rfl, fun i => by simp [Tape.cell]⟩

theorem Interpreter.exists_new (options : Options) (h : 0 < options.capacity ∧ options.capacity ≤ Tape.maxCapacity) :
    ∃ t, t.capacity = options.capacity ∧ (∀ i, t.cell i = 0) ∧
      Interpreter.new options = .ok ⟨t, .start, false, options.newCounters⟩ := by
  obtain ⟨t, ht, hcapacity, hcell⟩ := Tape.exists_new h
  exact ⟨t, hcapacity, hcell, by rw [Interpreter.new, Options.newTape, ht]; rfl⟩

theorem Engine.exists_new (p : Program) (options : Options)
    (h : 0 < options.capacity ∧ options.capacity ≤ Tape.maxCapacity) :
    ∃ t, t.capacity = options.capacity ∧ (∀ i, t.cell i = 0) ∧
      Engine.new p options = .ok (resumed p t .start options) := by
  obtain ⟨t, ht, hcapacity, hcell⟩ := Tape.exists_new h
  refine ⟨t, hcapacity, hcell, ?_⟩
  rw [Engine.new, Options.newTape, ht]
  exact Engine.resume_eq_ok t.capacity_pos

theorem Tape.new_error_iff {capacity : Nat} :
    Tape.new capacity = .error (.invalidCapacity capacity) ↔ ¬ (0 < capacity ∧ capacity ≤ Tape.maxCapacity) := by
  rw [Tape.new]
  split
  · next h => exact iff_of_false (by simp) (not_not_intro h)
  · next h => exact ⟨fun _ => h, fun _ => rfl⟩

theorem Interpreter.new_error_iff {options : Options} :
    Interpreter.new options = .error (.invalidCapacity options.capacity) ↔
      ¬ (0 < options.capacity ∧ options.capacity ≤ Tape.maxCapacity) := by
  by_cases h : 0 < options.capacity ∧ options.capacity ≤ Tape.maxCapacity
  · obtain ⟨t, -, -, ht⟩ := Interpreter.exists_new options h
    rw [ht]
    exact iff_of_false (by simp) (not_not_intro h)
  · rw [Interpreter.new, Options.newTape, Tape.new_error_iff.2 h]
    exact iff_of_true rfl h

theorem Engine.new_error_iff {p : Program} {options : Options} :
    Engine.new p options = .error (.invalidCapacity options.capacity) ↔
      ¬ (0 < options.capacity ∧ options.capacity ≤ Tape.maxCapacity) := by
  by_cases h : 0 < options.capacity ∧ options.capacity ≤ Tape.maxCapacity
  · obtain ⟨t, -, -, ht⟩ := Engine.exists_new p options h
    rw [ht]
    exact iff_of_false (by simp) (not_not_intro h)
  · rw [Engine.new, Options.newTape, Tape.new_error_iff.2 h]
    exact iff_of_true rfl h

/-! ### Generators -/

/-- Errors that say why a program cannot be translated. -/
inductive Error.OfTranslation : Error → Prop
  | notCompilable (ip : Nat) (i : Instruction) : OfTranslation (.notCompilable ip i)
  | unbalancedLoop (ip : Nat) : OfTranslation (.unbalancedLoop ip)

namespace Dialect

variable {ω β : Type} {d : Dialect ω β} {ip : Nat} {pending : List Nat} {i : Instruction} {e : Error}

theorem ofTranslation_of_instruction (h : d.instruction ip pending i = .error e) : e.OfTranslation := by
  cases i with
  | input | halt =>
    cases h
    exact .notCompilable ip _
  | loopEnd start =>
    cases pending with
    | nil =>
      cases h
      exact .unbalancedLoop ip
    | cons opened pending => cases h
  | _ => cases h

theorem ofTranslation_of_bodyFrom {pieces : Array (Piece ω β Label)} {l : List Instruction}
    (h : d.bodyFrom ip pending pieces l = .error e) : e.OfTranslation := by
  induction l generalizing ip pending pieces with
  | nil =>
    rw [bodyFrom] at h
    split at h
    · cases h
    · cases h
      exact .unbalancedLoop ip
  | cons i l ih =>
    rw [bodyFrom] at h
    split at h
    · exact ih h
    · next e' he =>
      cases h
      exact ofTranslation_of_instruction he

theorem ofTranslation_of_routine {p : Program} (h : d.routine p = .error e) : e.OfTranslation := by
  rw [routine] at h
  cases hbody : d.bodyFrom 0 [] (ops d.entry).toArray p.toList with
  | ok ps =>
    rw [hbody] at h
    cases h
  | error e' =>
    rw [hbody] at h
    cases h
    exact ofTranslation_of_bodyFrom hbody

/-- What is translated and then assembled fails with an error of the one or of the other. -/
theorem routine_or_assembly_error {p : Program} {assemble : Array (Piece ω β Label) → Except AssemblyError Routine}
    (h : (d.routine p >>= fun ps => (assemble ps).mapError .assembly) = .error e) :
    d.routine p = .error e ∨ ∃ a, e = .assembly a := by
  cases hroutine : d.routine p with
  | error e' =>
    rw [hroutine] at h
    cases h
    exact .inl rfl
  | ok ps =>
    rw [hroutine] at h
    replace h : (assemble ps).mapError Error.assembly = .error e := h
    cases hassemble : assemble ps with
    | ok r =>
      rw [hassemble] at h
      cases h
    | error a =>
      rw [hassemble] at h
      cases h
      exact .inr ⟨a, rfl⟩

theorem ne_invalidCapacity {p : Program} {n : Nat} (d : Dialect ω β)
    (assemble : Array (Piece ω β Label) → Except AssemblyError Routine) :
    (d.routine p >>= fun ps => (assemble ps).mapError .assembly) ≠ .error (.invalidCapacity n) := fun h => by
  rcases routine_or_assembly_error h with h | ⟨a, h⟩
  · cases ofTranslation_of_routine h
  · cases h

end Dialect

namespace Architecture

/-- The capacities that a generator accepts. -/
def AcceptsCapacity : Architecture → Nat → Prop
  | x86_64, capacity => 0 < capacity ∧ capacity ≤ 2 ^ 31
  | aarch64, capacity => 0 < capacity

theorem generate_error_iff (arch : Architecture) (p : Program) (options : CodeOptions) :
    arch.generate p options = .error (.invalidCapacity options.capacity) ↔
      ¬ arch.AcceptsCapacity options.capacity := by
  cases arch with
  | x86_64 =>
    show X86.generate p options = _ ↔ ¬ (0 < options.capacity ∧ options.capacity ≤ 2 ^ 31)
    by_cases h : 0 < options.capacity ∧ options.capacity ≤ 2 ^ 31
    · rw [X86.generate, X86.lastIndex_eq h]
      exact iff_of_false (Dialect.ne_invalidCapacity _ _) (not_not_intro h)
    · rw [X86.generate, X86.lastIndex?, if_neg h]
      exact iff_of_true rfl h
  | aarch64 =>
    show A64.generate p options = _ ↔ ¬ 0 < options.capacity
    by_cases h : options.capacity = 0
    · rw [A64.generate, if_pos h]
      exact iff_of_true rfl (by omega)
    · rw [A64.generate, if_neg h]
      exact iff_of_false (Dialect.ne_invalidCapacity _ _) (by omega)

/-- Where a program can be translated, what is left to be refused is up to the assembler. -/
theorem exists_assembly_error (arch : Architecture) {p : Program} (options : CodeOptions) {e : Error} (hp : p.Linked)
    (hc : p.Compilable) (hcapacity : arch.AcceptsCapacity options.capacity)
    (h : arch.generate p options = .error e) : ∃ a, e = .assembly a := by
  have hroutine {ω β : Type} (d : Dialect ω β) : d.routine p ≠ .error e := by
    rw [(d.routine_eq_ok_iff hp).2 ⟨hc, rfl⟩]
    simp
  cases arch with
  | x86_64 =>
    change X86.generate p options = .error e at h
    rw [X86.generate, X86.lastIndex_eq hcapacity] at h
    exact (Dialect.routine_or_assembly_error h).resolve_left (hroutine _)
  | aarch64 =>
    change A64.generate p options = .error e at h
    rw [A64.generate, if_neg (Nat.ne_of_gt hcapacity)] at h
    exact (Dialect.routine_or_assembly_error h).resolve_left (hroutine _)

/-- A program of moderate size that can be translated gets code for every capacity that is accepted. -/
theorem exists_generate (arch : Architecture) {p : Program} (options : CodeOptions) (hp : p.Linked)
    (hc : p.Compilable) (hsize : p.size ≤ A64.maxSize) (hcapacity : arch.AcceptsCapacity options.capacity) :
    ∃ r, arch.generate p options = .ok r := by
  cases arch with
  | x86_64 =>
    obtain ⟨r, hr, -⟩ := X86.generate_accepts options hp hc hcapacity (by
      rw [A64.maxSize] at hsize
      rw [X86.maxSize]
      omega)
    exact ⟨r, hr⟩
  | aarch64 =>
    obtain ⟨r, hr, -⟩ := A64.generate_accepts options hp hc hcapacity hsize
    exact ⟨r, hr⟩

end Architecture

/-! ### Object files -/

namespace CommandLine.Job

variable {r : Request} {path : String} {p : Program}

/-- An object file is refused with the error of the generator, and with no other. -/
theorem object_error_iff {e : Error} :
    object r path p = .error e ↔
      (r.target.getD .host).generate p ⟨r.tapeSize, r.verbose, Engine.environment.host⟩ = .error e := by
  rw [object]
  cases (r.target.getD .host).generate p ⟨r.tapeSize, r.verbose, Engine.environment.host⟩ with
  | ok routine => exact iff_of_false (by simp) (by simp)
  | error e' => exact ⟨fun h => by cases h; rfl, fun h => by cases h; rfl⟩

theorem exists_object {routine : Routine}
    (h : (r.target.getD .host).generate p ⟨r.tapeSize, r.verbose, Engine.environment.host⟩ = .ok routine) :
    ∃ result, object r path p = .ok result := by
  rw [object, h]
  exact ⟨_, rfl⟩

end CommandLine.Job

open CommandLine (Request)

/-- A tape, and with it the interpreter and the engine, is refused outside of `1 ≤ capacity ≤ 2 ^ 31 - 1`. The
generators, and with them object files, are less strict: on x86-64 the capacity `2 ^ 31` is accepted too, on AArch64
every capacity but zero, and a program of moderate size without input and empty loops has code for all of these. -/
theorem capacities_refused (p : Program) (capacity : Nat) (counting : Bool) :
    (Tape.new capacity = .error (.invalidCapacity capacity) ↔ ¬ (0 < capacity ∧ capacity ≤ Tape.maxCapacity)) ∧
    (Interpreter.new ⟨capacity, counting⟩ = .error (.invalidCapacity capacity) ↔
      ¬ (0 < capacity ∧ capacity ≤ Tape.maxCapacity)) ∧
    (Engine.new p ⟨capacity, counting⟩ = .error (.invalidCapacity capacity) ↔
      ¬ (0 < capacity ∧ capacity ≤ Tape.maxCapacity)) ∧
    (∀ (arch : Architecture) (host : HostCalls),
      arch.generate p ⟨capacity, counting, host⟩ = .error (.invalidCapacity capacity) ↔
        ¬ arch.AcceptsCapacity capacity) ∧
    (∀ (r : Request) (path : String), r.tapeSize = capacity →
      (CommandLine.Job.object r path p = .error (.invalidCapacity capacity) ↔
        ¬ (r.target.getD .host).AcceptsCapacity capacity)) ∧
    (p.Linked → p.Compilable → p.size ≤ 2 ^ 13 → ∀ (arch : Architecture) (host : HostCalls),
      (∃ r, arch.generate p ⟨capacity, counting, host⟩ = .ok r) ↔ arch.AcceptsCapacity capacity) := by
  refine ⟨Tape.new_error_iff, Interpreter.new_error_iff, Engine.new_error_iff,
    fun arch host => arch.generate_error_iff p ⟨capacity, counting, host⟩, ?_, ?_⟩
  · rintro r path rfl
    exact CommandLine.Job.object_error_iff.trans (Architecture.generate_error_iff _ p _)
  · intro hp hc hsize arch host
    refine ⟨fun ⟨r, hr⟩ => ?_, arch.exists_generate ⟨capacity, counting, host⟩ hp hc hsize⟩
    by_contra hnot
    rw [(arch.generate_error_iff p ⟨capacity, counting, host⟩).2 hnot] at hr
    cases hr

/-- On AArch64 there is code and an object file for a tape of `2 ^ 40` cells, which no run can be given. -/
theorem capacities_refused_beyond :
    let r : Request := ⟨"prog.bf", false, false, false, false, 2 ^ 40, some "out.o", some .aarch64⟩
    Tape.new (2 ^ 40) = .error (.invalidCapacity (2 ^ 40)) ∧
    (∃ routine, Architecture.aarch64.generate #[.add 1] ⟨2 ^ 40, false, Engine.environment.host⟩ = .ok routine) ∧
    CommandLine.Job.object r "out.o" #[.add 1] ≠ .error (.invalidCapacity (2 ^ 40)) := by
  intro r
  have hlinked : Program.Linked #[.add 1] := Program.linked_of_block (.act (.add 1) .done)
  have hcompilable : Program.Compilable #[.add 1] := Dialect.mem_compilable.2 (by simp [Instruction.Compilable])
  have haccepts : Architecture.aarch64.AcceptsCapacity (2 ^ 40) := Nat.two_pow_pos 40
  obtain ⟨htape, -, -, -, hobject, hgenerate⟩ := capacities_refused #[.add 1] (2 ^ 40) false
  refine ⟨htape.2 (by decide), (hgenerate hlinked hcompilable (by decide) .aarch64 _).2 haccepts, fun h => ?_⟩
  exact (hobject r "out.o" rfl).1 h haccepts

/-- One cell more than the largest tape has: the interpreter and the engine refuse it, both generators accept it, and
an object file is written for it. -/
theorem capacity_accepted_beyond_maximum :
    let r : Request := ⟨"prog.bf", false, false, false, false, 2 ^ 31, some "out.o", none⟩
    Tape.new (2 ^ 31) = .error (.invalidCapacity (2 ^ 31)) ∧
    Interpreter.new ⟨2 ^ 31, false⟩ = .error (.invalidCapacity (2 ^ 31)) ∧
    Engine.new #[.add 1] ⟨2 ^ 31, false⟩ = .error (.invalidCapacity (2 ^ 31)) ∧
    (∃ routine, X86.generate #[.add 1] ⟨2 ^ 31, false, Engine.environment.host⟩ = .ok routine) ∧
    (∃ routine, A64.generate #[.add 1] ⟨2 ^ 31, false, Engine.environment.host⟩ = .ok routine) ∧
    ∃ result, CommandLine.Job.object r "out.o" #[.add 1] = .ok result := by
  intro r
  have hlinked : Program.Linked #[.add 1] := Program.linked_of_block (.act (.add 1) .done)
  have hcompilable : Program.Compilable #[.add 1] := Dialect.mem_compilable.2 (by simp [Instruction.Compilable])
  have hbeyond : ¬ (0 < 2 ^ 31 ∧ 2 ^ 31 ≤ Tape.maxCapacity) := by decide
  have hgenerate (arch : Architecture) (haccepts : arch.AcceptsCapacity (2 ^ 31)) :
      ∃ routine, arch.generate #[.add 1] ⟨2 ^ 31, false, Engine.environment.host⟩ = .ok routine :=
    arch.exists_generate _ hlinked hcompilable (by decide) haccepts
  have hx86 := hgenerate .x86_64 ⟨Nat.two_pow_pos 31, Nat.le_refl _⟩
  refine ⟨Tape.new_error_iff.2 hbeyond, Interpreter.new_error_iff.2 hbeyond, Engine.new_error_iff.2 hbeyond, hx86,
    hgenerate .aarch64 (Nat.two_pow_pos 31), ?_⟩
  obtain ⟨routine, hroutine⟩ := hx86
  exact CommandLine.Job.exists_object hroutine

end TapeLang
