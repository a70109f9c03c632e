import TapeLang.Proofs.A64.Placement
import TapeLang.Proofs.Code.Refusal
import TapeLang.Proofs.X86.Placement

/-!
# Both generators refuse the same programs

`generators_refuse_alike`: which program is refused, and with which error, is the same on both platforms. It is
decided by the first instruction that cannot be translated where it stands, or else by a loop that is never closed,
and not by loop targets. On x86-64 nothing else is refused of up to `2 ^ 20` instructions.
-/

namespace TapeLang

open Nesting (OpenAt)

/-- On x86-64 a program is accepted that has nothing to refuse. -/
theorem X86.exists_generate {p : Program} {options : CodeOptions}
    (hcapacity : 0 < options.capacity ∧ options.capacity ≤ 2 ^ 31) (hsize : p.size ≤ maxSize)
    (h : ∀ j, ¬ p.OffendsAt j) (hclosed : ∀ j, ¬ OpenAt Instruction.side? p.toList j p.size) :
    ∃ ps r, (dialect (Int32.ofNat (options.capacity - 1)) options.counting options.host).routine p = .ok ps ∧
      Resolved ps (instructionLabels p) ∧ assemble ps (instructionLabels p) = .ok r ∧ generate p options = .ok r := by
  obtain ⟨q, hq, hc, herase⟩ := Program.exists_linked h hclosed
  have hqsize : q.size = p.size := by simpa using congrArg List.length herase
  obtain ⟨r, hr, -⟩ := generate_accepts options hq hc hcapacity (by omega)
  rw [generate_congr herase] at hr
  obtain ⟨ps, hps, hresolved⟩ :=
    (dialect (Int32.ofNat (options.capacity - 1)) options.counting options.host).exists_resolved h hclosed
  refine ⟨ps, r, hps, hresolved, ?_, hr⟩
  -- what the generator gives is what the assembler gives for these pieces
  rw [generate, lastIndex_eq hcapacity] at hr
  change ((dialect (Int32.ofNat (options.capacity - 1)) options.counting options.host).routine p >>= fun ps =>
    (assemble ps (instructionLabels p)).mapError .assembly) = .ok r at hr
  rw [hps] at hr
  change (assemble ps (instructionLabels p)).mapError Error.assembly = .ok r at hr
  cases hassemble : assemble ps (instructionLabels p) with
  | ok r' =>
    rw [hassemble] at hr
    cases hr
    rfl
  | error e =>
    rw [hassemble] at hr
    cases hr

/-- An error of translation is the error of both generators. -/
theorem generate_of_routine_error {p : Program} {options : CodeOptions} {e : Error}
    (hcapacity : 0 < options.capacity ∧ options.capacity ≤ 2 ^ 31)
    (h : ∀ {ω β : Type} (d : Dialect ω β), d.routine p = .error e) :
    X86.generate p options = .error e ∧ A64.generate p options = .error e := by
  constructor
  · rw [X86.generate, X86.lastIndex_eq hcapacity]
    show ((X86.dialect _ _ _).routine p >>= _) = _
    rw [h]
    rfl
  · rw [A64.generate, if_neg (by omega), h]
    rfl

/-- Both generators refuse a program for its first offence, or for a loop that is never closed, with the same error.
On x86-64 all others of up to `2 ^ 20` instructions are accepted: their labels are all in place, and the assembler has
nothing to complain about. Loop targets do not matter. -/
theorem generators_refuse_alike (p : Program) (options : CodeOptions)
    (hcapacity : 0 < options.capacity ∧ options.capacity ≤ Tape.maxCapacity) :
    (∀ k i, p[k]? = some i → p.OffendsAt k → (∀ j < k, ¬ p.OffendsAt j) →
      X86.generate p options = .error (i.refusal k) ∧ A64.generate p options = .error (i.refusal k)) ∧
    ((∀ k, ¬ p.OffendsAt k) → (∃ j, OpenAt Instruction.side? p.toList j p.size) →
      X86.generate p options = .error (.unbalancedLoop p.size) ∧
        A64.generate p options = .error (.unbalancedLoop p.size)) ∧
    ((∀ k, ¬ p.OffendsAt k) → (∀ j, ¬ OpenAt Instruction.side? p.toList j p.size) → p.size ≤ 2 ^ 20 →
      ∃ ps r, (X86.dialect (Int32.ofNat (options.capacity - 1)) options.counting options.host).routine p = .ok ps ∧
        Resolved ps (instructionLabels p) ∧ X86.assemble ps (instructionLabels p) = .ok r ∧
        X86.generate p options = .ok r) ∧
    ∀ q : Program, q.toList.map Instruction.erase = p.toList.map Instruction.erase →
      X86.generate q options = X86.generate p options ∧ A64.generate q options = A64.generate p options := by
  have hcapacity' : 0 < options.capacity ∧ options.capacity ≤ 2 ^ 31 := by
    rw [Tape.maxCapacity] at hcapacity
    omega
  refine ⟨fun k i hi hk hfirst => ?_, fun h hopen => ?_, fun h hclosed hsize => ?_, fun q hq => ?_⟩
  · exact generate_of_routine_error hcapacity' fun d => d.routine_of_offendsAt hk hfirst hi
  · exact generate_of_routine_error hcapacity' fun d => d.routine_of_openAt h hopen
  · exact X86.exists_generate hcapacity' (by rw [X86.maxSize]; omega) h hclosed
  · exact ⟨X86.generate_congr hq, A64.generate_congr hq⟩

/-- An end of a loop too many in front of an input, a loop that is never closed, and a loop with targets that point
nowhere, on a tape of one cell. -/
theorem generators_refuse_alike_stale :
    let options : CodeOptions := ⟨1, true, Engine.environment.host⟩
    (X86.generate #[.loopBegin 9, .loopEnd 4, .loopEnd 0, .input] options = .error (.unbalancedLoop 2) ∧
      A64.generate #[.loopBegin 9, .loopEnd 4, .loopEnd 0, .input] options = .error (.unbalancedLoop 2)) ∧
    (X86.generate #[.loopBegin 1, .add 1] options = .error (.unbalancedLoop 2) ∧
      A64.generate #[.loopBegin 1, .add 1] options = .error (.unbalancedLoop 2)) ∧
    ∃ r, X86.generate #[.loopBegin 7, .output, .loopEnd 5] options = .ok r := by
  intro options
  have hcapacity : 0 < options.capacity ∧ options.capacity ≤ Tape.maxCapacity := by decide
  refine ⟨?_, ?_, ?_⟩
  · refine (generators_refuse_alike _ options hcapacity).1 2 (.loopEnd 0) rfl (.unmatched rfl ?_) ?_
    · exact (Nesting.forall_not_openAt_iff (n := 0) rfl).2 rfl
    · exact Program.forall_not_offendsAt_iff.2 ⟨by simp [Instruction.Compilable], 0, rfl⟩
  · refine (generators_refuse_alike _ options hcapacity).2.1 ?_ ?_
    · exact Program.not_offendsAt_iff.2 ⟨by simp [Instruction.Compilable], 1, rfl⟩
    · exact (Nesting.exists_openAt_iff (n := 1) rfl).2 Nat.one_pos
  · obtain ⟨_, r, _, _, _, hr⟩ := (generators_refuse_alike #[.loopBegin 7, .output, .loopEnd 5] options hcapacity).2.2.1
      (Program.not_offendsAt_iff.2 ⟨by simp [Instruction.Compilable], 0, rfl⟩)
      ((Nesting.forall_not_openAt_iff (n := 0) rfl).2 rfl) (by decide)
    exact ⟨r, hr⟩

end TapeLang
