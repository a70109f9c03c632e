import TapeLang.Proofs.A64.Discipline
import TapeLang.Proofs.X86.Discipline

/-!
# Generated code keeps to its calling convention

Both backends, for every program that they accept, from wherever a routine is entered, and whatever the host
functions leave in the registers that are theirs to use (`keeps_convention`). On x86-64 the stack pointer may be
anything on entry; on AArch64 it is aligned there, and has room for the frame.
-/

namespace TapeLang

variable {options : CodeOptions} {p : Program} {s : Interpreter}

/-- Every run of generated code keeps to the calling convention of its platform. -/
theorem keeps_convention (hlive : s.halted = false) (hcapacity : s.tape.capacity = options.capacity) :
    (∀ {σ : Type} (env : X86.Environment) (sink : Sink σ) {r : Routine} {resume : Nat} {m₀ : X86.Machine σ},
      X86.generate p options = .ok r → env.Suits options r.code → r.resumeOffset? s.cursor.ip = some resume →
      X86.Machine.Entered env options.counting s (env.codeBase + UInt64.ofNat resume) m₀ →
      (X86.Machine.convention env r.code options.counting).Disciplined (X86.Machine.next env r.code sink)
        (X86.Machine.stands env) p r.offsets m₀) ∧
    ∀ {σ : Type} (env : A64.Environment) (sink : Sink σ) {r : Routine} {resume : Nat} {m₀ : A64.Machine σ},
      A64.generate p options = .ok r → env.Suits options r.code → r.resumeOffset? s.cursor.ip = some resume →
      A64.Machine.Entered env options.counting s (env.codeBase + UInt64.ofNat resume) m₀ →
      (A64.Machine.convention env r.code).Disciplined (A64.Machine.next env r.code sink) (A64.Machine.stands env) p
        r.offsets m₀ := by
  constructor
  · intro σ env sink r resume m₀ hr henv hresume hm
    exact X86.generate_disciplined hr henv sink hresume hlive hcapacity hm
  · intro σ env sink r resume m₀ hr henv hresume hm
    exact A64.generate_disciplined hr henv sink hresume hlive hcapacity hm

/-- A loop with targets that point nowhere, with counters, on a tape of two cells: entered at its output. -/
theorem keeps_convention_stale :
    ∃ tape, Tape.new 2 = .ok tape ∧
      let e : Engine := {
        program := #[.loopBegin 9, .output, .loopEnd 7, .move 1]
        counting := true
        tape
        cursor := ⟨1, 1⟩
        counters := some .zero
        compiled := none }
      (∃ r resume, X86.generate e.program ⟨2, true, Engine.environment.host⟩ = .ok r ∧
        r.resumeOffset? 1 = some resume ∧
        (X86.Machine.convention Engine.environment r.code true).Disciplined
          (X86.Machine.next Engine.environment r.code Sink.buffer) (X86.Machine.stands Engine.environment) e.program
          r.offsets (e.entryMachine Engine.environment resume #[])) ∧
      ∃ r resume, A64.generate e.program ⟨2, true, A64.environment.host⟩ = .ok r ∧
        r.resumeOffset? 1 = some resume ∧
        (A64.Machine.convention A64.environment r.code).Disciplined
          (A64.Machine.next A64.environment r.code Sink.buffer) (A64.Machine.stands A64.environment) e.program
          r.offsets (A64.Machine.entry A64.environment 0x0000FFFFC0000000
            (A64.environment.codeBase + UInt64.ofNat resume) tape 1 (some .zero) #[]) := by
  have hlinked := Program.linked_of_block (.loop (.act .output .done) (.act (.move 1) .done))
  have hcompilable : Program.Compilable #[.loopBegin 2, .output, .loopEnd 0, .move 1] := by
    refine Dialect.mem_compilable.2 ?_
    simp [Instruction.Compilable]
  obtain ⟨tape, htape, hcapacity⟩ : ∃ tape, Tape.new 2 = .ok tape ∧ tape.capacity = 2 := ⟨_, rfl, rfl⟩
  refine ⟨tape, htape, ?_⟩
  intro e
  have hfits (host : HostCalls) : e.interpreter.tape.capacity = (⟨2, true, host⟩ : CodeOptions).capacity := hcapacity
  have hptr : 1 < tape.capacity := by
    rw [hcapacity]
    decide
  constructor
  · obtain ⟨r, hr, hcode⟩ :=
      X86.generate_accepts ⟨2, true, Engine.environment.host⟩ hlinked hcompilable (by decide) (by decide)
    obtain ⟨_, _, _, _, _, _, hoffset⟩ := X86.generate_ok hlinked hr
    obtain ⟨resume, hresume⟩ : ∃ offset, r.resumeOffset? 1 = some offset := ⟨_, hoffset 1 (by decide)⟩
    have hstale : X86.generate e.program ⟨2, true, Engine.environment.host⟩ = .ok r := by
      rw [← hr]
      exact X86.generate_congr rfl
    have hentered := Engine.entered Engine.environment (e := e) rfl hptr resume (#[] : Array UInt8)
    exact ⟨r, resume, hstale, hresume, (keeps_convention rfl (hfits _)).1 _ Sink.buffer hstale
      (X86.suits_environment rfl hcode) hresume hentered⟩
  · obtain ⟨r, hr, hcode⟩ :=
      A64.generate_accepts ⟨2, true, A64.environment.host⟩ hlinked hcompilable (by decide) (by decide)
    obtain ⟨_, _, _, _, _, hoffset⟩ := A64.generate_ok hlinked hr
    obtain ⟨resume, hresume⟩ : ∃ offset, r.resumeOffset? 1 = some offset := ⟨_, hoffset 1 (by decide)⟩
    have hstale : A64.generate e.program ⟨2, true, A64.environment.host⟩ = .ok r := by
      rw [← hr]
      exact A64.generate_congr rfl
    have hentered := A64.entered_entry A64.environment 0x0000FFFFC0000000 (by decide) (by decide)
      (s := e.interpreter) (fun _ : true = true => rfl) hptr
      (A64.environment.codeBase + UInt64.ofNat resume) (#[] : Array UInt8)
    exact ⟨r, resume, hstale, hresume, (keeps_convention rfl (hfits _)).2 _ Sink.buffer hstale
      (A64.suits_environment rfl hcode) hresume hentered⟩

end TapeLang
