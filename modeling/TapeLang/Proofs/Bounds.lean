import TapeLang.Proofs.A64.Bounds
import TapeLang.Proofs.X86.Bounds

/-!
# The bounds check decides as the tape does

On both backends the code of a move adds in 64-bit words what `Tape.offset` adds in signed words with a check for
overflow, and one unsigned comparison takes the place of two signed ones. For every capacity, index and move they
agree on which moves stay on the tape and on where those lead; a move that leaves the tape is reported with the index
of the tape's error, unless the sum is beyond the largest signed word, where the tape reports that word.
-/

namespace TapeLang

/-- Every move of generated code checks as the tape does. -/
theorem moves_check (p : Program) (options : CodeOptions) :
    (∀ {σ : Type} (env : X86.Environment) (sink : Sink σ) {r : Routine}, X86.generate p options = .ok r →
      env.Suits options r.code → (X86.Machine.view env).ChecksMoves (X86.Machine.next env r.code sink)
        (X86.Machine.Ready env options) p r) ∧
    ∀ {σ : Type} (env : A64.Environment) (sink : Sink σ) {r : Routine}, A64.generate p options = .ok r →
      env.Suits options r.code → (A64.Machine.view env).ChecksMoves (A64.Machine.next env r.code sink)
        (A64.Machine.Ready env options) p r := by
  constructor
  · intro σ env sink r hr henv
    exact X86.generate_checksMoves hr henv sink
  · intro σ env sink r hr henv
    exact A64.generate_checksMoves hr henv sink

/-- On a tape of two cells a move by minus two leads from the second cell below the first one. -/
theorem moves_check_below :
    ∃ tape, Tape.new 2 = .ok tape ∧ tape.offset 1 (-2) = .error (.outOfBounds (-1) 2) ∧
      let e : Engine := {
        program := #[.move (-2)]
        counting := true
        tape
        cursor := ⟨0, 1⟩
        counters := some .zero
        compiled := none }
      (∃ r resume n z, X86.generate e.program ⟨2, true, Engine.environment.host⟩ = .ok r ∧
        r.resumeOffset? 0 = some resume ∧
        advance (X86.Machine.next Engine.environment r.code Sink.buffer) n
          (e.entryMachine Engine.environment resume #[]) = some z ∧
        z.host.fault = some (.outOfBounds 0xFFFFFFFFFFFFFFFF)) ∧
      ∃ r resume n z, A64.generate e.program ⟨2, true, A64.environment.host⟩ = .ok r ∧
        r.resumeOffset? 0 = some resume ∧
        advance (A64.Machine.next A64.environment r.code Sink.buffer) n
          (A64.Machine.entry A64.environment 0x0000FFFFC0000000
            (A64.environment.codeBase + UInt64.ofNat resume) tape 1 (some .zero) #[]) = some z ∧
        z.host.fault = some (.outOfBounds 0xFFFFFFFFFFFFFFFF) := by
  have hlinked := Program.linked_of_block (.act (.move (-2)) .done)
  have hcompilable : Program.Compilable #[.move (-2)] := by
    refine Dialect.mem_compilable.2 ?_
    simp [Instruction.Compilable]
  obtain ⟨tape, htape, hcapacity⟩ : ∃ tape, Tape.new 2 = .ok tape ∧ tape.capacity = 2 := ⟨_, rfl, rfl⟩
  have hrefused {t : Tape} (ht : t.capacity = 2) : t.offset 1 (-2) = .error (.outOfBounds (-1) 2) := by
    rw [Tape.offset, ht]
    rfl
  have hfault {h h' : HostState (Array UInt8)}
      (heq : h = h'.record (.outOfBounds (UInt64.ofNat 1 + Int64.toUInt64 (-2)))) (hnone : h'.fault = none) :
      h.fault = some (.outOfBounds 0xFFFFFFFFFFFFFFFF) := by
    rw [heq, HostState.record, hnone]
    rfl
  have hmove : (#[.move (-2)] : Program)[0]? = some (.move (-2)) := rfl
  have hptr : 1 < tape.capacity := by
    rw [hcapacity]
    decide
  refine ⟨tape, htape, hrefused hcapacity, ?_⟩
  intro e
  constructor
  · obtain ⟨r, hr, hcode⟩ :=
      X86.generate_accepts ⟨2, true, Engine.environment.host⟩ hlinked hcompilable (by decide) (by decide)
    obtain ⟨_, _, _, _, _, _, hoffset⟩ := X86.generate_ok hlinked hr
    obtain ⟨resume, hresume⟩ : ∃ offset, r.resumeOffset? 0 = some offset := ⟨_, hoffset 0 (by decide)⟩
    have hsuits : Engine.environment.Suits ⟨2, true, Engine.environment.host⟩ r.code :=
      X86.suits_environment rfl hcode
    have hentered := Engine.entered Engine.environment (e := e) rfl hptr resume (#[] : Array UInt8)
    obtain ⟨⟨n, m, hn, hstands, hready, hhost⟩, _⟩ :=
      X86.generate_ready hr hsuits Sink.buffer hresume (s := e.interpreter) rfl hcapacity hentered
    obtain ⟨stub, _, hmoves⟩ := (moves_check _ _).1 Engine.environment Sink.buffer hr hsuits
    obtain ⟨offset, next, hat, _, _, _, hchecks⟩ := hmoves hmove
    obtain rfl : resume = offset := Option.some.inj (hresume.symm.trans hat)
    obtain ⟨k, z, hz, hrecord⟩ := (hchecks hstands hready).exists_reported (hrefused hready.capacity)
    exact ⟨r, resume, n + k, z, hr, hresume, advance_trans hn hz, hfault hrecord (congrArg HostState.fault hhost)⟩
  · obtain ⟨r, hr, hcode⟩ :=
      A64.generate_accepts ⟨2, true, A64.environment.host⟩ hlinked hcompilable (by decide) (by decide)
    obtain ⟨_, _, _, _, _, hoffset⟩ := A64.generate_ok hlinked hr
    obtain ⟨resume, hresume⟩ : ∃ offset, r.resumeOffset? 0 = some offset := ⟨_, hoffset 0 (by decide)⟩
    have hsuits : A64.environment.Suits ⟨2, true, A64.environment.host⟩ r.code := A64.suits_environment rfl hcode
    have hentered := A64.entered_entry A64.environment 0x0000FFFFC0000000 (by decide) (by decide)
      (s := e.interpreter) (fun _ : true = true => rfl) hptr
      (A64.environment.codeBase + UInt64.ofNat resume) (#[] : Array UInt8)
    obtain ⟨⟨n, m, hn, hstands, hready, hhost⟩, _⟩ :=
      A64.generate_ready hr hsuits Sink.buffer hresume (s := e.interpreter) rfl hcapacity hentered
    obtain ⟨stub, _, hmoves⟩ := (moves_check _ _).2 A64.environment Sink.buffer hr hsuits
    obtain ⟨offset, next, hat, _, _, _, hchecks⟩ := hmoves hmove
    obtain rfl : resume = offset := Option.some.inj (hresume.symm.trans hat)
    obtain ⟨k, z, hz, hrecord⟩ := (hchecks hstands hready).exists_reported (hrefused hready.capacity)
    exact ⟨r, resume, n + k, z, hr, hresume, advance_trans hn hz, hfault hrecord (congrArg HostState.fault hhost)⟩

end TapeLang
