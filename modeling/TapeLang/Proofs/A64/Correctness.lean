import TapeLang.Proofs.A64.Acceptance

/-!
# Runs of generated AArch64 code

However a routine is entered, its run follows the interpreter (`A64.follows_of_generate`).
-/

namespace TapeLang.A64

open Machine

variable {σ : Type} {env : Environment} {m₀ : Machine σ} {s : Interpreter} {p : Program}

/-- The run of a routine that was entered with `m₀` follows the interpreter from a state on. -/
def RunFollows (env : Environment) (sink : Sink σ) (counting : Bool) (p : Program) (r : Routine)
    (s : Interpreter) (m₀ : Machine σ) : Prop :=
  ∃ exit stub, Follows (next env r.code sink) (stands env) counting (Holds env sink counting m₀)
    (Faulted sink counting m₀) (Exited env sink counting m₀) (Reported env sink counting m₀)
    p r.offsets exit stub s m₀

/-- Generated code is a sound backend that was entered at the start of an instruction. -/
theorem exists_backend {options : CodeOptions} {r : Routine} (hp : p.Linked)
    (hr : generate p options = .ok r) (henv : env.Suits options r.code) (sink : Sink σ) {resume : Nat}
    (hresume : r.resumeOffset? s.cursor.ip = some resume) (hlive : s.halted = false)
    (hcapacity : s.tape.capacity = options.capacity)
    (hm : Entered env options.counting s (env.codeBase + UInt64.ofNat resume) m₀) :
    ∃ last, let T := backend env sink p last options.counting r.code m₀
      T.Sound p ∧ T.Visible p (stands env) ∧
        T.Closes p (fun s out t => Exited env sink options.counting m₀ s out t ∧ t.regOrSp lr = m₀.regOrSp lr)
          (fun s out index t =>
            Reported env sink options.counting m₀ s out index t ∧ t.regOrSp lr = m₀.regOrSp lr) ∧
        Backend.Sound.Offsets T p r.offsets ∧
        ∃ n y, Trail (next env r.code sink) T.Quiet n m₀ y ∧ T.Boundary p s #[] y := by
  obtain ⟨last, hlast, hcompilable, hasm, hsize, hoffset⟩ := generate_ok hp hr
  rw [← henv.host] at hasm hoffset
  have hlast : last + 1 = m₀.tape.capacity := by rw [hm.tape, hcapacity, hlast]
  have hdistinct : env.host.putByte ≠ env.host.outOfBounds := by
    rw [henv.host]
    exact henv.distinct
  have hsound := backend_sound sink hp hcompilable henv.outside hasm hlast
  have hip : s.cursor.ip < p.size := by
    rw [← hsize]
    exact (Array.getElem?_eq_some_iff.1 hresume).1
  rw [Routine.resumeOffset?, hoffset _ hip] at hresume
  cases hresume
  obtain ⟨n, y, htrail, hholds⟩ := exists_trail_entry hsound henv.outside hasm hm
  exact ⟨last, hsound, backend_visible henv.outside hasm,
    backend_closes_linked hsound henv.outside hasm hdistinct hm.returns, ⟨hsize, hoffset⟩, n, _, htrail,
    hlive, Nat.le_of_lt hip, y, rfl, hholds⟩

/-- Code generated for a linked program follows the interpreter, wherever it is entered. -/
theorem follows_of_generate {options : CodeOptions} {r : Routine} (hp : p.Linked)
    (hr : generate p options = .ok r) (henv : env.Suits options r.code) (sink : Sink σ) {resume : Nat}
    (hresume : r.resumeOffset? s.cursor.ip = some resume) (hlive : s.halted = false)
    (hcapacity : s.tape.capacity = options.capacity)
    (hm : Entered env options.counting s (env.codeBase + UInt64.ofNat resume) m₀) :
    RunFollows env sink options.counting p r s m₀ := by
  obtain ⟨last, hsound, hvisible, hcloses, hoffsets, n, y, htrail, hboundary⟩ :=
    exists_backend hp hr henv sink hresume hlive hcapacity hm
  -- that the link register is given back is no part of following
  exact ⟨_, _, hsound.follows hvisible (hcloses.mono (fun h => h.1) fun h => h.1) hoffsets htrail hboundary⟩

/-- A routine that is called with an aligned stack is entered as it has to be. -/
theorem entered_entry (env : Environment) (stackPointer : UInt64) (haligned : stackPointer % 16 = 0)
    (hroom : 48 ≤ stackPointer.toNat) {counting : Bool} (hc : counting = true → s.counters.isSome = true)
    (hptr : s.cursor.ptr < s.tape.capacity) (resume : UInt64) (out : σ) :
    Entered env counting s resume (entry env stackPointer resume s.tape s.cursor.ptr s.counters out) := by
  have hreg (r : Reg) : (entry env stackPointer resume s.tape s.cursor.ptr s.counters out).regOrSp r =
      if 3 = r then (if s.counters.isSome then env.countersBase else 0)
      else if 2 = r then resume
      else if 1 = r then UInt64.ofNat s.cursor.ptr
      else if 0 = r then env.tapeBase
      else if lr = r then env.returnAddress
      else if sp = r then stackPointer else Registers.zero.get r := by
    simp only [entry, regOrSp, Registers.get_set]
  exact
    { pc := rfl
      base := hreg 0
      index := hreg 1
      resume := hreg 2
      tape := rfl
      ptr_lt := hptr
      block := fun hcounting => ⟨by rw [hreg, hc hcounting]; rfl, rfl, hc hcounting⟩
      returns := hreg lr
      aligned := by
        rw [hreg sp]
        exact haligned
      room := by
        rw [hreg sp]
        exact hroom }

theorem suits_environment {options : CodeOptions} (hhost : options.host = environment.host)
    {code : Array UInt8} (hsize : code.size < 2 ^ 31) : environment.Suits options code where
  host := hhost.symm
  distinct := by
    rw [hhost]
    decide
  outside := by
    have hfar : (environment.returnAddress - environment.codeBase).toNat = 18446650248001490944 := by decide
    rw [Outside, hfar]
    omega

/-- A loop that counts down, with counters, on a tape of two cells: entered at its closing bracket. -/
theorem follows_of_generate_countdown :
    ∃ tape r resume, Tape.new 2 = .ok tape ∧
      generate #[.add 2, .loopBegin 4, .output, .add 255, .loopEnd 1] ⟨2, true, environment.host⟩ = .ok r ∧
      r.resumeOffset? 4 = some resume ∧
      RunFollows environment Sink.buffer true #[.add 2, .loopBegin 4, .output, .add 255, .loopEnd 1] r
        ⟨tape, ⟨4, 1⟩, false, some .zero⟩
        (entry environment 0x0000FFFFC0000000 (environment.codeBase + UInt64.ofNat resume) tape 1
          (some .zero) #[]) := by
  have hlinked := Program.linked_of_block
    (.act (.add 2) (.loop (.act .output (.act (.add 255) .done)) .done))
  have hcompilable : Program.Compilable #[.add 2, .loopBegin 4, .output, .add 255, .loopEnd 1] := by
    refine Dialect.mem_compilable.2 ?_
    simp [Instruction.Compilable]
  obtain ⟨r, hr, hcode⟩ := generate_accepts ⟨2, true, environment.host⟩ hlinked hcompilable (by decide) (by decide)
  obtain ⟨_, _, _, _, _, hoffset⟩ := generate_ok hlinked hr
  obtain ⟨tape, htape, hcapacity⟩ : ∃ tape, Tape.new 2 = .ok tape ∧ tape.capacity = 2 := ⟨_, rfl, rfl⟩
  obtain ⟨resume, hresume⟩ : ∃ offset, r.resumeOffset? 4 = some offset := ⟨_, hoffset 4 (by decide)⟩
  have hptr : 1 < tape.capacity := by
    rw [hcapacity]
    decide
  have hentered := entered_entry environment 0x0000FFFFC0000000 (by decide) (by decide)
    (s := ⟨tape, ⟨4, 1⟩, false, some .zero⟩) (fun _ : true = true => rfl) hptr
    (environment.codeBase + UInt64.ofNat resume) (#[] : Array UInt8)
  exact ⟨tape, r, resume, htape, hr, hresume,
    follows_of_generate hlinked hr (suits_environment rfl hcode) Sink.buffer hresume rfl hcapacity hentered⟩

end TapeLang.A64
