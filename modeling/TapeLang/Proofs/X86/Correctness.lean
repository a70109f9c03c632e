import TapeLang.Engine
import TapeLang.Proofs.X86.Acceptance

/-!
# Runs of generated x86-64 code

However a routine is entered, its run follows the interpreter (`X86.generate_follows`). The engine
enters it as it has to be (`Engine.entered`).
-/

namespace TapeLang

/-- The interpreter in the state of an engine. -/
def Engine.interpreter (e : Engine) : Interpreter where
  tape := e.tape
  cursor := e.cursor
  halted := false
  counters := e.counters

open X86 Machine

theorem Engine.entered {σ : Type} (env : Environment) {e : Engine} (hc : e.counters.isSome = e.counting)
    (hptr : e.cursor.ptr < e.tape.capacity) (offset : Nat) (out : σ) :
    Entered env e.counting e.interpreter (env.codeBase + UInt64.ofNat offset) (e.entryMachine env offset out) := by
  have hreg (r : Reg) : (e.entryMachine env offset out).reg r =
      if Reg.rcx = r then (if e.counters.isSome then env.countersBase else 0)
      else if Reg.rdx = r then env.codeBase + UInt64.ofNat offset
      else if Reg.rsi = r then UInt64.ofNat e.cursor.ptr
      else if Reg.rdi = r then env.tapeBase
      else if Reg.rsp = r then env.stackPointer else Registers.zero.get r := by
    simp only [entryMachine, Machine.reg, Registers.get_set]
  exact
    { rip := rfl
      base := by simp [hreg]
      index := by simp [hreg, interpreter]
      resume := by simp [hreg]
      tape := rfl
      ptr_lt := hptr
      block := by
        intro hcounting
        rw [hcounting] at hc
        exact ⟨by simp [hreg, hc], rfl, hc⟩
      top := by
        have hrsp : (e.entryMachine env offset out).reg .rsp = env.stackPointer := by simp [hreg]
        rw [liveStack, hrsp]
        show (List.dropWhile (fun w => decide (w.1 < env.stackPointer)) [(env.stackPointer, env.returnAddress)]).head? = _
        rw [List.dropWhile_cons_of_neg (by simp [UInt64.lt_irrefl])]
        rfl }

namespace X86

variable {σ : Type} {env : Environment} {m₀ : Machine σ} {s : Interpreter} {p : Program}

/-- The run of a routine that was entered with `m₀` follows the interpreter from a state on. -/
def RunFollows (env : Environment) (sink : Sink σ) (counting : Bool) (p : Program) (r : Routine)
    (s : Interpreter) (m₀ : Machine σ) : Prop :=
  ∃ exit stub, Follows (next env r.code sink) (stands env) counting (Holds env sink counting m₀)
    (Faulted sink counting m₀) (Exited env sink counting m₀) (Reported env sink counting m₀)
    p r.offsets exit stub s m₀

/-- Generated code is a sound backend that was entered at the start of an instruction. -/
theorem exists_backend {options : CodeOptions} {r : Routine} (hp : p.Linked)
    (hr : generate p options = .ok r) (henv : env.Suits options r.code) (sink : Sink σ) {resume : Nat}
    (hresume : r.resumeOffset? s.cursor.ip = some resume) (hlive : s.halted = false)
    (hcapacity : s.tape.capacity = options.capacity)
    (hm : Entered env options.counting s (env.codeBase + UInt64.ofNat resume) m₀) :
    ∃ last offset, let T := backend env sink p last options.counting r.code offset m₀
      T.Sound p ∧ T.Visible p (stands env) ∧
        T.Closes p (Exited env sink options.counting m₀) (Reported env sink options.counting m₀) ∧
        Backend.Sound.Offsets T p r.offsets ∧
        ∃ n y, Trail (next env r.code sink) T.Quiet n m₀ y ∧ T.Boundary p s #[] y := by
  obtain ⟨last, offset, hlast, hcompilable, hasm, hsize, hoffset⟩ := generate_ok hp hr
  rw [← henv.host] at hasm hoffset
  have hlast : lastIndex? m₀.tape.capacity = some last := by rw [hm.tape, hcapacity, hlast]
  have hdistinct : env.host.putByte ≠ env.host.outOfBounds := by
    rw [henv.host]
    exact henv.distinct
  have hsound := backend_sound sink hp hcompilable henv.outside hasm hlast
  have hip : s.cursor.ip < p.size := by
    rw [← hsize]
    exact (Array.getElem?_eq_some_iff.1 hresume).1
  obtain rfl : resume = offset ((dialect last options.counting env.host).start p s.cursor.ip) := by
    rw [Routine.resumeOffset?, hoffset _ hip] at hresume
    cases hresume
    rfl
  obtain ⟨n, y, htrail, hholds⟩ := exists_trail_entry hsound henv.outside hasm hm
  exact ⟨last, offset, hsound, backend_visible henv.outside hasm,
    backend_closes hsound henv.outside hasm hdistinct hm.top, ⟨hsize, hoffset⟩, n, _, htrail,
    hlive, Nat.le_of_lt hip, y, rfl, hholds⟩

/-- Code generated for a linked program follows the interpreter, wherever it is entered. -/
theorem generate_follows {options : CodeOptions} {r : Routine} (hp : p.Linked)
    (hr : generate p options = .ok r) (henv : env.Suits options r.code) (sink : Sink σ) {resume : Nat}
    (hresume : r.resumeOffset? s.cursor.ip = some resume) (hlive : s.halted = false)
    (hcapacity : s.tape.capacity = options.capacity)
    (hm : Entered env options.counting s (env.codeBase + UInt64.ofNat resume) m₀) :
    RunFollows env sink options.counting p r s m₀ := by
  obtain ⟨last, offset, hsound, hvisible, hcloses, hoffsets, n, y, htrail, hboundary⟩ :=
    exists_backend hp hr henv sink hresume hlive hcapacity hm
  exact ⟨_, _, hsound.follows hvisible hcloses hoffsets htrail hboundary⟩

theorem suits_environment {options : CodeOptions} (hhost : options.host = Engine.environment.host)
    {code : Array UInt8} (hsize : code.size < 2 ^ 31) : Engine.environment.Suits options code where
  host := hhost.symm
  distinct := by
    rw [hhost]
    decide
  outside := by
    have hfar : (Engine.environment.returnAddress - Engine.environment.codeBase).toNat = 18446698993732816896 := rfl
    rw [Outside, hfar]
    omega

/-- So the code of a program that is certain to be accepted fits. -/
theorem suits_of_generate {options : CodeOptions} {r : Routine} (hhost : options.host = Engine.environment.host)
    (hp : p.Linked) (hc : p.Compilable) (hcapacity : 0 < options.capacity ∧ options.capacity ≤ 2 ^ 31)
    (hsize : p.size ≤ maxSize) (hr : generate p options = .ok r) : Engine.environment.Suits options r.code := by
  obtain ⟨r', hr', hcode⟩ := generate_accepts options hp hc hcapacity hsize
  obtain rfl : r = r' := Except.ok.inj (hr.symm.trans hr')
  exact suits_environment hhost hcode

/-- A loop that counts down, with counters, on a tape of two cells: entered at its closing bracket. -/
theorem generate_follows_countdown :
    ∃ tape r resume, Tape.new 2 = .ok tape ∧
      generate #[.add 2, .loopBegin 4, .output, .add 255, .loopEnd 1] ⟨2, true, Engine.environment.host⟩ = .ok r ∧
      r.resumeOffset? 4 = some resume ∧
      let e : Engine := {
        program := #[.add 2, .loopBegin 4, .output, .add 255, .loopEnd 1]
        counting := true
        tape
        cursor := ⟨4, 1⟩
        counters := some .zero
        compiled := none }
      RunFollows Engine.environment Sink.buffer true e.program r e.interpreter
        (e.entryMachine Engine.environment resume #[]) := by
  have hlinked := Program.linked_of_block
    (.act (.add 2) (.loop (.act .output (.act (.add 255) .done)) .done))
  have hcompilable : Program.Compilable #[.add 2, .loopBegin 4, .output, .add 255, .loopEnd 1] := by
    refine Dialect.mem_compilable.2 ?_
    simp [Instruction.Compilable]
  obtain ⟨r, hr, hcode⟩ := generate_accepts ⟨2, true, Engine.environment.host⟩ hlinked hcompilable (by decide) (by decide)
  obtain ⟨_, _, _, _, _, _, hoffset⟩ := generate_ok hlinked hr
  have htape : Tape.new 2 = .ok _ := rfl
  obtain ⟨resume, hresume⟩ : ∃ offset, r.resumeOffset? 4 = some offset := ⟨_, hoffset 4 (by decide)⟩
  refine ⟨_, r, resume, htape, hr, hresume, ?_⟩
  intro e
  have hentered := Engine.entered Engine.environment (e := e) rfl (show 1 < 2 by decide) resume (#[] : Array UInt8)
  exact generate_follows hlinked hr (suits_environment rfl hcode) Sink.buffer hresume rfl rfl hentered

end X86

end TapeLang
