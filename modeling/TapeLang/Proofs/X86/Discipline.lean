import TapeLang.Proofs.Code.Discipline
import TapeLang.Proofs.X86.Placement

/-!
# Generated x86-64 code keeps to the calling convention

`rsp` is a multiple of 16 at every call and that of the frame at the start of every instruction; `rcx`, `rdx`, `r8`
and, where there are counters, `r10` survive an output; and the caller gets back `rsp`, `rbp`, `rbx` and `r12` to
`r15` (`generate_disciplined`). The pushes around an output, and the frame that a call opens within that of the
routine, are accounted for by the parts of the dialect (`Holds.exists_output`).
-/

namespace TapeLang.X86

namespace Machine

variable {σ : Type} {env : Environment} {sink : Sink σ} {counting : Bool} {m₀ m t : Machine σ}
  {s : Interpreter} {out : Array UInt8} {index : UInt64} {last : Int32} {code : Array UInt8}

/-- What code asks of calls, and what its caller asks of it. -/
def convention (env : Environment) (code : Array UInt8) (counting : Bool) : Convention (Machine σ) where
  stackPointer m := m.reg .rsp
  frame m₀ := m₀.reg .rsp - 8
  AtCall m := ∃ target rest,
    decode (window code maxLength (m.rip - env.codeBase).toNat) = some (.op (.call target), rest)
  Survives m m' := m'.calls = m.calls + 1 ∧ ∀ r ∈ savedRegs counting, m'.reg r = m.reg r
  Released m₀ m := m.rip = env.returnAddress ∧ m.reg .rsp = m₀.reg .rsp + 8 ∧
    ∀ r ∈ [Reg.rbp, .rbx, .r12, .r13, .r14, .r15], m.reg r = m₀.reg r

/-- A call that is executed finds the stack aligned. -/
theorem aligned_of_next (hcall : (convention env code counting).AtCall m) (hnext : next env code sink m ≠ none) :
    m.reg .rsp % 16 = 0 := by
  obtain ⟨target, rest, hdecode⟩ := hcall
  refine Decidable.byContradiction fun hrsp => hnext ?_
  rw [next]
  split
  · rfl
  · rw [step, hdecode]
    exact if_neg hrsp

/-- Nothing is called from where the routine returns to. -/
theorem not_atCall_of_released (hout : Outside env code) (h : (convention env code counting).Released m₀ m) :
    ¬ (convention env code counting).AtCall m := by
  rintro ⟨target, rest, hdecode⟩
  rw [h.1, window_eq, List.drop_eq_nil_of_le (by simpa [Outside] using hout), List.take_nil] at hdecode
  cases hdecode

theorem Returned.released {host : HostState σ} {calls : Nat} (h : Returned env counting m₀ s host calls m) :
    (convention env code counting).Released m₀ m := by
  refine ⟨h.rip, h.rsp, fun r hr => h.saved ?_ ?_⟩
  · revert r
    decide
  · rintro rfl
    revert hr
    decide

/-- An output is a call from which the machine comes back with the registers that are in use. -/
theorem Holds.exists_survives (h : Holds env sink counting m₀ s out m) :
    ∃ z, (semantics env sink).execAll ((dialect last counting env.host).count .output ++
        (dialect last counting env.host).output) m = some z ∧
      Holds env sink counting m₀ (s.pass .output) (out.push s.cell) z ∧
      ∀ a, (convention env code counting).Survives m (z.goto a) := by
  obtain ⟨y, hy, hcounted, hscratch⟩ := h.exists_count last .output
  obtain ⟨z, hz, hput, hsaved⟩ := hcounted.exists_output last
  refine ⟨z, Semantics.execAll_append hy hz, hput, fun a => ⟨?_, fun r hr => ?_⟩⟩
  · have hbefore : m.calls = m₀.calls + out.size := h.memory.calls
    have hafter : z.calls = m₀.calls + (out.push s.cell).size := hput.memory.calls
    rw [Array.size_push] at hafter
    show z.calls = m.calls + 1
    omega
  · refine (hsaved r hr).trans (hscratch r ?_)
    rintro rfl
    revert hr
    cases counting <;> decide

end Machine

open Machine

variable {σ : Type} {env : Environment} {m₀ : Machine σ} {s : Interpreter} {p : Program}

/-- Code that was generated keeps to the calling convention, wherever it is entered and whatever the loop targets of
its program. -/
theorem generate_disciplined {options : CodeOptions} {r : Routine} (hr : generate p options = .ok r)
    (henv : env.Suits options r.code) (sink : Sink σ) {resume : Nat}
    (hresume : r.resumeOffset? s.cursor.ip = some resume) (hlive : s.halted = false)
    (hcapacity : s.tape.capacity = options.capacity)
    (hm : Entered env options.counting s (env.codeBase + UInt64.ofNat resume) m₀) :
    (convention env r.code options.counting).Disciplined (next env r.code sink) (stands env) p r.offsets m₀ := by
  obtain ⟨q, hq, herase⟩ := exists_linked_of_generate hr
  rw [← generate_congr herase] at hr
  obtain ⟨last, offset, hsound, hvisible, hcloses, hoffsets, n, y, htrail, hboundary⟩ :=
    exists_backend hq hr henv sink hresume hlive hcapacity hm
  refine (hsound.disciplined hvisible hcloses hoffsets htrail hboundary ?_ ?_ ?_ ?_ ?_ ?_).congr herase
  · intro s out x hx
    exact Framed.rsp (Holds.framed hx)
  · intro s out x hx
    obtain ⟨z, hz, hput, hsurvives⟩ := Holds.exists_survives hx
    exact ⟨z, hz, hput, fun k => hsurvives _⟩
  · intro x hx hnext
    exact aligned_of_next hx hnext
  · intro t ht
    exact not_atCall_of_released henv.outside ht
  · intro s out t ht
    exact ht.2.released
  · intro s out index t ht
    exact Returned.released ht

end TapeLang.X86
