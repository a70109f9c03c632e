import TapeLang.Proofs.A64.Placement
import TapeLang.Proofs.Code.Discipline

/-!
# Generated AArch64 code keeps to the calling convention

Entered with an aligned `sp`, code has it aligned at every call and that of the frame at the start of every
instruction; `x9` to `x12` survive an output; and the caller gets back `sp`, `x29`, `x30` and `x19` to `x28`
(`generate_disciplined`).
-/

namespace TapeLang.A64

namespace Machine

variable {σ : Type} {env : Environment} {sink : Sink σ} {counting : Bool} {m₀ m t : Machine σ}
  {s : Interpreter} {out : Array UInt8} {index : UInt64} {last : Nat} {code : Array UInt8}

/-- What code asks of calls, and what its caller asks of it. -/
def convention (env : Environment) (code : Array UInt8) : Convention (Machine σ) where
  stackPointer m := m.regOrSp sp
  frame m₀ := m₀.regOrSp sp - 16
  AtCall m := ∃ target, (fetch? code (m.pc - env.codeBase).toNat).bind decode = some (.op (.call target))
  Survives m m' := m'.calls = m.calls + 1 ∧ ∀ r ∈ savedRegs, m'.regOrSp r = m.regOrSp r
  Released m₀ m := m.pc = env.returnAddress ∧
    ∀ r ∈ [sp, fp, lr, 19, 20, 21, 22, 23, 24, 25, 26, 27, 28], m.regOrSp r = m₀.regOrSp r

/-- A call that is executed finds the stack aligned. -/
theorem aligned_of_next (hcall : (convention env code).AtCall m) (hnext : next env code sink m ≠ none) :
    m.regOrSp sp % 16 = 0 := by
  obtain ⟨target, hdecode⟩ := hcall
  refine Decidable.byContradiction fun hsp => hnext ?_
  rw [next]
  split
  · rfl
  · obtain ⟨word, hfetch, hdecode⟩ := Option.bind_eq_some_iff.1 hdecode
    rw [step, hfetch]
    show (decode word >>= _) = _
    rw [hdecode]
    exact if_neg hsp

/-- Nothing is called from where the routine returns to. -/
theorem not_atCall_of_released (hout : Outside env code) (h : (convention env code).Released m₀ m) :
    ¬ (convention env code).AtCall m := by
  rintro ⟨target, hdecode⟩
  have hfetch : fetch? code (m.pc - env.codeBase).toNat = none := by
    rw [h.1, fetch?]
    refine if_neg ?_
    rw [Outside] at hout
    simp
    omega
  rw [hfetch] at hdecode
  cases hdecode

theorem Returned.released {host : HostState σ} {calls : Nat} (h : Returned env counting m₀ s host calls m)
    (hlr : m.regOrSp lr = m₀.regOrSp lr) : (convention env code).Released m₀ m := by
  refine ⟨h.pc, fun r hr => ?_⟩
  by_cases hsaved : r = lr
  · rw [hsaved, hlr]
  · refine h.saved ?_
    revert r
    decide

/-- An output is a call from which the machine comes back with the registers that are in use. -/
theorem Holds.exists_survives (h : Holds env sink counting m₀ s out m) :
    ∃ z, (semantics env sink).execAll ((dialect last counting env.host).count .output ++
        (dialect last counting env.host).output) m = some z ∧
      Holds env sink counting m₀ (s.pass .output) (out.push s.cell) z ∧
      ∀ a, (convention env code).Survives m (z.goto a) := by
  obtain ⟨y, hy, hcounted, hscratch⟩ := h.exists_count last .output
  obtain ⟨z, hz, hput, hsaved⟩ := hcounted.exists_output last
  refine ⟨z, Semantics.execAll_append hy hz, hput, fun a => ⟨?_, fun r hr => ?_⟩⟩
  · have hbefore : m.calls = m₀.calls + out.size := h.memory.calls
    have hafter : z.calls = m₀.calls + (out.push s.cell).size := hput.memory.calls
    rw [Array.size_push] at hafter
    show z.calls = m.calls + 1
    omega
  · refine (hsaved r hr).trans (hscratch r ?_)
    rintro rfl
    revert hr
    decide

end Machine

open Machine

variable {σ : Type} {env : Environment} {m₀ : Machine σ} {s : Interpreter} {p : Program}

/-- Code that was generated keeps to the calling convention, wherever it is entered and whatever the loop targets of
its program. -/
theorem generate_disciplined {options : CodeOptions} {r : Routine} (hr : generate p options = .ok r)
    (henv : env.Suits options r.code) (sink : Sink σ) {resume : Nat}
    (hresume : r.resumeOffset? s.cursor.ip = some resume) (hlive : s.halted = false)
    (hcapacity : s.tape.capacity = options.capacity)
    (hm : Entered env options.counting s (env.codeBase + UInt64.ofNat resume) m₀) :
    (convention env r.code).Disciplined (next env r.code sink) (stands env) p r.offsets m₀ := by
  obtain ⟨q, hq, herase⟩ := exists_linked_of_generate hr
  rw [← generate_congr herase] at hr
  obtain ⟨last, hsound, hvisible, hcloses, hoffsets, n, y, htrail, hboundary⟩ :=
    exists_backend hq hr henv sink hresume hlive hcapacity hm
  refine (hsound.disciplined hvisible hcloses hoffsets htrail hboundary ?_ ?_ ?_ ?_ ?_ ?_).congr herase
  · intro s out x hx
    exact Framed.sp (Holds.framed hx)
  · intro s out x hx
    obtain ⟨z, hz, hput, hsurvives⟩ := Holds.exists_survives hx
    exact ⟨z, hz, hput, fun k => hsurvives _⟩
  · intro x hx hnext
    exact aligned_of_next hx hnext
  · intro t ht
    exact not_atCall_of_released henv.outside ht
  · intro s out t ht
    exact ht.1.2.released ht.2
  · intro s out index t ht
    exact Returned.released ht.1 ht.2

end TapeLang.A64
