import TapeLang.Proofs.X86.Realization

/-!
# Entering and leaving generated code

The entry opens a frame, takes the arguments and fills the cache (`Machine.exists_binding`). The exit
and the stub write nothing but the tape, and give everything back that the caller keeps
(`Machine.Returned`).
-/

namespace TapeLang.X86

theorem Reg.kept_of_saved {r : Reg} (h : r.callerSaved = false) (hsp : r ≠ .rsp) (hbp : r ≠ .rbp) :
    r.kept = true := by
  cases r with
  | rsp => exact absurd rfl hsp
  | rbp => exact absurd rfl hbp
  | _ => first | rfl | cases h

namespace Machine

variable {σ : Type} {env : Environment} {sink : Sink σ} {counting : Bool} {m₀ m y : Machine σ}
  {s : Interpreter} {out : Array UInt8} {last : Int32}

/-! ### Entering -/

/-- What a routine is called with, to go on from a state of the interpreter at an address. -/
structure Entered (env : Environment) (counting : Bool) (s : Interpreter) (resume : UInt64)
    (m₀ : Machine σ) : Prop where
  rip : m₀.rip = env.codeBase
  base : m₀.reg .rdi = env.tapeBase
  index : m₀.reg .rsi = UInt64.ofNat s.cursor.ptr
  resume : m₀.reg .rdx = resume
  tape : m₀.tape = s.tape
  ptr_lt : s.cursor.ptr < s.tape.capacity
  block (hc : counting = true) :
    m₀.reg .rcx = env.countersBase ∧ m₀.counters = s.counters ∧ s.counters.isSome = true
  top : m₀.liveStack.head? = some (m₀.reg .rsp, env.returnAddress)

/-- The entry without its jump. -/
def binding : List Op :=
  Op.prologue ++ [.mov .r9 .rdx, .mov .r10 .rcx, .mov .rcx .rdi, .mov .rdx .rsi, .loadZero8 .r8 .rcx .rdx]

theorem entry_eq (last : Int32) (counting : Bool) (calls : HostCalls) :
    (dialect last counting calls).entry = binding ++ [.jump .r9] := rfl

variable (env sink) in
theorem framed_prologue (m₀ : Machine σ) :
    ∃ y, (semantics env sink).execAll Op.prologue m₀ = some y ∧ Framed m₀ y ∧ y.memory = m₀.memory ∧
      ∀ r, r ≠ .rsp → r ≠ .rbp → y.reg r = m₀.reg r := by
  have hreg (v : UInt64) {r : Reg} (hsp : r ≠ .rsp) (hbp : r ≠ .rbp) :
      ((m₀.push (m₀.reg .rbp)).setReg .rbp v).reg r = m₀.reg r :=
    (reg_setReg_of_ne _ hbp.symm _).trans (reg_push m₀ _ hsp)
  refine ⟨(m₀.push (m₀.reg .rbp)).setReg .rbp ((m₀.push (m₀.reg .rbp)).reg .rsp), rfl, ?_, rfl, ?_⟩
  · exact
      { rsp := (reg_setReg_of_ne _ (by decide) _).trans (rsp_push m₀ _)
        rbp := (reg_setReg_self _ _ _).trans (rsp_push m₀ _)
        kept := fun {r} hr => hreg _ (by rintro rfl; cases hr) (by rintro rfl; cases hr)
        liveStack := (liveStack_setReg _ (by decide) _).trans (liveStack_push m₀ _) }
  · intro r hsp hbp
    exact hreg _ hsp hbp

variable (env sink) in
/-- The arguments are moved to where the routine keeps them, each before its register is overwritten. -/
theorem exists_moved (a : Machine σ) :
    ∃ c, (semantics env sink).execAll [.mov .r9 .rdx, .mov .r10 .rcx, .mov .rcx .rdi, .mov .rdx .rsi] a = some c ∧
      c.reg .r9 = a.reg .rdx ∧ c.reg .r10 = a.reg .rcx ∧ c.reg .rcx = a.reg .rdi ∧ c.reg .rdx = a.reg .rsi ∧
      (∀ r : Reg, r.callerSaved = false → c.reg r = a.reg r) ∧ c.liveStack = a.liveStack ∧ c.memory = a.memory := by
  let a₁ := a.setReg .r9 (a.reg .rdx)
  let a₂ := a₁.setReg .r10 (a₁.reg .rcx)
  let a₃ := a₂.setReg .rcx (a₂.reg .rdi)
  let c := a₃.setReg .rdx (a₃.reg .rsi)
  have h₁ {r : Reg} (hr : .r9 ≠ r) : a₁.reg r = a.reg r := reg_setReg_of_ne a hr _
  have h₂ {r : Reg} (hr : .r10 ≠ r) : a₂.reg r = a₁.reg r := reg_setReg_of_ne a₁ hr _
  have h₃ {r : Reg} (hr : .rcx ≠ r) : a₃.reg r = a₂.reg r := reg_setReg_of_ne a₂ hr _
  have h₄ {r : Reg} (hr : .rdx ≠ r) : c.reg r = a₃.reg r := reg_setReg_of_ne a₃ hr _
  refine ⟨c, rfl, ?_, ?_, ?_, ?_, ?_, ?_, rfl⟩
  · rw [h₄ (by decide), h₃ (by decide), h₂ (by decide)]
    exact reg_setReg_self a .r9 _
  · rw [h₄ (by decide), h₃ (by decide), ← h₁ (by decide)]
    exact reg_setReg_self a₁ .r10 _
  · rw [h₄ (by decide), ← h₁ (by decide), ← h₂ (by decide)]
    exact reg_setReg_self a₂ .rcx _
  · rw [← h₁ (by decide), ← h₂ (by decide), ← h₃ (by decide)]
    exact reg_setReg_self a₃ .rdx _
  · intro r hr
    rw [h₄ (by rintro rfl; cases hr), h₃ (by rintro rfl; cases hr), h₂ (by rintro rfl; cases hr),
      h₁ (by rintro rfl; cases hr)]
  · exact (liveStack_setReg a₃ (by decide) _).trans ((liveStack_setReg a₂ (by decide) _).trans
      ((liveStack_setReg a₁ (by decide) _).trans (liveStack_setReg a (by decide) _)))

variable (sink) in
/-- Binding the arguments and filling the cache. -/
theorem exists_binding {resume : UInt64} (h : Entered env counting s resume m₀) :
    ∃ y, (semantics env sink).execAll binding m₀ = some y ∧ y.reg .r9 = resume ∧
      Holds env sink counting m₀ s #[] y := by
  obtain ⟨a, ha, hframed, hmemory, hreg⟩ := framed_prologue env sink m₀
  obtain ⟨c, hc, hr9, hr10, hrcx, hrdx, hsaved, hlive, hmoved⟩ := exists_moved env sink a
  rw [hreg .rdx (by decide) (by decide), h.resume] at hr9
  rw [hreg .rcx (by decide) (by decide)] at hr10
  rw [hreg .rdi (by decide) (by decide), h.base] at hrcx
  rw [hreg .rsi (by decide) (by decide), h.index] at hrdx
  replace hmemory : c.memory = m₀.memory := hmoved.trans hmemory
  have hload : c.load8? env (c.reg .rcx + c.reg .rdx) = some s.cell := by
    rw [hrcx, hrdx, load8?, show c.tape = s.tape from (congrArg Memory.tape hmemory).trans h.tape,
      Tape.load_eq env.tapeBase h.ptr_lt]
    rfl
  have hcache : (semantics env sink).execAll [.loadZero8 .r8 .rcx .rdx] c = some (c.setReg .r8 s.cell.toUInt64) := by
    rw [Semantics.execAll, exec_of_straight rfl, executeOp, hload]
    rfl
  have hcached : (c.setReg .r8 s.cell.toUInt64).reg .r8 = s.cell.toUInt64 := reg_setReg_self _ _ _
  refine ⟨c.setReg .r8 s.cell.toUInt64, ?_, ?_, ?_⟩
  · exact Semantics.execAll_append ha (Semantics.execAll_append hc hcache)
  · rw [reg_setReg_of_ne _ (by decide), hr9]
  · exact
      { base := (reg_setReg_of_ne _ (by decide) _).trans hrcx
        index := (reg_setReg_of_ne _ (by decide) _).trans hrdx
        cached := by rw [hcached, UInt8.toUInt8_toUInt64]
        block := fun hc => (reg_setReg_of_ne _ (by decide) _).trans (hr10.trans (h.block hc).1)
        memory := by
          show Memory.Caches sink counting m₀.memory s #[] c.memory
          rw [hmemory]
          exact .initial h.tape h.ptr_lt fun hc => (h.block hc).2
        framed := hframed.congr
          (fun r hr => (reg_setReg_of_ne _ (by rintro rfl; cases hr) _).trans (hsaved r hr))
          ((liveStack_setReg c (by decide) _).trans hlive) }

/-! ### Leaving -/

/-- What the caller finds when the routine has returned. -/
structure Returned (env : Environment) (counting : Bool) (m₀ : Machine σ) (s : Interpreter)
    (host : HostState σ) (calls : Nat) (m : Machine σ) : Prop where
  rip : m.rip = env.returnAddress
  rsp : m.reg .rsp = m₀.reg .rsp + 8
  saved {r : Reg} (h : r.callerSaved = false) (hsp : r ≠ .rsp) : m.reg r = m₀.reg r
  stack : m.stack = m₀.liveStack.tail
  memory : Memory.Stores counting m₀.memory s host calls m.memory

/-- The routine has returned at the end of the program, with the final index. -/
def Exited (env : Environment) (sink : Sink σ) (counting : Bool) (m₀ : Machine σ) (s : Interpreter)
    (out : Array UInt8) (m : Machine σ) : Prop :=
  m.reg .rax = UInt64.ofNat s.cursor.ptr ∧
    Returned env counting m₀ s (m₀.host.putAll sink out.toList) (m₀.calls + out.size) m

/-- The routine has returned after reporting the index of a move that failed. -/
def Reported (env : Environment) (sink : Sink σ) (counting : Bool) (m₀ : Machine σ) (s : Interpreter)
    (out : Array UInt8) (index : UInt64) (m : Machine σ) : Prop :=
  Returned env counting m₀ s ((m₀.host.putAll sink out.toList).record (.outOfBounds index))
    (m₀.calls + out.size + 1) m

variable (env sink) in
/-- Dropping the frame of the routine. -/
theorem Framed.exists_close (h : Framed m₀ m) :
    ∃ y, (semantics env sink).execAll Op.closeCall m = some y ∧
      (∀ r, r ≠ .rsp → r ≠ .rbp → y.reg r = m.reg r) ∧ y.reg .rsp = m₀.reg .rsp ∧ y.reg .rbp = m₀.reg .rbp ∧
      y.liveStack = m₀.liveStack ∧ y.memory = m.memory := by
  refine exists_closeCall env sink (m := m₀) h.rbp ?_
  have hsame : (m.setReg .rsp (m.reg .rbp)).liveStack = m.liveStack := by
    show m.stack.dropWhile (·.1 < (m.setReg .rsp (m.reg .rbp)).reg .rsp) = m.stack.dropWhile (·.1 < m.reg .rsp)
    rw [reg_setReg_self, h.rbp, h.rsp]
  rw [hsame, h.liveStack]

variable (env sink) in
/-- Dropping the frame leaves the return address on top, and returning takes it off. -/
theorem Stored.exists_return {host : HostState σ} {calls : Nat} (h : Stored counting m₀ s host calls m)
    (htop : m₀.liveStack.head? = some (m₀.reg .rsp, env.returnAddress)) :
    ∃ y, (semantics env sink).execAll Op.closeCall m = some y ∧ y.reg .rax = m.reg .rax ∧
      ∀ a, ∃ t, (y.goto a).executeOp env sink .ret = some t ∧ t.reg .rax = m.reg .rax ∧
        Returned env counting m₀ s host calls t := by
  obtain ⟨y, hy, hreg, hrsp, hrbp, hlive, hmemory⟩ := h.framed.exists_close env sink
  obtain ⟨rest, hrest⟩ : ∃ rest, m₀.liveStack = (m₀.reg .rsp, env.returnAddress) :: rest := by
    cases hl : m₀.liveStack with
    | nil => rw [hl] at htop; cases htop
    | cons w rest =>
      rw [hl] at htop
      cases htop
      exact ⟨rest, rfl⟩
  have hrax : y.reg .rax = m.reg .rax := hreg .rax (by decide) (by decide)
  refine ⟨y, hy, hrax, fun a => ?_⟩
  have hpop : (y.goto a).pop? = some (env.returnAddress, (y.goto a).dropTop rest) := by
    refine pop_eq_some ?_
    show y.liveStack = (y.reg .rsp, env.returnAddress) :: rest
    rw [hlive, hrsp, hrest]
  refine ⟨((y.goto a).dropTop rest).goto env.returnAddress, ?_, ?_, ?_⟩
  · rw [executeOp, hpop]
    rfl
  · exact ((y.goto a).reg_dropTop rest (by decide)).trans hrax
  · exact
      { rip := rfl
        rsp := ((y.goto a).rsp_dropTop rest).trans (congrArg (· + 8) hrsp)
        saved := by
          intro r hr hsp
          refine ((y.goto a).reg_dropTop rest hsp).trans ?_
          by_cases hbp : r = .rbp
          · rw [hbp]
            exact hrbp
          · exact (hreg r hsp hbp).trans (h.framed.kept (Reg.kept_of_saved hr hsp hbp))
        stack := by
          rw [hrest]
          rfl
        memory := by
          show Memory.Stores counting m₀.memory s host calls y.memory
          rw [hmemory]
          exact h.memory }

/-- The exit without its return. -/
def leaving : List Op := [.store8 .rcx .rdx (.low .r8), .mov .rax .rdx] ++ Op.closeCall

theorem exit_eq (last : Int32) (counting : Bool) (calls : HostCalls) :
    (dialect last counting calls).exit = leaving ++ [.ret] := rfl

theorem Holds.exists_exit (h : Holds env sink counting m₀ s out m)
    (htop : m₀.liveStack.head? = some (m₀.reg .rsp, env.returnAddress)) :
    ∃ y, (semantics env sink).execAll leaving m = some y ∧
      ∀ a, ∃ t, (y.goto a).executeOp env sink .ret = some t ∧ Exited env sink counting m₀ s out t := by
  let b := Machine.setReg { m with tape := s.tape } .rax (m.reg .rdx)
  have hstored := h.stored (y := b) (fun r hr => reg_setReg_of_ne _ (by rintro rfl; cases hr) _)
    (liveStack_setReg _ (by decide) _) rfl
  obtain ⟨y, hy, _, hret⟩ := hstored.exists_return env sink htop
  refine ⟨y, ?_, fun a => ?_⟩
  · refine Semantics.execAll_append (y := b) ?_ hy
    rw [Semantics.execAll, h.store]
    rfl
  · obtain ⟨t, ht, hrax, hreturned⟩ := hret a
    refine ⟨t, ht, ?_, hreturned⟩
    rw [hrax, ← h.index]
    exact reg_setReg_self _ _ _

/-- The stub without its return. -/
def reporting (calls : HostCalls) : List Op :=
  [.mov .rdi .rdx] ++ (Op.openCall ++ Op.callAddress calls.outOfBounds ++ Op.closeCall) ++ Op.closeCall

theorem fault_eq (last : Int32) (counting : Bool) (calls : HostCalls) :
    (dialect last counting calls).fault = reporting calls ++ [.ret] := rfl

/-- The stub reports the index of the move that failed. -/
theorem Faulted.exists_report {index : UInt64} (h : Faulted sink counting m₀ s out index m)
    (hcalls : env.host.putByte ≠ env.host.outOfBounds)
    (htop : m₀.liveStack.head? = some (m₀.reg .rsp, env.returnAddress)) :
    ∃ y, (semantics env sink).execAll (reporting env.host) m = some y ∧
      ∀ a, ∃ t, (y.goto a).executeOp env sink .ret = some t ∧ Reported env sink counting m₀ s out index t := by
  let b := m.setReg .rdi (m.reg .rdx)
  have harg : b.reg .rdi = index := (reg_setReg_self _ _ _).trans h.index
  have hcall : b.host.call? env.host sink env.host.outOfBounds (b.reg .rdi) =
      some ((m₀.host.putAll sink out.toList).record (.outOfBounds index)) := by
    rw [HostState.call_outOfBounds hcalls, harg, show b.host = _ from h.memory.host]
  obtain ⟨c, hc, hcalled⟩ := exists_hostCall hcall
  have hstored : Stored counting m₀ s ((m₀.host.putAll sink out.toList).record (.outOfBounds index))
      (m₀.calls + out.size + 1) c :=
    { memory := by
        rw [hcalled.memory]
        exact ⟨h.memory.tape, h.memory.counters, rfl, congrArg (· + 1) h.memory.calls⟩
      framed := h.framed.congr
        (fun r hr => (hcalled.reg hr).trans (reg_setReg_of_ne m (by rintro rfl; cases hr) _))
        (hcalled.liveStack.trans (liveStack_setReg m (by decide) _)) }
  obtain ⟨y, hy, _, hret⟩ := hstored.exists_return env sink htop
  refine ⟨y, ?_, fun a => ?_⟩
  · exact Semantics.execAll_append (Semantics.execAll_append (y := b) rfl hc) hy
  · obtain ⟨t, ht, _, hreturned⟩ := hret a
    exact ⟨t, ht, hreturned⟩

end Machine

end TapeLang.X86
