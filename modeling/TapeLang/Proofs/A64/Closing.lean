import TapeLang.Proofs.A64.Realization

/-!
# Entering and leaving generated code

The entry opens a frame, takes the arguments and fills the cache (`Machine.exists_binding`). The exit
and the stub write nothing but the tape, and give everything back that the caller keeps
(`Machine.Returned`).
-/

namespace TapeLang.A64

namespace Machine

variable {σ : Type} {env : Environment} {sink : Sink σ} {counting : Bool} {m₀ m y : Machine σ}
  {s : Interpreter} {out : Array UInt8} {last : Nat}

/-! ### Entering -/

/-- What a routine is called with, to go on from a state of the interpreter at an address. -/
structure Entered (env : Environment) (counting : Bool) (s : Interpreter) (resume : UInt64)
    (m₀ : Machine σ) : Prop where
  pc : m₀.pc = env.codeBase
  base : m₀.regOrSp 0 = env.tapeBase
  index : m₀.regOrSp 1 = UInt64.ofNat s.cursor.ptr
  resume : m₀.regOrSp 2 = resume
  tape : m₀.tape = s.tape
  ptr_lt : s.cursor.ptr < s.tape.capacity
  block (hc : counting = true) :
    m₀.regOrSp 3 = env.countersBase ∧ m₀.counters = s.counters ∧ s.counters.isSome = true
  returns : m₀.regOrSp lr = env.returnAddress
  aligned : m₀.regOrSp sp % 16 = 0
  /-- The stack has room for the frame, and for the registers saved around a call. -/
  room : 48 ≤ (m₀.regOrSp sp).toNat

/-- The entry without its jump. -/
def binding : List Op := Op.prologue ++ [.mov 9 0, .mov 10 1, .mov 12 3, .loadByte 11 9 10]

theorem entry_eq (last : Nat) (counting : Bool) (calls : HostCalls) :
    (dialect last counting calls).entry = binding ++ [.jump 2] := rfl

variable (env sink) in
theorem exists_prologue (haligned : m₀.regOrSp sp % 16 = 0) (hroom : 48 ≤ (m₀.regOrSp sp).toNat) :
    ∃ y, (semantics env sink).execAll Op.prologue m₀ = some y ∧ Framed m₀ y ∧ y.memory = m₀.memory ∧
      ∀ r, r ≠ sp → r ≠ fp → y.regOrSp r = m₀.regOrSp r := by
  let a := (m₀.storePair (m₀.regOrSp sp - 16) (m₀.regOrSp fp) (m₀.regOrSp lr)).setRegOrSp sp (m₀.regOrSp sp - 16)
  have hfirst : (semantics env sink).exec (.storePairPre fp lr sp (BitVec.ofInt 7 (-2))) m₀ = some a :=
    exec_storePairPre haligned (by decide) (by decide) 16 (by decide)
  have hsp : a.regOrSp sp = m₀.regOrSp sp - 16 := regOrSp_setRegOrSp_self _ _ _
  have hframe : a.regOrSp sp + UInt64.ofNat (0 : BitVec 12).toNat = m₀.regOrSp sp - 16 := by
    rw [hsp]
    exact UInt64.add_zero _
  have hreg (r : Reg) (hrsp : r ≠ sp) (hrfp : r ≠ fp) :
      (a.setRegOrSp fp (m₀.regOrSp sp - 16)).regOrSp r = m₀.regOrSp r :=
    (regOrSp_setRegOrSp_of_ne a hrfp.symm _).trans (regOrSp_setRegOrSp_of_ne _ hrsp.symm _)
  have hstack (x : UInt64) : a.stack x = if x = m₀.regOrSp sp - 16 then some (m₀.regOrSp fp)
      else if x = m₀.regOrSp sp - 8 then some (m₀.regOrSp lr) else m₀.stack x := by
    rw [show a.stack x = _ from stack_storePair m₀ _ _ _ x, show m₀.regOrSp sp - 16 + 8 = m₀.regOrSp sp - 8 by grind]
  refine ⟨a.setRegOrSp fp (m₀.regOrSp sp - 16), ?_, ?_, rfl, hreg⟩
  · unfold Op.prologue
    rw [Semantics.execAll, hfirst, Option.bind_some, Semantics.execAll, exec_of_straight rfl, executeOp, hframe]
    rfl
  · refine ⟨haligned, hroom, ?_, regOrSp_setRegOrSp_self _ _ _, ?_, ?_, ?_, ?_⟩
    · rw [regOrSp_setRegOrSp_of_ne _ (by decide), hsp]
    · intro r hr
      exact hreg r (by rintro rfl; cases hr) (by rintro rfl; cases hr)
    · show a.stack _ = _
      rw [hstack, if_pos rfl]
    · show a.stack _ = _
      have hne : m₀.regOrSp sp - 8 ≠ m₀.regOrSp sp - 16 := by grind
      rw [hstack, if_neg hne, if_pos rfl]
    · intro x hx
      show a.stack x = _
      have h₈ : x ≠ m₀.regOrSp sp - 8 := ne_sub_of_not_lt hx (n := 8) (by decide) (by omega)
      have h₁₆ : x ≠ m₀.regOrSp sp - 16 := ne_sub_of_not_lt hx (n := 16) (by decide) (by omega)
      rw [hstack, if_neg h₁₆, if_neg h₈]

variable (env sink) in
/-- The arguments are moved to where the routine keeps them. -/
theorem exists_moved (a : Machine σ) :
    ∃ b, (semantics env sink).execAll [.mov 9 0, .mov 10 1, .mov 12 3] a = some b ∧
      (∀ r, b.regOrSp r = if 12 = r then a.regOrSp 3 else if 10 = r then a.regOrSp 1
        else if 9 = r then a.regOrSp 0 else a.regOrSp r) ∧ b.stack = a.stack ∧ b.memory = a.memory := by
  let a₁ := a.setRegOrSp 9 (a.regOrSp 0)
  let a₂ := a₁.setRegOrSp 10 (a₁.regOrSp 1)
  let b := a₂.setRegOrSp 12 (a₂.regOrSp 3)
  refine ⟨b, rfl, fun r => ?_, rfl, rfl⟩
  have h₁ : a₁.regOrSp 1 = a.regOrSp 1 := regOrSp_setRegOrSp_of_ne a (by decide) _
  have h₃ : a₁.regOrSp 3 = a.regOrSp 3 := regOrSp_setRegOrSp_of_ne a (by decide) _
  have h₃' : a₂.regOrSp 3 = a₁.regOrSp 3 := regOrSp_setRegOrSp_of_ne a₁ (by decide) _
  rw [show b.regOrSp r = _ from regOrSp_setRegOrSp a₂ 12 r _, h₃', h₃,
    show a₂.regOrSp r = _ from regOrSp_setRegOrSp a₁ 10 r _, h₁,
    show a₁.regOrSp r = _ from regOrSp_setRegOrSp a 9 r _]

variable (sink) in
/-- Binding the arguments and filling the cache. -/
theorem exists_binding {resume : UInt64} (h : Entered env counting s resume m₀) :
    ∃ y, (semantics env sink).execAll binding m₀ = some y ∧ y.regOrSp 2 = resume ∧
      Holds env sink counting m₀ s #[] y := by
  obtain ⟨a, ha, hframed, hmemory, hreg⟩ := exists_prologue env sink h.aligned h.room
  have harg (r : Reg) (hr : r.val < 9) : a.regOrSp r = m₀.regOrSp r :=
    hreg r (by rintro rfl; exact absurd hr (by decide)) (by rintro rfl; exact absurd hr (by decide))
  obtain ⟨b, hb, hregb, hstack, hmoved⟩ := exists_moved env sink a
  replace hmemory : b.memory = m₀.memory := hmoved.trans hmemory
  have hbase : b.regOrSp 9 = env.tapeBase := by
    rw [hregb, ← h.base, ← harg 0 (by decide)]
    rfl
  have hindex : b.regOrSp 10 = UInt64.ofNat s.cursor.ptr := by
    rw [hregb, ← h.index, ← harg 1 (by decide)]
    rfl
  have hblock : b.regOrSp 12 = m₀.regOrSp 3 := by
    rw [hregb, ← harg 3 (by decide)]
    rfl
  have hresume : b.regOrSp 2 = resume := by
    rw [hregb, ← h.resume, ← harg 2 (by decide)]
    rfl
  have hload : b.load8? env (b.regOrSp 9 + b.reg 10) = some s.cell := by
    rw [reg_of_ne b (by decide), hbase, hindex, load8?,
      show b.tape = s.tape from (congrArg Memory.tape hmemory).trans h.tape, Tape.load_eq env.tapeBase h.ptr_lt]
    rfl
  have hcache : (semantics env sink).execAll [.loadByte 11 9 10] b = some (b.setRegOrSp 11 s.cell.toUInt64) := by
    rw [Semantics.execAll, exec_of_straight rfl, executeOp, hload]
    rfl
  have hother {r : Reg} (hr : (11 : Reg) ≠ r) : (b.setRegOrSp 11 s.cell.toUInt64).regOrSp r = b.regOrSp r :=
    regOrSp_setRegOrSp_of_ne b hr _
  refine ⟨b.setRegOrSp 11 s.cell.toUInt64, ?_, (hother (by decide)).trans hresume, ?_⟩
  · exact Semantics.execAll_append ha (Semantics.execAll_append hb hcache)
  · refine ⟨(hother (by decide)).trans hbase, (hother (by decide)).trans hindex, regOrSp_setRegOrSp_self b 11 _,
      fun hc => (hother (by decide)).trans (hblock.trans (h.block hc).1), ?_, ?_⟩
    · show Memory.Caches sink counting m₀.memory s #[] b.memory
      rw [hmemory]
      exact .initial h.tape h.ptr_lt fun hc => (h.block hc).2
    · apply hframed.congr
      · intro r hr
        rw [hother (by rintro rfl; cases hr), hregb, if_neg, if_neg, if_neg] <;> rintro rfl <;> cases hr
      · exact fun x _ => congrFun hstack x

/-! ### Leaving -/

/-- What the caller finds when the routine has returned. -/
structure Returned (env : Environment) (counting : Bool) (m₀ : Machine σ) (s : Interpreter)
    (host : HostState σ) (calls : Nat) (m : Machine σ) : Prop where
  pc : m.pc = env.returnAddress
  saved {r : Reg} (h : r.callerSaved = false) : m.regOrSp r = m₀.regOrSp r
  stack : SameStack m₀ m (m₀.regOrSp sp)
  memory : Memory.Stores counting m₀.memory s host calls m.memory

/-- The routine has returned at the end of the program, with the final index. -/
def Exited (env : Environment) (sink : Sink σ) (counting : Bool) (m₀ : Machine σ) (s : Interpreter)
    (out : Array UInt8) (m : Machine σ) : Prop :=
  m.regOrSp 0 = UInt64.ofNat s.cursor.ptr ∧
    Returned env counting m₀ s (m₀.host.putAll sink out.toList) (m₀.calls + out.size) m

/-- The routine has returned after reporting the index of a move that failed. -/
def Reported (env : Environment) (sink : Sink σ) (counting : Bool) (m₀ : Machine σ) (s : Interpreter)
    (out : Array UInt8) (index : UInt64) (m : Machine σ) : Prop :=
  Returned env counting m₀ s ((m₀.host.putAll sink out.toList).record (.outOfBounds index))
    (m₀.calls + out.size + 1) m

/-- The end of the frame without the return. -/
def unwinding : List Op := [.addImm sp fp 0, .loadPairPost fp lr sp 2]

variable (env sink) in
/-- Dropping the frame leaves the return address in the link register, and returning goes there. -/
theorem Stored.exists_return {host : HostState σ} {calls : Nat} (h : Stored counting m₀ s host calls m)
    (hlr : m₀.regOrSp lr = env.returnAddress) :
    ∃ y, (semantics env sink).execAll unwinding m = some y ∧ y.regOrSp 0 = m.regOrSp 0 ∧
      ∀ a, ∃ t, (y.goto a).executeOp env sink .ret = some t ∧ t.regOrSp 0 = m.regOrSp 0 ∧
        Returned env counting m₀ s host calls t := by
  have hframe : m.regOrSp fp + UInt64.ofNat (0 : BitVec 12).toNat = m.regOrSp sp := by
    rw [h.framed.fp, h.framed.sp]
    exact UInt64.add_zero _
  have hself (r : Reg) : (m.setRegOrSp sp (m.regOrSp sp)).regOrSp r = m.regOrSp r := by
    rw [regOrSp_setRegOrSp]
    split
    · rename_i heq
      rw [heq]
    · rfl
  have hunwind : m.regOrSp sp + 16 = m₀.regOrSp sp := by rw [h.framed.sp, UInt64.sub_add_cancel]
  have hfirst : (semantics env sink).exec (.addImm sp fp 0) m = some (m.setRegOrSp sp (m.regOrSp sp)) := by
    rw [exec_of_straight rfl, executeOp, hframe]
  let y := (((m.setRegOrSp sp (m.regOrSp sp)).setRegOrSp fp (m₀.regOrSp fp)).setRegOrSp lr (m₀.regOrSp lr)).setRegOrSp
    sp (m₀.regOrSp sp)
  have hsecond : (semantics env sink).exec (.loadPairPost fp lr sp 2) (m.setRegOrSp sp (m.regOrSp sp)) = some y := by
    have haligned := h.framed.aligned_sp
    rw [← hself sp] at haligned
    rw [exec_loadPairPost haligned (by decide) (by decide) 16 (by decide) (v := m₀.regOrSp fp) (w := m₀.regOrSp lr),
      hself]
    · show some (Machine.setRegOrSp _ sp (m.regOrSp sp + 16)) = _
      rw [hunwind]
    · rw [hself, h.framed.sp]
      exact h.framed.savedFp
    · rw [hself, h.framed.sp, show m₀.regOrSp sp - 16 + 8 = m₀.regOrSp sp - 8 by grind]
      exact h.framed.savedLr
  have hreg (r : Reg) : y.regOrSp r = if sp = r then m₀.regOrSp sp else if lr = r then m₀.regOrSp lr
      else if fp = r then m₀.regOrSp fp else m.regOrSp r := by
    simp only [y, regOrSp_setRegOrSp]
    split
    · rfl
    · rfl
  refine ⟨y, ?_, hreg 0, fun a => ⟨(y.goto a).goto (y.regOrSp lr), rfl, hreg 0, ?_⟩⟩
  · unfold unwinding
    rw [Semantics.execAll, hfirst, Option.bind_some, Semantics.execAll, hsecond]
    rfl
  · refine ⟨(hreg lr).trans hlr, ?_, h.framed.above, h.memory⟩
    intro r hr
    show y.regOrSp r = _
    rw [hreg]
    rcases Reg.saved_cases hr with hkept | rfl | rfl
    · rw [if_neg (by rintro rfl; cases hkept), if_neg (by rintro rfl; cases hkept), if_neg (by rintro rfl; cases hkept)]
      exact h.framed.kept hkept
    · rfl
    · rfl

/-- The exit without its return. -/
def leaving : List Op := [.storeByte 11 9 10, .mov 0 10] ++ unwinding

theorem exit_eq (last : Nat) (counting : Bool) (calls : HostCalls) :
    (dialect last counting calls).exit = leaving ++ [.ret] := rfl

theorem Holds.exists_exit (h : Holds env sink counting m₀ s out m) (hlr : m₀.regOrSp lr = env.returnAddress) :
    ∃ y, (semantics env sink).execAll leaving m = some y ∧
      ∀ a, ∃ t, (y.goto a).executeOp env sink .ret = some t ∧ Exited env sink counting m₀ s out t := by
  let b := Machine.setRegOrSp { m with tape := s.tape } 0 (m.regOrSp 10)
  have hstored := h.stored (y := b)
    (fun r hr => regOrSp_setRegOrSp_of_ne { m with tape := s.tape } (by rintro rfl; cases hr) _) rfl rfl
  obtain ⟨y, hy, _, hret⟩ := hstored.exists_return env sink hlr
  refine ⟨y, ?_, fun a => ?_⟩
  · refine Semantics.execAll_append (y := b) ?_ hy
    rw [Semantics.execAll, h.store]
    rfl
  · obtain ⟨t, ht, hx0, hreturned⟩ := hret a
    refine ⟨t, ht, ?_, hreturned⟩
    rw [hx0, ← h.index]
    exact regOrSp_setRegOrSp_self _ _ _

/-- The stub without its return. -/
def reporting (calls : HostCalls) : List Op :=
  [.mov 0 10] ++ (Op.loadWord 16 calls.outOfBounds ++ [.call 16]) ++ unwinding

theorem fault_eq (last : Nat) (counting : Bool) (calls : HostCalls) :
    (dialect last counting calls).fault = reporting calls ++ [.ret] := by
  simp [dialect, reporting, unwinding, Op.epilogue]

/-- The stub reports the index of the move that failed. -/
theorem Faulted.exists_report {index : UInt64} (h : Faulted sink counting m₀ s out index m)
    (hcalls : env.host.putByte ≠ env.host.outOfBounds) (hlr : m₀.regOrSp lr = env.returnAddress) :
    ∃ y, (semantics env sink).execAll (reporting env.host) m = some y ∧
      ∀ a, ∃ t, (y.goto a).executeOp env sink .ret = some t ∧ Reported env sink counting m₀ s out index t := by
  let b := m.setRegOrSp 0 (m.regOrSp 10)
  have hother {r : Reg} (hr : (0 : Reg) ≠ r) : b.regOrSp r = m.regOrSp r := regOrSp_setRegOrSp_of_ne m hr _
  have haligned : b.regOrSp sp % 16 = 0 := by rw [hother (by decide), h.framed.aligned_sp]
  have hcall : b.host.call? env.host sink env.host.outOfBounds (b.regOrSp 0) =
      some ((m₀.host.putAll sink out.toList).record (.outOfBounds index)) := by
    rw [HostState.call_outOfBounds hcalls, regOrSp_setRegOrSp_self, h.index, show b.host = _ from h.memory.host]
  obtain ⟨c, hc, hcalled⟩ := exists_hostCall haligned hcall
  have hstored : Stored counting m₀ s ((m₀.host.putAll sink out.toList).record (.outOfBounds index))
      (m₀.calls + out.size + 1) c := by
    constructor
    · rw [hcalled.memory]
      exact ⟨h.memory.tape, h.memory.counters, rfl, congrArg (· + 1) h.memory.calls⟩
    · have hstack := hcalled.stack
      rw [hother (by decide)] at hstack
      exact h.framed.congr (fun r hr => (hcalled.reg hr).trans (hother (by rintro rfl; cases hr))) hstack
  obtain ⟨y, hy, _, hret⟩ := hstored.exists_return env sink hlr
  refine ⟨y, ?_, fun a => ?_⟩
  · exact Semantics.execAll_append (Semantics.execAll_append (y := b) rfl hc) hy
  · obtain ⟨t, ht, _, hreturned⟩ := hret a
    exact ⟨t, ht, hreturned⟩

end Machine

end TapeLang.A64
