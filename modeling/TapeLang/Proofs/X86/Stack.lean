import Mathlib.Data.List.DropRight
import TapeLang.Proofs.Code.Cached
import TapeLang.Proofs.X86.Machine

/-!
# Registers, the stack and host calls

What a caller can rely on: pushed registers are popped unchanged around any code that leaves the
stack as it was (`Machine.execAll_pops`), and a call to a host function in its own aligned frame keeps
the registers that a callee has to save and everything on the stack (`Machine.exists_hostCall`).
-/

namespace TapeLang.X86

namespace Machine

variable {σ : Type} {env : Environment} {sink : Sink σ}

/-! ### Registers -/

theorem reg_setReg (m : Machine σ) (r s : Reg) (v : UInt64) :
    (m.setReg r v).reg s = if r = s then v else m.reg s :=
  m.registers.get_set r s v

@[simp] theorem reg_setReg_self (m : Machine σ) (r : Reg) (v : UInt64) : (m.setReg r v).reg r = v := by
  rw [reg_setReg, if_pos rfl]

theorem reg_setReg_of_ne (m : Machine σ) {r s : Reg} (h : r ≠ s) (v : UInt64) :
    (m.setReg r v).reg s = m.reg s := by
  rw [reg_setReg, if_neg h]

theorem get_afterCall (saved left : Registers) (r : Reg) :
    (afterCall saved left).get r = if r.callerSaved then left.get r else saved.get r := by
  show (Vector.ofFn _)[(r.index : Nat)] = _
  rw [Vector.getElem_ofFn, Fin.eta, Reg.ofIndex_index]
  rfl

@[simp] theorem byte_low (m : Machine σ) (r : Reg) : m.byte (.low r) = (m.reg r).toUInt8 := rfl

/-- The low byte of a register whose low byte was assigned. -/
theorem toUInt8_reg_setByte (m : Machine σ) (r : Reg) (b : UInt8) :
    ((m.setByte (.low r) b).reg r).toUInt8 = b := by
  show ((m.setReg r (m.reg r - m.reg r % 256 + b.toUInt64)).reg r).toUInt8 = b
  rw [reg_setReg_self]
  apply UInt8.toNat_inj.1
  have hlt := (m.reg r).toNat_lt
  have hb := b.toNat_lt
  have hmod : (m.reg r % 256).toNat = (m.reg r).toNat % 256 := UInt64.toNat_mod ..
  have hle : m.reg r % 256 ≤ m.reg r := UInt64.le_iff_toNat_le.2 (by rw [hmod]; exact Nat.mod_le _ _)
  rw [UInt64.toNat_toUInt8, UInt64.toNat_add, UInt64.toNat_sub_of_le _ _ hle, hmod, UInt8.toNat_toUInt64]
  omega

/-! ### The stack -/

theorem dropWhile_liveStack (m : Machine σ) : m.liveStack.dropWhile (·.1 < m.reg .rsp) = m.liveStack :=
  List.dropWhile_idempotent _ _

theorem liveStack_setReg (m : Machine σ) {r : Reg} (h : r ≠ .rsp) (v : UInt64) :
    (m.setReg r v).liveStack = m.liveStack := by
  rw [liveStack, liveStack, reg_setReg_of_ne m h]
  rfl

theorem rsp_push (m : Machine σ) (v : UInt64) : (m.push v).reg .rsp = m.reg .rsp - 8 :=
  m.reg_setReg_self .rsp _

theorem reg_push (m : Machine σ) (v : UInt64) {r : Reg} (h : r ≠ .rsp) : (m.push v).reg r = m.reg r :=
  m.reg_setReg_of_ne h.symm _

theorem liveStack_push (m : Machine σ) (v : UInt64) :
    (m.push v).liveStack = (m.reg .rsp - 8, v) :: m.liveStack := by
  rw [liveStack, rsp_push]
  refine List.dropWhile_cons_of_neg ?_
  simp [UInt64.lt_irrefl]

/-- The machine with the top of its stack taken off. -/
def dropTop (m : Machine σ) (rest : List (UInt64 × UInt64)) : Machine σ :=
  { m.setReg .rsp (m.reg .rsp + 8) with stack := rest }

theorem pop_eq_some {m : Machine σ} {v : UInt64} {rest : List (UInt64 × UInt64)}
    (h : m.liveStack = (m.reg .rsp, v) :: rest) : m.pop? = some (v, m.dropTop rest) := by
  rw [pop?, h]
  simp only [if_true]
  rfl

theorem rsp_dropTop (m : Machine σ) (rest : List (UInt64 × UInt64)) :
    (m.dropTop rest).reg .rsp = m.reg .rsp + 8 :=
  m.reg_setReg_self .rsp _

theorem reg_dropTop (m : Machine σ) (rest : List (UInt64 × UInt64)) {r : Reg} (h : r ≠ .rsp) :
    (m.dropTop rest).reg r = m.reg r :=
  m.reg_setReg_of_ne h.symm _

/-- Taking off what was pushed on `m` leaves the stack of `m`. -/
theorem liveStack_dropTop {m y : Machine σ} (h : y.reg .rsp = m.reg .rsp - 8) :
    (y.dropTop m.liveStack).liveStack = m.liveStack := by
  rw [liveStack, rsp_dropTop, h, UInt64.sub_add_cancel]
  exact m.dropWhile_liveStack

/-! ### Saving registers -/

/-- Memory apart from the stack, and what the host has done. -/
def memory (m : Machine σ) : Memory σ := ⟨m.tape, m.counters, m.host, m.calls⟩

/-- The machine with registers pushed one after another. -/
def pushAll (m : Machine σ) : List Reg → Machine σ
  | [] => m
  | r :: rs => (m.push (m.reg r)).pushAll rs

theorem memory_pushAll (m : Machine σ) (rs : List Reg) : (m.pushAll rs).memory = m.memory := by
  induction rs generalizing m with
  | nil => rfl
  | cons r rs ih => exact ih (m.push (m.reg r))

theorem reg_pushAll (m : Machine σ) (rs : List Reg) {r : Reg} (h : r ≠ .rsp) :
    (m.pushAll rs).reg r = m.reg r := by
  induction rs generalizing m with
  | nil => rfl
  | cons s rs ih => rw [pushAll, ih, reg_push m _ h]

theorem execAll_pushes (m : Machine σ) (rs : List Reg) :
    (semantics env sink).execAll (rs.map .push) m = some (m.pushAll rs) := by
  induction rs generalizing m with
  | nil => rfl
  | cons r rs ih =>
    rw [List.map_cons, Semantics.execAll, exec_of_straight rfl]
    exact ih (m.push (m.reg r))

/-- Popping `rs` from `y` gives their contents in `m` back. -/
structure Restored (m y : Machine σ) (rs : List Reg) (z : Machine σ) : Prop where
  saved {r : Reg} (h : r ∈ rs) : z.reg r = m.reg r
  other {r : Reg} (h : r ∉ rs) (hsp : r ≠ .rsp) : z.reg r = y.reg r
  rsp : z.reg .rsp = m.reg .rsp
  liveStack : z.liveStack = m.liveStack
  memory : z.memory = y.memory

variable (env sink) in
theorem execAll_pops {m y : Machine σ} {rs : List Reg} (hrs : Reg.rsp ∉ rs)
    (hstack : y.liveStack = (m.pushAll rs).liveStack) (hrsp : y.reg .rsp = (m.pushAll rs).reg .rsp) :
    ∃ z, (semantics env sink).execAll (rs.reverse.map .pop) y = some z ∧ Restored m y rs z := by
  induction rs generalizing m with
  | nil => exact ⟨y, rfl, by simp, fun _ _ => rfl, hrsp, hstack, rfl⟩
  | cons r rs ih =>
    have hr : r ≠ .rsp := fun h => hrs (by simp [h])
    obtain ⟨z, hz, hres⟩ := ih (fun h => hrs (by simp [h])) hstack hrsp
    have hsp : z.reg .rsp = m.reg .rsp - 8 := hres.rsp.trans (m.rsp_push _)
    have hlive : z.liveStack = (z.reg .rsp, m.reg r) :: m.liveStack := by
      rw [hres.liveStack, liveStack_push, hsp]
    have hpop : (semantics env sink).execAll [.pop r] z = some ((z.dropTop m.liveStack).setReg r (m.reg r)) := by
      rw [Semantics.execAll, exec_of_straight rfl, executeOp, pop_eq_some hlive]
      rfl
    refine ⟨(z.dropTop m.liveStack).setReg r (m.reg r), ?_, ?_⟩
    · rw [List.reverse_cons, List.map_append]
      exact Semantics.execAll_append hz hpop
    refine
      { saved := ?_
        other := ?_
        rsp := ?_
        liveStack := ?_
        memory := hres.memory }
    · intro s hs
      rw [reg_setReg]
      split
      · rename_i heq
        rw [heq]
      · rename_i hne
        have hs : s ∈ rs := (List.mem_cons.1 hs).resolve_left (Ne.symm hne)
        have hsp' : s ≠ .rsp := fun h => hrs (by simp [← h, hs])
        rw [reg_dropTop _ _ hsp', hres.saved hs, reg_push m _ hsp']
    · intro s hs hsp'
      rw [List.mem_cons, not_or] at hs
      rw [reg_setReg_of_ne _ (Ne.symm hs.1), reg_dropTop _ _ hsp', hres.other hs.2 hsp']
    · rw [reg_setReg_of_ne _ hr, rsp_dropTop, hsp, UInt64.sub_add_cancel]
    · rw [liveStack_setReg _ hr, liveStack_dropTop hsp]

/-! ### Calling host functions -/

/-- What a call of a host function leaves: the registers that the callee has to save, the stack and
the memory. -/
structure Called (m : Machine σ) (host : HostState σ) (y : Machine σ) : Prop where
  reg {r : Reg} (h : r.callerSaved = false) : y.reg r = m.reg r
  liveStack : y.liveStack = m.liveStack
  memory : y.memory = { m.memory with host, calls := m.memory.calls + 1 }

/-- The mask of `Op.openCall` leaves a multiple of 16. -/
theorem and_mask_mod (a : UInt64) : (a &&& extend (-16)) % 16 = 0 := by
  apply UInt64.toNat_inj.1
  have hmask : (extend (-16)).toNat % 2 ^ 4 = 0 := by decide
  show (a &&& extend (-16)).toNat % 2 ^ 4 = 0
  rw [UInt64.toNat_and, Nat.and_mod_two_pow, hmask, Nat.and_zero]

theorem not_lt_and (a mask : UInt64) : ¬ a < a &&& mask := by
  rw [UInt64.lt_iff_toNat_lt, UInt64.toNat_and]
  exact Nat.not_lt.2 Nat.and_le_left

variable (env sink) in
/-- Opening a frame keeps the stack, with the frame pointer on top. -/
theorem exists_openCall (m : Machine σ) :
    ∃ y, (semantics env sink).execAll Op.openCall m = some y ∧
      (∀ r, r ≠ .rsp → r ≠ .rbp → y.reg r = m.reg r) ∧ y.reg .rsp % 16 = 0 ∧
      y.reg .rbp = m.reg .rsp - 8 ∧ y.liveStack = (m.reg .rsp - 8, m.reg .rbp) :: m.liveStack ∧
      y.memory = m.memory := by
  refine ⟨_, rfl, ?_, ?_, ?_, ?_, rfl⟩
  · intro r hsp hbp
    show (((m.push (m.reg .rbp)).setReg .rbp _).setReg .rsp _).reg r = _
    rw [reg_setReg_of_ne _ hsp.symm, reg_setReg_of_ne _ hbp.symm, reg_push _ _ hsp]
  · show (((m.push (m.reg .rbp)).setReg .rbp _).setReg .rsp _).reg .rsp % 16 = 0
    rw [reg_setReg_self]
    exact and_mask_mod _
  · show (((m.push (m.reg .rbp)).setReg .rbp _).setReg .rsp _).reg .rbp = _
    rw [reg_setReg_of_ne _ (by decide), reg_setReg_self, rsp_push]
  · show List.dropWhile (·.1 < (Machine.setReg (Machine.setReg _ .rbp _) .rsp _).reg .rsp)
      ((m.reg .rsp - 8, m.reg .rbp) :: m.liveStack) = _
    rw [reg_setReg_self, reg_setReg_of_ne _ (by decide), rsp_push]
    refine List.dropWhile_cons_of_neg ?_
    simpa using not_lt_and (m.reg .rsp - 8) (extend (-16))

variable (env sink) in
/-- Closing a frame that was opened on `m`. -/
theorem exists_closeCall {m y : Machine σ} (hbp : y.reg .rbp = m.reg .rsp - 8)
    (hlive : (y.setReg .rsp (y.reg .rbp)).liveStack = (m.reg .rsp - 8, m.reg .rbp) :: m.liveStack) :
    ∃ z, (semantics env sink).execAll Op.closeCall y = some z ∧
      (∀ r, r ≠ .rsp → r ≠ .rbp → z.reg r = y.reg r) ∧ z.reg .rsp = m.reg .rsp ∧ z.reg .rbp = m.reg .rbp ∧
      z.liveStack = m.liveStack ∧ z.memory = y.memory := by
  have hsp : (y.setReg .rsp (y.reg .rbp)).reg .rsp = m.reg .rsp - 8 := by rw [reg_setReg_self, hbp]
  rw [← hsp] at hlive
  refine ⟨((y.setReg .rsp (y.reg .rbp)).dropTop m.liveStack).setReg .rbp (m.reg .rbp), ?_, ?_, ?_, ?_, ?_, rfl⟩
  · show (semantics env sink).execAll [.pop .rbp] (y.setReg .rsp (y.reg .rbp)) = _
    rw [Semantics.execAll, exec_of_straight rfl, executeOp, pop_eq_some hlive]
    rfl
  · intro r hsp' hbp'
    rw [reg_setReg_of_ne _ hbp'.symm, reg_dropTop _ _ hsp', reg_setReg_of_ne _ hsp'.symm]
  · rw [reg_setReg_of_ne _ (by decide), rsp_dropTop, hsp, UInt64.sub_add_cancel]
  · rw [reg_setReg_self]
  · rw [liveStack_setReg _ (by decide), liveStack_dropTop hsp]

/-- Calling a host function in a frame of its own. -/
theorem exists_hostCall {m : Machine σ} {f : UInt64} {host : HostState σ}
    (hf : m.host.call? env.host sink f (m.reg .rdi) = some host) :
    ∃ y, (semantics env sink).execAll (Op.openCall ++ Op.callAddress f ++ Op.closeCall) m = some y ∧
      Called m host y := by
  obtain ⟨a, ha, hreg, hsp, hbp, hlive, hmemory⟩ := exists_openCall env sink m
  have hcall : (semantics env sink).execAll (Op.callAddress f) a =
      some { a.setReg .rax f with
        host
        registers := afterCall (a.setReg .rax f).registers (env.leftover a.calls).1
        flags := (env.leftover a.calls).2
        stack := a.liveStack
        calls := a.calls + 1 } := by
    rw [Op.callAddress, Semantics.execAll, exec_of_straight rfl, executeOp, Option.bind_some, Semantics.execAll,
      exec_of_straight rfl, executeOp, call?, if_pos (by rwa [reg_setReg_of_ne _ (by decide)])]
    rw [reg_setReg_self, reg_setReg_of_ne _ (by decide), hreg .rdi (by decide) (by decide)]
    rw [show (a.setReg .rax f).host = m.host from congrArg Memory.host hmemory, hf, liveStack_setReg _ (by decide)]
    rfl
  generalize hb : { a.setReg .rax f with
    host
    registers := afterCall (a.setReg .rax f).registers (env.leftover a.calls).1
    flags := (env.leftover a.calls).2
    stack := a.liveStack
    calls := a.calls + 1 } = b at hcall
  have hsaved {r : Reg} (h : r.callerSaved = false) : b.reg r = a.reg r := by
    rw [← hb]
    show (afterCall (a.setReg .rax f).registers _).get r = a.reg r
    rw [get_afterCall, h]
    exact a.reg_setReg_of_ne (by rintro rfl; cases h) f
  have hbpb : b.reg .rbp = m.reg .rsp - 8 := (hsaved rfl).trans hbp
  have hliveb : (b.setReg .rsp (b.reg .rbp)).liveStack = (m.reg .rsp - 8, m.reg .rbp) :: m.liveStack := by
    rw [liveStack, reg_setReg_self, hbpb]
    show b.stack.dropWhile _ = _
    rw [← hb]
    show a.liveStack.dropWhile _ = _
    rw [hlive]
    refine List.dropWhile_cons_of_neg ?_
    simp [UInt64.lt_irrefl]
  obtain ⟨z, hz, hregz, hspz, hbpz, hlivez, hmemoryz⟩ :=
    exists_closeCall env sink hbpb hliveb
  refine ⟨z, Semantics.execAll_append (Semantics.execAll_append ha hcall) hz, ?_⟩
  subst hb
  refine
    { reg := ?_
      liveStack := hlivez
      memory := hmemoryz.trans (congrArg (fun x : Memory σ => { x with host, calls := x.calls + 1 }) hmemory) }
  intro r hr
  by_cases hsp' : r = .rsp
  · rw [hsp', hspz]
  by_cases hbp' : r = .rbp
  · rw [hbp', hbpz]
  · rw [hregz r hsp' hbp', hsaved hr, hreg r hsp' hbp']

end Machine

end TapeLang.X86
