import TapeLang.Proofs.A64.Machine
import TapeLang.Proofs.Code.Cached

/-!
# Registers, pairs on the stack and host calls

A register is set to any word (`Machine.execAll_loadWord`), and a host function is called at its
address (`Machine.exists_hostCall`): that keeps the registers that a callee has to save and all that
is on the stack.
-/

namespace TapeLang.A64

theorem Registers.set_set (rs : Registers) (r : Reg) (v w : UInt64) : (rs.set r v).set r w = rs.set r w := by
  unfold set
  rw [Vector.set_set]

namespace Machine

variable {σ : Type} {env : Environment} {sink : Sink σ}

/-! ### Registers -/

theorem reg_of_ne (m : Machine σ) {r : Reg} (h : r ≠ 31) : m.reg r = m.regOrSp r := if_neg h

theorem setReg_of_ne (m : Machine σ) {r : Reg} (h : r ≠ 31) (v : UInt64) : m.setReg r v = m.setRegOrSp r v :=
  if_neg h

theorem regOrSp_setRegOrSp (m : Machine σ) (r s : Reg) (v : UInt64) :
    (m.setRegOrSp r v).regOrSp s = if r = s then v else m.regOrSp s :=
  m.registers.get_set r s v

@[simp] theorem regOrSp_setRegOrSp_self (m : Machine σ) (r : Reg) (v : UInt64) :
    (m.setRegOrSp r v).regOrSp r = v := by
  rw [regOrSp_setRegOrSp, if_pos rfl]

theorem regOrSp_setRegOrSp_of_ne (m : Machine σ) {r s : Reg} (h : r ≠ s) (v : UInt64) :
    (m.setRegOrSp r v).regOrSp s = m.regOrSp s := by
  rw [regOrSp_setRegOrSp, if_neg h]

theorem setRegOrSp_setRegOrSp (m : Machine σ) (r : Reg) (v w : UInt64) :
    (m.setRegOrSp r v).setRegOrSp r w = m.setRegOrSp r w := by
  unfold setRegOrSp
  rw [Registers.set_set]

theorem get_afterCall (saved left : Registers) (r : Reg) :
    (afterCall saved left).get r = if r.callerSaved then left.get r else saved.get r := by
  simp [afterCall, Registers.get]

/-! ### Words -/

theorem insertPart_ofNat {v : UInt64} {k : Fin 4} :
    insertPart (UInt64.ofNat (v.toNat % 2 ^ (16 * k.val))) (Op.part v k) k =
      UInt64.ofNat (v.toNat % 2 ^ (16 * (k.val + 1))) := by
  have hlt := v.toNat_lt
  have hle : v.toNat % 2 ^ (16 * k.val) ≤ v.toNat := Nat.mod_le _ _
  have hpow : 2 ^ (16 * (k.val + 1)) = 2 ^ (16 * k.val) * 2 ^ 16 := by
    rw [Nat.mul_add, Nat.mul_one, Nat.pow_add]
  have hmod : v.toNat % 2 ^ (16 * k.val) < 2 ^ (16 * k.val) := Nat.mod_lt _ (Nat.pow_pos (by decide))
  have hhigh : v.toNat % 2 ^ (16 * k.val) / 2 ^ (16 * (k.val + 1)) = 0 := by
    apply Nat.div_eq_of_lt
    omega
  unfold insertPart Op.part
  rw [UInt64.toNat_ofNat_of_lt' (show _ < 2 ^ 64 by omega), hhigh, Nat.mod_mod, BitVec.toNat_ofNat, hpow, Nat.mod_mul,
    Nat.mul_zero, Nat.add_zero]

variable (env sink) in
/-- The register holds the parts below `k`; then it holds one more. -/
theorem execAll_keepPart (m : Machine σ) {r : Reg} (hr : r ≠ 31) (v : UInt64) (k : Fin 4) :
    (semantics env sink).execAll (Op.keepPart r v k)
        (m.setRegOrSp r (UInt64.ofNat (v.toNat % 2 ^ (16 * k.val)))) =
      some (m.setRegOrSp r (UInt64.ofNat (v.toNat % 2 ^ (16 * (k.val + 1))))) := by
  unfold Op.keepPart
  by_cases hzero : Op.part v k = 0
  · have hpart : v.toNat / 2 ^ (16 * k.val) % 2 ^ 16 = 0 := by
      have := congrArg BitVec.toNat hzero
      rwa [Op.part, BitVec.toNat_ofNat] at this
    rw [if_pos hzero, Semantics.execAll, Nat.mul_add, Nat.mul_one, Nat.pow_add, Nat.mod_mul, hpart, Nat.mul_zero,
      Nat.add_zero]
  · rw [if_neg hzero, Semantics.execAll, exec_of_straight rfl, executeOp, reg_of_ne _ hr, setReg_of_ne _ hr,
      regOrSp_setRegOrSp_self, insertPart_ofNat, setRegOrSp_setRegOrSp]
    rfl

variable (env sink) in
theorem execAll_loadWord (m : Machine σ) {r : Reg} (hr : r ≠ 31) (v : UInt64) :
    (semantics env sink).execAll (Op.loadWord r v) m = some (m.setRegOrSp r v) := by
  have hfirst : (semantics env sink).execAll [.movz r (Op.part v 0)] m =
      some (m.setRegOrSp r (UInt64.ofNat (v.toNat % 2 ^ (16 * (1 : Fin 4).val)))) := by
    rw [Semantics.execAll, exec_of_straight rfl, executeOp, setReg_of_ne _ hr]
    unfold Op.part
    rw [BitVec.toNat_ofNat]
    show some (m.setRegOrSp r (UInt64.ofNat (v.toNat / 1 % 2 ^ 16))) = _
    rw [Nat.div_one]
    rfl
  have hlast : v.toNat % 2 ^ (16 * ((3 : Fin 4).val + 1)) = v.toNat := Nat.mod_eq_of_lt v.toNat_lt
  have h₁ := execAll_keepPart env sink m hr v 1
  have h₂ := execAll_keepPart env sink m hr v 2
  have h₃ := execAll_keepPart env sink m hr v 3
  rw [hlast, UInt64.ofNat_toNat] at h₃
  exact Semantics.execAll_append (Semantics.execAll_append (Semantics.execAll_append hfirst h₁) h₂) h₃

/-! ### The stack -/

/-- Memory apart from the stack, and what the host has done. -/
def memory (m : Machine σ) : Memory σ := ⟨m.tape, m.counters, m.host, m.calls⟩

/-- Nothing has changed on the stack from an address on. -/
def SameStack (m y : Machine σ) (a : UInt64) : Prop := ∀ x, ¬ x < a → y.stack x = m.stack x

theorem SameStack.refl (m : Machine σ) (a : UInt64) : SameStack m m a := fun _ _ => rfl

theorem SameStack.trans {m y z : Machine σ} {a : UInt64} (h : SameStack m y a) (h' : SameStack y z a) :
    SameStack m z a := fun x hx => (h' x hx).trans (h x hx)

theorem SameStack.mono {m y : Machine σ} {a b : UInt64} (h : SameStack m y a) (hab : ¬ b < a) : SameStack m y b := by
  intro x hx
  apply h
  intro hlt
  rw [UInt64.lt_iff_toNat_lt] at hx hab hlt
  omega

theorem toNat_sub_ofNat {a : UInt64} {n : Nat} (h : n ≤ a.toNat) : (a - UInt64.ofNat n).toNat = a.toNat - n := by
  have hn : (UInt64.ofNat n).toNat = n := UInt64.toNat_ofNat_of_lt' (Nat.lt_of_le_of_lt h a.toNat_lt)
  rw [UInt64.toNat_sub_of_le _ _ (UInt64.le_iff_toNat_le.2 (by omega)), hn]

/-- What lies below the stack pointer is no address from there on. -/
theorem ne_sub_of_not_lt {a x : UInt64} (hx : ¬ x < a) {n : Nat} (hpos : 0 < n) (h : n ≤ a.toNat) :
    x ≠ a - UInt64.ofNat n := by
  rintro rfl
  rw [UInt64.lt_iff_toNat_lt, toNat_sub_ofNat h] at hx
  omega

theorem stack_storePair (m : Machine σ) (a v w x : UInt64) :
    (m.storePair a v w).stack x = if x = a then some v else if x = a + 8 then some w else m.stack x := rfl

theorem slotAddress_eq {m : Machine σ} (h : m.regOrSp sp % 16 = 0) (slots : BitVec 7) :
    m.slotAddress? sp slots = some (m.regOrSp sp + (Int64.ofInt (8 * slots.toInt)).toUInt64) :=
  if_pos ⟨rfl, h⟩

theorem aligned_sub {a : UInt64} (h : a % 16 = 0) {n : Nat} (hn : n % 16 = 0) (hle : n ≤ a.toNat) :
    (a - UInt64.ofNat n) % 16 = 0 := by
  have hmod : a.toNat % 16 = 0 := by
    have := congrArg UInt64.toNat h
    rwa [UInt64.toNat_mod] at this
  apply UInt64.toNat_inj.1
  rw [UInt64.toNat_mod, toNat_sub_ofNat hle]
  show (a.toNat - n) % 16 = 0
  omega

section Pairs

variable {m : Machine σ} {a b : Reg} {slots : BitVec 7}

theorem exec_storePairPre (haligned : m.regOrSp sp % 16 = 0) (ha : a ≠ 31) (hb : b ≠ 31) (n : Nat)
    (hn : (Int64.ofInt (8 * slots.toInt)).toUInt64 = -UInt64.ofNat n) :
    (semantics env sink).exec (.storePairPre a b sp slots) m =
      some ((m.storePair (m.regOrSp sp - UInt64.ofNat n) (m.regOrSp a) (m.regOrSp b)).setRegOrSp sp
        (m.regOrSp sp - UInt64.ofNat n)) := by
  rw [exec_of_straight rfl, executeOp, slotAddress_eq haligned, hn, ← UInt64.sub_eq_add_neg, reg_of_ne m ha,
    reg_of_ne m hb]
  rfl

theorem exec_storePair (haligned : m.regOrSp sp % 16 = 0) (ha : a ≠ 31) (hb : b ≠ 31) (n : Nat)
    (hn : (Int64.ofInt (8 * slots.toInt)).toUInt64 = UInt64.ofNat n) :
    (semantics env sink).exec (.storePair a b sp slots) m =
      some (m.storePair (m.regOrSp sp + UInt64.ofNat n) (m.regOrSp a) (m.regOrSp b)) := by
  rw [exec_of_straight rfl, executeOp, slotAddress_eq haligned, hn, reg_of_ne m ha, reg_of_ne m hb]
  rfl

theorem loadPair_eq {address v w : UInt64} (hv : m.stack address = some v) (hw : m.stack (address + 8) = some w)
    (ha : a ≠ 31) (hb : b ≠ 31) : m.loadPair? a b address = some ((m.setRegOrSp a v).setRegOrSp b w) := by
  rw [loadPair?, hv, hw, ← setReg_of_ne _ ha, ← setReg_of_ne _ hb]
  rfl

theorem exec_loadPair (haligned : m.regOrSp sp % 16 = 0) (ha : a ≠ 31) (hb : b ≠ 31) (n : Nat)
    (hn : (Int64.ofInt (8 * slots.toInt)).toUInt64 = UInt64.ofNat n) {v w : UInt64}
    (hv : m.stack (m.regOrSp sp + UInt64.ofNat n) = some v)
    (hw : m.stack (m.regOrSp sp + UInt64.ofNat n + 8) = some w) :
    (semantics env sink).exec (.loadPair a b sp slots) m = some ((m.setRegOrSp a v).setRegOrSp b w) := by
  rw [exec_of_straight rfl, executeOp, slotAddress_eq haligned, hn]
  exact loadPair_eq hv hw ha hb

theorem exec_loadPairPost (haligned : m.regOrSp sp % 16 = 0) (ha : a ≠ 31) (hb : b ≠ 31) (n : Nat)
    (hn : (Int64.ofInt (8 * slots.toInt)).toUInt64 = UInt64.ofNat n) {v w : UInt64}
    (hv : m.stack (m.regOrSp sp) = some v) (hw : m.stack (m.regOrSp sp + 8) = some w) :
    (semantics env sink).exec (.loadPairPost a b sp slots) m =
      some (((m.setRegOrSp a v).setRegOrSp b w).setRegOrSp sp (m.regOrSp sp + UInt64.ofNat n)) := by
  rw [exec_of_straight rfl, executeOp, slotAddress_eq haligned, hn, Option.bind_eq_bind, Option.bind_some,
    loadPair_eq hv hw ha hb]
  rfl

end Pairs

/-! ### Saving registers -/

/-- The registers `x9` to `x12` of `m` are on the stack of `y`. -/
structure Saved (m y : Machine σ) : Prop where
  sp : y.regOrSp sp = m.regOrSp sp - 32
  x9 : y.stack (m.regOrSp A64.sp - 32) = some (m.regOrSp 9)
  x10 : y.stack (m.regOrSp A64.sp - 24) = some (m.regOrSp 10)
  x11 : y.stack (m.regOrSp A64.sp - 16) = some (m.regOrSp 11)
  x12 : y.stack (m.regOrSp A64.sp - 8) = some (m.regOrSp 12)

variable (env sink) in
theorem exists_save {m : Machine σ} (haligned : m.regOrSp sp % 16 = 0) (hroom : 32 ≤ (m.regOrSp sp).toNat) :
    ∃ y, (semantics env sink).execAll
        [.storePairPre 9 10 sp (BitVec.ofInt 7 (-4)), .storePair 11 12 sp 2] m = some y ∧
      Saved m y ∧ (∀ r, r ≠ sp → y.regOrSp r = m.regOrSp r) ∧ SameStack m y (m.regOrSp sp) ∧ y.memory = m.memory := by
  let a := (m.storePair (m.regOrSp sp - 32) (m.regOrSp 9) (m.regOrSp 10)).setRegOrSp sp (m.regOrSp sp - 32)
  have hfirst : (semantics env sink).exec (.storePairPre 9 10 sp (BitVec.ofInt 7 (-4))) m = some a :=
    exec_storePairPre haligned (by decide) (by decide) 32 (by decide)
  have hsp : a.regOrSp sp = m.regOrSp sp - 32 := regOrSp_setRegOrSp_self _ _ _
  have hreg {r : Reg} (hr : r ≠ sp) : a.regOrSp r = m.regOrSp r := regOrSp_setRegOrSp_of_ne _ hr.symm _
  have halign : a.regOrSp sp % 16 = 0 := by
    rw [hsp]
    exact aligned_sub (n := 32) haligned rfl hroom
  have hx11 : a.regOrSp 11 = m.regOrSp 11 := hreg (by decide)
  have hx12 : a.regOrSp 12 = m.regOrSp 12 := hreg (by decide)
  have haddress : m.regOrSp sp - 32 + UInt64.ofNat 16 = m.regOrSp sp - 16 := by
    show m.regOrSp sp - 32 + 16 = m.regOrSp sp - 16
    grind
  have hsecond : (semantics env sink).exec (.storePair 11 12 sp 2) a =
      some (a.storePair (m.regOrSp sp - 16) (m.regOrSp 11) (m.regOrSp 12)) := by
    rw [exec_storePair halign (by decide) (by decide) 16 (by decide), hsp, hx11, hx12, haddress]
  have hstack (x : UInt64) : (a.storePair (m.regOrSp sp - 16) (m.regOrSp 11) (m.regOrSp 12)).stack x =
      if x = m.regOrSp sp - 16 then some (m.regOrSp 11) else if x = m.regOrSp sp - 8 then some (m.regOrSp 12)
      else if x = m.regOrSp sp - 32 then some (m.regOrSp 9) else if x = m.regOrSp sp - 24 then some (m.regOrSp 10)
      else m.stack x := by
    rw [stack_storePair, show a.stack x = _ from stack_storePair m _ _ _ x,
      show m.regOrSp sp - 16 + 8 = m.regOrSp sp - 8 by grind, show m.regOrSp sp - 32 + 8 = m.regOrSp sp - 24 by grind]
  refine ⟨a.storePair (m.regOrSp sp - 16) (m.regOrSp 11) (m.regOrSp 12), ?_, ?_, fun r hr => hreg hr, ?_, rfl⟩
  · rw [Semantics.execAll, hfirst, Option.bind_some, Semantics.execAll, hsecond]
    rfl
  · refine ⟨hsp, ?_, ?_, ?_, ?_⟩ <;> rw [hstack] <;> grind
  · intro x hx
    have h₈ : x ≠ m.regOrSp sp - 8 := ne_sub_of_not_lt hx (n := 8) (by decide) (by omega)
    have h₁₆ : x ≠ m.regOrSp sp - 16 := ne_sub_of_not_lt hx (n := 16) (by decide) (by omega)
    have h₂₄ : x ≠ m.regOrSp sp - 24 := ne_sub_of_not_lt hx (n := 24) (by decide) (by omega)
    have h₃₂ : x ≠ m.regOrSp sp - 32 := ne_sub_of_not_lt hx (n := 32) (by decide) hroom
    rw [hstack, if_neg h₁₆, if_neg h₈, if_neg h₃₂, if_neg h₂₄]

/-- Taking the registers back from the stack. -/
structure Restored (m y z : Machine σ) : Prop where
  x9 : z.regOrSp 9 = m.regOrSp 9
  x10 : z.regOrSp 10 = m.regOrSp 10
  x11 : z.regOrSp 11 = m.regOrSp 11
  x12 : z.regOrSp 12 = m.regOrSp 12
  sp : z.regOrSp sp = m.regOrSp sp
  other {r : Reg} (h : r.callerSaved = false) (hsp : r ≠ A64.sp) : z.regOrSp r = y.regOrSp r
  stack : z.stack = y.stack
  memory : z.memory = y.memory

variable (env sink) in
theorem exists_restore {m y : Machine σ} (h : Saved m y) (haligned : y.regOrSp sp % 16 = 0) :
    ∃ z, (semantics env sink).execAll [.loadPair 11 12 sp 2, .loadPairPost 9 10 sp 4] y = some z ∧ Restored m y z := by
  let a := (y.setRegOrSp 11 (m.regOrSp 11)).setRegOrSp 12 (m.regOrSp 12)
  let z := ((a.setRegOrSp 9 (m.regOrSp 9)).setRegOrSp 10 (m.regOrSp 10)).setRegOrSp sp (m.regOrSp sp)
  have hsp : a.regOrSp sp = m.regOrSp sp - 32 := by
    rw [← h.sp, regOrSp_setRegOrSp_of_ne _ (by decide), regOrSp_setRegOrSp_of_ne _ (by decide)]
  have hfirst : (semantics env sink).exec (.loadPair 11 12 sp 2) y = some a := by
    refine exec_loadPair haligned (by decide) (by decide) 16 (by decide) ?_ ?_
    · rw [h.sp, ← h.x11]
      show y.stack (m.regOrSp sp - 32 + 16) = _
      congr 1
      grind
    · rw [h.sp, ← h.x12]
      show y.stack (m.regOrSp sp - 32 + 16 + 8) = _
      congr 1
      grind
  have hsecond : (semantics env sink).exec (.loadPairPost 9 10 sp 4) a = some z := by
    have haligned' : a.regOrSp sp % 16 = 0 := by rw [hsp, ← h.sp, haligned]
    have hx10 : a.stack (a.regOrSp sp + 8) = some (m.regOrSp 10) := by
      rw [hsp, ← h.x10, show m.regOrSp sp - 32 + 8 = m.regOrSp sp - 24 by grind]
      rfl
    rw [exec_loadPairPost haligned' (by decide) (by decide) 32 (by decide) (by rw [hsp]; exact h.x9) hx10, hsp]
    show some (Machine.setRegOrSp _ sp (m.regOrSp sp - 32 + 32)) = _
    rw [UInt64.sub_add_cancel]
  have hreg (r : Reg) : z.regOrSp r = if sp = r then m.regOrSp sp else if 10 = r then m.regOrSp 10
      else if 9 = r then m.regOrSp 9 else if 12 = r then m.regOrSp 12 else if 11 = r then m.regOrSp 11
      else y.regOrSp r := by
    simp only [z, a, regOrSp_setRegOrSp]
  refine ⟨z, ?_, ⟨hreg 9, hreg 10, hreg 11, hreg 12, hreg sp, ?_, rfl, rfl⟩⟩
  · rw [Semantics.execAll, hfirst, Option.bind_some, Semantics.execAll, hsecond]
    rfl
  · intro r hr hne
    rw [hreg, if_neg hne.symm, if_neg, if_neg, if_neg, if_neg] <;> rintro rfl <;> cases hr

/-! ### Calling host functions -/

/-- What a call of a host function leaves: the registers that the callee has to save, the stack and
the memory. -/
structure Called (m : Machine σ) (host : HostState σ) (y : Machine σ) : Prop where
  reg {r : Reg} (h : r.callerSaved = false) : y.regOrSp r = m.regOrSp r
  stack : SameStack m y (m.regOrSp sp)
  memory : y.memory = { m.memory with host, calls := m.memory.calls + 1 }

theorem exists_hostCall {m : Machine σ} {f : UInt64} {host : HostState σ} (haligned : m.regOrSp sp % 16 = 0)
    (hf : m.host.call? env.host sink f (m.regOrSp 0) = some host) :
    ∃ y, (semantics env sink).execAll (Op.loadWord 16 f ++ [.call 16]) m = some y ∧ Called m host y := by
  have hsp : (m.setRegOrSp 16 f).regOrSp sp = m.regOrSp sp := regOrSp_setRegOrSp_of_ne m (by decide) f
  have htarget : (m.setRegOrSp 16 f).reg 16 = f := by
    rw [reg_of_ne _ (by decide), regOrSp_setRegOrSp_self]
  have hargument : (m.setRegOrSp 16 f).reg 0 = m.regOrSp 0 := by
    rw [reg_of_ne _ (by decide), regOrSp_setRegOrSp_of_ne m (by decide)]
  refine ⟨{ m.setRegOrSp 16 f with
    host
    registers := afterCall (m.setRegOrSp 16 f).registers (env.leftover m.calls).1
    flags := (env.leftover m.calls).2
    stack := fun x => if x < m.regOrSp sp then none else m.stack x
    calls := m.calls + 1 }, ?_, ?_⟩
  · refine Semantics.execAll_append (execAll_loadWord env sink m (by decide) f) ?_
    rw [Semantics.execAll, exec_of_straight rfl, executeOp, call?, hsp, if_pos haligned, htarget, hargument,
      show (m.setRegOrSp 16 f).host = m.host from rfl, hf]
    rfl
  · refine ⟨?_, ?_, rfl⟩
    · intro r hr
      show (afterCall (m.setRegOrSp 16 f).registers _).get r = _
      rw [get_afterCall, hr]
      exact regOrSp_setRegOrSp_of_ne m (by rintro rfl; cases hr) f
    · intro x hx
      exact if_neg hx

end Machine

end TapeLang.A64
