import TapeLang.Proofs.A64.Invariant

/-!
# The parts of the dialect

Each part does to a machine that holds a state of the interpreter what the interpreter does to that
state.
-/

namespace TapeLang.A64

namespace Machine

variable {σ : Type} {env : Environment} {sink : Sink σ} {counting : Bool} {m₀ m y : Machine σ}
  {s : Interpreter} {out : Array UInt8} {last : Nat}

/-! ### Counters -/

theorem slot_address (k : Kind) : 8 * (BitVec.ofNat 12 (Counters.slot k / 8)).toNat = Counters.slot k := by
  cases k <;> rfl

variable (sink) in
/-- Incrementing a word of the block counts one more instruction of its kind. -/
theorem execAll_increment {c : Counters} (hcount : m.counters = some c) (hblock : m.regOrSp 12 = env.countersBase)
    (k : Kind) :
    (semantics env sink).execAll (increment k) m =
      some { m.setRegOrSp 13 (c.get k + 1) with counters := some (c.record k) } := by
  have hload : m.load64? env (m.regOrSp 12 + UInt64.ofNat (Counters.slot k)) = some (c.get k) := by
    rw [load64?, hcount, hblock, Option.bind_some, Counters.load_slot]
  let a := m.setRegOrSp 13 (c.get k + 1)
  have hbase : a.regOrSp 12 = env.countersBase := (regOrSp_setRegOrSp_of_ne m (by decide) _).trans hblock
  have hvalue : a.reg 13 = c.get k + 1 := (reg_of_ne a (by decide)).trans (regOrSp_setRegOrSp_self m 13 _)
  have hfirst : (semantics env sink).execAll
      [.load 13 12 (BitVec.ofNat 12 (Counters.slot k / 8)), .addImm 13 13 1] m = some a := by
    rw [Semantics.execAll, exec_of_straight rfl, executeOp, slot_address, hload]
    show (semantics env sink).execAll [.addImm 13 13 1] (m.setReg 13 (c.get k)) = _
    rw [setReg_of_ne m (by decide), Semantics.execAll, exec_of_straight rfl, executeOp, regOrSp_setRegOrSp_self,
      setRegOrSp_setRegOrSp]
    rfl
  have hlast : (semantics env sink).execAll [.store 13 12 (BitVec.ofNat 12 (Counters.slot k / 8))] a =
      some { a with counters := some (c.record k) } := by
    rw [Semantics.execAll, exec_of_straight rfl, executeOp, slot_address, store64?, hbase, hvalue,
      show a.counters = some c from hcount, Option.bind_some, Counters.store_slot]
    rfl
  exact Semantics.execAll_append hfirst hlast

variable (last) in
/-- Counting uses a scratch register only. -/
theorem Holds.exists_count (h : Holds env sink counting m₀ s out m) (i : Instruction) :
    ∃ y, (semantics env sink).execAll ((dialect last counting env.host).count i.kind) m = some y ∧
      Holds env sink counting m₀ (s.pass i) out y ∧ ∀ r, (13 : Reg) ≠ r → y.regOrSp r = m.regOrSp r := by
  cases hc : counting with
  | false =>
    subst hc
    exact ⟨m, rfl, ⟨h.base, h.index, h.cached, h.block, h.memory.uncounted i, h.framed⟩, fun _ _ => rfl⟩
  | true =>
    subst hc
    obtain ⟨c, hcount, hmemory⟩ := h.memory.record i
    refine ⟨_, execAll_increment sink hcount (h.block rfl) i.kind, ?_⟩
    have hreg (r : Reg) (hr : (13 : Reg) ≠ r) : (m.setRegOrSp 13 (c.get i.kind + 1)).regOrSp r = m.regOrSp r :=
      regOrSp_setRegOrSp_of_ne m hr _
    refine ⟨⟨(hreg 9 (by decide)).trans h.base, (hreg 10 (by decide)).trans h.index,
      (hreg 11 (by decide)).trans h.cached, fun hc => (hreg 12 (by decide)).trans (h.block hc), hmemory,
      h.framed.congr ?_ (.refl m _)⟩, hreg⟩
    intro r hr
    exact hreg r (by rintro rfl; cases hr)

theorem Holds.count (h : Holds env sink counting m₀ s out m) (i : Instruction) :
    ∃ y, (semantics env sink).execAll ((dialect last counting env.host).count i.kind) m = some y ∧
      Holds env sink counting m₀ (s.pass i) out y := by
  obtain ⟨y, hy, hholds, _⟩ := h.exists_count last i
  exact ⟨y, hy, hholds⟩

/-! ### The cached cell -/

theorem toUInt8_low (v : UInt64) : (low v).toUInt8 = v.toUInt8 := by
  unfold low
  rw [UInt32.toUInt8_toUInt64, UInt64.toUInt8_toUInt32]

/-- The immediate of a byte is that byte. -/
theorem ofNat_byte (n : Nat) (hn : 8 ≤ n) (b : UInt8) : UInt64.ofNat (BitVec.ofNat n b.toNat).toNat = b.toUInt64 := by
  have hlt : b.toNat < 2 ^ n := Nat.lt_of_lt_of_le b.toNat_lt (Nat.pow_le_pow_right (by decide) hn)
  apply UInt64.toNat_inj.1
  rw [BitVec.toNat_ofNat, Nat.mod_eq_of_lt hlt, UInt8.toNat_toUInt64]
  exact UInt64.toNat_ofNat_of_lt' (Nat.lt_of_lt_of_le b.toNat_lt (by decide))

/-- The sum may exceed a byte, so it is masked. -/
theorem Holds.add (h : Holds env sink counting m₀ s out m) (delta : UInt8) :
    ∃ y, (semantics env sink).execAll ((dialect last counting env.host).add delta) m = some y ∧
      Holds env sink counting m₀ (s.withCell (s.cell + delta)) out y := by
  refine ⟨_, ?_, h.recache (s.cell + delta)⟩
  show (semantics env sink).execAll [.addImm32 11 11 (BitVec.ofNat 12 delta.toNat), .maskByte 11 11] m = _
  rw [Semantics.execAll, exec_of_straight rfl, executeOp, Option.bind_some, Semantics.execAll, exec_of_straight rfl,
    executeOp, reg_of_ne _ (by decide), regOrSp_setRegOrSp_self, setRegOrSp_setRegOrSp, toUInt8_low, h.cached,
    ofNat_byte 12 (by decide), UInt64.toUInt8_add, UInt8.toUInt8_toUInt64, UInt8.toUInt8_toUInt64]
  rfl

theorem Holds.set (h : Holds env sink counting m₀ s out m) (value : UInt8) :
    ∃ y, (semantics env sink).execAll ((dialect last counting env.host).set value) m = some y ∧
      Holds env sink counting m₀ (s.withCell value) out y := by
  refine ⟨_, ?_, h.recache value⟩
  show (semantics env sink).execAll [.movz32 11 (BitVec.ofNat 16 value.toNat)] m = _
  rw [Semantics.execAll, exec_of_straight rfl, executeOp, setReg_of_ne _ (by decide), ofNat_byte 16 (by decide)]
  rfl

theorem Holds.test (h : Holds env sink counting m₀ s out m) :
    ∃ y, (semantics env sink).execAll (dialect last counting env.host).test m = some y ∧
      (semantics env sink).taken .equal y = (s.cell == 0) ∧ Holds env sink counting m₀ s out y := by
  refine ⟨_, rfl, ?_, h.congr rfl rfl rfl⟩
  show (low (m.regOrSp 11) == 0) = _
  rw [h.cached, Bool.eq_iff_iff, beq_iff_eq, beq_iff_eq]
  constructor
  · intro hzero
    have := toUInt8_low s.cell.toUInt64
    rw [hzero, UInt8.toUInt8_toUInt64] at this
    exact this.symm
  · intro hzero
    rw [hzero]
    rfl

/-! ### Moves -/

variable (env sink) in
/-- The index grows by any signed word, the least one included. -/
theorem exists_moveIndex (m : Machine σ) (delta : Int64) :
    ∃ y, (semantics env sink).execAll (moveIndex delta) m = some y ∧
      y.regOrSp 10 = m.regOrSp 10 + delta.toUInt64 ∧ (∀ r, r ≠ 10 → r ≠ 13 → y.regOrSp r = m.regOrSp r) ∧
      y.stack = m.stack ∧ y.memory = m.memory := by
  have hword := toNat_toUInt64 delta
  have himm (n : Nat) (hn : n ≤ maxImm) : (UInt64.ofNat (BitVec.ofNat 12 n).toNat).toNat = n := by
    have hlt : n < 2 ^ 12 := Nat.lt_of_le_of_lt hn (by decide)
    rw [BitVec.toNat_ofNat, Nat.mod_eq_of_lt hlt]
    exact UInt64.toNat_ofNat_of_lt' (Nat.lt_of_lt_of_le hlt (by decide))
  simp only [moveIndex]
  split
  · rename_i hsmall
    have himm := himm _ hsmall
    split
    · rename_i hsign
      have hdelta : UInt64.ofNat (BitVec.ofNat 12 delta.toInt.natAbs).toNat = delta.toUInt64 := by
        apply UInt64.toNat_inj.1
        rw [himm]
        rw [maxImm] at hsmall
        omega
      refine ⟨_, rfl, ?_, ?_, rfl, rfl⟩
      · show (m.setRegOrSp 10 _).regOrSp 10 = _
        rw [regOrSp_setRegOrSp_self, hdelta]
      · intro r hr _
        exact regOrSp_setRegOrSp_of_ne m hr.symm _
    · rename_i hsign
      have hdelta : -UInt64.ofNat (BitVec.ofNat 12 delta.toInt.natAbs).toNat = delta.toUInt64 := by
        apply UInt64.toNat_inj.1
        rw [UInt64.toNat_neg, himm]
        rw [maxImm] at hsmall
        show (18446744073709551616 - _) % 18446744073709551616 = _
        omega
      refine ⟨_, rfl, ?_, ?_, rfl, rfl⟩
      · show (m.setRegOrSp 10 _).regOrSp 10 = _
        rw [regOrSp_setRegOrSp_self, UInt64.sub_eq_add_neg, hdelta]
      · intro r hr _
        exact regOrSp_setRegOrSp_of_ne m hr.symm _
  · have hloaded := execAll_loadWord env sink m (r := 13) (by decide) delta.toUInt64
    refine ⟨_, Semantics.execAll_append hloaded rfl, ?_, ?_, rfl, rfl⟩
    · show (Machine.setRegOrSp _ 10 (Machine.regOrSp _ 10 + Machine.regOrSp _ 13)).regOrSp 10 = _
      rw [regOrSp_setRegOrSp_self, regOrSp_setRegOrSp_self, regOrSp_setRegOrSp_of_ne _ (by decide)]
    · intro r hr hr'
      show (Machine.setRegOrSp _ 10 _).regOrSp r = _
      rw [regOrSp_setRegOrSp_of_ne _ hr.symm, regOrSp_setRegOrSp_of_ne _ hr'.symm]

theorem taken_compare (m : Machine σ) (a b : UInt64) :
    (m.compare a b).taken .above = decide (b.toNat < a.toNat) := by
  show (decide (b ≤ a) && !(a == b)) = _
  rw [Bool.eq_iff_iff]
  simp only [Bool.and_eq_true, decide_eq_true_eq, Bool.not_eq_true', beq_eq_false_iff_ne, ne_eq, ← UInt64.toNat_inj,
    UInt64.le_iff_toNat_le]
  omega

variable (env sink) in
/-- The index is compared with the last one, which is an immediate or in a register. -/
theorem exists_compareIndex (m : Machine σ) (hlast : last < 2 ^ 64) :
    ∃ y, (semantics env sink).execAll (compareIndex last) m = some y ∧
      (semantics env sink).taken .above y = decide (last < (m.regOrSp 10).toNat) ∧
      (∀ r, r ≠ 14 → y.regOrSp r = m.regOrSp r) ∧ y.stack = m.stack ∧ y.memory = m.memory := by
  unfold compareIndex
  split
  · rename_i hsmall
    have hlt : last < 2 ^ 12 := Nat.lt_of_le_of_lt hsmall (by decide)
    refine ⟨_, rfl, ?_, fun r _ => rfl, rfl, rfl⟩
    show (m.compare (m.regOrSp 10) _).taken .above = _
    rw [taken_compare, BitVec.toNat_ofNat, Nat.mod_eq_of_lt hlt, UInt64.toNat_ofNat_of_lt' hlast]
  · have hloaded := execAll_loadWord env sink m (r := 14) (by decide) (UInt64.ofNat last)
    refine ⟨_, Semantics.execAll_append hloaded rfl, ?_, ?_, rfl, rfl⟩
    · show (Machine.compare _ (Machine.regOrSp _ 10) (Machine.regOrSp _ 14)).taken .above = _
      rw [taken_compare, regOrSp_setRegOrSp_self, regOrSp_setRegOrSp_of_ne _ (by decide),
        UInt64.toNat_ofNat_of_lt' hlast]
    · intro r hr
      exact regOrSp_setRegOrSp_of_ne m hr.symm _

variable (counting) in
/-- A move writes the cache back, adds to the index and tells whether that has left the tape. -/
theorem exists_move {t : Tape} (hstore : (semantics env sink).exec (.storeByte 11 9 10) m = some { m with tape := t })
    (hlast : last + 1 = t.capacity) (delta : Int64) :
    ∃ y, (semantics env sink).execAll ((dialect last counting env.host).move delta) m = some y ∧
      (semantics env sink).taken .above y = decide (t.capacity ≤ (m.regOrSp 10 + delta.toUInt64).toNat) ∧
      y.regOrSp 10 = m.regOrSp 10 + delta.toUInt64 ∧
      (∀ r, r ≠ 10 → r ≠ 13 → r ≠ 14 → y.regOrSp r = m.regOrSp r) ∧ y.stack = m.stack ∧
      y.memory = { m.memory with tape := t } := by
  have hbound := t.capacity_lt
  obtain ⟨a, ha, hindex, hreg, hstack, hmemory⟩ := exists_moveIndex env sink { m with tape := t } delta
  obtain ⟨y, hy, htaken, hreg', hstack', hmemory'⟩ := exists_compareIndex env sink a (show last < 2 ^ 64 by omega)
  have hmoved : (semantics env sink).execAll (.storeByte 11 9 10 :: moveIndex delta) m = some a := by
    rw [Semantics.execAll, hstore, Option.bind_some, ha]
  refine ⟨y, Semantics.execAll_append hmoved hy, ?_, (hreg' 10 (by decide)).trans hindex, ?_, hstack'.trans hstack,
    hmemory'.trans hmemory⟩
  · rw [htaken, hindex, decide_eq_decide, ← hlast]
    exact Nat.lt_iff_add_one_le
  · intro r h₁₀ h₁₃ h₁₄
    exact (hreg' r h₁₄).trans (hreg r h₁₀ h₁₃)

variable (sink counting last) in
/-- Reading a cell fills the cache. -/
theorem execAll_reload {i : Nat} (hbase : m.regOrSp 9 = env.tapeBase) (hindex : m.regOrSp 10 = UInt64.ofNat i)
    (hlt : i < m.tape.capacity) :
    (semantics env sink).execAll (dialect last counting env.host).reload m =
      some (m.setRegOrSp 11 (m.tape.cell i).toUInt64) := by
  have hload : m.load8? env (m.regOrSp 9 + m.reg 10) = some (m.tape.cell i) := by
    rw [reg_of_ne m (by decide), hbase, hindex, load8?, Tape.load_eq env.tapeBase hlt]
  show (semantics env sink).execAll [.loadByte 11 9 10] m = _
  rw [Semantics.execAll, exec_of_straight rfl, executeOp, hload]
  rfl

theorem Holds.exists_move (h : Holds env sink counting m₀ s out m) (hlast : last + 1 = m₀.tape.capacity)
    (delta : Int64) :
    ∃ y, (semantics env sink).execAll ((dialect last counting env.host).move delta) m = some y ∧
      (semantics env sink).taken .above y =
        decide (s.tape.capacity ≤ (UInt64.ofNat s.cursor.ptr + delta.toUInt64).toNat) ∧
      Faulted sink counting m₀ s out (UInt64.ofNat s.cursor.ptr + delta.toUInt64) y ∧
      ∀ r, r ≠ 10 → r ≠ 13 → r ≠ 14 → y.regOrSp r = m.regOrSp r := by
  have hcapacity : s.tape.capacity = m₀.tape.capacity := h.memory.entered
  rw [← hcapacity] at hlast
  obtain ⟨y, hy, htaken, hindex, hreg, hstack, hmemory⟩ := Machine.exists_move counting h.store hlast delta
  rw [h.index] at htaken hindex
  refine ⟨y, hy, htaken, ?_, hreg⟩
  have hstored := h.stored (y := y)
    (fun r hr => hreg r (by rintro rfl; cases hr) (by rintro rfl; cases hr) (by rintro rfl; cases hr)) hstack hmemory
  exact { toStored := hstored, index := hindex }

theorem Holds.fault (h : Holds env sink counting m₀ s out m) (hlast : last + 1 = m₀.tape.capacity)
    {delta : Int64} {e : Error} (hm : s.tape.offset s.cursor.ptr delta = .error e) :
    ∃ y, (semantics env sink).execAll ((dialect last counting env.host).move delta) m = some y ∧
      (semantics env sink).taken .above y = true ∧
      Faulted sink counting m₀ s out (UInt64.ofNat s.cursor.ptr + delta.toUInt64) y := by
  obtain ⟨y, hy, htaken, hfault, _⟩ := h.exists_move hlast delta
  refine ⟨y, hy, ?_, hfault⟩
  rw [htaken]
  exact decide_eq_true (Tape.capacity_le_of_offset_error h.memory.ptr_lt hm)

theorem Holds.move (h : Holds env sink counting m₀ s out m) (hlast : last + 1 = m₀.tape.capacity)
    {delta : Int64} {ptr : Nat} (hm : s.tape.offset s.cursor.ptr delta = .ok ptr) :
    ∃ y z, (semantics env sink).execAll ((dialect last counting env.host).move delta) m = some y ∧
      (semantics env sink).taken .above y = false ∧
      (semantics env sink).execAll (dialect last counting env.host).reload y = some z ∧
      Holds env sink counting m₀ (s.withPtr ptr) out z := by
  obtain ⟨y, hy, htaken, hfault, hreg⟩ := h.exists_move hlast delta
  obtain ⟨hword, hlt⟩ := (Tape.offset_eq_ok_iff h.memory.ptr_lt delta ptr).1 hm
  have hbase : y.regOrSp 9 = env.tapeBase := (hreg 9 (by decide) (by decide) (by decide)).trans h.base
  have hindex : y.regOrSp 10 = UInt64.ofNat ptr := by
    rw [hfault.index, ← hword, UInt64.ofNat_toNat]
  have htape : y.tape = s.tape := hfault.memory.tape
  have hload := execAll_reload sink counting last hbase hindex (htape.symm ▸ hlt)
  rw [htape] at hload
  have hother {r : Reg} (hr : (11 : Reg) ≠ r) :
      (y.setRegOrSp 11 (s.tape.cell ptr).toUInt64).regOrSp r = y.regOrSp r := regOrSp_setRegOrSp_of_ne y hr _
  refine ⟨y, y.setRegOrSp 11 (s.tape.cell ptr).toUInt64, hy, ?_, hload, ?_⟩
  · rw [htaken, hword]
    exact decide_eq_false (Nat.not_le_of_lt hlt)
  · exact
      { base := (hother (by decide)).trans hbase
        index := (hother (by decide)).trans hindex
        cached := regOrSp_setRegOrSp_self y 11 _
        block := fun hc =>
          (hother (by decide)).trans ((hreg 12 (by decide) (by decide) (by decide)).trans (h.block hc))
        memory := h.memory.of_stores hlt hfault.memory
        framed := hfault.framed.congr (fun r hr => hother (by rintro rfl; cases hr)) (.refl y _) }

/-! ### Output -/

theorem output_eq (last : Nat) (counting : Bool) (calls : HostCalls) :
    (dialect last counting calls).output =
      [.storePairPre 9 10 sp (BitVec.ofInt 7 (-4)), .storePair 11 12 sp 2] ++ ([.maskByte 0 11] ++
        ((Op.loadWord 16 calls.putByte ++ [.call 16]) ++ [.loadPair 11 12 sp 2, .loadPairPost 9 10 sp 4])) := by
  simp [dialect]

/-- What was saved is still there after a call. -/
theorem Saved.congr (h : Saved m y) (hroom : 32 ≤ (m.regOrSp A64.sp).toNat) {z : Machine σ}
    (hsp : z.regOrSp A64.sp = y.regOrSp A64.sp) (hstack : SameStack y z (y.regOrSp A64.sp)) : Saved m z := by
  have habove {n : Nat} (hn : n ≤ 32) : ¬ m.regOrSp A64.sp - UInt64.ofNat n < y.regOrSp A64.sp := by
    rw [h.sp, UInt64.lt_iff_toNat_lt, toNat_sub_ofNat (by omega),
      show (m.regOrSp A64.sp - 32).toNat = _ from toNat_sub_ofNat (n := 32) hroom]
    omega
  exact
    { sp := hsp.trans h.sp
      x9 := (hstack _ (habove (n := 32) (by decide))).trans h.x9
      x10 := (hstack _ (habove (n := 24) (by decide))).trans h.x10
      x11 := (hstack _ (habove (n := 16) (by decide))).trans h.x11
      x12 := (hstack _ (habove (n := 8) (by decide))).trans h.x12 }

/-- The registers that the code of an output saves. -/
def savedRegs : List Reg := [9, 10, 11, 12]

variable (last) in
/-- An output gives back what it has saved. -/
theorem Holds.exists_output (h : Holds env sink counting m₀ s out m) :
    ∃ y, (semantics env sink).execAll (dialect last counting env.host).output m = some y ∧
      Holds env sink counting m₀ s (out.push s.cell) y ∧ ∀ r ∈ savedRegs, y.regOrSp r = m.regOrSp r := by
  have hroom : 32 ≤ (m.regOrSp sp).toNat := by
    have hsp := h.framed.toNat_sp
    have hroom := h.framed.room
    omega
  -- the pairs are stored, the byte is passed in `x0`, the host is called, the pairs are loaded
  obtain ⟨a, ha, hsaved, hreg, hstack, hmemory⟩ := exists_save env sink h.framed.aligned_sp hroom
  let b := a.setRegOrSp 0 (a.reg 11).toUInt8.toUInt64
  have hother {r : Reg} (hr : (0 : Reg) ≠ r) : b.regOrSp r = a.regOrSp r := regOrSp_setRegOrSp_of_ne a hr _
  have haligned : b.regOrSp sp % 16 = 0 := by
    rw [hother (by decide), hsaved.sp]
    exact aligned_sub (n := 32) h.framed.aligned_sp rfl hroom
  have hput : b.host.call? env.host sink env.host.putByte (b.regOrSp 0) = some (m.host.put sink s.cell) := by
    rw [HostState.call_putByte, regOrSp_setRegOrSp_self, UInt8.toUInt8_toUInt64, reg_of_ne a (by decide),
      hreg 11 (by decide), h.cached, UInt8.toUInt8_toUInt64, show b.host = m.host from congrArg Memory.host hmemory]
  obtain ⟨c, hc, hcalled⟩ := exists_hostCall haligned hput
  have hspc : c.regOrSp sp = a.regOrSp sp := (hcalled.reg (by decide)).trans (hother (by decide))
  have hstackc : SameStack a c (a.regOrSp sp) := by
    have := hcalled.stack
    rwa [hother (by decide)] at this
  have halignedc : c.regOrSp sp % 16 = 0 := by rw [hspc, ← hother (by decide), haligned]
  obtain ⟨z, hz, hres⟩ := exists_restore env sink (hsaved.congr hroom hspc hstackc) halignedc
  have hkept (r : Reg) (hr : r.callerSaved = false) : z.regOrSp r = m.regOrSp r := by
    by_cases hsp : r = sp
    · rw [hsp, hres.sp]
    · rw [hres.other hr hsp, hcalled.reg hr, hother (by rintro rfl; cases hr), hreg r hsp]
  have hbelow : ¬ m.regOrSp sp < a.regOrSp sp := by
    rw [hsaved.sp, UInt64.lt_iff_toNat_lt, show (m.regOrSp sp - 32).toNat = _ from toNat_sub_ofNat (n := 32) hroom]
    omega
  have hsame : SameStack m z (m.regOrSp sp) := by
    apply hstack.trans
    intro x hx
    rw [hres.stack]
    exact hstackc.mono hbelow x hx
  refine ⟨z, ?_, ?_, ?_⟩
  · rw [output_eq]
    refine Semantics.execAll_append ha (Semantics.execAll_append (y := b) rfl ?_)
    exact Semantics.execAll_append hc hz
  · refine ⟨hres.x9.trans h.base, hres.x10.trans h.index, hres.x11.trans h.cached,
      fun hc => hres.x12.trans (h.block hc), ?_, h.framed.congr hkept hsame⟩
    rw [hres.memory, hcalled.memory, show b.memory = m.memory from hmemory]
    exact h.memory.put s.cell
  · simpa [savedRegs] using ⟨hres.x9, hres.x10, hres.x11, hres.x12⟩

theorem Holds.output (h : Holds env sink counting m₀ s out m) :
    ∃ y, (semantics env sink).execAll (dialect last counting env.host).output m = some y ∧
      Holds env sink counting m₀ s (out.push s.cell) y := by
  obtain ⟨y, hy, hholds, _⟩ := h.exists_output last
  exact ⟨y, hy, hholds⟩

/-- Every part of the dialect keeps what a machine holds. -/
theorem realizes (hlast : last + 1 = m₀.tape.capacity) :
    (dialect last counting env.host).Realizes (semantics env sink) counting
      (Holds env sink counting m₀) (Faulted sink counting m₀) where
  count_nil h k := by
    subst h
    rfl
  count_ne_nil h k := by
    subst h
    exact List.cons_ne_nil _ _
  add_ne_nil delta := List.cons_ne_nil _ _
  set_ne_nil value := List.cons_ne_nil _ _
  output_ne_nil := by
    rw [output_eq]
    exact List.cons_ne_nil _ _
  always x := rfl
  ptr_lt h := h.memory.ptr_lt
  congr h ht hp hc := h.congr_state ht hp hc
  count h i := h.count i
  add h delta := h.add delta
  set h value := h.set value
  output h := h.output
  test h := h.test
  move h _ _ hm := h.move hlast hm
  fault h _ _ hm := h.fault hlast hm

end Machine

end TapeLang.A64
