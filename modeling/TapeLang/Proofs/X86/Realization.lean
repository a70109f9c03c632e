import TapeLang.Proofs.X86.Invariant

/-!
# The parts of the dialect

Each part does to a machine that holds a state of the interpreter what the interpreter does to that
state.
-/

namespace TapeLang.X86

namespace Machine

variable {σ : Type} {env : Environment} {sink : Sink σ} {counting : Bool} {m₀ m y : Machine σ}
  {s : Interpreter} {out : Array UInt8} {last : Int32}

/-! ### Counters -/

theorem extend_slot (k : Kind) : extend (Int32.ofNat (Counters.slot k)) = UInt64.ofNat (Counters.slot k) := by
  cases k <;> rfl

variable (sink) in
/-- Incrementing a word of the block counts one more instruction of its kind. -/
theorem exists_increment {c : Counters} (hcount : m.counters = some c) (hblock : m.reg .r10 = env.countersBase)
    (k : Kind) :
    ∃ y, (semantics env sink).execAll (Op.increment .r10 (Int32.ofNat (Counters.slot k)) .r11) m = some y ∧
      (∀ r, r ≠ .r11 → y.reg r = m.reg r) ∧ y.liveStack = m.liveStack ∧
      y.memory = { m.memory with counters := some (c.record k) } := by
  have hload : m.load64? env (m.reg .r10 + extend (Int32.ofNat (Counters.slot k))) = some (c.get k) := by
    rw [load64?, hcount, hblock, extend_slot, Option.bind_some, Counters.load_slot]
  let a : Machine σ := { (m.setReg .r11 (c.get k)).setReg .r11 (c.get k + 1) with
    flags := ⟨c.get k + 1 == 0, c.get k + 1 < c.get k⟩ }
  have hreg (r : Reg) (hr : r ≠ .r11) : a.reg r = m.reg r := by
    show ((m.setReg .r11 _).setReg .r11 _).reg r = m.reg r
    rw [reg_setReg_of_ne _ hr.symm, reg_setReg_of_ne _ hr.symm]
  have hscratch : a.reg .r11 = c.get k + 1 := reg_setReg_self _ _ _
  have hstore : a.store64? env (a.reg .r10 + extend (Int32.ofNat (Counters.slot k))) (a.reg .r11) =
      some { a with counters := some (c.record k) } := by
    rw [store64?, hreg .r10 (by decide), hblock, extend_slot, hscratch, show a.counters = some c from hcount,
      Option.bind_some, Counters.store_slot]
    rfl
  refine ⟨{ a with counters := some (c.record k) }, ?_, hreg, ?_, rfl⟩
  · have hfirst : (semantics env sink).execAll
        [.load64 .r11 .r10 (Int32.ofNat (Counters.slot k)), .addImm .r11 1] m = some a := by
      rw [Semantics.execAll, exec_of_straight rfl, executeOp, hload]
      show (semantics env sink).execAll [.addImm .r11 1] (m.setReg .r11 (c.get k)) = _
      rw [Semantics.execAll, exec_of_straight rfl, executeOp, reg_setReg_self]
      rfl
    have hlast : (semantics env sink).execAll [.store64 .r10 (Int32.ofNat (Counters.slot k)) .r11] a =
        some { a with counters := some (c.record k) } := by
      rw [Semantics.execAll, exec_of_straight rfl, executeOp, hstore]
      rfl
    exact Semantics.execAll_append hfirst hlast
  · rw [liveStack, liveStack]
    show m.stack.dropWhile (·.1 < a.reg .rsp) = _
    rw [hreg .rsp (by decide)]

variable (last) in
/-- Counting uses a scratch register only. -/
theorem Holds.exists_count (h : Holds env sink counting m₀ s out m) (i : Instruction) :
    ∃ y, (semantics env sink).execAll ((dialect last counting env.host).count i.kind) m = some y ∧
      Holds env sink counting m₀ (s.pass i) out y ∧ ∀ r, r ≠ .r11 → y.reg r = m.reg r := by
  cases hc : counting with
  | false =>
    subst hc
    exact ⟨m, rfl, ⟨h.base, h.index, h.cached, h.block, h.memory.uncounted i, h.framed⟩, fun _ _ => rfl⟩
  | true =>
    subst hc
    obtain ⟨c, hcount, hmemory⟩ := h.memory.record i
    obtain ⟨y, hy, hreg, hlive, hcounted⟩ := exists_increment sink hcount (h.block rfl) i.kind
    refine ⟨y, hy, ?_, hreg⟩
    exact
      { base := (hreg _ (by decide)).trans h.base
        index := (hreg _ (by decide)).trans h.index
        cached := by
          rw [hreg _ (by decide)]
          exact h.cached
        block := fun hc => (hreg _ (by decide)).trans (h.block hc)
        memory := by
          rw [hcounted]
          exact hmemory
        framed := h.framed.congr (fun r hr => hreg r (by rintro rfl; cases hr)) hlive }

theorem Holds.count (h : Holds env sink counting m₀ s out m) (i : Instruction) :
    ∃ y, (semantics env sink).execAll ((dialect last counting env.host).count i.kind) m = some y ∧
      Holds env sink counting m₀ (s.pass i) out y := by
  obtain ⟨y, hy, hholds, _⟩ := h.exists_count last i
  exact ⟨y, hy, hholds⟩

/-! ### The cached cell -/

theorem Holds.add (h : Holds env sink counting m₀ s out m) (delta : UInt8) :
    ∃ y, (semantics env sink).execAll ((dialect last counting env.host).add delta) m = some y ∧
      Holds env sink counting m₀ (s.withCell (s.cell + delta)) out y := by
  refine ⟨_, rfl, h.recache ?_ ?_ ?_ rfl⟩
  · intro r hr
    exact reg_setReg_of_ne m hr.symm _
  · rw [← h.cached]
    exact toUInt8_reg_setByte m .r8 _
  · exact liveStack_setReg m (by decide) _

theorem Holds.set (h : Holds env sink counting m₀ s out m) (value : UInt8) :
    ∃ y, (semantics env sink).execAll ((dialect last counting env.host).set value) m = some y ∧
      Holds env sink counting m₀ (s.withCell value) out y := by
  by_cases hz : value = 0
  · subst hz
    refine ⟨_, rfl, h.recache ?_ ?_ ?_ rfl⟩
    · intro r hr
      exact reg_setReg_of_ne m hr.symm _
    · show ((m.setReg .r8 ((m.reg .r8).toUInt32 ^^^ (m.reg .r8).toUInt32).toUInt64).reg .r8).toUInt8 = 0
      rw [reg_setReg_self, UInt32.xor_self]
      rfl
    · exact liveStack_setReg m (by decide) _
  · have hset : (dialect last counting env.host).set value = [.movImm8 (.low .r8) value] := if_neg hz
    rw [hset]
    refine ⟨_, rfl, h.recache ?_ ?_ ?_ rfl⟩
    · intro r hr
      exact reg_setReg_of_ne m hr.symm _
    · exact toUInt8_reg_setByte m .r8 _
    · exact liveStack_setReg m (by decide) _

theorem Holds.test (h : Holds env sink counting m₀ s out m) :
    ∃ y, (semantics env sink).execAll (dialect last counting env.host).test m = some y ∧
      (semantics env sink).taken .equal y = (s.cell == 0) ∧ Holds env sink counting m₀ s out y := by
  refine ⟨_, rfl, ?_, h.congr (fun _ _ => rfl) rfl rfl⟩
  show ((m.reg .r8).toUInt8 == 0) = _
  rw [h.cached]

/-! ### Moves -/

variable (env sink) in
theorem exists_addWord (m : Machine σ) (delta : Int64) :
    ∃ y, (semantics env sink).execAll (Op.addWord .rdx delta .r11) m = some y ∧
      y.reg .rdx = m.reg .rdx + delta.toUInt64 ∧ (∀ r, r ≠ .rdx → r ≠ .r11 → y.reg r = m.reg r) ∧
      y.liveStack = m.liveStack ∧ y.memory = m.memory := by
  rw [Op.addWord]
  split
  · rename_i hfits
    refine ⟨_, rfl, ?_, ?_, liveStack_setReg m (by decide) _, rfl⟩
    · show (m.setReg .rdx _).reg .rdx = _
      rw [reg_setReg_self, extend, hfits]
    · intro r hr _
      exact reg_setReg_of_ne m hr.symm _
  · refine ⟨_, rfl, ?_, ?_, ?_, rfl⟩
    · show ((m.setReg .r11 _).setReg .rdx _).reg .rdx = _
      rw [reg_setReg_self, reg_setReg_self, reg_setReg_of_ne _ (by decide)]
    · intro r hr hr'
      show ((m.setReg .r11 _).setReg .rdx _).reg r = _
      rw [reg_setReg_of_ne _ hr.symm, reg_setReg_of_ne _ hr'.symm]
    · show ((m.setReg .r11 _).setReg .rdx _).liveStack = _
      rw [liveStack_setReg _ (by decide), liveStack_setReg _ (by decide)]

/-- The immediate of the comparison is the last index. -/
theorem toNat_extend_last {capacity : Nat} (h : lastIndex? capacity = some last) :
    0 < capacity ∧ (extend last).toNat = capacity - 1 := by
  rw [lastIndex?] at h
  split at h
  · rename_i hc
    cases h
    refine ⟨hc.1, ?_⟩
    have hlt : capacity - 1 < 2 ^ 31 := by omega
    have hint : (Int32.ofNat (capacity - 1)).toInt = (capacity - 1 : Nat) := Int32.toInt_ofNat_of_lt hlt
    have h64 : (Int32.ofNat (capacity - 1)).toInt64.toInt = (capacity - 1 : Nat) := by
      rw [Int32.toInt_toInt64, hint]
    have hword := toNat_toUInt64 (Int32.ofNat (capacity - 1)).toInt64
    rw [h64] at hword
    rw [extend]
    omega
  · cases h

/-- A comparison with the last index tells whether an index is beyond it. -/
theorem above_compare {capacity : Nat} (hlast : lastIndex? capacity = some last) (w : UInt64) :
    (!decide (w < extend last) && !(w == extend last)) = decide (capacity ≤ w.toNat) := by
  obtain ⟨hpos, hnat⟩ := toNat_extend_last hlast
  have hlt : w < extend last ↔ w.toNat < capacity - 1 := by rw [UInt64.lt_iff_toNat_lt, hnat]
  have heq : w = extend last ↔ w.toNat = capacity - 1 := by rw [← UInt64.toNat_inj, hnat]
  rw [Bool.eq_iff_iff]
  simp only [Bool.and_eq_true, Bool.not_eq_true', decide_eq_false_iff_not, beq_eq_false_iff_ne, ne_eq,
    decide_eq_true_eq, hlt, heq]
  omega

variable (counting) in
/-- A move writes the cache back, adds to the index and tells whether that has left the tape. -/
theorem exists_move {t : Tape}
    (hstore : (semantics env sink).exec (.store8 .rcx .rdx (.low .r8)) m = some { m with tape := t })
    (hlast : lastIndex? t.capacity = some last) (delta : Int64) :
    ∃ y, (semantics env sink).execAll ((dialect last counting env.host).move delta) m = some y ∧
      (semantics env sink).taken .above y = decide (t.capacity ≤ (m.reg .rdx + delta.toUInt64).toNat) ∧
      y.reg .rdx = m.reg .rdx + delta.toUInt64 ∧ (∀ r, r ≠ .rdx → r ≠ .r11 → y.reg r = m.reg r) ∧
      y.liveStack = m.liveStack ∧ y.memory = { m.memory with tape := t } := by
  obtain ⟨a, ha, hindex, hreg, hlive, hmemory⟩ := exists_addWord env sink { m with tape := t } delta
  have hmoved : (semantics env sink).execAll (.store8 .rcx .rdx (.low .r8) :: Op.addWord .rdx delta .r11) m = some a := by
    rw [Semantics.execAll, hstore, Option.bind_some, ha]
  refine ⟨a.compare (a.reg .rdx) (extend last), Semantics.execAll_append hmoved rfl, ?_, hindex, hreg, hlive, hmemory⟩
  show (!decide (a.reg .rdx < extend last) && !(a.reg .rdx == extend last)) = _
  rw [above_compare hlast, hindex]
  rfl

variable (sink counting last) in
/-- Reading a cell fills the cache. -/
theorem execAll_reload {i : Nat} (hbase : m.reg .rcx = env.tapeBase) (hindex : m.reg .rdx = UInt64.ofNat i)
    (hlt : i < m.tape.capacity) :
    (semantics env sink).execAll (dialect last counting env.host).reload m =
      some (m.setByte (.low .r8) (m.tape.cell i)) := by
  have hload : m.load8? env (m.reg .rcx + m.reg .rdx) = some (m.tape.cell i) := by
    rw [hbase, hindex, load8?, Tape.load_eq env.tapeBase hlt]
  show (semantics env sink).execAll [.load8 (.low .r8) .rcx .rdx] m = _
  rw [Semantics.execAll, exec_of_straight rfl, executeOp, hload]
  rfl

theorem Holds.exists_move (h : Holds env sink counting m₀ s out m)
    (hlast : lastIndex? m₀.tape.capacity = some last) (delta : Int64) :
    ∃ y, (semantics env sink).execAll ((dialect last counting env.host).move delta) m = some y ∧
      (semantics env sink).taken .above y =
        decide (s.tape.capacity ≤ (UInt64.ofNat s.cursor.ptr + delta.toUInt64).toNat) ∧
      Faulted sink counting m₀ s out (UInt64.ofNat s.cursor.ptr + delta.toUInt64) y ∧
      ∀ r, r ≠ .rdx → r ≠ .r11 → y.reg r = m.reg r := by
  have hcapacity : s.tape.capacity = m₀.tape.capacity := h.memory.entered
  rw [← hcapacity] at hlast
  obtain ⟨y, hy, htaken, hindex, hreg, hlive, hmemory⟩ := Machine.exists_move counting h.store hlast delta
  rw [h.index] at htaken hindex
  refine ⟨y, hy, htaken, ?_, hreg⟩
  exact
    { toStored := h.stored (fun r hr => hreg r (by rintro rfl; cases hr) (by rintro rfl; cases hr)) hlive hmemory
      index := hindex }

theorem Holds.fault (h : Holds env sink counting m₀ s out m) (hlast : lastIndex? m₀.tape.capacity = some last)
    {delta : Int64} {e : Error} (hm : s.tape.offset s.cursor.ptr delta = .error e) :
    ∃ y, (semantics env sink).execAll ((dialect last counting env.host).move delta) m = some y ∧
      (semantics env sink).taken .above y = true ∧
      Faulted sink counting m₀ s out (UInt64.ofNat s.cursor.ptr + delta.toUInt64) y := by
  obtain ⟨y, hy, htaken, hfault, _⟩ := h.exists_move hlast delta
  refine ⟨y, hy, ?_, hfault⟩
  rw [htaken]
  exact decide_eq_true (Tape.capacity_le_of_offset_error h.memory.ptr_lt hm)

theorem Holds.move (h : Holds env sink counting m₀ s out m) (hlast : lastIndex? m₀.tape.capacity = some last)
    {delta : Int64} {ptr : Nat} (hm : s.tape.offset s.cursor.ptr delta = .ok ptr) :
    ∃ y z, (semantics env sink).execAll ((dialect last counting env.host).move delta) m = some y ∧
      (semantics env sink).taken .above y = false ∧
      (semantics env sink).execAll (dialect last counting env.host).reload y = some z ∧
      Holds env sink counting m₀ (s.withPtr ptr) out z := by
  obtain ⟨y, hy, htaken, hfault, hreg⟩ := h.exists_move hlast delta
  obtain ⟨hword, hlt⟩ := (Tape.offset_eq_ok_iff h.memory.ptr_lt delta ptr).1 hm
  have hindex : y.reg .rdx = UInt64.ofNat ptr := by
    rw [hfault.index, ← hword, UInt64.ofNat_toNat]
  have htape : y.tape = s.tape := hfault.memory.tape
  have hload := execAll_reload sink counting last ((hreg .rcx (by decide) (by decide)).trans h.base) hindex
    (htape.symm ▸ hlt)
  rw [htape] at hload
  refine ⟨y, y.setByte (.low .r8) (s.tape.cell ptr), hy, ?_, hload, ?_⟩
  · rw [htaken, hword]
    exact decide_eq_false (Nat.not_le_of_lt hlt)
  · exact
      { base := (reg_setReg_of_ne y (by decide) _).trans ((hreg _ (by decide) (by decide)).trans h.base)
        index := (reg_setReg_of_ne y (by decide) _).trans hindex
        cached := toUInt8_reg_setByte y .r8 _
        block := fun hc => (reg_setReg_of_ne y (by decide) _).trans ((hreg _ (by decide) (by decide)).trans (h.block hc))
        memory := h.memory.of_stores hlt hfault.memory
        framed := hfault.framed.congr (fun r hr => reg_setReg_of_ne y (by rintro rfl; cases hr) _)
          (liveStack_setReg y (by decide) _) }

/-! ### Output -/

/-- The registers that the code of an output saves. -/
def savedRegs (counting : Bool) : List Reg := [.rcx, .rdx, .r8] ++ if counting then [.r10] else []

theorem output_eq (last : Int32) (counting : Bool) (calls : HostCalls) :
    (dialect last counting calls).output =
      (savedRegs counting).map .push ++ ([.zeroExtend8 .rdi (.low .r8)] ++
        ((Op.openCall ++ Op.callAddress calls.putByte ++ Op.closeCall) ++ (savedRegs counting).reverse.map .pop)) := by
  cases counting <;> rfl

/-- A register that the callee has to save is not among those that are saved around an output. -/
theorem not_mem_savedRegs {r : Reg} (h : r.callerSaved = false) : r ∉ savedRegs counting := by
  cases counting <;> cases r <;> first | decide | cases h

variable (last) in
/-- An output gives back what it has saved. -/
theorem Holds.exists_output (h : Holds env sink counting m₀ s out m) :
    ∃ y, (semantics env sink).execAll (dialect last counting env.host).output m = some y ∧
      Holds env sink counting m₀ s (out.push s.cell) y ∧ ∀ r ∈ savedRegs counting, y.reg r = m.reg r := by
  -- the registers are pushed, the byte is passed in `rdi`, the host is called, the registers are popped
  let a := m.pushAll (savedRegs counting)
  have hmemory : a.memory = m.memory := memory_pushAll m _
  have hreg {r : Reg} (hr : r ≠ .rsp) : a.reg r = m.reg r := reg_pushAll m _ hr
  let b := a.setReg .rdi (a.reg .r8).toUInt8.toUInt64
  have harg : (b.reg .rdi).toUInt8 = s.cell := by
    rw [reg_setReg_self, UInt8.toUInt8_toUInt64, hreg (by decide), h.cached]
  have hput : b.host.call? env.host sink env.host.putByte (b.reg .rdi) = some (m.host.put sink s.cell) := by
    rw [HostState.call_putByte, harg, show b.host = m.host from congrArg Memory.host hmemory]
  obtain ⟨y, hy, hcalled⟩ := exists_hostCall hput
  have hrsp : y.reg .rsp = a.reg .rsp := (hcalled.reg rfl).trans (reg_setReg_of_ne a (by decide) _)
  have hlive : y.liveStack = a.liveStack := hcalled.liveStack.trans (liveStack_setReg a (by decide) _)
  obtain ⟨z, hz, hres⟩ := execAll_pops env sink (m := m) (not_mem_savedRegs rfl) hlive hrsp
  have hkept {r : Reg} (hr : r.callerSaved = false) : z.reg r = m.reg r := by
    by_cases hsp : r = .rsp
    · rw [hsp, hres.rsp]
    · rw [hres.other (not_mem_savedRegs hr) hsp, hcalled.reg hr,
        reg_setReg_of_ne a (by rintro rfl; cases hr), hreg hsp]
  refine ⟨z, ?_, ?_, fun r hr => hres.saved hr⟩
  · rw [output_eq]
    refine Semantics.execAll_append (execAll_pushes m _) (Semantics.execAll_append (y := b) rfl ?_)
    exact Semantics.execAll_append hy hz
  · exact
      { base := (hres.saved (by simp [savedRegs])).trans h.base
        index := (hres.saved (by simp [savedRegs])).trans h.index
        cached := (congrArg UInt64.toUInt8 (hres.saved (by simp [savedRegs]))).trans h.cached
        block := fun hc => (hres.saved (by simp [savedRegs, hc])).trans (h.block hc)
        memory := by
          rw [hres.memory, hcalled.memory, show b.memory = m.memory from hmemory]
          exact h.memory.put s.cell
        framed := h.framed.congr (fun r hr => hkept hr) hres.liveStack }

theorem Holds.output (h : Holds env sink counting m₀ s out m) :
    ∃ y, (semantics env sink).execAll (dialect last counting env.host).output m = some y ∧
      Holds env sink counting m₀ s (out.push s.cell) y := by
  obtain ⟨y, hy, hholds, _⟩ := h.exists_output last
  exact ⟨y, hy, hholds⟩

/-- Every part of the dialect keeps what a machine holds. -/
theorem realizes (hlast : lastIndex? m₀.tape.capacity = some last) :
    (dialect last counting env.host).Realizes (semantics env sink) counting
      (Holds env sink counting m₀) (Faulted sink counting m₀) where
  count_nil h k := by
    subst h
    rfl
  count_ne_nil h k := by
    subst h
    exact List.cons_ne_nil _ _
  add_ne_nil delta := List.cons_ne_nil _ _
  set_ne_nil value := by
    show (if value = 0 then _ else _) ≠ []
    split <;> exact List.cons_ne_nil _ _
  output_ne_nil := by
    rw [output_eq]
    exact List.cons_ne_nil _ _
  always x := rfl
  ptr_lt h := h.memory.ptr_lt
  congr h ht hp hc := h.congr_state ht hp hc
  count h i := h.count i
  add h delta := h.add delta
  set h value := h.set value
  output h := h.output
  test h := h.test
  move h _ _ hm := h.move hlast hm
  fault h _ _ hm := h.fault hlast hm

end Machine

end TapeLang.X86
