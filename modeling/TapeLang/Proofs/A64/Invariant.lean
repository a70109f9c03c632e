import TapeLang.A64.Routine
import TapeLang.Proofs.A64.Stack
import TapeLang.Proofs.Code.Moves

/-!
# What generated code keeps

Between two instructions the machine holds the state of the interpreter: the current cell in `x11`
as a number below 256, all other cells on its tape (`Machine.Holds`).
-/

namespace TapeLang.A64

/-- Whether generated code leaves a register alone, but for the frame it opens. -/
def Reg.kept (r : Reg) : Bool := 19 ≤ r.val && r.val ≤ 28

theorem Reg.saved_cases {r : Reg} (h : r.callerSaved = false) : r.kept = true ∨ r = fp ∨ r = sp := by
  revert r
  decide

namespace Machine

variable {σ : Type} {env : Environment} {sink : Sink σ} {counting : Bool} {m₀ m y : Machine σ}
  {s : Interpreter} {out : Array UInt8}

/-- The frame that the entry opens, the routine having been entered with `m₀`. -/
structure Framed (m₀ m : Machine σ) : Prop where
  aligned : m₀.regOrSp A64.sp % 16 = 0
  /-- The frame, and the registers saved around a call. -/
  room : 48 ≤ (m₀.regOrSp A64.sp).toNat
  sp : m.regOrSp sp = m₀.regOrSp A64.sp - 16
  fp : m.regOrSp fp = m₀.regOrSp A64.sp - 16
  kept {r : Reg} (h : r.kept = true) : m.regOrSp r = m₀.regOrSp r
  savedFp : m.stack (m₀.regOrSp A64.sp - 16) = some (m₀.regOrSp A64.fp)
  savedLr : m.stack (m₀.regOrSp A64.sp - 8) = some (m₀.regOrSp lr)
  above : SameStack m₀ m (m₀.regOrSp A64.sp)

theorem Framed.aligned_sp (h : Framed m₀ m) : m.regOrSp A64.sp % 16 = 0 := by
  rw [h.sp]
  exact aligned_sub (n := 16) h.aligned rfl (by have := h.room; omega)

theorem Framed.toNat_sp (h : Framed m₀ m) : (m.regOrSp A64.sp).toNat + 16 = (m₀.regOrSp A64.sp).toNat := by
  have hroom := h.room
  rw [h.sp, show (m₀.regOrSp A64.sp - 16).toNat = _ from toNat_sub_ofNat (n := 16) (by omega)]
  omega

theorem Framed.congr (h : Framed m₀ m) (hreg : ∀ r : Reg, r.callerSaved = false → y.regOrSp r = m.regOrSp r)
    (hstack : SameStack m y (m.regOrSp A64.sp)) : Framed m₀ y := by
  have hsp := h.toNat_sp
  have hlr : ¬ m₀.regOrSp A64.sp - 8 < m.regOrSp A64.sp := by
    rw [UInt64.lt_iff_toNat_lt, show (m₀.regOrSp A64.sp - 8).toNat = _ from toNat_sub_ofNat (n := 8) (by omega)]
    omega
  have hfp : ¬ m₀.regOrSp A64.sp - 16 < m.regOrSp A64.sp := by
    rw [h.sp]
    exact UInt64.lt_irrefl _
  have habove : ¬ m₀.regOrSp A64.sp < m.regOrSp A64.sp := by
    rw [UInt64.lt_iff_toNat_lt]
    omega
  refine ⟨h.aligned, h.room, (hreg _ (by decide)).trans h.sp, (hreg _ (by decide)).trans h.fp, ?_,
    (hstack _ hfp).trans h.savedFp, (hstack _ hlr).trans h.savedLr, h.above.trans (hstack.mono habove)⟩
  intro r hr
  have hsaved : r.callerSaved = false := by
    revert r
    decide
  exact (hreg r hsaved).trans (h.kept hr)

/-- The machine holds a state of the interpreter in its memory. -/
structure Stored (counting : Bool) (m₀ : Machine σ) (s : Interpreter) (host : HostState σ) (calls : Nat)
    (m : Machine σ) : Prop where
  memory : Memory.Stores counting m₀.memory s host calls m.memory
  framed : Framed m₀ m

/-- The machine holds a state of the interpreter, the current cell in `x11`, the bytes `out` having
been written. -/
structure Holds (env : Environment) (sink : Sink σ) (counting : Bool) (m₀ : Machine σ) (s : Interpreter)
    (out : Array UInt8) (m : Machine σ) : Prop where
  base : m.regOrSp 9 = env.tapeBase
  index : m.regOrSp 10 = UInt64.ofNat s.cursor.ptr
  cached : m.regOrSp 11 = s.cell.toUInt64
  block (hc : counting = true) : m.regOrSp 12 = env.countersBase
  memory : Memory.Caches sink counting m₀.memory s out m.memory
  framed : Framed m₀ m

/-- The machine has reported nothing yet, and has the index of a move that failed. -/
structure Faulted (sink : Sink σ) (counting : Bool) (m₀ : Machine σ) (s : Interpreter) (out : Array UInt8)
    (index : UInt64) (m : Machine σ) : Prop
    extends Stored counting m₀ s (m₀.host.putAll sink out.toList) (m₀.calls + out.size) m where
  index : m.regOrSp 10 = index

/-! ### Changes that keep the invariant -/

theorem Holds.congr_state (h : Holds env sink counting m₀ s out m) {s' : Interpreter} (ht : s'.tape = s.tape)
    (hp : s'.cursor.ptr = s.cursor.ptr) (hc : s'.counters = s.counters) :
    Holds env sink counting m₀ s' out m := by
  have hcell : s'.cell = s.cell := by rw [Interpreter.cell, Interpreter.cell, ht, hp]
  refine ⟨h.base, ?_, ?_, h.block, h.memory.congr_state ht hp hc, h.framed⟩
  · rw [hp, h.index]
  · rw [hcell, h.cached]

/-- Where control is, and what the flags are, is of no account. -/
theorem Holds.congr (h : Holds env sink counting m₀ s out m) (hreg : y.registers = m.registers)
    (hstack : y.stack = m.stack) (hmemory : y.memory = m.memory) : Holds env sink counting m₀ s out y := by
  have hreg (r : Reg) : y.regOrSp r = m.regOrSp r := by rw [regOrSp, hreg, regOrSp]
  have hsame : SameStack m y (m.regOrSp sp) := fun x _ => congrFun hstack x
  refine ⟨(hreg _).trans h.base, (hreg _).trans h.index, (hreg _).trans h.cached,
    fun hc => (hreg _).trans (h.block hc), ?_, h.framed.congr (fun r _ => hreg r) hsame⟩
  rw [hmemory]
  exact h.memory

/-- Assigning the cache assigns the current cell. -/
theorem Holds.recache (h : Holds env sink counting m₀ s out m) (v : UInt8) :
    Holds env sink counting m₀ (s.withCell v) out (m.setRegOrSp 11 v.toUInt64) := by
  have hreg {r : Reg} (hr : (11 : Reg) ≠ r) : (m.setRegOrSp 11 v.toUInt64).regOrSp r = m.regOrSp r :=
    regOrSp_setRegOrSp_of_ne m hr _
  refine ⟨(hreg (by decide)).trans h.base, (hreg (by decide)).trans h.index, ?_,
    fun hc => (hreg (by decide)).trans (h.block hc), h.memory.withCell v, ?_⟩
  · show _ = ((s.tape.assign s.cursor.ptr v).cell s.cursor.ptr).toUInt64
    rw [regOrSp_setRegOrSp_self, Tape.cell_assign, if_pos ⟨rfl, h.memory.ptr_lt⟩]
  · apply h.framed.congr
    · intro r hr
      exact hreg (by rintro rfl; cases hr)
    · exact .refl m _

/-! ### Writing the cache back -/

/-- Writing the cache back makes the tape that of the interpreter. -/
theorem Holds.store (h : Holds env sink counting m₀ s out m) :
    (semantics env sink).exec (.storeByte 11 9 10) m = some { m with tape := s.tape } := by
  have hstore : m.tape.store? env.tapeBase (env.tapeBase + UInt64.ofNat s.cursor.ptr) s.cell = some s.tape :=
    h.memory.store env.tapeBase
  have hindex : m.reg 10 = UInt64.ofNat s.cursor.ptr := (reg_of_ne m (by decide)).trans h.index
  have hcached : m.reg 11 = s.cell.toUInt64 := (reg_of_ne m (by decide)).trans h.cached
  rw [exec_of_straight rfl, executeOp, h.base, hindex, hcached, UInt8.toUInt8_toUInt64, store8?, hstore]
  rfl

theorem Holds.stored (h : Holds env sink counting m₀ s out m)
    (hreg : ∀ r : Reg, r.callerSaved = false → y.regOrSp r = m.regOrSp r) (hstack : y.stack = m.stack)
    (hmemory : y.memory = { m.memory with tape := s.tape }) :
    Stored counting m₀ s (m₀.host.putAll sink out.toList) (m₀.calls + out.size) y where
  memory := by
    rw [hmemory]
    exact h.memory.stored
  framed := h.framed.congr hreg fun x _ => congrFun hstack x

end Machine

end TapeLang.A64
