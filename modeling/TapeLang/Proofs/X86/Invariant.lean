import TapeLang.Proofs.Code.Moves
import TapeLang.Proofs.X86.Stack
import TapeLang.X86.Routine

/-!
# What generated code keeps

Between two instructions the machine holds the state of the interpreter: the current cell in the low
byte of `r8`, all other cells on its tape (`Machine.Holds`). Every part of the dialect keeps this
(`realizes`).
-/

namespace TapeLang.X86

/-- Whether generated code leaves a register alone, but for the frame it opens. -/
def Reg.kept : Reg → Bool
  | .rbx | .r12 | .r13 | .r14 | .r15 => true
  | _ => false

/-- Whether generated code holds nothing in a register between two operations. -/
def Reg.scratch : Reg → Bool
  | .rax | .rsi | .rdi | .r9 | .r11 => true
  | _ => false

namespace Machine

variable {σ : Type} {env : Environment} {sink : Sink σ} {counting : Bool} {m₀ m y : Machine σ}
  {s : Interpreter} {out : Array UInt8}

/-- The frame that the entry opens, the routine having been entered with `m₀`. -/
structure Framed (m₀ m : Machine σ) : Prop where
  rsp : m.reg .rsp = m₀.reg .rsp - 8
  rbp : m.reg .rbp = m₀.reg .rsp - 8
  kept {r : Reg} (h : r.kept = true) : m.reg r = m₀.reg r
  liveStack : m.liveStack = (m₀.reg .rsp - 8, m₀.reg .rbp) :: m₀.liveStack

theorem Framed.congr (h : Framed m₀ m) (hreg : ∀ r : Reg, r.callerSaved = false → y.reg r = m.reg r)
    (hlive : y.liveStack = m.liveStack) : Framed m₀ y where
  rsp := (hreg _ rfl).trans h.rsp
  rbp := (hreg _ rfl).trans h.rbp
  kept {r} hr := (hreg r (by cases r <;> first | rfl | cases hr)).trans (h.kept hr)
  liveStack := hlive.trans h.liveStack

/-- The machine holds a state of the interpreter in its memory. -/
structure Stored (counting : Bool) (m₀ : Machine σ) (s : Interpreter) (host : HostState σ) (calls : Nat)
    (m : Machine σ) : Prop where
  memory : Memory.Stores counting m₀.memory s host calls m.memory
  framed : Framed m₀ m

/-- The machine holds a state of the interpreter, the current cell in `r8`, the bytes `out` having
been written. -/
structure Holds (env : Environment) (sink : Sink σ) (counting : Bool) (m₀ : Machine σ) (s : Interpreter)
    (out : Array UInt8) (m : Machine σ) : Prop where
  base : m.reg .rcx = env.tapeBase
  index : m.reg .rdx = UInt64.ofNat s.cursor.ptr
  cached : (m.reg .r8).toUInt8 = s.cell
  block (hc : counting = true) : m.reg .r10 = env.countersBase
  memory : Memory.Caches sink counting m₀.memory s out m.memory
  framed : Framed m₀ m

/-- The machine has reported nothing yet, and has the index of a move that failed. -/
structure Faulted (sink : Sink σ) (counting : Bool) (m₀ : Machine σ) (s : Interpreter) (out : Array UInt8)
    (index : UInt64) (m : Machine σ) : Prop
    extends Stored counting m₀ s (m₀.host.putAll sink out.toList) (m₀.calls + out.size) m where
  index : m.reg .rdx = index

/-! ### Changes that keep the invariant -/

theorem Holds.congr_state (h : Holds env sink counting m₀ s out m) {s' : Interpreter} (ht : s'.tape = s.tape)
    (hp : s'.cursor.ptr = s.cursor.ptr) (hc : s'.counters = s.counters) :
    Holds env sink counting m₀ s' out m := by
  have hcell : s'.cell = s.cell := by rw [Interpreter.cell, Interpreter.cell, ht, hp]
  refine ⟨h.base, ?_, ?_, h.block, h.memory.congr_state ht hp hc, h.framed⟩
  · rw [hp, h.index]
  · rw [hcell, h.cached]

/-- Scratch registers are of no account. -/
theorem Holds.congr (h : Holds env sink counting m₀ s out m)
    (hreg : ∀ r : Reg, r.scratch = false → y.reg r = m.reg r) (hlive : y.liveStack = m.liveStack)
    (hmemory : y.memory = m.memory) : Holds env sink counting m₀ s out y where
  base := (hreg _ rfl).trans h.base
  index := (hreg _ rfl).trans h.index
  cached := by rw [hreg _ rfl, h.cached]
  block hc := (hreg _ rfl).trans (h.block hc)
  memory := by
    rw [hmemory]
    exact h.memory
  framed := h.framed.congr (fun r hr => hreg r (by cases r <;> first | rfl | cases hr)) hlive

/-- Assigning the cached byte assigns the current cell. -/
theorem Holds.recache (h : Holds env sink counting m₀ s out m) {v : UInt8}
    (hreg : ∀ r : Reg, r ≠ .r8 → y.reg r = m.reg r) (hv : (y.reg .r8).toUInt8 = v)
    (hlive : y.liveStack = m.liveStack) (hmemory : y.memory = m.memory) :
    Holds env sink counting m₀ (s.withCell v) out y where
  base := (hreg _ (by decide)).trans h.base
  index := (hreg _ (by decide)).trans h.index
  cached := by
    show _ = (s.tape.assign s.cursor.ptr v).cell s.cursor.ptr
    rw [hv, Tape.cell_assign, if_pos ⟨rfl, h.memory.ptr_lt⟩]
  block hc := (hreg _ (by decide)).trans (h.block hc)
  memory := by
    rw [hmemory]
    exact h.memory.withCell v
  framed := h.framed.congr (fun r hr => hreg r (by rintro rfl; cases hr)) hlive

/-! ### Writing the cache back -/

/-- Writing the cache back makes the tape that of the interpreter. -/
theorem Holds.store (h : Holds env sink counting m₀ s out m) :
    (semantics env sink).exec (.store8 .rcx .rdx (.low .r8)) m = some { m with tape := s.tape } := by
  have hstore : m.tape.store? env.tapeBase (env.tapeBase + UInt64.ofNat s.cursor.ptr) s.cell = some s.tape :=
    h.memory.store env.tapeBase
  rw [exec_of_straight rfl, executeOp, h.base, h.index, byte_low, h.cached, store8?, hstore]
  rfl

theorem Holds.stored (h : Holds env sink counting m₀ s out m)
    (hreg : ∀ r : Reg, r.callerSaved = false → y.reg r = m.reg r) (hlive : y.liveStack = m.liveStack)
    (hmemory : y.memory = { m.memory with tape := s.tape }) :
    Stored counting m₀ s (m₀.host.putAll sink out.toList) (m₀.calls + out.size) y where
  memory := by
    rw [hmemory]
    exact h.memory.stored
  framed := h.framed.congr hreg hlive

end Machine

end TapeLang.X86
