import TapeLang.Proofs.Code.Bounds
import TapeLang.Proofs.X86.Placement

/-!
# The bounds check of x86-64 code

The index is in `rdx`. A displacement of 32 bits is added as it is, any other word from `r11`; one comparison with
the last index, sign-extended, and an unsigned branch guard both ends of the tape (`Ready.exists_guarded`).
-/

namespace TapeLang.X86

namespace Machine

variable {σ : Type} {env : Environment} {sink : Sink σ} {options : CodeOptions} {index : Nat} {last : Int32}
  {code : Array UInt8} {m : Machine σ}

/-- Control is in `rip` and the index in `rdx`. -/
def view (env : Environment) : View (Machine σ) σ where
  stands := stands env
  tape m := m.tape
  index m := m.reg .rdx
  host m := m.host

/-- What a move reads, for an index of the tape. -/
structure Ready (env : Environment) (options : CodeOptions) (index : Nat) (m : Machine σ) : Prop where
  capacity : m.tape.capacity = options.capacity
  index_lt : index < m.tape.capacity
  base : m.reg .rcx = env.tapeBase
  index_eq : m.reg .rdx = UInt64.ofNat index
  block (hc : options.counting = true) : m.reg .r10 = env.countersBase ∧ m.counters.isSome = true

/-- A machine that holds a state of the interpreter is ready for a move. -/
theorem Holds.ready {sink : Sink σ} {m₀ : Machine σ} {s : Interpreter} {out : Array UInt8}
    (h : Holds env sink options.counting m₀ s out m) (hcapacity : m₀.tape.capacity = options.capacity) :
    Ready env options s.cursor.ptr m where
  capacity := h.memory.capacity.trans (h.memory.entered.trans hcapacity)
  index_lt := Nat.lt_of_lt_of_eq h.memory.ptr_lt h.memory.capacity.symm
  base := h.base
  index_eq := h.index
  block hc := by
    refine ⟨h.block hc, ?_⟩
    rw [show m.counters = _ from h.memory.counters, Memory.countersOf, if_pos hc]
    exact h.memory.counted hc

theorem fits_view (hout : Outside env code) {ps : List (Piece Op Branch Label)} {offset : Nat → Nat}
    (hasm : Assembled ps code offset) : (view env : View (Machine σ) σ).Fits (place env offset) offset where
  stands_place _ _ := rfl
  place_of_stands h := place_of_stands h
  eq_of_stands {_ j k _} hn h hk := by
    have hlt := hout.size_lt
    have hle := hasm.le j
    exact add_ofNat_inj env.codeBase (by omega) (Nat.lt_of_le_of_lt (hasm.le k) hlt) (h.symm.trans hk)
  index_place _ _ := rfl
  host_place _ _ := rfl

variable (sink last) in
/-- Counting a move leaves alone what it reads. -/
theorem Ready.exists_count (h : Ready env options index m) :
    ∃ y, (semantics env sink).execAll ((dialect last options.counting env.host).count .move) m = some y ∧
      Ready env options index y ∧ y.tape = m.tape ∧ y.host = m.host := by
  cases hc : options.counting with
  | false => exact ⟨m, rfl, h, rfl, rfl⟩
  | true =>
    obtain ⟨hblock, hcounters⟩ := h.block hc
    obtain ⟨c, hcount⟩ := Option.isSome_iff_exists.1 hcounters
    obtain ⟨y, hy, hreg, _, hmemory⟩ := exists_increment sink hcount hblock .move
    have htape : y.tape = m.tape := congrArg Memory.tape hmemory
    refine ⟨y, hy, ?_, htape, congrArg Memory.host hmemory⟩
    exact
      { capacity := by rw [htape, h.capacity]
        index_lt := by
          rw [htape]
          exact h.index_lt
        base := (hreg _ (by decide)).trans h.base
        index_eq := (hreg _ (by decide)).trans h.index_eq
        block := fun _ => by
          rw [hreg _ (by decide), show y.counters = some (c.record .move) from congrArg Memory.counters hmemory]
          exact ⟨hblock, rfl⟩ }

variable (sink last options) in
/-- The stub begins with a call that reports the index. -/
theorem exists_reported (hcalls : env.host.putByte ≠ env.host.outOfBounds) (m : Machine σ) :
    ∃ os os' z, (dialect last options.counting env.host).fault = os ++ os' ∧ (semantics env sink).execAll os m = some z ∧
      z.host = m.host.record (.outOfBounds (m.reg .rdx)) := by
  let b := m.setReg .rdi (m.reg .rdx)
  have hcall : b.host.call? env.host sink env.host.outOfBounds (b.reg .rdi) =
      some (m.host.record (.outOfBounds (m.reg .rdx))) := by
    rw [HostState.call_outOfBounds hcalls, reg_setReg_self]
    rfl
  obtain ⟨z, hz, hcalled⟩ := exists_hostCall hcall
  refine ⟨[.mov .rdi .rdx] ++ (Op.openCall ++ Op.callAddress env.host.outOfBounds ++ Op.closeCall), Op.epilogue, z,
    rfl, Semantics.execAll_append (y := b) rfl hz, ?_⟩
  exact congrArg Memory.host hcalled.memory

variable (sink) in
/-- Behind the operations of a move its branch tells whether the index is beyond the tape; where it is not, there is
a cell to be read. -/
theorem Ready.exists_guarded (h : Ready env options index m) (hlast : lastIndex? m.tape.capacity = some last)
    (hcalls : env.host.putByte ≠ env.host.outOfBounds) (delta : Int64) :
    ∃ y, (semantics env sink).execAll ((dialect last options.counting env.host).move delta) m = some y ∧
      Guarded (dialect last options.counting env.host) (semantics env sink) (view env) m.tape.capacity
        (UInt64.ofNat index + delta.toUInt64) m.host y := by
  let t := m.tape.assign index (m.reg .r8).toUInt8
  have hcapacity : t.capacity = m.tape.capacity := Tape.capacity_assign ..
  have hstore : (semantics env sink).exec (.store8 .rcx .rdx (.low .r8)) m = some { m with tape := t } := by
    rw [exec_of_straight rfl, executeOp, h.base, h.index_eq, store8?, Tape.store_eq env.tapeBase h.index_lt]
    rfl
  rw [← hcapacity] at hlast
  obtain ⟨y, hy, htaken, hindex, hreg, _, hmemory⟩ := exists_move options.counting hstore hlast delta
  rw [h.index_eq] at htaken hindex
  rw [hcapacity] at htaken
  have htape : y.tape = t := congrArg Memory.tape hmemory
  have hhost : y.host = m.host := congrArg Memory.host hmemory
  refine ⟨y, hy, hindex, hhost, htaken, fun hlt => ?_, ?_⟩
  · have hbase : y.reg .rcx = env.tapeBase := (hreg _ (by decide) (by decide)).trans h.base
    have hload := execAll_reload sink options.counting last hbase (hindex.trans (UInt64.ofNat_toNat).symm)
      (by rwa [htape, hcapacity])
    exact ⟨_, hload, (reg_setReg_of_ne y (by decide) _).trans hindex, hhost⟩
  · obtain ⟨os, os', z, hfault, hz, hrecord⟩ := exists_reported sink options last hcalls y
    rw [hindex, hhost] at hrecord
    exact ⟨os, os', z, hfault, hz, hrecord⟩

end Machine

open Machine

variable {σ : Type} {env : Environment} {p : Program} {options : CodeOptions} {r : Routine}

/-- The moves of code that was generated check as the tape does, whatever the loop targets of its program. -/
theorem generate_checksMoves (hr : generate p options = .ok r) (henv : env.Suits options r.code) (sink : Sink σ) :
    (view env).ChecksMoves (Machine.next env r.code sink) (Ready env options) p r := by
  obtain ⟨q, hq, herase⟩ := exists_linked_of_generate hr
  rw [← generate_congr herase] at hr
  obtain ⟨last, offset, hlast, _, hasm, _, hoffsets⟩ := generate_ok hq hr
  have hcalls : env.host.putByte ≠ env.host.outOfBounds := by
    rw [henv.host]
    exact henv.distinct
  rw [← henv.host] at hasm hoffsets
  refine (loaded sink henv.outside hasm).checksMoves (fits_view henv.outside hasm) (List.cons_ne_nil _ _) hasm.le
    hoffsets herase ?_
  intro delta index m hm
  obtain ⟨y, hy, hy', htape, hhost⟩ := hm.exists_count sink last
  obtain ⟨z, hz, hguarded⟩ := hy'.exists_guarded sink (by rw [hy'.capacity, hlast]) hcalls delta
  rw [htape, hhost] at hguarded
  exact ⟨hm.index_lt, z, Semantics.execAll_append hy hz, hguarded⟩

/-- Wherever a routine is entered, it comes to the instruction that is to be resumed ready for a move, and is ready
for one whenever control is at the start of an instruction. -/
theorem generate_ready {s : Interpreter} {m₀ : Machine σ} (hr : generate p options = .ok r)
    (henv : env.Suits options r.code) (sink : Sink σ) {resume : Nat}
    (hresume : r.resumeOffset? s.cursor.ip = some resume) (hlive : s.halted = false)
    (hcapacity : s.tape.capacity = options.capacity)
    (hm : Entered env options.counting s (env.codeBase + UInt64.ofNat resume) m₀) :
    (∃ n m, advance (Machine.next env r.code sink) n m₀ = some m ∧ stands env resume m ∧
      Ready env options s.cursor.ptr m ∧ m.host = m₀.host) ∧
    ∀ {n ip offset : Nat} {m : Machine σ}, advance (Machine.next env r.code sink) n m₀ = some m →
      r.offsets[ip]? = some offset → stands env offset m → ∃ index, Ready env options index m := by
  obtain ⟨q, hq, herase⟩ := exists_linked_of_generate hr
  rw [← generate_congr herase] at hr
  obtain ⟨last, offset, hsound, hvisible, hcloses, hoffsets, n, y, htrail, hboundary⟩ :=
    exists_backend hq hr henv sink hresume hlive hcapacity hm
  have hfollows := hsound.follows hvisible hcloses hoffsets htrail hboundary
  have hentered : m₀.tape.capacity = options.capacity := by rw [hm.tape, hcapacity]
  constructor
  · obtain ⟨n, m, hn, hstands, hholds⟩ := hfollows.exists_resumed hresume
    exact ⟨n, m, hn, hstands, Holds.ready hholds hentered, (Holds.memory hholds).host⟩
  · intro n ip offset m hn hip hstands
    obtain ⟨_, s', out, _, hholds, _⟩ := hfollows.visits hn hip hstands
    exact ⟨s'.cursor.ptr, Holds.ready hholds hentered⟩

end TapeLang.X86
