import TapeLang.Proofs.A64.Placement
import TapeLang.Proofs.Code.Bounds

/-!
# The bounds check of AArch64 code

The index is in `x10`. A magnitude of 12 bits is added or subtracted as it is, any other word from `x13`; the last
index is compared with as it is or from `x14`, and an unsigned branch guards both ends of the tape
(`Ready.exists_guarded`).
-/

namespace TapeLang.A64

namespace Machine

variable {σ : Type} {env : Environment} {sink : Sink σ} {options : CodeOptions} {index last : Nat}
  {code : Array UInt8} {m : Machine σ}

/-- Control is in the program counter and the index in `x10`. -/
def view (env : Environment) : View (Machine σ) σ where
  stands := stands env
  tape m := m.tape
  index m := m.regOrSp 10
  host m := m.host

/-- What a move reads, for an index of the tape, and the stack that the stub calls with. -/
structure Ready (env : Environment) (options : CodeOptions) (index : Nat) (m : Machine σ) : Prop where
  capacity : m.tape.capacity = options.capacity
  index_lt : index < m.tape.capacity
  base : m.regOrSp 9 = env.tapeBase
  index_eq : m.regOrSp 10 = UInt64.ofNat index
  block (hc : options.counting = true) : m.regOrSp 12 = env.countersBase ∧ m.counters.isSome = true
  aligned : m.regOrSp sp % 16 = 0

/-- A machine that holds a state of the interpreter is ready for a move. -/
theorem Holds.ready {sink : Sink σ} {m₀ : Machine σ} {s : Interpreter} {out : Array UInt8}
    (h : Holds env sink options.counting m₀ s out m) (hcapacity : m₀.tape.capacity = options.capacity) :
    Ready env options s.cursor.ptr m where
  capacity := h.memory.capacity.trans (h.memory.entered.trans hcapacity)
  index_lt := Nat.lt_of_lt_of_eq h.memory.ptr_lt h.memory.capacity.symm
  base := h.base
  index_eq := h.index
  block hc := by
    refine ⟨h.block hc, ?_⟩
    rw [show m.counters = _ from h.memory.counters, Memory.countersOf, if_pos hc]
    exact h.memory.counted hc
  aligned := h.framed.aligned_sp

theorem fits_view (hout : Outside env code) {ps : List (Piece Op Branch Label)} (hasm : Assembled ps code) :
    (view env : View (Machine σ) σ).Fits (place env ps) (offsetAt ps) where
  stands_place _ _ := rfl
  place_of_stands h := place_of_stands h
  eq_of_stands {_ j k _} hn h hk :=
    add_ofNat_inj env.codeBase (Nat.lt_of_le_of_lt hn (offsetAt_lt hout hasm j)) (offsetAt_lt hout hasm k)
      (h.symm.trans hk)
  index_place _ _ := rfl
  host_place _ _ := rfl

variable (sink last) in
/-- Counting a move leaves alone what it reads. -/
theorem Ready.exists_count (h : Ready env options index m) :
    ∃ y, (semantics env sink).execAll ((dialect last options.counting env.host).count .move) m = some y ∧
      Ready env options index y ∧ y.tape = m.tape ∧ y.host = m.host := by
  cases hc : options.counting with
  | false => exact ⟨m, rfl, h, rfl, rfl⟩
  | true =>
    obtain ⟨hblock, hcounters⟩ := h.block hc
    obtain ⟨c, hcount⟩ := Option.isSome_iff_exists.1 hcounters
    refine ⟨_, execAll_increment sink hcount hblock .move, ?_, rfl, rfl⟩
    have hreg {r : Reg} (hr : (13 : Reg) ≠ r) :
        (m.setRegOrSp 13 (c.get .move + 1)).regOrSp r = m.regOrSp r := regOrSp_setRegOrSp_of_ne m hr _
    exact
      { capacity := h.capacity
        index_lt := h.index_lt
        base := (hreg (by decide)).trans h.base
        index_eq := (hreg (by decide)).trans h.index_eq
        block := fun _ => ⟨(hreg (by decide)).trans hblock, rfl⟩
        aligned := (congrArg (· % 16) (hreg (by decide))).trans h.aligned }

variable (sink last options) in
/-- The stub begins with a call that reports the index. -/
theorem exists_reported (hcalls : env.host.putByte ≠ env.host.outOfBounds) {m : Machine σ}
    (haligned : m.regOrSp sp % 16 = 0) :
    ∃ os os' z, (dialect last options.counting env.host).fault = os ++ os' ∧
      (semantics env sink).execAll os m = some z ∧ z.host = m.host.record (.outOfBounds (m.regOrSp 10)) := by
  let b := m.setRegOrSp 0 (m.regOrSp 10)
  have hsp : b.regOrSp sp % 16 = 0 := by rw [regOrSp_setRegOrSp_of_ne m (by decide), haligned]
  have hcall : b.host.call? env.host sink env.host.outOfBounds (b.regOrSp 0) =
      some (m.host.record (.outOfBounds (m.regOrSp 10))) := by
    rw [HostState.call_outOfBounds hcalls, regOrSp_setRegOrSp_self]
    rfl
  obtain ⟨z, hz, hcalled⟩ := exists_hostCall hsp hcall
  refine ⟨[.mov 0 10] ++ (Op.loadWord 16 env.host.outOfBounds ++ [.call 16]), Op.epilogue, z, ?_,
    Semantics.execAll_append (y := b) rfl hz, ?_⟩
  · simp [dialect]
  · exact congrArg Memory.host hcalled.memory

variable (sink) in
/-- Behind the operations of a move its branch tells whether the index is beyond the tape; where it is not, there is
a cell to be read. -/
theorem Ready.exists_guarded (h : Ready env options index m) (hlast : last + 1 = m.tape.capacity)
    (hcalls : env.host.putByte ≠ env.host.outOfBounds) (delta : Int64) :
    ∃ y, (semantics env sink).execAll ((dialect last options.counting env.host).move delta) m = some y ∧
      Guarded (dialect last options.counting env.host) (semantics env sink) (view env) m.tape.capacity
        (UInt64.ofNat index + delta.toUInt64) m.host y := by
  let t := m.tape.assign index (m.reg 11).toUInt8
  have hcapacity : t.capacity = m.tape.capacity := Tape.capacity_assign ..
  have hstore : (semantics env sink).exec (.storeByte 11 9 10) m = some { m with tape := t } := by
    have hindex : m.reg 10 = UInt64.ofNat index := (reg_of_ne m (by decide)).trans h.index_eq
    rw [exec_of_straight rfl, executeOp, h.base, hindex, store8?, Tape.store_eq env.tapeBase h.index_lt]
    rfl
  rw [← hcapacity] at hlast
  obtain ⟨y, hy, htaken, hindex, hreg, _, hmemory⟩ := exists_move options.counting hstore hlast delta
  rw [h.index_eq] at htaken hindex
  rw [hcapacity] at htaken
  have htape : y.tape = t := congrArg Memory.tape hmemory
  have hhost : y.host = m.host := congrArg Memory.host hmemory
  have hkeep {r : Reg} (hr : r ≠ 10 ∧ r ≠ 13 ∧ r ≠ 14) : y.regOrSp r = m.regOrSp r := hreg r hr.1 hr.2.1 hr.2.2
  refine ⟨y, hy, hindex, hhost, htaken, fun hlt => ?_, ?_⟩
  · have hload := execAll_reload sink options.counting last ((hkeep (by decide)).trans h.base)
      (hindex.trans (UInt64.ofNat_toNat).symm) (by rwa [htape, hcapacity])
    exact ⟨_, hload, (regOrSp_setRegOrSp_of_ne y (by decide) _).trans hindex, hhost⟩
  · have haligned : y.regOrSp sp % 16 = 0 := by rw [hkeep (by decide), h.aligned]
    obtain ⟨os, os', z, hfault, hz, hrecord⟩ := exists_reported sink options last hcalls haligned
    rw [hindex, hhost] at hrecord
    exact ⟨os, os', z, hfault, hz, hrecord⟩

end Machine

open Machine

variable {σ : Type} {env : Environment} {p : Program} {options : CodeOptions} {r : Routine}

/-- The moves of code that was generated check as the tape does, whatever the loop targets of its program. -/
theorem generate_checksMoves (hr : generate p options = .ok r) (henv : env.Suits options r.code) (sink : Sink σ) :
    (view env).ChecksMoves (Machine.next env r.code sink) (Ready env options) p r := by
  obtain ⟨q, hq, herase⟩ := exists_linked_of_generate hr
  rw [← generate_congr herase] at hr
  obtain ⟨last, hlast, _, hasm, _, hoffsets⟩ := generate_ok hq hr
  have hcalls : env.host.putByte ≠ env.host.outOfBounds := by
    rw [henv.host]
    exact henv.distinct
  rw [← henv.host] at hasm hoffsets
  refine (loaded sink (once_listing hq _) henv.outside hasm).checksMoves (fits_view henv.outside hasm)
    (List.cons_ne_nil _ _) (fun k => hasm.size ▸ offsetAt_le _ k) hoffsets herase ?_
  intro delta index m hm
  obtain ⟨y, hy, hy', htape, hhost⟩ := hm.exists_count sink last
  obtain ⟨z, hz, hguarded⟩ := hy'.exists_guarded sink (hlast.trans hy'.capacity.symm) hcalls delta
  rw [htape, hhost] at hguarded
  exact ⟨hm.index_lt, z, Semantics.execAll_append hy hz, hguarded⟩

/-- Wherever a routine is entered, it comes to the instruction that is to be resumed ready for a move, and is ready
for one whenever control is at the start of an instruction. -/
theorem generate_ready {s : Interpreter} {m₀ : Machine σ} (hr : generate p options = .ok r)
    (henv : env.Suits options r.code) (sink : Sink σ) {resume : Nat}
    (hresume : r.resumeOffset? s.cursor.ip = some resume) (hlive : s.halted = false)
    (hcapacity : s.tape.capacity = options.capacity)
    (hm : Entered env options.counting s (env.codeBase + UInt64.ofNat resume) m₀) :
    (∃ n m, advance (Machine.next env r.code sink) n m₀ = some m ∧ stands env resume m ∧
      Ready env options s.cursor.ptr m ∧ m.host = m₀.host) ∧
    ∀ {n ip offset : Nat} {m : Machine σ}, advance (Machine.next env r.code sink) n m₀ = some m →
      r.offsets[ip]? = some offset → stands env offset m → ∃ index, Ready env options index m := by
  obtain ⟨q, hq, herase⟩ := exists_linked_of_generate hr
  rw [← generate_congr herase] at hr
  obtain ⟨last, hsound, hvisible, hcloses, hoffsets, n, y, htrail, hboundary⟩ :=
    exists_backend hq hr henv sink hresume hlive hcapacity hm
  have hfollows := hsound.follows hvisible hcloses hoffsets htrail hboundary
  have hentered : m₀.tape.capacity = options.capacity := by rw [hm.tape, hcapacity]
  constructor
  · obtain ⟨n, m, hn, hstands, hholds⟩ := hfollows.exists_resumed hresume
    exact ⟨n, m, hn, hstands, Holds.ready hholds hentered, (Holds.memory hholds).host⟩
  · intro n ip offset m hn hip hstands
    obtain ⟨_, s', out, _, hholds, _⟩ := hfollows.visits hn hip hstands
    exact ⟨s'.cursor.ptr, Holds.ready hholds hentered⟩

end TapeLang.A64
