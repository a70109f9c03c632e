import TapeLang.A64.Machine
import TapeLang.Proofs.A64.Assembly
import TapeLang.Proofs.Code.Memory
import TapeLang.Proofs.Code.Simulation

/-!
# The machine on assembled code

In front of a piece of assembled code the machine decodes that piece (`Machine.loaded`). What an
operation does to the data does not depend on where control is (`semantics`).
-/

namespace TapeLang.A64

/-- An operation that leaves control to what follows it. -/
def Op.straight : Op → Bool
  | .jump _ | .ret => false
  | _ => true

namespace Machine

variable {σ : Type} {env : Environment} {code : Array UInt8} {sink : Sink σ}

/-- The machine with control at an address. -/
def goto (m : Machine σ) (a : UInt64) : Machine σ := { m with pc := a }

@[simp] theorem goto_goto (m : Machine σ) (a b : UInt64) : (m.goto a).goto b = m.goto b := rfl

@[simp] theorem pc_goto (m : Machine σ) (a : UInt64) : (m.goto a).pc = a := rfl

/-- The next step of a routine, until it has returned. -/
def next (env : Environment) (code : Array UInt8) (sink : Sink σ) (m : Machine σ) : Option (Machine σ) :=
  if m.pc = env.returnAddress then none else m.step env code sink

/-- The machine in front of a piece. -/
def place (env : Environment) (ps : List (Piece Op Branch Label)) (k : Nat) (m : Machine σ) : Machine σ :=
  m.goto (env.codeBase + UInt64.ofNat (offsetAt ps k))

/-! ### Control and data -/

theorem setReg_goto (m : Machine σ) (a : UInt64) (r : Reg) (v : UInt64) :
    (m.goto a).setReg r v = (m.setReg r v).goto a := by
  rw [setReg, setReg]
  split <;> rfl

theorem store8_goto (m : Machine σ) (a address : UInt64) (b : UInt8) :
    (m.goto a).store8? env address b = (m.store8? env address b).map (·.goto a) := by
  show (m.tape.store? env.tapeBase address b).map _ = ((m.tape.store? env.tapeBase address b).map _).map _
  rw [Option.map_map]
  rfl

theorem store64_goto (m : Machine σ) (a address v : UInt64) :
    (m.goto a).store64? env address v = (m.store64? env address v).map (·.goto a) := by
  show (m.counters.bind (·.store? env.countersBase address v)).map _ =
    ((m.counters.bind (·.store? env.countersBase address v)).map _).map _
  rw [Option.map_map]
  rfl

theorem loadPair_goto (m : Machine σ) (a address : UInt64) (r s : Reg) :
    (m.goto a).loadPair? r s address = (m.loadPair? r s address).map (·.goto a) := by
  rw [loadPair?, loadPair?]
  show (m.stack address >>= _) = _
  cases m.stack address with
  | none => rfl
  | some v =>
    show (m.stack (address + 8) >>= _) = ((m.stack (address + 8)) >>= _).map _
    cases m.stack (address + 8) with
    | none => rfl
    | some w =>
      show some _ = some _
      rw [setReg_goto, setReg_goto]

theorem call_goto (m : Machine σ) (a target : UInt64) :
    (m.goto a).call? env sink target = (m.call? env sink target).map (·.goto a) := by
  rw [call?, call?]
  show (if m.regOrSp sp % 16 = 0 then m.host.call? env.host sink target (m.reg 0) >>= _ else none) = _
  split
  · cases m.host.call? env.host sink target (m.reg 0) <;> rfl
  · rfl

theorem executeOp_goto (m : Machine σ) (a : UInt64) {o : Op} (h : o.straight = true) :
    (m.goto a).executeOp env sink o = (m.executeOp env sink o).map (·.goto a) := by
  cases o with
  | jump target => cases h
  | ret => cases h
  | storePairPre r s base slots =>
    rw [executeOp, executeOp]
    show (m.slotAddress? base slots >>= _) = _
    cases m.slotAddress? base slots <;> rfl
  | storePair r s base slots =>
    rw [executeOp, executeOp]
    show (m.slotAddress? base slots >>= _) = _
    cases m.slotAddress? base slots <;> rfl
  | loadPair r s base slots =>
    rw [executeOp, executeOp]
    show (m.slotAddress? base slots >>= _) = _
    cases m.slotAddress? base slots with
    | none => rfl
    | some address => exact m.loadPair_goto a address r s
  | loadPairPost r s base slots =>
    rw [executeOp, executeOp]
    show (m.slotAddress? base slots >>= _) = _
    cases m.slotAddress? base slots with
    | none => rfl
    | some address =>
      show ((m.goto a).loadPair? r s (m.regOrSp sp) >>= _) = (m.loadPair? r s (m.regOrSp sp) >>= _).map _
      rw [loadPair_goto]
      cases m.loadPair? r s (m.regOrSp sp) <;> rfl
  | loadByte dst base index =>
    rw [executeOp, executeOp]
    show (m.load8? env (m.regOrSp base + m.reg index) >>= _) = _
    cases m.load8? env (m.regOrSp base + m.reg index) with
    | none => rfl
    | some b =>
      show some _ = some _
      rw [setReg_goto]
  | load dst base slot =>
    rw [executeOp, executeOp]
    show (m.load64? env (m.regOrSp base + UInt64.ofNat (8 * slot.toNat)) >>= _) = _
    cases m.load64? env (m.regOrSp base + UInt64.ofNat (8 * slot.toNat)) with
    | none => rfl
    | some v =>
      show some _ = some _
      rw [setReg_goto]
  | storeByte src base index => exact m.store8_goto a _ _
  | store src base slot => exact m.store64_goto a _ _
  | call target => exact m.call_goto a _
  | mov dst src => exact congrArg some (m.setReg_goto a _ _)
  | add dst r s => exact congrArg some (m.setReg_goto a _ _)
  | movz dst imm => exact congrArg some (m.setReg_goto a _ _)
  | movz32 dst imm => exact congrArg some (m.setReg_goto a _ _)
  | movk dst imm part => exact congrArg some (m.setReg_goto a _ _)
  | _ => rfl

end Machine

/-- What operations do to the data of a machine; those that go elsewhere are left out. -/
def semantics {σ : Type} (env : Environment) (sink : Sink σ) : Semantics Op Branch (Machine σ) where
  exec o m := if o.straight then m.executeOp env sink o else none
  taken b m := m.taken b

theorem exec_of_straight {σ : Type} {env : Environment} {sink : Sink σ} {o : Op} (h : o.straight = true)
    (m : Machine σ) : (semantics env sink).exec o m = m.executeOp env sink o := if_pos h

theorem straight_of_exec {σ : Type} {env : Environment} {sink : Sink σ} {o : Op} {m m' : Machine σ}
    (h : (semantics env sink).exec o m = some m') : o.straight = true := by
  refine Decidable.byContradiction fun ho => ?_
  rw [show (semantics env sink).exec o m = none from if_neg ho] at h
  cases h

namespace Machine

variable {σ : Type} {env : Environment} {code : Array UInt8} {sink : Sink σ} {ps : List (Piece Op Branch Label)}

/-! ### Fetching -/

/-- The return address lies outside of the code. -/
def Outside (env : Environment) (code : Array UInt8) : Prop :=
  code.size ≤ (env.returnAddress - env.codeBase).toNat

theorem Outside.size_lt (h : Outside env code) : code.size < 2 ^ 64 :=
  Nat.lt_of_le_of_lt h (UInt64.toNat_lt _)

theorem wordBytes_length (word : Nat) : (wordBytes word).length = 4 := length_littleEndian 4 word

theorem fetch_eq {n word : Nat} {rest : List UInt8} (hword : word < 2 ^ 32)
    (hdrop : code.toList.drop n = wordBytes word ++ rest) : fetch? code n = some word := by
  have hbytes : (code.extract n (n + 4)).toList = wordBytes word := by
    rw [Array.toList_extract, List.extract_eq_take_drop, hdrop, Nat.add_sub_cancel_left]
    exact List.take_left' (wordBytes_length word)
  rw [fetch?, hbytes, if_pos (wordBytes_length word), ofLittleEndian_wordBytes hword]

/-- The machine decodes what stands where it is, and goes past it. -/
theorem next_goto (sink : Sink σ) (hout : Outside env code) {n word : Nat} {rest : List UInt8} {i : Instr} (hword : word < 2 ^ 32)
    (hdrop : code.toList.drop n = wordBytes word ++ rest) (hdec : decode word = some i) (m : Machine σ) :
    next env code sink (m.goto (env.codeBase + UInt64.ofNat n)) =
      (m.goto (env.codeBase + UInt64.ofNat (n + 4))).execute env sink i := by
  have hsize : n + 4 ≤ code.size := by
    have hlen := wordBytes_length word
    have := congrArg List.length hdrop
    rw [List.length_drop, List.length_append, Array.length_toList] at this
    omega
  have hlt := hout.size_lt
  have hn : (env.codeBase + UInt64.ofNat n - env.codeBase).toNat = n := toNat_add_ofNat_sub _ (by omega)
  have hpc : env.codeBase + UInt64.ofNat n ≠ env.returnAddress := by
    intro heq
    rw [Outside, ← heq, hn] at hout
    omega
  rw [next, pc_goto, if_neg hpc, step, pc_goto, hn, fetch_eq hword hdrop]
  show (decode word >>= _) = _
  rw [hdec]
  show ((m.goto _).goto (env.codeBase + UInt64.ofNat n + 4)).execute env sink i = _
  rw [goto_goto, UInt64.ofNat_add, ← UInt64.add_assoc]
  rfl

theorem next_op (hout : Outside env code) (h : Assembled ps code) {k : Nat} {o : Op} (hk : ps[k]? = some (.op o))
    (m : Machine σ) :
    next env code sink (place env ps k m) = (place env ps (k + 1) m).executeOp env sink o := by
  obtain ⟨rest, hdrop⟩ := h.op hk
  obtain ⟨hdec, hword⟩ := decode_word o
  rw [place, next_goto sink hout hword hdrop hdec, place, offsetAt_succ hk]
  rfl

/-! ### Branches -/

theorem toUInt64_ofInt_sub (a b : Nat) :
    (Int64.ofInt ((a : Int) - b)).toUInt64 = UInt64.ofNat a - UInt64.ofNat b := by
  rw [Int64.ofInt_sub]
  rfl

/-- A branch is decoded with the distance to its label, in words. -/
theorem next_branch (sink : Sink σ) (hout : Outside env code) (h : Assembled ps code) {k : Nat} {b : Branch} {l : Label}
    (hk : ps[k]? = some (.branch b l)) (m : Machine σ) :
    ∃ (words : Int) (j : Nat), ps[j]? = some (.label l) ∧ 4 * words = (offsetAt ps j : Int) - offsetAt ps k ∧
      next env code sink (place env ps k m) = (place env ps (k + 1) m).execute env sink (.branch b words) := by
  obtain ⟨words, j, hreaches, hj, hwords, rest, hdrop⟩ := h.branch hk
  obtain ⟨hdec, hword⟩ := decode_branch hreaches
  refine ⟨words, j, hj, hwords, ?_⟩
  rw [place, next_goto sink hout hword hdrop hdec, place, offsetAt_succ hk]
  rfl

/-- Assembled code is executed piece by piece. -/
theorem loaded (sink : Sink σ) (hps : Once ps) (hout : Outside env code) (h : Assembled ps code) :
    Loaded (semantics env sink) (next env code sink) ps (place env ps) (offsetAt ps) := by
  refine
    { op := ?_
      jump := ?_
      pass := ?_
      label := ?_
      offset_label := fun hk => offsetAt_succ hk
      offset_op := ?_
      offset_branch := ?_ }
  · intro k o x y hk hx
    have hstraight := straight_of_exec hx
    rw [exec_of_straight hstraight] at hx
    rw [next_op hout h hk, place, executeOp_goto x _ hstraight, hx]
    rfl
  · intro j k b l x hk hj hx
    obtain ⟨words, j', hj', hwords, hnext⟩ := next_branch sink hout h hk x
    obtain rfl : j' = j := hps j' j l hj' hj
    rw [hnext, execute, hwords]
    show some (if x.taken b then _ else _) = _
    replace hx : x.taken b = true := hx
    rw [if_pos hx, place, place, pc_goto, toUInt64_ofInt_sub, offsetAt_succ hk]
    show some (x.goto _) = some (x.goto _)
    congr 2
    show env.codeBase + UInt64.ofNat (offsetAt ps k + 4) - 4 + _ = _
    rw [UInt64.ofNat_add, ← UInt64.add_assoc, show UInt64.ofNat 4 = 4 from rfl, UInt64.add_sub_cancel,
      UInt64.add_assoc, UInt64.add_comm (UInt64.ofNat (offsetAt ps k)), UInt64.sub_add_cancel]
  · intro k b l x hk hx
    obtain ⟨words, _, _, _, hnext⟩ := next_branch sink hout h hk x
    rw [hnext, execute]
    show some (if x.taken b then _ else _) = _
    replace hx : x.taken b = false := hx
    rw [hx]
    rfl
  · intro k l hk x
    rw [place, place, offsetAt_succ hk]
    rfl
  · intro k o hk
    rw [offsetAt_succ hk]
    exact Nat.lt_add_of_pos_right (Nat.zero_lt_succ 3)
  · intro k b l hk
    rw [offsetAt_succ hk]
    exact Nat.lt_add_of_pos_right (Nat.zero_lt_succ 3)

end Machine

end TapeLang.A64
