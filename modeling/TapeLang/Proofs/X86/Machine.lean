import TapeLang.Proofs.Code.Memory
import TapeLang.Proofs.Code.Simulation
import TapeLang.Proofs.X86.Assembly
import TapeLang.X86.Machine

/-!
# The machine on assembled code

In front of a piece of assembled code the machine decodes that piece, whatever else it has in
registers and memory (`Machine.loaded`). What is left to say of an operation is what it does to the
data, where control is of no account (`semantics`).
-/

namespace TapeLang.X86

/-- An operation that leaves control to what follows it. -/
def Op.straight : Op → Bool
  | .jump _ | .ret => false
  | _ => true

namespace Machine

variable {σ : Type} {env : Environment} {code : Array UInt8} {sink : Sink σ}

/-- The machine with control at an address. -/
def goto (m : Machine σ) (a : UInt64) : Machine σ := { m with rip := a }

@[simp] theorem goto_goto (m : Machine σ) (a b : UInt64) : (m.goto a).goto b = m.goto b := rfl

@[simp] theorem rip_goto (m : Machine σ) (a : UInt64) : (m.goto a).rip = a := rfl

/-- The next step of a routine, until it has returned. -/
def next (env : Environment) (code : Array UInt8) (sink : Sink σ) (m : Machine σ) : Option (Machine σ) :=
  if m.rip = env.returnAddress then none else m.step env code sink

/-- The machine in front of a piece. -/
def place (env : Environment) (offset : Nat → Nat) (k : Nat) (m : Machine σ) : Machine σ :=
  m.goto (env.codeBase + UInt64.ofNat (offset k))

/-! ### Control and data -/

theorem store8_goto (m : Machine σ) (a address : UInt64) (b : UInt8) :
    (m.goto a).store8? env address b = (m.store8? env address b).map (·.goto a) := by
  show (m.tape.store? env.tapeBase address b).map _ = ((m.tape.store? env.tapeBase address b).map _).map _
  rw [Option.map_map]
  rfl

theorem store64_goto (m : Machine σ) (a address v : UInt64) :
    (m.goto a).store64? env address v = (m.store64? env address v).map (·.goto a) := by
  show (m.counters.bind (·.store? env.countersBase address v)).map _ =
    ((m.counters.bind (·.store? env.countersBase address v)).map _).map _
  rw [Option.map_map]
  rfl

theorem pop_goto (m : Machine σ) (a : UInt64) : (m.goto a).pop? = m.pop?.map fun r => (r.1, r.2.goto a) := by
  rw [pop?, pop?, show (m.goto a).liveStack = m.liveStack from rfl]
  cases m.liveStack with
  | nil => rfl
  | cons w rest =>
    simp only
    rw [show (m.goto a).reg .rsp = m.reg .rsp from rfl]
    split <;> rfl

theorem call_goto (m : Machine σ) (a target : UInt64) :
    (m.goto a).call? env sink target = (m.call? env sink target).map (·.goto a) := by
  rw [call?, call?]
  show (if m.reg .rsp % 16 = 0 then m.host.call? env.host sink target (m.reg .rdi) >>= _ else none) = _
  split
  · cases m.host.call? env.host sink target (m.reg .rdi) <;> rfl
  · rfl

theorem executeOp_goto (m : Machine σ) (a : UInt64) {o : Op} (h : o.straight = true) :
    (m.goto a).executeOp env sink o = (m.executeOp env sink o).map (·.goto a) := by
  cases o with
  | jump target => cases h
  | ret => cases h
  | load8 dst base index =>
    rw [executeOp, executeOp]
    show (m.load8? env (m.reg base + m.reg index) >>= _) = _
    cases m.load8? env (m.reg base + m.reg index) <;> rfl
  | loadZero8 dst base index =>
    rw [executeOp, executeOp]
    show (m.load8? env (m.reg base + m.reg index) >>= _) = _
    cases m.load8? env (m.reg base + m.reg index) <;> rfl
  | load64 dst base disp =>
    rw [executeOp, executeOp]
    show (m.load64? env (m.reg base + extend disp) >>= _) = _
    cases m.load64? env (m.reg base + extend disp) <;> rfl
  | store8 base index src => exact m.store8_goto a _ _
  | store64 base disp src => exact m.store64_goto a _ _
  | call target => exact m.call_goto a _
  | pop reg =>
    rw [executeOp, executeOp, pop_goto]
    cases m.pop? <;> rfl
  | _ => rfl

end Machine

/-- What operations do to the data of a machine; those that go elsewhere are left out. -/
def semantics {σ : Type} (env : Environment) (sink : Sink σ) : Semantics Op Branch (Machine σ) where
  exec o m := if o.straight then m.executeOp env sink o else none
  taken b m := m.taken b

theorem exec_of_straight {σ : Type} {env : Environment} {sink : Sink σ} {o : Op} (h : o.straight = true)
    (m : Machine σ) : (semantics env sink).exec o m = m.executeOp env sink o := if_pos h

theorem straight_of_exec {σ : Type} {env : Environment} {sink : Sink σ} {o : Op} {m m' : Machine σ}
    (h : (semantics env sink).exec o m = some m') : o.straight = true := by
  refine Decidable.byContradiction fun ho => ?_
  rw [show (semantics env sink).exec o m = none from if_neg ho] at h
  cases h

namespace Machine

variable {σ : Type} {env : Environment} {code : Array UInt8} {sink : Sink σ}

/-! ### Fetching -/

theorem window_eq (code : Array UInt8) (n position : Nat) :
    window code n position = (code.toList.drop position).take n := by
  induction n generalizing position with
  | zero => rfl
  | succ n ih =>
    rw [window]
    split
    · rename_i h
      have hlt : position < code.toList.length := by rwa [Array.length_toList]
      rw [ih, List.drop_eq_getElem_cons hlt, List.take_succ_cons, Array.getElem_toList]
    · rename_i h
      rw [List.drop_eq_nil_of_le (by simpa using h), List.take_nil]

/-- The return address lies outside of the code. -/
def Outside (env : Environment) (code : Array UInt8) : Prop :=
  code.size ≤ (env.returnAddress - env.codeBase).toNat

theorem Outside.size_lt (h : Outside env code) : code.size < 2 ^ 64 :=
  Nat.lt_of_le_of_lt h (UInt64.toNat_lt _)

/-- The machine decodes what stands where it is, and goes past it. -/
theorem next_goto (sink : Sink σ) (hout : Outside env code) {n : Nat} {bytes rest : List UInt8} {i : Instr}
    (hdrop : code.toList.drop n = bytes ++ rest) (hpos : 0 < bytes.length) (hlen : bytes.length ≤ maxLength)
    (hdec : ∀ rest, decode (bytes ++ rest) = some (i, rest)) (m : Machine σ) :
    next env code sink (m.goto (env.codeBase + UInt64.ofNat n)) =
      (m.goto (env.codeBase + UInt64.ofNat (n + bytes.length))).execute env sink i := by
  have hsize : n + bytes.length ≤ code.size := by
    have := congrArg List.length hdrop
    rw [List.length_drop, List.length_append, Array.length_toList] at this
    omega
  have hlt := hout.size_lt
  have hn : (env.codeBase + UInt64.ofNat n - env.codeBase).toNat = n := toNat_add_ofNat_sub _ (by omega)
  have hrip : env.codeBase + UInt64.ofNat n ≠ env.returnAddress := by
    intro heq
    rw [Outside, ← heq, hn] at hout
    omega
  have hwindow : window code maxLength n = bytes ++ rest.take (maxLength - bytes.length) := by
    rw [window_eq, hdrop, List.take_append, List.take_of_length_le hlen]
  have hconsumed : (bytes ++ rest.take (maxLength - bytes.length)).length -
      (rest.take (maxLength - bytes.length)).length = bytes.length := by
    rw [List.length_append, Nat.add_sub_cancel_right]
  rw [next, rip_goto, if_neg hrip, step, rip_goto, hn, hwindow, hdec]
  show ((m.goto _).goto (env.codeBase + UInt64.ofNat n + UInt64.ofNat _)).execute env sink i = _
  rw [hconsumed, goto_goto, UInt64.add_assoc, ← UInt64.ofNat_add]

theorem next_op (hout : Outside env code) {ps : List (Piece Op Branch Label)} {offset : Nat → Nat}
    (h : Assembled ps code offset) {k : Nat} {o : Op} (hk : ps[k]? = some (.op o)) (m : Machine σ) :
    next env code sink (place env offset k m) = (place env offset (k + 1) m).executeOp env sink o := by
  obtain ⟨haccepted, hsucc, rest, hdrop⟩ := h.op hk
  obtain ⟨hpos, hlen⟩ := length_encode o
  have hnext := next_goto sink hout hdrop hpos (Nat.le_trans hlen (by decide)) (decode_encode o haccepted) m
  rwa [← hsucc] at hnext

/-! ### Branches -/

theorem toUInt64_ofInt_sub (a b : Nat) :
    (Int64.ofInt ((a : Int) - b)).toUInt64 = UInt64.ofNat a - UInt64.ofNat b := by
  rw [Int64.ofInt_sub]
  rfl

/-- A branch is decoded with the distance from what follows it to its label. -/
theorem next_branch (sink : Sink σ) (hout : Outside env code) {ps : List (Piece Op Branch Label)} {offset : Nat → Nat}
    (h : Assembled ps code offset) {k : Nat} {b : Branch} {l : Label} (hk : ps[k]? = some (.branch b l)) (m : Machine σ) :
    ∃ displacement : Int, (∀ j : Nat, ps[j]? = some (.label l) → displacement = offset j - offset (k + 1)) ∧
      next env code sink (place env offset k m) =
        (place env offset (k + 1) m).execute env sink (.branch b displacement) := by
  obtain ⟨size, d, hs, hholds, hsucc, ⟨rest, hdrop⟩, hd⟩ := h.branch hk
  have hlen := length_branch b hs d
  have hshort := b.shortSize_lt_longSize
  have hle : b.longSize ≤ maxLength := by cases b <;> decide
  have hpos : 0 < size ∧ size ≤ maxLength := by
    rcases hs with rfl | rfl
    · decide
    · exact ⟨by omega, hle⟩
  refine ⟨d, hd, ?_⟩
  have := next_goto sink hout hdrop (by omega) (by omega) (decode_branch b hholds) m
  rwa [hlen, ← hsucc] at this

/-- Assembled code is executed piece by piece. -/
theorem loaded (sink : Sink σ) (hout : Outside env code) {ps : List (Piece Op Branch Label)} {offset : Nat → Nat}
    (h : Assembled ps code offset) :
    Loaded (semantics env sink) (next env code sink) ps (place env offset) offset := by
  refine
    { op := ?_
      jump := ?_
      pass := ?_
      label := ?_
      offset_label := fun hk => h.label hk
      offset_op := ?_
      offset_branch := ?_ }
  · intro k o x y hk hx
    have hstraight := straight_of_exec hx
    rw [exec_of_straight hstraight] at hx
    rw [next_op hout h hk, place, executeOp_goto x _ hstraight, hx]
    rfl
  · intro j k b l x hk hj hx
    obtain ⟨d, hd, hnext⟩ := next_branch sink hout h hk x
    rw [hnext, execute, hd j hj]
    show some (if x.taken b then _ else _) = _
    replace hx : x.taken b = true := hx
    rw [if_pos hx, place, place, rip_goto, toUInt64_ofInt_sub]
    show some (x.goto _) = some (x.goto _)
    congr 2
    rw [UInt64.add_assoc, UInt64.add_comm (UInt64.ofNat (offset (k + 1))), UInt64.sub_add_cancel]
  · intro k b l x hk hx
    obtain ⟨d, _, hnext⟩ := next_branch sink hout h hk x
    rw [hnext, execute]
    show some (if x.taken b then _ else _) = _
    replace hx : x.taken b = false := hx
    rw [hx]
    rfl
  · intro k l hk x
    rw [place, place, h.label hk]
  · intro k o hk
    have := (length_encode o).1
    rw [(h.op hk).2.1]
    omega
  · intro k b l hk
    obtain ⟨size, _, hs, _, hsucc, _⟩ := h.branch hk
    have := b.shortSize_lt_longSize
    have : 0 < Branch.shortSize := by decide
    rw [hsucc]
    rcases hs with rfl | rfl <;> omega

end Machine

end TapeLang.X86
