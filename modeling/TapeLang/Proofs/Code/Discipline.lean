import TapeLang.Proofs.Code.Follows

/-!
# What a routine leaves to its caller and to itself

`Convention.Disciplined` is what a calling convention asks of a run, whatever the host functions leave behind: the
stack pointer is aligned at every call and is that of the frame at the start of every instruction, the registers in
use survive every output, and the caller gets back what is its own. One proof for both instruction sets
(`Backend.Sound.disciplined`): a machine that is about to call is not at its end, and a call that can be executed is
aligned.
-/

namespace TapeLang

variable {ω β S : Type}

/-- What a calling convention speaks of. -/
structure Convention (S : Type) where
  stackPointer : S → UInt64
  /-- The stack pointer that the entry sets, the routine having been entered with a machine. -/
  frame : S → UInt64
  /-- The next step calls a host function. -/
  AtCall : S → Prop
  /-- From a machine to another a host function was called, and the registers in use are what they were. -/
  Survives : S → S → Prop
  /-- The caller of the routine, which was entered with the first machine, has back what is its own. -/
  Released : S → S → Prop

/-- A run from `m₀` keeps to the calling convention. -/
structure Convention.Disciplined (c : Convention S) (step : S → Option S) (stands : Nat → S → Prop) (p : Program)
    (offsets : Array Nat) (m₀ : S) : Prop where
  /-- Whenever a host function is called, the stack is aligned. -/
  aligned {n : Nat} {m : S} (hn : advance step n m₀ = some m) (hcall : c.AtCall m) : c.stackPointer m % 16 = 0
  /-- Whenever control is at the start of an instruction, the stack is that of the frame. -/
  framed {n : Nat} {m : S} (hn : advance step n m₀ = some m) {i offset : Nat} (hi : offsets[i]? = some offset)
    (hm : stands offset m) : c.stackPointer m = c.frame m₀
  /-- From the start of an output the machine goes to the start of the next instruction, or to the exit, with
  the registers that are in use. -/
  outputs {n : Nat} {m : S} (hn : advance step n m₀ = some m) {i offset : Nat} (hi : offsets[i]? = some offset)
    (hm : stands offset m) (hp : p[i]? = some .output) :
    ∃ k m' behind, 0 < k ∧ advance step k m = some m' ∧ stands behind m' ∧ c.stackPointer m' = c.frame m₀ ∧
      c.Survives m m' ∧ (i + 1 < p.size → offsets[i + 1]? = some behind)
  /-- Where the run ends, the caller has back what is its own. -/
  released {n : Nat} {m : S} (hn : advance step n m₀ = some m) (hlast : step m = none) : c.Released m₀ m

variable {c : Convention S} {stands : Nat → S → Prop} {p q : Program} {offsets : Array Nat} {m₀ : S}

/-- The loop targets of the program are of no account. -/
theorem Convention.Disciplined.congr {step : S → Option S} (h : c.Disciplined step stands q offsets m₀)
    (herase : q.toList.map Instruction.erase = p.toList.map Instruction.erase) :
    c.Disciplined step stands p offsets m₀ where
  aligned := h.aligned
  framed := h.framed
  outputs {n m} hn {i offset} hi hm hp := by
    have hsize : q.size = p.size := by simpa using congrArg List.length herase
    rw [← hsize]
    refine h.outputs hn hi hm ?_
    obtain ⟨j, hj, herased⟩ := Program.exists_erase_eq herase hp
    rw [hj, Instruction.eq_of_erase_eq (a := .output) herased]
    rfl
  released := h.released

namespace Backend.Sound

variable {T : Backend ω β S S} {Exited : Interpreter → Array UInt8 → S → Prop}
  {Reported : Interpreter → Array UInt8 → UInt64 → S → Prop} {s₀ s : Interpreter} {out : Array UInt8} {m x z : S}
  {i : Instruction} {os : List ω}

/-- Operations that an instruction is translated to are executed up to the next instruction. -/
theorem advance_of_ops (h : T.Sound p) (hi : p[s.cursor.ip]? = some i) (hx : T.Agrees s out x)
    (ht : T.dialect.tail s.cursor.ip i = Dialect.ops os)
    (hz : T.sem.execAll (T.dialect.count i.kind ++ os) x = some z) :
    advance T.step (T.dialect.count i.kind ++ os).length (T.place (T.dialect.start p s.cursor.ip) x) =
      some (T.place (T.dialect.start p (s.cursor.ip + 1)) z) := by
  have hqs : Straight (T.dialect.chunk s.cursor.ip i) (T.dialect.count i.kind ++ os) := by
    rw [Dialect.chunk, ht]
    exact .lead _ _ _ (.ops os)
  have htrail := h.trail_before hi hx (List.append_nil _).symm hqs hz
  rw [Dialect.start_succ hi]
  exact htrail.advance

/-- At the start of an output, it is the interpreter's next instruction. -/
theorem ip_eq_of_output (h : T.Sound p) {j : Nat} (hj : p[j]? = some .output)
    (hat : s.cursor.ip = j ∨ (T.counting = false ∧ p[s.cursor.ip]? = some (.loopEnd j))) : s.cursor.ip = j := by
  rcases hat with hip | ⟨_, hend⟩
  · exact hip
  · have hopen := (h.linked.open_of_loopEnd hend).2
    rw [hj] at hopen
    cases hopen

/-- A backend whose parts keep to a convention does so all along a run. -/
theorem disciplined (h : T.Sound p) (hv : T.Visible p stands) (hc : T.Closes p Exited Reported)
    (ho : Offsets T p offsets) {n₀ : Nat} (henter : Trail T.step T.Quiet n₀ m₀ m) (hb : T.Boundary p s₀ #[] m)
    (hframe : ∀ {s out x}, T.Agrees s out x → c.stackPointer x = c.frame m₀)
    (houtput : ∀ {s out x}, T.Agrees s out x →
      ∃ z, T.sem.execAll (T.dialect.count .output ++ T.dialect.output) x = some z ∧
        T.Agrees (s.pass .output) (out.push s.cell) z ∧ ∀ k, c.Survives x (T.place k z))
    (hcall : ∀ {x}, c.AtCall x → T.step x ≠ none → c.stackPointer x % 16 = 0)
    (hreleased : ∀ {t}, c.Released m₀ t → ¬ c.AtCall t)
    (hexited : ∀ {s out t}, Exited s out t → c.Released m₀ t)
    (hreported : ∀ {s out index t}, Reported s out index t → c.Released m₀ t) :
    c.Disciplined T.step stands p offsets m₀ := by
  have hfollows := h.follows hv hc ho henter hb
  have hends {n : Nat} {t : S} (hn : advance T.step n m₀ = some t) (hlast : T.step t = none) : c.Released m₀ t := by
    rcases h.exited_or_reported hc henter.advance hb hn hlast with ⟨_, _, _, hexit⟩ | ⟨_, _, _, _, hreport⟩
    · exact hexited hexit
    · exact hreported hreport
  constructor
  · intro n x hn hx
    refine hcall hx fun hnone => ?_
    exact hreleased (hends hn hnone) hx
  · intro n x hn j offset hj hx
    obtain ⟨_, _, _, _, hagrees, _⟩ := hfollows.visits hn hj hx
    exact hframe hagrees
  · intro n x hn j offset hj hx hp
    obtain ⟨_, s, out, _, hagrees, hat⟩ := hfollows.visits hn hj hx
    obtain rfl := h.ip_eq_of_output hp hat
    obtain ⟨hlt, rfl⟩ := offset_of_getElem? ho hj
    obtain ⟨z, hz, hbehind, hsurvives⟩ := houtput hagrees
    have hrun := h.advance_of_ops hp hagrees rfl hz
    rw [hv.place_of_stands hx] at hrun
    refine ⟨_, _, _, ?_, hrun, hv.stands_place _ z, hframe (hv.agrees hbehind), hsurvives _,
      fun hlt' => ho.2 _ hlt'⟩
    have := List.length_pos_iff.2 h.realizes.output_ne_nil
    rw [List.length_append]
    omega
  · intro n t hn hlast
    exact hends hn hlast

end Backend.Sound

end TapeLang
