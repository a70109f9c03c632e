import TapeLang.Proofs.Code.Run

/-!
# What can be seen of a run of generated code

`Follows` says of a machine, by the places where its control stands, that it follows the interpreter
from one instruction to the next. It is stated without the pieces of the code; a sound backend whose
places show in the machine has it (`Backend.Sound.follows`).
-/

namespace TapeLang

variable {ω β S : Type}

/-- The machine agrees with a state of the interpreter and stands where the code of its next
instruction starts; behind the last instruction that is the exit. -/
structure AtBoundary (stands : Nat → S → Prop) (Agrees : Interpreter → Array UInt8 → S → Prop)
    (offsets : Array Nat) (exit : Nat) (s : Interpreter) (out : Array UInt8) (m : S) : Prop where
  live : s.halted = false
  agrees : Agrees s out m
  place : ∃ offset, (offsets.push exit)[s.cursor.ip]? = some offset ∧ stands offset m

/-- A machine that runs the code of a program follows the interpreter. -/
structure Follows (step : S → Option S) (stands : Nat → S → Prop) (counting : Bool)
    (Agrees : Interpreter → Array UInt8 → S → Prop) (Faulted : Interpreter → Array UInt8 → UInt64 → S → Prop)
    (Exited : Interpreter → Array UInt8 → S → Prop) (Reported : Interpreter → Array UInt8 → UInt64 → S → Prop)
    (p : Program) (offsets : Array Nat) (exit stub : Nat) (s₀ : Interpreter) (m₀ : S) : Prop where
  /-- The entry leads to where the run is to go on. -/
  enters : ∃ n m, advance step n m₀ = some m ∧ AtBoundary stands Agrees offsets exit s₀ #[] m
  /-- Whenever control is at the start of an instruction, the machine agrees with a state that the
  interpreter reaches, and which executes that instruction next; or, where nothing is counted, closes
  the loop that opens there. -/
  visits {n : Nat} {m : S} (hn : advance step n m₀ = some m) {i offset : Nat}
    (hi : offsets[i]? = some offset) (hm : stands offset m) :
    ∃ k s out, advance (Interpreter.next p Sink.buffer) k (s₀, #[]) = some (s, out) ∧ Agrees s out m ∧
      (s.cursor.ip = i ∨ (counting = false ∧ p[s.cursor.ip]? = some (.loopEnd i)))
  /-- From the start of an instruction the machine goes to where the interpreter does, or to the stub
  if the interpreter's move fails. -/
  steps {s : Interpreter} {out : Array UInt8} {m : S} (hb : AtBoundary stands Agrees offsets exit s out m)
    (hip : s.cursor.ip < p.size) :
    (∃ s' out' n m', s.step p Sink.buffer out = (.running, s', out') ∧ 0 < n ∧ advance step n m = some m' ∧
      AtBoundary stands Agrees offsets exit s' out' m') ∨
    ∃ delta e n m', p[s.cursor.ip]? = some (.move delta) ∧
      s.step p Sink.buffer out = (.failed e, s.pass (.move delta), out) ∧ 0 < n ∧ advance step n m = some m' ∧
      stands stub m' ∧
      Faulted (s.pass (.move delta)) out (UInt64.ofNat s.cursor.ptr + delta.toUInt64) m'
  /-- The exit returns. -/
  exits {s : Interpreter} {out : Array UInt8} {m : S} (hb : AtBoundary stands Agrees offsets exit s out m)
    (hip : s.cursor.ip = p.size) :
    ∃ n t, advance step n m = some t ∧ step t = none ∧ Exited s out t
  /-- The stub reports, and returns. -/
  reports {s : Interpreter} {out : Array UInt8} {index : UInt64} {m : S} (hm : stands stub m)
    (hf : Faulted s out index m) :
    ∃ n t, advance step n m = some t ∧ step t = none ∧ Reported s out index t
  offset_lt_exit {i offset : Nat} (hi : offsets[i]? = some offset) : offset < exit
  exit_le_stub : exit ≤ stub

/-- The entry leads to the start of the instruction that is to be resumed. -/
theorem Follows.exists_resumed {step : S → Option S} {stands : Nat → S → Prop} {counting : Bool}
    {Agrees : Interpreter → Array UInt8 → S → Prop} {Faulted : Interpreter → Array UInt8 → UInt64 → S → Prop}
    {Exited : Interpreter → Array UInt8 → S → Prop} {Reported : Interpreter → Array UInt8 → UInt64 → S → Prop}
    {p : Program} {offsets : Array Nat} {exit stub resume : Nat} {s₀ : Interpreter} {m₀ : S}
    (h : Follows step stands counting Agrees Faulted Exited Reported p offsets exit stub s₀ m₀)
    (hresume : offsets[s₀.cursor.ip]? = some resume) :
    ∃ n m, advance step n m₀ = some m ∧ stands resume m ∧ Agrees s₀ #[] m := by
  obtain ⟨n, m, hn, hat⟩ := h.enters
  obtain ⟨offset, hoffset, hstands⟩ := hat.place
  have hlt : s₀.cursor.ip < offsets.size := (Array.getElem?_eq_some_iff.1 hresume).1
  rw [Array.getElem?_push_lt hlt, ← Array.getElem?_eq_getElem hlt, hresume] at hoffset
  cases hoffset
  exact ⟨n, m, hn, hstands, hat.agrees⟩

namespace Backend

variable {T : Backend ω β S S} {p : Program} {stands : Nat → S → Prop}

/-- The places of a backend show in the machine, and are all that there is to its control. -/
structure Visible (T : Backend ω β S S) (p : Program) (stands : Nat → S → Prop) : Prop where
  stands_place (k : Nat) (m : S) : stands (T.offset k) (T.place k m)
  place_of_stands {k : Nat} {m : S} (h : stands (T.offset k) m) : T.place k m = m
  offset_inj {j k : Nat} {m : S} (hj : stands (T.offset j) m) (hk : stands (T.offset k) m) :
    T.offset j = T.offset k
  agrees {s : Interpreter} {out : Array UInt8} {k : Nat} {m : S} (h : T.Agrees s out m) :
    T.Agrees s out (T.place k m)
  faulted {s : Interpreter} {out : Array UInt8} {index : UInt64} {k : Nat} {m : S}
    (h : T.Faulted s out index m) : T.Faulted s out index (T.place k m)
  quiet {m : S} (h : T.Quiet m) {ip : Nat} (hip : ip < p.size) : ¬ stands (T.offset (T.dialect.start p ip)) m

namespace Sound

theorem offset_start_strictMono (h : T.Sound p) {ip jp : Nat} (hij : ip < jp) (hj : jp ≤ p.size) :
    T.offset (T.dialect.start p ip) < T.offset (T.dialect.start p jp) :=
  Nat.lt_of_lt_of_le (h.offset_start_lt (by omega)) (h.offset_start_mono hij hj)

theorem start_inj (h : T.Sound p) {ip jp : Nat} (hip : ip < p.size) (hjp : jp < p.size)
    (heq : T.offset (T.dialect.start p ip) = T.offset (T.dialect.start p jp)) : ip = jp := by
  rcases Nat.lt_trichotomy ip jp with hlt | rfl | hgt
  · have := h.offset_start_strictMono hlt (Nat.le_of_lt hjp)
    omega
  · rfl
  · have := h.offset_start_strictMono hgt (Nat.le_of_lt hip)
    omega

variable {Exited : Interpreter → Array UInt8 → S → Prop} {Reported : Interpreter → Array UInt8 → UInt64 → S → Prop}
  {offsets : Array Nat} {s₀ s : Interpreter} {out : Array UInt8} {m₀ m : S}

/-- The offsets of the instructions are where their code starts. -/
def Offsets (T : Backend ω β S S) (p : Program) (offsets : Array Nat) : Prop :=
  offsets.size = p.size ∧ ∀ ip < p.size, offsets[ip]? = some (T.offset (T.dialect.start p ip))

theorem offset_of_getElem? (ho : Offsets T p offsets) {i offset : Nat} (hi : offsets[i]? = some offset) :
    i < p.size ∧ offset = T.offset (T.dialect.start p i) := by
  have hlt : i < p.size := by
    rw [← ho.1]
    exact (Array.getElem?_eq_some_iff.1 hi).1
  rw [ho.2 i hlt] at hi
  exact ⟨hlt, by cases hi; rfl⟩

theorem getElem?_push_exit (ho : Offsets T p offsets) {ip : Nat} (hip : ip ≤ p.size) :
    (offsets.push (T.offset (T.dialect.start p p.size)))[ip]? = some (T.offset (T.dialect.start p ip)) := by
  rw [Array.getElem?_push]
  split
  · rename_i heq
    rw [heq, ho.1]
  · rename_i hne
    rw [ho.1] at hne
    exact ho.2 ip (by omega)

/-- Standing at a boundary, by pieces and by offsets. -/
theorem boundary_iff (hv : T.Visible p stands) (ho : Offsets T p offsets) :
    T.Boundary p s out m ↔
      AtBoundary stands T.Agrees offsets (T.offset (T.dialect.start p p.size)) s out m := by
  constructor
  · rintro ⟨hs, hip, x, rfl, hx⟩
    exact ⟨hs, hv.agrees hx, _, getElem?_push_exit ho hip, hv.stands_place _ x⟩
  · rintro ⟨hs, hagrees, offset, hoffset, hstands⟩
    have hip : s.cursor.ip ≤ p.size := by
      have := (Array.getElem?_eq_some_iff.1 hoffset).1
      rw [Array.size_push, ho.1] at this
      omega
    rw [getElem?_push_exit ho hip] at hoffset
    cases hoffset
    exact ⟨hs, hip, m, (hv.place_of_stands hstands).symm, hagrees⟩

/-- A run that was entered follows the interpreter. -/
theorem follows (h : T.Sound p) (hv : T.Visible p stands) (hc : T.Closes p Exited Reported)
    (ho : Offsets T p offsets) {n₀ : Nat} (henter : Trail T.step T.Quiet n₀ m₀ m) (hb : T.Boundary p s₀ #[] m) :
    Follows T.step stands T.counting T.Agrees T.Faulted Exited Reported p offsets
      (T.offset (T.dialect.start p p.size)) (T.offset (T.dialect.faultAt p)) s₀ m₀ where
  enters := ⟨n₀, m, henter.advance, (boundary_iff hv ho).1 hb⟩
  visits {n u} hn {i offset} hi hu := by
    obtain ⟨hlt, rfl⟩ := offset_of_getElem? ho hi
    rcases Nat.lt_or_ge n n₀ with hbefore | hafter
    · exact absurd hu (hv.quiet (henter.holds hbefore hn) hlt)
    · rw [advance_of_advance henter.advance hafter] at hn
      obtain ⟨k, s, out, hk, hpass⟩ := h.passing hc hb hn
      rcases hpass with hquiet | ⟨ip, hip, ⟨x, rfl, hx⟩, hat⟩
      · exact absurd hu (hv.quiet hquiet hlt)
      · obtain rfl : ip = i := h.start_inj hip hlt (hv.offset_inj (hv.stands_place _ x) hu)
        exact ⟨k, s, out, hk, hv.agrees hx, hat⟩
  steps {s out u} hat hip := by
    rcases h.step ((boundary_iff hv ho).2 hat) hip with
      ⟨s', out', hstep, n, m', hn, htrail, hb'⟩ | ⟨_, _, n, m', _, hn, htrail, hf⟩
    · exact .inl ⟨s', out', n, m', hstep, hn, htrail.advance, (boundary_iff hv ho).1 hb'⟩
    · obtain ⟨delta, e, x, hmove, herror, rfl, hx⟩ := hf
      have hat : s.At p (.move delta) := ⟨hat.live, hmove, h.realizes.ptr_lt hat.agrees⟩
      exact .inr ⟨delta, e, n, _, hmove, Interpreter.step_move_error hat herror Sink.buffer out, hn, htrail.advance,
        hv.stands_place _ x, hv.faulted hx⟩
  exits {s out u} hat hip := by
    obtain ⟨_, _, x, rfl, hx⟩ := (boundary_iff hv ho).2 hat
    obtain ⟨n, t, htrail, _, hlast, hexit⟩ := hc.exit hx
    rw [hip]
    exact ⟨n, t, htrail.advance, hlast, hexit⟩
  reports {s out index u} hm hf := by
    obtain ⟨n, t, htrail, _, hlast, hreport⟩ := hc.fault hf
    rw [hv.place_of_stands hm] at htrail
    exact ⟨n, t, htrail.advance, hlast, hreport⟩
  offset_lt_exit {i offset} hi := by
    obtain ⟨hlt, rfl⟩ := offset_of_getElem? ho hi
    exact h.offset_start_strictMono hlt (Nat.le_refl _)
  exit_le_stub := by
    refine h.loaded.offset_mono (Nat.le_add_right _ _) ?_
    rw [Dialect.length_listing, Dialect.faultAt, Dialect.closing, List.length_append, Dialect.length_ops]
    omega

end Sound

end Backend

end TapeLang
