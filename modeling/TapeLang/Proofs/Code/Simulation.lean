import TapeLang.Proofs.Code.Chunks
import TapeLang.Proofs.Code.Trail
import TapeLang.Proofs.Interpreter

/-!
# Translated programs simulate the interpreter

One proof for both instruction sets. A `Backend` is a dialect with a machine that executes its pieces
and a relation of the machine's data to a state of the interpreter; it is `Sound` for a program if the
machine executes the listing of the program (`Loaded`) and every part of the dialect does to the data
what the interpreter does to its state (`Realizes`).

From the start of an instruction the machine goes, in one step or more, to the start of the
instruction that the interpreter executes next, or to the stub exactly if the interpreter's move
fails (`Backend.Sound.step`). On its way it passes no other start of an instruction, but for that of
the loop that a closing bracket goes back to, where nothing is counted (`Backend.Visits`).
-/

namespace TapeLang

variable {ω β D S : Type}

/-- What operations do to data, and which branches are taken. -/
structure Semantics (ω β D : Type) where
  exec : ω → D → Option D
  taken : β → D → Bool

/-- Executes operations one after another. -/
def Semantics.execAll (sem : Semantics ω β D) : List ω → D → Option D
  | [], x => some x
  | o :: os, x => (sem.exec o x).bind (sem.execAll os)

theorem Semantics.execAll_append {sem : Semantics ω β D} {os os' : List ω} {x y z : D}
    (h : sem.execAll os x = some y) (h' : sem.execAll os' y = some z) :
    sem.execAll (os ++ os') x = some z := by
  induction os generalizing x with
  | nil =>
    cases h
    exact h'
  | cons o os ih =>
    rw [execAll] at h
    rw [List.cons_append, execAll]
    cases ho : sem.exec o x with
    | none => rw [ho] at h; cases h
    | some x' =>
      rw [ho, Option.bind_some] at h
      rw [Option.bind_some, ih h]

/-- A machine executes a list of pieces: `place k x` is the machine in front of the piece at `k` with
data `x`, and `offset k` is where that piece stands in the code. -/
structure Loaded (sem : Semantics ω β D) (step : S → Option S) (ps : List (Piece ω β Label))
    (place : Nat → D → S) (offset : Nat → Nat) : Prop where
  op {k : Nat} {o : ω} {x y : D} (h : ps[k]? = some (.op o)) (hx : sem.exec o x = some y) :
    step (place k x) = some (place (k + 1) y)
  jump {j k : Nat} {b : β} {l : Label} {x : D} (h : ps[k]? = some (.branch b l))
    (hl : ps[j]? = some (.label l)) (hx : sem.taken b x = true) : step (place k x) = some (place j x)
  pass {k : Nat} {b : β} {l : Label} {x : D} (h : ps[k]? = some (.branch b l))
    (hx : sem.taken b x = false) : step (place k x) = some (place (k + 1) x)
  label {k : Nat} {l : Label} (h : ps[k]? = some (.label l)) (x : D) : place (k + 1) x = place k x
  offset_label {k : Nat} {l : Label} (h : ps[k]? = some (.label l)) : offset (k + 1) = offset k
  offset_op {k : Nat} {o : ω} (h : ps[k]? = some (.op o)) : offset k < offset (k + 1)
  offset_branch {k : Nat} {b : β} {l : Label} (h : ps[k]? = some (.branch b l)) :
    offset k < offset (k + 1)

/-- Every part of a dialect does to the data what the interpreter does to its state. Where the
interpreter's move fails, the data tell the index that it would have led to. -/
structure Dialect.Realizes (d : Dialect ω β) (sem : Semantics ω β D) (counting : Bool)
    (Agrees : Interpreter → Array UInt8 → D → Prop)
    (Faulted : Interpreter → Array UInt8 → UInt64 → D → Prop) : Prop where
  count_nil (h : counting = false) (k : Kind) : d.count k = []
  count_ne_nil (h : counting = true) (k : Kind) : d.count k ≠ []
  add_ne_nil (delta : UInt8) : d.add delta ≠ []
  set_ne_nil (value : UInt8) : d.set value ≠ []
  output_ne_nil : d.output ≠ []
  always (x : D) : sem.taken d.always x = true
  ptr_lt {s : Interpreter} {out : Array UInt8} {x : D} (h : Agrees s out x) : s.cursor.ptr < s.tape.capacity
  congr {s s' : Interpreter} {out : Array UInt8} {x : D} (h : Agrees s out x) (ht : s'.tape = s.tape)
    (hp : s'.cursor.ptr = s.cursor.ptr) (hc : s'.counters = s.counters) : Agrees s' out x
  count {s : Interpreter} {out : Array UInt8} {x : D} (h : Agrees s out x) (i : Instruction) :
    ∃ y, sem.execAll (d.count i.kind) x = some y ∧ Agrees (s.pass i) out y
  add {s : Interpreter} {out : Array UInt8} {x : D} (h : Agrees s out x) (delta : UInt8) :
    ∃ y, sem.execAll (d.add delta) x = some y ∧ Agrees (s.withCell (s.cell + delta)) out y
  set {s : Interpreter} {out : Array UInt8} {x : D} (h : Agrees s out x) (value : UInt8) :
    ∃ y, sem.execAll (d.set value) x = some y ∧ Agrees (s.withCell value) out y
  output {s : Interpreter} {out : Array UInt8} {x : D} (h : Agrees s out x) :
    ∃ y, sem.execAll d.output x = some y ∧ Agrees s (out.push s.cell) y
  test {s : Interpreter} {out : Array UInt8} {x : D} (h : Agrees s out x) :
    ∃ y, sem.execAll d.test x = some y ∧ sem.taken d.ifZero y = (s.cell == 0) ∧ Agrees s out y
  move {s : Interpreter} {out : Array UInt8} {x : D} (h : Agrees s out x) {delta : Int64} {ptr : Nat}
    (hm : s.tape.offset s.cursor.ptr delta = .ok ptr) :
    ∃ y z, sem.execAll (d.move delta) x = some y ∧ sem.taken d.ifOutside y = false ∧
      sem.execAll d.reload y = some z ∧ Agrees (s.withPtr ptr) out z
  fault {s : Interpreter} {out : Array UInt8} {x : D} (h : Agrees s out x) {delta : Int64} {e : Error}
    (hm : s.tape.offset s.cursor.ptr delta = .error e) :
    ∃ y, sem.execAll (d.move delta) x = some y ∧ sem.taken d.ifOutside y = true ∧
      Faulted s out (UInt64.ofNat s.cursor.ptr + delta.toUInt64) y

/-! ### Straight code -/

theorem add_length_cons {α : Type} (k : Nat) (a : α) (l : List α) : k + (a :: l).length = k + 1 + l.length := by
  rw [List.length_cons]
  omega

/-- Pieces without branches, and the operations among them. -/
inductive Straight : List (Piece ω β Label) → List ω → Prop where
  | nil : Straight [] []
  | op {qs : List (Piece ω β Label)} {os : List ω} (o : ω) (h : Straight qs os) :
    Straight (.op o :: qs) (o :: os)
  | label {qs : List (Piece ω β Label)} {os : List ω} (l : Label) (h : Straight qs os) :
    Straight (.label l :: qs) os

theorem Straight.ops (os : List ω) : Straight (Dialect.ops os : List (Piece ω β Label)) os := by
  induction os with
  | nil => exact .nil
  | cons o os ih => exact .op o ih

theorem Straight.append {qs qs' : List (Piece ω β Label)} {os os' : List ω} (h : Straight qs os)
    (h' : Straight qs' os') : Straight (qs ++ qs') (os ++ os') := by
  induction h with
  | nil => exact h'
  | op o _ ih => exact .op o ih
  | label l _ ih => exact .label l ih

theorem Straight.lead (d : Dialect ω β) (ip : Nat) (k : Kind) {qs : List (Piece ω β Label)} {os : List ω}
    (h : Straight qs os) : Straight (d.lead ip k qs) (d.count k ++ os) :=
  .label _ ((Straight.ops _).append h)

namespace Loaded

variable {sem : Semantics ω β D} {step : S → Option S} {ps : List (Piece ω β Label)}
  {place : Nat → D → S} {offset : Nat → Nat}

theorem offset_mono (hl : Loaded sem step ps place offset) {j k : Nat} (hjk : j ≤ k) (hk : k ≤ ps.length) :
    offset j ≤ offset k := by
  induction k with
  | zero =>
    obtain rfl : j = 0 := by omega
    exact Nat.le_refl _
  | succ k ih =>
    rcases Nat.eq_or_lt_of_le hjk with rfl | hlt
    · exact Nat.le_refl _
    have hstep : offset k ≤ offset (k + 1) := by
      have hget : ps[k]? = some ps[k] := List.getElem?_eq_getElem (by omega)
      cases hq : ps[k] with
      | op o =>
        rw [hq] at hget
        exact Nat.le_of_lt (hl.offset_op hget)
      | branch b l =>
        rw [hq] at hget
        exact Nat.le_of_lt (hl.offset_branch hget)
      | label l =>
        rw [hq] at hget
        exact Nat.le_of_eq (hl.offset_label hget).symm
    exact Nat.le_trans (ih (by omega) (by omega)) hstep

theorem offset_straight_le (hl : Loaded sem step ps place offset) {qs : List (Piece ω β Label)}
    {os : List ω} (hqs : Straight qs os) {k : Nat} (hk : Located ps k qs) :
    offset k ≤ offset (k + qs.length) := by
  induction hqs generalizing k with
  | nil => exact Nat.le_refl _
  | @op qs os o _ ih =>
    have h₁ := hl.offset_op hk.1
    have h₂ := ih hk.2
    rw [add_length_cons]
    omega
  | @label qs os l _ ih =>
    have h₁ := hl.offset_label hk.1
    have h₂ := ih hk.2
    rw [add_length_cons]
    omega

theorem offset_straight_lt (hl : Loaded sem step ps place offset) {qs : List (Piece ω β Label)}
    {os : List ω} (hqs : Straight qs os) (hos : os ≠ []) {k : Nat} (hk : Located ps k qs) :
    offset k < offset (k + qs.length) := by
  induction hqs generalizing k with
  | nil => exact absurd rfl hos
  | @op qs os o hqs _ =>
    have h₁ := hl.offset_op hk.1
    have h₂ := hl.offset_straight_le hqs hk.2
    rw [add_length_cons]
    omega
  | @label qs os l _ ih =>
    have h₁ := hl.offset_label hk.1
    have h₂ := ih hos hk.2
    rw [add_length_cons]
    omega

/-- Pieces without operations do nothing. -/
theorem place_straight_nil (hl : Loaded sem step ps place offset) {qs : List (Piece ω β Label)}
    (hqs : Straight qs []) {k : Nat} (hk : Located ps k qs) (x : D) :
    place (k + qs.length) x = place k x := by
  generalize hos : ([] : List ω) = os at hqs
  induction hqs generalizing k with
  | nil => rfl
  | op => cases hos
  | @label qs os l _ ih =>
    rw [add_length_cons, ih hk.2 hos, hl.label hk.1]

/-- Straight code is executed to its end. A property that holds in front of it and strictly within
`e` of its start holds all the way. -/
theorem trail_straight (hl : Loaded sem step ps place offset) {P : S → Prop}
    {qs : List (Piece ω β Label)} {os : List ω} (hqs : Straight qs os) {k e : Nat} (hk : Located ps k qs)
    {x y : D} (hx : sem.execAll os x = some y) (hP : os ≠ [] → P (place k x))
    (hin : ∀ j z, offset k < offset j → offset j < e → P (place j z))
    (he : offset (k + qs.length) ≤ e) :
    Trail step P os.length (place k x) (place (k + qs.length) y) := by
  induction hqs generalizing k x with
  | nil =>
    cases hx
    exact .nil _
  | @op qs os o hqs ih =>
    rw [Semantics.execAll] at hx
    obtain ⟨x', ho, hx⟩ := Option.bind_eq_some_iff.1 hx
    have hlt := hl.offset_op hk.1
    rw [add_length_cons] at he ⊢
    refine .cons (hP (by simp)) (hl.op hk.1 ho) (ih hk.2 hx ?_ ?_ he)
    · intro hos
      have := hl.offset_straight_lt hqs hos hk.2
      exact hin _ _ hlt (by omega)
    · intro j z hj
      exact hin j z (by omega)
  | @label qs os l hqs ih =>
    have heq := hl.offset_label hk.1
    rw [add_length_cons] at he ⊢
    rw [← hl.label hk.1 x]
    refine ih hk.2 hx ?_ ?_ he
    · intro hos
      rw [hl.label hk.1 x]
      exact hP hos
    · intro j z hj
      exact hin j z (by omega)

/-- The property still holds behind straight code. -/
theorem holds_behind (hl : Loaded sem step ps place offset) {P : S → Prop}
    {qs : List (Piece ω β Label)} {os : List ω} (hqs : Straight qs os) {k e : Nat} (hk : Located ps k qs)
    {x y : D} (hx : sem.execAll os x = some y) (hP : P (place k x))
    (hin : ∀ j z, offset k < offset j → offset j < e → P (place j z))
    (he : offset (k + qs.length) < e) : P (place (k + qs.length) y) := by
  by_cases hos : os = []
  · subst hos
    cases hx
    rwa [hl.place_straight_nil hqs hk]
  · exact hin _ y (hl.offset_straight_lt hqs hos hk) he

end Loaded

/-! ### The code of an instruction -/

namespace Dialect

variable {d : Dialect ω β} {p : Program} {qs qs' : List (Piece ω β Label)} {ip : Nat} {i : Instruction}

theorem start_le (p : Program) (d : Dialect ω β) {ip : Nat} (h : ip ≤ p.size) :
    d.start p ip ≤ (d.listing p).length := by
  have := d.start_mono (p := p) h
  rw [length_listing]
  omega

theorem located_before (hi : p[ip]? = some i) (hc : d.chunk ip i = qs ++ qs') :
    Located (d.listing p) (d.start p ip) qs ∧ Located (d.listing p) (d.start p ip + qs.length) qs' := by
  have := d.located_chunk (p := p) hi
  rw [hc] at this
  exact Located.append_iff.1 this

theorem start_succ_eq (hi : p[ip]? = some i) (hc : d.chunk ip i = qs ++ qs') :
    d.start p (ip + 1) = d.start p ip + qs.length + qs'.length := by
  rw [start_succ hi, hc, List.length_append, Nat.add_assoc]

theorem chunk_move (d : Dialect ω β) (ip : Nat) (delta : Int64) :
    d.chunk ip (.move delta) =
      d.lead ip .move (ops (d.move delta)) ++ .branch d.ifOutside .fault :: ops d.reload :=
  d.lead_append ..

end Dialect

namespace Loaded

open Dialect (start_le located_before start_succ_eq)

variable {sem : Semantics ω β D} {step : S → Option S} {d : Dialect ω β} {p : Program} {place : Nat → D → S}
  {offset : Nat → Nat} {P : S → Prop} {ip : Nat} {i : Instruction} {qs qs' : List (Piece ω β Label)} {b : β}
  {l : Label} {os os' : List ω} {x y z : D}

/-- An instruction with a branch has code. -/
theorem offset_start_lt_of_branch (hl : Loaded sem step (d.listing p) place offset) (hi : p[ip]? = some i)
    (hc : d.chunk ip i = qs ++ .branch b l :: qs') : offset (d.start p ip) < offset (d.start p (ip + 1)) := by
  have hip : ip < p.size := (Array.getElem?_eq_some_iff.1 hi).1
  have hlt := hl.offset_branch (located_before hi hc).2.1
  have hle := start_le p d (show ip + 1 ≤ p.size from hip)
  rw [start_succ_eq hi hc, List.length_cons] at hle ⊢
  have hbefore := hl.offset_mono (show d.start p ip ≤ d.start p ip + qs.length by omega) (by omega)
  have hafter := hl.offset_mono
    (show d.start p ip + qs.length + 1 ≤ d.start p ip + qs.length + (qs'.length + 1) by omega) hle
  omega

/-- Straight code at the start of an instruction is executed with a property that holds there and
strictly inside the code of the instruction. -/
theorem trail_before (hl : Loaded sem step (d.listing p) place offset) (hi : p[ip]? = some i)
    (hc : d.chunk ip i = qs ++ qs') (hqs : Straight qs os) (hy : sem.execAll os x = some y)
    (hP : P (place (d.start p ip) x))
    (hin : ∀ j z, offset (d.start p ip) < offset j → offset j < offset (d.start p (ip + 1)) → P (place j z)) :
    Trail step P os.length (place (d.start p ip) x) (place (d.start p ip + qs.length) y) := by
  have hip : ip < p.size := (Array.getElem?_eq_some_iff.1 hi).1
  refine hl.trail_straight hqs (located_before hi hc).1 hy (fun _ => hP) hin ?_
  have hle := start_le p d (show ip + 1 ≤ p.size from hip)
  rw [start_succ_eq hi hc] at hle ⊢
  exact hl.offset_mono (by omega) hle

/-- Behind such code, with a branch to come, the property still holds. -/
theorem holds_before (hl : Loaded sem step (d.listing p) place offset) (hi : p[ip]? = some i)
    (hc : d.chunk ip i = qs ++ .branch b l :: qs') (hqs : Straight qs os) (hy : sem.execAll os x = some y)
    (hP : P (place (d.start p ip) x))
    (hin : ∀ j z, offset (d.start p ip) < offset j → offset j < offset (d.start p (ip + 1)) → P (place j z)) :
    P (place (d.start p ip + qs.length) y) := by
  have hip : ip < p.size := (Array.getElem?_eq_some_iff.1 hi).1
  refine hl.holds_behind hqs (located_before hi hc).1 hy hP hin ?_
  have hle := start_le p d (show ip + 1 ≤ p.size from hip)
  have hlt := hl.offset_branch (located_before hi hc).2.1
  rw [start_succ_eq hi hc, List.length_cons] at hle ⊢
  exact Nat.lt_of_lt_of_le hlt (hl.offset_mono (by omega) hle)

/-- Straight code behind the branch of an instruction is executed to the end of the instruction. -/
theorem trail_behind (hl : Loaded sem step (d.listing p) place offset) (hi : p[ip]? = some i)
    (hc : d.chunk ip i = qs ++ .branch b l :: qs') (hqs : Straight qs os) (hqs' : Straight qs' os')
    (hz : sem.execAll os' y = some z)
    (hin : ∀ j z, offset (d.start p ip) < offset j → offset j < offset (d.start p (ip + 1)) → P (place j z)) :
    Trail step P os'.length (place (d.start p ip + qs.length + 1) y) (place (d.start p (ip + 1)) z) := by
  have hle := hl.offset_straight_le hqs (located_before hi hc).1
  have hlt := hl.offset_branch (located_before hi hc).2.1
  have hloc := (located_before hi hc).2.2
  have hend : d.start p (ip + 1) = d.start p ip + qs.length + 1 + qs'.length := by
    rw [start_succ_eq hi hc, add_length_cons]
  rw [hend] at hin ⊢
  refine hl.trail_straight hqs' hloc hz ?_ ?_ (Nat.le_refl _)
  · intro hos
    have := hl.offset_straight_lt hqs' hos hloc
    exact hin _ y (by omega) this
  · intro j w hlo hhi
    exact hin j w (by omega) hhi

end Loaded

/-! ### Backends -/

/-- A dialect, a machine that executes its pieces, and how the machine's data stand for a state of
the interpreter. -/
structure Backend (ω β D S : Type) where
  dialect : Dialect ω β
  sem : Semantics ω β D
  step : S → Option S
  place : Nat → D → S
  offset : Nat → Nat
  counting : Bool
  Agrees : Interpreter → Array UInt8 → D → Prop
  Faulted : Interpreter → Array UInt8 → UInt64 → D → Prop
  /-- Being at the start of no instruction. -/
  Quiet : S → Prop

namespace Backend

/-- The backend executes a program. -/
structure Sound (T : Backend ω β D S) (p : Program) : Prop where
  linked : p.Linked
  compilable : p.Compilable
  loaded : Loaded T.sem T.step (T.dialect.listing p) T.place T.offset
  realizes : T.dialect.Realizes T.sem T.counting T.Agrees T.Faulted
  quiet {k : Nat} (x : D) (h : ∀ ip < p.size, T.offset k ≠ T.offset (T.dialect.start p ip)) :
    T.Quiet (T.place k x)

variable (T : Backend ω β D S) (p : Program)

/-- The machine stands at the start of the instruction that the interpreter executes next, or at the
exit. -/
def Boundary (s : Interpreter) (out : Array UInt8) (m : S) : Prop :=
  s.halted = false ∧ s.cursor.ip ≤ p.size ∧
    ∃ x, m = T.place (T.dialect.start p s.cursor.ip) x ∧ T.Agrees s out x

/-- The machine stands at the start of the instruction at `ip` and agrees with the interpreter: that
executes the same instruction next, or it closes the loop that opens there, and nothing is
counted. -/
def Visits (s : Interpreter) (out : Array UInt8) (ip : Nat) (m : S) : Prop :=
  (∃ x, m = T.place (T.dialect.start p ip) x ∧ T.Agrees s out x) ∧
    (s.cursor.ip = ip ∨ (T.counting = false ∧ p[s.cursor.ip]? = some (.loopEnd ip)))

/-- The machine stands at the start of no instruction, or agrees with the interpreter there. -/
def Passing (s : Interpreter) (out : Array UInt8) (m : S) : Prop :=
  T.Quiet m ∨ ∃ ip < p.size, T.Visits p s out ip m

/-- The machine stands at the stub behind a move that the interpreter fails to make. -/
def AtFault (s : Interpreter) (out : Array UInt8) (m : S) : Prop :=
  ∃ delta e x, p[s.cursor.ip]? = some (.move delta) ∧ s.tape.offset s.cursor.ptr delta = .error e ∧
    m = T.place (T.dialect.faultAt p) x ∧
    T.Faulted (s.pass (.move delta)) out (UInt64.ofNat s.cursor.ptr + delta.toUInt64) x

/-- The machine goes on, in one step or more, to where a state of the interpreter is left to be
executed, and passes no other start of an instruction on its way. -/
def Advances (s : Interpreter) (out : Array UInt8) (m : S) (s' : Interpreter) (out' : Array UInt8) : Prop :=
  ∃ n m', 0 < n ∧ Trail T.step (T.Passing p s out) n m m' ∧ T.Boundary p s' out' m'

namespace Sound

open Dialect (start_le located_before start_succ_eq chunk_move)

variable {T p}

/-! ### Places in the code -/

theorem offset_start_mono (h : T.Sound p) {ip jp : Nat} (hij : ip ≤ jp) (hj : jp ≤ p.size) :
    T.offset (T.dialect.start p ip) ≤ T.offset (T.dialect.start p jp) :=
  h.loaded.offset_mono (Dialect.start_mono hij) (start_le p T.dialect hj)

theorem lt_size {ip : Nat} {i : Instruction} (h : p[ip]? = some i) : ip < p.size :=
  (Array.getElem?_eq_some_iff.1 h).1

/-- Strictly inside the code of an instruction the machine stands at the start of none. -/
theorem quiet_inside (h : T.Sound p) {ip j : Nat} (hip : ip < p.size)
    (hlo : T.offset (T.dialect.start p ip) < T.offset j)
    (hhi : T.offset j < T.offset (T.dialect.start p (ip + 1))) (x : D) : T.Quiet (T.place j x) := by
  refine h.quiet x fun jp hjp heq => ?_
  rcases Nat.lt_or_ge ip jp with hlt | hge
  · have := h.offset_start_mono (Nat.succ_le_of_lt hlt) (Nat.le_of_lt hjp)
    rw [Nat.succ_eq_add_one] at this
    omega
  · have := h.offset_start_mono hge (Nat.le_of_lt hip)
    omega

/-! ### Executing an instruction -/

section Step

variable {s : Interpreter} {out : Array UInt8} {i : Instruction} {x : D}

/-- Where the machine may be while the interpreter executes an instruction. -/
theorem passing_start (hi : p[s.cursor.ip]? = some i) (hx : T.Agrees s out x) :
    T.Passing p s out (T.place (T.dialect.start p s.cursor.ip) x) :=
  .inr ⟨_, lt_size hi, ⟨x, rfl, hx⟩, .inl rfl⟩

theorem passing_inside (h : T.Sound p) {ip : Nat} (hi : p[ip]? = some i) (j : Nat) (z : D)
    (hlo : T.offset (T.dialect.start p ip) < T.offset j)
    (hhi : T.offset j < T.offset (T.dialect.start p (ip + 1))) : T.Passing p s out (T.place j z) :=
  .inl (h.quiet_inside (lt_size hi) hlo hhi z)

/-- Straight code at the start of the instruction that the interpreter executes next is executed
without passing the start of another. -/
theorem trail_before (h : T.Sound p) (hi : p[s.cursor.ip]? = some i) (hx : T.Agrees s out x)
    {qs qs' : List (Piece ω β Label)} {os : List ω} (hc : T.dialect.chunk s.cursor.ip i = qs ++ qs')
    (hqs : Straight qs os) {y : D} (hy : T.sem.execAll os x = some y) :
    Trail T.step (T.Passing p s out) os.length (T.place (T.dialect.start p s.cursor.ip) x)
      (T.place (T.dialect.start p s.cursor.ip + qs.length) y) :=
  h.loaded.trail_before hi hc hqs hy (passing_start hi hx) (h.passing_inside hi)

/-- Behind such code, with a branch to come, the machine still passes no other start. -/
theorem passing_behind (h : T.Sound p) (hi : p[s.cursor.ip]? = some i) (hx : T.Agrees s out x)
    {qs qs' : List (Piece ω β Label)} {b : β} {l : Label} {os : List ω}
    (hc : T.dialect.chunk s.cursor.ip i = qs ++ .branch b l :: qs') (hqs : Straight qs os) {y : D}
    (hy : T.sem.execAll os x = some y) :
    T.Passing p s out (T.place (T.dialect.start p s.cursor.ip + qs.length) y) :=
  h.loaded.holds_before hi hc hqs hy (passing_start hi hx) (h.passing_inside hi)

/-- Counting, and then doing what the operations of an instruction do. -/
theorem exec_counted (h : T.Sound p) (hx : T.Agrees s out x) (i : Instruction) {os : List ω} {Q : D → Prop}
    (hos : ∀ y, T.Agrees (s.pass i) out y → ∃ z, T.sem.execAll os y = some z ∧ Q z) :
    ∃ z, T.sem.execAll (T.dialect.count i.kind ++ os) x = some z ∧ Q z := by
  obtain ⟨y, hy, hxy⟩ := h.realizes.count hx i
  obtain ⟨z, hz, hq⟩ := hos y hxy
  exact ⟨z, Semantics.execAll_append hy hz, hq⟩

/-- An instruction that is translated to operations alone. -/
theorem step_ops (h : T.Sound p) (hi : p[s.cursor.ip]? = some i) (hx : T.Agrees s out x) {os : List ω}
    (hos : os ≠ []) (ht : T.dialect.tail s.cursor.ip i = Dialect.ops os) {s' : Interpreter}
    {out' : Array UInt8} (hs : s'.halted = false) (hip : s'.cursor.ip = s.cursor.ip + 1)
    (hexec : ∀ y, T.Agrees (s.pass i) out y → ∃ z, T.sem.execAll os y = some z ∧ T.Agrees s' out' z) :
    T.Advances p s out (T.place (T.dialect.start p s.cursor.ip) x) s' out' := by
  obtain ⟨z, hz, hagrees⟩ := h.exec_counted hx i hexec
  have hqs : Straight (T.dialect.chunk s.cursor.ip i) (T.dialect.count i.kind ++ os) := by
    rw [Dialect.chunk, ht]
    exact .lead _ _ _ (.ops os)
  have htrail := h.trail_before hi hx (List.append_nil _).symm hqs hz
  refine ⟨_, _, ?_, htrail, hs, ?_, z, ?_, hagrees⟩
  · have := List.length_pos_iff.2 hos
    rw [List.length_append]
    omega
  · rw [hip]
    exact lt_size hi
  · rw [hip, Dialect.start_succ hi]

theorem step_move (h : T.Sound p) {delta : Int64} (hi : p[s.cursor.ip]? = some (.move delta))
    (hx : T.Agrees s out x) {ptr : Nat} (hm : s.tape.offset s.cursor.ptr delta = .ok ptr)
    (hs : s.halted = false) :
    T.Advances p s out (T.place (T.dialect.start p s.cursor.ip) x)
      ((s.pass (.move delta)).withPtr ptr) out := by
  obtain ⟨y₀, hy₀, hx₀⟩ := h.realizes.count hx (.move delta)
  obtain ⟨y, z, hy, houtside, hz, hagrees⟩ := h.realizes.move hx₀ hm
  have hexec := Semantics.execAll_append hy₀ hy
  have hchunk := chunk_move T.dialect s.cursor.ip delta
  have hlead := Straight.lead T.dialect s.cursor.ip .move (.ops (T.dialect.move delta))
  have hbranch := h.loaded.pass (located_before hi hchunk).2.1 houtside
  have htrail := (h.trail_before hi hx hchunk hlead hexec).snoc (h.passing_behind hi hx hchunk hlead hexec) hbranch
  have hrest : Trail T.step (T.Passing p s out) _ _ _ :=
    h.loaded.trail_behind hi hchunk hlead (.ops T.dialect.reload) hz (h.passing_inside hi)
  refine ⟨_, _, by omega, htrail.append hrest, hs, lt_size hi, z, rfl, hagrees⟩

theorem step_fault (h : T.Sound p) {delta : Int64} (hi : p[s.cursor.ip]? = some (.move delta))
    (hx : T.Agrees s out x) {e : Error} (hm : s.tape.offset s.cursor.ptr delta = .error e) :
    ∃ n m, 0 < n ∧
      Trail T.step (T.Passing p s out) n (T.place (T.dialect.start p s.cursor.ip) x) m ∧
      T.AtFault p s out m := by
  obtain ⟨y₀, hy₀, hx₀⟩ := h.realizes.count hx (.move delta)
  obtain ⟨y, hy, houtside, hfaulted⟩ := h.realizes.fault hx₀ hm
  have hexec := Semantics.execAll_append hy₀ hy
  have hchunk := chunk_move T.dialect s.cursor.ip delta
  have hlead := Straight.lead T.dialect s.cursor.ip .move (.ops (T.dialect.move delta))
  have hbranch := h.loaded.jump (located_before hi hchunk).2.1 Dialect.label_fault houtside
  have htrail := (h.trail_before hi hx hchunk hlead hexec).snoc (h.passing_behind hi hx hchunk hlead hexec) hbranch
  exact ⟨_, _, by omega, htrail, delta, e, y, hi, hm, rfl, hfaulted⟩

/-! ### Loops -/

theorem straight_check (d : Dialect ω β) (ip : Nat) :
    Straight (.label (.check ip) :: Dialect.ops d.test : List (Piece ω β Label)) d.test :=
  .label _ (.ops _)

theorem chunk_loopBegin (d : Dialect ω β) (ip close : Nat) :
    d.chunk ip (.loopBegin close) =
      d.lead ip .loopBegin (.label (.check ip) :: Dialect.ops d.test) ++ [.branch d.ifZero (.after ip)] :=
  d.lead_append ip .loopBegin (.label (.check ip) :: Dialect.ops d.test) _

theorem chunk_loopEnd (d : Dialect ω β) (ip start : Nat) :
    d.chunk ip (.loopEnd start) =
      d.lead ip .loopEnd [] ++ [.branch d.always (.check start), .label (.after start)] :=
  d.lead_append ip .loopEnd [] _

/-- Just past the end of a loop stands the next instruction. -/
theorem place_after (h : T.Sound p) {ip start : Nat} (hi : p[ip]? = some (.loopEnd start)) (y : D) :
    T.place (T.dialect.afterAt p ip) y = T.place (T.dialect.start p (ip + 1)) y := by
  rw [← h.loaded.label (Dialect.label_after hi) y, start_succ_eq hi (chunk_loopEnd T.dialect ip start)]
  congr 1
  simp only [Dialect.afterAt, Dialect.lead, List.length_cons, List.length_append, Dialect.length_ops,
    List.length_nil]
  omega

theorem step_loopBegin (h : T.Sound p) {close : Nat} (hi : p[s.cursor.ip]? = some (.loopBegin close))
    (hx : T.Agrees s out x) (hs : s.halted = false) :
    T.Advances p s out (T.place (T.dialect.start p s.cursor.ip) x)
      (if s.cell = 0 then (s.pass (.loopBegin close)).jumpPast close else s.pass (.loopBegin close)) out := by
  obtain ⟨y₀, hy₀, hx₀⟩ := h.realizes.count hx (.loopBegin close)
  obtain ⟨y, hy, hzero, hagrees⟩ := h.realizes.test hx₀
  have hexec := Semantics.execAll_append hy₀ hy
  have hchunk := chunk_loopBegin T.dialect s.cursor.ip close
  have hlead := Straight.lead T.dialect s.cursor.ip .loopBegin (straight_check T.dialect s.cursor.ip)
  have hloc := (located_before hi hchunk).2.1
  have htrail := h.trail_before hi hx hchunk hlead hexec
  have hpassing := h.passing_behind hi hx hchunk hlead hexec
  have hcell : (s.pass (.loopBegin close)).cell = s.cell := rfl
  rw [hcell] at hzero
  by_cases hz : s.cell = 0
  · rw [if_pos hz]
    have hclose := (h.linked.close_of_loopBegin hi).2
    have hbranch := h.loaded.jump hloc (Dialect.label_after hclose) (hzero.trans (by simp [hz]))
    rw [h.place_after hclose] at hbranch
    exact ⟨_, _, by omega, htrail.snoc hpassing hbranch, hs, lt_size hclose, y, rfl,
      h.realizes.congr hagrees rfl rfl rfl⟩
  · rw [if_neg hz]
    have hbranch := h.loaded.pass hloc (hzero.trans (by simp [hz]))
    refine ⟨_, _, by omega, htrail.snoc hpassing hbranch, hs, lt_size hi, y, ?_, hagrees⟩
    rw [show (s.pass (.loopBegin close)).cursor.ip = s.cursor.ip + 1 from rfl, start_succ_eq hi hchunk]
    rfl

/-- The pieces of an opening bracket in front of its test, and from there on. -/
theorem located_check {start close : Nat} (hi : p[start]? = some (.loopBegin close)) :
    Located (T.dialect.listing p) (T.dialect.start p start) (T.dialect.lead start .loopBegin []) ∧
      T.dialect.start p start + (T.dialect.lead start .loopBegin []).length = T.dialect.checkAt p start ∧
      Located (T.dialect.listing p) (T.dialect.checkAt p start)
        (.label (.check start) :: Dialect.ops T.dialect.test) ∧
      (T.dialect.listing p)[T.dialect.checkAt p start + (T.dialect.test.length + 1)]? =
        some (.branch T.dialect.ifZero (.after start)) ∧
      T.dialect.start p (start + 1) = T.dialect.checkAt p start + (T.dialect.test.length + 1) + 1 := by
  have hchunk : T.dialect.chunk start (.loopBegin close) = T.dialect.lead start .loopBegin [] ++
      ((.label (.check start) :: Dialect.ops T.dialect.test) ++ [.branch T.dialect.ifZero (.after start)]) :=
    T.dialect.lead_append start .loopBegin [] _
  have hcheck : T.dialect.start p start + (T.dialect.lead start .loopBegin []).length =
      T.dialect.checkAt p start := by
    simp only [Dialect.lead, Dialect.checkAt, List.append_nil, List.length_cons, Dialect.length_ops]
    omega
  obtain ⟨hpre, hpost⟩ := located_before hi hchunk
  rw [hcheck] at hpost
  obtain ⟨htest, hbranch⟩ := Located.append_iff.1 hpost
  rw [List.length_cons, Dialect.length_ops] at hbranch
  refine ⟨hpre, hcheck, htest, hbranch.1, ?_⟩
  rw [start_succ_eq hi hchunk, hcheck]
  simp
  omega

theorem offset_check_le (h : T.Sound p) {start close : Nat} (hi : p[start]? = some (.loopBegin close)) :
    T.offset (T.dialect.start p start) ≤ T.offset (T.dialect.checkAt p start) := by
  obtain ⟨hpre, hcheck, _⟩ := located_check (T := T) hi
  have := h.loaded.offset_straight_le (.lead _ _ _ .nil) hpre
  rwa [hcheck] at this

theorem offset_check_lt (h : T.Sound p) {start close : Nat} (hi : p[start]? = some (.loopBegin close)) :
    T.offset (T.dialect.checkAt p start) < T.offset (T.dialect.start p (start + 1)) := by
  obtain ⟨_, _, htest, hbranch, hend⟩ := located_check (T := T) hi
  have hle := h.loaded.offset_straight_le (straight_check _ _) htest
  have hlt := h.loaded.offset_branch hbranch
  rw [List.length_cons, Dialect.length_ops] at hle
  rw [hend]
  omega

/-- The test of a loop, from the closing bracket. -/
theorem trail_check (h : T.Sound p) {start close : Nat} (hi : p[start]? = some (.loopBegin close))
    (hP : T.Passing p s out (T.place (T.dialect.checkAt p start) x)) {y : D}
    (hy : T.sem.execAll T.dialect.test x = some y) :
    ∃ k, (T.dialect.listing p)[k]? = some (.branch T.dialect.ifZero (.after start)) ∧
      T.dialect.start p (start + 1) = k + 1 ∧
      Trail T.step (T.Passing p s out) T.dialect.test.length (T.place (T.dialect.checkAt p start) x)
        (T.place k y) ∧ T.Passing p s out (T.place k y) := by
  obtain ⟨_, _, htest, hbranch, hend⟩ := located_check (T := T) hi
  have hle := h.offset_check_le hi
  have hlt := h.loaded.offset_branch hbranch
  have hin (j : Nat) (z : D) (hlo : T.offset (T.dialect.checkAt p start) < T.offset j)
      (hhi : T.offset j < T.offset (T.dialect.start p (start + 1))) : T.Passing p s out (T.place j z) :=
    .inl (h.quiet_inside (lt_size hi) (by omega) hhi z)
  rw [hend] at hin
  have hlen : (Piece.label (.check start) :: Dialect.ops T.dialect.test : List (Piece ω β Label)).length =
      T.dialect.test.length + 1 := by simp
  rw [← hlen] at hlt hin hbranch hend
  refine ⟨_, hbranch, hend, ?_, ?_⟩
  · exact h.loaded.trail_straight (straight_check _ _) htest hy (fun _ => hP) hin (Nat.le_of_lt hlt)
  · exact h.loaded.holds_behind (straight_check _ _) htest hy hP hin hlt

/-- A closing bracket goes back to the test of its loop. Where nothing is counted, that is the start
of the opening bracket. -/
theorem passing_check (h : T.Sound p) {start : Nat} (hi : p[s.cursor.ip]? = some (.loopEnd start))
    (hx : T.Agrees s out x) {y : D} (hy : T.sem.execAll (T.dialect.count .loopEnd) x = some y) :
    T.Passing p s out (T.place (T.dialect.checkAt p start) y) := by
  have hopen := (h.linked.open_of_loopEnd hi).2
  by_cases hc : T.counting = true
  · have hne : T.dialect.count .loopBegin ++ [] ≠ [] := by
      rw [List.append_nil]
      exact h.realizes.count_ne_nil hc .loopBegin
    obtain ⟨hpre, hcheck, _⟩ := located_check (T := T) hopen
    have hlt := h.loaded.offset_straight_lt (.lead _ _ _ .nil) hne hpre
    rw [hcheck] at hlt
    exact .inl (h.quiet_inside (lt_size hopen) hlt (h.offset_check_lt hopen) y)
  · have hc : T.counting = false := by simpa using hc
    have hnil := h.realizes.count_nil hc
    rw [hnil] at hy
    cases hy
    have hplace : T.place (T.dialect.checkAt p start) x = T.place (T.dialect.start p start) x := by
      rw [Dialect.checkAt, hnil]
      exact h.loaded.label (Dialect.label_instruction hopen) x
    exact .inr ⟨start, lt_size hopen, ⟨x, hplace, hx⟩, .inr ⟨hc, hi⟩⟩

theorem step_loopEnd (h : T.Sound p) {start : Nat} (hi : p[s.cursor.ip]? = some (.loopEnd start))
    (hx : T.Agrees s out x) (hs : s.halted = false) :
    T.Advances p s out (T.place (T.dialect.start p s.cursor.ip) x)
      (if s.cell = 0 then s.pass (.loopEnd start) else (s.pass (.loopEnd start)).jumpPast start) out := by
  obtain ⟨y, hy, hxy⟩ := h.realizes.count hx (.loopEnd start)
  obtain ⟨z, hz, hzero, hagrees⟩ := h.realizes.test hxy
  have hopen := (h.linked.open_of_loopEnd hi).2
  have hchunk := chunk_loopEnd T.dialect s.cursor.ip start
  have hlead : Straight (T.dialect.lead s.cursor.ip .loopEnd []) (T.dialect.count .loopEnd ++ []) :=
    .lead _ _ _ .nil
  rw [List.append_nil] at hlead
  have hback := h.loaded.jump (located_before hi hchunk).2.1 (Dialect.label_check hopen) (h.realizes.always y)
  have htrail := (h.trail_before hi hx hchunk hlead hy).snoc (h.passing_behind hi hx hchunk hlead hy) hback
  obtain ⟨k, hbranch, hend, hcheck, hpassing⟩ := h.trail_check hopen (h.passing_check hi hx hy) hz
  have hcell : (s.pass (.loopEnd start)).cell = s.cell := rfl
  rw [hcell] at hzero
  by_cases hc : s.cell = 0
  · rw [if_pos hc]
    have hleave := h.loaded.jump hbranch (Dialect.label_after hi) (hzero.trans (by simp [hc]))
    rw [h.place_after hi] at hleave
    exact ⟨_, _, by omega, (htrail.append hcheck).snoc hpassing hleave, hs, lt_size hi, z, rfl, hagrees⟩
  · rw [if_neg hc]
    have hstay := h.loaded.pass hbranch (hzero.trans (by simp [hc]))
    rw [← hend] at hstay
    exact ⟨_, _, by omega, (htrail.append hcheck).snoc hpassing hstay, hs, lt_size hopen, z, rfl,
      h.realizes.congr hagrees rfl rfl rfl⟩

/-- From the start of an instruction the machine goes to the start of the instruction that the
interpreter executes next, or to the stub if the interpreter's move fails. -/
theorem step (h : T.Sound p) {m : S} (hb : T.Boundary p s out m) (hip : s.cursor.ip < p.size) :
    (∃ s' out', s.step p Sink.buffer out = (.running, s', out') ∧ T.Advances p s out m s' out') ∨
    ∃ delta e n m', s.step p Sink.buffer out = (.failed e, s.pass (.move delta), out) ∧ 0 < n ∧
      Trail T.step (T.Passing p s out) n m m' ∧ T.AtFault p s out m' := by
  obtain ⟨hs, _, x, rfl, hx⟩ := hb
  have hget : p[s.cursor.ip]? = some p[s.cursor.ip] := Array.getElem?_eq_getElem hip
  generalize p[s.cursor.ip] = i at hget
  have hat : s.At p i := ⟨hs, hget, h.realizes.ptr_lt hx⟩
  cases i with
  | add delta =>
    refine .inl ⟨_, _, Interpreter.step_add hat Sink.buffer out, ?_⟩
    exact h.step_ops hget hx (h.realizes.add_ne_nil delta) rfl hs rfl fun y hy => h.realizes.add hy delta
  | set value =>
    refine .inl ⟨_, _, Interpreter.step_set hat Sink.buffer out, ?_⟩
    exact h.step_ops hget hx (h.realizes.set_ne_nil value) rfl hs rfl fun y hy => h.realizes.set hy value
  | output =>
    refine .inl ⟨_, _, Interpreter.step_output hat Sink.buffer_faultless out, ?_⟩
    exact h.step_ops hget hx h.realizes.output_ne_nil rfl hs rfl fun y hy => h.realizes.output hy
  | move delta =>
    cases hm : s.tape.offset s.cursor.ptr delta with
    | ok ptr => exact .inl ⟨_, _, Interpreter.step_move_ok hat hm Sink.buffer out, h.step_move hget hx hm hs⟩
    | error e =>
      obtain ⟨n, m', hrun⟩ := h.step_fault hget hx hm
      exact .inr ⟨delta, e, n, m', Interpreter.step_move_error hat hm Sink.buffer out, hrun⟩
  | loopBegin close =>
    exact .inl ⟨_, _, Interpreter.step_loopBegin hat Sink.buffer out, h.step_loopBegin hget hx hs⟩
  | loopEnd start =>
    exact .inl ⟨_, _, Interpreter.step_loopEnd hat Sink.buffer out, h.step_loopEnd hget hx hs⟩
  | input => exact absurd rfl (h.compilable _ _ hget).1
  | halt => exact absurd rfl (h.compilable _ _ hget).2

end Step

end Sound

end Backend

end TapeLang
