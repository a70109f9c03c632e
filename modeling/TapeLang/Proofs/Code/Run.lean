import TapeLang.Proofs.Code.Simulation
import TapeLang.Proofs.Overruns

/-!
# Whole runs of translated programs

Step by step the machine follows the interpreter, so it reaches every state that the interpreter does
(`Backend.Sound.reaches`), it never stands at the start of an instruction without agreeing with the
interpreter there (`Backend.Sound.passing`), and it comes to an end only where the interpreter does: it
exits at the end of the program, and reports a move that leaves the tape
(`Backend.Sound.exited_or_reported`).
-/

namespace TapeLang

variable {ω β D S : Type} {T : Backend ω β D S} {p : Program}

namespace Backend

namespace Sound

open Dialect (start_le chunk_move)

/-! ### Outside of all instructions -/

/-- Every instruction has code. -/
theorem offset_start_lt (h : T.Sound p) {ip : Nat} (hip : ip < p.size) :
    T.offset (T.dialect.start p ip) < T.offset (T.dialect.start p (ip + 1)) := by
  have hi : p[ip]? = some p[ip] := Array.getElem?_eq_getElem hip
  generalize p[ip] = i at hi
  have hops {os : List ω} (hos : os ≠ []) (ht : T.dialect.tail ip i = Dialect.ops os) :
      T.offset (T.dialect.start p ip) < T.offset (T.dialect.start p (ip + 1)) := by
    have hqs : Straight (T.dialect.chunk ip i) (T.dialect.count i.kind ++ os) := by
      rw [Dialect.chunk, ht]
      exact .lead _ _ _ (.ops os)
    rw [Dialect.start_succ hi]
    exact h.loaded.offset_straight_lt hqs (by simp [hos]) (Dialect.located_chunk hi)
  have hbranch {qs qs' : List (Piece ω β Label)} {b : β} {l : Label}
      (hc : T.dialect.chunk ip i = qs ++ .branch b l :: qs') :
      T.offset (T.dialect.start p ip) < T.offset (T.dialect.start p (ip + 1)) :=
    h.loaded.offset_start_lt_of_branch hi hc
  cases i with
  | add delta => exact hops (h.realizes.add_ne_nil delta) rfl
  | set value => exact hops (h.realizes.set_ne_nil value) rfl
  | output => exact hops h.realizes.output_ne_nil rfl
  | move delta => exact hbranch (chunk_move T.dialect ip delta)
  | loopBegin close => exact hbranch (chunk_loopBegin T.dialect ip close)
  | loopEnd start => exact hbranch (chunk_loopEnd T.dialect ip start)
  | input => exact absurd rfl (h.compilable _ _ hi).1
  | halt => exact absurd rfl (h.compilable _ _ hi).2

theorem quiet_closing (h : T.Sound p) {j : Nat} (hj : T.dialect.start p p.size ≤ j)
    (hlen : j ≤ (T.dialect.listing p).length) (x : D) : T.Quiet (T.place j x) := by
  refine h.quiet x fun ip hip heq => ?_
  have hlt := h.offset_start_lt hip
  have hle := h.offset_start_mono (show ip + 1 ≤ p.size from hip) (Nat.le_refl _)
  have hmono := h.loaded.offset_mono hj hlen
  omega

theorem quiet_entry (h : T.Sound p) {j : Nat} (hj : j < T.dialect.entry.length) (x : D) :
    T.Quiet (T.place j x) := by
  refine h.quiet x fun ip hip heq => ?_
  have hop : (T.dialect.listing p)[j]? = some (.op T.dialect.entry[j]) := by
    have hget : (Dialect.ops T.dialect.entry : List (Piece ω β Label))[j]? = some (.op T.dialect.entry[j]) := by
      rw [Dialect.ops, List.getElem?_map, List.getElem?_eq_getElem hj]
      rfl
    have := (Dialect.located_entry (d := T.dialect) (p := p)).get hget
    rwa [Nat.zero_add] at this
  have hlt := h.loaded.offset_op hop
  have hmono := h.loaded.offset_mono (show j + 1 ≤ T.dialect.start p ip by rw [Dialect.start]; omega)
    (start_le p T.dialect (Nat.le_of_lt hip))
  omega

/-- Operations where the machine is quiet. -/
theorem trail_ops (h : T.Sound p) {os : List ω} {k : Nat} (hloc : Located (T.dialect.listing p) k (Dialect.ops os))
    {x y : D} (hx : T.sem.execAll os x = some y)
    (hq : ∀ (j : Nat) (z : D), k ≤ j → j < k + os.length → T.Quiet (T.place j z)) :
    Trail T.step T.Quiet os.length (T.place k x) (T.place (k + os.length) y) := by
  induction os generalizing k x with
  | nil =>
    cases hx
    exact .nil _
  | cons o os ih =>
    rw [Semantics.execAll] at hx
    obtain ⟨x', ho, hx⟩ := Option.bind_eq_some_iff.1 hx
    rw [add_length_cons] at hq ⊢
    refine .cons (hq k x (Nat.le_refl k) (by omega)) (h.loaded.op hloc.1 ho) (ih hloc.2 hx ?_)
    intro j z hlo hhi
    exact hq j z (by omega) hhi

/-! ### Operations that end elsewhere -/

section Last

variable {os : List ω} {o : ω} {x y : D} {P : S → Prop}

theorem exists_trail_last (h : T.Sound p) {k : Nat}
    (hloc : Located (T.dialect.listing p) k (Dialect.ops (os ++ [o]))) (hy : T.sem.execAll os x = some y)
    (hq : ∀ (j : Nat) (z : D), k ≤ j → j ≤ k + os.length → T.Quiet (T.place j z))
    (hlast : ∀ j : Nat, (T.dialect.listing p)[j]? = some (.op o) → ∃ t, T.step (T.place j y) = some t ∧ P t) :
    ∃ n t, Trail T.step T.Quiet n (T.place k x) t ∧ P t := by
  rw [Dialect.ops, List.map_append, Located.append_iff, List.length_map] at hloc
  have htrail := h.trail_ops hloc.1 hy fun j z hlo hhi => hq j z hlo (Nat.le_of_lt hhi)
  obtain ⟨t, ht, hP⟩ := hlast _ hloc.2.1
  exact ⟨_, t, htrail.snoc (hq _ y (by omega) (Nat.le_refl _)) ht, hP⟩

/-- The entry, and what its last operation does. -/
theorem exists_entry (h : T.Sound p) (hentry : T.dialect.entry = os ++ [o]) (hy : T.sem.execAll os x = some y)
    (hlast : ∀ j : Nat, (T.dialect.listing p)[j]? = some (.op o) → ∃ t, T.step (T.place j y) = some t ∧ P t) :
    ∃ n t, Trail T.step T.Quiet n (T.place 0 x) t ∧ P t := by
  have hloc := T.dialect.located_entry (p := p)
  rw [hentry] at hloc
  refine h.exists_trail_last hloc hy ?_ hlast
  intro j z _ hj
  apply h.quiet_entry
  rw [hentry, List.length_append, List.length_singleton]
  omega

/-- The exit, and what its last operation does. -/
theorem exists_exit (h : T.Sound p) (hexit : T.dialect.exit = os ++ [o]) (hy : T.sem.execAll os x = some y)
    (hlast : ∀ j : Nat, (T.dialect.listing p)[j]? = some (.op o) → ∃ t, T.step (T.place j y) = some t ∧ P t) :
    ∃ n t, Trail T.step T.Quiet n (T.place (T.dialect.start p p.size) x) t ∧ P t := by
  have hloc := T.dialect.located_closing (p := p)
  have hlen := T.dialect.length_listing (p := p)
  rw [Dialect.closing, hexit, Located.append_iff] at hloc
  rw [Dialect.closing, hexit, List.length_append, Dialect.length_ops, List.length_append, List.length_singleton] at hlen
  refine h.exists_trail_last hloc.1 hy ?_ hlast
  intro j z hlo hhi
  exact h.quiet_closing hlo (by omega) z

/-- The stub, and what its last operation does. -/
theorem exists_fault (h : T.Sound p) (hfault : T.dialect.fault = os ++ [o]) (hy : T.sem.execAll os x = some y)
    (hlast : ∀ j : Nat, (T.dialect.listing p)[j]? = some (.op o) → ∃ t, T.step (T.place j y) = some t ∧ P t) :
    ∃ n t, Trail T.step T.Quiet n (T.place (T.dialect.faultAt p) x) t ∧ P t := by
  have hloc := T.dialect.located_closing (p := p)
  have hlen := T.dialect.length_listing (p := p)
  rw [Dialect.closing, hfault, Located.append_iff, Dialect.length_ops] at hloc
  rw [Dialect.closing, hfault, List.length_append, List.length_cons, Dialect.length_ops, Dialect.length_ops,
    List.length_append, List.length_singleton] at hlen
  rw [← h.loaded.label Dialect.label_fault x, Dialect.faultAt]
  refine h.exists_trail_last hloc.2.2 hy ?_ hlast
  intro j z hlo hhi
  exact h.quiet_closing (by omega) (by omega) z

end Last

end Sound

/-- From the exit and from the stub the machine comes to an end, and passes the start of no
instruction on its way. -/
structure Closes (T : Backend ω β D S) (p : Program) (Exited : Interpreter → Array UInt8 → S → Prop)
    (Reported : Interpreter → Array UInt8 → UInt64 → S → Prop) : Prop where
  exit {s : Interpreter} {out : Array UInt8} {x : D} (h : T.Agrees s out x) :
    ∃ n t, Trail T.step T.Quiet n (T.place (T.dialect.start p p.size) x) t ∧ T.Quiet t ∧ T.step t = none ∧
      Exited s out t
  fault {s : Interpreter} {out : Array UInt8} {index : UInt64} {x : D} (h : T.Faulted s out index x) :
    ∃ n t, Trail T.step T.Quiet n (T.place (T.dialect.faultAt p) x) t ∧ T.Quiet t ∧ T.step t = none ∧
      Reported s out index t

theorem Closes.mono {T : Backend ω β D S} {p : Program} {Exited Exited' : Interpreter → Array UInt8 → S → Prop}
    {Reported Reported' : Interpreter → Array UInt8 → UInt64 → S → Prop} (h : T.Closes p Exited Reported)
    (hexited : ∀ {s out t}, Exited s out t → Exited' s out t)
    (hreported : ∀ {s out index t}, Reported s out index t → Reported' s out index t) :
    T.Closes p Exited' Reported' where
  exit hx := by
    obtain ⟨n, t, htrail, hquiet, hlast, hend⟩ := h.exit hx
    exact ⟨n, t, htrail, hquiet, hlast, hexited hend⟩
  fault hx := by
    obtain ⟨n, t, htrail, hquiet, hlast, hend⟩ := h.fault hx
    exact ⟨n, t, htrail, hquiet, hlast, hreported hend⟩

namespace Sound

variable {s s' : Interpreter} {out out' : Array UInt8} {m : S} {Exited : Interpreter → Array UInt8 → S → Prop}
  {Reported : Interpreter → Array UInt8 → UInt64 → S → Prop}

/-- The machine reaches every state that the interpreter reaches, in at least as many steps. -/
theorem reaches (h : T.Sound p) (hb : T.Boundary p s out m) {k : Nat}
    (hk : advance (Interpreter.next p Sink.buffer) k (s, out) = some (s', out')) :
    ∃ n m', k ≤ n ∧ advance T.step n m = some m' ∧ T.Boundary p s' out' m' := by
  induction k generalizing s out m with
  | zero =>
    cases hk
    exact ⟨0, m, Nat.le_refl _, rfl, hb⟩
  | succ k ih =>
    have hip : s.cursor.ip < p.size := by
      refine Nat.lt_of_not_le fun hle => ?_
      rw [advance_succ_of_none (Interpreter.next_of_size_le hb.1 hle)] at hk
      cases hk
    rcases h.step hb hip with ⟨s₁, out₁, hstep, n, m₁, hn, htrail, hb₁⟩ | ⟨delta, e, _, _, hstep, _⟩
    · rw [advance_succ (Interpreter.next_of_step hstep)] at hk
      obtain ⟨n', m', hle, hrun, hb'⟩ := ih hb₁ hk
      exact ⟨n + n', m', by omega, advance_trans htrail.advance hrun, hb'⟩
    · rw [advance_succ_of_none (Interpreter.next_of_failed hstep)] at hk
      cases hk

/-- A closing trail is quiet all along. -/
theorem quiet_of_closing {n k : Nat} {t u : S} (htrail : Trail T.step T.Quiet n m t) (ht : T.Quiet t)
    (hlast : T.step t = none) (hu : advance T.step k m = some u) : T.Quiet u := by
  rcases Nat.lt_or_ge k n with hlt | hge
  · exact htrail.holds hlt hu
  · have hle := le_of_advance_of_none htrail.advance hlast hu
    obtain rfl : k = n := by omega
    rw [htrail.advance] at hu
    cases hu
    exact ht

/-- Whenever the machine stands at the start of an instruction, it agrees there with a state that the
interpreter reaches. -/
theorem passing (h : T.Sound p) (hc : T.Closes p Exited Reported) (hb : T.Boundary p s out m) {n : Nat} {u : S}
    (hu : advance T.step n m = some u) :
    ∃ k s' out', advance (Interpreter.next p Sink.buffer) k (s, out) = some (s', out') ∧
      T.Passing p s' out' u := by
  induction n using Nat.strongRecOn generalizing s out m with
  | ind n ih =>
    rcases Nat.lt_or_ge s.cursor.ip p.size with hip | hip
    · rcases h.step hb hip with ⟨s₁, out₁, hstep, n₁, m₁, hn₁, htrail, hb₁⟩ | ⟨_, _, n₁, m₁, hstep, hn₁, htrail, hf⟩
      · rcases Nat.lt_or_ge n n₁ with hlt | hge
        · exact ⟨0, s, out, rfl, htrail.holds hlt hu⟩
        · rw [advance_of_advance htrail.advance hge] at hu
          obtain ⟨k, s', out', hk, hpass⟩ := ih (n - n₁) (by omega) hb₁ hu
          exact ⟨k + 1, s', out', by rw [advance_succ (Interpreter.next_of_step hstep), hk], hpass⟩
      · rcases Nat.lt_or_ge n n₁ with hlt | hge
        · exact ⟨0, s, out, rfl, htrail.holds hlt hu⟩
        · rw [advance_of_advance htrail.advance hge] at hu
          obtain ⟨_, _, _, _, _, rfl, hx⟩ := hf
          obtain ⟨_, t, hclose, ht, hlast, _⟩ := hc.fault hx
          exact ⟨0, s, out, rfl, .inl (quiet_of_closing hclose ht hlast hu)⟩
    · obtain ⟨_, hle, x, rfl, hx⟩ := hb
      obtain ⟨_, t, hclose, ht, hlast, _⟩ := hc.exit hx
      rw [Nat.le_antisymm hle hip] at hu
      exact ⟨0, s, out, rfl, .inl (quiet_of_closing hclose ht hlast hu)⟩

theorem ptr_lt (h : T.Sound p) (hb : T.Boundary p s out m) : s.cursor.ptr < s.tape.capacity := by
  obtain ⟨_, _, x, _, hx⟩ := hb
  exact h.realizes.ptr_lt hx

/-- The interpreter comes to an end at the end of the program, or at a move that leaves the tape. -/
theorem completes_or_overruns (h : T.Sound p) (hb : T.Boundary p s out m) {k : Nat}
    (hk : advance (Interpreter.next p Sink.buffer) k (s, out) = some (s', out'))
    (hnext : Interpreter.next p Sink.buffer (s', out') = none) :
    s.Completes p Sink.buffer out s' out' ∨ ∃ delta, s.Overruns p Sink.buffer out delta s' out' := by
  obtain ⟨_, m', _, _, hb'⟩ := h.reaches hb hk
  rcases Nat.lt_or_ge s'.cursor.ip p.size with hip | hip
  · rcases h.step hb' hip with ⟨s₁, out₁, hstep, _⟩ | ⟨_, _, _, _, _, _, _, delta, e, x, hmove, herror, _⟩
    · rw [Interpreter.next_of_step hstep] at hnext
      cases hnext
    · exact .inr ⟨delta, ⟨k, hk⟩, hmove, Tape.leaves_of_offset_error (h.ptr_lt hb') herror⟩
  · exact .inl ⟨⟨k, hk⟩, Nat.le_antisymm hb'.2.1 hip⟩

/-- Where the machine comes to an end, so does the interpreter. -/
theorem exists_end (h : T.Sound p) (hb : T.Boundary p s out m) {n : Nat} {t : S}
    (ht : advance T.step n m = some t) (hlast : T.step t = none) :
    (∃ s' out', s.Completes p Sink.buffer out s' out') ∨
      ∃ delta s' out', s.Overruns p Sink.buffer out delta s' out' := by
  cases hk : advance (Interpreter.next p Sink.buffer) (n + 1) (s, out) with
  | some r =>
    obtain ⟨s', out'⟩ := r
    obtain ⟨n', m', hle, hrun, _⟩ := h.reaches hb hk
    have := le_of_advance_of_none ht hlast hrun
    omega
  | none =>
    obtain ⟨k, ⟨s', out'⟩, _, hk, hnext⟩ := exists_last_of_advance_none hk
    rcases h.completes_or_overruns hb hk hnext with hcompletes | ⟨delta, hoverruns⟩
    · exact .inl ⟨s', out', hcompletes⟩
    · exact .inr ⟨delta, s', out', hoverruns⟩

section Ends

variable {m₀ : S} {n₀ : Nat}

/-- Where the interpreter completes its run, the machine exits. -/
theorem exists_exited (h : T.Sound p) (hc : T.Closes p Exited Reported) (henter : advance T.step n₀ m₀ = some m)
    (hb : T.Boundary p s out m) (hs : s.Completes p Sink.buffer out s' out') :
    ∃ n t, advance T.step n m₀ = some t ∧ T.step t = none ∧ Exited s' out' t := by
  obtain ⟨⟨k, hk⟩, hend⟩ := hs
  obtain ⟨n, _, _, hrun, _, _, x, rfl, hx⟩ := h.reaches hb hk
  rw [hend] at hrun
  obtain ⟨n', t, htrail, _, hlast, hexit⟩ := hc.exit hx
  exact ⟨n₀ + (n + n'), t, advance_trans henter (advance_trans hrun htrail.advance), hlast, hexit⟩

/-- Where the interpreter comes to a move that leaves the tape, the machine reports the index that the
move leads to, as a word. -/
theorem exists_reported (h : T.Sound p) (hc : T.Closes p Exited Reported) (henter : advance T.step n₀ m₀ = some m)
    (hb : T.Boundary p s out m) {delta : Int64} (hs : s.Overruns p Sink.buffer out delta s' out') :
    ∃ n t, advance T.step n m₀ = some t ∧ T.step t = none ∧
      Reported (s'.pass (.move delta)) out' (UInt64.ofNat s'.cursor.ptr + delta.toUInt64) t := by
  obtain ⟨⟨k, hk⟩, hmove, hleaves⟩ := hs
  obtain ⟨n, m', _, hrun, hb'⟩ := h.reaches hb hk
  have hip : s'.cursor.ip < p.size := (Array.getElem?_eq_some_iff.1 hmove).1
  have hat : s'.At p (.move delta) := ⟨hb'.1, hmove, h.ptr_lt hb'⟩
  rcases h.step hb' hip with ⟨_, _, hstep, _⟩ | ⟨_, _, n₁, _, _, _, htrail, _, _, x, hmove', _, rfl, hx⟩
  · rw [Interpreter.step_move_error hat (Tape.offset_of_leaves hat.ptr_lt hleaves)] at hstep
    cases hstep
  · rw [hmove] at hmove'
    cases hmove'
    obtain ⟨n₂, t, hclose, _, hlast, hreport⟩ := hc.fault hx
    have hfault := advance_trans htrail.advance hclose.advance
    exact ⟨n₀ + (n + (n₁ + n₂)), t, advance_trans henter (advance_trans hrun hfault), hlast, hreport⟩

/-- A machine that comes to an end has exited where the interpreter completes its run, or has reported
the move that leaves the tape. -/
theorem exited_or_reported (h : T.Sound p) (hc : T.Closes p Exited Reported)
    (henter : advance T.step n₀ m₀ = some m) (hb : T.Boundary p s out m) {n : Nat} {t : S}
    (ht : advance T.step n m₀ = some t) (hlast : T.step t = none) :
    (∃ s' out', s.Completes p Sink.buffer out s' out' ∧ Exited s' out' t) ∨
      ∃ delta s' out', s.Overruns p Sink.buffer out delta s' out' ∧
        Reported (s'.pass (.move delta)) out' (UInt64.ofNat s'.cursor.ptr + delta.toUInt64) t := by
  have hn₀ : n₀ ≤ n := le_of_advance_of_none ht hlast henter
  have hrun := ht
  rw [advance_of_advance henter hn₀] at hrun
  rcases h.exists_end hb hrun hlast with ⟨s', out', hs⟩ | ⟨delta, s', out', hs⟩
  · obtain ⟨_, u, hu, hnone, hexit⟩ := h.exists_exited hc henter hb hs
    obtain rfl := eq_of_advance_of_none ht hlast hu hnone
    exact .inl ⟨s', out', hs, hexit⟩
  · obtain ⟨_, u, hu, hnone, hreport⟩ := h.exists_reported hc henter hb hs
    obtain rfl := eq_of_advance_of_none ht hlast hu hnone
    exact .inr ⟨delta, s', out', hs, hreport⟩

end Ends

end Sound

end Backend

end TapeLang
