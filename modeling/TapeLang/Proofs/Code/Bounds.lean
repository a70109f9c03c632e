import TapeLang.Proofs.Code.Host
import TapeLang.Proofs.Code.Moves
import TapeLang.Proofs.Code.Simulation
import TapeLang.Proofs.Overruns

/-!
# The bounds check of a move

A move adds a word to the index of a machine and leaves the code of its instruction by one of two ways: to the next
instruction, or to the stub. `View.Checks` says that it does so as the tape decides, of any machine that stands at
the start of the instruction with an index of the tape, whether or not a run ever comes there. One proof for both
instruction sets (`Loaded.checks`): what a backend has to give is what its operations do to the data (`Guarded`).
-/

namespace TapeLang

variable {ω β S σ : Type}

/-- What is to be seen of a machine. -/
structure View (S σ : Type) where
  /-- Control stands at an offset of the code. -/
  stands : Nat → S → Prop
  tape : S → Tape
  index : S → UInt64
  host : S → HostState σ

namespace View

variable (v : View S σ) (step : S → Option S)

/-- Control stands in the code from `lo` up to `hi`. -/
def Within (lo hi : Nat) (m : S) : Prop := ∃ offset, lo ≤ offset ∧ offset < hi ∧ v.stands offset m

/-- From `m` the machine comes to `y`, and `y` is the first state outside of the code from `lo` up to `hi`. -/
def Leaves (lo hi : Nat) (m y : S) : Prop := (∃ n, Trail step (v.Within lo hi) n m y) ∧ ¬ v.Within lo hi y

/-- The code from `lo` up to `hi` moves an index by `delta` as the tape does, with the stub for the moves that the
tape refuses. -/
structure Checks (t : Tape) (index : Nat) (delta : Int64) (lo hi stub : Nat) (m : S) : Prop where
  /-- It goes to the stub exactly if the tape refuses the move. -/
  faults_iff : (∃ y, v.Leaves step lo hi m y ∧ v.stands stub y) ↔ ∃ e, t.offset index delta = .error e
  /-- Otherwise it goes to the next instruction, with the index that the tape gives. -/
  moves {j : Nat} (h : t.offset index delta = .ok j) :
    ∃ y, v.Leaves step lo hi m y ∧ v.stands hi y ∧ v.index y = UInt64.ofNat j ∧ v.host y = v.host m
  /-- From the stub the host is told the index, which read as a signed word is that of the tape's error unless the
  sum is too large for one. -/
  reports {y : S} (h : v.Leaves step lo hi m y) (hy : v.stands stub y) :
    (∃ n z, advance step n y = some z ∧ v.host z = (v.host m).record (.outOfBounds (v.index y))) ∧
      v.index y = UInt64.ofNat index + delta.toUInt64 ∧
      ((index : Int) + delta.toInt ≤ 2 ^ 63 - 1 →
        t.offset index delta = .error (.outOfBounds (v.index y).toInt64.toInt t.capacity))

/-- The moves of a routine check as the tape does, whenever control is at one with what it reads. -/
def ChecksMoves (Ready : Nat → S → Prop) (p : Program) (r : Routine) : Prop :=
  ∃ stub ≤ r.code.size, ∀ {ip : Nat} {delta : Int64}, p[ip]? = some (.move delta) →
    ∃ offset next, r.offsets[ip]? = some offset ∧ (ip + 1 < p.size → r.offsets[ip + 1]? = some next) ∧
      offset < next ∧ next < stub ∧ ∀ {index : Nat} {m : S}, v.stands offset m → Ready index m →
        v.Checks step (v.tape m) index delta offset next stub m

/-- Being in front of a piece shows in a machine, and nothing else changes. -/
structure Fits (place : Nat → S → S) (offset : Nat → Nat) : Prop where
  stands_place (k : Nat) (m : S) : v.stands (offset k) (place k m)
  place_of_stands {k : Nat} {m : S} (h : v.stands (offset k) m) : place k m = m
  eq_of_stands {n j k : Nat} {m : S} (hn : n ≤ offset j) (h : v.stands n m) (hk : v.stands (offset k) m) :
    n = offset k
  index_place (k : Nat) (m : S) : v.index (place k m) = v.index m
  host_place (k : Nat) (m : S) : v.host (place k m) = v.host m

variable {v step} {lo hi : Nat} {m y y' : S}

theorem Leaves.eq (h : v.Leaves step lo hi m y) (h' : v.Leaves step lo hi m y') : y = y' := by
  obtain ⟨⟨n, htrail⟩, hout⟩ := h
  obtain ⟨⟨n', htrail'⟩, hout'⟩ := h'
  exact htrail.eq_of_not hout htrail' hout'

/-- A move that the tape refuses is reported. -/
theorem Checks.exists_reported {t : Tape} {index stub : Nat} {delta : Int64} {e : Error}
    (h : v.Checks step t index delta lo hi stub m) (he : t.offset index delta = .error e) :
    ∃ n z, advance step n m = some z ∧
      v.host z = (v.host m).record (.outOfBounds (UInt64.ofNat index + delta.toUInt64)) := by
  obtain ⟨y, hleaves, hstub⟩ := h.faults_iff.2 ⟨e, he⟩
  obtain ⟨⟨n, z, hz, hhost⟩, hindex, _⟩ := h.reports hleaves hstub
  obtain ⟨⟨k, htrail⟩, _⟩ := hleaves
  refine ⟨k + n, z, advance_trans htrail.advance hz, ?_⟩
  rw [hhost, hindex]

namespace Fits

variable {place : Nat → S → S} {offset : Nat → Nat} {j k : Nat}

theorem within (h : v.Fits place offset) (hlo : lo ≤ offset k) (hhi : offset k < hi) (m : S) :
    v.Within lo hi (place k m) :=
  ⟨_, hlo, hhi, h.stands_place k m⟩

theorem not_within (h : v.Fits place offset) (hk : offset j ≤ offset k) (m : S) :
    ¬ v.Within lo (offset j) (place k m) := by
  rintro ⟨n, _, hlt, hn⟩
  have heq := h.eq_of_stands (Nat.le_of_lt hlt) hn (h.stands_place k m)
  omega

end Fits

end View

/-! ### Errors of the tape -/

/-- The error of a move tells the index that it would have led to, if a signed word can hold it. -/
theorem Tape.error_eq_of_le {t : Tape} {i : Nat} (h : i < t.capacity) {delta : Int64} {e : Error}
    (he : t.offset i delta = .error e) (hsum : (i : Int) + delta.toInt ≤ 2 ^ 63 - 1) :
    e = .outOfBounds (UInt64.ofNat i + delta.toUInt64).toInt64.toInt t.capacity := by
  rw [Tape.offset_of_leaves h (Tape.leaves_of_offset_error h he)] at he
  cases he
  rw [toInt_add_of_le hsum, Int.min_eq_left hsum]

/-! ### The code of a move -/

/-- The data behind the operations of a move that leads to the index `word`, the host having been `host`. -/
structure Guarded (d : Dialect ω β) (sem : Semantics ω β S) (v : View S σ) (capacity : Nat) (word : UInt64)
    (host : HostState σ) (y : S) : Prop where
  index_eq : v.index y = word
  host_eq : v.host y = host
  taken : sem.taken d.ifOutside y = decide (capacity ≤ word.toNat)
  /-- On the tape there is a cell to be read. -/
  reload (h : word.toNat < capacity) :
    ∃ z, sem.execAll d.reload y = some z ∧ v.index z = word ∧ v.host z = host
  /-- The stub begins with a call that reports the index. -/
  report : ∃ os os' z, d.fault = os ++ os' ∧ sem.execAll os y = some z ∧ v.host z = host.record (.outOfBounds word)

namespace Loaded

open Dialect (start_le located_before chunk_move)

variable {sem : Semantics ω β S} {step : S → Option S} {d : Dialect ω β} {p : Program} {place : Nat → S → S}
  {offset : Nat → Nat} {v : View S σ} {ip index : Nat} {delta : Int64} {t : Tape} {x y z : S}

/-- Behind the code of an instruction the stub is still to come. -/
theorem offset_next_lt_fault (hl : Loaded sem step (d.listing p) place offset) (hexit : d.exit ≠ [])
    {i : Instruction} (hi : p[ip]? = some i) : offset (d.start p (ip + 1)) < offset (d.faultAt p) := by
  have hip : ip < p.size := (Array.getElem?_eq_some_iff.1 hi).1
  have hle := hl.offset_mono (d.start_mono (p := p) (show ip + 1 ≤ p.size from hip)) (start_le p d (Nat.le_refl _))
  have hclosing := d.located_closing (p := p)
  rw [Dialect.closing, Located.append_iff] at hclosing
  have hlt := hl.offset_straight_lt (.ops d.exit) hexit hclosing.1
  rw [Dialect.length_ops] at hlt
  exact Nat.lt_of_le_of_lt hle hlt

/-- What the stub begins with is executed. -/
theorem exists_advance_fault (hl : Loaded sem step (d.listing p) place offset) {os os' : List ω}
    (hfault : d.fault = os ++ os') (hz : sem.execAll os y = some z) :
    ∃ n k, advance step n (place (d.faultAt p) y) = some (place k z) := by
  have hclosing := d.located_closing (p := p)
  rw [Dialect.closing, Located.append_iff, Dialect.length_ops] at hclosing
  have hops := hclosing.2.2
  rw [hfault, Dialect.ops, List.map_append, Located.append_iff] at hops
  have htrail := hl.trail_straight (P := fun _ => True) (.ops os) hops.1 hz (fun _ => trivial)
    (fun _ _ _ _ => trivial) (Nat.le_refl _)
  rw [← hl.label Dialect.label_fault y]
  exact ⟨_, _, htrail.advance⟩

section Move

variable (hl : Loaded sem step (d.listing p) place offset) (hv : v.Fits place offset)
  (hi : p[ip]? = some (.move delta)) (hx : sem.execAll (d.count .move ++ d.move delta) x = some y)
include hl hv hi hx

/-- The operations of a move lead to its branch. -/
theorem exists_trail_branch :
    ∃ n, Trail step (v.Within (offset (d.start p ip)) (offset (d.start p (ip + 1)))) n (place (d.start p ip) x)
        (place (d.start p ip + (d.lead ip .move (Dialect.ops (d.move delta))).length) y) ∧
      v.Within (offset (d.start p ip)) (offset (d.start p (ip + 1)))
        (place (d.start p ip + (d.lead ip .move (Dialect.ops (d.move delta))).length) y) := by
  have hchunk := chunk_move d ip delta
  have hlead := Straight.lead d ip .move (.ops (d.move delta))
  have hstart := hv.within (Nat.le_refl _) (hl.offset_start_lt_of_branch hi hchunk) x
  have hin (j : Nat) (w : S) (hlo : offset (d.start p ip) < offset j) (hhi : offset j < offset (d.start p (ip + 1))) :
      v.Within (offset (d.start p ip)) (offset (d.start p (ip + 1))) (place j w) :=
    hv.within (Nat.le_of_lt hlo) hhi w
  exact ⟨_, hl.trail_before hi hchunk hlead hx hstart hin, hl.holds_before hi hchunk hlead hx hstart hin⟩

/-- A move whose branch is not taken goes to the next instruction. -/
theorem leaves_next (hy : sem.taken d.ifOutside y = false) (hz : sem.execAll d.reload y = some z) :
    v.Leaves step (offset (d.start p ip)) (offset (d.start p (ip + 1))) (place (d.start p ip) x)
      (place (d.start p (ip + 1)) z) := by
  have hchunk := chunk_move d ip delta
  have hlead := Straight.lead d ip .move (.ops (d.move delta))
  obtain ⟨n, htrail, hwithin⟩ := hl.exists_trail_branch hv hi hx
  have hbranch := hl.pass (located_before hi hchunk).2.1 hy
  have hrest := hl.trail_behind hi hchunk hlead (.ops d.reload) hz
    (fun j w hlo hhi => hv.within (v := v) (Nat.le_of_lt hlo) hhi w)
  exact ⟨⟨_, (htrail.snoc hwithin hbranch).append hrest⟩, hv.not_within (Nat.le_refl _) z⟩

/-- A move whose branch is taken goes to the stub. -/
theorem leaves_fault (hexit : d.exit ≠ []) (hy : sem.taken d.ifOutside y = true) :
    v.Leaves step (offset (d.start p ip)) (offset (d.start p (ip + 1))) (place (d.start p ip) x)
      (place (d.faultAt p) y) := by
  obtain ⟨n, htrail, hwithin⟩ := hl.exists_trail_branch hv hi hx
  have hbranch := hl.jump (located_before hi (chunk_move d ip delta)).2.1 Dialect.label_fault hy
  exact ⟨⟨_, htrail.snoc hwithin hbranch⟩, hv.not_within (Nat.le_of_lt (hl.offset_next_lt_fault hexit hi)) y⟩

section Guarded

variable (ht : index < t.capacity)
  (hy : Guarded d sem v t.capacity (UInt64.ofNat index + delta.toUInt64) (v.host x) y)
include ht hy

theorem exists_leaves_of_ok {j : Nat} (h : t.offset index delta = .ok j) :
    ∃ z, v.Leaves step (offset (d.start p ip)) (offset (d.start p (ip + 1))) (place (d.start p ip) x)
        (place (d.start p (ip + 1)) z) ∧ v.index z = UInt64.ofNat j ∧ v.host z = v.host x := by
  obtain ⟨hword, hlt⟩ := (Tape.offset_eq_ok_iff ht delta j).1 h
  obtain ⟨z, hz, hindex, hhost⟩ := hy.reload (hword.symm ▸ hlt)
  have htaken : sem.taken d.ifOutside y = false := by
    rw [hy.taken, hword]
    exact decide_eq_false (Nat.not_le_of_lt hlt)
  refine ⟨z, hl.leaves_next hv hi hx htaken hz, ?_, hhost⟩
  rw [hindex, ← hword, UInt64.ofNat_toNat]

variable (hexit : d.exit ≠ [])
include hexit

theorem leaves_of_error {e : Error} (h : t.offset index delta = .error e) :
    v.Leaves step (offset (d.start p ip)) (offset (d.start p (ip + 1))) (place (d.start p ip) x)
      (place (d.faultAt p) y) := by
  refine hl.leaves_fault hv hi hx hexit ?_
  rw [hy.taken]
  exact decide_eq_true (Tape.capacity_le_of_offset_error ht h)

/-- The code is left in one state only, which is not both at the next instruction and at the stub. -/
theorem exists_error_of_leaves {w : S}
    (hw : v.Leaves step (offset (d.start p ip)) (offset (d.start p (ip + 1))) (place (d.start p ip) x) w)
    (hstub : v.stands (offset (d.faultAt p)) w) : ∃ e, t.offset index delta = .error e := by
  cases h : t.offset index delta with
  | error e => exact ⟨e, rfl⟩
  | ok j =>
    obtain ⟨z, hz, _⟩ := hl.exists_leaves_of_ok hv hi hx ht hy h
    rw [hw.eq hz] at hstub
    have heq := hv.eq_of_stands (Nat.le_refl _) hstub (hv.stands_place (d.start p (ip + 1)) z)
    have hlt := hl.offset_next_lt_fault hexit hi
    omega

/-- Where the operations of a move are guarded, its code checks as the tape does. -/
theorem checks :
    v.Checks step t index delta (offset (d.start p ip)) (offset (d.start p (ip + 1))) (offset (d.faultAt p))
      (place (d.start p ip) x) := by
  constructor
  · constructor
    · rintro ⟨w, hw, hstub⟩
      exact hl.exists_error_of_leaves hv hi hx ht hy hexit hw hstub
    · rintro ⟨e, he⟩
      exact ⟨_, hl.leaves_of_error hv hi hx ht hy hexit he, hv.stands_place _ y⟩
  · intro j hj
    obtain ⟨z, hz, hindex, hhost⟩ := hl.exists_leaves_of_ok hv hi hx ht hy hj
    refine ⟨_, hz, hv.stands_place _ z, (hv.index_place _ z).trans hindex, ?_⟩
    rw [hv.host_place, hv.host_place, hhost]
  · intro w hw hstub
    obtain ⟨e, he⟩ := hl.exists_error_of_leaves hv hi hx ht hy hexit hw hstub
    obtain rfl := hw.eq (hl.leaves_of_error hv hi hx ht hy hexit he)
    obtain ⟨os, os', z, hfault, hz, hhost⟩ := hy.report
    obtain ⟨n, k, hadvance⟩ := hl.exists_advance_fault hfault hz
    rw [(hv.index_place _ y).trans hy.index_eq]
    refine ⟨⟨n, _, hadvance, ?_⟩, rfl, fun hsum => ?_⟩
    · rw [hv.host_place, hv.host_place, hhost]
    · rw [he, Tape.error_eq_of_le ht he hsum]

end Guarded

end Move

/-- Where the operations of every move are guarded, the moves of a routine check as the tape does, whatever the loop
targets of its program. -/
theorem checksMoves {q : Program} {r : Routine} {Ready : Nat → S → Prop}
    (hl : Loaded sem step (d.listing q) place offset) (hv : v.Fits place offset) (hexit : d.exit ≠ [])
    (hsize : ∀ k, offset k ≤ r.code.size)
    (hoffsets : ∀ ip < q.size, r.offsets[ip]? = some (offset (d.start q ip)))
    (herase : q.toList.map Instruction.erase = p.toList.map Instruction.erase)
    (hready : ∀ (delta : Int64) {index : Nat} {m : S}, Ready index m → index < (v.tape m).capacity ∧
      ∃ y, sem.execAll (d.count .move ++ d.move delta) m = some y ∧
        Guarded d sem v (v.tape m).capacity (UInt64.ofNat index + delta.toUInt64) (v.host m) y) :
    v.ChecksMoves step Ready p r := by
  refine ⟨_, hsize (d.faultAt q), fun {ip delta} hi => ?_⟩
  obtain ⟨i, hiq, herased⟩ := Program.exists_erase_eq herase hi
  obtain rfl : i = .move delta := Instruction.eq_of_erase_eq (a := .move delta) herased
  have hip : ip < q.size := (Array.getElem?_eq_some_iff.1 hiq).1
  have hsizes : q.size = p.size := by simpa using congrArg List.length herase
  refine ⟨_, _, hoffsets ip hip, fun hnext => hoffsets (ip + 1) (by omega),
    hl.offset_start_lt_of_branch hiq (chunk_move d ip delta), hl.offset_next_lt_fault hexit hiq, ?_⟩
  intro index m hm hrdy
  obtain ⟨hlt, y, hy, hguarded⟩ := hready delta hrdy
  have hchecks := hl.checks hv hiq hy hlt hguarded hexit
  rwa [hv.place_of_stands hm] at hchecks

end Loaded

end TapeLang
