import TapeLang.Proofs.X86.Simulation

/-!
# What the generator accepts

Assembling can fail at a label that is bound twice or never, at an operand without an encoding, and at
a branch that is too long. In the listing of a linked program there is none of the first three, and
the last takes more instructions than `maxSize` (`generate_accepts`).
-/

namespace TapeLang.X86

namespace Assembler

/-- Pieces whose labels are new are appended. -/
theorem exists_addAll (qs : List (Piece Op Branch Nat)) {a : Assembler} (ha : a.Bound)
    (hnew : ∀ j k l : Nat, (a.pieces.toList ++ qs)[j]? = some (Piece.label l) →
      (a.pieces.toList ++ qs)[k]? = some (Piece.label l) → j = k) :
    ∃ a', qs.foldlM add a = .ok a' := by
  induction qs generalizing a with
  | nil => exact ⟨a, rfl⟩
  | cons q qs ih =>
    have hq : ∃ a', a.add q = .ok a' := by
      cases q with
      | op o => exact ⟨_, rfl⟩
      | branch b l => exact ⟨_, rfl⟩
      | label l =>
        by_cases hl : l ∈ a.bound
        · -- the label would stand both before and here
          obtain ⟨k, hk⟩ : ∃ k, a.bound[l]? = some k := ⟨_, Std.HashMap.getElem?_eq_some_getElem hl⟩
          have hpiece := (ha l k).1 hk
          have hlt : k < a.pieces.toList.length := by
            rw [Array.length_toList]
            exact (Array.getElem?_eq_some_iff.1 hpiece).1
          have heq := hnew k a.pieces.toList.length l
            (by rw [List.getElem?_append_left hlt, Array.getElem?_toList, hpiece]) (by simp)
          omega
        · exact ⟨_, by rw [add, if_neg hl]⟩
    obtain ⟨a', ha'⟩ := hq
    obtain ⟨hpieces, hbound⟩ := add_ok ha ha'
    obtain ⟨a'', ha''⟩ := ih hbound (by
      rw [hpieces, Array.toList_push, List.append_assoc]
      exact hnew)
    exact ⟨a'', by rw [List.foldlM_cons, ha']; exact ha''⟩

theorem exists_encodeTo {a : Assembler} {L : Layout} (qs : List (Piece Op Branch Nat)) (idx : Nat)
    (code : Array UInt8)
    (h : ∀ (j : Nat) (q : Piece Op Branch Nat), qs[j]? = some q → ∃ bytes, a.encodePiece L (idx + j) q = .ok bytes) :
    ∃ code', a.encodeTo L code idx qs = .ok code' := by
  induction qs generalizing idx code with
  | nil => exact ⟨code, rfl⟩
  | cons q qs ih =>
    obtain ⟨bytes, hbytes⟩ := h 0 q rfl
    obtain ⟨code', hcode'⟩ := ih (idx + 1) (code ++ bytes) fun j q' hj => by
      rw [show idx + 1 + j = idx + (j + 1) by omega]
      exact h (j + 1) q' hj
    exact ⟨code', by rw [encodeTo, show a.encodePiece L idx q = _ from hbytes]; exact hcode'⟩

/-- No piece is longer than this. -/
def maxPiece : Nat := 10

theorem extentOf_le {a : Assembler} {q : Piece Op Branch Nat} {n : Nat} (h : (a.extentOf q).Allows n) :
    n ≤ maxPiece := by
  cases q with
  | op o =>
    have := (length_encode o).2
    rw [show n = o.encode.length from h]
    exact this
  | branch b l =>
    have : b.longSize ≤ maxPiece := by cases b <;> decide
    have := b.shortSize_lt_longSize
    rcases h with rfl | rfl <;> omega
  | label l =>
    rw [show n = 0 from h]
    exact Nat.zero_le _

theorem total_le_length {a : Assembler} (k : Nat) :
    Layout.total a.layout.sizes k ≤ maxPiece * k := by
  have hL : Layout.Final (a.pieces.map a.extentOf) a.layout := Layout.ofExtents_final _
  induction k with
  | zero => exact Nat.le_refl 0
  | succ k ih =>
    have hsize : Layout.sizeAt a.layout.sizes k ≤ maxPiece := by
      by_cases hk : k < a.pieces.size
      · exact extentOf_le (hL.final (getElem?_extents (Array.getElem?_eq_getElem hk)))
      · rw [Layout.sizeAt, Array.getElem?_eq_none (by rw [hL.size_sizes, Array.size_map]; omega)]
        exact Nat.zero_le _
    rw [Layout.total, Nat.mul_succ]
    omega

/-- A branch to a piece has room for its displacement. -/
theorem exists_encodePiece {a : Assembler} (ha : a.Bound) (hsize : maxPiece * a.pieces.size < 2 ^ 31) {k : Nat}
    {q : Piece Op Branch Nat} (hk : a.pieces[k]? = some q)
    (hop : ∀ o, q = .op o → o.refusal? = none)
    (hbranch : ∀ b l, q = .branch b l → ∃ j : Nat, a.pieces[j]? = some (.label l)) :
    ∃ bytes, a.encodePiece a.layout k q = .ok bytes := by
  have hL : Layout.Final (a.pieces.map a.extentOf) a.layout := Layout.ofExtents_final _
  have hbound {n : Nat} (hn : n ≤ a.pieces.size) : Layout.total a.layout.sizes n < 2 ^ 31 := by
    have := total_le_length (a := a) n
    have := Nat.mul_le_mul_left maxPiece hn
    omega
  have hlt : k < a.pieces.size := (Array.getElem?_eq_some_iff.1 hk).1
  cases q with
  | label l => exact ⟨[], rfl⟩
  | op o => exact ⟨o.encode, by rw [encodePiece, hop o rfl]⟩
  | branch b l =>
    obtain ⟨j, hj⟩ := hbranch b l rfl
    have hjlt : j < a.pieces.size := (Array.getElem?_eq_some_iff.1 hj).1
    have htarget : a.targetOf l = .piece j := by rw [targetOf, (ha l j).2 hj]
    have hstart := hL.start (show k < (a.pieces.map a.extentOf).size by rwa [Array.size_map])
    have hsizeAt : a.layout.sizes[k]?.getD 0 = Layout.sizeAt a.layout.sizes k := rfl
    have hholds : Branch.holds (Layout.sizeAt a.layout.sizes k) (Layout.gap a.layout.sizes k j) = true := by
      rw [Branch.holds]
      split
      · rename_i hshort
        have hextent : (a.pieces.map a.extentOf)[k]? = some (.branch b (.piece j)) := by
          rw [getElem?_extents hk, extentOf, htarget]
        exact hL.short hextent (by rwa [Array.size_map]) hshort
      · have h₁ := hbound (Nat.le_of_lt hjlt)
        have h₂ := hbound (show k + 1 ≤ a.pieces.size from hlt)
        rw [Layout.total] at h₂
        rw [Layout.gap, Bool.and_eq_true, decide_eq_true_eq, decide_eq_true_eq]
        omega
    refine ⟨b.encode (Layout.sizeAt a.layout.sizes k) (Layout.gap a.layout.sizes k j), ?_⟩
    simp only [encodePiece, hstart, Option.getD_some, addressOf_piece ha hL rfl hj, hsizeAt]
    exact if_pos hholds

section Numbered

variable {ps : List (Piece Op Branch Label)}

/-- Pieces with labels of their own are all appended. -/
theorem exists_pieces
    (hunique : ∀ (j k : Nat) (l : Label), ps[j]? = some (.label l) → ps[k]? = some (.label l) → j = k) :
    ∃ a, empty.addAll (ps.toArray.map (·.mapLabel Label.number)) = .ok a := by
  have hlabel {k n : Nat} (h : (ps.map (·.mapLabel Label.number))[k]? = some (Piece.label n)) :
      ∃ l : Label, ps[k]? = some (.label l) ∧ l.number = n := by
    rw [List.getElem?_map] at h
    obtain ⟨q, hq, hqn⟩ := Option.map_eq_some_iff.1 h
    obtain ⟨l, rfl, hl⟩ := Piece.mapLabel_eq_label_iff.1 hqn
    exact ⟨l, hq, hl⟩
  obtain ⟨a, ha⟩ := exists_addAll (ps.map (·.mapLabel Label.number)) empty_bound fun j k n hj hk => by
    obtain ⟨l, hl, hln⟩ := hlabel hj
    obtain ⟨l', hl', hln'⟩ := hlabel hk
    rw [← Label.number_injective (hln.trans hln'.symm)] at hl'
    exact hunique j k l hl hl'
  refine ⟨a, ?_⟩
  rw [addAll, ← Array.foldlM_toList]
  simpa using ha

/-- Code is encoded where every operation has an encoding, every branch has a label, and no displacement
can be too long. -/
theorem exists_encode {a : Assembler} (hps : a.pieces.toList = ps.map (·.mapLabel Label.number)) (ha : a.Bound)
    (hop : ∀ (k : Nat) (o : Op), ps[k]? = some (.op o) → o.refusal? = none)
    (hbranch : ∀ (k : Nat) (b : Branch) (l : Label), ps[k]? = some (.branch b l) → ∃ j : Nat, ps[j]? = some (.label l))
    (hsize : maxPiece * ps.length < 2 ^ 31) : ∃ code, a.encode a.layout = .ok code := by
  refine exists_encodeTo a.pieces.toList 0 #[] fun k q hk => ?_
  rw [Array.getElem?_toList] at hk
  have hpiece := hk
  rw [getElem?_pieces hps] at hpiece
  obtain ⟨q', hq', rfl⟩ := Option.map_eq_some_iff.1 hpiece
  rw [Nat.zero_add]
  refine exists_encodePiece ha (by rwa [size_pieces hps]) hk ?_ ?_
  · intro o ho
    cases q' with
    | op o' =>
      cases ho
      exact hop k o hq'
    | branch b l => cases ho
    | label l => cases ho
  · intro b n hn
    cases q' with
    | branch b' l =>
      cases hn
      obtain ⟨j, hj⟩ := hbranch k b l hq'
      exact ⟨j, getElem?_pieces_of_eq hps hj⟩
    | op o => cases hn
    | label l => cases hn

end Numbered

end Assembler

/-- Assembling succeeds where every operation has an encoding, labels are bound once, and all that is
mentioned is bound. -/
theorem exists_assemble {ps : List (Piece Op Branch Label)} (marks : Array Label)
    (hop : ∀ (k : Nat) (o : Op), ps[k]? = some (.op o) → o.refusal? = none)
    (hunique : ∀ (j k : Nat) (l : Label), ps[j]? = some (.label l) → ps[k]? = some (.label l) → j = k)
    (hbranch : ∀ (k : Nat) (b : Branch) (l : Label), ps[k]? = some (.branch b l) → ∃ j : Nat, ps[j]? = some (.label l))
    (hmarks : ∀ l ∈ marks, ∃ j : Nat, ps[j]? = some (.label l))
    (hsize : Assembler.maxPiece * ps.length < 2 ^ 31) :
    ∃ r, assemble ps.toArray marks = .ok r ∧ r.code.size ≤ Assembler.maxPiece * ps.length := by
  obtain ⟨a, ha⟩ := Assembler.exists_pieces hunique
  obtain ⟨hps, hbound⟩ := Assembler.pieces_of_addAll ha
  obtain ⟨code, hcode⟩ := Assembler.exists_encode hps hbound hop hbranch hsize
  obtain ⟨offsets, hoffsets⟩ := array_mapM_eq_ok_of_forall (f := a.offsetOf a.layout) (l := marks.map Label.number)
    fun n hn => by
      obtain ⟨l, hl, rfl⟩ := Array.mem_map.1 hn
      obtain ⟨j, hj⟩ := hmarks l hl
      exact ⟨_, by rw [Assembler.offsetOf, (hbound _ j).2 (Assembler.getElem?_pieces_of_eq hps hj)]⟩
  refine ⟨⟨code, offsets⟩, ?_, ?_⟩
  · rw [assemble, ha]
    exact Assembler.assemble_eq hcode hoffsets
  · have hasm := Assembler.encode_assembled hps hbound hcode
    show code.size ≤ _
    rw [← hasm.size]
    exact Assembler.total_le_length _

/-! ### Generated code -/

theorem refusal_of_all {os : List Op} {o : Op} (hos : os.all (·.refusal?.isNone) = true) (h : o ∈ os) :
    o.refusal? = none :=
  Option.isNone_iff_eq_none.1 (List.all_eq_true.1 hos o h)

/-- No operation that the generator uses is refused. -/
theorem refusal_of_uses {last : Int32} {counting : Bool} {calls : HostCalls} {o : Op}
    (h : (dialect last counting calls).Uses o) : o.refusal? = none := by
  cases h with
  | entry h => exact refusal_of_all rfl h
  | count k h =>
    cases counting with
    | true => exact refusal_of_all rfl h
    | false => cases h
  | add delta h => exact refusal_of_all rfl h
  | set value h =>
    simp only [dialect] at h
    split at h
    · exact refusal_of_all rfl h
    · exact refusal_of_all rfl h
  | move delta h =>
    simp only [dialect, Op.addWord] at h
    split at h
    · exact refusal_of_all rfl h
    · exact refusal_of_all rfl h
  | reload h => exact refusal_of_all rfl h
  | output h =>
    cases counting with
    | true => exact refusal_of_all rfl h
    | false => exact refusal_of_all rfl h
  | test h => exact refusal_of_all rfl h
  | exit h => exact refusal_of_all rfl h
  | fault h => exact refusal_of_all rfl h

/-- No instruction has more pieces than this. -/
def maxChunk : Nat := 20

theorem length_chunk_le (last : Int32) (counting : Bool) (calls : HostCalls) (ip : Nat) (i : Instruction) :
    ((dialect last counting calls).chunk ip i).length ≤ maxChunk := by
  have hcount (k : Kind) : ((dialect last counting calls).count k).length ≤ 3 := by
    simp only [dialect]
    split <;> simp [Op.increment]
  have hword (delta : Int64) : (Op.addWord .rdx delta .r11).length ≤ 2 := by
    rw [Op.addWord]
    split <;> simp
  have hchunk := hcount i.kind
  rw [Dialect.chunk, Dialect.lead, List.length_cons, List.length_append, Dialect.length_ops]
  suffices htail : ((dialect last counting calls).tail ip i).length ≤ 16 by
    rw [maxChunk]
    omega
  cases i with
  | set value =>
    simp only [Dialect.tail, dialect]
    split <;> simp
  | move delta =>
    have := hword delta
    simp only [Dialect.tail, dialect, List.length_append, List.length_cons, Dialect.length_ops, List.length_nil]
    omega
  | output =>
    rw [Dialect.tail, Dialect.length_ops, Machine.output_eq]
    cases counting <;> simp [Machine.savedRegs, Op.openCall, Op.callAddress, Op.closeCall]
  | _ => simp [Dialect.tail, dialect]

/-- How many instructions a program may have for its code to be certain to be accepted. -/
def maxSize : Nat := 2 ^ 23

/-- For a linked program without input and empty loops, what is left to be refused is up to the
assembler. -/
theorem generate_eq {p : Program} {options : CodeOptions} {last : Int32} (hp : p.Linked) (hc : p.Compilable)
    (hlast : lastIndex? options.capacity = some last) :
    generate p options = (assemble ((dialect last options.counting options.host).listing p).toArray
      (instructionLabels p)).mapError .assembly := by
  have hroutine := ((dialect last options.counting options.host).routine_eq_ok_iff hp).2 ⟨hc, rfl⟩
  rw [generate, hlast]
  show ((dialect last options.counting options.host).routine p >>= _) = _
  rw [hroutine]
  rfl

theorem lastIndex_eq {capacity : Nat} (h : 0 < capacity ∧ capacity ≤ 2 ^ 31) :
    lastIndex? capacity = some (Int32.ofNat (capacity - 1)) := if_pos h

theorem exists_assembly_of_generate_error {p : Program} {options : CodeOptions} {e : Error} (hp : p.Linked)
    (hc : p.Compilable) (hcapacity : 0 < options.capacity ∧ options.capacity ≤ 2 ^ 31)
    (h : generate p options = .error e) : ∃ a, e = .assembly a := by
  rw [generate_eq hp hc (lastIndex_eq hcapacity)] at h
  generalize assemble _ _ = result at h
  cases result with
  | ok r => cases h
  | error a =>
    cases h
    exact ⟨a, rfl⟩

/-- A linked program without input and empty loops, of up to `maxSize` instructions, is accepted for
every capacity that a tape can have. -/
theorem generate_accepts {p : Program} (options : CodeOptions) (hp : p.Linked) (hc : p.Compilable)
    (hcapacity : 0 < options.capacity ∧ options.capacity ≤ 2 ^ 31) (hsize : p.size ≤ maxSize) :
    ∃ r, generate p options = .ok r ∧ r.code.size < 2 ^ 31 := by
  have hlast := lastIndex_eq hcapacity
  generalize Int32.ofNat (options.capacity - 1) = last at hlast
  have hlen := (dialect last options.counting options.host).length_listing_le (p := p)
    (length_chunk_le last options.counting options.host)
  have hbytes : Assembler.maxPiece * ((dialect last options.counting options.host).listing p).length < 2 ^ 31 := by
    have hentry : (dialect last options.counting options.host).entry.length = 8 := rfl
    have hclosing : (dialect last options.counting options.host).closing.length = 17 := rfl
    rw [maxSize] at hsize
    rw [Assembler.maxPiece]
    rw [maxChunk] at hlen
    omega
  obtain ⟨r, hr, hcode⟩ := exists_assemble (instructionLabels p)
    (fun k o hk => refusal_of_uses (Dialect.uses_of_getElem? hk))
    (fun j k l hj hk => Dialect.label_unique hp hj hk) (fun k b l hk => Dialect.label_of_branch hp hk)
    (fun l hl => Dialect.label_of_mem_instructionLabels _ hl) hbytes
  refine ⟨r, ?_, by omega⟩
  rw [generate_eq hp hc hlast, hr]
  rfl

end TapeLang.X86
