import TapeLang.Code.Translation
import TapeLang.Proofs.Code.Located
import TapeLang.Proofs.Nesting.Linked

/-!
# The translation of a linked program

Translation follows the nesting of brackets. In a linked program every bracket already carries the
index that the nesting gives it, so the pieces of an instruction depend on nothing but its index and
itself (`Dialect.chunk`), and the routine is the entry, the chunks in order and the closing. A chunk
stands at `Dialect.start`, and no label is bound twice.
-/

namespace TapeLang

/-- An instruction that can be translated. -/
def Instruction.Compilable (i : Instruction) : Prop := i ≠ .input ∧ i ≠ .halt

/-- A program that can be translated if its brackets are balanced. -/
def Program.Compilable (p : Program) : Prop :=
  ∀ (ip : Nat) (i : Instruction), p[ip]? = some i → i.Compilable

namespace Dialect

variable {ω β : Type} (d : Dialect ω β)

/-- What the pieces of an instruction are behind its label and its count. -/
def tail (ip : Nat) : Instruction → List (Piece ω β Label)
  | .add delta => ops (d.add delta)
  | .move delta => ops (d.move delta) ++ .branch d.ifOutside .fault :: ops d.reload
  | .output => ops d.output
  | .loopBegin _ => .label (.check ip) :: (ops d.test ++ [.branch d.ifZero (.after ip)])
  | .loopEnd start => [.branch d.always (.check start), .label (.after start)]
  | .set value => ops (d.set value)
  | .input | .halt => []

/-- Pieces behind the label and the count of the instruction at `ip`. -/
def lead (ip : Nat) (k : Kind) (qs : List (Piece ω β Label)) : List (Piece ω β Label) :=
  .label (.instruction ip) :: (ops (d.count k) ++ qs)

/-- The pieces of the instruction at `ip`, by its own loop target. -/
def chunk (ip : Nat) (i : Instruction) : List (Piece ω β Label) := d.lead ip i.kind (d.tail ip i)

/-- The chunks of instructions, the first of which has index `ip`. -/
def chunksFrom (ip : Nat) : List Instruction → List (Piece ω β Label)
  | [] => []
  | i :: rest => d.chunk ip i ++ chunksFrom (ip + 1) rest

/-- All pieces of the routine of a linked program. -/
def listing (p : Program) : List (Piece ω β Label) :=
  ops d.entry ++ (d.chunksFrom 0 p.toList ++ d.closing)

/-- Where the chunk of the instruction at `ip` starts; at the end of the program, the closing. -/
def start (p : Program) (ip : Nat) : Nat :=
  d.entry.length + (d.chunksFrom 0 (p.toList.take ip)).length

theorem lead_append (ip : Nat) (k : Kind) (qs qs' : List (Piece ω β Label)) :
    d.lead ip k (qs ++ qs') = d.lead ip k qs ++ qs' := by
  simp [lead]

@[simp] theorem length_ops (os : List ω) : (ops os : List (Piece ω β Label)).length = os.length :=
  List.length_map ..

theorem chunksFrom_append (ip : Nat) (l l' : List Instruction) :
    d.chunksFrom ip (l ++ l') = d.chunksFrom ip l ++ d.chunksFrom (ip + l.length) l' := by
  induction l generalizing ip with
  | nil => rfl
  | cons i l ih =>
    simp only [List.cons_append, chunksFrom, ih, List.append_assoc, List.length_cons]
    rw [show ip + 1 + l.length = ip + (l.length + 1) by omega]

/-! ### What translation accepts -/

theorem append_append_list {α : Type} (a : Array α) (l l' : List α) : a ++ l ++ l' = a ++ (l ++ l') := by
  rw [← Array.toList_inj]
  simp

theorem bodyFrom_cons {ip : Nat} {pending : List Nat} {i : Instruction} {t : Translated ω β}
    (h : d.instruction ip pending i = .ok t) (pieces : Array (Piece ω β Label)) (rest : List Instruction) :
    d.bodyFrom ip pending pieces (i :: rest) = d.bodyFrom (ip + 1) t.pending (pieces ++ t.pieces) rest := by
  rw [bodyFrom, h]

theorem bodyFrom_linked {ip : Nat} {l : List Instruction} (hl : LinkedFrom ip l)
    (hc : ∀ i ∈ l, i.Compilable) (pending : List Nat) (pieces : Array (Piece ω β Label))
    (rest : List Instruction) :
    d.bodyFrom ip pending pieces (l ++ rest) =
      d.bodyFrom (ip + l.length) pending (pieces ++ d.chunksFrom ip l) rest := by
  induction hl generalizing pending pieces rest with
  | nil ip => simp [chunksFrom]
  | @action ip l a _ ih =>
    have ha : d.instruction ip pending a.instruction = .ok ⟨d.chunk ip a.instruction, pending⟩ := by
      have := hc a.instruction (by simp)
      cases a with
      | input => exact absurd rfl this.1
      | halt => exact absurd rfl this.2
      | _ => rfl
    rw [List.cons_append, d.bodyFrom_cons ha, ih (fun i hi => hc i (by simp [hi]))]
    rw [chunksFrom, List.length_cons, show ip + 1 + l.length = ip + (l.length + 1) by omega, append_append_list]
  | @loop ip body l _ _ ihBody ihRest =>
    have hbegin : d.instruction ip pending (.loopBegin (ip + body.length + 1)) =
        .ok ⟨d.chunk ip (.loopBegin (ip + body.length + 1)), ip :: pending⟩ := rfl
    have hend : d.instruction (ip + 1 + body.length) (ip :: pending) (.loopEnd ip) =
        .ok ⟨d.chunk (ip + 1 + body.length) (.loopEnd ip), pending⟩ := rfl
    rw [List.cons_append, d.bodyFrom_cons hbegin, List.append_assoc, List.cons_append,
      ihBody (fun i hi => hc i (by simp [hi])), d.bodyFrom_cons hend]
    rw [show ip + 1 + body.length + 1 = ip + body.length + 2 by omega,
      ihRest (fun i hi => hc i (by simp [hi]))]
    rw [chunksFrom, chunksFrom_append, chunksFrom, show ip + 1 + body.length + 1 = ip + body.length + 2 by omega]
    simp only [List.length_cons, List.length_append]
    rw [show ip + (body.length + (l.length + 1) + 1) = ip + body.length + 2 + l.length by omega]
    rw [append_append_list, append_append_list, append_append_list]

theorem compilable_of_bodyFrom {ip : Nat} {pending : List Nat} {pieces q : Array (Piece ω β Label)}
    {l : List Instruction} (h : d.bodyFrom ip pending pieces l = .ok q) : ∀ i ∈ l, i.Compilable := by
  induction l generalizing ip pending pieces with
  | nil => simp
  | cons i l ih =>
    rw [bodyFrom] at h
    split at h
    case h_2 => cases h
    case h_1 t ht =>
      intro j hj
      rcases List.mem_cons.1 hj with rfl | hj
      · refine ⟨?_, ?_⟩
        · rintro rfl
          cases ht
        · rintro rfl
          cases ht
      · exact ih h j hj

theorem mem_compilable {p : Program} : p.Compilable ↔ ∀ i ∈ p.toList, i.Compilable := by
  constructor
  · intro h i hi
    obtain ⟨ip, hip⟩ := List.mem_iff_getElem?.1 hi
    exact h ip i (by rwa [← Array.getElem?_toList])
  · intro h ip i hi
    refine h i (List.mem_of_getElem? (i := ip) ?_)
    rwa [Array.getElem?_toList]

/-- Translating a linked program succeeds exactly if every instruction can be translated. -/
theorem routine_eq_ok_iff {p : Program} (hp : p.Linked) {ps : Array (Piece ω β Label)} :
    d.routine p = .ok ps ↔ p.Compilable ∧ ps = (d.listing p).toArray := by
  have heq (hc : p.Compilable) : d.routine p = .ok (d.listing p).toArray := by
    have h := d.bodyFrom_linked hp (mem_compilable.1 hc) [] (ops d.entry).toArray []
    rw [List.append_nil] at h
    rw [routine, h]
    simp [bodyFrom, listing, bind, Except.bind, pure, Except.pure]
  constructor
  · intro h
    have hc : p.Compilable := by
      rw [routine] at h
      cases hb : d.bodyFrom 0 [] (ops d.entry).toArray p.toList with
      | error e => rw [hb] at h; cases h
      | ok q => exact mem_compilable.2 (d.compilable_of_bodyFrom hb)
    rw [heq hc] at h
    exact ⟨hc, by cases h; rfl⟩
  · rintro ⟨hc, rfl⟩
    exact heq hc

/-! ### Where chunks stand -/

variable {d} {p : Program} {ip : Nat} {i : Instruction}

theorem listing_eq (h : p[ip]? = some i) :
    d.listing p = (ops d.entry ++ d.chunksFrom 0 (p.toList.take ip)) ++
      (d.chunk ip i ++ (d.chunksFrom (ip + 1) (p.toList.drop (ip + 1)) ++ d.closing)) := by
  rw [← Array.getElem?_toList] at h
  obtain ⟨hlt, hi⟩ := List.getElem?_eq_some_iff.1 h
  have hsplit : p.toList = p.toList.take ip ++ i :: p.toList.drop (ip + 1) := by
    rw [← hi, ← List.drop_eq_getElem_cons hlt, List.take_append_drop]
  have hlen : (p.toList.take ip).length = ip := by
    rw [List.length_take]
    omega
  have hchunks : d.chunksFrom 0 p.toList = d.chunksFrom 0 (p.toList.take ip) ++
      (d.chunk ip i ++ d.chunksFrom (ip + 1) (p.toList.drop (ip + 1))) := by
    conv => lhs; rw [hsplit]
    rw [chunksFrom_append, hlen, Nat.zero_add, chunksFrom]
  rw [listing, hchunks]
  simp only [List.append_assoc]

theorem located_chunk (h : p[ip]? = some i) : Located (d.listing p) (d.start p ip) (d.chunk ip i) := by
  have := Located.of_eq (ops d.entry ++ d.chunksFrom 0 (p.toList.take ip)) (d.chunk ip i)
    (d.chunksFrom (ip + 1) (p.toList.drop (ip + 1)) ++ d.closing)
  rwa [← listing_eq h, List.length_append, length_ops] at this

theorem start_succ (h : p[ip]? = some i) : d.start p (ip + 1) = d.start p ip + (d.chunk ip i).length := by
  rw [← Array.getElem?_toList] at h
  obtain ⟨hlt, hi⟩ := List.getElem?_eq_some_iff.1 h
  have htake : p.toList.take (ip + 1) = p.toList.take ip ++ [i] := by
    rw [← hi]
    exact List.take_succ_eq_append_getElem hlt
  have hlen : (p.toList.take ip).length = ip := by
    rw [List.length_take]
    omega
  rw [start, start, htake, chunksFrom_append, hlen, Nat.zero_add]
  simp [chunksFrom, Nat.add_assoc]

theorem start_mono {ip jp : Nat} (h : ip ≤ jp) : d.start p ip ≤ d.start p jp := by
  have htake : p.toList.take jp = p.toList.take ip ++ (p.toList.drop ip).take (jp - ip) := by
    rw [← List.take_add, show ip + (jp - ip) = jp by omega]
  rw [start, start, htake, chunksFrom_append, List.length_append]
  omega

theorem located_entry : Located (d.listing p) 0 (ops d.entry) := by
  have := Located.of_eq [] (ops d.entry) (d.chunksFrom 0 p.toList ++ d.closing)
  rwa [List.nil_append] at this

theorem located_closing : Located (d.listing p) (d.start p p.size) d.closing := by
  have := Located.of_eq (ops d.entry ++ d.chunksFrom 0 p.toList) d.closing []
  rw [List.append_nil, List.append_assoc, List.length_append, length_ops] at this
  rwa [start, show p.size = p.toList.length from (Array.length_toList).symm, List.take_length]

theorem length_listing : (d.listing p).length = d.start p p.size + d.closing.length := by
  rw [start, show p.size = p.toList.length from (Array.length_toList).symm, List.take_length, listing]
  simp only [List.length_append, length_ops, Nat.add_assoc]

theorem getElem?_chunksFrom {n k : Nat} {l : List Instruction} {q : Piece ω β Label}
    (h : (d.chunksFrom n l)[k]? = some q) :
    ∃ j i r, l[j]? = some i ∧ k = (d.chunksFrom n (l.take j)).length + r ∧
      (d.chunk (n + j) i)[r]? = some q := by
  induction l generalizing n k with
  | nil => simp [chunksFrom] at h
  | cons i l ih =>
    rw [chunksFrom] at h
    by_cases hk : k < (d.chunk n i).length
    · rw [List.getElem?_append_left hk] at h
      exact ⟨0, i, k, rfl, by simp [chunksFrom], h⟩
    · rw [List.getElem?_append_right (by omega)] at h
      obtain ⟨j, i', r, hj, hk', hr⟩ := ih h
      refine ⟨j + 1, i', r, hj, ?_, by rwa [show n + (j + 1) = n + 1 + j by omega]⟩
      rw [List.take_succ_cons, chunksFrom, List.length_append]
      omega

/-- A piece stands in the entry, in the chunk of an instruction, or in the closing. -/
theorem getElem?_listing {k : Nat} {q : Piece ω β Label} (h : (d.listing p)[k]? = some q) :
    (ops d.entry : List (Piece ω β Label))[k]? = some q ∨
      (∃ ip i r, p[ip]? = some i ∧ k = d.start p ip + r ∧ (d.chunk ip i)[r]? = some q) ∨
      ∃ r, k = d.start p p.size + r ∧ d.closing[r]? = some q := by
  by_cases hentry : k < d.entry.length
  · rw [listing, List.getElem?_append_left (by rwa [length_ops])] at h
    exact .inl h
  obtain ⟨k, rfl⟩ : ∃ m, k = d.entry.length + m := ⟨k - d.entry.length, by omega⟩
  have hstart : d.start p p.size = d.entry.length + (d.chunksFrom 0 p.toList).length := by
    rw [start, show p.size = p.toList.length from (Array.length_toList).symm, List.take_length]
  rw [listing, List.getElem?_append_right (by rw [length_ops]; omega), length_ops, Nat.add_sub_cancel_left] at h
  by_cases hk : k < (d.chunksFrom 0 p.toList).length
  · rw [List.getElem?_append_left hk] at h
    obtain ⟨ip, i, r, hip, hk', hr⟩ := getElem?_chunksFrom h
    rw [Nat.zero_add] at hr
    exact .inr (.inl ⟨ip, i, r, by rwa [← Array.getElem?_toList], by rw [start]; omega, hr⟩)
  · rw [List.getElem?_append_right (by omega)] at h
    exact .inr (.inr ⟨_, by rw [hstart]; omega, h⟩)

/-! ### What stands in a listing -/

/-- An operation of a dialect. -/
inductive Uses (d : Dialect ω β) (o : ω) : Prop where
  | entry (h : o ∈ d.entry)
  | count (k : Kind) (h : o ∈ d.count k)
  | add (delta : UInt8) (h : o ∈ d.add delta)
  | set (value : UInt8) (h : o ∈ d.set value)
  | move (delta : Int64) (h : o ∈ d.move delta)
  | reload (h : o ∈ d.reload)
  | output (h : o ∈ d.output)
  | test (h : o ∈ d.test)
  | exit (h : o ∈ d.exit)
  | fault (h : o ∈ d.fault)

theorem mem_ops {os : List ω} {o : ω} : Piece.op o ∈ (ops os : List (Piece ω β Label)) ↔ o ∈ os := by
  simp [ops]

theorem uses_of_mem_chunk {o : ω} (h : Piece.op o ∈ d.chunk ip i) : d.Uses o := by
  rw [chunk, lead, List.mem_cons, List.mem_append, mem_ops] at h
  rcases h with h | h | h
  · cases h
  · exact .count _ h
  · cases i with
    | add delta => exact .add delta (mem_ops.1 h)
    | set value => exact .set value (mem_ops.1 h)
    | output => exact .output (mem_ops.1 h)
    | move delta =>
      rw [tail, List.mem_append, List.mem_cons, mem_ops, mem_ops] at h
      rcases h with h | h | h
      · exact .move delta h
      · cases h
      · exact .reload h
    | loopBegin close =>
      rw [tail, List.mem_cons, List.mem_append, mem_ops, List.mem_singleton] at h
      rcases h with h | h | h
      · cases h
      · exact .test h
      · cases h
    | loopEnd start => simp [tail] at h
    | input => simp [tail] at h
    | halt => simp [tail] at h

/-- Every operation in a listing is one of the dialect. -/
theorem uses_of_getElem? {k : Nat} {o : ω} (h : (d.listing p)[k]? = some (.op o)) : d.Uses o := by
  rcases getElem?_listing h with hr | ⟨ip, i, r, _, _, hr⟩ | ⟨r, _, hr⟩
  · exact .entry (mem_ops.1 (List.mem_of_getElem? hr))
  · exact uses_of_mem_chunk (List.mem_of_getElem? hr)
  · have hmem := List.mem_of_getElem? hr
    rw [closing, List.mem_append, List.mem_cons, mem_ops, mem_ops] at hmem
    rcases hmem with hmem | hmem | hmem
    · exact .exit hmem
    · cases hmem
    · exact .fault hmem

theorem length_chunksFrom_le {n : Nat} (h : ∀ ip i, (d.chunk ip i).length ≤ n) (ip : Nat) (l : List Instruction) :
    (d.chunksFrom ip l).length ≤ n * l.length := by
  induction l generalizing ip with
  | nil => exact Nat.le_refl 0
  | cons i l ih =>
    have hchunk := h ip i
    have hrest := ih (ip + 1)
    rw [chunksFrom, List.length_append, List.length_cons, Nat.mul_succ]
    omega

theorem length_listing_le {n : Nat} (h : ∀ ip i, (d.chunk ip i).length ≤ n) :
    (d.listing p).length ≤ d.entry.length + n * p.size + d.closing.length := by
  have hchunks := d.length_chunksFrom_le h 0 p.toList
  rw [show p.toList.length = p.size from Array.length_toList] at hchunks
  rw [listing, List.length_append, List.length_append, length_ops]
  omega

/-! ### Where labels are bound -/

/-- Where the test of the loop that opens at `ip` stands. -/
def checkAt (d : Dialect ω β) (p : Program) (ip : Nat) : Nat :=
  d.start p ip + (1 + (d.count .loopBegin).length)

/-- Where the end of the loop that closes at `ip` stands: behind the branch back. -/
def afterAt (d : Dialect ω β) (p : Program) (ip : Nat) : Nat :=
  d.start p ip + (1 + (d.count .loopEnd).length + 1)

/-- Where the stub stands. -/
def faultAt (d : Dialect ω β) (p : Program) : Nat := d.start p p.size + d.exit.length

theorem label_check {close : Nat} (h : p[ip]? = some (.loopBegin close)) :
    (d.listing p)[d.checkAt p ip]? = some (.label (.check ip)) := by
  refine (located_chunk h).get ?_
  rw [chunk, lead, show 1 + (d.count .loopBegin).length = (d.count .loopBegin).length + 1 by omega,
    List.getElem?_cons_succ, List.getElem?_append_right (by simp [Instruction.kind])]
  simp [Instruction.kind, tail]

theorem label_after {s : Nat} (h : p[ip]? = some (.loopEnd s)) :
    (d.listing p)[d.afterAt p ip]? = some (.label (.after s)) := by
  refine (located_chunk h).get ?_
  rw [chunk, lead, show 1 + (d.count .loopEnd).length + 1 = (d.count .loopEnd).length + 1 + 1 by omega,
    List.getElem?_cons_succ, List.getElem?_append_right (by simp [Instruction.kind])]
  simp [Instruction.kind, tail]

theorem label_fault : (d.listing p)[d.faultAt p]? = some (.label .fault) := by
  refine located_closing.get ?_
  rw [closing, List.getElem?_append_right (by simp)]
  simp

theorem label_instruction (h : p[ip]? = some i) :
    (d.listing p)[d.start p ip]? = some (.label (.instruction ip)) :=
  (located_chunk h).1

/-- Every instruction has its label. -/
theorem label_of_mem_instructionLabels (d : Dialect ω β) {l : Label} (hl : l ∈ instructionLabels p) :
    ∃ j : Nat, (d.listing p)[j]? = some (.label l) := by
  obtain ⟨ip, hip, rfl⟩ := Array.mem_map.1 hl
  have hlt : ip < p.size := Array.mem_range.1 hip
  exact ⟨_, label_instruction (Array.getElem?_eq_getElem hlt)⟩

theorem not_label_ops {os : List ω} {k : Nat} {l : Label} :
    (ops os : List (Piece ω β Label))[k]? ≠ some (.label l) := by
  rw [ops, List.getElem?_map]
  cases os[k]? <;> simp

theorem label_of_append_ops {os : List ω} {qs : List (Piece ω β Label)} {k : Nat} {l : Label}
    (h : (ops os ++ qs)[k]? = some (.label l)) : ∃ r, k = os.length + r ∧ qs[r]? = some (.label l) := by
  by_cases hk : k < os.length
  · rw [List.getElem?_append_left (by rwa [length_ops])] at h
    exact absurd h not_label_ops
  · rw [List.getElem?_append_right (by rw [length_ops]; omega), length_ops] at h
    exact ⟨_, by omega, h⟩

theorem label_of_tail {r : Nat} {l : Label} (h : (d.tail ip i)[r]? = some (.label l)) :
    (∃ close, i = .loopBegin close ∧ r = 0 ∧ l = .check ip) ∨
      ∃ s, i = .loopEnd s ∧ r = 1 ∧ l = .after s := by
  cases i with
  | add delta => exact absurd h not_label_ops
  | set value => exact absurd h not_label_ops
  | output => exact absurd h not_label_ops
  | input => simp [tail] at h
  | halt => simp [tail] at h
  | move delta =>
    obtain ⟨r, rfl, hr⟩ := label_of_append_ops h
    obtain _ | r := r
    · simp at hr
    · exact absurd hr not_label_ops
  | loopBegin close =>
    obtain _ | r := r
    · simp only [tail, List.getElem?_cons_zero, Option.some.injEq, Piece.label.injEq] at h
      exact .inl ⟨close, rfl, rfl, h.symm⟩
    · rw [tail, List.getElem?_cons_succ] at h
      obtain ⟨r, rfl, hr⟩ := label_of_append_ops h
      obtain _ | r := r <;> simp at hr
  | loopEnd s =>
    obtain _ | _ | r := r
    · simp [tail] at h
    · simp only [tail, List.getElem?_cons_succ, List.getElem?_cons_zero, Option.some.injEq,
        Piece.label.injEq] at h
      exact .inr ⟨s, rfl, rfl, h.symm⟩
    · simp [tail] at h

/-- Where a label stands, if anywhere. -/
theorem label_place {k : Nat} {l : Label} (h : (d.listing p)[k]? = some (.label l)) :
    match l with
    | .fault => k = d.faultAt p
    | .instruction ip => k = d.start p ip
    | .check ip => k = d.checkAt p ip
    | .after s => ∃ ip, p[ip]? = some (.loopEnd s) ∧ k = d.afterAt p ip := by
  rcases getElem?_listing h with hr | ⟨ip, i, r, hip, rfl, hr⟩ | ⟨r, rfl, hr⟩
  · exact absurd hr not_label_ops
  · obtain _ | r := r
    · simp only [chunk, lead, List.getElem?_cons_zero, Option.some.injEq, Piece.label.injEq] at hr
      subst hr
      rfl
    · rw [chunk, lead, List.getElem?_cons_succ] at hr
      obtain ⟨r, rfl, ht⟩ := label_of_append_ops hr
      rcases label_of_tail ht with ⟨close, rfl, rfl, rfl⟩ | ⟨s, rfl, rfl, rfl⟩
      · show _ = d.start p ip + (1 + (d.count .loopBegin).length)
        simp only [Instruction.kind]
        omega
      · refine ⟨ip, hip, ?_⟩
        show _ = d.start p ip + (1 + (d.count .loopEnd).length + 1)
        simp only [Instruction.kind]
        omega
  · rw [closing] at hr
    obtain ⟨r, rfl, ht⟩ := label_of_append_ops hr
    obtain _ | r := r
    · simp only [List.getElem?_cons_zero, Option.some.injEq, Piece.label.injEq] at ht
      subst ht
      rfl
    · exact absurd ht not_label_ops

theorem branch_of_mem_chunk {b : β} {l : Label} (h : Piece.branch b l ∈ d.chunk ip i) :
    l = .fault ∨ (∃ close, i = .loopBegin close ∧ l = .after ip) ∨ ∃ s, i = .loopEnd s ∧ l = .check s := by
  have hops {os : List ω} : Piece.branch b l ∉ (ops os : List (Piece ω β Label)) := by simp [ops]
  rw [chunk, lead, List.mem_cons, List.mem_append] at h
  rcases h with h | h | h
  · cases h
  · exact absurd h hops
  · cases i with
    | add delta => exact absurd h hops
    | set value => exact absurd h hops
    | output => exact absurd h hops
    | move delta =>
      rw [tail, List.mem_append, List.mem_cons] at h
      rcases h with h | h | h
      · exact absurd h hops
      · cases h
        exact .inl rfl
      · exact absurd h hops
    | loopBegin close =>
      rw [tail, List.mem_cons, List.mem_append, List.mem_singleton] at h
      rcases h with h | h | h
      · cases h
      · exact absurd h hops
      · cases h
        exact .inr (.inl ⟨close, rfl, rfl⟩)
    | loopEnd start =>
      simp only [tail, List.mem_cons, Piece.branch.injEq, reduceCtorEq, List.not_mem_nil, or_false] at h
      exact .inr (.inr ⟨start, rfl, h.2⟩)
    | input => simp [tail] at h
    | halt => simp [tail] at h

/-- In a linked program every branch has its label. -/
theorem label_of_branch (hp : p.Linked) {k : Nat} {b : β} {l : Label}
    (h : (d.listing p)[k]? = some (.branch b l)) : ∃ j : Nat, (d.listing p)[j]? = some (.label l) := by
  have hops {os : List ω} : Piece.branch b l ∉ (ops os : List (Piece ω β Label)) := by simp [ops]
  rcases getElem?_listing h with hr | ⟨ip, i, r, hip, _, hr⟩ | ⟨r, _, hr⟩
  · exact absurd (List.mem_of_getElem? hr) hops
  · rcases branch_of_mem_chunk (List.mem_of_getElem? hr) with rfl | ⟨close, rfl, rfl⟩ | ⟨s, rfl, rfl⟩
    · exact ⟨_, label_fault⟩
    · exact ⟨_, label_after (hp.close_of_loopBegin hip).2⟩
    · exact ⟨_, label_check (hp.open_of_loopEnd hip).2⟩
  · have hmem := List.mem_of_getElem? hr
    rw [closing, List.mem_append, List.mem_cons] at hmem
    rcases hmem with hmem | hmem | hmem
    · exact absurd hmem hops
    · cases hmem
    · exact absurd hmem hops

/-- No label of a linked program is bound twice. -/
theorem label_unique (hp : p.Linked) {j k : Nat} {l : Label} (hj : (d.listing p)[j]? = some (.label l))
    (hk : (d.listing p)[k]? = some (.label l)) : j = k := by
  have hj := label_place hj
  have hk := label_place hk
  cases l with
  | fault => exact hj.trans hk.symm
  | instruction ip => exact hj.trans hk.symm
  | check ip => exact hj.trans hk.symm
  | after s =>
    obtain ⟨ip, hip, rfl⟩ := hj
    obtain ⟨jp, hjp, rfl⟩ := hk
    -- both close the loop that opens at `s`
    have h := (hp.open_of_loopEnd hip).2
    rw [(hp.open_of_loopEnd hjp).2] at h
    cases h
    rfl

end Dialect

end TapeLang
