import Mathlib
import TapeLang.Proofs.A64.Acceptance

/-!
# Which branches reach

A conditional branch goes less than `reach` words ahead. Two kinds of instructions have one, a move to the
stub behind the exit and the start of a loop past its end (`Dialect.Branches`), and how far they go grows with
the program. A program of up to `maxUnconditional` instructions has code exactly if all of these branches
reach, and is otherwise refused for the first that does not (`generate_ok_iff`, `generate_of_far`).

* A piece stands four bytes behind each word before it (`offsetAt_eq`). What an instruction has of words does
  not depend on where it stands, so places are sums over a beginning of the program (`Dialect.words_take_listing`).
* Each piece of the code has its bytes or is a branch of the program that goes too far
  (`exists_bytesAt_or_far`), and the first without bytes decides the error (`encodeTo_of_error`).
-/

namespace TapeLang

namespace Dialect

variable {ω β : Type} (d : Dialect ω β) {p : Program} {ip : Nat} {i : Instruction}

/-! ### Counting words -/

/-- How many pieces are no labels. -/
def words (ps : List (Piece ω β Label)) : Nat := ps.countP fun q => !(q matches .label _)

@[simp] theorem words_nil : words ([] : List (Piece ω β Label)) = 0 := rfl

@[simp] theorem words_append (ps qs : List (Piece ω β Label)) : words (ps ++ qs) = words ps + words qs :=
  List.countP_append

@[simp] theorem words_label (l : Label) (ps : List (Piece ω β Label)) : words (.label l :: ps) = words ps := by
  simp [words]

@[simp] theorem words_op (o : ω) (ps : List (Piece ω β Label)) : words (.op o :: ps) = words ps + 1 := by
  simp [words]

@[simp] theorem words_branch (b : β) (l : Label) (ps : List (Piece ω β Label)) :
    words (.branch b l :: ps) = words ps + 1 := by
  simp [words]

@[simp] theorem words_ops (os : List ω) : words (ops os : List (Piece ω β Label)) = os.length := by
  simp [words, ops, List.countP_map, Function.comp_def]

theorem words_le_length (ps : List (Piece ω β Label)) : words ps ≤ ps.length := List.countP_le_length

/-- How many words an instruction has, wherever it stands. -/
def instructionWords (i : Instruction) : Nat :=
  (d.count i.kind).length +
    match i with
    | .add delta => (d.add delta).length
    | .move delta => (d.move delta).length + 1 + d.reload.length
    | .output => d.output.length
    | .loopBegin _ => d.test.length + 1
    | .loopEnd _ => 1
    | .set value => (d.set value).length
    | .input | .halt => 0

/-- How many words stand before the instruction at `ip`. -/
def wordsBefore (p : Program) (ip : Nat) : Nat := d.entry.length + ((p.toList.take ip).map d.instructionWords).sum

theorem words_chunk (ip : Nat) (i : Instruction) : words (d.chunk ip i) = d.instructionWords i := by
  rw [chunk, lead, words_label, words_append, words_ops]
  cases i with
  | move delta =>
    simp only [instructionWords, tail, words_append, words_branch, words_ops]
    omega
  | _ => simp [instructionWords, tail]

theorem words_chunksFrom (ip : Nat) (l : List Instruction) :
    words (d.chunksFrom ip l) = (l.map d.instructionWords).sum := by
  induction l generalizing ip with
  | nil => rfl
  | cons i l ih => rw [chunksFrom, words_append, words_chunk, ih, List.map_cons, List.sum_cons]

theorem wordsBefore_succ (h : p[ip]? = some i) :
    d.wordsBefore p (ip + 1) = d.wordsBefore p ip + d.instructionWords i := by
  rw [← Array.getElem?_toList] at h
  obtain ⟨hlt, hi⟩ := List.getElem?_eq_some_iff.1 h
  rw [wordsBefore, wordsBefore, List.take_succ_eq_append_getElem hlt, hi, List.map_append, List.sum_append]
  simp [Nat.add_assoc]

theorem wordsBefore_mono {ip jp : Nat} (h : ip ≤ jp) : d.wordsBefore p ip ≤ d.wordsBefore p jp := by
  have htake : p.toList.take jp = p.toList.take ip ++ (p.toList.drop ip).take (jp - ip) := by
    rw [← List.take_add, show ip + (jp - ip) = jp by omega]
  rw [wordsBefore, wordsBefore, htake, List.map_append, List.sum_append]
  omega

/-- So many words stand before a piece of an instruction. -/
theorem words_take_listing (h : p[ip]? = some i) {r : Nat} (hr : r ≤ (d.chunk ip i).length) :
    words ((d.listing p).take (d.start p ip + r)) = d.wordsBefore p ip + words ((d.chunk ip i).take r) := by
  have hstart :
      d.start p ip = (ops d.entry ++ d.chunksFrom 0 (p.toList.take ip) : List (Piece ω β Label)).length := by
    rw [List.length_append, length_ops, start]
  rw [listing_eq h, hstart, List.take_length_add_append, List.take_append_of_le_length hr, words_append, words_append,
    words_ops, words_chunksFrom, wordsBefore]

theorem words_take_faultAt : words ((d.listing p).take (d.faultAt p)) = d.wordsBefore p p.size + d.exit.length := by
  have hstart : d.start p p.size = (ops d.entry ++ d.chunksFrom 0 p.toList : List (Piece ω β Label)).length := by
    rw [start, show p.size = p.toList.length from Array.length_toList.symm, List.take_length, List.length_append,
      length_ops]
  have hexit : (d.closing : List (Piece ω β Label)).take d.exit.length = ops d.exit := by
    rw [closing, List.take_left' (length_ops d.exit)]
  rw [listing, ← List.append_assoc, faultAt, hstart, List.take_length_add_append, hexit, words_append, words_append,
    words_ops, words_ops, words_chunksFrom, wordsBefore, show p.size = p.toList.length from Array.length_toList.symm,
    List.take_length]

/-! ### Branches -/

/-- The instruction at `ip` has a conditional branch, which goes `n` words ahead, to `l`. -/
inductive Branches (p : Program) (ip : Nat) : Label → Nat → Prop
  /-- To the stub, from behind the comparison. -/
  | move {delta : Int64} (h : p[ip]? = some (.move delta)) :
    Branches p ip .fault (d.wordsBefore p p.size + d.exit.length -
      (d.wordsBefore p ip + (d.count .move).length + (d.move delta).length))
  /-- Past the end of the loop, from behind the test. -/
  | loopBegin {close : Nat} (h : p[ip]? = some (.loopBegin close)) :
    Branches p ip (.after ip)
      (d.wordsBefore p (close + 1) - (d.wordsBefore p ip + (d.count .loopBegin).length + d.test.length))

theorem not_branch_ops {os : List ω} {k : Nat} {b : β} {l : Label} :
    (ops os : List (Piece ω β Label))[k]? ≠ some (.branch b l) := by
  rw [ops, List.getElem?_map]
  cases os[k]? <;> simp

theorem branch_of_append_ops {os : List ω} {qs : List (Piece ω β Label)} {k : Nat} {b : β} {l : Label}
    (h : (ops os ++ qs)[k]? = some (.branch b l)) : ∃ r, k = os.length + r ∧ qs[r]? = some (.branch b l) := by
  by_cases hk : k < os.length
  · rw [List.getElem?_append_left (by rwa [length_ops])] at h
    exact absurd h not_branch_ops
  · rw [List.getElem?_append_right (by rw [length_ops]; omega), length_ops] at h
    exact ⟨_, by omega, h⟩

/-- What a branch of an instruction can be, and where it stands. -/
inductive BranchAt (d : Dialect ω β) (ip : Nat) : Instruction → Nat → β → Label → Prop
  | move (delta : Int64) :
    BranchAt d ip (.move delta) (1 + (d.count .move).length + (d.move delta).length) d.ifOutside .fault
  | loopBegin (close : Nat) :
    BranchAt d ip (.loopBegin close) (1 + (d.count .loopBegin).length + 1 + d.test.length) d.ifZero (.after ip)
  | loopEnd (start : Nat) : BranchAt d ip (.loopEnd start) (1 + (d.count .loopEnd).length) d.always (.check start)

theorem branchAt_of_chunk {r : Nat} {b : β} {l : Label} (h : (d.chunk ip i)[r]? = some (.branch b l)) :
    d.BranchAt ip i r b l := by
  obtain _ | r := r
  · cases h
  rw [chunk, lead, List.getElem?_cons_succ] at h
  obtain ⟨r, rfl, ht⟩ := branch_of_append_ops h
  cases i with
  | move delta =>
    obtain ⟨r, rfl, hr⟩ := branch_of_append_ops ht
    obtain _ | r := r
    · cases hr
      rw [show (d.count (Instruction.move delta).kind).length + ((d.move delta).length + 0) + 1 =
        1 + (d.count .move).length + (d.move delta).length by simp only [Instruction.kind]; omega]
      exact .move delta
    · exact absurd hr not_branch_ops
  | loopBegin close =>
    obtain _ | r := r
    · cases ht
    rw [tail, List.getElem?_cons_succ] at ht
    obtain ⟨r, rfl, hr⟩ := branch_of_append_ops ht
    obtain _ | r := r
    · cases hr
      rw [show (d.count (Instruction.loopBegin close).kind).length + (d.test.length + 0 + 1) + 1 =
        1 + (d.count .loopBegin).length + 1 + d.test.length by simp only [Instruction.kind]; omega]
      exact .loopBegin close
    · simp at hr
  | loopEnd start =>
    obtain _ | _ | r := r
    · cases ht
      rw [show (d.count (Instruction.loopEnd start).kind).length + 0 + 1 = 1 + (d.count .loopEnd).length by
        simp only [Instruction.kind]; omega]
      exact .loopEnd start
    · cases ht
    · cases ht
  | add delta => exact absurd ht not_branch_ops
  | set value => exact absurd ht not_branch_ops
  | output => exact absurd ht not_branch_ops
  | input => simp [tail] at ht
  | halt => simp [tail] at ht

theorem words_take_move (ip : Nat) (delta : Int64) :
    words ((d.chunk ip (.move delta)).take (1 + (d.count .move).length + (d.move delta).length)) =
      (d.count .move).length + (d.move delta).length := by
  have hsplit : d.chunk ip (.move delta) = (.label (.instruction ip) :: (ops (d.count .move) ++ ops (d.move delta))) ++
      .branch d.ifOutside .fault :: ops d.reload := by simp [chunk, lead, tail, Instruction.kind]
  rw [hsplit, List.take_left' (by simp; omega)]
  simp

theorem words_take_loopBegin (ip close : Nat) :
    words ((d.chunk ip (.loopBegin close)).take (1 + (d.count .loopBegin).length + 1 + d.test.length)) =
      (d.count .loopBegin).length + d.test.length := by
  have hsplit : d.chunk ip (.loopBegin close) =
      (.label (.instruction ip) :: (ops (d.count .loopBegin) ++ .label (.check ip) :: ops d.test)) ++
        [.branch d.ifZero (.after ip)] := by simp [chunk, lead, tail, Instruction.kind]
  rw [hsplit, List.take_left' (by simp; omega)]
  simp

theorem words_take_loopEnd (ip start : Nat) :
    words ((d.chunk ip (.loopEnd start)).take (1 + (d.count .loopEnd).length + 1)) =
      (d.count .loopEnd).length + 1 := by
  have hsplit : d.chunk ip (.loopEnd start) =
      (.label (.instruction ip) :: (ops (d.count .loopEnd) ++ [.branch d.always (.check start)])) ++
        [.label (.after start)] := by simp [chunk, lead, tail, Instruction.kind]
  rw [hsplit, List.take_left' (by simp; omega)]
  simp

variable {d}

/-- A branch that is not the end of a loop goes as far as the program says. -/
theorem BranchAt.branches {r j : Nat} {b : β} {l : Label} (h : d.BranchAt ip i r b l) (hp : p.Linked)
    (hi : p[ip]? = some i) (hj : (d.listing p)[j]? = some (.label l)) :
    (∃ start, i = .loopEnd start ∧ b = d.always) ∨
      (b = d.ifOutside ∨ b = d.ifZero) ∧ ∃ n, d.Branches p ip l n ∧
        words ((d.listing p).take j) = words ((d.listing p).take (d.start p ip + r)) + n := by
  have hlt := (Array.getElem?_eq_some_iff.1 hi).1
  have hend := d.wordsBefore_mono (p := p) (show ip + 1 ≤ p.size from hlt)
  rw [d.wordsBefore_succ hi] at hend
  cases h with
  | loopEnd start => exact .inl ⟨start, rfl, rfl⟩
  | move delta =>
    refine .inr ⟨.inl rfl, _, .move hi, ?_⟩
    obtain rfl : j = d.faultAt p := label_place hj
    rw [words_take_faultAt, d.words_take_listing hi (by simp [chunk, lead, tail, Instruction.kind]; omega),
      words_take_move]
    simp only [instructionWords, Instruction.kind] at hend
    omega
  | loopBegin close =>
    refine .inr ⟨.inr rfl, _, .loopBegin hi, ?_⟩
    obtain ⟨hle, hclose⟩ := hp.close_of_loopBegin hi
    obtain rfl : j = d.afterAt p close := label_unique hp hj (label_after hclose)
    have hafter := d.wordsBefore_succ hclose
    have hbody := d.wordsBefore_mono (p := p) (show ip + 1 ≤ close from hle)
    rw [d.wordsBefore_succ hi] at hbody
    rw [afterAt, d.words_take_listing hclose (by simp [chunk, lead, tail, Instruction.kind]; omega),
      d.words_take_listing hi (by simp [chunk, lead, tail, Instruction.kind]; omega), words_take_loopBegin,
      words_take_loopEnd]
    simp only [instructionWords, Instruction.kind] at hafter hbody
    omega

theorem branchAt_of_listing {k : Nat} {b : β} {l : Label} (h : (d.listing p)[k]? = some (.branch b l)) :
    ∃ ip i r, p[ip]? = some i ∧ k = d.start p ip + r ∧ r < (d.chunk ip i).length ∧ d.BranchAt ip i r b l := by
  rcases getElem?_listing h with hr | ⟨ip, i, r, hip, rfl, hr⟩ | ⟨r, rfl, hr⟩
  · exact absurd hr not_branch_ops
  · exact ⟨ip, i, r, hip, rfl, (List.getElem?_eq_some_iff.1 hr).1, d.branchAt_of_chunk hr⟩
  · obtain ⟨r, rfl, ht⟩ := branch_of_append_ops hr
    obtain _ | r := r
    · cases ht
    · exact absurd ht not_branch_ops

/-- An instruction has one branch at most. -/
theorem BranchAt.unique {r r' : Nat} {b b' : β} {l l' : Label} (h : d.BranchAt ip i r b l)
    (h' : d.BranchAt ip i r' b' l') : r = r' ∧ b = b' ∧ l = l' := by
  cases h <;> cases h' <;> exact ⟨rfl, rfl, rfl⟩

theorem Branches.unique {l l' : Label} {n n' : Nat} (h : d.Branches p ip l n) (h' : d.Branches p ip l' n') :
    l = l' ∧ n = n' := by
  cases h with
  | move h =>
    cases h' with
    | move h' =>
      cases h.symm.trans h'
      exact ⟨rfl, rfl⟩
    | loopBegin h' => cases h.symm.trans h'
  | loopBegin h =>
    cases h' with
    | move h' => cases h.symm.trans h'
    | loopBegin h' =>
      cases h.symm.trans h'
      exact ⟨rfl, rfl⟩

theorem wordsBefore_le (d : Dialect ω β) (p : Program) (k : Nat) : d.wordsBefore p k ≤ d.wordsBefore p p.size := by
  rcases Nat.le_total k p.size with h | h
  · exact d.wordsBefore_mono h
  · refine Nat.le_of_eq ?_
    rw [wordsBefore, wordsBefore, List.take_of_length_le (by simpa using h), List.take_of_length_le (by simp)]

/-- No branch goes further than past all of the program and the exit. -/
theorem Branches.le {l : Label} {n : Nat} (h : d.Branches p ip l n) : n ≤ d.wordsBefore p p.size + d.exit.length := by
  cases h with
  | move h => exact Nat.sub_le _ _
  | @loopBegin close h =>
    exact Nat.le_trans (Nat.sub_le _ _) (Nat.le_trans (d.wordsBefore_le p _) (Nat.le_add_right _ _))

/-- A branch of the program is a piece of its code. -/
theorem Branches.exists_branchAt {l : Label} {n : Nat} (h : d.Branches p ip l n) :
    ∃ i r b, p[ip]? = some i ∧ d.BranchAt ip i r b l ∧ (b = d.ifOutside ∨ b = d.ifZero) ∧
      (d.chunk ip i)[r]? = some (.branch b l) := by
  cases h with
  | @move delta h =>
    refine ⟨_, _, _, h, .move delta, .inl rfl, ?_⟩
    rw [chunk, lead, show 1 + (d.count .move).length + (d.move delta).length =
      (d.count .move).length + (d.move delta).length + 1 by omega, List.getElem?_cons_succ,
      List.getElem?_append_right (by simp [Instruction.kind])]
    simp [Instruction.kind, tail]
  | @loopBegin close h =>
    refine ⟨_, _, _, h, .loopBegin close, .inr rfl, ?_⟩
    rw [chunk, lead, show 1 + (d.count .loopBegin).length + 1 + d.test.length =
      (d.count .loopBegin).length + (d.test.length + 1) + 1 by omega, List.getElem?_cons_succ,
      List.getElem?_append_right (by simp [Instruction.kind])]
    simp [Instruction.kind, tail]

end Dialect

namespace A64

variable {ps : List (Piece Op Branch Label)} {report : Label → Nat}

/-! ### Assembling branches -/

/-- A conditional branch goes less than so many words ahead. -/
def reach : Nat := 2 ^ 18

theorem offsetAt_eq (ps : List (Piece Op Branch Label)) (k : Nat) : offsetAt ps k = 4 * Dialect.words (ps.take k) := by
  induction ps generalizing k with
  | nil => rw [List.take_nil]; rfl
  | cons q ps ih =>
    obtain _ | k := k
    · rfl
    · rw [offsetAt, ih, List.take_succ_cons]
      cases q <;> simp only [width, Dialect.words_op, Dialect.words_branch, Dialect.words_label] <;> omega

/-- A branch is up to how far it goes. -/
theorem encode_branch (hps : Once ps) {j k : Nat} {b : Branch} {l : Label} {n : Int} (hj : ps[j]? = some (.label l))
    (hn : (Dialect.words (ps.take j) : Int) - Dialect.words (ps.take k) = n) :
    encode report (places ps.toArray) (offsetAt ps k) (.branch b l) =
      if b.reaches n then .ok (wordBytes (b.word n)) else .error (.outOfReach (report l)) := by
  have hplace : place (places ps.toArray) l = .ok (offsetAt ps j) := (place_eq_ok_iff hps l _).2 ⟨j, hj, rfl⟩
  have hwords : ((offsetAt ps j : Int) - offsetAt ps k) / 4 = n := by
    rw [offsetAt_eq, offsetAt_eq]
    omega
  rw [encode, hplace]
  show (if b.reaches (((offsetAt ps j : Int) - offsetAt ps k) / 4) then _ else _) = _
  rw [hwords]

/-- An unconditional branch reaches over all of a listing that is not too long. -/
theorem always_reaches {n : Int} (h : -2 ^ 25 ≤ n ∧ n < 2 ^ 25) : Branch.always.reaches n = true := by
  rw [Branch.reaches, Bool.and_eq_true, decide_eq_true_eq, decide_eq_true_eq]
  exact h

theorem conditional_reaches_iff {b : Branch} {n : Nat} (h : b = .above ∨ b = .equal) :
    b.reaches n = true ↔ n < reach := by
  have hwidth : b.width - 1 = 18 := by
    rcases h with rfl | rfl <;> rfl
  rw [Branch.reaches, Bool.and_eq_true, decide_eq_true_eq, decide_eq_true_eq, hwidth, reach]
  omega

variable (report) in
/-- The first piece that has no bytes decides the error. -/
theorem encodeTo_of_error (found : Std.HashMap Nat Nat) (code : Array UInt8) {k : Nat} {q : Piece Op Branch Label}
    {e : AssemblyError} (hk : ps[k]? = some q) (hq : encode report found (code.size + offsetAt ps k) q = .error e)
    (hbefore : ∀ (j : Nat) (q : Piece Op Branch Label), j < k → ps[j]? = some q →
      ∃ bytes, encode report found (code.size + offsetAt ps j) q = .ok bytes) :
    encodeTo report found code ps = .error e := by
  induction ps generalizing code k with
  | nil => cases hk
  | cons q' ps ih =>
    rw [encodeTo]
    obtain _ | k := k
    · cases hk
      rw [show encode report found code.size q = .error e from hq]
    · obtain ⟨bytes, hbytes⟩ := hbefore 0 q' (Nat.zero_lt_succ k) rfl
      have hgrown : (code ++ bytes).size = code.size + width q' := by
        rw [← Array.length_toList, Array.toList_appendList, List.length_append, Array.length_toList,
          encode_length hbytes]
      rw [show encode report found code.size q' = .ok bytes from hbytes]
      refine ih (code ++ bytes) hk ?_ fun j q hj hjq => ?_
      · rw [hgrown, Nat.add_assoc]
        exact hq
      · rw [hgrown, Nat.add_assoc]
        exact hbefore (j + 1) q (Nat.succ_lt_succ hj) hjq

theorem assemble_of_error (marks : Array Label) {k : Nat} {q : Piece Op Branch Label} {e : AssemblyError}
    (hk : ps[k]? = some q) (hq : encode report (places ps.toArray) (offsetAt ps k) q = .error e)
    (hbefore : ∀ (j : Nat) (q : Piece Op Branch Label), j < k → ps[j]? = some q →
      ∃ bytes, encode report (places ps.toArray) (offsetAt ps j) q = .ok bytes) :
    assemble report ps.toArray marks = .error e := by
  have hcode := encodeTo_of_error report (places ps.toArray) #[] hk (e := e)
    (by rwa [show (#[] : Array UInt8).size = 0 from rfl, Nat.zero_add])
    fun j q hj hjq => by
      rw [show (#[] : Array UInt8).size = 0 from rfl, Nat.zero_add]
      exact hbefore j q hj hjq
  rw [assemble, hcode]
  rfl

/-! ### Generating code -/

variable {p : Program} {options : CodeOptions} {ip : Nat} {l : Label} {n : Nat}

/-- The dialect that code is generated in. -/
def dialectFor (options : CodeOptions) : Dialect Op Branch :=
  dialect (options.capacity - 1) options.counting options.host

/-- The bytes that the code has for a piece that stands at `k`. -/
@[reducible]
def bytesAt (p : Program) (options : CodeOptions) (k : Nat) (q : Piece Op Branch Label) :
    Except AssemblyError (List UInt8) :=
  encode (reportNumber p) (places ((dialectFor options).listing p).toArray)
    (offsetAt ((dialectFor options).listing p) k) q

/-- So many instructions that an unconditional branch reaches over all of them. -/
def maxUnconditional : Nat := 2 ^ 20

theorem words_take_pieces_lt (options : CodeOptions) (hsize : p.size ≤ maxUnconditional) (k : Nat) :
    Dialect.words (((dialectFor options).listing p).take k) < 2 ^ 25 := by
  have hwords := Dialect.words_le_length (((dialectFor options).listing p).take k)
  have htake := List.length_take_le' k ((dialectFor options).listing p)
  have hlen := length_listing_le (options.capacity - 1) options.counting options.host p
  change ((dialectFor options).listing p).length ≤ _ at hlen
  rw [maxUnconditional] at hsize
  rw [maxChunk] at hlen
  omega

/-- A branch of the program that goes too far has no bytes. -/
theorem bytesAt_of_far (hp : p.Linked) (h : (dialectFor options).Branches p ip l n) (hfar : reach ≤ n) :
    ∃ i r b, p[ip]? = some i ∧ (dialectFor options).BranchAt ip i r b l ∧
      r < ((dialectFor options).chunk ip i).length ∧
      ((dialectFor options).listing p)[(dialectFor options).start p ip + r]? = some (.branch b l) ∧
      bytesAt p options ((dialectFor options).start p ip + r) (.branch b l) =
        .error (.outOfReach (reportNumber p l)) := by
  obtain ⟨i, r, b, hi, hat, hkind, hr⟩ := h.exists_branchAt
  have hk := (Dialect.located_chunk hi).get hr
  obtain ⟨j, hj⟩ := Dialect.label_of_branch hp hk
  refine ⟨i, r, b, hi, hat, (List.getElem?_eq_some_iff.1 hr).1, hk, ?_⟩
  rcases hat.branches hp hi hj with ⟨start, rfl, rfl⟩ | ⟨-, n', hn', hwords⟩
  · rcases hkind with hkind | hkind <;> cases hkind
  · obtain rfl := (h.unique hn').2
    rw [bytesAt, encode_branch (Machine.once_listing hp _) hj (n := n) (by omega), if_neg]
    rw [conditional_reaches_iff hkind]
    exact Nat.not_lt.2 hfar

variable (options) in
/-- A piece has its bytes, or else is a branch of the program that goes too far. -/
theorem exists_bytesAt_or_far {k : Nat} {q : Piece Op Branch Label} (hp : p.Linked)
    (hsize : p.size ≤ maxUnconditional) (hk : ((dialectFor options).listing p)[k]? = some q) :
    (∃ bytes, bytesAt p options k q = .ok bytes) ∨
      ∃ ip i r b l n, p[ip]? = some i ∧ k = (dialectFor options).start p ip + r ∧
        (dialectFor options).BranchAt ip i r b l ∧ (dialectFor options).Branches p ip l n ∧ reach ≤ n := by
  cases q with
  | op o => exact .inl ⟨_, rfl⟩
  | label l => exact .inl ⟨_, rfl⟩
  | branch b l =>
    obtain ⟨ip, i, r, hi, rfl, -, hat⟩ := Dialect.branchAt_of_listing hk
    obtain ⟨j, hj⟩ := Dialect.label_of_branch hp hk
    have hencode (n : Int) (hn : (Dialect.words (((dialectFor options).listing p).take j) : Int) -
        Dialect.words (((dialectFor options).listing p).take ((dialectFor options).start p ip + r)) = n)
        (hreaches : b.reaches n = true) :
        ∃ bytes, bytesAt p options ((dialectFor options).start p ip + r) (.branch b l) = .ok bytes :=
      ⟨_, (encode_branch (Machine.once_listing hp _) hj hn).trans (if_pos hreaches)⟩
    rcases hat.branches hp hi hj with ⟨start, rfl, rfl⟩ | ⟨hkind, n, hn, hwords⟩
    · have hgoal := words_take_pieces_lt (p := p) options hsize j
      have hhere := words_take_pieces_lt (p := p) options hsize ((dialectFor options).start p ip + r)
      exact .inl (hencode _ rfl (always_reaches ⟨by omega, by omega⟩))
    · by_cases hreach : n < reach
      · exact .inl (hencode n (by omega) ((conditional_reaches_iff hkind).2 hreach))
      · exact .inr ⟨ip, i, r, b, l, n, hi, rfl, hat, hn, Nat.le_of_not_lt hreach⟩

/-- A program has code if all of its conditional branches reach. -/
theorem generate_of_reaching (hp : p.Linked) (hc : p.Compilable) (hcapacity : 0 < options.capacity)
    (hsize : p.size ≤ maxUnconditional) (h : ∀ ip l n, (dialectFor options).Branches p ip l n → n < reach) :
    ∃ r, generate p options = .ok r := by
  obtain ⟨r, hr, -⟩ := exists_assemble_of_encode (reportNumber p) (instructionLabels p) (Machine.once_listing hp _)
    (fun k q hk => (exists_bytesAt_or_far options hp hsize hk).resolve_right
      fun ⟨ip, _, _, _, l, n, _, _, _, hn, hfar⟩ => Nat.not_lt.2 hfar (h ip l n hn))
    fun l hl => Dialect.label_of_mem_instructionLabels _ hl
  refine ⟨r, ?_⟩
  rw [generate_eq hp hc hcapacity]
  exact congrArg (Except.mapError Error.assembly) hr

/-- The first conditional branch that does not reach is what a program is refused for. -/
theorem generate_of_far (hp : p.Linked) (hc : p.Compilable) (hcapacity : 0 < options.capacity)
    (hsize : p.size ≤ maxUnconditional) (h : (dialectFor options).Branches p ip l n) (hfar : reach ≤ n)
    (hfirst : ∀ j < ip, ∀ m m', (dialectFor options).Branches p j m m' → m' < reach) :
    generate p options = .error (.assembly (.outOfReach (reportNumber p l))) := by
  obtain ⟨i, r, b, hi, hat, hr, hk, hbytes⟩ := bytesAt_of_far hp h hfar
  have hassemble := assemble_of_error (instructionLabels p) hk hbytes fun k q hlt hq =>
    (exists_bytesAt_or_far options hp hsize hq).resolve_right ?_
  · rw [generate_eq hp hc hcapacity]
    exact congrArg (Except.mapError Error.assembly) hassemble
  -- a branch before it that does not reach is one of an earlier instruction, or of the same
  · rintro ⟨ip', i', r', b', l', n', hi', rfl, hat', hn', hfar'⟩
    rcases Nat.lt_trichotomy ip' ip with hip | rfl | hip
    · exact Nat.not_lt.2 hfar' (hfirst ip' hip l' n' hn')
    · cases hi.symm.trans hi'
      have := (hat.unique hat').1
      omega
    · have hmono := Dialect.start_mono (d := dialectFor options) (p := p) (show ip + 1 ≤ ip' from hip)
      rw [Dialect.start_succ hi] at hmono
      omega

/-- A program has code exactly if all of its conditional branches reach. -/
theorem generate_ok_iff (hp : p.Linked) (hc : p.Compilable) (hcapacity : 0 < options.capacity)
    (hsize : p.size ≤ maxUnconditional) :
    (∃ r, generate p options = .ok r) ↔ ∀ ip l n, (dialectFor options).Branches p ip l n → n < reach := by
  refine ⟨fun ⟨r, hr⟩ ip => ?_, generate_of_reaching hp hc hcapacity hsize⟩
  -- if those of all instructions before reach and this one does not, the program is refused for it
  induction ip using Nat.strongRecOn with
  | ind ip ih =>
    intro l n h
    refine Nat.lt_of_not_le fun hfar => ?_
    rw [generate_of_far hp hc hcapacity hsize h hfar ih] at hr
    cases hr

end A64
end TapeLang
