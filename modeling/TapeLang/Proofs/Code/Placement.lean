import TapeLang.Proofs.Code.Disassembly
import TapeLang.Proofs.Nesting.Depth
import TapeLang.Proofs.Nesting.Matched

/-!
# What the code of a program reads as

`LaidOut`: code reads from its first byte to its last as the entry, the translations of the instructions one after
another, the exit and the stub. The offset of an instruction is where its translation starts, and branches go where
the nesting of the brackets says, whatever the loop targets of the program.

Translation follows the nesting as well (`Dialect.routine_congr`), so that code for a program is the code for the same
program linked (`Dialect.exists_linked_of_routine`). The labels of a linked program stand where its brackets point.
-/

namespace TapeLang

open Nesting (Balanced Partner depth)

/-- Where the instruction at an index starts. Behind the last one that is the exit. -/
def Routine.boundary (r : Routine) (exit ip : Nat) : Nat := r.offsets[ip]?.getD exit

namespace Dialect

variable {ω β : Type}

/-- What the code of an instruction reads as behind its count. A move that leaves the tape branches to `stub`, and a
bracket to `target`. -/
def body (d : Dialect ω β) (stub target : Nat) : Instruction → List (Text ω β)
  | .add delta => (d.add delta).map .op
  | .move delta => (d.move delta).map .op ++ .branch d.ifOutside stub :: d.reload.map .op
  | .output => d.output.map .op
  | .loopBegin _ => d.test.map .op ++ [.branch d.ifZero target]
  | .loopEnd _ => [.branch d.always target]
  | .set value => (d.set value).map .op
  | .input | .halt => []

/-- What the code of an instruction reads as. -/
def texts (d : Dialect ω β) (stub target : Nat) (i : Instruction) : List (Text ω β) :=
  (d.count i.kind).map .op ++ d.body stub target i

/-- What the code of instructions reads as, the first of which has index `ip`. -/
def textsFrom (d : Dialect ω β) (stub : Nat) (target : Nat → Nat) (ip : Nat) : List Instruction → List (Text ω β)
  | [] => []
  | i :: rest => d.texts stub (target ip) i ++ textsFrom d stub target (ip + 1) rest

/-- No translation is empty. -/
structure Solid (d : Dialect ω β) : Prop where
  add (delta : UInt8) : d.add delta ≠ []
  set (value : UInt8) : d.set value ≠ []
  output : d.output ≠ []

end Dialect

/-- Code that reads as the translation of a program: `exit` is where the exit starts, `stub` where the stub does, and
`target ip` is where the bracket at `ip` branches to. -/
structure LaidOut {ω β : Type} (d : Dialect ω β) (read : Nat → Option (Text ω β × Nat)) (p : Program) (r : Routine)
    (exit stub : Nat) (target : Nat → Nat) : Prop where
  balanced : Balanced Instruction.side? p.toList
  size_offsets : r.offsets.size = p.size
  increasing : r.offsets.toList.Pairwise (· < ·)
  inside : ∀ offset ∈ r.offsets, offset < r.code.size
  /-- Nothing else stands in the code. -/
  whole : disassemble read 0 r.code.size =
    some (d.entry.map .op ++ d.textsFrom stub target 0 p.toList ++ d.exit.map .op ++ d.fault.map .op)
  entry : disassemble read 0 (r.boundary exit 0) = some (d.entry.map .op)
  instruction {ip : Nat} {i : Instruction} (h : p[ip]? = some i) :
    disassemble read (r.boundary exit ip) (r.boundary exit (ip + 1)) = some (d.texts stub (target ip) i)
  closing : disassemble read exit stub = some (d.exit.map .op)
  fault : disassemble read stub r.code.size = some (d.fault.map .op)
  /-- A loop is left behind the branch back, which goes to the test, just behind the count. -/
  loop {ip jp : Nat} (h : Partner Instruction.side? p.toList ip jp) :
    target ip = r.boundary exit (jp + 1) ∧
      disassemble read (r.boundary exit ip) (target jp) = some ((d.count .loopBegin).map .op) ∧
      disassemble read (target jp) (r.boundary exit (ip + 1)) =
        some (d.test.map .op ++ [.branch d.ifZero (r.boundary exit (jp + 1))])

namespace Dialect

variable {ω β : Type} (d : Dialect ω β)

/-! ### Loop targets do not matter -/

@[simp] theorem texts_erase (stub target : Nat) (i : Instruction) : d.texts stub target i.erase = d.texts stub target i := by
  cases i <;> rfl

theorem textsFrom_map_erase (stub : Nat) (target : Nat → Nat) (ip : Nat) (l : List Instruction) :
    d.textsFrom stub target ip (l.map .erase) = d.textsFrom stub target ip l := by
  induction l generalizing ip with
  | nil => rfl
  | cons i l ih => rw [List.map_cons, textsFrom, textsFrom, texts_erase, ih]

theorem instruction_erase (ip : Nat) (pending : List Nat) (i : Instruction) :
    d.instruction ip pending i.erase = d.instruction ip pending i := by
  cases i <;> rfl

theorem bodyFrom_map_erase (ip : Nat) (pending : List Nat) (pieces : Array (Piece ω β Label)) (l : List Instruction) :
    d.bodyFrom ip pending pieces (l.map .erase) = d.bodyFrom ip pending pieces l := by
  induction l generalizing ip pending pieces with
  | nil => rfl
  | cons i l ih =>
    rw [List.map_cons, bodyFrom, bodyFrom, instruction_erase]
    split
    · exact ih _ _ _
    · rfl

variable {p q : Program}

theorem routine_congr (h : q.toList.map Instruction.erase = p.toList.map Instruction.erase) :
    d.routine q = d.routine p := by
  rw [routine, routine, ← bodyFrom_map_erase, h, bodyFrom_map_erase]

/-- Translation ends with no loop open and gets no bracket that closes nothing. -/
theorem depth_of_bodyFrom {ip : Nat} {pending : List Nat} {pieces ps : Array (Piece ω β Label)} {l : List Instruction}
    (h : d.bodyFrom ip pending pieces l = .ok ps) : depth Instruction.side? pending.length l = some 0 := by
  induction l generalizing ip pending pieces with
  | nil =>
    rw [bodyFrom] at h
    split at h
    · rename_i hpending
      rw [hpending]
      rfl
    · cases h
  | cons i l ih =>
    rw [bodyFrom] at h
    split at h
    · rename_i t ht
      have hrest := ih h
      cases i with
      | loopEnd start =>
        cases pending with
        | nil => cases ht
        | cons opened pending =>
          cases ht
          exact hrest
      | input => cases ht
      | halt => cases ht
      | _ =>
        cases ht
        exact hrest
    · cases h

/-- What can be translated is a linked program, up to its loop targets. -/
theorem exists_linked_of_routine {ps : Array (Piece ω β Label)} (h : d.routine p = .ok ps) :
    ∃ q : Program, q.Linked ∧ q.toList.map Instruction.erase = p.toList.map Instruction.erase := by
  have hp : Balanced Instruction.side? p.toList := by
    rw [routine] at h
    cases hbody : d.bodyFrom 0 [] (ops d.entry).toArray p.toList with
    | error e => rw [hbody] at h; cases h
    | ok body => exact Nesting.balanced_iff_depth.2 (d.depth_of_bodyFrom hbody)
  obtain ⟨q, -, hq, herase⟩ := Program.link_of_nested (Nesting.nested_iff_balanced.2 hp)
  exact ⟨q, hq, herase⟩

variable {d} {stub t : Nat} {i : Instruction}

theorem Solid.texts_ne_nil (hd : d.Solid) (hi : i.Compilable) : d.texts stub t i ≠ [] := by
  intro h
  have hbody : d.body stub t i = [] := (List.append_eq_nil_iff.1 h).2
  cases i with
  | add delta => exact hd.add delta (List.map_eq_nil_iff.1 hbody)
  | set value => exact hd.set value (List.map_eq_nil_iff.1 hbody)
  | output => exact hd.output (List.map_eq_nil_iff.1 hbody)
  | input => exact hi.1 rfl
  | halt => exact hi.2 rfl
  | _ => simp [body] at hbody

/-! ### Reading the listing of a linked program -/

variable {read : Nat → Option (Text ω β × Nat)} {offset : Nat → Nat}

/-- The label that the branch of a bracket goes to. -/
def GoesTo (ps : List (Piece ω β Label)) (j ip : Nat) : Instruction → Prop
  | .loopBegin _ => ps[j]? = some (.label (.after ip))
  | .loopEnd start => ps[j]? = some (.label (.check start))
  | _ => True

/-- The pieces of an instruction behind its count read as its body. -/
theorem disassemble_tail {ps : List (Piece ω β Label)} (h : Readable read ps offset) {f j k ip : Nat}
    (hf : ps[f]? = some (.label .fault)) (hj : GoesTo ps j ip i) (ht : Located ps k (d.tail ip i)) :
    disassemble read (offset k) (offset (k + (d.tail ip i).length)) = some (d.body (offset f) (offset j) i) := by
  cases i with
  | add delta => rw [tail, length_ops]; exact h.ops ht
  | set value => rw [tail, length_ops]; exact h.ops ht
  | output => rw [tail, length_ops]; exact h.ops ht
  | move delta =>
    obtain ⟨hmove, hbranch, hreload⟩ := Located.append_iff.1 ht
    rw [length_ops] at hbranch hreload
    have hread := disassemble_append (h.ops hmove) (disassemble_append (h.branch_one hbranch hf) (h.ops hreload))
    rwa [show k + (d.move delta).length + 1 + d.reload.length = k + (d.tail ip (.move delta)).length by
      simp only [tail, List.length_append, List.length_cons, length_ops]; omega] at hread
  | loopBegin close =>
    obtain ⟨htest, hbranch, -⟩ := Located.append_iff.1 ht.2
    rw [length_ops] at hbranch
    have hread := disassemble_append (h.ops_behind ⟨ht.1, htest⟩) (h.branch_one hbranch hj)
    rwa [show k + 1 + d.test.length + 1 = k + (d.tail ip (.loopBegin close)).length by
      simp only [tail, List.length_append, List.length_cons, List.length_nil, length_ops]; omega] at hread
  | loopEnd start =>
    rw [show k + (d.tail ip (.loopEnd start)).length = k + 1 + 1 from rfl, h.label ht.2.1]
    exact h.branch_one ht.1 hj
  | input => exact disassemble_self read _
  | halt => exact disassemble_self read _

/-- The pieces of an instruction read as its count. -/
theorem disassemble_count (h : Readable read (d.listing q) offset) {ip : Nat} (hi : q[ip]? = some i) :
    disassemble read (offset (d.start q ip)) (offset (d.start q ip + (1 + (d.count i.kind).length))) =
      some ((d.count i.kind).map .op) := by
  obtain ⟨hlabel, hrest⟩ := located_chunk hi
  rw [← Nat.add_assoc]
  exact h.ops_behind ⟨hlabel, (Located.append_iff.1 hrest).1⟩

/-- The pieces of an instruction behind its count, up to those of the next one. -/
theorem disassemble_body (h : Readable read (d.listing q) offset) {ip j : Nat} (hi : q[ip]? = some i)
    (hj : GoesTo (d.listing q) j ip i) :
    disassemble read (offset (d.start q ip + (1 + (d.count i.kind).length))) (offset (d.start q (ip + 1))) =
      some (d.body (offset (d.faultAt q)) (offset j) i) := by
  have htail := (Located.append_iff.1 (located_chunk (d := d) hi).2).2
  rw [length_ops] at htail
  have hread := disassemble_tail h label_fault hj htail
  rwa [Nat.add_assoc (d.start q ip) 1, show d.start q ip + (1 + (d.count i.kind).length) + (d.tail ip i).length =
    d.start q (ip + 1) by rw [start_succ hi, chunk, lead, List.length_cons, List.length_append, length_ops]; omega]
    at hread

/-- The piece that the branch of the bracket at `ip` goes to. -/
def targetAt (d : Dialect ω β) (q : Program) (ip : Nat) : Nat :=
  match q[ip]? with
  | some (.loopBegin close) => d.afterAt q close
  | some (.loopEnd start) => d.checkAt q start
  | _ => 0

theorem goesTo_targetAt (hq : q.Linked) {ip : Nat} (hi : q[ip]? = some i) :
    GoesTo (d.listing q) (d.targetAt q ip) ip i := by
  rw [targetAt, hi]
  cases i with
  | loopBegin close => exact label_after (hq.close_of_loopBegin hi).2
  | loopEnd start => exact label_check (hq.open_of_loopEnd hi).2
  | _ => trivial

/-- A loop is left for what follows it. -/
theorem offset_afterAt (h : Readable read (d.listing q) offset) {jp s : Nat} (hj : q[jp]? = some (.loopEnd s)) :
    offset (d.afterAt q jp) = offset (d.start q (jp + 1)) := by
  rw [← h.label (label_after hj), start_succ hj, chunk, lead, List.length_cons, List.length_append, length_ops]
  congr 1
  simp only [afterAt, tail, Instruction.kind, List.length_cons, List.length_nil]
  omega

/-- Instructions one after another, each of which reads as its translation. -/
theorem disassemble_textsFrom {boundary target : Nat → Nat} {ip : Nat} {l : List Instruction}
    (h : ∀ k i, l[k]? = some i → disassemble read (boundary (ip + k)) (boundary (ip + k + 1)) =
      some (d.texts stub (target (ip + k)) i)) :
    disassemble read (boundary ip) (boundary (ip + l.length)) = some (d.textsFrom stub target ip l) := by
  induction l generalizing ip with
  | nil => exact disassemble_self read _
  | cons i l ih =>
    have hrest := @ih (ip + 1) fun k i hk => by
      have := h (k + 1) i hk
      rwa [show ip + (k + 1) = ip + 1 + k by omega] at this
    rw [List.length_cons, show ip + (l.length + 1) = ip + 1 + l.length by omega]
    exact disassemble_append (h 0 i rfl) hrest

section Linked

variable (hq : q.Linked) (h : Readable read (d.listing q) offset)
include h

theorem disassemble_entry : disassemble read 0 (offset (d.start q 0)) = some (d.entry.map .op) := by
  have hread := h.ops located_entry
  rwa [h.zero, Nat.zero_add] at hread

theorem disassemble_exit :
    disassemble read (offset (d.start q q.size)) (offset (d.faultAt q)) = some (d.exit.map .op) :=
  h.ops (Located.append_iff.1 (located_closing (d := d) (p := q))).1

/-- The stub is the last of the code. -/
theorem disassemble_fault :
    disassemble read (offset (d.faultAt q)) (offset (d.listing q).length) = some (d.fault.map .op) := by
  have hlocated := (Located.append_iff.1 (located_closing (d := d) (p := q))).2
  rw [length_ops] at hlocated
  have hread := h.ops_behind hlocated
  rwa [show d.start q q.size + d.exit.length + 1 + d.fault.length = (d.listing q).length by
    rw [length_listing, closing, List.length_append, List.length_cons, length_ops, length_ops]
    omega] at hread

include hq

theorem disassemble_instruction {ip : Nat} (hi : q[ip]? = some i) :
    disassemble read (offset (d.start q ip)) (offset (d.start q (ip + 1))) =
      some (d.texts (offset (d.faultAt q)) (offset (d.targetAt q ip)) i) :=
  disassemble_append (disassemble_count h hi) (disassemble_body h hi (goesTo_targetAt hq hi))

/-- The instructions from an index on, up to the exit. -/
theorem disassemble_instructions (ip : Nat) (hip : ip ≤ q.size) :
    disassemble read (offset (d.start q ip)) (offset (d.start q q.size)) =
      some (d.textsFrom (offset (d.faultAt q)) (fun ip => offset (d.targetAt q ip)) ip (q.toList.drop ip)) := by
  have hread := @disassemble_textsFrom ω β d (offset (d.faultAt q)) read (fun ip => offset (d.start q ip))
    (fun ip => offset (d.targetAt q ip)) ip (q.toList.drop ip) fun k i hk => by
      rw [List.getElem?_drop, Array.getElem?_toList] at hk
      exact disassemble_instruction hq h hk
  rwa [List.length_drop, Array.length_toList, show ip + (q.size - ip) = q.size by omega] at hread

/-- No instruction is translated to nothing. -/
theorem offset_start_lt_succ (hd : d.Solid) (hc : q.Compilable) {ip : Nat} (hip : ip < q.size) :
    offset (d.start q ip) < offset (d.start q (ip + 1)) := by
  have hi : q[ip]? = some q[ip] := Array.getElem?_eq_getElem hip
  exact lt_of_disassemble (disassemble_instruction hq h hi) (hd.texts_ne_nil (hc ip _ hi))

end Linked

end Dialect

namespace LaidOut

variable {ω β : Type} {d : Dialect ω β} {read : Nat → Option (Text ω β × Nat)} {p q : Program} {r : Routine}

/-- Code that reads as the listing of a linked program. -/
theorem of_readable {offset : Nat → Nat} (hd : d.Solid) (hq : q.Linked) (hc : q.Compilable)
    (h : Readable read (d.listing q) offset) (hsize : offset (d.listing q).length = r.code.size)
    (hcount : r.offsets.size = q.size) (hoffsets : ∀ ip < q.size, r.offsets[ip]? = some (offset (d.start q ip))) :
    LaidOut d read q r (offset (d.start q q.size)) (offset (d.faultAt q)) fun ip => offset (d.targetAt q ip) := by
  have hboundary : ∀ ip ≤ q.size, r.boundary (offset (d.start q q.size)) ip = offset (d.start q ip) := by
    intro ip hip
    rcases Nat.lt_or_eq_of_le hip with hlt | rfl
    · rw [Routine.boundary, hoffsets ip hlt, Option.getD_some]
    · rw [Routine.boundary, Array.getElem?_eq_none (by omega), Option.getD_none]
  have hget (ip : Nat) (hip : ip < r.offsets.size) : r.offsets[ip] = offset (d.start q ip) := by
    have hsome := hoffsets ip (hcount ▸ hip)
    rwa [Array.getElem?_eq_getElem hip, Option.some.injEq] at hsome
  have hlt {ip : Nat} {i : Instruction} (hi : q[ip]? = some i) : ip < q.size := (Array.getElem?_eq_some_iff.1 hi).1
  have hexit := Dialect.disassemble_exit h
  have hfault := Dialect.disassemble_fault h
  rw [hsize] at hfault
  refine ⟨hq.nested.balanced, hcount, ?_, ?_, ?_, ?_, ?_, hexit, hfault, ?_⟩
  · refine List.isChain_iff_pairwise.1 (List.isChain_iff_getElem.2 fun ip hip => ?_)
    rw [Array.length_toList] at hip
    rw [Array.getElem_toList, Array.getElem_toList, hget ip (by omega), hget (ip + 1) (by omega)]
    exact Dialect.offset_start_lt_succ hq h hd hc (by omega)
  · intro a ha
    obtain ⟨ip, hip, rfl⟩ := Array.mem_iff_getElem.1 ha
    rw [hget ip hip]
    rw [hcount] at hip
    have hgrows := Dialect.offset_start_lt_succ hq h hd hc hip
    have hle := add_length_le_of_disassemble (Dialect.disassemble_instructions hq h (ip + 1) hip)
    have hleExit := add_length_le_of_disassemble hexit
    have hleFault := add_length_le_of_disassemble hfault
    omega
  · have hinstructions := Dialect.disassemble_instructions hq h 0 (Nat.zero_le _)
    exact disassemble_append
      (disassemble_append (disassemble_append (Dialect.disassemble_entry h) hinstructions) hexit) hfault
  · rw [hboundary 0 (Nat.zero_le _)]
    exact Dialect.disassemble_entry h
  · intro ip i hi
    rw [hboundary ip (Nat.le_of_lt (hlt hi)), hboundary (ip + 1) (hlt hi)]
    exact Dialect.disassemble_instruction hq h hi
  · intro ip jp hpair
    obtain ⟨hbegin, hend⟩ := hq.matched.brackets_of_partner hpair
    have hafter := Dialect.offset_afterAt h hend
    have htargetBegin : d.targetAt q ip = d.afterAt q jp := by rw [Dialect.targetAt, hbegin]
    have htargetEnd : d.targetAt q jp = d.checkAt q ip := by rw [Dialect.targetAt, hend]
    rw [htargetBegin, htargetEnd, hboundary ip (Nat.le_of_lt (hlt hbegin)), hboundary (ip + 1) (hlt hbegin),
      hboundary (jp + 1) (hlt hend), ← hafter]
    have hbody := Dialect.disassemble_body h hbegin (Dialect.goesTo_targetAt hq hbegin)
    rw [htargetBegin] at hbody
    exact ⟨rfl, Dialect.disassemble_count h hbegin, hbody⟩

/-- Code for a program is code for every program with the same instructions, whatever their loop targets. -/
theorem of_map_erase {exit stub : Nat} {target : Nat → Nat} (h : LaidOut d read q r exit stub target)
    (herase : q.toList.map Instruction.erase = p.toList.map Instruction.erase) :
    LaidOut d read p r exit stub target := by
  have hsides := Instruction.map_side?_eq_of_map_erase herase
  have hsize : q.size = p.size := by simpa using congrArg List.length herase
  refine ⟨h.balanced.of_map_side hsides, h.size_offsets.trans hsize, h.increasing, h.inside, ?_, h.entry, ?_, h.closing,
    h.fault, fun hpair => h.loop (hpair.of_map_side hsides.symm)⟩
  · rw [← d.textsFrom_map_erase, ← herase, d.textsFrom_map_erase]
    exact h.whole
  · intro ip i hi
    obtain ⟨j, hj, hij⟩ := Program.exists_erase_eq herase hi
    rw [h.instruction hj, ← d.texts_erase, hij, d.texts_erase]

/-- The branch of a closing bracket goes back to the test of its loop. -/
theorem loopEnd {exit stub : Nat} {target : Nat → Nat} (h : LaidOut d read p r exit stub target) {ip jp : Nat}
    (hpair : Partner Instruction.side? p.toList ip jp) :
    disassemble read (r.boundary exit jp) (r.boundary exit (jp + 1)) =
      some ((d.count .loopEnd).map .op ++ [.branch d.always (target jp)]) := by
  obtain ⟨-, i, hi, hside⟩ := hpair.exists_sides
  obtain ⟨start, rfl⟩ := Instruction.eq_loopEnd_of_side? hside
  exact h.instruction (Array.getElem?_toList ▸ hi)

end LaidOut

end TapeLang
