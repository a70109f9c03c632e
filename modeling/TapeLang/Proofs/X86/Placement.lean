import TapeLang.Proofs.Code.Placement
import TapeLang.Proofs.X86.Acceptance
import TapeLang.Proofs.X86.Correctness

/-!
# What x86-64 code reads as

Whatever sizes the layout chose for the branches, code that was generated reads as the translation of its program,
with nothing left over, and the branches go where the nesting says (`generate_laidOut`). What stands at a branch is
written out as well (`Branches`).
-/

namespace TapeLang.X86

open Nesting (Partner)

/-- An instruction as it is read in front of the address `next`, which displacements count from. -/
def Instr.text (next : Nat) : Instr → Text Op Branch
  | op o => .op o
  | branch b displacement => .branch b (next + displacement)

/-- The instruction at an address of code, and the address behind it. -/
def readAt? (code : Array UInt8) (address : Nat) : Option (Text Op Branch × Nat) :=
  (decode (code.toList.drop address)).map fun (i, rest) =>
    let next := code.size - rest.length
    (i.text next, next)

theorem readAt?_eq {code : Array UInt8} {address next : Nat} {bytes rest : List UInt8} {i : Instr}
    (hdrop : code.toList.drop address = bytes ++ rest) (hle : address ≤ code.size)
    (hnext : next = address + bytes.length) (hdecode : decode (bytes ++ rest) = some (i, rest)) :
    readAt? code address = some (i.text next, next) := by
  have hlen := congrArg List.length hdrop
  rw [List.length_drop, Array.length_toList, List.length_append] at hlen
  rw [readAt?, hdrop, hdecode, show next = code.size - rest.length by omega]
  rfl

/-- Assembled code reads as its pieces. -/
theorem Assembled.readable {ps : List (Piece Op Branch Label)} {code : Array UInt8} {offset : Nat → Nat}
    (h : Assembled ps code offset) : Readable (readAt? code) ps offset where
  zero := h.zero
  op {k o} hk := by
    obtain ⟨hindexed, hnext, rest, hdrop⟩ := h.op hk
    have hpos := (length_encode o).1
    exact ⟨by omega, readAt?_eq hdrop (h.le k) hnext (decode_encode o hindexed rest)⟩
  branch {j k b l} hk hj := by
    obtain ⟨size, displacement, hsize, hholds, hnext, ⟨rest, hdrop⟩, htarget⟩ := h.branch hk
    have hlen := length_branch b hsize displacement
    have hpos : 0 < size := by
      rcases hsize with rfl | rfl
      · decide
      · cases b <;> decide
    refine ⟨by omega, ?_⟩
    rw [readAt?_eq hdrop (h.le k) (hlen ▸ hnext) (decode_branch b hholds rest), Instr.text, htarget j hj,
      show (offset (k + 1) : Int) + (offset j - offset (k + 1)) = offset j by omega]
  label hk := h.label hk

theorem dialect_solid (last : Int32) (counting : Bool) (host : HostCalls) : (dialect last counting host).Solid where
  add _ := List.cons_ne_nil _ _
  set value := by
    show (if value = 0 then [Op.zero .r8] else [.movImm8 (.low .r8) value]) ≠ []
    split <;> simp
  output := by simp [dialect]

variable {p q : Program} {options : CodeOptions}

/-- Code does not depend on the loop targets of a program. -/
theorem generate_congr (h : q.toList.map Instruction.erase = p.toList.map Instruction.erase) :
    generate q options = generate p options := by
  have hsize : q.size = p.size := by simpa using congrArg List.length h
  rw [generate, generate, instructionLabels, instructionLabels, hsize]
  split
  · rfl
  · rw [Dialect.routine_congr _ h]

/-- A program that code is generated for is a linked one up to its loop targets. -/
theorem exists_linked_of_generate {r : Routine} (h : generate p options = .ok r) :
    ∃ q : Program, q.Linked ∧ q.toList.map Instruction.erase = p.toList.map Instruction.erase := by
  rw [generate] at h
  split at h
  · cases h
  · rename_i last _
    cases hroutine : (dialect last options.counting options.host).routine p with
    | error e => rw [hroutine] at h; cases h
    | ok ps => exact Dialect.exists_linked_of_routine _ hroutine

/-- The instructions that add one to the counter of a kind, where there are counters. -/
def counted (counting : Bool) (k : Kind) : List (Text Op Branch) :=
  if counting then
    [.op (.load64 .r11 .r10 (Int32.ofNat (Counters.slot k))), .op (.addImm .r11 1),
      .op (.store64 .r10 (Int32.ofNat (Counters.slot k)) .r11)]
  else []

/-- What the code of a program reads as at its branches. -/
structure Branches (last : Int32) (counting : Bool) (p : Program) (r : Routine) (exit stub : Nat)
    (target : Nat → Nat) : Prop where
  /-- A loop compares the cached cell with zero behind its count, and is left for what follows its closing bracket. -/
  opening {ip jp : Nat} (h : Partner Instruction.side? p.toList ip jp) :
    disassemble (readAt? r.code) (r.boundary exit ip) (target jp) = some (counted counting .loopBegin) ∧
      disassemble (readAt? r.code) (target jp) (r.boundary exit (ip + 1)) =
        some [.op (.cmpImm8 (.low .r8) 0), .branch .equal (r.boundary exit (jp + 1))]
  /-- The closing bracket goes back to the comparison. -/
  closing {ip jp : Nat} (h : Partner Instruction.side? p.toList ip jp) :
    disassemble (readAt? r.code) (r.boundary exit jp) (r.boundary exit (jp + 1)) =
      some (counted counting .loopEnd ++ [.branch .always (target jp)])
  /-- A move goes to the stub if the new index is above the last one. -/
  move {ip : Nat} {delta : Int64} (h : p[ip]? = some (.move delta)) :
    disassemble (readAt? r.code) (r.boundary exit ip) (r.boundary exit (ip + 1)) =
      some (counted counting .move ++ (.op (.store8 .rcx .rdx (.low .r8)) :: (Op.addWord .rdx delta .r11).map .op ++
        [.op (.cmpImm .rdx last), .branch .above stub, .op (.load8 (.low .r8) .rcx .rdx)]))

theorem map_count (last : Int32) (counting : Bool) (host : HostCalls) (k : Kind) :
    ((dialect last counting host).count k).map .op = counted counting k := by
  cases counting <;> rfl

theorem branches_of_laidOut {last : Int32} {counting : Bool} {host : HostCalls} {r : Routine} {exit stub : Nat}
    {target : Nat → Nat} (h : LaidOut (dialect last counting host) (readAt? r.code) p r exit stub target) :
    Branches last counting p r exit stub target where
  opening hpair := by
    obtain ⟨-, hcount, htest⟩ := h.loop hpair
    rw [map_count] at hcount
    exact ⟨hcount, htest⟩
  closing hpair := by
    have hend := h.loopEnd hpair
    rwa [map_count] at hend
  move {ip delta} hi := by
    have hmove := h.instruction hi
    rw [Dialect.texts, Instruction.kind, map_count, Dialect.body] at hmove
    rw [hmove]
    simp [dialect]

theorem exists_laidOut {r : Routine} (h : generate p options = .ok r) :
    ∃ last exit stub target, lastIndex? options.capacity = some last ∧
      LaidOut (dialect last options.counting options.host) (readAt? r.code) p r exit stub target := by
  obtain ⟨q, hq, herase⟩ := exists_linked_of_generate h
  rw [← generate_congr herase] at h
  obtain ⟨last, offset, hlast, hcompilable, hassembled, hcount, hoffsets⟩ := generate_ok hq h
  have hlaid := LaidOut.of_readable (dialect_solid last options.counting options.host) hq hcompilable
    hassembled.readable hassembled.size hcount hoffsets
  exact ⟨last, _, _, _, hlast, hlaid.of_map_erase herase⟩

/-- Code for any program, whatever its loop targets, reads as the translation of the program. -/
theorem generate_laidOut {r : Routine} (h : generate p options = .ok r) :
    ∃ last exit stub target, lastIndex? options.capacity = some last ∧
      LaidOut (dialect last options.counting options.host) (readAt? r.code) p r exit stub target ∧
      Branches last options.counting p r exit stub target := by
  obtain ⟨last, exit, stub, target, hlast, hlaid⟩ := exists_laidOut h
  exact ⟨last, exit, stub, target, hlast, hlaid, branches_of_laidOut hlaid⟩

/-- A loop with targets that point nowhere, with counters, on a tape of two cells. -/
theorem generate_laidOut_stale :
    ∃ r last exit stub target,
      generate #[.loopBegin 9, .output, .loopEnd 7, .move 1] ⟨2, true, Engine.environment.host⟩ = .ok r ∧
      lastIndex? 2 = some last ∧
      LaidOut (dialect last true Engine.environment.host) (readAt? r.code)
        #[.loopBegin 9, .output, .loopEnd 7, .move 1] r exit stub target ∧
      target 0 = r.boundary exit 3 := by
  have hlinked := Program.linked_of_block (.loop (.act .output .done) (.act (.move 1) .done))
  have hcompilable : Program.Compilable #[.loopBegin 2, .output, .loopEnd 0, .move 1] := by
    refine Dialect.mem_compilable.2 ?_
    simp [Instruction.Compilable]
  obtain ⟨r, hr, -⟩ := generate_accepts ⟨2, true, Engine.environment.host⟩ hlinked hcompilable (by decide) (by decide)
  have hstale : generate #[.loopBegin 9, .output, .loopEnd 7, .move 1] ⟨2, true, Engine.environment.host⟩ = .ok r := by
    rw [← hr]
    exact generate_congr rfl
  obtain ⟨last, exit, stub, target, hlast, hlaid, -⟩ := generate_laidOut hstale
  refine ⟨r, last, exit, stub, target, hstale, hlast, hlaid, (hlaid.loop ?_).1⟩
  exact ⟨[], _, [.output], _, [.move 1], rfl, rfl, rfl, Nesting.balanced_iff_depth.2 rfl, rfl, rfl⟩

end TapeLang.X86
