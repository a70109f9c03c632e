import TapeLang.Proofs.A64.Acceptance
import TapeLang.Proofs.A64.Correctness
import TapeLang.Proofs.Code.Placement

/-!
# What AArch64 code reads as

Code that was generated is a sequence of words that read as the translation of its program, with nothing left over,
and the branches go where the nesting says (`laidOut_of_generate`). What stands at a branch is written out as well
(`Branches`).
-/

namespace TapeLang.A64

open Nesting (Partner)

/-- An instruction as it is read at an address, which displacements count from. -/
def Instr.text (address : Nat) : Instr → Text Op Branch
  | op o => .op o
  | branch b words => .branch b (address + 4 * words)

/-- The instruction at an address of code, and the address of the word behind it. -/
def readAt? (code : Array UInt8) (address : Nat) : Option (Text Op Branch × Nat) :=
  ((Machine.fetch? code address).bind decode).map fun i => (i.text address, address + 4)

/-- Assembled code reads as its pieces. -/
theorem Assembled.readable {ps : List (Piece Op Branch Label)} {code : Array UInt8} (hps : Once ps)
    (h : Assembled ps code) : Readable (readAt? code) ps (offsetAt ps) where
  zero := offsetAt_zero ps
  op {k o} hk := by
    obtain ⟨rest, hdrop⟩ := h.op hk
    obtain ⟨hdecode, hword⟩ := decode_word o
    have hnext : offsetAt ps (k + 1) = offsetAt ps k + 4 := offsetAt_succ hk
    rw [hnext, readAt?, Machine.fetch_eq hword hdrop, Option.bind_some, hdecode]
    exact ⟨by omega, rfl⟩
  branch {j k b l} hk hj := by
    obtain ⟨words, j', hreaches, hj', hwords, rest, hdrop⟩ := h.branch hk
    obtain rfl := hps j j' l hj hj'
    obtain ⟨hdecode, hword⟩ := decode_branch hreaches
    have hnext : offsetAt ps (k + 1) = offsetAt ps k + 4 := offsetAt_succ hk
    rw [hnext, readAt?, Machine.fetch_eq hword hdrop, Option.bind_some, hdecode, Option.map_some, Instr.text, hwords,
      show (offsetAt ps k : Int) + (offsetAt ps j - offsetAt ps k) = offsetAt ps j by omega]
    exact ⟨by omega, rfl⟩
  label hk := offsetAt_succ hk

theorem dialect_solid (last : Nat) (counting : Bool) (host : HostCalls) : (dialect last counting host).Solid where
  add _ := List.cons_ne_nil _ _
  set _ := List.cons_ne_nil _ _
  output := by simp [dialect]

variable {p q : Program} {options : CodeOptions}

/-- The number that an error gives a label is no matter of the loop targets. -/
theorem reportNumber_congr (h : q.toList.map Instruction.erase = p.toList.map Instruction.erase) :
    reportNumber q = reportNumber p := by
  have hopenings (ip : Nat) : openings q ip = openings p ip := by
    have hcount (r : Program) : openings r ip =
        ((r.toList.map Instruction.erase).take ip).countP (·.kind = .loopBegin) := by
      rw [openings, ← Array.countP_toList, Array.toList_extract, List.extract_eq_take_drop, Nat.sub_zero, List.drop_zero,
        ← List.map_take, List.countP_map]
      refine List.countP_congr fun i _ => ?_
      cases i <;> rfl
    rw [hcount, hcount, h]
  funext l
  cases l <;> simp only [reportNumber, hopenings]

/-- Code does not depend on the loop targets of a program. -/
theorem generate_congr (h : q.toList.map Instruction.erase = p.toList.map Instruction.erase) :
    generate q options = generate p options := by
  have hsize : q.size = p.size := by simpa using congrArg List.length h
  rw [generate, generate, instructionLabels, instructionLabels, hsize, reportNumber_congr h, Dialect.routine_congr _ h]

/-- A program that code is generated for is a linked one up to its loop targets. -/
theorem exists_linked_of_generate {r : Routine} (h : generate p options = .ok r) :
    ∃ q : Program, q.Linked ∧ q.toList.map Instruction.erase = p.toList.map Instruction.erase := by
  rw [generate] at h
  split at h
  · cases h
  · cases hroutine : (dialect (options.capacity - 1) options.counting options.host).routine p with
    | error e => rw [hroutine] at h; cases h
    | ok ps => exact Dialect.exists_linked_of_routine _ hroutine

/-- The instructions that add one to the counter of a kind, where there are counters. -/
def counted (counting : Bool) (k : Kind) : List (Text Op Branch) :=
  if counting then
    [.op (.load 13 12 (BitVec.ofNat 12 (Counters.slot k / 8))), .op (.addImm 13 13 1),
      .op (.store 13 12 (BitVec.ofNat 12 (Counters.slot k / 8)))]
  else []

/-- What the code of a program reads as at its branches. -/
structure Branches (last : Nat) (counting : Bool) (p : Program) (r : Routine) (exit stub : Nat)
    (target : Nat → Nat) : Prop where
  /-- A loop compares the cached cell with zero behind its count, and is left for what follows its closing bracket. -/
  opening {ip jp : Nat} (h : Partner Instruction.side? p.toList ip jp) :
    disassemble (readAt? r.code) (r.boundary exit ip) (target jp) = some (counted counting .loopBegin) ∧
      disassemble (readAt? r.code) (target jp) (r.boundary exit (ip + 1)) =
        some [.op (.cmpImm32 11 0), .branch .equal (r.boundary exit (jp + 1))]
  /-- The closing bracket goes back to the comparison. -/
  closing {ip jp : Nat} (h : Partner Instruction.side? p.toList ip jp) :
    disassemble (readAt? r.code) (r.boundary exit jp) (r.boundary exit (jp + 1)) =
      some (counted counting .loopEnd ++ [.branch .always (target jp)])
  /-- A move goes to the stub if the new index is above the last one. -/
  move {ip : Nat} {delta : Int64} (h : p[ip]? = some (.move delta)) :
    disassemble (readAt? r.code) (r.boundary exit ip) (r.boundary exit (ip + 1)) =
      some (counted counting .move ++ (.op (.storeByte 11 9 10) :: (moveIndex delta ++ compareIndex last).map .op ++
        [.branch .above stub, .op (.loadByte 11 9 10)]))

theorem map_count (last : Nat) (counting : Bool) (host : HostCalls) (k : Kind) :
    ((dialect last counting host).count k).map .op = counted counting k := by
  cases counting <;> rfl

theorem branches_of_laidOut {last : Nat} {counting : Bool} {host : HostCalls} {r : Routine} {exit stub : Nat}
    {target : Nat → Nat} (h : LaidOut (dialect last counting host) (readAt? r.code) p r exit stub target) :
    Branches last counting p r exit stub target where
  opening hpair := by
    obtain ⟨-, hcount, htest⟩ := h.loop hpair
    rw [map_count] at hcount
    exact ⟨hcount, htest⟩
  closing hpair := by
    have hend := h.loopEnd hpair
    rwa [map_count] at hend
  move {ip delta} hi := by
    have hmove := h.instruction hi
    rw [Dialect.texts, Instruction.kind, map_count, Dialect.body] at hmove
    rw [hmove]
    simp [dialect]

/-- Code for any program, whatever its loop targets, is a sequence of words that read as the translation of the
program. -/
theorem laidOut_of_generate {r : Routine} (h : generate p options = .ok r) :
    r.code.size % 4 = 0 ∧ (∀ offset ∈ r.offsets, offset % 4 = 0) ∧
      ∃ exit stub target, LaidOut (dialect (options.capacity - 1) options.counting options.host) (readAt? r.code) p r
        exit stub target ∧ Branches (options.capacity - 1) options.counting p r exit stub target := by
  obtain ⟨q, hq, herase⟩ := exists_linked_of_generate h
  rw [← generate_congr herase] at h
  obtain ⟨last, hlast, hcompilable, hassembled, hcount, hoffsets⟩ := generate_ok hq h
  obtain rfl : last = options.capacity - 1 := by omega
  refine ⟨?_, fun offset hoffset => ?_, ?_⟩
  · rw [hassembled.size]
    exact offsetAt_mod _ _
  · obtain ⟨ip, hip, rfl⟩ := Array.mem_iff_getElem.1 hoffset
    have hget := hoffsets ip (hcount ▸ hip)
    rw [Array.getElem?_eq_getElem hip, Option.some.injEq] at hget
    rw [hget]
    exact offsetAt_mod _ _
  · have hlaid := LaidOut.of_readable (dialect_solid (options.capacity - 1) options.counting options.host) hq hcompilable
      (hassembled.readable (Machine.once_listing hq _)) hassembled.size.symm hcount hoffsets
    have hlaid := hlaid.of_map_erase herase
    exact ⟨_, _, _, hlaid, branches_of_laidOut hlaid⟩

/-- A loop with targets that point nowhere, with counters, on a tape of two cells. -/
theorem laidOut_of_generate_stale :
    ∃ r exit stub target,
      generate #[.loopBegin 9, .output, .loopEnd 7, .move 1] ⟨2, true, environment.host⟩ = .ok r ∧
      r.code.size % 4 = 0 ∧
      LaidOut (dialect 1 true environment.host) (readAt? r.code) #[.loopBegin 9, .output, .loopEnd 7, .move 1] r
        exit stub target ∧
      target 0 = r.boundary exit 3 := by
  have hlinked := Program.linked_of_block (.loop (.act .output .done) (.act (.move 1) .done))
  have hcompilable : Program.Compilable #[.loopBegin 2, .output, .loopEnd 0, .move 1] := by
    refine Dialect.mem_compilable.2 ?_
    simp [Instruction.Compilable]
  obtain ⟨r, hr, -⟩ := generate_accepts ⟨2, true, environment.host⟩ hlinked hcompilable (by decide) (by decide)
  have hstale : generate #[.loopBegin 9, .output, .loopEnd 7, .move 1] ⟨2, true, environment.host⟩ = .ok r := by
    rw [← hr]
    exact generate_congr rfl
  obtain ⟨hsize, -, exit, stub, target, hlaid, -⟩ := laidOut_of_generate hstale
  refine ⟨r, exit, stub, target, hstale, hsize, hlaid, (hlaid.loop ?_).1⟩
  exact ⟨[], _, [.output], _, [.move 1], rfl, rfl, rfl, Nesting.balanced_iff_depth.2 rfl, rfl, rfl⟩

end TapeLang.A64
