import TapeLang.A64.Assembler
import TapeLang.Counters

/-!
# Routines for AArch64

A routine in the standard calling convention. `x9` holds the tape, `x10` the index, `w11` the
cached cell as a number below 256, `x12` the counters; `x13` and `x14` are scratch and `x16` holds
the target of a call. There is no arithmetic on bytes, so the cache is masked after an addition.
-/

namespace TapeLang.A64

/-- Largest immediate of an addition, subtraction or comparison. -/
def maxImm : Nat := 4095

/-- Adds any signed word to the index. -/
def moveIndex (delta : Int64) : List Op :=
  let magnitude := delta.toInt.natAbs
  if magnitude ≤ maxImm then
    if 0 ≤ delta.toInt then [.addImm 10 10 (BitVec.ofNat 12 magnitude)]
    else [.subImm 10 10 (BitVec.ofNat 12 magnitude)]
  else Op.loadWord 13 delta.toUInt64 ++ [.add 10 10 13]

/-- Compares the index with the last one. -/
def compareIndex (last : Nat) : List Op :=
  if last ≤ maxImm then [.cmpImm 10 (BitVec.ofNat 12 last)]
  else Op.loadWord 14 (UInt64.ofNat last) ++ [.cmp 10 14]

/-- Adds one to a counter. -/
def increment (k : Kind) : List Op :=
  let slot := BitVec.ofNat 12 (Counters.slot k / 8)
  [.load 13 12 slot, .addImm 13 13 1, .store 13 12 slot]

/-- The dialect for a tape whose last index is `last`. -/
def dialect (last : Nat) (counting : Bool) (host : HostCalls) : Dialect Op Branch where
  entry := Op.prologue ++ [.mov 9 0, .mov 10 1, .mov 12 3, .loadByte 11 9 10, .jump 2]
  count k := if counting then increment k else []
  add delta := [.addImm32 11 11 (BitVec.ofNat 12 delta.toNat), .maskByte 11 11]
  set value := [.movz32 11 (BitVec.ofNat 16 value.toNat)]
  move delta := .storeByte 11 9 10 :: moveIndex delta ++ compareIndex last
  reload := [.loadByte 11 9 10]
  output :=
    [.storePairPre 9 10 sp (BitVec.ofInt 7 (-4)), .storePair 11 12 sp 2, .maskByte 0 11] ++
      Op.loadWord 16 host.putByte ++ [.call 16, .loadPair 11 12 sp 2, .loadPairPost 9 10 sp 4]
  test := [.cmpImm32 11 0]
  exit := [.storeByte 11 9 10, .mov 0 10] ++ Op.epilogue
  fault := .mov 0 10 :: Op.loadWord 16 host.outOfBounds ++ [.call 16] ++ Op.epilogue
  always := .always
  ifZero := .equal
  ifOutside := .above

/-- How many loops open before index `ip`. -/
def openings (p : Program) (ip : Nat) : Nat := (p.extract 0 ip).countP (·.kind = .loopBegin)

/-- The number that an error gives a label: the stub has the first, and then each loop two, in the
order in which the loops open. -/
def reportNumber (p : Program) : Label → Nat
  | .fault | .instruction _ => 0
  | .check ip => 2 * openings p ip + 1
  | .after ip => 2 * openings p ip + 2

/-- The routine of a program. -/
def generate (p : Program) (options : CodeOptions) : Except Error Routine :=
  if options.capacity = 0 then .error (.invalidCapacity options.capacity)
  else do
    let pieces ← (dialect (options.capacity - 1) options.counting options.host).routine p
    (assemble (reportNumber p) pieces (instructionLabels p)).mapError .assembly

end TapeLang.A64
