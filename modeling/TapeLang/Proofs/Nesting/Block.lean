import TapeLang.Instruction

/-!
# Bracket trees

A program whose brackets pair up is the listing of a tree: actions one after another, and loops
around a body of the same shape. `Block` is that tree with what follows a loop beside its body, so
that a block is a sequence and `++` joins two of them. `linkedFrom` lists a block with every bracket
pointing at its partner, `instructions` lists it with all targets erased, and `Occurs` says that a
program has the linked listing of a block at some index.
-/

namespace TapeLang

/-- An instruction that is no bracket. -/
inductive Action where
  | add (delta : UInt8)
  | move (delta : Int64)
  | input
  | output
  | set (value : UInt8)
  | halt
  deriving DecidableEq, Repr

/-- The instruction of an action. -/
def Action.instruction : Action → Instruction
  | add delta => .add delta
  | move delta => .move delta
  | input => .input
  | output => .output
  | set value => .set value
  | halt => .halt

@[simp]
theorem Action.erase_instruction (a : Action) : a.instruction.erase = a.instruction := by
  cases a <;> rfl

theorem Action.instruction_injective {a b : Action} (h : a.instruction = b.instruction) : a = b := by
  cases a <;> cases b <;> cases h <;> rfl

theorem Instruction.eq_of_erase_eq {i : Instruction} {a : Action} (h : i.erase = a.instruction) :
    i = a.instruction := by
  cases i <;> cases a <;> simp_all [Instruction.erase, Action.instruction]

/-- Programs that differ in loop targets only have alike instructions. -/
theorem Program.exists_erase_eq {p q : Program}
    (h : q.toList.map Instruction.erase = p.toList.map Instruction.erase) {ip : Nat} {i : Instruction}
    (hi : p[ip]? = some i) : ∃ j, q[ip]? = some j ∧ j.erase = i.erase := by
  have hget := congrArg (·[ip]?) h
  simp only [List.getElem?_map, Array.getElem?_toList, hi, Option.map_some] at hget
  exact Option.map_eq_some_iff.1 hget

/-- A sequence of actions and loops. -/
inductive Block where
  | done
  | act (a : Action) (rest : Block)
  | loop (body rest : Block)
  deriving DecidableEq, Repr

namespace Block

/-- Number of instructions, two of them for the brackets of each loop. -/
def size : Block → Nat
  | done => 0
  | act _ rest => rest.size + 1
  | loop body rest => body.size + rest.size + 2

/-- One block after another. -/
def append : Block → Block → Block
  | done, after => after
  | act a rest, after => act a (rest.append after)
  | loop body rest, after => loop body (rest.append after)

instance : Append Block := ⟨append⟩

@[simp] theorem done_append (after : Block) : done ++ after = after := rfl

@[simp] theorem act_append (a : Action) (rest after : Block) :
    act a rest ++ after = act a (rest ++ after) := rfl

@[simp] theorem loop_append (body rest after : Block) :
    loop body rest ++ after = loop body (rest ++ after) := rfl

@[simp] theorem append_done (b : Block) : b ++ done = b := by
  induction b with
  | done => rfl
  | act a rest ih => rw [act_append, ih]
  | loop body rest _ ih => rw [loop_append, ih]

/-- The listing of a block the first instruction of which has index `start`, brackets linked. -/
def linkedFrom (start : Nat) : Block → List Instruction
  | done => []
  | act a rest => a.instruction :: rest.linkedFrom (start + 1)
  | loop body rest =>
    .loopBegin (start + body.size + 1) ::
      (body.linkedFrom (start + 1) ++ .loopEnd start :: rest.linkedFrom (start + body.size + 2))

/-- The listing of a block with all loop targets erased. -/
def instructions : Block → List Instruction
  | done => []
  | act a rest => a.instruction :: rest.instructions
  | loop body rest => .loopBegin 0 :: (body.instructions ++ .loopEnd 0 :: rest.instructions)

@[simp] theorem length_linkedFrom (b : Block) (start : Nat) : (b.linkedFrom start).length = b.size := by
  induction b generalizing start with
  | done => rfl
  | act a rest ih => simp [linkedFrom, size, ih]
  | loop body rest ihBody ihRest =>
    simp only [linkedFrom, size, List.length_cons, List.length_append, ihBody, ihRest]
    omega

@[simp] theorem length_instructions (b : Block) : b.instructions.length = b.size := by
  induction b with
  | done => rfl
  | act a rest ih => simp [instructions, size, ih]
  | loop body rest ihBody ihRest =>
    simp only [instructions, size, List.length_cons, List.length_append, ihBody, ihRest]
    omega

/-- Linking changes loop targets only. -/
@[simp] theorem map_erase_linkedFrom (b : Block) (start : Nat) :
    (b.linkedFrom start).map Instruction.erase = b.instructions := by
  induction b generalizing start with
  | done => rfl
  | act a rest ih => simp [linkedFrom, instructions, ih]
  | loop body rest ihBody ihRest => simp [linkedFrom, instructions, ihBody, ihRest, Instruction.erase]

/-- A listing is that of one block only. -/
theorem linkedFrom_injective {b c : Block} {start : Nat} (h : b.linkedFrom start = c.linkedFrom start) : b = c := by
  induction b generalizing c start with
  | done =>
    cases c with
    | done => rfl
    | act a rest => cases h
    | loop body rest => cases h
  | act a rest ih =>
    cases c with
    | done => cases h
    | act a' rest' =>
      obtain ⟨ha, hrest⟩ := List.cons.inj h
      rw [Action.instruction_injective ha, ih hrest]
    | loop body rest' =>
      obtain ⟨ha, _⟩ := List.cons.inj h
      cases a <;> cases ha
  | loop body rest ihBody ihRest =>
    cases c with
    | done => cases h
    | act a rest' =>
      obtain ⟨ha, _⟩ := List.cons.inj h
      cases a <;> cases ha
    | loop body' rest' =>
      obtain ⟨hclose, htail⟩ := List.cons.inj h
      obtain hsize : body.size = body'.size := by
        have := Instruction.loopBegin.inj hclose
        omega
      obtain ⟨hbody, hrest⟩ := List.append_inj htail (by simp [hsize])
      obtain ⟨_, hrest⟩ := List.cons.inj hrest
      rw [hsize] at hrest
      rw [ihBody hbody, ihRest hrest]

/-- What the listing of a loop looks like under any loop targets. -/
theorem eq_of_map_erase_loop {body rest : Block} {l : List Instruction}
    (h : l.map Instruction.erase = (loop body rest).instructions) :
    ∃ (close : Nat) (lb : List Instruction) (start : Nat) (lr : List Instruction),
      l = .loopBegin close :: (lb ++ .loopEnd start :: lr) ∧
      lb.map Instruction.erase = body.instructions ∧ lr.map Instruction.erase = rest.instructions := by
  obtain ⟨i, l, rfl, hi, hl⟩ := List.map_eq_cons_iff.1 h
  obtain ⟨lb, l, rfl, hb, hl⟩ := List.map_eq_append_iff.1 hl
  obtain ⟨j, lr, rfl, hj, hr⟩ := List.map_eq_cons_iff.1 hl
  obtain ⟨close, rfl⟩ : ∃ close, i = .loopBegin close := by
    cases i <;> simp_all [Instruction.erase]
  obtain ⟨start, rfl⟩ : ∃ start, j = .loopEnd start := by
    cases j <;> simp_all [Instruction.erase]
  exact ⟨close, lb, start, lr, rfl, hb, hr⟩

/-! ### Blocks inside a program -/

/-- The listing of a block stands in a program at an index, brackets linked. -/
def Occurs (p : Program) : Nat → Block → Prop
  | _, done => True
  | i, act a rest => p[i]? = some a.instruction ∧ Occurs p (i + 1) rest
  | i, loop body rest =>
    p[i]? = some (.loopBegin (i + body.size + 1)) ∧ Occurs p (i + 1) body ∧
      p[i + body.size + 1]? = some (.loopEnd i) ∧ Occurs p (i + body.size + 2) rest

theorem occurs_of_eq (b : Block) {p : Program} (before after : List Instruction)
    (h : p.toList = before ++ (b.linkedFrom before.length ++ after)) : Occurs p before.length b := by
  induction b generalizing before after with
  | done => trivial
  | act a rest ih =>
    constructor
    · rw [← Array.getElem?_toList, h]
      simp [linkedFrom]
    · have := ih (before ++ [a.instruction]) after (by simpa [linkedFrom] using h)
      simpa using this
  | loop body rest ihBody ihRest =>
    simp only [linkedFrom] at h
    refine ⟨?_, ?_, ?_, ?_⟩
    · rw [← Array.getElem?_toList, h]
      simp
    · have := ihBody (before ++ [.loopBegin (before.length + body.size + 1)])
        (.loopEnd before.length :: rest.linkedFrom (before.length + body.size + 2) ++ after)
        (by simpa using h)
      simpa using this
    · rw [← Array.getElem?_toList, h, List.getElem?_append_right (by omega),
        show before.length + body.size + 1 - before.length = body.size + 1 by omega]
      simp
    · have := ihRest (before ++ .loopBegin (before.length + body.size + 1) ::
        (body.linkedFrom (before.length + 1) ++ [.loopEnd before.length])) after
        (by
          rw [h]
          simp only [List.length_append, List.length_cons, length_linkedFrom, List.length_nil,
            List.append_assoc, List.cons_append, List.nil_append]
          rw [show before.length + (body.size + (0 + 1) + 1) = before.length + body.size + 2 by omega])
      rw [show (before ++ .loopBegin (before.length + body.size + 1) ::
        (body.linkedFrom (before.length + 1) ++ [Instruction.loopEnd before.length])).length =
          before.length + body.size + 2 by simp; omega] at this
      exact this

end Block

end TapeLang
