import TapeLang.Proofs.A64.Reach
import TapeLang.Proofs.Optimizer.Refusal
import TapeLang.Proofs.Source.Parsing

/-!
# Which sources have code on both instruction sets

A source file has up to `Source.maxFileSize` bytes, and a program has at most one instruction for each. x86-64 branches
reach over as much code as that, and so do the unconditional ones on AArch64, but not the conditional ones: a program
has AArch64 code exactly if those reach (`compiled_iff_reaching`).

Neither the parser nor the optimizer makes a program longer or brings in an input, and only the optimizer writes a
`halt` (`Source.not_halt_of_parse`, `Program.not_input_of_optimize`, `Program.size_le_of_optimize`).

A source that adds and moves by turns has no loop, and the optimizer finds nothing to do in it
(`Program.optimize_march`). Each of its turns takes seven words, so that the first move does not get to the stub where
there are 37450 turns or more (`A64.generate_march`).
-/

namespace TapeLang

variable {source : Source} {p q : Program}

/-! ### What the parser gives -/

namespace Source

theorem erased_of_parse (h : source.parse = .ok p) :
    p.erased = Program.erased (source.tokens.map (·.command.instruction)) := by
  unfold parse at h
  dsimp only at h
  split at h
  · rename_i q hlink
    cases h
    have herased := Program.erased_link (source.tokens.map (·.command.instruction))
    rwa [hlink] at herased
  · cases h

/-- There is at most one instruction for each byte. -/
theorem size_le_of_parse (h : source.parse = .ok p) : p.size ≤ source.length := by
  have hsize := congrArg (·.toList.length) (erased_of_parse h)
  simp only [Program.toList_erased, List.length_map, toList_instructions, Array.length_toList] at hsize
  have hbody : source.body.length ≤ source.length := by simp [body]
  exact hsize ▸ Nat.le_trans (List.length_filterMap_le _ _) hbody

theorem not_halt_of_parse (h : source.parse = .ok p) : .halt ∉ p.toList := by
  rw [Program.mem_iff_of_erased_eq (erased_of_parse h) fun j => by cases j <;> simp [Instruction.erase],
    toList_instructions, List.mem_filterMap]
  rintro ⟨b, -, hb⟩
  rw [instruction?_eq] at hb
  obtain ⟨c, -, hc⟩ := Option.map_eq_some_iff.1 hb
  cases c <;> cases hc

end Source

/-! ### What the optimizer gives -/

namespace Program

/-- A rewrite leaves an end of what it reads. -/
theorem suffix_of_rewrite? {l rest : List Instruction} {j : Instruction} (h : rewrite? l = some (j, rest)) :
    rest <:+ l := by
  rcases rewrite?_kinds h with ⟨i, i', r, rfl, -, -, -, rfl⟩ | ⟨_, _, rfl, -⟩ | ⟨_, _, rfl, -⟩
  · exact (List.dropWhile_suffix _).trans ⟨[i, i'], rfl⟩
  · exact ⟨[_, _, _], rfl⟩
  · exact ⟨[_, _], rfl⟩

theorem input_of_mem_swept {l : List Instruction} (h : .input ∈ swept l) : .input ∈ l := by
  fun_induction swept l with
  | case1 => exact h
  | case2 i l j rest hr ih =>
    rcases List.mem_cons.1 h with rfl | h
    · exact absurd rfl (ne_input_of_rewrite? hr)
    · exact (suffix_of_rewrite? hr).subset (ih h)
  | case3 i l hr ih =>
    rcases List.mem_cons.1 h with rfl | h
    · exact List.mem_cons_self
    · exact List.mem_cons_of_mem _ (ih h)

/-- Simplifying brings in no input, and makes nothing longer. -/
theorem simplify_keeps (p : Program) : (.input ∈ p.simplify.toList → .input ∈ p.toList) ∧ p.simplify.size ≤ p.size := by
  have hsweep (p : Program) :
      (.input ∈ p.sweep.program.toList → .input ∈ p.toList) ∧ p.sweep.program.size ≤ p.size := by
    have hsize := size_sweepFrom_le #[] false p.toList
    rw [toList_sweep]
    exact ⟨input_of_mem_swept, by simpa [sweep] using hsize⟩
  fun_induction simplify p with
  | case1 p q h _ ih =>
    obtain ⟨hinput, hsize⟩ := hsweep p
    rw [h] at hinput hsize
    exact ⟨hinput ∘ ih.1, Nat.le_trans ih.2 hsize⟩
  | case2 p q h =>
    have := hsweep p
    rwa [h] at this

theorem not_input_of_optimize (h : p.optimize = .ok q) (hp : .input ∉ p.toList) : .input ∉ q.toList := by
  rw [mem_iff_of_erased_eq (erased_of_linked h) fun j => by cases j <;> simp [Instruction.erase]]
  exact mt p.simplify_keeps.1 hp

theorem size_le_of_optimize (h : p.optimize = .ok q) : q.size ≤ p.size := by
  have hsize := congrArg Array.size (erased_of_linked h)
  rw [erased, erased, Array.size_map, Array.size_map] at hsize
  exact hsize ▸ p.simplify_keeps.2

end Program

/-! ### Which sources have code -/

/-- Parsed or optimized, what a source file gives has x86-64 code unless there is an input or a `halt`. It has AArch64
code exactly if its conditional branches reach, and is otherwise refused for the first that does not. -/
theorem compiled_iff_reaching (options : CodeOptions) (hlength : source.length ≤ Source.maxFileSize)
    (hparse : source.parse = .ok p) (hinput : .input ∉ p.toList)
    (hq : q = p ∨ p.optimize = .ok q ∧ .halt ∉ q.toList)
    (hcapacity : 0 < options.capacity ∧ options.capacity ≤ Tape.maxCapacity) :
    (∃ r, X86.generate q options = .ok r) ∧
      ((∃ r, A64.generate q options = .ok r) ↔
        ∀ ip l n, (A64.dialectFor options).Branches q ip l n → n < A64.reach) ∧
      ∀ ip l n, (A64.dialectFor options).Branches q ip l n → A64.reach ≤ n →
        (∀ j < ip, ∀ m k, (A64.dialectFor options).Branches q j m k → k < A64.reach) →
        A64.generate q options = .error (.assembly (.outOfReach (A64.reportNumber q l))) := by
  obtain ⟨hlinked, hcompilable, hsize⟩ : q.Linked ∧ q.Compilable ∧ q.size ≤ source.length := by
    rcases hq with rfl | ⟨hq, hhalt⟩
    · exact ⟨Source.linked_of_parse hparse, Program.compilable_iff.2 ⟨hinput, Source.not_halt_of_parse hparse⟩,
        Source.size_le_of_parse hparse⟩
    · exact ⟨Program.linked_of_optimize hq,
        Program.compilable_iff.2 ⟨Program.not_input_of_optimize hq hinput, hhalt⟩,
        Nat.le_trans (Program.size_le_of_optimize hq) (Source.size_le_of_parse hparse)⟩
  have hlimit : q.size ≤ A64.maxUnconditional := Nat.le_trans hsize hlength
  have hmax : Tape.maxCapacity ≤ 2 ^ 31 ∧ A64.maxUnconditional ≤ X86.maxSize := by decide
  refine ⟨?_, A64.generate_ok_iff hlinked hcompilable hcapacity.1 hlimit, fun ip l n h hfar hfirst =>
    A64.generate_of_far hlinked hcompilable hcapacity.1 hlimit h hfar hfirst⟩
  obtain ⟨r, hr, -⟩ := X86.generate_accepts options hlinked hcompilable
    ⟨hcapacity.1, Nat.le_trans hcapacity.2 hmax.1⟩ (Nat.le_trans hlimit hmax.2)
  exact ⟨r, hr⟩

/-- An addition and a move: their code is short, and the branch of the move reaches. -/
theorem compiled_iff_reaching_short :
    ([0x2B, 0x3E] : Source).length ≤ Source.maxFileSize ∧
    Source.parse [0x2B, 0x3E] = .ok #[.add 1, .move 1] ∧ .input ∉ [Instruction.add 1, .move 1] ∧
    (0 < 4096 ∧ 4096 ≤ Tape.maxCapacity) ∧
    (∃ r, X86.generate #[.add 1, .move 1] ⟨4096, true, Engine.environment.host⟩ = .ok r) ∧
    ∃ r, A64.generate #[.add 1, .move 1] ⟨4096, true, Engine.environment.host⟩ = .ok r := by
  have hlength : ([0x2B, 0x3E] : Source).length ≤ Source.maxFileSize := by decide
  have hparse : Source.parse [0x2B, 0x3E] = .ok #[.add 1, .move 1] := by decide +kernel
  have hinput : .input ∉ [Instruction.add 1, .move 1] := by decide
  have hcapacity : 0 < 4096 ∧ 4096 ≤ Tape.maxCapacity := by decide
  obtain ⟨hx86, ha64, -⟩ := compiled_iff_reaching ⟨4096, true, Engine.environment.host⟩ hlength hparse hinput
    (.inl rfl) hcapacity
  refine ⟨hlength, hparse, hinput, hcapacity, hx86, ha64.2 fun ip l n h => Nat.lt_of_le_of_lt h.le ?_⟩
  decide

/-! ### A source that does not reach -/

/-- An addition and a move, by turns. -/
def Source.march (n : Nat) : Source := (List.replicate n [Command.increment.byte, Command.right.byte]).flatten

/-- Adds to a cell and moves on, by turns. -/
def Program.march (n : Nat) : Program := (List.replicate n [.add 1, .move 1]).flatten.toArray

theorem Program.toList_march_succ (n : Nat) :
    (march (n + 1)).toList = .add 1 :: .move 1 :: (march n).toList := by
  simp [march, List.replicate_succ]

theorem Program.size_march (n : Nat) : (march n).size = 2 * n := by
  simp [march, Nat.mul_comm]

theorem Program.linked_march (n : Nat) : (march n).Linked := by
  have hfrom (ip : Nat) : LinkedFrom ip (march n).toList := by
    induction n generalizing ip with
    | zero => exact .nil ip
    | succ n ih =>
      rw [toList_march_succ]
      exact .action (.add 1) (.action (.move 1) (ih (ip + 2)))
  exact hfrom 0

theorem Program.compilable_march (n : Nat) : (march n).Compilable := by
  rw [compilable_iff]
  simp [march]

theorem Program.normal_march (n : Nat) : Normal (march n).toList := by
  induction n with
  | zero => exact normal_nil
  | succ n ih =>
    have hmove : rewrite? (.move 1 :: (march n).toList) = none := by
      cases n with
      | zero => rfl
      | succ n => simp [toList_march_succ, rewrite?]
    rw [toList_march_succ, normal_cons, normal_cons]
    exact ⟨rfl, hmove, ih⟩

theorem Program.optimize_march (n : Nat) : (march n).optimize = .ok (march n) := by
  rw [optimize, simplify_of_normal (normal_march n), linked, (linked_march n).matched.link_eq]

theorem Source.parse_march (n : Nat) : (march n).parse = .ok (Program.march n) := by
  -- there is no header, as the source does not start with a bracket
  have hbody : (march n).body = march n := by
    cases n <;> rfl
  have hinstructions : (march n).filterMap instruction? = (Program.march n).toList := by
    clear hbody
    induction n with
    | zero => rfl
    | succ n ih =>
      rw [Program.toList_march_succ, ← ih]
      rfl
  have htokens : (march n).tokens.map (·.command.instruction) = Program.march n := by
    rw [← Array.toList_inj, toList_instructions, hbody, hinstructions]
  refine parse_of_link ?_
  rw [htokens]
  exact (Program.linked_march n).matched.link_eq

theorem Source.length_march (n : Nat) : (march n).length = 2 * n := by
  simp [march, Nat.mul_comm]

namespace A64

variable (host : HostCalls)

theorem wordsBefore_march (n : Nat) :
    (dialectFor ⟨4096, false, host⟩).wordsBefore (Program.march n) (Program.march n).size = 7 + 7 * n := by
  have hsum : ((Program.march n).toList.map (dialectFor ⟨4096, false, host⟩).instructionWords).sum = 7 * n := by
    induction n with
    | zero => rfl
    | succ n ih =>
      have hadd : (dialectFor ⟨4096, false, host⟩).instructionWords (.add 1) = 2 := rfl
      have hmove : (dialectFor ⟨4096, false, host⟩).instructionWords (.move 1) = 5 := rfl
      rw [Program.toList_march_succ, List.map_cons, List.map_cons, List.sum_cons, List.sum_cons, hadd, hmove, ih]
      omega
  rw [Dialect.wordsBefore, List.take_of_length_le (by simp), hsum]
  rfl

/-- From the first move to the stub are seven words for each turn. -/
theorem branches_march (n : Nat) :
    (dialectFor ⟨4096, false, host⟩).Branches (Program.march (n + 1)) 1 .fault (7 * (n + 1)) := by
  have hlist := Program.toList_march_succ n
  have hget : (Program.march (n + 1))[1]? = some (.move 1) := by
    rw [← Array.getElem?_toList, hlist]
    rfl
  have hbranch := Dialect.Branches.move (d := dialectFor ⟨4096, false, host⟩) hget
  have hbefore : (dialectFor ⟨4096, false, host⟩).wordsBefore (Program.march (n + 1)) 1 = 9 := by
    rw [Dialect.wordsBefore, hlist]
    rfl
  have hexit : (dialectFor ⟨4096, false, host⟩).exit.length = 5 := rfl
  have hmove : ((dialectFor ⟨4096, false, host⟩).move 1).length = 3 := rfl
  have hcount : ((dialectFor ⟨4096, false, host⟩).count .move).length = 0 := rfl
  rw [wordsBefore_march, hbefore, hexit, hmove, hcount] at hbranch
  rwa [show 7 + 7 * (n + 1) + 5 - (9 + 0 + 3) = 7 * (n + 1) by omega] at hbranch

/-- The first move does not get to the stub. -/
theorem generate_march {n : Nat} (hlong : 37450 ≤ n) (hsize : n ≤ 2 ^ 19) :
    generate (Program.march n) ⟨4096, false, host⟩ = .error (.assembly (.outOfReach 0)) := by
  obtain ⟨n, rfl⟩ : ∃ m, n = m + 1 := ⟨n - 1, by omega⟩
  refine generate_of_far (Program.linked_march _) (Program.compilable_march _) (Nat.succ_pos 4095) ?_
    (branches_march host n) ?_ ?_
  · rw [Program.size_march, maxUnconditional]
    omega
  · rw [reach]
    omega
  · intro j hj m k h
    -- before it is an addition, which has no branch
    obtain rfl : j = 0 := by omega
    have hfirst : (Program.march (n + 1))[0]? = some (.add 1) := by
      rw [← Array.getElem?_toList, Program.toList_march_succ]
      rfl
    cases h with
    | move h => cases hfirst.symm.trans h
    | loopBegin h => cases hfirst.symm.trans h

end A64

/-- A source of 74900 bytes, with a program that the optimizer leaves as it is: it has x86-64 code and no AArch64
code. -/
theorem march_too_long :
    (Source.march 37450).length ≤ Source.maxFileSize ∧
    (Source.march 37450).parse = .ok (Program.march 37450) ∧
    .input ∉ (Program.march 37450).toList ∧ .halt ∉ (Program.march 37450).toList ∧
    (Program.march 37450).optimize = .ok (Program.march 37450) ∧
    (0 < 4096 ∧ 4096 ≤ Tape.maxCapacity) ∧
    (∃ r, X86.generate (Program.march 37450) ⟨4096, false, Engine.environment.host⟩ = .ok r) ∧
    A64.generate (Program.march 37450) ⟨4096, false, Engine.environment.host⟩ =
      .error (.assembly (.outOfReach 0)) := by
  have hcompilable := Program.compilable_march 37450
  have hx86 := X86.generate_accepts ⟨4096, false, Engine.environment.host⟩ (Program.linked_march 37450) hcompilable
    (by decide) (by rw [Program.size_march]; decide)
  obtain ⟨hinput, hhalt⟩ := Program.compilable_iff.1 hcompilable
  exact ⟨by rw [Source.length_march]; decide, Source.parse_march _, hinput, hhalt, Program.optimize_march _, by decide,
    hx86.imp fun _ h => h.1, A64.generate_march _ (by omega) (by omega)⟩

end TapeLang
