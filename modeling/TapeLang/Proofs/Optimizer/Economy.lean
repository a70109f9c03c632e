import TapeLang.Proofs.Nesting.Executed
import TapeLang.Proofs.Optimizer.Sweep

/-!
# Optimizing saves instructions

`Thrifty after before` says that one sequence of executed instructions is no longer than another, writes as many bytes,
and has no more additions, moves and brackets in it. Assignments and empty loops are the optimizer's own: it may execute
more of them, each in the place of some other instruction that is no output.

An evaluation that does not leave the tape is one of every reduction of its block, and executes a thrifty sequence there
(`Block.Executes.of_reduces`). Two additions or two moves are charged to their sum. A loop that counts a cell down is
charged round by round: what the rounds from the second on execute pays for the assignment already, so the first is
saved. The induction is on how much is executed, since the sum of two instructions is compared with neither of them.
-/

namespace TapeLang

open Thread (Ending)

/-- What is executed after optimizing, against what was executed before. -/
structure Thrifty (after before : List Kind) : Prop where
  length_le : after.length ≤ before.length
  output_eq : after.count .output = before.count .output
  count_le : ∀ k ∈ [Kind.add, .move, .loopBegin, .loopEnd], after.count k ≤ before.count k

namespace Thrifty

variable {after before after' before' : List Kind} {k l : Kind}

theorem refl (kinds : List Kind) : Thrifty kinds kinds := ⟨Nat.le_refl _, rfl, fun _ _ => Nat.le_refl _⟩

theorem trans {kinds : List Kind} (h : Thrifty kinds after) (h' : Thrifty after before) : Thrifty kinds before where
  length_le := Nat.le_trans h.length_le h'.length_le
  output_eq := h.output_eq.trans h'.output_eq
  count_le k hk := Nat.le_trans (h.count_le k hk) (h'.count_le k hk)

theorem append (h : Thrifty after before) (h' : Thrifty after' before') :
    Thrifty (after ++ after') (before ++ before') where
  length_le := by
    rw [List.length_append, List.length_append]
    exact Nat.add_le_add h.length_le h'.length_le
  output_eq := by rw [List.count_append, List.count_append, h.output_eq, h'.output_eq]
  count_le k hk := by
    rw [List.count_append, List.count_append]
    exact Nat.add_le_add (h.count_le k hk) (h'.count_le k hk)

theorem cons (k : Kind) (h : Thrifty after before) : Thrifty (k :: after) (k :: before) := (refl [k]).append h

/-- An instruction is saved that is no output. -/
theorem save (hk : k ≠ .output) (h : Thrifty after before) : Thrifty after (k :: before) where
  length_le := Nat.le_succ_of_le h.length_le
  output_eq := by rw [List.count_cons_of_ne hk, h.output_eq]
  count_le l hl := Nat.le_trans (h.count_le l hl) (List.count_le_count_cons ..)

/-- An assignment or an empty loop stands in the place of another instruction. -/
theorem replace (hl : l = .set ∨ l = .halt) (hk : k ≠ .output) (h : Thrifty after before) :
    Thrifty (l :: after) (k :: before) where
  length_le := Nat.succ_le_succ h.length_le
  output_eq := by
    have hne : l ≠ .output := by rcases hl with rfl | rfl <;> decide
    rw [List.count_cons_of_ne hk, List.count_cons_of_ne hne, h.output_eq]
  count_le k' hk' := by
    have hne : l ≠ k' := by
      rintro rfl
      rcases hl with rfl | rfl <;> exact absurd hk' (by decide)
    rw [List.count_cons_of_ne hne]
    exact (h.save hk).count_le k' hk'

end Thrifty

theorem Side.kind_ne_output (side : Side) : side.kind ≠ .output := by
  cases side <;> decide

/-- The body of a loop, and the loop tried again, execute less than the loop does. -/
theorem length_lt_front (k : Kind) (front back : List Kind) : front.length < (k :: (front ++ back)).length := by
  rw [List.length_cons, List.length_append]
  omega

theorem length_lt_back (k : Kind) (front back : List Kind) : back.length < (k :: (front ++ back)).length := by
  rw [List.length_cons, List.length_append]
  omega

namespace Block.Executes

variable {b c : Block} {w w' : World} {e : Ending} {side : Side} {kinds : List Kind}

/-! ### What stands before a simplification -/

/-- Two additions and their sum. -/
theorem sum_adds {x y : UInt8} {r : Block} (h : Executes side (.act (.add x) (.act (.add y) r)) w e w' kinds) :
    ∃ rest, kinds = .add :: .add :: rest ∧ Executes side (.act (.add (x + y)) r) w e w' (.add :: rest) := by
  cases h with
  | stop ha => cases ha
  | act ha h =>
    cases ha
    cases h with
    | stop hb => cases hb
    | @act _ _ _ _ _ _ _ rest hb h =>
      cases hb
      rw [World.assign_assign, World.cell_assign, UInt8.add_assoc] at h
      exact ⟨rest, rfl, .act rfl h⟩

/-- Two moves that stay on the tape and their sum. -/
theorem sum_moves {x y : Int64} {r : Block} (he : ¬ e.LeavesTape)
    (h : Executes side (.act (.move x) (.act (.move y) r)) w e w' kinds) :
    ∃ rest, kinds = .move :: .move :: rest ∧ Executes side (.act (.move (x + y)) r) w e w' (.move :: rest) := by
  cases h with
  | stop ha => exact absurd (Thread.leavesTape_of_perform_move ha) he
  | act ha h =>
    cases h with
    | stop hb => exact absurd (Thread.leavesTape_of_perform_move hb) he
    | @act _ _ _ _ _ _ _ rest hb h => exact ⟨rest, rfl, .act (Action.perform_move_add ha hb) h⟩

/-- The loop that counts a cell down is passed at zero, and else takes one from the cell and is tried again. -/
theorem countdown {r : Block} (h : Executes side (.loop (.act (.add 255) .done) r) w e w' kinds) :
    (∃ rest, w.cell = 0 ∧ kinds = side.kind :: rest ∧ Executes .opening r w e w' rest) ∨
      ∃ v rest, kinds = side.kind :: .add :: rest ∧
        Executes .closing (.loop (.act (.add 255) .done) r) (w.assign v) e w' rest := by
  cases h with
  | skip hz h => exact .inl ⟨_, hz, rfl, h⟩
  | again hz hbody h =>
    cases hbody with
    | stop ha => cases ha
    | act ha hdone =>
      cases ha
      cases hdone
      exact .inr ⟨_, _, rfl, h⟩
  | inside hz hbody hne =>
    cases hbody with
    | stop ha => cases ha
    | act ha hdone =>
      cases hdone
      exact absurd rfl hne

/-- A loop without a body is passed at zero, and else is tried again in the same world. -/
theorem spin {r : Block} (h : Executes side (.loop .done r) w e w' kinds) :
    (∃ rest, w.cell = 0 ∧ kinds = side.kind :: rest ∧ Executes .opening r w e w' rest) ∨
      ∃ rest, kinds = side.kind :: rest ∧ Executes .closing (.loop .done r) w e w' rest := by
  cases h with
  | skip hz h => exact .inl ⟨_, hz, rfl, h⟩
  | again hz hbody h =>
    cases hbody
    exact .inr ⟨_, rfl, h⟩
  | inside hz hbody hne =>
    cases hbody
    exact absurd rfl hne

/-- What stands for a countdown starts with the assignment, which does not look at the cell. -/
theorem of_assign {v : UInt8} {r : Block} (h : Executes side (.act (.set 0) r) (w.assign v) e w' kinds) (side' : Side) :
    Executes side' (.act (.set 0) r) w e w' kinds := by
  cases h with
  | stop ha => cases ha
  | act ha h =>
    cases ha
    rw [World.assign_assign] at h
    exact .act rfl h

/-! ### Reductions -/

/-- What the evaluation of a block executes is no less than what that of a reduction of it does. -/
theorem of_reduces (hbc : b.Reduces c) (he : ¬ e.LeavesTape) (h : Executes side b w e w' kinds) :
    ∃ kinds', Executes side c w e w' kinds' ∧ Thrifty kinds' kinds := by
  generalize hlength : kinds.length = n
  induction n using Nat.strongRecOn generalizing b c w e w' side kinds with
  | ind n ih =>
    subst hlength
    cases hbc with
    | done => exact ⟨kinds, h, .refl kinds⟩
    | act a hr =>
      cases h with
      | act ha hrest =>
        obtain ⟨kinds', hrest', hthrifty⟩ := ih _ (Nat.lt_succ_self _) hr he hrest rfl
        exact ⟨_, .act ha hrest', hthrifty.cons _⟩
      | stop ha => exact ⟨_, .stop ha, .refl _⟩
    | loop hb hr =>
      cases h with
      | skip hz hrest =>
        obtain ⟨kinds', hrest', hthrifty⟩ := ih _ (Nat.lt_succ_self _) hr he hrest rfl
        exact ⟨_, .skip hz hrest', hthrifty.cons _⟩
      | @again _ _ _ _ _ _ _ front back hz hbody hrest =>
        obtain ⟨front', hbody', hfront⟩ := ih _ (length_lt_front _ front back) hb id hbody rfl
        obtain ⟨back', hrest', hback⟩ := ih _ (length_lt_back _ front back) (.loop hb hr) he hrest rfl
        exact ⟨_, .again hz hbody' hrest', (hfront.append hback).cons _⟩
      | inside hz hbody hne =>
        obtain ⟨kinds', hbody', hthrifty⟩ := ih _ (Nat.lt_succ_self _) hb he hbody rfl
        exact ⟨_, .inside hz hbody' hne, hthrifty.cons _⟩
    | adds hr =>
      obtain ⟨rest, rfl, hsum⟩ := h.sum_adds
      obtain ⟨kinds', hsum', hthrifty⟩ := ih _ (Nat.lt_succ_self _) hr he hsum rfl
      exact ⟨kinds', hsum', hthrifty.save (by decide)⟩
    | moves hr =>
      obtain ⟨rest, rfl, hsum⟩ := h.sum_moves he
      obtain ⟨kinds', hsum', hthrifty⟩ := ih _ (Nat.lt_succ_self _) hr he hsum rfl
      exact ⟨kinds', hsum', hthrifty.save (by decide)⟩
    | clear hr =>
      rcases h.countdown with ⟨rest, hz, rfl, hrest⟩ | ⟨v, rest, rfl, hrest⟩
      · obtain ⟨kinds', hrest', hthrifty⟩ := ih _ (Nat.lt_succ_self _) hr he hrest rfl
        have hclear : (Action.set 0).perform w = .ok w := by rw [Action.perform, ← hz, World.assign_cell]
        exact ⟨_, .act hclear hrest', hthrifty.replace (.inl rfl) side.kind_ne_output⟩
      · -- one round of the loop changes only the cell that the assignment overwrites
        obtain ⟨kinds', hclear, hthrifty⟩ := ih _ (Nat.lt_succ_of_lt (Nat.lt_succ_self _)) (.clear hr) he hrest rfl
        have hround : Thrifty kinds' (.add :: rest) := hthrifty.save (by decide)
        exact ⟨kinds', hclear.of_assign side, hround.save side.kind_ne_output⟩
    | empty hr =>
      rcases h.spin with ⟨rest, hz, rfl, hrest⟩ | ⟨rest, rfl, hrest⟩
      · obtain ⟨kinds', hrest', hthrifty⟩ := ih _ (Nat.lt_succ_self _) hr he hrest rfl
        exact ⟨_, .act (Action.perform_halt_zero hz) hrest', hthrifty.replace (.inr rfl) side.kind_ne_output⟩
      · obtain ⟨kinds', hhalt, hthrifty⟩ := ih _ (Nat.lt_succ_self _) (.empty hr) he hrest rfl
        exact ⟨kinds', hhalt.of_act side, hthrifty.save side.kind_ne_output⟩

/-- The same after any number of reductions. -/
theorem of_reductions (hbc : Relation.ReflTransGen Reduces b c) (he : ¬ e.LeavesTape)
    (h : Executes side b w e w' kinds) : ∃ kinds', Executes side c w e w' kinds' ∧ Thrifty kinds' kinds := by
  induction hbc with
  | refl => exact ⟨kinds, h, .refl kinds⟩
  | tail _ hred ih =>
    obtain ⟨kinds₁, h₁, hthrifty₁⟩ := ih
    obtain ⟨kinds₂, h₂, hthrifty₂⟩ := of_reduces hred he h₁
    exact ⟨kinds₂, h₂, hthrifty₂.trans hthrifty₁⟩

end Block.Executes

/-! ### Counters -/

variable {after before : List Kind} {c₁ c₂ : Counters}

theorem Thrifty.get_output_eq (h : Thrifty after before) (h₁ : c₁.Counts before) (h₂ : c₂.Counts after) :
    c₂.get .output = c₁.get .output := by
  rw [h₁.get, h₂.get, h.output_eq]

/-- The counters compare as what they count does, unless there are more instructions than a word can count. -/
theorem Thrifty.counters_le (h : Thrifty after before) (h₁ : c₁.Counts before) (h₂ : c₂.Counts after)
    (hlt : before.length < 2 ^ 64) :
    c₂.total ≤ c₁.total ∧ ∀ k ∈ [Kind.add, .move, .loopBegin, .loopEnd], c₂.get k ≤ c₁.get k := by
  refine ⟨?_, fun k hk => ?_⟩
  · have hle := h.length_le
    rw [h₁.total, h₂.total]
    exact (UInt64.ofNat_le_iff_le (Nat.lt_of_le_of_lt hle hlt) hlt).2 hle
  · have hle := h.count_le k hk
    have hbefore : before.count k < 2 ^ 64 := Nat.lt_of_le_of_lt List.count_le_length hlt
    rw [h₁.get, h₂.get]
    exact (UInt64.ofNat_le_iff_le (Nat.lt_of_le_of_lt hle hbefore) hbefore).2 hle

theorem Interpreter.counters_new {capacity : Nat} {m : Interpreter} (hm : Interpreter.new ⟨capacity, true⟩ = .ok m) :
    m.counters = some .zero := by
  simp only [Interpreter.new] at hm
  cases htape : Options.newTape ⟨capacity, true⟩ with
  | error e =>
    rw [htape] at hm
    cases hm
  | ok tape =>
    rw [htape] at hm
    cases hm
    rfl

/-- Where the run of a linked program ends in order, the run of the optimized program does, with the same output. It
executes no more instructions, as many outputs, and no more additions, moves and opening or closing brackets. The
counters of either run have counted what it executes, so they compare likewise as long as the first run is not too long
for a word. -/
theorem Program.optimize_saves_instructions {σ : Type} {p : Program} (hp : p.Linked) {capacity : Nat} {m : Interpreter}
    (hm : Interpreter.new ⟨capacity, true⟩ = .ok m) {sink : Sink σ} {out out₁ : σ} {n : Nat} {halt : Option Nat}
    {m₁ : Interpreter} (hr : m.run p sink n out = (.stopped halt none, m₁, out₁)) :
    ∃ q n' halt' m₂ c₁ c₂, p.optimize = .ok q ∧ m.run q sink n' out = (.stopped halt' none, m₂, out₁) ∧
      Thrifty (m.kinds q sink n' out) (m.kinds p sink n out) ∧
      m₁.counters = some c₁ ∧ c₁.Counts (m.kinds p sink n out) ∧
      m₂.counters = some c₂ ∧ c₂.Counts (m.kinds q sink n' out) ∧
      c₂.get .output = c₁.get .output ∧
      ((m.kinds p sink n out).length < 2 ^ 64 →
        c₂.total ≤ c₁.total ∧ ∀ k ∈ [Kind.add, .move, .loopBegin, .loopEnd], c₂.get k ≤ c₁.get k) := by
  obtain ⟨b, rfl⟩ := Program.linked_iff_block.1 hp
  obtain ⟨c, hq, hbc⟩ := Program.optimize_block b
  obtain ⟨e, w, out', he, hsent, hflush, hexecutes⟩ := Interpreter.executes_of_run hm hr
  have hleaves : ¬ e.LeavesTape := by
    rcases he with rfl | rfl
    · exact id
    · exact id
  obtain ⟨kinds, hexecutes', hthrifty⟩ := hexecutes.of_reductions hbc hleaves
  obtain ⟨n', halt', m₂, hr', rfl⟩ := Interpreter.run_of_executes hm hexecutes' he hsent
  rw [Interpreter.close, hflush] at hr'
  have hzero := Interpreter.counters_new hm
  obtain ⟨c₁, hc₁, hcounts₁⟩ := Interpreter.run_counts hr hzero Counters.counts_zero
  obtain ⟨c₂, hc₂, hcounts₂⟩ := Interpreter.run_counts hr' hzero Counters.counts_zero
  exact ⟨_, n', halt', m₂, c₁, c₂, hq, hr', hthrifty, hc₁, hcounts₁, hc₂, hcounts₂,
    hthrifty.get_output_eq hcounts₁ hcounts₂, hthrifty.counters_le hcounts₁ hcounts₂⟩

/-- Two additions, a loop that counts down from three, and an output are ten instructions. -/
theorem Program.optimize_saves_countdown :
    ∃ m q n halt m₂ c₂, Interpreter.new ⟨3, true⟩ = .ok m ∧
      Program.optimize #[.add 2, .add 1, .loopBegin 4, .add 255, .loopEnd 2, .output] = .ok q ∧
      m.run q Sink.buffer n #[] = (.stopped halt none, m₂, #[0]) ∧ m₂.counters = some c₂ ∧
      c₂.total ≤ 10 ∧ c₂.get .output = 1 := by
  have hlinked : Program.Linked #[.add 2, .add 1, .loopBegin 4, .add 255, .loopEnd 2, .output] :=
    Program.linked_of_block
      (.act (.add 2) (.act (.add 1) (.loop (.act (.add 255) .done) (.act .output .done))))
  obtain ⟨m, m₁, hnew, hrun, hkinds⟩ : ∃ m m₁, Interpreter.new ⟨3, true⟩ = .ok m ∧
      m.run #[.add 2, .add 1, .loopBegin 4, .add 255, .loopEnd 2, .output] Sink.buffer 40 #[] =
        (.stopped none none, m₁, #[0]) ∧
      m.kinds #[.add 2, .add 1, .loopBegin 4, .add 255, .loopEnd 2, .output] Sink.buffer 40 #[] =
        [.add, .add, .loopBegin, .add, .loopEnd, .add, .loopEnd, .add, .loopEnd, .output] :=
    ⟨_, _, rfl, rfl, rfl⟩
  obtain ⟨q, n, halt, m₂, c₁, c₂, hq, hr, -, -, hcounts, hc₂, -, houtput, hle⟩ :=
    Program.optimize_saves_instructions hlinked hnew hrun
  rw [hkinds] at hcounts hle
  obtain ⟨htotal, -⟩ := hle (by decide)
  refine ⟨m, q, n, halt, m₂, c₂, hnew, hq, hr, hc₂, ?_, ?_⟩
  · rwa [hcounts.total] at htotal
  · rw [houtput, hcounts.get]
    decide

end TapeLang
