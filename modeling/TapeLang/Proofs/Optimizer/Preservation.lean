import TapeLang.Proofs.Nesting.Runs
import TapeLang.Proofs.Optimizer.Sweep

/-!
# Optimizing preserves what a program does

The optimizer takes the block of a linked program through reductions (`Program.optimize_block`), a
reduction preserves every ending but that of leaving the tape (`Thread.run_of_reduces`), and the
interpreter ends as the thread of its block does (`Matches.run`). So a run of a program that ends in
order, or at an input, ends in the same way after optimizing.

A run that leaves the tape is left out: two moves, the first of which leaves the tape and the second
of which comes back, become one that stays on it.
-/

namespace TapeLang

/-- A thread that ends without leaving the tape ends alike after any number of reductions. -/
theorem Thread.run_of_reductions {b c : Block} (hbc : Relation.ReflTransGen Block.Reduces b c) {n : Nat}
    {w w' : World} {e : Thread.Ending} (he : ¬ e.LeavesTape) (h : Thread.run n ⟨b, w⟩ = some (e, w')) :
    ∃ m ≤ n, Thread.run m ⟨c, w⟩ = some (e, w') := by
  induction hbc with
  | refl => exact ⟨n, Nat.le_refl _, h⟩
  | tail _ hred ih =>
    obtain ⟨m₁, hm₁, h₁⟩ := ih
    obtain ⟨m₂, hm₂, h₂⟩ := run_of_reduces hred he h₁
    exact ⟨m₂, Nat.le_trans hm₂ hm₁, h₂⟩

namespace Matches

variable {σ : Type} {sink : Sink σ} {m : Interpreter}

/-- A run of the interpreter that ends without leaving the tape ends alike after reductions. -/
theorem run_of_reductions (hs : sink.Faultless) {b c : Block}
    (hbc : Relation.ReflTransGen Block.Reduces b c) {options : Options}
    (hm : Interpreter.new options = .ok m) (out : σ) {n : Nat} {ending : Interpreter.Ending}
    {m₁ : Interpreter} {out₁ : σ} (hr : m.run (b.linkedFrom 0).toArray sink n out = (ending, m₁, out₁))
    (hend : ending ≠ .unfinished) (hin : ∀ index capacity, ending ≠ .failed (.outOfBounds index capacity)) :
    ∃ e w n' ending' m₂ out₂, EndsWith e w sink out ending m₁ out₁ ∧
      m.run (c.linkedFrom 0).toArray sink n' out = (ending', m₂, out₂) ∧
      EndsWith e w sink out ending' m₂ out₂ := by
  obtain ⟨e, w, hrun, hends⟩ := (start b sink out hm).exists_end hs hr hend
  have he : ¬ e.LeavesTape := by
    intro hleaves
    cases hends.ending with
    | finished => exact hleaves
    | halted ip => exact hleaves
    | input ip => exact hleaves
    | outOfBounds index capacity => exact hin index capacity rfl
  obtain ⟨n', _, hrun'⟩ := Thread.run_of_reductions hbc he hrun
  have hends' := (start c sink out hm).run hs n'
  rw [hrun'] at hends'
  obtain ⟨ending', m₂, out₂, heq, hends'⟩ := hends'
  exact ⟨e, w, n', ending', m₂, out₂, hends, heq, hends'⟩

end Matches

/-- Optimizing a linked program succeeds, and preserves what the interpreter does from the zeroed
tape: a run that ends in order, at the end of the program or at an empty loop, does so after
optimizing, and a run that fails at an input fails at an input, in either case with the same output
and on the same tape. -/
theorem Program.optimize_preserves_runs {σ : Type} {p : Program} (hp : p.Linked) {options : Options}
    {m : Interpreter} (hm : Interpreter.new options = .ok m) {sink : Sink σ} (hs : sink.Faultless)
    (out : σ) :
    ∃ q : Program, p.optimize = .ok q ∧
      (∀ n halt m₁ out₁, m.run p sink n out = (.stopped halt none, m₁, out₁) →
        ∃ n' halt' m₂, m.run q sink n' out = (.stopped halt' none, m₂, out₁) ∧
          halt'.isSome = halt.isSome ∧ m₂.tape = m₁.tape ∧ m₂.cursor.ptr = m₁.cursor.ptr ∧
          m₂.halted = m₁.halted) ∧
      ∀ n ip m₁ out₁, m.run p sink n out = (.failed (.inputUnsupported ip), m₁, out₁) →
        ∃ n' ip' m₂, m.run q sink n' out = (.failed (.inputUnsupported ip'), m₂, out₁) ∧
          m₂.tape = m₁.tape ∧ m₂.cursor.ptr = m₁.cursor.ptr ∧ m₂.halted = m₁.halted := by
  obtain ⟨b, rfl⟩ := Program.linked_iff_block.1 hp
  obtain ⟨c, hq, hbc⟩ := Program.optimize_block b
  refine ⟨_, hq, ?_, ?_⟩
  · intro n halt m₁ out₁ hr
    obtain ⟨e, w, n', ending', m₂, out₂, h, hr', h'⟩ :=
      Matches.run_of_reductions hs hbc hm out hr (by simp) (by simp)
    obtain ⟨rfl, htape, hptr, hhalted⟩ := h.agree h'
    cases h.ending with
    | finished =>
      cases h'.ending with
      | finished => exact ⟨n', none, m₂, hr', rfl, htape, hptr, hhalted⟩
    | halted ip =>
      cases h'.ending with
      | halted ip' => exact ⟨n', some ip', m₂, hr', rfl, htape, hptr, hhalted⟩
  · intro n ip m₁ out₁ hr
    obtain ⟨e, w, n', ending', m₂, out₂, h, hr', h'⟩ :=
      Matches.run_of_reductions hs hbc hm out hr (by simp) (by simp)
    obtain ⟨rfl, htape, hptr, hhalted⟩ := h.agree h'
    cases h.ending with
    | input =>
      cases h'.ending with
      | input ip' => exact ⟨n', ip', m₂, hr', htape, hptr, hhalted⟩

/-- Two additions, a loop that counts down, and an output, on a tape of three cells. -/
theorem Program.optimize_preserves_countdown :
    ∃ m q n halt m₂, Interpreter.new ⟨3, false⟩ = .ok m ∧
      Program.optimize #[.add 2, .add 1, .loopBegin 4, .add 255, .loopEnd 2, .output] = .ok q ∧
      Interpreter.run q Sink.buffer n m #[] = (.stopped halt none, m₂, #[0]) := by
  have hlinked := Program.linked_of_block
    (.act (.add 2) (.act (.add 1) (.loop (.act (.add 255) .done) (.act .output .done))))
  have hnew : Interpreter.new ⟨3, false⟩ = .ok _ := rfl
  obtain ⟨q, hq, hstops, _⟩ := Program.optimize_preserves_runs hlinked hnew Sink.buffer_faultless #[]
  obtain ⟨n, halt, m₂, hrun, _⟩ := hstops 40 none _ #[0] rfl
  exact ⟨_, q, n, halt, m₂, hnew, hq, hrun⟩

end TapeLang
