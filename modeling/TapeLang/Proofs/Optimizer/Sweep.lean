import Mathlib.Logic.Relation
import TapeLang.Program.Peephole
import TapeLang.Proofs.Nesting.Linked
import TapeLang.Proofs.Optimizer.Reduction

/-!
# Sweeps reduce blocks

A sweep reads a flat program and knows nothing of nesting, but no rewrite crosses a bracket: over the
listing of a block, whatever its loop targets, it writes the listing of a reduced block and goes on
with what follows (`sweepFrom_block`). Hence simplifying the listing of a block gives the listing of
one that repeated reductions lead to (`simplify_block`), and optimizing it gives that one linked.
-/

namespace TapeLang

open Block (Reduces)

namespace Program

/-- What a sweep can find behind a block: nothing, or the end of the loop around it. -/
def Closes : List Instruction → Prop
  | [] => True
  | .loopEnd _ :: _ => True
  | _ => False

variable {l after : List Instruction} {b : Block}

/-! ### Folding runs -/

theorem foldAdds_of_closes (h : Closes after) (sum : UInt8) : foldAdds sum after = (sum, after) := by
  cases after with
  | nil => rfl
  | cons i after => cases i <;> first | rfl | exact h.elim

theorem foldMoves_of_closes (h : Closes after) (sum : Int64) : foldMoves sum after = (sum, after) := by
  cases after with
  | nil => rfl
  | cons i after => cases i <;> first | rfl | exact h.elim

/-- Folding additions into one that stands before a block. -/
theorem foldAdds_block (b : Block) (sum : UInt8) (hl : l.map Instruction.erase = b.instructions)
    (h : Closes after) :
    ∃ (total : UInt8) (l' : List Instruction) (b' : Block),
      foldAdds sum (l ++ after) = (total, l' ++ after) ∧ l'.map Instruction.erase = b'.instructions ∧
      b'.size ≤ b.size ∧
      ∀ c, Reduces b' c → Reduces (.act (.add sum) b) (.act (.add total) c) := by
  induction b generalizing sum l with
  | done =>
    obtain rfl : l = [] := List.map_eq_nil_iff.1 hl
    exact ⟨sum, [], .done, foldAdds_of_closes h sum, rfl, Nat.le_refl _, fun c hc => .act _ hc⟩
  | act a rest ih =>
    obtain ⟨i, lr, rfl, hi, hr⟩ := List.map_eq_cons_iff.1 hl
    obtain rfl : i = a.instruction := Instruction.eq_of_erase_eq hi
    cases a with
    | add delta =>
      obtain ⟨total, l', b', hfold, hl', hsize, hred⟩ := ih (sum + delta) hr
      exact ⟨total, l', b', hfold, hl', Nat.le_succ_of_le hsize, fun c hc => .adds (hred c hc)⟩
    | _ => exact ⟨sum, _, _, rfl, hl, Nat.le_refl _, fun c hc => .act _ hc⟩
  | loop body rest _ _ =>
    obtain ⟨close, lb, start, lr, rfl, -, -⟩ := Block.eq_of_map_erase_loop hl
    exact ⟨sum, _, _, rfl, hl, Nat.le_refl _, fun c hc => .act _ hc⟩

/-- Folding moves into one that stands before a block. -/
theorem foldMoves_block (b : Block) (sum : Int64) (hl : l.map Instruction.erase = b.instructions)
    (h : Closes after) :
    ∃ (total : Int64) (l' : List Instruction) (b' : Block),
      foldMoves sum (l ++ after) = (total, l' ++ after) ∧ l'.map Instruction.erase = b'.instructions ∧
      b'.size ≤ b.size ∧
      ∀ c, Reduces b' c → Reduces (.act (.move sum) b) (.act (.move total) c) := by
  induction b generalizing sum l with
  | done =>
    obtain rfl : l = [] := List.map_eq_nil_iff.1 hl
    exact ⟨sum, [], .done, foldMoves_of_closes h sum, rfl, Nat.le_refl _, fun c hc => .act _ hc⟩
  | act a rest ih =>
    obtain ⟨i, lr, rfl, hi, hr⟩ := List.map_eq_cons_iff.1 hl
    obtain rfl : i = a.instruction := Instruction.eq_of_erase_eq hi
    cases a with
    | move delta =>
      obtain ⟨total, l', b', hfold, hl', hsize, hred⟩ := ih (sum + delta) hr
      exact ⟨total, l', b', hfold, hl', Nat.le_succ_of_le hsize, fun c hc => .moves (hred c hc)⟩
    | _ => exact ⟨sum, _, _, rfl, hl, Nat.le_refl _, fun c hc => .act _ hc⟩
  | loop body rest _ _ =>
    obtain ⟨close, lb, start, lr, rfl, -, -⟩ := Block.eq_of_map_erase_loop hl
    exact ⟨sum, _, _, rfl, hl, Nat.le_refl _, fun c hc => .act _ hc⟩

/-! ### One sweep -/

theorem sweepFrom_of_rewrite? {written : Program} {changed : Bool} {i j : Instruction}
    {rest rest' : List Instruction} (h : rewrite? (i :: rest) = some (j, rest')) :
    sweepFrom written changed (i :: rest) = sweepFrom (written.push j) true rest' := by
  rw [sweepFrom]
  split
  · simp_all
  · simp_all

theorem sweepFrom_of_rewrite?_none {written : Program} {changed : Bool} {i : Instruction}
    {rest : List Instruction} (h : rewrite? (i :: rest) = none) :
    sweepFrom written changed (i :: rest) = sweepFrom (written.push i) changed rest := by
  rw [sweepFrom]
  split
  · simp_all
  · simp_all

/-! ### How a listing starts -/

section Listing

variable {t : List Instruction} (hl : l.map Instruction.erase = b.instructions) (h : Closes after)
include hl h

theorem act_of_append_eq_cons {a : Action} (heq : l ++ after = a.instruction :: t) :
    ∃ (lr : List Instruction) (rest : Block), l = a.instruction :: lr ∧ b = .act a rest ∧ t = lr ++ after ∧
      lr.map Instruction.erase = rest.instructions := by
  cases b with
  | done =>
    obtain rfl : l = [] := List.map_eq_nil_iff.1 hl
    obtain rfl : after = a.instruction :: t := heq
    cases a <;> exact h.elim
  | act a' rest =>
    obtain ⟨i, lr, rfl, hi, hlr⟩ := List.map_eq_cons_iff.1 hl
    obtain rfl : i = a'.instruction := Instruction.eq_of_erase_eq hi
    obtain ⟨ha, rfl⟩ := List.cons.inj heq
    obtain rfl : a' = a := Action.instruction_injective ha
    exact ⟨lr, rest, rfl, rfl, rfl, hlr⟩
  | loop body rest =>
    obtain ⟨close, lb, start, lr, rfl, -, -⟩ := Block.eq_of_map_erase_loop hl
    cases a <;> cases heq

theorem loop_of_append_eq_cons {close : Nat} (heq : l ++ after = .loopBegin close :: t) :
    ∃ (lb lr : List Instruction) (start : Nat) (body rest : Block), b = .loop body rest ∧
      t = lb ++ .loopEnd start :: (lr ++ after) ∧ lb.map Instruction.erase = body.instructions ∧
      lr.map Instruction.erase = rest.instructions := by
  cases b with
  | done =>
    obtain rfl : l = [] := List.map_eq_nil_iff.1 hl
    obtain rfl : after = .loopBegin close :: t := heq
    exact h.elim
  | act a rest =>
    obtain ⟨i, lr, rfl, hi, -⟩ := List.map_eq_cons_iff.1 hl
    obtain rfl : i = a.instruction := Instruction.eq_of_erase_eq hi
    cases a <;> cases heq
  | loop body rest =>
    obtain ⟨close', lb, start, lr, rfl, hlb, hlr⟩ := Block.eq_of_map_erase_loop hl
    obtain ⟨-, rfl⟩ := List.cons.inj heq
    exact ⟨lb, lr, start, body, rest, rfl, by simp, hlb, hlr⟩

omit h in
theorem done_of_append_eq_cons {start : Nat} (heq : l ++ after = .loopEnd start :: t) : l = [] ∧ b = .done := by
  cases b with
  | done => exact ⟨List.map_eq_nil_iff.1 hl, rfl⟩
  | act a rest =>
    obtain ⟨i, lr, rfl, hi, -⟩ := List.map_eq_cons_iff.1 hl
    obtain rfl : i = a.instruction := Instruction.eq_of_erase_eq hi
    cases a <;> cases heq
  | loop body rest =>
    obtain ⟨close, lb, start', lr, rfl, -, -⟩ := Block.eq_of_map_erase_loop hl
    cases heq

end Listing

/-- What a rewrite at the start of a block makes of it, if one applies there. -/
theorem rewrite?_block (hl : l.map Instruction.erase = b.instructions) (h : Closes after)
    {j : Instruction} {rest : List Instruction} (hr : rewrite? (l ++ after) = some (j, rest)) :
    ∃ (a : Action) (l' : List Instruction) (b' : Block), j = a.instruction ∧ rest = l' ++ after ∧
      l'.map Instruction.erase = b'.instructions ∧ b'.size < b.size ∧
      ∀ c, Reduces b' c → Reduces b (.act a c) := by
  rcases rewrite?_cases hr with ⟨x, y, r, sum, heq, hfold, rfl⟩ | ⟨x, y, r, sum, heq, hfold, rfl⟩ |
    ⟨close, start, heq, rfl⟩ | ⟨close, start, heq, rfl⟩
  · obtain ⟨lr, b₁, rfl, rfl, heq, hlr⟩ := act_of_append_eq_cons (a := .add x) hl h heq
    obtain ⟨lt, b₂, rfl, rfl, rfl, hlt⟩ := act_of_append_eq_cons (a := .add y) hlr h heq.symm
    obtain ⟨total, l', b', hfold', hl', hsize, hred⟩ := foldAdds_block b₂ (x + y) hlt h
    obtain ⟨rfl, rfl⟩ := Prod.mk.inj (hfold'.symm.trans hfold)
    refine ⟨.add total, l', b', rfl, rfl, hl', ?_, fun c hc => .adds (hred c hc)⟩
    simp only [Block.size]
    omega
  · obtain ⟨lr, b₁, rfl, rfl, heq, hlr⟩ := act_of_append_eq_cons (a := .move x) hl h heq
    obtain ⟨lt, b₂, rfl, rfl, rfl, hlt⟩ := act_of_append_eq_cons (a := .move y) hlr h heq.symm
    obtain ⟨total, l', b', hfold', hl', hsize, hred⟩ := foldMoves_block b₂ (x + y) hlt h
    obtain ⟨rfl, rfl⟩ := Prod.mk.inj (hfold'.symm.trans hfold)
    refine ⟨.move total, l', b', rfl, rfl, hl', ?_, fun c hc => .moves (hred c hc)⟩
    simp only [Block.size]
    omega
  · -- behind the body stands the end of the loop, so that the body is the addition alone
    obtain ⟨lb, lr, start', body, b₁, rfl, heq, hlb, hlr⟩ := loop_of_append_eq_cons hl h heq
    have hend : Closes (.loopEnd start' :: (lr ++ after)) := trivial
    obtain ⟨lt, b₂, rfl, rfl, heq, hlt⟩ := act_of_append_eq_cons (a := .add 255) hlb hend heq.symm
    obtain ⟨rfl, rfl⟩ := done_of_append_eq_cons hlt heq.symm
    obtain ⟨-, rfl⟩ := List.cons.inj heq
    refine ⟨.set 0, lr, b₁, rfl, rfl, hlr, ?_, fun c hc => .clear hc⟩
    simp only [Block.size]
    omega
  · obtain ⟨lb, lr, start', body, b₁, rfl, heq, hlb, hlr⟩ := loop_of_append_eq_cons hl h heq
    obtain ⟨rfl, rfl⟩ := done_of_append_eq_cons hlb heq.symm
    obtain ⟨-, rfl⟩ := List.cons.inj heq
    refine ⟨.halt, lr, b₁, rfl, rfl, hlr, ?_, fun c hc => .empty hc⟩
    simp only [Block.size]
    omega

/-- A sweep writes the listing of a reduced block and goes on behind it. -/
theorem sweepFrom_block (b : Block) (written : Program) (changed : Bool)
    (hl : l.map Instruction.erase = b.instructions) (h : Closes after) :
    ∃ (l' : List Instruction) (b' : Block) (changed' : Bool),
      sweepFrom written changed (l ++ after) = sweepFrom (written ++ l'.toArray) changed' after ∧
      l'.map Instruction.erase = b'.instructions ∧ Reduces b b' := by
  induction hn : b.size using Nat.strongRecOn generalizing b l after written changed with
  | ind n ih =>
    subst hn
    cases hr : rewrite? (l ++ after) with
    | some r =>
      obtain ⟨j, rest⟩ := r
      obtain ⟨a, l₁, b₁, rfl, rfl, hl₁, hsize, hred⟩ := rewrite?_block hl h hr
      obtain ⟨l', b', changed', hrun, hl', hb'⟩ := ih _ hsize b₁ (written.push a.instruction) true hl₁ h rfl
      refine ⟨a.instruction :: l', .act a b', changed', ?_, by simp [hl', Block.instructions], hred b' hb'⟩
      obtain ⟨i, t, ht⟩ : ∃ i t, l ++ after = i :: t := by
        cases hlist : l ++ after with
        | nil => rw [hlist] at hr; simp [rewrite?] at hr
        | cons i t => exact ⟨i, t, rfl⟩
      rw [ht] at hr ⊢
      rw [sweepFrom_of_rewrite? hr, hrun]
      simp
    | none =>
      cases b with
      | done =>
        obtain rfl : l = [] := List.map_eq_nil_iff.1 hl
        exact ⟨[], .done, changed, by simp, rfl, .done⟩
      | act a rest =>
        obtain ⟨i, lr, rfl, hi, hlr⟩ := List.map_eq_cons_iff.1 hl
        obtain rfl : i = a.instruction := Instruction.eq_of_erase_eq hi
        obtain ⟨l', b', changed', hrun, hl', hb'⟩ :=
          ih rest.size (Nat.lt_succ_self _) rest (written.push a.instruction) changed hlr h rfl
        refine ⟨a.instruction :: l', .act a b', changed', ?_, by simp [hl', Block.instructions], .act a hb'⟩
        rw [List.cons_append] at hr
        rw [List.cons_append, sweepFrom_of_rewrite?_none hr, hrun]
        simp
      | loop body rest =>
        obtain ⟨close, lb, start, lr, rfl, hlb, hlr⟩ := Block.eq_of_map_erase_loop hl
        -- the body is swept with the end of the loop behind it, and that end is copied
        obtain ⟨l₁, body', changed₁, hrun₁, hl₁, hbody⟩ :=
          @ih body.size (by simp only [Block.size]; omega) lb (.loopEnd start :: (lr ++ after)) body
            (written.push (.loopBegin close)) changed hlb trivial rfl
        obtain ⟨l₂, rest', changed₂, hrun₂, hl₂, hrest⟩ :=
          ih rest.size (by simp only [Block.size]; omega) rest
            ((written.push (.loopBegin close) ++ l₁.toArray).push (.loopEnd start)) changed₁ hlr h rfl
        refine ⟨.loopBegin close :: (l₁ ++ .loopEnd start :: l₂), .loop body' rest', changed₂, ?_,
          by simp [hl₁, hl₂, Block.instructions, Instruction.erase], .loop hbody hrest⟩
        have hend : rewrite? (.loopEnd start :: (lr ++ after)) = none := by simp [rewrite?]
        rw [List.cons_append] at hr
        rw [List.cons_append, sweepFrom_of_rewrite?_none hr, List.append_assoc, List.cons_append, hrun₁,
          sweepFrom_of_rewrite?_none hend, hrun₂]
        simp

/-- A sweep of the listing of a block, whatever its loop targets. -/
theorem sweep_block {p : Program} (hp : p.toList.map Instruction.erase = b.instructions) :
    ∃ b' : Block, p.sweep.program.toList.map Instruction.erase = b'.instructions ∧ Reduces b b' := by
  have hnil : Closes [] := trivial
  obtain ⟨l', b', changed', hrun, hl', hb'⟩ := sweepFrom_block b #[] false hp hnil
  refine ⟨b', ?_, hb'⟩
  have hsweep : p.sweep.program = l'.toArray := by
    rw [sweep, show p.toList = p.toList ++ [] by simp, hrun]
    simp [sweepFrom]
  rw [hsweep]
  exact hl'

/-! ### All sweeps -/

theorem simplify_of_changed {p q : Program} (h : p.sweep = ⟨q, true⟩) : p.simplify = q.simplify := by
  rw [simplify]
  split
  · rename_i q' hq
    rw [h] at hq
    cases hq
    rfl
  · rename_i q' hq
    rw [h] at hq
    cases hq

theorem simplify_of_unchanged {p q : Program} (h : p.sweep = ⟨q, false⟩) : p.simplify = q := by
  rw [simplify]
  split
  · rename_i q' hq
    rw [h] at hq
    cases hq
  · rename_i q' hq
    rw [h] at hq
    cases hq
    rfl

/-- Simplifying the listing of a block gives the listing of one that reductions lead to. -/
theorem simplify_block {p : Program} (hp : p.toList.map Instruction.erase = b.instructions) :
    ∃ b' : Block, p.simplify.toList.map Instruction.erase = b'.instructions ∧
      Relation.ReflTransGen Reduces b b' := by
  induction hn : p.size using Nat.strongRecOn generalizing p b with
  | ind n ih =>
    subst hn
    obtain ⟨b₁, hb₁, hred⟩ := sweep_block hp
    rw [simplify]
    split
    · rename_i q hq
      have hlt : q.size < p.size := by
        have := size_sweep_lt (p := p) (by rw [hq])
        rwa [hq] at this
      rw [hq] at hb₁
      obtain ⟨b', hb', hreds⟩ := ih q.size hlt hb₁ rfl
      exact ⟨b', hb', .head hred hreds⟩
    · rename_i q hq
      rw [hq] at hb₁
      exact ⟨b₁, hb₁, .single hred⟩

/-- Optimizing a linked program: it succeeds, and the result is linked and lists a block that
reductions of the program's block lead to. -/
theorem optimize_block (b : Block) :
    ∃ b' : Block, optimize (b.linkedFrom 0).toArray = .ok (b'.linkedFrom 0).toArray ∧
      Relation.ReflTransGen Reduces b b' := by
  obtain ⟨b', hb', hreds⟩ := simplify_block (p := (b.linkedFrom 0).toArray) (b := b) (by simp)
  exact ⟨b', linked_eq_ok_of_map_erase hb', hreds⟩

end Program

end TapeLang
