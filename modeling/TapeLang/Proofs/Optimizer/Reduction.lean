import TapeLang.Proofs.Nesting.Thread

/-!
# Reductions of blocks

`Reduces b c`: block `c` is block `b` with some of the four simplifications made at any number of
places, at any depth: two additions become one, two moves become one, the loop that counts a cell
down becomes an assignment, and a loop without a body becomes `halt`. A thread that ends, other
than by leaving the tape, ends in the same way and in the same world after a reduction of what it has
left to execute, and in no more steps (`run_of_reduces`).

A reduced thread is always compared with one that has the same world. The induction is on the number
of steps and not on the run's shape, since a loop puts a copy of its body in front of itself.
-/

namespace TapeLang

namespace Block

/-- One block arises from another by simplifications. -/
inductive Reduces : Block → Block → Prop where
  | done : Reduces .done .done
  | act {r r' : Block} (a : Action) (h : Reduces r r') : Reduces (.act a r) (.act a r')
  | loop {b b' r r' : Block} (hb : Reduces b b') (hr : Reduces r r') :
    Reduces (.loop b r) (.loop b' r')
  /-- Two additions become one. -/
  | adds {x y : UInt8} {r b : Block} (h : Reduces (.act (.add (x + y)) r) b) :
    Reduces (.act (.add x) (.act (.add y) r)) b
  /-- Two moves become one, with a sum that wraps. -/
  | moves {x y : Int64} {r b : Block} (h : Reduces (.act (.move (x + y)) r) b) :
    Reduces (.act (.move x) (.act (.move y) r)) b
  /-- The loop that counts a cell down clears it. -/
  | clear {r r' : Block} (h : Reduces r r') :
    Reduces (.loop (.act (.add 255) .done) r) (.act (.set 0) r')
  /-- A loop without a body goes on for ever if it is entered. -/
  | empty {r r' : Block} (h : Reduces r r') : Reduces (.loop .done r) (.act .halt r')

namespace Reduces

theorem append {b b' k k' : Block} (hb : Reduces b b') (hk : Reduces k k') :
    Reduces (b ++ k) (b' ++ k') := by
  induction hb with
  | done => exact hk
  | act a _ ih => exact .act a ih
  | loop hbody _ _ ih => exact .loop hbody ih
  | adds _ ih => exact .adds ih
  | moves _ ih => exact .moves ih
  | clear _ ih => exact .clear ih
  | empty _ ih => exact .empty ih

end Reduces

end Block

/-! ### Two moves and their sum -/

/-- Moves that stay on the tape, by where they lead. -/
theorem Action.perform_move_eq_ok_iff {w w' : World} {delta : Int64} :
    (Action.move delta).perform w = .ok w' ↔
      w'.tape = w.tape ∧ w'.output = w.output ∧ (w'.ptr : Int) = w.target delta := by
  simp only [Action.perform]
  constructor
  · intro h
    split at h
    case isFalse => cases h
    case isTrue hin =>
      cases h
      exact ⟨rfl, rfl, Int.toNat_of_nonneg hin.1⟩
  · rintro ⟨ht, ho, hp⟩
    have hlt := w'.ptr_lt
    rw [ht] at hlt
    rw [dif_pos (by omega)]
    exact congrArg Except.ok (World.ext ht.symm (by simp only [World.goTo]; omega) ho.symm)

/-- The sum of two moves does not wrap if both stay on the tape. -/
theorem Action.perform_move_add {w w₁ w₂ : World} {x y : Int64}
    (hx : (Action.move x).perform w = .ok w₁) (hy : (Action.move y).perform w₁ = .ok w₂) :
    (Action.move (x + y)).perform w = .ok w₂ := by
  obtain ⟨ht₁, ho₁, hp₁⟩ := perform_move_eq_ok_iff.1 hx
  obtain ⟨ht₂, ho₂, hp₂⟩ := perform_move_eq_ok_iff.1 hy
  refine perform_move_eq_ok_iff.2 ⟨ht₂.trans ht₁, ho₂.trans ho₁, ?_⟩
  have h₀ := w.ptr_lt
  have h₂ := w₂.ptr_lt
  have hc₀ := w.tape.capacity_lt
  have hc₂ := w₂.tape.capacity_lt
  simp only [World.target] at *
  have hsum : x.toInt + y.toInt = w₂.ptr - w.ptr := by omega
  have hadd : (x + y).toInt = x.toInt + y.toInt := by
    rw [Int64.toInt_add, hsum]
    exact Int.bmod_eq_of_le (by omega) (by omega)
  omega

/-! ### Runs of a reduced block -/

namespace Thread

/-- Leaving the tape. -/
def Ending.LeavesTape : Ending → Prop
  | .failed (.outOfBounds _ _) => True
  | _ => False

/-- A move fails only by leaving the tape. -/
theorem leavesTape_of_perform_move {w : World} {delta : Int64} {e : Ending}
    (h : (Action.move delta).perform w = .error e) : e.LeavesTape := by
  simp only [Action.perform] at h
  split at h
  · cases h
  · cases h
    trivial

/-- Two additions are one step of a thread that adds their sum. -/
theorem run_adds {x y : UInt8} {r : Block} {n : Nat} {w w' : World} {e : Ending}
    (h : run n ⟨.act (.add x) (.act (.add y) r), w⟩ = some (e, w')) :
    ∃ m < n, run m ⟨.act (.add (x + y)) r, w⟩ = some (e, w') := by
  obtain _ | _ | n := n
  · simp [run] at h
  · simp [run, step, Action.perform, Except.map] at h
  have hsum : (w.assign (w.cell + x)).assign ((w.assign (w.cell + x)).cell + y) =
      w.assign (w.cell + (x + y)) := by
    rw [World.assign_assign, World.cell_assign, UInt8.add_assoc]
  rw [run_succ_of_step (step_act_ok rfl), run_succ_of_step (step_act_ok rfl), hsum] at h
  exact ⟨n + 1, by omega, by rw [run_succ_of_step (step_act_ok rfl)]; exact h⟩

/-- Two moves are one step of a thread that moves by their sum, if it does not leave the tape. -/
theorem run_moves {x y : Int64} {r : Block} {n : Nat} {w w' : World} {e : Ending} (he : ¬ e.LeavesTape)
    (h : run n ⟨.act (.move x) (.act (.move y) r), w⟩ = some (e, w')) :
    ∃ m < n, run m ⟨.act (.move (x + y)) r, w⟩ = some (e, w') := by
  obtain _ | n := n
  · simp [run] at h
  cases hx : (Action.move x).perform w with
  | error f =>
    rw [run_succ_of_end (step_act_error hx)] at h
    cases h
    exact absurd (leavesTape_of_perform_move hx) he
  | ok w₁ =>
    rw [run_succ_of_step (step_act_ok hx)] at h
    obtain _ | n := n
    · simp [run] at h
    cases hy : (Action.move y).perform w₁ with
    | error f =>
      rw [run_succ_of_end (step_act_error hy)] at h
      cases h
      exact absurd (leavesTape_of_perform_move hy) he
    | ok w₂ =>
      rw [run_succ_of_step (step_act_ok hy)] at h
      refine ⟨n + 1, by omega, ?_⟩
      rw [run_succ_of_step (step_act_ok (Action.perform_move_add hx hy))]
      exact h

/-- A thread that ends without leaving the tape ends alike, and no later, when what it has left to
execute is reduced. -/
theorem run_of_reduces {b c : Block} (hbc : b.Reduces c) {n : Nat} {w w' : World} {e : Ending}
    (he : ¬ e.LeavesTape) (h : run n ⟨b, w⟩ = some (e, w')) :
    ∃ m ≤ n, run m ⟨c, w⟩ = some (e, w') := by
  induction n using Nat.strongRecOn generalizing b c w with
  | ind n ih =>
    obtain _ | n := n
    · simp [run] at h
    cases hbc with
    | done => exact ⟨n + 1, Nat.le_refl _, h⟩
    | act a hr =>
      cases ha : a.perform w with
      | error f =>
        rw [run_succ_of_end (step_act_error ha)] at h
        exact ⟨n + 1, Nat.le_refl _, by rw [run_succ_of_end (step_act_error ha)]; exact h⟩
      | ok w₁ =>
        rw [run_succ_of_step (step_act_ok ha)] at h
        obtain ⟨m, hm, hrun⟩ := ih n (by omega) hr h
        exact ⟨m + 1, by omega, by rw [run_succ_of_step (step_act_ok ha)]; exact hrun⟩
    | loop hb hr =>
      by_cases hw : w.cell = 0
      · rw [run_succ_of_step (step_loop_zero hw)] at h
        obtain ⟨m, hm, hrun⟩ := ih n (by omega) hr h
        exact ⟨m + 1, by omega, by rw [run_succ_of_step (step_loop_zero hw)]; exact hrun⟩
      · rw [run_succ_of_step (step_loop_live hw)] at h
        obtain ⟨m, hm, hrun⟩ := ih n (by omega) (hb.append (.loop hb hr)) h
        exact ⟨m + 1, by omega, by rw [run_succ_of_step (step_loop_live hw)]; exact hrun⟩
    | adds hr =>
      obtain ⟨k, hk, hone⟩ := run_adds h
      obtain ⟨m, hm, hrun⟩ := ih k hk hr hone
      exact ⟨m, by omega, hrun⟩
    | moves hr =>
      obtain ⟨k, hk, hone⟩ := run_moves he h
      obtain ⟨m, hm, hrun⟩ := ih k hk hr hone
      exact ⟨m, by omega, hrun⟩
    | clear hr =>
      by_cases hw : w.cell = 0
      · rw [run_succ_of_step (step_loop_zero hw)] at h
        obtain ⟨m, hm, hrun⟩ := ih n (by omega) hr h
        refine ⟨m + 1, by omega, ?_⟩
        rw [run_succ_of_step (step_act_ok rfl), show w.assign 0 = w by rw [← hw, World.assign_cell]]
        exact hrun
      · -- one round of the loop changes only the cell that the assignment overwrites
        rw [run_succ_of_step (step_loop_live hw)] at h
        obtain _ | n := n
        · simp [run] at h
        rw [Block.act_append, Block.done_append, run_succ_of_step (step_act_ok rfl)] at h
        obtain ⟨m, hm, hrun⟩ := ih n (by omega) (.clear hr) h
        obtain _ | m := m
        · simp [run] at hrun
        rw [run_succ_of_step (step_act_ok rfl), World.assign_assign] at hrun
        exact ⟨m + 1, by omega, by rw [run_succ_of_step (step_act_ok rfl)]; exact hrun⟩
    | empty hr =>
      by_cases hw : w.cell = 0
      · rw [run_succ_of_step (step_loop_zero hw)] at h
        obtain ⟨m, hm, hrun⟩ := ih n (by omega) hr h
        exact ⟨m + 1, by omega, by rw [run_succ_of_step (step_act_ok (Action.perform_halt_zero hw))]; exact hrun⟩
      · rw [run_succ_of_step (step_loop_live hw), Block.done_append] at h
        obtain ⟨m, hm, hrun⟩ := ih n (by omega) (.empty hr) h
        exact ⟨m, by omega, hrun⟩

end Thread

end TapeLang
