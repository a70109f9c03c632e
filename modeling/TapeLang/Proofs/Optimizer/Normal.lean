import TapeLang.Proofs.Optimizer.Targets

/-!
# Normal forms

A redex is what a rewrite starts at: two additions or two moves side by side, the loop that counts a cell down, or a
loop without a body. A program is normal if none of its parts is a redex (`Program.Normal`); this says nothing of
sweeps.

A rewrite applies at a place exactly if a redex starts there (`rewrite?_isSome_iff`), so a sweep says that it has
changed nothing exactly if it reads a normal program (`changed_sweep_iff`), and gives that program back
(`sweep_of_normal`). Simplifying ends with such a sweep. Redexes do not depend on targets, so linking keeps a program
normal, and optimizing a second time has nothing to do (`optimize_normal`).
-/

namespace TapeLang.Program

/-- What a rewrite starts at. -/
inductive Redex : List Instruction → Prop where
  | adds (a b : UInt8) : Redex [.add a, .add b]
  | moves (a b : Int64) : Redex [.move a, .move b]
  | clear (close start : Nat) : Redex [.loopBegin close, .add 255, .loopEnd start]
  | empty (close start : Nat) : Redex [.loopBegin close, .loopEnd start]

/-- No part of a sequence is a redex. -/
def Normal (l : List Instruction) : Prop := ∀ s, Redex s → ¬ s <:+: l

variable {l : List Instruction} {i : Instruction} {p q : Program}

/-! ### Places where no rewrite applies -/

/-- A rewrite applies exactly where a redex starts. -/
theorem rewrite?_isSome_iff (l : List Instruction) : (rewrite? l).isSome ↔ ∃ s, Redex s ∧ s <+: l := by
  constructor
  · intro h
    obtain ⟨⟨j, rest⟩, hr⟩ := Option.isSome_iff_exists.1 h
    rcases rewrite?_cases hr with ⟨a, b, r, sum, rfl, -, -⟩ | ⟨a, b, r, sum, rfl, -, -⟩ | ⟨close, start, rfl, -⟩ |
      ⟨close, start, rfl, -⟩
    · exact ⟨_, .adds a b, r, rfl⟩
    · exact ⟨_, .moves a b, r, rfl⟩
    · exact ⟨_, .clear close start, rest, rfl⟩
    · exact ⟨_, .empty close start, rest, rfl⟩
  · rintro ⟨s, hs, rest, rfl⟩
    cases hs <;> simp [rewrite?]

theorem normal_nil : Normal [] := by
  intro s hs hin
  obtain rfl := List.infix_nil.1 hin
  cases hs

theorem normal_cons : Normal (i :: l) ↔ rewrite? (i :: l) = none ∧ Normal l := by
  have hstart : rewrite? (i :: l) = none ↔ ∀ s, Redex s → ¬ s <+: i :: l := by
    rw [← Option.not_isSome_iff_eq_none, rewrite?_isSome_iff]
    simp
  simp only [hstart, Normal, List.infix_cons_iff, not_or]
  exact ⟨fun h => ⟨fun s hs => (h s hs).1, fun s hs => (h s hs).2⟩, fun h s hs => ⟨h.1 s hs, h.2 s hs⟩⟩

/-- Whether a sequence is normal is no matter of the targets. -/
theorem normal_map_erase : Normal (l.map Instruction.erase) ↔ Normal l := by
  induction l with
  | nil => rfl
  | cons i l ih =>
    have herase := rewrite?_map_erase (i :: l)
    rw [List.map_cons] at herase ⊢
    rw [normal_cons, normal_cons, ih, herase, Option.map_eq_none_iff]

/-! ### Sweeps of normal programs -/

theorem changed_sweepFrom_iff (written : Program) (changed : Bool) (l : List Instruction) :
    (sweepFrom written changed l).changed = false ↔ changed = false ∧ Normal l := by
  fun_induction sweepFrom written changed l with
  | case1 => simp [normal_nil]
  | case2 written changed i rest j rest' hr ih => simp [ih, normal_cons, hr]
  | case3 written changed i rest hr ih => simp [ih, normal_cons, hr]

theorem sweepFrom_of_normal (h : Normal l) (written : Program) (changed : Bool) :
    sweepFrom written changed l = ⟨written ++ l, changed⟩ := by
  induction l generalizing written with
  | nil => simp [sweepFrom]
  | cons i l ih =>
    obtain ⟨hi, hl⟩ := normal_cons.1 h
    rw [sweepFrom_of_rewrite?_none hi, ih hl]
    simp

/-- A sweep changes nothing exactly if it reads a normal program. -/
theorem changed_sweep_iff (p : Program) : p.sweep.changed = false ↔ Normal p.toList := by
  simp [sweep, changed_sweepFrom_iff]

theorem sweep_of_normal (h : Normal p.toList) : p.sweep = ⟨p, false⟩ := by
  rw [sweep, sweepFrom_of_normal h]
  simp

theorem simplify_of_normal (h : Normal p.toList) : p.simplify = p := simplify_of_unchanged (sweep_of_normal h)

theorem normal_simplify (p : Program) : Normal p.simplify.toList := by
  fun_induction simplify p with
  | case1 p q hsweep _ ih => exact ih
  | case2 p q hsweep =>
    have hp : Normal p.toList := by rw [← changed_sweep_iff, hsweep]
    rw [sweep_of_normal hp] at hsweep
    cases hsweep
    exact hp

/-! ### What the optimizer gives -/

/-- Linking a program changes its targets only. -/
theorem erased_of_linked (h : p.linked = .ok q) : q.erased = p.erased := by
  have herased := erased_link p
  rw [linked] at h
  split at h
  · rename_i q' hlink
    cases h
    rwa [hlink] at herased
  · cases h

theorem normal_of_optimize (h : p.optimize = .ok q) : Normal q.toList := by
  have herased := congrArg Array.toList (erased_of_linked h)
  rw [toList_erased, toList_erased] at herased
  rw [← normal_map_erase, herased, normal_map_erase]
  exact normal_simplify p

/-- What the optimizer gives is normal. Another sweep gives it back and says that nothing has changed, and so does
optimizing it again. -/
theorem optimize_normal (h : p.optimize = .ok q) :
    Normal q.toList ∧ q.sweep = ⟨q, false⟩ ∧ q.optimize = .ok q := by
  have hq := normal_of_optimize h
  refine ⟨hq, sweep_of_normal hq, ?_⟩
  rw [optimize, simplify_of_normal hq, linked, (linked_of_optimize h).matched.link_eq]

/-- A loop around `[+--]`, with targets that point nowhere: folding its additions makes a loop that counts down. -/
theorem optimize_normal_fold :
    optimize #[.loopBegin 9, .loopBegin 7, .add 1, .add 255, .add 255, .loopEnd 8, .loopEnd 6] =
        .ok #[.loopBegin 2, .set 0, .loopEnd 0] ∧
      Normal [.loopBegin 2, .set 0, .loopEnd 0] ∧
      sweep #[.loopBegin 2, .set 0, .loopEnd 0] = ⟨#[.loopBegin 2, .set 0, .loopEnd 0], false⟩ ∧
      optimize #[.loopBegin 2, .set 0, .loopEnd 0] = .ok #[.loopBegin 2, .set 0, .loopEnd 0] := by
  have h : optimize #[.loopBegin 9, .loopBegin 7, .add 1, .add 255, .add 255, .loopEnd 8, .loopEnd 6] =
      .ok #[.loopBegin 2, .set 0, .loopEnd 0] := by decide +kernel
  exact ⟨h, optimize_normal h⟩

end TapeLang.Program
