import TapeLang.Proofs.Optimizer.Normal

/-!
# How many sweeps simplifying takes

A sweep that changes a program shortens it, so that simplifying ends; but it never takes more than three sweeps
(`simplify_within_three_sweeps`).

After one sweep no two instructions side by side are a redex (`loose_swept`). A sweep writes one instruction for a run
and goes on behind the run; and what it writes first for the rest of the program is of the kind that the rest starts
with, or a `set` or a `halt`, which are part of no redex (`Fits.swept`). So only loops that count down are left, such
as those that folding has made. The second sweep turns these into assignments and copies all else, which brings nothing
together that was apart (`normal_swept`). The third finds a normal program.
-/

namespace TapeLang

/-- Kinds of two instructions that are a redex side by side, whatever they carry. -/
def Kind.clashes : Kind → Kind → Bool
  | add, add => true
  | move, move => true
  | loopBegin, loopEnd => true
  | _, _ => false

theorem Kind.clashes_eq_false {k l : Kind} (hk : k = .add ∨ k = .move) (h : l ≠ k) : k.clashes l = false := by
  rcases hk with rfl | rfl <;> cases l <;> first | rfl | exact absurd rfl h

namespace Program

variable {l rest t : List Instruction} {i j : Instruction} {k : Kind} {p q : Program}

/-! ### What a sweep writes -/

/-- What a sweep writes for a sequence. -/
def swept : List Instruction → List Instruction
  | [] => []
  | i :: l =>
    match _h : rewrite? (i :: l) with
    | some (j, rest) => j :: swept rest
    | none => i :: swept l
termination_by l => l.length
decreasing_by
  · exact Nat.lt_of_succ_lt (length_lt_of_rewrite? _h)
  · exact Nat.lt_succ_self _

theorem swept_of_rewrite? (h : rewrite? (i :: l) = some (j, rest)) : swept (i :: l) = j :: swept rest := by
  rw [swept]
  split <;> simp_all

theorem swept_of_rewrite?_none (h : rewrite? (i :: l) = none) : swept (i :: l) = i :: swept l := by
  rw [swept]
  split <;> simp_all

theorem toList_sweepFrom (written : Program) (changed : Bool) (l : List Instruction) :
    (sweepFrom written changed l).program.toList = written.toList ++ swept l := by
  fun_induction sweepFrom written changed l with
  | case1 => simp [swept]
  | case2 written changed i rest j rest' hr ih => simp [ih, swept_of_rewrite? hr]
  | case3 written changed i rest hr ih => simp [ih, swept_of_rewrite?_none hr]

theorem toList_sweep (p : Program) : p.sweep.program.toList = swept p.toList := by
  simp [sweep, toList_sweepFrom]

/-- A sweep tells of no change exactly if it gives the program back. -/
theorem changed_sweep_eq_false_iff (p : Program) : p.sweep.changed = false ↔ p.sweep.program = p := by
  constructor
  · intro h
    rw [sweep_of_normal ((changed_sweep_iff p).1 h)]
  · intro h
    by_contra hchanged
    have := size_sweep_lt (Bool.eq_true_of_not_eq_false hchanged)
    rw [h] at this
    omega

/-- A sweep tells of a change exactly if it shortens the program. -/
theorem changed_sweep_eq_true_iff (p : Program) : p.sweep.changed = true ↔ p.sweep.program.size < p.size := by
  refine ⟨size_sweep_lt, fun h => ?_⟩
  by_contra hchanged
  rw [(changed_sweep_eq_false_iff p).1 (Bool.eq_false_of_not_eq_true hchanged)] at h
  omega

/-! ### After one sweep -/

/-- An instruction of a kind is no redex with what comes first. -/
def Fits (k : Kind) (l : List Instruction) : Prop := ∀ j ∈ l.head?, k.clashes j.kind = false

/-- No two instructions side by side are a redex. -/
def Loose (l : List Instruction) : Prop := l.IsChain fun i j => i.kind.clashes j.kind = false

theorem loose_cons : Loose (i :: l) ↔ Fits i.kind l ∧ Loose l := List.isChain_cons

theorem fits_cons : Fits k (i :: l) ↔ k.clashes i.kind = false := by simp [Fits]

/-- What is not rewritten is no redex with what follows it. -/
theorem fits_of_rewrite?_none (h : rewrite? (i :: l) = none) : Fits i.kind l := by
  cases l with
  | nil => simp [Fits]
  | cons j l =>
    rw [fits_cons]
    cases i <;> cases j <;> first | rfl | simp [rewrite?] at h

/-- What a rewrite writes is no redex with what it leaves. -/
theorem fits_of_rewrite? (h : rewrite? l = some (j, rest)) : Fits j.kind rest := by
  rcases rewrite?_kinds h with ⟨i, _, r, -, hi, -, hj, rfl⟩ | ⟨_, _, -, rfl⟩ | ⟨_, _, -, rfl⟩
  · intro x hx
    have hne := List.head?_dropWhile_not (·.kind = i.kind) r
    rw [hx] at hne
    rw [hj]
    exact Kind.clashes_eq_false hi (of_decide_eq_false hne)
  · intro x _
    rfl
  · intro x _
    rfl

/-- A rewrite writes the kind that it starts at, or what is part of no redex. -/
theorem clashes_of_rewrite? (h : rewrite? (i :: l) = some (j, rest)) (hk : k.clashes i.kind = false) :
    k.clashes j.kind = false := by
  rcases rewrite?_kinds h with ⟨i', _, r, hl, -, -, hj, -⟩ | ⟨_, _, -, rfl⟩ | ⟨_, _, -, rfl⟩
  · cases hl
    rwa [hj]
  · cases k <;> rfl
  · cases k <;> rfl

theorem ne_input_of_rewrite? (h : rewrite? l = some (j, rest)) : j ≠ .input := by
  rintro rfl
  rcases rewrite?_kinds h with ⟨i, _, _, -, hi, -, hj, -⟩ | ⟨_, _, -, hj⟩ | ⟨_, _, -, hj⟩
  · rcases hi with hi | hi <;> rw [hi] at hj <;> cases hj
  · cases hj
  · cases hj

theorem Fits.swept (h : Fits k l) : Fits k (swept l) := by
  cases l with
  | nil => simpa [Program.swept] using h
  | cons i l =>
    rw [fits_cons] at h
    cases hr : rewrite? (i :: l) with
    | none =>
      rw [swept_of_rewrite?_none hr, fits_cons]
      exact h
    | some r =>
      rw [swept_of_rewrite? hr, fits_cons]
      exact clashes_of_rewrite? hr h

theorem loose_swept (l : List Instruction) : Loose (swept l) := by
  fun_induction swept l with
  | case1 => exact List.isChain_nil
  | case2 i l j rest hr ih => exact loose_cons.2 ⟨(fits_of_rewrite? hr).swept, ih⟩
  | case3 i l hr ih => exact loose_cons.2 ⟨(fits_of_rewrite?_none hr).swept, ih⟩

/-! ### After two sweeps -/

/-- Where nothing side by side is a redex, only loops that count down are rewritten. -/
theorem Loose.rewrite?_eq (hl : Loose l) (h : rewrite? l = some (j, rest)) :
    j = .set 0 ∧ ∃ close start, l = .loopBegin close :: .add 255 :: .loopEnd start :: rest := by
  rcases rewrite?_kinds h with ⟨i, i', r, rfl, hi, hi', -, -⟩ | ⟨close, start, rfl, rfl⟩ | ⟨close, start, rfl, -⟩
  · have hclash : i.kind.clashes i'.kind = false := fits_cons.1 (loose_cons.1 hl).1
    rw [hi'] at hclash
    rcases hi with hi | hi <;> rw [hi] at hclash <;> cases hclash
  · exact ⟨rfl, close, start, rfl⟩
  · simp [loose_cons, fits_cons, Instruction.kind, Kind.clashes] at hl

/-- There all is copied but these loops. -/
theorem Loose.eq_of_swept (hl : Loose l) (hj : j ≠ .set 0) (h : swept l = j :: t) :
    ∃ rest, l = j :: rest ∧ swept rest = t := by
  cases l with
  | nil => simp [Program.swept] at h
  | cons i l =>
    cases hr : rewrite? (i :: l) with
    | none =>
      rw [swept_of_rewrite?_none hr] at h
      cases h
      exact ⟨l, rfl, rfl⟩
    | some r =>
      rw [swept_of_rewrite? hr] at h
      cases h
      exact absurd (hl.rewrite?_eq hr).1 hj

/-- What is copied is no start of a redex afterwards. -/
theorem Loose.rewrite?_swept (hl : Loose l) (h : rewrite? (i :: l) = none) : rewrite? (i :: swept l) = none := by
  rw [← Option.not_isSome_iff_eq_none, rewrite?_isSome_iff]
  rintro ⟨s, hs, t, ht⟩
  have hfits := (fits_of_rewrite?_none h).swept
  cases hs with
  | clear close start =>
    simp only [List.cons_append, List.nil_append, List.cons.injEq] at ht
    obtain ⟨rfl, ht⟩ := ht
    obtain ⟨r, rfl, hr⟩ := hl.eq_of_swept (by simp) ht.symm
    obtain ⟨r, rfl, -⟩ := (loose_cons.1 hl).2.eq_of_swept (by simp) hr
    simp [rewrite?] at h
  | _ =>
    -- two instructions side by side, the first of which does not fit
    simp only [List.cons_append, List.nil_append, List.cons.injEq] at ht
    obtain ⟨rfl, ht⟩ := ht
    rw [← ht, fits_cons] at hfits
    cases hfits

theorem normal_swept (hl : Loose l) : Normal (swept l) := by
  fun_induction swept l with
  | case1 => exact normal_nil
  | case2 i l j rest hr ih =>
    obtain ⟨rfl, close, start, hsplit⟩ := hl.rewrite?_eq hr
    rw [hsplit] at hl
    refine normal_cons.2 ⟨rfl, ih ?_⟩
    exact (loose_cons.1 (loose_cons.1 (loose_cons.1 hl).2).2).2
  | case3 i l hr ih =>
    have hrest := (loose_cons.1 hl).2
    exact normal_cons.2 ⟨hrest.rewrite?_swept hr, ih hrest⟩

/-- The third sweep has nothing to do. -/
theorem normal_sweep_sweep (p : Program) : Normal p.sweep.program.sweep.program.toList := by
  rw [toList_sweep, toList_sweep]
  exact normal_swept (loose_swept _)

/-! ### All sweeps -/

/-- How many sweeps simplifying takes. The last one changes nothing. -/
def sweeps (p : Program) : Nat :=
  match h : p.sweep with
  | ⟨q, true⟩ =>
    have : q.size < p.size := by have := size_sweep_lt (p := p) (by rw [h]); rwa [h] at this
    sweeps q + 1
  | ⟨_, false⟩ => 1
termination_by p.size

theorem sweeps_of_changed (h : p.sweep = ⟨q, true⟩) : p.sweeps = q.sweeps + 1 := by
  rw [sweeps]
  split <;> simp_all

theorem sweeps_of_unchanged (h : p.sweep = ⟨q, false⟩) : p.sweeps = 1 := by
  rw [sweeps]
  split <;> simp_all

theorem sweeps_pos (p : Program) : 0 < p.sweeps := by
  rw [sweeps]
  split
  · exact Nat.succ_pos _
  · exact Nat.one_pos

/-- The program that simplifying gives is that of so many sweeps. -/
theorem simplify_eq_iterate (p : Program) : p.simplify = (fun q : Program => q.sweep.program)^[p.sweeps] p := by
  fun_induction simplify p with
  | case1 p q hsweep _ ih =>
    rw [sweeps_of_changed hsweep, Function.iterate_succ_apply, ih, hsweep]
  | case2 p q hsweep =>
    rw [sweeps_of_unchanged hsweep, Function.iterate_one, hsweep]

/-- All of these sweeps but the last change something. -/
theorem changed_iterate_iff (p : Program) {n : Nat} (hn : n < p.sweeps) :
    ((fun q : Program => q.sweep.program)^[n] p).sweep.changed = true ↔ n + 1 < p.sweeps := by
  fun_induction simplify p generalizing n with
  | case1 p q hsweep _ ih =>
    rw [sweeps_of_changed hsweep] at hn ⊢
    cases n with
    | zero =>
      have := sweeps_pos q
      simpa [hsweep] using this
    | succ n =>
      rw [Function.iterate_succ_apply, hsweep, ih (by omega)]
      omega
  | case2 p q hsweep =>
    rw [sweeps_of_unchanged hsweep] at hn ⊢
    obtain rfl : n = 0 := by omega
    simp [hsweep]

theorem sweeps_of_normal (h : Normal p.toList) : p.sweeps = 1 := sweeps_of_unchanged (sweep_of_normal h)

theorem sweeps_le_succ (p : Program) : p.sweeps ≤ p.sweep.program.sweeps + 1 := by
  rcases h : p.sweep with ⟨q, _ | _⟩
  · rw [sweeps_of_unchanged h]
    omega
  · rw [sweeps_of_changed h]

theorem sweeps_le_three (p : Program) : p.sweeps ≤ 3 :=
  calc p.sweeps
    _ ≤ p.sweep.program.sweeps + 1 := sweeps_le_succ p
    _ ≤ p.sweep.program.sweep.program.sweeps + 1 + 1 := Nat.succ_le_succ (sweeps_le_succ _)
    _ = 3 := by rw [sweeps_of_normal (normal_sweep_sweep p)]

/-- A sweep that tells of a change shortens the program, and one that tells of none gives it back. The third sweep
never changes anything, so that simplifying, which goes on up to the first sweep without a change, takes three sweeps
at most. -/
theorem simplify_within_three_sweeps (p : Program) :
    (p.sweep.changed = true ↔ p.sweep.program.size < p.size) ∧
      (p.sweep.changed = false ↔ p.sweep.program = p) ∧
      p.sweep.program.sweep.program.sweep.changed = false ∧
      p.sweeps ≤ 3 ∧
      p.simplify = (fun q : Program => q.sweep.program)^[p.sweeps] p ∧
      ∀ n < p.sweeps, ((fun q : Program => q.sweep.program)^[n] p).sweep.changed = true ↔ n + 1 < p.sweeps := by
  refine ⟨changed_sweep_eq_true_iff p, changed_sweep_eq_false_iff p, ?_, sweeps_le_three p, simplify_eq_iterate p,
    fun n => changed_iterate_iff p⟩
  rw [changed_sweep_iff]
  exact normal_sweep_sweep p

/-- Three sweeps are taken where folding makes a loop that counts down, here behind a bracket that closes nothing. -/
theorem simplify_within_three_sweeps_fold :
    sweeps #[.loopEnd 5, .loopBegin 7, .add 1, .add 255, .add 255, .loopEnd 8] = 3 ∧
      2 < sweeps #[.loopEnd 5, .loopBegin 7, .add 1, .add 255, .add 255, .loopEnd 8] ∧
      (sweep #[.loopEnd 5, .loopBegin 7, .add 255, .loopEnd 8]).changed = true ∧
      (sweep #[.loopEnd 5, .set 0]).changed = false := by
  have hsweeps : sweeps #[.loopEnd 5, .loopBegin 7, .add 1, .add 255, .add 255, .loopEnd 8] = 3 := by decide +kernel
  have hfirst : sweep #[.loopEnd 5, .loopBegin 7, .add 1, .add 255, .add 255, .loopEnd 8] =
      ⟨#[.loopEnd 5, .loopBegin 7, .add 255, .loopEnd 8], true⟩ := by decide +kernel
  obtain ⟨-, -, hthird, -, -, hchanged⟩ :=
    simplify_within_three_sweeps #[.loopEnd 5, .loopBegin 7, .add 1, .add 255, .add 255, .loopEnd 8]
  have hsecond := hchanged 1 (by omega)
  simp only [Function.iterate_one, hfirst] at hsecond hthird
  rw [show (sweep #[.loopEnd 5, .loopBegin 7, .add 255, .loopEnd 8]).program = #[.loopEnd 5, .set 0] by
    decide +kernel] at hthird
  exact ⟨hsweeps, by omega, hsecond.2 (by omega), hthird⟩

end Program

end TapeLang
