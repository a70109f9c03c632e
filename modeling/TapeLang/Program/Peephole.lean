import TapeLang.Program.Linking

/-!
# Simplifying programs

Four rewrites, tried in this order where a program is read from left to right: a run of additions
becomes one, a run of moves becomes one, the loop that counts a cell down becomes `set 0`, and a
loop without a body becomes `halt`. A sweep rewrites a whole program once; sweeps are repeated until
one changes nothing, and then the loops are linked again, since a rewrite shifts what follows it.

What a rewrite can be is said once (`rewrite?_cases`, and without the sums `rewrite?_kinds`).
-/

namespace TapeLang.Program

/-- Sum of `sum` and the additions that stand first, and what follows them. -/
def foldAdds (sum : UInt8) : List Instruction → UInt8 × List Instruction
  | .add delta :: rest => foldAdds (sum + delta) rest
  | rest => (sum, rest)

/-- Sum of `sum` and the moves that stand first, and what follows them. Sums wrap. -/
def foldMoves (sum : Int64) : List Instruction → Int64 × List Instruction
  | .move delta :: rest => foldMoves (sum + delta) rest
  | rest => (sum, rest)

/-- The rewrite that applies at the start of a program: what it writes, and what it leaves. -/
def rewrite? : List Instruction → Option (Instruction × List Instruction)
  | .add a :: .add b :: rest =>
    let (sum, rest) := foldAdds (a + b) rest
    some (.add sum, rest)
  | .move a :: .move b :: rest =>
    let (sum, rest) := foldMoves (a + b) rest
    some (.move sum, rest)
  | .loopBegin _ :: .add delta :: .loopEnd _ :: rest =>
    if delta = 255 then some (.set 0, rest) else none
  | .loopBegin _ :: .loopEnd _ :: rest => some (.halt, rest)
  | _ => none

/-- All that a rewrite can be. -/
theorem rewrite?_cases {l rest : List Instruction} {j : Instruction} (h : rewrite? l = some (j, rest)) :
    (∃ a b r sum, l = .add a :: .add b :: r ∧ foldAdds (a + b) r = (sum, rest) ∧ j = .add sum) ∨
    (∃ a b r sum, l = .move a :: .move b :: r ∧ foldMoves (a + b) r = (sum, rest) ∧ j = .move sum) ∨
    (∃ close start, l = .loopBegin close :: .add 255 :: .loopEnd start :: rest ∧ j = .set 0) ∨
    ∃ close start, l = .loopBegin close :: .loopEnd start :: rest ∧ j = .halt := by
  unfold rewrite? at h
  split at h
  · cases h
    exact .inl ⟨_, _, _, _, rfl, rfl, rfl⟩
  · cases h
    exact .inr (.inl ⟨_, _, _, _, rfl, rfl, rfl⟩)
  · split at h
    · rename_i hdelta
      cases h
      exact .inr (.inr (.inl ⟨_, _, by rw [hdelta], rfl⟩))
    · cases h
  · cases h
    exact .inr (.inr (.inr ⟨_, _, rfl, rfl⟩))
  · cases h

theorem foldAdds_snd (sum : UInt8) (l : List Instruction) : (foldAdds sum l).2 = l.dropWhile (·.kind = .add) := by
  fun_induction foldAdds sum l with
  | case1 sum delta rest ih => exact ih
  | case2 sum l hl =>
    cases l with
    | nil => rfl
    | cons i l => cases i <;> first | rfl | exact absurd rfl (hl _ _)

theorem foldMoves_snd (sum : Int64) (l : List Instruction) : (foldMoves sum l).2 = l.dropWhile (·.kind = .move) := by
  fun_induction foldMoves sum l with
  | case1 sum delta rest ih => exact ih
  | case2 sum l hl =>
    cases l with
    | nil => rfl
    | cons i l => cases i <;> first | rfl | exact absurd rfl (hl _ _)

/-- Whatever the sums: a run of additions or of moves is read to its end, and something of its kind is written. -/
theorem rewrite?_kinds {l rest : List Instruction} {j : Instruction} (h : rewrite? l = some (j, rest)) :
    (∃ i i' r, l = i :: i' :: r ∧ (i.kind = .add ∨ i.kind = .move) ∧ i'.kind = i.kind ∧ j.kind = i.kind ∧
      rest = r.dropWhile (·.kind = i.kind)) ∨
    (∃ close start, l = .loopBegin close :: .add 255 :: .loopEnd start :: rest ∧ j = .set 0) ∨
    ∃ close start, l = .loopBegin close :: .loopEnd start :: rest ∧ j = .halt := by
  rcases rewrite?_cases h with ⟨a, b, r, sum, rfl, hfold, rfl⟩ | ⟨a, b, r, sum, rfl, hfold, rfl⟩ | hloop
  · have hrest : rest = r.dropWhile (·.kind = .add) := by rw [← foldAdds_snd (a + b), hfold]
    exact .inl ⟨_, _, r, rfl, .inl rfl, rfl, rfl, hrest⟩
  · have hrest : rest = r.dropWhile (·.kind = .move) := by rw [← foldMoves_snd (a + b), hfold]
    exact .inl ⟨_, _, r, rfl, .inr rfl, rfl, rfl, hrest⟩
  · exact .inr hloop

/-- A rewrite takes at least two instructions for the one that it writes. -/
theorem length_lt_of_rewrite? {p rest : List Instruction} {i : Instruction}
    (h : rewrite? p = some (i, rest)) : rest.length + 1 < p.length := by
  rcases rewrite?_kinds h with ⟨first, _, r, rfl, -, -, -, rfl⟩ | ⟨_, _, rfl, -⟩ | ⟨_, _, rfl, -⟩
  · have hle := (List.dropWhile_sublist (l := r) (·.kind = first.kind)).length_le
    simp only [List.length_cons]
    omega
  · simp only [List.length_cons]
    omega
  · simp only [List.length_cons]
    omega

/-- The result of a sweep: the program it leaves, and whether any rewrite applied. -/
structure Sweep where
  program : Program
  changed : Bool
  deriving DecidableEq, Repr

/-- Sweeps `rest`, with `written` before it. -/
def sweepFrom (written : Program) (changed : Bool) : List Instruction → Sweep
  | [] => ⟨written, changed⟩
  | i :: rest =>
    match _h : rewrite? (i :: rest) with
    | some (j, rest') => sweepFrom (written.push j) true rest'
    | none => sweepFrom (written.push i) changed rest
termination_by p => p.length
decreasing_by
  · exact Nat.lt_of_succ_lt (length_lt_of_rewrite? _h)
  · exact Nat.lt_succ_self _

/-- One sweep from left to right. Loop targets are left as they were and may be stale. -/
def sweep (p : Program) : Sweep := sweepFrom #[] false p.toList

theorem size_sweepFrom_le (written : Program) (changed : Bool) (p : List Instruction) :
    (sweepFrom written changed p).program.size ≤ written.size + p.length := by
  fun_induction sweepFrom written changed p with
  | case1 => simp
  | case2 written changed i rest j rest' h ih =>
    have := length_lt_of_rewrite? h
    simp only [Array.size_push] at ih
    omega
  | case3 written changed i rest h ih =>
    simp only [Array.size_push, List.length_cons] at ih ⊢
    omega

theorem size_sweepFrom_lt {written : Program} {changed : Bool} {p : List Instruction}
    (hc : changed = false) (h : (sweepFrom written changed p).changed = true) :
    (sweepFrom written changed p).program.size < written.size + p.length := by
  fun_induction sweepFrom written changed p with
  | case1 => simp_all
  | case2 written changed i rest j rest' hr ih =>
    have hl := length_lt_of_rewrite? hr
    have := size_sweepFrom_le (written.push j) true rest'
    simp only [Array.size_push] at this
    omega
  | case3 written changed i rest hr ih =>
    have := ih hc h
    simp only [Array.size_push, List.length_cons] at this ⊢
    omega

/-- A sweep that changes a program shortens it. -/
theorem size_sweep_lt {p : Program} (h : p.sweep.changed = true) : p.sweep.program.size < p.size := by
  have := size_sweepFrom_lt rfl h
  simpa [sweep] using this

/-- Sweeps until nothing changes. -/
def simplify (p : Program) : Program :=
  match h : p.sweep with
  | ⟨q, true⟩ =>
    have : q.size < p.size := by have := size_sweep_lt (p := p) (by rw [h]); rwa [h] at this
    simplify q
  | ⟨q, false⟩ => q
termination_by p.size

/-- The simplified program, linked. -/
def optimize (p : Program) : Except Error Program := p.simplify.linked

end TapeLang.Program
