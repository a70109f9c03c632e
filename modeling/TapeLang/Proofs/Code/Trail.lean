/-!
# Repeated steps

A machine is a partial step on its states. `advance` repeats it a number of times, and a `Trail` is a
run of some length on which every state that is left has a property; the state it ends in need not
have it, so that trails can be joined.
-/

namespace TapeLang

variable {S : Type} {step : S → Option S}

/-- The state after `n` steps, if there are so many. -/
def advance (step : S → Option S) : Nat → S → Option S
  | 0, s => some s
  | n + 1, s => (step s).bind (advance step n)

theorem advance_succ {s t : S} (h : step s = some t) (n : Nat) : advance step (n + 1) s = advance step n t := by
  rw [advance, h, Option.bind_some]

theorem advance_succ_of_none {s : S} (h : step s = none) (n : Nat) : advance step (n + 1) s = none := by
  rw [advance, h, Option.bind_none]

theorem advance_add (n m : Nat) (s : S) : advance step (n + m) s = (advance step n s).bind (advance step m) := by
  induction n generalizing s with
  | zero => simp [advance]
  | succ n ih =>
    rw [show n + 1 + m = (n + m) + 1 by omega]
    cases hs : step s with
    | none => rw [advance_succ_of_none hs, advance_succ_of_none hs, Option.bind_none]
    | some t => rw [advance_succ hs, advance_succ hs, ih]

theorem advance_trans {n m : Nat} {s t u : S} (h : advance step n s = some t) (h' : advance step m t = some u) :
    advance step (n + m) s = some u := by
  rw [advance_add, h, Option.bind_some, h']

theorem advance_succ_right (n : Nat) (s : S) : advance step (n + 1) s = (advance step n s).bind step := by
  rw [advance_add]
  congr 1
  funext t
  show (step t).bind some = step t
  cases step t <;> rfl

theorem advance_of_advance {n m : Nat} {s t : S} (h : advance step n s = some t) (hnm : n ≤ m) :
    advance step m s = advance step (m - n) t := by
  have hm : m = n + (m - n) := by omega
  rw [hm, advance_add, h, Option.bind_some, show n + (m - n) - n = m - n by omega]

/-- A machine that does what another does runs as the other does. -/
theorem advance_map {T : Type} {step' : T → Option T} {f : S → T} (h : ∀ s, step' (f s) = (step s).map f) (n : Nat)
    (s : S) : advance step' n (f s) = (advance step n s).map f := by
  induction n generalizing s with
  | zero => rfl
  | succ n ih =>
    rw [advance, advance, h]
    cases step s with
    | none => rfl
    | some t => exact ih t

/-- A state that has no successor is the last of every run through it. -/
theorem le_of_advance_of_none {n m : Nat} {s t u : S} (h : advance step n s = some t)
    (ht : step t = none) (hu : advance step m s = some u) : m ≤ n := by
  refine Nat.le_of_not_lt fun hlt => ?_
  rw [advance_of_advance h (by omega), show m - n = m - n - 1 + 1 by omega, advance_succ_of_none ht] at hu
  cases hu

/-- There is one state at most that a run comes to an end in. -/
theorem eq_of_advance_of_none {n m : Nat} {s t u : S} (ht : advance step n s = some t) (hnone : step t = none)
    (hu : advance step m s = some u) (hnone' : step u = none) : t = u := by
  have hle := le_of_advance_of_none ht hnone hu
  have hge := le_of_advance_of_none hu hnone' ht
  obtain rfl : m = n := Nat.le_antisymm hle hge
  rw [ht] at hu
  cases hu
  rfl

/-- A run that is not long enough ends in a state that has no successor. -/
theorem exists_last_of_advance_none {n : Nat} {s : S} (h : advance step n s = none) :
    ∃ k t, k < n ∧ advance step k s = some t ∧ step t = none := by
  induction n generalizing s with
  | zero => cases h
  | succ n ih =>
    cases hs : step s with
    | none => exact ⟨0, s, by omega, rfl, hs⟩
    | some t =>
      rw [advance_succ hs] at h
      obtain ⟨k, u, hk, hu, hlast⟩ := ih h
      exact ⟨k + 1, u, by omega, by rw [advance_succ hs, hu], hlast⟩

/-- A run of a length, on which every state but the last has a property. -/
inductive Trail (step : S → Option S) (P : S → Prop) : Nat → S → S → Prop where
  | nil (s : S) : Trail step P 0 s s
  | cons {n : Nat} {s t u : S} (hp : P s) (hs : step s = some t) (ht : Trail step P n t u) :
    Trail step P (n + 1) s u

namespace Trail

variable {P Q : S → Prop}

theorem append {n m : Nat} {s t u : S} (h : Trail step P n s t) (h' : Trail step P m t u) :
    Trail step P (n + m) s u := by
  induction h with
  | nil s => rwa [Nat.zero_add]
  | @cons n s _ _ hp hs _ ih =>
    rw [show n + 1 + m = (n + m) + 1 by omega]
    exact cons hp hs (ih h')

theorem snoc {n : Nat} {s t u : S} (h : Trail step P n s t) (hp : P t) (ht : step t = some u) :
    Trail step P (n + 1) s u :=
  h.append (.cons hp ht (.nil u))

theorem advance {n : Nat} {s t : S} (h : Trail step P n s t) : advance step n s = some t := by
  induction h with
  | nil s => rfl
  | cons _ hs _ ih => rw [advance_succ hs, ih]

/-- The first state without the property is the only one that trails end in. -/
theorem eq_of_not {n m : Nat} {s t u : S} (h : Trail step P n s t) (ht : ¬ P t) (h' : Trail step P m s u)
    (hu : ¬ P u) : t = u := by
  induction h generalizing m with
  | nil s =>
    cases h' with
    | nil => rfl
    | cons hp _ _ => exact absurd hp ht
  | cons hp hs _ ih =>
    cases h' with
    | nil => exact absurd hp hu
    | cons _ hs' h' =>
      rw [hs] at hs'
      cases hs'
      exact ih ht h'

/-- The states before the last have the property. -/
theorem holds {n : Nat} {s t : S} (h : Trail step P n s t) {m : Nat} (hm : m < n) {u : S}
    (hu : TapeLang.advance step m s = some u) : P u := by
  induction h generalizing m with
  | nil s => omega
  | cons hp hs _ ih =>
    obtain _ | m := m
    · cases hu
      exact hp
    · rw [advance_succ hs] at hu
      exact ih (by omega) hu

end Trail

end TapeLang
