import TapeLang.Proofs.Code.Trail
import TapeLang.Proofs.Nesting.Thread

/-!
# Where threads come to

`Reaches` and `Ends` tell a run of a thread by the threads on it, without counting its steps; they are
what `advance` and `run` say of the steps of a thread (`ends_iff_run`). A thread has one successor, so
two threads that come to a common one have the rest of their runs in common (`Reaches.of_common`).
-/

namespace TapeLang

/-- An action writes one byte, or none. -/
theorem Action.output_prefix_of_perform {a : Action} {w w' : World} (h : a.perform w = .ok w') :
    w.output <+: w'.output := by
  cases a with
  | add delta =>
    cases h
    exact List.prefix_rfl
  | set value =>
    cases h
    exact List.prefix_rfl
  | output =>
    cases h
    exact List.prefix_append _ _
  | input => cases h
  | move delta =>
    simp only [Action.perform] at h
    split at h
    · cases h
      exact List.prefix_rfl
    · cases h
  | halt =>
    simp only [Action.perform] at h
    split at h
    · cases h
      exact List.prefix_rfl
    · cases h

namespace Thread

variable {s t u v : Thread} {e : Ending} {w : World}

/-- The thread after a step, if it has not ended. -/
def next (t : Thread) : Option Thread := t.step.toOption

theorem next_eq_some_iff : t.next = some u ↔ t.step = .ok u := by
  unfold next
  cases t.step with
  | ok t' => exact ⟨fun h => congrArg Except.ok (Option.some.inj h), fun h => by cases h; rfl⟩
  | error e => exact ⟨fun h => (by cases h), fun h => by cases h⟩

theorem next_eq_none_iff : t.next = none ↔ ∃ e, t.step = .error e := by
  unfold next
  cases t.step with
  | ok t' => exact ⟨fun h => (by cases h), fun ⟨e, h⟩ => by cases h⟩
  | error e => exact ⟨fun _ => ⟨e, rfl⟩, fun _ => rfl⟩

/-- One thread goes over into another. -/
def Reaches (t u : Thread) : Prop := ∃ n, advance next n t = some u

/-- The run of a thread ends so, in a world. -/
def Ends (t : Thread) (e : Ending) (w : World) : Prop := ∃ u, t.Reaches u ∧ u.step = .error e ∧ u.world = w

namespace Reaches

theorem refl (t : Thread) : t.Reaches t := ⟨0, rfl⟩

theorem trans (h : s.Reaches t) (h' : t.Reaches u) : s.Reaches u := by
  obtain ⟨n, hn⟩ := h
  obtain ⟨m, hm⟩ := h'
  exact ⟨n + m, advance_trans hn hm⟩

theorem head (h : s.step = .ok t) (h' : t.Reaches u) : s.Reaches u := by
  obtain ⟨n, hn⟩ := h'
  exact ⟨n + 1, by rw [advance_succ (next_eq_some_iff.2 h), hn]⟩

theorem single (h : s.step = .ok t) : s.Reaches t := head h (refl t)

/-- A run is over at once, or goes through the next thread. -/
theorem cases_head (h : s.Reaches u) : u = s ∨ ∃ t, s.step = .ok t ∧ t.Reaches u := by
  obtain ⟨n, hn⟩ := h
  cases n with
  | zero =>
    cases hn
    exact .inl rfl
  | succ n =>
    rw [advance] at hn
    obtain ⟨t, ht, hn⟩ := Option.bind_eq_some_iff.1 hn
    exact .inr ⟨t, next_eq_some_iff.1 ht, n, hn⟩

theorem of_step (hs : s.step = .ok t) (h : s.Reaches u) : u = s ∨ t.Reaches u := by
  rcases h.cases_head with heq | ⟨t', ht', h⟩
  · exact .inl heq
  · rw [hs] at ht'
    cases ht'
    exact .inr h

/-- A thread that comes to the successor of another comes to all that the other comes to later. -/
theorem of_common (hs : s.step = .ok u) (ht : t.Reaches u) (h : s.Reaches v) : v = s ∨ t.Reaches v :=
  (h.of_step hs).imp_right ht.trans

end Reaches

theorem ends_of_step_error (h : t.step = .error e) : t.Ends e t.world := ⟨t, .refl t, h, rfl⟩

theorem Reaches.ends (h : s.Reaches t) (ht : t.Ends e w) : s.Ends e w := by
  obtain ⟨u, hu, hstep, hw⟩ := ht
  exact ⟨u, h.trans hu, hstep, hw⟩

/-- The rest of a run ends as the whole of it does. -/
theorem Ends.of_step (hs : s.step = .ok t) (h : s.Ends e w) : t.Ends e w := by
  obtain ⟨u, hu, hstep, hw⟩ := h
  rcases hu.of_step hs with rfl | hu
  · rw [hs] at hstep
    cases hstep
  · exact ⟨u, hu, hstep, hw⟩

/-! ### Counted runs -/

theorem run_eq_some_iff {n : Nat} :
    t.run n = some (e, w) ↔ ∃ k < n, ∃ u, advance next k t = some u ∧ u.step = .error e ∧ u.world = w := by
  induction n generalizing t with
  | zero =>
    constructor
    · intro h
      cases h
    · rintro ⟨k, hk, _⟩
      omega
  | succ n ih =>
    cases ht : t.step with
    | error f =>
      have hnone : t.next = none := next_eq_none_iff.2 ⟨f, ht⟩
      rw [run_succ_of_end ht]
      constructor
      · intro h
        cases h
        exact ⟨0, by omega, t, rfl, ht, rfl⟩
      · rintro ⟨_ | k, _, u, hu, hstep, rfl⟩
        · cases hu
          rw [ht] at hstep
          cases hstep
          rfl
        · rw [advance_succ_of_none hnone] at hu
          cases hu
    | ok t' =>
      have hnext : t.next = some t' := next_eq_some_iff.2 ht
      rw [run_succ_of_step ht, ih]
      constructor
      · rintro ⟨k, hk, u, hu, hend⟩
        exact ⟨k + 1, by omega, u, by rw [advance_succ hnext, hu], hend⟩
      · rintro ⟨_ | k, hk, u, hu, hstep, hw⟩
        · cases hu
          rw [ht] at hstep
          cases hstep
        · rw [advance_succ hnext] at hu
          exact ⟨k, by omega, u, hu, hstep, hw⟩

/-- A run has not ended after so many steps if there are so many. -/
theorem run_eq_none_iff {n : Nat} : t.run n = none ↔ ∃ u, advance next n t = some u := by
  induction n generalizing t with
  | zero => exact ⟨fun _ => ⟨t, rfl⟩, fun _ => rfl⟩
  | succ n ih =>
    cases ht : t.step with
    | error f =>
      rw [run_succ_of_end ht, advance_succ_of_none (next_eq_none_iff.2 ⟨f, ht⟩)]
      exact ⟨fun h => (by cases h), fun ⟨_, h⟩ => by cases h⟩
    | ok t' => rw [run_succ_of_step ht, advance_succ (next_eq_some_iff.2 ht), ih]

theorem ends_iff_run : t.Ends e w ↔ ∃ n, t.run n = some (e, w) := by
  constructor
  · rintro ⟨u, ⟨k, hk⟩, hstep, hw⟩
    exact ⟨k + 1, run_eq_some_iff.2 ⟨k, by omega, u, hk, hstep, hw⟩⟩
  · rintro ⟨n, hn⟩
    obtain ⟨k, _, u, hu, hstep, hw⟩ := run_eq_some_iff.1 hn
    exact ⟨u, ⟨k, hu⟩, hstep, hw⟩

/-! ### Output -/

theorem output_prefix_of_step (h : t.step = .ok u) : t.world.output <+: u.world.output := by
  obtain ⟨rest, w⟩ := t
  cases rest with
  | done => cases h
  | act a rest =>
    cases ha : a.perform w with
    | error e =>
      rw [step_act_error ha] at h
      cases h
    | ok w' =>
      rw [step_act_ok ha] at h
      cases h
      exact Action.output_prefix_of_perform ha
  | loop body rest =>
    by_cases hw : w.cell = 0
    · rw [step_loop_zero hw] at h
      cases h
      exact List.prefix_rfl
    · rw [step_loop_live hw] at h
      cases h
      exact List.prefix_rfl

/-- What has been written stays written. -/
theorem Reaches.output_prefix (h : t.Reaches u) : t.world.output <+: u.world.output := by
  obtain ⟨n, hn⟩ := h
  induction n generalizing t with
  | zero =>
    cases hn
    exact List.prefix_rfl
  | succ n ih =>
    rw [advance] at hn
    obtain ⟨t', ht', hn⟩ := Option.bind_eq_some_iff.1 hn
    exact (output_prefix_of_step (next_eq_some_iff.1 ht')).trans (ih hn)

end Thread

end TapeLang
