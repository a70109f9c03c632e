import TapeLang.Proofs.Nesting.Linking
import TapeLang.Proofs.Nesting.Runs

/-!
# Evaluation of bracket trees

What a block does, by rules on the tree and without steps: `Evaluates` for an evaluation that comes to
an end, as an induction on what it evaluates; `Diverges` for one that goes on for ever, as the largest
set of blocks in worlds that each go on with another one of the set. A loop is skipped at a zero cell;
else its body is evaluated, and then the loop again.

Threads, which put a copy of a loop's body before the loop, end as the rules say
(`Thread.ends_iff_evaluates`) and go on for ever as they say (`Thread.runsForever_iff_diverges`). So the
interpreter of a linked program, which only follows indices, does what the rules say of the tree of its
brackets (`Interpreter.run_iff_evaluates`).
-/

namespace TapeLang

namespace Block

open Thread (Ending)

/-- A block, in a world, comes to an end in a world. -/
inductive Evaluates : Block → World → Ending → World → Prop where
  | done (w : World) : Evaluates .done w .finished w
  | act {a : Action} {rest : Block} {w w₁ w₂ : World} {e : Ending} (ha : a.perform w = .ok w₁)
    (hr : Evaluates rest w₁ e w₂) : Evaluates (.act a rest) w e w₂
  /-- An action that ends the whole run. -/
  | stop {a : Action} {rest : Block} {w : World} {e : Ending} (ha : a.perform w = .error e) :
    Evaluates (.act a rest) w e w
  | skip {body rest : Block} {w w₁ : World} {e : Ending} (hz : w.cell = 0) (hr : Evaluates rest w e w₁) :
    Evaluates (.loop body rest) w e w₁
  | again {body rest : Block} {w w₁ w₂ : World} {e : Ending} (hz : w.cell ≠ 0)
    (hb : Evaluates body w .finished w₁) (hr : Evaluates (.loop body rest) w₁ e w₂) :
    Evaluates (.loop body rest) w e w₂
  /-- The body of a loop ends the whole run. -/
  | inside {body rest : Block} {w w₁ : World} {e : Ending} (hz : w.cell ≠ 0) (hb : Evaluates body w e w₁)
    (he : e ≠ .finished) : Evaluates (.loop body rest) w e w₁

/-- What a block in a world goes on with, if it is to go on for ever. -/
def GoesOn (X : Block → World → Prop) : Block → World → Prop
  | .done, _ => False
  | .act a rest, w => ∃ w₁, a.perform w = .ok w₁ ∧ X rest w₁
  | .loop body rest, w =>
    if w.cell = 0 then X rest w
    else X body w ∨ ∃ w₁, Evaluates body w .finished w₁ ∧ X (.loop body rest) w₁

/-- A block, in a world, goes on for ever. -/
def Diverges (b : Block) (w : World) : Prop :=
  ∃ X : Block → World → Prop, X b w ∧ ∀ b w, X b w → GoesOn X b w

end Block

theorem Action.perform_ne_finished {a : Action} {w : World} {e : Thread.Ending} (h : a.perform w = .error e) :
    e ≠ .finished := by
  rintro rfl
  cases a with
  | add delta => cases h
  | set value => cases h
  | output => cases h
  | input => cases h
  | move delta =>
    simp only [perform] at h
    split at h
    · cases h
    · cases h
  | halt =>
    simp only [perform] at h
    split at h
    · cases h
    · cases h

namespace Thread

open Block (Evaluates Diverges GoesOn)

variable {b k : Block} {w w₁ : World} {e : Ending}

/-! ### Evaluations that end -/

/-- An evaluation is a run of the thread, whatever else that has left to execute: to the end if the
evaluation ends the whole run, and else to what is left. -/
theorem reaches_of_evaluates (h : Evaluates b w e w₁) (k : Block) :
    (e = .finished → Reaches ⟨b ++ k, w⟩ ⟨k, w₁⟩) ∧ (e ≠ .finished → Ends ⟨b ++ k, w⟩ e w₁) := by
  induction h generalizing k with
  | done w => exact ⟨fun _ => .refl _, fun h => absurd rfl h⟩
  | @act a rest w w₁ w₂ e ha _ ih =>
    obtain ⟨hon, hend⟩ := ih k
    have hstep : Reaches ⟨.act a rest ++ k, w⟩ ⟨rest ++ k, w₁⟩ := .single (step_act_ok ha)
    exact ⟨fun he => hstep.trans (hon he), fun he => hstep.ends (hend he)⟩
  | stop ha =>
    exact ⟨fun he => absurd he (Action.perform_ne_finished ha), fun _ => ends_of_step_error (step_act_error ha)⟩
  | @skip body rest w w₁ e hz _ ih =>
    obtain ⟨hon, hend⟩ := ih k
    have hstep : Reaches ⟨.loop body rest ++ k, w⟩ ⟨rest ++ k, w⟩ := .single (step_loop_zero hz)
    exact ⟨fun he => hstep.trans (hon he), fun he => hstep.ends (hend he)⟩
  | @again body rest w w₁ w₂ e hz _ _ ihBody ihRest =>
    obtain ⟨hbody, _⟩ := ihBody (.loop body rest ++ k)
    obtain ⟨hon, hend⟩ := ihRest k
    have hround : Reaches ⟨.loop body rest ++ k, w⟩ ⟨.loop body rest ++ k, w₁⟩ :=
      .head (step_loop_live hz) (hbody rfl)
    exact ⟨fun he => hround.trans (hon he), fun he => hround.ends (hend he)⟩
  | @inside body rest w w₁ e hz _ he ih =>
    obtain ⟨_, hbody⟩ := ih (.loop body rest ++ k)
    have hstep : Reaches ⟨.loop body rest ++ k, w⟩ ⟨body ++ (.loop body rest ++ k), w⟩ := .single (step_loop_live hz)
    exact ⟨fun h => absurd h he, fun _ => hstep.ends (hbody he)⟩

/-- A run that ends goes through the evaluation of the block before what else is left, or ends in it. -/
theorem evaluates_of_run {n : Nat} {w' : World} (h : run n ⟨b ++ k, w⟩ = some (e, w')) :
    (∃ m w₁, m ≤ n ∧ Evaluates b w .finished w₁ ∧ run m ⟨k, w₁⟩ = some (e, w')) ∨
      (e ≠ .finished ∧ Evaluates b w e w') := by
  induction n using Nat.strongRecOn generalizing b k w with
  | ind n ih =>
    cases b with
    | done => exact .inl ⟨n, w, Nat.le_refl _, .done w, h⟩
    | act a rest =>
      obtain _ | n := n
      · cases h
      cases ha : a.perform w with
      | error f =>
        rw [Block.act_append, run_succ_of_end (step_act_error ha)] at h
        cases h
        exact .inr ⟨Action.perform_ne_finished ha, .stop ha⟩
      | ok w₁ =>
        rw [Block.act_append, run_succ_of_step (step_act_ok ha)] at h
        rcases ih n (Nat.lt_succ_self _) h with ⟨m, w₂, hm, hr, hk⟩ | ⟨he, hr⟩
        · exact .inl ⟨m, w₂, by omega, .act ha hr, hk⟩
        · exact .inr ⟨he, .act ha hr⟩
    | loop body rest =>
      obtain _ | n := n
      · cases h
      by_cases hz : w.cell = 0
      · rw [Block.loop_append, run_succ_of_step (step_loop_zero hz)] at h
        rcases ih n (Nat.lt_succ_self _) h with ⟨m, w₂, hm, hr, hk⟩ | ⟨he, hr⟩
        · exact .inl ⟨m, w₂, by omega, .skip hz hr, hk⟩
        · exact .inr ⟨he, .skip hz hr⟩
      · rw [Block.loop_append, run_succ_of_step (step_loop_live hz), ← Block.loop_append] at h
        rcases ih n (Nat.lt_succ_self _) h with ⟨m, w₁, hm, hb, hloop⟩ | ⟨he, hb⟩
        · -- the body is done, and the loop is tried again
          rcases ih m (by omega) hloop with ⟨m', w₂, hm', hr, hk⟩ | ⟨he, hr⟩
          · exact .inl ⟨m', w₂, by omega, .again hz hb hr, hk⟩
          · exact .inr ⟨he, .again hz hb hr⟩
        · exact .inr ⟨he, .inside hz hb he⟩

/-- Threads end as blocks are evaluated. -/
theorem ends_iff_evaluates : Ends ⟨b, w⟩ e w₁ ↔ Evaluates b w e w₁ := by
  constructor
  · intro h
    obtain ⟨n, hn⟩ := ends_iff_run.1 h
    rw [← Block.append_done b] at hn
    rcases evaluates_of_run hn with ⟨m, w₂, _, hb, hm⟩ | ⟨_, hb⟩
    · obtain _ | m := m
      · cases hm
      · cases hm
        exact hb
    · exact hb
  · intro h
    obtain ⟨hon, hend⟩ := reaches_of_evaluates h .done
    rw [Block.append_done] at hon hend
    by_cases he : e = .finished
    · rw [he] at hon ⊢
      exact (hon rfl).ends (ends_of_step_error rfl)
    · exact hend he

/-! ### Evaluations that go on for ever -/

theorem run_eq_none_of_advance {n m : Nat} {t u : Thread} (h : advance next m t = some u)
    (hu : run (n - m) u = none) : run n t = none := by
  rw [run_eq_none_iff] at hu ⊢
  rcases Nat.le_total m n with hmn | hnm
  · rw [advance_of_advance h hmn]
    exact hu
  · rw [show m = n + (m - n) by omega, advance_add] at h
    obtain ⟨v, hv, _⟩ := Option.bind_eq_some_iff.1 h
    exact ⟨v, hv⟩

theorem run_eq_none_of_diverges {X : Block → World → Prop} (hX : ∀ b w, X b w → GoesOn X b w) (n : Nat)
    (h : X b w) (k : Block) : run n ⟨b ++ k, w⟩ = none := by
  induction n using Nat.strongRecOn generalizing b w k with
  | ind n ih =>
    obtain _ | n := n
    · rfl
    have hgoes := hX b w h
    cases b with
    | done => exact absurd hgoes id
    | act a rest =>
      obtain ⟨w₁, ha, hr⟩ := hgoes
      rw [Block.act_append, run_succ_of_step (step_act_ok ha)]
      exact ih n (Nat.lt_succ_self _) hr k
    | loop body rest =>
      simp only [GoesOn] at hgoes
      split at hgoes
      case isTrue hz =>
        rw [Block.loop_append, run_succ_of_step (step_loop_zero hz)]
        exact ih n (Nat.lt_succ_self _) hgoes k
      case isFalse hz =>
        rw [Block.loop_append, run_succ_of_step (step_loop_live hz), ← Block.loop_append]
        rcases hgoes with hbody | ⟨w₁, hbody, hloop⟩
        · exact ih n (Nat.lt_succ_self _) hbody _
        · -- a round of the loop is a step at least
          obtain ⟨hon, _⟩ := reaches_of_evaluates hbody (.loop body rest ++ k)
          obtain ⟨m, hm⟩ := hon rfl
          exact run_eq_none_of_advance hm (ih (n - m) (by omega) hloop k)

theorem goesOn_of_run_eq_none (h : ∀ n, run n ⟨b, w⟩ = none) :
    GoesOn (fun b w => ∀ n, run n ⟨b, w⟩ = none) b w := by
  cases b with
  | done => cases h 1
  | act a rest =>
    cases ha : a.perform w with
    | error e =>
      have hone := h 1
      rw [run_succ_of_end (step_act_error ha)] at hone
      cases hone
    | ok w₁ => exact ⟨w₁, ha, fun n => by rw [← run_succ_of_step (step_act_ok ha), h]⟩
  | loop body rest =>
    simp only [GoesOn]
    split
    case isTrue hz => exact fun n => by rw [← run_succ_of_step (step_loop_zero hz), h]
    case isFalse hz =>
      by_cases hbody : ∀ n, run n ⟨body, w⟩ = none
      · exact .inl hbody
      · obtain ⟨n, hn⟩ := not_forall.1 hbody
        obtain ⟨⟨e, w₁⟩, hn⟩ := Option.ne_none_iff_exists'.1 hn
        have heval := ends_iff_evaluates.1 (ends_iff_run.2 ⟨n, hn⟩)
        obtain ⟨hon, hend⟩ := reaches_of_evaluates heval (.loop body rest)
        have hnever {e : Ending} {w₂ : World} : ¬ Ends ⟨.loop body rest, w⟩ e w₂ := fun hend => by
          obtain ⟨m, hm⟩ := ends_iff_run.1 hend
          rw [h] at hm
          cases hm
        have hstep : Reaches ⟨.loop body rest, w⟩ ⟨body ++ .loop body rest, w⟩ := .single (step_loop_live hz)
        by_cases he : e = .finished
        · refine .inr ⟨w₁, he ▸ heval, fun m => ?_⟩
          cases hm : run m ⟨.loop body rest, w₁⟩ with
          | none => rfl
          | some r => exact absurd (hstep.ends ((hon he).ends (ends_iff_run.2 ⟨m, hm⟩))) hnever
        · exact absurd (hstep.ends (hend he)) hnever

/-- Threads go on for ever as blocks do. -/
theorem runsForever_iff_diverges : (∀ n, run n ⟨b, w⟩ = none) ↔ Diverges b w := by
  constructor
  · intro h
    exact ⟨fun b w => ∀ n, run n ⟨b, w⟩ = none, h, fun _ _ => goesOn_of_run_eq_none⟩
  · rintro ⟨X, hb, hX⟩ n
    have := run_eq_none_of_diverges hX n hb .done
    rwa [Block.append_done] at this

end Thread

/-! ### The interpreter -/

namespace Matches

variable {σ : Type} {sink : Sink σ} {options : Options} {m : Interpreter} {b : Block} {w : World}

/-- The interpreter of a linked program ends as the block of the program is evaluated. -/
theorem exists_run_iff_evaluates (hs : sink.Faultless) (hm : Interpreter.new options = .ok m) (out : σ)
    (e : Thread.Ending) :
    (∃ n ending m' out', m.run (b.linkedFrom 0).toArray sink n out = (ending, m', out') ∧
        EndsWith e w sink out ending m' out' ∧ m.written (b.linkedFrom 0).toArray n = w.output) ↔
      b.Evaluates (World.start m.tape) e w := by
  rw [← Thread.ends_iff_evaluates, Thread.ends_iff_run]
  constructor
  · rintro ⟨n, ending, m', out', hr, hends, hwritten⟩
    obtain ⟨e', w', hrun, hends'⟩ := (start b sink out hm).exists_end hs hr hends.ending.ne_unfinished
    obtain rfl := hends.ending.unique hends'.ending
    have hworld : w' = w := by
      refine World.ext (hends'.tape.symm.trans hends.tape) (hends'.ptr.symm.trans hends.ptr) ?_
      rw [← hwritten, written_of_run hm hrun]
    exact ⟨n, by rw [hrun, hworld]⟩
  · rintro ⟨n, hn⟩
    have hrun := (start b sink out hm).run hs n
    rw [hn] at hrun
    obtain ⟨ending, m', out', hr, hends⟩ := hrun
    exact ⟨n, ending, m', out', hr, hends, written_of_run hm hn⟩

end Matches

/-- The interpreter implements the structured language. Programs that the parser or the optimizer gives
are linked; a linked program lists one tree; and from the zeroed tape its run ends exactly as the tree is
evaluated, with the same ending, tape, tape pointer and output, and goes on for ever exactly if the
evaluation does. -/
theorem Interpreter.run_iff_evaluates :
    (∀ source p, Source.parse source = .ok p → p.Linked) ∧
      (∀ p q : Program, p.optimize = .ok q → q.Linked) ∧
      ∀ p : Program, p.Linked → ∃ b : Block, (∀ c : Block, p.toList = c.linkedFrom 0 ↔ c = b) ∧
        ∀ {σ : Type} {options : Options} {m : Interpreter} {sink : Sink σ}, Interpreter.new options = .ok m →
          sink.Faultless → ∀ out,
            (∀ e w, (∃ n ending m' out', m.run p sink n out = (ending, m', out') ∧
                Matches.EndsWith e w sink out ending m' out' ∧ m.written p n = w.output) ↔
              b.Evaluates (World.start m.tape) e w) ∧
            (m.RunsForever p sink out ↔ b.Diverges (World.start m.tape)) := by
  refine ⟨fun _ _ => Source.linked_of_parse, fun _ _ => Program.linked_of_optimize, fun p hp => ?_⟩
  obtain ⟨b, rfl⟩ := Program.linked_iff_block.1 hp
  refine ⟨b, fun c => ⟨fun hc => (Block.linkedFrom_injective hc).symm, fun hc => hc ▸ rfl⟩, ?_⟩
  intro σ options m sink hm hs out
  constructor
  · intro e w
    exact Matches.exists_run_iff_evaluates hs hm out e
  · rw [Matches.runsForever_iff hs hm out, Thread.runsForever_iff_diverges]

/-- A loop without a body that is entered goes on for ever. -/
theorem Interpreter.run_iff_evaluates_spinning :
    ∃ m, Interpreter.new ⟨3, false⟩ = .ok m ∧
      m.RunsForever #[.add 1, .loopBegin 2, .loopEnd 1] Sink.buffer #[] := by
  obtain ⟨m, hm⟩ : ∃ m, Interpreter.new ⟨3, false⟩ = .ok m := ⟨_, rfl⟩
  obtain ⟨_, _, hruns⟩ := Interpreter.run_iff_evaluates
  obtain ⟨b, hb, hruns⟩ := hruns _ (Program.linked_of_block (.act (.add 1) (.loop .done .done)))
  obtain rfl := (hb (.act (.add 1) (.loop .done .done))).1 rfl
  obtain ⟨_, hforever⟩ := hruns hm Sink.buffer_faultless #[]
  refine ⟨m, hm, hforever.2 ⟨fun b w => (b = .act (.add 1) (.loop .done .done) ∧ w.cell = 0) ∨
    (b = .loop .done .done ∧ w.cell ≠ 0), .inl ⟨rfl, ?_⟩, ?_⟩⟩
  · cases hm
    rfl
  · rintro b w (⟨rfl, hz⟩ | ⟨rfl, hz⟩)
    · refine ⟨_, rfl, .inr ⟨rfl, ?_⟩⟩
      rw [World.cell_assign, hz]
      decide
    · rw [Block.GoesOn, if_neg hz]
      exact .inr ⟨w, .done w, .inr ⟨rfl, hz⟩⟩

end TapeLang
