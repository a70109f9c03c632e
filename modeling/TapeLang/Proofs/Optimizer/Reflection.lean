import TapeLang.Proofs.Optimizer.Preservation

/-!
# Optimizing adds nothing to what a program does

What a reduced thread does is what the thread before the reduction does, unless that one leaves the
tape on the way: where a step of the reduced thread leads, the other one gets by some number of steps,
and is reduced to what is left there (`Thread.leadsTo_of_step`, `Thread.leadsTo_of_reaches`). The
numbers differ since a loop that clears a cell is one assignment after the reduction.

There is one ending that is new: where `halt` stops at a live cell, the loop without a body that it
stands for goes on for ever (`Thread.Spins`). So a run that ends after optimizing ends in the same way
before, or leaves the tape and has written no other bytes until then, or is caught in such a loop
(`Thread.reflects_of_ends`).
-/

namespace TapeLang

namespace Thread

variable {s t u : Thread} {e : Ending} {w : World}

/-! ### Endings that are reflected -/

/-- The run leaves the tape when it has written no more than a beginning of `bytes`. -/
def Leaves (t : Thread) (bytes : List UInt8) : Prop :=
  ∃ e w, t.Ends e w ∧ e.LeavesTape ∧ w.output <+: bytes

/-- The run is caught, in a world, in a loop without a body. -/
def Spins (t : Thread) (w : World) : Prop := w.cell ≠ 0 ∧ ∃ rest, t.Reaches ⟨.loop .done rest, w⟩

/-- What an ending after a reduction says about the run before it. -/
def Reflects (t : Thread) (e : Ending) (w : World) : Prop :=
  t.Leaves w.output ∨ t.Ends e w ∨ (e = .halted ∧ t.Spins w)

theorem Leaves.mono {bytes bytes' : List UInt8} (h : t.Leaves bytes) (hb : bytes <+: bytes') : t.Leaves bytes' := by
  obtain ⟨e, w, hend, he, hw⟩ := h
  exact ⟨e, w, hend, he, hw.trans hb⟩

theorem Reaches.leaves {bytes : List UInt8} (h : s.Reaches t) (ht : t.Leaves bytes) : s.Leaves bytes := by
  obtain ⟨e, w, hend, he, hw⟩ := ht
  exact ⟨e, w, h.ends hend, he, hw⟩

theorem Reaches.spins (h : s.Reaches t) (ht : t.Spins w) : s.Spins w := by
  obtain ⟨hw, rest, hrest⟩ := ht
  exact ⟨hw, rest, h.trans hrest⟩

theorem Reflects.leaves (h : t.Reflects e w) (he : e.LeavesTape) : t.Leaves w.output := by
  rcases h with hleaves | hend | ⟨rfl, _⟩
  · exact hleaves
  · exact ⟨e, w, hend, he, List.prefix_rfl⟩
  · exact absurd he id

theorem Reaches.reflects (h : s.Reaches t) (ht : t.Reflects e w) : s.Reflects e w :=
  ht.imp h.leaves (Or.imp h.ends (And.imp_right h.spins))

theorem Leaves.of_step {bytes : List UInt8} (hs : s.step = .ok t) (h : s.Leaves bytes) : t.Leaves bytes := by
  obtain ⟨e, w, hend, he, hw⟩ := h
  exact ⟨e, w, hend.of_step hs, he, hw⟩

/-- A loop without a body that is entered goes over into itself. -/
theorem Spins.of_step (hs : s.step = .ok t) (h : s.Spins w) : t.Spins w := by
  obtain ⟨hw, rest, hrest⟩ := h
  rcases hrest.of_step hs with rfl | hrest
  · rw [step_loop_live hw] at hs
    cases hs
    exact ⟨hw, rest, .refl _⟩
  · exact ⟨hw, rest, hrest⟩

theorem Reflects.of_step (hs : s.step = .ok t) (h : s.Reflects e w) : t.Reflects e w :=
  h.imp (.of_step hs) (Or.imp (.of_step hs) (And.imp_right (.of_step hs)))

/-- A thread whose next step is a move off the tape. -/
theorem leaves_of_perform_move {rest : Block} {delta : Int64} (h : (Action.move delta).perform w = .error e) :
    Leaves ⟨.act (.move delta) rest, w⟩ w.output :=
  ⟨e, w, ends_of_step_error (step_act_error h), leavesTape_of_perform_move h, List.prefix_rfl⟩

/-! ### Steps of a reduced thread -/

/-- A thread gets where another is, reduced to what is left there, or leaves the tape on the way. -/
def LeadsTo (s t : Thread) : Prop :=
  s.Leaves t.world.output ∨ ∃ b, s.Reaches ⟨b, t.world⟩ ∧ b.Reduces t.rest

theorem Reaches.leadsTo (h : s.Reaches t) (ht : t.LeadsTo u) : s.LeadsTo u := by
  rcases ht with hleaves | ⟨b, hb, hred⟩
  · exact .inl (h.leaves hleaves)
  · exact .inr ⟨b, h.trans hb, hred⟩

theorem leadsTo_of_step_eq {b r : Block} (h : step ⟨b, w⟩ = .ok ⟨r, u.world⟩) (hr : r.Reduces u.rest) :
    LeadsTo ⟨b, w⟩ u := .inr ⟨r, .single h, hr⟩

/-- Two blocks that come to the same thread, and to nothing before that could tell them apart. -/
theorem LeadsTo.of_common {b₁ b : Block} (hstep : step ⟨b₁, w⟩ = .ok s) (hb : Reaches ⟨b, w⟩ s)
    (hred : ∀ c, b₁.Reduces c → b.Reduces c) (h : LeadsTo ⟨b₁, w⟩ u) : LeadsTo ⟨b, w⟩ u := by
  rcases h with hleaves | ⟨b', hb', hr⟩
  · exact .inl (hb.leaves (hleaves.of_step hstep))
  · rcases Reaches.of_common hstep hb hb' with heq | hreaches
    · obtain ⟨rfl, hworld⟩ := Thread.mk.inj heq
      refine .inr ⟨b, ?_, hred _ hr⟩
      rw [hworld]
      exact .refl _
    · exact .inr ⟨b', hreaches, hr⟩

/-- Counting a cell down to zero. -/
theorem reaches_of_countdown (r : Block) (w : World) :
    Reaches ⟨.loop (.act (.add 255) .done) r, w⟩ ⟨r, w.assign 0⟩ := by
  induction hn : w.cell.toNat generalizing w with
  | zero =>
    have hw : w.cell = 0 := UInt8.toNat_inj.1 hn
    have hassign : w.assign 0 = w := by rw [← hw, World.assign_cell]
    rw [hassign]
    exact .single (step_loop_zero hw)
  | succ n ih =>
    have hw : w.cell ≠ 0 := fun h => by
      rw [h] at hn
      cases hn
    have hcell : (w.cell + 255).toNat = n := by
      have hlt := w.cell.toNat_lt
      rw [UInt8.toNat_add, hn]
      show (n + 1 + 255) % 2 ^ 8 = n
      omega
    have hrest := ih (w.assign (w.cell + 255)) (by rw [World.cell_assign, hcell])
    rw [World.assign_assign] at hrest
    refine .head (step_loop_live hw) ?_
    rw [Block.act_append, Block.done_append]
    exact .head (step_act_ok rfl) hrest

/-- Two additions come to where their sum leads. -/
theorem reaches_of_adds (x y : UInt8) (r : Block) (w : World) :
    Reaches ⟨.act (.add x) (.act (.add y) r), w⟩ ⟨r, w.assign (w.cell + (x + y))⟩ := by
  have hsum : (w.assign (w.cell + x)).assign ((w.assign (w.cell + x)).cell + y) = w.assign (w.cell + (x + y)) := by
    rw [World.assign_assign, World.cell_assign, UInt8.add_assoc]
  rw [← hsum]
  exact .head (step_act_ok rfl) (.single (step_act_ok rfl))

/-- Two moves leave the tape, or come to where their sum leads. -/
theorem leaves_or_reaches_of_moves (x y : Int64) (r : Block) (w : World) :
    Leaves ⟨.act (.move x) (.act (.move y) r), w⟩ w.output ∨
      ∃ w', (Action.move (x + y)).perform w = .ok w' ∧ Reaches ⟨.act (.move x) (.act (.move y) r), w⟩ ⟨r, w'⟩ := by
  cases hx : (Action.move x).perform w with
  | error e => exact .inl (leaves_of_perform_move hx)
  | ok w₁ =>
    have hfirst : Reaches ⟨.act (.move x) (.act (.move y) r), w⟩ ⟨.act (.move y) r, w₁⟩ := .single (step_act_ok hx)
    cases hy : (Action.move y).perform w₁ with
    | error e =>
      refine .inl (hfirst.leaves ?_)
      rw [← (Action.perform_move_eq_ok_iff.1 hx).2.1]
      exact leaves_of_perform_move hy
    | ok w₂ => exact .inr ⟨w₂, Action.perform_move_add hx hy, hfirst.trans (.single (step_act_ok hy))⟩

/-- Where a reduced thread gets by a step, the thread before the reduction does. -/
theorem leadsTo_of_step {b c : Block} (hbc : b.Reduces c) (h : step ⟨c, w⟩ = .ok u) : LeadsTo ⟨b, w⟩ u := by
  induction hbc with
  | done => cases h
  | act a hr =>
    cases ha : a.perform w with
    | error e =>
      rw [step_act_error ha] at h
      cases h
    | ok w' =>
      rw [step_act_ok ha] at h
      cases h
      exact leadsTo_of_step_eq (step_act_ok ha) hr
  | loop hb hr =>
    by_cases hw : w.cell = 0
    · rw [step_loop_zero hw] at h
      cases h
      exact leadsTo_of_step_eq (step_loop_zero hw) hr
    · rw [step_loop_live hw] at h
      cases h
      exact leadsTo_of_step_eq (step_loop_live hw) (hb.append (.loop hb hr))
  | @adds x y r c _ ih => exact .of_common (step_act_ok rfl) (reaches_of_adds x y r w) (fun _ => .adds) (ih h)
  | @moves x y r c _ ih =>
    rcases leaves_or_reaches_of_moves x y r w with hleaves | ⟨w', hsum, hreaches⟩
    · exact .inl (hleaves.mono (output_prefix_of_step h))
    · exact .of_common (step_act_ok hsum) hreaches (fun _ => .moves) (ih h)
  | @clear r r' hr =>
    cases h
    exact .inr ⟨r, reaches_of_countdown r w, hr⟩
  | @empty r r' hr =>
    by_cases hw : w.cell = 0
    · rw [step_act_ok (Action.perform_halt_zero hw)] at h
      cases h
      exact leadsTo_of_step_eq (step_loop_zero hw) hr
    · rw [step_act_error (Action.perform_halt_live hw)] at h
      cases h

/-- Where a reduced thread gets, the thread before the reduction does. -/
theorem leadsTo_of_reaches {b c : Block} (hbc : b.Reduces c) (h : Reaches ⟨c, w⟩ u) : LeadsTo ⟨b, w⟩ u := by
  obtain ⟨n, hn⟩ := h
  induction n generalizing b c w with
  | zero =>
    cases hn
    exact .inr ⟨b, .refl _, hbc⟩
  | succ n ih =>
    rw [advance] at hn
    obtain ⟨⟨c₁, w₁⟩, hstep, hn⟩ := Option.bind_eq_some_iff.1 hn
    rcases leadsTo_of_step hbc (next_eq_some_iff.1 hstep) with hleaves | ⟨b₁, hb₁, hred⟩
    · exact .inl (hleaves.mono (Reaches.output_prefix ⟨n, hn⟩))
    · exact hb₁.leadsTo (ih hred hn)

/-! ### Endings of a reduced thread -/

/-- Where a reduced thread has ended, the thread before the reduction ends, or spins. -/
theorem reflects_of_step {b c : Block} (hbc : b.Reduces c) (h : step ⟨c, w⟩ = .error e) : Reflects ⟨b, w⟩ e w := by
  induction hbc with
  | done => exact .inr (.inl (ends_of_step_error h))
  | act a hr =>
    cases ha : a.perform w with
    | error f =>
      rw [step_act_error ha] at h
      cases h
      exact .inr (.inl (ends_of_step_error (step_act_error ha)))
    | ok w' =>
      rw [step_act_ok ha] at h
      cases h
  | loop hb hr =>
    by_cases hw : w.cell = 0
    · rw [step_loop_zero hw] at h
      cases h
    · rw [step_loop_live hw] at h
      cases h
  | @adds x y r c _ ih => exact (reaches_of_adds x y r w).reflects ((ih h).of_step (step_act_ok rfl))
  | @moves x y r c _ ih =>
    rcases leaves_or_reaches_of_moves x y r w with hleaves | ⟨w', hsum, hreaches⟩
    · exact .inl hleaves
    · exact hreaches.reflects ((ih h).of_step (step_act_ok hsum))
  | clear hr => cases h
  | @empty r r' hr =>
    by_cases hw : w.cell = 0
    · rw [step_act_ok (Action.perform_halt_zero hw)] at h
      cases h
    · rw [step_act_error (Action.perform_halt_live hw)] at h
      cases h
      exact .inr (.inr ⟨rfl, hw, r, .refl _⟩)

theorem reflects_of_reduces {b c : Block} (hbc : b.Reduces c) {w' : World} (h : Ends ⟨c, w⟩ e w') :
    Reflects ⟨b, w⟩ e w' := by
  obtain ⟨u, hu, hstep, rfl⟩ := h
  rcases leadsTo_of_reaches hbc hu with hleaves | ⟨b', hb', hred⟩
  · exact .inl hleaves
  · exact hb'.reflects (reflects_of_step hred hstep)

end Thread

namespace Block.Reduces

variable {b c r : Block}

/-- What is reduced to nothing is nothing. -/
theorem eq_done (h : b.Reduces c) (hc : c = .done) : b = .done := by
  induction h with
  | done => rfl
  | adds _ ih => cases ih hc
  | moves _ ih => cases ih hc
  | act | loop | clear | empty => cases hc

/-- Only a loop without a body is reduced to one. -/
theorem eq_loop_done (h : b.Reduces c) (hc : c = .loop .done r) : ∃ r', b = .loop .done r' := by
  induction h with
  | @loop body _ rest _ hbody _ =>
    obtain ⟨rfl, _⟩ := Block.loop.inj hc
    rw [hbody.eq_done rfl]
    exact ⟨rest, rfl⟩
  | adds _ ih =>
    obtain ⟨_, h⟩ := ih hc
    cases h
  | moves _ ih =>
    obtain ⟨_, h⟩ := ih hc
    cases h
  | done | act | clear | empty => cases hc

end Block.Reduces

namespace Thread

variable {t : Thread} {e : Ending} {w w' : World} {b c : Block}

theorem leaves_or_spins_of_reduces (hbc : b.Reduces c) (h : Spins ⟨c, w⟩ w') :
    Leaves ⟨b, w⟩ w'.output ∨ Spins ⟨b, w⟩ w' := by
  obtain ⟨hw, r, hr⟩ := h
  rcases leadsTo_of_reaches hbc hr with hleaves | ⟨b', hb', hred⟩
  · exact .inl hleaves
  · obtain ⟨r', rfl⟩ := hred.eq_loop_done rfl
    exact .inr ⟨hw, r', hb'⟩

theorem leaves_of_reduces {bytes : List UInt8} (hbc : b.Reduces c) (h : Leaves ⟨c, w⟩ bytes) :
    Leaves ⟨b, w⟩ bytes := by
  obtain ⟨e, w', hend, he, hw⟩ := h
  exact ((reflects_of_reduces hbc hend).leaves he).mono hw

/-- An ending after any number of reductions is reflected by the run before them. -/
theorem reflects_of_ends (hbc : Relation.ReflTransGen Block.Reduces b c) (h : Ends ⟨c, w⟩ e w') :
    Reflects ⟨b, w⟩ e w' := by
  induction hbc using Relation.ReflTransGen.head_induction_on with
  | refl => exact .inr (.inl h)
  | head hred _ ih =>
    rcases ih with hleaves | hend | ⟨rfl, hspins⟩
    · exact .inl (leaves_of_reduces hred hleaves)
    · exact reflects_of_reduces hred hend
    · exact (leaves_or_spins_of_reduces hred hspins).imp_right fun h => .inr ⟨rfl, h⟩

end Thread

/-! ### Runs of the interpreter -/

namespace Interpreter

variable {σ : Type}

/-- The run leaves the tape when it has written no more than a beginning of `bytes`. -/
def LeavesTape (p : Program) (sink : Sink σ) (m : Interpreter) (out : σ) (bytes : List UInt8) : Prop :=
  ∃ n index capacity m',
    m.run p sink n out = (.failed (.outOfBounds index capacity), m', sink.writeAll out (m.written p n)) ∧
      m.written p n <+: bytes

/-- The run never ends, and from some step on it has written `bytes` and writes nothing more. -/
def Idles (p : Program) (sink : Sink σ) (m : Interpreter) (out : σ) (bytes : List UInt8) : Prop :=
  m.RunsForever p sink out ∧
    ∃ n₀, ∀ n ≥ n₀, (m.run p sink n out).2.2 = sink.writeAll out bytes ∧ m.written p n = bytes

end Interpreter

namespace Matches

variable {σ : Type} {sink : Sink σ} {options : Options} {m : Interpreter} {b : Block} {w : World}

theorem leavesTape_of_leaves (hs : sink.Faultless) (hm : Interpreter.new options = .ok m) (out : σ)
    {bytes : List UInt8} (h : Thread.Leaves ⟨b, World.start m.tape⟩ bytes) :
    m.LeavesTape (b.linkedFrom 0).toArray sink out bytes := by
  obtain ⟨e, w, hend, he, hw⟩ := h
  obtain ⟨n, hn⟩ := Thread.ends_iff_run.1 hend
  have hrun := (start b sink out hm).run hs n
  rw [hn] at hrun
  obtain ⟨ending, m', out', heq, hends⟩ := hrun
  have hwritten := written_of_run hm hn
  rw [hends.out] at heq
  cases hends.ending with
  | finished => exact absurd he id
  | halted ip => exact absurd he id
  | input ip => exact absurd he id
  | outOfBounds index capacity =>
    refine ⟨n, index, capacity, m', ?_, ?_⟩
    · rw [hwritten]
      exact heq
    · rw [hwritten]
      exact hw

theorem idles_of_spins (hs : sink.Faultless) (hm : Interpreter.new options = .ok m) (out : σ)
    (h : Thread.Spins ⟨b, World.start m.tape⟩ w) : m.Idles (b.linkedFrom 0).toArray sink out w.output := by
  obtain ⟨hw, rest, k, hk⟩ := h
  have hself : Thread.next ⟨.loop .done rest, w⟩ = some ⟨.loop .done rest, w⟩ :=
    Thread.next_eq_some_iff.2 (Thread.step_loop_live hw)
  have hspin (j : Nat) : advance Thread.next j ⟨.loop .done rest, w⟩ = some ⟨.loop .done rest, w⟩ := by
    induction j with
    | zero => rfl
    | succ j ih => rw [advance_succ hself, ih]
  have hlate (n : Nat) (hn : k ≤ n) :
      advance Thread.next n ⟨b, World.start m.tape⟩ = some ⟨.loop .done rest, w⟩ := by
    rw [advance_of_advance hk hn, hspin]
  constructor
  · refine (runsForever_iff hs hm out).2 fun n => ?_
    cases hn : Thread.run n ⟨b, World.start m.tape⟩ with
    | none => rfl
    | some r =>
      have hlong := Thread.run_mono (Nat.le_max_left n k) hn
      rw [Thread.run_eq_none_iff.2 ⟨_, hlate _ (Nat.le_max_right n k)⟩] at hlong
      cases hlong
  · refine ⟨k, fun n hn => ?_⟩
    obtain ⟨m', out', heq, hmatch⟩ := (start b sink out hm).run_of_advance hs (hlate n hn)
    exact ⟨by rw [heq, hmatch.out], written_of_advance hm (hlate n hn)⟩

/-- An ending of the interpreter after optimizing is that of a thread, which is reflected by the thread of
the program before. -/
theorem reflects_of_run (hs : sink.Faultless) {c : Block} (hbc : Relation.ReflTransGen Block.Reduces b c)
    (hm : Interpreter.new options = .ok m) (out : σ) {n : Nat} {ending : Interpreter.Ending} {m₁ : Interpreter}
    {out₁ : σ} (hr : m.run (c.linkedFrom 0).toArray sink n out = (ending, m₁, out₁)) (hend : ending ≠ .unfinished) :
    ∃ e w, EndsWith e w sink out ending m₁ out₁ ∧ m.written (c.linkedFrom 0).toArray n = w.output ∧
      Thread.Reflects ⟨b, World.start m.tape⟩ e w := by
  obtain ⟨e, w, hrun, hends⟩ := (start c sink out hm).exists_end hs hr hend
  exact ⟨e, w, hends, written_of_run hm hrun,
    Thread.reflects_of_ends hbc (Thread.ends_iff_run.2 ⟨n, hrun⟩)⟩

/-- What the interpreter does before optimizing where it ends so after. -/
theorem run_of_reflects (hs : sink.Faultless) (hm : Interpreter.new options = .ok m) {out out₁ : σ}
    {e : Thread.Ending} {ending : Interpreter.Ending} {m₁ : Interpreter} (h : EndsWith e w sink out ending m₁ out₁)
    (hreflects : Thread.Reflects ⟨b, World.start m.tape⟩ e w) :
    (∃ n ending' m₂, m.run (b.linkedFrom 0).toArray sink n out = (ending', m₂, out₁) ∧ EndsAs e ending' ∧
        m.written (b.linkedFrom 0).toArray n = w.output ∧ m₂.tape = m₁.tape ∧
        m₂.cursor.ptr = m₁.cursor.ptr ∧ m₂.halted = m₁.halted) ∨
      (e = .halted ∧ m.Idles (b.linkedFrom 0).toArray sink out w.output) ∨
      m.LeavesTape (b.linkedFrom 0).toArray sink out w.output := by
  rcases hreflects with hleaves | hend | ⟨he, hspins⟩
  · exact .inr (.inr (leavesTape_of_leaves hs hm out hleaves))
  · obtain ⟨n, hn⟩ := Thread.ends_iff_run.1 hend
    have hrun := (start b sink out hm).run hs n
    rw [hn] at hrun
    obtain ⟨ending', m₂, out₂, heq, hends⟩ := hrun
    obtain ⟨rfl, hsame⟩ := h.agree hends
    exact .inl ⟨n, ending', m₂, heq, hends.ending, written_of_run hm hn, hsame⟩
  · exact .inr (.inl ⟨he, idles_of_spins hs hm out hspins⟩)

end Matches

namespace Matches

variable {σ : Type} {sink : Sink σ} {options : Options} {m : Interpreter} {b c : Block}

/-- A run that would end but by leaving the tape ends after optimizing, too. -/
theorem runsForever_of_reductions (hs : sink.Faultless) (hbc : Relation.ReflTransGen Block.Reduces b c)
    (hm : Interpreter.new options = .ok m) (out : σ) (h : m.RunsForever (c.linkedFrom 0).toArray sink out) :
    m.RunsForever (b.linkedFrom 0).toArray sink out ∨
      ∃ bytes, m.LeavesTape (b.linkedFrom 0).toArray sink out bytes := by
  by_cases hleaves : ∃ bytes, Thread.Leaves ⟨b, World.start m.tape⟩ bytes
  · obtain ⟨bytes, hleaves⟩ := hleaves
    exact .inr ⟨bytes, leavesTape_of_leaves hs hm out hleaves⟩
  · refine .inl ((runsForever_iff hs hm out).2 fun n => ?_)
    cases hn : Thread.run n ⟨b, World.start m.tape⟩ with
    | none => rfl
    | some r =>
      obtain ⟨e, w⟩ := r
      have he : ¬ e.LeavesTape := fun he =>
        hleaves ⟨w.output, e, w, Thread.ends_iff_run.2 ⟨n, hn⟩, he, List.prefix_rfl⟩
      -- so it ends after optimizing, which it does not
      obtain ⟨k, _, hk⟩ := Thread.run_of_reductions hbc he hn
      rw [(runsForever_iff hs hm out).1 h k] at hk
      cases hk

end Matches

/-- Optimizing a linked program adds nothing to what the interpreter does from the zeroed tape. Where the
run leaves the tape after optimizing it did so before, having written no more than a beginning of the
output; where it ends at the end of the program, at an empty loop or at an input, it ended there before
with the same output and on the same tape, or left the tape after a beginning of that output, or, if
the loop is empty, never ended and wrote nothing more; and where it never ends, it never ended or left
the tape. -/
theorem Program.optimize_reflects_runs {σ : Type} {p : Program} (hp : p.Linked) {options : Options}
    {m : Interpreter} (hm : Interpreter.new options = .ok m) {sink : Sink σ} (hs : sink.Faultless)
    (out : σ) :
    ∃ q : Program, p.optimize = .ok q ∧
      (∀ n index capacity m₁ out₁,
        m.run q sink n out = (.failed (.outOfBounds index capacity), m₁, out₁) →
          m.LeavesTape p sink out (m.written q n)) ∧
      (∀ n m₁ out₁, m.run q sink n out = (.stopped none none, m₁, out₁) →
        (∃ n' m₂, m.run p sink n' out = (.stopped none none, m₂, out₁) ∧ m.written p n' = m.written q n ∧
          m₂.tape = m₁.tape ∧ m₂.cursor.ptr = m₁.cursor.ptr ∧ m₂.halted = m₁.halted) ∨
        m.LeavesTape p sink out (m.written q n)) ∧
      (∀ n ip m₁ out₁, m.run q sink n out = (.stopped (some ip) none, m₁, out₁) →
        (∃ n' ip' m₂, m.run p sink n' out = (.stopped (some ip') none, m₂, out₁) ∧
          m.written p n' = m.written q n ∧ m₂.tape = m₁.tape ∧ m₂.cursor.ptr = m₁.cursor.ptr ∧
          m₂.halted = m₁.halted) ∨
        m.Idles p sink out (m.written q n) ∨ m.LeavesTape p sink out (m.written q n)) ∧
      (∀ n ip m₁ out₁, m.run q sink n out = (.failed (.inputUnsupported ip), m₁, out₁) →
        (∃ n' ip' m₂, m.run p sink n' out = (.failed (.inputUnsupported ip'), m₂, out₁) ∧
          m.written p n' = m.written q n ∧ m₂.tape = m₁.tape ∧ m₂.cursor.ptr = m₁.cursor.ptr ∧
          m₂.halted = m₁.halted) ∨
        m.LeavesTape p sink out (m.written q n)) ∧
      (m.RunsForever q sink out → m.RunsForever p sink out ∨ ∃ bytes, m.LeavesTape p sink out bytes) := by
  obtain ⟨b, rfl⟩ := Program.linked_iff_block.1 hp
  obtain ⟨c, hq, hbc⟩ := Program.optimize_block b
  refine ⟨_, hq, ?_, ?_, ?_, ?_, ?_⟩
  · intro n index capacity m₁ out₁ hr
    obtain ⟨e, w, h, hwritten, hreflects⟩ := Matches.reflects_of_run hs hbc hm out hr (by simp)
    rw [hwritten]
    cases h.ending with
    | outOfBounds => exact Matches.leavesTape_of_leaves hs hm out (hreflects.leaves trivial)
  · intro n m₁ out₁ hr
    obtain ⟨e, w, h, hwritten, hreflects⟩ := Matches.reflects_of_run hs hbc hm out hr (by simp)
    rw [hwritten]
    cases h.ending with
    | finished =>
      rcases Matches.run_of_reflects hs hm h hreflects with
        ⟨n', ending', m₂, hr', hends, hsame⟩ | ⟨he, _⟩ | hleaves
      · cases hends with
        | finished => exact .inl ⟨n', m₂, hr', hsame⟩
      · cases he
      · exact .inr hleaves
  · intro n ip m₁ out₁ hr
    obtain ⟨e, w, h, hwritten, hreflects⟩ := Matches.reflects_of_run hs hbc hm out hr (by simp)
    rw [hwritten]
    cases h.ending with
    | halted =>
      rcases Matches.run_of_reflects hs hm h hreflects with
        ⟨n', ending', m₂, hr', hends, hsame⟩ | ⟨_, hidles⟩ | hleaves
      · cases hends with
        | halted ip' => exact .inl ⟨n', ip', m₂, hr', hsame⟩
      · exact .inr (.inl hidles)
      · exact .inr (.inr hleaves)
  · intro n ip m₁ out₁ hr
    obtain ⟨e, w, h, hwritten, hreflects⟩ := Matches.reflects_of_run hs hbc hm out hr (by simp)
    rw [hwritten]
    cases h.ending with
    | input =>
      rcases Matches.run_of_reflects hs hm h hreflects with
        ⟨n', ending', m₂, hr', hends, hsame⟩ | ⟨he, _⟩ | hleaves
      · cases hends with
        | input ip' => exact .inl ⟨n', ip', m₂, hr', hsame⟩
      · cases he
      · exact .inr hleaves
  · exact Matches.runsForever_of_reductions hs hbc hm out

/-- Two moves to the left after an output are one after optimizing, and leave the tape as it does. -/
theorem Program.optimize_reflects_excursion :
    ∃ m q, Interpreter.new ⟨3, false⟩ = .ok m ∧
      Program.optimize #[.output, .move (-1), .move (-1)] = .ok q ∧
      m.LeavesTape #[.output, .move (-1), .move (-1)] Sink.buffer #[] (m.written q 2) := by
  have hlinked := Program.linked_of_block (.act .output (.act (.move (-1)) (.act (.move (-1)) .done)))
  obtain ⟨tape, hnew, hcapacity⟩ : ∃ tape : Tape,
      Interpreter.new ⟨3, false⟩ = .ok ⟨tape, .start, false, none⟩ ∧ tape.capacity = 3 := ⟨_, rfl, rfl⟩
  have hfirst : Program.sweep #[.output, .move (-1), .move (-1)] = ⟨#[.output, .move (-2)], true⟩ := by
    simp [Program.sweep, Program.sweepFrom, Program.rewrite?, Program.foldMoves]
  have hsecond : Program.sweep #[.output, .move (-2)] = ⟨#[.output, .move (-2)], false⟩ := by
    simp [Program.sweep, Program.sweepFrom, Program.rewrite?]
  have hoptimized : Program.optimize #[.output, .move (-1), .move (-1)] = .ok #[.output, .move (-2)] := by
    rw [Program.optimize, Program.simplify_of_changed hfirst, Program.simplify_of_unchanged hsecond]
    rfl
  obtain ⟨q, hq, hleaves, _⟩ := Program.optimize_reflects_runs hlinked hnew Sink.buffer_faultless #[]
  have heq : #[.output, .move (-2)] = q := Except.ok.inj (hoptimized.symm.trans hq)
  subst heq
  have hpos : 0 < tape.capacity := tape.capacity_pos
  have hmove : tape.offset 0 (-2) = .error (.outOfBounds (min (-2) (2 ^ 63 - 1)) tape.capacity) := by
    have hleft : ¬ 0 ≤ ((0 : Nat) : Int) + (-2 : Int64).toInt := by decide
    rw [Tape.offset_eq hpos, if_neg fun hin => hleft hin.1]
    rfl
  have hmoves : Interpreter.At #[.output, .move (-2)] ⟨tape, ⟨1, 0⟩, false, none⟩ (.move (-2)) := ⟨rfl, rfl, hpos⟩
  obtain ⟨index, m₁, hrun⟩ : ∃ index m₁, Interpreter.run #[.output, .move (-2)] Sink.buffer 2
      ⟨tape, .start, false, none⟩ #[] = (.failed (.outOfBounds index 3), m₁, #[tape.cell 0]) := by
    rw [Interpreter.run, Interpreter.step_output ⟨rfl, rfl, hpos⟩ Sink.buffer_faultless]
    show ∃ index m₁, Interpreter.run _ Sink.buffer 1 ⟨tape, ⟨1, 0⟩, false, none⟩ #[tape.cell 0] = _
    rw [Interpreter.run, Interpreter.step_move_error hmoves hmove, hcapacity]
    exact ⟨_, _, rfl⟩
  exact ⟨_, _, hnew, hoptimized, hleaves 2 index 3 m₁ _ hrun⟩

end TapeLang
