import TapeLang.Proofs.Counting
import TapeLang.Proofs.Nesting.Evaluation

/-!
# What the evaluation of a block executes

`Block.Executes` is the evaluation of a block with the kinds of the instructions that it executes. A loop is tried at
its opening bracket when it is come to, and at its closing bracket when its body is done, and the two are different
kinds; so a derivation says at which bracket a loop that comes first is tried. Every evaluation executes something
(`Block.Evaluates.exists_executes`).

The interpreter of a program that has the listing of the block at some index goes through the evaluation and executes
these kinds (`Interpreter.arrives`), over any sink that accepts the bytes. So where the evaluation ends in order there
is a run that does (`Interpreter.run_of_executes`), and a run that ends in order executes what the evaluation of its
block does (`Interpreter.executes_of_run`).
-/

namespace TapeLang

/-- The kind of a bracket. -/
def Side.kind : Side → Kind
  | opening => .loopBegin
  | closing => .loopEnd

namespace Sink

variable {σ : Type} {sink : Sink σ} {out : σ} {bytes bytes' : List UInt8}

/-- These bytes are all accepted. -/
def Accepts (sink : Sink σ) (out : σ) (bytes : List UInt8) : Prop := (sink.send out bytes).1 = none

theorem Accepts.of_prefix (h : sink.Accepts out bytes) (hle : bytes' <+: bytes) : sink.Accepts out bytes' := by
  obtain ⟨rest, rfl⟩ := hle
  unfold Accepts at h ⊢
  rcases hsend : sink.send out bytes' with ⟨_ | e, out'⟩
  · rfl
  · rw [(send_append_of_refused hsend rest).1] at h
    cases h

/-- Where one byte more is accepted, the sink accepts it after the others. -/
theorem Accepts.write_eq {b : UInt8} {out' : σ} (h : sink.Accepts out (bytes ++ [b]))
    (hout : sink.send out bytes = (none, out')) :
    ∃ out₁, sink.write out' b = (none, out₁) ∧ sink.send out (bytes ++ [b]) = (none, out₁) := by
  rcases hsend : sink.send out (bytes ++ [b]) with ⟨answer, out₁⟩
  obtain rfl : answer = none := by rwa [Accepts, hsend] at h
  rcases send_append_singleton_eq_iff.1 hsend with ⟨out₂, hfront, hwrite⟩ | ⟨_, hnone, _⟩
  · rw [hout] at hfront
    cases hfront
    exact ⟨out₁, hwrite, rfl⟩
  · cases hnone

end Sink

namespace Block

open Thread (Ending)

variable {b : Block} {w w' w₁ : World} {e : Ending} {side : Side} {kinds : List Kind}

/-- A block, in a world, comes to an end in a world, and executes instructions of these kinds. A loop that comes first
is tried at the bracket `side`. -/
inductive Executes : Side → Block → World → Ending → World → List Kind → Prop where
  | done (side : Side) (w : World) : Executes side .done w .finished w []
  | act {side : Side} {a : Action} {rest : Block} {w w₁ w₂ : World} {e : Ending} {kinds : List Kind}
    (ha : a.perform w = .ok w₁) (hr : Executes .opening rest w₁ e w₂ kinds) :
    Executes side (.act a rest) w e w₂ (a.instruction.kind :: kinds)
  /-- An action that ends the whole run. -/
  | stop {side : Side} {a : Action} {rest : Block} {w : World} {e : Ending} (ha : a.perform w = .error e) :
    Executes side (.act a rest) w e w [a.instruction.kind]
  | skip {side : Side} {body rest : Block} {w w₁ : World} {e : Ending} {kinds : List Kind} (hz : w.cell = 0)
    (hr : Executes .opening rest w e w₁ kinds) : Executes side (.loop body rest) w e w₁ (side.kind :: kinds)
  | again {side : Side} {body rest : Block} {w w₁ w₂ : World} {e : Ending} {kinds kinds' : List Kind}
    (hz : w.cell ≠ 0) (hb : Executes .opening body w .finished w₁ kinds)
    (hr : Executes .closing (.loop body rest) w₁ e w₂ kinds') :
    Executes side (.loop body rest) w e w₂ (side.kind :: (kinds ++ kinds'))
  /-- The body of a loop ends the whole run. -/
  | inside {side : Side} {body rest : Block} {w w₁ : World} {e : Ending} {kinds : List Kind} (hz : w.cell ≠ 0)
    (hb : Executes .opening body w e w₁ kinds) (he : e ≠ .finished) :
    Executes side (.loop body rest) w e w₁ (side.kind :: kinds)

/-- Every evaluation executes something. -/
theorem Evaluates.exists_executes (h : Evaluates b w e w') (side : Side) : ∃ kinds, Executes side b w e w' kinds := by
  induction h generalizing side with
  | done w => exact ⟨[], .done side w⟩
  | act ha _ ih =>
    obtain ⟨kinds, hr⟩ := ih .opening
    exact ⟨_, .act ha hr⟩
  | stop ha => exact ⟨_, .stop ha⟩
  | skip hz _ ih =>
    obtain ⟨kinds, hr⟩ := ih .opening
    exact ⟨_, .skip hz hr⟩
  | again hz _ _ ihBody ihRest =>
    obtain ⟨kinds, hb⟩ := ihBody .opening
    obtain ⟨kinds', hr⟩ := ihRest .closing
    exact ⟨_, .again hz hb hr⟩
  | inside hz _ he ih =>
    obtain ⟨kinds, hb⟩ := ih .opening
    exact ⟨_, .inside hz hb he⟩

namespace Executes

/-- Before an action it is no matter at which bracket a loop would be tried. -/
theorem of_act {a : Action} {rest : Block} (h : Executes side (.act a rest) w e w' kinds) (side' : Side) :
    Executes side' (.act a rest) w e w' kinds := by
  cases h with
  | act ha hr => exact .act ha hr
  | stop ha => exact .stop ha

/-- What has been written stays written. -/
theorem output_prefix (h : Executes side b w e w' kinds) : w.output <+: w'.output := by
  induction h with
  | done side w => exact List.prefix_rfl
  | act ha _ ih => exact (Action.output_prefix_of_perform ha).trans ih
  | stop ha => exact List.prefix_rfl
  | skip hz _ ih => exact ih
  | again hz _ _ ihBody ihRest => exact ihBody.trans ihRest
  | inside hz _ he ih => exact ih

end Executes

/-- Where a block begins that stands at index `i`, or is tried again. -/
def entry (side : Side) (i : Nat) : Block → Nat
  | loop body _ =>
    match side with
    | .opening => i
    | .closing => i + body.size + 1
  | _ => i

theorem entry_opening (i : Nat) (b : Block) : b.entry .opening i = i := by
  cases b <;> rfl

end Block

namespace Interpreter

open Block (Evaluates Executes Occurs)

variable {σ : Type} {p : Program} {sink : Sink σ} {out₀ out out₁ : σ} {m m₁ : Interpreter} {b : Block}
  {w w' w₁ : World} {e : Thread.Ending} {side : Side} {kinds kinds' : List Kind} {i : Nat}

/-- The interpreter stands at an index in a world, all the bytes of which the sink has accepted. -/
structure StandsAt (sink : Sink σ) (out₀ : σ) (m : Interpreter) (out : σ) (i : Nat) (w : World) : Prop where
  live : m.halted = false
  ip : m.cursor.ip = i
  tape : m.tape = w.tape
  ptr : m.cursor.ptr = w.ptr
  sent : sink.send out₀ w.output = (none, out)

/-- What the interpreter comes to where the evaluation of a block ends so: the index behind the block, or the empty loop
at which the run stops. -/
def Arrives (p : Program) (sink : Sink σ) (out₀ : σ) (m : Interpreter) (out : σ) (kinds : List Kind) (i : Nat)
    (w : World) : Thread.Ending → Prop
  | .finished => ∃ m' out', Goes p sink m out kinds m' out' ∧ m'.StandsAt sink out₀ out' i w
  | .halted => ∃ front m' out' ip, kinds = front ++ [.halt] ∧ Goes p sink m out front m' out' ∧
      m'.StandsAt sink out₀ out' ip w ∧ p[ip]? = some .halt ∧ w.cell ≠ 0
  | .failed _ => True

namespace StandsAt

theorem cell_eq (h : m.StandsAt sink out₀ out i w) : m.cell = w.cell := by
  simp only [Interpreter.cell, World.cell, h.tape, h.ptr]

theorem at_instruction (h : m.StandsAt sink out₀ out i w) {instruction : Instruction} (hi : p[i]? = some instruction) :
    m.At p instruction where
  live := h.live
  instruction := by rw [h.ip, hi]
  ptr_lt := by
    rw [h.tape, h.ptr]
    exact w.ptr_lt

/-- The interpreter performs the action that it stands at. -/
theorem act (h : m.StandsAt sink out₀ out i w) {a : Action} (hi : p[i]? = some a.instruction)
    (ha : a.perform w = .ok w₁) (haccepts : sink.Accepts out₀ w₁.output) :
    ∃ m₁ out₁, Goes p sink m out [a.instruction.kind] m₁ out₁ ∧ m₁.StandsAt sink out₀ out₁ (i + 1) w₁ := by
  have hat := h.at_instruction hi
  have hcell := h.cell_eq
  have hip : m.cursor.ip + 1 = i + 1 := by rw [h.ip]
  cases a with
  | add delta =>
    cases ha
    refine ⟨_, out, .single hat.instruction (step_add hat sink out), h.live, hip, ?_, h.ptr, h.sent⟩
    simp only [withCell, tape_pass, ptr_pass, World.assign, h.tape, h.ptr, hcell]
  | set value =>
    cases ha
    refine ⟨_, out, .single hat.instruction (step_set hat sink out), h.live, hip, ?_, h.ptr, h.sent⟩
    simp only [withCell, tape_pass, ptr_pass, World.assign, h.tape, h.ptr]
  | move delta =>
    simp only [Action.perform] at ha
    split at ha
    · rename_i hin
      cases ha
      have hoffset : m.tape.offset m.cursor.ptr delta = .ok (w.target delta).toNat := by
        rw [Tape.offset_eq hat.ptr_lt, h.tape, h.ptr]
        exact if_pos hin
      exact ⟨_, out, .single hat.instruction (step_move_ok hat hoffset sink out), h.live, hip, h.tape, rfl, h.sent⟩
    · cases ha
  | input => cases ha
  | output =>
    cases ha
    obtain ⟨out₁, hwrite, hsent⟩ := haccepts.write_eq h.sent
    have hstep : m.step p sink out = (.running, m.pass .output, out₁) := by
      rw [step_output_answered hat, hcell, hwrite]
      rfl
    exact ⟨_, out₁, .single hat.instruction hstep, h.live, hip, h.tape, h.ptr, hsent⟩
  | halt =>
    by_cases hz : w.cell = 0
    · rw [Action.perform_halt_zero hz] at ha
      cases ha
      have hstep := step_halt_zero hat (hcell.trans hz) sink out
      exact ⟨_, out, .single hat.instruction hstep, h.live, hip, h.tape, h.ptr, h.sent⟩
    · rw [Action.perform_halt_live hz] at ha
      cases ha

/-- The interpreter tries the loop that it stands at. -/
theorem loop {body rest : Block} (h : m.StandsAt sink out₀ out (Block.entry side i (.loop body rest)) w)
    (hocc : Occurs p i (.loop body rest)) :
    ∃ m₁, Goes p sink m out [side.kind] m₁ out ∧
      m₁.StandsAt sink out₀ out (if w.cell = 0 then i + body.size + 2 else i + 1) w := by
  obtain ⟨hbegin, -, hend, -⟩ := hocc
  have hcell := h.cell_eq
  cases side with
  | opening =>
    have hat := h.at_instruction hbegin
    have hstep := step_loopBegin hat sink out
    by_cases hz : w.cell = 0
    · rw [if_pos (hcell.trans hz)] at hstep
      rw [if_pos hz]
      exact ⟨_, Goes.single hat.instruction hstep, h.live, rfl, h.tape, h.ptr, h.sent⟩
    · rw [if_neg (by rwa [hcell])] at hstep
      rw [if_neg hz]
      exact ⟨_, Goes.single hat.instruction hstep, h.live, congrArg (· + 1) h.ip, h.tape, h.ptr, h.sent⟩
  | closing =>
    have hat := h.at_instruction hend
    have hstep := step_loopEnd hat sink out
    by_cases hz : w.cell = 0
    · rw [if_pos (hcell.trans hz)] at hstep
      rw [if_pos hz]
      exact ⟨_, Goes.single hat.instruction hstep, h.live, congrArg (· + 1) h.ip, h.tape, h.ptr, h.sent⟩
    · rw [if_neg (by rwa [hcell])] at hstep
      rw [if_neg hz]
      exact ⟨_, Goes.single hat.instruction hstep, h.live, rfl, h.tape, h.ptr, h.sent⟩

end StandsAt

/-! ### Through a block -/

namespace Arrives

theorem head (hgoes : Goes p sink m out kinds m₁ out₁) (h : Arrives p sink out₀ m₁ out₁ kinds' i w e) :
    Arrives p sink out₀ m out (kinds ++ kinds') i w e := by
  cases e with
  | finished =>
    obtain ⟨m', out', hgoes', hstands⟩ := h
    exact ⟨m', out', hgoes.trans hgoes', hstands⟩
  | halted =>
    obtain ⟨front, m', out', ip, rfl, hgoes', hstands⟩ := h
    exact ⟨kinds ++ front, m', out', ip, (List.append_assoc _ _ _).symm, hgoes.trans hgoes', hstands⟩
  | failed f => trivial

/-- Where the run stops, it does not come behind the block. -/
theorem of_ne_finished (h : Arrives p sink out₀ m out kinds i w e) (he : e ≠ .finished) (j : Nat) :
    Arrives p sink out₀ m out kinds j w e := by
  cases e with
  | finished => exact absurd rfl he
  | halted => exact h
  | failed f => exact h

end Arrives

/-- Only at an empty loop does an action stop the run. -/
theorem eq_halt_of_perform {a : Action} (h : a.perform w = .error .halted) : a = .halt ∧ w.cell ≠ 0 := by
  cases a with
  | move delta =>
    simp only [Action.perform] at h
    split at h
    · cases h
    · cases h
  | halt =>
    refine ⟨rfl, fun hz => ?_⟩
    rw [Action.perform_halt_zero hz] at h
    cases h
  | _ => cases h

/-- The interpreter goes through the evaluation of a block, and executes what that does. -/
theorem arrives (h : Executes side b w e w' kinds) (hocc : Occurs p i b)
    (hm : m.StandsAt sink out₀ out (b.entry side i) w) (haccepts : sink.Accepts out₀ w'.output) :
    Arrives p sink out₀ m out kinds (i + b.size) w' e := by
  induction h generalizing i m out with
  | done side w => exact ⟨m, out, .refl m out, hm⟩
  | @act side a rest w w₁ w₂ e kinds ha hr ih =>
    obtain ⟨hi, hrest⟩ := hocc
    obtain ⟨m₁, out₁, hgoes, hm₁⟩ := hm.act hi ha (haccepts.of_prefix hr.output_prefix)
    have hnext := ih hrest (by rwa [Block.entry_opening]) haccepts
    rw [show i + 1 + rest.size = i + (Block.act a rest).size by simp only [Block.size]; omega] at hnext
    exact hnext.head hgoes
  | @stop side a rest w e ha =>
    cases e with
    | finished => exact absurd rfl (Action.perform_ne_finished ha)
    | halted =>
      obtain ⟨rfl, hz⟩ := eq_halt_of_perform ha
      exact ⟨[], m, out, i, rfl, .refl m out, hm, hocc.1, hz⟩
    | failed f => trivial
  | @skip side body rest w w₁ e kinds hz hr ih =>
    obtain ⟨m₁, hgoes, hm₁⟩ := hm.loop hocc
    rw [if_pos hz] at hm₁
    have hnext := ih hocc.2.2.2 (by rwa [Block.entry_opening]) haccepts
    rw [show i + body.size + 2 + rest.size = i + (Block.loop body rest).size by
      simp only [Block.size]; omega] at hnext
    exact hnext.head hgoes
  | @again side body rest w w₁ w₂ e kinds kinds' hz hb hr ihBody ihRest =>
    obtain ⟨m₁, hgoes, hm₁⟩ := hm.loop hocc
    rw [if_neg hz] at hm₁
    obtain ⟨m₂, out₂, hgoes', hm₂⟩ := ihBody hocc.2.1 (by rwa [Block.entry_opening])
      (haccepts.of_prefix hr.output_prefix)
    -- behind its body stands the closing bracket of the loop
    rw [show i + 1 + body.size = i + body.size + 1 by omega] at hm₂
    exact (ihRest hocc hm₂ haccepts).head (hgoes.trans hgoes')
  | inside hz hb he ih =>
    obtain ⟨m₁, hgoes, hm₁⟩ := hm.loop hocc
    rw [if_neg hz] at hm₁
    have hnext := ih hocc.2.1 (by rwa [Block.entry_opening]) haccepts
    exact (hnext.of_ne_finished he _).head hgoes

/-! ### Whole runs -/

section Start

variable {options : Options} {halt : Option Nat} {flush : Option SinkError} {n : Nat}

theorem standsAt_new (hnew : new options = .ok m) (sink : Sink σ) (out : σ) :
    m.StandsAt sink out out 0 (World.start m.tape) := by
  simp only [new] at hnew
  cases htape : options.newTape with
  | error e =>
    rw [htape] at hnew
    cases hnew
  | ok tape =>
    rw [htape] at hnew
    cases hnew
    exact ⟨rfl, rfl, rfl, rfl, rfl⟩

/-- Where the evaluation of its block ends in order, there is a run of the program that executes what it does. -/
theorem run_of_executes (hnew : new options = .ok m) (h : Executes .opening b (World.start m.tape) e w kinds)
    (he : e = .finished ∨ e = .halted) (hsent : sink.send out w.output = (none, out₁)) :
    ∃ n halt m', m.run (b.linkedFrom 0).toArray sink n out = close sink halt m' out₁ ∧
      m.kinds (b.linkedFrom 0).toArray sink n out = kinds := by
  have hocc : Occurs (b.linkedFrom 0).toArray 0 b := Block.occurs_of_eq b [] [] (by simp)
  have hstart : m.StandsAt sink out out (b.entry .opening 0) (World.start m.tape) := by
    rw [Block.entry_opening]
    exact standsAt_new hnew sink out
  have harrives := arrives h hocc hstart (by rw [Sink.Accepts, hsent])
  rcases he with rfl | rfl
  · obtain ⟨m', out', hgoes, hm'⟩ := harrives
    have hsize : (b.linkedFrom 0).toArray.size ≤ m'.cursor.ip := by
      rw [hm'.ip]
      simp
    have hstep := step_of_size_le hm'.live hsize sink out'
    obtain ⟨hrun, hkinds⟩ := hgoes.run_eq 1
    have hout := hm'.sent
    rw [hsent] at hout
    cases hout
    refine ⟨_, none, m', hrun.trans ?_, hkinds.trans ?_⟩
    · rw [run, hstep]
    · rw [Interpreter.kinds, hstep, List.append_nil]
  · obtain ⟨front, m', out', ip, rfl, hgoes, hm', hhalt, hz⟩ := harrives
    have hat := hm'.at_instruction hhalt
    have hstep := step_halt_live hat (by rwa [hm'.cell_eq]) sink out'
    obtain ⟨hrun, hkinds⟩ := hgoes.run_eq 1
    have hout := hm'.sent
    rw [hsent] at hout
    cases hout
    refine ⟨_, some m'.cursor.ip, { m'.pass .halt with halted := true }, hrun.trans ?_, hkinds.trans ?_⟩
    · rw [run, hstep]
    · rw [Interpreter.kinds, hstep, nextKind_eq hat.instruction]
      rfl

/-- A run that ends in order does so over a buffer, and the sink has accepted the bytes that the buffer keeps. -/
theorem exists_run_buffer (h : m.run p sink n out = (.stopped halt flush, m₁, out₁)) :
    ∃ k bytes out', m.run p Sink.buffer k #[] = (.stopped halt none, m₁, bytes) ∧
      sink.send out bytes.toList = (none, out') ∧ sink.flush out' = (flush, out₁) := by
  obtain ⟨k, m', out', hk, hlast⟩ := exists_advance_of_run p sink n m out
  obtain ⟨bytes, hbuffer, hsend⟩ := advance_iff_send.1 hk
  rw [h] at hlast
  rcases hlast with hlast | ⟨-, hlast⟩
  · cases hlast
  rw [run] at hlast
  have hrun : m.run p Sink.buffer (k + 1) #[] = m'.run p Sink.buffer 1 bytes := run_of_advance hbuffer 1
  rcases silent_or_writes p m' with ⟨o, m₂, hsilent⟩ | ⟨b, m₂, hwrites⟩
  · rw [hsilent.step_eq] at hlast
    cases o with
    | running => cases hlast
    | stopped =>
      cases hlast
      exact ⟨k + 1, bytes, out', by rw [hrun, run, hsilent.step_eq]; rfl, hsend, rfl⟩
    | halted ip =>
      cases hlast
      exact ⟨k + 1, bytes, out', by rw [hrun, run, hsilent.step_eq]; rfl, hsend, rfl⟩
    | failed e => cases hlast
  · rw [hwrites.step_eq] at hlast
    rcases hwrite : (sink.write out' b).1 with _ | e
    · rw [hwrite] at hlast
      cases hlast
    · rw [hwrite] at hlast
      cases hlast

/-- A run that ends in order is the evaluation of the block of its program, and executes what that does. -/
theorem executes_of_run (hnew : new options = .ok m)
    (h : m.run (b.linkedFrom 0).toArray sink n out = (.stopped halt flush, m₁, out₁)) :
    ∃ e w out', (e = .finished ∨ e = .halted) ∧ sink.send out w.output = (none, out') ∧
      sink.flush out' = (flush, out₁) ∧
      Executes .opening b (World.start m.tape) e w (m.kinds (b.linkedFrom 0).toArray sink n out) := by
  obtain ⟨k, bytes, out', hbuffer, hsend, hflush⟩ := exists_run_buffer h
  obtain ⟨e, w, hrun, hends⟩ := (Matches.start b Sink.buffer #[] hnew).exists_end Sink.buffer_faultless hbuffer nofun
  have he : e = .finished ∨ e = .halted := by
    cases hends.ending with
    | finished => exact .inl rfl
    | halted ip => exact .inr rfl
  have houtput := hends.out
  rw [Matches.closed_buffer, Sink.writeAll_buffer, Array.empty_append] at houtput
  rw [houtput] at hsend
  have hevaluates := Thread.ends_iff_evaluates.1 (Thread.ends_iff_run.2 ⟨k, hrun⟩)
  obtain ⟨kinds, hexecutes⟩ := hevaluates.exists_executes .opening
  obtain ⟨n', halt', m', hrun', hkinds⟩ := run_of_executes hnew hexecutes he hsend
  obtain ⟨-, hsame⟩ := kinds_of_ended (n := n) (k := n') (by rw [h]; nofun) (by rw [hrun']; nofun)
  refine ⟨e, w, out', he, hsend, hflush, ?_⟩
  rw [hsame, hkinds]
  exact hexecutes

end Start

end Interpreter

end TapeLang
