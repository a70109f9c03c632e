import TapeLang.Proofs.Nesting.Brackets
import TapeLang.Proofs.Nesting.Linked
import TapeLang.Program.Peephole
import TapeLang.Source.Parsing

/-!
# What linking finds

Linking reads a program from the left and stops at a bracket that closes nothing; else it says which
bracket, the leftmost, is left open. By `Nesting.nested_or_unclosed_or_unmatched` these are all cases, so
a program that is linked without such a bracket has nested brackets, and is linked
(`Program.linked_of_link`). Hence what the parser and the optimizer give are linked programs.
-/

namespace TapeLang

/-- What an instruction is to the nesting of a program. -/
def Instruction.side? : Instruction → Option Side
  | loopBegin _ => some .opening
  | loopEnd _ => some .closing
  | _ => none

namespace Instruction

theorem eq_loopBegin_of_side? {i : Instruction} (h : i.side? = some .opening) : ∃ close, i = .loopBegin close := by
  cases i with
  | loopBegin close => exact ⟨close, rfl⟩
  | _ => cases h

theorem eq_loopEnd_of_side? {i : Instruction} (h : i.side? = some .closing) : ∃ start, i = .loopEnd start := by
  cases i with
  | loopEnd start => exact ⟨start, rfl⟩
  | _ => cases h

theorem eq_action_of_side? {i : Instruction} (h : i.side? = none) : ∃ a : Action, i = a.instruction := by
  cases i with
  | add delta => exact ⟨.add delta, rfl⟩
  | move delta => exact ⟨.move delta, rfl⟩
  | input => exact ⟨.input, rfl⟩
  | output => exact ⟨.output, rfl⟩
  | set value => exact ⟨.set value, rfl⟩
  | halt => exact ⟨.halt, rfl⟩
  | loopBegin close => cases h
  | loopEnd start => cases h

end Instruction

open Nesting (Nested OpenEnded)

/-- Nested instructions are those of a block. -/
theorem exists_block_of_nested {l : List Instruction} (h : Nested Instruction.side? l) :
    ∃ b : Block, l.map Instruction.erase = b.instructions := by
  induction h with
  | nil => exact ⟨.done, rfl⟩
  | plain hi _ ih =>
    obtain ⟨a, rfl⟩ := Instruction.eq_action_of_side? hi
    obtain ⟨b, hb⟩ := ih
    exact ⟨.act a b, by simp [Block.instructions, hb]⟩
  | pair hi hj _ _ ihBody ihRest =>
    obtain ⟨close, rfl⟩ := Instruction.eq_loopBegin_of_side? hi
    obtain ⟨start, rfl⟩ := Instruction.eq_loopEnd_of_side? hj
    obtain ⟨body, hbody⟩ := ihBody
    obtain ⟨rest, hrest⟩ := ihRest
    exact ⟨.loop body rest, by simp [Block.instructions, Instruction.erase, hbody, hrest]⟩

namespace Program

/-- Linking gets behind nested brackets with the same loops open. -/
theorem linkFrom_nested {l : List Instruction} (h : Nested Instruction.side? l) (index : Nat) (pending : List Nat)
    (linked : Program) (after : List Instruction) :
    ∃ linked', linkFrom index pending linked (l ++ after) = linkFrom (index + l.length) pending linked' after := by
  induction h generalizing index pending linked after with
  | nil => exact ⟨linked, rfl⟩
  | @plain i l hi _ ih =>
    obtain ⟨a, rfl⟩ := Instruction.eq_action_of_side? hi
    obtain ⟨linked', hrun⟩ := ih (index + 1) pending linked after
    refine ⟨linked', ?_⟩
    rw [List.cons_append, linkFrom_action, hrun, List.length_cons, show index + 1 + l.length = index + (l.length + 1) by omega]
  | @pair i j body rest hi hj _ _ ihBody ihRest =>
    obtain ⟨close, rfl⟩ := Instruction.eq_loopBegin_of_side? hi
    obtain ⟨start, rfl⟩ := Instruction.eq_loopEnd_of_side? hj
    obtain ⟨linked₁, hrun₁⟩ := ihBody (index + 1) (index :: pending) linked (.loopEnd start :: (rest ++ after))
    obtain ⟨linked', hrun₂⟩ := ihRest (index + 1 + body.length + 1) pending
      ((linked₁.setIfInBounds index (.loopBegin (index + 1 + body.length))).setIfInBounds
        (index + 1 + body.length) (.loopEnd index)) after
    refine ⟨linked', ?_⟩
    rw [List.cons_append, List.append_assoc, List.cons_append, linkFrom, hrun₁, linkFrom, hrun₂]
    congr 1
    simp only [List.length_cons, List.length_append]
    omega

/-- A bracket that closes nothing. -/
theorem unpaired_link_of_unmatched {p : Program} {front rest : List Instruction} {i : Instruction}
    (hp : p.toList = front ++ i :: rest) (hfront : Nested Instruction.side? front)
    (hi : i.side? = some .closing) : p.link.unpaired = some (.close front.length) := by
  obtain ⟨start, rfl⟩ := Instruction.eq_loopEnd_of_side? hi
  obtain ⟨linked, hrun⟩ := linkFrom_nested hfront 0 [] p (.loopEnd start :: rest)
  rw [link, hp, hrun, linkFrom, Nat.zero_add]

/-- While loops are open, what is left open in the end is the outermost of them. -/
theorem unpaired_linkFrom_of_openEnded {l : List Instruction} (h : OpenEnded Instruction.side? l) (index : Nat)
    {pending : List Nat} (hpending : pending ≠ []) (linked : Program) :
    (linkFrom index pending linked l).unpaired = pending.getLast?.map .start := by
  induction h generalizing index pending linked with
  | nested hl =>
    obtain ⟨linked', hrun⟩ := linkFrom_nested hl index pending linked []
    rw [List.append_nil] at hrun
    rw [hrun, linkFrom]
  | @unclosed i front rest hfront hi _ ih =>
    obtain ⟨close, rfl⟩ := Instruction.eq_loopBegin_of_side? hi
    obtain ⟨linked', hrun⟩ := linkFrom_nested hfront index pending linked (.loopBegin close :: rest)
    rw [hrun, linkFrom, ih _ (List.cons_ne_nil _ _), List.getLast?_cons_of_ne_nil hpending]

/-- The leftmost bracket that is left open. -/
theorem unpaired_link_of_unclosed {p : Program} {front rest : List Instruction} {i : Instruction}
    (hp : p.toList = front ++ i :: rest) (hfront : Nested Instruction.side? front)
    (hi : i.side? = some .opening) (hrest : OpenEnded Instruction.side? rest) :
    p.link.unpaired = some (.start front.length) := by
  obtain ⟨close, rfl⟩ := Instruction.eq_loopBegin_of_side? hi
  obtain ⟨linked, hrun⟩ := linkFrom_nested hfront 0 [] p (.loopBegin close :: rest)
  rw [link, hp, hrun, linkFrom, unpaired_linkFrom_of_openEnded hrest _ (List.cons_ne_nil _ _), Nat.zero_add]
  rfl

/-- Nested brackets are linked, with no bracket left over. -/
theorem link_of_nested {p : Program} (h : Nested Instruction.side? p.toList) :
    ∃ q : Program, p.link = ⟨q, none⟩ ∧ q.Linked ∧ q.toList.map Instruction.erase = p.toList.map Instruction.erase := by
  obtain ⟨b, hb⟩ := exists_block_of_nested h
  exact ⟨_, link_eq_of_map_erase hb, linked_of_block b, by simp [hb]⟩

/-- Only nested brackets are linked with no bracket left over. -/
theorem nested_of_link {p q : Program} (h : p.link = ⟨q, none⟩) : Nested Instruction.side? p.toList := by
  rcases Nesting.nested_or_unclosed_or_unmatched Instruction.side? p.toList with
    hp | ⟨front, i, rest, hp, hfront, hi, hrest⟩ | ⟨front, i, rest, hp, hfront, hi⟩
  · exact hp
  · have hunpaired := unpaired_link_of_unclosed hp hfront hi hrest
    rw [h] at hunpaired
    cases hunpaired
  · have hunpaired := unpaired_link_of_unmatched hp hfront hi
    rw [h] at hunpaired
    cases hunpaired

theorem linked_of_link {p q : Program} (h : p.link = ⟨q, none⟩) : q.Linked := by
  obtain ⟨q', hq', hlinked, _⟩ := link_of_nested (nested_of_link h)
  rw [h] at hq'
  cases hq'
  exact hlinked

/-- What the optimizer gives is linked. -/
theorem linked_of_optimize {p q : Program} (h : p.optimize = .ok q) : q.Linked := by
  rw [optimize, linked] at h
  split at h
  · rename_i q' hlink
    cases h
    exact linked_of_link hlink
  · cases h

end Program

/-- What the parser gives is linked. -/
theorem Source.linked_of_parse {source : Source} {p : Program} (h : source.parse = .ok p) : p.Linked := by
  unfold parse at h
  dsimp only at h
  split at h
  · rename_i q hlink
    cases h
    exact Program.linked_of_link hlink
  · cases h

end TapeLang
