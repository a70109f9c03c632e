import TapeLang.Proofs.Nesting.Linking

/-!
# What the parser accepts

A source is accepted exactly if the brackets behind its header are balanced, and then has one
instruction for each command. Otherwise the error names a byte of the source: the first `]` that closes
nothing, or else the leftmost `[` that is never closed (`Source.parse_iff_balanced`).

Linking finds the bracket by its index among the commands (`Program.unpaired_link_of_unmatched`,
`Program.unpaired_link_of_unclosed`). Comment leaves no command, so brackets are nested among commands as
they are among bytes, and a token knows the position of its byte (`Source.position_getElem?`).
-/

namespace TapeLang

open Nesting (Nested OpenEnded Balanced FirstUnmatched LeftmostUnclosed opens closes)

namespace Source

/-- What a byte is to the nesting of a source. -/
def side? (b : UInt8) : Option Side :=
  if b = '['.toUInt8 then some .opening else if b = ']'.toUInt8 then some .closing else none

/-- What a byte asks for. Loop targets are left open. -/
def instruction? (b : UInt8) : Option Instruction :=
  if b = '+'.toUInt8 then some (.add 1)
  else if b = '-'.toUInt8 then some (.add 255)
  else if b = '<'.toUInt8 then some (.move (-1))
  else if b = '>'.toUInt8 then some (.move 1)
  else if b = '.'.toUInt8 then some .output
  else if b = ','.toUInt8 then some .input
  else if b = '['.toUInt8 then some (.loopBegin 0)
  else if b = ']'.toUInt8 then some (.loopEnd 0)
  else none

/-! ### Bytes and commands -/

theorem ne_byte_of_ofByte?_eq_none {b : UInt8} (h : Command.ofByte? b = none) (c : Command) : b ≠ c.byte := fun hb => by
  rw [Command.ofByte?_eq_some_iff.2 hb] at h
  cases h

theorem instruction?_byte (c : Command) : instruction? c.byte = some c.instruction := by
  cases c <;> rfl

theorem instruction?_eq_none {b : UInt8} (h : Command.ofByte? b = none) : instruction? b = none := by
  have hne := ne_byte_of_ofByte?_eq_none h
  rw [instruction?, if_neg (show b ≠ '+'.toUInt8 from hne .increment),
    if_neg (show b ≠ '-'.toUInt8 from hne .decrement), if_neg (show b ≠ '<'.toUInt8 from hne .left),
    if_neg (show b ≠ '>'.toUInt8 from hne .right), if_neg (show b ≠ '.'.toUInt8 from hne .output),
    if_neg (show b ≠ ','.toUInt8 from hne .input), if_neg (show b ≠ '['.toUInt8 from hne .openLoop),
    if_neg (show b ≠ ']'.toUInt8 from hne .closeLoop)]

/-- The instruction of a byte is that of its command. -/
theorem instruction?_eq (b : UInt8) : instruction? b = (Command.ofByte? b).map Command.instruction := by
  cases hc : Command.ofByte? b with
  | some c => rw [Command.ofByte?_eq_some_iff.1 hc, instruction?_byte, Option.map_some]
  | none => rw [instruction?_eq_none hc, Option.map_none]

/-- Only a byte that is no bracket asks for nothing. -/
theorem side?_eq_none (b : UInt8) (h : instruction? b = none) : side? b = none := by
  rw [instruction?_eq, Option.map_eq_none_iff] at h
  have hne := ne_byte_of_ofByte?_eq_none h
  rw [side?, if_neg (show b ≠ '['.toUInt8 from hne .openLoop), if_neg (show b ≠ ']'.toUInt8 from hne .closeLoop)]

/-- An instruction is to the nesting what its byte is. -/
theorem side?_instruction (b : UInt8) (i : Instruction) (h : instruction? b = some i) : i.side? = side? b := by
  rw [instruction?_eq] at h
  obtain ⟨c, hc, rfl⟩ := Option.map_eq_some_iff.1 h
  rw [Command.ofByte?_eq_some_iff.1 hc]
  cases c <;> rfl

theorem eq_of_side?_opening {b : UInt8} (h : side? b = some .opening) : b = '['.toUInt8 := by
  unfold side? at h
  split at h
  · assumption
  · split at h <;> cases h

theorem eq_of_side?_closing {b : UInt8} (h : side? b = some .closing) : b = ']'.toUInt8 := by
  unfold side? at h
  split at h
  · cases h
  · split at h
    · assumption
    · cases h

/-! ### Tokens and their positions -/

/-- The tokens of bytes the first of which stands at `position`. -/
def tokenList (position : Nat) (l : List UInt8) : List Token :=
  (l.zipIdx position).filterMap fun b => (Command.ofByte? b.1).map (⟨·, b.2⟩)

theorem tokenList_append (position : Nat) (l l' : List UInt8) :
    tokenList position (l ++ l') = tokenList position l ++ tokenList (position + l.length) l' := by
  rw [tokenList, List.zipIdx_append, List.filterMap_append]
  rfl

theorem toList_tokensFrom (position : Nat) (tokens : Array Token) (l : List UInt8) :
    (tokensFrom position tokens l).toList = tokens.toList ++ tokenList position l := by
  induction l generalizing position tokens with
  | nil => simp [tokensFrom, tokenList]
  | cons b l ih =>
    unfold tokensFrom
    cases hb : Command.ofByte? b with
    | none => simp [ih, tokenList, hb]
    | some c => simp [ih, tokenList, hb]

theorem toList_tokens (source : Source) : source.tokens.toList = tokenList source.headerLength source.body :=
  toList_tokensFrom _ _ _

theorem map_instruction_tokenList (position : Nat) (l : List UInt8) :
    (tokenList position l).map (·.command.instruction) = l.filterMap instruction? := by
  induction l generalizing position with
  | nil => rfl
  | cons b l ih =>
    have htail := ih (position + 1)
    unfold tokenList at htail ⊢
    rw [List.zipIdx_cons]
    cases hb : Command.ofByte? b with
    | none =>
      rw [List.filterMap_cons_none (by rw [hb, Option.map_none]), htail,
        List.filterMap_cons_none (by rw [instruction?_eq, hb, Option.map_none])]
    | some c =>
      rw [List.filterMap_cons_some (by rw [hb, Option.map_some]), List.map_cons, htail,
        List.filterMap_cons_some (by rw [instruction?_eq, hb, Option.map_some])]

/-- A token is at its byte. -/
theorem position_getElem? {position : Nat} {front rest : List UInt8} {b : UInt8} {i : Instruction}
    (hb : instruction? b = some i) :
    ((tokenList position (front ++ b :: rest))[(front.filterMap instruction?).length]?).map (·.position) =
      some (position + front.length) := by
  rw [instruction?_eq] at hb
  obtain ⟨c, hc, _⟩ := Option.map_eq_some_iff.1 hb
  have hlength : (front.filterMap instruction?).length = (tokenList position front).length := by
    rw [← map_instruction_tokenList position, List.length_map]
  rw [hlength, tokenList_append, List.getElem?_append_right (Nat.le_refl _), Nat.sub_self]
  unfold tokenList
  rw [List.zipIdx_cons, List.filterMap_cons_some (by rw [hc, Option.map_some])]
  rfl

/-! ### The header -/

theorem closingLength?_le {depth read length : Nat} {l : List UInt8} (h : closingLength? depth read l = some length) :
    length ≤ read + l.length := by
  induction l generalizing depth read with
  | nil =>
    unfold closingLength? at h
    split at h
    · cases h
      exact Nat.le_refl _
    · cases h
  | cons b l ih =>
    unfold closingLength? at h
    rw [List.length_cons]
    split at h
    · cases h
      exact Nat.le_add_right _ _
    · split at h
      · have := ih h
        omega
      · split at h
        · have := ih h
          omega
        · have := ih h
          omega

theorem headerLength_le (source : Source) : source.headerLength ≤ source.length := by
  unfold headerLength header
  cases source with
  | nil => exact Nat.le_refl _
  | cons b rest =>
    dsimp only
    split
    · exact Nat.zero_le _
    · rename_i length h
      split at h
      · split at h
        · rename_i length' hclosing
          cases h
          have := closingLength?_le hclosing
          rw [List.length_cons]
          omega
        · cases h
      · cases h
    · exact Nat.le_refl _

theorem headerLength_eq (source : Source) : source.headerLength = source.length - source.body.length := by
  have := source.headerLength_le
  rw [body, List.length_drop]
  omega

theorem getElem?_body (source : Source) (i : Nat) : source.body[i]? = source[source.headerLength + i]? :=
  List.getElem?_drop

/-! ### Parsing -/

/-- The commands of a source as instructions. -/
theorem toList_instructions (source : Source) :
    (source.tokens.map (·.command.instruction)).toList = source.body.filterMap instruction? := by
  rw [Array.toList_map, toList_tokens, map_instruction_tokenList]

theorem parse_of_link {source : Source} {p : Program}
    (h : Program.link (source.tokens.map (·.command.instruction)) = ⟨p, none⟩) : source.parse = .ok p := by
  unfold parse
  dsimp only
  rw [h]

theorem parse_of_unpaired {source : Source} {bracket : Unpaired}
    (h : (Program.link (source.tokens.map (·.command.instruction))).unpaired = some bracket) :
    source.parse = .error (unpairedError source.tokens bracket) := by
  unfold parse
  dsimp only
  generalize Program.link (source.tokens.map (·.command.instruction)) = linking at h ⊢
  obtain ⟨p, unpaired⟩ := linking
  obtain rfl : unpaired = some bracket := h
  rfl

variable {source : Source} {front rest : List UInt8} {b : UInt8}

theorem parse_of_nested (h : Nested side? source.body) :
    ∃ p, source.parse = .ok p ∧ p.Linked ∧
      p.toList.map Instruction.erase = source.body.filterMap instruction? := by
  have hnested : Nested Instruction.side? (source.tokens.map (·.command.instruction)).toList := by
    rw [toList_instructions]
    exact h.filterMap side?_eq_none side?_instruction
  obtain ⟨p, hlink, hlinked, hp⟩ := Program.link_of_nested hnested
  refine ⟨p, parse_of_link hlink, hlinked, ?_⟩
  rw [hp, toList_instructions, List.map_filterMap]
  congr 1
  funext b
  rw [instruction?_eq]
  cases Command.ofByte? b with
  | none => rfl
  | some c => cases c <;> rfl

theorem position_unpaired (hbody : source.body = front ++ b :: rest) {i : Instruction} (hb : instruction? b = some i) :
    (source.tokens[(front.filterMap instruction?).length]?.map (·.position)).getD 0 =
      source.headerLength + front.length := by
  rw [← Array.getElem?_toList, toList_tokens, hbody, position_getElem? hb, Option.getD_some]

theorem parse_of_unmatched (hbody : source.body = front ++ b :: rest) (hfront : Nested side? front)
    (hb : side? b = some .closing) : source.parse = .error (.unmatchedLoopEnd (source.headerLength + front.length)) := by
  obtain ⟨i, hi, hside⟩ := Nesting.exists_of_side side?_eq_none side?_instruction hb
  have hunpaired := Program.unpaired_link_of_unmatched (p := source.tokens.map (·.command.instruction))
    (by rw [toList_instructions, hbody, List.filterMap_append, List.filterMap_cons_some hi])
    (hfront.filterMap side?_eq_none side?_instruction) hside
  rw [parse_of_unpaired hunpaired, unpairedError]
  exact congrArg (Except.error ∘ Error.unmatchedLoopEnd) (position_unpaired hbody hi)

theorem parse_of_unclosed (hbody : source.body = front ++ b :: rest) (hfront : Nested side? front)
    (hb : side? b = some .opening) (hrest : OpenEnded side? rest) :
    source.parse = .error (.unclosedLoop (source.headerLength + front.length)) := by
  obtain ⟨i, hi, hside⟩ := Nesting.exists_of_side side?_eq_none side?_instruction hb
  have hunpaired := Program.unpaired_link_of_unclosed (p := source.tokens.map (·.command.instruction))
    (by rw [toList_instructions, hbody, List.filterMap_append, List.filterMap_cons_some hi])
    (hfront.filterMap side?_eq_none side?_instruction) hside
    (hrest.filterMap side?_eq_none side?_instruction)
  rw [parse_of_unpaired hunpaired, unpairedError]
  exact congrArg (Except.error ∘ Error.unclosedLoop) (position_unpaired hbody hi)

/-- A source that is refused does not have balanced brackets. -/
theorem not_balanced_of_parse_error {e : Error} (h : source.parse = .error e) : ¬ Balanced side? source.body := fun hb => by
  obtain ⟨p, hp, _⟩ := parse_of_nested (Nesting.nested_iff_balanced.2 hb)
  rw [h] at hp
  cases hp

theorem parse_iff_of_parse_error {e : Error} (h : source.parse = .error e) :
    (∃ p, source.parse = .ok p) ↔ Balanced side? source.body := by
  refine ⟨fun ⟨p, hp⟩ => ?_, fun hb => absurd hb (not_balanced_of_parse_error h)⟩
  rw [h] at hp
  cases hp

/-- Parsing accepts exactly the sources whose brackets behind the header are balanced, and gives one
instruction for each byte that asks for one, in order. If a beginning closes more brackets than it opens,
the error is at the first `]` that closes nothing, whatever is left open elsewhere; else, if the brackets are
not balanced, at the leftmost `[` without a partner. Both positions are those of the byte in the whole
source. -/
theorem parse_iff_balanced (source : Source) :
    ((∃ p, source.parse = .ok p) ↔ Balanced side? source.body) ∧
      (∀ p, source.parse = .ok p →
        p.toList.map Instruction.erase = source.body.filterMap instruction? ∧ p.Linked) ∧
      ((∃ front, front <+: source.body ∧ opens side? front < closes side? front) →
        ∃ i, FirstUnmatched side? source.body i ∧
          source.parse = .error (.unmatchedLoopEnd (source.length - source.body.length + i)) ∧
          source[source.length - source.body.length + i]? = some ']'.toUInt8) ∧
      ((∀ front, front <+: source.body → closes side? front ≤ opens side? front) →
        ¬ Balanced side? source.body →
        ∃ i, LeftmostUnclosed side? source.body i ∧
          source.parse = .error (.unclosedLoop (source.length - source.body.length + i)) ∧
          source[source.length - source.body.length + i]? = some '['.toUInt8) := by
  rw [← headerLength_eq]
  rcases Nesting.nested_or_unclosed_or_unmatched side? source.body with
    hbody | ⟨front, b, rest, hbody, hfront, hb, hrest⟩ | ⟨front, b, rest, hbody, hfront, hb⟩
  · obtain ⟨p, hp, hlinked, hinstructions⟩ := parse_of_nested hbody
    refine ⟨⟨fun _ => hbody.balanced, fun _ => ⟨p, hp⟩⟩, fun q hq => ?_, ?_, fun _ h => absurd hbody.balanced h⟩
    · rw [hp] at hq
      cases hq
      exact ⟨hinstructions, hlinked⟩
    · rintro ⟨front, hfront, hlt⟩
      exact absurd (hbody.closes_le hfront) (Nat.not_le_of_lt hlt)
  · have hparse := parse_of_unclosed hbody hfront hb hrest
    have hopen : OpenEnded side? source.body := hbody ▸ .unclosed hfront hb hrest
    refine ⟨parse_iff_of_parse_error hparse, fun q hq => ?_, ?_, fun _ _ => ⟨front.length, ?_, hparse, ?_⟩⟩
    · rw [hparse] at hq
      cases hq
    · rintro ⟨front, hfront, hlt⟩
      exact absurd (hopen.closes_le hfront) (Nat.not_le_of_lt hlt)
    · rw [hbody]
      exact Nesting.leftmostUnclosed_of_nested hfront hb hrest
    · rw [← getElem?_body, hbody, eq_of_side?_opening hb]
      simp
  · have hparse := parse_of_unmatched hbody hfront hb
    refine ⟨parse_iff_of_parse_error hparse, fun q hq => ?_, fun _ => ⟨front.length, ?_, hparse, ?_⟩, fun hle _ => ?_⟩
    · rw [hparse] at hq
      cases hq
    · rw [hbody]
      exact Nesting.firstUnmatched_of_nested hfront hb rest
    · rw [← getElem?_body, hbody, eq_of_side?_closing hb]
      simp
    · refine absurd (hle (front ++ [b]) ?_) (Nesting.not_closes_le_of_unmatched hfront hb)
      rw [hbody]
      exact ⟨rest, by simp⟩

/-- Behind the header `[a]`, the second byte of `+]` closes nothing. -/
theorem parse_iff_balanced_header :
    ∃ i, FirstUnmatched side? [0x2B, 0x5D] i ∧
      Source.parse [0x5B, 0x61, 0x5D, 0x2B, 0x5D] = .error (.unmatchedLoopEnd (3 + i)) := by
  obtain ⟨_, _, hunmatched, _⟩ := parse_iff_balanced [0x5B, 0x61, 0x5D, 0x2B, 0x5D]
  obtain ⟨i, hi, hparse, _⟩ := hunmatched ⟨[0x2B, 0x5D], ⟨[], rfl⟩, by decide⟩
  exact ⟨i, hi, hparse⟩

end Source

end TapeLang
