import TapeLang.Proofs.Source.Header
import TapeLang.Proofs.Source.Utf8
import TapeLang.Source.File

/-!
# What a broken file means

A file need not be text, and what is broken in it is replaced when it is loaded. The text that is parsed may be longer
than the file, but it has the same commands in the same order: a broken part holds no ASCII byte, and neither does what
stands for it (`Faithful`). So a search for the end of the header comes to the same depth behind each
part (`exists_depth`) and ends behind the same part in the file and in its text (`exists_header`), and so on through the
commands (`tokenList_encoded`). Parsing the text is parsing the bytes of the file, but for the positions in errors
(`parse_decode`), and a file is the program that its bytes say (`load_same_program`).

A position in an error is one in the text. A broken part of one or two bytes is replaced by three, and moves all that
stands behind it: the error names the right bracket, but at a byte where the file may have another or none
(`load_error_position`, `bracket_beyond_file`).
-/

namespace TapeLang

open Nesting (Balanced FirstUnmatched LeftmostUnclosed)
open Utf8 (Part Splits)

namespace Utf8.Part

/-- The bytes of the character that stands for them. -/
def encoded (part : Part) : List UInt8 := String.utf8EncodeChar part.shown

/-- How many bytes more that takes. -/
def excess : Part → Nat
  | char _ => 0
  | broken bytes => 3 - bytes.length

end Utf8.Part

namespace Source

/-- Where the text of `source` has what stands at `position` in `source`. -/
def placed (source : Source) (position : Nat) : Nat := (Utf8.decode (source.take position)).utf8ByteSize

/-- Comment only. -/
def Comment (bytes : Source) : Prop := ∀ b ∈ bytes, Command.ofByte? b = none

instance : DecidablePred Comment := fun bytes => inferInstanceAs (Decidable (∀ b ∈ bytes, Command.ofByte? b = none))

/-- A part is read as it stands, or is comment and is replaced by comment. -/
def Faithful (part : Part) : Prop :=
  (∃ b, part.bytes = [b] ∧ part.encoded = [b]) ∨
    (Comment part.bytes ∧ part.bytes ≠ []) ∧ Comment part.encoded ∧ part.encoded ≠ []

/-- What is left of a source behind its header comment. -/
inductive Cut (source : Source) : Source → Prop where
  | absent (h : source.head? ≠ some '['.toUInt8) : Cut source source
  | closed {block rest : Source} (hopen : source.head? = some '['.toUInt8) (hblock : Shortest Block block source)
    (hsource : source = block ++ rest) : Cut source rest
  | unclosed (hopen : source.head? = some '['.toUInt8) (hnone : ∀ front, front <+: source → ¬ Block front) :
    Cut source []

/-- The same program, or the same kind of syntax error. -/
inductive Alike : Except Error Program → Except Error Program → Prop where
  | program (p : Program) : Alike (.ok p) (.ok p)
  | unmatchedLoopEnd (i j : Nat) : Alike (.error (.unmatchedLoopEnd i)) (.error (.unmatchedLoopEnd j))
  | unclosedLoop (i j : Nat) : Alike (.error (.unclosedLoop i)) (.error (.unclosedLoop j))

variable {source : Source} {parts before after : List Part} {part : Part} {b : UInt8} {depth : Nat}

/-! ### Parts -/

theorem lt_of_ofByte? {c : Command} (h : Command.ofByte? b = some c) : b < 0x80 := by
  rw [Command.ofByte?_eq_some_iff.1 h]
  cases c <;> decide

theorem comment_of_not_lt {bytes : Source} (h : ∀ b ∈ bytes, ¬ b < 0x80) : Comment bytes := by
  intro b hb
  cases hc : Command.ofByte? b with
  | none => rfl
  | some c => exact absurd (lt_of_ofByte? hc) (h b hb)

theorem encode_ne_nil (c : Char) : String.utf8EncodeChar c ≠ [] := by
  obtain ⟨b, tail, hencode, -⟩ := Utf8.exists_sequence c
  rw [hencode]
  exact List.cons_ne_nil b tail

theorem faithful_char (c : Char) : Faithful (.char c) := by
  by_cases hascii : ∃ b ∈ String.utf8EncodeChar c, b < 0x80
  · obtain ⟨b, hb, hlt⟩ := hascii
    exact .inl ⟨b, utf8EncodeChar_eq_singleton hb hlt, utf8EncodeChar_eq_singleton hb hlt⟩
  · have hcomment : Comment (String.utf8EncodeChar c) :=
      comment_of_not_lt fun b hb hlt => hascii ⟨b, hb, hlt⟩
    exact .inr ⟨⟨hcomment, encode_ne_nil c⟩, hcomment, encode_ne_nil c⟩

theorem encode_replacement : String.utf8EncodeChar Utf8.replacement = [0xEF, 0xBF, 0xBD] := by decide +kernel

theorem faithful_broken {bytes : Source} (h : Utf8.Broken bytes source) : Faithful (.broken bytes) := by
  refine .inr ⟨⟨comment_of_not_lt fun _ => h.not_lt, h.ne_nil⟩, ?_, encode_ne_nil _⟩
  rw [Part.encoded, Part.shown, encode_replacement]
  decide +kernel

theorem faithful (h : Splits source parts) : ∀ part ∈ parts, Faithful part := by
  induction h with
  | nil => simp
  | char c _ ih => exact List.forall_mem_cons.2 ⟨faithful_char c, ih⟩
  | broken hpart _ ih => exact List.forall_mem_cons.2 ⟨faithful_broken hpart, ih⟩

/-! ### The header -/

theorem depthAfter_of_comment (h : Command.ofByte? b = none) : depthAfter depth b = depth := by
  rw [depthAfter, if_neg (show b ≠ '['.toUInt8 from ne_byte_of_ofByte?_eq_none h .openLoop),
    if_neg (show b ≠ ']'.toUInt8 from ne_byte_of_ofByte?_eq_none h .closeLoop)]

theorem closingLength?_comment {bytes : Source} (h : Comment bytes) (hdepth : depth ≠ 0) (read : Nat) (rest : Source) :
    closingLength? depth read (bytes ++ rest) = closingLength? depth (read + bytes.length) rest := by
  induction bytes generalizing read with
  | nil => rfl
  | cons b bytes ih =>
    obtain ⟨hb, hbytes⟩ := List.forall_mem_cons.1 h
    rw [List.cons_append, closingLength?_cons hdepth, depthAfter_of_comment hb, ih hbytes, List.length_cons,
      Nat.add_assoc, Nat.add_comm 1]

theorem closingLength?_zero (read : Nat) (bytes : Source) : closingLength? 0 read bytes = some read := by
  cases bytes <;> simp [closingLength?]

/-- One part brings two searches for the end of a header, one in what is read and one in what stands for it, to the same
depth. -/
theorem exists_depth (h : Faithful part) (hdepth : depth ≠ 0) :
    ∃ depth', ∀ read rest,
      closingLength? depth read (part.bytes ++ rest) = closingLength? depth' (read + part.bytes.length) rest ∧
      closingLength? depth read (part.encoded ++ rest) = closingLength? depth' (read + part.encoded.length) rest := by
  rcases h with ⟨b, hbytes, hencoded⟩ | ⟨⟨hbytes, -⟩, hencoded, -⟩
  · rw [hbytes, hencoded]
    exact ⟨depthAfter depth b, fun read rest =>
      ⟨closingLength?_cons hdepth read rest, closingLength?_cons hdepth read rest⟩⟩
  · exact ⟨depth, fun read rest =>
      ⟨closingLength?_comment hbytes hdepth read rest, closingLength?_comment hencoded hdepth read rest⟩⟩

/-- Both searches end behind the same part. -/
theorem closingLength?_parts (h : ∀ part ∈ parts, Faithful part) (depth read read' : Nat) :
    (closingLength? depth read (parts.flatMap Part.bytes) = none ∧
      closingLength? depth read' (parts.flatMap Part.encoded) = none) ∨
    ∃ before after, parts = before ++ after ∧
      closingLength? depth read (parts.flatMap Part.bytes) = some (read + (before.flatMap Part.bytes).length) ∧
      closingLength? depth read' (parts.flatMap Part.encoded) =
        some (read' + (before.flatMap Part.encoded).length) := by
  induction parts generalizing depth read read' with
  | nil =>
    by_cases hdepth : depth = 0
    · exact .inr ⟨[], [], rfl, if_pos hdepth, if_pos hdepth⟩
    · exact .inl ⟨if_neg hdepth, if_neg hdepth⟩
  | cons part parts ih =>
    by_cases hdepth : depth = 0
    · rw [hdepth, closingLength?_zero, closingLength?_zero]
      exact .inr ⟨[], part :: parts, rfl, rfl, rfl⟩
    obtain ⟨hpart, hparts⟩ := List.forall_mem_cons.1 h
    obtain ⟨depth', hstep⟩ := exists_depth hpart hdepth
    rw [List.flatMap_cons, List.flatMap_cons, (hstep read _).1, (hstep read' _).2]
    rcases ih hparts depth' (read + part.bytes.length) (read' + part.encoded.length) with
      hnone | ⟨before, after, rfl, hread, hread'⟩
    · exact .inl hnone
    · refine .inr ⟨part :: before, after, rfl, ?_, ?_⟩
      · rw [hread, List.flatMap_cons, List.length_append, Nat.add_assoc]
      · rw [hread', List.flatMap_cons, List.length_append, Nat.add_assoc]

theorem headerLength_open (rest : Source) :
    headerLength ('['.toUInt8 :: rest) = (closingLength? 1 1 rest).getD (1 + rest.length) := by
  have hopen : '['.toUInt8 = Command.openLoop.byte := rfl
  rw [headerLength, header, if_pos hopen]
  cases closingLength? 1 1 rest with
  | none => exact Nat.add_comm rest.length 1
  | some length => rfl

theorem head?_ne_of_comment {bytes : Source} (h : Comment bytes) (hne : bytes ≠ []) (rest : Source) :
    (bytes ++ rest).head? ≠ some '['.toUInt8 := by
  obtain ⟨b, tail, rfl⟩ := List.exists_cons_of_ne_nil hne
  intro hb
  rw [List.cons_append, List.head?_cons, Option.some.injEq] at hb
  exact ne_byte_of_ofByte?_eq_none (h b List.mem_cons_self) .openLoop hb

/-- The header of what is read and that of what stands for it end behind the same part. -/
theorem exists_header (h : ∀ part ∈ parts, Faithful part) :
    ∃ before after, parts = before ++ after ∧
      headerLength (parts.flatMap Part.bytes) = (before.flatMap Part.bytes).length ∧
      headerLength (parts.flatMap Part.encoded) = (before.flatMap Part.encoded).length := by
  cases parts with
  | nil => exact ⟨[], [], rfl, rfl, rfl⟩
  | cons part parts =>
    obtain ⟨hpart, hparts⟩ := List.forall_mem_cons.1 h
    rw [List.flatMap_cons, List.flatMap_cons]
    rcases hpart with ⟨b, hbytes, hencoded⟩ | ⟨⟨hbytes, hne⟩, hencoded, hne'⟩
    · rw [hbytes, hencoded, List.singleton_append, List.singleton_append]
      by_cases hb : b = '['.toUInt8
      · rw [hb, headerLength_open, headerLength_open]
        rcases closingLength?_parts hparts 1 1 1 with ⟨hnone, hnone'⟩ | ⟨before, after, rfl, hread, hread'⟩
        · refine ⟨part :: parts, [], (List.append_nil _).symm, ?_, ?_⟩
          · rw [hnone, List.flatMap_cons, hbytes, List.length_append, Option.getD_none, List.length_singleton]
          · rw [hnone', List.flatMap_cons, hencoded, List.length_append, Option.getD_none, List.length_singleton]
        · refine ⟨part :: before, after, rfl, ?_, ?_⟩
          · rw [hread, List.flatMap_cons, hbytes, List.length_append, Option.getD_some, List.length_singleton]
          · rw [hread', List.flatMap_cons, hencoded, List.length_append, Option.getD_some, List.length_singleton]
      · have hhead (rest : Source) : (b :: rest).head? ≠ some '['.toUInt8 := fun h => hb (Option.some.inj h)
        exact ⟨[], part :: parts, rfl, headerLength_of_head?_ne (hhead _), headerLength_of_head?_ne (hhead _)⟩
    · exact ⟨[], part :: parts, rfl, headerLength_of_head?_ne (head?_ne_of_comment hbytes hne _),
        headerLength_of_head?_ne (head?_ne_of_comment hencoded hne' _)⟩

/-! ### Commands and their positions -/

theorem tokenList_comment {bytes : Source} (h : Comment bytes) (position : Nat) : tokenList position bytes = [] := by
  induction bytes generalizing position with
  | nil => rfl
  | cons b bytes ih =>
    obtain ⟨hb, hbytes⟩ := List.forall_mem_cons.1 h
    have htail := ih hbytes (position + 1)
    unfold tokenList at htail ⊢
    rw [List.zipIdx_cons, List.filterMap_cons_none (by rw [hb, Option.map_none]), htail]

theorem ofString_decode (h : Splits source parts) : ofString (Utf8.decode source) = parts.flatMap Part.encoded := by
  rw [ofString_eq, Utf8.toList_decode h, List.flatMap_map]
  rfl

/-- What stands behind some parts stands in the text behind what is shown for them. -/
theorem placed_append (h : Splits source (before ++ after)) :
    placed source (before.flatMap Part.bytes).length = (before.flatMap Part.encoded).length := by
  have htake : source.take (before.flatMap Part.bytes).length = before.flatMap Part.bytes := by
    rw [← h.flatMap_bytes, List.flatMap_append, List.take_left]
  rw [placed, htake, ← length_ofString, ofString_decode h.of_append]

/-- The commands of the text are those of the source, each where it is shown. -/
theorem tokenList_encoded (h : Splits source (before ++ after)) :
    tokenList (before.flatMap Part.encoded).length (after.flatMap Part.encoded) =
      (tokenList (before.flatMap Part.bytes).length (after.flatMap Part.bytes)).map
        (Token.relocate source.placed) := by
  induction after generalizing before with
  | nil => rfl
  | cons part after ih =>
    have hplaced := placed_append h
    have hsplits : Splits source ((before ++ [part]) ++ after) := by rwa [List.append_assoc, List.singleton_append]
    have hrest := ih hsplits
    rw [List.flatMap_append, List.flatMap_append, List.flatMap_singleton, List.flatMap_singleton, List.length_append,
      List.length_append] at hrest
    rw [List.flatMap_cons, List.flatMap_cons, tokenList_append, tokenList_append, hrest, List.map_append]
    congr 1
    rcases faithful h part (by simp) with ⟨b, hbytes, hencoded⟩ | ⟨⟨hbytes, -⟩, hencoded, -⟩
    · rw [hbytes, hencoded, ← hplaced]
      unfold tokenList
      cases hb : Command.ofByte? b <;> simp [hb, Token.relocate]
    · rw [tokenList_comment hbytes, tokenList_comment hencoded, List.map_nil]

theorem tokens_decode (source : Source) :
    (ofString (Utf8.decode source)).tokens = source.tokens.map (Token.relocate source.placed) := by
  obtain ⟨parts, h⟩ := Utf8.exists_splits source
  obtain ⟨before, after, rfl, hlength, hlength'⟩ := exists_header (faithful h)
  rw [h.flatMap_bytes] at hlength
  have hbody : source.body = after.flatMap Part.bytes := by
    rw [body, hlength, ← h.flatMap_bytes, List.flatMap_append, List.drop_left]
  have htext := ofString_decode h
  have hbody' : (ofString (Utf8.decode source)).body = after.flatMap Part.encoded := by
    rw [body, htext, hlength', List.flatMap_append, List.drop_left]
  rw [← Array.toList_inj, Array.toList_map, toList_tokens, toList_tokens, hbody, hbody', hlength, htext, hlength']
  exact tokenList_encoded h

/-- The text of a source makes the same program, or the same error where the bracket is shown. -/
theorem parse_decode (source : Source) :
    parse (ofString (Utf8.decode source)) = (parse source).mapError (Error.relocate source.placed) := by
  show programOf (ofString (Utf8.decode source)).tokens = (programOf source.tokens).mapError _
  rw [tokens_decode, programOf_relocate]

/-! ### What the parser makes of a source -/

theorem cut_body (source : Source) : Cut source source.body := by
  by_cases hopen : source.head? = some '['.toUInt8
  · rcases header_cases hopen with ⟨block, hblock, -⟩ | ⟨hnone, hheader⟩
    · refine .closed hopen hblock ?_
      obtain ⟨rest, hrest⟩ := hblock.starts
      rw [body, headerLength_of_shortest hopen hblock, ← hrest, List.drop_left]
    · rw [body, headerLength, hheader, List.drop_length]
      exact .unclosed hopen hnone
  · rw [body_of_head?_ne hopen]
    exact .absent hopen

/-- A source is a program, or else one of its brackets has no partner. -/
theorem parse_cases (source : Source) :
    (∃ p, source.parse = .ok p ∧ Balanced side? source.body ∧ p.Linked ∧
      p.toList.map Instruction.erase = source.body.filterMap instruction?) ∨
    (∃ k, source.parse = .error (.unmatchedLoopEnd (source.headerLength + k)) ∧
      FirstUnmatched side? source.body k ∧ source.body[k]? = some ']'.toUInt8) ∨
    ∃ k, source.parse = .error (.unclosedLoop (source.headerLength + k)) ∧
      LeftmostUnclosed side? source.body k ∧ source.body[k]? = some '['.toUInt8 := by
  rcases Nesting.nested_or_unclosed_or_unmatched side? source.body with
    hbody | ⟨front, b, rest, hbody, hfront, hb, hrest⟩ | ⟨front, b, rest, hbody, hfront, hb⟩
  · obtain ⟨p, hp, hlinked, hinstructions⟩ := parse_of_nested hbody
    exact .inl ⟨p, hp, hbody.balanced, hlinked, hinstructions⟩
  · refine .inr (.inr ⟨front.length, parse_of_unclosed hbody hfront hb hrest, ?_, ?_⟩)
    · rw [hbody]
      exact Nesting.leftmostUnclosed_of_nested hfront hb hrest
    · rw [hbody, eq_of_side?_opening hb, List.getElem?_append_right (Nat.le_refl _), Nat.sub_self]
      rfl
  · refine .inr (.inl ⟨front.length, parse_of_unmatched hbody hfront hb, ?_, ?_⟩)
    · rw [hbody]
      exact Nesting.firstUnmatched_of_nested hfront hb rest
    · rw [hbody, eq_of_side?_closing hb, List.getElem?_append_right (Nat.le_refl _), Nat.sub_self]
      rfl

/-! ### Programs and errors -/

theorem alike_decode (source : Source) : Alike (parse (ofString (Utf8.decode source))) (parse source) := by
  rw [parse_decode]
  rcases parse_cases source with ⟨p, hp, -⟩ | ⟨k, hk, -⟩ | ⟨k, hk, -⟩
  · rw [hp]
    exact .program p
  · rw [hk]
    exact .unmatchedLoopEnd _ _
  · rw [hk]
    exact .unclosedLoop _ _

theorem parse_decode_eq_ok_iff {p : Program} :
    parse (ofString (Utf8.decode source)) = .ok p ↔ parse source = .ok p := by
  rw [parse_decode]
  cases parse source <;> simp [Except.mapError]

theorem balanced_of_parse {p : Program} (h : source.parse = .ok p) :
    Balanced side? source.body ∧ p.Linked ∧ p.toList.map Instruction.erase = source.body.filterMap instruction? := by
  rcases parse_cases source with ⟨q, hq, hprogram⟩ | ⟨k, hk, -⟩ | ⟨k, hk, -⟩
  · rw [h, Except.ok.injEq] at hq
    rwa [hq]
  · rw [h] at hk
    cases hk
  · rw [h] at hk
    cases hk

/-- A file of at most `maxFileSize` bytes is read as its characters, with one U+FFFD for each broken part. The text is
the same program as the bytes of the file themselves, or fails with the same kind of error. It is a program exactly if
the brackets behind the header of the file are balanced, and then has one instruction for each byte there that asks for
one, in order. -/
theorem load_same_program (path : String) (bytes : Array UInt8) (h : bytes.size ≤ maxFileSize) :
    ∃ text parts rest, load path (.ok (.file bytes)) = .ok text ∧ Splits bytes.toList parts ∧
      text.toList = parts.map Part.shown ∧ Alike (parse (ofString text)) (parse bytes.toList) ∧
      Cut bytes.toList rest ∧ ((∃ p, parse (ofString text) = .ok p) ↔ Balanced side? rest) ∧
      ∀ p, parse (ofString text) = .ok p → p.Linked ∧ p.toList.map Instruction.erase = rest.filterMap instruction? := by
  obtain ⟨parts, hparts⟩ := Utf8.exists_splits bytes.toList
  refine ⟨_, parts, body bytes.toList, if_neg (Nat.not_lt.2 h), hparts, Utf8.toList_decode hparts, alike_decode _,
    cut_body _, ⟨?_, fun hbalanced => ?_⟩, fun p hp => ?_⟩
  · rintro ⟨p, hp⟩
    exact (balanced_of_parse (parse_decode_eq_ok_iff.1 hp)).1
  · obtain ⟨p, hp, -⟩ := parse_of_nested (Nesting.nested_iff_balanced.2 hbalanced)
    exact ⟨p, parse_decode_eq_ok_iff.2 hp⟩
  · exact (balanced_of_parse (parse_decode_eq_ok_iff.1 hp)).2

/-- What breaks off before `+`, `[`, `-` and `]` takes none of them along. -/
theorem load_same_program_brackets :
    ∃ text, load "a.b" (.ok (.file #[0xC3, 0x2B, 0xE2, 0x82, 0x5B, 0xF0, 0x9F, 0x2D, 0xFF, 0x5D])) = .ok text ∧
      parse (ofString text) = .ok #[.add 1, .loopBegin 3, .add 255, .loopEnd 1] := by
  obtain ⟨text, -, -, hload, -, -, halike, -⟩ :=
    load_same_program "a.b" #[0xC3, 0x2B, 0xE2, 0x82, 0x5B, 0xF0, 0x9F, 0x2D, 0xFF, 0x5D] (by decide)
  have hparse : parse [0xC3, 0x2B, 0xE2, 0x82, 0x5B, 0xF0, 0x9F, 0x2D, 0xFF, 0x5D] =
      .ok #[.add 1, .loopBegin 3, .add 255, .loopEnd 1] := by decide +kernel
  refine ⟨text, hload, ?_⟩
  dsimp only at halike
  rw [hparse] at halike
  generalize parse (ofString text) = outcome at halike
  cases halike
  rfl

/-! ### Where a bracket is reported -/

theorem length_encoded (h : Splits source parts) :
    (parts.flatMap Part.encoded).length = source.length + (parts.map Part.excess).sum := by
  induction h with
  | nil => rfl
  | char c _ ih =>
    rw [List.flatMap_cons, List.length_append, ih, List.length_append, List.map_cons, List.sum_cons]
    simp only [Part.encoded, Part.shown, Part.excess]
    omega
  | broken hpart _ ih =>
    have hle := hpart.length_le
    rw [List.flatMap_cons, List.length_append, ih, List.length_append, List.map_cons, List.sum_cons]
    simp only [Part.encoded, Part.shown, Part.excess, encode_replacement, List.length_cons, List.length_nil]
    omega

/-- Where a command stands, a part begins. -/
theorem exists_before (h : ∀ part ∈ parts, Faithful part) {position : Nat}
    (hb : (parts.flatMap Part.bytes)[position]? = some b) {c : Command} (hc : Command.ofByte? b = some c) :
    ∃ before after, parts = before ++ after ∧ (before.flatMap Part.bytes).length = position := by
  induction parts generalizing position with
  | nil => cases hb
  | cons part parts ih =>
    obtain ⟨hpart, hparts⟩ := List.forall_mem_cons.1 h
    rw [List.flatMap_cons] at hb
    by_cases hle : part.bytes.length ≤ position
    · rw [List.getElem?_append_right hle] at hb
      obtain ⟨before, after, rfl, hlength⟩ := ih hparts hb
      refine ⟨part :: before, after, rfl, ?_⟩
      rw [List.flatMap_cons, List.length_append, hlength]
      omega
    · -- before its end lies only its beginning, for no command is part of something longer
      rw [List.getElem?_append_left (Nat.lt_of_not_le hle)] at hb
      rcases hpart with ⟨b', hbytes, -⟩ | ⟨⟨hcomment, -⟩, -⟩
      · rw [hbytes, List.length_singleton] at hle
        exact ⟨[], part :: parts, rfl, by rw [List.flatMap_nil, List.length_nil]; omega⟩
      · have hnone := hcomment b (List.mem_of_getElem? hb)
        rw [hc] at hnone
        cases hnone

/-- A command stands further on in the text by what the replaced parts before it take more. -/
theorem exists_placed (source : Source) {position : Nat} (hb : source[position]? = some b) {c : Command}
    (hc : Command.ofByte? b = some c) :
    ∃ before after, Splits source (before ++ after) ∧ (before.flatMap Part.bytes).length = position ∧
      placed source position = position + (before.map Part.excess).sum := by
  obtain ⟨parts, h⟩ := Utf8.exists_splits source
  rw [← h.flatMap_bytes] at hb
  obtain ⟨before, after, rfl, rfl⟩ := exists_before (faithful h) hb hc
  exact ⟨before, after, h, rfl, by rw [placed_append h, length_encoded h.of_append]⟩

/-- Where the text of a file is no program, the error is about the first `]` of the file that closes nothing, or else
about the leftmost `[` that is never closed. The position is that of the bracket in the file, and what the replaced
parts before it take more. -/
theorem load_error_position (path : String) (bytes : Array UInt8) (h : bytes.size ≤ maxFileSize) :
    let source : Source := bytes.toList
    ∃ text, load path (.ok (.file bytes)) = .ok text ∧ ∀ e, parse (ofString text) = .error e →
      ∃ k before after, Splits source (before ++ after) ∧
        (before.flatMap Part.bytes).length = source.headerLength + k ∧
        (FirstUnmatched side? source.body k ∧ source[source.headerLength + k]? = some ']'.toUInt8 ∧
            e = .unmatchedLoopEnd (source.headerLength + k + (before.map Part.excess).sum) ∨
          LeftmostUnclosed side? source.body k ∧ source[source.headerLength + k]? = some '['.toUInt8 ∧
            e = .unclosedLoop (source.headerLength + k + (before.map Part.excess).sum)) := by
  intro source
  refine ⟨_, if_neg (Nat.not_lt.2 h), fun e he => ?_⟩
  rw [parse_decode] at he
  rcases parse_cases source with ⟨p, hp, -⟩ | ⟨k, hk, hunmatched, hb⟩ | ⟨k, hk, hunclosed, hb⟩
  · rw [hp] at he
    cases he
  · rw [hk] at he
    cases he
    rw [getElem?_body] at hb
    obtain ⟨before, after, hsplits, hlength, hplaced⟩ := exists_placed source hb (c := .closeLoop) rfl
    exact ⟨k, before, after, hsplits, hlength, .inl ⟨hunmatched, hb, congrArg Error.unmatchedLoopEnd hplaced⟩⟩
  · rw [hk] at he
    cases he
    rw [getElem?_body] at hb
    obtain ⟨before, after, hsplits, hlength, hplaced⟩ := exists_placed source hb (c := .openLoop) rfl
    exact ⟨k, before, after, hsplits, hlength, .inr ⟨hunclosed, hb, congrArg Error.unclosedLoop hplaced⟩⟩

/-- A byte that starts no character, and a bracket behind it. -/
theorem splits_bracket : Splits [0xFF, 0x5D] [.broken [0xFF], .char ']'] :=
  .broken (Utf8.broken_singleton rfl [0x5D]) (.char ']' .nil)

theorem decode_bracket : Utf8.decode [0xFF, 0x5D] = "\uFFFD]" :=
  String.toList_inj.1 (Utf8.toList_decode splits_bracket)

/-- In the file `FF 5D` the bracket stands behind one broken byte, which takes two bytes more in the text. -/
theorem load_error_position_bracket :
    ∃ text, load "a.b" (.ok (.file #[0xFF, 0x5D])) = .ok text ∧ parse (ofString text) = .error (.unmatchedLoopEnd 3) ∧
      ∃ before after, Splits [0xFF, 0x5D] (before ++ after) ∧ (before.flatMap Part.bytes).length = 1 ∧
        (before.map Part.excess).sum = 2 := by
  obtain ⟨text, hload, hposition⟩ := load_error_position "a.b" #[0xFF, 0x5D] (by decide)
  have htext : text = "\uFFFD]" := by
    rw [← decode_bracket]
    exact (Except.ok.inj hload).symm
  have hparse : parse (ofString text) = .error (.unmatchedLoopEnd 3) := by
    rw [htext]
    decide +kernel
  obtain ⟨k, before, after, hsplits, hlength, hcase⟩ := hposition _ hparse
  have hheader : headerLength [0xFF, 0x5D] = 0 := by decide
  simp only [hheader, Nat.zero_add] at hlength hcase
  rcases hcase with ⟨-, hbyte, he⟩ | ⟨-, -, he⟩
  · -- the one `]` is the second byte
    have hk : k = 1 := by
      match k, hbyte with
      | 1, _ => rfl
    rw [Error.unmatchedLoopEnd.injEq] at he
    exact ⟨text, hload, hparse, before, after, hsplits, by omega, by omega⟩
  · cases he

/-- The file `FF 5D` has two bytes, and the error is at byte 3. -/
theorem bracket_beyond_file :
    ∃ text, load "a.b" (.ok (.file #[0xFF, 0x5D])) = .ok text ∧ parse (ofString text) = .error (.unmatchedLoopEnd 3) ∧
      (#[0xFF, 0x5D] : Array UInt8)[3]? = none ∧ (#[0xFF, 0x5D] : Array UInt8)[1]? = some ']'.toUInt8 := by
  refine ⟨"\uFFFD]", congrArg Except.ok decode_bracket, ?_, rfl, rfl⟩
  decide +kernel

end Source

end TapeLang
