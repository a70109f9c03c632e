import TapeLang.Proofs.Source.Parsing

/-!
# Which bytes a header takes

A source that starts with `[` loses the block that this bracket opens, comment and all: its shortest beginning that is
not empty and has as many `]` as `[`. If there is no such beginning the whole source is lost, and only then is there a
warning (`header_cases`).

The search for the end counts the brackets still open, from one after the first byte. So it looks for the shortest
beginning of the other bytes that closes one bracket more than it opens, and `closingLength?_cases` says the same for
any number: reading a byte, `depth` becomes `depthAfter depth b`, and the rest closes that many.

A closed header ends with `]`, which is a character of its own, so a text is cut between two characters
(`exists_split`). What stands behind the header is read as it would be alone, but for the positions, which all grow by
the length of the header (`programOf_shift`). A `[` that comes first there opens a loop like any other.
-/

namespace TapeLang

/-- The error for brackets that stand `n` bytes further on. -/
def Error.shift (n : Nat) : Error → Error
  | .unmatchedLoopEnd position => .unmatchedLoopEnd (n + position)
  | .unclosedLoop position => .unclosedLoop (n + position)
  | e => e

/-- A command `n` bytes further on. -/
def Token.shift (n : Nat) (token : Token) : Token := { token with position := n + token.position }

/-- The error for brackets that stand elsewhere. -/
def Error.relocate (f : Nat → Nat) : Error → Error
  | .unmatchedLoopEnd position => .unmatchedLoopEnd (f position)
  | .unclosedLoop position => .unclosedLoop (f position)
  | e => e

theorem Error.relocate_add (n : Nat) : Error.relocate (n + ·) = Error.shift n := by
  funext e
  cases e <;> rfl

/-- A command elsewhere. -/
def Token.relocate (f : Nat → Nat) (token : Token) : Token := { token with position := f token.position }

namespace Source

/-- The program of commands that have been read. -/
def programOf (tokens : Array Token) : Except Error Program :=
  match Program.link (tokens.map (·.command.instruction)) with
  | ⟨program, none⟩ => .ok program
  | ⟨_, some bracket⟩ => .error (unpairedError tokens bracket)

/-- Reads a program from a source without a header: a `[` at the very first byte is a loop too. -/
def scan (source : Source) : Except Error Program := programOf (tokensFrom 0 #[] source)

/-- Not empty, and as many `]` as `[`. -/
def Block (bytes : Source) : Prop := bytes ≠ [] ∧ bytes.count ']'.toUInt8 = bytes.count '['.toUInt8

/-- `front` is the shortest beginning of `source` with the property `P`. -/
structure Shortest (P : Source → Prop) (front source : Source) : Prop where
  starts : front <+: source
  holds : P front
  le : ∀ other, other <+: source → P other → front.length ≤ other.length

/-- All brackets in `bytes` are closed, and `depth` brackets before. -/
def Closes (depth : Nat) (bytes : Source) : Prop := bytes.count ']'.toUInt8 = depth + bytes.count '['.toUInt8

/-- How many brackets are open after one more byte. -/
def depthAfter (depth : Nat) (b : UInt8) : Nat :=
  if b = '['.toUInt8 then depth + 1 else if b = ']'.toUInt8 then depth - 1 else depth

instance : DecidablePred Block := fun bytes =>
  inferInstanceAs (Decidable (bytes ≠ [] ∧ bytes.count ']'.toUInt8 = bytes.count '['.toUInt8))

variable {P Q : Source → Prop} {front rest source header : Source} {b : UInt8} {depth n : Nat}

theorem shortest_iff : Shortest P front source ↔
    front <+: source ∧ P front ∧ ∀ other ∈ source.inits, P other → front.length ≤ other.length := by
  simp only [List.mem_inits]
  exact ⟨fun ⟨starts, holds, le⟩ => ⟨starts, holds, le⟩, fun ⟨starts, holds, le⟩ => ⟨starts, holds, le⟩⟩

instance [DecidablePred P] : Decidable (Shortest P front source) := decidable_of_iff _ shortest_iff.symm

/-! ### Shortest beginnings -/

/-- What a first byte makes of a property settles where the shortest beginning ends. -/
theorem Shortest.cons (h : Shortest Q front rest) (hP : ∀ bytes, P (b :: bytes) ↔ Q bytes) (hnil : ¬ P []) :
    Shortest P (b :: front) (b :: rest) where
  starts := List.cons_prefix_cons.2 ⟨rfl, h.starts⟩
  holds := (hP front).2 h.holds
  le other hother hholds := by
    rcases List.prefix_cons_iff.1 hother with rfl | ⟨bytes, rfl, hbytes⟩
    · exact absurd hholds hnil
    · exact Nat.succ_le_succ (h.le bytes hbytes ((hP bytes).1 hholds))

theorem not_of_prefix_cons (h : ∀ bytes, bytes <+: rest → ¬ Q bytes) (hP : ∀ bytes, P (b :: bytes) ↔ Q bytes)
    (hnil : ¬ P []) (other : Source) (hother : other <+: b :: rest) : ¬ P other := by
  rcases List.prefix_cons_iff.1 hother with rfl | ⟨bytes, rfl, hbytes⟩
  · exact hnil
  · exact fun hholds => h bytes hbytes ((hP bytes).1 hholds)

/-- A beginning that is shortest in itself is shortest whatever follows. -/
theorem Shortest.append (h : Shortest P front front) (rest : Source) : Shortest P front (front ++ rest) where
  starts := List.prefix_append front rest
  holds := h.holds
  le other hother hholds := by
    by_cases hlength : front.length ≤ other.length
    · exact hlength
    · exact h.le other
        (List.prefix_of_prefix_length_le hother (List.prefix_append front rest) (by omega)) hholds

theorem Shortest.unique {front' : Source} (h : Shortest P front source) (h' : Shortest P front' source) :
    front = front' := by
  have hlength : front.length = front'.length :=
    Nat.le_antisymm (h.le _ h'.starts h'.holds) (h'.le _ h.starts h.holds)
  rw [List.prefix_iff_eq_take.1 h.starts, List.prefix_iff_eq_take.1 h'.starts, hlength]

/-! ### Brackets that are closed -/

theorem closes_nil : Closes depth [] ↔ depth = 0 := by
  simp only [Closes, List.count_nil]
  omega

theorem closes_cons (h : depth ≠ 0) (bytes : Source) :
    Closes depth (b :: bytes) ↔ Closes (depthAfter depth b) bytes := by
  have hne : '['.toUInt8 ≠ ']'.toUInt8 := by decide
  unfold Closes depthAfter
  by_cases hopen : b = '['.toUInt8
  · rw [if_pos hopen, hopen, List.count_cons_self, List.count_cons_of_ne hne]
    omega
  · rw [if_neg hopen, List.count_cons_of_ne hopen]
    by_cases hclose : b = ']'.toUInt8
    · rw [if_pos hclose, hclose, List.count_cons_self]
      omega
    · rw [if_neg hclose, List.count_cons_of_ne hclose]

theorem block_cons_open (bytes : Source) : Block ('['.toUInt8 :: bytes) ↔ Closes 1 bytes := by
  have hne : '['.toUInt8 ≠ ']'.toUInt8 := by decide
  simp only [Block, Closes, List.count_cons_self, List.count_cons_of_ne hne, ne_eq, reduceCtorEq, not_false_eq_true,
    true_and]
  omega

theorem closingLength?_cons (h : depth ≠ 0) (read : Nat) (bytes : Source) :
    closingLength? depth read (b :: bytes) = closingLength? (depthAfter depth b) (read + 1) bytes := by
  conv_lhs => unfold closingLength?
  unfold depthAfter
  rw [if_neg h, show Command.openLoop.byte = '['.toUInt8 from rfl, show Command.closeLoop.byte = ']'.toUInt8 from rfl]
  by_cases hopen : b = '['.toUInt8
  · rw [if_pos hopen, if_pos hopen]
  · rw [if_neg hopen, if_neg hopen]
    by_cases hclose : b = ']'.toUInt8
    · rw [if_pos hclose, if_pos hclose]
    · rw [if_neg hclose, if_neg hclose]

/-- The search ends behind the shortest beginning that closes `depth` brackets. -/
theorem closingLength?_cases (depth read : Nat) (source : Source) :
    (∃ front, Shortest (Closes depth) front source ∧
      closingLength? depth read source = some (read + front.length)) ∨
    (∀ front, front <+: source → ¬ Closes depth front) ∧ closingLength? depth read source = none := by
  induction source generalizing depth read with
  | nil =>
    by_cases hdepth : depth = 0
    · refine .inl ⟨[], ⟨List.prefix_rfl, closes_nil.2 hdepth, fun _ _ _ => Nat.zero_le _⟩, ?_⟩
      simp [closingLength?, hdepth]
    · refine .inr ⟨fun front hfront => ?_, by simp [closingLength?, hdepth]⟩
      rw [List.prefix_nil.1 hfront, closes_nil]
      exact hdepth
  | cons b source ih =>
    by_cases hdepth : depth = 0
    · refine .inl ⟨[], ⟨List.nil_prefix, closes_nil.2 hdepth, fun _ _ _ => Nat.zero_le _⟩, ?_⟩
      simp [closingLength?, hdepth]
    · have hnil : ¬ Closes depth [] := fun h => hdepth (closes_nil.1 h)
      rw [closingLength?_cons hdepth]
      rcases ih (depthAfter depth b) (read + 1) with ⟨front, hfront, hlength⟩ | ⟨hnone, hlength⟩
      · refine .inl ⟨b :: front, hfront.cons (closes_cons hdepth) hnil, ?_⟩
        rw [hlength, List.length_cons]
        congr 1
        omega
      · exact .inr ⟨not_of_prefix_cons hnone (closes_cons hdepth) hnil, hlength⟩

/-! ### The header -/

/-- The header of a source that starts with `[`. -/
theorem header_cases (h : source.head? = some '['.toUInt8) :
    (∃ block, Shortest Block block source ∧ source.header = .closed block.length) ∨
    (∀ front, front <+: source → ¬ Block front) ∧ source.header = .unclosed := by
  obtain ⟨rest, rfl⟩ : ∃ rest, source = '['.toUInt8 :: rest := List.head?_eq_some_iff.1 h
  have hnil : ¬ Block [] := fun hblock => hblock.1 rfl
  have hbyte : '['.toUInt8 = Command.openLoop.byte := rfl
  rcases closingLength?_cases 1 1 rest with ⟨front, hfront, hlength⟩ | ⟨hnone, hlength⟩
  · refine .inl ⟨'['.toUInt8 :: front, hfront.cons block_cons_open hnil, ?_⟩
    rw [header, if_pos hbyte, hlength, List.length_cons, Nat.add_comm]
  · refine .inr ⟨not_of_prefix_cons hnone block_cons_open hnil, ?_⟩
    rw [header, if_pos hbyte, hlength]

theorem header_of_head?_ne (h : source.head? ≠ some '['.toUInt8) : source.header = .absent := by
  unfold header
  split
  · rfl
  · rename_i b rest
    exact if_neg fun hb => h (congrArg some hb)

theorem headerLength_of_head?_ne (h : source.head? ≠ some '['.toUInt8) : source.headerLength = 0 := by
  rw [headerLength, header_of_head?_ne h]

theorem body_of_head?_ne (h : source.head? ≠ some '['.toUInt8) : source.body = source := by
  rw [body, headerLength_of_head?_ne h, List.drop_zero]

theorem headerLength_of_shortest (hopen : source.head? = some '['.toUInt8) (h : Shortest Block front source) :
    source.headerLength = front.length := by
  rcases header_cases hopen with ⟨block, hblock, hheader⟩ | ⟨hnone, -⟩
  · rw [headerLength, hheader, hblock.unique h]
  · exact absurd h.holds (hnone front h.starts)

theorem warning?_eq_none (h : source.header ≠ .unclosed) : source.warning? = none := if_neg h

/-! ### Where a header ends -/

theorem Shortest.tail (h : Shortest P (b :: front) (b :: rest)) (hP : ∀ bytes, P (b :: bytes) ↔ Q bytes) :
    Shortest Q front rest where
  starts := (List.cons_prefix_cons.1 h.starts).2
  holds := (hP front).1 h.holds
  le other hother hholds :=
    Nat.le_of_succ_le_succ (h.le (b :: other) (List.cons_prefix_cons.2 ⟨rfl, hother⟩) ((hP other).2 hholds))

theorem eq_close_of_depthAfter (h : depth ≠ 0) (hb : depthAfter depth b = 0) : b = ']'.toUInt8 := by
  unfold depthAfter at hb
  split at hb
  · omega
  · split at hb
    · assumption
    · exact absurd hb h

/-- The last bracket is closed by the last byte. -/
theorem getLast?_of_closes (h : Shortest (Closes depth) front source) (hdepth : depth ≠ 0) :
    front.getLast? = some ']'.toUInt8 := by
  induction front generalizing depth source with
  | nil => exact absurd (closes_nil.1 h.holds) hdepth
  | cons b front ih =>
    obtain ⟨rest, rfl⟩ : ∃ rest, source = b :: rest := by
      obtain ⟨rest, hrest⟩ := h.starts
      exact ⟨front ++ rest, hrest.symm⟩
    have htail := h.tail (closes_cons hdepth)
    by_cases hlast : depthAfter depth b = 0
    · have hempty : front.length ≤ 0 := htail.le [] List.nil_prefix (closes_nil.2 hlast)
      rw [List.eq_nil_of_length_eq_zero (Nat.le_zero.1 hempty), eq_close_of_depthAfter hdepth hlast]
      rfl
    · rw [List.getLast?_cons, ih htail hlast, Option.getD_some]

theorem getLast?_of_block (hopen : source.head? = some '['.toUInt8) (h : Shortest Block front source) :
    front.getLast? = some ']'.toUInt8 := by
  obtain ⟨rest, rfl⟩ : ∃ rest, source = '['.toUInt8 :: rest := List.head?_eq_some_iff.1 hopen
  rcases List.prefix_cons_iff.1 h.starts with rfl | ⟨bytes, rfl, -⟩
  · exact absurd rfl h.holds.1
  · rw [List.getLast?_cons, getLast?_of_closes (h.tail block_cons_open) Nat.one_ne_zero, Option.getD_some]

/-! ### Bytes of a text -/

theorem ofString_eq (text : String) : ofString text = text.toList.flatMap String.utf8EncodeChar := by
  conv => lhs; rw [← String.ofList_toList (s := text)]
  show (String.ofList text.toList).toByteArray.data.toList = _
  rw [String.toByteArray_ofList, List.utf8Encode, List.toList_data_toByteArray]

theorem length_ofString (text : String) : (ofString text).length = text.utf8ByteSize := Array.length_toList

/-- An ASCII byte is no part of a longer character. -/
theorem utf8EncodeChar_eq_singleton {c : Char} (h : b ∈ String.utf8EncodeChar c) (hb : b < 0x80) :
    String.utf8EncodeChar c = [b] := by
  have high (n : Nat) (hn : 128 ≤ n) (hlt : n < 256) : b ≠ UInt8.ofNat n := by
    rintro rfl
    rw [UInt8.lt_iff_toNat_lt, UInt8.toNat_ofNat', Nat.mod_eq_of_lt hlt] at hb
    exact absurd hb (Nat.not_lt.2 hn)
  unfold String.utf8EncodeChar at h ⊢
  dsimp only at h ⊢
  split
  · rename_i hone
    rw [if_pos hone, List.mem_singleton] at h
    rw [h]
  · rename_i hone
    rw [if_neg hone] at h
    exfalso
    split at h
    · simp only [List.mem_cons, List.not_mem_nil, or_false] at h
      rcases h with h | h <;> exact high _ (by omega) (by omega) h
    · split at h
      · simp only [List.mem_cons, List.not_mem_nil, or_false] at h
        rcases h with h | h | h <;> exact high _ (by omega) (by omega) h
      · simp only [List.mem_cons, List.not_mem_nil, or_false] at h
        rcases h with h | h | h | h <;> exact high _ (by omega) (by omega) h

/-- Behind an ASCII byte a character ends. -/
theorem exists_append_of_ascii {chars : List Char} (h : chars.flatMap String.utf8EncodeChar = front ++ b :: rest)
    (hb : b < 0x80) :
    ∃ before after, chars = before ++ after ∧ before.flatMap String.utf8EncodeChar = front ++ [b] ∧
      after.flatMap String.utf8EncodeChar = rest := by
  induction chars generalizing front with
  | nil => exact absurd h.symm (by simp)
  | cons c chars ih =>
    rw [List.flatMap_cons, List.append_eq_append_iff] at h
    have later (front' : Source) (hfront : front = String.utf8EncodeChar c ++ front')
        (hchars : chars.flatMap String.utf8EncodeChar = front' ++ b :: rest) :
        ∃ before after, c :: chars = before ++ after ∧ before.flatMap String.utf8EncodeChar = front ++ [b] ∧
          after.flatMap String.utf8EncodeChar = rest := by
      obtain ⟨before, after, rfl, hbefore, hafter⟩ := ih hchars
      refine ⟨c :: before, after, rfl, ?_, hafter⟩
      rw [List.flatMap_cons, hbefore, hfront, List.append_assoc]
    rcases h with ⟨front', hfront, hchars⟩ | ⟨tail, hc, htail⟩
    · exact later front' hfront hchars
    · cases tail with
      | nil => exact later [] (by rw [hc, List.append_nil, List.append_nil]) htail.symm
      | cons b' tail =>
        rw [List.cons_append, List.cons.injEq] at htail
        obtain ⟨rfl, hrest⟩ := htail
        have hsingle := utf8EncodeChar_eq_singleton (c := c) (by simp [hc]) hb
        have hempty : front = [] ∧ tail = [] := by
          have hlength := congrArg List.length (hc.symm.trans hsingle)
          simp only [List.length_append, List.length_cons, List.length_nil] at hlength
          exact ⟨List.eq_nil_of_length_eq_zero (by omega), List.eq_nil_of_length_eq_zero (by omega)⟩
        rw [hempty.2, List.nil_append] at hrest
        exact ⟨[c], chars, rfl, by simp [hempty.1, hsingle], hrest.symm⟩

/-- A text can be cut behind its header. -/
theorem exists_split (text : String) :
    ∃ front rest, text = front ++ rest ∧ ofString front = (ofString text).take (ofString text).headerLength ∧
      ofString rest = (ofString text).body := by
  by_cases hopen : (ofString text).head? = some '['.toUInt8
  · rcases header_cases hopen with ⟨block, hblock, -⟩ | ⟨-, hheader⟩
    · have hlength := headerLength_of_shortest hopen hblock
      obtain ⟨front, hfront⟩ := List.getLast?_eq_some_iff.1 (getLast?_of_block hopen hblock)
      obtain ⟨rest, hrest⟩ := hblock.starts
      have hbytes : text.toList.flatMap String.utf8EncodeChar = front ++ ']'.toUInt8 :: rest := by
        rw [← ofString_eq, ← hrest, hfront, List.append_assoc, List.singleton_append]
      obtain ⟨before, after, htext, hbefore, hafter⟩ := exists_append_of_ascii hbytes (by decide)
      refine ⟨String.ofList before, String.ofList after, ?_, ?_, ?_⟩
      · rw [← String.ofList_append, ← htext, String.ofList_toList]
      · rw [ofString_eq, String.toList_ofList, hbefore, ← hfront, hlength, ← hrest, List.take_left]
      · rw [ofString_eq, String.toList_ofList, hafter, body, hlength, ← hrest, List.drop_left]
    · have hlength : (ofString text).headerLength = (ofString text).length := by rw [headerLength, hheader]
      refine ⟨text, "", String.append_empty.symm, ?_, ?_⟩
      · rw [hlength, List.take_length]
      · rw [body, hlength, List.drop_length]
        rfl
  · refine ⟨"", text, String.empty_append.symm, ?_, (body_of_head?_ne hopen).symm⟩
    rw [headerLength_of_head?_ne hopen, List.take_zero]
    rfl

/-! ### Reading further on -/

theorem tokenList_shift (n position : Nat) (bytes : Source) :
    tokenList (n + position) bytes = (tokenList position bytes).map (Token.shift n) := by
  induction bytes generalizing position with
  | nil => rfl
  | cons b bytes ih =>
    have htail := ih (position + 1)
    unfold tokenList at htail ⊢
    rw [List.zipIdx_cons, List.zipIdx_cons, Nat.add_assoc]
    cases hb : Command.ofByte? b with
    | none => rw [List.filterMap_cons_none (by rw [hb, Option.map_none]),
        List.filterMap_cons_none (by rw [hb, Option.map_none]), htail]
    | some c =>
      rw [List.filterMap_cons_some (by rw [hb, Option.map_some]),
        List.filterMap_cons_some (by rw [hb, Option.map_some]), htail]
      rfl

theorem tokensFrom_shift (n : Nat) (bytes : Source) :
    tokensFrom n #[] bytes = (tokensFrom 0 #[] bytes).map (Token.shift n) := by
  rw [← Array.toList_inj, Array.toList_map, toList_tokensFrom, toList_tokensFrom]
  exact tokenList_shift n 0 bytes

/-- A bracket without a partner is one of the program. -/
theorem index_lt_of_unpaired {p : Program} {bracket : Unpaired} (h : p.link.unpaired = some bracket) :
    bracket.index < p.size := by
  have hlt {front rest : List Instruction} {i : Instruction} (hp : p.toList = front ++ i :: rest) :
      front.length < p.size := by
    rw [← Array.length_toList, hp, List.length_append, List.length_cons]
    omega
  rcases Nesting.nested_or_unclosed_or_unmatched Instruction.side? p.toList with
    hp | ⟨front, i, rest, hp, hfront, hi, hrest⟩ | ⟨front, i, rest, hp, hfront, hi⟩
  · obtain ⟨q, hq, -, -⟩ := Program.link_of_nested hp
    rw [hq] at h
    exact absurd h (by simp)
  · rw [Program.unpaired_link_of_unclosed hp hfront hi hrest, Option.some.injEq] at h
    rw [← h]
    exact hlt hp
  · rw [Program.unpaired_link_of_unmatched hp hfront hi, Option.some.injEq] at h
    rw [← h]
    exact hlt hp

theorem unpairedError_relocate (f : Nat → Nat) {tokens : Array Token} {bracket : Unpaired}
    (h : bracket.index < tokens.size) :
    unpairedError (tokens.map (Token.relocate f)) bracket = (unpairedError tokens bracket).relocate f := by
  have hget : tokens[bracket.index]? = some tokens[bracket.index] := Array.getElem?_eq_getElem h
  cases bracket <;> simp [unpairedError, hget, Token.relocate, Error.relocate]

/-- Commands that stand elsewhere make the same program, or the same error elsewhere. -/
theorem programOf_relocate (f : Nat → Nat) (tokens : Array Token) :
    programOf (tokens.map (Token.relocate f)) = (programOf tokens).mapError (Error.relocate f) := by
  have hinstructions : (tokens.map (Token.relocate f)).map (·.command.instruction) =
      tokens.map (·.command.instruction) := by
    rw [Array.map_map]
    rfl
  unfold programOf
  rw [hinstructions]
  cases hlink : Program.link (tokens.map (·.command.instruction)) with
  | mk program unpaired =>
    cases unpaired with
    | none => rfl
    | some bracket =>
      have hlt : bracket.index < tokens.size := by
        have hunpaired : (Program.link (tokens.map (·.command.instruction))).unpaired = some bracket := by rw [hlink]
        have hindex := index_lt_of_unpaired hunpaired
        rwa [Array.size_map] at hindex
      exact congrArg Except.error (unpairedError_relocate f hlt)

/-- Commands that stand further on make the same program, or the same error further on. -/
theorem programOf_shift (n : Nat) (tokens : Array Token) :
    programOf (tokens.map (Token.shift n)) = (programOf tokens).mapError (Error.shift n) := by
  rw [← Error.relocate_add]
  exact programOf_relocate (n + ·) tokens

/-- Where there is no header, nothing is special about the first byte. -/
theorem parse_of_head?_ne (h : source.head? ≠ some '['.toUInt8) : source.parse = scan source := by
  show programOf source.tokens = _
  rw [tokens, headerLength_of_head?_ne h, body_of_head?_ne h, scan]

/-- What stands behind a header is read alone. -/
theorem parse_append_of_block (hopen : header.head? = some '['.toUInt8) (h : Shortest Block header header)
    (rest : Source) : parse (header ++ rest) = (scan rest).mapError (Error.shift header.length) := by
  have hhead : (header ++ rest).head? = some '['.toUInt8 := by rw [List.head?_append, hopen, Option.some_or]
  have hlength := headerLength_of_shortest hhead (h.append rest)
  have hbody : body (header ++ rest) = rest := by rw [body, hlength, List.drop_left]
  have htokens : tokens (header ++ rest) = tokensFrom header.length #[] rest := by rw [tokens, hlength, hbody]
  show programOf (tokens (header ++ rest)) = _
  rw [htokens, tokensFrom_shift, programOf_shift, scan]

/-- A text that does not start with `[` has no header. Of another text, its shortest beginning with as many `]` as
`[` is cut off, or everything if there is none, and in this case alone there is a warning. What is left is the end of
the text, from the start of a character on. A source without a header is scanned as it is. Behind a header a source
is scanned too, also if it starts with `[`, and the positions in errors grow by the length of the header. -/
theorem header_cut :
    (∀ text : String,
      let source := ofString text
      (source.head? ≠ some '['.toUInt8 → source.body = source ∧ source.warning? = none) ∧
        (source.head? = some '['.toUInt8 →
          (∃ block, Shortest Block block source ∧ source = block ++ source.body ∧ source.warning? = none) ∨
          (∀ front, front <+: source → ¬ Block front) ∧ source.body = [] ∧ source.warning? = some .openHeader) ∧
        source.body <:+ source ∧ String.Pos.Raw.IsValid text ⟨source.headerLength⟩ ∧
        ∃ front rest, text = front ++ rest ∧ ofString front = source.take source.headerLength ∧
          ofString rest = source.body) ∧
      (∀ source : Source, source.head? ≠ some '['.toUInt8 → source.parse = scan source) ∧
      ∀ header rest : Source, header.head? = some '['.toUInt8 → Shortest Block header header →
        parse (header ++ rest) = (scan rest).mapError (Error.shift header.length) := by
  refine ⟨fun text => ?_, fun source => parse_of_head?_ne, fun header rest hopen h => ?_⟩
  case refine_2 => exact parse_append_of_block hopen h rest
  intro source
  refine ⟨fun hopen => ?_, fun hopen => ?_, List.drop_suffix _ _, ?_, exists_split text⟩
  · exact ⟨body_of_head?_ne hopen, warning?_eq_none (by simp [header_of_head?_ne hopen])⟩
  · rcases header_cases hopen with ⟨block, hblock, hheader⟩ | ⟨hnone, hheader⟩
    · refine .inl ⟨block, hblock, ?_, warning?_eq_none (by simp [hheader])⟩
      obtain ⟨rest, hrest⟩ := hblock.starts
      rw [body, headerLength, hheader]
      dsimp only
      rw [← hrest, List.drop_left]
    · refine .inr ⟨hnone, ?_, if_pos hheader⟩
      rw [body, headerLength, hheader, List.drop_length]
  · obtain ⟨front, rest, htext, hfront, -⟩ := exists_split text
    refine String.Pos.Raw.isValid_iff_exists_append.2 ⟨front, rest, htext, ?_⟩
    have hlength := congrArg List.length hfront
    rw [length_ofString, List.length_take, Nat.min_eq_left (headerLength_le _)] at hlength
    exact congrArg String.Pos.Raw.mk hlength.symm

/-- The header `[é]` takes four bytes, and `[-]` behind it is a loop. In `[é]+]` the last byte closes nothing. -/
theorem header_cut_accent :
    (ofString "[é][-]").body = ofString "[-]" ∧ (ofString "[é][-]").warning? = none ∧
      parse (ofString "[é]" ++ ofString "[-]") = .ok #[.loopBegin 2, .add 255, .loopEnd 0] ∧
      parse (ofString "[é]" ++ ofString "+]") = .error (.unmatchedLoopEnd 5) := by
  obtain ⟨hcut, -, hread⟩ := header_cut
  have hheader : Shortest Block (ofString "[é]") (ofString "[é]") := by decide
  obtain ⟨-, hblock, -, -, -⟩ := hcut "[é][-]"
  refine ⟨?_, ?_, ?_, ?_⟩
  · rfl
  · rcases hblock rfl with ⟨-, -, -, hwarning⟩ | ⟨hnone, -, -⟩
    · exact hwarning
    · exact absurd (by decide) (hnone (ofString "[é]") (by decide))
  · exact (hread _ (ofString "[-]") rfl hheader).trans (by decide +kernel)
  · exact (hread _ (ofString "+]") rfl hheader).trans (by decide +kernel)

end Source

end TapeLang
