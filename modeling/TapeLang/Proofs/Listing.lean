import TapeLang.Program.Listing
import TapeLang.Proofs.Nesting.Pending
import TapeLang.Proofs.Optimizer.Targets

/-!
# What a listing tells

A listing has one line per instruction: its indent, and the text of the instruction without its loop target. No text
holds a newline, so the lines can be told apart (`linesOf_render`), and every text starts with `<`, so that the indent
of a line can be told from the text (`dropWhile_row`).

The text tells the instruction. The first signs that differ tell the kind (`readKind?_line`), where an addition has the
sign of a number in its second place and a move has an arrow; what stands behind the colon is the number itself. The
indent adds nothing to that: it depends on the lines before, and does so alike for programs that have the same lines so
far, also where it stops at zero because a loop is closed that was not open. So the lines are read one after the other,
with the depth as state (`map_erase_eq_of_rowsFrom`).
-/

namespace TapeLang.Program

open Nesting (Balanced Partner Nested depth around)

/-- The lines of a text that ends with a newline. -/
def linesOf (text : String) : List (List Char) := (text.toList.splitOn '\n').dropLast

/-- How many blanks a line starts with. -/
def indent (row : List Char) : Nat := (row.takeWhile (· = ' ')).length

/-- The lines of instructions inside `depth` loops. -/
def rowsFrom (depth : Nat) : List Instruction → List (List Char)
  | [] => []
  | i :: rest => (List.replicate (indentOf depth i) ' ' ++ (line i).toList) :: rowsFrom (depthAfter depth i) rest

/-- The kind that the text of an instruction starts with. -/
def readKind? : List Char → Option Kind
  | '<' :: '+' :: _ => some .add
  | '<' :: '-' :: _ => some .add
  | '<' :: '<' :: _ => some .move
  | '<' :: '>' :: _ => some .move
  | '<' :: 'I' :: _ => some .input
  | '<' :: 'O' :: _ => some .output
  | '<' :: 'L' :: 'o' :: 'o' :: 'p' :: 'B' :: _ => some .loopBegin
  | '<' :: 'L' :: 'o' :: 'o' :: 'p' :: 'E' :: _ => some .loopEnd
  | '<' :: 'S' :: _ => some .set
  | '<' :: 'H' :: _ => some .halt
  | _ => none

variable {l l' : List Instruction} {i j : Instruction} {k n d : Nat}

/-! ### The text of an instruction -/

theorem toList_signedField (negative positive : String) (n : Int) :
    (signedField negative positive n).toList =
      '<' :: ((if n < 0 then negative else positive).toList ++ ':' :: (n.repr.toList ++ ['>'])) := by
  simp [signedField, toString]

theorem toList_line_set (value : UInt8) :
    (line (.set value)).toList = "<Set:".toList ++ (value.toNat.repr.toList ++ ['>']) := by
  simp [line, toString]

theorem readKind?_line (i : Instruction) : readKind? (line i).toList = some i.kind := by
  cases i with
  | add delta =>
    rw [line, toList_signedField]
    split <;> rfl
  | move delta =>
    rw [line, toList_signedField]
    split <;> rfl
  | set value =>
    rw [toList_line_set]
    rfl
  | loopBegin close => simp [line, readKind?, Instruction.kind]
  | loopEnd start => simp [line, readKind?, Instruction.kind]
  | _ => rfl

/-- A number can be told from its field if the two markers are of one length. -/
theorem signedField_inj {negative positive : String} {m n : Int}
    (h : signedField negative positive m = signedField negative positive n)
    (hlen : negative.toList.length = positive.toList.length) : m = n := by
  have htext := congrArg String.toList h
  rw [toList_signedField, toList_signedField, List.cons.injEq] at htext
  have hmarkers : (if m < 0 then negative else positive).toList.length =
      (if n < 0 then negative else positive).toList.length := by
    split <;> split <;> simp only [hlen]
  have hnumber := (List.append_inj htext.2 hmarkers).2
  rw [List.cons.injEq, List.append_cancel_right_eq, String.toList_inj] at hnumber
  exact Int.repr_injective hnumber.2

/-- The text of an instruction tells the instruction, but for a loop target. -/
theorem erase_eq_of_line_eq (h : line i = line j) : i.erase = j.erase := by
  have hkind : i.kind = j.kind := by
    have := readKind?_line i
    rw [h, readKind?_line, Option.some.injEq] at this
    exact this.symm
  cases i <;> cases j <;> simp only [Instruction.kind, reduceCtorEq] at hkind
  case add.add a b =>
    rw [line, line] at h
    have hbyte := congrArg Int8.toUInt8 (Int8.toInt_inj.1 (signedField_inj h (by simp)))
    rw [UInt8.toUInt8_toInt8, UInt8.toUInt8_toInt8] at hbyte
    rw [hbyte]
  case move.move a b =>
    rw [line, line] at h
    rw [Int64.toInt_inj.1 (signedField_inj h (by simp))]
  case set.set a b =>
    have htext := congrArg String.toList h
    rw [toList_line_set, toList_line_set, List.append_cancel_left_eq, List.append_cancel_right_eq,
      String.toList_inj] at htext
    rw [UInt8.toNat_inj.1 (Nat.repr_injective htext)]
  all_goals rfl

/-! ### Lines -/

theorem toList_pushn (text : String) (c : Char) (n : Nat) :
    (text.pushn c n).toList = text.toList ++ List.replicate n c := by
  rw [String.pushn_eq_repeat_push]
  induction n with
  | zero => simp [Nat.repeat]
  | succ n ih => rw [Nat.repeat, String.toList_push, ih, List.append_assoc, List.replicate_succ']

theorem toList_renderTo (text : String) (depth : Nat) (l : List Instruction) :
    (renderTo text depth l).toList = text.toList ++ (rowsFrom depth l).flatMap (· ++ ['\n']) := by
  induction l generalizing text depth with
  | nil => simp [renderTo, rowsFrom]
  | cons i l ih =>
    rw [renderTo, ih, rowsFrom, List.flatMap_cons]
    simp only [String.toList_append, toList_pushn, List.append_assoc]
    rfl

theorem length_rowsFrom (depth : Nat) (l : List Instruction) : (rowsFrom depth l).length = l.length := by
  induction l generalizing depth with
  | nil => rfl
  | cons i l ih => rw [rowsFrom, List.length_cons, List.length_cons, ih]

theorem newline_notMem_toDigits (n : Nat) : '\n' ∉ Nat.toDigits 10 n := by
  intro h
  have := Nat.isDigit_of_mem_toDigits (by decide) (by decide) h
  revert this
  decide

theorem newline_notMem_signedField {negative positive : String} (hnegative : '\n' ∉ negative.toList)
    (hpositive : '\n' ∉ positive.toList) (n : Int) : '\n' ∉ (signedField negative positive n).toList := by
  have hnumber : '\n' ∉ n.repr.toList := by
    rw [Int.repr_eq_if]
    split
    · simp [newline_notMem_toDigits]
    · simp [newline_notMem_toDigits]
  have hmarker : '\n' ∉ (if n < 0 then negative else positive).toList := by
    split
    · exact hnegative
    · exact hpositive
  rw [toList_signedField]
  simp [hnumber, hmarker]

theorem newline_notMem_line (i : Instruction) : '\n' ∉ (line i).toList := by
  cases i with
  | add delta => exact newline_notMem_signedField (by simp) (by simp) _
  | move delta => exact newline_notMem_signedField (by simp) (by simp) _
  | set value =>
    rw [toList_line_set]
    simp [newline_notMem_toDigits]
  | _ => simp [line]

theorem newline_notMem_rowsFrom {row : List Char} (h : row ∈ rowsFrom n l) : '\n' ∉ row := by
  induction l generalizing n with
  | nil => cases h
  | cons i l ih =>
    rcases List.mem_cons.1 h with rfl | h
    · simp [newline_notMem_line]
    · exact ih h

theorem splitOn_flatMap {rows : List (List Char)} (h : ∀ row ∈ rows, '\n' ∉ row) :
    (rows.flatMap (· ++ ['\n'])).splitOn '\n' = rows ++ [[]] := by
  induction rows with
  | nil => rfl
  | cons row rows ih =>
    obtain ⟨hrow, hrows⟩ := List.forall_mem_cons.1 h
    rw [List.flatMap_cons, List.append_assoc, List.singleton_append, List.splitOn_append_cons_self_of_not_mem hrow,
      ih hrows, List.cons_append]

/-- A listing is made of lines, each with a newline behind it. -/
theorem toList_render (p : Program) : p.render.toList = (rowsFrom 0 p.toList).flatMap (· ++ ['\n']) := by
  rw [render, toList_renderTo]
  rfl

theorem linesOf_render (p : Program) : linesOf p.render = rowsFrom 0 p.toList := by
  rw [linesOf, toList_render, splitOn_flatMap fun row => newline_notMem_rowsFrom, List.dropLast_concat]

/-- The text of an instruction starts behind the blanks. -/
theorem line_starts (i : Instruction) : ∃ rest, (line i).toList = '<' :: rest := by
  cases i with
  | add delta => exact ⟨_, toList_signedField ..⟩
  | move delta => exact ⟨_, toList_signedField ..⟩
  | set value => exact ⟨_, toList_line_set value⟩
  | _ => exact ⟨_, by simp [line]; rfl⟩

theorem indent_row (n : Nat) (i : Instruction) : indent (List.replicate n ' ' ++ (line i).toList) = n := by
  obtain ⟨rest, hrest⟩ := line_starts i
  rw [indent, hrest, List.takeWhile_append_of_pos (by simp)]
  simp

theorem dropWhile_row (n : Nat) (i : Instruction) :
    (List.replicate n ' ' ++ (line i).toList).dropWhile (· = ' ') = (line i).toList := by
  obtain ⟨rest, hrest⟩ := line_starts i
  rw [hrest, List.dropWhile_append_of_pos (by simp)]
  simp

/-! ### Reading the lines -/

theorem depthAfter_congr (h : i.erase = j.erase) (n : Nat) : depthAfter n i = depthAfter n j := by
  cases i <;> cases j <;> simp_all [Instruction.erase, depthAfter]

/-- The lines tell the instructions, but for their loop targets. -/
theorem map_erase_eq_of_rowsFrom (h : rowsFrom n l = rowsFrom n l') :
    l.map Instruction.erase = l'.map Instruction.erase := by
  induction l generalizing l' n with
  | nil =>
    cases l' with
    | nil => rfl
    | cons j l' => cases h
  | cons i l ih =>
    cases l' with
    | nil => cases h
    | cons j l' =>
      rw [rowsFrom, rowsFrom, List.cons.injEq] at h
      obtain ⟨hrow, hrest⟩ := h
      have hline : line i = line j := by
        have := congrArg (List.dropWhile (· = ' ')) hrow
        rwa [dropWhile_row, dropWhile_row, String.toList_inj] at this
      have herase := erase_eq_of_line_eq hline
      rw [depthAfter_congr herase] at hrest
      rw [List.map_cons, List.map_cons, herase, ih hrest]

/-- The line of an instruction where reading comes to it with `d` loops open. -/
theorem getElem?_rowsFrom (hdepth : depth Instruction.side? n (l.take k) = some d) (hk : l[k]? = some i) :
    (rowsFrom n l)[k]? = some (List.replicate (indentOf d i) ' ' ++ (line i).toList) := by
  induction l generalizing n k with
  | nil => cases hk
  | cons j l ih =>
    cases k with
    | zero =>
      cases hk
      cases hdepth
      rfl
    | succ k =>
      rw [rowsFrom, List.getElem?_cons_succ]
      refine ih ?_ hk
      rw [List.take_succ_cons] at hdepth
      cases j with
      | loopEnd start =>
        cases n with
        | zero => cases hdepth
        | succ n => exact hdepth
      | _ => exact hdepth

/-- Every instruction has its line. -/
theorem exists_row (n : Nat) (hk : l[k]? = some i) :
    ∃ m, (rowsFrom n l)[k]? = some (List.replicate m ' ' ++ (line i).toList) := by
  induction l generalizing n k with
  | nil => cases hk
  | cons j l ih =>
    cases k with
    | zero =>
      cases hk
      exact ⟨_, rfl⟩
    | succ k => exact ih _ hk

/-! ### Indents -/

theorem indentOf_eq (d : Nat) (i : Instruction) : indentOf d i = if i.side? = some .closing then d - 1 else d := by
  cases i <;> rfl

/-- The indent of a line is the number of loops around its instruction. -/
theorem indent_eq_ncard_around (hl : Nested Instruction.side? l) {row : List Char}
    (hrow : (rowsFrom 0 l)[k]? = some row) :
    indent row = (around Instruction.side? l k).ncard := by
  have hlt : k < l.length := by
    rw [← length_rowsFrom 0 l]
    exact (List.getElem?_eq_some_iff.1 hrow).1
  have hk := List.getElem?_eq_getElem hlt
  obtain ⟨d, hd⟩ := hl.depth_take k
  rw [getElem?_rowsFrom hd hk, Option.some.injEq] at hrow
  rw [← hrow, indent_row, indentOf_eq, Nesting.ncard_around hl hk hd]

/-- Partners have the same indent. -/
theorem indent_eq_of_partner {a b : Nat} (hl : Nested Instruction.side? l) (h : Partner Instruction.side? l a b) :
    (rowsFrom 0 l)[a]?.map indent = (rowsFrom 0 l)[b]?.map indent := by
  obtain ⟨d, hd⟩ := hl.depth_take a
  obtain ⟨front, i, mid, j, rest, rfl, hi, hj, hmid, rfl, rfl⟩ := h
  have hopen : (front ++ i :: (mid ++ j :: rest))[front.length]? = some i := by simp
  have hsplit : front ++ i :: (mid ++ j :: rest) = (front ++ i :: mid) ++ j :: rest := by simp
  have hlen : (front ++ i :: mid).length = front.length + mid.length + 1 := by simp; omega
  have hclose : (front ++ i :: (mid ++ j :: rest))[front.length + mid.length + 1]? = some j := by
    rw [hsplit, ← hlen]
    simp
  have hinside : depth Instruction.side? 0 ((front ++ i :: (mid ++ j :: rest)).take (front.length + mid.length + 1)) =
      some (d + 1) := by
    rw [List.take_left] at hd
    rw [hsplit, ← hlen, List.take_left, Nesting.depth_append, hd, Option.bind_some, Nesting.depth_cons_opening hi,
      (Nesting.nested_iff_balanced.2 hmid).depth_eq]
  rw [getElem?_rowsFrom hd hopen, getElem?_rowsFrom hinside hclose, Option.map_some, Option.map_some, indent_row,
    indent_row, indentOf_eq, indentOf_eq, hi, hj]
  rfl

/-- Programs with the same listing are the same but for loop targets, whether their brackets are balanced or not, and
are the same if their loops are linked. A listing has one line for each instruction. If the brackets of a program are
balanced, the indent of a line is the number of loops around its instruction, and the two brackets of a loop have the
same indent. -/
theorem listing_tells_program :
    (∀ p q : Program, p.render = q.render → p.erased = q.erased ∧ (p.Matched → q.Matched → p = q)) ∧
      ∀ p : Program,
        p.render.toList = (linesOf p.render).flatMap (· ++ ['\n']) ∧ (linesOf p.render).length = p.size ∧
          (∀ (k : Nat) (i : Instruction), p[k]? = some i →
            ∃ n, (linesOf p.render)[k]? = some (List.replicate n ' ' ++ (line i).toList)) ∧
          (Balanced Instruction.side? p.toList →
            (∀ (k : Nat) (row : List Char), (linesOf p.render)[k]? = some row →
              indent row = (around Instruction.side? p.toList k).ncard) ∧
            ∀ i j, Partner Instruction.side? p.toList i j →
              (linesOf p.render)[i]?.map indent = (linesOf p.render)[j]?.map indent) := by
  refine ⟨fun p q h => ?_, fun p => ?_⟩
  · have hrows : rowsFrom 0 p.toList = rowsFrom 0 q.toList := by rw [← linesOf_render, ← linesOf_render, h]
    have herase := map_erase_eq_of_rowsFrom hrows
    refine ⟨?_, fun hp hq => hq.eq_of_map_erase hp herase⟩
    rw [← Array.toList_inj, toList_erased, toList_erased, herase]
  · rw [linesOf_render]
    refine ⟨toList_render p, ?_, fun k i hk => ?_, fun hp => ?_⟩
    · rw [length_rowsFrom, Array.length_toList]
    · rw [← Array.getElem?_toList] at hk
      exact exists_row 0 hk
    · have hnested := Nesting.nested_iff_balanced.2 hp
      exact ⟨fun k row => indent_eq_ncard_around hnested, fun i j => indent_eq_of_partner hnested⟩

/-- In `+[>[.]<]` the two loops have their brackets at indents zero and one. The same listing belongs to no other
linked program. -/
theorem listing_tells_nested :
    let p : Program := #[.add 1, .loopBegin 7, .move 1, .loopBegin 5, .output, .loopEnd 3, .move (-1), .loopEnd 1]
    (linesOf p.render).length = 8 ∧ (around Instruction.side? p.toList 4).ncard = 2 ∧
      (linesOf p.render)[3]?.map indent = (linesOf p.render)[5]?.map indent ∧
      ∀ q : Program, q.Matched → q.render = p.render → q = p := by
  intro p
  obtain ⟨hsame, hlines⟩ := listing_tells_program
  obtain ⟨-, hlength, -, hindent⟩ := hlines p
  have hlinked : p.Linked := linked_of_block
    (.act (.add 1) (.loop (.act (.move 1) (.loop (.act .output .done) (.act (.move (-1)) .done))) .done))
  have hmatched := hlinked.matched
  obtain ⟨hcount, hpartner⟩ := hindent hmatched.balanced
  have hrow : (linesOf p.render)[4]? = some "  <Out>".toList := by
    rw [linesOf_render]
    rfl
  refine ⟨hlength, ?_, hpartner 3 5 (hmatched.close 3 5 rfl), fun q hq h => (hsame q p h).2 hq hmatched⟩
  rw [← hcount 4 _ hrow]
  rfl

end TapeLang.Program
