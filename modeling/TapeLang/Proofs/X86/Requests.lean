import TapeLang.Proofs.X86.Placement
import TapeLang.X86.Request

/-!
# What is assembled is what was asked for

What each request asks for is written out instruction by instruction (`Request.asks`), apart from how the assembler
puts it together. Whatever requests are accepted: read from its first byte to its last, the code is the instructions
that they ask for, in their order, with their registers and immediates, and every branch goes to the place of its label
(`ReadsAs`). The offset that is reported for a label is what the sizes of the instructions in front of it add up to
(`requests_read_back`).

The assembler knows labels by their numbers. Every number is that of a `Label`, so that what is known of pieces with
such labels (`Assembled`) holds of all pieces.
-/

namespace TapeLang

/-! ### Labels by number -/

/-- The label with a number. -/
def Label.ofNumber (n : Nat) : Label :=
  if n = 0 then .fault
  else if n % 3 = 1 then .instruction (n / 3)
  else if n % 3 = 2 then .check (n / 3)
  else .after (n / 3 - 1)

@[simp] theorem Label.number_ofNumber (n : Nat) : (ofNumber n).number = n := by
  rw [ofNumber]
  split
  · simp only [number]
    omega
  · split
    · simp only [number]
      omega
    · split <;> simp only [number] <;> omega

theorem Label.ofNumber_number (l : Label) : ofNumber l.number = l := number_injective (number_ofNumber l.number)

namespace Piece

variable {ω β ℓ κ μ : Type}

theorem mapLabel_mapLabel (f : ℓ → κ) (g : κ → μ) (q : Piece ω β ℓ) :
    (q.mapLabel f).mapLabel g = q.mapLabel fun l => g (f l) := by
  cases q <;> rfl

theorem mapLabel_id (q : Piece ω β ℓ) : q.mapLabel (fun l => l) = q := by
  cases q <;> rfl

@[simp] theorem text?_mapLabel (f : ℓ → κ) (place : κ → Nat) (q : Piece ω β ℓ) :
    (q.mapLabel f).text? place = q.text? fun l => place (f l) := by
  cases q <;> rfl

end Piece

namespace X86

/-- Pieces with the labels of their numbers. -/
def named (qs : List (Piece Op Branch Nat)) : List (Piece Op Branch Label) := qs.map (·.mapLabel .ofNumber)

variable {qs : List (Piece Op Branch Nat)} {k : Nat}

theorem map_number_named (qs : List (Piece Op Branch Nat)) : (named qs).map (·.mapLabel Label.number) = qs := by
  rw [named, List.map_map]
  conv_rhs => rw [← List.map_id qs]
  refine List.map_congr_left fun q _ => ?_
  simp [Piece.mapLabel_mapLabel, Piece.mapLabel_id]

theorem getElem?_named {q : Piece Op Branch Nat} (h : qs[k]? = some q) :
    (named qs)[k]? = some (q.mapLabel .ofNumber) := by
  rw [named, List.getElem?_map, h]
  rfl

theorem label_of_named {l : Label} (h : (named qs)[k]? = some (.label l)) : qs[k]? = some (.label l.number) := by
  rw [← map_number_named qs, List.getElem?_map, h]
  rfl

theorem branch_of_named {b : Branch} {l : Label} (h : .branch b l ∈ named qs) : .branch b l.number ∈ qs := by
  rw [← map_number_named qs]
  exact List.mem_map_of_mem h

theorem label_mem_named {l : Label} (h : .label l.number ∈ qs) : .label l ∈ named qs := by
  have hmem : (Piece.label l.number).mapLabel Label.ofNumber ∈ named qs := List.mem_map_of_mem h
  rwa [Piece.mapLabel, Label.ofNumber_number] at hmem

/-- Assembling pieces with named labels is assembling the pieces. -/
theorem assemble_named (qs : List (Piece Op Branch Nat)) (marks : Array Nat) :
    assemble (named qs).toArray (marks.map .ofNumber) =
      (Assembler.empty.addAll qs.toArray).bind (·.assemble marks) := by
  have hmarks : (marks.map Label.ofNumber).map Label.number = marks := by simp [Function.comp_def]
  rw [assemble, List.map_toArray, map_number_named, hmarks]
  rfl

/-! ### Code that reads as pieces -/

/-- Where the piece at `k` starts if pieces of these sizes stand one after another. -/
def startOf (sizes : List Nat) (k : Nat) : Nat := (sizes.take k).sum

/-- Code that reads as pieces of these sizes, with each label at its place. -/
structure ReadsAs (qs : List (Piece Op Branch Nat)) (code : Array UInt8) (sizes : List Nat) (place : Nat → Nat) :
    Prop where
  length : sizes.length = qs.length
  size : sizes.sum = code.size
  /-- Nothing else stands in the code. -/
  whole : disassemble (readAt? code) 0 code.size = some (qs.filterMap (·.text? place))
  op {k : Nat} {o : Op} (h : qs[k]? = some (.op o)) :
    readAt? code (startOf sizes k) = some (.op o, startOf sizes (k + 1))
  branch {k : Nat} {b : Branch} {l : Nat} (h : qs[k]? = some (.branch b l)) :
    readAt? code (startOf sizes k) = some (.branch b (place l), startOf sizes (k + 1))
  /-- A branch is short only if its displacement fits a signed byte. -/
  branchSize {k : Nat} {b : Branch} {l : Nat} (h : qs[k]? = some (.branch b l)) :
    sizes[k]? = some b.longSize ∨ sizes[k]? = some Branch.shortSize ∧
      -128 ≤ (place l : Int) - startOf sizes (k + 1) ∧ (place l : Int) - startOf sizes (k + 1) ≤ 127
  label {k l : Nat} (h : qs[k]? = some (.label l)) : sizes[k]? = some 0 ∧ place l = startOf sizes k

/-- The sizes of the first `n` pieces, by where each of them starts. -/
def sizesOf (offset : Nat → Nat) (n : Nat) : List Nat := (List.range n).map fun k => offset (k + 1) - offset k

@[simp] theorem length_sizesOf (offset : Nat → Nat) (n : Nat) : (sizesOf offset n).length = n := by
  rw [sizesOf, List.length_map, List.length_range]

theorem getElem?_sizesOf {offset : Nat → Nat} {n : Nat} (h : k < n) :
    (sizesOf offset n)[k]? = some (offset (k + 1) - offset k) := by
  rw [sizesOf, List.getElem?_map, List.getElem?_range h]
  rfl

theorem startOf_sizesOf {offset : Nat → Nat} {n : Nat} (hzero : offset 0 = 0)
    (hle : ∀ k < n, offset k ≤ offset (k + 1)) (hk : k ≤ n) : startOf (sizesOf offset n) k = offset k := by
  induction k with
  | zero => exact hzero.symm
  | succ k ih =>
    have hlt : k < (sizesOf offset n).length := by rwa [length_sizesOf]
    have hget : (sizesOf offset n)[k] = offset (k + 1) - offset k := by
      rw [← Option.some.injEq, ← List.getElem?_eq_getElem, getElem?_sizesOf hk]
    have hstart : startOf (sizesOf offset n) (k + 1) = startOf (sizesOf offset n) k + (sizesOf offset n)[k] := by
      rw [startOf, startOf, List.take_succ_eq_append_getElem hlt, List.sum_append, List.sum_singleton]
    have := hle k hk
    rw [hstart, hget, ih (Nat.le_of_succ_le hk)]
    omega

/-- Pieces stand one behind the other. -/
theorem Assembled.le_succ {ps : List (Piece Op Branch Label)} {code : Array UInt8} {offset : Nat → Nat}
    (h : Assembled ps code offset) (hk : k < ps.length) : offset k ≤ offset (k + 1) := by
  have hget := List.getElem?_eq_getElem hk
  cases hq : ps[k] with
  | op o =>
    rw [hq] at hget
    have := (h.op hget).2.1
    omega
  | branch b l =>
    rw [hq] at hget
    obtain ⟨size, -, -, -, hnext, -⟩ := h.branch hget
    omega
  | label l =>
    rw [hq] at hget
    exact Nat.le_of_eq (h.label hget).symm

theorem Assembled.readsAs {code : Array UInt8} {offset place : Nat → Nat} (h : Assembled (named qs) code offset)
    (hplace : ∀ j l : Nat, qs[j]? = some (.label l) → place l = offset j)
    (hbranch : ∀ (b : Branch) (l : Nat), .branch b l ∈ qs → .label l ∈ qs) :
    ReadsAs qs code (sizesOf offset qs.length) place := by
  have hlength : (named qs).length = qs.length := List.length_map ..
  have hstart {k : Nat} (hk : k ≤ qs.length) : startOf (sizesOf offset qs.length) k = offset k :=
    startOf_sizesOf h.zero (fun j hj => h.le_succ (hlength ▸ hj)) hk
  have hlt {k : Nat} {q : Piece Op Branch Nat} (hq : qs[k]? = some q) : k < qs.length :=
    (List.getElem?_eq_some_iff.1 hq).1
  have hbound {k : Nat} {b : Branch} {l : Nat} (hk : qs[k]? = some (.branch b l)) :
      ∃ j : Nat, qs[j]? = some (.label l) :=
    List.mem_iff_getElem?.1 (hbranch b l (List.mem_of_getElem? hk))
  have hread := h.readable
  exact
    { length := length_sizesOf _ _
      size := by
        have hall : (sizesOf offset qs.length).take qs.length = sizesOf offset qs.length :=
          List.take_of_length_le (by rw [length_sizesOf])
        rw [← h.size, hlength, ← hstart (Nat.le_refl _), startOf, hall]
      whole := by
        have hwhole := hread.disassemble_take (fun j l hj => hplace j l.number (label_of_named hj))
          (fun b l hb => label_mem_named (hbranch b l.number (branch_of_named hb))) (Nat.le_refl _)
        rw [h.size, List.take_length] at hwhole
        rw [hwhole, named, List.filterMap_map]
        simp
      op := fun hk => by
        rw [hstart (Nat.le_of_lt (hlt hk)), hstart (hlt hk)]
        exact (hread.op (getElem?_named hk)).2
      branch := fun {k b l} hk => by
        obtain ⟨j, hj⟩ := hbound hk
        rw [hstart (Nat.le_of_lt (hlt hk)), hstart (hlt hk), hplace j l hj]
        exact (hread.branch (getElem?_named hk) (getElem?_named hj)).2
      branchSize := fun {k b l} hk => by
        obtain ⟨j, hj⟩ := hbound hk
        obtain ⟨size, displacement, hsize, hholds, hnext, -, htarget⟩ := h.branch (getElem?_named hk)
        rw [getElem?_sizesOf (hlt hk), show offset (k + 1) - offset k = size by omega, hstart (hlt hk), hplace j l hj,
          ← htarget j (getElem?_named hj)]
        rcases hsize with rfl | rfl
        · right
          rw [Branch.holds, if_pos rfl, fitsByte_iff] at hholds
          exact ⟨rfl, hholds⟩
        · exact .inl rfl
      label := fun {k l} hk => by
        rw [getElem?_sizesOf (hlt hk), hstart (Nat.le_of_lt (hlt hk)), h.label (getElem?_named hk), Nat.sub_self]
        exact ⟨rfl, hplace k l hk⟩ }

/-- Pieces that are accepted are read back, and marks are places of labels. -/
theorem readsAs_of_addAll {a : Assembler} {marks : Array Nat} {r : Routine}
    (hbranch : ∀ (b : Branch) (l : Nat), .branch b l ∈ qs → .label l ∈ qs)
    (ha : Assembler.empty.addAll qs.toArray = .ok a) (hr : a.assemble marks = .ok r) :
    ∃ sizes place, ReadsAs qs r.code sizes place ∧ (∀ l ∈ marks, .label l ∈ qs) ∧ r.offsets = marks.map place := by
  have hassemble : assemble (named qs).toArray (marks.map .ofNumber) = .ok r := by
    rw [assemble_named, ha]
    exact hr
  obtain ⟨offset, hassembled, hsize, hmarks⟩ := assembled_of_assemble hassemble
  obtain ⟨hpieces, hbound⟩ := Assembler.addAll_ok Assembler.empty_bound ha
  -- the assembler binds a label once, so that its place is that of its piece
  let place (l : Nat) : Nat := offset (a.bound[l]?.getD 0)
  have hplace (j l : Nat) (hj : qs[j]? = some (.label l)) : place l = offset j := by
    have hpiece : a.pieces[j]? = some (.label l) := by
      rw [← Array.getElem?_toList, hpieces]
      simpa [Assembler.empty] using hj
    simp only [place]
    rw [(hbound l j).2 hpiece, Option.getD_some]
  have hmark (i l : Nat) (hi : marks[i]? = some l) : .label l ∈ qs ∧ r.offsets[i]? = some (place l) := by
    obtain ⟨k, hk, hoffset⟩ := hmarks i (.ofNumber l) (by rw [Array.getElem?_map, hi]; rfl)
    have hlabel := label_of_named hk
    rw [Label.number_ofNumber] at hlabel
    exact ⟨List.mem_of_getElem? hlabel, by rw [hoffset, hplace k l hlabel]⟩
  refine ⟨_, place, hassembled.readsAs hplace hbranch, fun l hl => ?_, ?_⟩
  · obtain ⟨i, hi⟩ := Array.mem_iff_getElem?.1 hl
    exact (hmark i l hi).1
  · refine Array.ext (by simpa using hsize) fun i hi hi' => ?_
    have hlt : i < marks.size := by simpa using hi'
    have hget := (hmark i marks[i] (Array.getElem?_eq_getElem hlt)).2
    rw [Array.getElem?_eq_getElem hi, Option.some.injEq] at hget
    rw [hget, Array.getElem_map]

/-- Pieces are accepted that have an encoding, and labels that are bound once where they are mentioned. -/
theorem exists_of_pieces {marks : Array Nat} (hop : ∀ o : Op, .op o ∈ qs → o.refusal? = none)
    (hunique : ∀ j k l : Nat, qs[j]? = some (.label l) → qs[k]? = some (.label l) → j = k)
    (hbranch : ∀ (b : Branch) (l : Nat), .branch b l ∈ qs → .label l ∈ qs) (hmarks : ∀ l ∈ marks, .label l ∈ qs)
    (hsize : Assembler.maxPiece * qs.length < 2 ^ 31) :
    ∃ a r, Assembler.empty.addAll qs.toArray = .ok a ∧ a.assemble marks = .ok r := by
  have hlabel {l : Label} (h : .label l.number ∈ qs) : ∃ j : Nat, (named qs)[j]? = some (.label l) :=
    List.mem_iff_getElem?.1 (label_mem_named h)
  obtain ⟨r, hr, -⟩ := exists_assemble (marks.map Label.ofNumber)
    (fun k o hk => hop o (by rw [← map_number_named qs]; exact List.mem_map_of_mem (List.mem_of_getElem? hk)))
    (fun j k l hj hk => hunique j k l.number (label_of_named hj) (label_of_named hk))
    (fun k b l hk => hlabel (hbranch b l.number (branch_of_named (List.mem_of_getElem? hk))))
    (fun l hl => by
      obtain ⟨n, hn, rfl⟩ := Array.mem_map.1 hl
      exact hlabel (by rw [Label.number_ofNumber]; exact hmarks n hn))
    (by rwa [named, List.length_map])
  rw [assemble_named] at hr
  cases ha : Assembler.empty.addAll qs.toArray with
  | error e => rw [ha] at hr; cases hr
  | ok a => exact ⟨a, r, rfl, by rwa [ha] at hr⟩

/-! ### Requests -/

/-- The instructions that a request asks for, as they have to be read. A signed word that is the extension of 32 bits is
added as an immediate, any other through the scratch register; calls and frames are as the System V convention has
them, the mask clearing the low four bits of the stack pointer. -/
def Request.asks : Request → List (Piece Op Branch Nat)
  | bind l => [.label l]
  | op o => [.op o]
  | branch b target => [.branch b target]
  | addWord dst imm scratch =>
    if -2 ^ 31 ≤ imm.toInt ∧ imm.toInt < 2 ^ 31 then [.op (.addImm dst (Int32.ofInt imm.toInt))]
    else [.op (.movImm scratch imm.toUInt64), .op (.add dst scratch)]
  | increment base disp scratch =>
    [.op (.load64 scratch base disp), .op (.addImm scratch 1), .op (.store64 base disp scratch)]
  | openCall => [.op (.push .rbp), .op (.mov .rbp .rsp), .op (.andImm .rsp (-16))]
  | closeCall => [.op (.mov .rsp .rbp), .op (.pop .rbp)]
  | callAddress target => [.op (.movImm .rax target), .op (.call .rax)]
  | prologue => [.op (.push .rbp), .op (.mov .rbp .rsp)]
  | epilogue => [.op (.mov .rsp .rbp), .op (.pop .rbp), .op .ret]

/-- An immediate survives the way through 32 bits if it is in their range. -/
theorem toInt64_toInt32_eq_iff (imm : Int64) : imm.toInt32.toInt64 = imm ↔ -2 ^ 31 ≤ imm.toInt ∧ imm.toInt < 2 ^ 31 := by
  rw [← Int64.toInt_inj, Int32.toInt_toInt64, Int64.toInt_toInt32]
  constructor
  · intro h
    rw [← h]
    exact ⟨Int.le_bmod (by decide), Int.bmod_lt (by decide)⟩
  · rintro ⟨hle, hlt⟩
    exact Int.bmod_eq_of_le (by omega) (by omega)

theorem addOps_eq (a : Assembler) (os : List Op) : a.addOps os = a.addAll (os.map .op).toArray := by
  rw [Assembler.addOps, Assembler.addAll, List.foldlM_toArray, List.foldlM_map]

theorem add_eq_addAll (a : Assembler) (q : Piece Op Branch Nat) : a.add q = a.addAll #[q] := by
  rw [Assembler.addAll, List.foldlM_toArray, List.foldlM_cons]
  cases a.add q <;> rfl

/-- The assembler appends what it is asked for. -/
theorem request_eq (a : Assembler) (r : Request) : a.request r = a.addAll r.asks.toArray := by
  cases r with
  | bind l => exact add_eq_addAll a (.label l)
  | op o => exact add_eq_addAll a (.op o)
  | branch b target => exact add_eq_addAll a (.branch b target)
  | addWord dst imm scratch =>
    rw [Assembler.request, addOps_eq, Op.addWord, Request.asks, Int32.ofInt_int64ToInt]
    by_cases h : imm.toInt32.toInt64 = imm
    · rw [if_pos h, if_pos ((toInt64_toInt32_eq_iff imm).1 h)]
      rfl
    · rw [if_neg h, if_neg (mt (toInt64_toInt32_eq_iff imm).2 h)]
      rfl
  | _ => exact addOps_eq a _

theorem requestAll_eq (a : Assembler) (rs : List Request) :
    a.requestAll rs = a.addAll (rs.flatMap Request.asks).toArray := by
  induction rs generalizing a with
  | nil => rfl
  | cons r rs ih =>
    rw [Assembler.requestAll, List.foldlM_cons, List.flatMap_cons, ← List.append_toArray, Assembler.addAll,
      Array.foldlM_append, request_eq]
    exact bind_congr fun a' => ih a'

theorem label_mem_asks {r : Request} {l : Nat} : .label l ∈ r.asks ↔ r = .bind l := by
  cases r with
  | addWord dst imm scratch =>
    rw [Request.asks]
    split <;> simp
  | _ => simp [Request.asks, eq_comm]

theorem branch_mem_asks {r : Request} {b : Branch} {l : Nat} : .branch b l ∈ r.asks ↔ r = .branch b l := by
  cases r with
  | addWord dst imm scratch =>
    rw [Request.asks]
    split <;> simp
  | _ => simp [Request.asks, eq_comm]

theorem label_mem_flatMap {rs : List Request} {l : Nat} : .label l ∈ rs.flatMap Request.asks ↔ .bind l ∈ rs := by
  simp only [List.mem_flatMap, label_mem_asks, exists_eq_right]

theorem label_of_branch_mem {rs : List Request} (h : ∀ (b : Branch) (l : Nat), .branch b l ∈ rs → .bind l ∈ rs)
    (b : Branch) (l : Nat) (hb : .branch b l ∈ rs.flatMap Request.asks) : .label l ∈ rs.flatMap Request.asks := by
  simp only [List.mem_flatMap, branch_mem_asks, exists_eq_right] at hb
  exact label_mem_flatMap.2 (h b l hb)

/-- Accepted requests are read back from the code, in their order and with all that they carry. A branch goes to the
place of its label, and the offset of a mark is what the sizes of the pieces in front of its label add up to. -/
theorem requests_read_back {rs : List Request} {marks : Array Nat} {a : Assembler} {r : Routine}
    (hbranch : ∀ (b : Branch) (l : Nat), .branch b l ∈ rs → .bind l ∈ rs)
    (ha : Assembler.empty.requestAll rs = .ok a) (hr : a.assemble marks = .ok r) :
    ∃ sizes place, ReadsAs (rs.flatMap Request.asks) r.code sizes place ∧ (∀ l ∈ marks, .bind l ∈ rs) ∧
      r.offsets = marks.map place := by
  rw [requestAll_eq] at ha
  obtain ⟨sizes, place, hreads, hmarks, hoffsets⟩ := readsAs_of_addAll (label_of_branch_mem hbranch) ha hr
  exact ⟨sizes, place, hreads, fun l hl => label_mem_flatMap.1 (hmarks l hl), hoffsets⟩

/-- A wide addition, high bytes, a frame, branches both ways, and two labels at one place. -/
theorem requests_read_back_wide :
    let rs : List Request := [.bind 0, .addWord .rsp 0x123456789 .r13, .op (.load8 .ah .rbx .rsi), .branch .above 1,
      .op (.movImm8 .bh 7), .branch .always 0, .bind 1, .bind 2, .openCall, .epilogue]
    ∃ a r sizes place, Assembler.empty.requestAll rs = .ok a ∧ a.assemble #[1, 2, 0] = .ok r ∧
      ReadsAs [.label 0, .op (.movImm .r13 0x123456789), .op (.add .rsp .r13), .op (.load8 .ah .rbx .rsi),
        .branch .above 1, .op (.movImm8 .bh 7), .branch .always 0, .label 1, .label 2, .op (.push .rbp),
        .op (.mov .rbp .rsp), .op (.andImm .rsp (-16)), .op (.mov .rsp .rbp), .op (.pop .rbp), .op .ret] r.code sizes
        place ∧
      r.offsets = #[place 1, place 2, place 0] := by
  intro rs
  have hasks : rs.flatMap Request.asks = [.label 0, .op (.movImm .r13 0x123456789), .op (.add .rsp .r13),
      .op (.load8 .ah .rbx .rsi), .branch .above 1, .op (.movImm8 .bh 7), .branch .always 0, .label 1, .label 2,
      .op (.push .rbp), .op (.mov .rbp .rsp), .op (.andImm .rsp (-16)), .op (.mov .rsp .rbp), .op (.pop .rbp),
      .op .ret] := by
    decide
  have hbranch (b : Branch) (l : Nat) (hb : .branch b l ∈ rs) : .bind l ∈ rs := by
    simp only [rs, List.mem_cons, Request.branch.injEq, reduceCtorEq, List.not_mem_nil, or_false, false_or] at hb
    rcases hb with ⟨-, rfl⟩ | ⟨-, rfl⟩ <;> simp [rs]
  have hlabels := label_of_branch_mem hbranch
  obtain ⟨a, r, ha, hr⟩ : ∃ a r, Assembler.empty.addAll (rs.flatMap Request.asks).toArray = .ok a ∧
      a.assemble #[1, 2, 0] = .ok r := by
    rw [hasks] at hlabels ⊢
    refine exists_of_pieces (fun o ho => ?_) (fun j k l hj hk => ?_) hlabels (by simp) (by decide)
    · simp only [List.mem_cons, Piece.op.injEq, reduceCtorEq, List.not_mem_nil, or_false, false_or] at ho
      rcases ho with rfl | rfl | rfl | rfl | rfl | rfl | rfl | rfl | rfl | rfl <;> rfl
    · exact (List.getElem?_inj (List.getElem?_eq_some_iff.1 hj).1 (by decide)).1 (hj.trans hk.symm)
  rw [← requestAll_eq] at ha
  obtain ⟨sizes, place, hreads, -, hoffsets⟩ := requests_read_back hbranch ha hr
  rw [hasks] at hreads
  exact ⟨a, r, sizes, place, ha, hr, hreads, by simpa using hoffsets⟩

end X86

end TapeLang
