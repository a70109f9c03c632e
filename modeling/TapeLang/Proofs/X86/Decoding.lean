import TapeLang.X86.Decoding
import TapeLang.X86.Encoding

/-!
# Decoding what was encoded

Every instruction that has an encoding is read back from it, whatever follows. The parts of an
encoding come first, each with the reader that takes it apart: prefix bytes, operand bytes,
immediates and displacements.
-/

namespace TapeLang.X86

/-! ### Prefix and operand bytes -/

theorem Reg.low_lt (r : Reg) : r.low < 8 := Nat.mod_lt _ (by decide)

theorem Reg.high_lt (r : Reg) : r.high < 2 := by
  have := r.index.isLt
  simp only [high]
  omega

@[simp] theorem regOf_high_low (r : Reg) : regOf r.high r.low = r := by
  cases r <;> rfl

theorem toNat_rexByte {w r x b : Nat} (hw : w < 2) (hr : r < 2) (hx : x < 2) (hb : b < 2) :
    (rexByte w r x b).toNat = 0x40 + 8 * w + 4 * r + 2 * x + b := by
  rw [rexByte, UInt8.toNat_ofNat']
  omega

theorem rex_rexByte {w r x b : Nat} (hw : w < 2) (hr : r < 2) (hx : x < 2) (hb : b < 2) :
    Rex.ofByte? (rexByte w r x b) = some ⟨true, w = 1, r, x, b⟩ := by
  have h := toNat_rexByte hw hr hx hb
  rw [Rex.ofByte?, h, if_pos (by omega)]
  congr 2
  · rw [decide_eq_decide]
    omega
  · omega
  · omega
  · omega

theorem splitModRM_modRM {mode reg rm : Nat} (hm : mode < 4) (hr : reg < 8) (hrm : rm < 8) :
    splitModRM (modRM mode reg rm) = (mode, reg, rm) := by
  have h : (modRM mode reg rm).toNat = 64 * mode + 8 * reg + rm := by
    rw [modRM, UInt8.toNat_ofNat']
    omega
  rw [splitModRM, h]
  congr 1
  · omega
  · congr 1 <;> omega

theorem splitModRM_scaled {index base : Nat} (hi : index < 8) (hb : base < 8) :
    splitModRM (UInt8.ofNat (8 * index + base)) = (0, index, base) := by
  have := splitModRM_modRM (show 0 < 4 by decide) hi hb
  rwa [modRM, show 64 * 0 + 8 * index + base = 8 * index + base by omega] at this

/-- No branch starts like a prefix byte. -/
theorem decodeBranch_of_rex {b : UInt8} {rex : Rex} (h : Rex.ofByte? b = some rex) (rest : List UInt8) :
    decodeBranch (b :: rest) = none := by
  have hne {c : UInt8} (hc : Rex.ofByte? c = none) : b ≠ c := by
    rintro rfl
    rw [hc] at h
    cases h
  have h₁ := hne (c := 0xEB) rfl
  have h₂ := hne (c := 0x74) rfl
  have h₃ := hne (c := 0x77) rfl
  have h₄ := hne (c := 0xE9) rfl
  have h₅ := hne (c := 0x0F) rfl
  unfold decodeBranch
  split <;> simp_all

/-- An instruction behind a prefix byte. -/
theorem decode_rexByte {w r x b : Nat} (hw : w < 2) (hr : r < 2) (hx : x < 2) (hb : b < 2)
    (opcode : UInt8) (rest : List UInt8) :
    decode (rexByte w r x b :: opcode :: rest) =
      (if w = 1 then decodeWide ⟨true, true, r, x, b⟩ opcode rest
        else decodeNarrow ⟨true, false, r, x, b⟩ opcode rest).map fun (o, rest) => (.op o, rest) := by
  have h := rex_rexByte hw hr hx hb
  rw [decode, decodeBranch_of_rex h, decodeOp, h]
  by_cases hw : w = 1 <;> simp [hw]

/-- An instruction behind a prefix byte that may be missing. -/
theorem decode_rexIf {forced : Bool} {r x b : Nat} (hr : r < 2) (hx : x < 2) (hb : b < 2) {opcode : UInt8}
    {rest : List UInt8} (ho : Rex.ofByte? opcode = none) (hn : decodeBranch (opcode :: rest) = none) :
    decode (rexIf forced r x b ++ opcode :: rest) =
      (decodeNarrow ⟨forced || r + x + b ≠ 0, false, r, x, b⟩ opcode rest).map
        fun (o, rest) => (.op o, rest) := by
  rw [rexIf]
  split
  · rename_i h
    rw [List.singleton_append, decode_rexByte (by decide) hr hx hb, h, if_neg (by decide)]
  · rename_i h
    obtain ⟨rfl, hsum⟩ : forced = false ∧ r + x + b = 0 := by
      rw [Bool.or_eq_true, not_or, decide_eq_true_eq] at h
      exact ⟨by simpa using h.1, by omega⟩
    obtain ⟨rfl, rfl, rfl⟩ : r = 0 ∧ x = 0 ∧ b = 0 := by omega
    rw [List.nil_append, decode, hn, decodeOp, ho]
    rfl

/-! ### Immediates and displacements -/

theorem takeNat_littleEndian {width n : Nat} (h : n < 256 ^ width) (rest : List UInt8) :
    takeNat? width (littleEndian width n ++ rest) = some (n, rest) := by
  have hlen := length_littleEndian width n
  rw [takeNat?, if_pos (by simp), List.take_left' hlen, List.drop_left' hlen,
    ofLittleEndian_littleEndian, Nat.mod_eq_of_lt h]

theorem takeImm_immBytes (imm : Int32) (rest : List UInt8) :
    takeImm? (immBytes imm ++ rest) = some (imm, rest) := by
  have h : imm.toUInt32.toNat < 256 ^ 4 := imm.toUInt32.toNat_lt
  rw [takeImm?, immBytes, takeNat_littleEndian h, Option.map_some]
  show some ((UInt32.ofNat imm.toUInt32.toNat).toInt32, rest) = some (imm, rest)
  rw [UInt32.ofNat_toNat, Int32.toInt32_toUInt32]

theorem toInt_toInt8 (b : UInt8) : b.toInt8.toInt = (b.toNat : Int).bmod 256 :=
  BitVec.toInt_eq_toNat_bmod _

theorem toNat_toUInt32 (imm : Int32) : (imm.toUInt32.toNat : Int) = imm.toInt % 2 ^ 32 := by
  have h : imm.toInt = (imm.toUInt32.toNat : Int).bmod (2 ^ 32) := BitVec.toInt_eq_toNat_bmod _
  have hlt := imm.toUInt32.toNat_lt
  rw [h, Int.bmod_def]
  split <;> omega

theorem bmod_of_fitsByte {n : Int} (h : fitsByte n = true) : (n % 256).bmod 256 = n := by
  simp only [fitsByte, Bool.and_eq_true, decide_eq_true_eq] at h
  show (n % ((256 : Nat) : Int)).bmod 256 = n
  rw [Int.emod_bmod]
  exact Int.bmod_eq_of_le (by omega) (by omega)

theorem takeByte_ofNat {n : Int} (h : fitsByte n = true) (rest : List UInt8) :
    takeByte? (UInt8.ofNat (n % 2 ^ 8).toNat :: rest) = some (Int32.ofInt n, rest) := by
  have hnat : ((UInt8.ofNat (n % 2 ^ 8).toNat).toNat : Int) = n % 256 := by
    rw [UInt8.toNat_ofNat']
    omega
  rw [takeByte?, toInt_toInt8, hnat, bmod_of_fitsByte h]

theorem takeByte_immByte {imm : Int32} (h : fitsByte imm.toInt = true) (rest : List UInt8) :
    takeByte? (immByte imm :: rest) = some (imm, rest) := by
  have hnat : ((immByte imm).toNat : Int) = imm.toInt % 256 := by
    have hword := toNat_toUInt32 imm
    rw [immByte, UInt32.toNat_toUInt8]
    omega
  rw [takeByte?, toInt_toInt8, hnat, bmod_of_fitsByte h, Int32.ofInt_toInt]

/-! ### Operands -/

theorem takeRegs_modRM (present wide : Bool) (reg rm : Reg) (index : Nat) (rest : List UInt8) :
    takeRegs? ⟨present, wide, reg.high, index, rm.high⟩ (modRM 3 reg.low rm.low :: rest) =
      some (reg, rm, rest) := by
  simp [takeRegs?, splitModRM_modRM (show 3 < 4 by decide) reg.low_lt rm.low_lt]

theorem takeExtension_modRM (present wide : Bool) {extension : Nat} (he : extension < 8) (rm : Reg)
    (reg index : Nat) (rest : List UInt8) :
    takeExtension? ⟨present, wide, reg, index, rm.high⟩ (modRM 3 extension rm.low :: rest) =
      some (extension, rm, rest) := by
  simp [takeExtension?, splitModRM_modRM (show 3 < 4 by decide) he rm.low_lt]

theorem takeIndexed_indexedOperand (present wide : Bool) (reg base : Reg) {index : Reg} (h : index ≠ .rsp)
    (rest : List UInt8) :
    takeIndexed? ⟨present, wide, reg.high, index.high, base.high⟩ (indexedOperand reg.low base index ++ rest) =
      some (reg, base, index, rest) := by
  rw [indexedOperand]
  by_cases hb : base.low = 5
  · rw [if_pos hb]
    simp [-UInt8.ofNat_add, takeIndexed?, splitModRM_modRM (show 1 < 4 by decide) reg.low_lt (show 4 < 8 by decide),
      splitModRM_scaled index.low_lt base.low_lt, h]
  · rw [if_neg hb]
    simp [-UInt8.ofNat_add, takeIndexed?, splitModRM_modRM (show 0 < 4 by decide) reg.low_lt (show 4 < 8 by decide),
      splitModRM_scaled index.low_lt base.low_lt, h, hb]

theorem takeDisplaced_modRM (present wide : Bool) (reg base : Reg) (index : Nat) {mode : Nat} (hm : mode < 4)
    (hne : ¬ (mode = 0 ∧ base.low = 5)) {bytes rest : List UInt8} {disp : Int32}
    (hd : takeDisplacement? mode bytes = some (disp, rest)) :
    takeDisplaced? ⟨present, wide, reg.high, index, base.high⟩
        (modRM mode reg.low base.low :: ((if base.low = 4 then [0x24] else []) ++ bytes)) =
      some (reg, base, disp, rest) := by
  have hsplit := splitModRM_modRM hm reg.low_lt base.low_lt
  by_cases hb : base.low = 4
  · rw [if_pos hb]
    simp only [takeDisplaced?, hsplit, if_pos hb, List.singleton_append, Option.bind_eq_bind,
      Option.bind_some, if_neg hne, hd, regOf_high_low, pure]
  · rw [if_neg hb]
    simp only [takeDisplaced?, hsplit, if_neg hb, List.nil_append, Option.bind_eq_bind,
      Option.bind_some, if_neg hne, hd, regOf_high_low, pure]

theorem takeDisplaced_displacedOperand (present wide : Bool) (reg base : Reg) (disp : Int32) (index : Nat)
    (rest : List UInt8) :
    takeDisplaced? ⟨present, wide, reg.high, index, base.high⟩ (displacedOperand reg.low base disp ++ rest) =
      some (reg, base, disp, rest) := by
  rw [displacedOperand]
  by_cases hzero : disp = 0 ∧ base.low ≠ 5
  · rw [if_pos hzero, List.cons_append]
    refine takeDisplaced_modRM present wide reg base index (show 0 < 4 by decide) (fun h => hzero.2 h.2) ?_
    rw [hzero.1, takeDisplacement?]
  · rw [if_neg hzero]
    by_cases hbyte : fitsByte disp.toInt = true
    · rw [if_pos hbyte, List.cons_append, List.cons_append, List.append_assoc]
      refine takeDisplaced_modRM present wide reg base index (show 1 < 4 by decide) (by simp) ?_
      exact takeByte_immByte hbyte rest
    · rw [if_neg hbyte, List.cons_append, List.cons_append, List.append_assoc]
      refine takeDisplaced_modRM present wide reg base index (show 2 < 4 by decide) (by simp) ?_
      exact takeImm_immBytes disp rest

theorem takeRegs_of_mode {mode : Nat} (hm : mode < 3) (reg base : Reg) (rex : Rex) (bytes : List UInt8) :
    takeRegs? rex (modRM mode reg.low base.low :: bytes) = none := by
  have hsplit := splitModRM_modRM (show mode < 4 by omega) reg.low_lt base.low_lt
  rw [takeRegs?, hsplit]
  exact if_neg (by omega)

/-- An operand in memory is not read as two registers. -/
theorem takeRegs_indexedOperand (rex : Rex) (reg base index : Reg) (rest : List UInt8) :
    takeRegs? rex (indexedOperand reg.low base index ++ rest) = none := by
  rw [indexedOperand]
  by_cases hb : base.low = 5
  · rw [if_pos hb]
    exact takeRegs_of_mode (show 1 < 3 by decide) reg .rsp rex _
  · rw [if_neg hb]
    exact takeRegs_of_mode (show 0 < 3 by decide) reg .rsp rex _

theorem takeRegs_displacedOperand (rex : Rex) (reg base : Reg) (disp : Int32) (rest : List UInt8) :
    takeRegs? rex (displacedOperand reg.low base disp ++ rest) = none := by
  rw [displacedOperand]
  by_cases hzero : disp = 0 ∧ base.low ≠ 5
  · rw [if_pos hzero]
    exact takeRegs_of_mode (show 0 < 3 by decide) reg base rex _
  · rw [if_neg hzero]
    by_cases hbyte : fitsByte disp.toInt = true
    · rw [if_pos hbyte]
      exact takeRegs_of_mode (show 1 < 3 by decide) reg base rex _
    · rw [if_neg hbyte]
      exact takeRegs_of_mode (show 2 < 3 by decide) reg base rex _

/-! ### Instructions -/

theorem toNat_opcode {c : Nat} (hc : c ≤ 248) (r : Reg) : (UInt8.ofNat (c + r.low)).toNat = c + r.low := by
  have := r.low_lt
  rw [UInt8.toNat_ofNat']
  omega

/-- Opcodes that hold the low bits of a register are told apart by their range. -/
theorem opcode_range {c : Nat} (hc : c ≤ 248) (r : Reg) (lo hi : UInt8) :
    (lo ≤ UInt8.ofNat (c + r.low) ∧ UInt8.ofNat (c + r.low) < hi) ↔ (lo.toNat ≤ c + r.low ∧ c + r.low < hi.toNat) := by
  rw [UInt8.le_iff_toNat_le, UInt8.lt_iff_toNat_lt, toNat_opcode hc]

theorem ByteReg.high_code {b : ByteReg} (h : b.isHigh = true) : b.code.high = 0 := by
  cases b with
  | low r => cases h
  | _ => rfl

/-- A byte is read from its number where a prefix byte stands if it has to, and not if it must not. -/
theorem byteReg_code (b : ByteReg) {p : Bool} (h : b.isHigh = true → p = false) (wide : Bool) (r x y : Nat) :
    byteReg ⟨b.needsRex || p, wide, r, x, y⟩ b.code = b := by
  cases b with
  | low r => cases r <;> cases p <;> rfl
  | _ =>
    rw [h rfl]
    rfl

theorem decode_immediateGroup {accumulator : UInt8} {extension : Nat} {dst : Reg} {imm : Int32} {o : Op}
    (he : extension < 8) (hop : immediateOp? extension dst imm = some o) (rest : List UInt8)
    (hacc : dst = .rax → ∀ rex, decodeWide rex accumulator (immBytes imm ++ rest) = some (o, rest)) :
    decode (immediateGroup accumulator extension dst imm ++ rest) = some (.op o, rest) := by
  rw [immediateGroup]
  by_cases hrax : dst = .rax
  · rw [if_pos hrax, List.cons_append, List.cons_append,
      decode_rexByte (by decide) (by decide) (by decide) dst.high_lt, if_pos rfl, hacc hrax, Option.map_some]
  · rw [if_neg hrax, List.cons_append]
    by_cases hbyte : fitsByte imm.toInt = true
    · rw [if_pos hbyte]
      simp only [List.cons_append, List.nil_append]
      rw [decode_rexByte (by decide) (by decide) (by decide) dst.high_lt, if_pos rfl]
      simp [decodeWide, takeExtension_modRM true true he dst, takeByte_immByte hbyte, hop]
    · rw [if_neg hbyte]
      simp only [List.cons_append]
      rw [decode_rexByte (by decide) (by decide) (by decide) dst.high_lt, if_pos rfl]
      simp [decodeWide, takeExtension_modRM true true he dst, takeImm_immBytes, hop]

theorem decode_encode_wide {o : Op} {w r x b : Nat} (hw : w = 1) (hr : r < 2) (hx : x < 2) (hb : b < 2)
    {opcode : UInt8} {bytes rest : List UInt8}
    (h : decodeWide ⟨true, true, r, x, b⟩ opcode bytes = some (o, rest)) :
    decode (rexByte w r x b :: opcode :: bytes) = some (.op o, rest) := by
  rw [decode_rexByte (by omega) hr hx hb, if_pos hw, h, Option.map_some]

theorem decode_encode_narrow {o : Op} {forced : Bool} {r x b : Nat} (hr : r < 2) (hx : x < 2) (hb : b < 2)
    {opcode : UInt8} {bytes rest : List UInt8} (ho : Rex.ofByte? opcode = none)
    (hn : decodeBranch (opcode :: bytes) = none)
    (h : decodeNarrow ⟨forced || r + x + b ≠ 0, false, r, x, b⟩ opcode bytes = some (o, rest)) :
    decode (rexIf forced r x b ++ opcode :: bytes) = some (.op o, rest) := by
  rw [decode_rexIf hr hx hb ho hn, h, Option.map_some]

theorem decode_immediateGroup8 {accumulator : UInt8} {extension : Nat} {dst : ByteReg} {imm : UInt8} {o : Op}
    {rest : List UInt8} (he : extension < 8)
    (hacc : dst = .low .rax → decode (accumulator :: imm :: rest) = some (.op o, rest))
    (hop : ∀ rex, byteReg rex dst.code = dst →
      takeExtension? rex (modRM 3 extension dst.code.low :: imm :: rest) = some (extension, dst.code, imm :: rest) →
      decodeNarrow rex 0x80 (modRM 3 extension dst.code.low :: imm :: rest) = some (o, rest)) :
    decode (immediateGroup8 accumulator extension dst imm ++ rest) = some (.op o, rest) := by
  rw [immediateGroup8]
  by_cases hrax : dst = .low .rax
  · rw [if_pos hrax]
    exact hacc hrax
  · rw [if_neg hrax, List.append_assoc]
    refine decode_encode_narrow (by decide) (by decide) dst.code.high_lt (by decide) rfl ?_
    refine hop _ (byteReg_code dst (fun hhigh => ?_) false 0 0 _) (takeExtension_modRM _ false he dst.code 0 0 _)
    simp [ByteReg.high_code hhigh]

theorem Op.refusal_eq_none_iff {o : Op} : o.refusal? = none ↔ o.stackIndexed? = none ∧ o.mixesHighByte = false := by
  rw [refusal?]
  cases o.stackIndexed? with
  | some operand => simp
  | none => simp

/-- The prefix bits of a memory operand of an instruction that is not refused. -/
theorem prefix_eq_false {b : ByteReg} {base index : Reg} (h : (b.isHigh && base.high + index.high ≠ 0) = false)
    (hhigh : b.isHigh = true) : decide (b.code.high + index.high + base.high ≠ 0) = false := by
  rw [hhigh, Bool.true_and, decide_eq_false_iff_not, Decidable.not_not] at h
  rw [ByteReg.high_code hhigh, decide_eq_false_iff_not]
  omega

/-- An instruction that is no branch and has an encoding is read back from it. -/
theorem decode_encode (o : Op) (h : o.refusal? = none) (rest : List UInt8) :
    decode (o.encode ++ rest) = some (.op o, rest) := by
  obtain ⟨hstack, hmixes⟩ := Op.refusal_eq_none_iff.1 h
  cases o with
  | mov dst src =>
    refine decode_encode_wide rfl src.high_lt (by decide) dst.high_lt ?_
    simp [decodeWide, takeRegs_modRM]
  | add dst src =>
    refine decode_encode_wide rfl src.high_lt (by decide) dst.high_lt ?_
    simp [decodeWide, takeRegs_modRM]
  | movImm dst imm =>
    rw [Op.encode, List.cons_append, List.cons_append]
    refine decode_encode_wide rfl (by decide) (by decide) dst.high_lt ?_
    have hrange := opcode_range (show 0xB8 ≤ 248 by decide) dst 0xB8 0xC0
    have := dst.low_lt
    rw [decodeWide, if_pos (hrange.2 ⟨by show 0xB8 ≤ _; omega, by show _ < 0xC0; omega⟩)]
    have himm : imm.toNat < 256 ^ 8 := imm.toNat_lt
    have hreg : regOf dst.high ((UInt8.ofNat (0xB8 + dst.low)).toNat - 0xB8) = dst := by
      rw [toNat_opcode (by decide), Nat.add_sub_cancel_left, regOf_high_low]
    rw [takeNat_littleEndian himm]
    show some (Op.movImm (regOf dst.high _) (UInt64.ofNat imm.toNat), rest) = _
    rw [hreg, UInt64.ofNat_toNat]
  | load8 dst base index =>
    have hindex : index ≠ .rsp := by
      rintro rfl
      cases hstack
    rw [Op.encode, List.append_assoc]
    refine decode_encode_narrow dst.code.high_lt index.high_lt base.high_lt (by decide) rfl ?_
    have hbyte := byteReg_code dst (prefix_eq_false hmixes) false dst.code.high index.high base.high
    simpa [decodeNarrow, takeIndexed_indexedOperand _ _ dst.code base hindex] using hbyte
  | loadZero8 dst base index =>
    have hindex : index ≠ .rsp := by
      rintro rfl
      cases hstack
    rw [Op.encode, List.append_assoc]
    refine decode_encode_narrow dst.high_lt index.high_lt base.high_lt (by decide) rfl ?_
    simp [decodeNarrow, takeRegs_indexedOperand, takeIndexed_indexedOperand _ _ dst base hindex]
  | store8 base index src =>
    have hindex : index ≠ .rsp := by
      rintro rfl
      cases hstack
    rw [Op.encode, List.append_assoc]
    refine decode_encode_narrow src.code.high_lt index.high_lt base.high_lt (by decide) rfl ?_
    have hbyte := byteReg_code src (prefix_eq_false hmixes) false src.code.high index.high base.high
    simpa [decodeNarrow, takeIndexed_indexedOperand _ _ src.code base hindex] using hbyte
  | zeroExtend8 dst src =>
    rw [Op.encode, List.append_assoc]
    refine decode_encode_narrow dst.high_lt (by decide) src.code.high_lt (by decide) rfl ?_
    have hbyte := byteReg_code src (p := decide (dst.high + 0 + src.code.high ≠ 0)) (fun hhigh => by
      simpa [Op.mixesHighByte, hhigh, ByteReg.high_code hhigh] using hmixes) false dst.high 0 src.code.high
    simpa [decodeNarrow, takeRegs_modRM] using hbyte
  | addImm8 dst imm =>
    refine decode_immediateGroup8 (by decide) (fun hdst => ?_) fun rex hreg hext => ?_
    · subst hdst
      rfl
    · simp [decodeNarrow, hext, hreg]
  | movImm8 dst imm =>
    cases dst with
    | low r => cases r <;> rfl
    | _ => rfl
  | cmpImm8 reg imm =>
    refine decode_immediateGroup8 (by decide) (fun hdst => ?_) fun rex hreg hext => ?_
    · subst hdst
      rfl
    · simp [decodeNarrow, hext, hreg]
  | xor32 dst src =>
    rw [Op.encode, List.append_assoc]
    refine decode_encode_narrow src.high_lt (by decide) dst.high_lt (by decide) rfl ?_
    simp [decodeNarrow, takeRegs_modRM]
  | andImm dst imm =>
    refine decode_immediateGroup (by decide) rfl rest fun hdst rex => ?_
    subst hdst
    simp [decodeWide, takeImm_immBytes]
  | addImm dst imm =>
    refine decode_immediateGroup (by decide) rfl rest fun hdst rex => ?_
    subst hdst
    simp [decodeWide, takeImm_immBytes]
  | cmpImm reg imm =>
    refine decode_immediateGroup (by decide) rfl rest fun hdst rex => ?_
    subst hdst
    simp [decodeWide, takeImm_immBytes]
  | load64 dst base disp =>
    refine decode_encode_wide rfl dst.high_lt (by decide) base.high_lt ?_
    simp [decodeWide, takeDisplaced_displacedOperand]
  | store64 base disp src =>
    refine decode_encode_wide rfl src.high_lt (by decide) base.high_lt ?_
    simp [decodeWide, takeRegs_displacedOperand, takeDisplaced_displacedOperand]
  | push reg =>
    cases reg <;> rfl
  | pop reg =>
    cases reg <;> rfl
  | call target =>
    rw [Op.encode, List.append_assoc]
    refine decode_encode_narrow (by decide) (by decide) target.high_lt (by decide) rfl ?_
    simp [decodeNarrow, takeExtension_modRM]
  | jump target =>
    rw [Op.encode, List.append_assoc]
    refine decode_encode_narrow (by decide) (by decide) target.high_lt (by decide) rfl ?_
    simp [decodeNarrow, takeExtension_modRM]
  | ret => rfl

theorem toInt_ofInt_of_fitsByte {d : Int} (h : fitsByte d = true) : (Int32.ofInt d).toInt = d := by
  simp only [fitsByte, Bool.and_eq_true, decide_eq_true_eq] at h
  exact Int32.toInt_ofInt_of_le (by omega) (by omega)

theorem takeImm_ofNat (d : Int) (rest : List UInt8) :
    takeImm? (littleEndian 4 (d % 2 ^ 32).toNat ++ rest) = some (Int32.ofInt d, rest) := by
  rw [takeImm?, takeNat_littleEndian (by omega), Option.map_some]
  show some ((UInt32.ofNat (d % 2 ^ 32).toNat).toInt32, rest) = some (Int32.ofInt d, rest)
  have hnat : (Int32.ofNat (d % 2 ^ 32).toNat) = Int32.ofInt d := by
    rw [← Int32.ofInt_eq_ofNat, Int.toNat_of_nonneg (by omega)]
    refine Int32.toInt_inj.1 ?_
    rw [Int32.toInt_ofInt, Int32.toInt_ofInt]
    exact Int.emod_bmod d (2 ^ 32)
  rw [UInt32.toInt32_ofNat', hnat]

/-- A branch is read back with its displacement, if it has room for it. -/
theorem decode_branch (b : Branch) {size : Nat} {d : Int} (hd : Branch.holds size d = true)
    (rest : List UInt8) : decode (b.encode size d ++ rest) = some (.branch b d, rest) := by
  rw [Branch.encode]
  rw [Branch.holds] at hd
  by_cases hshort : size = Branch.shortSize
  · rw [if_pos hshort] at hd ⊢
    have htake := takeByte_ofNat hd rest
    have hd := toInt_ofInt_of_fitsByte hd
    cases b <;>
      simp only [Branch.shortOpcode, List.cons_append, List.nil_append, decode, decodeBranch, htake,
        Option.map_some, hd]
  · rw [if_neg hshort] at hd ⊢
    simp only [Bool.and_eq_true, decide_eq_true_eq] at hd
    have htake := takeImm_ofNat d rest
    have hd : (Int32.ofInt d).toInt = d := Int32.toInt_ofInt_of_le hd.1 hd.2
    cases b <;>
      simp only [Branch.longOpcode, List.cons_append, List.nil_append, decode, decodeBranch, htake,
        Option.map_some, hd]

/-- Branches have the sizes that layout gives them. -/
theorem length_branch (b : Branch) {size : Nat} (hs : size = Branch.shortSize ∨ size = b.longSize) (d : Int) :
    (b.encode size d).length = size := by
  rw [Branch.encode]
  rcases hs with rfl | rfl
  · rfl
  · cases b <;> simp [Branch.longSize, Branch.shortSize, Branch.longOpcode]

theorem length_rexIf_le (forced : Bool) (r x b : Nat) : (rexIf forced r x b).length ≤ 1 := by
  rw [rexIf]
  split <;> simp

theorem length_indexedOperand_le (reg : Nat) (base index : Reg) :
    (indexedOperand reg base index).length ≤ 3 := by
  rw [indexedOperand]
  split <;> simp

theorem length_displacedOperand_le (reg : Nat) (base : Reg) (disp : Int32) :
    (displacedOperand reg base disp).length ≤ 6 := by
  simp only [displacedOperand, immBytes]
  split <;> split <;> (try split) <;> simp

theorem length_immediateGroup (accumulator : UInt8) (extension : Nat) (dst : Reg) (imm : Int32) :
    0 < (immediateGroup accumulator extension dst imm).length ∧
      (immediateGroup accumulator extension dst imm).length ≤ 10 := by
  simp only [immediateGroup, immBytes]
  split
  · simp
  · split <;> simp

/-- A prefix byte, which may be missing, is one byte more. -/
theorem length_rexIf_append (forced : Bool) (r x b : Nat) {bytes : List UInt8} (hpos : 0 < bytes.length)
    (hle : bytes.length ≤ 9) :
    0 < (rexIf forced r x b ++ bytes).length ∧ (rexIf forced r x b ++ bytes).length ≤ 10 := by
  have := length_rexIf_le forced r x b
  rw [List.length_append]
  omega

theorem length_immediateGroup8 (accumulator : UInt8) (extension : Nat) (dst : ByteReg) (imm : UInt8) :
    0 < (immediateGroup8 accumulator extension dst imm).length ∧
      (immediateGroup8 accumulator extension dst imm).length ≤ 10 := by
  rw [immediateGroup8]
  split
  · simp
  · exact length_rexIf_append _ _ _ _ (by simp) (by simp)

/-- No encoding is longer than that of a constant, nor is any empty. -/
theorem length_encode (o : Op) : 0 < o.encode.length ∧ o.encode.length ≤ 10 := by
  cases o with
  | mov dst src => simp [Op.encode]
  | add dst src => simp [Op.encode]
  | ret => simp [Op.encode]
  | movImm dst imm => simp [Op.encode]
  | load8 dst base index =>
    have := length_indexedOperand_le dst.code.low base index
    exact length_rexIf_append _ _ _ _ (Nat.succ_pos _) (by rw [List.length_cons]; omega)
  | loadZero8 dst base index =>
    have := length_indexedOperand_le dst.low base index
    exact length_rexIf_append _ _ _ _ (Nat.succ_pos _) (by rw [List.length_cons, List.length_cons]; omega)
  | store8 base index src =>
    have := length_indexedOperand_le src.code.low base index
    exact length_rexIf_append _ _ _ _ (Nat.succ_pos _) (by rw [List.length_cons]; omega)
  | zeroExtend8 dst src => exact length_rexIf_append _ _ _ _ (by simp) (by simp)
  | addImm8 dst imm => exact length_immediateGroup8 ..
  | movImm8 dst imm => exact length_rexIf_append _ _ _ _ (by simp) (by simp)
  | cmpImm8 reg imm => exact length_immediateGroup8 ..
  | xor32 dst src => exact length_rexIf_append _ _ _ _ (by simp) (by simp)
  | andImm dst imm => exact length_immediateGroup ..
  | addImm dst imm => exact length_immediateGroup ..
  | cmpImm reg imm => exact length_immediateGroup ..
  | load64 dst base disp =>
    have := length_displacedOperand_le dst.low base disp
    simp only [Op.encode, List.length_cons]
    omega
  | store64 base disp src =>
    have := length_displacedOperand_le src.low base disp
    simp only [Op.encode, List.length_cons]
    omega
  | push reg => exact length_rexIf_append _ _ _ _ (by simp) (by simp)
  | pop reg => exact length_rexIf_append _ _ _ _ (by simp) (by simp)
  | call target => exact length_rexIf_append _ _ _ _ (by simp) (by simp)
  | jump target => exact length_rexIf_append _ _ _ _ (by simp) (by simp)

end TapeLang.X86
