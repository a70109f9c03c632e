import TapeLang.A64.Decoding

/-!
# Decoding what was encoded

Every instruction is read back from its word. The shapes of words come first, each with its fields; a form
of that shape is then read back if its fields determine it (`read_pairWord` and its like).
-/

namespace TapeLang.A64

/-- The fields of a word, by the shape that it was made of. -/
structure Fields (word : Nat) (opcode : Nat) : Prop where
  lt : word < 2 ^ 32
  opcode : bits word 22 10 = opcode

theorem reg_ext {word low : Nat} {r : Reg} (h : word / 2 ^ low % 32 = r.val) : regAt word low = r := by
  apply Fin.ext
  rw [← h]
  rfl

section Shapes

variable {n : Nat} (hn : n < 2 ^ 10)
include hn

theorem fields_pairWord (a b base : Reg) (slots : BitVec 7) :
    Fields (Op.pairWord (n * 2 ^ 22) a b base slots) n ∧ regAt (Op.pairWord (n * 2 ^ 22) a b base slots) 0 = a ∧
      regAt (Op.pairWord (n * 2 ^ 22) a b base slots) 10 = b ∧
      regAt (Op.pairWord (n * 2 ^ 22) a b base slots) 5 = base ∧
      slotsOf (Op.pairWord (n * 2 ^ 22) a b base slots) = slots := by
  have ha := a.isLt
  have hb := b.isLt
  have hbase := base.isLt
  have hslots := slots.isLt
  have hw : Op.pairWord (n * 2 ^ 22) a b base slots =
      n * 4194304 + slots.toNat * 32768 + b.val * 1024 + base.val * 32 + a.val := by
    rw [Op.pairWord]
    omega
  rw [hw]
  refine ⟨⟨by omega, by rw [bits]; omega⟩, reg_ext (by omega), reg_ext (by omega), reg_ext (by omega), ?_⟩
  apply BitVec.eq_of_toNat_eq
  rw [slotsOf, BitVec.toNat_ofNat]
  omega

theorem fields_immWord (dst src : Reg) (imm : BitVec 12) :
    Fields (Op.immWord (n * 2 ^ 22) dst src imm) n ∧ regAt (Op.immWord (n * 2 ^ 22) dst src imm) 0 = dst ∧
      regAt (Op.immWord (n * 2 ^ 22) dst src imm) 5 = src ∧ immOf (Op.immWord (n * 2 ^ 22) dst src imm) = imm := by
  have hdst := dst.isLt
  have hsrc := src.isLt
  have himm := imm.isLt
  have hw : Op.immWord (n * 2 ^ 22) dst src imm = n * 4194304 + imm.toNat * 1024 + src.val * 32 + dst.val := by
    rw [Op.immWord]
    omega
  rw [hw]
  refine ⟨⟨by omega, by rw [bits]; omega⟩, reg_ext (by omega), reg_ext (by omega), ?_⟩
  apply BitVec.eq_of_toNat_eq
  rw [immOf, BitVec.toNat_ofNat]
  omega

theorem fields_regWord {bit high : Nat} (hbit : bit < 2) (hhigh : high < 64) (dst a b : Reg) :
    Fields (Op.regWord (n * 2 ^ 22 + bit * 2 ^ 21 + high * 2 ^ 10) dst a b) n ∧
      bits (Op.regWord (n * 2 ^ 22 + bit * 2 ^ 21 + high * 2 ^ 10) dst a b) 21 1 = bit ∧
      bits (Op.regWord (n * 2 ^ 22 + bit * 2 ^ 21 + high * 2 ^ 10) dst a b) 10 6 = high ∧
      regAt (Op.regWord (n * 2 ^ 22 + bit * 2 ^ 21 + high * 2 ^ 10) dst a b) 0 = dst ∧
      regAt (Op.regWord (n * 2 ^ 22 + bit * 2 ^ 21 + high * 2 ^ 10) dst a b) 5 = a ∧
      regAt (Op.regWord (n * 2 ^ 22 + bit * 2 ^ 21 + high * 2 ^ 10) dst a b) 16 = b := by
  have hdst := dst.isLt
  have ha := a.isLt
  have hb := b.isLt
  have hw : Op.regWord (n * 2 ^ 22 + bit * 2 ^ 21 + high * 2 ^ 10) dst a b =
      n * 4194304 + bit * 2097152 + high * 1024 + b.val * 65536 + a.val * 32 + dst.val := by
    rw [Op.regWord]
    omega
  rw [hw]
  exact ⟨⟨by omega, by rw [bits]; omega⟩, by rw [bits]; omega, by rw [bits]; omega, reg_ext (by omega),
    reg_ext (by omega), reg_ext (by omega)⟩

theorem fields_wideWord (hn' : n % 2 = 0) (dst : Reg) (imm : BitVec 16) (part : Fin 4) :
    Fields (Op.wideWord (n * 2 ^ 22) dst imm part) (n + part.val / 2) ∧
      bits (Op.wideWord (n * 2 ^ 22) dst imm part) 21 1 = part.val % 2 ∧
      regAt (Op.wideWord (n * 2 ^ 22) dst imm part) 0 = dst ∧
      wideOf (Op.wideWord (n * 2 ^ 22) dst imm part) = imm ∧
      Fin.ofNat 4 (Op.wideWord (n * 2 ^ 22) dst imm part / 2 ^ 21) = part := by
  have hdst := dst.isLt
  have himm := imm.isLt
  have hpart := part.isLt
  have hw : Op.wideWord (n * 2 ^ 22) dst imm part =
      n * 4194304 + part.val * 2097152 + imm.toNat * 32 + dst.val := by
    rw [Op.wideWord]
    omega
  rw [hw]
  refine ⟨⟨by omega, by rw [bits]; omega⟩, by rw [bits]; omega, reg_ext (by omega), ?_, ?_⟩
  · apply BitVec.eq_of_toNat_eq
    rw [wideOf, BitVec.toNat_ofNat]
    omega
  · apply Fin.ext
    show (n * 4194304 + part.val * 2097152 + imm.toNat * 32 + dst.val) / 2 ^ 21 % 4 = part.val
    omega

end Shapes

/-- No word of these opcodes is a branch. -/
theorem decode_of_fields {word n : Nat} {o : Op} (h : Fields word n) (hn : n / 16 ≠ 5 ∧ n / 4 ≠ 0x54)
    (ho : decodeOp word = some o) : decode word = some (.op o) := by
  have hopcode := h.opcode
  have h₁ : bits word 26 6 ≠ 5 := by
    rw [bits] at hopcode ⊢
    omega
  have h₂ : bits word 24 8 ≠ 0x54 := by
    rw [bits] at hopcode ⊢
    omega
  rw [decode, decodeBranch, if_neg h₁, if_neg h₂, ho]
  rfl

section Reading

variable {n : Nat} {o : Op} (hn : n < 2 ^ 10)
include hn

theorem read_pairWord (hform : n / 16 ≠ 5 ∧ n / 4 ≠ 0x54) {a b base : Reg} {slots : BitVec 7}
    (ho : ∀ word, bits word 22 10 = n → regAt word 0 = a → regAt word 10 = b → regAt word 5 = base →
      slotsOf word = slots → decodeOp word = some o) :
    decode (Op.pairWord (n * 2 ^ 22) a b base slots) = some (.op o) ∧
      Op.pairWord (n * 2 ^ 22) a b base slots < 2 ^ 32 := by
  obtain ⟨h, ha, hb, hbase, hslots⟩ := fields_pairWord hn a b base slots
  exact ⟨decode_of_fields h hform (ho _ h.opcode ha hb hbase hslots), h.lt⟩

theorem read_immWord (hform : n / 16 ≠ 5 ∧ n / 4 ≠ 0x54) (dst src : Reg) (imm : BitVec 12)
    (ho : ∀ word, bits word 22 10 = n → regAt word 0 = dst → regAt word 5 = src → immOf word = imm →
      decodeOp word = some o) :
    decode (Op.immWord (n * 2 ^ 22) dst src imm) = some (.op o) ∧ Op.immWord (n * 2 ^ 22) dst src imm < 2 ^ 32 := by
  obtain ⟨h, hdst, hsrc, himm⟩ := fields_immWord hn dst src imm
  exact ⟨decode_of_fields h hform (ho _ h.opcode hdst hsrc himm), h.lt⟩

theorem read_regWord (hform : n / 16 ≠ 5 ∧ n / 4 ≠ 0x54) (bit high : Nat) (hbit : bit < 2) (hhigh : high < 64)
    {dst a b : Reg}
    (ho : ∀ word, bits word 22 10 = n → bits word 21 1 = bit → bits word 10 6 = high → regAt word 0 = dst →
      regAt word 5 = a → regAt word 16 = b → decodeOp word = some o) :
    decode (Op.regWord (n * 2 ^ 22 + bit * 2 ^ 21 + high * 2 ^ 10) dst a b) = some (.op o) ∧
      Op.regWord (n * 2 ^ 22 + bit * 2 ^ 21 + high * 2 ^ 10) dst a b < 2 ^ 32 := by
  obtain ⟨h, hbit, hhigh, hdst, ha, hb⟩ := fields_regWord hn hbit hhigh dst a b
  exact ⟨decode_of_fields h hform (ho _ h.opcode hbit hhigh hdst ha hb), h.lt⟩

/-- The upper bit of the part counts as the lowest of the opcode. -/
theorem read_wideWord (hn' : n % 2 = 0) (dst : Reg) (imm : BitVec 16) (part : Fin 4)
    (hform : (n + part.val / 2) / 16 ≠ 5 ∧ (n + part.val / 2) / 4 ≠ 0x54)
    (ho : ∀ word, bits word 22 10 = n + part.val / 2 → bits word 21 1 = part.val % 2 → regAt word 0 = dst →
      wideOf word = imm → Fin.ofNat 4 (word / 2 ^ 21) = part → decodeOp word = some o) :
    decode (Op.wideWord (n * 2 ^ 22) dst imm part) = some (.op o) ∧
      Op.wideWord (n * 2 ^ 22) dst imm part < 2 ^ 32 := by
  obtain ⟨h, hbit, hdst, himm, hpart⟩ := fields_wideWord hn hn' dst imm part
  exact ⟨decode_of_fields h hform (ho _ h.opcode hbit hdst himm hpart), h.lt⟩

end Reading

/-- An instruction that is no branch is read back from its word. -/
theorem decode_word (o : Op) : decode o.word = some (.op o) ∧ o.word < 2 ^ 32 := by
  cases o with
  | storePairPre a b base slots =>
    exact read_pairWord (n := 0x2A6) (by decide) (by decide) fun w h ha hb hbase hslots => by
      simp only [decodeOp, h, ha, hb, hbase, hslots]
  | storePair a b base slots =>
    exact read_pairWord (n := 0x2A4) (by decide) (by decide) fun w h ha hb hbase hslots => by
      simp only [decodeOp, h, ha, hb, hbase, hslots]
  | loadPair a b base slots =>
    exact read_pairWord (n := 0x2A5) (by decide) (by decide) fun w h ha hb hbase hslots => by
      simp only [decodeOp, h, ha, hb, hbase, hslots]
  | loadPairPost a b base slots =>
    exact read_pairWord (n := 0x2A3) (by decide) (by decide) fun w h ha hb hbase hslots => by
      simp only [decodeOp, h, ha, hb, hbase, hslots]
  | addImm dst src imm =>
    exact read_immWord (n := 0x244) (by decide) (by decide) dst src imm fun w h hdst hsrc himm => by
      simp only [decodeOp, h, hdst, hsrc, himm]
  | subImm dst src imm =>
    exact read_immWord (n := 0x344) (by decide) (by decide) dst src imm fun w h hdst hsrc himm => by
      simp only [decodeOp, h, hdst, hsrc, himm]
  | addImm32 dst src imm =>
    exact read_immWord (n := 0x044) (by decide) (by decide) dst src imm fun w h hdst hsrc himm => by
      simp only [decodeOp, h, hdst, hsrc, himm]
  | mov dst src =>
    exact read_regWord (n := 0x2A8) (by decide) (by decide) 0 0 (by decide) (by decide)
      fun w h hbit hhigh hdst ha hb => by simp only [decodeOp, h, hbit, hhigh, hdst, ha, hb, true_and, if_true]
  | add dst a b =>
    exact read_regWord (n := 0x22C) (by decide) (by decide) 0 0 (by decide) (by decide)
      fun w h hbit hhigh hdst ha hb => by simp only [decodeOp, h, hbit, hhigh, hdst, ha, hb, and_true, if_true]
  | cmpImm reg imm =>
    exact read_immWord (n := 0x3C4) (by decide) (by decide) 31 reg imm fun w h hdst hsrc himm => by
      simp only [decodeOp, h, hdst, hsrc, himm, if_true]
  | cmpImm32 reg imm =>
    exact read_immWord (n := 0x1C4) (by decide) (by decide) 31 reg imm fun w h hdst hsrc himm => by
      simp only [decodeOp, h, hdst, hsrc, himm, if_true]
  | cmp a b =>
    exact read_regWord (n := 0x3AC) (by decide) (by decide) 0 0 (by decide) (by decide)
      fun w h hbit hhigh hdst ha hb => by simp only [decodeOp, h, hbit, hhigh, hdst, ha, hb, and_true, if_true]
  | movz dst imm =>
    exact read_wideWord (n := 0x34A) (by decide) (by decide) dst imm 0 (by decide) fun w h hbit hdst himm _ => by
      simp only [decodeOp, show bits w 22 10 = 0x34A from h, show bits w 21 1 = 0 from hbit, hdst, himm, if_true]
  | movz32 dst imm =>
    exact read_wideWord (n := 0x14A) (by decide) (by decide) dst imm 0 (by decide) fun w h hbit hdst himm _ => by
      simp only [decodeOp, show bits w 22 10 = 0x14A from h, show bits w 21 1 = 0 from hbit, hdst, himm, if_true]
  | movk dst imm part =>
    have hhalf : part.val / 2 = 0 ∨ part.val / 2 = 1 := by omega
    refine read_wideWord (n := 0x3CA) (by decide) (by decide) dst imm part ?_ fun w h _ hdst himm hpart => ?_
    · rcases hhalf with hhalf | hhalf <;> rw [hhalf] <;> decide
    · rcases hhalf with hhalf | hhalf <;> rw [hhalf] at h <;> simp only [decodeOp, h, hdst, himm, hpart]
  | loadByte dst base index =>
    exact read_regWord (n := 0x0E1) (by decide) (by decide) 1 0x1A (by decide) (by decide)
      fun w h hbit hhigh hdst ha hb => by simp only [decodeOp, h, hbit, hhigh, hdst, ha, hb, and_true, if_true]
  | storeByte src base index =>
    exact read_regWord (n := 0x0E0) (by decide) (by decide) 1 0x1A (by decide) (by decide)
      fun w h hbit hhigh hsrc ha hb => by simp only [decodeOp, h, hbit, hhigh, hsrc, ha, hb, and_true, if_true]
  | load dst base slot =>
    exact read_immWord (n := 0x3E5) (by decide) (by decide) dst base slot fun w h hdst hbase hslot => by
      simp only [decodeOp, h, hdst, hbase, hslot]
  | store src base slot =>
    exact read_immWord (n := 0x3E4) (by decide) (by decide) src base slot fun w h hsrc hbase hslot => by
      simp only [decodeOp, h, hsrc, hbase, hslot]
  | maskByte dst src =>
    -- the mask is the immediate 7
    exact read_immWord (n := 0x048) (by decide) (by decide) dst src 7 fun w h hdst hsrc himm => by
      simp only [decodeOp, h, hdst, hsrc, himm, if_true]
  | jump target =>
    exact read_immWord (n := 0x358) (by decide) (by decide) 0 target 0x7C0 fun w h hdst hsrc himm => by
      simp only [decodeOp, h, hdst, hsrc, himm, and_true, if_true]
  | call target =>
    have hne : ¬ (0xFC0 : BitVec 12) = 0x7C0 := by decide
    exact read_immWord (n := 0x358) (by decide) (by decide) 0 target 0xFC0 fun w h hdst hsrc himm => by
      simp only [decodeOp, h, hdst, hsrc, himm, hne, and_true, and_false, if_true, if_false]
  | ret =>
    exact read_immWord (n := 0x359) (by decide) (by decide) 0 lr 0x7C0
      fun w h hdst hsrc himm => by simp only [decodeOp, h, hdst, hsrc, himm, and_true, if_true]

/-- A displacement that fits is what its field stands for. -/
theorem signed_emod {w : Nat} {words : Int} (hlow : -2 ^ w ≤ words) (hhigh : words < 2 ^ w) :
    signed (w + 1) (words % 2 ^ (w + 1)).toNat = words := by
  have hnonneg : (0 : Int) < 2 ^ (w + 1) := Int.pow_pos (by decide)
  have hcast : (2 : Int) ^ (w + 1) = ((2 ^ (w + 1) : Nat) : Int) := by rw [Int.natCast_pow]; rfl
  have hpow : (2 : Int) ^ (w + 1) = 2 ^ w + 2 ^ w := by omega
  rw [signed, Int.toNat_of_nonneg (Int.emod_nonneg _ (by omega)), hcast, Int.emod_bmod]
  apply Int.bmod_eq_of_le_mul_two <;> omega

/-- A branch that reaches is read back from its word. -/
theorem decode_branch {b : Branch} {words : Int} (h : b.reaches words) :
    decode (b.word words) = some (.branch b words) ∧ b.word words < 2 ^ 32 := by
  have hreach : -2 ^ (b.width - 1) ≤ words ∧ words < 2 ^ (b.width - 1) := by
    simpa only [Branch.reaches, Bool.and_eq_true, decide_eq_true_eq] using h
  obtain ⟨hlow, hhigh⟩ := hreach
  -- The field comes first; the word is what stands around it.
  obtain ⟨field, hfield⟩ : ∃ field, field = (words % 2 ^ b.width).toNat := ⟨_, rfl⟩
  have hlt : field < 2 ^ b.width := by
    have hnonneg : (0 : Int) < 2 ^ b.width := Int.pow_pos (by decide)
    have hmod := Int.emod_lt_of_pos words hnonneg
    have hcast : (2 : Int) ^ b.width = ((2 ^ b.width : Nat) : Int) := by rw [Int.natCast_pow]; rfl
    omega
  cases b with
  | always =>
    have hsigned : signed 26 field = words := hfield ▸ signed_emod hlow hhigh
    have hw : Branch.always.word words = 0x14000000 + field := by rw [hfield]; rfl
    simp only [Branch.width] at hlt
    have htop : bits (0x14000000 + field) 26 6 = 5 := by rw [bits]; omega
    have hbottom : bits (0x14000000 + field) 0 26 = field := by rw [bits]; omega
    rw [hw, decode, decodeBranch, if_pos htop, hbottom, hsigned]
    exact ⟨rfl, by omega⟩
  | equal =>
    have hsigned : signed 19 field = words := hfield ▸ signed_emod hlow hhigh
    have hw : Branch.equal.word words = 0x54000000 + field * 32 := by
      subst hfield
      simp only [Branch.word, Nat.shiftLeft_eq]
    simp only [Branch.width] at hlt
    have htop : bits (0x54000000 + field * 32) 26 6 ≠ 5 := by rw [bits]; omega
    have hform : bits (0x54000000 + field * 32) 24 8 = 0x54 := by rw [bits]; omega
    have hcond : bits (0x54000000 + field * 32) 0 5 = 0 := by rw [bits]; omega
    have hmiddle : bits (0x54000000 + field * 32) 5 19 = field := by rw [bits]; omega
    rw [hw, decode, decodeBranch, if_neg htop, if_pos hform, hcond, hmiddle, hsigned]
    exact ⟨rfl, by omega⟩
  | above =>
    have hsigned : signed 19 field = words := hfield ▸ signed_emod hlow hhigh
    have hw : Branch.above.word words = 0x54000008 + field * 32 := by
      subst hfield
      simp only [Branch.word, Nat.shiftLeft_eq]
    simp only [Branch.width] at hlt
    have htop : bits (0x54000008 + field * 32) 26 6 ≠ 5 := by rw [bits]; omega
    have hform : bits (0x54000008 + field * 32) 24 8 = 0x54 := by rw [bits]; omega
    have hcond : bits (0x54000008 + field * 32) 0 5 = 8 := by rw [bits]; omega
    have hmiddle : bits (0x54000008 + field * 32) 5 19 = field := by rw [bits]; omega
    rw [hw, decode, decodeBranch, if_neg htop, if_pos hform, hcond, hmiddle, hsigned]
    exact ⟨rfl, by omega⟩

theorem ofLittleEndian_wordBytes {word : Nat} (h : word < 2 ^ 32) : ofLittleEndian (wordBytes word) = word := by
  rw [wordBytes, ofLittleEndian_littleEndian]
  exact Nat.mod_eq_of_lt h

end TapeLang.A64
