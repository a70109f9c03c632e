import TapeLang.Proofs.X86.Decoding

/-!
# What has an encoding

The assembler refuses an instruction exactly if no bytes stand for it (`Op.refusal_eq_none_iff_exists_decode`): an
index that is the stack pointer, and a high byte beside a register that only a prefix byte can name. What is not
refused is read back from its own encoding; what is read was not refused (`NotRefused`), since a reader takes high
bytes only where there is no prefix byte, and then no high register either.
-/

namespace TapeLang.X86

/-- What is read, if anything is, is not refused. -/
def NotRefused (result : Option (Op × List UInt8)) : Prop :=
  ∀ (o : Op) (rest : List UInt8), result = some (o, rest) → o.refusal? = none

namespace NotRefused

theorem none : NotRefused none := fun _ _ h => by cases h

theorem some {o : Op} {rest : List UInt8} (h : o.refusal? = .none) : NotRefused (.some (o, rest)) := fun _ _ heq => by
  cases heq
  exact h

theorem bind {α : Type} {x : Option α} {f : α → Option (Op × List UInt8)} (h : ∀ a, x = .some a → NotRefused (f a)) :
    NotRefused (x >>= f) := fun o rest heq => by
  obtain ⟨a, ha, heq⟩ := Option.bind_eq_some_iff.1 heq
  exact h a ha o rest heq

theorem ite {c : Prop} [Decidable c] {x y : Option (Op × List UInt8)} (hx : NotRefused x) (hy : NotRefused y) :
    NotRefused (if c then x else y) := by
  split
  · exact hx
  · exact hy

end NotRefused

/-! ### Registers that are read without a prefix byte -/

theorem high_regOf_zero {n : Nat} (h : n < 8) : (regOf 0 n).high = 0 := by
  rw [regOf, Reg.high, Reg.index_ofIndex]
  show (8 * 0 + n) % 16 / 8 = 0
  omega

theorem splitModRM_lt (b : UInt8) : (splitModRM b).2.1 < 8 ∧ (splitModRM b).2.2 < 8 :=
  ⟨Nat.mod_lt _ (by decide), Nat.mod_lt _ (by decide)⟩

theorem present_of_isHigh {rex : Rex} {r : Reg} (h : (byteReg rex r).isHigh = true) : rex.present = false := by
  unfold byteReg at h
  split at h
  · cases h
  · rename_i hp
    exact Bool.eq_false_iff.2 hp

theorem takeIndexed_some {rex : Rex} {bytes rest : List UInt8} {reg base index : Reg}
    (h : takeIndexed? rex bytes = some (reg, base, index, rest)) :
    index ≠ .rsp ∧ (rex = .absent → base.high + index.high = 0) := by
  unfold takeIndexed? at h
  split at h
  · rename_i m s tail
    obtain ⟨hindex, hbase⟩ := splitModRM_lt s
    split at h
    split at h
    rename_i scale i b hs
    rw [hs] at hindex hbase
    have hzero (hr : rex = .absent) : (regOf rex.base b).high + (regOf rex.index i).high = 0 := by
      rw [hr]
      exact Nat.add_eq_zero_iff.2 ⟨high_regOf_zero hbase, high_regOf_zero hindex⟩
    simp only at h
    split at h
    · rename_i hc
      split at h
      · split at h
        · cases h
        · cases h
          exact ⟨hc.2.2, hzero⟩
      · cases h
        exact ⟨hc.2.2, hzero⟩
      · cases h
    · cases h
  · cases h

theorem takeRegs_some {rex : Rex} {bytes rest : List UInt8} {reg rm : Reg}
    (h : takeRegs? rex bytes = some (reg, rm, rest)) (hrex : rex = .absent) : reg.high = 0 := by
  subst hrex
  unfold takeRegs? at h
  split at h
  · rename_i m tail
    have hreg := (splitModRM_lt m).1
    split at h
    rename_i hm
    rw [hm] at hreg
    split at h
    · cases h
      exact high_regOf_zero hreg
    · cases h
  · cases h

/-! ### Instructions that are read -/

theorem notRefused_immediateOp (extension : Nat) (reg : Reg) (imm : Int32) (rest : List UInt8) :
    NotRefused (immediateOp? extension reg imm >>= fun o => pure (o, rest)) :=
  .bind fun o h => .some <| by
    unfold immediateOp? at h
    split at h <;> cases h <;> rfl

theorem notRefused_decodeWide (rex : Rex) (opcode : UInt8) (bytes : List UInt8) :
    NotRefused (decodeWide rex opcode bytes) := by
  unfold decodeWide
  refine .ite (.bind fun _ _ => .some rfl) (.ite (.bind fun _ _ => .some rfl) ?_)
  refine .ite (.bind fun _ _ => .some rfl) (.ite (.bind fun _ _ => .some rfl) (.ite (.bind fun _ _ => .some rfl) ?_))
  refine .ite ?immediate32 (.ite ?immediate8 (.ite ?indirect (.ite (.bind fun _ _ => .some rfl) .none)))
  case immediate32 | immediate8 => exact .bind fun _ _ => .bind fun a _ => notRefused_immediateOp _ _ a.1 a.2
  case indirect =>
    split
    · exact .some rfl
    · exact .bind fun _ _ => .some rfl

theorem notRefused_decodeNarrow {rex : Rex} (hrex : rex.present = true ∨ rex = .absent) (opcode : UInt8)
    (bytes : List UInt8) : NotRefused (decodeNarrow rex opcode bytes) := by
  have habsent {r : Reg} (h : (byteReg rex r).isHigh = true) : rex = .absent :=
    hrex.resolve_left fun hp => by
      rw [present_of_isHigh h] at hp
      cases hp
  -- a high byte was read, so that there was no prefix byte for what stands beside it
  have hbeside {r : Reg} {n : Nat} (hn : rex = .absent → n = 0) : ((byteReg rex r).isHigh && n ≠ 0) = false := by
    cases hhigh : (byteReg rex r).isHigh with
    | false => rfl
    | true => simp [hn (habsent hhigh)]
  unfold decodeNarrow
  refine .ite (.some rfl) (.ite (.some rfl) (.ite ?movImm (.ite ?addRax (.ite ?cmpRax (.ite ?group
    (.ite (.bind fun _ _ => .some rfl) (.ite ?store (.ite ?load (.ite ?extend (.ite ?indirect
      (.ite (.some rfl) .none)))))))))))
  case movImm | addRax | cmpRax =>
    cases bytes with
    | nil => exact .none
    | cons imm rest => exact .some rfl
  case group | indirect =>
    refine .bind fun x _ => ?_
    obtain ⟨extension, reg, rest⟩ := x
    dsimp only
    split
    · exact .some rfl
    · exact .some rfl
    · exact .none
  case store | load =>
    refine .bind fun x hx => ?_
    obtain ⟨hindex, hhigh⟩ := takeIndexed_some hx
    exact .some (Op.refusal_eq_none_iff.2 ⟨by simp [Op.stackIndexed?, hindex], hbeside hhigh⟩)
  case extend =>
    split
    · split
      · rename_i hx
        exact .some (Op.refusal_eq_none_iff.2 ⟨rfl, hbeside (takeRegs_some hx)⟩)
      · refine .bind fun x hx => ?_
        have hindex := (takeIndexed_some hx).1
        exact .some (Op.refusal_eq_none_iff.2 ⟨by simp [Op.stackIndexed?, hindex], rfl⟩)
    · exact .none

theorem notRefused_decodeOp (bytes : List UInt8) : NotRefused (decodeOp bytes) := by
  unfold decodeOp
  split
  · exact .none
  · split
    · exact notRefused_decodeNarrow (.inr rfl) _ _
    · rename_i hrex
      split
      · exact .none
      · refine .ite (notRefused_decodeWide _ _ _) (notRefused_decodeNarrow (.inl ?_) _ _)
        rw [Rex.ofByte?] at hrex
        split at hrex
        · cases hrex
          rfl
        · cases hrex

/-- An instruction is refused exactly if no bytes stand for it. -/
theorem Op.refusal_eq_none_iff_exists_decode (o : Op) :
    o.refusal? = none ↔ ∃ bytes rest, decode bytes = some (.op o, rest) := by
  constructor
  · intro h
    exact ⟨o.encode ++ [], [], decode_encode o h []⟩
  · rintro ⟨bytes, rest, h⟩
    unfold decode at h
    split at h
    · rename_i hbranch
      cases h
      unfold decodeBranch at hbranch
      split at hbranch
      all_goals simp at hbranch
    · obtain ⟨⟨o', rest'⟩, ho, heq⟩ := Option.map_eq_some_iff.1 h
      cases heq
      exact notRefused_decodeOp bytes o rest ho

end TapeLang.X86
