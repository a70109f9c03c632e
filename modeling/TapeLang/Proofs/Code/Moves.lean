import TapeLang.Proofs.Interpreter

/-!
# Moves on words

Generated code moves by adding words. A sum below zero wraps to a word that no tape has as an index,
so the word alone tells whether a move stays on the tape.
-/

namespace TapeLang

theorem toNat_toUInt64 (delta : Int64) : (delta.toUInt64.toNat : Int) = delta.toInt % 2 ^ 64 := by
  have h : delta.toInt = (delta.toUInt64.toNat : Int).bmod (2 ^ 64) := BitVec.toInt_eq_toNat_bmod _
  have hlt := delta.toUInt64.toNat_lt
  rw [h, Int.bmod_def]
  split <;> omega

theorem toNat_add_toUInt64 (i : Nat) (delta : Int64) :
    ((UInt64.ofNat i + delta.toUInt64).toNat : Int) = (i + delta.toInt) % 2 ^ 64 := by
  have h := toNat_toUInt64 delta
  rw [UInt64.toNat_add, UInt64.toNat_ofNat']
  omega

theorem toInt_add_toUInt64 (i : Nat) (delta : Int64) :
    (UInt64.ofNat i + delta.toUInt64).toInt64.toInt = (i + delta.toInt).bmod (2 ^ 64) := by
  have h : (UInt64.ofNat i + delta.toUInt64).toInt64.toInt =
      ((UInt64.ofNat i + delta.toUInt64).toNat : Int).bmod (2 ^ 64) := BitVec.toInt_eq_toNat_bmod _
  rw [h, toNat_add_toUInt64]
  exact Int.emod_bmod ..

/-- A sum that a signed word can hold is read back from its word. -/
theorem toInt_add_of_le {i : Nat} {delta : Int64} (h : (i : Int) + delta.toInt ≤ 2 ^ 63 - 1) :
    (UInt64.ofNat i + delta.toUInt64).toInt64.toInt = i + delta.toInt := by
  have hlow := delta.le_toInt
  rw [toInt_add_toUInt64]
  exact Int.bmod_eq_of_le (by omega) (by omega)

/-- A larger sum has wrapped once. -/
theorem toInt_add_of_lt {t : Tape} {i : Nat} {delta : Int64} (hi : i < t.capacity)
    (h : 2 ^ 63 - 1 < (i : Int) + delta.toInt) :
    (UInt64.ofNat i + delta.toUInt64).toInt64.toInt = i + delta.toInt - 2 ^ 64 := by
  have hhigh := delta.toInt_lt
  have hcapacity := t.capacity_lt
  rw [toInt_add_toUInt64, Int.bmod_def, Int.emod_eq_of_lt (by omega) (by omega)]
  split <;> omega

/-- A move stays on the tape exactly if the sum, as a word, is an index of it. -/
theorem Tape.offset_eq_ok_iff {t : Tape} {i : Nat} (h : i < t.capacity) (delta : Int64) (j : Nat) :
    t.offset i delta = .ok j ↔ (UInt64.ofNat i + delta.toUInt64).toNat = j ∧ j < t.capacity := by
  have hcap := t.capacity_lt
  have hlow := delta.le_toInt
  have hhigh := delta.toInt_lt
  have hsum := toNat_add_toUInt64 i delta
  rw [offset_eq h]
  split
  · rename_i hin
    rw [Int.emod_eq_of_lt (by omega) (by omega)] at hsum
    rw [Except.ok.injEq]
    omega
  · rename_i hout
    constructor
    · intro h
      cases h
    · rintro ⟨rfl, hlt⟩
      omega

theorem Tape.capacity_le_of_offset_error {t : Tape} {i : Nat} (h : i < t.capacity) {delta : Int64} {e : Error}
    (he : t.offset i delta = .error e) : t.capacity ≤ (UInt64.ofNat i + delta.toUInt64).toNat := by
  refine Nat.le_of_not_lt fun hlt => ?_
  have hok := (Tape.offset_eq_ok_iff h delta _).2 ⟨rfl, hlt⟩
  rw [he] at hok
  cases hok

end TapeLang
