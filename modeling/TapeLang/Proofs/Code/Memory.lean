import TapeLang.Code.Memory
import TapeLang.Proofs.Interpreter

/-!
# Accesses to the tape and the counters

An index on the tape is at its address, and the counter of a kind at that of its slot.
-/

namespace TapeLang

theorem toNat_add_ofNat_sub (a : UInt64) {n : Nat} (h : n < 2 ^ 64) : (a + UInt64.ofNat n - a).toNat = n := by
  rw [UInt64.add_comm, UInt64.add_sub_cancel]
  exact UInt64.toNat_ofNat_of_lt' h

theorem add_ofNat_inj (a : UInt64) {n k : Nat} (hn : n < 2 ^ 64) (hk : k < 2 ^ 64)
    (h : a + UInt64.ofNat n = a + UInt64.ofNat k) : n = k := by
  rw [← toNat_add_ofNat_sub a hn, h, toNat_add_ofNat_sub a hk]

namespace Tape

variable {t t' : Tape} {i : Nat}

theorem load_eq (base : UInt64) (h : i < t.capacity) : t.load? base (base + UInt64.ofNat i) = some (t.cell i) := by
  have := t.capacity_lt
  rw [load?, toNat_add_ofNat_sub base (by omega)]
  exact if_pos h

theorem store_eq (base : UInt64) (h : i < t.capacity) (b : UInt8) :
    t.store? base (base + UInt64.ofNat i) b = some (t.assign i b) := by
  have := t.capacity_lt
  rw [store?, toNat_add_ofNat_sub base (by omega)]
  exact if_pos h

/-- Writing back what a cell is cached as gives the tape that the cache stood for. -/
theorem store_cached (base : UInt64) (hi : i < t'.capacity) (hcap : t.capacity = t'.capacity)
    (hcells : ∀ j, j ≠ i → t.cell j = t'.cell j) :
    t.store? base (base + UInt64.ofNat i) (t'.cell i) = some t' := by
  have hassign : t.assign i (t'.cell i) = t' := by
    refine Tape.ext_cell (by rw [Tape.capacity_assign, hcap]) fun j => ?_
    rw [Tape.cell_assign]
    by_cases hj : i = j
    · subst hj
      rw [if_pos ⟨rfl, by omega⟩]
    · rw [if_neg (by simp [hj])]
      exact hcells j (Ne.symm hj)
  rw [store_eq base (by omega), hassign]

end Tape

namespace Counters

theorem indexAt_slot (base : UInt64) (k : Kind) : indexAt? base (base + UInt64.ofNat (slot k)) = some k.index := by
  have hslot : slot k < 2 ^ 64 := by cases k <;> decide
  rw [indexAt?, toNat_add_ofNat_sub base hslot]
  cases k <;> rfl

theorem load_slot (c : Counters) (base : UInt64) (k : Kind) :
    c.load? base (base + UInt64.ofNat (slot k)) = some (c.get k) := by
  rw [load?, indexAt_slot]
  rfl

theorem store_slot (c : Counters) (base : UInt64) (k : Kind) (v : UInt64) :
    c.store? base (base + UInt64.ofNat (slot k)) v = some (c.set k v) := by
  rw [store?, indexAt_slot]
  rfl

end Counters

end TapeLang
