import TapeLang.Proofs.Nesting.Depth
import TapeLang.Proofs.Nesting.Matched

/-!
# Brackets that are open at an index

`Nesting.OpenAt side l j k`: the bracket at `j` is opened before index `k`, and no bracket before `k` closes it.
There is such a bracket exactly if the depth at `k` is positive (`exists_openAt_iff`), as long as no bracket before
`k` closes nothing.
-/

namespace TapeLang.Nesting

/-- The bracket at `j` is open where the symbol at `k` stands. -/
structure OpenAt {α : Type} (side : α → Option Side) (l : List α) (j k : Nat) : Prop where
  lt : j < k
  opening : ∃ a, l[j]? = some a ∧ side a = some .opening
  unclosed : ∀ m < k, ¬ Partner side l j m

variable {α : Type} {side : α → Option Side} {l : List α} {i j k n : Nat}

/-- The partners in a beginning of a sequence are those of the sequence that close in it. -/
theorem partner_take_iff : Partner side (l.take k) i j ↔ j < k ∧ Partner side l i j := by
  constructor
  · intro h
    obtain ⟨-, b, hb, -⟩ := h.exists_sides
    have hlt := (List.getElem?_eq_some_iff.1 hb).1
    rw [List.length_take] at hlt
    have hl := h.surround [] (l.drop k)
    rw [List.nil_append, List.take_append_drop, List.length_nil, Nat.zero_add, Nat.zero_add] at hl
    exact ⟨by omega, hl⟩
  · rintro ⟨hlt, front, a, mid, b, rest, rfl, ha, hb, hmid, rfl, rfl⟩
    refine ⟨front, a, mid, b, rest.take (k - (front.length + mid.length + 2)), ?_, ha, hb, hmid, rfl, rfl⟩
    rw [List.take_append, List.take_of_length_le (by omega),
      show k - front.length = k - (front.length + mid.length + 2) + 1 + mid.length + 1 by omega, List.take_succ_cons,
      List.take_append, List.take_of_length_le (by omega), Nat.add_sub_cancel, List.take_succ_cons]

theorem openAt_iff : OpenAt side l j k ↔
    (∃ a, (l.take k)[j]? = some a ∧ side a = some .opening) ∧ ∀ m, ¬ Partner side (l.take k) j m := by
  constructor
  · rintro ⟨hlt, hopening, hunclosed⟩
    rw [List.getElem?_take_of_lt hlt]
    exact ⟨hopening, fun m hm => hunclosed m (partner_take_iff.1 hm).1 (partner_take_iff.1 hm).2⟩
  · rintro ⟨⟨a, ha, hside⟩, hunclosed⟩
    have hlt : j < k := by
      have := (List.getElem?_eq_some_iff.1 ha).1
      rw [List.length_take] at this
      omega
    rw [List.getElem?_take_of_lt hlt] at ha
    exact ⟨hlt, ⟨a, ha, hside⟩, fun m hm hpartner => hunclosed m (partner_take_iff.2 ⟨hm, hpartner⟩)⟩

/-- A bracket is open exactly if the depth is positive. -/
theorem exists_openAt_iff (h : depth side 0 (l.take k) = some n) : (∃ j, OpenAt side l j k) ↔ 0 < n := by
  simp only [openAt_iff]
  rcases nested_or_unclosed_or_unmatched side (l.take k) with
    hl | ⟨front, a, rest, hl, hfront, ha, hrest⟩ | ⟨front, a, rest, hl, hfront, ha⟩
  · -- every bracket has its partner
    have hn : n = 0 := by
      rw [hl.depth_eq, Option.some.injEq] at h
      exact h.symm
    refine ⟨?_, fun hpos => absurd hn (by omega)⟩
    rintro ⟨j, ⟨a, ha, hside⟩, hunclosed⟩
    obtain ⟨m, hm⟩ : ∃ m, Partner side (l.take k ++ []) j m := exists_partner hl ha hside
    rw [List.append_nil] at hm
    exact absurd hm (hunclosed m)
  · -- the leftmost one without a partner is open
    rw [hl, depth_append, hfront.depth_eq, Option.bind_some, depth_cons_opening ha] at h
    obtain ⟨m, hm, hle⟩ := hrest.le_depth 1
    rw [hm, Option.some.injEq] at h
    refine ⟨fun _ => by omega, fun _ => ⟨front.length, ?_⟩⟩
    rw [hl]
    exact ⟨⟨a, by simp, ha⟩, not_partner hrest⟩
  · rw [hl, depth_append, hfront.depth_eq, Option.bind_some, depth_zero_cons_closing ha] at h
    cases h

theorem forall_not_openAt_iff (h : depth side 0 (l.take k) = some n) : (∀ j, ¬ OpenAt side l j k) ↔ n = 0 := by
  rw [← not_exists, exists_openAt_iff h, Nat.pos_iff_ne_zero, not_not]

end TapeLang.Nesting
