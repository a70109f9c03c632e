import TapeLang.Proofs.Nesting.Brackets

/-!
# Depth

`Nesting.depth` reads a sequence from the left and counts the brackets that are open. It fails at the first
one that closes nothing, so that brackets are balanced exactly if reading them with none open ends with none
open (`balanced_iff_depth`). Unlike the grammar it says something about every sequence, and reading two
sequences one after the other is reading the second where the first ends (`depth_append`): what replaces a
part of a sequence by one that reads alike changes no balance.
-/

namespace TapeLang.Nesting

/-- How many brackets are open behind a sequence that is read with `n` of them open, if each that closes
closes one of them. -/
def depth {α : Type} (side : α → Option Side) (n : Nat) : List α → Option Nat
  | [] => some n
  | a :: l =>
    match side a, n with
    | none, n => depth side n l
    | some .opening, n => depth side (n + 1) l
    | some .closing, n + 1 => depth side n l
    | some .closing, 0 => none

variable {α : Type} {side : α → Option Side} {a : α} {l l' : List α}

@[simp] theorem depth_nil (n : Nat) : depth side n [] = some n := rfl

@[simp] theorem depth_cons_plain (ha : side a = none) (n : Nat) : depth side n (a :: l) = depth side n l := by
  simp [depth, ha]

@[simp] theorem depth_cons_opening (ha : side a = some .opening) (n : Nat) :
    depth side n (a :: l) = depth side (n + 1) l := by
  simp [depth, ha]

@[simp] theorem depth_cons_closing (ha : side a = some .closing) (n : Nat) :
    depth side (n + 1) (a :: l) = depth side n l := by
  simp [depth, ha]

@[simp] theorem depth_zero_cons_closing (ha : side a = some .closing) : depth side 0 (a :: l) = none := by
  simp [depth, ha]

theorem depth_append (n : Nat) (l l' : List α) :
    depth side n (l ++ l') = (depth side n l).bind fun m => depth side m l' := by
  induction l generalizing n with
  | nil => rfl
  | cons a l ih =>
    rw [List.cons_append]
    cases ha : side a with
    | none => rw [depth_cons_plain ha, depth_cons_plain ha, ih]
    | some s =>
      cases s with
      | opening => rw [depth_cons_opening ha, depth_cons_opening ha, ih]
      | closing =>
        cases n with
        | zero => simp [ha]
        | succ n => rw [depth_cons_closing ha, depth_cons_closing ha, ih]

/-- Sequences that read alike may stand for each other. -/
theorem depth_append_congr (h : ∀ n, depth side n l = depth side n l') (front : List α) (n : Nat) :
    depth side n (front ++ l) = depth side n (front ++ l') := by
  simp only [depth_append, h]

/-! ### Depth and balance -/

theorem Nested.depth_eq (h : Nested side l) (n : Nat) : depth side n l = some n := by
  induction h generalizing n with
  | nil => rfl
  | plain ha _ ih => rw [depth_cons_plain ha, ih]
  | pair ha hb _ _ ihBody ihRest =>
    rw [depth_cons_opening ha, depth_append, ihBody, Option.bind_some, depth_cons_closing hb, ihRest]

/-- Brackets none of which closes nothing leave open what is open before them. -/
theorem OpenEnded.le_depth (h : OpenEnded side l) (n : Nat) : ∃ m, depth side n l = some m ∧ n ≤ m := by
  induction h generalizing n with
  | nested hl => exact ⟨n, hl.depth_eq n, Nat.le_refl n⟩
  | unclosed hfront ha _ ih =>
    obtain ⟨m, hm, hle⟩ := ih (n + 1)
    refine ⟨m, ?_, Nat.le_of_succ_le hle⟩
    rw [depth_append, hfront.depth_eq, Option.bind_some, depth_cons_opening ha, hm]

theorem balanced_iff_depth : Balanced side l ↔ depth side 0 l = some 0 := by
  rw [← nested_iff_balanced]
  refine ⟨fun h => h.depth_eq 0, fun h => ?_⟩
  rcases nested_or_unclosed_or_unmatched side l with
    hl | ⟨front, a, rest, rfl, hfront, ha, hrest⟩ | ⟨front, a, rest, rfl, hfront, ha⟩
  · exact hl
  · obtain ⟨m, hm, hle⟩ := hrest.le_depth 1
    rw [depth_append, hfront.depth_eq, Option.bind_some, depth_cons_opening ha, hm, Option.some.injEq] at h
    omega
  · rw [depth_append, hfront.depth_eq, Option.bind_some, depth_zero_cons_closing ha] at h
    cases h

/-- Sequences that read alike are balanced together. -/
theorem balanced_congr (h : depth side 0 l = depth side 0 l') : Balanced side l ↔ Balanced side l' := by
  rw [balanced_iff_depth, balanced_iff_depth, h]

end TapeLang.Nesting
