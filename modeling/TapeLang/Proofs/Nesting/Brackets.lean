import Mathlib

/-!
# Brackets in a sequence

Some symbols of a sequence open a bracket, some close one, and the others do not matter. Brackets are
balanced if no beginning of the sequence has more that close than open, and the whole has as many of
both. As a grammar that is `Nested` (`nested_iff_balanced`).

Every sequence is told apart by where reading it from the left comes to
(`nested_or_unclosed_or_unmatched`). It comes to a bracket that closes nothing, with nested brackets before
it, or there is none. In that case it is `OpenEnded`: it is nested, or nested up to a bracket that is never
closed, the leftmost such one.
-/

namespace TapeLang

/-- What a symbol is to the nesting of a sequence. -/
inductive Side where
  | opening
  | closing
  deriving DecidableEq, Repr

namespace Nesting

section Defs

variable {α : Type} (side : α → Option Side)

/-- How many brackets are opened. -/
def opens (l : List α) : Nat := l.countP (side · = some .opening)

/-- How many brackets are closed. -/
def closes (l : List α) : Nat := l.countP (side · = some .closing)

/-- No beginning closes more brackets than it opens, and all in all as many are closed as opened. -/
def Balanced (l : List α) : Prop :=
  (∀ front, front <+: l → closes side front ≤ opens side front) ∧ opens side l = closes side l

/-- The bracket at `i` is closed by the one at `j`: what stands in between is balanced. -/
def Partner (l : List α) (i j : Nat) : Prop :=
  ∃ front a mid b rest, l = front ++ a :: (mid ++ b :: rest) ∧ side a = some .opening ∧
    side b = some .closing ∧ Balanced side mid ∧ front.length = i ∧ i + mid.length + 1 = j

/-- The symbol at `i` is the first bracket that closes nothing: the beginning that it ends is the first to
close more brackets than it opens. -/
def FirstUnmatched (l : List α) (i : Nat) : Prop :=
  (∀ k ≤ i, closes side (l.take k) ≤ opens side (l.take k)) ∧
    opens side (l.take (i + 1)) < closes side (l.take (i + 1))

/-- The symbol at `i` is the leftmost bracket that is opened and has no partner. -/
def LeftmostUnclosed (l : List α) (i : Nat) : Prop :=
  (∃ a, l[i]? = some a ∧ side a = some .opening) ∧ (∀ j, ¬ Partner side l i j) ∧
    ∀ k < i, ∀ a, l[k]? = some a → side a = some .opening → ∃ j, Partner side l k j

/-- Balanced brackets, as a grammar. -/
inductive Nested : List α → Prop where
  | nil : Nested []
  | plain {a : α} {l : List α} (ha : side a = none) (hl : Nested l) : Nested (a :: l)
  | pair {a b : α} {body rest : List α} (ha : side a = some .opening) (hb : side b = some .closing)
    (hbody : Nested body) (hrest : Nested rest) : Nested (a :: (body ++ b :: rest))

/-- Brackets none of which closes nothing. -/
inductive OpenEnded : List α → Prop where
  | nested {l : List α} (hl : Nested side l) : OpenEnded l
  | unclosed {a : α} {front rest : List α} (hfront : Nested side front) (ha : side a = some .opening)
    (hrest : OpenEnded rest) : OpenEnded (front ++ a :: rest)

end Defs

variable {α : Type} {side : α → Option Side} {a : α} {l l' front : List α}

/-! ### Counts -/

@[simp] theorem opens_nil : opens side [] = 0 := rfl

@[simp] theorem closes_nil : closes side [] = 0 := rfl

@[simp] theorem opens_append : opens side (l ++ l') = opens side l + opens side l' := List.countP_append ..

@[simp] theorem closes_append : closes side (l ++ l') = closes side l + closes side l' := List.countP_append ..

@[simp] theorem opens_cons_plain (ha : side a = none) : opens side (a :: l) = opens side l := by
  simp [opens, ha]

@[simp] theorem closes_cons_plain (ha : side a = none) : closes side (a :: l) = closes side l := by
  simp [closes, ha]

@[simp] theorem opens_cons_opening (ha : side a = some .opening) : opens side (a :: l) = opens side l + 1 := by
  simp [opens, ha]

@[simp] theorem closes_cons_opening (ha : side a = some .opening) : closes side (a :: l) = closes side l := by
  simp [closes, ha]

@[simp] theorem opens_cons_closing (ha : side a = some .closing) : opens side (a :: l) = opens side l := by
  simp [opens, ha]

@[simp] theorem closes_cons_closing (ha : side a = some .closing) : closes side (a :: l) = closes side l + 1 := by
  simp [closes, ha]

/-- A beginning of two sequences one after the other ends in the first or goes into the second. -/
theorem prefix_append_iff {l₁ l₂ : List α} :
    front <+: l₁ ++ l₂ ↔ front <+: l₁ ∨ ∃ mid, front = l₁ ++ mid ∧ mid <+: l₂ := by
  constructor
  · rintro ⟨rest, h⟩
    rcases List.append_eq_append_iff.1 h with ⟨mid, hl, _⟩ | ⟨mid, hfront, hl⟩
    · exact .inl ⟨mid, hl.symm⟩
    · exact .inr ⟨mid, hfront, rest, hl.symm⟩
  · rintro (h | ⟨mid, rfl, h⟩)
    · exact h.trans (List.prefix_append _ _)
    · exact List.prefix_append_right_inj _ |>.2 h

/-! ### Nested brackets -/

namespace Nested

theorem append (hl : Nested side l) (hl' : Nested side l') : Nested side (l ++ l') := by
  induction hl with
  | nil => exact hl'
  | plain ha _ ih => exact .plain ha ih
  | pair ha hb hbody _ _ ih =>
    rw [List.cons_append, List.append_assoc, List.cons_append]
    exact .pair ha hb hbody ih

theorem opens_eq (h : Nested side l) : opens side l = closes side l := by
  induction h with
  | nil => rfl
  | plain ha _ ih => simp [ha, ih]
  | pair ha hb _ _ ihBody ihRest => simp [ha, hb, ihBody, ihRest]; omega

theorem closes_le (h : Nested side l) (hfront : front <+: l) : closes side front ≤ opens side front := by
  induction h generalizing front with
  | nil =>
    obtain rfl := List.prefix_nil.1 hfront
    exact Nat.le_refl _
  | @plain a l ha _ ih =>
    rcases List.prefix_cons_iff.1 hfront with rfl | ⟨tail, rfl, htail⟩
    · exact Nat.le_refl _
    · simpa [ha] using ih htail
  | @pair a b body rest ha hb hbody _ ihBody ihRest =>
    rcases List.prefix_cons_iff.1 hfront with rfl | ⟨tail, rfl, htail⟩
    · exact Nat.le_refl _
    · rw [closes_cons_opening ha, opens_cons_opening ha]
      rcases prefix_append_iff.1 htail with hbodyFront | ⟨behind, rfl, hbehind⟩
      · exact Nat.le_succ_of_le (ihBody hbodyFront)
      · rcases List.prefix_cons_iff.1 hbehind with rfl | ⟨restFront, rfl, hrestFront⟩
        · rw [List.append_nil]
          exact Nat.le_succ_of_le (ihBody List.prefix_rfl)
        · have hrest := ihRest hrestFront
          have heq := hbody.opens_eq
          simp only [closes_append, opens_append, closes_cons_closing hb, opens_cons_closing hb]
          omega

theorem balanced (h : Nested side l) : Balanced side l := ⟨fun _ => h.closes_le, h.opens_eq⟩

/-- Every bracket that is opened is closed, and what stands in between is nested. -/
theorem exists_closing {a : α} {rest : List α} (h : Nested side l) (hl : l = front ++ a :: rest)
    (ha : side a = some .opening) :
    ∃ mid b rest', rest = mid ++ b :: rest' ∧ side b = some .closing ∧ Nested side mid := by
  induction h generalizing front rest with
  | nil => simp at hl
  | @plain a' l ha' _ ih =>
    rcases List.cons_eq_append_iff.1 hl with ⟨_, hcons⟩ | ⟨front', rfl, htail⟩
    · obtain ⟨rfl, _⟩ := List.cons.inj hcons
      rw [ha] at ha'
      cases ha'
    · exact ih htail
  | @pair a' b body rest' ha' hb hbody _ ihBody ihRest =>
    rcases List.cons_eq_append_iff.1 hl with ⟨_, hcons⟩ | ⟨front', rfl, htail⟩
    · obtain ⟨rfl, rfl⟩ := List.cons.inj hcons
      exact ⟨body, b, rest', rfl, hb, hbody⟩
    · -- the bracket stands in the body or behind it, for it is not the one that closes
      rcases List.append_eq_append_iff.1 htail with ⟨mid, rfl, hmid⟩ | ⟨mid, hmid, hrest⟩
      · rcases List.cons_eq_append_iff.1 hmid with ⟨_, hcons⟩ | ⟨mid', rfl, htail'⟩
        · obtain ⟨rfl, _⟩ := List.cons.inj hcons
          rw [ha] at hb
          cases hb
        · exact ihRest htail'
      · cases mid with
        | nil =>
          obtain ⟨rfl, _⟩ := List.cons.inj hrest
          rw [ha] at hb
          cases hb
        | cons c mid =>
          obtain ⟨rfl, rfl⟩ := List.cons.inj hrest
          obtain ⟨mid', b', rest'', rfl, hb', hmid'⟩ := ihBody hmid
          exact ⟨mid', b', rest'' ++ b :: rest', by simp, hb', hmid'⟩

end Nested

/-! ### Where reading comes to -/

namespace OpenEnded

theorem append_left (hl : Nested side l) (hl' : OpenEnded side l') : OpenEnded side (l ++ l') := by
  cases hl' with
  | nested hl' => exact .nested (hl.append hl')
  | unclosed hfront ha hrest =>
    rw [← List.append_assoc]
    exact .unclosed (hl.append hfront) ha hrest

theorem append (hl : OpenEnded side l) (hl' : OpenEnded side l') : OpenEnded side (l ++ l') := by
  induction hl with
  | nested hl => exact hl'.append_left hl
  | unclosed hfront ha _ ih =>
    rw [List.append_assoc, List.cons_append]
    exact .unclosed hfront ha ih

theorem closes_le (h : OpenEnded side l) (hfront : front <+: l) : closes side front ≤ opens side front := by
  induction h generalizing front with
  | nested hl => exact hl.closes_le hfront
  | @unclosed a front' rest hfront' ha _ ih =>
    rcases prefix_append_iff.1 hfront with hfront | ⟨mid, rfl, hmid⟩
    · exact hfront'.closes_le hfront
    · have heq := hfront'.opens_eq
      rcases List.prefix_cons_iff.1 hmid with rfl | ⟨tail, rfl, htail⟩
      · simp [heq]
      · have hle := ih htail
        simp only [closes_append, opens_append, closes_cons_opening ha, opens_cons_opening ha]
        omega

end OpenEnded

/-- Reading comes to a bracket that closes nothing, or there is none. -/
theorem openEnded_or_unmatched (side : α → Option Side) (l : List α) :
    OpenEnded side l ∨
      ∃ front a rest, l = front ++ a :: rest ∧ Nested side front ∧ side a = some .closing := by
  induction hn : l.length using Nat.strongRecOn generalizing l with
  | ind n ih =>
    subst hn
    cases l with
    | nil => exact .inl (.nested .nil)
    | cons a l =>
      have hlt : l.length < (a :: l).length := Nat.lt_succ_self _
      cases ha : side a with
      | none =>
        rcases ih _ hlt l rfl with hl | ⟨front, b, rest, rfl, hfront, hb⟩
        · exact .inl (OpenEnded.append_left (.plain ha .nil) hl)
        · exact .inr ⟨a :: front, b, rest, rfl, .plain ha hfront, hb⟩
      | some s =>
        cases s with
        | closing => exact .inr ⟨[], a, l, rfl, .nil, ha⟩
        | opening =>
          rcases ih _ hlt l rfl with hl | ⟨body, b, rest, rfl, hbody, hb⟩
          · exact .inl (.unclosed .nil ha hl)
          · -- the bracket is closed, and reading goes on behind it
            have hpair : Nested side (a :: (body ++ [b])) := .pair ha hb hbody .nil
            have hshorter : rest.length < (a :: (body ++ b :: rest)).length := by
              simp only [List.length_cons, List.length_append]
              omega
            have hsplit : a :: (body ++ b :: rest) = a :: (body ++ [b]) ++ rest := by simp
            rw [hsplit]
            rcases ih _ hshorter rest rfl with hrest | ⟨front, c, rest, rfl, hfront, hc⟩
            · exact .inl (OpenEnded.append_left hpair hrest)
            · exact .inr ⟨a :: (body ++ [b]) ++ front, c, rest, by simp, hpair.append hfront, hc⟩

/-- Reading comes to the end, or there is a leftmost bracket that is never closed, or a first one that closes
nothing. -/
theorem nested_or_unclosed_or_unmatched (side : α → Option Side) (l : List α) :
    Nested side l ∨
      (∃ front a rest, l = front ++ a :: rest ∧ Nested side front ∧ side a = some .opening ∧ OpenEnded side rest) ∨
      ∃ front a rest, l = front ++ a :: rest ∧ Nested side front ∧ side a = some .closing := by
  rcases openEnded_or_unmatched side l with hl | hunmatched
  · cases hl with
    | nested hl => exact .inl hl
    | unclosed hfront ha hrest => exact .inr (.inl ⟨_, _, _, rfl, hfront, ha, hrest⟩)
  · exact .inr (.inr hunmatched)

/-- A bracket that closes nothing makes a beginning that closes more than it opens. -/
theorem not_closes_le_of_unmatched (hfront : Nested side front) (ha : side a = some .closing) :
    ¬ closes side (front ++ [a]) ≤ opens side (front ++ [a]) := by
  have heq := hfront.opens_eq
  simp only [closes_append, opens_append, closes_cons_closing ha, opens_cons_closing ha, closes_nil, opens_nil]
  omega

/-- Brackets are balanced exactly if they are nested. -/
theorem nested_iff_balanced : Nested side l ↔ Balanced side l := by
  refine ⟨Nested.balanced, fun ⟨hle, heq⟩ => ?_⟩
  rcases nested_or_unclosed_or_unmatched side l with
    hl | ⟨front, a, rest, rfl, hfront, ha, hrest⟩ | ⟨front, a, rest, rfl, hfront, ha⟩
  · exact hl
  · have hfront := hfront.opens_eq
    have hrest := hrest.closes_le List.prefix_rfl
    simp only [closes_append, opens_append, closes_cons_opening ha, opens_cons_opening ha] at heq
    omega
  · exact absurd (hle (front ++ [a]) ⟨rest, by simp⟩) (not_closes_le_of_unmatched hfront ha)

/-! ### Partners -/

/-- A bracket that is opened among nested ones has a partner, whatever follows them. -/
theorem exists_partner {rest : List α} (hfront : Nested side front) {i : Nat} (hi : front[i]? = some a)
    (ha : side a = some .opening) : ∃ j, Partner side (front ++ rest) i j := by
  obtain ⟨hlt, hget⟩ := List.getElem?_eq_some_iff.1 hi
  have hsplit : front = front.take i ++ a :: front.drop (i + 1) := by
    rw [← hget, List.getElem_cons_drop, List.take_append_drop]
  obtain ⟨mid, b, rest', hmid, hb, hnested⟩ := hfront.exists_closing hsplit ha
  refine ⟨_, front.take i, a, mid, b, rest' ++ rest, ?_, ha, hb, hnested.balanced, ?_, rfl⟩
  · conv_lhs => rw [hsplit, hmid]
    simp
  · rw [List.length_take]
    omega

/-- The bracket that open-ended brackets leave open has no partner. -/
theorem not_partner {rest : List α} (hrest : OpenEnded side rest) (j : Nat) :
    ¬ Partner side (front ++ a :: rest) front.length j := by
  rintro ⟨front', a', mid, b, rest', hl, _, hb, hmid, hlen, _⟩
  obtain ⟨rfl, hrest'⟩ := List.append_inj hl hlen.symm
  obtain ⟨_, rfl⟩ := List.cons.inj hrest'
  exact not_closes_le_of_unmatched (nested_iff_balanced.2 hmid) hb (hrest.closes_le ⟨rest', by simp⟩)

/-! ### Where a bracket has no partner -/

theorem firstUnmatched_of_nested (hfront : Nested side front) (ha : side a = some .closing) (rest : List α) :
    FirstUnmatched side (front ++ a :: rest) front.length := by
  constructor
  · intro k hk
    rw [List.take_append_of_le_length hk]
    exact hfront.closes_le (List.take_prefix k front)
  · have htake : (front ++ a :: rest).take (front.length + 1) = front ++ [a] := by
      rw [List.append_cons]
      exact List.take_left' (by simp)
    rw [htake]
    exact Nat.lt_of_not_le (not_closes_le_of_unmatched hfront ha)

theorem leftmostUnclosed_of_nested {rest : List α} (hfront : Nested side front) (ha : side a = some .opening)
    (hrest : OpenEnded side rest) : LeftmostUnclosed side (front ++ a :: rest) front.length := by
  refine ⟨⟨a, by simp, ha⟩, not_partner hrest, fun k hk b hb hside => ?_⟩
  rw [List.getElem?_append_left hk] at hb
  exact exists_partner hfront hb hside

/-! ### Other symbols -/

section Maps

variable {β : Type} {side' : β → Option Side} {f : α → Option β}

theorem exists_of_side (hnone : ∀ a, f a = none → side a = none) (hsome : ∀ a b, f a = some b → side' b = side a)
    {s : Side} (ha : side a = some s) : ∃ b, f a = some b ∧ side' b = some s := by
  cases hf : f a with
  | none =>
    rw [hnone a hf] at ha
    cases ha
  | some b => exact ⟨b, rfl, (hsome a b hf).trans ha⟩

/-- Brackets stay nested when other symbols are left out, or replaced. -/
theorem Nested.filterMap (hnone : ∀ a, f a = none → side a = none) (hsome : ∀ a b, f a = some b → side' b = side a)
    (h : Nested side l) : Nested side' (l.filterMap f) := by
  induction h with
  | nil => exact .nil
  | @plain a l ha _ ih =>
    cases hf : f a with
    | none => rwa [List.filterMap_cons_none hf]
    | some b =>
      rw [List.filterMap_cons_some hf]
      exact .plain ((hsome a b hf).trans ha) ih
  | @pair a b body rest ha hb _ _ ihBody ihRest =>
    obtain ⟨a', hfa, ha'⟩ := exists_of_side hnone hsome ha
    obtain ⟨b', hfb, hb'⟩ := exists_of_side hnone hsome hb
    rw [List.filterMap_cons_some hfa, List.filterMap_append, List.filterMap_cons_some hfb]
    exact .pair ha' hb' ihBody ihRest

theorem OpenEnded.filterMap (hnone : ∀ a, f a = none → side a = none)
    (hsome : ∀ a b, f a = some b → side' b = side a) (h : OpenEnded side l) :
    OpenEnded side' (l.filterMap f) := by
  induction h with
  | nested hl => exact .nested (hl.filterMap hnone hsome)
  | @unclosed a front rest hfront ha _ ih =>
    obtain ⟨a', hfa, ha'⟩ := exists_of_side hnone hsome ha
    rw [List.filterMap_append, List.filterMap_cons_some hfa]
    exact .unclosed (hfront.filterMap hnone hsome) ha' ih

end Maps

end Nesting

end TapeLang
