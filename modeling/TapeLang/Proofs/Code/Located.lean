/-!
# Sequences inside lists

`Located l k xs`: the elements of `xs` stand in `l` one after another, the first of them at `k`. Also
what a successful `mapM` says about each element.
-/

namespace TapeLang

/-- A sequence of elements stands in a list from an index on. -/
def Located {α : Type} (l : List α) : Nat → List α → Prop
  | _, [] => True
  | k, x :: xs => l[k]? = some x ∧ Located l (k + 1) xs

namespace Located

variable {α : Type} {l xs ys : List α} {k : Nat}

theorem of_eq (before xs after : List α) : Located (before ++ (xs ++ after)) before.length xs := by
  induction xs generalizing before with
  | nil => exact trivial
  | cons x xs ih =>
    refine ⟨by simp, ?_⟩
    have := ih (before ++ [x])
    rwa [List.append_assoc, List.singleton_append, List.length_append, List.length_singleton,
      ← List.cons_append] at this

theorem append_iff : Located l k (xs ++ ys) ↔ Located l k xs ∧ Located l (k + xs.length) ys := by
  induction xs generalizing k with
  | nil => simp [Located]
  | cons x xs ih =>
    simp only [List.cons_append, Located, ih, List.length_cons, and_assoc]
    rw [show k + 1 + xs.length = k + (xs.length + 1) by omega]

theorem get (h : Located l k xs) {j : Nat} {x : α} (hx : xs[j]? = some x) : l[k + j]? = some x := by
  induction xs generalizing k j with
  | nil => simp at hx
  | cons y xs ih =>
    obtain _ | j := j
    · rw [← hx]
      exact h.1
    · rw [show k + (j + 1) = k + 1 + j by omega]
      exact ih h.2 hx

end Located

theorem forall_of_mapM_eq_ok {α β ε : Type} {f : α → Except ε β} {l : List α} {bs : List β}
    (h : l.mapM f = .ok bs) :
    bs.length = l.length ∧ ∀ (i : Nat) (a : α), l[i]? = some a → ∃ b, f a = .ok b ∧ bs[i]? = some b := by
  induction l generalizing bs with
  | nil =>
    cases h
    exact ⟨rfl, by simp⟩
  | cons x xs ih =>
    rw [List.mapM_cons] at h
    cases hx : f x with
    | error e => rw [hx] at h; cases h
    | ok b =>
      cases hxs : xs.mapM f with
      | error e => rw [hx, hxs] at h; cases h
      | ok bs' =>
        rw [hx, hxs] at h
        cases h
        obtain ⟨hlen, hget⟩ := ih hxs
        refine ⟨by simp [hlen], fun i a hi => ?_⟩
        obtain _ | i := i
        · cases hi
          exact ⟨b, hx, rfl⟩
        · exact hget i a hi

theorem mapM_eq_ok_of_forall {α β ε : Type} {f : α → Except ε β} {l : List α}
    (h : ∀ a ∈ l, ∃ b, f a = .ok b) : ∃ bs, l.mapM f = .ok bs := by
  induction l with
  | nil => exact ⟨[], rfl⟩
  | cons x xs ih =>
    obtain ⟨b, hb⟩ := h x (by simp)
    obtain ⟨bs, hbs⟩ := ih fun a ha => h a (by simp [ha])
    exact ⟨b :: bs, by rw [List.mapM_cons, hb, hbs]; rfl⟩

theorem forall_of_array_mapM_eq_ok {α β ε : Type} {f : α → Except ε β} {l : Array α} {bs : Array β}
    (h : l.mapM f = .ok bs) :
    bs.size = l.size ∧ ∀ (i : Nat) (a : α), l[i]? = some a → ∃ b, f a = .ok b ∧ bs[i]? = some b := by
  have hlist : l.toList.mapM f = .ok bs.toList := by
    rw [← Array.toList_mapM, h]
    rfl
  obtain ⟨hlen, hget⟩ := forall_of_mapM_eq_ok hlist
  refine ⟨by simpa using hlen, fun i a hi => ?_⟩
  obtain ⟨b, hb, hbs⟩ := hget i a (by rwa [Array.getElem?_toList])
  exact ⟨b, hb, by rwa [← Array.getElem?_toList]⟩

theorem array_mapM_eq_ok_of_forall {α β ε : Type} {f : α → Except ε β} {l : Array α}
    (h : ∀ a ∈ l, ∃ b, f a = .ok b) : ∃ bs, l.mapM f = .ok bs := by
  obtain ⟨bs, hbs⟩ := mapM_eq_ok_of_forall (l := l.toList) fun a ha => h a (Array.mem_toList_iff.1 ha)
  exact ⟨bs.toArray, by rw [Array.mapM_eq_mapM_toList, hbs]; rfl⟩

end TapeLang
