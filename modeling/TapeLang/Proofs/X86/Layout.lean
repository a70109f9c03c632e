import Mathlib
import TapeLang.X86.Layout

/-!
# What layout finds

In the layout of a sequence of pieces every piece has one of its own sizes and starts where the sizes
before it add up, and a short branch has room for its displacement. All of this is an invariant of
the rounds (`Layout.Sound`). The last part is because sizes only shrink: a displacement keeps its
sign and gets no larger (`fitsByte_gap`), and what a round estimates for a target ahead counts the
pieces in between at their old sizes.
-/

namespace TapeLang.X86

theorem fitsByte_iff {n : Int} : fitsByte n = true ↔ -128 ≤ n ∧ n ≤ 127 := by
  rw [fitsByte, Bool.and_eq_true, decide_eq_true_eq, decide_eq_true_eq]

/-- A size that a piece may have in the end. -/
def Extent.Allows : Extent → Nat → Prop
  | .fixed s, n => n = s
  | .branch b _, n => n = Branch.shortSize ∨ n = b.longSize

theorem Branch.shortSize_lt_longSize (b : Branch) : Branch.shortSize < b.longSize := by
  cases b <;> decide

namespace Layout

/-- The size of the piece at `k`. -/
def sizeAt (sizes : Array Nat) (k : Nat) : Nat := sizes[k]?.getD 0

/-- What the sizes of the pieces before `k` add up to. -/
def total (sizes : Array Nat) : Nat → Nat
  | 0 => 0
  | k + 1 => total sizes k + sizeAt sizes k

/-- The displacement of a branch at `k` to the piece at `t`. -/
def gap (sizes : Array Nat) (k t : Nat) : Int := total sizes t - (total sizes k + sizeAt sizes k : Nat)

section Total

variable {sizes sizes' : Array Nat}

theorem total_congr {k : Nat} (h : ∀ j < k, sizeAt sizes' j = sizeAt sizes j) : total sizes' k = total sizes k := by
  induction k with
  | zero => rfl
  | succ k ih => rw [total, total, ih fun j hj => h j (by omega), h k (by omega)]

theorem total_le_total {j k : Nat} (h : j ≤ k) : total sizes j ≤ total sizes k := by
  induction k with
  | zero =>
    obtain rfl : j = 0 := by omega
    exact Nat.le_refl _
  | succ k ih =>
    rcases Nat.eq_or_lt_of_le h with rfl | hlt
    · exact Nat.le_refl _
    · have := ih (by omega)
      rw [total]
      omega

theorem total_le_of_size_le {n : Nat} (h : sizes.size ≤ n) (k : Nat) : total sizes k ≤ total sizes n := by
  induction k with
  | zero => exact total_le_total (Nat.zero_le n)
  | succ k ih =>
    rcases Nat.lt_or_ge k n with hlt | hge
    · exact total_le_total hlt
    · rw [total, sizeAt, Array.getElem?_eq_none (by omega), Option.getD_none]
      exact ih

/-- Between two places no less is left where sizes have shrunk. -/
theorem total_sub_le (h : ∀ i, sizeAt sizes' i ≤ sizeAt sizes i) {j k : Nat} (hjk : j ≤ k) :
    total sizes' k + total sizes j ≤ total sizes k + total sizes' j := by
  induction k with
  | zero =>
    obtain rfl : j = 0 := by omega
    exact Nat.le_refl _
  | succ k ih =>
    rcases Nat.eq_or_lt_of_le hjk with rfl | hlt
    · omega
    · have h₁ := ih (by omega)
      have h₂ := h k
      rw [total, total]
      omega

/-- A displacement that fits a byte still does where sizes have shrunk. -/
theorem fitsByte_gap (h : ∀ i, sizeAt sizes' i ≤ sizeAt sizes i) {k t : Nat}
    (hf : fitsByte (gap sizes k t) = true) : fitsByte (gap sizes' k t) = true := by
  rw [fitsByte_iff, gap] at hf ⊢
  have hk := h k
  rcases Nat.lt_or_ge k t with hlt | hge
  · have h₁ := total_sub_le h (show k + 1 ≤ t from hlt)
    have h₂ : total sizes' (k + 1) ≤ total sizes' t := total_le_total hlt
    simp only [total] at h₁ h₂
    omega
  · have h₁ := total_sub_le h hge
    have h₂ : total sizes' t ≤ total sizes' k := total_le_total hge
    omega

theorem sizeAt_set {i : Nat} (hi : i < sizes.size) (v j : Nat) :
    sizeAt (sizes.setIfInBounds i v) j = if i = j then v else sizeAt sizes j := by
  rw [sizeAt, sizeAt, Array.getElem?_setIfInBounds]
  split
  · rfl
  · rfl

theorem sizeAt_set_le {k v : Nat} (hk : k < sizes.size) (hv : v ≤ sizeAt sizes' k)
    (h : ∀ i, sizeAt sizes i ≤ sizeAt sizes' i) (i : Nat) :
    sizeAt (sizes.setIfInBounds k v) i ≤ sizeAt sizes' i := by
  rw [sizeAt_set hk]
  split
  · subst i
    exact hv
  · exact h i

/-- A size counts only behind its piece. -/
theorem total_set {j k : Nat} (hk : k < sizes.size) (v : Nat) (hj : j ≤ k) :
    total (sizes.setIfInBounds k v) j = total sizes j :=
  total_congr fun i hi => by rw [sizeAt_set hk, if_neg (by omega)]

end Total

/-! ### Sizes and how a round changes them -/

/-- What is known of sizes at any time: those of settled pieces are final, and a short branch has room
for its displacement. -/
structure Sized (es : Array Extent) (sizes : Array Nat) (settled : Array Bool) : Prop where
  size_sizes : sizes.size = es.size
  size_settled : settled.size = es.size
  allowed {j : Nat} {e : Extent} (he : es[j]? = some e) (hs : settled[j]? = some true) :
    e.Allows (sizeAt sizes j)
  fixed {j s : Nat} (he : es[j]? = some (.fixed s)) : settled[j]? = some true
  unsettled {j : Nat} {b : Branch} {t : Target} (he : es[j]? = some (.branch b t))
    (hs : settled[j]? = some false) : b.longSize ≤ sizeAt sizes j
  short {j t : Nat} {b : Branch} (he : es[j]? = some (.branch b (.piece t))) (ht : t < es.size)
    (hs : sizeAt sizes j = Branch.shortSize) : fitsByte (gap sizes j t) = true

/-- Deciding the size of a branch. -/
theorem Sized.set {es : Array Extent} {sizes : Array Nat} {settled : Array Bool}
    (h : Sized es sizes settled) {k new : Nat} {b : Branch} {t : Target} {flag : Bool}
    (he : es[k]? = some (.branch b t)) (hopen : settled[k]? = some false)
    (hnew : Extent.Allows (.branch b t) new) (hflag : flag = false → new = b.longSize)
    (hfit : new = Branch.shortSize → ∀ u, t = .piece u → u < es.size →
      fitsByte (gap (sizes.setIfInBounds k new) k u) = true) :
    Sized es (sizes.setIfInBounds k new) (settled.setIfInBounds k flag) := by
  have hk : k < es.size := (Array.getElem?_eq_some_iff.1 he).1
  have hks : k < sizes.size := by rwa [h.size_sizes]
  have hkf : k < settled.size := by rwa [h.size_settled]
  have hlong := h.unsettled he hopen
  have hshort := b.shortSize_lt_longSize
  have hnewle : new ≤ sizeAt sizes k := by rcases hnew with rfl | rfl <;> omega
  refine ⟨by rw [Array.size_setIfInBounds, h.size_sizes], by rw [Array.size_setIfInBounds, h.size_settled],
    ?_, ?_, ?_, ?_⟩
  · intro j e hj hs
    rw [sizeAt_set hks]
    rw [Array.getElem?_setIfInBounds] at hs
    by_cases hkj : k = j
    · subst hkj
      rw [if_pos rfl]
      rw [he] at hj
      cases hj
      exact hnew
    · rw [if_neg hkj] at hs ⊢
      exact h.allowed hj hs
  · intro j s hj
    have hkj : k ≠ j := by
      rintro rfl
      rw [he] at hj
      cases hj
    rw [Array.getElem?_setIfInBounds, if_neg hkj]
    exact h.fixed hj
  · intro j b' t' hj hs
    rw [sizeAt_set hks]
    rw [Array.getElem?_setIfInBounds] at hs
    by_cases hkj : k = j
    · subst hkj
      rw [if_pos rfl]
      rw [if_pos rfl, if_pos hkf] at hs
      rw [he] at hj
      cases hj
      cases hs
      exact Nat.le_of_eq (hflag rfl).symm
    · rw [if_neg hkj] at hs ⊢
      exact h.unsettled hj hs
  · intro j u b' hj hu hs
    by_cases hkj : k = j
    · subst hkj
      rw [sizeAt_set hks, if_pos rfl] at hs
      rw [he] at hj
      cases hj
      exact hfit hs u rfl hu
    · rw [sizeAt_set hks, if_neg hkj] at hs
      exact fitsByte_gap (sizeAt_set_le hks hnewle fun _ => Nat.le_refl _) (h.short hj hu hs)

/-! ### A round -/

/-- What is known of a layout between rounds. -/
structure Sound (es : Array Extent) (L : Layout) : Prop extends Sized es L.sizes L.settled where
  size_starts : L.starts.size = es.size
  start {j : Nat} (hj : j < es.size) : L.starts[j]? = some (total L.sizes j)

/-- What is known of a round that has visited `k` pieces of a layout. -/
structure Visited (es : Array Extent) (old : Layout) (k : Nat) (r : Round) : Prop
    extends Sized es r.layout.sizes r.layout.settled where
  index : r.index = k
  here : r.here = total r.layout.sizes k
  gained : r.here + r.gained = total old.sizes k
  le (j : Nat) : sizeAt r.layout.sizes j ≤ sizeAt old.sizes j
  size_starts : r.layout.starts.size = es.size
  start_behind {j : Nat} (hj : j < k) : r.layout.starts[j]? = some (total r.layout.sizes j)
  start_ahead {j : Nat} (hk : k ≤ j) (hj : j < es.size) : r.layout.starts[j]? = some (total old.sizes j)
  size_ahead {j : Nat} (hk : k ≤ j) : sizeAt r.layout.sizes j = sizeAt old.sizes j
  final {j : Nat} {e : Extent} (hj : j < k) (he : es[j]? = some e) : e.Allows (sizeAt r.layout.sizes j)

theorem Visited.start {es : Array Extent} {L : Layout} (h : Sound es L) : Visited es L 0 { layout := L } where
  toSized := h.toSized
  index := rfl
  here := rfl
  gained := rfl
  le _ := Nat.le_refl _
  size_starts := h.size_starts
  start_behind hj := absurd hj (Nat.not_lt_zero _)
  start_ahead _ hj := h.start hj
  size_ahead _ := rfl
  final hj := absurd hj (Nat.not_lt_zero _)

section Starts

variable {es : Array Extent} {old : Layout} {j k : Nat} {r : Round} (h : Visited es old k r)
include h

/-- A visit writes down where its piece starts, and those before it stay. -/
theorem Visited.start_behind_set (hk : k < es.size) (hj : j ≤ k) :
    (r.layout.starts.setIfInBounds k r.here)[j]? = some (total r.layout.sizes j) := by
  rcases Nat.eq_or_lt_of_le hj with rfl | hlt
  · rw [Array.getElem?_setIfInBounds_self_of_lt (by rwa [h.size_starts]), h.here]
  · rw [Array.getElem?_setIfInBounds_ne (by omega), h.start_behind hlt]

theorem Visited.start_ahead_set (hk : k < j) (hj : j < es.size) :
    (r.layout.starts.setIfInBounds k r.here)[j]? = some (total old.sizes j) := by
  rw [Array.getElem?_setIfInBounds_ne (by omega), h.start_ahead (by omega) hj]

end Starts

/-- What is estimated for a short branch is at least what it will be. -/
theorem Visited.fitsByte_of_estimate {es : Array Extent} {old : Layout} {k : Nat} {r : Round}
    (h : Visited es old k r) (hk : k < es.size) (hold : Branch.shortSize ≤ sizeAt old.sizes k) {u : Nat}
    (hu : u < es.size)
    (hf : fitsByte (estimate (r.layout.starts.setIfInBounds k r.here) r.here r.gained (.piece u)) = true) :
    fitsByte (gap (r.layout.sizes.setIfInBounds k Branch.shortSize) k u) = true := by
  have hks : k < r.layout.sizes.size := by rwa [h.size_sizes]
  have hhere := h.here
  have hgained := h.gained
  have htotal {j : Nat} (hj : j ≤ k) := total_set hks Branch.shortSize hj
  have hself : sizeAt (r.layout.sizes.setIfInBounds k Branch.shortSize) k = Branch.shortSize := by
    rw [sizeAt_set hks, if_pos rfl]
  rw [fitsByte_iff] at hf ⊢
  rw [gap, htotal (Nat.le_refl k), hself]
  rcases Nat.lt_or_ge k u with hgt | hle
  · -- ahead: the pieces in between count at their old sizes
    have hshrink := sizeAt_set_le hks hold h.le
    have hbetween := total_sub_le hshrink (show k + 1 ≤ u from hgt)
    have hle : total (r.layout.sizes.setIfInBounds k Branch.shortSize) (k + 1) ≤
        total (r.layout.sizes.setIfInBounds k Branch.shortSize) u := total_le_total hgt
    have hle' : total old.sizes (k + 1) ≤ total old.sizes u := total_le_total hgt
    simp only [total, htotal (Nat.le_refl k), hself] at hbetween hle hle'
    simp only [estimate, h.start_ahead_set hgt hu, Option.getD_some] at hf
    rw [if_pos (by omega)] at hf
    omega
  · -- behind: the places are those of this round
    have hle' : total r.layout.sizes u ≤ total r.layout.sizes k := total_le_total hle
    simp only [estimate, h.start_behind_set hk hle, Option.getD_some] at hf
    rw [if_neg (by simp only [Branch.shortSize]; omega)] at hf
    rw [htotal hle]
    omega

/-- A piece that keeps its size. -/
theorem Visited.keep {es : Array Extent} {old : Layout} {k : Nat} {r : Round} (h : Visited es old k r)
    (hk : k < es.size) (hallowed : ∀ e, es[k]? = some e → e.Allows (sizeAt r.layout.sizes k)) :
    Visited es old (k + 1)
      { layout := { r.layout with starts := r.layout.starts.setIfInBounds k r.here }
        index := k + 1, here := r.here + sizeAt r.layout.sizes k, gained := r.gained, shrunk := r.shrunk } where
  toSized := h.toSized
  index := rfl
  here := by
    show r.here + _ = total r.layout.sizes k + _
    rw [h.here]
  gained := by
    have hgained := h.gained
    show r.here + sizeAt r.layout.sizes k + r.gained = total old.sizes k + sizeAt old.sizes k
    rw [h.size_ahead (Nat.le_refl k)]
    omega
  le := h.le
  size_starts := by rw [Array.size_setIfInBounds, h.size_starts]
  start_behind hj := h.start_behind_set hk (Nat.le_of_lt_succ hj)
  start_ahead hkj hj := h.start_ahead_set hkj hj
  size_ahead {j} hkj := h.size_ahead (by omega)
  final {j e} hj he := by
    rcases Nat.eq_or_lt_of_le (Nat.le_of_lt_succ hj) with rfl | hlt
    · exact hallowed e he
    · exact h.final hlt he

/-- A branch that is given a size. -/
theorem Visited.assign {es : Array Extent} {old : Layout} {k new : Nat} {r : Round} {b : Branch} {t : Target}
    {flag shrunk : Bool} (h : Visited es old k r) (he : es[k]? = some (.branch b t))
    (hopen : r.layout.settled[k]? = some false) (hnew : Extent.Allows (.branch b t) new)
    (hflag : flag = false → new = b.longSize)
    (hfit : new = Branch.shortSize → ∀ u, t = .piece u → u < es.size →
      fitsByte (gap (r.layout.sizes.setIfInBounds k new) k u) = true) :
    Visited es old (k + 1)
      { layout := {
          sizes := r.layout.sizes.setIfInBounds k new
          starts := r.layout.starts.setIfInBounds k r.here
          settled := r.layout.settled.setIfInBounds k flag }
        index := k + 1, here := r.here + new, gained := r.gained + (sizeAt r.layout.sizes k - new), shrunk } := by
  have hk : k < es.size := (Array.getElem?_eq_some_iff.1 he).1
  have hks : k < r.layout.sizes.size := by rwa [h.size_sizes]
  have hlong := h.unsettled he hopen
  have hshort := b.shortSize_lt_longSize
  have hle : new ≤ sizeAt r.layout.sizes k := by rcases hnew with rfl | rfl <;> omega
  have hset (i : Nat) := sizeAt_set hks new i
  refine
    { toSized := h.toSized.set he hopen hnew hflag hfit
      index := rfl
      here := ?_
      gained := ?_
      le := sizeAt_set_le hks (Nat.le_trans hle (h.le k)) h.le
      size_starts := by rw [Array.size_setIfInBounds, h.size_starts]
      start_behind := ?_
      start_ahead := h.start_ahead_set
      size_ahead := ?_
      final := ?_ }
  · show r.here + new = total _ k + _
    rw [total_set hks new (Nat.le_refl k), hset, if_pos rfl, h.here]
  · have hgained := h.gained
    show r.here + new + (r.gained + (sizeAt r.layout.sizes k - new)) = total old.sizes k + sizeAt old.sizes k
    rw [← h.size_ahead (Nat.le_refl k)]
    omega
  · intro j hj
    rw [total_set hks new (Nat.le_of_lt_succ hj)]
    exact h.start_behind_set hk (Nat.le_of_lt_succ hj)
  · intro j hkj
    rw [hset, if_neg (by omega), h.size_ahead (by omega)]
  · intro j e hj hje
    rw [hset]
    rcases Nat.eq_or_lt_of_le (Nat.le_of_lt_succ hj) with rfl | hlt
    · rw [if_pos rfl]
      rw [he] at hje
      cases hje
      exact hnew
    · rw [if_neg (by omega)]
      exact h.final hlt hje

theorem Visited.visit {es : Array Extent} {old : Layout} {k : Nat} {r : Round} (h : Visited es old k r)
    {e : Extent} (he : es[k]? = some e) : Visited es old (k + 1) (r.visit e) := by
  have hk : k < es.size := (Array.getElem?_eq_some_iff.1 he).1
  have hkf : k < r.layout.settled.size := by rwa [h.size_settled]
  have hget : r.layout.settled[k]? = some r.layout.settled[k] := Array.getElem?_eq_getElem hkf
  generalize r.layout.settled[k] = closed at hget
  have hkeep (hc : closed = true) := h.keep hk fun e' he' => h.allowed he' (by rw [hget, hc])
  obtain ⟨⟨sizes, starts, settled⟩, index, here, gained, shrunk⟩ := r
  obtain rfl : index = k := h.index
  have hget' : settled[index]? = some closed := hget
  cases e with
  | fixed s =>
    have hfixed := h.fixed he
    exact hkeep (by rw [hget] at hfixed; cases hfixed; rfl)
  | branch b t =>
    cases closed with
    | true =>
      simp only [Round.visit, hget', Option.getD_some, Bool.not_true, Bool.false_eq_true, if_false]
      exact hkeep rfl
    | false =>
      simp only [Round.visit, hget', Option.getD_some, Bool.not_false, if_true]
      refine h.assign he hget ?_ ?_ ?_
      · split
        · exact .inl rfl
        · exact .inr rfl
      · intro hflag
        rw [Bool.or_eq_false_iff] at hflag
        rw [hflag.1]
        rfl
      · intro hnew u ht hu
        subst ht
        have hlong := h.unsettled he hget
        have hshort := b.shortSize_lt_longSize
        have hold := h.size_ahead (Nat.le_refl index)
        split at hnew
        · rename_i hf
          rw [if_pos hf]
          exact h.fitsByte_of_estimate hk (by omega) hu hf
        · omega

/-! ### The layout -/

/-- A layout in which all sizes are final. -/
structure Final (es : Array Extent) (L : Layout) : Prop extends Sound es L where
  final {j : Nat} {e : Extent} (he : es[j]? = some e) : e.Allows (sizeAt L.sizes j)

theorem Sound.round {es : Array Extent} {L : Layout} (h : Sound es L) : Final es (round es L).layout := by
  have hv : Visited es L es.size (Layout.round es L) := by
    refine Array.foldl_induction (Visited es L) (.start h) fun k r hr => ?_
    exact hr.visit (Array.getElem?_eq_getElem k.isLt)
  exact
    { toSized := hv.toSized
      size_starts := hv.size_starts
      start := hv.start_behind
      final := fun he => hv.final (Array.getElem?_eq_some_iff.1 he).1 he }

theorem Sound.relax {es : Array Extent} {L : Layout} (h : Sound es L) (n : Nat) :
    Final es (relax es (n + 1) L) := by
  induction n generalizing L with
  | zero =>
    rw [Layout.relax]
    split <;> exact h.round
  | succ n ih =>
    rw [Layout.relax]
    split
    · exact ih h.round.toSound
    · exact h.round

theorem startsTo_spec (starts : Array Nat) (here : Nat) (l : List Nat) :
    (startsTo starts here l).size = starts.size + l.length ∧
      (∀ j < starts.size, (startsTo starts here l)[j]? = starts[j]?) ∧
      ∀ j < l.length, (startsTo starts here l)[starts.size + j]? = some (here + (l.take j).sum) := by
  induction l generalizing starts here with
  | nil => exact ⟨rfl, fun _ _ => rfl, fun j hj => absurd hj (Nat.not_lt_zero j)⟩
  | cons size l ih =>
    obtain ⟨hsize, hbefore, hafter⟩ := ih (starts.push here) (here + size)
    rw [Array.size_push] at hsize hbefore hafter
    refine ⟨by rw [startsTo, hsize, List.length_cons]; omega, ?_, ?_⟩
    · intro j hj
      rw [startsTo, hbefore j (by omega), Array.getElem?_push_lt hj]
      exact (Array.getElem?_eq_getElem hj).symm
    · intro j hj
      obtain _ | j := j
      · rw [startsTo, Nat.add_zero, hbefore _ (by omega), Array.getElem?_push_size]
        simp
      · rw [startsTo, show starts.size + (j + 1) = starts.size + 1 + j by omega,
          hafter j (by simpa using hj)]
        simp [Nat.add_assoc]

theorem total_eq_sum (sizes : Array Nat) (k : Nat) : total sizes k = (sizes.toList.take k).sum := by
  induction k with
  | zero => rfl
  | succ k ih =>
    rw [total, ih, sizeAt, List.take_add_one, List.sum_append, Array.getElem?_toList]
    cases sizes[k]? <;> simp

theorem first_sound (es : Array Extent) : Sound es (first es) := by
  have hget (j : Nat) : sizeAt (first es).sizes j = (es[j]?.map firstSize).getD 0 := by
    simp [sizeAt, first]
  obtain ⟨hsize, _, hstarts⟩ := startsTo_spec #[] 0 (es.map firstSize).toList
  rw [Array.length_toList, Array.size_map] at hsize hstarts
  refine
    { size_sizes := by simp [first]
      size_settled := by simp [first]
      size_starts := by simpa [first, startsOf] using hsize
      start := ?_
      allowed := ?_
      fixed := ?_
      unsettled := ?_
      short := ?_ }
  · intro j he hj hs
    cases he' : he with
    | fixed s => rw [hget, hj, he']; rfl
    | branch b t => simp [first, hj, he'] at hs
  · intro j s hj
    simp [first, hj]
  · intro j b t hj _
    rw [hget, hj]
    show b.longSize ≤ boundOf b
    cases b <;> decide
  · intro j t b hj _ hs
    rw [hget, hj] at hs
    cases b <;> cases hs
  · intro j hj
    have := hstarts j hj
    rw [total_eq_sum]
    simpa [first, startsOf] using this

/-- The layout of a sequence of pieces is sound, and its sizes are final. -/
theorem ofExtents_final (es : Array Extent) : Final es (ofExtents es) := (first_sound es).relax 4

end Layout

end TapeLang.X86
