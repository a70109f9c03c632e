import TapeLang.Proofs.Nesting.Open

/-!
# The stack of a reader

`Nesting.Pending side l pending`: reading `l` leaves the brackets at the indices `pending` open, the innermost first.
What stands between two of them, before the first and behind the last is nested. Reading one symbol more pushes an
index, pops one or keeps the stack (`Pending.plain`, `Pending.opening`, `Pending.closing`), and the bracket that is
popped is the partner of the one that is read (`Pending.partner`).

The stack holds the brackets that are open, and nothing else (`Pending.mem_iff_openAt`), and its height is the depth
(`Pending.depth_eq`). If all brackets are nested, these are the pairs around the symbol that is read next, and the
pair that it closes (`Pending.mem_iff_partner`); so the depth counts the pairs around a symbol
(`ncard_around`).
-/

namespace TapeLang.Nesting

/-- The brackets that a sequence leaves open, innermost first. -/
inductive Pending {α : Type} (side : α → Option Side) : List α → List Nat → Prop where
  | nested {l : List α} (hl : Nested side l) : Pending side l []
  | opened {front mid : List α} {a : α} {pending : List Nat} (hfront : Pending side front pending)
    (ha : side a = some .opening) (hmid : Nested side mid) :
    Pending side (front ++ a :: mid) (front.length :: pending)

/-- The brackets that are opened before `k` and closed behind it. -/
def around {α : Type} (side : α → Option Side) (l : List α) (k : Nat) : Set Nat :=
  {i | ∃ j, Partner side l i j ∧ i < k ∧ k < j}

variable {α : Type} {side : α → Option Side} {l mid rest : List α} {a : α} {pending : List Nat} {i j k n : Nat}

namespace Pending

/-! ### Reading on -/

/-- Nested brackets leave the stack as it is. -/
theorem append_nested (h : Pending side l pending) (hmid : Nested side mid) : Pending side (l ++ mid) pending := by
  cases h with
  | nested hl => exact .nested (hl.append hmid)
  | opened hfront ha hmid' =>
    rw [List.append_assoc, List.cons_append]
    exact .opened hfront ha (hmid'.append hmid)

theorem plain (h : Pending side l pending) (ha : side a = none) : Pending side (l ++ [a]) pending :=
  h.append_nested (.plain ha .nil)

theorem opening (h : Pending side l pending) (ha : side a = some .opening) :
    Pending side (l ++ [a]) (l.length :: pending) :=
  .opened h ha .nil

theorem closing (h : Pending side l (i :: pending)) (ha : side a = some .closing) : Pending side (l ++ [a]) pending := by
  cases h with
  | @opened front mid b _ hfront hb hmid =>
    have hpair : Nested side (b :: (mid ++ [a])) := .pair hb ha hmid .nil
    have := hfront.append_nested hpair
    rwa [show front ++ b :: (mid ++ [a]) = front ++ b :: mid ++ [a] by simp] at this

/-- The bracket that is popped is the partner of the one that is read. -/
theorem partner (h : Pending side l (i :: pending)) (ha : side a = some .closing) (rest : List α) :
    Partner side (l ++ a :: rest) i l.length := by
  cases h with
  | @opened front mid b _ hfront hb hmid =>
    refine ⟨front, b, mid, a, rest, by simp, hb, ha, hmid.balanced, rfl, ?_⟩
    simp only [List.length_append, List.length_cons]
    omega

/-! ### What is on the stack -/

/-- Behind a bracket on the stack no bracket closes nothing. -/
theorem exists_of_mem (h : Pending side l pending) (hj : j ∈ pending) :
    ∃ front a rest, l = front ++ a :: rest ∧ front.length = j ∧ side a = some .opening ∧ OpenEnded side rest := by
  induction h with
  | nested => cases hj
  | @opened front mid a pending hfront ha hmid ih =>
    rcases List.mem_cons.1 hj with rfl | hj
    · exact ⟨front, a, mid, rfl, rfl, ha, .nested hmid⟩
    · obtain ⟨front', b, rest, rfl, hlen, hb, hrest⟩ := ih hj
      exact ⟨front', b, rest ++ a :: mid, by simp, hlen, hb, hrest.append (.unclosed .nil ha (.nested hmid))⟩

/-- A bracket that is opened and is not on the stack has its partner. -/
theorem exists_partner_of_notMem (h : Pending side l pending) (hj : l[j]? = some a) (ha : side a = some .opening)
    (hnot : j ∉ pending) : ∃ m, Partner side l j m := by
  induction h generalizing j with
  | @nested l hl =>
    obtain ⟨m, hm⟩ : ∃ m, Partner side (l ++ []) j m := exists_partner hl hj ha
    rw [List.append_nil] at hm
    exact ⟨m, hm⟩
  | @opened front mid b pending hfront hb hmid ih =>
    rw [List.mem_cons, not_or] at hnot
    rcases Nat.lt_or_ge j front.length with hlt | hge
    · rw [List.getElem?_append_left hlt] at hj
      obtain ⟨m, hm⟩ := ih hj hnot.2
      have := hm.surround [] (b :: mid)
      rw [List.nil_append, List.length_nil, Nat.zero_add, Nat.zero_add] at this
      exact ⟨m, this⟩
    · obtain ⟨n, rfl⟩ : ∃ n, j = front.length + 1 + n := ⟨j - front.length - 1, by omega⟩
      rw [List.getElem?_append_right (by omega),
        show front.length + 1 + n - front.length = n + 1 by omega, List.getElem?_cons_succ] at hj
      obtain ⟨m, hm⟩ : ∃ m, Partner side (mid ++ []) n m := exists_partner hmid hj ha
      have := hm.surround (front ++ [b]) []
      simp only [List.append_nil, List.append_assoc, List.singleton_append, List.length_append,
        List.length_singleton] at this
      exact ⟨_, this⟩

/-- The stack holds the brackets that are open behind what is read. -/
theorem mem_iff_openAt (h : Pending side (l.take k) pending) : j ∈ pending ↔ OpenAt side l j k := by
  rw [openAt_iff]
  constructor
  · intro hj
    obtain ⟨front, a, rest, hl, rfl, ha, hrest⟩ := h.exists_of_mem hj
    rw [hl]
    exact ⟨⟨a, by simp, ha⟩, not_partner hrest⟩
  · rintro ⟨⟨a, ha, hside⟩, hunclosed⟩
    by_contra hnot
    obtain ⟨m, hm⟩ := h.exists_partner_of_notMem ha hside hnot
    exact hunclosed m hm

theorem lt_of_mem (h : Pending side l pending) (hj : j ∈ pending) : j < l.length := by
  obtain ⟨front, a, rest, rfl, rfl, -⟩ := h.exists_of_mem hj
  simp

/-- No bracket is on the stack twice. -/
theorem nodup (h : Pending side l pending) : pending.Nodup := by
  induction h with
  | nested => exact List.nodup_nil
  | opened hfront _ _ ih => exact List.nodup_cons.2 ⟨fun hmem => Nat.lt_irrefl _ (hfront.lt_of_mem hmem), ih⟩

/-- The depth is the height of the stack. -/
theorem depth_eq (h : Pending side l pending) : depth side 0 l = some pending.length := by
  induction h with
  | nested hl => exact hl.depth_eq 0
  | opened _ ha hmid ih =>
    rw [depth_append, ih, Option.bind_some, depth_cons_opening ha, hmid.depth_eq, List.length_cons]

end Pending

/-- Reading that comes to no bracket that closes nothing has a stack. -/
theorem exists_pending (h : depth side 0 l = some n) : ∃ pending, Pending side l pending := by
  induction l using List.reverseRecOn generalizing n with
  | nil => exact ⟨[], .nested .nil⟩
  | append_singleton l a ih =>
    rw [depth_append, Option.bind_eq_some_iff] at h
    obtain ⟨m, hm, ha⟩ := h
    obtain ⟨pending, hpending⟩ := ih hm
    rw [hpending.depth_eq, Option.some.injEq] at hm
    subst hm
    match hside : side a, pending with
    | none, pending => exact ⟨pending, hpending.plain hside⟩
    | some .opening, pending => exact ⟨_, hpending.opening hside⟩
    | some .closing, i :: pending => exact ⟨pending, hpending.closing hside⟩
    | some .closing, [] => simp [depth, hside] at ha

/-! ### Pairs around a symbol -/

theorem Nested.depth_take (h : Nested side l) (k : Nat) : ∃ n, depth side 0 (l.take k) = some n := by
  have hl := h.depth_eq 0
  rw [← List.take_append_drop k l, depth_append, Option.bind_eq_some_iff] at hl
  obtain ⟨n, hn, -⟩ := hl
  exact ⟨n, hn⟩

/-- Among nested brackets the stack holds those that are closed later. -/
theorem Pending.mem_iff_partner (hl : Nested side l) (h : Pending side (l.take k) pending) :
    i ∈ pending ↔ ∃ j, Partner side l i j ∧ i < k ∧ k ≤ j := by
  rw [h.mem_iff_openAt]
  constructor
  · rintro ⟨hlt, ⟨a, ha, hside⟩, hunclosed⟩
    obtain ⟨j, hj⟩ : ∃ j, Partner side (l ++ []) i j := exists_partner hl ha hside
    rw [List.append_nil] at hj
    exact ⟨j, hj, hlt, Nat.le_of_not_lt fun hjk => hunclosed j hjk hj⟩
  · rintro ⟨j, hj, hlt, hle⟩
    refine ⟨hlt, hj.exists_sides.1, fun m hm hpartner => ?_⟩
    rw [hpartner.close_unique hj] at hm
    omega

theorem ncard_mem_of_nodup (h : pending.Nodup) : {i | i ∈ pending}.ncard = pending.length := by
  rw [← List.coe_toFinset, Set.ncard_coe_finset, List.toFinset_card_of_nodup h]

/-- Around a symbol that closes nothing are the pairs whose brackets are on the stack. -/
theorem Pending.around_eq (hl : Nested side l) (h : Pending side (l.take k) pending) (hk : l[k]? = some a)
    (ha : side a ≠ some .closing) : around side l k = {i | i ∈ pending} := by
  ext i
  refine Iff.trans ?_ (h.mem_iff_partner hl).symm
  constructor
  · rintro ⟨j, hj, hik, hkj⟩
    exact ⟨j, hj, hik, Nat.le_of_lt hkj⟩
  · rintro ⟨j, hj, hik, hkj⟩
    refine ⟨j, hj, hik, Nat.lt_of_le_of_ne hkj ?_⟩
    rintro rfl
    obtain ⟨-, b, hb, hclosing⟩ := hj.exists_sides
    rw [hk, Option.some.injEq] at hb
    exact ha (hb ▸ hclosing)

/-- Of a pair of its own a closing symbol takes the bracket off the stack; around it are the rest. -/
theorem Pending.around_eq_tail {s : Nat} (hl : Nested side l) (h : Pending side (l.take k) (s :: pending))
    (hpair : Partner side l s k) : around side l k = {i | i ∈ pending} := by
  ext i
  have hmem := h.mem_iff_partner hl (i := i)
  rw [List.mem_cons] at hmem
  constructor
  · rintro ⟨j, hj, hik, hkj⟩
    rcases hmem.2 ⟨j, hj, hik, Nat.le_of_lt hkj⟩ with rfl | hi
    · exact absurd (hj.close_unique hpair) (Nat.ne_of_gt hkj)
    · exact hi
  · intro hi
    obtain ⟨j, hj, hik, hkj⟩ := hmem.1 (.inr hi)
    refine ⟨j, hj, hik, Nat.lt_of_le_of_ne hkj ?_⟩
    rintro rfl
    exact (List.nodup_cons.1 h.nodup).1 (hj.open_unique hpair ▸ hi)

/-- The depth at a symbol is the number of pairs around it, or one more where it closes a pair itself. -/
theorem ncard_around (hl : Nested side l) (hk : l[k]? = some a) (h : depth side 0 (l.take k) = some n) :
    (around side l k).ncard = if side a = some .closing then n - 1 else n := by
  obtain ⟨pending, hpending⟩ := exists_pending h
  rw [hpending.depth_eq, Option.some.injEq] at h
  subst h
  split
  case isFalse hside => rw [hpending.around_eq hl hk hside, ncard_mem_of_nodup hpending.nodup]
  case isTrue hside =>
    obtain ⟨hlt, hget⟩ := List.getElem?_eq_some_iff.1 hk
    have hsplit : l = l.take k ++ a :: l.drop (k + 1) := by
      rw [← hget, List.getElem_cons_drop, List.take_append_drop]
    have hlen : (l.take k).length = k := by
      rw [List.length_take]
      omega
    cases pending with
    | nil =>
      -- the symbol would close nothing
      have hdepth := hl.depth_eq 0
      rw [hsplit, depth_append, hpending.depth_eq, Option.bind_some, List.length_nil,
        depth_zero_cons_closing hside] at hdepth
      cases hdepth
    | cons s pending =>
      have hpair := hpending.partner hside (l.drop (k + 1))
      rw [← hsplit, hlen] at hpair
      rw [hpending.around_eq_tail hl hpair, ncard_mem_of_nodup (List.nodup_cons.1 hpending.nodup).2, List.length_cons,
        Nat.add_sub_cancel]

end TapeLang.Nesting
