import TapeLang.Proofs.Nesting.Linking

/-!
# Programs whose brackets carry their partners

The partner of a bracket is what nesting makes it: `Nesting.Partner` says that what stands between two brackets
is balanced. A bracket has one partner at most (`Partner.close_unique`, `Partner.open_unique`), whatever stands
around the two, and partners are a matter of the sides alone (`Partner.of_map_side`).

`Program.Matched p` says of a program what linking is for: its brackets are balanced and each carries the index
of its partner. The grammar `Program.Linked` describes the same programs (`linked_iff_matched`), and linking
leaves them as they are (`Matched.link_eq`).
-/

namespace TapeLang

namespace Nesting

variable {α β : Type} {side : α → Option Side} {side' : β → Option Side} {l : List α} {l' : List β} {i j i' j' : Nat}

/-- Partners stay partners, moved on, when something is put around the sequence. -/
theorem Partner.surround (h : Partner side l i j) (before after : List α) :
    Partner side (before ++ (l ++ after)) (before.length + i) (before.length + j) := by
  obtain ⟨front, a, mid, b, rest, rfl, ha, hb, hmid, rfl, rfl⟩ := h
  refine ⟨before ++ front, a, mid, b, rest ++ after, by simp, ha, hb, hmid, by simp, by omega⟩

/-- Symbols at both ends of a pair. -/
theorem Partner.exists_sides (h : Partner side l i j) :
    (∃ a, l[i]? = some a ∧ side a = some .opening) ∧ ∃ b, l[j]? = some b ∧ side b = some .closing := by
  obtain ⟨front, a, mid, b, rest, rfl, ha, hb, hmid, rfl, rfl⟩ := h
  refine ⟨⟨a, by simp, ha⟩, b, ?_, hb⟩
  rw [List.getElem?_append_right (by omega), show front.length + mid.length + 1 - front.length = mid.length + 1 by omega,
    List.getElem?_cons_succ, List.getElem?_append_right (Nat.le_refl _), Nat.sub_self, List.getElem?_cons_zero]

theorem map_side_eq (h : l.map side = l'.map side') :
    opens side l = opens side' l' ∧ closes side l = closes side' l' := by
  have hcount (s : Side) : l.countP (side · = some s) = l'.countP (side' · = some s) := by
    have := congrArg (List.countP (· = some s)) h
    simpa only [List.countP_map, Function.comp_def] using this
  exact ⟨hcount .opening, hcount .closing⟩

/-- Balance is a matter of the sides alone. -/
theorem Balanced.of_map_side (h : l.map side = l'.map side') (hl : Balanced side l) : Balanced side' l' := by
  refine ⟨fun front' hfront' => ?_, ?_⟩
  · obtain ⟨rest', rfl⟩ := hfront'
    rw [List.map_append] at h
    obtain ⟨front, rest, rfl, hfront, -⟩ := List.map_eq_append_iff.1 h
    obtain ⟨hopens, hcloses⟩ := map_side_eq hfront
    have := hl.1 front (List.prefix_append _ _)
    omega
  · obtain ⟨hopens, hcloses⟩ := map_side_eq h
    have := hl.2
    omega

/-- Partners are a matter of the sides alone. -/
theorem Partner.of_map_side (h : l.map side = l'.map side') (hl : Partner side l i j) : Partner side' l' i j := by
  obtain ⟨front, a, mid, b, rest, rfl, ha, hb, hmid, rfl, rfl⟩ := hl
  rw [List.map_append] at h
  obtain ⟨front', tail, rfl, hfront, htail⟩ := List.map_eq_append_iff.1 h.symm
  obtain ⟨a', tail, rfl, ha', htail⟩ := List.map_eq_cons_iff.1 htail
  rw [List.map_append] at htail
  obtain ⟨mid', tail, rfl, hmid', htail⟩ := List.map_eq_append_iff.1 htail
  obtain ⟨b', rest', rfl, hb', -⟩ := List.map_eq_cons_iff.1 htail
  have hfrontLen : front'.length = front.length := by simpa using congrArg List.length hfront
  have hmidLen : mid'.length = mid.length := by simpa using congrArg List.length hmid'
  exact ⟨front', a', mid', b', rest', rfl, ha'.trans ha, hb'.trans hb, hmid.of_map_side hmid'.symm, hfrontLen,
    by omega⟩

/-- A balanced sequence that is read as far as another one does not go behind the bracket that closes that one. -/
theorem length_le_of_balanced {mid mid' rest rest' : List α} {b b' : α} (h : mid ++ b :: rest = mid' ++ b' :: rest')
    (hb : side b = some .closing) (hmid : Balanced side mid) (hmid' : Balanced side mid') :
    mid'.length ≤ mid.length := by
  by_contra hlt
  have hfront : mid ++ [b] <+: mid' := by
    refine List.prefix_of_prefix_length_le ⟨rest, by simp⟩ (h ▸ List.prefix_append mid' _) ?_
    simp only [List.length_append, List.length_singleton]
    omega
  exact not_closes_le_of_unmatched (nested_iff_balanced.2 hmid) hb (hmid'.1 _ hfront)

/-- A bracket is closed by one bracket at most. -/
theorem Partner.close_unique (h : Partner side l i j) (h' : Partner side l i j') : j = j' := by
  obtain ⟨front, a, mid, b, rest, hl, -, hb, hmid, rfl, rfl⟩ := h
  obtain ⟨front', a', mid', b', rest', hl', -, hb', hmid', hlen, rfl⟩ := h'
  obtain ⟨rfl, htail⟩ := List.append_inj (hl.symm.trans hl') hlen.symm
  have hbehind := (List.cons.inj htail).2
  have hle := length_le_of_balanced hbehind hb hmid hmid'
  have hge := length_le_of_balanced hbehind.symm hb' hmid' hmid
  omega

/-- The bracket that a pair opens does not stand inside of a pair that ends where this one ends. -/
theorem Partner.not_lt_of_close_eq (h : Partner side l i j) (h' : Partner side l i' j) : ¬ i < i' := by
  intro hlt
  obtain ⟨front, a, mid, b, rest, rfl, -, hb, hmid, rfl, rfl⟩ := h
  obtain ⟨front', a', mid', b', rest', hl, ha', -, hmid', rfl, hj⟩ := h'
  -- the inner pair leaves the part before it, which then closes one bracket less than it opens
  obtain ⟨before, rfl⟩ : ∃ before, front' = front ++ a :: before := by
    have hfront : front ++ [a] <+: front' := by
      refine List.prefix_of_prefix_length_le ⟨mid ++ b :: rest, by simp⟩ (hl ▸ List.prefix_append front' _) ?_
      simp only [List.length_append, List.length_singleton]
      omega
    obtain ⟨before, rfl⟩ := hfront
    exact ⟨before, by simp⟩
  have htail : mid ++ b :: rest = before ++ a' :: (mid' ++ b' :: rest') := by simpa using hl
  simp only [List.length_append, List.length_cons] at hj
  have hmidEq : mid = before ++ a' :: mid' := by
    have hcut : mid ++ b :: rest = (before ++ a' :: mid') ++ b' :: rest' := by rw [htail]; simp
    refine (List.append_inj hcut ?_).1
    simp only [List.length_append, List.length_cons]
    omega
  subst hmidEq
  have hbefore := hmid.1 before (List.prefix_append _ _)
  have hall := hmid.2
  have hinner := hmid'.2
  simp only [opens_append, closes_append, opens_cons_opening ha', closes_cons_opening ha'] at hall
  omega

/-- A bracket closes one bracket at most. -/
theorem Partner.open_unique (h : Partner side l i j) (h' : Partner side l i' j) : i = i' := by
  have hnot := h.not_lt_of_close_eq h'
  have hnot' := h'.not_lt_of_close_eq h
  omega

end Nesting

open Nesting (Balanced Partner Nested)

namespace Instruction

@[simp] theorem side?_erase (i : Instruction) : i.erase.side? = i.side? := by
  cases i <;> rfl

/-- Erasing targets keeps the sides. -/
theorem map_side?_eq_of_map_erase {l l' : List Instruction} (h : l.map erase = l'.map erase) :
    l.map side? = l'.map side? := by
  have := congrArg (List.map side?) h
  simpa only [List.map_map, Function.comp_def, side?_erase] using this

end Instruction

/-! ### What the grammar says of a bracket -/

theorem LinkedFrom.nested {n : Nat} {l : List Instruction} (h : LinkedFrom n l) : Nested Instruction.side? l := by
  induction h with
  | nil n => exact .nil
  | action a _ ih => exact .plain (by cases a <;> rfl) ih
  | loop _ _ ihBody ihRest => exact .pair rfl rfl ihBody ihRest

theorem LinkedFrom.partner_of_loopBegin {n : Nat} {l : List Instruction} (h : LinkedFrom n l) {k c : Nat}
    (hk : l[k]? = some (.loopBegin c)) : ∃ j, c = n + j ∧ Partner Instruction.side? l k j := by
  induction h generalizing k with
  | nil n => simp at hk
  | @action n rest a _ ih =>
    obtain _ | k := k
    · cases a <;> simp [Action.instruction] at hk
    · obtain ⟨j, hc, hpair⟩ := ih hk
      refine ⟨j + 1, by omega, ?_⟩
      simpa [Nat.add_comm] using hpair.surround [a.instruction] []
  | @loop n body rest hbody _ ihBody ihRest =>
    obtain _ | k := k
    · simp only [List.getElem?_cons_zero, Option.some.injEq, Instruction.loopBegin.injEq] at hk
      exact ⟨body.length + 1, by omega, [], _, body, _, rest, rfl, rfl, rfl, hbody.nested.balanced, rfl, by omega⟩
    · rcases getElem?_loop k hk with ⟨-, hb⟩ | ⟨-, hi⟩ | ⟨k, rfl, hr⟩
      · obtain ⟨j, hc, hpair⟩ := ihBody hb
        refine ⟨j + 1, by omega, ?_⟩
        simpa [Nat.add_comm] using hpair.surround [.loopBegin (n + body.length + 1)] (.loopEnd n :: rest)
      · cases hi
      · obtain ⟨j, hc, hpair⟩ := ihRest hr
        refine ⟨body.length + 2 + j, by omega, ?_⟩
        have := hpair.surround (.loopBegin (n + body.length + 1) :: (body ++ [.loopEnd n])) []
        simp only [List.length_cons, List.length_append, List.length_nil, List.append_nil, List.cons_append,
          List.append_assoc, List.nil_append] at this
        rwa [show body.length + (0 + 1) + 1 + k = body.length + 1 + k + 1 by omega,
          show body.length + (0 + 1) + 1 + j = body.length + 2 + j by omega] at this

namespace Program

/-- The brackets are balanced, and each carries the index of its partner. -/
structure Matched (p : Program) : Prop where
  balanced : Balanced Instruction.side? p.toList
  close : ∀ i c, p[i]? = some (.loopBegin c) → Partner Instruction.side? p.toList i c
  start : ∀ i s, p[i]? = some (.loopEnd s) → Partner Instruction.side? p.toList s i

theorem Linked.matched {p : Program} (hp : p.Linked) : p.Matched := by
  have hclose : ∀ i c, p[i]? = some (.loopBegin c) → Partner Instruction.side? p.toList i c := by
    intro i c hi
    rw [← Array.getElem?_toList] at hi
    obtain ⟨j, rfl, hpair⟩ := LinkedFrom.partner_of_loopBegin hp hi
    rwa [Nat.zero_add]
  exact ⟨hp.nested.balanced, hclose, fun i s hi => hclose s i (hp.open_of_loopEnd hi).2⟩

/-- Partners point at each other. -/
theorem Matched.brackets_of_partner {p : Program} (hp : p.Matched) {i j : Nat}
    (h : Partner Instruction.side? p.toList i j) : p[i]? = some (.loopBegin j) ∧ p[j]? = some (.loopEnd i) := by
  obtain ⟨⟨a, ha, hopening⟩, b, hb, hclosing⟩ := h.exists_sides
  obtain ⟨c, rfl⟩ := Instruction.eq_loopBegin_of_side? hopening
  obtain ⟨s, rfl⟩ := Instruction.eq_loopEnd_of_side? hclosing
  rw [Array.getElem?_toList] at ha hb
  rw [(hp.close i c ha).close_unique h] at ha
  rw [(hp.start j s hb).open_unique h] at hb
  exact ⟨ha, hb⟩

/-- Programs that differ in their loop targets only and carry partners are the same. -/
theorem Matched.eq_of_map_erase {p q : Program} (hp : p.Matched) (hq : q.Matched)
    (h : q.toList.map Instruction.erase = p.toList.map Instruction.erase) : q = p := by
  have hsides := Instruction.map_side?_eq_of_map_erase h
  have hsize : q.size = p.size := by simpa using congrArg List.length h
  refine Array.ext hsize fun k hkq hkp => ?_
  have herase : q[k].erase = p[k].erase := by
    have := congrArg (·[k]?) h
    simpa [hkq, hkp] using this
  have hget {r : Program} {i : Instruction} (hr : k < r.size) (hi : r[k] = i) : r[k]? = some i := by
    rw [Array.getElem?_eq_getElem hr, hi]
  cases hkp' : p[k] with
  | loopBegin c =>
    obtain ⟨c', hkq'⟩ : ∃ c', q[k] = .loopBegin c' := by
      cases hkq' : q[k] <;> simp_all [Instruction.erase]
    have hpair := (hq.close k c' (hget hkq hkq')).of_map_side hsides
    rw [hkq', hpair.close_unique (hp.close k c (hget hkp hkp'))]
  | loopEnd s =>
    obtain ⟨s', hkq'⟩ : ∃ s', q[k] = .loopEnd s' := by
      cases hkq' : q[k] <;> simp_all [Instruction.erase]
    have hpair := (hq.start k s' (hget hkq hkq')).of_map_side hsides
    rw [hkq', hpair.open_unique (hp.start k s (hget hkp hkp'))]
  | _ => cases hkq' : q[k] <;> simp_all [Instruction.erase]

/-- Linking leaves a program that carries the partners as it is. -/
theorem Matched.link_eq {p : Program} (hp : p.Matched) : p.link = ⟨p, none⟩ := by
  obtain ⟨q, hlink, hq, herase⟩ := link_of_nested (Nesting.nested_iff_balanced.2 hp.balanced)
  rw [hlink, hp.eq_of_map_erase hq.matched herase]

/-- The grammar describes the programs that carry the partners. -/
theorem linked_iff_matched {p : Program} : p.Linked ↔ p.Matched :=
  ⟨Linked.matched, fun hp => linked_of_link hp.link_eq⟩

end Program

end TapeLang
