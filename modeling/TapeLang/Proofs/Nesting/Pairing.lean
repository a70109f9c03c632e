import TapeLang.Proofs.Nesting.Pending
import TapeLang.Proofs.Optimizer.Targets

/-!
# What linking leaves behind

Linking writes while it reads, and stops in the middle at a bracket that closes nothing. What it has written by then
is `Program.LinkedUpTo p n q`: in `q` the pairs of `p` are linked that are closed before index `n`, and nothing else
has changed. One bracket more that is read keeps this (`LinkedUpTo.succ`, `LinkedUpTo.close`), since the stack of
linking is that of `Nesting.Pending`, so it holds wherever linking stops (`linkedUpTo_link`).

Only one program is linked so far and no further (`LinkedUpTo.unique`). Therefore linking once more changes nothing,
whether the program can be linked or not (`link_link`).
-/

namespace TapeLang

namespace Nesting

variable {α : Type} {side : α → Option Side} {l front rest : List α} {a : α} {i j k n m : Nat}

/-- The bracket at `k` closes, and none is open where it stands. -/
def ClosesNothing (side : α → Option Side) (l : List α) (k : Nat) : Prop :=
  (∃ a, l[k]? = some a ∧ side a = some .closing) ∧ ∀ j, ¬ OpenAt side l j k

/-- As far as reading comes, every bracket that closes finds an open one. -/
theorem not_closesNothing_of_depth (h : depth side 0 (l.take n) = some m) (hk : k < n) : ¬ ClosesNothing side l k := by
  rintro ⟨⟨a, ha, hside⟩, hnone⟩
  obtain ⟨hlt, rfl⟩ := List.getElem?_eq_some_iff.1 ha
  have hsplit : l.take n = l.take k ++ l[k] :: (l.drop (k + 1)).take (n - k - 1) := by
    rw [show n = k + ((n - k - 1) + 1) by omega, List.take_add, List.drop_eq_getElem_cons hlt, List.take_succ_cons,
      show k + (n - k - 1 + 1) - k - 1 = n - k - 1 by omega]
  rw [hsplit, depth_append, Option.bind_eq_some_iff] at h
  obtain ⟨d, hd, hrest⟩ := h
  rw [(forall_not_openAt_iff hd).1 hnone, depth_zero_cons_closing hside] at hrest
  cases hrest

theorem closesNothing_of_nested (hfront : Nested side front) (ha : side a = some .closing) (rest : List α) :
    ClosesNothing side (front ++ a :: rest) front.length := by
  refine ⟨⟨a, by simp, ha⟩, (forall_not_openAt_iff (n := 0) ?_).2 rfl⟩
  rw [List.take_left]
  exact hfront.depth_eq 0

theorem OpenEnded.not_closesNothing (h : OpenEnded side l) (k : Nat) : ¬ ClosesNothing side l k := by
  intro hk
  obtain ⟨m, hm, -⟩ := h.le_depth 0
  obtain ⟨a, ha, -⟩ := hk.1
  rw [← List.take_length (l := l)] at hm
  exact not_closesNothing_of_depth hm (List.getElem?_eq_some_iff.1 ha).1 hk

theorem Partner.lt (h : Partner side l i j) : i < j := by
  obtain ⟨front, a, mid, b, rest, -, -, -, -, -, rfl⟩ := h
  omega

/-- No bracket both opens and closes. -/
theorem Partner.ne_open (h : Partner side l i j) (h' : Partner side l k n) : j ≠ k := by
  rintro rfl
  obtain ⟨-, b, hb, hclosing⟩ := h.exists_sides
  obtain ⟨⟨a, ha, hopening⟩, -⟩ := h'.exists_sides
  rw [hb, Option.some.injEq] at ha
  rw [ha, hopening] at hclosing
  cases hclosing

end Nesting

open Nesting (Balanced Partner Pending ClosesNothing LeftmostUnclosed)

/-- Where linking has stopped: at a bracket that closes nothing, or behind the last instruction. -/
def Linking.reached (r : Linking) : Nat :=
  match r.unpaired with
  | some (.close i) => i
  | _ => r.program.size

namespace Program

/-- The pairs of `p` that are closed before index `n` are linked in `q`, and everything else is as in `p`. -/
structure LinkedUpTo (p : Program) (n : Nat) (q : Program) : Prop where
  size : q.size = p.size
  linked : ∀ i j, Partner Instruction.side? p.toList i j → j < n →
    q[i]? = some (.loopBegin j) ∧ q[j]? = some (.loopEnd i)
  kept : ∀ k, (∀ i j, Partner Instruction.side? p.toList i j → j < n → k ≠ i ∧ k ≠ j) → q[k]? = p[k]?

variable {p q q' : Program} {n s : Nat} {i : Instruction}

namespace LinkedUpTo

theorem start (p : Program) : p.LinkedUpTo 0 p :=
  ⟨rfl, fun _ _ _ h => absurd h (Nat.not_lt_zero _), fun _ _ => rfl⟩

/-- An instruction that closes no loop completes no pair. -/
theorem succ (h : p.LinkedUpTo n q) (hi : p.toList[n]? = some i) (hside : i.side? ≠ some .closing) :
    p.LinkedUpTo (n + 1) q := by
  have hlt {a b : Nat} (hab : Partner Instruction.side? p.toList a b) (hb : b < n + 1) : b < n := by
    refine Nat.lt_of_le_of_ne (Nat.le_of_lt_succ hb) ?_
    rintro rfl
    obtain ⟨-, i', hi', hclosing⟩ := hab.exists_sides
    rw [hi, Option.some.injEq] at hi'
    exact hside (hi' ▸ hclosing)
  exact ⟨h.size, fun a b hab hb => h.linked a b hab (hlt hab hb),
    fun k hk => h.kept k fun a b hab hb => hk a b hab (Nat.lt_succ_of_lt hb)⟩

/-- Writing both brackets of the pair that is closed next. -/
theorem close (h : p.LinkedUpTo n q) (hpair : Partner Instruction.side? p.toList s n) :
    p.LinkedUpTo (n + 1) ((q.setIfInBounds s (.loopBegin n)).setIfInBounds n (.loopEnd s)) := by
  have hsn := hpair.lt
  have hn : n < q.size := by
    obtain ⟨-, b, hb, -⟩ := hpair.exists_sides
    rw [Array.getElem?_toList] at hb
    rw [h.size]
    exact (Array.getElem?_eq_some_iff.1 hb).1
  have hother {k : Nat} (hs : k ≠ s) (hkn : k ≠ n) :
      ((q.setIfInBounds s (.loopBegin n)).setIfInBounds n (.loopEnd s))[k]? = q[k]? := by
    rw [Array.getElem?_setIfInBounds_ne (Ne.symm hkn), Array.getElem?_setIfInBounds_ne (Ne.symm hs)]
  refine ⟨by simp [h.size], fun a b hab hb => ?_, fun k hk => ?_⟩
  · by_cases hbn : b = n
    · subst hbn
      obtain rfl := hab.open_unique hpair
      rw [Array.getElem?_setIfInBounds_ne (Nat.ne_of_gt hsn)]
      constructor
      · exact Array.getElem?_setIfInBounds_self_of_lt (Nat.lt_trans hsn hn)
      · exact Array.getElem?_setIfInBounds_self_of_lt (by simpa using hn)
    · -- another pair has neither of the two brackets
      have hblt : b < n := by omega
      have halt := hab.lt
      have has : a ≠ s := by
        rintro rfl
        exact hbn (hab.close_unique hpair)
      rw [hother has (by omega), hother (hab.ne_open hpair) hbn]
      exact h.linked a b hab hblt
  · obtain ⟨hks, hkn⟩ := hk s n hpair (Nat.lt_succ_self n)
    rw [hother hks hkn]
    exact h.kept k fun a b hab hb => hk a b hab (Nat.lt_succ_of_lt hb)

theorem unique (h : p.LinkedUpTo n q) (h' : p.LinkedUpTo n q') : q' = q := by
  refine Array.ext_getElem? fun k => ?_
  by_cases hk : ∀ a b, Partner Instruction.side? p.toList a b → b < n → k ≠ a ∧ k ≠ b
  · rw [h.kept k hk, h'.kept k hk]
  · push Not at hk
    obtain ⟨a, b, hab, hb, hk⟩ := hk
    by_cases hka : k = a
    · rw [hka, (h.linked a b hab hb).1, (h'.linked a b hab hb).1]
    · rw [hk hka, (h.linked a b hab hb).2, (h'.linked a b hab hb).2]

/-- A program that is linked so far is linked so far. -/
theorem self (h : p.LinkedUpTo n q) (hsides : p.toList.map Instruction.side? = q.toList.map Instruction.side?) :
    q.LinkedUpTo n q :=
  ⟨rfl, fun a b hab hb => h.linked a b (hab.of_map_side hsides.symm) hb, fun _ _ => rfl⟩

end LinkedUpTo

/-- The invariant of linking: the stack holds the open loops of what is read, and the pairs of it are linked. -/
theorem linkedUpTo_linkFrom {read l : List Instruction} {pending : List Nat} {linked : Program}
    (hp : p.toList = read ++ l) (hpending : Pending Instruction.side? read pending)
    (h : p.LinkedUpTo read.length linked) :
    p.LinkedUpTo (linkFrom read.length pending linked l).reached (linkFrom read.length pending linked l).program := by
  induction l generalizing read pending linked with
  | nil =>
    have hend : (linkFrom read.length pending linked []).reached = read.length := by
      rw [List.append_nil] at hp
      have hsize : linked.size = read.length := by rw [h.size, ← Array.length_toList, hp]
      simp only [linkFrom, Linking.reached]
      cases pending.getLast? <;> exact hsize
    rw [hend]
    exact h
  | cons i l ih =>
    have hi : p.toList[read.length]? = some i := by rw [hp]; simp
    have hread : p.toList = read ++ [i] ++ l := by rw [hp]; simp
    have hlen : read.length + 1 = (read ++ [i]).length := by simp
    cases hside : i.side? with
    | none =>
      obtain ⟨a, rfl⟩ := Instruction.eq_action_of_side? hside
      rw [linkFrom_action, hlen]
      refine ih hread (hpending.plain hside) ?_
      rw [← hlen]
      exact h.succ hi (by simp [hside])
    | some s =>
      cases s with
      | opening =>
        obtain ⟨close, rfl⟩ := Instruction.eq_loopBegin_of_side? hside
        rw [linkFrom, hlen]
        refine ih hread (hpending.opening hside) ?_
        rw [← hlen]
        exact h.succ hi (by simp [hside])
      | closing =>
        obtain ⟨start, rfl⟩ := Instruction.eq_loopEnd_of_side? hside
        cases pending with
        | nil => exact h
        | cons start pending =>
          have hpair : Partner Instruction.side? p.toList start read.length := by
            rw [hp]
            exact hpending.partner hside l
          simp only [linkFrom]
          rw [hlen]
          refine ih hread (hpending.closing hside) ?_
          rw [← hlen]
          exact h.close hpair

/-- Wherever linking stops, it has linked the pairs that it has read, and has changed nothing else. -/
theorem linkedUpTo_link (p : Program) : p.LinkedUpTo p.link.reached p.link.program := by
  have hpending : Pending Instruction.side? ([] : List Instruction) [] := .nested .nil
  exact linkedUpTo_linkFrom (List.nil_append p.toList).symm hpending (.start p)

theorem map_side?_link (p : Program) :
    p.toList.map Instruction.side? = p.link.program.toList.map Instruction.side? := by
  refine (Instruction.map_side?_eq_of_map_erase ?_).symm
  rw [← toList_erased, erased_link, toList_erased]

theorem unpaired_link_congr (h : q.erased = p.erased) : q.link.unpaired = p.link.unpaired := by
  rw [link, ← unpaired_linkFrom_map_erase 0 [] q q q.toList, ← toList_erased, h, toList_erased,
    unpaired_linkFrom_map_erase 0 [] p q p.toList, link]

/-- Linking once more changes nothing. -/
theorem link_link (p : Program) : p.link.program.link = p.link := by
  have hunpaired := unpaired_link_congr (erased_link p)
  have hlinked := linkedUpTo_link p.link.program
  have hreached : p.link.program.link.reached = p.link.reached := by
    simp only [Linking.reached, hunpaired, hlinked.size]
  rw [hreached] at hlinked
  have hprogram := ((linkedUpTo_link p).self p.map_side?_link).unique hlinked
  calc p.link.program.link
    _ = ⟨p.link.program.link.program, p.link.program.link.unpaired⟩ := rfl
    _ = p.link := by rw [hprogram, hunpaired]

theorem linked_of_unpaired {bracket : Unpaired} (h : p.link.unpaired = some bracket) :
    p.linked = .error (.unbalancedLoop bracket.index) := by
  rw [linked]
  generalize p.link = r at h ⊢
  obtain ⟨q, unpaired⟩ := r
  obtain rfl : unpaired = some bracket := h
  rfl

theorem link_of_linked (h : p.linked = .ok q) : p.link = ⟨q, none⟩ := by
  rw [linked] at h
  split at h
  case h_1 q' hlink =>
    cases h
    exact hlink
  case h_2 => cases h

/-- Linking succeeds exactly if the brackets are balanced, has then changed loop targets only, and gives a linked
program. If a bracket closes nothing, the error names the first such one, and the pairs are linked that are closed
before it. Else, if a bracket is never closed, the error names the leftmost such one, and all pairs are linked. In
every case there are as many instructions as before, those that are not in a pair are as before, and linking once
more changes nothing. -/
theorem link_names_first_offence (p : Program) :
    ((∃ q, p.linked = .ok q) ↔ Balanced Instruction.side? p.toList) ∧
      (∀ q, p.linked = .ok q → p.link = ⟨q, none⟩ ∧ q.erased = p.erased ∧ q.Matched ∧ q.linked = .ok q) ∧
      ((∃ k, ClosesNothing Instruction.side? p.toList k) →
        ∃ k, ClosesNothing Instruction.side? p.toList k ∧ (∀ j < k, ¬ ClosesNothing Instruction.side? p.toList j) ∧
          p.linked = .error (.unbalancedLoop k) ∧ p.LinkedUpTo k p.link.program) ∧
      ((∀ k, ¬ ClosesNothing Instruction.side? p.toList k) →
        (∃ k close, p[k]? = some (.loopBegin close) ∧ ∀ j, ¬ Partner Instruction.side? p.toList k j) →
        ∃ k, LeftmostUnclosed Instruction.side? p.toList k ∧
          p.linked = .error (.unbalancedLoop k) ∧ p.LinkedUpTo p.size p.link.program) ∧
      p.link.program.size = p.size ∧
      (∀ k, (∀ i j, Partner Instruction.side? p.toList i j → k ≠ i ∧ k ≠ j) → p.link.program[k]? = p[k]?) ∧
      p.link.program.link = p.link := by
  have hupTo := linkedUpTo_link p
  refine ⟨exists_linked_iff, fun q hq => ?_, ?_, ?_, hupTo.size,
    fun k hk => hupTo.kept k fun i j hij _ => hk i j hij, p.link_link⟩
  · have hlink := link_of_linked hq
    have herased := erased_link p
    have hagain := p.link_link
    rw [hlink] at herased hagain
    exact ⟨hlink, herased, (linked_of_link hlink).matched, by rw [linked, hagain]⟩
  · rintro ⟨k, hk⟩
    rcases Nesting.openEnded_or_unmatched Instruction.side? p.toList with hopen | ⟨front, i, rest, hp, hfront, hi⟩
    · exact absurd hk (hopen.not_closesNothing k)
    · have hunpaired := unpaired_link_of_unmatched hp hfront hi
      have hreached : p.link.reached = front.length := by simp only [Linking.reached, hunpaired]
      rw [hreached] at hupTo
      have hdepth : Nesting.depth Instruction.side? 0 (p.toList.take front.length) = some 0 := by
        rw [hp, List.take_left]
        exact hfront.depth_eq 0
      refine ⟨front.length, ?_, fun j hj => Nesting.not_closesNothing_of_depth hdepth hj,
        linked_of_unpaired hunpaired, hupTo⟩
      rw [hp]
      exact Nesting.closesNothing_of_nested hfront hi rest
  · rintro hnone ⟨k, close, hk, hunclosed⟩
    rcases Nesting.nested_or_unclosed_or_unmatched Instruction.side? p.toList with
      hp | ⟨front, i, rest, hp, hfront, hi, hrest⟩ | ⟨front, i, rest, hp, hfront, hi⟩
    · rw [← Array.getElem?_toList] at hk
      obtain ⟨j, hj⟩ : ∃ j, Partner Instruction.side? (p.toList ++ []) k j := Nesting.exists_partner hp hk rfl
      rw [List.append_nil] at hj
      exact absurd hj (hunclosed j)
    · have hunpaired := unpaired_link_of_unclosed hp hfront hi hrest
      have hreached : p.link.reached = p.size := by simp only [Linking.reached, hunpaired, hupTo.size]
      rw [hreached] at hupTo
      refine ⟨front.length, ?_, linked_of_unpaired hunpaired, hupTo⟩
      rw [hp]
      exact Nesting.leftmostUnclosed_of_nested hfront hi hrest
    · refine absurd ?_ (hnone front.length)
      rw [hp]
      exact Nesting.closesNothing_of_nested hfront hi rest

/-- Reading `[+]][` stops at its second `]`: the first pair is linked by then, and the brackets behind it keep the
targets that they had. -/
theorem link_names_stray :
    let p : Program := #[.loopBegin 9, .add 1, .loopEnd 9, .loopEnd 5, .loopBegin 7]
    p.linked = .error (.unbalancedLoop 3) ∧ p.LinkedUpTo 3 p.link.program ∧
      p.link.program = #[.loopBegin 2, .add 1, .loopEnd 0, .loopEnd 5, .loopBegin 7] := by
  intro p
  have hfront : Nesting.Nested Instruction.side? [.loopBegin 9, .add 1, .loopEnd 9] :=
    Nesting.nested_iff_balanced.2 (Nesting.balanced_iff_depth.2 rfl)
  obtain ⟨-, -, hstray, -⟩ := link_names_first_offence p
  obtain ⟨k, -, -, herror, hupTo⟩ := hstray ⟨3, Nesting.closesNothing_of_nested hfront rfl [.loopBegin 7]⟩
  have hlinked : p.linked = .error (.unbalancedLoop 3) := by cbv
  rw [hlinked] at herror
  cases herror
  exact ⟨hlinked, hupTo, by cbv⟩

end Program

end TapeLang
