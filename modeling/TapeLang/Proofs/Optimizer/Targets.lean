import TapeLang.Proofs.Nesting.Depth
import TapeLang.Proofs.Nesting.Matched
import TapeLang.Proofs.Optimizer.Sweep

/-!
# Loop targets are the nesting

The optimizer takes a program whose loop targets may be stale, and gives one that carries the partners of its
brackets (`Program.loop_targets_match`). Two facts about a single rewrite say why, and both go from there to a
sweep, and to all sweeps.

* What a rewrite writes reads as what it takes does: it takes no bracket, or a pair with nothing open between
  (`depth_rewrite?`). So the simplified program is balanced exactly if the program is.
* A rewrite looks at no target (`rewrite?_map_erase`), and neither does linking, so that nothing of the targets
  is left in the result.
-/

namespace TapeLang.Program

open Nesting (Balanced depth depth_cons_plain)

/-! ### Rewrites keep the depth -/

theorem side?_of_kind {i : Instruction} (hi : i.kind = .add ∨ i.kind = .move) : i.side? = none := by
  cases i <;> first | rfl | simp [Instruction.kind] at hi

theorem depth_dropWhile {k : Kind} (hk : k = .add ∨ k = .move) (l : List Instruction) (n : Nat) :
    depth Instruction.side? n (l.dropWhile (·.kind = k)) = depth Instruction.side? n l := by
  induction l with
  | nil => rfl
  | cons i l ih =>
    rw [List.dropWhile_cons]
    split
    · rename_i hi
      rw [ih, depth_cons_plain (side?_of_kind (of_decide_eq_true hi ▸ hk))]
    · rfl

/-- What a rewrite writes reads as what it takes does. -/
theorem depth_rewrite? {l rest : List Instruction} {j : Instruction} (h : rewrite? l = some (j, rest)) (n : Nat) :
    depth Instruction.side? n (j :: rest) = depth Instruction.side? n l := by
  rcases rewrite?_kinds h with ⟨i, i', r, rfl, hi, hi', hj, rfl⟩ | ⟨_, _, rfl, rfl⟩ | ⟨_, _, rfl, rfl⟩
  · rw [depth_cons_plain (side?_of_kind (hj ▸ hi)), depth_cons_plain (side?_of_kind hi),
      depth_cons_plain (side?_of_kind (hi' ▸ hi)), depth_dropWhile hi]
  · rfl
  · rfl

theorem depth_sweepFrom (written : Program) (changed : Bool) (l : List Instruction) (n : Nat) :
    depth Instruction.side? n (sweepFrom written changed l).program.toList =
      depth Instruction.side? n (written.toList ++ l) := by
  fun_induction sweepFrom written changed l with
  | case1 => simp
  | case2 written changed i rest j rest' hr ih =>
    rw [ih, Array.toList_push, List.append_assoc, List.singleton_append]
    exact Nesting.depth_append_congr (depth_rewrite? hr) _ _
  | case3 written changed i rest _ ih => rw [ih, Array.toList_push, List.append_assoc, List.singleton_append]

theorem depth_sweep (p : Program) (n : Nat) :
    depth Instruction.side? n p.sweep.program.toList = depth Instruction.side? n p.toList :=
  depth_sweepFrom #[] false p.toList n

/-- Simplifying makes no unbalanced program balanced, nor the reverse. -/
theorem depth_simplify (p : Program) (n : Nat) :
    depth Instruction.side? n p.simplify.toList = depth Instruction.side? n p.toList := by
  fun_induction simplify p with
  | case1 p q hsweep _ ih => rw [ih, ← depth_sweep p, hsweep]
  | case2 p q hsweep => rw [← depth_sweep p, hsweep]

/-- The programs that can be linked. -/
theorem exists_linked_iff {p : Program} : (∃ q, p.linked = .ok q) ↔ Balanced Instruction.side? p.toList := by
  rw [← Nesting.nested_iff_balanced]
  constructor
  · rintro ⟨q, hq⟩
    rw [linked] at hq
    split at hq
    case h_1 q' hlink => exact nested_of_link hlink
    case h_2 => cases hq
  · intro hp
    obtain ⟨q, hlink, -, -⟩ := link_of_nested hp
    exact ⟨q, by rw [linked, hlink]⟩

/-! ### Nothing looks at targets -/

/-- A program with its loop targets erased. -/
def erased (p : Program) : Program := p.map Instruction.erase

@[simp] theorem toList_erased (p : Program) : p.erased.toList = p.toList.map Instruction.erase := Array.toList_map

@[simp] theorem erased_push (p : Program) (i : Instruction) : erased (p.push i) = p.erased.push i.erase :=
  Array.map_push

theorem foldAdds_map_erase (sum : UInt8) (l : List Instruction) :
    foldAdds sum (l.map .erase) = ((foldAdds sum l).1, (foldAdds sum l).2.map .erase) := by
  induction l generalizing sum with
  | nil => rfl
  | cons i l ih =>
    cases i with
    | add delta => exact ih (sum + delta)
    | _ => rfl

theorem foldMoves_map_erase (sum : Int64) (l : List Instruction) :
    foldMoves sum (l.map .erase) = ((foldMoves sum l).1, (foldMoves sum l).2.map .erase) := by
  induction l generalizing sum with
  | nil => rfl
  | cons i l ih =>
    cases i with
    | move delta => exact ih (sum + delta)
    | _ => rfl

/-- Which rewrite applies, and what it does, is no matter of the targets. -/
theorem rewrite?_map_erase (l : List Instruction) :
    rewrite? (l.map .erase) = (rewrite? l).map fun r => (r.1.erase, r.2.map .erase) := by
  obtain _ | ⟨i, l⟩ := l
  · rfl
  cases i with
  | add a =>
    obtain _ | ⟨j, l⟩ := l
    · rfl
    cases j with
    | add b => simp [rewrite?, Instruction.erase, foldAdds_map_erase]
    | _ => rfl
  | move a =>
    obtain _ | ⟨j, l⟩ := l
    · rfl
    cases j with
    | move b => simp [rewrite?, Instruction.erase, foldMoves_map_erase]
    | _ => rfl
  | loopBegin close =>
    obtain _ | ⟨j, l⟩ := l
    · rfl
    cases j with
    | add delta =>
      obtain _ | ⟨k, l⟩ := l
      · rfl
      cases k with
      | loopEnd start =>
        simp only [List.map_cons, Instruction.erase, rewrite?]
        split <;> rfl
      | _ => rfl
    | _ => rfl
  | _ => rfl

theorem sweepFrom_erased (written : Program) (changed : Bool) (l : List Instruction) :
    sweepFrom written.erased changed (l.map .erase) =
      ⟨(sweepFrom written changed l).program.erased, (sweepFrom written changed l).changed⟩ := by
  fun_induction sweepFrom written changed l with
  | case1 => simp [sweepFrom]
  | case2 written changed i rest j rest' hr ih =>
    have hr' := rewrite?_map_erase (i :: rest)
    rw [hr] at hr'
    rw [← ih, erased_push]
    exact sweepFrom_of_rewrite? hr'
  | case3 written changed i rest hr ih =>
    have hr' := rewrite?_map_erase (i :: rest)
    rw [hr] at hr'
    rw [← ih, erased_push]
    exact sweepFrom_of_rewrite?_none hr'

theorem sweep_erased (p : Program) : p.erased.sweep = ⟨p.sweep.program.erased, p.sweep.changed⟩ := by
  have := sweepFrom_erased #[] false p.toList
  rwa [← toList_erased, erased, Array.map_empty] at this

theorem simplify_erased (p : Program) : p.erased.simplify = p.simplify.erased := by
  fun_induction simplify p with
  | case1 p q hsweep _ ih =>
    have herased := sweep_erased p
    rw [hsweep] at herased
    rw [simplify_of_changed herased, ih]
  | case2 p q hsweep =>
    have herased := sweep_erased p
    rw [hsweep] at herased
    rw [simplify_of_unchanged herased]

/-- Which bracket linking finds without a partner is no matter of the targets. -/
theorem unpaired_linkFrom_map_erase (index : Nat) (pending : List Nat) (linked linked' : Program)
    (l : List Instruction) :
    (linkFrom index pending linked' (l.map .erase)).unpaired = (linkFrom index pending linked l).unpaired := by
  induction l generalizing index pending linked linked' with
  | nil => rfl
  | cons i l ih =>
    cases i with
    | loopEnd start =>
      cases pending with
      | nil => rfl
      | cons start pending => exact ih _ _ _ _
    | _ => exact ih _ _ _ _

theorem linked_erased (p : Program) : p.erased.linked = p.linked := by
  have hunpaired : p.erased.link.unpaired = p.link.unpaired := by
    rw [link, toList_erased]
    exact unpaired_linkFrom_map_erase 0 [] p p.erased p.toList
  rcases hlink : p.link with ⟨q, _ | bracket⟩
  · obtain ⟨b, hb⟩ := exists_block_of_nested (nested_of_link hlink)
    have hb' : p.erased.toList.map Instruction.erase = b.instructions := by
      rw [toList_erased, List.map_map, ← hb]
      congr 1
      funext i
      cases i <;> rfl
    rw [linked_eq_ok_of_map_erase hb, linked_eq_ok_of_map_erase hb']
  · rw [hlink] at hunpaired
    rcases hlink' : p.erased.link with ⟨q', bracket'⟩
    rw [hlink'] at hunpaired
    obtain rfl : bracket' = some bracket := hunpaired
    rw [linked, linked, hlink, hlink']

/-- Nothing of the targets is left in what the optimizer gives, be it a program or an error. -/
theorem optimize_erased (p : Program) : p.erased.optimize = p.optimize := by
  rw [optimize, optimize, simplify_erased, linked_erased]

/-! ### Linking changes targets only -/

theorem erased_setIfInBounds {p : Program} {i : Nat} {x : Instruction} (h : p.erased[i]? = some x.erase) :
    erased (p.setIfInBounds i x) = p.erased := by
  refine Array.ext_getElem? fun k => ?_
  rw [erased, Array.getElem?_map, Array.getElem?_setIfInBounds]
  split
  · rename_i hik
    subst hik
    rw [h]
    have hlt : i < p.size := by
      obtain ⟨hlt, -⟩ := Array.getElem?_eq_some_iff.1 h
      simpa [erased] using hlt
    simp [hlt]
  · rw [erased, Array.getElem?_map]

/-- The places that linking writes at hold brackets of the kind that it writes: the loops that are pending are
opened there, and reading stands at the one that closes. -/
theorem erased_linkFrom {e : Program} (index : Nat) (pending : List Nat) (linked : Program) (l : List Instruction)
    (hlinked : linked.erased = e) (hpending : ∀ i ∈ pending, e[i]? = some (.loopBegin 0))
    (hl : l.map .erase = e.toList.drop index) : (linkFrom index pending linked l).program.erased = e := by
  induction l generalizing index pending linked with
  | nil => exact hlinked
  | cons i l ih =>
    have hrest : l.map .erase = e.toList.drop (index + 1) := by
      rw [← List.drop_drop, ← hl, List.map_cons, List.drop_one, List.tail_cons]
    have hindex : e[index]? = some i.erase := by
      rw [← Array.getElem?_toList, ← List.head?_drop, ← hl, List.map_cons, List.head?_cons]
    cases i with
    | loopBegin close =>
      refine ih (index + 1) (index :: pending) linked hlinked (fun i hi => ?_) hrest
      rcases List.mem_cons.1 hi with rfl | hi
      · exact hindex
      · exact hpending i hi
    | loopEnd start =>
      cases pending with
      | nil => exact hlinked
      | cons start pending =>
        refine ih (index + 1) pending _ ?_ (fun i hi => hpending i (List.mem_cons_of_mem _ hi)) hrest
        have hstart : erased (linked.setIfInBounds start (.loopBegin index)) = e := by
          rw [erased_setIfInBounds, hlinked]
          rw [hlinked]
          exact hpending start List.mem_cons_self
        rw [erased_setIfInBounds, hstart]
        rw [hstart]
        exact hindex
    | _ => exact ih (index + 1) pending linked hlinked hpending hrest

theorem erased_link (p : Program) : p.link.program.erased = p.erased :=
  erased_linkFrom 0 [] p p.toList rfl (fun _ h => nomatch h) (by simp)

/-! ### The targets of a program -/

/-- A parsed program carries the partners of its brackets, and linking it again leaves it as it is. Whatever the
targets of a program, optimizing it succeeds exactly if its brackets are balanced, gives a program that carries
the partners, and depends on the program with its targets erased, so that it does not matter if the program is
linked before. -/
theorem loop_targets_match :
    (∀ (source : Source) (p : Program), source.parse = .ok p → p.Matched ∧ p.link = ⟨p, none⟩) ∧
    ∀ p : Program,
      ((∃ q, p.optimize = .ok q) ↔ Balanced Instruction.side? p.toList) ∧
      (∀ q, p.optimize = .ok q → q.Matched) ∧
      (∀ p' : Program, p'.erased = p.erased → p'.optimize = p.optimize) ∧
      p.link.program.optimize = p.optimize := by
  have hsame : ∀ p p' : Program, p'.erased = p.erased → p'.optimize = p.optimize := by
    intro p p' h
    rw [← optimize_erased p', h, optimize_erased]
  refine ⟨fun source p h => ?_, fun p => ⟨?_, fun q h => (linked_of_optimize h).matched, hsame p, ?_⟩⟩
  · have hmatched := (Source.linked_of_parse h).matched
    exact ⟨hmatched, hmatched.link_eq⟩
  · rw [optimize, exists_linked_iff]
    exact Nesting.balanced_congr (depth_simplify p 0)
  · exact hsame p _ (erased_link p)

/-- `+[.]`, and a program the targets of which are out of range or those of other brackets. -/
theorem loop_targets_match_stale :
    (∃ p, Source.parse [0x2B, 0x5B, 0x2E, 0x5D] = .ok p ∧ p.Matched ∧ p.link = ⟨p, none⟩) ∧
    ∃ q, optimize #[.loopBegin 9, .add 255, .loopEnd 7, .loopBegin 0, .output, .loopEnd 0] = .ok q ∧ q.Matched ∧
      optimize #[.loopBegin 2, .add 255, .loopEnd 0, .loopBegin 5, .output, .loopEnd 3] = .ok q := by
  obtain ⟨hparse, hoptimize⟩ := loop_targets_match
  have hp : Source.parse [0x2B, 0x5B, 0x2E, 0x5D] = .ok #[.add 1, .loopBegin 3, .output, .loopEnd 1] := by cbv
  obtain ⟨hok, hmatched, hsame, -⟩ :=
    hoptimize #[.loopBegin 9, .add 255, .loopEnd 7, .loopBegin 0, .output, .loopEnd 0]
  obtain ⟨q, hq⟩ := hok.2 (Nesting.balanced_iff_depth.2 rfl)
  have hlinked := hsame #[.loopBegin 2, .add 255, .loopEnd 0, .loopBegin 5, .output, .loopEnd 3] (by cbv)
  exact ⟨⟨_, hp, hparse _ _ hp⟩, q, hq, hmatched q hq, hlinked.trans hq⟩

end TapeLang.Program
