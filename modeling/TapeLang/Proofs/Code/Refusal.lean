import TapeLang.Proofs.Code.Placement
import TapeLang.Proofs.Nesting.Open

/-!
# What translation refuses

Translation goes through a program once and stops at the first instruction that cannot be translated where it
stands: an input, an empty loop, or the end of a loop while no loop is open (`Program.OffendsAt`). It is the same
instruction, with the same error, in every dialect (`Dialect.routine_of_offendsAt`). Without one, what is left to be
refused is a loop that is never closed (`Dialect.routine_of_openAt`).

All other programs are translated, and the pieces are such as an assembler asks for (`Resolved`): no label is bound
twice, and every label is bound that a branch goes to or an offset is asked of.
-/

namespace TapeLang

open Nesting (Balanced OpenAt depth)

namespace Program

/-- The instruction at `k` has no machine code, or ends a loop and none is open. -/
inductive OffendsAt (p : Program) (k : Nat) : Prop where
  | input (h : p[k]? = some .input)
  | halt (h : p[k]? = some .halt)
  | unmatched {start : Nat} (h : p[k]? = some (.loopEnd start))
    (hnone : ∀ j, ¬ OpenAt Instruction.side? p.toList j k)

end Program

/-- The error for an instruction at `ip` that cannot be translated there. -/
def Instruction.refusal (ip : Nat) : Instruction → Error
  | .loopEnd _ => .unbalancedLoop ip
  | i => .notCompilable ip i

/-- Pieces that an assembler can place: labels are bound once, and those that are mentioned are bound. -/
structure Resolved {ω β : Type} (ps : Array (Piece ω β Label)) (marks : Array Label) : Prop where
  once {j k : Nat} {l : Label} (hj : ps[j]? = some (.label l)) (hk : ps[k]? = some (.label l)) : j = k
  branch {b : β} {l : Label} (h : .branch b l ∈ ps) : .label l ∈ ps
  mark {l : Label} (h : l ∈ marks) : .label l ∈ ps

namespace Program

variable {p q : Program} {k : Nat}

/-! ### Before the first offence -/

/-- No bracket before the first offence closes nothing. -/
theorem exists_depth_take (h : ∀ j < k, ¬ p.OffendsAt j) :
    ∃ n, depth Instruction.side? 0 (p.toList.take k) = some n := by
  induction k with
  | zero => exact ⟨0, rfl⟩
  | succ k ih =>
    obtain ⟨n, hn⟩ := ih fun j hj => h j (by omega)
    by_cases hk : k < p.toList.length
    case neg =>
      rw [List.take_of_length_le (by omega)] at hn ⊢
      exact ⟨n, hn⟩
    rw [List.take_succ_eq_append_getElem hk, Nesting.depth_append, hn, Option.bind_some]
    cases hi : p.toList[k] with
    | loopBegin close => exact ⟨n + 1, rfl⟩
    | loopEnd start =>
      have hget : p[k]? = some (.loopEnd start) := by rw [← Array.getElem?_toList, List.getElem?_eq_getElem hk, hi]
      have hopen : ∃ j, OpenAt Instruction.side? p.toList j k := by
        by_contra hnone
        exact h k (by omega) (.unmatched hget (not_exists.1 hnone))
      obtain ⟨m, rfl⟩ : ∃ m, n = m + 1 := ⟨n - 1, by have := (Nesting.exists_openAt_iff hn).1 hopen; omega⟩
      exact ⟨m, rfl⟩
    | _ => exact ⟨n, rfl⟩

theorem compilable_of_mem_take (h : ∀ j < k, ¬ p.OffendsAt j) {i : Instruction} (hi : i ∈ p.toList.take k) :
    i.Compilable := by
  obtain ⟨j, hj⟩ := List.mem_iff_getElem?.1 hi
  have hlt : j < k := by
    have := (List.getElem?_eq_some_iff.1 hj).1
    rw [List.length_take] at this
    omega
  rw [List.getElem?_take_of_lt hlt, Array.getElem?_toList] at hj
  constructor
  · rintro rfl
    exact h j hlt (.input hj)
  · rintro rfl
    exact h j hlt (.halt hj)

/-- There is no offence before an index exactly if what stands before it has machine code, and no bracket of it closes
nothing. -/
theorem forall_not_offendsAt_iff : (∀ j < k, ¬ p.OffendsAt j) ↔
    (∀ i ∈ p.toList.take k, i.Compilable) ∧ ∃ n, depth Instruction.side? 0 (p.toList.take k) = some n := by
  refine ⟨fun h => ⟨fun i => compilable_of_mem_take h, exists_depth_take h⟩, fun ⟨hc, n, hn⟩ j hj hoffends => ?_⟩
  have hmem {i : Instruction} (hi : p[j]? = some i) : i.Compilable := by
    refine hc i (List.mem_of_getElem? (i := j) ?_)
    rwa [List.getElem?_take_of_lt hj, Array.getElem?_toList]
  rcases hoffends with hi | hi | @⟨start, hi, hnone⟩
  · exact (hmem hi).1 rfl
  · exact (hmem hi).2 rfl
  · -- reading stops at a bracket that closes nothing
    rw [← Array.getElem?_toList] at hi
    obtain ⟨hlt, hget⟩ := List.getElem?_eq_some_iff.1 hi
    have hsplit : p.toList.take k = p.toList.take j ++ .loopEnd start :: (p.toList.drop (j + 1)).take (k - j - 1) := by
      rw [show k = j + ((k - j - 1) + 1) by omega, List.take_add, List.drop_eq_getElem_cons hlt, hget,
        List.take_succ_cons, show j + (k - j - 1 + 1) - j - 1 = k - j - 1 by omega]
    rw [hsplit, Nesting.depth_append, Option.bind_eq_some_iff] at hn
    obtain ⟨m, hm, hrest⟩ := hn
    rw [(Nesting.forall_not_openAt_iff hm).1 hnone] at hrest
    cases hrest

/-! ### Without an offence -/

theorem take_size (p : Program) : p.toList.take p.size = p.toList := by
  rw [← Array.length_toList, List.take_length]

/-- There is no offence at all exactly if a program can be read to its end. -/
theorem not_offendsAt_iff : (∀ j, ¬ p.OffendsAt j) ↔
    (∀ i ∈ p.toList, i.Compilable) ∧ ∃ n, depth Instruction.side? 0 p.toList = some n := by
  rw [← take_size p, ← forall_not_offendsAt_iff]
  refine ⟨fun h j _ => h j, fun h j hj => ?_⟩
  have hlt : j < p.size := by
    rcases hj with hj | hj | ⟨hj, -⟩ <;> exact (Array.getElem?_eq_some_iff.1 hj).1
  exact h j hlt hj

theorem balanced_of_not_offendsAt (h : ∀ j, ¬ p.OffendsAt j)
    (hclosed : ∀ j, ¬ OpenAt Instruction.side? p.toList j p.size) : Balanced Instruction.side? p.toList := by
  obtain ⟨-, n, hdepth⟩ := not_offendsAt_iff.1 h
  have hn : depth Instruction.side? 0 (p.toList.take p.size) = some n := by rwa [take_size]
  obtain rfl := (Nesting.forall_not_openAt_iff hn).1 hclosed
  exact Nesting.balanced_iff_depth.2 hdepth

theorem Compilable.of_map_erase (hp : p.Compilable)
    (h : q.toList.map Instruction.erase = p.toList.map Instruction.erase) : q.Compilable := by
  have herase (i : Instruction) : i.erase.Compilable ↔ i.Compilable := by
    cases i <;> simp [Instruction.Compilable, Instruction.erase]
  rw [Dialect.mem_compilable] at hp ⊢
  intro i hi
  have hmem : i.erase ∈ p.toList.map Instruction.erase := h ▸ List.mem_map_of_mem hi
  obtain ⟨j, hj, hij⟩ := List.mem_map.1 hmem
  rw [← herase, ← hij, herase]
  exact hp j hj

/-- A program without an offence that closes its loops is a linked one up to its loop targets. -/
theorem exists_linked (h : ∀ j, ¬ p.OffendsAt j) (hclosed : ∀ j, ¬ OpenAt Instruction.side? p.toList j p.size) :
    ∃ q : Program, q.Linked ∧ q.Compilable ∧ q.toList.map Instruction.erase = p.toList.map Instruction.erase := by
  have hp := balanced_of_not_offendsAt h hclosed
  obtain ⟨q, -, hq, herase⟩ := link_of_nested (Nesting.nested_iff_balanced.2 hp)
  exact ⟨q, hq, (Dialect.mem_compilable.2 (not_offendsAt_iff.1 h).1).of_map_erase herase, herase⟩

end Program

namespace Dialect

variable {ω β : Type} (d : Dialect ω β) {p : Program} {k n : Nat} {i : Instruction} {pending : List Nat}
  {l : List Instruction}

/-! ### One instruction and then a sequence -/

/-- The loops that are open behind an instruction are as many as the depth says. -/
theorem exists_instruction (ip : Nat) (hi : i.Compilable) (h : depth Instruction.side? pending.length [i] = some n) :
    ∃ t, d.instruction ip pending i = .ok t ∧ t.pending.length = n := by
  cases i with
  | input => exact absurd rfl hi.1
  | halt => exact absurd rfl hi.2
  | loopEnd start =>
    cases pending with
    | nil => cases h
    | cons opened pending => exact ⟨_, rfl, Option.some.inj h⟩
  | _ => exact ⟨_, rfl, Option.some.inj h⟩

theorem exists_bodyFrom (ip : Nat) (pending : List Nat) (pieces : Array (Piece ω β Label))
    (rest : List Instruction) (hl : ∀ i ∈ l, i.Compilable) (h : depth Instruction.side? pending.length l = some n) :
    ∃ pending' pieces', pending'.length = n ∧
      d.bodyFrom ip pending pieces (l ++ rest) = d.bodyFrom (ip + l.length) pending' pieces' rest := by
  induction l generalizing ip pending pieces with
  | nil => exact ⟨pending, pieces, Option.some.inj h, rfl⟩
  | cons i l ih =>
    rw [show i :: l = [i] ++ l from rfl, Nesting.depth_append, Option.bind_eq_some_iff] at h
    obtain ⟨m, hm, h⟩ := h
    obtain ⟨t, ht, rfl⟩ := d.exists_instruction ip (hl i (by simp)) hm
    obtain ⟨pending', pieces', hpending', hrest⟩ :=
      ih (ip + 1) t.pending (pieces ++ t.pieces) (fun j hj => hl j (by simp [hj])) h
    refine ⟨pending', pieces', hpending', ?_⟩
    rw [List.cons_append, d.bodyFrom_cons ht, hrest, List.length_cons,
      show ip + 1 + l.length = ip + (l.length + 1) by omega]

/-- Translation gets as far as the first offence. -/
theorem exists_bodyFrom_take (pieces : Array (Piece ω β Label)) (h : ∀ j < k, ¬ p.OffendsAt j) (hk : k ≤ p.size) :
    ∃ pending pieces', depth Instruction.side? 0 (p.toList.take k) = some pending.length ∧
      d.bodyFrom 0 [] pieces p.toList = d.bodyFrom k pending pieces' (p.toList.drop k) := by
  obtain ⟨n, hn⟩ := Program.exists_depth_take h
  obtain ⟨pending, pieces', rfl, hbody⟩ := d.exists_bodyFrom 0 [] pieces (p.toList.drop k)
    (fun i => Program.compilable_of_mem_take h) hn
  refine ⟨pending, pieces', hn, ?_⟩
  rwa [List.take_append_drop, Nat.zero_add, List.length_take, Array.length_toList, Nat.min_eq_left hk] at hbody

/-! ### The error -/

theorem instruction_of_offendsAt (h : p.OffendsAt k) (hi : p[k]? = some i)
    (hdepth : depth Instruction.side? 0 (p.toList.take k) = some pending.length) :
    d.instruction k pending i = .error (i.refusal k) := by
  rcases h with h | h | ⟨h, hnone⟩
  · cases h.symm.trans hi
    rfl
  · cases h.symm.trans hi
    rfl
  · cases h.symm.trans hi
    rw [List.length_eq_zero_iff.1 ((Nesting.forall_not_openAt_iff hdepth).1 hnone)]
    rfl

/-- The first offence decides the error. -/
theorem routine_of_offendsAt (h : p.OffendsAt k) (hfirst : ∀ j < k, ¬ p.OffendsAt j) (hi : p[k]? = some i) :
    d.routine p = .error (i.refusal k) := by
  obtain ⟨hk, hget⟩ := Array.getElem?_eq_some_iff.1 hi
  obtain ⟨pending, pieces, hdepth, hbody⟩ :=
    d.exists_bodyFrom_take (ops d.entry).toArray hfirst (Nat.le_of_lt hk)
  have hdrop : p.toList.drop k = i :: p.toList.drop (k + 1) := by
    rw [List.drop_eq_getElem_cons (by simpa using hk), Array.getElem_toList, hget]
  rw [routine, hbody, hdrop, bodyFrom, d.instruction_of_offendsAt h hi hdepth]
  rfl

/-- Without an offence, a loop that is never closed is found at the end. -/
theorem routine_of_openAt (h : ∀ j, ¬ p.OffendsAt j) (hopen : ∃ j, OpenAt Instruction.side? p.toList j p.size) :
    d.routine p = .error (.unbalancedLoop p.size) := by
  obtain ⟨pending, pieces, hdepth, hbody⟩ :=
    d.exists_bodyFrom_take (ops d.entry).toArray (fun j _ => h j) (Nat.le_refl p.size)
  have hpending : pending ≠ [] := by
    rintro rfl
    exact absurd ((Nesting.exists_openAt_iff hdepth).1 hopen) (Nat.lt_irrefl 0)
  rw [routine, hbody, List.drop_of_length_le (by rw [Array.length_toList]), bodyFrom, if_neg hpending]
  rfl

/-! ### The labels of what is translated -/

theorem resolved_listing (hp : p.Linked) : Resolved (d.listing p).toArray (instructionLabels p) := by
  refine ⟨fun hj hk => ?_, fun h => ?_, fun h => ?_⟩
  · exact label_unique hp (by simpa using hj) (by simpa using hk)
  · obtain ⟨k, hk⟩ := List.mem_iff_getElem?.1 (List.mem_toArray.1 h)
    obtain ⟨j, hj⟩ := label_of_branch hp hk
    exact List.mem_toArray.2 (List.mem_of_getElem? hj)
  · obtain ⟨j, hj⟩ := label_of_mem_instructionLabels d h
    exact List.mem_toArray.2 (List.mem_of_getElem? hj)

/-- A program without an offence that closes its loops is translated, with every label in its place. -/
theorem exists_resolved (h : ∀ j, ¬ p.OffendsAt j)
    (hclosed : ∀ j, ¬ OpenAt Instruction.side? p.toList j p.size) :
    ∃ ps, d.routine p = .ok ps ∧ Resolved ps (instructionLabels p) := by
  obtain ⟨q, hq, hc, herase⟩ := Program.exists_linked h hclosed
  have hsize : q.size = p.size := by simpa using congrArg List.length herase
  refine ⟨_, ?_, by simpa only [instructionLabels, hsize] using d.resolved_listing hq⟩
  rw [← d.routine_congr herase]
  exact (d.routine_eq_ok_iff hq).2 ⟨hc, rfl⟩

end Dialect

end TapeLang
