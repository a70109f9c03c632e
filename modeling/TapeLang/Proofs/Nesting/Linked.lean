import TapeLang.Program.Linking
import TapeLang.Proofs.Nesting.Block

/-!
# Linked programs

`Program.Linked p`: the brackets of `p` are balanced and each carries the index of its partner, as a
grammar. The linked programs are the listings of blocks (`linked_iff_block`), and linking a program
that is the listing of a block up to its loop targets gives the linked listing of that block
(`linked_eq_ok_of_map_erase`).
-/

namespace TapeLang

/-- A sequence of instructions, the first of which has index `n`, with balanced brackets each of
which carries the index of its partner. -/
inductive LinkedFrom : Nat → List Instruction → Prop where
  | nil (n : Nat) : LinkedFrom n []
  | action {n : Nat} {rest : List Instruction} (a : Action) (h : LinkedFrom (n + 1) rest) :
    LinkedFrom n (a.instruction :: rest)
  | loop {n : Nat} {body rest : List Instruction} (hb : LinkedFrom (n + 1) body)
    (hr : LinkedFrom (n + body.length + 2) rest) :
    LinkedFrom n (.loopBegin (n + body.length + 1) :: (body ++ .loopEnd n :: rest))

/-- The brackets of a program are balanced, and each carries the index of its partner. -/
def Program.Linked (p : Program) : Prop := LinkedFrom 0 p.toList

theorem linkedFrom_block (b : Block) (n : Nat) : LinkedFrom n (b.linkedFrom n) := by
  induction b generalizing n with
  | done => exact .nil n
  | act a rest ih => exact .action a (ih (n + 1))
  | loop body rest ihBody ihRest =>
    have hb := ihBody (n + 1)
    have hr : LinkedFrom (n + (body.linkedFrom (n + 1)).length + 2) (rest.linkedFrom (n + body.size + 2)) := by
      rw [Block.length_linkedFrom]
      exact ihRest _
    have := LinkedFrom.loop hb hr
    rwa [Block.length_linkedFrom] at this

theorem exists_block_of_linkedFrom {n : Nat} {l : List Instruction} (h : LinkedFrom n l) :
    ∃ b : Block, l = b.linkedFrom n := by
  induction h with
  | nil n => exact ⟨.done, rfl⟩
  | action a h ih =>
    obtain ⟨b, rfl⟩ := ih
    exact ⟨.act a b, rfl⟩
  | loop hb hr ihBody ihRest =>
    obtain ⟨body, rfl⟩ := ihBody
    obtain ⟨rest, rfl⟩ := ihRest
    exact ⟨.loop body rest, by simp [Block.linkedFrom]⟩

theorem linkedFrom_iff {n : Nat} {l : List Instruction} :
    LinkedFrom n l ↔ ∃ b : Block, l = b.linkedFrom n :=
  ⟨exists_block_of_linkedFrom, fun ⟨b, hb⟩ => hb ▸ linkedFrom_block b n⟩

/-! ### Partners -/

/-- What stands behind the opening bracket of a loop: its body, the closing bracket, and the rest. -/
theorem getElem?_loop {n : Nat} {body rest : List Instruction} {i : Instruction} (k : Nat)
    (h : (Instruction.loopBegin (n + body.length + 1) :: (body ++ .loopEnd n :: rest))[k + 1]? = some i) :
    (k < body.length ∧ body[k]? = some i) ∨ (k = body.length ∧ i = .loopEnd n) ∨
      ∃ j, k = body.length + 1 + j ∧ rest[j]? = some i := by
  rw [List.getElem?_cons_succ] at h
  rcases Nat.lt_trichotomy k body.length with hk | hk | hk
  · rw [List.getElem?_append_left hk] at h
    exact .inl ⟨hk, h⟩
  · subst hk
    rw [List.getElem?_append_right (Nat.le_refl _), Nat.sub_self, List.getElem?_cons_zero,
      Option.some.injEq] at h
    exact .inr (.inl ⟨rfl, h.symm⟩)
  · obtain ⟨j, rfl⟩ : ∃ j, k = body.length + 1 + j := ⟨k - body.length - 1, by omega⟩
    rw [List.getElem?_append_right (by omega), show body.length + 1 + j - body.length = j + 1 by omega,
      List.getElem?_cons_succ] at h
    exact .inr (.inr ⟨j, rfl, h⟩)

theorem LinkedFrom.close_of_loopBegin {n : Nat} {l : List Instruction} (h : LinkedFrom n l) {k c : Nat}
    (hk : l[k]? = some (.loopBegin c)) : ∃ j, k < j ∧ c = n + j ∧ l[j]? = some (.loopEnd (n + k)) := by
  induction h generalizing k with
  | nil n => simp at hk
  | @action n rest a _ ih =>
    obtain _ | k := k
    · cases a <;> simp [Action.instruction] at hk
    · obtain ⟨j, hj, hc, hl⟩ := ih hk
      refine ⟨j + 1, by omega, by omega, ?_⟩
      rwa [List.getElem?_cons_succ, show n + (k + 1) = n + 1 + k by omega]
  | @loop n body rest _ _ ihBody ihRest =>
    obtain _ | k := k
    · simp only [List.getElem?_cons_zero, Option.some.injEq, Instruction.loopBegin.injEq] at hk
      exact ⟨body.length + 1, by omega, by omega, by simp⟩
    · rcases getElem?_loop k hk with ⟨hlt, hb⟩ | ⟨_, hi⟩ | ⟨k, rfl, hr⟩
      · obtain ⟨j, hj, hc, hl⟩ := ihBody hb
        have hjlt : j < body.length := (List.getElem?_eq_some_iff.1 hl).1
        refine ⟨j + 1, by omega, by omega, ?_⟩
        rwa [List.getElem?_cons_succ, List.getElem?_append_left hjlt,
          show n + (k + 1) = n + 1 + k by omega]
      · cases hi
      · obtain ⟨j, hj, hc, hl⟩ := ihRest hr
        refine ⟨body.length + 2 + j, by omega, by omega, ?_⟩
        rw [show body.length + 2 + j = (body.length + (j + 1)) + 1 by omega, List.getElem?_cons_succ,
          List.getElem?_append_right (by omega), show body.length + (j + 1) - body.length = j + 1 by omega,
          List.getElem?_cons_succ, hl]
        congr 2
        omega

theorem LinkedFrom.open_of_loopEnd {n : Nat} {l : List Instruction} (h : LinkedFrom n l) {k s : Nat}
    (hk : l[k]? = some (.loopEnd s)) : ∃ j, j < k ∧ s = n + j ∧ l[j]? = some (.loopBegin (n + k)) := by
  induction h generalizing k with
  | nil n => simp at hk
  | @action n rest a _ ih =>
    obtain _ | k := k
    · cases a <;> simp [Action.instruction] at hk
    · obtain ⟨j, hj, hs, hl⟩ := ih hk
      refine ⟨j + 1, by omega, by omega, ?_⟩
      rwa [List.getElem?_cons_succ, show n + (k + 1) = n + 1 + k by omega]
  | @loop n body rest _ _ ihBody ihRest =>
    obtain _ | k := k
    · simp at hk
    · rcases getElem?_loop k hk with ⟨hlt, hb⟩ | ⟨rfl, hi⟩ | ⟨k, rfl, hr⟩
      · obtain ⟨j, hj, hs, hl⟩ := ihBody hb
        have hjlt : j < body.length := (List.getElem?_eq_some_iff.1 hl).1
        refine ⟨j + 1, by omega, by omega, ?_⟩
        rwa [List.getElem?_cons_succ, List.getElem?_append_left hjlt,
          show n + (k + 1) = n + 1 + k by omega]
      · cases hi
        exact ⟨0, by omega, rfl, rfl⟩
      · obtain ⟨j, hj, hs, hl⟩ := ihRest hr
        refine ⟨body.length + 2 + j, by omega, by omega, ?_⟩
        rw [show body.length + 2 + j = (body.length + (j + 1)) + 1 by omega, List.getElem?_cons_succ,
          List.getElem?_append_right (by omega), show body.length + (j + 1) - body.length = j + 1 by omega,
          List.getElem?_cons_succ, hl]
        congr 2
        omega

namespace Program

/-- The closing bracket of an opening one. -/
theorem Linked.close_of_loopBegin {p : Program} (hp : p.Linked) {i c : Nat}
    (h : p[i]? = some (.loopBegin c)) : i < c ∧ p[c]? = some (.loopEnd i) := by
  rw [← Array.getElem?_toList] at h
  obtain ⟨j, hj, hc, hl⟩ := LinkedFrom.close_of_loopBegin hp h
  rw [Nat.zero_add] at hc hl
  subst hc
  exact ⟨hj, by rwa [← Array.getElem?_toList]⟩

/-- The opening bracket of a closing one. -/
theorem Linked.open_of_loopEnd {p : Program} (hp : p.Linked) {i s : Nat}
    (h : p[i]? = some (.loopEnd s)) : s < i ∧ p[s]? = some (.loopBegin i) := by
  rw [← Array.getElem?_toList] at h
  obtain ⟨j, hj, hs, hl⟩ := LinkedFrom.open_of_loopEnd hp h
  rw [Nat.zero_add] at hs hl
  subst hs
  exact ⟨hj, by rwa [← Array.getElem?_toList]⟩

theorem linked_of_block (b : Block) : Linked (b.linkedFrom 0).toArray := linkedFrom_block b 0

/-- The linked programs are the listings of blocks. -/
theorem linked_iff_block {p : Program} : p.Linked ↔ ∃ b : Block, p = (b.linkedFrom 0).toArray := by
  constructor
  · intro h
    obtain ⟨b, hb⟩ := linkedFrom_iff.1 h
    exact ⟨b, by rw [← hb]⟩
  · rintro ⟨b, rfl⟩
    exact linked_of_block b

/-! ### Linking the listing of a block -/

/-- Writing both ends of a loop into a program that has the listing of its body between them. -/
theorem toList_link_brackets {q : Program} {before body after : List Instruction} {i j : Instruction}
    (h : q.toList = before ++ i :: (body ++ j :: after)) :
    ((q.setIfInBounds before.length (.loopBegin (before.length + body.length + 1))).setIfInBounds
        (before.length + body.length + 1) (.loopEnd before.length)).toList =
      before ++ .loopBegin (before.length + body.length + 1) ::
        (body ++ .loopEnd before.length :: after) := by
  rw [Array.toList_setIfInBounds, Array.toList_setIfInBounds, h, List.set_append_right _ _ (by omega),
    List.set_append_right _ _ (by omega), Nat.sub_self, List.set_cons_zero,
    show before.length + body.length + 1 - before.length = body.length + 1 by omega, List.set_cons_succ,
    List.set_append_right _ _ (by omega), Nat.sub_self, List.set_cons_zero]

theorem linkFrom_action (a : Action) (index : Nat) (pending : List Nat) (linked : Program)
    (rest : List Instruction) :
    linkFrom index pending linked (a.instruction :: rest) = linkFrom (index + 1) pending linked rest := by
  cases a <;> rfl

/-- Linking goes through the listing of a block, leaves it linked, and keeps the loops that are open
around it. -/
theorem linkFrom_block (b : Block) (l before after : List Instruction) (pending : List Nat)
    (linked : Program) (hl : l.map Instruction.erase = b.instructions)
    (h : linked.toList = before ++ (l ++ after)) :
    ∃ linked' : Program,
      linkFrom before.length pending linked (l ++ after) =
        linkFrom (before.length + b.size) pending linked' after ∧
      linked'.toList = before ++ (b.linkedFrom before.length ++ after) := by
  induction b generalizing l before after pending linked with
  | done =>
    obtain rfl : l = [] := List.map_eq_nil_iff.1 hl
    exact ⟨linked, rfl, h⟩
  | act a rest ih =>
    obtain ⟨i, l, rfl, hi, hr⟩ := List.map_eq_cons_iff.1 hl
    obtain rfl : i = a.instruction := Instruction.eq_of_erase_eq hi
    obtain ⟨linked', hrun, hlist⟩ :=
      ih l (before ++ [a.instruction]) after pending linked hr (by simpa using h)
    refine ⟨linked', ?_, by simpa [Block.linkedFrom] using hlist⟩
    rw [List.cons_append, linkFrom_action]
    simpa [Block.size, Nat.add_assoc, Nat.add_comm 1] using hrun
  | loop body rest ihBody ihRest =>
    obtain ⟨close, lb, start, lr, rfl, hb, hr⟩ := Block.eq_of_map_erase_loop hl
    -- the body is linked first, with this loop open around it
    obtain ⟨linked₁, hrun₁, hlist₁⟩ :=
      ihBody lb (before ++ [.loopBegin close]) (.loopEnd start :: (lr ++ after)) (before.length :: pending)
        linked hb (by simpa using h)
    simp only [List.length_append, List.length_cons, List.length_nil, Nat.zero_add] at hrun₁ hlist₁
    have hlist₂ := toList_link_brackets
      (by simpa using hlist₁ : linked₁.toList = before ++ .loopBegin close ::
        (body.linkedFrom (before.length + 1) ++ .loopEnd start :: (lr ++ after)))
    rw [Block.length_linkedFrom] at hlist₂
    -- closing it writes both brackets, and what follows is linked behind them
    obtain ⟨linked', hrun₂, hlist'⟩ :=
      ihRest lr (before ++ .loopBegin (before.length + body.size + 1) ::
        (body.linkedFrom (before.length + 1) ++ [.loopEnd before.length])) after pending _ hr
        (by rw [hlist₂]; simp)
    have hlen : (before ++ .loopBegin (before.length + body.size + 1) ::
        (body.linkedFrom (before.length + 1) ++ [Instruction.loopEnd before.length])).length =
          before.length + body.size + 2 := by
      simp
      omega
    rw [hlen] at hrun₂ hlist'
    refine ⟨linked', ?_, by rw [hlist']; simp [Block.linkedFrom]⟩
    calc linkFrom before.length pending linked (.loopBegin close :: (lb ++ .loopEnd start :: lr) ++ after)
      _ = linkFrom (before.length + 1) (before.length :: pending) linked
            (lb ++ .loopEnd start :: (lr ++ after)) := by simp [linkFrom]
      _ = linkFrom (before.length + 1 + body.size) (before.length :: pending) linked₁
            (.loopEnd start :: (lr ++ after)) := hrun₁
      _ = linkFrom (before.length + body.size + 2) pending _ (lr ++ after) := by
            rw [linkFrom, show before.length + 1 + body.size = before.length + body.size + 1 by omega]
      _ = linkFrom (before.length + body.size + 2 + rest.size) pending linked' after := hrun₂
      _ = linkFrom (before.length + (Block.loop body rest).size) pending linked' after := by
            rw [show before.length + body.size + 2 + rest.size = before.length + (Block.loop body rest).size by
              simp only [Block.size]; omega]

/-- Linking the listing of a block, whatever its loop targets, gives the linked listing. -/
theorem link_eq_of_map_erase {p : Program} {b : Block} (h : p.toList.map Instruction.erase = b.instructions) :
    p.link = ⟨(b.linkedFrom 0).toArray, none⟩ := by
  obtain ⟨q, hrun, hlist⟩ := linkFrom_block b p.toList [] [] [] p h (by simp)
  have hlink : p.link = ⟨q, none⟩ := by
    have : p.link = linkFrom (0 + b.size) [] q [] := by simpa [link] using hrun
    rw [this]
    rfl
  have hq : q = (b.linkedFrom 0).toArray := by
    rw [← Array.toList_inj]
    simpa using hlist
  rw [hlink, hq]

theorem linked_eq_ok_of_map_erase {p : Program} {b : Block}
    (h : p.toList.map Instruction.erase = b.instructions) :
    p.linked = .ok (b.linkedFrom 0).toArray := by
  rw [linked, link_eq_of_map_erase h]

end Program

end TapeLang
