import TapeLang.Proofs.Code.Chunks

/-!
# Reading code

Code is read from an address on, one instruction behind the other, and reading has to come to the end exactly
(`disassemble`). How one instruction is read is a parameter: `read a` is the instruction at the address `a` and the
address behind it. Branches are read with the address that they go to.

`Readable` says that code reads as a sequence of pieces. Then a part of the sequence reads as what it is: operations
in their order (`Readable.ops`), and a branch to the place of its label (`Readable.branch_one`). So does a beginning of
it (`Readable.disassemble_take`), if every branch has its label.
-/

namespace TapeLang

/-- An instruction as it is read: an operation, or a branch and the address that it goes to. -/
inductive Text (ω β : Type) where
  | op (o : ω)
  | branch (b : β) (target : Int)
  deriving DecidableEq, Repr

/-- What a piece is read as, with labels at the given places. A label is not read. -/
def Piece.text? {ω β ℓ : Type} (place : ℓ → Nat) : Piece ω β ℓ → Option (Text ω β)
  | op o => some (.op o)
  | branch b target => some (.branch b (place target))
  | label _ => none

variable {ω β : Type} {read : Nat → Option (Text ω β × Nat)}

/-- What stands from one address to another; `none` if reading does not come to the second. -/
def disassemble (read : Nat → Option (Text ω β × Nat)) (start stop : Nat) : Option (List (Text ω β)) :=
  if start = stop then some []
  else
    match read start with
    | none => none
    | some (text, next) =>
      if start < next ∧ next ≤ stop then (disassemble read next stop).map (text :: ·) else none
termination_by stop - start

variable {a b c : Nat} {t : Text ω β} {ts us : List (Text ω β)}

@[simp] theorem disassemble_self (read : Nat → Option (Text ω β × Nat)) (a : Nat) : disassemble read a a = some [] := by
  rw [disassemble, if_pos rfl]

theorem disassemble_cons (h : read a = some (t, b)) (hlt : a < b) (hle : b ≤ c) :
    disassemble read a c = (disassemble read b c).map (t :: ·) := by
  rw [disassemble, if_neg (by omega), h]
  exact if_pos ⟨hlt, hle⟩

/-- The steps that reading takes: to an address behind, and on from there. -/
theorem exists_read_of_disassemble (h : disassemble read a c = some (t :: ts)) :
    ∃ b, read a = some (t, b) ∧ a < b ∧ b ≤ c ∧ disassemble read b c = some ts := by
  rw [disassemble] at h
  split at h
  · cases h
  · split at h
    · cases h
    · rename_i text next hread
      split at h
      · rename_i hnext
        obtain ⟨us, hus, heq⟩ := Option.map_eq_some_iff.1 h
        cases heq
        exact ⟨next, hread, hnext.1, hnext.2, hus⟩
      · cases h

theorem eq_of_disassemble_nil (h : disassemble read a b = some []) : a = b := by
  rw [disassemble] at h
  split at h
  · assumption
  · split at h
    · cases h
    · split at h
      · obtain ⟨us, -, heq⟩ := Option.map_eq_some_iff.1 h
        cases heq
      · cases h

/-- Every instruction takes a byte at least. -/
theorem add_length_le_of_disassemble (h : disassemble read a b = some ts) : a + ts.length ≤ b := by
  induction ts generalizing a with
  | nil => exact Nat.le_of_eq (eq_of_disassemble_nil h)
  | cons t ts ih =>
    obtain ⟨n, -, hlt, -, hrest⟩ := exists_read_of_disassemble h
    have := ih hrest
    rw [List.length_cons]
    omega

theorem lt_of_disassemble (h : disassemble read a b = some ts) (hne : ts ≠ []) : a < b := by
  have hle := add_length_le_of_disassemble h
  have hpos := List.length_pos_iff.2 hne
  omega

/-- Reading goes on where it came to. -/
theorem disassemble_append (h : disassemble read a b = some ts) (h' : disassemble read b c = some us) :
    disassemble read a c = some (ts ++ us) := by
  induction ts generalizing a with
  | nil =>
    obtain rfl := eq_of_disassemble_nil h
    exact h'
  | cons t ts ih =>
    obtain ⟨n, hread, hlt, hle, hrest⟩ := exists_read_of_disassemble h
    have hbc := add_length_le_of_disassemble h'
    rw [disassemble_cons hread hlt (by omega), ih hrest]
    rfl

/-! ### Code that reads as pieces -/

/-- Code that reads as pieces one after another, the piece at `k` at the address `offset k`. -/
structure Readable (read : Nat → Option (Text ω β × Nat)) (ps : List (Piece ω β Label)) (offset : Nat → Nat) : Prop where
  zero : offset 0 = 0
  op {k : Nat} {o : ω} (h : ps[k]? = some (.op o)) :
    offset k < offset (k + 1) ∧ read (offset k) = some (.op o, offset (k + 1))
  branch {j k : Nat} {b : β} {l : Label} (h : ps[k]? = some (.branch b l)) (hj : ps[j]? = some (.label l)) :
    offset k < offset (k + 1) ∧ read (offset k) = some (.branch b (offset j), offset (k + 1))
  label {k : Nat} {l : Label} (h : ps[k]? = some (.label l)) : offset (k + 1) = offset k

namespace Readable

variable {ps : List (Piece ω β Label)} {offset : Nat → Nat} {k j : Nat}

theorem ops {os : List ω} (h : Readable read ps offset) (hos : Located ps k (Dialect.ops os)) :
    disassemble read (offset k) (offset (k + os.length)) = some (os.map .op) := by
  induction os generalizing k with
  | nil => exact disassemble_self read _
  | cons o os ih =>
    obtain ⟨hlt, hread⟩ := h.op hos.1
    have hrest := ih hos.2
    rw [List.length_cons, show k + (os.length + 1) = k + 1 + os.length by omega,
      disassemble_cons hread hlt (Nat.le_of_add_right_le (add_length_le_of_disassemble hrest)), hrest]
    rfl

theorem branch_one {b : β} {l : Label} (h : Readable read ps offset) (hk : ps[k]? = some (.branch b l))
    (hj : ps[j]? = some (.label l)) :
    disassemble read (offset k) (offset (k + 1)) = some [.branch b (offset j)] := by
  obtain ⟨hlt, hread⟩ := h.branch hk hj
  rw [disassemble_cons hread hlt (Nat.le_refl _), disassemble_self]
  rfl

/-- Operations behind a label are read from its address on. -/
theorem ops_behind {os : List ω} {l : Label} (h : Readable read ps offset)
    (hos : Located ps k (.label l :: Dialect.ops os)) :
    disassemble read (offset k) (offset (k + 1 + os.length)) = some (os.map .op) := by
  rw [← h.label hos.1]
  exact h.ops hos.2

section Whole

variable {place : Label → Nat} (h : Readable read ps offset)
  (hplace : ∀ (j : Nat) (l : Label), ps[j]? = some (.label l) → place l = offset j)
  (hbranch : ∀ (b : β) (l : Label), .branch b l ∈ ps → .label l ∈ ps)

include h hplace hbranch

theorem disassemble_piece {q : Piece ω β Label} (hk : ps[k]? = some q) :
    disassemble read (offset k) (offset (k + 1)) = some (q.text? place).toList := by
  cases q with
  | op o =>
    obtain ⟨hlt, hread⟩ := h.op hk
    rw [disassemble_cons hread hlt (Nat.le_refl _), disassemble_self]
    rfl
  | branch b l =>
    obtain ⟨j, hj⟩ := List.mem_iff_getElem?.1 (hbranch b l (List.mem_of_getElem? hk))
    rw [h.branch_one hk hj, ← hplace j l hj]
    rfl
  | label l =>
    rw [h.label hk, disassemble_self]
    rfl

/-- Where every branch has its label, the pieces are all that is read. -/
theorem disassemble_take (hk : k ≤ ps.length) :
    disassemble read 0 (offset k) = some ((ps.take k).filterMap (·.text? place)) := by
  induction k with
  | zero =>
    rw [h.zero, disassemble_self]
    rfl
  | succ k ih =>
    have hpiece := h.disassemble_piece hplace hbranch (List.getElem?_eq_getElem (show k < ps.length from hk))
    rw [disassemble_append (ih (Nat.le_of_succ_le hk)) hpiece, List.take_succ_eq_append_getElem hk,
      List.filterMap_append]
    cases ps[k] <;> rfl

end Whole

end Readable

end TapeLang
