import TapeLang.A64.Assembler
import TapeLang.Proofs.A64.Decoding
import TapeLang.Proofs.Code.Located

/-!
# What assembling gives

A piece stands where four bytes for each piece before it that is no label add up (`offsetAt`). Code
that was assembled has there the word of the piece, every branch carries the distance to its label,
and the marks are the places of their labels (`Assembled`).
-/

namespace TapeLang.A64

/-- How many bytes a piece takes. -/
def width : Piece Op Branch Label → Nat
  | .label _ => 0
  | _ => 4

/-- Where the piece at an index stands. -/
def offsetAt : List (Piece Op Branch Label) → Nat → Nat
  | [], _ => 0
  | _, 0 => 0
  | q :: ps, k + 1 => width q + offsetAt ps k

variable {ps : List (Piece Op Branch Label)} {report : Label → Nat}

theorem offsetAt_zero (ps : List (Piece Op Branch Label)) : offsetAt ps 0 = 0 := by
  cases ps <;> rfl

theorem offsetAt_succ {k : Nat} {q : Piece Op Branch Label} (h : ps[k]? = some q) :
    offsetAt ps (k + 1) = offsetAt ps k + width q := by
  induction ps generalizing k with
  | nil => cases h
  | cons q' ps ih =>
    obtain _ | k := k
    · cases h
      show width q + offsetAt ps 0 = 0 + width q
      rw [offsetAt_zero, Nat.add_comm]
    · rw [offsetAt, ih h, offsetAt, Nat.add_assoc]

theorem offsetAt_le (ps : List (Piece Op Branch Label)) (k : Nat) : offsetAt ps k ≤ offsetAt ps ps.length := by
  induction ps generalizing k with
  | nil => exact Nat.le_refl 0
  | cons q ps ih =>
    obtain _ | k := k
    · exact Nat.zero_le _
    · exact Nat.add_le_add_left (ih k) _

theorem offsetAt_mod (ps : List (Piece Op Branch Label)) (k : Nat) : offsetAt ps k % 4 = 0 := by
  induction ps generalizing k with
  | nil => rfl
  | cons q ps ih =>
    obtain _ | k := k
    · rfl
    · have hk := ih k
      have hq : width q = 0 ∨ width q = 4 := by
        cases q with
        | label l => exact .inl rfl
        | op o => exact .inr rfl
        | branch b l => exact .inr rfl
      rw [offsetAt]
      omega

theorem offsetAt_le_mul (ps : List (Piece Op Branch Label)) (k : Nat) : offsetAt ps k ≤ 4 * ps.length := by
  induction ps generalizing k with
  | nil => exact Nat.zero_le _
  | cons q ps ih =>
    obtain _ | k := k
    · exact Nat.zero_le _
    · have hk := ih k
      have hq : width q ≤ 4 := by
        cases q with
        | label l => exact Nat.zero_le 4
        | op o => exact Nat.le_refl 4
        | branch b l => exact Nat.le_refl 4
      rw [offsetAt, List.length_cons]
      omega

/-! ### Places of labels -/

/-- No label stands twice among the pieces. -/
def Once (ps : List (Piece Op Branch Label)) : Prop :=
  ∀ (j k : Nat) (l : Label), ps[j]? = some (.label l) → ps[k]? = some (.label l) → j = k

theorem Once.tail {q : Piece Op Branch Label} (h : Once (q :: ps)) : Once ps := fun j k l hj hk => by
  have := h (j + 1) (k + 1) l hj hk
  omega

theorem placesFrom_eq (found : Std.HashMap Nat Nat) (offset : Nat) (h : Once ps) (l : Label) (n : Nat) :
    (placesFrom found offset ps)[l.number]? = some n ↔
      (∃ j : Nat, ps[j]? = some (.label l) ∧ n = offset + offsetAt ps j) ∨
        (∀ j : Nat, ps[j]? ≠ some (.label l)) ∧ found[l.number]? = some n := by
  induction ps generalizing found offset with
  | nil => simp [placesFrom]
  | cons q ps ih =>
    -- where the first piece is not the label in question, its place is that in the rest
    have hrest (found' : Std.HashMap Nat Nat) (hq : q ≠ .label l)
        (hplaces : placesFrom found offset (q :: ps) = placesFrom found' (offset + width q) ps)
        (hfound : found'[l.number]? = found[l.number]?) :
        (placesFrom found offset (q :: ps))[l.number]? = some n ↔
          (∃ j : Nat, (q :: ps)[j]? = some (.label l) ∧ n = offset + offsetAt (q :: ps) j) ∨
            (∀ j : Nat, (q :: ps)[j]? ≠ some (.label l)) ∧ found[l.number]? = some n := by
      rw [hplaces, ih _ _ h.tail, hfound]
      refine or_congr ⟨?_, ?_⟩ (and_congr_left fun _ => ⟨?_, fun hnone j => hnone (j + 1)⟩)
      · rintro ⟨j, hj, rfl⟩
        exact ⟨j + 1, hj, by rw [offsetAt, Nat.add_assoc]⟩
      · rintro ⟨_ | j, hj, rfl⟩
        · cases hj
          exact absurd rfl hq
        · exact ⟨j, hj, by rw [offsetAt, Nat.add_assoc]⟩
      · rintro hnone (_ | j) hj
        · cases hj
          exact absurd rfl hq
        · exact hnone j hj
    cases q with
    | op o => exact hrest found (by simp) rfl rfl
    | branch b m => exact hrest found (by simp) rfl rfl
    | label m =>
      by_cases hml : m = l
      · subst hml
        have hnone (j : Nat) : ps[j]? ≠ some (.label m) := fun hj => by
          have := h 0 (j + 1) m rfl hj
          omega
        rw [placesFrom, ih _ _ h.tail, Std.HashMap.getElem?_insert_self]
        constructor
        · rintro (⟨j, hj, _⟩ | ⟨_, hn⟩)
          · exact absurd hj (hnone j)
          · cases hn
            exact .inl ⟨0, rfl, rfl⟩
        · rintro (⟨_ | j, hj, rfl⟩ | ⟨hall, _⟩)
          · exact .inr ⟨hnone, rfl⟩
          · exact absurd hj (hnone j)
          · exact absurd rfl (hall 0)
      · have hnumber : m.number ≠ l.number := fun heq => hml (Label.number_injective heq)
        refine hrest (found.insert m.number offset) (by simpa using hml) rfl ?_
        rw [Std.HashMap.getElem?_insert, if_neg (by simpa using hnumber)]

/-- The table of labels says where each label stands. -/
theorem place_eq_ok_iff (h : Once ps) (l : Label) (n : Nat) :
    place (places ps.toArray) l = .ok n ↔ ∃ j : Nat, ps[j]? = some (.label l) ∧ n = offsetAt ps j := by
  have hget := placesFrom_eq ∅ 0 h l n
  simp only [Nat.zero_add, Std.HashMap.getElem?_empty, reduceCtorEq, and_false, or_false] at hget
  rw [← hget, place, places]
  cases (placesFrom ∅ 0 ps)[l.number]? with
  | none => simp
  | some offset => simp

/-! ### Assembled code -/

/-- Code that holds pieces one after another. -/
structure Assembled (ps : List (Piece Op Branch Label)) (code : Array UInt8) : Prop where
  size : code.size = offsetAt ps ps.length
  op {k : Nat} {o : Op} (h : ps[k]? = some (.op o)) :
    ∃ rest, code.toList.drop (offsetAt ps k) = wordBytes o.word ++ rest
  branch {k : Nat} {b : Branch} {l : Label} (h : ps[k]? = some (.branch b l)) :
    ∃ (words : Int) (j : Nat), b.reaches words = true ∧ ps[j]? = some (.label l) ∧
      4 * words = (offsetAt ps j : Int) - offsetAt ps k ∧
      ∃ rest, code.toList.drop (offsetAt ps k) = wordBytes (b.word words) ++ rest

theorem encode_length {found : Std.HashMap Nat Nat} {offset : Nat} {q : Piece Op Branch Label} {bytes : List UInt8}
    (h : encode report found offset q = .ok bytes) : bytes.length = width q := by
  cases q with
  | op o =>
    cases h
    exact length_littleEndian 4 _
  | label l =>
    cases h
    rfl
  | branch b l =>
    rw [encode] at h
    cases hplace : place found l with
    | error e => rw [hplace] at h; cases h
    | ok goal =>
      rw [hplace] at h
      replace h : (if b.reaches (((goal : Int) - offset) / 4) then _ else _) = Except.ok bytes := h
      split at h
      · cases h
        exact length_littleEndian 4 _
      · cases h

/-- Where encoding succeeds, the bytes of every piece stand behind those of the pieces before it. -/
theorem encodeTo_ok {found : Std.HashMap Nat Nat} {code code' : Array UInt8}
    (h : encodeTo report found code ps = .ok code') :
    code'.size = code.size + offsetAt ps ps.length ∧ (∃ rest, code'.toList = code.toList ++ rest) ∧
      ∀ (k : Nat) (q : Piece Op Branch Label), ps[k]? = some q →
        ∃ bytes rest, encode report found (code.size + offsetAt ps k) q = .ok bytes ∧
          code'.toList.drop (code.size + offsetAt ps k) = bytes ++ rest := by
  induction ps generalizing code with
  | nil =>
    cases h
    exact ⟨rfl, ⟨[], (List.append_nil _).symm⟩, by simp⟩
  | cons q ps ih =>
    rw [encodeTo] at h
    cases hq : encode report found code.size q with
    | error e => rw [hq] at h; cases h
    | ok bytes =>
      rw [hq] at h
      obtain ⟨hsize, ⟨rest, hrest⟩, hpieces⟩ := ih h
      have hgrown : (code ++ bytes).size = code.size + width q := by
        rw [← Array.length_toList, Array.toList_appendList, List.length_append, Array.length_toList, encode_length hq]
      rw [Array.toList_appendList, List.append_assoc] at hrest
      refine ⟨by rw [hsize, hgrown, Nat.add_assoc]; rfl, ⟨_, hrest⟩, ?_⟩
      rintro (_ | k) q' hk
      · cases hk
        refine ⟨bytes, rest, hq, ?_⟩
        rw [hrest]
        exact List.drop_left
      · have hoffset : code.size + offsetAt (q :: ps) (k + 1) = (code ++ bytes).size + offsetAt ps k := by
          rw [hgrown, offsetAt, Nat.add_assoc]
        rw [hoffset]
        exact hpieces k q' hk

/-- What `assemble` gives is the pieces one after another, and the places of the marks in them. -/
theorem assembled_of_assemble (hps : Once ps) {marks : Array Label} {r : Routine}
    (h : assemble report ps.toArray marks = .ok r) :
    Assembled ps r.code ∧ r.offsets.size = marks.size ∧
      ∀ (i : Nat) (l : Label), marks[i]? = some l →
        ∃ k : Nat, ps[k]? = some (.label l) ∧ r.offsets[i]? = some (offsetAt ps k) := by
  rw [assemble] at h
  cases hcode : encodeTo report (places ps.toArray) #[] ps with
  | error e => rw [hcode] at h; cases h
  | ok code =>
    rw [hcode] at h
    replace h : (marks.mapM (place (places ps.toArray)) >>= fun offsets => .ok ⟨code, offsets⟩) = .ok r := h
    cases hmarks : marks.mapM (place (places ps.toArray)) with
    | error e => rw [hmarks] at h; cases h
    | ok offsets =>
      rw [hmarks] at h
      cases h
      obtain ⟨hsize, -, hpieces⟩ := encodeTo_ok hcode
      obtain ⟨hcount, hoffset⟩ := forall_of_array_mapM_eq_ok hmarks
      have hpiece {k : Nat} {q : Piece Op Branch Label} (hq : ps[k]? = some q) :
          ∃ bytes rest, encode report (places ps.toArray) (offsetAt ps k) q = .ok bytes ∧
            code.toList.drop (offsetAt ps k) = bytes ++ rest := by
        have := hpieces k q hq
        rwa [show (#[] : Array UInt8).size = 0 from rfl, Nat.zero_add] at this
      refine ⟨⟨by simpa using hsize, ?_, ?_⟩, hcount, fun i l hi => ?_⟩
      · intro k o hk
        obtain ⟨bytes, rest, hbytes, hdrop⟩ := hpiece hk
        cases hbytes
        exact ⟨rest, hdrop⟩
      · intro k b l hk
        obtain ⟨bytes, rest, hbytes, hdrop⟩ := hpiece hk
        rw [encode] at hbytes
        cases hplace : place (places ps.toArray) l with
        | error e => rw [hplace] at hbytes; cases hbytes
        | ok goal =>
          rw [hplace] at hbytes
          replace hbytes : (if b.reaches (((goal : Int) - offsetAt ps k) / 4) then _ else _) = Except.ok bytes :=
            hbytes
          obtain ⟨j, hj, rfl⟩ := (place_eq_ok_iff hps l goal).1 hplace
          have hmodj := offsetAt_mod ps j
          have hmodk := offsetAt_mod ps k
          split at hbytes
          · rename_i hreaches
            cases hbytes
            exact ⟨_, j, hreaches, hj, by omega, rest, hdrop⟩
          · cases hbytes
      · obtain ⟨n, hn, hget⟩ := hoffset i l hi
        obtain ⟨j, hj, rfl⟩ := (place_eq_ok_iff hps l n).1 hn
        exact ⟨j, hj, hget⟩

end TapeLang.A64
