import TapeLang.Proofs.Code.Located
import TapeLang.Proofs.X86.Decoding
import TapeLang.Proofs.X86.Layout
import TapeLang.X86.Routine

/-!
# What assembling gives

Code that was assembled has the bytes of every piece where the sizes of the pieces before it add up,
every branch carries the distance to its label, and the marks are the places of their labels
(`Assembled`).
-/

namespace TapeLang

theorem Piece.mapLabel_eq_label_iff {ω β ℓ κ : Type} {f : ℓ → κ} {q : Piece ω β ℓ} {m : κ} :
    q.mapLabel f = .label m ↔ ∃ l, q = .label l ∧ f l = m := by
  cases q <;> simp [Piece.mapLabel]

namespace X86

namespace Assembler

/-! ### Binding labels -/

/-- The table of labels says where each label stands among the pieces. -/
def Bound (a : Assembler) : Prop :=
  ∀ l k : Nat, a.bound[l]? = some k ↔ a.pieces[k]? = some (Piece.label l)

theorem empty_bound : empty.Bound := by
  intro l k
  simp [empty]

theorem add_ok {a a' : Assembler} {q : Piece Op Branch Nat} (ha : a.Bound) (h : a.add q = .ok a') :
    a'.pieces = a.pieces.push q ∧ a'.Bound := by
  have hpush (l k : Nat) (hq : q ≠ .label l) :
      (a.pieces.push q)[k]? = some (Piece.label l) ↔ a.pieces[k]? = some (Piece.label l) := by
    rw [Array.getElem?_push]
    split
    · subst k
      simp [hq]
    · rfl
  cases q with
  | op o =>
    cases h
    refine ⟨rfl, fun l k => ?_⟩
    rw [hpush l k (by simp)]
    exact ha l k
  | branch b t =>
    cases h
    refine ⟨rfl, fun l k => ?_⟩
    rw [hpush l k (by simp)]
    exact ha l k
  | label m =>
    by_cases hnew : m ∈ a.bound
    · rw [add, if_pos hnew] at h
      cases h
    · rw [add, if_neg hnew] at h
      cases h
      refine ⟨rfl, fun l k => ?_⟩
      show (a.bound.insert m a.pieces.size)[l]? = some k ↔ _
      rw [Std.HashMap.getElem?_insert]
      by_cases hml : m = l
      · subst hml
        have hnone : a.bound[m]? = none := Std.HashMap.getElem?_eq_none hnew
        rw [if_pos (by simp), Array.getElem?_push]
        split
        · rename_i hk
          simp [hk]
        · rename_i hk
          rw [← ha m k, hnone]
          simp [Ne.symm hk]
      · rw [if_neg (by simpa using hml), hpush l k (by simpa using hml)]
        exact ha l k

theorem addAll_ok {ps : Array (Piece Op Branch Nat)} {a a' : Assembler} (ha : a.Bound)
    (h : a.addAll ps = .ok a') : a'.pieces.toList = a.pieces.toList ++ ps.toList ∧ a'.Bound := by
  rw [addAll, ← Array.foldlM_toList] at h
  generalize ps.toList = l at h
  induction l generalizing a with
  | nil =>
    cases h
    exact ⟨(List.append_nil _).symm, ha⟩
  | cons q l ih =>
    rw [List.foldlM_cons] at h
    cases hq : a.add q with
    | error e => rw [hq] at h; cases h
    | ok a₁ =>
      rw [hq] at h
      obtain ⟨hpieces, hbound⟩ := add_ok ha hq
      obtain ⟨hpieces', hbound'⟩ := ih hbound h
      refine ⟨?_, hbound'⟩
      rw [hpieces', hpieces]
      simp

/-! ### Labels and their numbers -/

/-- What was appended to no pieces is all there is. -/
theorem pieces_of_addAll {ps : List (Piece Op Branch Label)} {a : Assembler}
    (h : empty.addAll (ps.toArray.map (·.mapLabel Label.number)) = .ok a) :
    a.pieces.toList = ps.map (·.mapLabel Label.number) ∧ a.Bound := by
  obtain ⟨hpieces, hbound⟩ := addAll_ok empty_bound h
  refine ⟨?_, hbound⟩
  rw [hpieces]
  simp [empty]

section Numbered

variable {a : Assembler} {ps : List (Piece Op Branch Label)}
  (hps : a.pieces.toList = ps.map (·.mapLabel Label.number)) {k : Nat}
include hps

theorem size_pieces : a.pieces.size = ps.length := by rw [← Array.length_toList, hps, List.length_map]

theorem getElem?_pieces : a.pieces[k]? = ps[k]?.map (·.mapLabel Label.number) := by
  rw [← Array.getElem?_toList, hps, List.getElem?_map]

theorem getElem?_pieces_of_eq {q : Piece Op Branch Label} (hq : ps[k]? = some q) :
    a.pieces[k]? = some (q.mapLabel Label.number) := by
  rw [getElem?_pieces hps, hq]
  rfl

/-- Labels with one number are one label. -/
theorem getElem?_pieces_label_iff {l : Label} :
    a.pieces[k]? = some (.label l.number) ↔ ps[k]? = some (.label l) := by
  refine ⟨fun h => ?_, getElem?_pieces_of_eq hps⟩
  rw [getElem?_pieces hps] at h
  obtain ⟨q, hq, hql⟩ := Option.map_eq_some_iff.1 h
  obtain ⟨m, rfl, hm⟩ := Piece.mapLabel_eq_label_iff.1 hql
  rw [hq, Label.number_injective hm]

end Numbered

/-! ### Encoding -/

theorem encodePiece_length {a : Assembler} {es : Array Extent} {L : Layout} (hL : Layout.Final es L)
    {k : Nat} {q : Piece Op Branch Nat} (hq : es[k]? = some (a.extentOf q)) {bytes : List UInt8}
    (h : a.encodePiece L k q = .ok bytes) : bytes.length = Layout.sizeAt L.sizes k := by
  have hallowed := hL.final hq
  cases q with
  | op o =>
    rw [encodePiece] at h
    split at h
    · cases h
    · cases h
      exact hallowed.symm
  | branch b l =>
    simp only [encodePiece] at h
    split at h
    · cases h
      exact length_branch b hallowed _
    · cases h
  | label l =>
    cases h
    exact hallowed.symm

/-- Where encoding succeeds, the bytes of every piece stand behind those of the pieces before it. -/
theorem encodeTo_ok {a : Assembler} {L : Layout} {qs : List (Piece Op Branch Nat)} (idx : Nat)
    {code code' : Array UInt8}
    (hlen : ∀ (j : Nat) (q : Piece Op Branch Nat) (bytes : List UInt8), qs[j]? = some q →
      a.encodePiece L (idx + j) q = .ok bytes → bytes.length = Layout.sizeAt L.sizes (idx + j))
    (hsize : code.size = Layout.total L.sizes idx) (h : a.encodeTo L code idx qs = .ok code') :
    code'.size = Layout.total L.sizes (idx + qs.length) ∧ (∃ rest, code'.toList = code.toList ++ rest) ∧
      ∀ (j : Nat) (q : Piece Op Branch Nat), qs[j]? = some q →
        ∃ bytes rest, a.encodePiece L (idx + j) q = .ok bytes ∧
          code'.toList.drop (Layout.total L.sizes (idx + j)) = bytes ++ rest := by
  induction qs generalizing idx code with
  | nil =>
    cases h
    exact ⟨hsize, ⟨[], (List.append_nil _).symm⟩, by simp⟩
  | cons q qs ih =>
    rw [encodeTo] at h
    cases hq : a.encodePiece L idx q with
    | error e => rw [hq] at h; cases h
    | ok bytes =>
      rw [hq] at h
      have hbytes : bytes.length = Layout.sizeAt L.sizes idx := hlen 0 q bytes rfl hq
      have hnext (j : Nat) : idx + 1 + j = idx + (j + 1) := by omega
      obtain ⟨hsize', ⟨rest, hrest⟩, hpieces⟩ := ih (idx + 1)
        (fun j q' bytes' hj hb => by
          rw [hnext] at hb ⊢
          exact hlen (j + 1) q' bytes' hj hb)
        (by rw [← Array.length_toList, Array.toList_appendList, List.length_append, Array.length_toList,
          hsize, hbytes, Layout.total]) h
      rw [Array.toList_appendList, List.append_assoc] at hrest
      refine ⟨by rw [hsize', hnext]; rfl, ⟨_, hrest⟩, ?_⟩
      intro j q' hj
      obtain _ | j := j
      · cases hj
        refine ⟨bytes, rest, hq, ?_⟩
        rw [hrest, Nat.add_zero, ← hsize]
        exact List.drop_left
      · rw [← hnext]
        exact hpieces j q' hj

end Assembler

/-! ### Assembled code -/

/-- Code that holds pieces one after another, the piece at `k` at `offset k`. -/
structure Assembled (ps : List (Piece Op Branch Label)) (code : Array UInt8) (offset : Nat → Nat) : Prop where
  zero : offset 0 = 0
  size : offset ps.length = code.size
  le (k : Nat) : offset k ≤ code.size
  op {k : Nat} {o : Op} (h : ps[k]? = some (.op o)) :
    o.refusal? = none ∧ offset (k + 1) = offset k + o.encode.length ∧
      ∃ rest, code.toList.drop (offset k) = o.encode ++ rest
  branch {k : Nat} {b : Branch} {l : Label} (h : ps[k]? = some (.branch b l)) :
    ∃ size displacement, (size = Branch.shortSize ∨ size = b.longSize) ∧
      Branch.holds size displacement = true ∧ offset (k + 1) = offset k + size ∧
      (∃ rest, code.toList.drop (offset k) = b.encode size displacement ++ rest) ∧
      ∀ j : Nat, ps[j]? = some (.label l) → displacement = offset j - offset (k + 1)
  label {k : Nat} {l : Label} (h : ps[k]? = some (.label l)) : offset (k + 1) = offset k

namespace Assembler

theorem getElem?_extents {a : Assembler} {k : Nat} {q : Piece Op Branch Nat} (h : a.pieces[k]? = some q) :
    (a.pieces.map a.extentOf)[k]? = some (a.extentOf q) := by
  rw [Array.getElem?_map, h]
  rfl

theorem addressOf_piece {a : Assembler} {es : Array Extent} {L : Layout} (ha : a.Bound) (hL : Layout.Final es L)
    (hes : es = a.pieces.map a.extentOf) {l j : Nat} (hj : a.pieces[j]? = some (.label l)) :
    addressOf L (a.targetOf l) = Layout.total L.sizes j := by
  have hlt : j < es.size := by
    rw [hes, Array.size_map]
    exact (Array.getElem?_eq_some_iff.1 hj).1
  rw [targetOf, (ha l j).2 hj]
  simp only [addressOf]
  rw [hL.start hlt, Option.getD_some]

/-- What was encoded is the pieces one after another. -/
theorem encode_assembled {a : Assembler} {ps : List (Piece Op Branch Label)}
    (hps : a.pieces.toList = ps.map (·.mapLabel Label.number)) (ha : a.Bound) {code : Array UInt8}
    (h : a.encode a.layout = .ok code) : Assembled ps code (Layout.total a.layout.sizes) := by
  have hL : Layout.Final (a.pieces.map a.extentOf) a.layout := Layout.ofExtents_final _
  have hsizeAt {k : Nat} {q : Piece Op Branch Label} (hq : ps[k]? = some q) :
      (a.extentOf (q.mapLabel Label.number)).Allows (Layout.sizeAt a.layout.sizes k) :=
    hL.final (getElem?_extents (getElem?_pieces_of_eq hps hq))
  obtain ⟨hsize, _, hpieces⟩ := encodeTo_ok 0
    (fun j q bytes hj hb => by
      rw [Nat.zero_add] at hb ⊢
      rw [Array.getElem?_toList] at hj
      exact encodePiece_length hL (getElem?_extents hj) hb)
    rfl h
  have hpiece {k : Nat} {q : Piece Op Branch Label} (hq : ps[k]? = some q) :
      ∃ bytes rest, a.encodePiece a.layout k (q.mapLabel Label.number) = .ok bytes ∧
        code.toList.drop (Layout.total a.layout.sizes k) = bytes ++ rest := by
    have := hpieces k (q.mapLabel Label.number) (by rw [Array.getElem?_toList, getElem?_pieces_of_eq hps hq])
    rwa [Nat.zero_add] at this
  refine ⟨rfl, ?_, ?_, ?_, ?_, ?_⟩
  · rw [hsize, Nat.zero_add, hps, List.length_map]
  · intro k
    rw [hsize, Nat.zero_add]
    refine Layout.total_le_of_size_le (Nat.le_of_eq ?_) k
    rw [hL.size_sizes, Array.size_map, Array.length_toList]
  · intro k o hq
    obtain ⟨bytes, rest, hb, hdrop⟩ := hpiece hq
    simp only [Piece.mapLabel, encodePiece] at hb
    split at hb
    · cases hb
    · rename_i haccepted
      cases hb
      refine ⟨haccepted, ?_, rest, hdrop⟩
      rw [Layout.total, show Layout.sizeAt a.layout.sizes k = o.encode.length from hsizeAt hq]
  · intro k b l hq
    obtain ⟨bytes, rest, hb, hdrop⟩ := hpiece hq
    have hlt : k < (a.pieces.map a.extentOf).size := by
      rw [Array.size_map]
      exact (Array.getElem?_eq_some_iff.1 (getElem?_pieces_of_eq hps hq)).1
    simp only [Piece.mapLabel, encodePiece, hL.start hlt, Option.getD_some] at hb
    split at hb
    · rename_i hholds
      cases hb
      refine ⟨_, _, hsizeAt hq, hholds, rfl, ⟨rest, hdrop⟩, fun j hj => ?_⟩
      rw [addressOf_piece ha hL rfl (getElem?_pieces_of_eq hps hj)]
      rfl
    · cases hb
  · intro k l hq
    rw [Layout.total, show Layout.sizeAt a.layout.sizes k = 0 from hsizeAt hq, Nat.add_zero]

theorem offsetOf_ok {a : Assembler} {ps : List (Piece Op Branch Label)}
    (hps : a.pieces.toList = ps.map (·.mapLabel Label.number)) (ha : a.Bound) {l : Label} {n : Nat}
    (h : a.offsetOf a.layout l.number = .ok n) :
    ∃ k : Nat, ps[k]? = some (.label l) ∧ n = Layout.total a.layout.sizes k := by
  have hL : Layout.Final (a.pieces.map a.extentOf) a.layout := Layout.ofExtents_final _
  rw [offsetOf] at h
  split at h
  · rename_i k hk
    cases h
    have hlabel : a.pieces[k]? = some (.label l.number) := (ha _ _).1 hk
    have hlt : k < (a.pieces.map a.extentOf).size := by
      rw [Array.size_map]
      exact (Array.getElem?_eq_some_iff.1 hlabel).1
    exact ⟨k, (getElem?_pieces_label_iff hps).1 hlabel, by rw [hL.start hlt, Option.getD_some]⟩
  · cases h

theorem assemble_ok {a : Assembler} {marks : Array Nat} {r : Routine} (h : a.assemble marks = .ok r) :
    a.encode a.layout = .ok r.code ∧ marks.mapM (a.offsetOf a.layout) = .ok r.offsets := by
  rw [assemble] at h
  cases hc : a.encode a.layout with
  | error e => rw [hc] at h; cases h
  | ok code =>
    rw [hc] at h
    replace h : (marks.mapM (a.offsetOf a.layout) >>= fun offsets => .ok ⟨code, offsets⟩) = .ok r := h
    cases ho : marks.mapM (a.offsetOf a.layout) with
    | error e => rw [ho] at h; cases h
    | ok offsets =>
      rw [ho] at h
      cases h
      exact ⟨rfl, rfl⟩

theorem assemble_eq {a : Assembler} {marks : Array Nat} {code : Array UInt8} {offsets : Array Nat}
    (hcode : a.encode a.layout = .ok code) (hoffsets : marks.mapM (a.offsetOf a.layout) = .ok offsets) :
    a.assemble marks = .ok ⟨code, offsets⟩ := by
  rw [assemble, hcode]
  show (marks.mapM (a.offsetOf a.layout) >>= fun offsets =>
    (Except.ok ⟨code, offsets⟩ : Except AssemblyError Routine)) = _
  rw [hoffsets]
  rfl

end Assembler

/-- What `assemble` gives is the pieces one after another, and the places of the marks in them. -/
theorem assembled_of_assemble {ps : List (Piece Op Branch Label)} {marks : Array Label} {r : Routine}
    (h : assemble ps.toArray marks = .ok r) :
    ∃ offset, Assembled ps r.code offset ∧ r.offsets.size = marks.size ∧
      ∀ (i : Nat) (l : Label), marks[i]? = some l →
        ∃ k, ps[k]? = some (.label l) ∧ r.offsets[i]? = some (offset k) := by
  rw [assemble] at h
  cases ha : Assembler.empty.addAll (ps.toArray.map (·.mapLabel Label.number)) with
  | error e => rw [ha] at h; cases h
  | ok a =>
    obtain ⟨hps, hbound⟩ := Assembler.pieces_of_addAll ha
    rw [ha] at h
    obtain ⟨hencode, hmarks⟩ := Assembler.assemble_ok h
    obtain ⟨hsize, hoffset⟩ := forall_of_array_mapM_eq_ok hmarks
    refine ⟨_, Assembler.encode_assembled hps hbound hencode, by rw [hsize, Array.size_map], fun i l hi => ?_⟩
    obtain ⟨n, hn, hget⟩ := hoffset i l.number (by rw [Array.getElem?_map, hi]; rfl)
    obtain ⟨k, hk, rfl⟩ := Assembler.offsetOf_ok hps hbound hn
    exact ⟨k, hk, hget⟩

end X86

end TapeLang
