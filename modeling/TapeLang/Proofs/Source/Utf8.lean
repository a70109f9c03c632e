import TapeLang.Source.Utf8

/-!
# Reading broken text

Bytes that are no text are read by replacing what is broken in them. What that is does not depend on how a reader
finds it: where the bytes do not go on with a character, the longest beginning of them that is one byte or starts a
character is `Broken`. So a sequence of bytes `Splits` into characters and broken parts, and reading it gives the
characters, and one U+FFFD for each broken part (`toList_decode`).

Reading goes by the lead byte, which announces what may follow; the encoder goes by the size of the code point. Both
are compared with the table of well-formed sequences (`Sequence`): `Lead.sequence` and `Sequence.exists_lead` for the
reader, `Sequence.encode` and `exists_sequence` for the encoder. So the bytes that can follow a lead byte are those
that follow it in a character (`cons_prefix_encode_iff`), and where reading on breaks off it has taken as many of
them as it could (`follow_cases`).
-/

namespace TapeLang.Utf8

/-- The `n` bytes that reading on takes, the first of them in `low … high`. -/
inductive Continues : Nat → UInt8 → UInt8 → List UInt8 → Prop where
  | done {low high : UInt8} : Continues 0 low high []
  | byte {n : Nat} {low high b : UInt8} {tail : List UInt8} (hlow : low ≤ b) (hhigh : b ≤ high)
    (htail : Continues n 0x80 0xBF tail) : Continues (n + 1) low high (b :: tail)

/-- The code point that `code` becomes when `tail` is read. -/
def complete (code : Nat) (tail : List UInt8) : Nat := tail.foldl (fun code b => 64 * code + (b.toNat - 0x80)) code

/-- The well-formed sequences, one for each code point: a lead byte, what follows it, and the code point. -/
inductive Sequence : UInt8 → List UInt8 → Nat → Prop where
  | one {b : UInt8} (hb : b.toNat < 0x80) : Sequence b [] b.toNat
  | two {b x : UInt8} (hb : 0xC2 ≤ b.toNat ∧ b.toNat < 0xE0) (hx : 0x80 ≤ x.toNat ∧ x.toNat < 0xC0) :
    Sequence b [x] (64 * (b.toNat - 0xC0) + (x.toNat - 0x80))
  | three {b x y : UInt8} (hb : 0xE0 ≤ b.toNat ∧ b.toNat < 0xF0) (hx : 0x80 ≤ x.toNat ∧ x.toNat < 0xC0)
    (hshort : b.toNat = 0xE0 → 0xA0 ≤ x.toNat) (hsurrogate : b.toNat = 0xED → x.toNat ≤ 0x9F)
    (hy : 0x80 ≤ y.toNat ∧ y.toNat < 0xC0) :
    Sequence b [x, y] (64 * (64 * (b.toNat - 0xE0) + (x.toNat - 0x80)) + (y.toNat - 0x80))
  | four {b x y z : UInt8} (hb : 0xF0 ≤ b.toNat ∧ b.toNat < 0xF5) (hx : 0x80 ≤ x.toNat ∧ x.toNat < 0xC0)
    (hshort : b.toNat = 0xF0 → 0x90 ≤ x.toNat) (hlast : b.toNat = 0xF4 → x.toNat ≤ 0x8F)
    (hy : 0x80 ≤ y.toNat ∧ y.toNat < 0xC0) (hz : 0x80 ≤ z.toNat ∧ z.toNat < 0xC0) :
    Sequence b [x, y, z]
      (64 * (64 * (64 * (b.toNat - 0xF0) + (x.toNat - 0x80)) + (y.toNat - 0x80)) + (z.toNat - 0x80))

/-- One byte, or the beginning of a character. -/
def Opens (bytes : List UInt8) : Prop := bytes.length = 1 ∨ ∃ c, bytes <+: String.utf8EncodeChar c

/-- Where `bytes` do not start with a character, `part` is the longest beginning of them that is one byte or starts a
character. -/
structure Broken (part bytes : List UInt8) : Prop where
  starts : part <+: bytes
  ne_nil : part ≠ []
  opens : Opens part
  longest : ∀ other, other <+: bytes → Opens other → other.length ≤ part.length
  unreadable : ∀ c, ¬ String.utf8EncodeChar c <+: bytes

/-- A part of a sequence of bytes: a character, or bytes that make none. -/
inductive Part where
  | char (c : Char)
  | broken (bytes : List UInt8)

namespace Part

/-- The bytes that are read. -/
def bytes : Part → List UInt8
  | char c => String.utf8EncodeChar c
  | broken bytes => bytes

/-- The character that stands for them. -/
def shown : Part → Char
  | char c => c
  | broken _ => replacement

end Part

/-- `bytes` are the characters and the broken parts `parts`, in order. -/
inductive Splits : List UInt8 → List Part → Prop where
  | nil : Splits [] []
  | char (c : Char) {rest : List UInt8} {parts : List Part} (hrest : Splits rest parts) :
    Splits (String.utf8EncodeChar c ++ rest) (.char c :: parts)
  | broken {part rest : List UInt8} {parts : List Part} (hpart : Broken part (part ++ rest))
    (hrest : Splits rest parts) : Splits (part ++ rest) (.broken part :: parts)

variable {n code : Nat} {low high b : UInt8} {tail front missing other part rest rest' bytes : List UInt8} {c : Char}
  {lead : Lead} {parts before after : List Part}

/-! ### Reading on -/

theorem continues_zero : Continues 0 low high tail ↔ tail = [] := by
  constructor
  · intro h
    cases h
    rfl
  · rintro rfl
    exact .done

theorem continues_succ : Continues (n + 1) low high tail ↔
    ∃ b tail', tail = b :: tail' ∧ low ≤ b ∧ b ≤ high ∧ Continues n 0x80 0xBF tail' := by
  constructor
  · intro h
    cases h with
    | byte hlow hhigh htail => exact ⟨_, _, rfl, hlow, hhigh, htail⟩
  · rintro ⟨b, tail', rfl, hlow, hhigh, htail⟩
    exact .byte hlow hhigh htail

theorem Continues.length_eq (h : Continues n low high tail) : tail.length = n := by
  induction h with
  | done => rfl
  | byte _ _ _ ih => rw [List.length_cons, ih]

theorem exists_continues (n : Nat) (h : low ≤ high) : ∃ tail, Continues n low high tail := by
  induction n generalizing low high with
  | zero => exact ⟨[], .done⟩
  | succ n ih =>
    obtain ⟨tail, htail⟩ := ih (show (0x80 : UInt8) ≤ 0xBF by decide)
    exact ⟨low :: tail, .byte (UInt8.le_refl _) h htail⟩

theorem follow_append (h : Continues n low high tail) (code : Nat) (rest : List UInt8) :
    follow n low high code (tail ++ rest) = (some (complete code tail), rest) := by
  induction h generalizing code with
  | done => rfl
  | byte hlow hhigh _ ih =>
    rw [List.cons_append, follow, if_pos ⟨hlow, hhigh⟩, ih, complete, complete, List.foldl_cons]

/-- Reading on takes all bytes that a character needs, or else as many as can start one. -/
theorem follow_cases (n : Nat) (h : low ≤ high) (code : Nat) (bytes : List UInt8) :
    (∃ tail rest, Continues n low high tail ∧ bytes = tail ++ rest) ∨
    ∃ front rest, bytes = front ++ rest ∧ follow n low high code bytes = (none, rest) ∧
      (∃ missing, missing ≠ [] ∧ Continues n low high (front ++ missing)) ∧
      ∀ other missing, other <+: bytes → Continues n low high (other ++ missing) → other.length ≤ front.length := by
  induction n generalizing low high code bytes with
  | zero => exact .inl ⟨[], bytes, .done, rfl⟩
  | succ n ih =>
    obtain ⟨tail, htail⟩ := exists_continues (n + 1) h
    have hne : tail ≠ [] := by
      intro hnil
      simpa [hnil] using htail.length_eq
    cases bytes with
    | nil =>
      refine .inr ⟨[], [], rfl, rfl, ⟨tail, hne, htail⟩, fun other _ hother _ => ?_⟩
      exact Nat.le_of_eq (congrArg List.length (List.prefix_nil.1 hother))
    | cons b bytes =>
      by_cases hb : low ≤ b ∧ b ≤ high
      · rcases ih (show (0x80 : UInt8) ≤ 0xBF by decide) (64 * code + (b.toNat - 0x80)) bytes with
          ⟨tail, rest, htail, rfl⟩ | ⟨front, rest, rfl, hfollow, ⟨missing, hmissing, hfront⟩, hlongest⟩
        · exact .inl ⟨b :: tail, rest, .byte hb.1 hb.2 htail, rfl⟩
        · refine .inr ⟨b :: front, rest, rfl, ?_, ⟨missing, hmissing, .byte hb.1 hb.2 hfront⟩, ?_⟩
          · rw [follow, if_pos hb, hfollow]
          · intro other missing hother hcontinues
            rcases List.prefix_cons_iff.1 hother with rfl | ⟨other', rfl, hother'⟩
            · exact Nat.zero_le _
            · obtain ⟨b', tail', hcons, -, -, htail'⟩ := continues_succ.1 hcontinues
              obtain ⟨rfl, rfl⟩ := List.cons.inj hcons
              exact Nat.succ_le_succ (hlongest other' missing hother' htail')
      · refine .inr ⟨[], b :: bytes, rfl, if_neg hb, ⟨tail, hne, htail⟩, fun other missing hother hcontinues => ?_⟩
        rcases List.prefix_cons_iff.1 hother with rfl | ⟨other, rfl, -⟩
        · exact Nat.le_refl _
        · obtain ⟨b', tail', hcons, hlow, hhigh, -⟩ := continues_succ.1 hcontinues
          obtain ⟨rfl, -⟩ := List.cons.inj hcons
          exact absurd ⟨hlow, hhigh⟩ hb

/-! ### Lead bytes and well-formed sequences -/

/-- What a lead byte announces, by the range it lies in. -/
theorem Lead.ofByte?_cases (b : UInt8) :
    (b.toNat < 0x80 ∧ ofByte? b = some ⟨0, 0x80, 0xBF, b.toNat⟩) ∨
    (0xC2 ≤ b.toNat ∧ b.toNat < 0xE0 ∧ ofByte? b = some ⟨1, 0x80, 0xBF, b.toNat - 0xC0⟩) ∨
    (0xE0 ≤ b.toNat ∧ b.toNat < 0xF0 ∧ ofByte? b = some
      ⟨2, if b = 0xE0 then 0xA0 else 0x80, if b = 0xED then 0x9F else 0xBF, b.toNat - 0xE0⟩) ∨
    (0xF0 ≤ b.toNat ∧ b.toNat < 0xF5 ∧ ofByte? b = some
      ⟨3, if b = 0xF0 then 0x90 else 0x80, if b = 0xF4 then 0x8F else 0xBF, b.toNat - 0xF0⟩) ∨
    ((0x80 ≤ b.toNat ∧ b.toNat < 0xC2 ∨ 0xF5 ≤ b.toNat) ∧ ofByte? b = none) := by
  unfold ofByte?
  simp only [UInt8.lt_iff_toNat_lt, UInt8.reduceToNat]
  by_cases hone : b.toNat < 0x80
  · exact .inl ⟨hone, if_pos hone⟩
  rw [if_neg hone]
  by_cases hinner : b.toNat < 0xC2
  · exact .inr (.inr (.inr (.inr ⟨by omega, if_pos hinner⟩)))
  rw [if_neg hinner]
  by_cases htwo : b.toNat < 0xE0
  · exact .inr (.inl ⟨by omega, htwo, if_pos htwo⟩)
  rw [if_neg htwo]
  by_cases hthree : b.toNat < 0xF0
  · exact .inr (.inr (.inl ⟨by omega, hthree, if_pos hthree⟩))
  rw [if_neg hthree]
  by_cases hfour : b.toNat < 0xF5
  · exact .inr (.inr (.inr (.inl ⟨by omega, hfour, if_pos hfour⟩)))
  · exact .inr (.inr (.inr (.inr ⟨by omega, if_neg hfour⟩)))

/-- The first byte behind a lead byte, in numbers. -/
theorem range_iff {p q : Prop} [Decidable p] [Decidable q] (low high : UInt8) {x : UInt8} (hlow : 0x80 ≤ low.toNat)
    (hhigh : high.toNat ≤ 0xBF) : ((if p then low else 0x80) ≤ x ∧ x ≤ if q then high else 0xBF) ↔
    (0x80 ≤ x.toNat ∧ x.toNat < 0xC0) ∧ (p → low.toNat ≤ x.toNat) ∧ (q → x.toNat ≤ high.toNat) := by
  by_cases hp : p <;> by_cases hq : q <;> simp [hp, hq, UInt8.le_iff_toNat_le] <;> omega

theorem le_and_le_iff {x : UInt8} : 0x80 ≤ x ∧ x ≤ 0xBF ↔ 0x80 ≤ x.toNat ∧ x.toNat < 0xC0 := by
  simp only [UInt8.le_iff_toNat_le, UInt8.reduceToNat]
  omega

theorem Lead.low_le_high (h : Lead.ofByte? b = some lead) : lead.low ≤ lead.high := by
  rcases Lead.ofByte?_cases b with ⟨_, hlead⟩ | ⟨_, _, hlead⟩ | ⟨_, _, hlead⟩ | ⟨_, _, hlead⟩ | ⟨_, hlead⟩ <;>
    rw [hlead] at h <;> cases h
  · exact (show (0x80 : UInt8) ≤ 0xBF by decide)
  · exact (show (0x80 : UInt8) ≤ 0xBF by decide)
  · show (if b = 0xE0 then 0xA0 else 0x80) ≤ if b = 0xED then 0x9F else 0xBF
    by_cases hb : b = 0xE0
    · simp [hb]
    · rw [if_neg hb]
      split <;> decide
  · show (if b = 0xF0 then 0x90 else 0x80) ≤ if b = 0xF4 then 0x8F else 0xBF
    by_cases hb : b = 0xF0
    · simp [hb]
    · rw [if_neg hb]
      split <;> decide

/-- A lead byte with the bytes that it announces is a well-formed sequence. -/
theorem Lead.sequence (hb : Lead.ofByte? b = some lead) (h : Continues lead.following lead.low lead.high tail) :
    Sequence b tail (complete lead.bits tail) := by
  rcases Lead.ofByte?_cases b with
    ⟨hlt, hlead⟩ | ⟨hle, hlt, hlead⟩ | ⟨hle, hlt, hlead⟩ | ⟨hle, hlt, hlead⟩ | ⟨-, hlead⟩ <;>
    rw [hlead] at hb <;> cases hb <;> simp only [continues_succ, continues_zero] at h
  · subst h
    exact .one hlt
  · obtain ⟨x, _, rfl, hx, hx', rfl⟩ := h
    exact .two ⟨hle, hlt⟩ (le_and_le_iff.1 ⟨hx, hx'⟩)
  · obtain ⟨x, _, rfl, hx, hx', y, _, rfl, hy, hy', rfl⟩ := h
    obtain ⟨hrange, hshort, hsurrogate⟩ := (range_iff 0xA0 0x9F (by decide) (by decide)).1 ⟨hx, hx'⟩
    rw [← UInt8.toNat_inj] at hshort hsurrogate
    exact .three ⟨hle, hlt⟩ hrange hshort hsurrogate (le_and_le_iff.1 ⟨hy, hy'⟩)
  · obtain ⟨x, _, rfl, hx, hx', y, _, rfl, hy, hy', z, _, rfl, hz, hz', rfl⟩ := h
    obtain ⟨hrange, hshort, hlast⟩ := (range_iff 0x90 0x8F (by decide) (by decide)).1 ⟨hx, hx'⟩
    rw [← UInt8.toNat_inj] at hshort hlast
    exact .four ⟨hle, hlt⟩ hrange hshort hlast (le_and_le_iff.1 ⟨hy, hy'⟩) (le_and_le_iff.1 ⟨hz, hz'⟩)

/-- A well-formed sequence is a lead byte with the bytes that it announces. -/
theorem Sequence.exists_lead (h : Sequence b tail code) :
    ∃ lead, Lead.ofByte? b = some lead ∧ Continues lead.following lead.low lead.high tail ∧
      complete lead.bits tail = code := by
  rcases Lead.ofByte?_cases b with
    ⟨_, hlead⟩ | ⟨_, _, hlead⟩ | ⟨_, _, hlead⟩ | ⟨_, _, hlead⟩ | ⟨_, -⟩ <;>
  -- the range of the lead byte leaves one kind of sequence
  cases h <;> try omega
  case inl.one => exact ⟨_, hlead, .done, rfl⟩
  case inr.inl.two x hb hx =>
    obtain ⟨hlow, hhigh⟩ := le_and_le_iff.2 hx
    exact ⟨_, hlead, .byte hlow hhigh .done, rfl⟩
  case inr.inr.inl.three x y hb hx hshort hsurrogate hy =>
    obtain ⟨hlow, hhigh⟩ := (range_iff 0xA0 0x9F (by decide) (by decide)).2
      ⟨hx, fun h : b = 0xE0 => hshort (congrArg UInt8.toNat h), fun h : b = 0xED => hsurrogate (congrArg UInt8.toNat h)⟩
    obtain ⟨hlow', hhigh'⟩ := le_and_le_iff.2 hy
    exact ⟨_, hlead, .byte hlow hhigh (.byte hlow' hhigh' .done), rfl⟩
  case inr.inr.inr.inl.four x y z hb hx hshort hlast hy hz =>
    obtain ⟨hlow, hhigh⟩ := (range_iff 0x90 0x8F (by decide) (by decide)).2
      ⟨hx, fun h : b = 0xF0 => hshort (congrArg UInt8.toNat h), fun h : b = 0xF4 => hlast (congrArg UInt8.toNat h)⟩
    obtain ⟨hlow', hhigh'⟩ := le_and_le_iff.2 hy
    obtain ⟨hlow'', hhigh''⟩ := le_and_le_iff.2 hz
    exact ⟨_, hlead, .byte hlow hhigh (.byte hlow' hhigh' (.byte hlow'' hhigh'' .done)), rfl⟩

/-! ### Characters and well-formed sequences -/

theorem toNat_valid (c : Char) : c.toNat < 0xD800 ∨ 0xDFFF < c.toNat ∧ c.toNat < 0x110000 := c.valid

theorem encode_one (h : c.toNat < 0x80) : String.utf8EncodeChar c = [UInt8.ofNat c.toNat] := by
  unfold String.utf8EncodeChar
  exact if_pos (Nat.le_of_lt_succ h)

theorem encode_two (h : 0x80 ≤ c.toNat) (hlt : c.toNat < 0x800) :
    String.utf8EncodeChar c = [UInt8.ofNat (0xC0 + c.toNat / 64), UInt8.ofNat (0x80 + c.toNat % 64)] := by
  have hlead : c.toNat / 64 % 0x20 + 0xC0 = 0xC0 + c.toNat / 64 := by omega
  unfold String.utf8EncodeChar
  rw [← hlead, Nat.add_comm 0x80]
  exact (if_neg (Nat.not_le.2 h)).trans (if_pos (Nat.le_of_lt_succ hlt))

theorem encode_three (h : 0x800 ≤ c.toNat) (hlt : c.toNat < 0x10000) :
    String.utf8EncodeChar c = [UInt8.ofNat (0xE0 + c.toNat / 4096), UInt8.ofNat (0x80 + c.toNat / 64 % 64),
      UInt8.ofNat (0x80 + c.toNat % 64)] := by
  have hlead : c.toNat / 4096 % 0x10 + 0xE0 = 0xE0 + c.toNat / 4096 := by omega
  have hone : ¬ c.toNat ≤ 0x7F := by omega
  unfold String.utf8EncodeChar
  rw [← hlead, Nat.add_comm 0x80, Nat.add_comm 0x80]
  exact (if_neg hone).trans ((if_neg (Nat.not_le.2 h)).trans (if_pos (Nat.le_of_lt_succ hlt)))

theorem encode_four (h : 0x10000 ≤ c.toNat) :
    String.utf8EncodeChar c = [UInt8.ofNat (0xF0 + c.toNat / 262144), UInt8.ofNat (0x80 + c.toNat / 4096 % 64),
      UInt8.ofNat (0x80 + c.toNat / 64 % 64), UInt8.ofNat (0x80 + c.toNat % 64)] := by
  have hvalid := toNat_valid c
  have hlead : c.toNat / 262144 % 0x08 + 0xF0 = 0xF0 + c.toNat / 262144 := by omega
  have hone : ¬ c.toNat ≤ 0x7F := by omega
  have htwo : ¬ c.toNat ≤ 0x7FF := by omega
  unfold String.utf8EncodeChar
  rw [← hlead, Nat.add_comm 0x80, Nat.add_comm 0x80, Nat.add_comm 0x80]
  exact (if_neg hone).trans ((if_neg htwo).trans (if_neg (Nat.not_le.2 h)))

theorem ofNat_eq {n : Nat} (h : n = b.toNat) : UInt8.ofNat n = b := by
  rw [h, UInt8.ofNat_toNat]

theorem encode_of_sequence (h : Sequence b tail code) (hc : c.toNat = code) : String.utf8EncodeChar c = b :: tail := by
  cases h with
  | one hb => rw [encode_one (by omega), ofNat_eq hc]
  | @two x hb hx => rw [encode_two (by omega) (by omega), ofNat_eq (b := b) (by omega), ofNat_eq (b := x) (by omega)]
  | @three x y hb hx hshort hsurrogate hy =>
    rw [encode_three (by omega) (by omega), ofNat_eq (b := b) (by omega), ofNat_eq (b := x) (by omega),
      ofNat_eq (b := y) (by omega)]
  | @four x y z hb hx hshort hlast hy hz =>
    rw [encode_four (by omega), ofNat_eq (b := b) (by omega), ofNat_eq (b := x) (by omega),
      ofNat_eq (b := y) (by omega), ofNat_eq (b := z) (by omega)]

theorem Sequence.congr {code' : Nat} (h : Sequence b tail code) (hcode : code = code') : Sequence b tail code' :=
  hcode ▸ h

theorem exists_sequence (c : Char) : ∃ b tail, String.utf8EncodeChar c = b :: tail ∧ Sequence b tail c.toNat := by
  have hvalid := toNat_valid c
  by_cases hone : c.toNat < 0x80
  · have hb := UInt8.toNat_ofNat_of_lt' (show c.toNat < 256 by omega)
    exact ⟨_, _, encode_one hone, (Sequence.one (by omega)).congr hb⟩
  by_cases htwo : c.toNat < 0x800
  · have hb := UInt8.toNat_ofNat_of_lt' (show 0xC0 + c.toNat / 64 < 256 by omega)
    have hx := UInt8.toNat_ofNat_of_lt' (show 0x80 + c.toNat % 64 < 256 by omega)
    exact ⟨_, _, encode_two (by omega) htwo, (Sequence.two (by omega) (by omega)).congr (by omega)⟩
  by_cases hthree : c.toNat < 0x10000
  · have hb := UInt8.toNat_ofNat_of_lt' (show 0xE0 + c.toNat / 4096 < 256 by omega)
    have hx := UInt8.toNat_ofNat_of_lt' (show 0x80 + c.toNat / 64 % 64 < 256 by omega)
    have hy := UInt8.toNat_ofNat_of_lt' (show 0x80 + c.toNat % 64 < 256 by omega)
    exact ⟨_, _, encode_three (by omega) hthree,
      (Sequence.three (by omega) (by omega) (by omega) (by omega) (by omega)).congr (by omega)⟩
  · have hb := UInt8.toNat_ofNat_of_lt' (show 0xF0 + c.toNat / 262144 < 256 by omega)
    have hx := UInt8.toNat_ofNat_of_lt' (show 0x80 + c.toNat / 4096 % 64 < 256 by omega)
    have hy := UInt8.toNat_ofNat_of_lt' (show 0x80 + c.toNat / 64 % 64 < 256 by omega)
    have hz := UInt8.toNat_ofNat_of_lt' (show 0x80 + c.toNat % 64 < 256 by omega)
    exact ⟨_, _, encode_four (by omega),
      (Sequence.four (by omega) (by omega) (by omega) (by omega) (by omega) (by omega)).congr (by omega)⟩

theorem Sequence.isValidChar (h : Sequence b tail code) : code.isValidChar := by
  show code < 0xD800 ∨ 0xDFFF < code ∧ code < 0x110000
  cases h <;> omega

theorem toNat_ofNat_char (h : code.isValidChar) : (Char.ofNat code).toNat = code := by
  rw [Char.ofNat, dif_pos h]
  rfl

theorem Sequence.encode (h : Sequence b tail code) : String.utf8EncodeChar (Char.ofNat code) = b :: tail :=
  encode_of_sequence h (toNat_ofNat_char h.isValidChar)

/-- An ASCII byte is a character of its own. -/
theorem Sequence.eq_nil {x : UInt8} (h : Sequence b tail code) (hx : x ∈ b :: tail) (hlt : x < 0x80) : tail = [] := by
  simp only [UInt8.lt_iff_toNat_lt, UInt8.reduceToNat] at hlt
  cases h <;> simp only [List.mem_cons, List.not_mem_nil, or_false] at hx
  case one => rfl
  case two => rcases hx with rfl | rfl <;> omega
  case three => rcases hx with rfl | rfl | rfl <;> omega
  case four => rcases hx with rfl | rfl | rfl | rfl <;> omega

/-! ### Broken parts -/

theorem continues_of_encode (h : String.utf8EncodeChar c = b :: tail) :
    ∃ lead, Lead.ofByte? b = some lead ∧ Continues lead.following lead.low lead.high tail := by
  obtain ⟨b', tail', hencode, hsequence⟩ := exists_sequence c
  rw [h, List.cons.injEq] at hencode
  obtain ⟨rfl, rfl⟩ := hencode
  obtain ⟨lead, hlead, hcontinues, -⟩ := hsequence.exists_lead
  exact ⟨lead, hlead, hcontinues⟩

/-- What starts a character is a lead byte and a beginning of what it announces. -/
theorem cons_prefix_encode_iff {other : List UInt8} : (∃ c, b :: other <+: String.utf8EncodeChar c) ↔
    ∃ lead missing, Lead.ofByte? b = some lead ∧ Continues lead.following lead.low lead.high (other ++ missing) := by
  constructor
  · rintro ⟨c, missing, hmissing⟩
    obtain ⟨lead, hlead, hcontinues⟩ := continues_of_encode hmissing.symm
    exact ⟨lead, missing, hlead, hcontinues⟩
  · rintro ⟨lead, missing, hlead, hcontinues⟩
    exact ⟨_, missing, (lead.sequence hlead hcontinues).encode.symm⟩

theorem broken_singleton (hb : Lead.ofByte? b = none) (rest : List UInt8) : Broken [b] (b :: rest) where
  starts := ⟨rest, rfl⟩
  ne_nil := List.cons_ne_nil _ _
  opens := .inl rfl
  longest other hother hopens := by
    rcases List.prefix_cons_iff.1 hother with rfl | ⟨other', rfl, -⟩
    · exact Nat.zero_le _
    rcases hopens with hone | hstarts
    · exact Nat.le_of_eq hone
    · obtain ⟨lead, -, hlead, -⟩ := cons_prefix_encode_iff.1 hstarts
      rw [hb] at hlead
      cases hlead
  unreadable c hc := by
    obtain ⟨b', tail, hencode, -⟩ := exists_sequence c
    rw [hencode, List.cons_prefix_cons] at hc
    obtain ⟨lead, hlead, -⟩ := continues_of_encode hencode
    rw [hc.1, hb] at hlead
    cases hlead

theorem broken_cons (hb : Lead.ofByte? b = some lead) (hmissing : missing ≠ [])
    (hfront : Continues lead.following lead.low lead.high (front ++ missing))
    (hlongest : ∀ other missing, other <+: front ++ rest →
      Continues lead.following lead.low lead.high (other ++ missing) → other.length ≤ front.length) :
    Broken (b :: front) (b :: (front ++ rest)) where
  starts := ⟨rest, rfl⟩
  ne_nil := List.cons_ne_nil _ _
  opens := .inr (cons_prefix_encode_iff.2 ⟨lead, missing, hb, hfront⟩)
  longest other hother hopens := by
    rcases List.prefix_cons_iff.1 hother with rfl | ⟨other', rfl, hother'⟩
    · exact Nat.zero_le _
    rcases hopens with hone | hstarts
    · rw [hone]
      exact Nat.le_add_left _ _
    · obtain ⟨lead', missing', hlead, hcontinues⟩ := cons_prefix_encode_iff.1 hstarts
      rw [hb, Option.some.injEq] at hlead
      subst hlead
      exact Nat.succ_le_succ (hlongest other' missing' hother' hcontinues)
  unreadable c hc := by
    obtain ⟨b', tail, hencode, -⟩ := exists_sequence c
    rw [hencode, List.cons_prefix_cons] at hc
    obtain ⟨rfl, htail⟩ := hc
    obtain ⟨lead', hlead, hcontinues⟩ := continues_of_encode hencode
    rw [hb, Option.some.injEq] at hlead
    subst hlead
    -- a whole character would be longer than what reading took
    have hle := hlongest tail [] htail (by rwa [List.append_nil])
    have hlength := hfront.length_eq
    rw [← hcontinues.length_eq, List.length_append] at hlength
    have := List.length_pos_iff.2 hmissing
    omega

/-- Whether a part is broken does not depend on what stands far behind it. -/
theorem Broken.of_prefix (h : Broken part (part ++ rest)) (hrest : rest' <+: rest) : Broken part (part ++ rest') :=
  have hprefix : part ++ rest' <+: part ++ rest := (List.prefix_append_right_inj part).2 hrest
  { starts := List.prefix_append part rest'
    ne_nil := h.ne_nil
    opens := h.opens
    longest := fun other hother => h.longest other (hother.trans hprefix)
    unreadable := fun c hc => h.unreadable c (hc.trans hprefix) }

theorem Broken.length_le (h : Broken part bytes) : part.length ≤ 3 := by
  rcases h.opens with hone | ⟨c, hc⟩
  · omega
  · have hle : part.length ≤ (String.utf8EncodeChar c).length := hc.length_le
    have hne : part.length ≠ (String.utf8EncodeChar c).length :=
      fun hlength => h.unreadable c (hc.eq_of_length hlength ▸ h.starts)
    have hfour := c.utf8Size_le_four
    rw [String.length_utf8EncodeChar] at hle hne
    omega

/-- No ASCII byte is part of what is broken. -/
theorem Broken.not_lt (h : Broken part bytes) (hb : b ∈ part) : ¬ b < 0x80 := by
  intro hlt
  rcases h.opens with hone | ⟨c, hc⟩
  · obtain ⟨b', rfl⟩ := List.length_eq_one_iff.1 hone
    obtain rfl := List.mem_singleton.1 hb
    exact h.unreadable _ ((Sequence.one (UInt8.lt_iff_toNat_lt.1 hlt)).encode ▸ h.starts)
  · obtain ⟨b', tail, hencode, hsequence⟩ := exists_sequence c
    obtain rfl := hsequence.eq_nil (hencode ▸ hc.subset hb) hlt
    have hwhole : part = String.utf8EncodeChar c := hc.eq_of_length_le (by
      rw [hencode]
      exact List.length_pos_of_mem hb)
    exact h.unreadable c (hwhole ▸ h.starts)

/-! ### Reading -/

/-- What is read first is a character, or a broken part that is replaced. -/
theorem next_cases (b : UInt8) (rest : List UInt8) :
    (∃ c rest', b :: rest = String.utf8EncodeChar c ++ rest' ∧ next b rest = (c, rest')) ∨
    ∃ part rest', b :: rest = part ++ rest' ∧ Broken part (part ++ rest') ∧ next b rest = (replacement, rest') := by
  unfold next
  cases hb : Lead.ofByte? b with
  | none => exact .inr ⟨[b], rest, rfl, broken_singleton hb rest, rfl⟩
  | some lead =>
    dsimp only
    rcases follow_cases lead.following (lead.low_le_high hb) lead.bits rest with
      ⟨tail, rest', htail, rfl⟩ | ⟨front, rest', rfl, hfollow, ⟨missing, hmissing, hfront⟩, hlongest⟩
    · rw [follow_append htail, ← List.cons_append, ← (lead.sequence hb htail).encode]
      exact .inl ⟨_, rest', rfl, rfl⟩
    · exact .inr ⟨b :: front, rest', rfl, broken_cons hb hmissing hfront hlongest, by rw [hfollow]; rfl⟩

theorem next_encode (h : String.utf8EncodeChar c = b :: tail) (rest : List UInt8) :
    next b (tail ++ rest) = (c, rest) := by
  obtain ⟨b', tail', hencode, hsequence⟩ := exists_sequence c
  rw [h, List.cons.injEq] at hencode
  obtain ⟨rfl, rfl⟩ := hencode
  obtain ⟨lead, hlead, hcontinues, hcode⟩ := hsequence.exists_lead
  unfold next
  rw [hlead]
  dsimp only
  rw [follow_append hcontinues, hcode]
  exact congrArg (·, rest) (Char.ofNat_toNat c)

theorem next_broken (h : Broken (b :: part) (b :: part ++ rest)) : next b (part ++ rest) = (replacement, rest) := by
  rcases next_cases b (part ++ rest) with ⟨c, rest', hbytes, -⟩ | ⟨part', rest', hbytes, hpart', hnext⟩
  · exact absurd ⟨rest', hbytes.symm⟩ (h.unreadable c)
  · rw [← List.cons_append] at hbytes
    rw [hbytes] at h
    have hlength : part'.length = (b :: part).length :=
      Nat.le_antisymm (h.longest _ hpart'.starts hpart'.opens) (hpart'.longest _ h.starts h.opens)
    obtain ⟨-, rfl⟩ := List.append_inj hbytes hlength.symm
    exact hnext

theorem exists_splits (bytes : List UInt8) : ∃ parts, Splits bytes parts := by
  induction hn : bytes.length using Nat.strongRecOn generalizing bytes with
  | ind n ih =>
    cases bytes with
    | nil => exact ⟨[], .nil⟩
    | cons b bytes =>
      rcases next_cases b bytes with ⟨c, rest, hbytes, -⟩ | ⟨part, rest, hbytes, hpart, -⟩
      · have hpos := c.utf8Size_pos
        rw [hbytes, List.length_append, String.length_utf8EncodeChar] at hn
        obtain ⟨parts, hrest⟩ := ih rest.length (by omega) rest rfl
        exact ⟨_, hbytes ▸ hrest.char c⟩
      · have hpos := List.length_pos_iff.2 hpart.ne_nil
        rw [hbytes, List.length_append] at hn
        obtain ⟨parts, hrest⟩ := ih rest.length (by omega) rest rfl
        exact ⟨_, hbytes ▸ hrest.broken hpart⟩

theorem toList_decodeTo (h : Splits bytes parts) (text : String) :
    (decodeTo text bytes).toList = text.toList ++ parts.map Part.shown := by
  induction h generalizing text with
  | nil => rw [decodeTo, List.map_nil, List.append_nil]
  | char c hrest ih =>
    obtain ⟨b, tail, hencode, -⟩ := exists_sequence c
    rw [hencode, List.cons_append, decodeTo, next_encode hencode, ih, String.toList_push, List.append_assoc]
    rfl
  | @broken part rest parts hpart hrest ih =>
    obtain ⟨b, front, rfl⟩ := List.exists_cons_of_ne_nil hpart.ne_nil
    rw [List.cons_append, decodeTo, next_broken hpart, ih, String.toList_push, List.append_assoc]
    rfl

/-- Reading shows the characters, and replaces each broken part. -/
theorem toList_decode (h : Splits bytes parts) : (decode bytes).toList = parts.map Part.shown := by
  rw [decode, toList_decodeTo h, String.toList_empty, List.nil_append]

/-! ### Parts side by side -/

theorem Splits.flatMap_bytes (h : Splits bytes parts) : parts.flatMap Part.bytes = bytes := by
  induction h with
  | nil => rfl
  | char c _ ih => rw [List.flatMap_cons, ih, Part.bytes]
  | broken _ _ ih => rw [List.flatMap_cons, ih, Part.bytes]

/-- A beginning that ends with a part splits into the parts up to there. -/
theorem Splits.of_append (h : Splits bytes (before ++ after)) : Splits (before.flatMap Part.bytes) before := by
  induction before generalizing bytes with
  | nil => exact .nil
  | cons part before ih =>
    rw [List.flatMap_cons]
    cases h with
    | char c hrest => exact .char c (ih hrest)
    | broken hpart hrest =>
      refine .broken (hpart.of_prefix ⟨after.flatMap Part.bytes, ?_⟩) (ih hrest)
      rw [← List.flatMap_append]
      exact hrest.flatMap_bytes

end TapeLang.Utf8
