/-!
# Reading bytes as text

UTF-8 with replacement: a well-formed character is read as itself, and each maximal ill-formed
part, one to three bytes that start a character and break off, as one U+FFFD.
-/

namespace TapeLang.Utf8

/-- What a lead byte announces: how many bytes follow, the range of the first of them, and the bits
that the lead byte itself contributes. The ranges exclude overlong forms, surrogates and code
points above U+10FFFF. -/
structure Lead where
  following : Nat
  low : UInt8
  high : UInt8
  bits : Nat

/-- Reads a lead byte; `none` for a byte that starts no character. -/
def Lead.ofByte? (b : UInt8) : Option Lead :=
  if b < 0x80 then some ⟨0, 0x80, 0xBF, b.toNat⟩
  else if b < 0xC2 then none
  else if b < 0xE0 then some ⟨1, 0x80, 0xBF, b.toNat - 0xC0⟩
  else if b < 0xF0 then
    some ⟨2, if b = 0xE0 then 0xA0 else 0x80, if b = 0xED then 0x9F else 0xBF, b.toNat - 0xE0⟩
  else if b < 0xF5 then
    some ⟨3, if b = 0xF0 then 0x90 else 0x80, if b = 0xF4 then 0x8F else 0xBF, b.toNat - 0xF0⟩
  else none

/-- Reads `n` more bytes of a character, the first of them in `low … high`. The result is the code
point, or `none` where the character breaks off, and the bytes that are left. -/
def follow : Nat → UInt8 → UInt8 → Nat → List UInt8 → Option Nat × List UInt8
  | 0, _, _, code, rest => (some code, rest)
  | _ + 1, _, _, _, [] => (none, [])
  | n + 1, low, high, code, b :: rest =>
    if low ≤ b ∧ b ≤ high then follow n 0x80 0xBF (64 * code + (b.toNat - 0x80)) rest
    else (none, b :: rest)

theorem length_follow_le (n : Nat) (low high : UInt8) (code : Nat) (bytes : List UInt8) :
    (follow n low high code bytes).2.length ≤ bytes.length := by
  induction n generalizing low high code bytes with
  | zero => simp [follow]
  | succ n ih =>
    cases bytes with
    | nil => simp [follow]
    | cons b rest =>
      unfold follow
      split
      · exact Nat.le_succ_of_le (ih ..)
      · exact Nat.le_refl _

/-- What stands for an ill-formed part. -/
def replacement : Char := '\uFFFD'

/-- Reads one character, or one ill-formed part, that starts with `b`. -/
def next (b : UInt8) (rest : List UInt8) : Char × List UInt8 :=
  match Lead.ofByte? b with
  | none => (replacement, rest)
  | some lead =>
    let (code, rest) := follow lead.following lead.low lead.high lead.bits rest
    ((code.map Char.ofNat).getD replacement, rest)

theorem length_next_le (b : UInt8) (rest : List UInt8) : (next b rest).2.length ≤ rest.length := by
  unfold next
  split
  · exact Nat.le_refl _
  · exact length_follow_le ..

/-- Appends the text of `bytes` to `text`. -/
def decodeTo (text : String) : List UInt8 → String
  | [] => text
  | b :: rest => decodeTo (text.push (next b rest).1) (next b rest).2
termination_by bytes => bytes.length
decreasing_by exact Nat.lt_succ_of_le (length_next_le b rest)

/-- The text of a sequence of bytes. -/
def decode (bytes : List UInt8) : String := decodeTo "" bytes

end TapeLang.Utf8
