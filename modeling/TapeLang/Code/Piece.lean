/-!
# Code before layout

A sequence of pieces: operations with a fixed encoding, branches to labels, and labels.
-/

namespace TapeLang

/-- A piece of code, with operations `ω`, kinds of branch `β` and labels `ℓ`. -/
inductive Piece (ω β ℓ : Type) where
  | op (o : ω)
  | branch (b : β) (target : ℓ)
  | label (l : ℓ)
  deriving DecidableEq, Repr

/-- A piece with its label renamed. -/
def Piece.mapLabel {ω β ℓ κ : Type} (f : ℓ → κ) : Piece ω β ℓ → Piece ω β κ
  | op o => .op o
  | branch b target => .branch b (f target)
  | label l => .label (f l)

end TapeLang
