import TapeLang.X86.Encoding

/-!
# Sizes of branches

A branch takes two bytes where its displacement fits one, and five or six otherwise; but the sizes
of branches decide the displacements. Layout starts from an upper bound on every size and shrinks
branches in at most five rounds from left to right. In a round the place of a target ahead is still
that of the round before, less what was gained so far in this one. A branch is settled once it is
short, or so far from its target that it can never become short.

Main statement: after each round a piece starts where the sizes before it add up.
-/

namespace TapeLang.X86

/-- Where a branch goes: to a piece, or to an address that no piece has. -/
inductive Target where
  | piece (index : Nat)
  | address (a : Nat)
  deriving DecidableEq, Repr

/-- What layout needs to know of a piece. -/
inductive Extent where
  | fixed (size : Nat)
  | branch (b : Branch) (target : Target)
  deriving DecidableEq, Repr

/-- Sizes and places found so far, by piece. -/
structure Layout where
  sizes : Array Nat
  starts : Array Nat
  settled : Array Bool
  deriving DecidableEq, Repr

namespace Layout

/-- Bound on the size of a branch before the first round. -/
def boundOf : Branch → Nat
  | .always => 6
  | .equal | .above => 8

/-- The size that layout starts from. -/
def firstSize : Extent → Nat
  | .fixed size => size
  | .branch b _ => boundOf b

/-- Appends to `starts` where pieces of the given sizes start, the first of them at `here`. -/
def startsTo (starts : Array Nat) (here : Nat) : List Nat → Array Nat
  | [] => starts
  | size :: rest => startsTo (starts.push here) (here + size) rest

/-- Where pieces of the given sizes start. -/
def startsOf (sizes : Array Nat) : Array Nat := startsTo #[] 0 sizes.toList

/-- Layout before the first round. -/
def first (extents : Array Extent) : Layout :=
  let sizes := extents.map firstSize
  { sizes
    starts := startsOf sizes
    settled := extents.map fun e => match e with
      | .fixed _ => true
      | .branch .. => false }

/-- A round under way. -/
structure Round where
  layout : Layout
  /-- The piece to visit next. -/
  index : Nat := 0
  /-- Where it starts. -/
  here : Nat := 0
  /-- By how many bytes the pieces before it have shrunk in this round. -/
  gained : Nat := 0
  /-- Whether any piece has shrunk in this round. -/
  shrunk : Bool := false

/-- Estimated displacement of a short branch at `here`. -/
def estimate (starts : Array Nat) (here gained : Nat) : Target → Int
  | .piece k =>
    let d : Int := starts[k]?.getD 0 - (here + Branch.shortSize)
    if 0 ≤ d then d - gained else d
  | .address a => a - (here + Branch.shortSize)

/-- Whether a branch with a displacement outside a byte is too far away ever to become short. -/
def isFar (d : Int) : Bool := d < -1920 || 1905 < d

/-- Visits one piece. -/
def Round.visit (r : Round) (e : Extent) : Round :=
  let ⟨⟨sizes, starts, settled⟩, index, here, gained, shrunk⟩ := r
  let starts := starts.setIfInBounds index here
  let old := sizes[index]?.getD 0
  let open? := !(settled[index]?.getD true)
  match e with
  | .branch b target =>
    if open? then
      let d := estimate starts here gained target
      let size := if fitsByte d then Branch.shortSize else b.longSize
      { layout := {
          sizes := sizes.setIfInBounds index size
          starts
          settled := settled.setIfInBounds index (fitsByte d || isFar d) }
        index := index + 1
        here := here + size
        gained := gained + (old - size)
        shrunk := shrunk || size < old }
    else
      { layout := { sizes, starts, settled }, index := index + 1, here := here + old, gained, shrunk }
  | .fixed _ =>
    { layout := { sizes, starts, settled }, index := index + 1, here := here + old, gained, shrunk }

/-- One round over all pieces. -/
def round (extents : Array Extent) (layout : Layout) : Round := extents.foldl Round.visit { layout }

/-- At most `n` rounds, up to the first in which nothing shrinks. -/
def relax (extents : Array Extent) : Nat → Layout → Layout
  | 0, layout => layout
  | n + 1, layout =>
    let r := round extents layout
    if r.shrunk then relax extents n r.layout else r.layout

/-- How many rounds layout takes at most. -/
def maxRounds : Nat := 5

/-- The layout of a sequence of pieces. -/
def ofExtents (extents : Array Extent) : Layout := relax extents maxRounds (first extents)

end Layout

end TapeLang.X86
