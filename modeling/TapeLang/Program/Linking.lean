import TapeLang.Error

/-!
# Linking loops

Brackets pair up by nesting. Linking writes into each bracket the index of its partner and says
which bracket has none: the first `loopEnd` without an open loop, or else the leftmost `loopBegin`
that is left open.
-/

namespace TapeLang

/-- A bracket without a partner, by its index. -/
inductive Unpaired where
  /-- A `loopEnd` while no loop is open. -/
  | close (index : Nat)
  /-- A `loopBegin` that is never closed. -/
  | start (index : Nat)
  deriving DecidableEq, Repr

/-- Index of the bracket. -/
def Unpaired.index : Unpaired → Nat
  | close i => i
  | start i => i

/-- The result of linking: the program with every pair linked that was completed before the
offending bracket, and that bracket. -/
structure Linking where
  program : Program
  unpaired : Option Unpaired
  deriving DecidableEq, Repr

namespace Program

/-- Links the instructions from `index` on, with the loops at `pending` open, innermost first. -/
def linkFrom (index : Nat) (pending : List Nat) (linked : Program) : List Instruction → Linking
  | [] => ⟨linked, pending.getLast?.map .start⟩
  | .loopBegin _ :: rest => linkFrom (index + 1) (index :: pending) linked rest
  | .loopEnd _ :: rest =>
    match pending with
    | [] => ⟨linked, some (.close index)⟩
    | start :: pending =>
      let linked := (linked.setIfInBounds start (.loopBegin index)).setIfInBounds index (.loopEnd start)
      linkFrom (index + 1) pending linked rest
  | _ :: rest => linkFrom (index + 1) pending linked rest

/-- Points every bracket of a program at its partner. -/
def link (p : Program) : Linking := linkFrom 0 [] p p.toList

/-- The linked program, or the bracket that has no partner. -/
def linked (p : Program) : Except Error Program :=
  match p.link with
  | ⟨q, none⟩ => .ok q
  | ⟨_, some bracket⟩ => .error (.unbalancedLoop bracket.index)

end Program

end TapeLang
