import TypeInliner.Text

/-! # The order of declarations

`Declaration.order` puts every declaration behind the ones it mentions, where mentions do not lead
back. It walks depth first over the positions of the input and places a declaration when everything
it mentions has been visited. -/

namespace TypeInliner

/-- A declaration to be placed: its name and its whole text. -/
structure Declaration where
  name : Text
  text : Text
  deriving DecidableEq, Repr

namespace Declaration

/-- Whether a declaration mentions the name of another one. -/
def mentions (d other : Declaration) : Bool :=
  !other.name.isEmpty && d.name ≠ other.name && Text.occursIn other.name d.text

/-- How far the walk has come. -/
structure Progress where
  /-- The positions that have been reached. -/
  reached : List Nat
  /-- The positions that have been placed, in order. -/
  placed : List Nat

/-- The positions that the declaration at a position mentions. -/
def mentioned (ds : List Declaration) (i : Nat) : List Nat :=
  match ds[i]? with
  | some d => (ds.zipIdx.filter fun (other, _) => d.mentions other).map (·.2)
  | none => []

/-- Visits a position: first what it mentions, then itself. The first argument bounds the depth of
the walk. -/
def visit (ds : List Declaration) : Nat → Progress → Nat → Progress
  | 0, progress, _ => progress
  | depth + 1, progress, i =>
    if progress.reached.contains i then progress
    else
      let progress := (mentioned ds i).foldl (visit ds depth)
        { progress with reached := i :: progress.reached }
      { progress with placed := progress.placed ++ [i] }

/-- The positions of the declarations in the order in which they are placed. -/
def orderPositions (ds : List Declaration) : List Nat :=
  ((List.range ds.length).foldl (visit ds (ds.length + 1)) ⟨[], []⟩).placed

/-- The declarations so that what is mentioned comes first. -/
def order (ds : List Declaration) : List Declaration := (orderPositions ds).filterMap (ds[·]?)

/-- The texts of the declarations in order, one below the other. -/
def render (ds : List Declaration) : Text :=
  Text.join ['\n'] (((order ds).map text).filter (!·.isEmpty))

end Declaration

end TypeInliner
