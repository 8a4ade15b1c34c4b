import Nimbus.Native.Aristo.Layers

/-!
# Leaves from left to right

Model of `rightPairs` in `execution_chain/db/aristo/aristo_nearby.nim`, with the legs of a hike
from `aristo_hike.nim`. The last leg of a hike comes first in its list here. What the hike needs of
paths from outside of the repository is a parameter: how a path is packed, and the highest index of
a nibble, which says how many legs there is room for.
-/

namespace Nimbus.Native.Aristo

/-- The part of `NibblesBuf` that a hike needs. -/
class PathCode where
  getBytes : NibblesBuf → Hash32
  high : Nat

export PathCode (getBytes high)

def Vertex.pfx : Vertex → NibblesBuf
  | .AccLeaf leaf => leaf.pfx
  | .StoLeaf leaf => leaf.pfx
  | .ExtBranch pfx _ _ => pfx
  | .Branch .. => []
  | .BoundaryNode node => node.pfx

/-- The child of a branch at a nibble, or 0. -/
def Vertex.bVid (nibble : Fin 16) : Vertex → VertexID
  | .Branch startVid used | .ExtBranch _ startVid used =>
    if used.getLsbD nibble then (startVid + nibble) % 2 ^ 64 else 0
  | _ => 0

/-- A step of a hike: a vertex, and the nibble by which it is left. -/
structure Leg where
  nibble : Int := -1
  vid : VertexID
  vtx : Vertex

/-- The nibbles that a leg adds to a path. -/
def Leg.nibbles (leg : Leg) : NibblesBuf :=
  match leg.vtx with
  | .Branch .. => [Fin.ofNat 16 leg.nibble.toNat]
  | .ExtBranch pfx _ _ => pfx ++ [Fin.ofNat 16 leg.nibble.toNat]
  | .BoundaryNode _ => []
  | .AccLeaf leaf => leaf.pfx
  | .StoLeaf leaf => leaf.pfx

/-- `legsTo`: the path to the last leg. -/
def legsTo (legs : List Leg) : NibblesBuf := (legs.reverse.map Leg.nibbles).flatten

/-- The first child behind a nibble. -/
def nextChild (vtx : Vertex) (nibble : Int) : Option (Fin 16 × VertexID) :=
  ((List.finRange 16).drop (nibble + 1).toNat).findSome? fun i =>
    if vtx.bVid i ≠ 0 then some (i, vtx.bVid i) else none

/-- Why an iteration comes to no end. -/
inductive IterStop where
  /-- there is no room for one more leg -/
  | indexOutOfBounds
  /-- a boundary node is looked at again and again -/
  | endless
  /-- more rounds are needed than were given -/
  | rounds

section
variable [PathCode]

/-- The inner loop goes up: leaves are yielded, and branches without a next child are left. -/
def nextLeg : List Leg → Except IterStop (List (Hash32 × Vertex) × List Leg × VertexID)
  | [] => .ok ([], [], 0)
  | x :: legs =>
    match x.vtx with
    | .BoundaryNode _ => .error .endless
    | .Branch .. | .ExtBranch .. =>
      match nextChild x.vtx x.nibble with
      | some (i, b) => .ok ([], { x with nibble := (i : Nat) } :: legs, b)
      | none => nextLeg legs
    | .AccLeaf _ | .StoLeaf _ => do
      let (pairs, rest) ← nextLeg legs
      return ((getBytes (legsTo (x :: legs)), x.vtx) :: pairs, rest)

/-- The outer loop goes down by one vertex in each of its rounds. -/
def rightPairsLoop (db : AristoDb) (tx : AristoTxRef) (root : VertexID) :
    Nat → List Leg → VertexID → Except IterStop (List (Hash32 × Vertex))
  | 0, _, _ => .error .rounds
  | n + 1, legs, next =>
    if next = 0 then .ok []
    else match db.getVtx tx ⟨root, next⟩ with
    | none => .ok []
    | some vtx =>
      if legs.length < high + 1 then do
        let (pairs, legs, next) ← nextLeg ({ vid := next, vtx } :: legs)
        return pairs ++ (← rightPairsLoop db tx root n legs next)
      else .error .indexOutOfBounds

/-- The pairs that are yielded, if the iteration ends within `n` rounds. -/
def rightPairs (db : AristoDb) (tx : AristoTxRef) (root : VertexID) (n : Nat) :
    Except IterStop (List (Hash32 × Vertex)) :=
  rightPairsLoop db tx root n [] root

end

end Nimbus.Native.Aristo
