import RoadHierarchy.HopPath.Basic
import RoadHierarchy.Graph.Unpacking

/-! # Combining hop paths

Paths are folded into paths that contain them, the largest overlap first, until no path is contained
in another. Every merge leaves one path fewer.
-/

namespace RoadHierarchy

/-- The path with the keys of another one that lies inside it. -/
def HopPath.absorb (container contained : HopPath) : HopPath :=
  ⟨container.edges, Agenda.ofList (fun a b => a ≤ b) (contained.keys ++ container.keys)⟩

namespace HopIndex

/-- Both paths of a candidate are still stored. -/
def isCurrent (paths : List (Nat × HopPath)) (candidate : FoldCandidate) : Bool :=
  (paths.lookup candidate.contained).isSome && (paths.lookup candidate.container).isSome

/-- Drops candidates up to the first current one. -/
def nextCurrent (paths : List (Nat × HopPath)) :
    List FoldCandidate → Option (FoldCandidate × List FoldCandidate)
  | [] => none
  | candidate :: rest =>
      if isCurrent paths candidate then some (candidate, rest) else nextCurrent paths rest

/-- Where a key lies once two paths have been merged: the keys of the contained path start later in
the new one, those of the container where they started in the container. -/
def relocate (candidate : FoldCandidate) (contained container : HopPath) (id key : Nat)
    (location : PathLocation) : PathLocation :=
  if key ∈ contained.keys then ⟨id, location.offset + candidate.offset⟩
  else if key ∈ container.keys then ⟨id, location.offset⟩
  else location

/-- Replaces both paths of a candidate by one with a new id. The contained path lies inside the
container, whose edges are therefore those of the new path. -/
def merge (index : HopIndex) (candidate : FoldCandidate) : HopIndex :=
  match index.path? candidate.contained, index.path? candidate.container with
  | some contained, some container =>
      let id := index.nextId
      let merged := container.absorb contained
      let others := index.paths.filter fun (other, _) =>
        other != candidate.contained && other != candidate.container
      { index with
        paths := others ++ [(id, merged)],
        locations := index.locations.map fun (key, location) =>
          (key, relocate candidate contained container id key location),
        candidates := Agenda.merge FoldCandidate.due (candidatesOf (id, merged) others)
          index.candidates,
        nextId := id + 1 }
  | _, _ => index

/-- Merges the most urgent current candidate, as often as there are steps, and counts the merges. -/
def combineWithin : Nat → HopIndex → Nat × HopIndex
  | 0, index => (0, index)
  | steps + 1, index =>
      match nextCurrent index.paths index.candidates with
      | none => (0, { index with candidates := [] })
      | some (candidate, rest) =>
          let next := { index with candidates := rest }.merge candidate
          let (merges, last) := combineWithin steps next
          (merges + 1, last)

/-- Merges until no path is contained in another. -/
def combine (index : HopIndex) : Nat × HopIndex :=
  combineWithin index.paths.length index

/-- The live shortcuts of a graph and the input edges they stand for. -/
def expansions (g : Graph) : Except Failure (List (Nat × List Nat)) :=
  (g.edges.toList.filter fun e => e.isShortcut && !e.removed).mapM fun e => do
    return (e.id, ← g.unpack e.id)

/-- One path for each live shortcut of a graph, under the shortcut's id. -/
def ofGraph (g : Graph) : Except Failure HopIndex :=
  ofSequences <$> expansions g

end HopIndex

end RoadHierarchy
