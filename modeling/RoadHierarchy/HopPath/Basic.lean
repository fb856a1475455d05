import RoadHierarchy.Ascending
import RoadHierarchy.Queue.Agenda

/-! # Hop paths

Every shortcut expands into a sequence of input edges, and many of these sequences occur inside
others. A hop index stores paths under ids of its own, and for every key the path that holds its
sequence and the place where it starts. Paths that can be folded into others are queued as
candidates when they come into being.
-/

namespace RoadHierarchy

/-- Where the sequence of a key lies. -/
structure PathLocation where
  path : Nat
  /-- The position of its first edge in the path. -/
  offset : Nat
  deriving DecidableEq

/-- A stored path. -/
structure HopPath where
  edges : List Nat
  /-- The keys whose sequences it holds, ascending. -/
  keys : List Nat
  deriving DecidableEq

/-- The first path occurs in the second. -/
structure FoldCandidate where
  contained : Nat
  container : Nat
  /-- Where the contained path starts. -/
  offset : Nat
  /-- The length of the contained path. -/
  shared : Nat
  deriving DecidableEq

/-- The largest overlap first, then the lowest pair of contained and container. -/
def FoldCandidate.due (a b : FoldCandidate) : Bool :=
  b.shared < a.shared ||
    (a.shared == b.shared &&
      (a.contained < b.contained || (a.contained == b.contained && a.container ≤ b.container)))

/-- The first position at which a non-empty sequence occurs in another. -/
def occurrence? (needle : List Nat) : List Nat → Option Nat
  | [] => none
  | head :: rest =>
      if needle.isEmpty then none
      else if needle.isPrefixOf (head :: rest) then some 0
      else (occurrence? needle rest).map (· + 1)

/-- The paths by id and the locations by key, both ascending. -/
structure HopIndex where
  /-- The sequences as they were given. -/
  sequences : List (Nat × List Nat)
  paths : List (Nat × HopPath)
  locations : List (Nat × PathLocation)
  /-- Candidates by urgency; some may name paths that are gone. -/
  candidates : List FoldCandidate
  nextId : Nat

namespace HopIndex

/-- The path with an id. -/
def path? (index : HopIndex) (id : Nat) : Option HopPath := index.paths.lookup id

/-- The location of a key. -/
def location? (index : HopIndex) (key : Nat) : Option PathLocation := index.locations.lookup key

/-- The sequence of a key as it was given. -/
def sequence? (index : HopIndex) (key : Nat) : Option (List Nat) := index.sequences.lookup key

/-- The ids of the stored paths, ascending. -/
def pathIds (index : HopIndex) : List Nat := index.paths.map (·.1)

/-- The number of edges in all stored paths. -/
def totalLength (index : HopIndex) : Nat :=
  (index.paths.map (·.2.edges.length)).foldr (· + ·) 0

/-- The first path folds into the second, if it occurs there. -/
def fold? (contained container : Nat × HopPath) : Option FoldCandidate :=
  (occurrence? contained.2.edges container.2.edges).map fun offset =>
    ⟨contained.1, container.1, offset, contained.2.edges.length⟩

/-- The candidates between two paths, in either direction. -/
def candidatesBetween (a b : Nat × HopPath) : List FoldCandidate :=
  (fold? a b).toList ++ (fold? b a).toList

/-- The candidates between a path and others, as an agenda. -/
def candidatesOf (path : Nat × HopPath) (others : List (Nat × HopPath)) : List FoldCandidate :=
  Agenda.ofList FoldCandidate.due (others.flatMap (candidatesBetween path))

/-- The candidates between any two of the paths. -/
def allCandidates : List (Nat × HopPath) → List FoldCandidate
  | [] => []
  | path :: rest => Agenda.merge FoldCandidate.due (candidatesOf path rest) (allCandidates rest)

/-- One path for each key, with ids from 0 on in key order. Of two sequences with one key the later
counts. -/
def ofSequences (sequences : List (Nat × List Nat)) : HopIndex :=
  let byKey := Ascending.ofEntries sequences
  let paths := byKey.zipIdx.map fun ((key, edges), id) => (id, ⟨edges, [key]⟩)
  let locations := byKey.zipIdx.map fun ((key, _), id) => (key, ⟨id, 0⟩)
  ⟨byKey, paths, locations, allCandidates paths, byKey.length⟩

end HopIndex

end RoadHierarchy
