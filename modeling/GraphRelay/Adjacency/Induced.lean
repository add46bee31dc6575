import GraphRelay.Adjacency.Basic

/-!
# Induced rows

The rows of a chosen list of vertices, cut down to the neighbors that are chosen too.
-/
namespace GraphRelay.Adjacency

/-- Chosen vertices exist and are pairwise distinct; the first that is not decides the fault. -/
def checkChoice (n : Nat) (seen : List Nat) : List Nat → Except Fault Unit
  | [] => .ok ()
  | v :: rest =>
    if n ≤ v then .error (.vertexOutside v n)
    else if seen.contains v then .error (.repeatedVertex v)
    else checkChoice n (v :: seen) rest

/-- Numbers the arcs of all rows one after the other. -/
def numberFrom (start : Nat) : List (List Arc) → List (List Arc)
  | [] => []
  | row :: rest =>
    (row.zipIdx start).map (fun (arc, i) => ⟨arc.neighbor, i⟩)
      :: numberFrom (start + row.length) rest

/-- The arcs of `v` whose neighbor is chosen, the neighbor renamed to its position. -/
def keptArcs (a : Adjacency) (chosen : List Nat) (v : Nat) : List Arc :=
  (a.row v).filterMap fun arc =>
    (chosen.idxOf? arc.neighbor).map fun i => ⟨i, arc.edge⟩

/-- Local vertex `i` is `chosen[i]`, local edges are numbered from 0; the list gives the parent id
of each local edge. -/
def induced (a : Adjacency) (chosen : List Nat) : Except Fault (Adjacency × List Nat) :=
  match checkChoice a.vertexCount [] chosen with
  | .error f => .error f
  | .ok () =>
    let kept := chosen.map (a.keptArcs chosen)
    .ok (ofRows (numberFrom 0 kept), kept.flatten.map Arc.edge)

end GraphRelay.Adjacency
