import GraphRelay.Distinct
import GraphRelay.FrozenGraph.Subgraph
import GraphRelay.Graph.Basic

/-!
# Halos

The surroundings of a set of seeds against the direction of the edges. The first hop takes every
in-edge of a seed, each later hop every in-edge of the vertices that the hop before reached first.
Without any hop only the edges among the seeds are taken. `haloParts` does so for every part of a
partition of the vertices.
-/
namespace GraphRelay

structure Halo where
  sub : Subgraph
  /-- For each vertex whether it is a seed. -/
  innerVertices : List Bool
  /-- For each edge whether both of its endpoints are seeds. -/
  innerEdges : List Bool
  deriving DecidableEq, Repr

namespace Halo

def innerCount (h : Halo) : Nat := h.innerVertices.count true

def outerCount (h : Halo) : Nat := h.innerVertices.length - h.innerCount

def innerEdgeCount (h : Halo) : Nat := h.innerEdges.count true

end Halo

namespace Graph

/-- The sources of edges that were not met before, in the order they turn up. -/
def newSources (met : List Nat) (edges : List Edge) : List Nat :=
  (edges.map Edge.src).eraseDups.filter fun v => !met.contains v

/-- Up to `hops` more hops from `frontier`: the edges taken and all vertices met. -/
def haloHops (g : Graph) : Nat → List Nat → List Nat → Except Fault (List Edge × List Nat)
  | 0, met, _ => .ok ([], met)
  | hops + 1, met, frontier =>
    if frontier.isEmpty then .ok ([], met)
    else do
      let edges ← g.inEdges frontier
      let next := newSources met edges
      let (later, all) ← g.haloHops hops (met ++ next) next
      pure (edges ++ later, all)

/-- The vertices met and the edges taken around `seeds`, each edge with its inner mark. -/
def haloEdges (g : Graph) (seeds : List Nat) (hops : Nat) :
    Except Fault (List Nat × List (Edge × Bool)) := do
  let arriving ← g.inEdges seeds
  let inner := Std.HashSet.ofList seeds
  let marked := arriving.map fun e => (e, inner.contains e.src)
  match hops with
  | 0 => pure (seeds, marked.filter Prod.snd)
  | later + 1 =>
    let next := newSources seeds arriving
    let (edges, met) ← g.haloHops later (seeds ++ next) next
    pure (met, marked ++ edges.map fun e => (e, false))

/-- The halo of `seeds` with `hops` hops; local vertices ascend with their parent ids. -/
def halo (g : Graph) (seeds : List Nat) (hops : Nat) : Except Fault Halo := do
  let seeds := distinct seeds
  let inner := Std.HashSet.ofList seeds
  let (met, marked) ← g.haloEdges seeds hops
  let vertices := met.mergeSort fun u v => u ≤ v
  let edges := marked.map Prod.fst
  let sub ← FrozenGraph.ofCoordinates vertices.length
    (edges.map fun e => vertices.idxOf e.src) (edges.map fun e => vertices.idxOf e.dst) none
    (some g.multigraph)
  pure ⟨⟨sub, vertices, edges.map Edge.id⟩, vertices.map inner.contains, marked.map Prod.snd⟩

end Graph

namespace FrozenGraph

/-- The vertices assigned to part `p`. -/
def members (parts : List Nat) (p : Nat) : List Nat :=
  (parts.zipIdx.filter fun (part, _) => part = p).map Prod.snd

/-- One halo per part from 0 to the largest; `parts` assigns every vertex its part. -/
def haloParts (g : FrozenGraph) (parts : List Nat) (hops : Nat) : Except Fault (List Halo) :=
  if parts.length ≠ g.vertexCount then .error (.assignmentCount parts.length g.vertexCount)
  else match parts.max? with
  | none => .ok []
  | some top =>
    if parts.length ≤ top then .error (.partOutside top parts.length)
    else
      let g := g.touch .incoming
      (List.range (top + 1)).mapM fun p => (Graph.frozen g).halo (members parts p) hops

def haloPartsReads (g : FrozenGraph) (parts : List Nat) : List Direction :=
  if parts.length ≠ g.vertexCount then []
  else match parts.max? with
  | none => []
  | some top => if parts.length ≤ top then [] else [.incoming]

end FrozenGraph

end GraphRelay
