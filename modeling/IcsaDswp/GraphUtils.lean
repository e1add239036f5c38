import IcsaDswp.Dependence
import IcsaDswp.Lib.Dfs

/-!
# `GraphUtils`

`pass/include/GraphUtils.h`: `transpose`, Kosaraju's `findSCC` and Kahn's `topsort`. Both traversals
of `findSCC` are instances of the recursive search of `Lib.Dfs`; their recursion depth is bounded by
fuel, one more than the number of nodes. The loop of `topsort` runs on fuel too.
-/

namespace IcsaDswp

open Std (ExtTreeMap ExtTreeSet)
open Lib Relation

namespace GraphUtils

variable {V : Type} [LinearOrder V]

/-! ## The code -/

/-- A map from each node of the graph to `false`. -/
def createVisited (g : DependenceGraph V) : OrdMap V Bool :=
  g.nodes.keys.foldl (fun visited u => visited.insert u false) ∅

/-- A map from each node to `nullptr`; `⊥` is the null pointer. -/
def createComponent (g : DependenceGraph V) : OrdMap V (WithBot V) :=
  g.nodes.keys.foldl (fun component u => component.insert u ⊥) ∅

/-- The successors the traversals of `g` follow; `getDependants` throws on a missing node. -/
def dependants (g : DependenceGraph V) (u : V) : Except Fault (List V) := do
  let deps ← g.getDependants u
  pure deps.toList

/-- Depth-first enumeration from `u`; `visited` (`operator[]` reads `false` on a missing key) and
`result`, where each finished node is inserted at the front. -/
def postOrderEnumerate (g : DependenceGraph V) (fuel : Nat) (u : V)
    (state : OrdMap V Bool × List V) : Except Fault (OrdMap V Bool × List V) :=
  search (fun st u => st.1[u]?.getD false) (fun u st => (st.1.insert u true, st.2))
    (fun u st => (st.1, u :: st.2)) (dependants g) .outOfFuel fuel u state

/-- Gives the nodes reached from `u` over unassigned nodes the component `root`. -/
def assignComponent (g : DependenceGraph V) (fuel : Nat) (u root : V)
    (component : OrdMap V (WithBot V)) : Except Fault (OrdMap V (WithBot V)) :=
  search (fun component u => component[u]?.getD ⊥ ≠ ⊥)
    (fun u component => component.insert u (root : WithBot V)) (fun _ component => component)
    (dependants g) .outOfFuel fuel u component

/-- The loops of `transpose` on a graph that is being built: add the nodes of `g`, then its edges
reversed. -/
def addReversed (g result : DependenceGraph V) : DependenceGraph V :=
  let result := result.addNodes g.nodes.keys
  g.nodes.toList.foldl (fun result I =>
    I.2.toList.foldl (fun result J => result.addEdge J I.1) result) result

/-- Reverse all edges in `g` and return that as a new graph. -/
def transpose (g : DependenceGraph V) : DependenceGraph V := addReversed g .empty

/-- `findSCC` with the recursion bounded by `fuel`. -/
def findSCCFuel (fuel : Nat) (g : DependenceGraph V) : Except Fault (OrdMap V (WithBot V)) := do
  let transposedG := transpose g
  let (_, postOrder) ← transposedG.nodes.keys.foldlM
    (fun state u => postOrderEnumerate g fuel u state) (createVisited g, [])
  postOrder.foldlM (fun component u => assignComponent transposedG fuel u u component)
    (createComponent g)

/-- The map from each node to the root of its strongly connected component. -/
def findSCC (g : DependenceGraph V) : Except Fault (OrdMap V (WithBot V)) :=
  findSCCFuel (g.nodes.size + 1) g

/-- One turn of the loop over the dependants of `n`: drop the edge back to `n`, and push `m` when
that was its last one. -/
def dropEdge (n : V) (state : DependenceGraph V × List V) (m : V) :
    Except Fault (DependenceGraph V × List V) := do
  let gt ← state.1.removeEdge m n
  let deps ← gt.getDependants m
  pure (gt, if deps.isEmpty then state.2 ++ [m] else state.2)

/-- `while (!frontier.empty())`; `gt` is what is left of the transposed graph. -/
def topsortLoop (g : DependenceGraph V) : Nat → DependenceGraph V → List V → List V →
    Except Fault (List V)
  | _, _, [], result => .ok result
  | 0, _, _ :: _, _ => .error .outOfFuel
  | fuel + 1, gt, n :: frontier, result => do
    let result := result ++ [n]
    let deps ← g.getDependants n
    let (gt, frontier) ← deps.toList.foldlM (dropEdge n) (gt, frontier)
    topsortLoop g fuel gt frontier result

/-- `topsort` with at most `fuel` turns of its loop. -/
def topsortFuel (fuel : Nat) (g : DependenceGraph V) : Except Fault (List V) :=
  let gt := transpose g
  let frontier := (gt.nodes.toList.filter fun I => I.2.isEmpty).map Prod.fst
  topsortLoop g fuel gt frontier []

/-- The nodes, each behind those it depends on; a turn of the loop for every node of the transposed
graph is enough. -/
def topsort (g : DependenceGraph V) : Except Fault (List V) :=
  topsortFuel (transpose g).nodes.size g

/-! ## Reversed edges -/

theorem addReversed_adds (g result : DependenceGraph V) :
    (result.addNodes g.nodes.keys).Adds (addReversed g result) fun b a => g.Edge a b := by
  unfold addReversed
  refine (DependenceGraph.foldl_adds (R := fun I b a => b ∈ I.2 ∧ a = I.1) (fun r I => ?_) _
    _).congr fun b a => ?_
  · refine (DependenceGraph.foldl_adds (fun r J => r.adds_addEdge J I.1) _ r).congr fun b a => ?_
    simp
  · simp only [Prod.exists, DependenceGraph.mem_nodes_toList]
    constructor
    · rintro ⟨a', deps, hdeps, hb, rfl⟩
      exact ⟨deps, hdeps, hb⟩
    · rintro ⟨deps, hdeps, hb⟩
      exact ⟨a, deps, hdeps, hb, rfl⟩

theorem addReversed_isNode (g result : DependenceGraph V) (v : V) :
    (addReversed g result).IsNode v ↔ result.IsNode v ∨ g.IsNode v ∨ ∃ a, g.Edge a v := by
  rw [(addReversed_adds g result).isNode, DependenceGraph.addNodes_isNode, or_assoc,
    ExtTreeMap.mem_keys]
  rfl

theorem addReversed_edge (g result : DependenceGraph V) (a b : V) :
    (addReversed g result).Edge b a ↔ result.Edge b a ∨ g.Edge a b := by
  rw [(addReversed_adds g result).edge, DependenceGraph.addNodes_edge]

theorem transpose_isNode (g : DependenceGraph V) (v : V) :
    (transpose g).IsNode v ↔ g.IsNode v ∨ ∃ a, g.Edge a v := by
  simp [transpose, addReversed_isNode]

theorem transpose_isNode_closed {g : DependenceGraph V} (hg : g.Closed) (v : V) :
    (transpose g).IsNode v ↔ g.IsNode v := by
  rw [transpose_isNode]
  exact ⟨fun h => h.elim id fun ⟨a, ha⟩ => hg a v ha, .inl⟩

theorem transpose_row {g : DependenceGraph V} {v : V} (hv : g.IsNode v) :
    ∃ deps, (transpose g).getDependants v = .ok deps := by
  obtain ⟨deps, hdeps⟩ := DependenceGraph.isNode_iff.mp ((transpose_isNode g v).mpr (.inl hv))
  exact ⟨deps, DependenceGraph.getDependants_ok.mpr hdeps⟩

theorem transpose_edge (g : DependenceGraph V) (a b : V) :
    (transpose g).Edge b a ↔ g.Edge a b := by
  simp [transpose, addReversed_edge]

/-! ## Reversing twice -/

/-- The dependants that are no nodes. -/
def unregistered (g : DependenceGraph V) : List V :=
  (g.nodes.keys.flatMap g.deps).filter fun v => ¬ g.IsNode v

theorem mem_unregistered {g : DependenceGraph V} {v : V} :
    v ∈ unregistered g ↔ ¬ g.IsNode v ∧ ∃ a, g.Edge a v := by
  rw [unregistered, List.mem_filter, List.mem_flatMap, and_comm]
  refine and_congr (by simp) ⟨?_, ?_⟩
  · rintro ⟨a, -, ha⟩
    exact ⟨a, DependenceGraph.mem_deps.mp ha⟩
  · rintro ⟨a, ha⟩
    exact ⟨a, ExtTreeMap.mem_keys.mpr ha.isNode, DependenceGraph.mem_deps.mpr ha⟩

/-- **Transposing twice** registers the dependants that were no nodes, and does nothing else. -/
theorem transpose_transpose (g : DependenceGraph V) :
    (∀ v, (transpose g).IsNode v ↔ g.IsNode v ∨ ∃ a, g.Edge a v) ∧
    (∀ a b, (transpose g).Edge b a ↔ g.Edge a b) ∧
    transpose (transpose g) = g.addNodes (unregistered g) ∧
    (transpose (transpose g) = g ↔ ∀ a b, g.Edge a b → g.IsNode b) := by
  have htwice : ∀ v, (transpose (transpose g)).IsNode v ↔ g.IsNode v ∨ ∃ a, g.Edge a v := by
    intro v
    simp only [transpose_isNode, transpose_edge, or_assoc]
    refine ⟨?_, ?_⟩
    · rintro (hv | hv | ⟨a, ha⟩)
      · exact .inl hv
      · exact .inr hv
      · exact .inl ha.isNode
    · rintro (hv | hv)
      · exact .inl hv
      · exact .inr (.inl hv)
  have hedge : ∀ a b, (transpose (transpose g)).Edge a b ↔ g.Edge a b := fun a b => by
    rw [transpose_edge, transpose_edge]
  refine ⟨transpose_isNode g, transpose_edge g, ?_, ?_⟩
  · refine DependenceGraph.ext_iff_isNode_edge.mpr ⟨fun v => ?_, fun a b => ?_⟩
    · rw [htwice, DependenceGraph.addNodes_isNode, mem_unregistered]
      by_cases hv : g.IsNode v <;> simp [hv]
    · rw [hedge, DependenceGraph.addNodes_edge]
  · rw [DependenceGraph.ext_iff_isNode_edge]
    constructor
    · rintro ⟨hnode, -⟩ a b hab
      exact (hnode b).mp ((htwice b).mpr (.inr ⟨a, hab⟩))
    · intro hg
      refine ⟨fun v => (htwice v).trans ⟨?_, .inl⟩, hedge⟩
      rintro (hv | ⟨a, ha⟩)
      · exact hv
      · exact hg a v ha

end GraphUtils

end IcsaDswp
