import IcsaDswp.Dependence
import IcsaDswp.Lib.Run

/-!
# The graph as an object

A `DependenceGraph` under any sequence of its public operations, next to what it stands for: a set
of nodes with edges between them (`DirectedGraph`). One map stands for both, and two operations let
them get out of step: `addEdge` makes a node of its first end only, and the query `dependsOn` makes
one of the node it is asked about. All other operations keep the two in step (`behaves_iff`).
-/

namespace IcsaDswp

open Lib

/-- A public operation with its arguments. -/
inductive Op (V : Type) where
  | addNode (value : V)
  | addEdge (src dst : V)
  | removeNode (value : V)
  | removeEdge (src dst : V)
  | dependsOn (a b : V)
  | clear

/-- A set of nodes and edges between them. -/
structure DirectedGraph (V : Type) where
  N : Set V
  E : V → V → Prop
  mem : ∀ a b, E a b → a ∈ N ∧ b ∈ N

namespace DirectedGraph

variable {V : Type}

/-- What an operation is for. -/
def exec (G : DirectedGraph V) : Op V → DirectedGraph V
  | .addNode value => ⟨{v | v ∈ G.N ∨ v = value}, G.E, fun a b h =>
      ⟨.inl (G.mem a b h).1, .inl (G.mem a b h).2⟩⟩
  | .addEdge src dst =>
    { N := {v | v ∈ G.N ∨ v = src ∨ v = dst}
      E := fun a b => G.E a b ∨ (a = src ∧ b = dst)
      mem := by
        rintro a b (h | ⟨rfl, rfl⟩)
        · exact ⟨.inl (G.mem a b h).1, .inl (G.mem a b h).2⟩
        · exact ⟨.inr (.inl rfl), .inr (.inr rfl)⟩ }
  | .removeNode value =>
    { N := {v | v ∈ G.N ∧ v ≠ value}
      E := fun a b => G.E a b ∧ a ≠ value ∧ b ≠ value
      mem := fun a b h => ⟨⟨(G.mem a b h.1).1, h.2.1⟩, (G.mem a b h.1).2, h.2.2⟩ }
  | .removeEdge src dst =>
    { N := G.N
      E := fun a b => G.E a b ∧ ¬ (a = src ∧ b = dst)
      mem := fun a b h => G.mem a b h.1 }
  | .dependsOn _ _ => G
  | .clear => ⟨∅, fun _ _ => False, fun _ _ h => h.elim⟩

/-- After operations on the empty graph, the latest first. -/
def after : List (Op V) → DirectedGraph V
  | [] => ⟨∅, fun _ _ => False, fun _ _ h => h.elim⟩
  | op :: earlier => (after earlier).exec op

end DirectedGraph

namespace DependenceGraph

variable {V : Type} [LinearOrder V]

/-- The object after an operation; `removeEdge` throws before it has changed anything. -/
def exec (g : DependenceGraph V) : Op V → DependenceGraph V
  | .addNode value => g.addNode value
  | .addEdge src dst => g.addEdge src dst
  | .removeNode value => g.removeNode value
  | .removeEdge src dst =>
    match g.removeEdge src dst with
    | .ok g' => g'
    | .error _ => g
  | .dependsOn a b => (g.dependsOn a b).2
  | .clear => g.clear

/-- The object after operations on an empty one, the latest first. -/
def after : List (Op V) → DependenceGraph V
  | [] => .empty
  | op :: earlier => (after earlier).exec op

theorem exec_removeEdge (g : DependenceGraph V) (a b : V) :
    (∀ v, (g.exec (.removeEdge a b)).IsNode v ↔ g.IsNode v) ∧
      ∀ x y, (g.exec (.removeEdge a b)).Edge x y ↔ g.Edge x y ∧ ¬ (x = a ∧ y = b) := by
  by_cases ha : g.IsNode a
  · obtain ⟨g', hok, hnode, hedge⟩ := removeEdge_spec ha b
    have : g.exec (.removeEdge a b) = g' := by simp only [exec, hok]
    rw [this]
    exact ⟨hnode, hedge⟩
  · -- no edge starts at a missing node
    have : g.exec (.removeEdge a b) = g := by
      simp only [exec, removeEdge_error.mpr ⟨ha, rfl⟩]
    rw [this]
    refine ⟨fun v => Iff.rfl, fun x y => (and_iff_left_of_imp ?_).symm⟩
    rintro hxy ⟨rfl, -⟩
    exact ha hxy.isNode

/-- `g` has the nodes and the edges of `G`. -/
structure Represents (g : DependenceGraph V) (G : DirectedGraph V) : Prop where
  node : ∀ v, g.IsNode v ↔ v ∈ G.N
  edge : ∀ a b, g.Edge a b ↔ G.E a b

theorem Represents.closed {g : DependenceGraph V} {G : DirectedGraph V} (h : g.Represents G) :
    g.Closed :=
  fun a b hab => (h.node b).mpr (G.mem a b ((h.edge a b).mp hab)).2

theorem represents_empty : (empty : DependenceGraph V).Represents (.after []) :=
  ⟨fun v => iff_of_false (empty_isNode v) id, fun a b => iff_of_false (empty_edge a b) id⟩

/-- The operation adds no node besides those it should: the second end of a new edge is there
already, and so is the node a query is about. -/
def InStep (g : DependenceGraph V) : Op V → Prop
  | .addEdge src dst => dst = src ∨ g.IsNode dst
  | .dependsOn a _ => g.IsNode a
  | _ => True

theorem Represents.exec {g : DependenceGraph V} {G : DirectedGraph V} (h : g.Represents G)
    {op : Op V} (hop : g.InStep op) : (g.exec op).Represents (G.exec op) := by
  cases op with
  | addNode value =>
    exact ⟨fun v => (addNode_isNode g value v).trans (or_congr_left (h.node v)),
      fun a b => (addNode_edge g value a b).trans (h.edge a b)⟩
  | addEdge src dst =>
    refine ⟨fun v => ?_, fun a b => (addEdge_edge g src dst a b).trans (or_congr_left (h.edge a b))⟩
    show (g.addEdge src dst).IsNode v ↔ v ∈ G.N ∨ v = src ∨ v = dst
    rw [addEdge_isNode, ← h.node]
    refine or_congr_right' fun hv => (or_iff_left_of_imp ?_).symm
    rintro rfl
    exact hop.resolve_right hv
  | removeNode value =>
    exact ⟨fun v => (removeNode_isNode g value v).trans (and_congr_left' (h.node v)),
      fun a b => (removeNode_edge g value a b).trans (and_congr_left' (h.edge a b))⟩
  | removeEdge src dst =>
    obtain ⟨hnode, hedge⟩ := exec_removeEdge g src dst
    exact ⟨fun v => (hnode v).trans (h.node v),
      fun a b => (hedge a b).trans (and_congr_left' (h.edge a b))⟩
  | dependsOn a b =>
    refine ⟨fun v => ?_, fun x y => ?_⟩
    · show (g.dependsOn a b).2.IsNode v ↔ v ∈ G.N
      rw [dependsOn_snd, addNode_isNode, ← h.node, or_iff_left_iff_imp]
      rintro rfl
      exact hop
    · show (g.dependsOn a b).2.Edge x y ↔ G.E x y
      rw [dependsOn_snd, addNode_edge, h.edge]
  | clear => exact represents_empty

/-! ## Runs -/

/-- In the state after `ops` the object is the directed graph it stands for, and its latest
operation has done what it is for. -/
structure Behaves (ops : List (Op V)) : Prop where
  represents : (after ops).Represents (.after ops)
  closed : (after ops).Closed
  removed : ∀ v earlier, ops = .removeNode v :: earlier →
    ¬ (after ops).IsNode v ∧ ∀ a, ¬ (after ops).Edge a v
  answer : ∀ a b earlier, ops = .dependsOn a b :: earlier →
    (((after earlier).dependsOn a b).1 = true ↔ (DirectedGraph.after earlier).E a b)
  query : ∀ a b earlier, ops = .dependsOn a b :: earlier →
    ∀ v, (after ops).IsNode v ↔ (after earlier).IsNode v

theorem behaves_nil : Behaves ([] : List (Op V)) where
  represents := represents_empty
  closed a b h := absurd h (empty_edge a b)
  removed := nofun
  answer := nofun
  query := nofun

/-- Where the object is the graph it stands for, it remains so after the next operation exactly when
that operation is in step. -/
theorem behaves_cons {op : Op V} {earlier : List (Op V)} (h : Behaves earlier) :
    Behaves (op :: earlier) ↔ (after earlier).InStep op := by
  constructor
  · intro h'
    cases op with
    | addEdge src dst =>
      have hdst : ((after earlier).addEdge src dst).IsNode dst :=
        h'.closed src dst ((addEdge_edge _ _ _ _ _).mpr (.inr ⟨rfl, rfl⟩))
      exact ((addEdge_isNode _ _ _ _).mp hdst).symm
    | dependsOn a b =>
      refine (h'.query a b earlier rfl a).mp ?_
      show ((after earlier).dependsOn a b).2.IsNode a
      rw [dependsOn_snd, addNode_isNode]
      exact .inr rfl
    | addNode _ | removeNode _ | removeEdge _ _ | clear => trivial
  · intro hop
    have hrep : (after (op :: earlier)).Represents (.after (op :: earlier)) :=
      h.represents.exec hop
    refine ⟨hrep, hrep.closed, ?_, ?_, ?_⟩
    · rintro v _ ⟨⟩
      refine ⟨fun hv => ?_, fun a ha => ?_⟩
      · exact ((removeNode_isNode _ v v).mp hv).2 rfl
      · exact ((removeNode_edge _ v a v).mp ha).2.2 rfl
    · rintro a b _ ⟨⟩
      rw [dependsOn_fst, h.represents.edge]
    · rintro a b _ ⟨⟩ v
      rw [hrep.node, h.represents.node]
      rfl

/-- **The object is a directed graph** in every state of a sequence of operations exactly when the
second end of every added edge, and the node of every query, was a node already. -/
theorem behaves_iff (ops : List (Op V)) :
    (∀ earlier, earlier <:+ ops → Behaves earlier) ↔
      ∀ op earlier, op :: earlier <:+ ops → (after earlier).InStep op := by
  have hlegal : Legal (fun _ _ => True) ops := by
    induction ops with
    | nil => trivial
    | cons op earlier ih => exact ⟨ih, trivial⟩
  exact forall_suffix_iff (H := fun earlier op => (after earlier).InStep op) behaves_nil
    (fun _ _ _ h => behaves_cons h) hlegal

/-- An edge between two new nodes leaves its second end out; a query on the empty graph makes a
node. -/
theorem not_behaves_first :
    ¬ Behaves [.addEdge (0 : Nat) 1] ∧ ¬ Behaves [.dependsOn (0 : Nat) 1] := by
  rw [behaves_cons behaves_nil, behaves_cons behaves_nil]
  exact ⟨by simp [InStep, after], by simp [InStep, after]⟩

end DependenceGraph

end IcsaDswp
