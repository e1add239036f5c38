import IcsaDswp.Dependence
import IcsaDswp.Lib.Cursor
import IcsaDswp.Lib.Trace

/-!
# Dependence graphs as LLVM graphs

`pass/include/DependenceTraits.h`: `DepGraphTraitsWrapper` wraps the nodes of a graph so that
`GraphTraits` can walk it. A child iterator is dereferenced by `operator[]` of the wrapper, which
inserts a null pointer for a value it does not know, into the map that the node iterators walk.
`Traversal` is a client with any number of loops over nodes and children under way at once. When the
dependants of the graph are its nodes, nothing is ever inserted (`Traversal.Inv`), and a loop that is
gone on with gets each node, or child, once and then ends (`traversal_exact`).
-/

namespace IcsaDswp

open Std (ExtTreeMap ExtTreeSet)
open Lib

variable {V : Type} [LinearOrder V]

/-! ## The code -/

/-- `DepNodeTraitsWrapper`; `Children` is the set in the wrapped graph. -/
structure DepNodeTraitsWrapper (V : Type) [LinearOrder V] where
  TheValue : V
  Children : OrdSet V

/-- `DepGraphTraitsWrapper`: `unique_ptr` is null or owns a node. -/
structure DepGraphTraitsWrapper (V : Type) [LinearOrder V] where
  Nodes : OrdMap V (Option (DepNodeTraitsWrapper V))

namespace DepGraphTraitsWrapper

/-- The constructor: a node for each node of the graph. -/
def ofGraph (Graph : DependenceGraph V) : DepGraphTraitsWrapper V :=
  ⟨Graph.nodes.toList.foldl (fun Nodes I => Nodes.insert I.1 (some ⟨I.1, I.2⟩)) ∅⟩

/-- `operator[]`: the pointer, and the map it leaves behind. -/
def lookup (G : DepGraphTraitsWrapper V) (Value : V) :
    Option (DepNodeTraitsWrapper V) × DepGraphTraitsWrapper V :=
  let Nodes := G.Nodes.alter Value fun N => some (N.getD none)
  (Nodes[Value]?.getD none, ⟨Nodes⟩)

/-- `*I` of a node iterator at the key `k`: `idx->second.get()`. -/
def deref (G : DepGraphTraitsWrapper V) (k : V) : Option (DepNodeTraitsWrapper V) :=
  G.Nodes[k]?.getD none

end DepGraphTraitsWrapper

/-- A loop over the children of the node `N`. -/
structure ChildLoop (V : Type) [LinearOrder V] where
  N : DepNodeTraitsWrapper V
  loop : Loop V (Option (DepNodeTraitsWrapper V))

/-- A client of the wrapper `G`: its loops, and the pointers it was given in them.
`nullDeref` is set when it goes through a null pointer. -/
structure Traversal (V : Type) [LinearOrder V] where
  G : DepGraphTraitsWrapper V
  nodeLoops : List (Loop V (Option (DepNodeTraitsWrapper V)))
  childLoops : List (ChildLoop V)
  handed : List (Option (DepNodeTraitsWrapper V))
  nullDeref : Bool

namespace Traversal

/-- One step of the client. -/
inductive Act where
  /-- `I = nodes_begin(G), E = nodes_end(G)` of a new loop. -/
  | nodesBegin
  /-- `I != E` and `N = *I` of the loop `i`. -/
  | nodeEnter (i : Nat)
  /-- `*I` once more. -/
  | nodeDeref (i : Nat)
  /-- `++I`. -/
  | nodeNext (i : Nat)
  /-- `N->getValue()` of a pointer handed to the client before. -/
  | getValue (n : Nat)
  /-- `J = child_begin(N), F = child_end(N)` of a new loop. -/
  | childBegin (n : Nat)
  /-- `J != F` and `M = *J` of the loop `j`. -/
  | childEnter (j : Nat)
  | childDeref (j : Nat)
  | childNext (j : Nat)
  deriving DecidableEq, Repr

def init (g : DependenceGraph V) : Traversal V := ⟨.ofGraph g, [], [], [], false⟩

/-- `*J` at the child `v`: the pointer goes to the client, the map may have grown. -/
def derefChild (s : Traversal V) (v : V) : Option (DepNodeTraitsWrapper V) × Traversal V :=
  let (M, G) := s.G.lookup v
  (M, { s with G := G, handed := s.handed ++ [M] })

def step (s : Traversal V) : Act → Option (Traversal V)
  | .nodesBegin => some { s with nodeLoops := s.nodeLoops ++ [.start s.G.Nodes.keys] }
  | .nodeEnter i =>
    s.nodeLoops[i]?.bind fun l => l.atHead.map fun k =>
      let N := s.G.deref k
      { s with nodeLoops := s.nodeLoops.set i (l.enter N), handed := s.handed ++ [N] }
  | .nodeDeref i =>
    s.nodeLoops[i]?.bind fun l => l.idx.map fun k =>
      { s with handed := s.handed ++ [s.G.deref k] }
  | .nodeNext i =>
    s.nodeLoops[i]?.bind fun l => l.inside.map fun k =>
      { s with nodeLoops := s.nodeLoops.set i (l.next s.G.Nodes.keys k) }
  | .getValue n => s.handed[n]?.map fun N => { s with nullDeref := s.nullDeref || N.isNone }
  | .childBegin n => s.handed[n]?.map fun N =>
    match N with
    | none => { s with nullDeref := true }
    | some N => { s with childLoops := s.childLoops ++ [⟨N, .start N.Children.toList⟩] }
  | .childEnter j =>
    s.childLoops[j]?.bind fun c => c.loop.atHead.map fun v =>
      let (M, s) := s.derefChild v
      { s with childLoops := s.childLoops.set j { c with loop := c.loop.enter M } }
  | .childDeref j =>
    s.childLoops[j]?.bind fun c => c.loop.idx.map fun v => (s.derefChild v).2
  | .childNext j =>
    s.childLoops[j]?.bind fun c => c.loop.inside.map fun v =>
      { s with childLoops := s.childLoops.set j
                { c with loop := c.loop.next c.N.Children.toList v } }

end Traversal

/-! ## The wrapper of a graph -/

/-- The node that the constructor makes of `v`. -/
def DependenceGraph.wrapped (g : DependenceGraph V) (v : V) : DepNodeTraitsWrapper V :=
  ⟨v, g.nodes[v]?.getD ∅⟩

namespace DepGraphTraitsWrapper

theorem foldl_insert_wrapped {g : DependenceGraph V} (l : List (V × OrdSet V))
    (hl : ∀ I ∈ l, g.nodes[I.1]? = some I.2) (Nodes : OrdMap V (Option (DepNodeTraitsWrapper V)))
    (v : V) :
    (l.foldl (fun Nodes I => Nodes.insert I.1 (some ⟨I.1, I.2⟩)) Nodes)[v]? =
      if v ∈ l.map Prod.fst then some (some (g.wrapped v)) else Nodes[v]? := by
  induction l generalizing Nodes with
  | nil => simp
  | cons I l ih =>
    rw [List.foldl_cons, ih fun J hJ => hl J (List.mem_cons_of_mem _ hJ), OrdMap.get_insert]
    by_cases hv : v ∈ l.map Prod.fst
    · rw [if_pos hv, if_pos (by simp only [List.map_cons, List.mem_cons]; exact .inr hv)]
    · by_cases hI : I.1 = v
      · subst hI
        rw [if_neg hv, if_pos rfl, if_pos (by simp), DependenceGraph.wrapped, hl I (by simp)]
        rfl
      · rw [if_neg hv, if_neg hI, if_neg]
        simp only [List.map_cons, List.mem_cons, not_or]
        exact ⟨Ne.symm hI, hv⟩

variable {g : DependenceGraph V} {v : V}

theorem ofGraph_get (g : DependenceGraph V) (v : V) :
    (ofGraph g).Nodes[v]? = if g.IsNode v then some (some (g.wrapped v)) else none := by
  have hmem : v ∈ g.nodes.toList.map Prod.fst ↔ g.IsNode v := by
    rw [ExtTreeMap.map_fst_toList_eq_keys, ExtTreeMap.mem_keys]
    rfl
  rw [ofGraph, foldl_insert_wrapped _ fun I hI => DependenceGraph.mem_nodes_toList.mp hI]
  simp only [hmem]
  simp

theorem mem_ofGraph : v ∈ (ofGraph g).Nodes ↔ g.IsNode v := by
  rw [OrdMap.mem_iff, ofGraph_get]
  by_cases h : g.IsNode v <;> simp [h]

theorem ofGraph_keys (g : DependenceGraph V) : (ofGraph g).Nodes.keys = g.nodes.keys := by
  refine (OrdMap.keys_sorted _).eq_of_mem_iff (OrdMap.keys_sorted _) fun v => ?_
  rw [ExtTreeMap.mem_keys, ExtTreeMap.mem_keys]
  exact mem_ofGraph

theorem ofGraph_deref (hv : g.IsNode v) : (ofGraph g).deref v = some (g.wrapped v) := by
  rw [deref, ofGraph_get, if_pos hv]
  rfl

/-- `operator[]` inserts nothing for a value it knows. -/
theorem ofGraph_lookup (hv : g.IsNode v) :
    (ofGraph g).lookup v = (some (g.wrapped v), ofGraph g) := by
  have hsame : (ofGraph g).Nodes.alter v (fun N => some (N.getD none)) = (ofGraph g).Nodes := by
    refine ExtTreeMap.ext_getElem? fun k => ?_
    rw [OrdMap.get_alter]
    by_cases hk : v = k
    · subst hk
      rw [if_pos rfl, ofGraph_get, if_pos hv]
      rfl
    · rw [if_neg hk]
  rw [lookup, hsame, ofGraph_get, if_pos hv]
  rfl

end DepGraphTraitsWrapper

/-! ## Runs -/

namespace Traversal

/-- The loop over nodes whose step this is. -/
def Act.nodeLoop : Act → Option Nat
  | .nodeEnter i | .nodeNext i => some i
  | _ => none

/-- The loop over children whose step this is. -/
def Act.childLoop : Act → Option Nat
  | .childEnter j | .childNext j => some j
  | _ => none

/-- How many steps of its own the loop `i` over nodes makes in a run. -/
def nodeSteps (acts : List Act) (i : Nat) : Nat := acts.countP fun a => a.nodeLoop = some i

def childSteps (acts : List Act) (j : Nat) : Nat := acts.countP fun a => a.childLoop = some j

theorem nodeSteps_cons (a : Act) (acts : List Act) (i : Nat) :
    nodeSteps (a :: acts) i = nodeSteps acts i + if a.nodeLoop = some i then 1 else 0 := by
  simp [nodeSteps, List.countP_cons]

theorem childSteps_cons (a : Act) (acts : List Act) (j : Nat) :
    childSteps (a :: acts) j = childSteps acts j + if a.childLoop = some j then 1 else 0 := by
  simp [childSteps, List.countP_cons]

/-- A step of no loop over nodes. -/
theorem nodeSteps_of_none {a : Act} (h : a.nodeLoop = none) (acts : List Act) :
    nodeSteps (a :: acts) = nodeSteps acts := by
  funext i
  simp [nodeSteps_cons, h]

theorem childSteps_of_none {a : Act} (h : a.childLoop = none) (acts : List Act) :
    childSteps (a :: acts) = childSteps acts := by
  funext j
  simp [childSteps_cons, h]

variable {g : DependenceGraph V} {s s' : Traversal V} {acts : List Act} {a : Act}

/-- The loop over nodes has come as far as its steps say; what it was given the client has. -/
def NodeOn (g : DependenceGraph V) (handed : List (Option (DepNodeTraitsWrapper V))) (steps : Nat)
    (l : Loop V (Option (DepNodeTraitsWrapper V))) : Prop :=
  l.On g.nodes.keys (fun v => some (g.wrapped v)) steps ∧ ∀ N ∈ l.yielded, N ∈ handed

def ChildOn (g : DependenceGraph V) (handed : List (Option (DepNodeTraitsWrapper V))) (steps : Nat)
    (c : ChildLoop V) : Prop :=
  ∃ v, g.IsNode v ∧ c.N = g.wrapped v ∧
    c.loop.On (g.deps v) (fun w => some (g.wrapped w)) steps ∧ ∀ N ∈ c.loop.yielded, N ∈ handed

/-- What every step keeps: the wrapper is as it was built, no pointer handed out is null, and the
loops have been given what lies in front of their cursors. -/
structure Inv (g : DependenceGraph V) (acts : List Act) (s : Traversal V) : Prop where
  graph : s.G = .ofGraph g
  handed : ∀ N ∈ s.handed, ∃ v, g.IsNode v ∧ N = some (g.wrapped v)
  nullDeref : s.nullDeref = false
  nodes : Tracked (NodeOn g s.handed) s.nodeLoops (nodeSteps acts)
  children : Tracked (ChildOn g s.handed) s.childLoops (childSteps acts)

theorem Inv.init (g : DependenceGraph V) : Inv g [] (init g) where
  graph := rfl
  handed := by simp [Traversal.init]
  nullDeref := rfl
  nodes := ⟨by simp [Traversal.init], fun _ _ => rfl⟩
  children := ⟨by simp [Traversal.init], fun _ _ => rfl⟩

/-- A step of no loop. -/
theorem Inv.other (h : Inv g acts s) (hn : a.nodeLoop = none) (hc : a.childLoop = none) :
    Inv g (a :: acts) s where
  graph := h.graph
  handed := h.handed
  nullDeref := h.nullDeref
  nodes := nodeSteps_of_none hn acts ▸ h.nodes
  children := childSteps_of_none hc acts ▸ h.children

/-- The client is handed one more node. -/
theorem Inv.hand (h : Inv g acts s) {v : V} (hv : g.IsNode v) :
    Inv g acts { s with handed := s.handed ++ [some (g.wrapped v)] } where
  graph := h.graph
  handed N hN := by
    rcases List.mem_append.mp hN with hN | hN
    · exact h.handed N hN
    · exact ⟨v, hv, List.mem_singleton.mp hN⟩
  nullDeref := h.nullDeref
  nodes := by
    refine ⟨fun i l hl => ?_, h.nodes.2⟩
    obtain ⟨hon, hgiven⟩ := h.nodes.1 i l hl
    exact ⟨hon, fun N hN => List.mem_append_left _ (hgiven N hN)⟩
  children := by
    refine ⟨fun j c hc => ?_, h.children.2⟩
    obtain ⟨v, hv, hN, hon, hgiven⟩ := h.children.1 j c hc
    exact ⟨v, hv, hN, hon, fun N hN => List.mem_append_left _ (hgiven N hN)⟩

/-- A step of the loop `i` over nodes. -/
theorem Inv.setNode (h : Inv g acts s) {i : Nat} (hi : i < s.nodeLoops.length)
    (ha : a.nodeLoop = some i) (hc : a.childLoop = none)
    {l : Loop V (Option (DepNodeTraitsWrapper V))} (hl : NodeOn g s.handed (nodeSteps acts i + 1) l) :
    Inv g (a :: acts) { s with nodeLoops := s.nodeLoops.set i l } where
  graph := h.graph
  handed := h.handed
  nullDeref := h.nullDeref
  nodes := by
    refine h.nodes.set hi ?_ fun j hj => ?_
    · rw [nodeSteps_cons, if_pos ha]
      exact hl
    · rw [nodeSteps_cons, ha, if_neg fun he => hj (Option.some.inj he).symm]
      rfl
  children := childSteps_of_none hc acts ▸ h.children

theorem Inv.setChild (h : Inv g acts s) {j : Nat} (hj : j < s.childLoops.length)
    (ha : a.childLoop = some j) (hn : a.nodeLoop = none) {c : ChildLoop V}
    (hc : ChildOn g s.handed (childSteps acts j + 1) c) :
    Inv g (a :: acts) { s with childLoops := s.childLoops.set j c } where
  graph := h.graph
  handed := h.handed
  nullDeref := h.nullDeref
  nodes := nodeSteps_of_none hn acts ▸ h.nodes
  children := by
    refine h.children.set hj ?_ fun i hi => ?_
    · rw [childSteps_cons, if_pos ha]
      exact hc
    · rw [childSteps_cons, ha, if_neg fun he => hi (Option.some.inj he).symm]
      rfl

/-- Dereferencing a child iterator finds a node and leaves the wrapper as it is. -/
theorem Inv.derefChild_eq (h : Inv g acts s) {v : V} (hv : g.IsNode v) :
    s.derefChild v =
      (some (g.wrapped v), { s with handed := s.handed ++ [some (g.wrapped v)] }) := by
  rw [derefChild, h.graph, DepGraphTraitsWrapper.ofGraph_lookup hv]

theorem Inv.deref_eq (h : Inv g acts s) {v : V} (hv : g.IsNode v) :
    s.G.deref v = some (g.wrapped v) := by
  rw [h.graph, DepGraphTraitsWrapper.ofGraph_deref hv]

theorem Inv.keys_eq (h : Inv g acts s) : s.G.Nodes.keys = g.nodes.keys := by
  rw [h.graph, DepGraphTraitsWrapper.ofGraph_keys]

/-- The cursor of a loop over nodes is on a node. -/
theorem NodeOn.isNode {handed : List (Option (DepNodeTraitsWrapper V))} {steps : Nat}
    {l : Loop V (Option (DepNodeTraitsWrapper V))} (h : NodeOn g handed steps l) {k : V}
    (hk : l.idx = some k) : g.IsNode k :=
  ExtTreeMap.mem_keys.mp (h.1.mem hk)

theorem ChildOn.isNode (hg : g.Closed) {handed : List (Option (DepNodeTraitsWrapper V))}
    {steps : Nat} {c : ChildLoop V} (h : ChildOn g handed steps c) {k : V}
    (hk : c.loop.idx = some k) : g.IsNode k := by
  obtain ⟨v, -, -, hon, -⟩ := h
  exact hg _ _ (DependenceGraph.mem_deps.mp (hon.mem hk))

theorem Inv.step (hg : g.Closed) (h : Inv g acts s) (hs : s.step a = some s') :
    Inv g (a :: acts) s' := by
  cases a with
  | nodesBegin =>
    obtain rfl := Option.some.inj hs
    have h' := h.other (a := .nodesBegin) rfl rfl
    refine ⟨h'.graph, h'.handed, h'.nullDeref, h'.nodes.push ⟨?_, ?_⟩, h'.children⟩
    · rw [h.keys_eq]
      exact Loop.start_on ..
    · exact fun N hN => absurd hN (List.not_mem_nil)
  | nodeEnter i =>
    obtain ⟨l, hl, hs⟩ := Option.bind_eq_some_iff.mp hs
    obtain ⟨k, hk, rfl⟩ := Option.map_eq_some_iff.mp hs
    have hon := h.nodes.1 i l hl
    have hv := hon.isNode (Loop.idx_of_atHead hk)
    simp only [h.deref_eq hv]
    refine (h.hand hv).setNode (List.getElem?_eq_some_iff.mp hl).1 rfl rfl ⟨hon.1.enter hk, ?_⟩
    intro N hN
    rcases List.mem_append.mp hN with hN | hN
    · exact List.mem_append_left _ (hon.2 N hN)
    · exact List.mem_append_right _ hN
  | nodeDeref i =>
    obtain ⟨l, hl, hs⟩ := Option.bind_eq_some_iff.mp hs
    obtain ⟨k, hk, rfl⟩ := Option.map_eq_some_iff.mp hs
    have hv := (h.nodes.1 i l hl).isNode hk
    rw [h.deref_eq hv]
    exact (h.hand hv).other rfl rfl
  | nodeNext i =>
    obtain ⟨l, hl, hs⟩ := Option.bind_eq_some_iff.mp hs
    obtain ⟨k, hk, rfl⟩ := Option.map_eq_some_iff.mp hs
    have hon := h.nodes.1 i l hl
    rw [h.keys_eq]
    exact h.setNode (List.getElem?_eq_some_iff.mp hl).1 rfl rfl
      ⟨hon.1.next g.nodes.keys_sorted hk, hon.2⟩
  | getValue n =>
    obtain ⟨N, hN, rfl⟩ := Option.map_eq_some_iff.mp hs
    obtain ⟨v, -, rfl⟩ := h.handed N (List.mem_of_getElem? hN)
    have h' := h.other (a := .getValue n) rfl rfl
    exact ⟨h'.graph, h'.handed, by simp [h.nullDeref], h'.nodes, h'.children⟩
  | childBegin n =>
    obtain ⟨N, hN, rfl⟩ := Option.map_eq_some_iff.mp hs
    obtain ⟨v, hv, rfl⟩ := h.handed N (List.mem_of_getElem? hN)
    have h' := h.other (a := .childBegin n) rfl rfl
    refine ⟨h'.graph, h'.handed, h'.nullDeref, h'.nodes, h'.children.push ⟨v, hv, rfl, ?_, ?_⟩⟩
    · exact Loop.start_on ..
    · exact fun N hN => absurd hN (List.not_mem_nil)
  | childEnter j =>
    obtain ⟨c, hc, hs⟩ := Option.bind_eq_some_iff.mp hs
    obtain ⟨w, hw, rfl⟩ := Option.map_eq_some_iff.mp hs
    have hwn := (h.children.1 j c hc).isNode hg (Loop.idx_of_atHead hw)
    obtain ⟨v, hv, hN, hon, hgiven⟩ := h.children.1 j c hc
    simp only [h.derefChild_eq hwn]
    refine (h.hand hwn).setChild (List.getElem?_eq_some_iff.mp hc).1 rfl rfl
      ⟨v, hv, hN, hon.enter hw, fun N hN => ?_⟩
    rcases List.mem_append.mp hN with hN | hN
    · exact List.mem_append_left _ (hgiven N hN)
    · exact List.mem_append_right _ hN
  | childDeref j =>
    obtain ⟨c, hc, hs⟩ := Option.bind_eq_some_iff.mp hs
    obtain ⟨w, hw, rfl⟩ := Option.map_eq_some_iff.mp hs
    have hwn := (h.children.1 j c hc).isNode hg hw
    rw [h.derefChild_eq hwn]
    exact (h.hand hwn).other rfl rfl
  | childNext j =>
    obtain ⟨c, hc, hs⟩ := Option.bind_eq_some_iff.mp hs
    obtain ⟨w, hw, rfl⟩ := Option.map_eq_some_iff.mp hs
    obtain ⟨v, hv, hN, hon, hgiven⟩ := h.children.1 j c hc
    refine h.setChild (List.getElem?_eq_some_iff.mp hc).1 rfl rfl ⟨v, hv, hN, ?_, hgiven⟩
    have hnext := hon.next (OrdSet.toList_sorted _) hw
    rw [hN]
    exact hnext

/-- **Traversals of a wrapped graph**, their loops interleaved in any way: `operator[]` never adds to
the wrapper, and no null pointer is handed out or followed. A loop over the nodes, or over the
children of any node that was handed out, can be begun at any time, and can be gone on with until it
ends, which is after two steps of its own for each node, or dependant. It has then been given all of
them, each once. -/
theorem traversal_exact (hg : ∀ a b, g.Edge a b → g.IsNode b)
    (h : exec step (Traversal.init g) acts = some s) :
    s.G = .ofGraph g ∧ (∀ v, v ∈ s.G.Nodes ↔ g.IsNode v) ∧ s.nullDeref = false ∧
    (∀ N ∈ s.handed, ∃ v, g.IsNode v ∧ N = some (g.wrapped v)) ∧
    (∃ s' l, s.step .nodesBegin = some s' ∧ s'.nodeLoops = s.nodeLoops ++ [l] ∧ l.yielded = []) ∧
    (∀ n v, s.handed[n]? = some (some (g.wrapped v)) → ∃ s' c, s.step (.childBegin n) = some s' ∧
      s'.childLoops = s.childLoops ++ [c] ∧ c.N = g.wrapped v ∧ c.loop.yielded = []) ∧
    (∀ i l, s.nodeLoops[i]? = some l →
      l.Exact g.IsNode g.nodes.keys.length (fun v => some (g.wrapped v)) (nodeSteps acts i) ∧
      (∀ N ∈ l.yielded, N ∈ s.handed) ∧
      (l.idx ≠ none → (s.step (.nodeEnter i)).isSome ∨ (s.step (.nodeNext i)).isSome)) ∧
    (∀ j c, s.childLoops[j]? = some c →
      c.loop.Exact (g.Edge c.N.TheValue) (g.deps c.N.TheValue).length
        (fun v => some (g.wrapped v)) (childSteps acts j) ∧
      (∀ N ∈ c.loop.yielded, N ∈ s.handed) ∧
      (c.loop.idx ≠ none → (s.step (.childEnter j)).isSome ∨ (s.step (.childNext j)).isSome)) := by
  have hinv : Inv g acts s :=
    exec_inv_run (Inv.init g) (fun _ _ _ _ hs hstep => hs.step hg hstep) h
  refine ⟨hinv.graph, fun v => ?_, hinv.nullDeref, hinv.handed, ⟨_, _, rfl, rfl, rfl⟩,
    fun n v hn => ?_, fun i l hl => ?_, fun j c hc => ?_⟩
  · rw [hinv.graph]
    exact DepGraphTraitsWrapper.mem_ofGraph
  · exact ⟨_, ⟨g.wrapped v, .start (g.wrapped v).Children.toList⟩, by rw [step, hn]; rfl, rfl, rfl,
      rfl⟩
  · obtain ⟨hon, hgiven⟩ := hinv.nodes.1 i l hl
    refine ⟨hon.exact (fun v => ExtTreeMap.mem_keys) ExtTreeMap.nodup_keys, hgiven, fun hne => ?_⟩
    obtain ⟨k, hk⟩ := Option.ne_none_iff_exists'.mp hne
    rcases Loop.exists_atHead_or_inside hk with hk | hk
    · exact .inl (by simp [step, hl, hk])
    · exact .inr (by simp [step, hl, hk])
  · obtain ⟨v, -, hN, hon, hgiven⟩ := hinv.children.1 j c hc
    refine ⟨?_, hgiven, fun hne => ?_⟩
    · rw [hN]
      exact hon.exact (fun w => DependenceGraph.mem_deps) (OrdSet.nodup_toList _)
    · obtain ⟨k, hk⟩ := Option.ne_none_iff_exists'.mp hne
      rcases Loop.exists_atHead_or_inside hk with hk | hk
      · exact .inl (by simp [step, hc, hk])
      · exact .inr (by simp [step, hc, hk])

/-- The graph of `pass/test/TestDependenceTraits.cpp`. -/
def initGraph : DependenceGraph (Fin 12) :=
  let G := DependenceGraph.empty.addNodes [0, 1, 2, 3]
  (((G.addEdge 0 1).addEdge 1 2).addEdge 2 3).addEdge 2 0

/-- `printGraphUsingTraits` in the second turn of its outer loop, after the inner one has ended. -/
def printedTwo : List Act :=
  [.childNext 1, .getValue 3, .childEnter 1, .childBegin 2, .getValue 2, .nodeEnter 0,
    .nodeNext 0, .childNext 0, .getValue 1, .childEnter 0, .childBegin 0, .getValue 0, .nodeEnter 0,
    .nodesBegin]

theorem traversal_exact_initGraph :
    (∀ a b, initGraph.Edge a b → initGraph.IsNode b) ∧
    ∃ s, exec step (Traversal.init initGraph) printedTwo = some s ∧
    s.G = .ofGraph initGraph ∧ (∀ v, v ∈ s.G.Nodes ↔ initGraph.IsNode v) ∧ s.nullDeref = false ∧
    (∀ N ∈ s.handed, ∃ v, initGraph.IsNode v ∧ N = some (initGraph.wrapped v)) ∧
    (∃ s' l, s.step .nodesBegin = some s' ∧ s'.nodeLoops = s.nodeLoops ++ [l] ∧ l.yielded = []) ∧
    (∀ n v, s.handed[n]? = some (some (initGraph.wrapped v)) → ∃ s' c,
      s.step (.childBegin n) = some s' ∧ s'.childLoops = s.childLoops ++ [c] ∧
      c.N = initGraph.wrapped v ∧ c.loop.yielded = []) ∧
    (∀ i l, s.nodeLoops[i]? = some l →
      l.Exact initGraph.IsNode initGraph.nodes.keys.length (fun v => some (initGraph.wrapped v))
        (nodeSteps printedTwo i) ∧
      (∀ N ∈ l.yielded, N ∈ s.handed) ∧
      (l.idx ≠ none → (s.step (.nodeEnter i)).isSome ∨ (s.step (.nodeNext i)).isSome)) ∧
    (∀ j c, s.childLoops[j]? = some c →
      c.loop.Exact (initGraph.Edge c.N.TheValue) (initGraph.deps c.N.TheValue).length
        (fun v => some (initGraph.wrapped v)) (childSteps printedTwo j) ∧
      (∀ N ∈ c.loop.yielded, N ∈ s.handed) ∧
      (c.loop.idx ≠ none →
        (s.step (.childEnter j)).isSome ∨ (s.step (.childNext j)).isSome)) := by
  have hg : ∀ a b, initGraph.Edge a b → initGraph.IsNode b := by decide +kernel
  have hrun : (exec step (Traversal.init initGraph) printedTwo).isSome := by decide +kernel
  obtain ⟨s, hs⟩ := Option.isSome_iff_exists.mp hrun
  exact ⟨hg, s, hs, traversal_exact hg hs⟩

end Traversal

end IcsaDswp
