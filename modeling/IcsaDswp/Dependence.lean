import Mathlib
import IcsaDswp.Lib.Fold

/-!
# `DependenceGraph`

`pass/include/Dependence.h`: a map from nodes to the sets of nodes that depend on them. Nodes are
pointers, so the map and the sets iterate in address order, here the linear order of the node
type. `std::map` and `std::set` are ordered trees with extensional equality; `at` throws
`std::out_of_range` where `operator[]` inserts.
-/

namespace IcsaDswp

open Std (ExtTreeMap ExtTreeSet)
open Lib

/-- What a C++ run can end in besides a value. -/
inductive Fault where
  /-- `std::out_of_range`, thrown by `at` on a missing key. -/
  | outOfRange
  /-- A null pointer is dereferenced. -/
  | nullDeref
  /-- `back()` of an empty basic block. -/
  | emptyBlock
  /-- The recursion goes deeper than the fuel it was given. -/
  | outOfFuel
  deriving DecidableEq, Repr

instance decEqExcept {ε α : Type} [DecidableEq ε] [DecidableEq α] : DecidableEq (Except ε α)
  | .ok a, .ok b => decidable_of_iff (a = b) (by simp)
  | .error e, .error e' => decidable_of_iff (e = e') (by simp)
  | .ok _, .error _ => isFalse nofun
  | .error _, .ok _ => isFalse nofun

/-- Addresses, and null or an address, are compared consistently. -/
instance transCmp {K : Type} [LinearOrder K] : Std.TransCmp (compare : K → K → Ordering) :=
  inferInstance

instance transCmpWithBot {K : Type} [LinearOrder K] :
    Std.TransCmp (compare : WithBot K → WithBot K → Ordering) :=
  inferInstance

/-- `std::map`, in key order. -/
abbrev OrdMap (K V : Type) [LinearOrder K] := ExtTreeMap K V compare

/-- `std::set`, in key order. -/
abbrev OrdSet (K : Type) [LinearOrder K] := ExtTreeSet K compare

section OrdMap

variable {K V : Type} [LinearOrder K]

/-- `m.at(k)`. -/
def OrdMap.at (m : OrdMap K V) (k : K) : Except Fault V :=
  match m[k]? with
  | some v => .ok v
  | none => .error .outOfRange

theorem OrdMap.get_insert (m : OrdMap K V) (k k' : K) (v : V) :
    (m.insert k v)[k']? = if k = k' then some v else m[k']? := by
  simp [ExtTreeMap.getElem?_insert]

theorem OrdMap.get_alter (m : OrdMap K V) (k k' : K) (f : Option V → Option V) :
    (m.alter k f)[k']? = if k = k' then f m[k]? else m[k']? := by
  simp [ExtTreeMap.getElem?_alter]

theorem OrdMap.get_erase (m : OrdMap K V) (k k' : K) :
    (m.erase k)[k']? = if k = k' then none else m[k']? := by
  simp [ExtTreeMap.getElem?_erase]

theorem OrdSet.nodup_toList (s : OrdSet K) : s.toList.Nodup :=
  s.distinct_toList.imp fun h he => h (by simp [he])

theorem OrdMap.keys_sorted (m : OrdMap K V) : m.keys.Pairwise (· < ·) :=
  m.ordered_keys.imp fun h => compare_lt_iff_lt.mp h

theorem OrdSet.toList_sorted (s : OrdSet K) : s.toList.Pairwise (· < ·) :=
  s.ordered_toList.imp fun h => compare_lt_iff_lt.mp h

theorem OrdSet.isEmpty_iff {s : OrdSet K} : s.isEmpty = true ↔ ∀ a, a ∉ s := by
  rw [ExtTreeSet.isEmpty_iff, ExtTreeSet.eq_empty_iff_forall_not_mem]

theorem OrdSet.mem_insert {s : OrdSet K} {a b : K} : b ∈ s.insert a ↔ b = a ∨ b ∈ s := by
  simp [ExtTreeSet.mem_insert, eq_comm (a := a)]

theorem OrdMap.at_ok {m : OrdMap K V} {k : K} {v : V} : OrdMap.at m k = .ok v ↔ m[k]? = some v := by
  unfold OrdMap.at
  cases m[k]? <;> simp

theorem OrdMap.at_error {m : OrdMap K V} {k : K} {e : Fault} :
    OrdMap.at m k = .error e ↔ k ∉ m ∧ e = .outOfRange := by
  unfold OrdMap.at
  cases h : m[k]? with
  | none =>
    have : k ∉ m := by simp [ExtTreeMap.mem_iff_isSome_getElem?, h]
    simp [this, @eq_comm _ e]
  | some v =>
    have : k ∈ m := ExtTreeMap.mem_iff_isSome_getElem?.mpr (by simp [h])
    simp [this]

variable {U : Type} [LinearOrder U]

/-- `m[k];` on a map to sets. -/
def OrdMap.touch (m : OrdMap K (OrdSet U)) (k : K) : OrdMap K (OrdSet U) :=
  m.alter k fun s => some (s.getD ∅)

/-- `m[k].insert(u);` -/
def OrdMap.insertAt (m : OrdMap K (OrdSet U)) (k : K) (u : U) : OrdMap K (OrdSet U) :=
  m.alter k fun s => some ((s.getD ∅).insert u)

/-- `u` is in the set stored for `k`. -/
def OrdMap.HasAt (m : OrdMap K (OrdSet U)) (k : K) (u : U) : Prop := ∃ s, m[k]? = some s ∧ u ∈ s

theorem OrdMap.hasAt_iff {m : OrdMap K (OrdSet U)} {k : K} {u : U} :
    m.HasAt k u ↔ u ∈ m[k]?.getD ∅ := by
  unfold HasAt
  cases m[k]? <;> simp

theorem OrdMap.mem_iff {m : OrdMap K V} {k : K} : k ∈ m ↔ ∃ v, m[k]? = some v := by
  rw [ExtTreeMap.mem_iff_isSome_getElem?, Option.isSome_iff_exists]

theorem OrdMap.mem_touch (m : OrdMap K (OrdSet U)) (k k' : K) :
    k' ∈ m.touch k ↔ k' ∈ m ∨ k' = k := by
  simp only [mem_iff, touch, get_alter]
  by_cases h : k = k'
  · simp [h]
  · simp [h, Ne.symm h]

theorem OrdMap.mem_insertAt (m : OrdMap K (OrdSet U)) (k k' : K) (u : U) :
    k' ∈ m.insertAt k u ↔ k' ∈ m ∨ k' = k := by
  simp only [mem_iff, insertAt, get_alter]
  by_cases h : k = k'
  · simp [h]
  · simp [h, Ne.symm h]

theorem OrdMap.hasAt_touch (m : OrdMap K (OrdSet U)) (k k' : K) (u : U) :
    (m.touch k).HasAt k' u ↔ m.HasAt k' u := by
  simp only [HasAt, touch, get_alter]
  by_cases h : k = k'
  · subst h
    cases m[k]? <;> simp
  · simp [h]

theorem OrdMap.hasAt_insertAt (m : OrdMap K (OrdSet U)) (k k' : K) (u v : U) :
    (m.insertAt k u).HasAt k' v ↔ m.HasAt k' v ∨ (k' = k ∧ v = u) := by
  simp only [HasAt, insertAt, get_alter]
  by_cases h : k = k'
  · subst h
    cases m[k]? <;> simp [or_comm, @eq_comm _ u v]
  · simp [h, Ne.symm h]

end OrdMap

/-- `DependenceGraph<ValueType>`. -/
@[ext]
structure DependenceGraph (V : Type) [LinearOrder V] where
  nodes : OrdMap V (OrdSet V)

namespace DependenceGraph

variable {V : Type} [LinearOrder V]

/-- A graph without nodes, as its constructor leaves it. -/
def empty : DependenceGraph V := ⟨∅⟩

/-- `Nodes[Value];` -/
def addNode (g : DependenceGraph V) (value : V) : DependenceGraph V :=
  ⟨g.nodes.touch value⟩

/-- `Nodes[From].insert(To);` -/
def addEdge (g : DependenceGraph V) (src dst : V) : DependenceGraph V :=
  ⟨g.nodes.insertAt src dst⟩

/-- Makes sure there are no edges pointing to `value` and then removes it from the nodes. -/
def removeNode (g : DependenceGraph V) (value : V) : DependenceGraph V :=
  let nodes := g.nodes.map fun _ deps => deps.erase value
  ⟨nodes.erase value⟩

/-- `Nodes.at(From).erase(To);` -/
def removeEdge (g : DependenceGraph V) (src dst : V) : Except Fault (DependenceGraph V) := do
  let deps ← OrdMap.at g.nodes src
  pure ⟨g.nodes.insert src (deps.erase dst)⟩

/-- Checks if node `b` depends on node `a`, by `Nodes[A].find(B)`. -/
def dependsOn (g : DependenceGraph V) (a b : V) : Bool × DependenceGraph V :=
  let nodes := g.nodes.touch a
  ((nodes[a]?.getD ∅).contains b, ⟨nodes⟩)

/-- The set of nodes that depend on `a`; throws when `a` is not a node. -/
def getDependants (g : DependenceGraph V) (a : V) : Except Fault (OrdSet V) :=
  OrdMap.at g.nodes a

/-- Remove all nodes from the graph. -/
def clear (_ : DependenceGraph V) : DependenceGraph V := ⟨∅⟩

/-! ## The graph as a relation -/

def IsNode (g : DependenceGraph V) (v : V) : Prop := v ∈ g.nodes

/-- `dst` depends on `src`. -/
def Edge (g : DependenceGraph V) (src dst : V) : Prop := g.nodes.HasAt src dst

/-- Every dependant is itself a node. -/
def Closed (g : DependenceGraph V) : Prop := ∀ a b, g.Edge a b → g.IsNode b

instance (g : DependenceGraph V) (v : V) : Decidable (g.IsNode v) :=
  inferInstanceAs (Decidable (v ∈ g.nodes))

/-- The dependants of `a` in iteration order (none for a missing node). -/
def deps (g : DependenceGraph V) (a : V) : List V := (g.nodes[a]?.getD ∅).toList

theorem mem_deps {g : DependenceGraph V} {a b : V} : b ∈ g.deps a ↔ g.Edge a b := by
  unfold deps Edge
  rw [OrdMap.hasAt_iff, ExtTreeSet.mem_toList]

instance (g : DependenceGraph V) (a b : V) : Decidable (g.Edge a b) :=
  decidable_of_iff (b ∈ g.deps a) mem_deps

instance [Fintype V] (g : DependenceGraph V) : Decidable g.Closed :=
  inferInstanceAs (Decidable (∀ a b, g.Edge a b → g.IsNode b))

theorem Edge.isNode {g : DependenceGraph V} {a b : V} (h : g.Edge a b) : g.IsNode a := by
  obtain ⟨deps, h, -⟩ := h
  exact OrdMap.mem_iff.mpr ⟨deps, h⟩

theorem isNode_iff {g : DependenceGraph V} {v : V} :
    g.IsNode v ↔ ∃ deps, g.nodes[v]? = some deps := OrdMap.mem_iff

theorem mem_nodes_toList {g : DependenceGraph V} {v : V} {deps : OrdSet V} :
    (v, deps) ∈ g.nodes.toList ↔ g.nodes[v]? = some deps :=
  ExtTreeMap.mem_toList_iff_getElem?_eq_some

/-- A graph is its nodes and its edges. -/
theorem ext_iff_isNode_edge {g g' : DependenceGraph V} :
    g = g' ↔ (∀ v, g.IsNode v ↔ g'.IsNode v) ∧ ∀ a b, g.Edge a b ↔ g'.Edge a b := by
  constructor
  · rintro rfl
    exact ⟨fun _ => Iff.rfl, fun _ _ => Iff.rfl⟩
  · rintro ⟨hnode, hedge⟩
    ext1
    refine ExtTreeMap.ext_getElem? fun v => ?_
    have hn := hnode v
    simp only [IsNode, OrdMap.mem_iff] at hn
    have he := fun b => hedge v b
    simp only [Edge, OrdMap.HasAt] at he
    cases h : g.nodes[v]? with
    | none => cases h' : g'.nodes[v]? with
      | none => rfl
      | some s' => simp [h, h'] at hn
    | some s => cases h' : g'.nodes[v]? with
      | none => simp [h, h'] at hn
      | some s' =>
        congr 1
        exact ExtTreeSet.ext_mem fun b => by simpa [h, h'] using he b

@[simp] theorem empty_isNode (v : V) : ¬ (empty : DependenceGraph V).IsNode v := by
  simp [empty, IsNode]

@[simp] theorem empty_edge (a b : V) : ¬ (empty : DependenceGraph V).Edge a b := by
  simp [empty, Edge, OrdMap.HasAt]

@[simp] theorem addNode_isNode (g : DependenceGraph V) (a v : V) :
    (g.addNode a).IsNode v ↔ g.IsNode v ∨ v = a := g.nodes.mem_touch a v

@[simp] theorem addNode_edge (g : DependenceGraph V) (v a b : V) :
    (g.addNode v).Edge a b ↔ g.Edge a b := g.nodes.hasAt_touch v a b

@[simp] theorem addEdge_isNode (g : DependenceGraph V) (a b v : V) :
    (g.addEdge a b).IsNode v ↔ g.IsNode v ∨ v = a := g.nodes.mem_insertAt a v b

@[simp] theorem addEdge_edge (g : DependenceGraph V) (a b x y : V) :
    (g.addEdge a b).Edge x y ↔ g.Edge x y ∨ (x = a ∧ y = b) := g.nodes.hasAt_insertAt a x b y

@[simp] theorem removeNode_isNode (g : DependenceGraph V) (a v : V) :
    (g.removeNode a).IsNode v ↔ g.IsNode v ∧ v ≠ a := by
  simp only [removeNode, isNode_iff, OrdMap.get_erase, ExtTreeMap.getElem?_map]
  by_cases h : a = v
  · simp [h]
  · simp [h, Ne.symm h]

@[simp] theorem removeNode_edge (g : DependenceGraph V) (v a b : V) :
    (g.removeNode v).Edge a b ↔ g.Edge a b ∧ a ≠ v ∧ b ≠ v := by
  simp only [removeNode, Edge, OrdMap.HasAt, OrdMap.get_erase, ExtTreeMap.getElem?_map]
  by_cases h : v = a
  · simp [h]
  · cases g.nodes[a]? with
    | none => simp [h]
    | some deps => simp [h, Ne.symm h, and_comm, @eq_comm _ v b]

theorem removeEdge_ok {g g' : DependenceGraph V} {a b : V} :
    g.removeEdge a b = .ok g' ↔
      ∃ deps, g.nodes[a]? = some deps ∧ g' = ⟨g.nodes.insert a (deps.erase b)⟩ := by
  unfold removeEdge
  rw [bind_ok]
  simp only [OrdMap.at_ok]
  exact exists_congr fun deps => and_congr_right fun _ => by
    simp [pure, Except.pure, eq_comm]

theorem removeEdge_error {g : DependenceGraph V} {a b : V} {e : Fault} :
    g.removeEdge a b = .error e ↔ ¬ g.IsNode a ∧ e = .outOfRange := by
  unfold removeEdge
  rw [bind_error, OrdMap.at_error]
  simp [pure, Except.pure, IsNode]

/-- **`removeEdge`** completes on a node. -/
theorem removeEdge_spec {g : DependenceGraph V} {a : V} (ha : g.IsNode a) (b : V) :
    ∃ g', g.removeEdge a b = .ok g' ∧ (∀ v, g'.IsNode v ↔ g.IsNode v) ∧
      ∀ x y, g'.Edge x y ↔ g.Edge x y ∧ ¬ (x = a ∧ y = b) := by
  obtain ⟨deps, hdeps⟩ := isNode_iff.mp ha
  refine ⟨_, removeEdge_ok.mpr ⟨deps, hdeps, rfl⟩, fun v => ?_, fun x y => ?_⟩
  · simp only [isNode_iff, OrdMap.get_insert]
    by_cases h : a = v
    · subst h
      simp [hdeps]
    · simp [h]
  · simp only [Edge, OrdMap.HasAt, OrdMap.get_insert]
    by_cases h : a = x
    · subst h
      simp [hdeps, and_comm, @eq_comm _ b y]
    · simp [h, Ne.symm h]

/-- The answer is right, also for a missing node. -/
theorem dependsOn_fst (g : DependenceGraph V) (a b : V) :
    (g.dependsOn a b).1 = true ↔ g.Edge a b := by
  have : (g.dependsOn a b).1 = true ↔ (g.nodes.touch a).HasAt a b := by
    rw [OrdMap.hasAt_iff]
    exact ExtTreeSet.contains_iff_mem
  rw [this, OrdMap.hasAt_touch]
  rfl

/-- The query leaves its first node behind. -/
theorem dependsOn_snd (g : DependenceGraph V) (a b : V) : (g.dependsOn a b).2 = g.addNode a := rfl

theorem getDependants_ok {g : DependenceGraph V} {a : V} {s : OrdSet V} :
    g.getDependants a = .ok s ↔ g.nodes[a]? = some s := OrdMap.at_ok

theorem getDependants_error {g : DependenceGraph V} {a : V} {e : Fault} :
    g.getDependants a = .error e ↔ ¬ g.IsNode a ∧ e = .outOfRange := OrdMap.at_error

theorem edge_iff_mem {g : DependenceGraph V} {a b : V} {s : OrdSet V} (h : g.nodes[a]? = some s) :
    g.Edge a b ↔ b ∈ s := by
  simp [Edge, OrdMap.HasAt, h]

theorem deps_eq {g : DependenceGraph V} {a : V} {s : OrdSet V} (h : g.nodes[a]? = some s) :
    g.deps a = s.toList := by
  simp [deps, h]

/-! ## Graphs built by loops -/

theorem foldl_isNode {ι : Type} {f : DependenceGraph V → ι → DependenceGraph V} {Q : ι → Prop}
    {v : V} (h : ∀ g i, (f g i).IsNode v ↔ g.IsNode v ∨ Q i) (l : List ι)
    (g : DependenceGraph V) : (l.foldl f g).IsNode v ↔ g.IsNode v ∨ ∃ i ∈ l, Q i :=
  foldl_iff (P := fun g : DependenceGraph V => g.IsNode v) h l g

theorem foldl_edge {ι : Type} {f : DependenceGraph V → ι → DependenceGraph V} {Q : ι → Prop}
    {a b : V} (h : ∀ g i, (f g i).Edge a b ↔ g.Edge a b ∨ Q i) (l : List ι)
    (g : DependenceGraph V) : (l.foldl f g).Edge a b ↔ g.Edge a b ∨ ∃ i ∈ l, Q i :=
  foldl_iff (P := fun g : DependenceGraph V => g.Edge a b) h l g

/-- `addNode` for each of `l`. -/
def addNodes (g : DependenceGraph V) (l : List V) : DependenceGraph V :=
  l.foldl (fun g v => g.addNode v) g

@[simp] theorem addNodes_isNode (g : DependenceGraph V) (l : List V) (v : V) :
    (g.addNodes l).IsNode v ↔ g.IsNode v ∨ v ∈ l := by
  unfold addNodes
  rw [foldl_isNode fun g a => addNode_isNode g a v]
  simp

@[simp] theorem addNodes_edge (g : DependenceGraph V) (l : List V) (a b : V) :
    (g.addNodes l).Edge a b ↔ g.Edge a b := by
  unfold addNodes
  rw [foldl_edge (Q := fun _ => False) fun g v => by simp]
  simp

/-- `g'` is `g` with the edges of `R`. -/
structure Adds (g g' : DependenceGraph V) (R : V → V → Prop) : Prop where
  isNode : ∀ v, g'.IsNode v ↔ g.IsNode v ∨ ∃ w, R v w
  edge : ∀ a b, g'.Edge a b ↔ g.Edge a b ∨ R a b

theorem adds_refl (g : DependenceGraph V) : Adds g g fun _ _ => False := ⟨by simp, by simp⟩

theorem adds_addEdge (g : DependenceGraph V) (src dst : V) :
    Adds g (g.addEdge src dst) fun a b => a = src ∧ b = dst := ⟨by simp, by simp⟩

theorem Adds.congr {g g' : DependenceGraph V} {R R' : V → V → Prop} (h : Adds g g' R)
    (hR : ∀ a b, R a b ↔ R' a b) : Adds g g' R' := by
  obtain rfl : R = R' := by
    ext a b
    exact hR a b
  exact h

theorem Adds.trans {g g' g'' : DependenceGraph V} {R S : V → V → Prop} (h : Adds g g' R)
    (h' : Adds g' g'' S) : Adds g g'' fun a b => R a b ∨ S a b := by
  refine ⟨fun v => ?_, fun a b => ?_⟩
  · rw [h'.isNode, h.isNode, exists_or, or_assoc]
  · rw [h'.edge, h.edge, or_assoc]

theorem foldl_adds {ι : Type} {f : DependenceGraph V → ι → DependenceGraph V}
    {R : ι → V → V → Prop} (h : ∀ g i, Adds g (f g i) (R i)) (l : List ι)
    (g : DependenceGraph V) : Adds g (l.foldl f g) fun a b => ∃ i ∈ l, R i a b := by
  refine ⟨fun v => ?_, fun a b => foldl_edge (fun g i => (h g i).edge a b) l g⟩
  rw [foldl_isNode fun g i => (h g i).isNode v]
  simp only [← exists_and_left, exists_comm (α := V)]

theorem foldlM_adds {ι : Type} {f : DependenceGraph V → ι → Except Fault (DependenceGraph V)}
    {R : ι → V → V → Prop} {l : List ι}
    (h : ∀ i ∈ l, ∀ g, ∃ g', f g i = .ok g' ∧ Adds g g' (R i)) (g : DependenceGraph V) :
    ∃ g', l.foldlM f g = .ok g' ∧ Adds g g' fun a b => ∃ i ∈ l, R i a b := by
  refine foldlM_total (P := fun (done : List ι) g' => Adds g g' fun a b => ∃ i ∈ done, R i a b) ?_
    ((adds_refl g).congr (by simp))
  intro done i rest g₁ hl hg
  obtain ⟨g₂, hok, hg'⟩ := h i (by simp [hl]) g₁
  refine ⟨g₂, hok, (hg.trans hg').congr fun a b => ?_⟩
  simp [or_and_right, exists_or]

end DependenceGraph

end IcsaDswp
