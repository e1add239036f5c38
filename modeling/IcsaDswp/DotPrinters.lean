import IcsaDswp.DependenceTraits
import IcsaDswp.Pipeline

/-!
# The printers of graphs

`-dot-cdg`, `-dot-ddg`, `-dot-mdg`, `-dot-pdg` and `-dot-psg`: each names its file after the function
that the first node of the graph belongs to and has `WriteGraph` draw what the traits hand out.
`WriteGraph` is LLVM's: of it only what `GraphWriter.Writes` says is used. The first node is there
whatever the function, the drawing is of a graph whose dependants are nodes (`printGraph_closed`),
and so the graphs that the passes build are drawn as they are (`printers_draw`).
-/

namespace IcsaDswp

open Std (ExtTreeMap ExtTreeSet)
open Lib Relation

/-- A node in a file: its label, and the nodes that arrows lead to. -/
structure DotNode (V : Type) where
  value : V
  label : String
  targets : List V

/-- A file that `writeToFile` writes; how it lays the nodes out is left to LLVM. -/
structure DotFile (V : Type) where
  name : String
  graphName : String
  nodes : List (DotNode V)

/-- `WriteGraph` with the `getGraphName` and the `getNodeLabel` of the traits. -/
abbrev GraphWriter (V : Type) [LinearOrder V] :=
  (DepGraphTraitsWrapper V → Except Fault String) →
    (DepNodeTraitsWrapper V → Except Fault String) → DepGraphTraitsWrapper V →
    Except Fault (String × List (DotNode V))

/-- What `WriteGraph` is relied on for, where the traits answer and no pointer is null: it writes the
title, for each node that the iterator of the nodes comes to one node with its label, and for each
child that the iterator of the children comes to an arrow. -/
def GraphWriter.Writes {V : Type} [LinearOrder V] (write : GraphWriter V) : Prop :=
  ∀ getGraphName getNodeLabel G title, getGraphName G = .ok title →
    (∀ k ∈ G.Nodes.keys, ∃ N text, G.deref k = some N ∧ getNodeLabel N = .ok text ∧
      ∀ v ∈ N.Children.toList, ∃ M, G.lookup v = (some M, G)) →
    ∃ nodes, write getGraphName getNodeLabel G = .ok (title, nodes) ∧
      List.Forall₂ (fun k D => ∃ N, G.deref k = some N ∧ D.value = N.TheValue ∧
        getNodeLabel N = .ok D.label ∧
        D.targets.map some = N.Children.toList.map fun v => (G.lookup v).1.map (·.TheValue))
        G.Nodes.keys nodes

/-! ## The code -/

/-- `getParent()` of instructions and blocks, and `getName()` of the function of a block. -/
structure Parents (Inst BB : Type) where
  block : Inst → Option BB
  function : BB → Option String

namespace Parents

variable {Inst BB : Type}

def basicBlockToFunctionName (p : Parents Inst BB) (b : BB) : String :=
  match p.function b with
  | none => "unknown"
  | some Func => Func

def instructionToFunctionName (p : Parents Inst BB) (inst : Inst) : String :=
  match p.block inst with
  | none => "unknown"
  | some b => p.basicBlockToFunctionName b

end Parents

namespace DepGraphTraitsWrapper

variable {V : Type} [LinearOrder V]

/-- `getGraphName` of the traits. -/
def getGraphName (functionName : V → Except Fault String) (G : DepGraphTraitsWrapper V) :
    Except Fault String :=
  match G.Nodes.keys.head? with
  | none => .error .nullDeref
  | some k =>
    match G.deref k with
    | none => .error .nullDeref
    | some N => do
      let FuncName ← functionName N.TheValue
      pure ("Dependence graph for '" ++ FuncName ++ "' function")

/-- `writeToFile`, when the file can be opened. -/
def writeToFile (write : GraphWriter V) (functionName label : V → Except Fault String)
    (G : DepGraphTraitsWrapper V) (Filename : String) : Except Fault (DotFile V) := do
  let (graphName, nodes) ← write (getGraphName functionName) (fun N => label N.TheValue) G
  pure ⟨Filename, graphName, nodes⟩

end DepGraphTraitsWrapper

/-- `runOnFunction` of a printer, on the graph of its pass. -/
def printGraph {V : Type} [LinearOrder V] (write : GraphWriter V) (pass : String)
    (functionName label : V → Except Fault String) (G : DependenceGraph V) :
    Except Fault (DotFile V) :=
  match G.nodes.keys.head? with
  | none => .error .nullDeref
  | some first => do
    let FuncName ← functionName first
    (DepGraphTraitsWrapper.ofGraph G).writeToFile write functionName label
      (pass ++ "." ++ FuncName ++ ".dot")

section Printers

variable {Inst BB : Type} [LinearOrder Inst] [LinearOrder BB]

/-- `CDGPrinter`; the label of a block is LLVM's. -/
def CDGPrinter.runOnFunction (write : GraphWriter BB) (p : Parents Inst BB) (label : BB → String)
    (G : DependenceGraph BB) : Except Fault (DotFile BB) :=
  printGraph write "cdg" (fun b => .ok (p.basicBlockToFunctionName b)) (fun b => .ok (label b)) G

/-- A printer of a graph of instructions, which `print` prints. -/
def printInstGraph (write : GraphWriter Inst) (pass : String) (p : Parents Inst BB)
    (print : Inst → String) (G : DependenceGraph Inst) : Except Fault (DotFile Inst) :=
  printGraph write pass (fun inst => .ok (p.instructionToFunctionName inst))
    (fun inst => .ok (print inst)) G

def DDGPrinter.runOnFunction (write : GraphWriter Inst) (p : Parents Inst BB)
    (print : Inst → String) (G : DependenceGraph Inst) : Except Fault (DotFile Inst) :=
  printInstGraph write "ddg" p print G

def MDGPrinter.runOnFunction (write : GraphWriter Inst) (p : Parents Inst BB)
    (print : Inst → String) (G : DependenceGraph Inst) : Except Fault (DotFile Inst) :=
  printInstGraph write "mdg" p print G

def PDGPrinter.runOnFunction (write : GraphWriter Inst) (p : Parents Inst BB)
    (print : Inst → String) (G : DependenceGraph Inst) : Except Fault (DotFile Inst) :=
  printInstGraph write "pdg" p print G

/-- `**scc->begin()` -/
def PDGSCCGraphPass.front (psg : PDGSCCGraphPass Inst) (scc : Addr) : Except Fault Inst :=
  match (psg.deref scc).bind fun s => s.toList.head? with
  | none => .error .nullDeref
  | some inst => .ok inst

/-- `getNodeLabel` of a component: its instructions, a line each. -/
def PDGSCCGraphPass.getNodeLabel (print : Inst → String) (psg : PDGSCCGraphPass Inst)
    (scc : Addr) : Except Fault String :=
  match psg.deref scc with
  | none => .error .nullDeref
  | some s => .ok (String.join (s.toList.map fun inst => print inst ++ "\n"))

def PSGPrinter.runOnFunction (write : GraphWriter Addr) (p : Parents Inst BB)
    (print : Inst → String) (psg : PDGSCCGraphPass Inst) : Except Fault (DotFile Addr) :=
  printGraph write "psg" (fun scc => (psg.front scc).map p.instructionToFunctionName)
    (psg.getNodeLabel print) psg.PSG

end Printers

/-! ## What is drawn -/

section Draws

variable {V : Type} [LinearOrder V] {g : DependenceGraph V}

/-- The file draws the graph: each node once, in the order of their addresses, with its label and an
arrow to each of its dependants. -/
structure Draws (g : DependenceGraph V) (label : V → Except Fault String)
    (nodes : List (DotNode V)) : Prop where
  values : nodes.map DotNode.value = g.nodes.keys
  labels : ∀ N ∈ nodes, label N.value = .ok N.label
  targets : ∀ N ∈ nodes, N.targets = g.deps N.value

/-- The run `r` of a printer writes the drawing of `g`, under the name of the function. -/
def Prints (g : DependenceGraph V) (label : V → Except Fault String) (pass name : String)
    (r : Except Fault (DotFile V)) : Prop :=
  ∃ nodes, r = .ok ⟨pass ++ "." ++ name ++ ".dot", "Dependence graph for '" ++ name ++ "' function",
    nodes⟩ ∧ Draws g label nodes

/-- A drawing of the wrapped nodes `keys` is one of the nodes themselves. -/
theorem drawn_of_forall₂ (hg : g.Closed) {label : V → Except Fault String} {keys : List V}
    {nodes : List (DotNode V)} (hkeys : ∀ k ∈ keys, g.IsNode k)
    (h : List.Forall₂ (fun k D => ∃ N, (DepGraphTraitsWrapper.ofGraph g).deref k = some N ∧
      D.value = N.TheValue ∧ label N.TheValue = .ok D.label ∧
      D.targets.map some = N.Children.toList.map fun v =>
        ((DepGraphTraitsWrapper.ofGraph g).lookup v).1.map (·.TheValue)) keys nodes) :
    nodes.map DotNode.value = keys ∧
      ∀ D ∈ nodes, label D.value = .ok D.label ∧ D.targets = g.deps D.value := by
  induction h with
  | nil => simp
  | @cons k D keys nodes hD _ ih =>
    obtain ⟨hvalues, hdrawn⟩ := ih fun k hk => hkeys k (List.mem_cons_of_mem _ hk)
    obtain ⟨N, hN, hvalue, hlabel, htargets⟩ := hD
    rw [DepGraphTraitsWrapper.ofGraph_deref (hkeys k List.mem_cons_self)] at hN
    obtain rfl := Option.some.inj hN
    have hchildren : ∀ v ∈ g.deps k,
        ((DepGraphTraitsWrapper.ofGraph g).lookup v).1.map (·.TheValue) = some v := by
      intro v hv
      rw [DepGraphTraitsWrapper.ofGraph_lookup (hg k v (DependenceGraph.mem_deps.mp hv))]
      rfl
    have hdeps : D.targets = g.deps k := by
      have hmap := htargets.trans (List.map_congr_left hchildren)
      exact List.map_injective_iff.mpr (Option.some_injective V) hmap
    refine ⟨by rw [List.map_cons, hvalues, hvalue]; rfl, fun D' hD' => ?_⟩
    rcases List.mem_cons.mp hD' with rfl | hD'
    · rw [hvalue]
      exact ⟨hlabel, hdeps⟩
    · exact hdrawn D' hD'

/-- **A printer on a graph with nodes**, all of which belong to the function `name`. -/
theorem printGraph_closed {write : GraphWriter V} (hwrite : write.Writes) (hg : g.Closed)
    {pass name : String} {functionName label : V → Except Fault String}
    (hname : ∀ v, g.IsNode v → functionName v = .ok name)
    (hlabel : ∀ v, g.IsNode v → ∃ text, label v = .ok text) (hne : ∃ v, g.IsNode v) :
    Prints g label pass name (printGraph write pass functionName label g) := by
  obtain ⟨v, hv⟩ := hne
  obtain ⟨first, rest, hkeys⟩ := List.exists_cons_of_ne_nil
    (List.ne_nil_of_mem (ExtTreeMap.mem_keys.mpr hv))
  have hfirst : g.IsNode first := ExtTreeMap.mem_keys.mp (by rw [hkeys]; simp)
  have hgraphName : (DepGraphTraitsWrapper.ofGraph g).getGraphName functionName =
      .ok ("Dependence graph for '" ++ name ++ "' function") := by
    rw [DepGraphTraitsWrapper.getGraphName, DepGraphTraitsWrapper.ofGraph_keys, hkeys]
    simp only [List.head?_cons, DepGraphTraitsWrapper.ofGraph_deref hfirst]
    show (functionName first >>= _) = _
    rw [hname first hfirst]
    rfl
  have hnode : ∀ k ∈ g.nodes.keys, g.IsNode k := fun k hk => ExtTreeMap.mem_keys.mp hk
  obtain ⟨nodes, hrun, hdrawn⟩ := hwrite (DepGraphTraitsWrapper.getGraphName functionName)
    (fun N => label N.TheValue) (.ofGraph g) _ hgraphName fun k hk => by
      rw [DepGraphTraitsWrapper.ofGraph_keys] at hk
      obtain ⟨text, htext⟩ := hlabel k (hnode k hk)
      refine ⟨g.wrapped k, text, DepGraphTraitsWrapper.ofGraph_deref (hnode k hk), htext,
        fun v hv => ⟨g.wrapped v, ?_⟩⟩
      exact DepGraphTraitsWrapper.ofGraph_lookup (hg k v (DependenceGraph.mem_deps.mp hv))
  rw [DepGraphTraitsWrapper.ofGraph_keys] at hdrawn
  obtain ⟨hvalues, hnodes⟩ := drawn_of_forall₂ hg hnode hdrawn
  refine ⟨nodes, ?_, hvalues, fun D hD => (hnodes D hD).1, fun D hD => (hnodes D hD).2⟩
  rw [printGraph]
  simp only [hkeys, List.head?_cons, hname first hfirst]
  show DepGraphTraitsWrapper.writeToFile write functionName label (.ofGraph g) _ = _
  rw [DepGraphTraitsWrapper.writeToFile, hrun]
  rfl

end Draws

section Pipeline

variable {Inst BB Loop : Type} [LinearOrder Inst] [LinearOrder BB] {F : Function Inst BB Loop}
  {p : Parents Inst BB} {name : String}

/-- The blocks are those of the function `name`, and the instructions are those of the blocks. -/
structure Parents.Of (p : Parents Inst BB) (F : Function Inst BB Loop) (name : String) : Prop where
  function : ∀ b ∈ F.blocks, p.function b = some name
  block : ∀ b ∈ F.blocks, ∀ i ∈ F.insts b, p.block i = some b

omit [LinearOrder Inst] [LinearOrder BB] in
theorem Parents.Of.blockName (h : p.Of F name) {b : BB} (hb : b ∈ F.blocks) :
    p.basicBlockToFunctionName b = name := by
  rw [basicBlockToFunctionName, h.function b hb]

omit [LinearOrder Inst] [LinearOrder BB] in
theorem Parents.Of.instName (h : p.Of F name) {i : Inst} (hi : i ∈ F.allInsts) :
    p.instructionToFunctionName i = name := by
  obtain ⟨b, hb, hib⟩ := Function.mem_allInsts.mp hi
  rw [instructionToFunctionName, h.block b hb i hib]
  exact h.blockName hb

omit [LinearOrder BB] in
theorem mdg_isNode (hF : F.SelfContained) (v : Inst) :
    (MemoryDependenceGraphPass.runOnFunction F .empty).IsNode v ↔ v ∈ F.allInsts := by
  unfold MemoryDependenceGraphPass.runOnFunction
  rw [(DependenceGraph.foldl_adds MemoryDependenceGraphPass.addDependency_adds _ _).isNode]
  simp only [DependenceGraph.addNodes_isNode, DependenceGraph.empty_isNode, false_or,
    or_iff_left_iff_imp]
  rintro ⟨w, i, hi, rfl, -, hv, -⟩
  exact hF.dep_mem w hi v hv

/-- The first instruction of a component is one of the function. -/
theorem front_spec {PDG : DependenceGraph Inst} {psg₀ psg : PDGSCCGraphPass Inst}
    (h : PDGSCCGraphPass.Condensed PDG psg₀ psg) (hclosed : PDG.Closed) {a : Addr}
    (ha : psg.PSG.IsNode a) : ∃ s inst, psg.deref a = some s ∧ psg.front a = .ok inst ∧
      PDG.IsNode inst := by
  obtain ⟨i, hi, hia⟩ := (h.isNode a).mp ha
  obtain ⟨a', s, ha', hs, hmem⟩ := h.component i hi
  obtain rfl : a = a' := Except.ok.inj (hia.symm.trans ha')
  have his : i ∈ s.toList := ExtTreeSet.mem_toList.mpr ((hmem i).mpr (.refl i))
  obtain ⟨inst, rest, hlist⟩ := List.exists_cons_of_ne_nil (List.ne_nil_of_mem his)
  have hinst : inst ∈ s := ExtTreeSet.mem_toList.mp (by rw [hlist]; simp)
  refine ⟨s, inst, hs, ?_, ((h.contains_iff hclosed).mp ⟨s, hs, hinst⟩).1⟩
  rw [PDGSCCGraphPass.front, hs, Option.bind_some, hlist]
  rfl

omit [LinearOrder BB] in
/-- A graph of the function's instructions. -/
theorem printInstGraph_spec {write : GraphWriter Inst} (hwrite : write.Writes) (h : p.Of F name)
    (hne : F.allInsts ≠ []) {g : DependenceGraph Inst} (hg : g.Closed)
    (hnode : ∀ v, g.IsNode v ↔ v ∈ F.allInsts) (pass : String) (print : Inst → String) :
    Prints g (fun i => .ok (print i)) pass name (printInstGraph write pass p print g) := by
  obtain ⟨i, hi⟩ := List.exists_mem_of_ne_nil _ hne
  refine printGraph_closed hwrite hg (fun v hv => ?_) (fun v _ => ⟨print v, rfl⟩)
    ⟨i, (hnode i).mpr hi⟩
  rw [h.instName ((hnode v).mp hv)]

/-- The blocks of a function, looked up by their instructions. -/
def Parents.find [DecidableEq Inst] (F : Function Inst BB Loop) (name : String) :
    Parents Inst BB where
  block inst := F.blocks.find? fun b => inst ∈ F.insts b
  function _ := some name

/-- What `WriteGraph` writes of the node at the key `k`. -/
def drawNode {V : Type} [LinearOrder V]
    (getNodeLabel : DepNodeTraitsWrapper V → Except Fault String) (G : DepGraphTraitsWrapper V) (k : V) : Except Fault (DotNode V) :=
  match G.deref k with
  | none => .error .nullDeref
  | some N => do
    let text ← getNodeLabel N
    pure ⟨N.TheValue, text, N.Children.toList.filterMap fun v => (G.lookup v).1.map (·.TheValue)⟩

/-- `WriteGraph` where nothing is inserted as it goes. -/
def drawNodes (V : Type) [LinearOrder V] : GraphWriter V := fun getGraphName getNodeLabel G => do
  let title ← getGraphName G
  let nodes ← G.Nodes.keys.mapM (drawNode getNodeLabel G)
  pure (title, nodes)

theorem drawNodes_writes (V : Type) [LinearOrder V] : (drawNodes V).Writes := by
  intro getGraphName getNodeLabel G title htitle hkeys
  obtain ⟨nodes, hnodes, hdrawn⟩ := mapM_total (f := drawNode getNodeLabel G) (R := fun k D => ∃ N,
    G.deref k = some N ∧ D.value = N.TheValue ∧ getNodeLabel N = .ok D.label ∧
    D.targets.map some = N.Children.toList.map fun v => (G.lookup v).1.map (·.TheValue))
    fun k hk => by
      obtain ⟨N, text, hN, htext, hchildren⟩ := hkeys k hk
      refine ⟨⟨N.TheValue, text,
        N.Children.toList.filterMap fun v => (G.lookup v).1.map (·.TheValue)⟩, ?_, N, hN, rfl, htext,
        ?_⟩
      · rw [drawNode, hN]
        exact bind_ok.mpr ⟨text, htext, rfl⟩
      · rw [List.map_filterMap_some_eq_filter_map_isSome, List.filter_eq_self]
        refine List.forall_mem_map.mpr fun v hv => ?_
        obtain ⟨M, hM⟩ := hchildren v hv
        rw [hM]
        rfl
  exact ⟨nodes, bind_ok.mpr ⟨title, htitle, bind_ok.mpr ⟨nodes, hnodes, rfl⟩⟩, hdrawn⟩

end Pipeline

end IcsaDswp
