import IcsaDswp.Function
import IcsaDswp.GraphUtils

/-!
# The control dependence graph

`pass/src/CDG.cpp`: a bottom-up traversal of the post-dominator tree computes the post-dominance
frontier of each block, which reversed is the graph. A frontier map has the type of a
`DependenceGraph`'s `Nodes`, so it is one here. `getPostDomFrontier_spec` shows that the frontier of
`x` is what `x` is control dependent on, by the frontier equation of `Lib.PostDom`.
-/

namespace IcsaDswp

open Lib

namespace ControlDependenceGraphPass

variable {BB : Type}

/-! ## The code -/

/-- The loop of `getBottomUpTraversal`; both stacks have their top in front. -/
def traverse (parents result : List (DomTreeNode BB)) : List (DomTreeNode BB) :=
  match parents with
  | [] => result
  | current :: parents =>
    let result := if current.block.isSome then current :: result else result
    traverse (current.children.reverse ++ parents) result
termination_by (parents.flatMap DomTreeNode.visit).length
decreasing_by simp [DomTreeNode.visit_eq current]

/-- The nodes with a block, children on top of their parents. -/
def getBottomUpTraversal (pdt : PostDominatorTree BB) : List (DomTreeNode BB) :=
  traverse [pdt.root] []

section Code

variable [LinearOrder BB]

/-- `pdt.getNode(bb)->getIDom() == current`. Pointers to nodes are compared by the nodes' blocks. -/
def hasIDom (pdt : PostDominatorTree BB) (bb : BB) (current : DomTreeNode BB) :
    Except Fault Bool :=
  match pdt.getNode bb with
  | none => .error .nullDeref
  | some n => .ok ((pdt.getIDom n).map DomTreeNode.block = some current.block)

/-- Insert into the frontier of `currentBB` each of `bbs` that `current` does not immediately
post-dominate. -/
def insertUnlessIDom (pdt : PostDominatorTree BB) (current : DomTreeNode BB) (currentBB : BB)
    (bbs : List BB) (result : DependenceGraph BB) : Except Fault (DependenceGraph BB) :=
  bbs.foldlM (fun result bb => do
    if ← hasIDom pdt bb current then pure result else pure (result.addEdge currentBB bb)) result

/-- One turn of the loop over the children: the frontier of a child, filtered. -/
def childStep (pdt : PostDominatorTree BB) (current : DomTreeNode BB) (currentBB : BB)
    (result : DependenceGraph BB) (child : DomTreeNode BB) : Except Fault (DependenceGraph BB) :=
  match child.block with
  | none => .error .nullDeref
  | some childBlock =>
    let result := result.addNode childBlock
    insertUnlessIDom pdt current currentBB (result.deps childBlock) result

/-- One turn of the loop over the traversal. -/
def frontierStep (G : Cfg BB) (pdt : PostDominatorTree BB) (result : DependenceGraph BB)
    (current : DomTreeNode BB) : Except Fault (DependenceGraph BB) :=
  match current.block with
  | none => .error .nullDeref
  | some currentBB => do
    let result := result.addNode currentBB
    let result ← insertUnlessIDom pdt current currentBB (G.preds currentBB) result
    current.children.foldlM (childStep pdt current currentBB) result

/-- The post-dominance frontier, a map from blocks to sets of blocks. -/
def getPostDomFrontier (G : Cfg BB) (pdt : PostDominatorTree BB)
    (bottomUp : List (DomTreeNode BB)) : Except Fault (DependenceGraph BB) :=
  bottomUp.foldlM (frontierStep G pdt) .empty

/-- Reverse the post-dominance frontier and store it in the graph of the pass. -/
def runOnFunction (G : Cfg BB) (pdt : PostDominatorTree BB) (CDG : DependenceGraph BB) :
    Except Fault (DependenceGraph BB) := do
  let postDomFrontier ← getPostDomFrontier G pdt (getBottomUpTraversal pdt)
  pure (GraphUtils.addReversed postDomFrontier CDG)

end Code

/-! ## The traversal -/

theorem traverse_eq (parents result : List (DomTreeNode BB)) :
    traverse parents result =
      ((parents.flatMap DomTreeNode.visit).filter fun n => n.block.isSome).reverse ++ result := by
  fun_induction traverse parents result with
  | case1 result => simp
  | case2 result current parents result' ih =>
    rw [ih, List.flatMap_cons, DomTreeNode.visit_eq current]
    simp only [List.flatMap_append, List.cons_append, List.filter_cons]
    unfold result'
    split <;> simp

theorem getBottomUpTraversal_eq (pdt : PostDominatorTree BB) :
    getBottomUpTraversal pdt = (pdt.root.visit.filter fun n => n.block.isSome).reverse := by
  simp [getBottomUpTraversal, traverse_eq]

theorem mem_bottomUp {pdt : PostDominatorTree BB} {n : DomTreeNode BB} :
    n ∈ getBottomUpTraversal pdt ↔ n ∈ pdt.root.visit ∧ ∃ x, n.block = some x := by
  simp [getBottomUpTraversal_eq, Option.isSome_iff_exists]

section Frontier

variable {G : Cfg BB} {pdt : PostDominatorTree BB}

/-- The traversal meets a node after its children, and no block twice. -/
theorem bottomUp_step (hpdt : pdt.Correct G) {done rest : List (DomTreeNode BB)}
    {n : DomTreeNode BB} (hl : getBottomUpTraversal pdt = done ++ n :: rest) :
    (∀ c ∈ n.children, c ∈ done) ∧ ∀ m ∈ done, m.block ≠ n.block := by
  have hn : n ∈ pdt.root.visit := (mem_bottomUp.mp (by simp [hl])).1
  have hrev : (pdt.root.visit.filter fun n => n.block.isSome) =
      rest.reverse ++ n :: done.reverse := by
    rw [getBottomUpTraversal_eq] at hl
    simpa using congrArg List.reverse hl
  constructor
  · intro c hc
    obtain ⟨before, after, hvisit, hbefore, hafter⟩ := List.filter_eq_append_iff.mp hrev
    obtain ⟨skip, after', rfl, hskip, -, hdone⟩ := List.filter_eq_cons_iff.mp hafter
    have hc' : c ∈ after' := DomTreeNode.visit_parentsFirst pdt.root (before ++ skip) n after'
      (by simpa using hvisit) c hc
    have hb : c.block.isSome := by
      obtain ⟨b, hb⟩ := hpdt.child_block hn hc
      simp [hb]
    have : c ∈ after'.filter fun n => n.block.isSome := List.mem_filter.mpr ⟨hc', hb⟩
    rw [hdone] at this
    simpa using this
  · intro m hm he
    have hnd : ((rest.reverse ++ n :: done.reverse).map DomTreeNode.block).Nodup := by
      rw [← hrev]
      exact hpdt.nodup.sublist (List.filter_sublist.map _)
    rw [List.map_append, List.map_cons] at hnd
    have := (List.nodup_cons.mp (List.nodup_append.mp hnd).2.1).1
    exact this (List.mem_map.mpr ⟨m, by simpa using hm, he⟩)

/-! ## The frontier -/

variable [LinearOrder BB]

/-- `result'` is `result` with the blocks in `Q` inserted in the frontier of `x`. -/
structure Inserts (result result' : DependenceGraph BB) (x : BB) (Q : BB → Prop) : Prop where
  isNode : ∀ v, result'.IsNode v ↔ result.IsNode v
  edge : ∀ a b, result'.Edge a b ↔ result.Edge a b ∨ a = x ∧ Q b

theorem hasIDom_eq (hpdt : pdt.Correct G) {n : DomTreeNode BB} (hn : n ∈ pdt.root.visit) {x y : BB}
    (hx : n.block = some x) (hy : G.ReachesExit y) :
    ∃ i, hasIDom pdt y n = .ok i ∧ (i ↔ G.IPostDom x y) := by
  obtain ⟨m, hm, hmy⟩ := hpdt.exists_node hy
  refine ⟨_, by rw [hasIDom, hpdt.getNode_eq hm hmy], ?_⟩
  rw [decide_eq_true_iff, hx]
  exact hpdt.getIDom_iff hn hm hx hmy

theorem insertUnlessIDom_spec (hpdt : pdt.Correct G) {n : DomTreeNode BB}
    (hn : n ∈ pdt.root.visit) {x : BB} (hx : n.block = some x) (bbs : List BB)
    (result : DependenceGraph BB) (hbbs : ∀ y ∈ bbs, G.ReachesExit y) (hr : result.IsNode x) :
    ∃ result', insertUnlessIDom pdt n x bbs result = .ok result' ∧
      Inserts result result' x fun y => y ∈ bbs ∧ ¬ G.IPostDom x y := by
  obtain ⟨result', hok, h⟩ := foldlM_total
    (f := fun (result : DependenceGraph BB) bb => do
      if ← hasIDom pdt bb n then pure result else pure (result.addEdge x bb))
    (P := fun done result' => Inserts result result' x fun y => y ∈ done ∧ ¬ G.IPostDom x y)
    (l := bbs) (s := result) (fun done y rest r hl h => by
      obtain ⟨i, hi, hiff⟩ := hasIDom_eq hpdt hn hx (hbbs y (by simp [hl]))
      refine ⟨if i then r else r.addEdge x y, by rw [hi]; cases i <;> rfl, ?_⟩
      cases i with
      | true =>
        refine ⟨h.isNode, fun a b => ?_⟩
        have hy : G.IPostDom x y := hiff.mp rfl
        rw [if_pos rfl, h.edge]
        simp only [List.mem_append, List.mem_singleton]
        grind
      | false =>
        have hy : ¬ G.IPostDom x y := fun hy => Bool.false_ne_true (hiff.mpr hy)
        refine ⟨fun v => ?_, fun a b => ?_⟩
        · have := h.isNode v
          simp only [Bool.false_eq_true, if_false, DependenceGraph.addEdge_isNode]
          grind
        · simp only [Bool.false_eq_true, if_false, DependenceGraph.addEdge_edge, h.edge,
            List.mem_append, List.mem_singleton]
          grind)
    ⟨fun v => Iff.rfl, by simp⟩
  exact ⟨result', hok, h⟩

theorem childStep_spec (hpdt : pdt.Correct G) {n c : DomTreeNode BB}
    (hn : n ∈ pdt.root.visit) {x z : BB} (hx : n.block = some x) (hz : c.block = some z)
    {result : DependenceGraph BB} (hr : result.IsNode x) (hrz : result.IsNode z)
    (hreach : ∀ y, result.Edge z y → G.ReachesExit y) :
    ∃ result', childStep pdt n x result c = .ok result' ∧
      Inserts result result' x fun y => result.Edge z y ∧ ¬ G.IPostDom x y := by
  obtain ⟨result', hok, h⟩ := insertUnlessIDom_spec hpdt hn hx
    ((result.addNode z).deps z) (result.addNode z)
    (fun y hy => hreach y (by simpa [DependenceGraph.mem_deps] using hy)) (by simp [hr])
  refine ⟨result', by rw [childStep, hz]; exact hok, fun v => ?_, fun a b => ?_⟩
  · rw [h.isNode, DependenceGraph.addNode_isNode]
    grind
  · simp [h.edge, DependenceGraph.mem_deps]

/-- What the loop over the traversal keeps: the frontiers of the blocks it has met are complete. -/
structure FrontierInv (G : Cfg BB) (done : List (DomTreeNode BB)) (result : DependenceGraph BB) :
    Prop where
  isNode : ∀ b, result.IsNode b ↔ ∃ n ∈ done, n.block = some b
  edge : ∀ n ∈ done, ∀ x, n.block = some x → ∀ y, result.Edge x y ↔ G.CtrlDep y x

/-- The loop over the children of the node of `x` leaves the frontiers of other blocks alone. -/
theorem children_spec (hpdt : pdt.Correct G) {n : DomTreeNode BB} (hn : n ∈ pdt.root.visit) {x : BB}
    (hx : n.block = some x) {result : DependenceGraph BB} (hr : result.IsNode x)
    (hchild : ∀ c ∈ n.children, ∀ z, c.block = some z → z ≠ x ∧ result.IsNode z ∧
      ∀ y, result.Edge z y ↔ G.CtrlDep y z) :
    ∃ result', n.children.foldlM (childStep pdt n x) result = .ok result' ∧
      Inserts result result' x fun y =>
        ∃ c ∈ n.children, ∃ z, c.block = some z ∧ G.CtrlDep y z ∧ ¬ G.IPostDom x y := by
  refine foldlM_total (P := fun (done : List (DomTreeNode BB)) result' =>
    Inserts result result' x fun y =>
      ∃ c ∈ done, ∃ z, c.block = some z ∧ G.CtrlDep y z ∧ ¬ G.IPostDom x y) ?_
    ⟨fun v => Iff.rfl, by simp⟩
  intro done c rest r hl h
  have hc : c ∈ n.children := by simp [hl]
  obtain ⟨z, hz⟩ := hpdt.child_block hn hc
  obtain ⟨hzx, hzn, hze⟩ := hchild c hc z hz
  have hrow : ∀ y, r.Edge z y ↔ G.CtrlDep y z := fun y => by
    rw [h.edge, hze]
    simp [hzx]
  obtain ⟨r', hok, h'⟩ := childStep_spec hpdt hn hx hz ((h.isNode x).mpr hr)
    ((h.isNode z).mpr hzn) fun y hy => ((hrow y).mp hy).reachesExit.1
  refine ⟨r', hok, fun v => (h'.isNode v).trans (h.isNode v), fun a b => ?_⟩
  rw [h'.edge, h.edge, hrow]
  simp only [List.mem_append, List.mem_singleton]
  constructor
  · rintro ((he | ⟨ha, c', hc', hcd⟩) | ⟨ha, hcd⟩)
    · exact .inl he
    · exact .inr ⟨ha, c', .inl hc', hcd⟩
    · exact .inr ⟨ha, c, .inr rfl, z, hz, hcd⟩
  · rintro (he | ⟨ha, c', hc' | rfl, z', hz', hcd⟩)
    · exact .inl (.inl he)
    · exact .inl (.inr ⟨ha, c', hc', z', hz', hcd⟩)
    · obtain rfl : z = z' := by simpa using hz.symm.trans hz'
      exact .inr ⟨ha, hcd⟩

omit [LinearOrder BB] in
/-- The frontier equation on the tree: the children of a node are the blocks it immediately
post-dominates. -/
theorem ctrlDep_iff_children (hpdt : pdt.Correct G) {n : DomTreeNode BB} (hn : n ∈ pdt.root.visit)
    {x y : BB} (hx : n.block = some x) :
    G.CtrlDep y x ↔ (G.Edge y x ∧ ¬ G.IPostDom x y) ∨
      ∃ c ∈ n.children, ∃ z, c.block = some z ∧ G.CtrlDep y z ∧ ¬ G.IPostDom x y := by
  rw [show G.CtrlDep y x ↔ _ from ctrlDep_iff (hpdt.reachesExit hn hx)]
  refine or_congr_right ⟨?_, ?_⟩
  · rintro ⟨z, hi, hcd⟩
    obtain ⟨c, hc, hz⟩ := hpdt.exists_child hn hx hi hcd.1.reachesExit.2
    exact ⟨c, hc, z, hz, hcd⟩
  · rintro ⟨c, hc, z, hz, hcd⟩
    obtain ⟨z', hz', hi⟩ := hpdt.child n hn c hc x hx
    obtain rfl : z = z' := by simpa using hz.symm.trans hz'
    exact ⟨z, hi, hcd⟩

/-- One turn of the loop completes one more frontier. -/
theorem frontierStep_spec (hpdt : pdt.Correct G) {done rest : List (DomTreeNode BB)}
    {n : DomTreeNode BB} (hl : getBottomUpTraversal pdt = done ++ n :: rest)
    {result : DependenceGraph BB} (h : FrontierInv G done result) :
    ∃ result', frontierStep G pdt result n = .ok result' ∧
      FrontierInv G (done ++ [n]) result' := by
  obtain ⟨hn, x, hx⟩ := mem_bottomUp.mp (show n ∈ getBottomUpTraversal pdt by simp [hl])
  obtain ⟨hchildren, hfresh⟩ := bottomUp_step hpdt hl
  have hreach : G.ReachesExit x := hpdt.reachesExit hn hx
  have hxnew : ¬ result.IsNode x := fun hxr => by
    obtain ⟨m, hm, hmx⟩ := (h.isNode x).mp hxr
    exact hfresh m hm (hmx.trans hx.symm)
  obtain ⟨r₁, hok₁, h₁⟩ := insertUnlessIDom_spec hpdt hn hx (G.preds x) (result.addNode x)
    (fun y hy => hreach.step (Cfg.mem_preds.mp hy)) (by simp)
  have hchild : ∀ c ∈ n.children, ∀ z, c.block = some z → z ≠ x ∧ r₁.IsNode z ∧
      ∀ y, r₁.Edge z y ↔ G.CtrlDep y z := by
    intro c hc z hz
    have hzx : z ≠ x := by
      rintro rfl
      exact hfresh c (hchildren c hc) (hz.trans hx.symm)
    refine ⟨hzx, ?_, fun y => ?_⟩
    · rw [h₁.isNode, DependenceGraph.addNode_isNode]
      exact .inl ((h.isNode z).mpr ⟨c, hchildren c hc, hz⟩)
    · rw [h₁.edge, DependenceGraph.addNode_edge, h.edge c (hchildren c hc) z hz]
      simp [hzx]
  obtain ⟨r₂, hok₂, h₂⟩ := children_spec hpdt hn hx
    ((h₁.isNode x).mpr (by simp)) hchild
  refine ⟨r₂, by rw [frontierStep, hx]; exact bind_ok.mpr ⟨r₁, hok₁, hok₂⟩, fun b => ?_, ?_⟩
  · rw [h₂.isNode, h₁.isNode, DependenceGraph.addNode_isNode, h.isNode]
    simp only [List.mem_append, List.mem_singleton]
    constructor
    · rintro (⟨m, hm, hb⟩ | rfl)
      · exact ⟨m, .inl hm, hb⟩
      · exact ⟨n, .inr rfl, hx⟩
    · rintro ⟨m, hm | rfl, hb⟩
      · exact .inl ⟨m, hm, hb⟩
      · exact .inr (by simpa using hb.symm.trans hx)
  · intro m hm a ha y
    rw [h₂.edge, h₁.edge, DependenceGraph.addNode_edge]
    rcases List.mem_append.mp hm with hm | hm
    · have hax : a ≠ x := by
        rintro rfl
        exact hfresh m hm (ha.trans hx.symm)
      rw [h.edge m hm a ha]
      simp [hax]
    · obtain rfl := List.mem_singleton.mp hm
      obtain rfl : a = x := by simpa using ha.symm.trans hx
      have hnone : ¬ result.Edge a y := fun he => hxnew he.isNode
      rw [ctrlDep_iff_children hpdt hn hx, Cfg.mem_preds]
      simp [hnone]

/-- **The frontier of a block** holds what it is control dependent on. -/
theorem getPostDomFrontier_spec (hpdt : pdt.Correct G) :
    ∃ result, getPostDomFrontier G pdt (getBottomUpTraversal pdt) = .ok result ∧
      (∀ b, result.IsNode b ↔ G.ReachesExit b) ∧ ∀ x y, result.Edge x y ↔ G.CtrlDep y x := by
  obtain ⟨result, hok, h⟩ := foldlM_total (P := FrontierInv G)
    (fun done n rest r hl h => frontierStep_spec hpdt hl h) (s := .empty)
    ⟨by simp, by simp⟩
  have hnode : ∀ b, result.IsNode b ↔ G.ReachesExit b := fun b => by
    rw [h.isNode]
    constructor
    · rintro ⟨n, hn, hb⟩
      exact hpdt.reachesExit (mem_bottomUp.mp hn).1 hb
    · intro hb
      obtain ⟨n, hn, hnb⟩ := hpdt.exists_node hb
      exact ⟨n, mem_bottomUp.mpr ⟨hn, b, hnb⟩, hnb⟩
  refine ⟨result, hok, hnode, fun x y => ⟨fun he => ?_, fun hcd => ?_⟩⟩
  · obtain ⟨n, hn, hx⟩ := (h.isNode x).mp he.isNode
    exact (h.edge n hn x hx y).mp he
  · obtain ⟨n, hn, hx⟩ := (h.isNode x).mp ((hnode x).mpr hcd.reachesExit.2)
    exact (h.edge n hn x hx y).mpr hcd

/-- The pass completes, and what its graph holds. -/
theorem runOnFunction_spec (hpdt : pdt.Correct G) :
    ∃ CDG, runOnFunction G pdt .empty = .ok CDG ∧ (∀ b, CDG.IsNode b ↔ G.ReachesExit b) ∧
      ∀ y x, CDG.Edge y x ↔ G.CtrlDep y x := by
  obtain ⟨result, hok, hnode, hedge⟩ := getPostDomFrontier_spec hpdt
  refine ⟨_, by rw [runOnFunction, hok]; rfl, fun b => ?_, fun y x => ?_⟩
  · rw [GraphUtils.addReversed_isNode]
    simp only [DependenceGraph.empty_isNode, false_or, hnode, hedge, or_iff_left_iff_imp]
    rintro ⟨a, ha⟩
    exact ha.reachesExit.1
  · rw [GraphUtils.addReversed_edge]
    simp [hedge]

/-- **The control dependence graph**: no lookup in the tree fails, the nodes are the blocks that can
reach an exit, and `y` has an edge to `x` when some successor of `y` is post-dominated by `x` but
`y` is not, strictly. -/
theorem runOnFunction_correct (hpdt : pdt.Correct G) :
    ∃ CDG, runOnFunction G pdt .empty = .ok CDG ∧ (∀ b, CDG.IsNode b ↔ G.ReachesExit b) ∧
      ∀ y x, CDG.Edge y x ↔
        ∃ z, G.Edge y z ∧ G.ReachesExit z ∧ G.PostDom x z ∧ ¬ G.SPostDom x y :=
  runOnFunction_spec hpdt

end Frontier

/-- Two exits (3 and 5), a self-loop at 1, an infinite loop at 4, and 6 without predecessor. -/
def sampleCfg : Cfg (Fin 7) where
  blocks := List.finRange 7
  succs
    | 0 => [1, 2]
    | 1 => [1, 3]
    | 2 => [4, 5]
    | 4 => [4]
    | 6 => [3]
    | _ => []
  succs_mem _ _ _ _ := List.mem_finRange _

def sampleTree : PostDominatorTree (Fin 7) where
  root := .node none [.node (some 3) [.node (some 1) [], .node (some 6) []],
    .node (some 5) [.node (some 2) []], .node (some 0) []]

theorem runOnFunction_correct_sample :
    sampleTree.Correct sampleCfg ∧
      ∃ CDG, runOnFunction sampleCfg sampleTree .empty = .ok CDG ∧
        (∀ b, CDG.IsNode b ↔ sampleCfg.ReachesExit b) ∧
        ∀ y x, CDG.Edge y x ↔ ∃ z, sampleCfg.Edge y z ∧ sampleCfg.ReachesExit z ∧
          sampleCfg.PostDom x z ∧ ¬ sampleCfg.SPostDom x y :=
  have hpdt : sampleTree.Correct sampleCfg := by decide +kernel
  ⟨hpdt, runOnFunction_correct hpdt⟩

end ControlDependenceGraphPass

end IcsaDswp
