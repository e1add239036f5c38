import IcsaDswp.CDG
import IcsaDswp.DecoupleLoops
import IcsaDswp.PDG

/-!
# The passes one after the other

`getAnalysisUsage` of the passes: `decouple-loops` needs `psg`, which needs `pdg`, which needs `ddg`,
`mdg` and `cdg`. `analyse_spec` composes their specifications: the PDG has the edges of
`Function.Dep`, the PSG is its condensation, and the loops are split along it.
-/

namespace IcsaDswp

open Lib Relation

variable {Inst BB Fn Loop : Type}

/-- The program dependences, with the control dependences of the control-flow graph. -/
def Function.Dep (F : Function Inst BB Loop) : Inst → Inst → Prop := PdgEdge F F.toCfg.CtrlDep

theorem Function.Dep.mem {F : Function Inst BB Loop} (hF : F.SelfContained) {a b : Inst}
    (h : F.Dep a b) : a ∈ F.allInsts ∧ b ∈ F.allInsts :=
  PdgEdge.mem h hF fun _ _ hyx => ⟨Cfg.mem_blocks_of_reachesExit hyx.reachesExit.1,
    Cfg.mem_blocks_of_reachesExit hyx.reachesExit.2⟩

/-- A chain of control dependences between blocks is one of dependences from the terminator of the
first to the instructions of the last. -/
theorem dep_of_ctrlDep {F : Function Inst BB Loop} (hF : F.SelfContained) {S : BB → Prop} {e x : BB}
    (h : TransGen (fun a b => F.toCfg.CtrlDep a b ∧ S a) e x) {t i : Inst} (ht : F.back e = .ok t)
    (hi : i ∈ F.insts x) :
    TransGen (fun a b => F.Dep a b ∧ ∃ y, S y ∧ a ∈ F.insts y) t i := by
  induction h generalizing i with
  | single h => exact .single ⟨.control h.1 ht hi, e, h.2, Function.back_mem ht⟩
  | @tail y x _ h ih =>
    obtain ⟨u, hu⟩ := hF.exists_back (Cfg.mem_blocks_of_reachesExit h.1.reachesExit.1)
    exact (ih (Function.back_mem hu)).tail ⟨.control h.1 hu hi, y, h.2, Function.back_mem hu⟩

variable [LinearOrder Inst] [LinearOrder BB] [LinearOrder Fn] [LinearOrder Loop]

/-- `pdg` and the passes it requires, each of which clears its graph when it is released. -/
def buildPDG (F : Function Inst BB Loop) : Except Fault (DependenceGraph Inst) := do
  let CDG ← ControlDependenceGraphPass.runOnFunction F.toCfg F.pdt .empty
  ProgramDependenceGraphPass.runOnFunction F CDG
    (MemoryDependenceGraphPass.runOnFunction F .empty)
    (DataDependenceGraphPass.runOnFunction F .empty) .empty

/-- The graph and the two passes that keep state, after a run on one function. -/
structure Analysis (Inst Fn Loop : Type) [LinearOrder Inst] [LinearOrder Fn]
    [LinearOrder Loop] where
  PDG : DependenceGraph Inst
  psg : PDGSCCGraphPass Inst
  dl : DecoupleLoopsPass Fn Loop

namespace Analysis

def isIter (r : Analysis Inst Fn Loop) (inst : Inst) (L : Loop) : Except Fault Bool :=
  r.dl.isIter r.psg inst L

def isWork (r : Analysis Inst Fn Loop) (inst : Inst) (L : Loop) : Except Fault Bool :=
  r.dl.isWork r.psg inst L

end Analysis

/-- All passes on the function `F` at `name`, from what the last two have kept from before. -/
def analyse (heap : Heap) (name : Fn) (F : Function Inst BB Loop) (psg : PDGSCCGraphPass Inst)
    (dl : DecoupleLoopsPass Fn Loop) : Except Fault (Analysis Inst Fn Loop) := do
  let PDG ← buildPDG F
  let psg ← psg.runOnFunction heap PDG
  let dl ← dl.runOnFunction name F psg
  pure ⟨PDG, psg, dl⟩

/-! ## What they compute -/

section Spec

variable {F : Function Inst BB Loop}

omit [LinearOrder Fn] [LinearOrder Loop] in
theorem buildPDG_spec (hF : F.WellFormed) :
    ∃ PDG, buildPDG F = .ok PDG ∧ (∀ v, PDG.IsNode v ↔ v ∈ F.allInsts) ∧ PDG.Edge = F.Dep ∧
      PDG.Closed := by
  obtain ⟨CDG, hCDG, hnode, hedge⟩ := ControlDependenceGraphPass.runOnFunction_spec hF.pdt_correct
  have hctrl : CDG.Edge = F.toCfg.CtrlDep := by
    ext y x
    exact hedge y x
  have hmem : ∀ b, CDG.IsNode b → b ∈ F.blocks := fun b hb =>
    Cfg.mem_blocks_of_reachesExit ((hnode b).mp hb)
  obtain ⟨PDG, hPDG, hisNode, hPDGedge⟩ := ProgramDependenceGraphPass.runOnFunction_spec
    hF.toSelfContained hmem fun y x hyx =>
      Cfg.mem_blocks_of_reachesExit ((hedge y x).mp hyx).reachesExit.2
  have hdep : PDG.Edge = F.Dep := by
    ext a b
    rw [hPDGedge, hctrl]
    rfl
  refine ⟨PDG, bind_ok.mpr ⟨CDG, hCDG, hPDG⟩, hisNode, hdep, fun a b hab => ?_⟩
  exact (hisNode b).mpr (Function.Dep.mem hF.toSelfContained (hdep ▸ hab)).2

/-- What the passes leave behind for `F`, from what `psg₀` kept from before. -/
structure Analysed (F : Function Inst BB Loop)
    (psg₀ : PDGSCCGraphPass Inst) (r : Analysis Inst Fn Loop) : Prop where
  isNode : ∀ v, r.PDG.IsNode v ↔ v ∈ F.allInsts
  edge : r.PDG.Edge = F.Dep
  closed : r.PDG.Closed
  condensed : PDGSCCGraphPass.Condensed r.PDG psg₀ r.psg
  splits : DecoupleLoopsPass.Splits F r.PDG r.psg r.dl

variable {psg₀ : PDGSCCGraphPass Inst} {dl₀ : DecoupleLoopsPass Fn Loop}
  {r : Analysis Inst Fn Loop}

omit [LinearOrder BB] in
theorem Analysed.isIter (h : Analysed F psg₀ r) {i : Inst} (hi : i ∈ F.allInsts) (L : Loop) :
    DecoupleLoopsPass.Decides (r.isIter i L) (IterWork.Iter r.PDG.Edge F.InLoop F.loops L i) :=
  h.splits.isIter h.condensed ((h.isNode i).mpr hi) L

omit [LinearOrder BB] in
theorem Analysed.isWork (h : Analysed F psg₀ r) {i : Inst} (hi : i ∈ F.allInsts) (L : Loop) :
    DecoupleLoopsPass.Decides (r.isWork i L) (IterWork.Work r.PDG.Edge F.InLoop F.loops L i) :=
  h.splits.isWork h.condensed ((h.isNode i).mpr hi) L

/-- **The pipeline** completes on well-formed functions. -/
theorem analyse_spec (hF : F.WellFormed) (heap : Heap) (name : Fn)
    (hpsg : psg₀.Released) (hdl : dl₀.Released) :
    ∃ r, analyse heap name F psg₀ dl₀ = .ok r ∧ Analysed F psg₀ r ∧
      r.dl.LI = dl₀.LI.insert name () ∧
      ∀ a, a ∈ r.dl.endDerefs ↔ a ∈ dl₀.endDerefs ∨ r.psg.PSG.IsNode a ∧
        ∀ L ∈ F.loops, ¬ DecoupleLoopsPass.Touches F r.psg L a := by
  obtain ⟨PDG, hPDG, hnode, hedge, hclosed⟩ := buildPDG_spec hF
  obtain ⟨psg, hrun, hcond⟩ := PDGSCCGraphPass.runOnFunction_spec heap hclosed hpsg
  obtain ⟨dl, hdlrun, hsplits, hLI, hends⟩ := DecoupleLoopsPass.runOnFunction_spec hcond hclosed
    (fun L hL inst hinst => (hnode inst).mpr (hF.inLoop_mem hL hinst)) hdl name
  exact ⟨⟨PDG, psg, dl⟩, bind_ok.mpr ⟨PDG, hPDG, bind_ok.mpr ⟨psg, hrun, bind_ok.mpr
    ⟨dl, hdlrun, rfl⟩⟩⟩, ⟨hnode, hedge, hclosed, hcond, hsplits⟩, hLI, hends⟩

/-! ## No lookup fails -/

omit [LinearOrder Fn] [LinearOrder Loop] in
/-- **The pipeline never fails a lookup**, whatever the control dependences: the targets of the PDG's
edges are nodes, so that neither `findSCC` nor the loops of `psg` throw, and `getSCC` finds every
instruction. -/
theorem pdg_psg_total (hF : F.SelfContained) (heap : Heap)
    {CDG : DependenceGraph BB} (hnode : ∀ y, CDG.IsNode y → y ∈ F.blocks)
    (hedge : ∀ y x, CDG.Edge y x → x ∈ F.blocks) (hpsg : psg₀.Released) :
    ∃ PDG psg, ProgramDependenceGraphPass.runOnFunction F CDG
        (MemoryDependenceGraphPass.runOnFunction F .empty)
        (DataDependenceGraphPass.runOnFunction F .empty) .empty = .ok PDG ∧
      (∀ a b, PDG.Edge a b → PDG.IsNode b) ∧
      PDGSCCGraphPass.runOnFunction heap PDG psg₀ = .ok psg ∧
      ∀ I ∈ F.allInsts, ∃ a, psg.getSCC I = .ok a := by
  obtain ⟨PDG, hPDG, hPDGnode, hPDGedge⟩ :=
    ProgramDependenceGraphPass.runOnFunction_spec hF hnode hedge
  have hclosed : PDG.Closed := fun a b hab => (hPDGnode b).mpr
    (((hPDGedge a b).mp hab).mem hF fun y x hyx => ⟨hnode y hyx.isNode, hedge y x hyx⟩).2
  obtain ⟨psg, hrun, h⟩ := PDGSCCGraphPass.runOnFunction_spec heap hclosed hpsg
  refine ⟨PDG, psg, hPDG, hclosed, hrun, fun I hI => ?_⟩
  obtain ⟨a, -, ha, -⟩ := h.component I ((hPDGnode I).mpr hI)
  exact ⟨a, ha⟩

/-- `for (i = 0; i < n; ++i) a[i] = i;`: entry, header, body and return. -/
def storeLoop : Function (Fin 9) (Fin 4) (Fin 1) where
  blocks := [0, 1, 2, 3]
  succs
    | 0 => [1]
    | 1 => [2, 3]
    | 2 => [1]
    | 3 => []
  succs_mem := by decide
  insts
    | 0 => [0]
    | 1 => [1, 2, 3]
    | 2 => [4, 5, 6, 7]
    | 3 => [8]
  users
    | 1 => [some 2, some 4, some 5, some 6]
    | 2 => [some 3]
    | 4 => [some 5]
    | 6 => [some 1]
    | _ => []
  incoming
    | 1 => some [(.constant 0, 0), (.instruction 6, 2)]
    | _ => none
  mayReadOrWriteMemory i := i = 5
  getDependency _ := ⟨none, false⟩
  pdt := ⟨.node (some 3) [.node (some 1) [.node (some 0) [], .node (some 2) []]]⟩
  loops := [0]
  loopBlocks _ := [1, 2]

theorem pdg_psg_total_storeLoop :
    storeLoop.SelfContained ∧
    ∃ PDG psg, ProgramDependenceGraphPass.runOnFunction storeLoop (DependenceGraph.empty.addEdge 1 2)
        (MemoryDependenceGraphPass.runOnFunction storeLoop .empty)
        (DataDependenceGraphPass.runOnFunction storeLoop .empty) .empty = .ok PDG ∧
      (∀ a b, PDG.Edge a b → PDG.IsNode b) ∧
      PDGSCCGraphPass.runOnFunction .bump PDG .fresh = .ok psg ∧
      ∀ I ∈ storeLoop.allInsts, ∃ a, psg.getSCC I = .ok a :=
  have hF : storeLoop.SelfContained := by decide +kernel
  ⟨hF, pdg_psg_total hF .bump (by decide) (by decide +kernel) PDGSCCGraphPass.released_fresh⟩

/-- The lookups of `decouple-loops` find what they look for: the component of every instruction of
a loop, the row of every component in the transposed PSG, and in `SccToLoop` the key whose loop is
read. -/
structure LookupsValid (F : Function Inst BB Loop) (r : Analysis Inst Fn Loop) : Prop where
  getSCC : ∀ L ∈ F.loops, ∀ I, F.InLoop L I → ∃ a, r.psg.getSCC I = .ok a
  row : ∀ S1, r.psg.PSG.IsNode S1 →
    ∃ S2s, (GraphUtils.transpose r.psg.PSG).getDependants S1 = .ok S2s
  find : r.dl.endDerefs = []

/-- **`second` of `SccToLoop.end()`** is read for the components that meet no loop: `classify` reads
it before it tests the iterator. All lookups of a run are valid exactly when there are none. -/
theorem lookupsValid_iff (hF : F.WellFormed) (heap : Heap) (name : Fn) (hpsg : psg₀.Released)
    (hdl : dl₀.Released) (hends : dl₀.endDerefs = []) :
    ∃ r, analyse heap name F psg₀ dl₀ = .ok r ∧
      (LookupsValid F r ↔
        ∀ I ∈ F.allInsts, ∃ L ∈ F.loops, ∃ J, F.InLoop L J ∧ Mutual F.Dep I J) := by
  obtain ⟨r, hr, h, -, hderefs⟩ := analyse_spec hF heap name hpsg hdl
  rw [hends] at hderefs
  have hnode : ∀ L ∈ F.loops, ∀ I, F.InLoop L I → r.PDG.IsNode I := fun L hL I hI =>
    (h.isNode I).mpr (hF.inLoop_mem hL hI)
  have hget : ∀ L ∈ F.loops, ∀ I, F.InLoop L I → ∃ a, r.psg.getSCC I = .ok a := by
    intro L hL I hI
    obtain ⟨a, -, ha, -⟩ := h.condensed.component I (hnode L hL I hI)
    exact ⟨a, ha⟩
  have hmeets : ∀ I a, r.PDG.IsNode I → r.psg.getSCC I = .ok a → ∀ L ∈ F.loops,
      (DecoupleLoopsPass.Touches F r.psg L a ↔ ∃ J, F.InLoop L J ∧ Mutual F.Dep I J) := by
    intro I a hI ha L hL
    refine exists_congr fun J => and_congr_right fun hJ => ?_
    rw [← h.edge, ← h.condensed.same I J hI (hnode L hL J hJ), ha, eq_comm]
  refine ⟨r, hr, fun hvalid I hI => ?_, fun hall => ⟨hget, fun a => GraphUtils.transpose_row, ?_⟩⟩
  · by_contra hno
    have hIn : r.PDG.IsNode I := (h.isNode I).mpr hI
    obtain ⟨a, -, ha, -⟩ := h.condensed.component I hIn
    have hmem : a ∈ r.dl.endDerefs := (hderefs a).mpr (.inr
      ⟨(h.condensed.isNode a).mpr ⟨I, hIn, ha⟩, fun L hL ht =>
        hno ⟨L, hL, (hmeets I a hIn ha L hL).mp ht⟩⟩)
    rw [hvalid.find] at hmem
    exact List.not_mem_nil hmem
  · refine List.eq_nil_iff_forall_not_mem.mpr fun a ha => ?_
    obtain ⟨hnode, hno⟩ := ((hderefs a).mp ha).resolve_left List.not_mem_nil
    obtain ⟨I, hI, hIa⟩ := (h.condensed.isNode a).mp hnode
    obtain ⟨L, hL, hJ⟩ := hall I ((h.isNode I).mp hI)
    exact hno L hL ((hmeets I a hI hIa L hL).mpr hJ)

/-- There is one here, as in every function that LLVM has verified: the entry block is in no loop,
and nothing in a loop leads to its instructions. -/
theorem lookupsValid_iff_storeLoop :
    storeLoop.WellFormed ∧
    ∃ r, analyse .bump (0 : Fin 1) storeLoop .fresh .fresh = .ok r ∧
      (LookupsValid storeLoop r ↔ ∀ I ∈ storeLoop.allInsts, ∃ L ∈ storeLoop.loops, ∃ J,
        storeLoop.InLoop L J ∧ Mutual storeLoop.Dep I J) :=
  have hF : storeLoop.WellFormed := by decide +kernel
  ⟨hF, lookupsValid_iff hF .bump 0 PDGSCCGraphPass.released_fresh
    DecoupleLoopsPass.released_fresh rfl⟩

/-- The branch into the loop and the return are components that meet no loop. -/
theorem not_lookupsValid_storeLoop :
    storeLoop.WellFormed ∧
    ∃ r, analyse .bump (0 : Fin 1) storeLoop .fresh .fresh = .ok r ∧ ¬ LookupsValid storeLoop r := by
  refine ⟨by decide +kernel, ?_⟩
  have hrun : (analyse .bump (0 : Fin 1) storeLoop .fresh .fresh).map
      (fun r => r.dl.endDerefs.length) = .ok 2 := by
    unfold analyse buildPDG ControlDependenceGraphPass.runOnFunction
    rw [ControlDependenceGraphPass.getBottomUpTraversal_eq]
    decide +kernel
  obtain ⟨r, hr, hlen⟩ := map_ok.mp hrun
  refine ⟨r, hr, fun hvalid => ?_⟩
  rw [hvalid.find] at hlen
  cases hlen

/-! ## Where control edges start -/

omit [LinearOrder Fn] [LinearOrder Loop] in
/-- **Control edges start at branches**: each edge of the CDG leaves a block with two different
successors, and what the PDG pass adds for it leaves the terminator of that block. -/
theorem control_edges_start_at_branches (F : Function Inst BB Loop) (hpdt : F.pdt.Correct F.toCfg) :
    ∃ CDG, ControlDependenceGraphPass.runOnFunction F.toCfg F.pdt .empty = .ok CDG ∧
      (∀ y x, CDG.Edge y x → ∃ z w, z ∈ F.succs y ∧ w ∈ F.succs y ∧ z ≠ w) ∧
      ∀ PDG PDG', ProgramDependenceGraphPass.addControlEdges F CDG PDG = .ok PDG' →
        ∀ a b, PDG'.Edge a b → PDG.Edge a b ∨
          ∃ y z w, F.back y = .ok a ∧ z ∈ F.succs y ∧ w ∈ F.succs y ∧ z ≠ w := by
  obtain ⟨CDG, hCDG, -, hedge⟩ := ControlDependenceGraphPass.runOnFunction_spec hpdt
  have hbranch : ∀ y x, CDG.Edge y x → ∃ z w, z ∈ F.succs y ∧ w ∈ F.succs y ∧ z ≠ w := by
    intro y x hyx
    obtain ⟨z, w, hz, hw, hne⟩ := Cfg.CtrlDep.exists_branch ((hedge y x).mp hyx)
    exact ⟨z, w, hz.2, hw.2, hne⟩
  refine ⟨CDG, hCDG, hbranch, fun PDG PDG' h a b hab => ?_⟩
  have hadds := ProgramDependenceGraphPass.addControlEdges_adds h
  rcases (hadds.edge a b).mp hab with hab | ⟨y, x, hyx, ha, -⟩
  · exact .inl hab
  · obtain ⟨z, w, hzw⟩ := hbranch y x hyx
    exact .inr ⟨y, z, w, ha, hzw⟩

theorem control_edges_start_at_branches_storeLoop :
    storeLoop.pdt.Correct storeLoop.toCfg ∧
    ∃ CDG, ControlDependenceGraphPass.runOnFunction storeLoop.toCfg storeLoop.pdt .empty = .ok CDG ∧
      (∀ y x, CDG.Edge y x → ∃ z w, z ∈ storeLoop.succs y ∧ w ∈ storeLoop.succs y ∧ z ≠ w) ∧
      ∀ PDG PDG', ProgramDependenceGraphPass.addControlEdges storeLoop CDG PDG = .ok PDG' →
        ∀ a b, PDG'.Edge a b → PDG.Edge a b ∨
          ∃ y z w, storeLoop.back y = .ok a ∧ z ∈ storeLoop.succs y ∧ w ∈ storeLoop.succs y ∧
            z ≠ w :=
  have hpdt : storeLoop.pdt.Correct storeLoop.toCfg := by decide +kernel
  ⟨hpdt, control_edges_start_at_branches storeLoop hpdt⟩

/-! ## Dependences inside a loop -/

/-- **No back-dependence.** An edge between two components of a loop ends in work, so none leads
from work to iter and none joins two iter components. -/
theorem work_of_dependence (hF : F.WellFormed) (heap : Heap) (name : Fn)
    (hpsg : psg₀.Released) (hdl : dl₀.Released) :
    ∃ r, analyse heap name F psg₀ dl₀ = .ok r ∧ ∀ L ∈ F.loops, ∀ a b, r.PDG.Edge a b →
      (r.isIter a L = .ok true ∨ r.isWork a L = .ok true) →
      (r.isIter b L = .ok true ∨ r.isWork b L = .ok true) →
      (r.psg.getSCC a ≠ r.psg.getSCC b → r.isWork b L = .ok true ∧ r.isIter b L = .ok false) ∧
      ¬ (r.isWork a L = .ok true ∧ r.isIter b L = .ok true) ∧
      ¬ (r.psg.getSCC a ≠ r.psg.getSCC b ∧ r.isIter a L = .ok true ∧ r.isIter b L = .ok true) := by
  obtain ⟨r, hr, h, -⟩ := analyse_spec hF heap name hpsg hdl
  refine ⟨r, hr, fun L _ a b hab => ?_⟩
  have hna : a ∈ F.allInsts := (h.isNode a).mp hab.isNode
  have hnb : b ∈ F.allInsts := (h.isNode b).mp (h.closed a b hab)
  have hne : r.psg.getSCC a ≠ r.psg.getSCC b ↔ ¬ Mutual r.PDG.Edge a b :=
    not_congr (h.condensed.same a b hab.isNode (h.closed a b hab))
  rw [(h.isIter hna L).iff, (h.isWork hna L).iff, (h.isIter hnb L).iff, (h.isWork hnb L).iff,
    (h.isIter hnb L).not_iff, hne, ← IterWork.owner_iff_iter_or_work,
    ← IterWork.owner_iff_iter_or_work]
  intro ha hb
  refine ⟨fun hn => ?_, fun ⟨hw, hi⟩ => hw.not_iter_of_edge hab hi, fun ⟨hn, _, hi⟩ => ?_⟩
  · have hw := IterWork.work_of_edge hab hn ha hb
    exact ⟨hw, fun hi => hi.2 hw.2⟩
  · exact hi.2 (IterWork.work_of_edge hab hn ha hb).2

theorem work_of_dependence_storeLoop :
    storeLoop.WellFormed ∧
    ∃ r, analyse .bump (0 : Fin 1) storeLoop .fresh .fresh = .ok r ∧
      ∀ L ∈ storeLoop.loops, ∀ a b, r.PDG.Edge a b →
      (r.isIter a L = .ok true ∨ r.isWork a L = .ok true) →
      (r.isIter b L = .ok true ∨ r.isWork b L = .ok true) →
      (r.psg.getSCC a ≠ r.psg.getSCC b → r.isWork b L = .ok true ∧ r.isIter b L = .ok false) ∧
      ¬ (r.isWork a L = .ok true ∧ r.isIter b L = .ok true) ∧
      ¬ (r.psg.getSCC a ≠ r.psg.getSCC b ∧ r.isIter a L = .ok true ∧ r.isIter b L = .ok true) :=
  have hF : storeLoop.WellFormed := by decide +kernel
  ⟨hF, work_of_dependence hF .bump 0 PDGSCCGraphPass.released_fresh
    DecoupleLoopsPass.released_fresh⟩

/-! ## Components across loops -/

/-- **What is classified.** An instruction of a loop is iter or work, and not both, exactly when its
component meets no loop that `LoopInfo` lists later. -/
theorem iter_xor_work_iff (hF : F.WellFormed) (heap : Heap) (name : Fn)
    (hpsg : psg₀.Released) (hdl : dl₀.Released) :
    ∃ r, analyse heap name F psg₀ dl₀ = .ok r ∧ ∀ before L after,
      F.loops = before ++ L :: after → ∀ I, F.InLoop L I →
      (Xor (r.isIter I L = .ok true) (r.isWork I L = .ok true) ↔
        ∀ L' ∈ after, ∀ J, F.InLoop L' J → ¬ Mutual r.PDG.Edge I J) := by
  obtain ⟨r, hr, h, -⟩ := analyse_spec hF heap name hpsg hdl
  refine ⟨r, hr, fun before L after hl I hI => ?_⟩
  have hmem : I ∈ F.allInsts := hF.inLoop_mem (by simp [hl]) hI
  have hnot : L ∉ after := by
    have hnd := hF.loops_nodup
    rw [hl] at hnd
    exact (List.nodup_cons.mp (List.nodup_append.mp hnd).2.1).1
  have hxor : Xor (r.isIter I L = .ok true) (r.isWork I L = .ok true) ↔
      IterWork.Owner r.PDG.Edge F.InLoop F.loops L I := by
    rw [(h.isIter hmem L).iff, (h.isWork hmem L).iff, IterWork.owner_iff_iter_or_work,
      xor_iff_or_and_not_and]
    exact and_iff_left IterWork.not_iter_and_work
  rw [hxor, hl, IterWork.Owner, isLast_iff hnot ⟨I, .refl I, hI⟩]
  refine forall₂_congr fun L' _ => ⟨fun hno J hJ hm => hno ⟨J, hm, hJ⟩, ?_⟩
  rintro hno ⟨J, hm, hJ⟩
  exact hno J hJ hm

/-- Two blocks that jump to each other and to themselves, entered from a third block at either:
each is a loop of its own, and the cycle of both, having two entries, is none. -/
def straddling : Function (Fin 6) (Fin 4) (Fin 2) where
  blocks := [0, 1, 2, 3]
  succs
    | 0 => [1, 2]
    | 1 => [1, 2]
    | 2 => [2, 1, 3]
    | 3 => []
  succs_mem := by decide
  insts
    | 0 => [0]
    | 1 => [1, 2]
    | 2 => [3, 4]
    | 3 => [5]
  users
    | 1 => [some 1, some 3]
    | 3 => [some 1, some 3]
    | _ => []
  incoming
    | 1 => some [(.constant 0, 0), (.instruction 1, 1), (.instruction 3, 2)]
    | 3 => some [(.constant 0, 0), (.instruction 1, 1), (.instruction 3, 2)]
    | _ => none
  mayReadOrWriteMemory _ := false
  getDependency _ := ⟨none, false⟩
  pdt := ⟨.node (some 3) [.node (some 2) [.node (some 1) [], .node (some 0) []]]⟩
  loops := [0, 1]
  loopBlocks
    | 0 => [1]
    | 1 => [2]

theorem iter_xor_work_iff_straddling :
    straddling.WellFormed ∧
    ∃ r, analyse .bump (0 : Fin 1) straddling .fresh .fresh = .ok r ∧ ∀ before L after,
      straddling.loops = before ++ L :: after → ∀ I, straddling.InLoop L I →
      (Xor (r.isIter I L = .ok true) (r.isWork I L = .ok true) ↔
        ∀ L' ∈ after, ∀ J, straddling.InLoop L' J → ¬ Mutual r.PDG.Edge I J) :=
  have hF : straddling.WellFormed := by decide +kernel
  ⟨hF, iter_xor_work_iff hF .bump 0 PDGSCCGraphPass.released_fresh
    DecoupleLoopsPass.released_fresh⟩

/-- The phi node of the first loop depends on that of the second and the other way round: it is
neither iter nor work. -/
theorem straddling_unclassified :
    straddling.WellFormed ∧ 0 ∈ straddling.loops ∧ straddling.InLoop 0 1 ∧
    ∃ r, analyse .bump (0 : Fin 1) straddling .fresh .fresh = .ok r ∧
      ¬ Xor (r.isIter 1 0 = .ok true) (r.isWork 1 0 = .ok true) := by
  refine ⟨by decide +kernel, by decide, ⟨1, by decide, by decide⟩, ?_⟩
  have hrun : (analyse .bump (0 : Fin 1) straddling .fresh .fresh).map
      (fun r => (r.isIter 1 0, r.isWork 1 0)) = .ok (.ok false, .ok false) := by
    unfold analyse buildPDG ControlDependenceGraphPass.runOnFunction
    rw [ControlDependenceGraphPass.getBottomUpTraversal_eq]
    decide +kernel
  obtain ⟨r, hr, he⟩ := map_ok.mp hrun
  obtain ⟨hi, hw⟩ := Prod.mk.inj he
  exact ⟨r, hr, by simp [Xor, hi, hw]⟩

end Spec

end IcsaDswp
