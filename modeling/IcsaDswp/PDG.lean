import IcsaDswp.Function

/-!
# The program dependence graph

`pass/src/DDG.cpp`, `pass/src/MDG.cpp` and `pass/src/PDG.cpp`. The program dependence graph is the
union of the data and memory dependences, the control dependences between blocks spread over their
instructions, and edges to phi nodes from the blocks their constants come from (`PdgEdge`).
-/

namespace IcsaDswp

open Std (ExtTreeMap ExtTreeSet)
open Lib

variable {Inst BB Loop : Type} [LinearOrder Inst] [LinearOrder BB]

/-! ## The code -/

namespace DataDependenceGraphPass

/-- Every user of an instruction is its user. -/
def addUsers (F : Function Inst BB Loop) (DDG : DependenceGraph Inst) (I : Inst) :
    DependenceGraph Inst :=
  (F.users I).foldl (fun DDG U =>
    match U with
    | some inst => DDG.addEdge I inst
    | none => DDG) DDG

def runOnFunction (F : Function Inst BB Loop) (DDG : DependenceGraph Inst) :
    DependenceGraph Inst :=
  let DDG := DDG.addNodes F.allInsts
  F.allInsts.foldl (addUsers F) DDG

end DataDependenceGraphPass

namespace MemoryDependenceGraphPass

/-- Add dependence only if it's a def dependence. -/
def addDependency (F : Function Inst BB Loop) (MDG : DependenceGraph Inst) (inst : Inst) :
    DependenceGraph Inst :=
  if F.mayReadOrWriteMemory inst then
    match (F.getDependency inst).inst with
    | some depInst => if (F.getDependency inst).isDef then MDG.addEdge depInst inst else MDG
    | none => MDG
  else MDG

def runOnFunction (F : Function Inst BB Loop) (MDG : DependenceGraph Inst) :
    DependenceGraph Inst :=
  let MDG := MDG.addNodes F.allInsts
  F.allInsts.foldl (addDependency F) MDG

end MemoryDependenceGraphPass

namespace ProgramDependenceGraphPass

/-- Copy the edges of `g` to the PDG. -/
def copyEdges (g PDG : DependenceGraph Inst) : DependenceGraph Inst :=
  g.nodes.toList.foldl
    (fun PDG I => I.2.toList.foldl (fun PDG target => PDG.addEdge I.1 target) PDG) PDG

/-- From the last instruction of the source block to each instruction of the target block. -/
def addControlEdges (F : Function Inst BB Loop) (cdg : DependenceGraph BB)
    (PDG : DependenceGraph Inst) : Except Fault (DependenceGraph Inst) :=
  cdg.nodes.toList.foldlM (fun PDG I => do
    let source ← F.back I.1
    pure (I.2.toList.foldl
      (fun PDG bb => (F.insts bb).foldl (fun PDG it => PDG.addEdge source it) PDG) PDG)) PDG

/-- The edges to `target` when it is a phi node with constants. -/
def addPhiEdges (F : Function Inst BB Loop) (PDG : DependenceGraph Inst) (target : Inst) :
    Except Fault (DependenceGraph Inst) :=
  match F.incoming target with
  | none => pure PDG
  | some PN => PN.foldlM (fun PDG v =>
      match v.1 with
      | .constant _ => do
        let source ← F.back v.2
        pure (PDG.addEdge source target)
      | _ => pure PDG) PDG

def runOnFunction (F : Function Inst BB Loop) (cdg : DependenceGraph BB)
    (mdg ddg PDG : DependenceGraph Inst) : Except Fault (DependenceGraph Inst) := do
  let PDG := PDG.addNodes ddg.nodes.keys
  let PDG := copyEdges ddg PDG
  let PDG := copyEdges mdg PDG
  let PDG ← addControlEdges F cdg PDG
  ddg.nodes.keys.foldlM (addPhiEdges F) PDG

end ProgramDependenceGraphPass

/-! ## The edges -/

/-- The program dependences of a function whose blocks are control dependent by `ctrl`. -/
inductive PdgEdge (F : Function Inst BB Loop) (ctrl : BB → BB → Prop) : Inst → Inst → Prop where
  | data {a b : Inst} : a ∈ F.allInsts → some b ∈ F.users a → PdgEdge F ctrl a b
  | memory {a b : Inst} : b ∈ F.allInsts → F.mayReadOrWriteMemory b = true →
      (F.getDependency b).inst = some a → (F.getDependency b).isDef = true → PdgEdge F ctrl a b
  | control {a b : Inst} {y x : BB} : ctrl y x → F.back y = .ok a → b ∈ F.insts x →
      PdgEdge F ctrl a b
  | phi {a b : Inst} {vals : List (Value Inst × BB)} {k : Nat} {y : BB} : b ∈ F.allInsts →
      F.incoming b = some vals → (.constant k, y) ∈ vals → F.back y = .ok a → PdgEdge F ctrl a b

section Edges

variable {F : Function Inst BB Loop}

omit [LinearOrder Inst] [LinearOrder BB] in
/-- The ends of an edge are instructions of the function. -/
theorem PdgEdge.mem {ctrl : BB → BB → Prop} {a b : Inst} (h : PdgEdge F ctrl a b)
    (hF : F.SelfContained) (hctrl : ∀ y x, ctrl y x → y ∈ F.blocks ∧ x ∈ F.blocks) :
    a ∈ F.allInsts ∧ b ∈ F.allInsts := by
  cases h with
  | data ha hb => exact ⟨ha, hF.users_mem a ha (some b) hb b rfl⟩
  | memory hb _ hd _ => exact ⟨hF.dep_mem b hb a hd, hb⟩
  | @control y x hyx ha hb =>
    obtain ⟨hy, hx⟩ := hctrl y x hyx
    exact ⟨Function.mem_allInsts.mpr ⟨y, hy, Function.back_mem ha⟩,
      Function.mem_allInsts.mpr ⟨x, hx, hb⟩⟩
  | @phi vals k y hb hvals hv ha =>
    have hy : y ∈ F.blocks := hF.incoming_mem b hb vals hvals _ hv
    exact ⟨Function.mem_allInsts.mpr ⟨y, hy, Function.back_mem ha⟩, hb⟩

namespace DataDependenceGraphPass

omit [LinearOrder BB]

theorem addUsers_adds (DDG : DependenceGraph Inst) (I : Inst) :
    DDG.Adds (addUsers F DDG I) fun a b => a = I ∧ some b ∈ F.users I := by
  unfold addUsers
  refine (DependenceGraph.foldl_adds (R := fun U a b => a = I ∧ U = some b) (fun g U => ?_) _
    DDG).congr fun a b => by simp [and_comm]
  cases U with
  | none => exact g.adds_refl.congr (by simp)
  | some inst => exact (g.adds_addEdge I inst).congr (by simp [eq_comm])

theorem runOnFunction_adds (F : Function Inst BB Loop) :
    (DependenceGraph.empty.addNodes F.allInsts).Adds (runOnFunction F .empty)
      fun a b => a ∈ F.allInsts ∧ some b ∈ F.users a := by
  unfold runOnFunction
  refine (DependenceGraph.foldl_adds addUsers_adds _ _).congr fun a b => ?_
  simp

theorem ddg_isNode (v : Inst) : (runOnFunction F .empty).IsNode v ↔ v ∈ F.allInsts := by
  rw [(runOnFunction_adds F).isNode]
  simp only [DependenceGraph.addNodes_isNode, DependenceGraph.empty_isNode, false_or,
    or_iff_left_iff_imp]
  rintro ⟨w, hv, -⟩
  exact hv

theorem ddg_edge (a b : Inst) :
    (runOnFunction F .empty).Edge a b ↔ a ∈ F.allInsts ∧ some b ∈ F.users a := by
  rw [(runOnFunction_adds F).edge]
  simp

end DataDependenceGraphPass

namespace MemoryDependenceGraphPass

omit [LinearOrder BB]

theorem addDependency_adds (MDG : DependenceGraph Inst) (inst : Inst) :
    MDG.Adds (addDependency F MDG inst) fun a b => b = inst ∧
      F.mayReadOrWriteMemory inst = true ∧ (F.getDependency inst).inst = some a ∧
      (F.getDependency inst).isDef = true := by
  unfold addDependency
  by_cases hm : F.mayReadOrWriteMemory inst = true
  · rw [if_pos hm]
    cases hd : (F.getDependency inst).inst with
    | none => exact MDG.adds_refl.congr (by simp)
    | some depInst =>
      show MDG.Adds (if (F.getDependency inst).isDef then MDG.addEdge depInst inst else MDG) _
      by_cases hdef : (F.getDependency inst).isDef = true
      · rw [if_pos hdef]
        exact (MDG.adds_addEdge depInst inst).congr fun a b => by
          simp [hm, hdef, and_comm, eq_comm]
      · rw [if_neg hdef]
        exact MDG.adds_refl.congr (by simp [hdef])
  · rw [if_neg hm]
    exact MDG.adds_refl.congr (by simp [hm])

theorem mdg_edge (a b : Inst) : (runOnFunction F .empty).Edge a b ↔ b ∈ F.allInsts ∧
    F.mayReadOrWriteMemory b = true ∧ (F.getDependency b).inst = some a ∧
    (F.getDependency b).isDef = true := by
  unfold runOnFunction
  rw [(DependenceGraph.foldl_adds addDependency_adds _ _).edge]
  simp

end MemoryDependenceGraphPass

namespace ProgramDependenceGraphPass

theorem copyEdges_adds (g PDG : DependenceGraph Inst) : PDG.Adds (copyEdges g PDG) g.Edge := by
  unfold copyEdges
  refine (DependenceGraph.foldl_adds (R := fun I a b => a = I.1 ∧ b ∈ I.2) (fun r I => ?_) _
    _).congr fun a b => ?_
  · refine (DependenceGraph.foldl_adds (fun r J => r.adds_addEdge I.1 J) _ r).congr fun a b => ?_
    simp [and_comm]
  · simp only [Prod.exists, DependenceGraph.mem_nodes_toList]
    constructor
    · rintro ⟨a', deps, hdeps, rfl, hb⟩
      exact ⟨deps, hdeps, hb⟩
    · rintro ⟨deps, hdeps, hb⟩
      exact ⟨a, deps, hdeps, rfl, hb⟩

theorem addControlEdges_spec {cdg : DependenceGraph BB}
    (hback : ∀ y, cdg.IsNode y → ∃ source, F.back y = .ok source) (PDG : DependenceGraph Inst) :
    ∃ PDG', addControlEdges F cdg PDG = .ok PDG' ∧ PDG.Adds PDG' fun a b =>
      ∃ y x, cdg.Edge y x ∧ F.back y = .ok a ∧ b ∈ F.insts x := by
  obtain ⟨PDG', hok, h⟩ := DependenceGraph.foldlM_adds (l := cdg.nodes.toList)
    (f := fun (PDG : DependenceGraph Inst) (I : BB × OrdSet BB) => do
      let source ← F.back I.1
      pure (I.2.toList.foldl
        (fun PDG bb => (F.insts bb).foldl (fun PDG it => PDG.addEdge source it) PDG) PDG))
    (R := fun I a b => ∃ x ∈ I.2, F.back I.1 = .ok a ∧ b ∈ F.insts x)
    (fun I hI g => by
      obtain ⟨source, hs⟩ := hback I.1
        (DependenceGraph.isNode_iff.mpr ⟨I.2, DependenceGraph.mem_nodes_toList.mp hI⟩)
      refine ⟨_, by rw [hs]; rfl, ?_⟩
      refine (DependenceGraph.foldl_adds (R := fun bb a b => a = source ∧ b ∈ F.insts bb)
        (fun r bb => ?_) _ g).congr fun a b => by simp [hs, eq_comm]
      refine (DependenceGraph.foldl_adds (fun r it => r.adds_addEdge source it) _ r).congr
        fun a b => by simp [and_comm])
    PDG
  refine ⟨PDG', hok, h.congr fun a b => ?_⟩
  simp only [Prod.exists, DependenceGraph.mem_nodes_toList]
  constructor
  · rintro ⟨y, deps, hdeps, x, hx, hab⟩
    exact ⟨y, x, ⟨deps, hdeps, hx⟩, hab⟩
  · rintro ⟨y, x, ⟨deps, hdeps, hx⟩, hab⟩
    exact ⟨y, deps, hdeps, x, hx, hab⟩

/-- The edges that are there when the loop over the CDG ends. -/
theorem addControlEdges_adds {cdg : DependenceGraph BB} {PDG PDG' : DependenceGraph Inst}
    (h : addControlEdges F cdg PDG = .ok PDG') :
    PDG.Adds PDG' fun a b => ∃ y x, cdg.Edge y x ∧ F.back y = .ok a ∧ b ∈ F.insts x := by
  have hback : ∀ I ∈ cdg.nodes.toList, ∃ source, F.back I.1 = .ok source := by
    refine foldlM_inv (P := fun done _ => ∀ I ∈ done, ∃ source, F.back I.1 = .ok source) ?_
      (by simp) h
    intro done I s s' ih hs J hJ
    rcases List.mem_append.mp hJ with hJ | hJ
    · exact ih J hJ
    · obtain ⟨source, hsource, -⟩ := bind_ok.mp hs
      exact ⟨source, List.mem_singleton.mp hJ ▸ hsource⟩
  have hnode : ∀ y, cdg.IsNode y → ∃ source, F.back y = .ok source := by
    intro y hy
    obtain ⟨deps, hdeps⟩ := DependenceGraph.isNode_iff.mp hy
    exact hback (y, deps) (DependenceGraph.mem_nodes_toList.mpr hdeps)
  obtain ⟨PDG'', hok, hadds⟩ := addControlEdges_spec hnode PDG
  obtain rfl : PDG'' = PDG' := Except.ok.inj (hok.symm.trans h)
  exact hadds

omit [LinearOrder BB] in
theorem addPhiEdges_spec {target : Inst}
    (hback : ∀ vals, F.incoming target = some vals → ∀ v ∈ vals, ∃ source, F.back v.2 = .ok source)
    (PDG : DependenceGraph Inst) :
    ∃ PDG', addPhiEdges F PDG target = .ok PDG' ∧ PDG.Adds PDG' fun a b => b = target ∧
      ∃ vals k y, F.incoming target = some vals ∧ (.constant k, y) ∈ vals ∧ F.back y = .ok a := by
  unfold addPhiEdges
  cases hin : F.incoming target with
  | none => exact ⟨PDG, rfl, PDG.adds_refl.congr (by simp)⟩
  | some vals =>
    obtain ⟨PDG', hok, h⟩ := DependenceGraph.foldlM_adds (l := vals)
      (f := fun (PDG : DependenceGraph Inst) (v : Value Inst × BB) =>
        match v.1 with
        | .constant _ => do
          let source ← F.back v.2
          pure (PDG.addEdge source target)
        | _ => pure PDG)
      (R := fun v a b => b = target ∧ (∃ k, v.1 = .constant k) ∧ F.back v.2 = .ok a)
      (fun v hv g => by
        obtain ⟨source, hs⟩ := hback vals hin v hv
        cases hk : v.1 with
        | constant k =>
          refine ⟨_, by rw [hs]; rfl, (g.adds_addEdge source target).congr fun a b => ?_⟩
          simp [hs, and_comm, eq_comm]
        | argument n => exact ⟨g, rfl, g.adds_refl.congr (by simp)⟩
        | instruction i => exact ⟨g, rfl, g.adds_refl.congr (by simp)⟩)
      PDG
    refine ⟨PDG', hok, h.congr fun a b => ?_⟩
    constructor
    · rintro ⟨⟨_, y⟩, hv, hb, ⟨k, rfl⟩, ha⟩
      exact ⟨hb, vals, k, y, rfl, hv, ha⟩
    · rintro ⟨hb, vals', k, y, hvals, hv, ha⟩
      cases hvals
      exact ⟨(.constant k, y), hv, hb, ⟨k, rfl⟩, ha⟩

/-- **The program dependence graph** of a self-contained function, whatever its control dependences
between blocks: it has the instructions as nodes and the edges of `PdgEdge`. -/
theorem runOnFunction_spec (hF : F.SelfContained) {cdg : DependenceGraph BB}
    (hcdg : ∀ y, cdg.IsNode y → y ∈ F.blocks) (hdep : ∀ y x, cdg.Edge y x → x ∈ F.blocks) :
    ∃ PDG, runOnFunction F cdg (MemoryDependenceGraphPass.runOnFunction F .empty)
        (DataDependenceGraphPass.runOnFunction F .empty) .empty = .ok PDG ∧
      (∀ v, PDG.IsNode v ↔ v ∈ F.allInsts) ∧ ∀ a b, PDG.Edge a b ↔ PdgEdge F cdg.Edge a b := by
  let ddg := DataDependenceGraphPass.runOnFunction F .empty
  let mdg := MemoryDependenceGraphPass.runOnFunction F .empty
  let PDG := copyEdges mdg (copyEdges ddg (DependenceGraph.empty.addNodes ddg.nodes.keys))
  obtain ⟨PDG₁, hok₁, h₁⟩ := addControlEdges_spec
    (fun y hy => hF.exists_back (hcdg y hy)) PDG
  obtain ⟨PDG₂, hok₂, h₂⟩ := DependenceGraph.foldlM_adds (l := ddg.nodes.keys)
    (fun target ht => addPhiEdges_spec fun vals hvals v hv => hF.exists_back
      (hF.incoming_mem target ((DataDependenceGraphPass.ddg_isNode target).mp
        (ExtTreeMap.mem_keys.mp ht)) vals hvals v hv)) PDG₁
  have hall := (((copyEdges_adds ddg _).trans (copyEdges_adds mdg _)).trans h₁).trans h₂
  have hedge : ∀ a b, PDG₂.Edge a b ↔ PdgEdge F cdg.Edge a b := by
    intro a b
    rw [hall.edge, DependenceGraph.addNodes_edge, DataDependenceGraphPass.ddg_edge,
      MemoryDependenceGraphPass.mdg_edge]
    constructor
    · rintro (he | ((⟨ha, hb⟩ | ⟨hb, hm, hd, hdef⟩) | ⟨y, x, hyx, ha, hb⟩) |
        ⟨b', hb, rfl, vals, k, y, hvals, hv, ha⟩)
      · exact absurd he (DependenceGraph.empty_edge a b)
      · exact .data ha hb
      · exact .memory hb hm hd hdef
      · exact .control hyx ha hb
      · exact .phi ((DataDependenceGraphPass.ddg_isNode b).mp (ExtTreeMap.mem_keys.mp hb)) hvals
          hv ha
    · intro h
      refine .inr ?_
      cases h with
      | data ha hb => exact .inl (.inl (.inl ⟨ha, hb⟩))
      | memory hb hm hd hdef => exact .inl (.inl (.inr ⟨hb, hm, hd, hdef⟩))
      | @control y x hyx ha hb => exact .inl (.inr ⟨y, x, hyx, ha, hb⟩)
      | @phi vals k y hb hvals hv ha =>
        exact .inr ⟨b, ExtTreeMap.mem_keys.mpr ((DataDependenceGraphPass.ddg_isNode b).mpr hb), rfl,
          vals, k, y, hvals, hv, ha⟩
  refine ⟨PDG₂, bind_ok.mpr ⟨PDG₁, hok₁, hok₂⟩, fun v => ?_, hedge⟩
  have hadded : PDG₂.IsNode v ↔ v ∈ F.allInsts ∨ ∃ w, PDG₂.Edge v w := by
    rw [hall.isNode, DependenceGraph.addNodes_isNode]
    simp only [hall.edge, DependenceGraph.addNodes_edge, DependenceGraph.empty_isNode,
      DependenceGraph.empty_edge, false_or, ExtTreeMap.mem_keys]
    rw [show v ∈ ddg.nodes ↔ v ∈ F.allInsts from DataDependenceGraphPass.ddg_isNode v]
  rw [hadded, or_iff_left_iff_imp]
  rintro ⟨w, hw⟩
  exact (((hedge v w).mp hw).mem hF fun y x hyx => ⟨hcdg y hyx.isNode, hdep y x hyx⟩).1

end ProgramDependenceGraphPass

end Edges

end IcsaDswp
