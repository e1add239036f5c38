import IcsaDswp.Dependence
import IcsaDswp.Lib.PostDom

/-!
# Functions as the passes see them

The parts of LLVM's IR and analyses that the passes read: the control-flow graph, the instructions
of each block with their users and phi operands, the answers of `MemoryDependenceAnalysis`, the
top-level loops of `LoopInfo` and the post-dominator tree. `Cfg` carries that successors are blocks.
`PostDominatorTree.Correct` is what the control dependence pass relies on: one node for each block
that reaches an exit, below its closest strict post-dominator.
-/

namespace IcsaDswp

open Lib

/-! ## Control flow -/

/-- The blocks of a function and the successors of their terminators. -/
structure Cfg (BB : Type) where
  blocks : List BB
  succs : BB → List BB
  succs_mem : ∀ b ∈ blocks, ∀ s ∈ succs b, s ∈ blocks

namespace Cfg

variable {BB : Type} (G : Cfg BB)

def Edge (y z : BB) : Prop := y ∈ G.blocks ∧ z ∈ G.succs y

/-- A block whose terminator has no successor. -/
def Exit (b : BB) : Prop := b ∈ G.blocks ∧ G.succs b = []

abbrev ReachesExit (b : BB) : Prop := Lib.ReachesExit G.Edge G.Exit b

/-- `x` post-dominates `z`. -/
abbrev PostDom (x z : BB) : Prop := Lib.PostDom G.Edge G.Exit x z

abbrev SPostDom (x z : BB) : Prop := Lib.SPostDom G.Edge G.Exit x z

abbrev IPostDom (x z : BB) : Prop := Lib.IPostDom G.Edge G.Exit x z

/-- `x` is control dependent on `y`. -/
abbrev CtrlDep (y x : BB) : Prop := Lib.CtrlDep G.Edge G.Exit y x

/-- `pred_begin(b) .. pred_end(b)`: a block occurs once for each of its edges to `b`. -/
def preds [DecidableEq BB] (b : BB) : List BB :=
  G.blocks.flatMap fun y => ((G.succs y).filter (· = b)).map fun _ => y

variable {G}

theorem mem_preds [DecidableEq BB] {y b : BB} : y ∈ G.preds b ↔ G.Edge y b := by
  simp [preds, Edge]

theorem Edge.mem_right {y z : BB} (h : G.Edge y z) : z ∈ G.blocks := G.succs_mem y h.1 z h.2

theorem mem_blocks_of_reachesExit {b : BB} (h : G.ReachesExit b) : b ∈ G.blocks := by
  obtain ⟨p, hp⟩ := h
  cases hp with
  | exit h => exact h.1
  | step h _ => exact h.1

/-- A block that another is control dependent on branches. -/
theorem CtrlDep.exists_branch {y x : BB} (h : G.CtrlDep y x) :
    ∃ z w, G.Edge y z ∧ G.Edge y w ∧ z ≠ w := by
  have hy : ¬ G.Exit y := by
    rintro ⟨-, hexit⟩
    obtain ⟨z, hyz, -⟩ := h
    simpa [hexit] using hyz.2
  obtain ⟨z, w, hyz, -, hyw, -, hne⟩ := Lib.CtrlDep.exists_branch h hy
  exact ⟨z, w, hyz, hyw, hne⟩

/-- `succs` cut down to the blocks. -/
def next [DecidableEq BB] (G : Cfg BB) (y : BB) : List BB := if y ∈ G.blocks then G.succs y else []

theorem edge_iff_mem_next [DecidableEq BB] (y z : BB) : G.Edge y z ↔ z ∈ G.next y := by
  unfold Edge next
  split <;> simp [*]

instance [DecidableEq BB] (b : BB) : Decidable (G.Exit b) :=
  inferInstanceAs (Decidable (b ∈ G.blocks ∧ G.succs b = []))

instance [DecidableEq BB] (y z : BB) : Decidable (G.Edge y z) :=
  inferInstanceAs (Decidable (y ∈ G.blocks ∧ z ∈ G.succs y))

instance [DecidableEq BB] (z : BB) : Decidable (G.ReachesExit z) :=
  Lib.decidableReachesExit edge_iff_mem_next (fun _ _ h => h.1) (fun _ h => h.1) z

instance [DecidableEq BB] (x z : BB) : Decidable (G.PostDom x z) :=
  Lib.decidablePostDom edge_iff_mem_next (fun _ _ h => h.1) (fun _ h => h.1) x z

instance [DecidableEq BB] (x z : BB) : Decidable (G.SPostDom x z) :=
  inferInstanceAs (Decidable (G.PostDom x z ∧ x ≠ z))

instance [DecidableEq BB] [Fintype BB] (x z : BB) : Decidable (G.IPostDom x z) :=
  inferInstanceAs (Decidable (G.SPostDom x z ∧ ∀ w, G.SPostDom w z → G.PostDom w x))

end Cfg

/-! ## The post-dominator tree -/

/-- A node of LLVM's dominator tree; the root of a function with several exits has no block. -/
inductive DomTreeNode (BB : Type) where
  | node (block : Option BB) (children : List (DomTreeNode BB))

namespace DomTreeNode

variable {BB : Type}

/-- `getBlock()`. -/
def block : DomTreeNode BB → Option BB
  | node b _ => b

/-- `begin() .. end()`. -/
def children : DomTreeNode BB → List (DomTreeNode BB)
  | node _ cs => cs

@[elab_as_elim, induction_eliminator]
theorem ind {P : DomTreeNode BB → Prop}
    (node : ∀ b cs, (∀ c ∈ cs, P c) → P (.node b cs)) : ∀ t, P t
  | .node b cs => node b cs fun c _ => ind node c

mutual

/-- The nodes below `t`, `t` first, later children before earlier ones. -/
def visit : DomTreeNode BB → List (DomTreeNode BB)
  | .node b cs => .node b cs :: visitLast cs

def visitLast : List (DomTreeNode BB) → List (DomTreeNode BB)
  | [] => []
  | c :: cs => visitLast cs ++ c.visit

end

theorem visitLast_eq (cs : List (DomTreeNode BB)) : visitLast cs = cs.reverse.flatMap visit := by
  induction cs with
  | nil => rfl
  | cons c cs ih => simp [visitLast, ih]

theorem visit_eq (t : DomTreeNode BB) : t.visit = t :: t.children.reverse.flatMap visit := by
  cases t with
  | node b cs => rw [visit, visitLast_eq]; rfl

theorem mem_visit_self (t : DomTreeNode BB) : t ∈ t.visit := by
  rw [visit_eq]; simp

theorem mem_visit {t n : DomTreeNode BB} :
    n ∈ t.visit ↔ n = t ∨ ∃ c ∈ t.children, n ∈ c.visit := by
  rw [visit_eq]; simp

theorem mem_visit_trans {t n m : DomTreeNode BB} (hn : n ∈ t.visit) (hm : m ∈ n.visit) :
    m ∈ t.visit := by
  induction t with
  | node b cs ih =>
    rcases mem_visit.mp hn with rfl | ⟨c, hc, hn⟩
    · exact hm
    · exact mem_visit.mpr (.inr ⟨c, hc, ih c hc hn⟩)

theorem mem_visit_child {t n c : DomTreeNode BB} (hn : n ∈ t.visit) (hc : c ∈ n.children) :
    c ∈ t.visit :=
  mem_visit_trans hn (mem_visit.mpr (.inr ⟨c, hc, mem_visit_self c⟩))

/-- Every node but the first is a child. -/
theorem exists_parent {t n : DomTreeNode BB} (hn : n ∈ t.visit) (hne : n ≠ t) :
    ∃ p ∈ t.visit, n ∈ p.children := by
  induction t with
  | node b cs ih =>
    obtain ⟨c, hc, hn⟩ := (mem_visit.mp hn).resolve_left hne
    by_cases h : n = c
    · exact ⟨_, mem_visit_self _, h ▸ hc⟩
    · obtain ⟨p, hp, hnp⟩ := ih c hc hn h
      exact ⟨p, mem_visit.mpr (.inr ⟨c, hc, hp⟩), hnp⟩

/-- A list of nodes in which every node stands in front of its children. -/
def ParentsFirst (l : List (DomTreeNode BB)) : Prop :=
  ∀ before n rest, l = before ++ n :: rest → ∀ c ∈ n.children, c ∈ rest

theorem ParentsFirst.append {l l' : List (DomTreeNode BB)} (h : ParentsFirst l)
    (h' : ParentsFirst l') : ParentsFirst (l ++ l') := by
  intro before n rest he c hc
  rcases List.append_eq_append_iff.mp he with ⟨a, rfl, ha⟩ | ⟨a, ha, hr⟩
  · exact h' a n rest ha c hc
  · rcases List.cons_eq_append_iff.mp hr with ⟨rfl, hr⟩ | ⟨a', rfl, rfl⟩
    · exact h' [] n rest hr.symm c hc
    · exact List.mem_append_left _ (h before n a' ha c hc)

theorem ParentsFirst.flatMap {cs : List (DomTreeNode BB)}
    (h : ∀ c ∈ cs, ParentsFirst c.visit) : ParentsFirst (cs.flatMap visit) := by
  induction cs with
  | nil => intro before n rest he; simp at he
  | cons c cs ih =>
    rw [List.flatMap_cons]
    exact (h c (by simp)).append (ih fun d hd => h d (List.mem_cons_of_mem _ hd))

theorem visit_parentsFirst (t : DomTreeNode BB) : ParentsFirst t.visit := by
  induction t with
  | node b cs ih =>
    rw [visit_eq]
    rintro (_ | ⟨a, before⟩) n rest he c hc
    · obtain ⟨rfl, rfl⟩ := List.cons.inj he
      exact List.mem_flatMap.mpr ⟨c, List.mem_reverse.mpr hc, mem_visit_self c⟩
    · have hcs : ParentsFirst (cs.reverse.flatMap visit) :=
        .flatMap fun d hd => ih d (List.mem_reverse.mp hd)
      exact hcs before n rest (List.cons.inj he).2 c hc

end DomTreeNode

/-- LLVM's `PostDominatorTree`. -/
structure PostDominatorTree (BB : Type) where
  root : DomTreeNode BB

namespace PostDominatorTree

variable {BB : Type}

/-- `getNode(b)`; null for a block without a node. -/
def getNode [DecidableEq BB] (pdt : PostDominatorTree BB) (b : BB) : Option (DomTreeNode BB) :=
  pdt.root.visit.find? fun n => n.block = some b

/-- `n->getIDom()`, the parent of `n`; null for the root. -/
def getIDom [DecidableEq BB] (pdt : PostDominatorTree BB) (n : DomTreeNode BB) :
    Option (DomTreeNode BB) :=
  pdt.root.visit.find? fun p => p.children.any fun c => c.block = n.block

/-- The tree LLVM is assumed to build for `G`. -/
structure Correct (pdt : PostDominatorTree BB) (G : Cfg BB) : Prop where
  /-- One node a block, at most one without a block. -/
  nodup : (pdt.root.visit.map DomTreeNode.block).Nodup
  mem : ∀ b, some b ∈ pdt.root.visit.map DomTreeNode.block ↔ G.ReachesExit b
  /-- The children of a block's node are the blocks it immediately post-dominates. -/
  child : ∀ n ∈ pdt.root.visit, ∀ c ∈ n.children, ∀ x, n.block = some x →
    ∃ b, c.block = some b ∧ G.IPostDom x b
  /-- The children of a block-less node are blocks without strict post-dominator. -/
  virtual : ∀ n ∈ pdt.root.visit, ∀ c ∈ n.children, n.block = none →
    ∃ b, c.block = some b ∧ ∀ x, ¬ G.SPostDom x b

instance [DecidableEq BB] [Fintype BB] (pdt : PostDominatorTree BB) (G : Cfg BB) :
    Decidable (pdt.Correct G) :=
  decidable_of_iff
    ((pdt.root.visit.map DomTreeNode.block).Nodup ∧
      (∀ b, some b ∈ pdt.root.visit.map DomTreeNode.block ↔ G.ReachesExit b) ∧
      (∀ n ∈ pdt.root.visit, ∀ c ∈ n.children, ∀ x, n.block = some x →
        ∃ b, c.block = some b ∧ G.IPostDom x b) ∧
      ∀ n ∈ pdt.root.visit, ∀ c ∈ n.children, n.block = none →
        ∃ b, c.block = some b ∧ ∀ x, ¬ G.SPostDom x b)
    ⟨fun ⟨h₁, h₂, h₃, h₄⟩ => ⟨h₁, h₂, h₃, h₄⟩, fun h => ⟨h.nodup, h.mem, h.child, h.virtual⟩⟩

section Correct

variable {pdt : PostDominatorTree BB} {G : Cfg BB}

theorem Correct.eq_of_block (h : pdt.Correct G) {n m : DomTreeNode BB} (hn : n ∈ pdt.root.visit)
    (hm : m ∈ pdt.root.visit) (hb : n.block = m.block) : n = m :=
  List.inj_on_of_nodup_map h.nodup hn hm hb

theorem Correct.exists_node (h : pdt.Correct G) {b : BB} (hb : G.ReachesExit b) :
    ∃ n ∈ pdt.root.visit, n.block = some b := by
  simpa using (h.mem b).mpr hb

theorem Correct.reachesExit (h : pdt.Correct G) {n : DomTreeNode BB} (hn : n ∈ pdt.root.visit)
    {b : BB} (hb : n.block = some b) : G.ReachesExit b :=
  (h.mem b).mp (List.mem_map.mpr ⟨n, hn, hb⟩)

theorem Correct.child_block (h : pdt.Correct G) {n c : DomTreeNode BB}
    (hn : n ∈ pdt.root.visit) (hc : c ∈ n.children) : ∃ b, c.block = some b := by
  cases hb : n.block with
  | none =>
    obtain ⟨b, hb, -⟩ := h.virtual n hn c hc hb
    exact ⟨b, hb⟩
  | some x =>
    obtain ⟨b, hb, -⟩ := h.child n hn c hc x hb
    exact ⟨b, hb⟩

theorem Correct.getNode_eq [DecidableEq BB] (h : pdt.Correct G) {n : DomTreeNode BB}
    (hn : n ∈ pdt.root.visit) {b : BB} (hb : n.block = some b) : pdt.getNode b = some n := by
  have hs : (pdt.getNode b).isSome := by
    rw [getNode, List.find?_isSome]
    exact ⟨n, hn, by simpa using hb⟩
  obtain ⟨m, hm⟩ := Option.isSome_iff_exists.mp hs
  rw [hm, h.eq_of_block (List.mem_of_find?_eq_some hm) hn]
  rw [hb]
  simpa using List.find?_some hm

/-- The block of the root post-dominates the blocks below it. -/
theorem Correct.root_postDom (h : pdt.Correct G) {t n : DomTreeNode BB}
    (ht : t ∈ pdt.root.visit) (hn : n ∈ t.visit) {x b : BB} (hx : t.block = some x)
    (hb : n.block = some b) : G.PostDom x b := by
  induction t generalizing x with
  | node blk cs ih =>
    rcases DomTreeNode.mem_visit.mp hn with rfl | ⟨c, hc, hn⟩
    · obtain rfl : x = b := by simpa using hx.symm.trans hb
      exact .refl x
    · obtain ⟨y, hy, hxy⟩ := h.child _ ht c hc x hx
      exact hxy.1.1.trans (ih c hc (DomTreeNode.mem_visit_child ht hc) hn hy)

/-- The parent of the node of `y` is the node of the immediate post-dominator of `y`. -/
theorem Correct.parent_block (h : pdt.Correct G) {p c : DomTreeNode BB} (hp : p ∈ pdt.root.visit)
    (hc : c ∈ p.children) {x y : BB} (hy : c.block = some y) (hxy : G.IPostDom x y) :
    p.block = some x := by
  have hry : G.ReachesExit y := h.reachesExit (DomTreeNode.mem_visit_child hp hc) hy
  cases hpb : p.block with
  | none =>
    obtain ⟨b, hb, hno⟩ := h.virtual p hp c hc hpb
    obtain rfl : b = y := by simpa using hb.symm.trans hy
    exact absurd hxy.1 (hno x)
  | some z =>
    obtain ⟨b, hb, hzb⟩ := h.child p hp c hc z hpb
    obtain rfl : b = y := by simpa using hb.symm.trans hy
    have hrx : G.ReachesExit x := Lib.ReachesExit.of_postDom hry hxy.1.1
    rw [Lib.PostDom.antisymm hrx (hxy.2 z hzb.1) (hzb.2 x hxy.1)]

theorem Correct.exists_child (h : pdt.Correct G) {n : DomTreeNode BB} (hn : n ∈ pdt.root.visit)
    {x y : BB} (hx : n.block = some x) (hxy : G.IPostDom x y) (hry : G.ReachesExit y) :
    ∃ c ∈ n.children, c.block = some y := by
  obtain ⟨m, hm, hy⟩ := h.exists_node hry
  -- `y` is not the root: the root post-dominates `x`, which post-dominates `y`
  have hroot : m ≠ pdt.root := by
    rintro rfl
    exact hxy.1.2 (hxy.1.1.antisymm hry (h.root_postDom hm hn hy hx))
  obtain ⟨p, hp, hmp⟩ := DomTreeNode.exists_parent hm hroot
  obtain rfl : p = n := h.eq_of_block hp hn ((h.parent_block hp hmp hy hxy).trans hx.symm)
  exact ⟨m, hmp, hy⟩

/-- **`getNode(y)->getIDom()`** is the node of the immediate post-dominator of `y`. -/
theorem Correct.getIDom_iff [DecidableEq BB] (h : pdt.Correct G) {n m : DomTreeNode BB}
    (hn : n ∈ pdt.root.visit) (hm : m ∈ pdt.root.visit) {x y : BB} (hx : n.block = some x)
    (hy : m.block = some y) :
    (pdt.getIDom m).map DomTreeNode.block = some (some x) ↔ G.IPostDom x y := by
  have hfound : ∀ p, pdt.getIDom m = some p → p ∈ pdt.root.visit ∧
      ∃ c ∈ p.children, c.block = some y := by
    intro p hp
    refine ⟨List.mem_of_find?_eq_some hp, ?_⟩
    have := List.find?_some hp
    simpa [hy] using this
  constructor
  · intro hid
    obtain ⟨p, hp, hpx⟩ := Option.map_eq_some_iff.mp hid
    obtain ⟨hpv, c, hc, hcy⟩ := hfound p hp
    obtain ⟨b, hb, hxb⟩ := h.child p hpv c hc x hpx
    obtain rfl : b = y := by simpa using hb.symm.trans hcy
    exact hxb
  · intro hxy
    obtain ⟨c, hc, hcy⟩ := h.exists_child hn hx hxy (h.reachesExit hm hy)
    have hs : (pdt.getIDom m).isSome := by
      rw [getIDom, List.find?_isSome]
      exact ⟨n, hn, by simpa [hy] using ⟨c, hc, hcy⟩⟩
    obtain ⟨q, hq⟩ := Option.isSome_iff_exists.mp hs
    obtain ⟨hqv, d, hd, hdy⟩ := hfound q hq
    rw [hq, Option.map_some, h.parent_block hqv hd hdy hxy]

end Correct

end PostDominatorTree

/-! ## Instructions -/

/-- What flows into a phi node: a constant, an argument of the function or an instruction. -/
inductive Value (Inst : Type) where
  | constant (id : Nat)
  | argument (index : Nat)
  | instruction (inst : Inst)
  deriving DecidableEq, Repr

/-- `llvm::MemDepResult`: `getInst()`, null without a local dependence, and `isDef()`. -/
structure MemDepResult (Inst : Type) where
  inst : Option Inst
  isDef : Bool

/-- `llvm::Function` with the results of the analyses the passes require. -/
structure Function (Inst BB Loop : Type) extends Cfg BB where
  insts : BB → List Inst
  /-- `users()`; null for a user that is not an instruction. -/
  users : Inst → List (Option Inst)
  /-- The incoming values and blocks of a phi node; null for other instructions. -/
  incoming : Inst → Option (List (Value Inst × BB))
  mayReadOrWriteMemory : Inst → Bool
  getDependency : Inst → MemDepResult Inst
  pdt : PostDominatorTree BB
  /-- The top-level loops, as `LoopInfo` iterates over them. -/
  loops : List Loop
  loopBlocks : Loop → List BB

namespace Function

variable {Inst BB Loop : Type} (F : Function Inst BB Loop)

/-- `inst_begin(F) .. inst_end(F)`. -/
def allInsts : List Inst := F.blocks.flatMap F.insts

/-- `b->back()`. -/
def back (b : BB) : Except Fault Inst :=
  match (F.insts b).getLast? with
  | some inst => .ok inst
  | none => .error .emptyBlock

/-- The instructions of a loop. -/
def InLoop (L : Loop) (inst : Inst) : Prop := ∃ b ∈ F.loopBlocks L, inst ∈ F.insts b

/-- All that the passes reach from the function belongs to it, and its blocks are not empty. -/
structure SelfContained : Prop where
  insts_ne : ∀ b ∈ F.blocks, F.insts b ≠ []
  users_mem : ∀ i ∈ F.allInsts, ∀ U ∈ F.users i, ∀ u ∈ U, u ∈ F.allInsts
  dep_mem : ∀ i ∈ F.allInsts, ∀ d ∈ (F.getDependency i).inst, d ∈ F.allInsts
  incoming_mem : ∀ i ∈ F.allInsts, ∀ vals ∈ F.incoming i, ∀ v ∈ vals, v.2 ∈ F.blocks

/-- What LLVM guarantees beyond: instructions occur once, the top-level loops are disjoint sets of
blocks of the function, and the post-dominator tree is right. -/
structure WellFormed : Prop extends F.SelfContained where
  insts_nodup : F.allInsts.Nodup
  loops_nodup : F.loops.Nodup
  loop_mem : ∀ L ∈ F.loops, ∀ b ∈ F.loopBlocks L, b ∈ F.blocks
  loops_disjoint : ∀ L ∈ F.loops, ∀ L' ∈ F.loops, L ≠ L' →
    ∀ b ∈ F.loopBlocks L, b ∉ F.loopBlocks L'
  pdt_correct : F.pdt.Correct F.toCfg

variable {F}

instance [DecidableEq Inst] [DecidableEq BB] : Decidable F.SelfContained :=
  decidable_of_iff
    ((∀ b ∈ F.blocks, F.insts b ≠ []) ∧
      (∀ i ∈ F.allInsts, ∀ U ∈ F.users i, ∀ u ∈ U, u ∈ F.allInsts) ∧
      (∀ i ∈ F.allInsts, ∀ d ∈ (F.getDependency i).inst, d ∈ F.allInsts) ∧
      ∀ i ∈ F.allInsts, ∀ vals ∈ F.incoming i, ∀ v ∈ vals, v.2 ∈ F.blocks)
    ⟨fun ⟨h₁, h₂, h₃, h₄⟩ => ⟨h₁, h₂, h₃, h₄⟩,
      fun h => ⟨h.insts_ne, h.users_mem, h.dep_mem, h.incoming_mem⟩⟩

instance [DecidableEq Inst] [DecidableEq BB] [Fintype BB] [DecidableEq Loop] :
    Decidable F.WellFormed :=
  decidable_of_iff
    (F.SelfContained ∧ F.allInsts.Nodup ∧ F.loops.Nodup ∧
      (∀ L ∈ F.loops, ∀ b ∈ F.loopBlocks L, b ∈ F.blocks) ∧
      (∀ L ∈ F.loops, ∀ L' ∈ F.loops, L ≠ L' → ∀ b ∈ F.loopBlocks L, b ∉ F.loopBlocks L') ∧
      F.pdt.Correct F.toCfg)
    ⟨fun ⟨h₁, h₂, h₃, h₄, h₅, h₆⟩ => ⟨h₁, h₂, h₃, h₄, h₅, h₆⟩,
      fun h => ⟨h.toSelfContained, h.insts_nodup, h.loops_nodup, h.loop_mem, h.loops_disjoint,
        h.pdt_correct⟩⟩

theorem mem_allInsts {inst : Inst} : inst ∈ F.allInsts ↔ ∃ b ∈ F.blocks, inst ∈ F.insts b :=
  List.mem_flatMap

theorem back_ok {b : BB} {inst : Inst} :
    F.back b = .ok inst ↔ (F.insts b).getLast? = some inst := by
  unfold back
  cases (F.insts b).getLast? <;> simp

theorem back_mem {b : BB} {inst : Inst} (h : F.back b = .ok inst) : inst ∈ F.insts b :=
  List.mem_of_getLast? (back_ok.mp h)

theorem SelfContained.exists_back (hF : F.SelfContained) {b : BB} (hb : b ∈ F.blocks) :
    ∃ inst, F.back b = .ok inst :=
  ⟨_, back_ok.mpr (List.getLast?_eq_some_getLast (hF.insts_ne b hb))⟩

theorem WellFormed.inLoop_mem (hF : F.WellFormed) {L : Loop} (hL : L ∈ F.loops) {inst : Inst}
    (h : F.InLoop L inst) : inst ∈ F.allInsts := by
  obtain ⟨b, hb, hi⟩ := h
  exact mem_allInsts.mpr ⟨b, hF.loop_mem L hL b hb, hi⟩

end Function

end IcsaDswp
