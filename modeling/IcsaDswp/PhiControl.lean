import IcsaDswp.Pipeline

/-!
# Branches that decide the value of a phi node

Two paths from a branch in `Y` to a phi node in `B` that bring different values (`PhiFork`). The
branch reaches the phi node in the PDG if `B` can be avoided from `Y` (`Lib.ctrlDep_of_fork`), or if
one of the values comes into being on its path: a constant, for which the pass adds an edge, or an
instruction (`Lib.ctrlDep_of_fork_inner`). Two values from `Y` or above, such as the arguments of the
function, leave no trace (`phi_unreachable_diamond`).
-/

namespace IcsaDswp

open Lib Relation

variable {Inst BB Loop : Type}

/-- Every path from the entry to `b` passes through `a`. -/
def Function.Dominates (F : Function Inst BB Loop) (a b : BB) : Prop :=
  Lib.PostDom (fun y z => F.toCfg.Edge z y) (fun y => F.blocks.head? = some y) a b

/-- Static single assignment: an instruction is available wherever it is used, a phi node using its
values at the ends of their blocks, and knows its users. -/
structure Function.SSA (F : Function Inst BB Loop) : Prop where
  use : ∀ a ∈ F.blocks, ∀ i ∈ F.insts a, ∀ u, some u ∈ F.users i → F.incoming u = none →
    ∀ b ∈ F.blocks, u ∈ F.insts b →
      (a ≠ b → F.Dominates a b) ∧ (a = b → [i, u].Sublist (F.insts b))
  phi : ∀ u ∈ F.allInsts, ∀ vals, F.incoming u = some vals → ∀ i b, (.instruction i, b) ∈ vals →
    some u ∈ F.users i ∧ ∃ a ∈ F.blocks, i ∈ F.insts a ∧ F.Dominates a b

/-- Paths from `Y` to `B` with the inner blocks `m₁` and `m₂` that share no other block and bring
the values `v₁` and `v₂` of the phi node `P` of `B`. -/
structure PhiFork (F : Function Inst BB Loop) (P : Inst) (B Y : BB) (v₁ v₂ : Value Inst)
    (m₁ m₂ : List BB) : Prop where
  branch : ∃ s s', s ≠ s' ∧ F.toCfg.Edge Y s ∧ F.toCfg.Edge Y s'
  mem : P ∈ F.insts B
  phi : ∃ vals, F.incoming P = some vals ∧ (v₁, m₁.getLastD Y) ∈ vals ∧
    (v₂, m₂.getLastD Y) ∈ vals
  walk₁ : Walk F.toCfg.Edge Y m₁ B
  walk₂ : Walk F.toCfg.Edge Y m₂ B
  disjoint : ∀ x ∈ m₁, x ∈ m₂ → x = Y
  inner₁ : B ∉ m₁
  inner₂ : B ∉ m₂
  block_ne : m₁.getLastD Y ≠ m₂.getLastD Y
  value_ne : v₁ ≠ v₂

/-- The value is a constant or an instruction of one of the blocks `m`. -/
def Function.ArisesOn (F : Function Inst BB Loop) (v : Value Inst) (m : List BB) : Prop :=
  match v with
  | .constant _ => True
  | .argument _ => False
  | .instruction i => ∃ b ∈ m, i ∈ F.insts b

section PhiFork

variable {F : Function Inst BB Loop} {P : Inst} {B Y : BB} {v₁ v₂ : Value Inst} {m₁ m₂ : List BB}

theorem PhiFork.symm (h : PhiFork F P B Y v₁ v₂ m₁ m₂) : PhiFork F P B Y v₂ v₁ m₂ m₁ := by
  obtain ⟨vals, hvals, h₁, h₂⟩ := h.phi
  exact ⟨h.branch, h.mem, ⟨vals, hvals, h₂, h₁⟩, h.walk₂, h.walk₁,
    fun x hx hx' => h.disjoint x hx' hx, h.inner₂, h.inner₁, h.block_ne.symm, h.value_ne.symm⟩

/-- The inner blocks of a path belong to the function. -/
theorem mem_blocks_of_walk {m : List BB} {z : BB} (h : Walk F.toCfg.Edge Y m z) :
    z ∈ F.blocks ∧ ∀ b ∈ m, b ∈ F.blocks := by
  induction h with
  | single h => exact ⟨h.mem_right, by simp⟩
  | snoc _ h ih =>
    refine ⟨h.mem_right, fun b hb => ?_⟩
    rcases List.mem_append.mp hb with hb | hb
    · exact ih.2 b hb
    · exact List.mem_singleton.mp hb ▸ ih.1

/-- A value that arises on its path carries the dependence on. -/
theorem PhiFork.dep_of_arises (h : PhiFork F P B Y v₁ v₂ m₁ m₂) (hF : F.SelfContained)
    (hssa : F.SSA) (hB : F.toCfg.ReachesExit B) (hs : F.toCfg.SPostDom B Y)
    (hv : F.ArisesOn v₁ m₁) {t : Inst} (ht : F.back Y = .ok t) : TransGen F.Dep t P := by
  have hP : P ∈ F.allInsts := Function.mem_allInsts.mpr ⟨B, (mem_blocks_of_walk h.walk₁).1, h.mem⟩
  have hctrl : ∀ d ∈ m₁, ∀ i ∈ F.insts d, TransGen F.Dep t i := by
    intro d hd i hi
    have hd := ctrlDep_of_fork_inner h.walk₁ h.walk₂ h.disjoint hB hs h.inner₁ hd
    exact (dep_of_ctrlDep hF (S := fun _ => True) (hd.lift id fun _ _ h => ⟨h, trivial⟩) ht hi).lift
      id fun _ _ h => h.1
  obtain ⟨vals, hvals, hin, -⟩ := h.phi
  cases v₁ with
  | argument n => exact absurd hv id
  | constant k =>
    -- the edge from the end of the incoming block
    rcases List.eq_nil_or_concat m₁ with rfl | ⟨m, b, rfl⟩
    · exact .single (.phi hP hvals hin ht)
    · rw [List.concat_eq_append] at hin hctrl h
      have hb : b ∈ m ++ [b] := by simp
      obtain ⟨u, hu⟩ := hF.exists_back ((mem_blocks_of_walk h.walk₁).2 b hb)
      have hin : (.constant k, b) ∈ vals := by simpa using hin
      exact (hctrl b hb u (Function.back_mem hu)).tail (.phi hP hvals hin hu)
  | instruction i =>
    obtain ⟨d, hd, hi⟩ := hv
    have hmem : i ∈ F.allInsts :=
      Function.mem_allInsts.mpr ⟨d, (mem_blocks_of_walk h.walk₁).2 d hd, hi⟩
    exact (hctrl d hd i hi).tail (.data hmem (hssa.phi P hP vals hvals i _ hin).1)

variable [LinearOrder Inst] [LinearOrder BB]

/-- **A branch that decides a phi node reaches it**, where the phi node's block can reach an exit
and can be avoided from the branch, or one of the two values arises on its path. -/
theorem phi_reachable (hF : F.WellFormed) (hssa : F.SSA) (h : PhiFork F P B Y v₁ v₂ m₁ m₂)
    (hB : F.toCfg.ReachesExit B)
    (hv : ¬ F.toCfg.SPostDom B Y ∨ F.ArisesOn v₁ m₁ ∨ F.ArisesOn v₂ m₂) :
    ∃ PDG t, buildPDG F = .ok PDG ∧ F.back Y = .ok t ∧ TransGen PDG.Edge t P := by
  obtain ⟨PDG, hPDG, -, hedge, -⟩ := buildPDG_spec hF
  obtain ⟨s, -, -, hYs, -⟩ := h.branch
  obtain ⟨t, ht⟩ := hF.exists_back hYs.1
  refine ⟨PDG, t, hPDG, ht, hedge ▸ ?_⟩
  by_cases hs : F.toCfg.SPostDom B Y
  · rcases hv.resolve_left (not_not.mpr hs) with hv | hv
    · exact h.dep_of_arises hF.toSelfContained hssa hB hs hv ht
    · exact h.symm.dep_of_arises hF.toSelfContained hssa hB hs hv ht
  · have hYB := ctrlDep_of_fork h.walk₁ h.walk₂ h.disjoint hB hs
    exact (dep_of_ctrlDep hF.toSelfContained (S := fun _ => True)
      (hYB.lift id fun _ _ h => ⟨h, trivial⟩) ht h.mem).lift id fun _ _ h => h.1

end PhiFork

/-- Entry, two branches, the block where they meet, and a last one that returns. To go round
`forever` is to go back from where they meet to the first branch; there the entry is a `switch`
that can also return. -/
def diamondCfg (forever : Bool) : Cfg (Fin 5) where
  blocks := [0, 1, 2, 3, 4]
  succs := ![if forever then [1, 2, 4] else [1, 2], [3], [3], if forever then [1] else [4], []]
  succs_mem := by cases forever <;> decide

def diamondInsts : Fin 5 → List (Fin 10) := ![[0, 1], [2, 3], [4, 5], [6, 7, 8], [9]]

def diamondUsers : Fin 10 → List (Option (Fin 10)) :=
  ![[some 1], [], [], [], [], [], [some 7], [], [], []]

/-- `if (c) x = v; else x = w;` and a use of `x`; a block that reaches no exit is not in the tree. -/
def diamond (forever : Bool) (v w : Value (Fin 10)) : Function (Fin 10) (Fin 5) (Fin 1) where
  toCfg := diamondCfg forever
  insts := diamondInsts
  users := diamondUsers
  incoming i := if i = 6 then some [(v, 1), (w, 2)] else none
  mayReadOrWriteMemory _ := false
  getDependency _ := ⟨none, false⟩
  pdt := if forever then ⟨.node none [.node (some 4) [.node (some 0) []]]⟩
    else ⟨.node (some 4) [.node (some 3) [.node (some 0) [], .node (some 1) [], .node (some 2) []]]⟩
  loops := []
  loopBlocks _ := []

section Diamond

variable {forever : Bool} {v w : Value (Fin 10)}

/-- What is used is used in its own block, if no instruction flows into the phi node. -/
theorem diamond_ssa (hv : ∀ i, v ≠ .instruction i) (hw : ∀ i, w ≠ .instruction i) :
    (diamond forever v w).SSA where
  use a _ i hi u hu _ b _ hub := by
    have huse : ∀ a, ∀ i ∈ diamondInsts a, ∀ u, some u ∈ diamondUsers i → ∀ b,
        u ∈ diamondInsts b → a = b ∧ [i, u].Sublist (diamondInsts b) := by decide
    obtain ⟨hab, hiu⟩ := huse a i hi u hu b hub
    exact ⟨fun hne => absurd hab hne, fun _ => hiu⟩
  phi u _ vals hvals i b hi := by
    obtain rfl : vals = [(v, 1), (w, 2)] := by
      have hin : (if u = 6 then some [(v, 1), (w, 2)] else none) = some vals := hvals
      split at hin
      · exact (Option.some.inj hin).symm
      · cases hin
    simp only [List.mem_cons, Prod.mk.injEq, List.not_mem_nil, or_false] at hi
    rcases hi with ⟨hi, -⟩ | ⟨hi, -⟩
    · exact absurd hi.symm (hv i)
    · exact absurd hi.symm (hw i)

theorem diamond_fork (h : v ≠ w) : PhiFork (diamond forever v w) 6 3 0 v w [1] [2] := by
  have h01 : (diamondCfg forever).Edge 0 1 := by cases forever <;> decide
  have h02 : (diamondCfg forever).Edge 0 2 := by cases forever <;> decide
  have h13 : (diamondCfg forever).Edge 1 3 := by cases forever <;> decide
  have h23 : (diamondCfg forever).Edge 2 3 := by cases forever <;> decide
  exact ⟨⟨1, 2, by decide, h01, h02⟩, show 6 ∈ diamondInsts 3 by decide,
    ⟨[(v, 1), (w, 2)], rfl, by simp, by simp⟩, .snoc (.single h01) h13, .snoc (.single h02) h23,
    by decide, by decide, by decide, by decide, h⟩

end Diamond

theorem phi_reachable_diamond :
    ∃ PDG t, buildPDG (diamond false (.constant 0) (.constant 1)) = .ok PDG ∧
      (diamond false (.constant 0) (.constant 1)).back 0 = .ok t ∧ TransGen PDG.Edge t 6 :=
  phi_reachable (by decide +kernel) (diamond_ssa (by simp) (by simp)) (diamond_fork (by simp))
    (by decide +kernel) (.inr (.inl trivial))

/-- The branch of the diamond decides the phi node and the function can return, but nothing in the
PDG leads from the branch to the phi node. -/
def Missed (forever : Bool) (v w : Value (Fin 10)) : Prop :=
  (diamond forever v w).WellFormed ∧ (diamond forever v w).SSA ∧
  (diamondCfg forever).ReachesExit 0 ∧
  PhiFork (diamond forever v w) 6 3 0 v w [1] [2] ∧
  ∃ PDG, buildPDG (diamond forever v w) = .ok PDG ∧ (diamond forever v w).back 0 = .ok 1 ∧
    ¬ ReflTransGen PDG.Edge 1 6

theorem not_reaches_of_sources {V : Type} {E : V → V → Prop} {t p : V} (htp : p ≠ t)
    (h : ∀ a, E a p → a ≠ t ∧ ∀ b, ¬ E b a) : ¬ ReflTransGen E t p := by
  intro hr
  rcases hr.cases_tail with hpt | ⟨a, hra, ha⟩
  · exact htp hpt
  obtain ⟨hne, hno⟩ := h a ha
  rcases hra.cases_tail with hat | ⟨b, -, hb⟩
  · exact hne hat
  · exact hno b hb

theorem missed_of_sources {forever : Bool} {v w : Value (Fin 10)}
    (hF : (diamond forever v w).WellFormed) (hv : ∀ i, v ≠ .instruction i)
    (hw : ∀ i, w ≠ .instruction i) (hne : v ≠ w)
    (hrun : (buildPDG (diamond forever v w)).map
      (fun PDG => decide (∀ a, PDG.Edge a 6 → a ≠ 1 ∧ ∀ b, ¬ PDG.Edge b a)) = .ok true) :
    Missed forever v w := by
  obtain ⟨PDG, hPDG, hno⟩ := map_ok.mp hrun
  have hexit : (diamondCfg forever).ReachesExit 0 := by cases forever <;> decide +kernel
  exact ⟨hF, diamond_ssa hv hw, hexit, diamond_fork hne, PDG, hPDG, rfl,
    not_reaches_of_sources (by decide) (of_decide_eq_true hno)⟩

/-- Two arguments leave no trace of the branch, and where no path leads from the phi node to an exit
no branch has control of it. -/
theorem phi_unreachable_diamond :
    Missed false (.argument 0) (.argument 1) ∧ Missed true (.constant 0) (.constant 1) := by
  constructor
  · refine missed_of_sources (by decide +kernel) (by simp) (by simp) (by simp) ?_
    unfold buildPDG ControlDependenceGraphPass.runOnFunction
    rw [ControlDependenceGraphPass.getBottomUpTraversal_eq]
    decide +kernel
  · refine missed_of_sources (by decide +kernel) (by simp) (by simp) (by simp) ?_
    unfold buildPDG ControlDependenceGraphPass.runOnFunction
    rw [ControlDependenceGraphPass.getBottomUpTraversal_eq]
    decide +kernel

end IcsaDswp
