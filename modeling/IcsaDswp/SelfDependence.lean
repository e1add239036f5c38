import IcsaDswp.Pipeline

/-!
# Components that depend on themselves

The PSG has no edge from a component to itself; its comment has it that the sizes of the components
still tell which depend on themselves. They do for components of several instructions
(`exists_edge_of_mutual`), but a single instruction may depend on itself as well
(`Function.SelfDep`): a phi node of a value of its own, or the terminator of a block that is control
dependent on itself.
-/

namespace IcsaDswp

open Std (ExtTreeMap ExtTreeSet)
open Lib Relation

theorem OrdSet.one_lt_size_iff {K : Type} [LinearOrder K] {s : OrdSet K} :
    1 < s.size ↔ ∃ a ∈ s, ∃ b ∈ s, a ≠ b := by
  rw [← ExtTreeSet.length_toList, ← List.toFinset_card_of_nodup (OrdSet.nodup_toList s),
    Finset.one_lt_card]
  simp only [List.mem_toFinset, ExtTreeSet.mem_toList]

/-- Of two members of a component one has an edge to a member. -/
theorem exists_edge_of_mutual {V : Type} {E : V → V → Prop} {i j : V} (h : Mutual E i j)
    (hne : i ≠ j) : ∃ k, E i k ∧ Mutual E i k := by
  rcases h.1.cases_head with rfl | ⟨k, hik, hkj⟩
  · exact absurd rfl hne
  · exact ⟨k, hik, .single hik, hkj.trans h.2⟩

namespace PDGSCCGraphPass

variable {Inst : Type} [LinearOrder Inst] {PDG : DependenceGraph Inst}
  {st₀ st : PDGSCCGraphPass Inst}

/-- The size of a component tells whether it depends on itself, unless it is one instruction that
does. -/
theorem Condensed.edge_within_iff (h : Condensed PDG st₀ st) {a : Addr} {s : OrdSet Inst}
    (hs : st.deref a = some s) :
    ((∃ i ∈ s, ∃ j ∈ s, PDG.Edge i j) ↔ 1 < s.size) ↔
      ∀ i, (∀ j, j ∈ s ↔ j = i) → ¬ PDG.Edge i i := by
  obtain ⟨i, hi, hia⟩ := (h.isNode a).mp ((h.live a).mp ⟨s, hs⟩)
  obtain ⟨a', s', ha', hs', hmem⟩ := h.component i hi
  obtain rfl : a = a' := Except.ok.inj (hia.symm.trans ha')
  obtain rfl : s = s' := Option.some.inj (hs.symm.trans hs')
  by_cases hsize : 1 < s.size
  · obtain ⟨b, hb, c, hc, hbc⟩ := OrdSet.one_lt_size_iff.mp hsize
    have hmut : Mutual PDG.Edge b c := ((hmem b).mp hb).symm.trans ((hmem c).mp hc)
    obtain ⟨k, hbk, hm⟩ := exists_edge_of_mutual hmut hbc
    have hk : k ∈ s := (hmem k).mpr (((hmem b).mp hb).trans hm)
    refine iff_of_true (iff_of_true ⟨b, hb, k, hk, hbk⟩ hsize) fun j hj => ?_
    exact absurd (((hj b).mp hb).trans ((hj c).mp hc).symm) hbc
  · -- the component is the instruction `i` alone
    have honly : ∀ j, j ∈ s ↔ j = i := by
      intro j
      refine ⟨fun hj => ?_, fun hj => hj ▸ (hmem i).mpr (.refl i)⟩
      by_contra hne
      exact hsize (OrdSet.one_lt_size_iff.mpr ⟨j, hj, i, (hmem i).mpr (.refl i), hne⟩)
    have hedge : (∃ i ∈ s, ∃ j ∈ s, PDG.Edge i j) ↔ PDG.Edge i i := by
      simp only [honly, exists_eq_left]
    rw [hedge, iff_false_right hsize]
    refine ⟨fun hn j hj => ?_, fun hall => hall i honly⟩
    obtain rfl : i = j := (hj i).mp ((honly i).mpr rfl)
    exact hn

end PDGSCCGraphPass

/-! ## Instructions that depend on themselves -/

variable {Inst BB Loop : Type} {F : Function Inst BB Loop}

/-- `i` uses itself, is the definition its own access to memory depends on, ends a block that is
control dependent on itself, or is a phi node that ends a block one of its constants comes from. -/
def Function.SelfDep (F : Function Inst BB Loop) (i : Inst) : Prop :=
  some i ∈ F.users i ∨
  (F.mayReadOrWriteMemory i = true ∧ (F.getDependency i).inst = some i ∧
    (F.getDependency i).isDef = true) ∨
  (∃ y, F.toCfg.CtrlDep y y ∧ F.back y = .ok i) ∨
  ∃ vals k y, F.incoming i = some vals ∧ (.constant k, y) ∈ vals ∧ F.back y = .ok i

/-- An instruction has one block. -/
theorem Function.WellFormed.block_unique (hF : F.WellFormed) {x y : BB} (hx : x ∈ F.blocks)
    (hy : y ∈ F.blocks) {i : Inst} (hix : i ∈ F.insts x) (hiy : i ∈ F.insts y) : x = y := by
  by_contra hne
  have hsymm : Std.Symm (fun a b => List.Disjoint (F.insts a) (F.insts b)) := ⟨fun _ _ h => h.symm⟩
  have hpair : F.blocks.Pairwise fun a b => List.Disjoint (F.insts a) (F.insts b) :=
    (List.nodup_flatMap.mp hF.insts_nodup).2
  exact hpair.forall hx hy hne hix hiy

theorem Function.WellFormed.selfDep_iff (hF : F.WellFormed) {i : Inst} (hi : i ∈ F.allInsts) :
    F.Dep i i ↔ F.SelfDep i := by
  constructor
  · intro h
    cases h with
    | data _ hu => exact .inl hu
    | memory _ hrw hd hdef => exact .inr (.inl ⟨hrw, hd, hdef⟩)
    | @control y x hyx hy hx =>
      obtain rfl := hF.block_unique (Cfg.mem_blocks_of_reachesExit hyx.reachesExit.1)
        (Cfg.mem_blocks_of_reachesExit hyx.reachesExit.2) (Function.back_mem hy) hx
      exact .inr (.inr (.inl ⟨y, hyx, hy⟩))
    | phi _ hvals hv hy => exact .inr (.inr (.inr ⟨_, _, _, hvals, hv, hy⟩))
  · rintro (hu | ⟨hrw, hd, hdef⟩ | ⟨y, hyy, hy⟩ | ⟨vals, k, y, hvals, hv, hy⟩)
    · exact .data hi hu
    · exact .memory hi hrw hd hdef
    · exact .control hyy hy (Function.back_mem hy)
    · exact .phi hi hvals hv hy

variable [LinearOrder Inst] [LinearOrder BB]

/-- **What the sizes tell.** In the PSG of a function, a component has a dependence among its
members exactly when it has several, unless it is a single instruction that depends on itself. -/
theorem size_tells_iff (hF : F.WellFormed) (heap : Heap) {psg₀ : PDGSCCGraphPass Inst}
    (hpsg : psg₀.Released) :
    ∃ PDG psg, buildPDG F = .ok PDG ∧ psg₀.runOnFunction heap PDG = .ok psg ∧
      ∀ a s, psg.PSG.IsNode a → psg.deref a = some s →
        (((∃ i ∈ s, ∃ j ∈ s, PDG.Edge i j) ↔ 1 < s.size) ↔
          ∀ i, (∀ j, j ∈ s ↔ j = i) → ¬ F.SelfDep i) := by
  obtain ⟨PDG, hPDG, hnode, hedge, hclosed⟩ := buildPDG_spec hF
  obtain ⟨psg, hrun, h⟩ := PDGSCCGraphPass.runOnFunction_spec heap hclosed hpsg
  refine ⟨PDG, psg, hPDG, hrun, fun a s _ hs => ?_⟩
  rw [h.edge_within_iff hs]
  refine forall_congr' fun i => forall_congr' fun hi => not_congr ?_
  have hia : psg.Contains a i := ⟨s, hs, (hi i).mpr rfl⟩
  rw [hedge, hF.selfDep_iff ((hnode i).mp ((h.contains_iff hclosed).mp hia).1)]

/-- `do {} while (c);` for an argument `c`: entry, a block that branches to itself, and return. -/
def spin : Function (Fin 3) (Fin 3) (Fin 3) where
  blocks := [0, 1, 2]
  succs := ![[1], [1, 2], []]
  succs_mem := by decide
  insts := ![[0], [1], [2]]
  users _ := []
  incoming _ := none
  mayReadOrWriteMemory _ := false
  getDependency _ := ⟨none, false⟩
  pdt := ⟨.node (some 2) [.node (some 1) [.node (some 0) []]]⟩
  loops := [0]
  loopBlocks _ := [1]

theorem size_tells_iff_spin :
    spin.WellFormed ∧
    ∃ PDG psg, buildPDG spin = .ok PDG ∧
      PDGSCCGraphPass.fresh.runOnFunction .bump PDG = .ok psg ∧
      ∀ a s, psg.PSG.IsNode a → psg.deref a = some s →
        (((∃ i ∈ s, ∃ j ∈ s, PDG.Edge i j) ↔ 1 < s.size) ↔
          ∀ i, (∀ j, j ∈ s ↔ j = i) → ¬ spin.SelfDep i) :=
  have hF : spin.WellFormed := by decide +kernel
  ⟨hF, size_tells_iff hF .bump PDGSCCGraphPass.released_fresh⟩

/-- The branch of the loop is a component of its own and depends on itself. -/
theorem size_hides_spin :
    spin.WellFormed ∧
    ∃ PDG psg a s, buildPDG spin = .ok PDG ∧
      PDGSCCGraphPass.fresh.runOnFunction .bump PDG = .ok psg ∧
      psg.PSG.IsNode a ∧ psg.deref a = some s ∧
      ¬ ((∃ i ∈ s, ∃ j ∈ s, PDG.Edge i j) ↔ 1 < s.size) := by
  have hF : spin.WellFormed := by decide +kernel
  have hrun : (buildPDG spin >>= fun PDG =>
      (PDGSCCGraphPass.fresh.runOnFunction .bump PDG).map fun psg =>
        (decide (PDG.Edge 1 1), decide (psg.PSG.IsNode 2), (psg.deref 2).map fun s => s.toList)) =
      .ok (true, true, some [1]) := by
    unfold buildPDG ControlDependenceGraphPass.runOnFunction
    rw [ControlDependenceGraphPass.getBottomUpTraversal_eq]
    decide +kernel
  obtain ⟨PDG, hPDG, hrun⟩ := bind_ok.mp hrun
  obtain ⟨psg, hpsg, he⟩ := map_ok.mp hrun
  obtain ⟨hedge, hnode, hs⟩ : PDG.Edge 1 1 ∧ psg.PSG.IsNode 2 ∧
      (psg.deref 2).map (fun s => s.toList) = some [1] := by simpa using he
  obtain ⟨s, hs, hlist⟩ := Option.map_eq_some_iff.mp hs
  have hmem : ∀ i, i ∈ s ↔ i = 1 := fun i => by
    rw [← ExtTreeSet.mem_toList, hlist, List.mem_singleton]
  refine ⟨hF, PDG, psg, 2, s, hPDG, hpsg, hnode, hs, fun h => ?_⟩
  have hsize := h.mp ⟨1, (hmem 1).mpr rfl, 1, (hmem 1).mpr rfl, hedge⟩
  rw [← ExtTreeSet.length_toList, hlist] at hsize
  exact Nat.lt_irrefl 1 hsize

end IcsaDswp
