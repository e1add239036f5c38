import IcsaDswp.Pipeline
import IcsaDswp.Lib.Topsort

/-!
# Where the work of a loop comes from

The PSG has no cycle, so among the components that meet a loop one has no predecessor among them,
and going back from any of them inside the loop ends in such a one (`exists_source`). Where no
component meets two loops these sources are the iter components.
-/

namespace IcsaDswp

open Std (ExtTreeMap ExtTreeSet)
open Lib Relation

namespace DecoupleLoopsPass

variable {Inst BB Fn Loop : Type} [LinearOrder Inst] [LinearOrder Fn] [LinearOrder Loop]
  {F : Function Inst BB Loop} {PDG : DependenceGraph Inst} {psg₀ psg : PDGSCCGraphPass Inst}
  {st : DecoupleLoopsPass Fn Loop} {L : Loop} {a : Addr}

/-- **An iter component is a source** among those that meet its loop, where no component meets two
loops. -/
theorem Splits.hasAt_iter_iff (hsplit : Splits F PDG psg st)
    (hpsg : PDGSCCGraphPass.Condensed PDG psg₀ psg) (hclosed : PDG.Closed)
    (hloops : ∀ L ∈ F.loops, ∀ inst, F.InLoop L inst → PDG.IsNode inst) (hnd : F.loops.Nodup)
    (hone : ∀ i j L L', L ∈ F.loops → L' ∈ F.loops → F.InLoop L i → F.InLoop L' j →
      Mutual PDG.Edge i j → L = L') (hL : L ∈ F.loops) (ha : Touches F psg L a) :
    st.LoopToIterScc.HasAt L a ↔ ∀ b, Touches F psg L b → ¬ psg.PSG.Edge b a := by
  obtain ⟨i, hiL, hia⟩ := ha
  have hi : PDG.IsNode i := hloops L hL i hiL
  have hown : ∀ k, IterWork.Owner PDG.Edge F.InLoop F.loops L k ↔
      IterWork.Meets PDG.Edge F.InLoop L k := fun k => IterWork.owner_iff_meets hone hnd hL
  have htouch : ∀ b, psg.PSG.IsNode b →
      (IsLast (fun L => Touches F psg L b) F.loops L ↔ Touches F psg L b) := by
    intro b hb
    refine ⟨IsLast.prop, fun ⟨k, hkL, hkb⟩ => ?_⟩
    exact (isLast_touches_iff hpsg hloops (hloops L hL k hkL) hkb).mpr
      ((hown k).mpr ⟨k, .refl k, hkL⟩)
  rw [hsplit.iter L i a hi hia, IterWork.Iter, hasSource_iff hpsg hclosed hloops hi hia,
    and_iff_right ((hown i).mpr ⟨i, .refl i, hiL⟩), not_exists]
  refine forall_congr' fun b => ⟨fun h hb hba => ?_, fun h ⟨hba, hlast⟩ => ?_⟩
  · exact h ⟨hba, (htouch b hba.isNode).mpr hb⟩
  · exact h ((htouch b hba.isNode).mp hlast) hba

end DecoupleLoopsPass

open DecoupleLoopsPass (Touches)

variable {Inst BB Fn Loop : Type} [LinearOrder Inst] [LinearOrder BB] [LinearOrder Fn]
  [LinearOrder Loop] {F : Function Inst BB Loop} {psg₀ : PDGSCCGraphPass Inst}
  {dl₀ : DecoupleLoopsPass Fn Loop}

/-- **Iter drives work.** Where no component meets two loops, every loop (it has at least its
header) has an iter component, and a path inside the loop leads from one to each of its work
components. -/
theorem work_reachable_from_iter (hF : F.WellFormed) (heap : Heap) (name : Fn)
    (hpsg : psg₀.Released) (hdl : dl₀.Released) :
    ∃ r, analyse heap name F psg₀ dl₀ = .ok r ∧
      ((∀ L ∈ F.loops, ∀ L' ∈ F.loops, ∀ i j, F.InLoop L i → F.InLoop L' j →
        Mutual r.PDG.Edge i j → L = L') →
      ∀ L ∈ F.loops,
        (F.loopBlocks L ≠ [] → ∃ a, r.dl.LoopToIterScc.HasAt L a) ∧
        ∀ a, r.dl.LoopToWorkScc.HasAt L a → ∃ s, r.dl.LoopToIterScc.HasAt L s ∧
          ReflTransGen (fun x y => r.psg.PSG.Edge x y ∧ Touches F r.psg L x ∧
            Touches F r.psg L y) s a) := by
  classical
  obtain ⟨r, hr, h, -⟩ := analyse_spec hF heap name hpsg hdl
  refine ⟨r, hr, fun hone L hL => ?_⟩
  have hnode : ∀ L ∈ F.loops, ∀ i, F.InLoop L i → r.PDG.IsNode i := fun L hL i hi =>
    (h.isNode i).mpr (hF.inLoop_mem hL hi)
  have hone' : ∀ i j L L', L ∈ F.loops → L' ∈ F.loops → F.InLoop L i → F.InLoop L' j →
      Mutual r.PDG.Edge i j → L = L' := fun i j L L' hL hL' => hone L hL L' hL' i j
  have hfin : {a | Touches F r.psg L a}.Finite :=
    (GraphUtils.nodeSet r.psg.PSG).finite_toSet.subset fun a ⟨i, hi, ha⟩ =>
      GraphUtils.mem_nodeSet.mpr ((h.condensed.isNode a).mpr ⟨i, hnode L hL i hi, ha⟩)
  -- every component of the loop is reached from a source among them
  have hsource : ∀ a, Touches F r.psg L a → ∃ s, r.dl.LoopToIterScc.HasAt L s ∧
      ReflTransGen (fun x y => r.psg.PSG.Edge x y ∧ Touches F r.psg L x ∧ Touches F r.psg L y)
        s a := by
    intro a ha
    obtain ⟨s, hs, hno, hsa⟩ := exists_source hfin.toFinset (E := r.psg.PSG.Edge)
      (hfin.mem_toFinset.mpr ha) fun c _ => (h.condensed.condensation h.closed).acyclic c
    simp only [Set.Finite.mem_toFinset, Set.mem_ofPred_eq] at hs hno hsa
    refine ⟨s, ?_, hsa⟩
    exact (h.splits.hasAt_iter_iff h.condensed h.closed hnode hF.loops_nodup hone' hL hs).mpr hno
  refine ⟨fun hne => ?_, fun a ha => hsource a ?_⟩
  · obtain ⟨b, hb⟩ := List.exists_mem_of_ne_nil _ hne
    obtain ⟨t, ht⟩ := hF.exists_back (hF.loop_mem L hL b hb)
    have htL : F.InLoop L t := ⟨b, hb, Function.back_mem ht⟩
    obtain ⟨a, -, ha, -⟩ := h.condensed.component t (hnode L hL t htL)
    obtain ⟨s, hs, -⟩ := hsource a ⟨t, htL, ha⟩
    exact ⟨s, hs⟩
  · obtain ⟨i, hi, hia⟩ := h.splits.stored L a (.inl ha)
    obtain ⟨j, hij, hj⟩ := ((h.splits.work L i a hi hia).mp ha).1.prop
    exact ⟨j, hj, ((h.condensed.same i j hi (hnode L hL j hj)).mpr hij).symm.trans hia⟩

theorem work_reachable_from_iter_storeLoop :
    storeLoop.WellFormed ∧ storeLoop.loopBlocks 0 ≠ [] ∧
    ∃ r, analyse .bump (0 : Fin 1) storeLoop .fresh .fresh = .ok r ∧
      (∃ a, r.dl.LoopToIterScc.HasAt (0 : Fin 1) a) ∧
      ∀ a, r.dl.LoopToWorkScc.HasAt (0 : Fin 1) a → ∃ s, r.dl.LoopToIterScc.HasAt (0 : Fin 1) s ∧
        ReflTransGen (fun x y => r.psg.PSG.Edge x y ∧ Touches storeLoop r.psg 0 x ∧
          Touches storeLoop r.psg 0 y) s a := by
  have hF : storeLoop.WellFormed := by decide +kernel
  have hne : storeLoop.loopBlocks 0 ≠ [] := by decide
  obtain ⟨r, hr, h⟩ := work_reachable_from_iter hF .bump (0 : Fin 1)
    PDGSCCGraphPass.released_fresh DecoupleLoopsPass.released_fresh
  obtain ⟨hiter, hwork⟩ := h (fun L _ L' _ _ _ _ _ _ => Subsingleton.elim L L') 0 (by decide)
  exact ⟨hF, hne, r, hr, hiter hne, hwork⟩

end IcsaDswp
