import IcsaDswp.Pipeline

/-!
# Loops with one exiting block

In a strongly connected loop that is left from one block only, every block is control dependent on
that block by a chain inside the loop (`Lib.ctrlDep_of_region`), so its terminator reaches every
instruction of the loop (`hub_of_exiting`). Where no component meets two loops this makes the
terminator's component the only iter one.
-/

namespace IcsaDswp

open Std (ExtTreeMap ExtTreeSet)
open Lib Relation

variable {Inst BB Fn Loop : Type} {F : Function Inst BB Loop}

/-- Any two blocks of `L` are joined by a path of at least one edge inside `L`. -/
def Function.StronglyConnected (F : Function Inst BB Loop) (L : Loop) : Prop :=
  ∀ x ∈ F.loopBlocks L, ∀ y ∈ F.loopBlocks L,
    TransGen (fun a b => F.toCfg.Edge a b ∧ a ∈ F.loopBlocks L ∧ b ∈ F.loopBlocks L) x y

/-- `b` has a successor outside `L`. -/
def Function.Exiting (F : Function Inst BB Loop) (L : Loop) (b : BB) : Prop :=
  b ∈ F.loopBlocks L ∧ ∃ s, F.toCfg.Edge b s ∧ s ∉ F.loopBlocks L

theorem hub_of_exiting (hF : F.SelfContained) {L : Loop} (hstrong : F.StronglyConnected L) {e : BB}
    (he : ∀ b, F.Exiting L b ↔ b = e) (hr : F.toCfg.ReachesExit e) {t : Inst}
    (ht : F.back e = .ok t) {i : Inst} (hi : F.InLoop L i) :
    ReflTransGen (fun a b => F.Dep a b ∧ F.InLoop L a) t i := by
  obtain ⟨x, hx, hix⟩ := hi
  have hmem : e ∈ F.loopBlocks L := ((he e).mpr rfl).1
  refine (dep_of_ctrlDep hF (S := fun b => b ∈ F.loopBlocks L) (Lib.ctrlDep_of_region ?_ ?_
    (fun x y hx hy => hstrong x hx y hy) hmem hr hx) ht hix).to_reflTransGen
  · intro y hy hexit
    obtain ⟨z, ⟨hz, -, -⟩, -⟩ := TransGen.head'_iff.mp (hstrong y hy y hy)
    have := hz.2
    simp [hexit.2] at this
  · exact fun y z hy hyz hz => (he y).mp ⟨hy, z, hyz, hz⟩

variable [LinearOrder Inst] [LinearOrder BB] [LinearOrder Fn] [LinearOrder Loop]
  {psg₀ : PDGSCCGraphPass Inst} {dl₀ : DecoupleLoopsPass Fn Loop}

/-- **The exiting branch makes the loop go round.** -/
theorem iter_of_single_exit (hF : F.WellFormed) (heap : Heap) (name : Fn)
    (hpsg : psg₀.Released) (hdl : dl₀.Released) :
    ∃ r, analyse heap name F psg₀ dl₀ = .ok r ∧
      ((∀ L ∈ F.loops, ∀ L' ∈ F.loops, ∀ i j, F.InLoop L i → F.InLoop L' j →
        Mutual r.PDG.Edge i j → L = L') →
      ∀ L ∈ F.loops, F.StronglyConnected L → ∀ e, (∀ b, F.Exiting L b ↔ b = e) →
        F.toCfg.ReachesExit e →
        ∃ t a s, F.back e = .ok t ∧ r.psg.getSCC t = .ok a ∧ r.dl.LoopToIterScc[L]? = some s ∧
          (∀ b, b ∈ s ↔ b = a) ∧
          ∀ I, F.InLoop L I → r.psg.getSCC I ≠ .ok a →
            r.isWork I L = .ok true ∧ r.isIter I L = .ok false) := by
  obtain ⟨r, hr, h, -⟩ := analyse_spec hF heap name hpsg hdl
  refine ⟨r, hr, fun hone L hL hstrong e he hre => ?_⟩
  have hmem : ∀ {i}, F.InLoop L i → i ∈ F.allInsts := fun hi => hF.inLoop_mem hL hi
  have heL : e ∈ F.loopBlocks L := ((he e).mpr rfl).1
  obtain ⟨t, ht⟩ := hF.exists_back (hF.loop_mem L hL e heL)
  have htL : F.InLoop L t := ⟨e, heL, Function.back_mem ht⟩
  have htn : r.PDG.IsNode t := (h.isNode t).mpr (hmem htL)
  obtain ⟨a, -, ha, -⟩ := h.condensed.component t htn
  have hone' : ∀ i j L L', L ∈ F.loops → L' ∈ F.loops → F.InLoop L i → F.InLoop L' j →
      Mutual r.PDG.Edge i j → L = L' := fun i j L L' hL hL' => hone L hL L' hL' i j
  have hiter : ∀ i, IterWork.Iter r.PDG.Edge F.InLoop F.loops L i ↔ Mutual r.PDG.Edge i t :=
    fun i => IterWork.iter_iff_of_hub hone' hF.loops_nodup hL htL fun i hi =>
      h.edge ▸ hub_of_exiting hF.toSelfContained hstrong he hre ht hi
  have hat : ∀ b, r.dl.LoopToIterScc.HasAt L b ↔ b = a := by
    intro b
    constructor
    · intro hb
      obtain ⟨i, hi, hib⟩ := h.splits.stored L b (.inr hb)
      have hm := (hiter i).mp ((h.splits.iter L i b hi hib).mp hb)
      exact Except.ok.inj (hib.symm.trans (((h.condensed.same i t hi htn).mpr hm).trans ha))
    · rintro rfl
      exact (h.splits.iter L t b htn ha).mpr ((hiter t).mpr (.refl t))
  obtain ⟨s, hs, -⟩ := (hat a).mpr rfl
  have hmems : ∀ b, b ∈ s ↔ b = a := fun b => by
    rw [← hat, OrdMap.hasAt_iff, hs, Option.getD_some]
  refine ⟨t, a, s, ht, ha, hs, hmems, fun I hI hne => ?_⟩
  have hIn : r.PDG.IsNode I := (h.isNode I).mpr (hmem hI)
  rw [(h.isWork (hmem hI) L).iff, (h.isIter (hmem hI) L).not_iff]
  have hni : ¬ IterWork.Iter r.PDG.Edge F.InLoop F.loops L I := fun hI' =>
    hne (((h.condensed.same I t hIn htn).mpr ((hiter I).mp hI')).trans ha)
  have hown := (IterWork.owner_iff_meets hone' hF.loops_nodup hL).mpr ⟨I, .refl I, hI⟩
  exact ⟨(IterWork.owner_iff_iter_or_work.mp hown).resolve_left hni, hni⟩

theorem iter_of_single_exit_storeLoop :
    ∃ r, analyse .bump (0 : Fin 1) storeLoop .fresh .fresh = .ok r ∧
      ∃ t a s, storeLoop.back 1 = .ok t ∧ r.psg.getSCC t = .ok a ∧
        r.dl.LoopToIterScc[(0 : Fin 1)]? = some s ∧ (∀ b, b ∈ s ↔ b = a) ∧
        ∀ I, storeLoop.InLoop 0 I → r.psg.getSCC I ≠ .ok a →
          r.isWork I 0 = .ok true ∧ r.isIter I 0 = .ok false := by
  obtain ⟨r, hr, h⟩ := iter_of_single_exit (F := storeLoop) (by decide +kernel) .bump (0 : Fin 1)
    PDGSCCGraphPass.released_fresh DecoupleLoopsPass.released_fresh
  have h12 : storeLoop.toCfg.Edge 1 2 ∧ 1 ∈ storeLoop.loopBlocks 0 ∧
      2 ∈ storeLoop.loopBlocks 0 := by decide
  have h21 : storeLoop.toCfg.Edge 2 1 ∧ 2 ∈ storeLoop.loopBlocks 0 ∧
      1 ∈ storeLoop.loopBlocks 0 := by decide
  have hstrong : storeLoop.StronglyConnected 0 := by
    intro x hx y hy
    obtain rfl | rfl : x = 1 ∨ x = 2 := by simpa [storeLoop] using hx
    · obtain rfl | rfl : y = 1 ∨ y = 2 := by simpa [storeLoop] using hy
      · exact .tail (.single h12) h21
      · exact .single h12
    · obtain rfl | rfl : y = 1 ∨ y = 2 := by simpa [storeLoop] using hy
      · exact .single h21
      · exact .tail (.single h21) h12
  have hexit : ∀ b, storeLoop.Exiting 0 b ↔ b = 1 := by
    unfold Function.Exiting
    decide
  exact ⟨r, hr, h (fun L _ L' _ _ _ _ _ _ => Subsingleton.elim L L') 0 (by decide) hstrong 1 hexit
    (by decide +kernel)⟩

end IcsaDswp
