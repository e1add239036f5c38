import IcsaDswp.Lib.Topsort
import IcsaDswp.Pipeline

/-!
# Loops, their work and their order

`pass/src/ExampleDecoupleLoopsUser.cpp` asks of each loop whether it has work, and of each
instruction of such a loop whether it is work or iter. It visits the loops with a dependence between
two of their components (`user_visits`). Which loop a component belongs to depends on the order of
the loops in the `LoopInfo`, and so do the answers, unless no component meets two loops
(`order_irrelevant_iff`).
-/

namespace IcsaDswp

open Lib Relation

variable {Inst BB Fn Loop : Type}

/-- `F` with its top-level loops in another order. -/
def Function.reorder (F : Function Inst BB Loop) (loops : List Loop) : Function Inst BB Loop :=
  { F with loops := loops }

theorem Function.dep_reorder (F : Function Inst BB Loop) (loops : List Loop) :
    (F.reorder loops).Dep = F.Dep := by
  ext a b
  constructor
  · intro h
    cases h with
    | data ha hb => exact .data ha hb
    | memory hb hm hd hdef => exact .memory hb hm hd hdef
    | control hyx ha hb => exact .control hyx ha hb
    | phi hb hvals hv ha => exact .phi hb hvals hv ha
  · intro h
    cases h with
    | data ha hb => exact .data ha hb
    | memory hb hm hd hdef => exact .memory hb hm hd hdef
    | control hyx ha hb => exact .control hyx ha hb
    | phi hb hvals hv ha => exact .phi hb hvals hv ha

theorem Function.WellFormed.reorder {F : Function Inst BB Loop} (hF : F.WellFormed)
    {loops : List Loop} (h : loops.Perm F.loops) : (F.reorder loops).WellFormed where
  insts_ne := hF.insts_ne
  users_mem := hF.users_mem
  dep_mem := hF.dep_mem
  incoming_mem := hF.incoming_mem
  insts_nodup := hF.insts_nodup
  loops_nodup := h.nodup_iff.mpr hF.loops_nodup
  loop_mem L hL := hF.loop_mem L (h.mem_iff.mp hL)
  loops_disjoint L hL L' hL' := hF.loops_disjoint L (h.mem_iff.mp hL) L' (h.mem_iff.mp hL')
  pdt_correct := hF.pdt_correct

/-- A loop that comes last owns the components that it meets. -/
theorem IterWork.owner_last {V : Type} {E : V → V → Prop} {In : Loop → V → Prop} {i : V} {L : Loop}
    {before : List Loop} (hi : In L i) (L' : Loop) :
    IterWork.Owner E In (before ++ [L]) L' i ↔ L' = L := by
  have hmeets : IterWork.Meets E In L i := ⟨i, .refl i, hi⟩
  unfold IterWork.Owner
  rw [isLast_snoc]
  simp [hmeets]

variable [LinearOrder Inst] [LinearOrder BB] [LinearOrder Fn] [LinearOrder Loop]

/-! ## The order of the loops -/

section Order

variable {F : Function Inst BB Loop} {psg₀ : PDGSCCGraphPass Inst} {dl₀ : DecoupleLoopsPass Fn Loop}
  {r : Analysis Inst Fn Loop}

omit [LinearOrder BB] in
theorem Analysed.classified (h : Analysed F psg₀ r) {i : Inst} (hi : i ∈ F.allInsts) (L : Loop) :
    (r.isIter i L = .ok true ∨ r.isWork i L = .ok true) ↔
      IterWork.Owner r.PDG.Edge F.InLoop F.loops L i := by
  rw [(h.isIter hi L).iff, (h.isWork hi L).iff, ← IterWork.owner_iff_iter_or_work]

/-- The answers of the pass for `F` and for `F` with its loops in the order `loops` are the same. -/
def SameAnswers (heap : Heap) (name : Fn) (F : Function Inst BB Loop) (psg₀ : PDGSCCGraphPass Inst)
    (dl₀ : DecoupleLoopsPass Fn Loop) (loops : List Loop) : Prop :=
  ∃ r r', analyse heap name F psg₀ dl₀ = .ok r ∧
    analyse heap name (F.reorder loops) psg₀ dl₀ = .ok r' ∧
    ∀ i ∈ F.allInsts, ∀ L ∈ F.loops,
      r.isIter i L = r'.isIter i L ∧ r.isWork i L = r'.isWork i L

/-- With a loop last that meets the component of `i`, the pass has `i` in no other loop. -/
theorem SameAnswers.owner_iff (hF : F.WellFormed) {heap : Heap} {name : Fn}
    (hpsg : psg₀.Released) (hdl : dl₀.Released) {L : Loop} (hL : L ∈ F.loops) {i : Inst}
    (hi : F.InLoop L i) (h : SameAnswers heap name F psg₀ dl₀ (F.loops.erase L ++ [L])) {L' : Loop}
    (hL' : L' ∈ F.loops) : IterWork.Owner F.Dep F.InLoop F.loops L' i ↔ L' = L := by
  obtain ⟨r, r', hr, hr', hsame⟩ := h
  have hperm : (F.loops.erase L ++ [L]).Perm F.loops :=
    List.perm_append_comm.trans (List.perm_cons_erase hL).symm
  have hmem : i ∈ F.allInsts := hF.inLoop_mem hL hi
  obtain ⟨s, hs, ha, -⟩ := analyse_spec hF heap name hpsg hdl
  obtain ⟨s', hs', ha', -⟩ := analyse_spec (hF.reorder hperm) heap name hpsg hdl
  obtain rfl : r = s := Except.ok.inj (hr.symm.trans hs)
  obtain rfl : r' = s' := Except.ok.inj (hr'.symm.trans hs')
  obtain ⟨hiter, hwork⟩ := hsame i hmem L' hL'
  rw [← ha.edge, ← ha.classified hmem L', hiter, hwork, ha'.classified hmem L', ha'.edge,
    Function.dep_reorder]
  exact IterWork.owner_last hi L'

/-- **The order of the loops is irrelevant exactly when no component meets two of them.** -/
theorem order_irrelevant_iff (hF : F.WellFormed) (heap : Heap) (name : Fn)
    (hpsg : psg₀.Released) (hdl : dl₀.Released) :
    (∀ loops : List Loop, loops.Perm F.loops → SameAnswers heap name F psg₀ dl₀ loops) ↔
      ∀ L ∈ F.loops, ∀ L' ∈ F.loops, ∀ i j, F.InLoop L i → F.InLoop L' j → Mutual F.Dep i j →
        L = L' := by
  constructor
  · intro h L hL L' hL' i j hi hj hij
    have hlast : ∀ L ∈ F.loops, SameAnswers heap name F psg₀ dl₀ (F.loops.erase L ++ [L]) :=
      fun L hL => h _ (List.perm_append_comm.trans (List.perm_cons_erase hL).symm)
    have howner := ((hlast L hL).owner_iff hF hpsg hdl hL hi hL).mpr rfl
    rw [IterWork.Owner.congr hij] at howner
    exact ((hlast L' hL').owner_iff hF hpsg hdl hL' hj hL).mp howner
  · intro hone loops hperm
    obtain ⟨r, hr, ha, -⟩ := analyse_spec hF heap name hpsg hdl
    obtain ⟨r', hr', ha', -⟩ := analyse_spec (hF.reorder hperm) heap name hpsg hdl
    refine ⟨r, r', hr, hr', fun i hi L hL => ?_⟩
    have hone' : ∀ i j L L', L ∈ F.loops → L' ∈ F.loops → F.InLoop L i → F.InLoop L' j →
        Mutual F.Dep i j → L = L' := fun i j L L' hL hL' => hone L hL L' hL' i j
    -- in either order a loop owns the components that it meets
    have howner : ∀ k, IterWork.Owner F.Dep F.InLoop loops L k ↔
        IterWork.Owner F.Dep F.InLoop F.loops L k := by
      intro k
      rw [IterWork.owner_iff_meets hone' hF.loops_nodup hL, IterWork.owner_iff_meets
        (fun i j L L' hL hL' => hone' i j L L' (hperm.mem_iff.mp hL) (hperm.mem_iff.mp hL'))
        (hperm.nodup_iff.mpr hF.loops_nodup) (hperm.mem_iff.mpr hL)]
    have hsource : IterWork.HasSource F.Dep F.InLoop loops L i ↔
        IterWork.HasSource F.Dep F.InLoop F.loops L i := by
      unfold IterWork.HasSource
      simp only [howner]
    have hiter := ha'.isIter (i := i) hi L
    have hwork := ha'.isWork (i := i) hi L
    rw [ha'.edge, Function.dep_reorder] at hiter hwork
    have hiter₀ := ha.isIter hi L
    have hwork₀ := ha.isWork hi L
    rw [ha.edge] at hiter₀ hwork₀
    exact ⟨hiter₀.eq (hiter.congr (and_congr (howner i) (not_congr hsource))),
      hwork₀.eq (hwork.congr (and_congr (howner i) hsource))⟩

/-- In either loop of `straddling` there is an instruction that depends on one in the other. -/
theorem order_irrelevant_iff_straddling :
    ¬ ∀ loops : List (Fin 2), loops.Perm straddling.loops →
      SameAnswers .bump (0 : Fin 1) straddling .fresh .fresh loops := by
  rw [order_irrelevant_iff (F := straddling) (by decide +kernel) .bump (0 : Fin 1)
    PDGSCCGraphPass.released_fresh DecoupleLoopsPass.released_fresh]
  intro hone
  have h13 : straddling.Dep 1 3 := .data (by decide) (by decide)
  have h31 : straddling.Dep 3 1 := .data (by decide) (by decide)
  have hloops : straddling.InLoop 0 1 ∧ straddling.InLoop 1 3 := by
    unfold Function.InLoop
    decide
  exact absurd (hone 0 (by decide) 1 (by decide) 1 3 hloops.1 hloops.2 ⟨.single h13, .single h31⟩)
    (by decide)

end Order

/-! ## An example user of the pass -/

namespace ExampleDecoupleLoopsUser

/-- What is asked of an instruction of a loop. -/
structure Query (Inst Loop : Type) where
  loop : Loop
  inst : Inst
  isWork : Bool
  isIter : Bool
  deriving DecidableEq

/-- `runOnFunction`, with a record of the queries, which it makes no use of. -/
def runOnFunction (name : Fn) (F : Function Inst BB Loop) (r : Analysis Inst Fn Loop) :
    Except Fault (List (Query Inst Loop)) :=
  match r.dl.getLI name with
  | none => .error .nullDeref
  | some _ =>
    F.loops.foldlM (fun queries L =>
      -- ignore loops we cannot decouple
      if !r.dl.hasWork L then pure queries
      else (F.loopBlocks L).foldlM (fun queries bb =>
        (F.insts bb).foldlM (fun queries inst => do
          let work ← r.isWork inst L
          let iter ← r.isIter inst L
          pure (queries ++ [⟨L, inst, work, iter⟩])) queries) queries) []

variable {F : Function Inst BB Loop} {psg₀ : PDGSCCGraphPass Inst} {dl₀ : DecoupleLoopsPass Fn Loop}
  {r : Analysis Inst Fn Loop} {L : Loop}

omit [LinearOrder BB] in
/-- A loop that owns a component has an iter instruction. -/
theorem exists_iter (h : Analysed F psg₀ r) (hF : F.WellFormed) (hL : L ∈ F.loops) {i : Inst}
    (hi : i ∈ F.allInsts) (hown : IterWork.Owner r.PDG.Edge F.InLoop F.loops L i) :
    ∃ j, F.InLoop L j ∧ r.isIter j L = .ok true := by
  classical
  have hnode : ∀ L ∈ F.loops, ∀ i, F.InLoop L i → r.PDG.IsNode i := fun L hL i hi =>
    (h.isNode i).mpr (hF.inLoop_mem hL hi)
  let owned : Set Addr := {a | IsLast (fun L => DecoupleLoopsPass.Touches F r.psg L a) F.loops L}
  have hfin : owned.Finite := (GraphUtils.nodeSet r.psg.PSG).finite_toSet.subset fun a ha => by
    have hlast : IsLast (fun L => DecoupleLoopsPass.Touches F r.psg L a) F.loops L := ha
    obtain ⟨j, hj, hja⟩ := hlast.prop
    exact GraphUtils.mem_nodeSet.mpr ((h.condensed.isNode a).mpr ⟨j, hnode L hL j hj, hja⟩)
  obtain ⟨a, -, ha, -⟩ := h.condensed.component i ((h.isNode i).mpr hi)
  have haown : a ∈ owned := (DecoupleLoopsPass.isLast_touches_iff h.condensed hnode
    ((h.isNode i).mpr hi) ha).mpr hown
  obtain ⟨s, hs, hno, -⟩ := exists_source hfin.toFinset (E := r.psg.PSG.Edge)
    (hfin.mem_toFinset.mpr haown) fun c _ => (h.condensed.condensation h.closed).acyclic c
  have hlast : IsLast (fun L => DecoupleLoopsPass.Touches F r.psg L s) F.loops L :=
    hfin.mem_toFinset.mp hs
  obtain ⟨j, hj, hjs⟩ := hlast.prop
  have hjn := hnode L hL j hj
  refine ⟨j, hj, (h.isIter (hF.inLoop_mem hL hj) L).iff.mpr ⟨?_, ?_⟩⟩
  · exact (DecoupleLoopsPass.isLast_touches_iff h.condensed hnode hjn hjs).mp hlast
  · rw [DecoupleLoopsPass.hasSource_iff h.condensed h.closed hnode hjn hjs]
    rintro ⟨b, hbs, hb⟩
    exact hno b (hfin.mem_toFinset.mpr hb) hbs

omit [LinearOrder BB] in
/-- **A loop has work** when one of its components depends on another one. -/
theorem hasWork_iff_dep (h : Analysed F psg₀ r) :
    r.dl.hasWork L = true ↔ ∃ a b, r.PDG.Edge a b ∧ r.psg.getSCC a ≠ r.psg.getSCC b ∧
      (r.isIter a L = .ok true ∨ r.isWork a L = .ok true) ∧
      (r.isIter b L = .ok true ∨ r.isWork b L = .ok true) := by
  rw [h.splits.hasWork h.condensed]
  constructor
  · rintro ⟨i, hi, hown, k, j, hkj, hji, hki, hk⟩
    have hj := h.closed k j hkj
    have hne : r.psg.getSCC k ≠ r.psg.getSCC j := fun heq =>
      hki (((h.condensed.same k j hkj.isNode hj).mp heq).trans hji)
    refine ⟨k, j, hkj, hne, (h.classified ((h.isNode k).mp hkj.isNode) L).mpr hk,
      (h.classified ((h.isNode j).mp hj) L).mpr ?_⟩
    exact (IterWork.Owner.congr hji).mpr hown
  · rintro ⟨a, b, hab, hne, ha, hb⟩
    have hb' := h.closed a b hab
    have hn : ¬ Mutual r.PDG.Edge a b := fun hm =>
      hne ((h.condensed.same a b hab.isNode hb').mpr hm)
    exact ⟨b, hb', IterWork.work_of_edge hab hn
      ((h.classified ((h.isNode a).mp hab.isNode) L).mp ha)
      ((h.classified ((h.isNode b).mp hb') L).mp hb)⟩

omit [LinearOrder BB] in
/-- A loop with work has a work instruction. -/
theorem exists_work (h : Analysed F psg₀ r) (hF : F.WellFormed) (hL : L ∈ F.loops)
    (hw : r.dl.hasWork L = true) : ∃ j, F.InLoop L j ∧ r.isWork j L = .ok true := by
  obtain ⟨i, -, hi⟩ := (h.splits.hasWork h.condensed L).mp hw
  obtain ⟨j, hij, hj⟩ := hi.1.prop
  refine ⟨j, hj, (h.isWork (hF.inLoop_mem hL hj) L).iff.mpr ⟨?_, ?_⟩⟩
  · exact (IterWork.Owner.congr hij).mp hi.1
  · exact (IterWork.HasSource.congr hij).mp hi.2

/-- The query for an instruction. -/
def query (r : Analysis Inst Fn Loop) (L : Loop) (inst : Inst) : Query Inst Loop :=
  ⟨L, inst, r.isWork inst L = .ok true, r.isIter inst L = .ok true⟩

omit [LinearOrder BB] in
theorem query_ok (h : Analysed F psg₀ r) {i : Inst} (hi : i ∈ F.allInsts) :
    r.isWork i L = .ok (query r L i).isWork ∧ r.isIter i L = .ok (query r L i).isIter := by
  obtain ⟨w, hw, -⟩ := h.isWork hi L
  obtain ⟨b, hb, -⟩ := h.isIter hi L
  simp [query, hw, hb]

omit [LinearOrder BB] in
theorem runOnFunction_eq (h : Analysed F psg₀ r) (hF : F.WellFormed) {name : Fn}
    (hLI : r.dl.getLI name = some ()) :
    runOnFunction name F r = .ok ((F.loops.filter r.dl.hasWork).flatMap fun L =>
      (F.loopBlocks L).flatMap fun bb => (F.insts bb).map (query r L)) := by
  have hfilter : ∀ (g : Loop → List (Query Inst Loop)), (F.loops.filter r.dl.hasWork).flatMap g =
      F.loops.flatMap fun L => if r.dl.hasWork L then g L else [] := by
    intro g
    induction F.loops with
    | nil => rfl
    | cons L loops ih =>
      rw [List.filter_cons, List.flatMap_cons, ← ih]
      split <;> simp
  rw [runOnFunction, hLI, hfilter]
  refine foldlM_append_ok (fun L hL out => ?_) []
  cases hw : r.dl.hasWork L with
  | false => simp [pure, Except.pure]
  | true =>
    refine foldlM_append_ok (fun bb hbb out => ?_) out
    have hinsts := foldlM_append_ok (l := F.insts bb) (g := fun inst => [query r L inst])
      (f := fun queries inst => do
        let work ← r.isWork inst L
        let iter ← r.isIter inst L
        pure (queries ++ [⟨L, inst, work, iter⟩])) (fun i hi out => by
      have hmem : i ∈ F.allInsts := hF.inLoop_mem hL ⟨bb, hbb, hi⟩
      obtain ⟨hwork, hiter⟩ := query_ok (L := L) h hmem
      rw [hwork, hiter]
      rfl) out
    rw [hinsts, List.map_eq_flatMap]

/-- **What the example user visits**: all instructions of the loops in which one component depends
on another, none of its queries failing. Each of these loops has work and iter instructions. -/
theorem user_visits (hF : F.WellFormed) (heap : Heap) (name : Fn)
    (hpsg : psg₀.Released) (hdl : dl₀.Released) :
    ∃ r queries, analyse heap name F psg₀ dl₀ = .ok r ∧
      runOnFunction name F r = .ok queries ∧
      (∀ L ∈ F.loops, (∃ q ∈ queries, q.loop = L) ↔
        ∃ a b, r.PDG.Edge a b ∧ r.psg.getSCC a ≠ r.psg.getSCC b ∧
          (r.isIter a L = .ok true ∨ r.isWork a L = .ok true) ∧
          (r.isIter b L = .ok true ∨ r.isWork b L = .ok true)) ∧
      ∀ q ∈ queries, q.loop ∈ F.loops ∧
        r.isWork q.inst q.loop = .ok q.isWork ∧ r.isIter q.inst q.loop = .ok q.isIter ∧
        (∀ i, F.InLoop q.loop i ↔ ∃ q' ∈ queries, q'.loop = q.loop ∧ q'.inst = i) ∧
        (∃ q' ∈ queries, q'.loop = q.loop ∧ q'.isWork = true) ∧
        ∃ q' ∈ queries, q'.loop = q.loop ∧ q'.isIter = true := by
  obtain ⟨r, hr, h, hLI, -⟩ := analyse_spec hF heap name hpsg hdl
  have hget : r.dl.getLI name = some () := by
    unfold DecoupleLoopsPass.getLI
    rw [hLI]
    simp
  have hmem : ∀ q, (q ∈ (F.loops.filter r.dl.hasWork).flatMap fun L =>
      (F.loopBlocks L).flatMap fun bb => (F.insts bb).map (query r L)) ↔
      ∃ L ∈ F.loops, r.dl.hasWork L = true ∧ ∃ i, F.InLoop L i ∧ query r L i = q := by
    intro q
    simp only [List.mem_flatMap, List.mem_filter, List.mem_map, Function.InLoop]
    constructor
    · rintro ⟨L, ⟨hL, hw⟩, bb, hbb, i, hi, rfl⟩
      exact ⟨L, hL, hw, i, ⟨bb, hbb, hi⟩, rfl⟩
    · rintro ⟨L, hL, hw, i, ⟨bb, hbb, hi⟩, rfl⟩
      exact ⟨L, ⟨hL, hw⟩, bb, hbb, i, hi, rfl⟩
  refine ⟨r, _, hr, runOnFunction_eq h hF hget, fun L hL => ?_, fun q hq => ?_⟩
  · rw [← hasWork_iff_dep h]
    constructor
    · rintro ⟨q, hq, rfl⟩
      obtain ⟨L, -, hw, i, -, rfl⟩ := (hmem q).mp hq
      exact hw
    · intro hw
      obtain ⟨j, hj, -⟩ := exists_work h hF hL hw
      exact ⟨query r L j, (hmem _).mpr ⟨L, hL, hw, j, hj, rfl⟩, rfl⟩
  · obtain ⟨L, hL, hw, i, hi, rfl⟩ := (hmem q).mp hq
    obtain ⟨hwork, hiter⟩ := query_ok (L := L) h (hF.inLoop_mem hL hi)
    obtain ⟨w, hwL, hww⟩ := exists_work h hF hL hw
    have hown := (h.classified (hF.inLoop_mem hL hwL) L).mp (.inr hww)
    obtain ⟨b, hbL, hbi⟩ := exists_iter h hF hL (hF.inLoop_mem hL hwL) hown
    refine ⟨hL, hwork, hiter, fun j => ⟨fun hj => ?_, ?_⟩, ?_, ?_⟩
    · exact ⟨query r L j, (hmem _).mpr ⟨L, hL, hw, j, hj, rfl⟩, rfl, rfl⟩
    · rintro ⟨q', hq', hloop, rfl⟩
      obtain ⟨L', -, -, k, hk, rfl⟩ := (hmem q').mp hq'
      obtain rfl : L' = L := hloop
      exact hk
    · exact ⟨query r L w, (hmem _).mpr ⟨L, hL, hw, w, hwL, rfl⟩, rfl, decide_eq_true hww⟩
    · exact ⟨query r L b, (hmem _).mpr ⟨L, hL, hw, b, hbL, rfl⟩, rfl, decide_eq_true hbi⟩

theorem user_visits_storeLoop :
    ∃ (r : Analysis (Fin 9) (Fin 1) (Fin 1)) (queries : List (Query (Fin 9) (Fin 1))),
      analyse .bump (0 : Fin 1) storeLoop .fresh .fresh = .ok r ∧
      runOnFunction 0 storeLoop r = .ok queries ∧
      ∀ q ∈ queries,
        (∀ i, storeLoop.InLoop q.loop i ↔ ∃ q' ∈ queries, q'.loop = q.loop ∧ q'.inst = i) ∧
        ∃ q' ∈ queries, q'.loop = q.loop ∧ q'.isIter = true := by
  obtain ⟨r, queries, hr, hrun, -, h⟩ := user_visits (F := storeLoop) (by decide +kernel) .bump
    (0 : Fin 1) PDGSCCGraphPass.released_fresh DecoupleLoopsPass.released_fresh
  refine ⟨r, queries, hr, hrun, fun q hq => ?_⟩
  obtain ⟨-, -, -, hall, -, hiter⟩ := h q hq
  exact ⟨hall, hiter⟩

end ExampleDecoupleLoopsUser

end IcsaDswp
