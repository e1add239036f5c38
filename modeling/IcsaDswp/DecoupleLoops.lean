import IcsaDswp.Function
import IcsaDswp.IterWork
import IcsaDswp.PSG

/-!
# The split of the loops' instructions

`pass/include/DecoupleLoops.h` and `pass/src/DecoupleLoops.cpp`. `SccToLoop` names the last loop
that meets a component (`assignLoops_spec`); a component is work if one of its predecessors has the
same loop (`classifyAll_spec`). `Splits.isIter` and `Splits.isWork` are the refinement: what the
pass answers is the split of `IterWork`. The read of `second` of `SccToLoop.end()` is undefined;
what it gives is not used, and runs are taken to go on past it, with a note in `endDerefs`.
-/

namespace IcsaDswp

open Std (ExtTreeMap ExtTreeSet)
open Lib Relation

/-- A pointer to the only object of its class. -/
abbrev Only := Unit

/-- The members of the pass. `endDerefs` is not one of them: it lists the components for which
`runOnFunction` has read `second` of `SccToLoop.end()`. -/
structure DecoupleLoopsPass (Fn Loop : Type) [LinearOrder Fn] [LinearOrder Loop] where
  LI : OrdMap Fn Only
  LoopToIterScc : OrdMap Loop (OrdSet Addr)
  LoopToWorkScc : OrdMap Loop (OrdSet Addr)
  PSGP : Option Only
  endDerefs : List Addr

namespace DecoupleLoopsPass

variable {Inst BB Fn Loop : Type} [LinearOrder Inst] [LinearOrder Fn] [LinearOrder Loop]

/-! ## The code -/

/-- As the constructor leaves the pass. -/
def fresh : DecoupleLoopsPass Fn Loop := ⟨∅, ∅, ∅, none, []⟩

/-- `LI` is left as it is. -/
def releaseMemory (st : DecoupleLoopsPass Fn Loop) : DecoupleLoopsPass Fn Loop :=
  { st with LoopToWorkScc := ∅, LoopToIterScc := ∅ }

def getLI (st : DecoupleLoopsPass Fn Loop) (F : Fn) : Option Only := st.LI[F]?

/-- `PSGP->getSCC(&Inst)`. -/
def getSCC (st : DecoupleLoopsPass Fn Loop) (psg : PDGSCCGraphPass Inst) (inst : Inst) :
    Except Fault Addr :=
  match st.PSGP with
  | some _ => psg.getSCC inst
  | none => .error .nullDeref

/-- Whether the component of `inst` is among those stored for `L`. -/
def isIn (st : DecoupleLoopsPass Fn Loop) (sccs : OrdMap Loop (OrdSet Addr))
    (psg : PDGSCCGraphPass Inst) (inst : Inst) (L : Loop) : Except Fault Bool :=
  match sccs[L]? with
  | none => .ok false
  | some found => do
    let SCC ← st.getSCC psg inst
    pure (found.contains SCC)

/-- Is `inst` a work instruction in the loop `L`? -/
def isWork (st : DecoupleLoopsPass Fn Loop) (psg : PDGSCCGraphPass Inst) (inst : Inst) (L : Loop) :
    Except Fault Bool :=
  st.isIn st.LoopToWorkScc psg inst L

/-- Is `inst` an iter instruction in the loop `L`? -/
def isIter (st : DecoupleLoopsPass Fn Loop) (psg : PDGSCCGraphPass Inst) (inst : Inst) (L : Loop) :
    Except Fault Bool :=
  st.isIn st.LoopToIterScc psg inst L

/-- Does loop `L` have work instructions? -/
def hasWork (st : DecoupleLoopsPass Fn Loop) (L : Loop) : Bool :=
  match st.LoopToWorkScc[L]? with
  | none => false
  | some found => found.size ≠ 0

/-- `SccToLoop`, from the loops of the `LoopInfo`. -/
def assignLoops (F : Function Inst BB Loop) (psg : PDGSCCGraphPass Inst) :
    Except Fault (OrdMap Addr Loop) :=
  F.loops.foldlM (fun SccToLoop L =>
    (F.loopBlocks L).foldlM (fun SccToLoop bb =>
      (F.insts bb).foldlM (fun SccToLoop inst => do
        let SCC ← psg.getSCC inst
        pure (SccToLoop.insert SCC L)) SccToLoop) SccToLoop) ∅

/-- One turn of the loop over the nodes of the PSG. -/
def classify (SccToLoop : OrdMap Addr Loop) (TPSG : DependenceGraph Addr)
    (st : DecoupleLoopsPass Fn Loop) (S1 : Addr) : Except Fault (DecoupleLoopsPass Fn Loop) :=
  match SccToLoop[S1]? with
  | none => pure { st with endDerefs := S1 :: st.endDerefs }
  | some S1Loop => do
    let S2s ← TPSG.getDependants S1
    let works := if S2s.toList.any fun S2 => SccToLoop[S2]? = some S1Loop
      then st.LoopToWorkScc.insertAt S1Loop S1 else st.LoopToWorkScc
    let works := works.touch S1Loop
    let iters := if S1 ∈ works[S1Loop]?.getD ∅ then st.LoopToIterScc
      else st.LoopToIterScc.insertAt S1Loop S1
    pure { st with LoopToWorkScc := works, LoopToIterScc := iters }

/-- `F` is the function at `name`, which the `LoopInfo` is about. -/
def runOnFunction (name : Fn) (F : Function Inst BB Loop) (psg : PDGSCCGraphPass Inst)
    (st : DecoupleLoopsPass Fn Loop) : Except Fault (DecoupleLoopsPass Fn Loop) := do
  let st := { st with PSGP := some (), LI := st.LI.insert name () }
  let SccToLoop ← assignLoops F psg
  let TPSG := GraphUtils.transpose psg.PSG
  psg.PSG.nodes.keys.foldlM (classify SccToLoop TPSG) st

/-! ## From components to loops -/

/-- `m'` is `m` with the keys in `T` mapped to `L`. -/
def Sets (L : Loop) (m m' : OrdMap Addr Loop) (T : Addr → Prop) : Prop :=
  ∀ a, (T a → m'[a]? = some L) ∧ (¬ T a → m'[a]? = m[a]?)

omit [LinearOrder Loop] in
theorem foldlM_sets {ι : Type} {L : Loop}
    {f : OrdMap Addr Loop → ι → Except Fault (OrdMap Addr Loop)} {T : ι → Addr → Prop}
    {l : List ι} (h : ∀ i ∈ l, ∀ m, ∃ m', f m i = .ok m' ∧ Sets L m m' (T i))
    (m : OrdMap Addr Loop) :
    ∃ m', l.foldlM f m = .ok m' ∧ Sets L m m' fun a => ∃ i ∈ l, T i a := by
  refine foldlM_total (P := fun (done : List ι) m' => Sets L m m' fun a => ∃ i ∈ done, T i a) ?_
    fun a => ⟨by simp, fun _ => rfl⟩
  intro done i rest m₁ hl h₁
  obtain ⟨m₂, hok, h₂⟩ := h i (by simp [hl]) m₁
  refine ⟨m₂, hok, fun a => ⟨fun ha => ?_, fun ha => ?_⟩⟩
  · by_cases hi : T i a
    · exact (h₂ a).1 hi
    · rw [(h₂ a).2 hi]
      refine (h₁ a).1 ?_
      obtain ⟨j, hj, hja⟩ := ha
      rcases List.mem_append.mp hj with hj | hj
      · exact ⟨j, hj, hja⟩
      · exact absurd (List.mem_singleton.mp hj ▸ hja) hi
  · rw [(h₂ a).2 fun hi => ha ⟨i, by simp, hi⟩]
    exact (h₁ a).2 fun ⟨j, hj, hja⟩ => ha ⟨j, List.mem_append_left _ hj, hja⟩

section AssignLoops

variable {F : Function Inst BB Loop} {psg : PDGSCCGraphPass Inst}

/-- An instruction of `L` has its component at `a`. -/
def Touches (F : Function Inst BB Loop) (psg : PDGSCCGraphPass Inst) (L : Loop) (a : Addr) : Prop :=
  ∃ inst, F.InLoop L inst ∧ psg.getSCC inst = .ok a

omit [LinearOrder Loop] in
theorem assignLoops_spec
    (hget : ∀ L ∈ F.loops, ∀ inst, F.InLoop L inst → ∃ a, psg.getSCC inst = .ok a) :
    ∃ SccToLoop, assignLoops F psg = .ok SccToLoop ∧
      ∀ (a : Addr) L, SccToLoop[a]? = some L ↔ IsLast (fun L => Touches F psg L a) F.loops L := by
  refine foldlM_total (P := fun (done : List Loop) (m : OrdMap Addr Loop) =>
    ∀ (a : Addr) L, m[a]? = some L ↔ IsLast (fun L => Touches F psg L a) done L) ?_
    fun a L => by simp
  · intro done L rest m hl hm
    obtain ⟨m', hok, hm'⟩ := foldlM_sets (L := L) (l := F.loopBlocks L)
      (f := fun (m : OrdMap Addr Loop) bb => (F.insts bb).foldlM (fun m inst => do
        let SCC ← psg.getSCC inst
        pure (m.insert SCC L)) m)
      (T := fun bb a => ∃ inst ∈ F.insts bb, psg.getSCC inst = .ok a)
      (fun bb hbb m => foldlM_sets (fun inst hinst m => by
        obtain ⟨a, ha⟩ := hget L (by simp [hl]) inst ⟨bb, hbb, hinst⟩
        refine ⟨m.insert a L, by rw [ha]; rfl, fun b => ?_⟩
        simp only [ha, Except.ok.injEq, OrdMap.get_insert]
        exact ⟨fun hb => if_pos hb, fun hb => if_neg hb⟩) m) m
    refine ⟨m', hok, fun a M => ?_⟩
    have htouch : (∃ bb ∈ F.loopBlocks L, ∃ inst ∈ F.insts bb, psg.getSCC inst = .ok a) ↔
        Touches F psg L a := by
      constructor
      · rintro ⟨bb, hbb, inst, hinst, ha⟩
        exact ⟨inst, ⟨bb, hbb, hinst⟩, ha⟩
      · rintro ⟨inst, ⟨bb, hbb, hinst⟩, ha⟩
        exact ⟨bb, hbb, inst, hinst, ha⟩
    rw [isLast_snoc, ← hm a M]
    by_cases ht : Touches F psg L a
    · rw [(hm' a).1 (htouch.mpr ht)]
      simp [ht, eq_comm]
    · rw [(hm' a).2 fun h => ht (htouch.mp h)]
      simp [ht]

end AssignLoops

/-! ## Classification -/

section Classify

variable {SccToLoop : OrdMap Addr Loop} {PSG : DependenceGraph Addr}

omit [LinearOrder Loop] in
/-- A component that depends on another one of the same loop. -/
def DependsIn (SccToLoop : OrdMap Addr Loop) (PSG : DependenceGraph Addr) (L : Loop) (a : Addr) :
    Prop := ∃ b, PSG.Edge b a ∧ SccToLoop[b]? = some L

/-- What the loop over the nodes of the PSG keeps, from empty maps. -/
structure ClassifyInv (SccToLoop : OrdMap Addr Loop) (PSG : DependenceGraph Addr)
    (st₀ : DecoupleLoopsPass Fn Loop) (done : List Addr) (st : DecoupleLoopsPass Fn Loop) :
    Prop where
  frame : st.LI = st₀.LI ∧ st.PSGP = st₀.PSGP
  work : ∀ L a, st.LoopToWorkScc.HasAt L a ↔
    a ∈ done ∧ SccToLoop[a]? = some L ∧ DependsIn SccToLoop PSG L a
  iter : ∀ L a, st.LoopToIterScc.HasAt L a ↔
    a ∈ done ∧ SccToLoop[a]? = some L ∧ ¬ DependsIn SccToLoop PSG L a
  endDerefs : ∀ a, a ∈ st.endDerefs ↔ a ∈ st₀.endDerefs ∨ a ∈ done ∧ SccToLoop[a]? = none

theorem dependsIn_iff_any {S1 : Addr} {S1Loop : Loop} {S2s : OrdSet Addr}
    (hS2s : (GraphUtils.transpose PSG).nodes[S1]? = some S2s) :
    (S2s.toList.any fun S2 => SccToLoop[S2]? = some S1Loop) = true ↔
      DependsIn SccToLoop PSG S1Loop S1 := by
  rw [List.any_eq_true]
  simp only [← DependenceGraph.deps_eq hS2s, DependenceGraph.mem_deps, decide_eq_true_eq,
    GraphUtils.transpose_edge]
  rfl

/-- A turn on a component of a loop puts it among the loop's work components if it depends on
another one of the loop, and else among the iter ones. -/
theorem classify_some {S1 : Addr} {S1Loop : Loop} (hS1 : PSG.IsNode S1)
    (hL : SccToLoop[S1]? = some S1Loop) {st : DecoupleLoopsPass Fn Loop}
    (hnew : ¬ st.LoopToWorkScc.HasAt S1Loop S1 ∨ DependsIn SccToLoop PSG S1Loop S1) :
    ∃ works iters, classify SccToLoop (GraphUtils.transpose PSG) st S1 =
        .ok { st with LoopToWorkScc := works, LoopToIterScc := iters } ∧
      (∀ L a, works.HasAt L a ↔ st.LoopToWorkScc.HasAt L a ∨
        (L = S1Loop ∧ a = S1 ∧ DependsIn SccToLoop PSG S1Loop S1)) ∧
      ∀ L a, iters.HasAt L a ↔ st.LoopToIterScc.HasAt L a ∨
        (L = S1Loop ∧ a = S1 ∧ ¬ DependsIn SccToLoop PSG S1Loop S1) := by
  obtain ⟨S2s, hrow⟩ := GraphUtils.transpose_row hS1
  have hS2s := DependenceGraph.getDependants_ok.mp hrow
  have hdep : (S2s.toList.any fun S2 => SccToLoop[S2]? = some S1Loop) = true ↔
      DependsIn SccToLoop PSG S1Loop S1 := dependsIn_iff_any hS2s
  let works := (if S2s.toList.any fun S2 => SccToLoop[S2]? = some S1Loop
    then st.LoopToWorkScc.insertAt S1Loop S1 else st.LoopToWorkScc).touch S1Loop
  let iters := if S1 ∈ works[S1Loop]?.getD ∅ then st.LoopToIterScc
    else st.LoopToIterScc.insertAt S1Loop S1
  have hworks : ∀ L a, works.HasAt L a ↔ st.LoopToWorkScc.HasAt L a ∨
      (L = S1Loop ∧ a = S1 ∧ DependsIn SccToLoop PSG S1Loop S1) := by
    intro L a
    rw [OrdMap.hasAt_touch]
    by_cases hd : DependsIn SccToLoop PSG S1Loop S1
    · rw [if_pos (hdep.mpr hd), OrdMap.hasAt_insertAt]
      simp [hd]
    · rw [if_neg fun h => hd (hdep.mp h)]
      simp [hd]
  have hin : S1 ∈ works[S1Loop]?.getD ∅ ↔ DependsIn SccToLoop PSG S1Loop S1 := by
    rw [← OrdMap.hasAt_iff, hworks]
    exact ⟨fun h => h.elim (fun h => hnew.resolve_left (not_not.mpr h)) fun h => h.2.2,
      fun h => .inr ⟨rfl, rfl, h⟩⟩
  refine ⟨works, iters, ?_, hworks, fun L a => ?_⟩
  · rw [classify, hL]
    exact bind_ok.mpr ⟨S2s, hrow, rfl⟩
  · by_cases hd : DependsIn SccToLoop PSG S1Loop S1
    · simp [iters, hin.mpr hd, hd]
    · have : iters = st.LoopToIterScc.insertAt S1Loop S1 := if_neg fun h => hd (hin.mp h)
      rw [this, OrdMap.hasAt_insertAt]
      simp [hd]

theorem classify_spec {st₀ st : DecoupleLoopsPass Fn Loop} {done : List Addr} {S1 : Addr}
    (hS1 : PSG.IsNode S1) (h : ClassifyInv SccToLoop PSG st₀ done st) :
    ∃ st', classify SccToLoop (GraphUtils.transpose PSG) st S1 = .ok st' ∧
      ClassifyInv SccToLoop PSG st₀ (done ++ [S1]) st' := by
  cases hL : SccToLoop[S1]? with
  | none =>
    refine ⟨{ st with endDerefs := S1 :: st.endDerefs }, by rw [classify, hL]; rfl, h.frame,
      fun L a => ?_, fun L a => ?_, fun a => ?_⟩
    · rw [h.work]
      grind
    · rw [h.iter]
      grind
    · have := h.endDerefs a
      grind
  | some S1Loop =>
    -- if the component is among the work ones already, it depends on one of its loop
    have hnew : ¬ st.LoopToWorkScc.HasAt S1Loop S1 ∨ DependsIn SccToLoop PSG S1Loop S1 := by
      rw [← imp_iff_not_or]
      exact fun hw => ((h.work S1Loop S1).mp hw).2.2
    obtain ⟨works, iters, hok, hworks, hiters⟩ := classify_some hS1 hL hnew
    refine ⟨_, hok, h.frame, fun L a => ?_, fun L a => ?_, fun a => ?_⟩
    · rw [hworks, h.work]
      grind
    · rw [hiters, h.iter]
      grind
    · have := h.endDerefs a
      grind

/-- **The classification.** A component of a loop is work exactly when it depends on another one of
that loop. -/
theorem classifyAll_spec (SccToLoop : OrdMap Addr Loop) (PSG : DependenceGraph Addr)
    {st₀ : DecoupleLoopsPass Fn Loop} (hw : st₀.LoopToWorkScc = ∅)
    (hi : st₀.LoopToIterScc = ∅) :
    ∃ st, PSG.nodes.keys.foldlM (classify SccToLoop (GraphUtils.transpose PSG)) st₀ = .ok st ∧
      ClassifyInv SccToLoop PSG st₀ PSG.nodes.keys st := by
  refine foldlM_total (P := ClassifyInv SccToLoop PSG st₀) (fun done S1 rest st hl h =>
    classify_spec (ExtTreeMap.mem_keys.mp (by simp [hl])) h) ⟨⟨rfl, rfl⟩, ?_, ?_, ?_⟩
  · simp [hw, OrdMap.HasAt]
  · simp [hi, OrdMap.HasAt]
  · simp

end Classify

/-! ## Queries -/

/-- The query completes and is true exactly when `p`. -/
def Decides (x : Except Fault Bool) (p : Prop) : Prop := ∃ b, x = .ok b ∧ (b = true ↔ p)

theorem Decides.iff {x : Except Fault Bool} {p : Prop} (h : Decides x p) : x = .ok true ↔ p := by
  obtain ⟨b, rfl, hb⟩ := h
  rw [Except.ok.injEq, hb]

theorem Decides.not_iff {x : Except Fault Bool} {p : Prop} (h : Decides x p) :
    x = .ok false ↔ ¬ p := by
  obtain ⟨b, rfl, hb⟩ := h
  rw [Except.ok.injEq, ← hb, Bool.not_eq_true]

theorem Decides.eq {x y : Except Fault Bool} {p : Prop} (h : Decides x p) (h' : Decides y p) :
    x = y := by
  obtain ⟨b, rfl, hb⟩ := h
  obtain ⟨b', rfl, hb'⟩ := h'
  rw [Bool.eq_iff_iff.mpr (hb.trans hb'.symm)]

theorem Decides.congr {x : Except Fault Bool} {p q : Prop} (h : Decides x p) (hpq : p ↔ q) :
    Decides x q := by
  obtain ⟨b, hx, hb⟩ := h
  exact ⟨b, hx, hb.trans hpq⟩

theorem isIn_decides {st : DecoupleLoopsPass Fn Loop} {sccs : OrdMap Loop (OrdSet Addr)}
    {psg : PDGSCCGraphPass Inst} {inst : Inst} {L : Loop} {a : Addr} (hp : st.PSGP = some ())
    (ha : psg.getSCC inst = .ok a) : Decides (st.isIn sccs psg inst L) (sccs.HasAt L a) := by
  unfold isIn
  cases hL : sccs[L]? with
  | none => exact ⟨false, rfl, by simp [OrdMap.HasAt, hL]⟩
  | some found =>
    refine ⟨found.contains a, ?_, by simp [OrdMap.HasAt, hL]⟩
    show (st.getSCC psg inst >>= _) = _
    rw [getSCC, hp, ha]
    rfl

theorem hasWork_iff {st : DecoupleLoopsPass Fn Loop} {L : Loop} :
    st.hasWork L = true ↔ ∃ a, st.LoopToWorkScc.HasAt L a := by
  unfold hasWork
  cases hL : st.LoopToWorkScc[L]? with
  | none => simp [OrdMap.HasAt, hL]
  | some found =>
    have hsize : found.size ≠ 0 ↔ ∃ a, a ∈ found := by
      rw [ne_eq, ← ExtTreeSet.eq_empty_iff_size_eq_zero, ExtTreeSet.eq_empty_iff_forall_not_mem]
      push Not
      rfl
    simp [OrdMap.HasAt, hL, hsize]

/-! ## Refinement -/

section Refinement

variable {F : Function Inst BB Loop} {PDG : DependenceGraph Inst}
  {psg₀ psg : PDGSCCGraphPass Inst}

/-- The loops' sets of components are the split of the instructions of `PDG`. -/
structure Splits (F : Function Inst BB Loop) (PDG : DependenceGraph Inst)
    (psg : PDGSCCGraphPass Inst) (st : DecoupleLoopsPass Fn Loop) : Prop where
  pointer : st.PSGP = some ()
  work : ∀ L i a, PDG.IsNode i → psg.getSCC i = .ok a →
    (st.LoopToWorkScc.HasAt L a ↔ IterWork.Work PDG.Edge F.InLoop F.loops L i)
  iter : ∀ L i a, PDG.IsNode i → psg.getSCC i = .ok a →
    (st.LoopToIterScc.HasAt L a ↔ IterWork.Iter PDG.Edge F.InLoop F.loops L i)
  stored : ∀ L a, st.LoopToWorkScc.HasAt L a ∨ st.LoopToIterScc.HasAt L a →
    ∃ i, PDG.IsNode i ∧ psg.getSCC i = .ok a

/-- Nothing is stored for any loop, as before a run and after `releaseMemory`. -/
def Released (st : DecoupleLoopsPass Fn Loop) : Prop :=
  st.LoopToWorkScc = ∅ ∧ st.LoopToIterScc = ∅

theorem released_fresh : (fresh : DecoupleLoopsPass Fn Loop).Released := ⟨rfl, rfl⟩

theorem released_releaseMemory (st : DecoupleLoopsPass Fn Loop) : st.releaseMemory.Released :=
  ⟨rfl, rfl⟩

@[simp] theorem getLI_fresh (F : Fn) : (fresh : DecoupleLoopsPass Fn Loop).getLI F = none := by
  simp [getLI, fresh]

@[simp] theorem getLI_releaseMemory (st : DecoupleLoopsPass Fn Loop) (F : Fn) :
    st.releaseMemory.getLI F = st.getLI F := rfl

variable (hpsg : PDGSCCGraphPass.Condensed PDG psg₀ psg) (hclosed : PDG.Closed)
  (hloops : ∀ L ∈ F.loops, ∀ inst, F.InLoop L inst → PDG.IsNode inst)

include hpsg hloops

omit [LinearOrder Loop] in
theorem isLast_touches_iff {L : Loop} {i : Inst} {a : Addr} (hi : PDG.IsNode i)
    (ha : psg.getSCC i = .ok a) :
    IsLast (fun L => Touches F psg L a) F.loops L ↔
      IterWork.Owner PDG.Edge F.InLoop F.loops L i := by
  refine isLast_congr fun L hL => exists_congr fun j => ?_
  rw [and_comm]
  refine and_congr_left fun hj => ?_
  rw [← hpsg.same i j hi (hloops L hL j hj), ha, eq_comm]

include hclosed

omit [LinearOrder Loop] in
/-- The component of `i` has a predecessor in the PSG that belongs to `L`. -/
theorem hasSource_iff {L : Loop} {i : Inst} {a : Addr} (hi : PDG.IsNode i)
    (ha : psg.getSCC i = .ok a) :
    IterWork.HasSource PDG.Edge F.InLoop F.loops L i ↔
      ∃ b, psg.PSG.Edge b a ∧ IsLast (fun L => Touches F psg L b) F.loops L := by
  constructor
  · rintro ⟨k, j, hkj, hji, hki, hown⟩
    obtain ⟨b, -, hb, -⟩ := hpsg.component k hkj.isNode
    have hj : psg.getSCC j = .ok a := ((hpsg.same j i (hclosed k j hkj) hi).mpr hji).trans ha
    refine ⟨b, (hpsg.edge b a).mpr ⟨?_, k, j, hkj, hb, hj⟩,
      (isLast_touches_iff hpsg hloops hkj.isNode hb).mpr hown⟩
    rintro rfl
    exact hki ((hpsg.same k i hkj.isNode hi).mp (hb.trans ha.symm))
  · rintro ⟨b, hba, hb⟩
    obtain ⟨hne, k, j, hkj, hk, hj⟩ := (hpsg.edge b a).mp hba
    have hj' : PDG.IsNode j := hclosed k j hkj
    refine ⟨k, j, hkj, (hpsg.same j i hj' hi).mp (hj.trans ha.symm), fun hki => hne ?_,
      (isLast_touches_iff hpsg hloops hkj.isNode hk).mp hb⟩
    exact Except.ok.inj (hk.symm.trans (((hpsg.same k i hkj.isNode hi).mpr hki).trans ha))

omit [LinearOrder Loop] in
theorem dependsIn_iff {SccToLoop : OrdMap Addr Loop}
    (hm : ∀ (a : Addr) L, SccToLoop[a]? = some L ↔ IsLast (fun L => Touches F psg L a) F.loops L)
    {L : Loop} {i : Inst} {a : Addr} (hi : PDG.IsNode i) (ha : psg.getSCC i = .ok a) :
    DependsIn SccToLoop psg.PSG L a ↔ IterWork.HasSource PDG.Edge F.InLoop F.loops L i := by
  rw [hasSource_iff hpsg hclosed hloops hi ha]
  exact exists_congr fun b => and_congr_right fun _ => hm b L

/-- **The pass splits the loops.** Run on released maps it completes, remembers the `LoopInfo` under
the function's name, and computes the split of `IterWork`. -/
theorem runOnFunction_spec {st₀ : DecoupleLoopsPass Fn Loop} (h₀ : st₀.Released) (name : Fn) :
    ∃ st, runOnFunction name F psg st₀ = .ok st ∧ Splits F PDG psg st ∧
      st.LI = st₀.LI.insert name () ∧
      ∀ a, a ∈ st.endDerefs ↔ a ∈ st₀.endDerefs ∨
        psg.PSG.IsNode a ∧ ∀ L ∈ F.loops, ¬ Touches F psg L a := by
  obtain ⟨SccToLoop, hok, hm⟩ := assignLoops_spec fun L hL inst hinst => by
    obtain ⟨a, -, ha, -⟩ := hpsg.component inst (hloops L hL inst hinst)
    exact ⟨a, ha⟩
  let st₁ : DecoupleLoopsPass Fn Loop :=
    { st₀ with PSGP := some (), LI := st₀.LI.insert name () }
  obtain ⟨st, hst, h⟩ := classifyAll_spec SccToLoop psg.PSG (show st₁.LoopToWorkScc = ∅ from h₀.1)
    h₀.2
  have hnode : ∀ a, a ∈ psg.PSG.nodes.keys ↔ psg.PSG.IsNode a := fun a => ExtTreeMap.mem_keys
  have hmem : ∀ i a, PDG.IsNode i → psg.getSCC i = .ok a → a ∈ psg.PSG.nodes.keys :=
    fun i a hi ha => (hnode a).mpr ((hpsg.isNode a).mpr ⟨i, hi, ha⟩)
  refine ⟨st, bind_ok.mpr ⟨SccToLoop, hok, hst⟩, ⟨h.frame.2, fun L i a hi ha => ?_,
    fun L i a hi ha => ?_, fun L a ha => ?_⟩, h.frame.1, fun a => ?_⟩
  · rw [h.work, hm, isLast_touches_iff hpsg hloops hi ha,
      dependsIn_iff hpsg hclosed hloops hm hi ha]
    exact and_iff_right (hmem i a hi ha)
  · rw [h.iter, hm, isLast_touches_iff hpsg hloops hi ha,
      dependsIn_iff hpsg hclosed hloops hm hi ha]
    exact and_iff_right (hmem i a hi ha)
  · refine (hpsg.isNode a).mp ((hnode a).mp ?_)
    rcases ha with ha | ha
    · exact ((h.work L a).mp ha).1
    · exact ((h.iter L a).mp ha).1
  · rw [h.endDerefs, hnode]
    refine or_congr_right (and_congr_right fun _ => ?_)
    rw [Option.eq_none_iff_forall_not_mem]
    simp only [Option.mem_def, hm]
    constructor
    · intro hno L hL ht
      obtain ⟨L', hL'⟩ := exists_isLast (P := fun L => Touches F psg L a) hL ht
      exact hno L' hL'
    · exact fun hno L hlast => hno L hlast.mem hlast.prop

end Refinement

section Answers

variable {F : Function Inst BB Loop} {PDG : DependenceGraph Inst}
  {psg₀ psg : PDGSCCGraphPass Inst} {st : DecoupleLoopsPass Fn Loop}
  (hpsg : PDGSCCGraphPass.Condensed PDG psg₀ psg)

include hpsg

/-- **`isWork`** answers for the instructions of the graph. -/
theorem Splits.isWork (h : Splits F PDG psg st) {i : Inst}
    (hi : PDG.IsNode i) (L : Loop) :
    Decides (st.isWork psg i L) (IterWork.Work PDG.Edge F.InLoop F.loops L i) := by
  obtain ⟨a, -, ha, -⟩ := hpsg.component i hi
  exact (isIn_decides h.pointer ha).congr (h.work L i a hi ha)

theorem Splits.isIter (h : Splits F PDG psg st) {i : Inst}
    (hi : PDG.IsNode i) (L : Loop) :
    Decides (st.isIter psg i L) (IterWork.Iter PDG.Edge F.InLoop F.loops L i) := by
  obtain ⟨a, -, ha, -⟩ := hpsg.component i hi
  exact (isIn_decides h.pointer ha).congr (h.iter L i a hi ha)

theorem Splits.hasWork (h : Splits F PDG psg st) (L : Loop) :
    st.hasWork L = true ↔
      ∃ i, PDG.IsNode i ∧ IterWork.Work PDG.Edge F.InLoop F.loops L i := by
  rw [hasWork_iff]
  constructor
  · rintro ⟨a, ha⟩
    obtain ⟨i, hi, hia⟩ := h.stored L a (.inl ha)
    exact ⟨i, hi, (h.work L i a hi hia).mp ha⟩
  · rintro ⟨i, hi, hw⟩
    obtain ⟨a, -, ha, -⟩ := hpsg.component i hi
    exact ⟨a, (h.work L i a hi ha).mpr hw⟩

end Answers

end DecoupleLoopsPass

end IcsaDswp
