import IcsaDswp.Lib.Run
import IcsaDswp.Pipeline

/-!
# The pass manager

LLVM's pass manager runs `psg` and `decouple-loops` on one function after the other and releases
their memory in between. The other passes keep nothing then; these two keep `InstToSCC` and `LI`.
`run_inv` is the invariant of all histories. `promise_iff` says which of them keep what the two
passes promise their users, and `answers_eq` that the split of a function's loops depends neither on
what was analysed before nor on where things are in memory.
-/

namespace IcsaDswp

open Lib Relation

variable {Inst BB Fn Loop : Type}

/-! ## The calls -/

inductive Call (Fn : Type)
  | runLoopInfo (F : Fn)
  | releaseLoopInfo
  | runPSG (F : Fn)
  | releasePSG
  | runDecouple (F : Fn)
  | releaseDecouple
deriving DecidableEq

/-- The function each pass was last run on, unless it has been released since. -/
structure Available (Fn : Type) where
  loopInfo : Option Fn
  psg : Option Fn
  decouple : Option Fn

def Available.next (av : Available Fn) : Call Fn → Available Fn
  | .runLoopInfo F => { av with loopInfo := some F }
  | .releaseLoopInfo => { av with loopInfo := none }
  | .runPSG F => { av with psg := some F }
  | .releasePSG => { av with psg := none }
  | .runDecouple F => { av with decouple := some F }
  | .releaseDecouple => { av with decouple := none }

/-- After the calls, of which the latest is the first. -/
def available : List (Call Fn) → Available Fn
  | [] => ⟨none, none, none⟩
  | c :: earlier => (available earlier).next c

/-- A pass runs on what it requires, and not again before it and its user are released. -/
def Enabled (earlier : List (Call Fn)) : Call Fn → Prop
  | .runPSG _ => (available earlier).psg = none ∧ (available earlier).decouple = none
  | .runDecouple F => (available earlier).loopInfo = some F ∧ (available earlier).psg = some F ∧
      (available earlier).decouple = none
  | _ => True

instance [DecidableEq Fn] (earlier : List (Call Fn)) (c : Call Fn) :
    Decidable (Enabled earlier c) :=
  match c with
  | .runPSG _ => inferInstanceAs (Decidable
      ((available earlier).psg = none ∧ (available earlier).decouple = none))
  | .runDecouple F => inferInstanceAs (Decidable ((available earlier).loopInfo = some F ∧
      (available earlier).psg = some F ∧ (available earlier).decouple = none))
  | .runLoopInfo _ | .releaseLoopInfo | .releasePSG | .releaseDecouple => isTrue trivial

/-- What a `LoopInfo` holds: the top-level loops and their blocks. -/
def Function.loopInfo (F : Function Inst BB Loop) : List (Loop × List BB) :=
  F.loops.map fun L => (L, F.loopBlocks L)

/-- What the only `LoopInfo` holds, which is empty before its first run and when it is released. -/
def loopInfo (program : Fn → Function Inst BB Loop) (calls : List (Call Fn)) :
    List (Loop × List BB) :=
  match (available calls).loopInfo with
  | some F => (program F).loopInfo
  | none => []

section Ordered

variable [LinearOrder Inst] [LinearOrder BB] [LinearOrder Fn] [LinearOrder Loop]

/-- The two passes that keep something when they are released. -/
structure Passes (Inst Fn Loop : Type) [LinearOrder Inst] [LinearOrder Fn]
    [LinearOrder Loop] where
  psg : PDGSCCGraphPass Inst
  dl : DecoupleLoopsPass Fn Loop

namespace Passes

def fresh : Passes Inst Fn Loop := ⟨.fresh, .fresh⟩

def step (heap : Heap) (program : Fn → Function Inst BB Loop) (st : Passes Inst Fn Loop) :
    Call Fn → Except Fault (Passes Inst Fn Loop)
  | .runLoopInfo _ => pure st
  | .releaseLoopInfo => pure st
  | .runPSG F => do
    let PDG ← buildPDG (program F)
    let psg ← st.psg.runOnFunction heap PDG
    pure { st with psg := psg }
  | .releasePSG => pure { st with psg := st.psg.releaseMemory }
  | .runDecouple F => do
    let dl ← st.dl.runOnFunction F (program F) st.psg
    pure { st with dl := dl }
  | .releaseDecouple => pure { st with dl := st.dl.releaseMemory }

end Passes

/-! ## All histories -/

variable {heap : Heap} {program : Fn → Function Inst BB Loop} {calls earlier : List (Call Fn)}
  {st : Passes Inst Fn Loop}

/-- What holds after every history: the available passes are right about their functions, the
others store no components, and the two maps that are never cleared know all that was ever put into
them. -/
structure Inv (program : Fn → Function Inst BB Loop) (calls : List (Call Fn))
    (st : Passes Inst Fn Loop) : Prop where
  released : (available calls).psg = none → st.psg.Released
  condensed : ∀ F PDG, (available calls).psg = some F → buildPDG (program F) = .ok PDG →
    ∃ psg₀, PDGSCCGraphPass.Condensed PDG psg₀ st.psg
  decoupleReleased : (available calls).decouple = none → st.dl.Released
  splits : ∀ F PDG, (available calls).psg = some F → (available calls).decouple = some F →
    buildPDG (program F) = .ok PDG → DecoupleLoopsPass.Splits (program F) PDG st.psg st.dl
  known : ∀ i, (∃ a, st.psg.getSCC i = .ok a) ↔ ∃ F, .runPSG F ∈ calls ∧ i ∈ (program F).allInsts
  getLI : ∀ F, st.dl.getLI F = none ↔ .runDecouple F ∉ calls

theorem inv_fresh : Inv program [] (Passes.fresh : Passes Inst Fn Loop) where
  released _ := PDGSCCGraphPass.released_fresh
  condensed _ _ h := nomatch h
  decoupleReleased _ := DecoupleLoopsPass.released_fresh
  splits _ _ h := nomatch h
  known i := by simp [Passes.fresh]
  getLI F := by simp [Passes.fresh]

/-- A run of `psg`. What it knows of other functions stays. -/
theorem step_runPSG (heap : Heap) {F : Fn} (hF : (program F).WellFormed) (h : st.psg.Released) :
    ∃ PDG psg, buildPDG (program F) = .ok PDG ∧ (∀ i, PDG.IsNode i ↔ i ∈ (program F).allInsts) ∧
      PDG.Closed ∧ st.step heap program (.runPSG F) = .ok { st with psg := psg } ∧
      PDGSCCGraphPass.Condensed PDG st.psg psg := by
  obtain ⟨PDG, hPDG, hnode, -, hclosed⟩ := buildPDG_spec hF
  obtain ⟨psg, hrun, hcond⟩ := PDGSCCGraphPass.runOnFunction_spec heap hclosed h
  exact ⟨PDG, psg, hPDG, hnode, hclosed,
    bind_ok.mpr ⟨PDG, hPDG, bind_ok.mpr ⟨psg, hrun, rfl⟩⟩, hcond⟩

/-- A run of `decouple-loops`. -/
theorem step_runDecouple (heap : Heap) {F : Fn} (hF : (program F).WellFormed)
    (hinv : Inv program earlier st) (hc : Enabled earlier (.runDecouple F)) :
    ∃ PDG dl, buildPDG (program F) = .ok PDG ∧
      st.step heap program (.runDecouple F) = .ok { st with dl := dl } ∧
      DecoupleLoopsPass.Splits (program F) PDG st.psg dl ∧ dl.LI = st.dl.LI.insert F () := by
  obtain ⟨-, hpsg, hdl⟩ := hc
  obtain ⟨PDG, hPDG, hnode, -, hclosed⟩ := buildPDG_spec hF
  obtain ⟨psg₀, hcond⟩ := hinv.condensed F PDG hpsg hPDG
  obtain ⟨dl, hrun, hsplits, hLI, -⟩ := DecoupleLoopsPass.runOnFunction_spec hcond hclosed
    (fun L hL inst hinst => (hnode inst).mpr (hF.inLoop_mem hL hinst))
    (hinv.decoupleReleased hdl) F
  exact ⟨PDG, dl, hPDG, bind_ok.mpr ⟨dl, hrun, rfl⟩, hsplits, hLI⟩

theorem inv_runPSG (heap : Heap) {F : Fn} (hF : (program F).WellFormed)
    (hinv : Inv program earlier st) (hc : Enabled earlier (.runPSG F)) :
    ∃ st', st.step heap program (.runPSG F) = .ok st' ∧
      Inv program (.runPSG F :: earlier) st' := by
  obtain ⟨PDG, psg, hPDG, hnode, -, hstep, hcond⟩ := step_runPSG heap hF (hinv.released hc.1)
  have hdl : (available earlier).decouple = none := hc.2
  refine ⟨_, hstep, nofun, ?_, fun _ => hinv.decoupleReleased hdl, ?_, fun i => ?_, fun G => ?_⟩
  · rintro G PDG' hG hPDG'
    obtain rfl : F = G := Option.some.inj hG
    obtain rfl : PDG = PDG' := Except.ok.inj (hPDG.symm.trans hPDG')
    exact ⟨st.psg, hcond⟩
  · rintro G PDG' - hG
    exact absurd (hdl.symm.trans hG) nofun
  · by_cases hi : i ∈ (program F).allInsts
    · obtain ⟨a, -, ha, -⟩ := hcond.component i ((hnode i).mpr hi)
      exact ⟨fun _ => ⟨F, List.mem_cons_self, hi⟩, fun _ => ⟨a, ha⟩⟩
    · show (∃ a, psg.getSCC i = .ok a) ↔ _
      rw [hcond.getSCC_stale fun h => hi ((hnode i).mp h), hinv.known]
      refine exists_congr fun G => and_congr_left fun hG => ?_
      rw [List.mem_cons, or_iff_right]
      rintro ⟨rfl⟩
      exact hi hG
  · rw [hinv.getLI, List.mem_cons, or_iff_right nofun]

theorem inv_runDecouple (heap : Heap) {F : Fn} (hF : (program F).WellFormed)
    (hinv : Inv program earlier st) (hc : Enabled earlier (.runDecouple F)) :
    ∃ st', st.step heap program (.runDecouple F) = .ok st' ∧
      Inv program (.runDecouple F :: earlier) st' := by
  obtain ⟨PDG, dl, hPDG, hstep, hsplits, hLI⟩ := step_runDecouple heap hF hinv hc
  refine ⟨_, hstep, hinv.released, hinv.condensed, nofun, ?_, fun i => ?_, fun G => ?_⟩
  · rintro G PDG' - hG hPDG'
    obtain rfl : F = G := Option.some.inj hG
    obtain rfl : PDG = PDG' := Except.ok.inj (hPDG.symm.trans hPDG')
    exact hsplits
  · rw [hinv.known]
    simp
  · show dl.LI[G]? = none ↔ _
    rw [hLI, OrdMap.get_insert]
    by_cases hG : F = G
    · simp [hG]
    · rw [if_neg hG, List.mem_cons, or_iff_right fun h => hG (Call.runDecouple.inj h).symm]
      exact hinv.getLI G

theorem inv_step (heap : Heap) (hprog : ∀ F, (program F).WellFormed) (c : Call Fn)
    (hinv : Inv program earlier st) (hc : Enabled earlier c) :
    ∃ st', st.step heap program c = .ok st' ∧ Inv program (c :: earlier) st' := by
  cases c with
  | runPSG F => exact inv_runPSG heap (hprog F) hinv hc
  | runDecouple F => exact inv_runDecouple heap (hprog F) hinv hc
  | runLoopInfo F =>
    refine ⟨st, rfl, hinv.released, hinv.condensed, hinv.decoupleReleased, hinv.splits, ?_, ?_⟩
    · simpa using hinv.known
    · simpa using hinv.getLI
  | releaseLoopInfo =>
    refine ⟨st, rfl, hinv.released, hinv.condensed, hinv.decoupleReleased, hinv.splits, ?_, ?_⟩
    · simpa using hinv.known
    · simpa using hinv.getLI
  | releasePSG =>
    refine ⟨_, rfl, fun _ => st.psg.released_releaseMemory, nofun, hinv.decoupleReleased, nofun,
      ?_, ?_⟩
    · simpa using hinv.known
    · simpa using hinv.getLI
  | releaseDecouple =>
    refine ⟨_, rfl, hinv.released, hinv.condensed, fun _ => st.dl.released_releaseMemory, nofun,
      ?_, ?_⟩
    · simpa using hinv.known
    · simpa using hinv.getLI

/-- **All histories.** No legal call fails, and the invariant holds after all of them. -/
theorem run_inv (heap : Heap) (hprog : ∀ F, (program F).WellFormed) (hcalls : Legal Enabled calls) :
    ∃ st : Passes Inst Fn Loop, run (Passes.step heap program) .fresh calls = .ok st ∧
      Inv program calls st :=
  run_total (P := Inv program) inv_fresh (fun _ c _ hinv hc => inv_step heap hprog c hinv hc) hcalls

/-! ## What the passes promise -/

/-- Their users cannot tell the two `psg` apart. -/
def Passes.SamePSG (st st' : Passes Inst Fn Loop) : Prop :=
  st.psg.PSG = st'.psg.PSG ∧ ∀ i, st.psg.getSCC i = st'.psg.getSCC i

/-- Their users cannot tell the two `decouple-loops` apart. -/
structure Passes.SameDecouple (st st' : Passes Inst Fn Loop) : Prop where
  getLI : ∀ F, st.dl.getLI F = st'.dl.getLI F
  sccs : st.dl.LoopToIterScc = st'.dl.LoopToIterScc ∧ st.dl.LoopToWorkScc = st'.dl.LoopToWorkScc
  isIter : ∀ i L, st.dl.isIter st.psg i L = st'.dl.isIter st'.psg i L
  isWork : ∀ i L, st.dl.isWork st.psg i L = st'.dl.isWork st'.psg i L
  hasWork : ∀ L, st.dl.hasWork L = st'.dl.hasWork L

/-- The passes are clean: no pointer they hand out is stale, and what has just been released looks
fresh. The only pointer `getLI` has is that to the only `LoopInfo`. -/
structure Promise (program : Fn → Function Inst BB Loop) (calls : List (Call Fn))
    (st : Passes Inst Fn Loop) : Prop where
  getSCC : ∀ i a, st.psg.getSCC i = .ok a → st.psg.PSG.IsNode a ∧ st.psg.Contains a i
  getLI : ∀ F, st.dl.getLI F = none ∨ loopInfo program calls = (program F).loopInfo
  releasedPSG : calls.head? = some .releasePSG → st.SamePSG .fresh
  releasedDecouple : calls.head? = some .releaseDecouple → st.SameDecouple .fresh

/-- The calls after which the promise still stands. -/
def Harmless (program : Fn → Function Inst BB Loop) (earlier : List (Call Fn)) : Call Fn → Prop
  | .runLoopInfo G => ∀ F, .runDecouple F ∈ earlier → (program G).loopInfo = (program F).loopInfo
  | .releaseLoopInfo => ∀ F, .runDecouple F ∈ earlier → [] = (program F).loopInfo
  | .releasePSG => ∀ F, .runPSG F ∈ earlier → (program F).allInsts = []
  | .releaseDecouple => ∀ F, .runDecouple F ∉ earlier
  | .runPSG _ | .runDecouple _ => True

omit [LinearOrder BB] in
theorem promise_fresh : Promise program [] (Passes.fresh : Passes Inst Fn Loop) where
  getSCC i a h := by simp [Passes.fresh] at h
  getLI F := .inl (by simp [Passes.fresh])
  releasedPSG := nofun
  releasedDecouple := nofun

/-- While `psg` is released, `getSCC` throws. -/
theorem Promise.getSCC_ne_ok (hp : Promise program earlier st) (hinv : Inv program earlier st)
    (h : (available earlier).psg = none) {i : Inst} {a : Addr} : st.psg.getSCC i ≠ .ok a := by
  intro ha
  obtain ⟨hnode, -⟩ := hp.getSCC i a ha
  rw [(hinv.released h).2] at hnode
  exact DependenceGraph.empty_isNode a hnode

/-- What `LoopInfo` says is asked of all functions that `decouple-loops` has seen. -/
theorem Inv.getLI_iff (hinv : Inv program earlier st) {info : List (Loop × List BB)} :
    (∀ F, st.dl.getLI F = none ∨ info = (program F).loopInfo) ↔
      ∀ F, .runDecouple F ∈ earlier → info = (program F).loopInfo := by
  refine forall_congr' fun F => ?_
  rw [hinv.getLI, or_iff_not_imp_left, not_not]

theorem promise_releasePSG (hinv : Inv program earlier st) (hp : Promise program earlier st) :
    Promise program (.releasePSG :: earlier) { st with psg := st.psg.releaseMemory } ↔
      Harmless program earlier .releasePSG := by
  constructor
  · intro h F hF
    refine List.eq_nil_iff_forall_not_mem.mpr fun i hi => ?_
    obtain ⟨a, ha⟩ := (hinv.known i).mpr ⟨F, hF, hi⟩
    exact DependenceGraph.empty_isNode a (h.getSCC i a ha).1
  · intro h
    have hthrows : ∀ i a, st.psg.getSCC i ≠ .ok a := by
      intro i a ha
      obtain ⟨F, hF, hi⟩ := (hinv.known i).mp ⟨a, ha⟩
      simp [h F hF] at hi
    refine ⟨fun i a ha => absurd ha (hthrows i a), hp.getLI, fun _ => ⟨rfl, fun i => ?_⟩, nofun⟩
    have hnone : st.psg.InstToSCC[i]? = none := by
      rw [Option.eq_none_iff_forall_ne_some]
      exact fun a ha => hthrows i a (OrdMap.at_ok.mpr ha)
    show st.psg.getSCC i = PDGSCCGraphPass.fresh.getSCC i
    rw [PDGSCCGraphPass.getSCC_fresh, PDGSCCGraphPass.getSCC, OrdMap.at, hnone]

theorem promise_releaseDecouple (hinv : Inv program earlier st) (hp : Promise program earlier st) :
    Promise program (.releaseDecouple :: earlier) { st with dl := st.dl.releaseMemory } ↔
      Harmless program earlier .releaseDecouple := by
  constructor
  · intro h F
    exact (hinv.getLI F).mp (((h.releasedDecouple rfl).getLI F).trans (by simp [Passes.fresh]))
  · intro h
    have hnone : ∀ F, st.dl.getLI F = none := fun F => (hinv.getLI F).mpr (h F)
    refine ⟨hp.getSCC, hp.getLI, nofun,
      fun _ => ⟨fun F => (hnone F).trans ?_, ⟨rfl, rfl⟩, ?_, ?_, ?_⟩⟩
    · simp [Passes.fresh]
    · simp [DecoupleLoopsPass.isIter, DecoupleLoopsPass.isIn, DecoupleLoopsPass.releaseMemory,
        Passes.fresh, DecoupleLoopsPass.fresh]
    · simp [DecoupleLoopsPass.isWork, DecoupleLoopsPass.isIn, DecoupleLoopsPass.releaseMemory,
        Passes.fresh, DecoupleLoopsPass.fresh]
    · simp [DecoupleLoopsPass.hasWork, DecoupleLoopsPass.releaseMemory, Passes.fresh,
        DecoupleLoopsPass.fresh]

theorem promise_runPSG (heap : Heap) {F : Fn} (hF : (program F).WellFormed)
    (hinv : Inv program earlier st) (hp : Promise program earlier st)
    (hc : Enabled earlier (.runPSG F)) {st' : Passes Inst Fn Loop}
    (hst : st.step heap program (.runPSG F) = .ok st') :
    Promise program (.runPSG F :: earlier) st' := by
  obtain ⟨PDG, psg, -, hnode, hclosed, hstep, hcond⟩ := step_runPSG heap hF (hinv.released hc.1)
  obtain rfl : { st with psg := psg } = st' := Except.ok.inj (hstep.symm.trans hst)
  refine ⟨fun i a ha => ?_, hp.getLI, nofun, nofun⟩
  -- nothing was known before, so what is known now is of the graph
  have hi : PDG.IsNode i := by
    by_contra hi
    exact hp.getSCC_ne_ok hinv hc.1 ((hcond.getSCC_stale hi).symm.trans ha)
  exact ⟨(hcond.isNode a).mpr ⟨i, hi, ha⟩, (hcond.contains_iff hclosed).mpr ⟨hi, ha⟩⟩

theorem promise_runDecouple (heap : Heap) {F : Fn} (hF : (program F).WellFormed)
    (hinv : Inv program earlier st) (hp : Promise program earlier st)
    (hc : Enabled earlier (.runDecouple F)) {st' : Passes Inst Fn Loop}
    (hst : st.step heap program (.runDecouple F) = .ok st') :
    Promise program (.runDecouple F :: earlier) st' := by
  obtain ⟨PDG, dl, -, hstep, -, hLI⟩ := step_runDecouple heap hF hinv hc
  obtain rfl : { st with dl := dl } = st' := Except.ok.inj (hstep.symm.trans hst)
  refine ⟨hp.getSCC, fun G => ?_, nofun, nofun⟩
  by_cases hG : F = G
  · right
    show loopInfo program earlier = _
    rw [loopInfo, hc.1, hG]
  · have hsame : dl.getLI G = st.dl.getLI G := by
      unfold DecoupleLoopsPass.getLI
      rw [hLI, OrdMap.get_insert, if_neg hG]
    show dl.getLI G = none ∨ _
    rw [hsame]
    exact hp.getLI G

theorem promise_step (heap : Heap) (hprog : ∀ F, (program F).WellFormed) {c : Call Fn}
    (hinv : Inv program earlier st) (hp : Promise program earlier st) (hc : Enabled earlier c)
    {st' : Passes Inst Fn Loop} (hst : st.step heap program c = .ok st') :
    Promise program (c :: earlier) st' ↔ Harmless program earlier c := by
  cases c with
  | runPSG F => exact iff_of_true (promise_runPSG heap (hprog F) hinv hp hc hst) trivial
  | runDecouple F => exact iff_of_true (promise_runDecouple heap (hprog F) hinv hp hc hst) trivial
  | runLoopInfo G =>
    obtain rfl : st = st' := Except.ok.inj hst
    refine Iff.trans ⟨fun h => h.getLI, fun h => ?_⟩ hinv.getLI_iff
    exact ⟨hp.getSCC, h, nofun, nofun⟩
  | releaseLoopInfo =>
    obtain rfl : st = st' := Except.ok.inj hst
    refine Iff.trans ⟨fun h => h.getLI, fun h => ?_⟩ hinv.getLI_iff
    exact ⟨hp.getSCC, h, nofun, nofun⟩
  | releasePSG =>
    obtain rfl := Except.ok.inj hst
    exact promise_releasePSG hinv hp
  | releaseDecouple =>
    obtain rfl := Except.ok.inj hst
    exact promise_releaseDecouple hinv hp

/-- **Which histories keep the promise.** Those in which `psg` is released only while no function it
has run on has an instruction, `decouple-loops` only before its first run, and the `LoopInfo` is not
changed under the functions `decouple-loops` has run on. -/
theorem promise_iff (heap : Heap) (hprog : ∀ F, (program F).WellFormed)
    (hcalls : Legal Enabled calls) :
    (∀ earlier, earlier <:+ calls → ∃ st : Passes Inst Fn Loop,
        run (Passes.step heap program) .fresh earlier = .ok st ∧ Promise program earlier st) ↔
      ∀ c earlier, c :: earlier <:+ calls → Harmless program earlier c := by
  refine forall_suffix_iff ⟨.fresh, rfl, promise_fresh⟩ (fun earlier c hlegal hQ => ?_) hcalls
  obtain ⟨st, hst, hp⟩ := hQ
  obtain ⟨st₁, hst₁, hinv⟩ := run_inv heap hprog hlegal.1
  obtain rfl : st = st₁ := Except.ok.inj (hst.symm.trans hst₁)
  obtain ⟨st', hstep, -⟩ := inv_step heap hprog c hinv hlegal.2
  have hrun : run (Passes.step heap program) .fresh (c :: earlier) = .ok st' :=
    bind_ok.mpr ⟨st, hst, hstep⟩
  rw [← promise_step heap hprog hinv hp hlegal.2 hstep, hrun]
  constructor
  · rintro ⟨st₂, hst₂, h⟩
    obtain rfl := Except.ok.inj hst₂
    exact h
  · exact fun h => ⟨st', rfl, h⟩

/-- One function is analysed and nothing released. -/
theorem promise_iff_storeLoop :
    storeLoop.WellFormed ∧
    Legal Enabled [.runDecouple (0 : Fin 1), .runPSG 0, .runLoopInfo 0] ∧
    ((∀ earlier, earlier <:+ [.runDecouple (0 : Fin 1), .runPSG 0, .runLoopInfo 0] →
        ∃ st : Passes (Fin 9) (Fin 1) (Fin 1),
          run (Passes.step .bump fun _ => storeLoop) .fresh earlier = .ok st ∧
            Promise (fun _ => storeLoop) earlier st) ↔
      ∀ c earlier, c :: earlier <:+ [.runDecouple (0 : Fin 1), .runPSG 0, .runLoopInfo 0] →
        Harmless (fun _ => storeLoop) earlier c) :=
  have hF : storeLoop.WellFormed := by decide +kernel
  have hcalls : Legal Enabled [.runDecouple (0 : Fin 1), .runPSG 0, .runLoopInfo 0] := by decide
  ⟨hF, hcalls, promise_iff .bump (fun _ => hF) hcalls⟩

/-- The same function analysed and the passes released, as after every function: `getSCC` returns
the address of a set that is gone, and `getLI` a `LoopInfo` that is empty. -/
theorem promise_broken_storeLoop :
    let calls : List (Call (Fin 1)) := [.releaseLoopInfo, .releasePSG, .releaseDecouple,
      .runDecouple 0, .runPSG 0, .runLoopInfo 0]
    storeLoop.WellFormed ∧ Legal Enabled calls ∧
    ∃ st : Passes (Fin 9) (Fin 1) (Fin 1),
      run (Passes.step .bump fun _ => storeLoop) .fresh calls = .ok st ∧
      (∃ a, st.psg.getSCC 1 = .ok a ∧ ¬ st.psg.PSG.IsNode a ∧ st.psg.deref a = none) ∧
      st.dl.getLI 0 = some () ∧ loopInfo (fun _ => storeLoop) calls ≠ storeLoop.loopInfo ∧
      ¬ Promise (fun _ => storeLoop) calls st := by
  intro calls
  have hF : storeLoop.WellFormed := by decide +kernel
  have hcalls : Legal Enabled calls := by decide
  obtain ⟨st, hst, hinv⟩ : ∃ st : Passes (Fin 9) (Fin 1) (Fin 1),
      run (Passes.step .bump fun _ => storeLoop) .fresh calls = .ok st ∧
        Inv (fun _ => storeLoop) calls st := run_inv .bump (fun _ => hF) hcalls
  obtain ⟨a, ha⟩ := (hinv.known 1).mpr ⟨0, by decide, by decide⟩
  obtain ⟨hSCCs, hPSG⟩ := hinv.released rfl
  have hnode : ¬ st.psg.PSG.IsNode a := by
    rw [hPSG]
    exact DependenceGraph.empty_isNode a
  have hLI : st.dl.getLI 0 ≠ none := fun h => (hinv.getLI 0).mp h (by decide)
  refine ⟨hF, hcalls, st, hst, ⟨a, ha, hnode, ?_⟩, ?_, by decide,
    fun h => hnode (h.getSCC 1 a ha).1⟩
  · unfold PDGSCCGraphPass.deref
    rw [hSCCs]
    rfl
  · exact (Option.ne_none_iff_exists'.mp hLI).choose_spec

/-! ## The split is that of the function -/

/-- What a user asks `decouple-loops`. -/
structure Answers (Inst Loop : Type) where
  isIter : Inst → Loop → Except Fault Bool
  isWork : Inst → Loop → Except Fault Bool
  hasWork : Loop → Bool

def Passes.answers (st : Passes Inst Fn Loop) : Answers Inst Loop where
  isIter := st.dl.isIter st.psg
  isWork := st.dl.isWork st.psg
  hasWork := st.dl.hasWork

/-- The answers are those of the split of `F` along its dependences, which no address enters. -/
structure Answers.Splits (F : Function Inst BB Loop) (answers : Answers Inst Loop) : Prop where
  isIter : ∀ i ∈ F.allInsts, ∀ L,
    DecoupleLoopsPass.Decides (answers.isIter i L) (IterWork.Iter F.Dep F.InLoop F.loops L i)
  isWork : ∀ i ∈ F.allInsts, ∀ L,
    DecoupleLoopsPass.Decides (answers.isWork i L) (IterWork.Work F.Dep F.InLoop F.loops L i)
  hasWork : ∀ L, answers.hasWork L = true ↔
    ∃ i ∈ F.allInsts, IterWork.Work F.Dep F.InLoop F.loops L i

theorem Inv.answers_splits {F : Fn} (hinv : Inv program calls st) (hF : (program F).WellFormed)
    (hpsg : (available calls).psg = some F) (hdl : (available calls).decouple = some F) :
    st.answers.Splits (program F) := by
  obtain ⟨PDG, hPDG, hnode, hedge, -⟩ := buildPDG_spec hF
  obtain ⟨psg₀, hcond⟩ := hinv.condensed F PDG hpsg hPDG
  have hsplits := hinv.splits F PDG hpsg hdl hPDG
  refine ⟨fun i hi L => ?_, fun i hi L => ?_, fun L => ?_⟩
  · rw [← hedge]
    exact hsplits.isIter hcond ((hnode i).mpr hi) L
  · rw [← hedge]
    exact hsplits.isWork hcond ((hnode i).mpr hi) L
  · rw [← hedge]
    simp only [← hnode]
    exact hsplits.hasWork hcond L

end Ordered

theorem Answers.Splits.agree {F : Function Inst BB Loop} {r₁ r₂ : Answers Inst Loop}
    (h₁ : r₁.Splits F) (h₂ : r₂.Splits F) :
    (∀ L, r₁.hasWork L = r₂.hasWork L) ∧ ∀ i ∈ F.allInsts, ∀ L,
      (∃ b, r₁.isIter i L = .ok b ∧ r₂.isIter i L = .ok b) ∧
      ∃ b, r₁.isWork i L = .ok b ∧ r₂.isWork i L = .ok b := by
  refine ⟨fun L => Bool.eq_iff_iff.mpr ((h₁.hasWork L).trans (h₂.hasWork L).symm), ?_⟩
  intro i hi L
  obtain ⟨b, hb, -⟩ := h₁.isIter i hi L
  obtain ⟨c, hc, -⟩ := h₁.isWork i hi L
  exact ⟨⟨b, hb, ((h₁.isIter i hi L).eq (h₂.isIter i hi L)).symm.trans hb⟩,
    ⟨c, hc, ((h₁.isWork i hi L).eq (h₂.isWork i hi L)).symm.trans hc⟩⟩

/-- The order of the addresses of each kind of object, and where sets are put. -/
structure Layout (Inst BB Fn Loop : Type) where
  inst : LinearOrder Inst
  block : LinearOrder BB
  fn : LinearOrder Fn
  loop : LinearOrder Loop
  heap : Heap

/-- What the passes answer after a history in this layout. -/
def Layout.answers (l : Layout Inst BB Fn Loop) (program : Fn → Function Inst BB Loop)
    (calls : List (Call Fn)) : Except Fault (Answers Inst Loop) :=
  letI := l.inst
  letI := l.block
  letI := l.fn
  letI := l.loop
  (run (Passes.step l.heap program) .fresh calls).map Passes.answers

theorem Layout.answers_splits (l : Layout Inst BB Fn Loop) {program : Fn → Function Inst BB Loop}
    (hprog : ∀ F, (program F).WellFormed) {calls : List (Call Fn)} (hcalls : Legal Enabled calls)
    {F : Fn} (hpsg : (available calls).psg = some F) (hdl : (available calls).decouple = some F) :
    ∃ r, l.answers program calls = .ok r ∧ r.Splits (program F) := by
  let := l.inst
  let := l.block
  let := l.fn
  let := l.loop
  obtain ⟨st, hst, hinv⟩ := run_inv l.heap hprog hcalls
  exact ⟨st.answers, map_ok.mpr ⟨st, hst, rfl⟩, hinv.answers_splits (hprog F) hpsg hdl⟩

/-- **The split depends on the function alone**, not on what was analysed before nor on where it,
its components or the other functions are in memory. -/
theorem answers_eq {program : Fn → Function Inst BB Loop} (hprog : ∀ F, (program F).WellFormed)
    (l₁ l₂ : Layout Inst BB Fn Loop) {calls₁ calls₂ : List (Call Fn)}
    (h₁ : Legal Enabled calls₁) (h₂ : Legal Enabled calls₂) {F : Fn}
    (hF₁ : (available calls₁).psg = some F ∧ (available calls₁).decouple = some F)
    (hF₂ : (available calls₂).psg = some F ∧ (available calls₂).decouple = some F) :
    ∃ r₁ r₂, l₁.answers program calls₁ = .ok r₁ ∧ l₂.answers program calls₂ = .ok r₂ ∧
      ∀ L ∈ (program F).loops, r₁.hasWork L = r₂.hasWork L ∧ ∀ I ∈ (program F).allInsts,
        (∃ b, r₁.isIter I L = .ok b ∧ r₂.isIter I L = .ok b) ∧
        ∃ b, r₁.isWork I L = .ok b ∧ r₂.isWork I L = .ok b := by
  obtain ⟨r₁, hr₁, hs₁⟩ := l₁.answers_splits hprog h₁ hF₁.1 hF₁.2
  obtain ⟨r₂, hr₂, hs₂⟩ := l₂.answers_splits hprog h₂ hF₂.1 hF₂.2
  obtain ⟨hwork, hinst⟩ := hs₁.agree hs₂
  exact ⟨r₁, r₂, hr₁, hr₂, fun L _ => ⟨hwork L, fun I hI => hinst I hI L⟩⟩

/-- All addresses ascending, and all descending where the function was analysed once before. -/
theorem answers_eq_storeLoop :
    let up : Layout (Fin 9) (Fin 4) (Fin 1) (Fin 1) :=
      ⟨inferInstance, inferInstance, inferInstance, inferInstance, .bump⟩
    let down : Layout (Fin 9) (Fin 4) (Fin 1) (Fin 1) :=
      ⟨inferInstanceAs (LinearOrder (Fin 9)ᵒᵈ), inferInstanceAs (LinearOrder (Fin 4)ᵒᵈ),
        inferInstanceAs (LinearOrder (Fin 1)ᵒᵈ), inferInstanceAs (LinearOrder (Fin 1)ᵒᵈ), .bump⟩
    let once : List (Call (Fin 1)) := [.runDecouple 0, .runPSG 0, .runLoopInfo 0]
    let twice := once ++ [.releaseLoopInfo, .releasePSG, .releaseDecouple] ++ once
    storeLoop.WellFormed ∧
    ∃ r₁ r₂, up.answers (fun _ => storeLoop) once = .ok r₁ ∧
      down.answers (fun _ => storeLoop) twice = .ok r₂ ∧
      ∀ L ∈ storeLoop.loops, r₁.hasWork L = r₂.hasWork L ∧ ∀ I ∈ storeLoop.allInsts,
        (∃ b, r₁.isIter I L = .ok b ∧ r₂.isIter I L = .ok b) ∧
        ∃ b, r₁.isWork I L = .ok b ∧ r₂.isWork I L = .ok b := by
  intro up down once twice
  have hF : storeLoop.WellFormed := by decide +kernel
  have honce : Legal Enabled once := by decide
  have htwice : Legal Enabled twice := by decide
  exact ⟨hF, answers_eq (F := 0) (fun _ => hF) up down honce htwice ⟨rfl, rfl⟩ ⟨rfl, rfl⟩⟩

end IcsaDswp
