import IcsaDswp.Lib.Ranking
import IcsaDswp.Pipeline
import IcsaDswp.Topsort

/-!
# Ranks of components

`pass/src/SourceToPSGPrinter.cpp`: for each source line the positions that the components of its
instructions take in `topsort` of the PSG. The PSG has no cycle, so `topsort` sorts all of it
(`topsort_psg`), and along the edges of the PDG the ranks never fall (`rank_correct`). Components that
come behind the same one are ranked by their addresses (`Ranked.fifo`).
-/

namespace IcsaDswp

open Std (ExtTreeMap ExtTreeSet)
open Lib Relation

/-- `llvm::DIFile` by its `getName()`, which for a file is empty, and its `getFilename()`. -/
structure DIFile where
  name : String
  filename : String
  deriving DecidableEq

/-- `llvm::DILocation`; a scope may come without a file. -/
structure DILocation where
  file : Option DIFile
  line : Nat
  deriving DecidableEq

/-- What the printers read of an instruction: `instructionToFunctionName` and `getDebugLoc()`. -/
structure DebugInfo (Inst : Type) where
  functionName : Inst → String
  getDebugLoc : Inst → Option DILocation

/-- A file that is written. -/
structure OutputFile where
  name : String
  text : String
  deriving DecidableEq

namespace SourceToPSGPrinter

variable {Inst BB Loop : Type} [LinearOrder Inst]

/-! ## The code -/

/-- The name of the function of the first instruction in the first component; there is none to
read in an empty graph. -/
def funcName (dbg : DebugInfo Inst) (psg : PDGSCCGraphPass Inst) : Except Fault String :=
  match psg.PSG.nodes.keys.head? with
  | none => .error .nullDeref
  | some firstSCC =>
    match (psg.deref firstSCC).bind fun scc => scc.toList.head? with
    | none => .error .nullDeref
    | some inst => .ok (dbg.functionName inst)

/-- `find(ts.begin(), ts.end(), scc) - ts.begin()` for the component of `inst`; what is not found
is at the end. There are taken to be fewer components than an `unsigned` counts. -/
def rank (psg : PDGSCCGraphPass Inst) (ts : List Addr) (inst : Inst) : Except Fault Nat := do
  let scc ← psg.getSCC inst
  pure (ts.idxOf scc)

/-- One turn of the loop over the instructions, on `File` and `lineToSCCs`. -/
def noteLine (dbg : DebugInfo Inst) (psg : PDGSCCGraphPass Inst) (ts : List Addr)
    (st : Option DIFile × OrdMap Nat (OrdSet Nat)) (inst : Inst) :
    Except Fault (Option DIFile × OrdMap Nat (OrdSet Nat)) :=
  match dbg.getDebugLoc inst with
  | none => .ok st
  | some Loc => do
    let File := match st.1 with
      | some File => some File
      | none => Loc.file
    let rank ← rank psg ts inst
    pure (File, st.2.insertAt Loc.line rank)

/-- `File:line rank rank ...`, a line each. -/
def render (File : DIFile) (lineToSCCs : OrdMap Nat (OrdSet Nat)) : String :=
  String.join (lineToSCCs.toList.map fun line =>
    File.name ++ ":" ++ toString line.1 ++
      String.join (line.2.toList.map fun scc => " " ++ toString scc) ++ "\n")

/-- The report, which is not written when no instruction has a file. -/
def runOnFunction (dbg : DebugInfo Inst) (F : Function Inst BB Loop)
    (psg : PDGSCCGraphPass Inst) : Except Fault (Option OutputFile) := do
  let FuncName ← funcName dbg psg
  let ts ← GraphUtils.topsort psg.PSG
  let (File, lineToSCCs) ← F.allInsts.foldlM (noteLine dbg psg ts) (none, ∅)
  pure (File.map fun File => ⟨FuncName ++ ".psg-report", render File lineToSCCs⟩)

/-! ## The sorted PSG -/

section Ranks

variable {PDG : DependenceGraph Inst} {st₀ st : PDGSCCGraphPass Inst}

/-- **`topsort` sorts all components.** -/
theorem topsort_psg (h : PDGSCCGraphPass.Condensed PDG st₀ st) (hclosed : PDG.Closed) :
    ∃ ts, GraphUtils.topsort st.PSG = .ok ts ∧ KahnOrder st.PSG.Edge st.PSG.IsNode ts ∧
      Fifo st.PSG.Edge (· < ·) ts ∧ (∀ a, st.PSG.IsNode a → a ∈ ts) ∧
      ts.length = st.PSG.nodes.size := by
  obtain ⟨ts, hrun, -, hkahn, hfifo⟩ := GraphUtils.topsort_kahnOrder (h.closed hclosed)
  have hall : ∀ a, st.PSG.IsNode a → a ∈ ts :=
    (hkahn.complete_iff (GraphUtils.finite_isNode _) fun _ _ hab => hab.isNode).mpr
      (h.condensation hclosed).acyclic
  refine ⟨ts, hrun, hkahn, hfifo, hall, ?_⟩
  rw [← List.toFinset_card_of_nodup hkahn.nodup, ← GraphUtils.card_nodeSet]
  congr 1
  ext a
  rw [List.mem_toFinset, GraphUtils.mem_nodeSet]
  exact ⟨fun ha => ((hkahn.mem a).mp ha).1, hall a⟩

theorem rank_ok {psg : PDGSCCGraphPass Inst} {ts : List Addr} {inst : Inst} {r : Nat} :
    rank psg ts inst = .ok r ↔ ∃ a, psg.getSCC inst = .ok a ∧ ts.idxOf a = r := by
  unfold rank
  rw [bind_ok]
  simp [pure, Except.pure]

/-- The instructions have the ranks `ρ`, a numbering of the components in the order of the
dependences, and of their addresses where they get ready together. -/
structure Ranked (PDG : DependenceGraph Inst) (st : PDGSCCGraphPass Inst) (ts : List Addr)
    (ρ : Inst → Nat) : Prop where
  rank : ∀ i, PDG.IsNode i → rank st ts i = .ok (ρ i)
  ranking : Ranking PDG.Edge PDG.IsNode st.PSG.nodes.size ρ
  fifo : ∀ i j a b, PDG.IsNode i → PDG.IsNode j → st.getSCC i = .ok a → st.getSCC j = .ok b →
    (∀ k, Ready PDG.Edge ρ (ρ i) k ↔ Ready PDG.Edge ρ (ρ j) k) → a < b → ρ i < ρ j

section Condensed

variable {ts : List Addr} {ρ : Inst → Nat}

theorem ranking_of_kahnOrder (h : PDGSCCGraphPass.Condensed PDG st₀ st) (hclosed : PDG.Closed)
    (hkahn : KahnOrder st.PSG.Edge st.PSG.IsNode ts) (hlen : ts.length = st.PSG.nodes.size)
    (hscc : ∀ i, PDG.IsNode i → ∃ a ∈ ts, st.getSCC i = .ok a ∧ ts.idxOf a = ρ i) :
    Ranking PDG.Edge PDG.IsNode st.PSG.nodes.size ρ where
  lt i hi := by
    obtain ⟨a, hmem, -, hρ⟩ := hscc i hi
    rw [← hρ, ← hlen]
    exact List.idxOf_lt_length_of_mem hmem
  onto r hr := by
    have hlt : r < ts.length := hlen ▸ hr
    obtain ⟨i, hi, ha⟩ := (h.isNode ts[r]).mp ((hkahn.mem ts[r]).mp (List.getElem_mem hlt)).1
    obtain ⟨a, -, ha', hρ⟩ := hscc i hi
    obtain rfl : ts[r] = a := Except.ok.inj (ha.symm.trans ha')
    exact ⟨i, hi, hρ.symm.trans (hkahn.nodup.idxOf_getElem r hlt)⟩
  same i j hi hj := by
    obtain ⟨a, hmem, ha, hρa⟩ := hscc i hi
    obtain ⟨b, -, hb, hρb⟩ := hscc j hj
    have hsame := h.same i j hi hj
    rwa [ha, hb, Except.ok.injEq, ← List.idxOf_inj hmem, hρa, hρb] at hsame
  mono i j hij := by
    obtain ⟨a, -, ha, hρa⟩ := hscc i hij.isNode
    obtain ⟨b, hmem, hb, hρb⟩ := hscc j (hclosed i j hij)
    rw [← hρa, ← hρb]
    by_cases hab : a = b
    · rw [hab]
    · exact (hkahn.idxOf_lt ((h.edge a b).mpr ⟨hab, i, j, hij, ha, hb⟩) hmem).le

/-- When a component is ready, in terms of the PSG. -/
theorem ready_iff (h : PDGSCCGraphPass.Condensed PDG st₀ st) (hclosed : PDG.Closed)
    (hscc : ∀ i, PDG.IsNode i → ∃ a ∈ ts, st.getSCC i = .ok a ∧ ts.idxOf a = ρ i)
    {i : Inst} (hi : PDG.IsNode i) {a : Addr} (ha : st.getSCC i = .ok a) (k : Nat) :
    Ready PDG.Edge ρ (ρ i) k ↔ ∀ u, st.PSG.Edge u a → ts.idxOf u < k := by
  have hidx : ∀ j b, PDG.IsNode j → st.getSCC j = .ok b → b ∈ ts ∧ ts.idxOf b = ρ j := by
    intro j b hj hb
    obtain ⟨b', hmem, hb', hρ⟩ := hscc j hj
    obtain rfl : b = b' := Except.ok.inj (hb.symm.trans hb')
    exact ⟨hmem, hρ⟩
  obtain ⟨hmem, hρ⟩ := hidx i a hi ha
  constructor
  · intro hready u hua
    obtain ⟨hne, i', j', hij, hu, ha'⟩ := (h.edge u a).mp hua
    obtain ⟨hmemu, hρu⟩ := hidx i' u hij.isNode hu
    rw [hρu]
    refine hready i' j' hij ((hidx j' a (hclosed i' j' hij) ha').2.symm.trans hρ) fun he => hne ?_
    exact (List.idxOf_inj hmemu).mp (hρu.trans (he.trans hρ.symm))
  · intro hall i' j' hij hj' hne
    obtain ⟨u, -, hu, hρu⟩ := hscc i' hij.isNode
    obtain ⟨b, hmemb, hb, hρb⟩ := hscc j' (hclosed i' j' hij)
    obtain rfl : b = a := (List.idxOf_inj hmemb).mp (hρb.trans (hj'.trans hρ.symm))
    rw [← hρu]
    refine hall u ((h.edge u b).mpr ⟨fun he => hne ?_, i', j', hij, hu, hb⟩)
    rw [← hρu, ← hρ, he]

theorem exists_ranked (h : PDGSCCGraphPass.Condensed PDG st₀ st) (hclosed : PDG.Closed) :
    ∃ ts ρ, GraphUtils.topsort st.PSG = .ok ts ∧ Ranked PDG st ts ρ := by
  obtain ⟨ts, hts, hkahn, hfifo, hall, hlen⟩ := topsort_psg h hclosed
  have hscc : ∀ i, PDG.IsNode i → ∃ a ∈ ts, st.getSCC i = .ok a ∧
      ts.idxOf a = (rank st ts i).toOption.getD 0 := by
    intro i hi
    obtain ⟨a, -, ha, -⟩ := h.component i hi
    refine ⟨a, hall a ((h.isNode a).mpr ⟨i, hi, ha⟩), ha, ?_⟩
    rw [rank_ok.mpr ⟨a, ha, rfl⟩]
    rfl
  refine ⟨ts, _, hts, fun i hi => ?_, ranking_of_kahnOrder h hclosed hkahn hlen hscc, ?_⟩
  · obtain ⟨a, -, ha, hρ⟩ := hscc i hi
    exact rank_ok.mpr ⟨a, ha, hρ⟩
  · intro i j a b hi hj ha hb hready hab
    obtain ⟨a', hmema, ha', hρa⟩ := hscc i hi
    obtain ⟨b', hmemb, hb', hρb⟩ := hscc j hj
    obtain rfl : a = a' := Except.ok.inj (ha.symm.trans ha')
    obtain rfl : b = b' := Except.ok.inj (hb.symm.trans hb')
    rw [← hρa, ← hρb]
    refine hfifo a hmema b hmemb (fun k => ?_) hab
    rw [← ready_iff h hclosed hscc hi ha, ← ready_iff h hclosed hscc hj hb]
    exact hready k

end Condensed

/-- **Ranks.** On a well-formed function every instruction has a rank below the number of
components, which tells its component apart from the others, and a dependence never leads to a
smaller rank. -/
theorem rank_correct [LinearOrder BB] {F : Function Inst BB Loop} (hF : F.WellFormed) (heap : Heap)
    {psg₀ : PDGSCCGraphPass Inst} (hpsg : psg₀.Released) :
    ∃ PDG psg ts, buildPDG F = .ok PDG ∧ psg₀.runOnFunction heap PDG = .ok psg ∧
      GraphUtils.topsort psg.PSG = .ok ts ∧
      (∀ a ∈ F.allInsts, ∃ r, rank psg ts a = .ok r ∧ r < psg.PSG.nodes.size) ∧
      (∀ a ∈ F.allInsts, ∀ b ∈ F.allInsts,
        (rank psg ts a = rank psg ts b ↔
          ReflTransGen PDG.Edge a b ∧ ReflTransGen PDG.Edge b a)) ∧
      ∀ a b, PDG.Edge a b → ∃ r s, rank psg ts a = .ok r ∧ rank psg ts b = .ok s ∧ r ≤ s := by
  obtain ⟨PDG, hPDG, hnode, -, hclosed⟩ := buildPDG_spec hF
  obtain ⟨psg, hrun, h⟩ := PDGSCCGraphPass.runOnFunction_spec heap hclosed hpsg
  obtain ⟨ts, ρ, hts, hρ⟩ := exists_ranked h hclosed
  refine ⟨PDG, psg, ts, hPDG, hrun, hts, fun i hi => ?_, fun i hi j hj => ?_, fun i j hij => ?_⟩
  · exact ⟨ρ i, hρ.rank i ((hnode i).mpr hi), hρ.ranking.lt i ((hnode i).mpr hi)⟩
  · rw [hρ.rank i ((hnode i).mpr hi), hρ.rank j ((hnode j).mpr hj), Except.ok.injEq]
    exact hρ.ranking.same i j ((hnode i).mpr hi) ((hnode j).mpr hj)
  · exact ⟨ρ i, ρ j, hρ.rank i hij.isNode, hρ.rank j (hclosed i j hij), hρ.ranking.mono i j hij⟩

theorem rank_correct_storeLoop :
    storeLoop.WellFormed ∧
    ∃ PDG psg ts, buildPDG storeLoop = .ok PDG ∧
      PDGSCCGraphPass.fresh.runOnFunction .bump PDG = .ok psg ∧
      GraphUtils.topsort psg.PSG = .ok ts ∧
      (∀ a ∈ storeLoop.allInsts, ∃ r, rank psg ts a = .ok r ∧ r < psg.PSG.nodes.size) ∧
      (∀ a ∈ storeLoop.allInsts, ∀ b ∈ storeLoop.allInsts,
        (rank psg ts a = rank psg ts b ↔
          ReflTransGen PDG.Edge a b ∧ ReflTransGen PDG.Edge b a)) ∧
      ∀ a b, PDG.Edge a b → ∃ r s, rank psg ts a = .ok r ∧ rank psg ts b = .ok s ∧ r ≤ s :=
  have hF : storeLoop.WellFormed := by decide +kernel
  ⟨hF, rank_correct hF .bump PDGSCCGraphPass.released_fresh⟩

end Ranks

end SourceToPSGPrinter

end IcsaDswp
