import IcsaDswp.PassManager
import IcsaDswp.SourceToPSGPrinter
import Mathlib

/-!
# Pointers as keys

`map` and `set` in `Dependence.h`, `GraphUtils.h` and `PSG.h` are ordered by pointers: by where the
instructions, the blocks and the sets of `psg` happen to be in memory. The ranks of
`SourceToPSGPrinter` depend on that (`report_depends`): its reports for two layouts have the same
lines, and ranks that differ by a permutation (`report_renumbered`).
-/

namespace IcsaDswp

open Std (ExtTreeMap ExtTreeSet)
open Lib Relation

namespace Layout

variable {Inst BB Fn Loop : Type} (l : Layout Inst BB Fn Loop)
  (program : Fn → Function Inst BB Loop) (calls : List (Call Fn))

/-- `psg` after a history in this layout. -/
def psg : Except Fault (@PDGSCCGraphPass Inst l.inst) :=
  letI := l.inst
  letI := l.block
  letI := l.fn
  letI := l.loop
  (run (Passes.step l.heap program) .fresh calls).map Passes.psg

/-- The rank of the component of an instruction. -/
def rank (inst : Inst) : Except Fault Nat :=
  letI := l.inst
  do
    let psg ← l.psg program calls
    let ts ← GraphUtils.topsort psg.PSG
    SourceToPSGPrinter.rank psg ts inst

/-- What `print-source-to-psg` writes when it is run on a function. -/
def report (dbg : DebugInfo Inst) (F : Fn) : Except Fault (Option OutputFile) :=
  letI := l.inst
  do
    let psg ← l.psg program calls
    SourceToPSGPrinter.runOnFunction dbg (program F) psg

end Layout

namespace SourceToPSGPrinter

variable {Inst BB Loop : Type}

/-! ## The report for given ranks -/

/-- `noteLine` for an instruction of rank `ρ inst`. -/
def noteRank (dbg : DebugInfo Inst) (ρ : Inst → Nat)
    (st : Option DIFile × OrdMap Nat (OrdSet Nat)) (inst : Inst) :
    Option DIFile × OrdMap Nat (OrdSet Nat) :=
  match dbg.getDebugLoc inst with
  | none => st
  | some Loc => (st.1.or Loc.file, st.2.insertAt Loc.line (ρ inst))

/-- The report on the function `name`, its instructions having the ranks `ρ`. -/
def reportOf (dbg : DebugInfo Inst) (F : Function Inst BB Loop) (name : String) (ρ : Inst → Nat) :
    Except Fault (Option OutputFile) :=
  if F.allInsts = [] then .error .nullDeref
  else
    let (File, lineToSCCs) := F.allInsts.foldl (noteRank dbg ρ) (none, ∅)
    .ok (File.map fun File => ⟨name ++ ".psg-report", render File lineToSCCs⟩)

theorem reportOf_congr (dbg : DebugInfo Inst) {F : Function Inst BB Loop} (name : String)
    {ρ₁ ρ₂ : Inst → Nat} (h : ∀ a ∈ F.allInsts, ρ₁ a = ρ₂ a) :
    reportOf dbg F name ρ₁ = reportOf dbg F name ρ₂ := by
  have hfold : F.allInsts.foldl (noteRank dbg ρ₁) (none, ∅) =
      F.allInsts.foldl (noteRank dbg ρ₂) (none, ∅) := by
    refine List.foldl_ext _ _ _ fun st a ha => ?_
    unfold noteRank
    rw [h a ha]
  unfold reportOf
  rw [hfold]

section Run

variable [LinearOrder Inst] {F : Function Inst BB Loop} {dbg : DebugInfo Inst} {name : String}
  {PDG : DependenceGraph Inst} {st₀ psg : PDGSCCGraphPass Inst} {ts : List Addr} {ρ : Inst → Nat}

theorem noteLine_eq (st : Option DIFile × OrdMap Nat (OrdSet Nat)) {inst : Inst}
    (h : rank psg ts inst = .ok (ρ inst)) :
    noteLine dbg psg ts st inst = .ok (noteRank dbg ρ st inst) := by
  unfold noteLine noteRank
  cases dbg.getDebugLoc inst with
  | none => rfl
  | some Loc =>
    simp only [h]
    cases st.1 <;> rfl

theorem foldlM_noteLine (dbg : DebugInfo Inst) {insts : List Inst} (h : ∀ a ∈ insts, rank psg ts a = .ok (ρ a))
    (st : Option DIFile × OrdMap Nat (OrdSet Nat)) :
    insts.foldlM (noteLine dbg psg ts) st = .ok (insts.foldl (noteRank dbg ρ) st) := by
  induction insts generalizing st with
  | nil => rfl
  | cons a insts ih =>
    rw [List.foldlM_cons, noteLine_eq st (h a (by simp))]
    exact ih (fun b hb => h b (List.mem_cons_of_mem a hb)) _

/-- The first instruction of the first component is in the function. -/
theorem funcName_eq (h : PDGSCCGraphPass.Condensed PDG st₀ psg) (hclosed : PDG.Closed)
    (hnode : ∀ v, PDG.IsNode v ↔ v ∈ F.allInsts)
    (hname : ∀ a ∈ F.allInsts, dbg.functionName a = name) :
    funcName dbg psg = if F.allInsts = [] then .error .nullDeref else .ok name := by
  unfold funcName
  cases hkeys : psg.PSG.nodes.keys with
  | nil =>
    have hempty : F.allInsts = [] := by
      by_contra hne
      obtain ⟨i, hi⟩ := List.exists_mem_of_ne_nil _ hne
      obtain ⟨a, -, ha, -⟩ := h.component i ((hnode i).mpr hi)
      have hmem : a ∈ psg.PSG.nodes.keys :=
        ExtTreeMap.mem_keys.mpr ((h.isNode a).mpr ⟨i, (hnode i).mpr hi, ha⟩)
      rw [hkeys] at hmem
      exact List.not_mem_nil hmem
    rw [if_pos hempty]
    rfl
  | cons a keys =>
    have ha : psg.PSG.IsNode a := ExtTreeMap.mem_keys.mp (by rw [hkeys]; simp)
    obtain ⟨i, hi, hia⟩ := (h.isNode a).mp ha
    obtain ⟨a', s, ha', hs, hmem⟩ := h.component i hi
    obtain rfl : a = a' := Except.ok.inj (hia.symm.trans ha')
    have hne : F.allInsts ≠ [] := List.ne_nil_of_mem ((hnode i).mp hi)
    obtain ⟨j, rest, hlist⟩ := List.exists_cons_of_ne_nil
      (List.ne_nil_of_mem (ExtTreeSet.mem_toList.mpr ((hmem i).mpr (.refl i))))
    have hj : j ∈ F.allInsts := by
      refine (hnode j).mp (GraphUtils.isNode_of_reach hclosed hi ((hmem j).mp ?_).1)
      rw [← ExtTreeSet.mem_toList, hlist]
      exact List.mem_cons_self
    rw [if_neg hne]
    simp only [List.head?_cons, hs, Option.bind_some, hlist, hname j hj]

/-- **The report** has the ranks of the instructions in it and nothing else that depends on the
order of pointers. -/
theorem runOnFunction_eq (h : PDGSCCGraphPass.Condensed PDG st₀ psg) (hclosed : PDG.Closed)
    (hnode : ∀ v, PDG.IsNode v ↔ v ∈ F.allInsts)
    (hname : ∀ a ∈ F.allInsts, dbg.functionName a = name)
    (hts : GraphUtils.topsort psg.PSG = .ok ts) (hρ : Ranked PDG psg ts ρ) :
    runOnFunction dbg F psg = reportOf dbg F name ρ := by
  have hfold := foldlM_noteLine dbg (fun a ha => hρ.rank a ((hnode a).mpr ha)) (none, ∅)
  unfold runOnFunction reportOf
  rw [funcName_eq h hclosed hnode hname, hts]
  by_cases hempty : F.allInsts = []
  · rw [if_pos hempty, if_pos hempty]
    rfl
  · rw [if_neg hempty, if_neg hempty]
    exact bind_ok.mpr ⟨name, rfl, bind_ok.mpr ⟨ts, rfl, bind_ok.mpr ⟨_, hfold, rfl⟩⟩⟩

end Run

end SourceToPSGPrinter

/-! ## Heaps that differ in the addresses only -/

/-- The heap that puts the `n`-th set at `s n`, unless one is there. -/
def Heap.ofSeq (s : Nat → Addr) : Heap where
  pick n live := if s n ∈ live then Heap.bump.pick n live else s n
  fresh n live := by
    split
    · exact Heap.bump.fresh n live
    · assumption

namespace PDGSCCGraphPass

variable {Inst : Type} [LinearOrder Inst] {s₁ s₂ : Nat → Addr} {st₁ st₂ : PDGSCCGraphPass Inst}

/-- The same sets are stored, the `k`-th at `s₁ k` and at `s₂ k`. -/
structure Alike (s₁ s₂ : Nat → Addr) (st₁ st₂ : PDGSCCGraphPass Inst) : Prop where
  allocated : st₁.allocated = st₂.allocated
  get : ∀ r : WithBot Inst, st₁.SCCs[r]? = none ∧ st₂.SCCs[r]? = none ∨
    ∃ k s, k < st₁.allocated ∧ st₁.SCCs[r]? = some (s₁ k, s) ∧ st₂.SCCs[r]? = some (s₂ k, s)

theorem Alike.symm (h : Alike s₁ s₂ st₁ st₂) : Alike s₂ s₁ st₂ st₁ where
  allocated := h.allocated.symm
  get r := by
    rcases h.get r with ⟨h₁, h₂⟩ | ⟨k, s, hk, h₁, h₂⟩
    · exact .inl ⟨h₂, h₁⟩
    · exact .inr ⟨k, s, h.allocated ▸ hk, h₂, h₁⟩

theorem Alike.pick (h : Alike s₁ s₂ st₁ st₂) (hs : ∀ k < st₁.allocated, s₁ k ≠ s₁ st₁.allocated) :
    (Heap.ofSeq s₁).pick st₁.allocated st₁.live = s₁ st₁.allocated := by
  refine if_neg fun hlive => ?_
  obtain ⟨r, s, hr⟩ := mem_live.mp hlive
  rcases h.get r with ⟨h₁, -⟩ | ⟨k, s', hk, h₁, -⟩
  · simp [h₁] at hr
  · exact hs k hk (Prod.mk.inj (Option.some.inj (h₁.symm.trans hr))).1

theorem Alike.insertMember (h : Alike s₁ s₂ st₁ st₂) (pair : Inst × WithBot Inst)
    (hs₁ : ∀ k < st₁.allocated, s₁ k ≠ s₁ st₁.allocated)
    (hs₂ : ∀ k < st₂.allocated, s₂ k ≠ s₂ st₂.allocated) :
    Alike s₁ s₂ (insertMember (.ofSeq s₁) st₁ pair) (insertMember (.ofSeq s₂) st₂ pair) ∧
      (PDGSCCGraphPass.insertMember (.ofSeq s₁) st₁ pair).allocated ≤ st₁.allocated + 1 := by
  obtain ⟨i, root⟩ := pair
  rcases h.get root with ⟨h₁, h₂⟩ | ⟨k, s, hk, h₁, h₂⟩
  · rw [insertMember_of_none _ h₁, insertMember_of_none _ h₂, h.pick hs₁, h.symm.pick hs₂]
    refine ⟨⟨congrArg (· + 1) h.allocated, fun r => ?_⟩, le_rfl⟩
    simp only [OrdMap.get_alter, OrdMap.get_insert, if_true, Option.map_some]
    by_cases hr : root = r
    · rw [if_pos hr, if_pos hr, ← h.allocated]
      exact .inr ⟨st₁.allocated, _, Nat.lt_succ_self _, rfl, rfl⟩
    · simp only [if_neg hr]
      refine (h.get r).imp_right ?_
      rintro ⟨k, s, hk, hr⟩
      exact ⟨k, s, Nat.lt_succ_of_lt hk, hr⟩
  · rw [insertMember_of_some _ h₁, insertMember_of_some _ h₂]
    refine ⟨⟨h.allocated, fun r => ?_⟩, Nat.le_succ _⟩
    simp only [OrdMap.get_alter, h₁, h₂, Option.map_some]
    by_cases hr : root = r
    · rw [if_pos hr, if_pos hr]
      exact .inr ⟨k, _, hk, rfl, rfl⟩
    · rw [if_neg hr, if_neg hr]
      exact h.get r

theorem Alike.foldl {l : List (Inst × WithBot Inst)} {m : Nat} (h : Alike s₁ s₂ st₁ st₂)
    (hm : st₁.allocated + l.length ≤ m) (hs₁ : Set.InjOn s₁ (Set.Iio m))
    (hs₂ : Set.InjOn s₂ (Set.Iio m)) :
    Alike s₁ s₂ (l.foldl (PDGSCCGraphPass.insertMember (.ofSeq s₁)) st₁)
      (l.foldl (PDGSCCGraphPass.insertMember (.ofSeq s₂)) st₂) ∧
      (l.foldl (PDGSCCGraphPass.insertMember (.ofSeq s₁)) st₁).allocated ≤ m := by
  induction l generalizing st₁ st₂ with
  | nil => exact ⟨h, hm⟩
  | cons pair l ih =>
    rw [List.length_cons] at hm
    have hlt : st₁.allocated < m := by omega
    have hne : ∀ {s : Nat → Addr}, Set.InjOn s (Set.Iio m) →
        ∀ k < st₁.allocated, s k ≠ s st₁.allocated := fun hs k hk he =>
      hk.ne (hs (hk.trans hlt) hlt he)
    obtain ⟨h', hle⟩ := h.insertMember pair (hne hs₁) (h.allocated ▸ hne hs₂)
    exact ih h' (by omega)

/-- **Two heaps** put the sets of the same components at `s₁ k` and at `s₂ k`. -/
theorem runOnFunction_alike {PDG : DependenceGraph Inst} (hclosed : PDG.Closed) :
    ∃ m, ∀ s₁ s₂ : Nat → Addr, Set.InjOn s₁ (Set.Iio m) → Set.InjOn s₂ (Set.Iio m) →
      ∃ st₁ st₂, runOnFunction (.ofSeq s₁) PDG .fresh = .ok st₁ ∧
        runOnFunction (.ofSeq s₂) PDG .fresh = .ok st₂ ∧
        Condensed PDG .fresh st₁ ∧ Condensed PDG .fresh st₂ ∧
        ∀ i, PDG.IsNode i → ∃ k < m, st₁.getSCC i = .ok (s₁ k) ∧ st₂.getSCC i = .ok (s₂ k) := by
  obtain ⟨component, hcomp, -⟩ := GraphUtils.findSCC_spec hclosed
  refine ⟨component.toList.length, fun s₁ s₂ hs₁ hs₂ => ?_⟩
  have hreleased : (fresh : PDGSCCGraphPass Inst).Released := released_fresh
  obtain ⟨component₁, st₁, hcomp₁, hrun₁, hsccs₁, hmap₁, h₁⟩ :=
    runOnFunction_stored (.ofSeq s₁) hclosed hreleased
  obtain ⟨component₂, st₂, hcomp₂, hrun₂, hsccs₂, hmap₂, h₂⟩ :=
    runOnFunction_stored (.ofSeq s₂) hclosed hreleased
  obtain rfl : component = component₁ := Except.ok.inj (hcomp.symm.trans hcomp₁)
  obtain rfl : component = component₂ := Except.ok.inj (hcomp.symm.trans hcomp₂)
  have hfresh : Alike s₁ s₂ (fresh : PDGSCCGraphPass Inst) fresh :=
    ⟨rfl, fun r => .inl ⟨by simp [fresh], by simp [fresh]⟩⟩
  obtain ⟨halike, hle⟩ := hfresh.foldl (Nat.zero_add _).le hs₁ hs₂
  refine ⟨st₁, st₂, hrun₁, hrun₂, h₁.condensed hmap₁ hclosed, h₂.condensed hmap₂ hclosed,
    fun i hi => ?_⟩
  obtain ⟨r, a, s, hr, ha, -⟩ := h₁.row i hi
  rw [hsccs₁] at ha
  rcases halike.get r with ⟨hnone, -⟩ | ⟨k, s', hk, hk₁, hk₂⟩
  · simp [hnone] at ha
  · exact ⟨k, hk.trans_le hle, (h₁.getSCC_iff hi).mpr ⟨r, s', hr, hsccs₁ ▸ hk₁⟩,
      (h₂.getSCC_iff hi).mpr ⟨r, s', hr, hsccs₂ ▸ hk₂⟩⟩

end PDGSCCGraphPass

namespace SourceToPSGPrinter

section Opposite

variable {Inst : Type} [LinearOrder Inst] {PDG : DependenceGraph Inst}
  {st₁ st₂ : PDGSCCGraphPass Inst} {ts₁ ts₂ : List Addr} {ρ₁ ρ₂ : Inst → Nat} {m : Nat}

/-- With the sets in the opposite order, two components that get ready together change places. -/
theorem Ranked.not_lt (h₁ : Ranked PDG st₁ ts₁ ρ₁) (h₂ : Ranked PDG st₂ ts₂ ρ₂)
    (hclosed : PDG.Closed) (heq : ∀ i, PDG.IsNode i → ρ₁ i = ρ₂ i) {i j : Inst}
    (hi : PDG.IsNode i) (hj : PDG.IsNode j)
    (hready : ∀ k, Ready PDG.Edge ρ₁ (ρ₁ i) k ↔ Ready PDG.Edge ρ₁ (ρ₁ j) k) {k k' : Nat}
    (hk' : k' < m) (hi₁ : st₁.getSCC i = .ok k) (hi₂ : st₂.getSCC i = .ok (m - k))
    (hj₁ : st₁.getSCC j = .ok k') (hj₂ : st₂.getSCC j = .ok (m - k')) : ¬ k < k' := by
  intro hlt
  have hready₂ : ∀ k, Ready PDG.Edge ρ₂ (ρ₂ j) k ↔ Ready PDG.Edge ρ₂ (ρ₂ i) k := fun k => by
    have hcongr := ready_congr (fun u v huv => ⟨huv.isNode, hclosed u v huv⟩) heq
    rw [← heq i hi, ← heq j hj, ← hcongr, ← hcongr]
    exact (hready k).symm
  have hij := h₁.fifo i j k k' hi hj hi₁ hj₁ hready hlt
  have hji := h₂.fifo j i (m - k') (m - k) hj hi hj₂ hi₂ hready₂
    (Nat.sub_lt_sub_left (hlt.trans hk') hlt)
  rw [← heq i hi, ← heq j hj] at hji
  exact hij.not_gt hji

theorem Ranked.comparable (h₁ : Ranked PDG st₁ ts₁ ρ₁) (h₂ : Ranked PDG st₂ ts₂ ρ₂)
    (hclosed : PDG.Closed) (heq : ∀ i, PDG.IsNode i → ρ₁ i = ρ₂ i)
    (haddr : ∀ i, PDG.IsNode i → ∃ k < m, st₁.getSCC i = .ok k ∧ st₂.getSCC i = .ok (m - k)) :
    Comparable PDG.Edge PDG.IsNode := by
  refine h₁.ranking.comparable_of_ready (fun r hr s hs hready => ?_)
    fun u v huv => ⟨huv.isNode, hclosed u v huv⟩
  obtain ⟨i, hi, rfl⟩ := h₁.ranking.onto r hr
  obtain ⟨j, hj, rfl⟩ := h₁.ranking.onto s hs
  obtain ⟨k, hk, hi₁, hi₂⟩ := haddr i hi
  obtain ⟨k', hk', hj₁, hj₂⟩ := haddr j hj
  rcases lt_trichotomy k k' with hlt | rfl | hlt
  · exact absurd hlt (h₁.not_lt h₂ hclosed heq hi hj hready hk' hi₁ hi₂ hj₁ hj₂)
  · have hrank : SourceToPSGPrinter.rank st₁ ts₁ i = SourceToPSGPrinter.rank st₁ ts₁ j := by
      unfold SourceToPSGPrinter.rank
      rw [hi₁, hj₁]
    rw [h₁.rank i hi, h₁.rank j hj] at hrank
    exact Except.ok.inj hrank
  · exact absurd hlt
      (h₁.not_lt h₂ hclosed heq hj hi (fun k => (hready k).symm) hk hj₁ hj₂ hi₁ hi₂)

end Opposite

end SourceToPSGPrinter

namespace Layout

variable {Inst BB Fn Loop : Type} {program : Fn → Function Inst BB Loop} {calls : List (Call Fn)}

open SourceToPSGPrinter (reportOf reportOf_congr)

/-- In every layout the instructions are ranked along their dependences, and the report has these
ranks. -/
theorem exists_ranking (l : Layout Inst BB Fn Loop) (hprog : ∀ F, (program F).WellFormed)
    (hcalls : Legal Enabled calls) {F : Fn} (hF : (available calls).psg = some F) :
    ∃ n ρ, Ranking (program F).Dep (· ∈ (program F).allInsts) n ρ ∧
      (∀ a ∈ (program F).allInsts, l.rank program calls a = .ok (ρ a)) ∧
      ∀ dbg name, (∀ a ∈ (program F).allInsts, dbg.functionName a = name) →
        l.report program calls dbg F = reportOf dbg (program F) name ρ := by
  let := l.inst
  let := l.block
  let := l.fn
  let := l.loop
  obtain ⟨st, hst, hinv⟩ := run_inv l.heap hprog hcalls
  obtain ⟨PDG, hPDG, hnode, hedge, hclosed⟩ := buildPDG_spec (hprog F)
  obtain ⟨psg₀, hcond⟩ := hinv.condensed F PDG hF hPDG
  obtain ⟨ts, ρ, hts, hρ⟩ := SourceToPSGPrinter.exists_ranked hcond hclosed
  have hpsg : l.psg program calls = .ok st.psg := map_ok.mpr ⟨st, hst, rfl⟩
  have hisNode : PDG.IsNode = (· ∈ (program F).allInsts) := by
    ext a
    exact hnode a
  refine ⟨_, ρ, hisNode ▸ hedge ▸ hρ.ranking, fun a ha => ?_, fun dbg name hname => ?_⟩
  · exact bind_ok.mpr ⟨st.psg, hpsg, bind_ok.mpr ⟨ts, hts, hρ.rank a ((hnode a).mpr ha)⟩⟩
  · rw [← SourceToPSGPrinter.runOnFunction_eq hcond hclosed hnode hname hts hρ, report, hpsg]
    rfl

/-- **Only a total order of the components** fixes the ranks. Otherwise two components get ready
together, and change places where the heap puts the sets the other way round. -/
theorem comparable_of_rank_eq (l : Layout Inst BB Fn Loop) {F : Fn}
    (hF : (program F).WellFormed)
    (heq : ∀ heap heap' : Heap, ∀ a ∈ (program F).allInsts,
      { l with heap := heap }.rank program [.runPSG F] a =
        { l with heap := heap' }.rank program [.runPSG F] a) :
    Comparable (program F).Dep (· ∈ (program F).allInsts) := by
  let := l.inst
  let := l.block
  let := l.fn
  let := l.loop
  obtain ⟨PDG, hPDG, hnode, hedge, hclosed⟩ := buildPDG_spec hF
  obtain ⟨m, hm⟩ := PDGSCCGraphPass.runOnFunction_alike hclosed
  obtain ⟨st₁, st₂, hrun₁, hrun₂, hcond₁, hcond₂, haddr⟩ := hm (fun k => k) (fun k => m - k)
    (fun _ _ _ _ he => he) (fun k hk k' hk' he => by
      have he : m - k = m - k' := he
      have hk : k < m := hk
      have hk' : k' < m := hk'
      omega)
  obtain ⟨ts₁, ρ₁, hts₁, hρ₁⟩ := SourceToPSGPrinter.exists_ranked hcond₁ hclosed
  obtain ⟨ts₂, ρ₂, hts₂, hρ₂⟩ := SourceToPSGPrinter.exists_ranked hcond₂ hclosed
  have hrank : ∀ {heap : Heap} {st : PDGSCCGraphPass Inst} {ts : List Addr} {a : Inst} {r : Nat},
      PDGSCCGraphPass.runOnFunction heap PDG .fresh = .ok st → GraphUtils.topsort st.PSG = .ok ts →
      SourceToPSGPrinter.rank st ts a = .ok r →
      { l with heap := heap }.rank program [.runPSG F] a = .ok r := by
    intro heap st ts a r hrun hts hr
    have hstep : (Passes.fresh : Passes Inst Fn Loop).step heap program (.runPSG F) =
        .ok { (Passes.fresh : Passes Inst Fn Loop) with psg := st } :=
      bind_ok.mpr ⟨PDG, hPDG, bind_ok.mpr ⟨st, hrun, rfl⟩⟩
    have hpsg : { l with heap := heap }.psg program [.runPSG F] = .ok st :=
      map_ok.mpr ⟨_, bind_ok.mpr ⟨_, rfl, hstep⟩, rfl⟩
    exact bind_ok.mpr ⟨st, hpsg, bind_ok.mpr ⟨ts, hts, hr⟩⟩
  have hsame : ∀ i, PDG.IsNode i → ρ₁ i = ρ₂ i := by
    intro i hi
    have h := heq (.ofSeq fun k => k) (.ofSeq fun k => m - k) i ((hnode i).mp hi)
    rw [hrank hrun₁ hts₁ (hρ₁.rank i hi), hrank hrun₂ hts₂ (hρ₂.rank i hi)] at h
    exact Except.ok.inj h
  have hcomp := hρ₁.comparable hρ₂ hclosed hsame haddr
  intro u v hu hv
  rw [← hedge]
  exact hcomp u v ((hnode u).mpr hu) ((hnode v).mpr hv)

end Layout

open SourceToPSGPrinter (reportOf reportOf_congr)

variable {Inst BB Fn Loop : Type}

/-- **Two reports** on a function have the same lines; their ranks are two ways to number its
components along the dependences, and differ by a permutation. Where any two components depend on
one another there is one way only, and nowhere else are the ranks the same for all heaps. -/
theorem report_renumbered {program : Fn → Function Inst BB Loop}
    (hprog : ∀ F, (program F).WellFormed) (l₁ l₂ : Layout Inst BB Fn Loop)
    {calls₁ calls₂ : List (Call Fn)} (h₁ : Legal Enabled calls₁) (h₂ : Legal Enabled calls₂) {F : Fn}
    (hF₁ : (available calls₁).psg = some F) (hF₂ : (available calls₂).psg = some F)
    {dbg : DebugInfo Inst} {name : String}
    (hname : ∀ a ∈ (program F).allInsts, dbg.functionName a = name) :
    (∃ n ρ₁ ρ₂, ∃ (hρ₁ : Ranking (program F).Dep (· ∈ (program F).allInsts) n ρ₁)
      (hρ₂ : Ranking (program F).Dep (· ∈ (program F).allInsts) n ρ₂),
      (∀ a ∈ (program F).allInsts, l₁.rank program calls₁ a = .ok (ρ₁ a) ∧
        l₂.rank program calls₂ a = .ok (ρ₂ a)) ∧
      l₁.report program calls₁ dbg F = reportOf dbg (program F) name ρ₁ ∧
      l₂.report program calls₂ dbg F = reportOf dbg (program F) name ρ₂ ∧
      ∃ π : Equiv.Perm (Fin n), ∀ a (ha : a ∈ (program F).allInsts),
        π ⟨ρ₁ a, hρ₁.lt a ha⟩ = ⟨ρ₂ a, hρ₂.lt a ha⟩) ∧
    (Comparable (program F).Dep (· ∈ (program F).allInsts) →
      l₁.report program calls₁ dbg F = l₂.report program calls₂ dbg F) ∧
    (Comparable (program F).Dep (· ∈ (program F).allInsts) ↔
      ∀ heap heap' : Heap, ∀ a ∈ (program F).allInsts,
        { l₁ with heap := heap }.rank program [.runPSG F] a =
          { l₁ with heap := heap' }.rank program [.runPSG F] a) := by
  obtain ⟨n, ρ₁, hρ₁, hrank₁, hreport₁⟩ := l₁.exists_ranking hprog h₁ hF₁
  obtain ⟨n₂, ρ₂, hρ₂, hrank₂, hreport₂⟩ := l₂.exists_ranking hprog h₂ hF₂
  obtain rfl := hρ₁.card_eq hρ₂
  refine ⟨⟨n, ρ₁, ρ₂, hρ₁, hρ₂, fun a ha => ⟨hrank₁ a ha, hrank₂ a ha⟩, hreport₁ dbg name hname,
    hreport₂ dbg name hname, hρ₁.exists_equiv hρ₂⟩, fun hcomp => ?_, fun hcomp heap heap' a ha => ?_,
    l₁.comparable_of_rank_eq (hprog F)⟩
  · rw [hreport₁ dbg name hname, hreport₂ dbg name hname]
    exact reportOf_congr dbg name fun a ha => hρ₁.eq_of_comparable hρ₂ hcomp ha
  · have hcalls : Legal Enabled [Call.runPSG F] := ⟨trivial, rfl, rfl⟩
    obtain ⟨_, ρ, hρ, hrank, -⟩ := { l₁ with heap := heap }.exists_ranking hprog hcalls rfl
    obtain ⟨_, ρ', hρ', hrank', -⟩ := { l₁ with heap := heap' }.exists_ranking hprog hcalls rfl
    rw [hrank a ha, hrank' a ha, hρ.eq_of_comparable hρ' hcomp ha]

/-- `*p = 0; return;`, neither of which depends on the other. -/
def storeReturn : Function (Fin 2) Unit Unit where
  blocks := [()]
  succs _ := []
  succs_mem := by decide
  insts _ := List.finRange 2
  users _ := []
  incoming _ := none
  mayReadOrWriteMemory i := i.val = 0
  getDependency _ := ⟨none, false⟩
  pdt := ⟨.node (some ()) []⟩
  loops := []
  loopBlocks _ := []

namespace storeReturn

/-- The two on a line each. -/
def debugInfo : DebugInfo (Fin 2) where
  functionName _ := "f"
  getDebugLoc i := some ⟨some ⟨"", "f.c"⟩, i.val + 1⟩

/-- The instructions at ascending addresses. -/
def up : Layout (Fin 2) Unit Unit Unit :=
  ⟨inferInstance, inferInstance, inferInstance, inferInstance, .bump⟩

/-- The instructions at descending addresses. -/
def down : Layout (Fin 2) Unit Unit Unit :=
  ⟨inferInstanceAs (LinearOrder (Fin 2)ᵒᵈ), inferInstance, inferInstance, inferInstance, .bump⟩

theorem wellFormed : storeReturn.WellFormed := by decide +kernel

theorem report_renumbered_up_down :
    (∃ n ρ₁ ρ₂, ∃ (hρ₁ : Ranking storeReturn.Dep (· ∈ storeReturn.allInsts) n ρ₁)
      (hρ₂ : Ranking storeReturn.Dep (· ∈ storeReturn.allInsts) n ρ₂),
      (∀ a ∈ storeReturn.allInsts, up.rank (fun _ => storeReturn) [.runPSG ()] a = .ok (ρ₁ a) ∧
        down.rank (fun _ => storeReturn) [.runPSG ()] a = .ok (ρ₂ a)) ∧
      up.report (fun _ => storeReturn) [.runPSG ()] debugInfo () =
        reportOf debugInfo storeReturn "f" ρ₁ ∧
      down.report (fun _ => storeReturn) [.runPSG ()] debugInfo () =
        reportOf debugInfo storeReturn "f" ρ₂ ∧
      ∃ π : Equiv.Perm (Fin n), ∀ a (ha : a ∈ storeReturn.allInsts),
        π ⟨ρ₁ a, hρ₁.lt a ha⟩ = ⟨ρ₂ a, hρ₂.lt a ha⟩) ∧
    (Comparable storeReturn.Dep (· ∈ storeReturn.allInsts) →
      up.report (fun _ => storeReturn) [.runPSG ()] debugInfo () =
        down.report (fun _ => storeReturn) [.runPSG ()] debugInfo ()) ∧
    (Comparable storeReturn.Dep (· ∈ storeReturn.allInsts) ↔
      ∀ heap heap' : Heap, ∀ a ∈ storeReturn.allInsts,
        { up with heap := heap }.rank (fun _ => storeReturn) [.runPSG ()] a =
          { up with heap := heap' }.rank (fun _ => storeReturn) [.runPSG ()] a) :=
  have hcalls : Legal Enabled [Call.runPSG ()] := ⟨trivial, rfl, rfl⟩
  report_renumbered (fun _ => wellFormed) up down hcalls hcalls rfl rfl fun _ _ => rfl

/-- **The report depends on the layout**: it says `0` and `1`, or `1` and `0`. -/
theorem report_depends :
    storeReturn.WellFormed ∧ (∀ a ∈ storeReturn.allInsts, debugInfo.functionName a = "f") ∧
    Legal Enabled [Call.runPSG ()] ∧
    up.report (fun _ => storeReturn) [.runPSG ()] debugInfo () =
      .ok (some ⟨"f.psg-report", ":1 0\n:2 1\n"⟩) ∧
    down.report (fun _ => storeReturn) [.runPSG ()] debugInfo () =
      .ok (some ⟨"f.psg-report", ":1 1\n:2 0\n"⟩) ∧
    up.report (fun _ => storeReturn) [.runPSG ()] debugInfo () ≠
      down.report (fun _ => storeReturn) [.runPSG ()] debugInfo () := by
  have hup : up.report (fun _ => storeReturn) [.runPSG ()] debugInfo () =
      .ok (some ⟨"f.psg-report", ":1 0\n:2 1\n"⟩) := by decide +kernel
  have hdown : down.report (fun _ => storeReturn) [.runPSG ()] debugInfo () =
      .ok (some ⟨"f.psg-report", ":1 1\n:2 0\n"⟩) := by decide +kernel
  refine ⟨wellFormed, fun _ _ => rfl, ⟨trivial, rfl, rfl⟩, hup, hdown, ?_⟩
  rw [hup, hdown]
  decide

end storeReturn

end IcsaDswp
