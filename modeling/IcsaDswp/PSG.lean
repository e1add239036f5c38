import IcsaDswp.FindSCC

/-!
# The graph of strong components

`pass/include/PSG.h` and `pass/src/PSG.cpp`. The members of the pass are state: `SCCs` owns the sets
of instructions, `InstToSCC` and the nodes of `PSG` are their addresses. A new entry of `SCCs` is
put wherever the heap likes. Run on a closed graph, the pass stores its condensation
(`runOnFunction_spec`).
-/

namespace IcsaDswp

open Std (ExtTreeMap ExtTreeSet)
open Lib Relation

abbrev Addr := Nat

/-- Where the heap puts the `n`-th set while those at `live` exist. -/
structure Heap where
  pick : Nat → List Addr → Addr
  fresh : ∀ n live, pick n live ∉ live

/-- The heap that puts a set past all others. -/
def Heap.bump : Heap where
  pick _ live := live.foldr max 0 + 1
  fresh _ live h := by
    have hle : ∀ (live : List Addr), ∀ a ∈ live, a ≤ live.foldr max 0 := by
      intro live
      induction live with
      | nil => simp
      | cons b live ih =>
        intro a ha
        rcases List.mem_cons.mp ha with rfl | ha
        · exact le_max_left _ _
        · exact (ih a ha).trans (le_max_right _ _)
    exact Nat.not_succ_le_self _ (hle live _ h)

/-- The members of the pass, and how many sets it has allocated. -/
structure PDGSCCGraphPass (Inst : Type) [LinearOrder Inst] where
  SCCs : OrdMap (WithBot Inst) (Addr × OrdSet Inst)
  PSG : DependenceGraph Addr
  InstToSCC : OrdMap Inst Addr
  allocated : Nat

namespace PDGSCCGraphPass

variable {Inst : Type} [LinearOrder Inst]

/-! ## The code -/

/-- As the constructor leaves the pass. -/
def fresh : PDGSCCGraphPass Inst := ⟨∅, .empty, ∅, 0⟩

/-- `InstToSCC` is left as it is. -/
def releaseMemory (st : PDGSCCGraphPass Inst) : PDGSCCGraphPass Inst :=
  { st with PSG := st.PSG.clear, SCCs := ∅ }

def getSCC (st : PDGSCCGraphPass Inst) (inst : Inst) : Except Fault Addr :=
  OrdMap.at st.InstToSCC inst

/-- The addresses of the sets in `SCCs`. -/
def live (st : PDGSCCGraphPass Inst) : List Addr := st.SCCs.toList.map fun entry => entry.2.1

/-- `&SCCs[root]`, which makes an empty set for a new root. -/
def slot (heap : Heap) (root : WithBot Inst) (st : PDGSCCGraphPass Inst) :
    Addr × PDGSCCGraphPass Inst :=
  match st.SCCs[root]? with
  | some scc => (scc.1, st)
  | none =>
    let a := heap.pick st.allocated st.live
    (a, { st with SCCs := st.SCCs.insert root (a, ∅), allocated := st.allocated + 1 })

/-- `SCCs[pair.second]; SCCs[pair.second].insert(pair.first);` -/
def insertMember (heap : Heap) (st : PDGSCCGraphPass Inst) (pair : Inst × WithBot Inst) :
    PDGSCCGraphPass Inst :=
  let (_, st) := slot heap pair.2 st
  let (_, st) := slot heap pair.2 st
  { st with SCCs := st.SCCs.alter pair.2 (Option.map fun scc => (scc.1, scc.2.insert pair.1)) }

/-- Note the component of an instruction and make it a node. -/
def register (st : PDGSCCGraphPass Inst) (pair : Inst × WithBot Inst) :
    Except Fault (PDGSCCGraphPass Inst) := do
  let SCC ← OrdMap.at st.SCCs pair.2
  pure { st with InstToSCC := st.InstToSCC.insert pair.1 SCC.1, PSG := st.PSG.addNode SCC.1 }

/-- Carry an edge over to the components, unless it stays inside one. -/
def addDependence (heap : Heap) (component : OrdMap Inst (WithBot Inst)) (I : Inst)
    (st : PDGSCCGraphPass Inst) (J : Inst) : Except Fault (PDGSCCGraphPass Inst) := do
  let root1 ← OrdMap.at component I
  let (SCC1, st) := slot heap root1 st
  let root2 ← OrdMap.at component J
  let (SCC2, st) := slot heap root2 st
  pure (if SCC1 ≠ SCC2 then { st with PSG := st.PSG.addEdge SCC1 SCC2 } else st)

def addDependences (heap : Heap) (component : OrdMap Inst (WithBot Inst))
    (PDG : DependenceGraph Inst) (st : PDGSCCGraphPass Inst) (I : Inst) :
    Except Fault (PDGSCCGraphPass Inst) := do
  let children ← PDG.getDependants I
  children.toList.foldlM (addDependence heap component I) st

def runOnFunction (heap : Heap) (PDG : DependenceGraph Inst) (st : PDGSCCGraphPass Inst) :
    Except Fault (PDGSCCGraphPass Inst) := do
  let component ← GraphUtils.findSCC PDG
  let st := component.toList.foldl (insertMember heap) st
  let st ← component.toList.foldlM register st
  PDG.nodes.keys.foldlM (addDependences heap component PDG) st

/-! ## Reading through an address -/

/-- The set at an address, null when there is none any more. -/
def deref (st : PDGSCCGraphPass Inst) (a : Addr) : Option (OrdSet Inst) :=
  (st.SCCs.toList.find? fun entry => entry.2.1 = a).map fun entry => entry.2.2

/-- Different sets are at different addresses. -/
def Separate (st : PDGSCCGraphPass Inst) : Prop :=
  ∀ (r r' : WithBot Inst) (a : Addr) (s s' : OrdSet Inst),
    st.SCCs[r]? = some (a, s) → st.SCCs[r']? = some (a, s') → r = r'

theorem deref_iff {st : PDGSCCGraphPass Inst} (h : st.Separate) {a : Addr} {s : OrdSet Inst} :
    st.deref a = some s ↔ ∃ r : WithBot Inst, st.SCCs[r]? = some (a, s) := by
  unfold deref
  constructor
  · intro hd
    obtain ⟨⟨r, a', s'⟩, hfind, rfl⟩ := Option.map_eq_some_iff.mp hd
    obtain rfl : a' = a := by simpa using List.find?_some hfind
    exact ⟨r, ExtTreeMap.mem_toList_iff_getElem?_eq_some.mp (List.mem_of_find?_eq_some hfind)⟩
  · rintro ⟨r, hr⟩
    have hsome : (st.SCCs.toList.find? fun entry => entry.2.1 = a).isSome := by
      rw [List.find?_isSome]
      exact ⟨_, ExtTreeMap.mem_toList_iff_getElem?_eq_some.mpr hr, by simp⟩
    obtain ⟨⟨r', a', s'⟩, hfind⟩ := Option.isSome_iff_exists.mp hsome
    obtain rfl : a' = a := by simpa using List.find?_some hfind
    have hr' := ExtTreeMap.mem_toList_iff_getElem?_eq_some.mp (List.mem_of_find?_eq_some hfind)
    obtain rfl : r = r' := h r r' a' s s' hr hr'
    rw [hfind, Option.map_some]
    exact congrArg some (Prod.mk.inj (Option.some.inj (hr'.symm.trans hr))).2

theorem mem_live {st : PDGSCCGraphPass Inst} {a : Addr} :
    a ∈ st.live ↔ ∃ (r : WithBot Inst) (s : OrdSet Inst), st.SCCs[r]? = some (a, s) := by
  simp only [live, List.mem_map, Prod.exists, ExtTreeMap.mem_toList_iff_getElem?_eq_some,
    exists_and_right, exists_eq_right]

theorem slot_of_mem {heap : Heap} {st : PDGSCCGraphPass Inst} {root : WithBot Inst}
    {scc : Addr × OrdSet Inst} (h : st.SCCs[root]? = some scc) :
    slot heap root st = (scc.1, st) := by
  unfold slot
  rw [h]

/-! ## The sets -/

/-- What the first loop keeps: `SCCs` holds the instructions dealt with by root, each set at an
address of its own. -/
structure StoreInv (st₀ : PDGSCCGraphPass Inst) (done : List (Inst × WithBot Inst))
    (st : PDGSCCGraphPass Inst) : Prop where
  frame : st.PSG = st₀.PSG ∧ st.InstToSCC = st₀.InstToSCC
  roots : ∀ r : WithBot Inst, (∃ scc, st.SCCs[r]? = some scc) ↔ ∃ i, (i, r) ∈ done
  members : ∀ (r : WithBot Inst) (a : Addr) (s : OrdSet Inst), st.SCCs[r]? = some (a, s) →
    ∀ j, j ∈ s ↔ (j, r) ∈ done
  separate : st.Separate

theorem insertMember_of_some (heap : Heap) {st : PDGSCCGraphPass Inst} {i : Inst}
    {root : WithBot Inst} {scc : Addr × OrdSet Inst} (hroot : st.SCCs[root]? = some scc) :
    insertMember heap st (i, root) =
      { st with SCCs := st.SCCs.alter root (Option.map fun scc => (scc.1, scc.2.insert i)) } := by
  unfold insertMember
  simp only [slot_of_mem hroot]

theorem insertMember_of_none (heap : Heap) {st : PDGSCCGraphPass Inst} {i : Inst}
    {root : WithBot Inst} (hroot : st.SCCs[root]? = none) :
    insertMember heap st (i, root) =
      { st with
        SCCs := (st.SCCs.insert root (heap.pick st.allocated st.live, ∅)).alter root
          (Option.map fun scc => (scc.1, scc.2.insert i))
        allocated := st.allocated + 1 } := by
  let st₁ : PDGSCCGraphPass Inst :=
    { st with
      SCCs := st.SCCs.insert root (heap.pick st.allocated st.live, ∅)
      allocated := st.allocated + 1 }
  have hslot : slot heap root st = (heap.pick st.allocated st.live, st₁) := by
    unfold slot
    rw [hroot]
  have hnew : st₁.SCCs[root]? = some (heap.pick st.allocated st.live, ∅) := by
    rw [OrdMap.get_insert, if_pos rfl]
  unfold insertMember
  simp only [hslot, slot_of_mem hnew]
  rfl

/-- `operator[]` followed by `insert` puts the instruction into the set of its root. -/
theorem insertMember_get (heap : Heap) {st : PDGSCCGraphPass Inst} (h : st.Separate) (i : Inst)
    (root : WithBot Inst) : ∃ a s,
      (∀ r : WithBot Inst, (insertMember heap st (i, root)).SCCs[r]? =
        if root = r then some (a, s) else st.SCCs[r]?) ∧
      (∀ j, j ∈ s ↔ j = i ∨ ∃ scc, st.SCCs[root]? = some scc ∧ j ∈ scc.2) ∧
      ∀ (r : WithBot Inst) (s' : OrdSet Inst), st.SCCs[r]? = some (a, s') → r = root := by
  cases hroot : st.SCCs[root]? with
  | some scc =>
    refine ⟨scc.1, scc.2.insert i, fun r => ?_, fun j => ?_, fun r s' hr => ?_⟩
    · simp only [insertMember_of_some heap hroot, OrdMap.get_alter, hroot, Option.map_some]
    · rw [OrdSet.mem_insert]
      simp
    · exact h r root scc.1 s' scc.2 hr hroot
  | none =>
    refine ⟨heap.pick st.allocated st.live, (∅ : OrdSet Inst).insert i, fun r => ?_, fun j => ?_,
      fun r s' hr => ?_⟩
    · simp only [insertMember_of_none heap hroot, OrdMap.get_alter, OrdMap.get_insert, if_true,
        Option.map_some]
      by_cases hr : root = r
      · rw [if_pos hr, if_pos hr]
      · rw [if_neg hr, if_neg hr, if_neg hr]
    · rw [OrdSet.mem_insert]
      simp
    · exact absurd (mem_live.mpr ⟨r, s', hr⟩) (heap.fresh _ _)

theorem insertMember_frame (heap : Heap) (st : PDGSCCGraphPass Inst)
    (pair : Inst × WithBot Inst) : (insertMember heap st pair).PSG = st.PSG ∧
      (insertMember heap st pair).InstToSCC = st.InstToSCC := by
  have hslot : ∀ st : PDGSCCGraphPass Inst, (slot heap pair.2 st).2.PSG = st.PSG ∧
      (slot heap pair.2 st).2.InstToSCC = st.InstToSCC := by
    intro st
    unfold slot
    split <;> exact ⟨rfl, rfl⟩
  obtain ⟨h₁, h₂⟩ := hslot st
  obtain ⟨h₃, h₄⟩ := hslot (slot heap pair.2 st).2
  exact ⟨h₃.trans h₁, h₄.trans h₂⟩

theorem storeInv_step {heap : Heap} {st₀ st : PDGSCCGraphPass Inst}
    {done : List (Inst × WithBot Inst)} (pair : Inst × WithBot Inst) (h : StoreInv st₀ done st) :
    StoreInv st₀ (done ++ [pair]) (insertMember heap st pair) := by
  obtain ⟨i, root⟩ := pair
  obtain ⟨a, s, hget, hmem, haddr⟩ := insertMember_get heap h.separate i root
  obtain ⟨hPSG, hInst⟩ := insertMember_frame heap st (i, root)
  refine ⟨⟨hPSG.trans h.frame.1, hInst.trans h.frame.2⟩, fun r => ?_, fun r a' s' hr j => ?_, ?_⟩
  · rw [hget]
    by_cases hr : root = r
    · subst hr
      simp
    · rw [if_neg hr, h.roots]
      simp [Ne.symm hr]
  · rw [hget] at hr
    by_cases hroot : root = r
    · subst hroot
      rw [if_pos rfl] at hr
      obtain ⟨rfl, rfl⟩ := Prod.mk.inj (Option.some.inj hr)
      rw [hmem]
      simp only [List.mem_append, List.mem_singleton, Prod.mk.injEq, and_true]
      constructor
      · rintro (rfl | ⟨⟨a₁, s₁⟩, hs₁, hj⟩)
        · exact .inr rfl
        · exact .inl ((h.members root a₁ s₁ hs₁ j).mp hj)
      · rintro (hj | rfl)
        · obtain ⟨⟨a₁, s₁⟩, hs₁⟩ := (h.roots root).mpr ⟨j, hj⟩
          exact .inr ⟨(a₁, s₁), hs₁, (h.members root a₁ s₁ hs₁ j).mpr hj⟩
        · exact .inl rfl
    · rw [if_neg hroot] at hr
      rw [h.members r a' s' hr]
      simp [Ne.symm hroot]
  · intro r r' a' s₁ s₂ hr hr'
    rw [hget] at hr hr'
    by_cases h₁ : root = r <;> by_cases h₂ : root = r'
    · exact h₁.symm.trans h₂
    · rw [if_pos h₁] at hr
      rw [if_neg h₂] at hr'
      obtain ⟨rfl, -⟩ := Prod.mk.inj (Option.some.inj hr)
      exact absurd (haddr r' s₂ hr').symm h₂
    · rw [if_neg h₁] at hr
      rw [if_pos h₂] at hr'
      obtain ⟨rfl, -⟩ := Prod.mk.inj (Option.some.inj hr')
      exact absurd (haddr r s₁ hr).symm h₁
    · rw [if_neg h₁] at hr
      rw [if_neg h₂] at hr'
      exact h.separate r r' a' s₁ s₂ hr hr'

/-- What the second loop keeps: the instructions dealt with know the address of their set, and these
addresses are nodes. -/
structure RegisterInv (st₁ : PDGSCCGraphPass Inst) (done : List (Inst × WithBot Inst))
    (st : PDGSCCGraphPass Inst) : Prop where
  sccs : st.SCCs = st₁.SCCs
  known : ∀ i r, (i, r) ∈ done → ∀ scc, st₁.SCCs[r]? = some scc → st.InstToSCC[i]? = some scc.1
  stale : ∀ i, (∀ r, (i, r) ∉ done) → st.InstToSCC[i]? = st₁.InstToSCC[i]?
  isNode : ∀ a, st.PSG.IsNode a ↔
    st₁.PSG.IsNode a ∨ ∃ i r s, (i, r) ∈ done ∧ st₁.SCCs[r]? = some (a, s)
  edge : ∀ a b, st.PSG.Edge a b ↔ st₁.PSG.Edge a b

theorem register_spec {st₁ : PDGSCCGraphPass Inst} {component : OrdMap Inst (WithBot Inst)}
    (hroots : ∀ i r, (i, r) ∈ component.toList → ∃ scc, st₁.SCCs[r]? = some scc) :
    ∃ st, component.toList.foldlM register st₁ = .ok st ∧ RegisterInv st₁ component.toList st := by
  refine foldlM_total (P := RegisterInv st₁) ?_
    ⟨rfl, by simp, fun _ _ => rfl, by simp, fun _ _ => Iff.rfl⟩
  rintro done ⟨i, root⟩ rest st hl h
  have hin : ∀ {j r}, (j, r) ∈ done → (j, r) ∈ component.toList := fun hj => by simp [hl, hj]
  have hi : (i, root) ∈ component.toList := by simp [hl]
  -- an instruction has one root only
  have hone : ∀ {j r r'}, (j, r) ∈ component.toList → (j, r') ∈ component.toList → r = r' := by
    intro j r r' hr hr'
    rw [ExtTreeMap.mem_toList_iff_getElem?_eq_some] at hr hr'
    exact Option.some.inj (hr.symm.trans hr')
  obtain ⟨scc, hscc⟩ := hroots i root hi
  have hat : OrdMap.at st.SCCs root = .ok scc := OrdMap.at_ok.mpr (h.sccs ▸ hscc)
  refine ⟨_, bind_ok.mpr ⟨scc, hat, rfl⟩, h.sccs, fun j r hj scc' hscc' => ?_, fun j hj => ?_,
    fun a => ?_, fun a b => ?_⟩
  · show (st.InstToSCC.insert i scc.1)[j]? = some scc'.1
    rw [OrdMap.get_insert]
    by_cases hij : i = j
    · subst hij
      have hr : (i, r) ∈ component.toList := by
        rcases List.mem_append.mp hj with hj | hj
        · exact hin hj
        · exact List.mem_singleton.mp hj ▸ hi
      obtain rfl := hone hi hr
      rw [if_pos rfl, Option.some.inj (hscc.symm.trans hscc')]
    · rw [if_neg hij]
      refine h.known j r ((List.mem_append.mp hj).resolve_right fun hj => hij ?_) scc' hscc'
      exact (Prod.mk.inj (List.mem_singleton.mp hj)).1.symm
  · show (st.InstToSCC.insert i scc.1)[j]? = st₁.InstToSCC[j]?
    have hij : i ≠ j := by
      rintro rfl
      exact hj root (by simp)
    rw [OrdMap.get_insert, if_neg hij]
    exact h.stale j fun r hr => hj r (List.mem_append_left _ hr)
  · show (st.PSG.addNode scc.1).IsNode a ↔ _
    rw [DependenceGraph.addNode_isNode, h.isNode, or_assoc]
    refine or_congr_right ⟨?_, ?_⟩
    · rintro (⟨j, r, s, hj, hs⟩ | rfl)
      · exact ⟨j, r, s, List.mem_append_left _ hj, hs⟩
      · exact ⟨i, root, scc.2, by simp, hscc⟩
    · rintro ⟨j, r, s, hj, hs⟩
      rcases List.mem_append.mp hj with hj | hj
      · exact .inl ⟨j, r, s, hj, hs⟩
      · obtain ⟨rfl, rfl⟩ := Prod.mk.inj (List.mem_singleton.mp hj)
        exact .inr (congrArg Prod.fst (Option.some.inj (hs.symm.trans hscc)))
  · show (st.PSG.addNode scc.1).Edge a b ↔ _
    rw [DependenceGraph.addNode_edge, h.edge]

/-! ## The edges -/

/-- `st'` is `st` with the edges of `R` in its graph. -/
structure Links (st st' : PDGSCCGraphPass Inst) (R : Addr → Addr → Prop) : Prop where
  sccs : st'.SCCs = st.SCCs
  known : st'.InstToSCC = st.InstToSCC
  adds : st.PSG.Adds st'.PSG R

/-- A loop whose iterations link up some components links them all up. -/
theorem foldlM_links {ι : Type} {st₂ : PDGSCCGraphPass Inst}
    {f : PDGSCCGraphPass Inst → ι → Except Fault (PDGSCCGraphPass Inst)}
    {R : ι → Addr → Addr → Prop} {l : List ι}
    (hf : ∀ i ∈ l, ∀ st, st.SCCs = st₂.SCCs → ∃ st', f st i = .ok st' ∧ Links st st' (R i))
    {st : PDGSCCGraphPass Inst} (hst : st.SCCs = st₂.SCCs) :
    ∃ st', l.foldlM f st = .ok st' ∧ Links st st' fun a b => ∃ i ∈ l, R i a b := by
  refine foldlM_total (P := fun (done : List ι) st' =>
    Links st st' fun a b => ∃ i ∈ done, R i a b) ?_
    ⟨rfl, rfl, st.PSG.adds_refl.congr (by simp)⟩
  intro done i rest st₃ hl h
  obtain ⟨st₄, hok, h'⟩ := hf i (by simp [hl]) st₃ (h.sccs.trans hst)
  refine ⟨st₄, hok, h'.sccs.trans h.sccs, h'.known.trans h.known, ?_⟩
  exact (h.adds.trans h'.adds).congr fun a b => by simp [or_and_right, exists_or]

/-- `a` is the address of the set of the component of `i`. -/
def RootAt (component : OrdMap Inst (WithBot Inst)) (st₂ : PDGSCCGraphPass Inst) (i : Inst)
    (a : Addr) : Prop := ∃ r s, component[i]? = some r ∧ st₂.SCCs[r]? = some (a, s)

theorem addDependence_links (heap : Heap) {component : OrdMap Inst (WithBot Inst)}
    {st₂ : PDGSCCGraphPass Inst} {I J : Inst} {a₁ a₂ : Addr} (h₁ : RootAt component st₂ I a₁)
    (h₂ : RootAt component st₂ J a₂) {st : PDGSCCGraphPass Inst} (hst : st.SCCs = st₂.SCCs) :
    ∃ st', addDependence heap component I st J = .ok st' ∧
      Links st st' fun a b => a ≠ b ∧ a = a₁ ∧ b = a₂ := by
  obtain ⟨r₁, s₁, hr₁, hs₁⟩ := h₁
  obtain ⟨r₂, s₂, hr₂, hs₂⟩ := h₂
  rw [← hst] at hs₁ hs₂
  refine ⟨if a₁ ≠ a₂ then { st with PSG := st.PSG.addEdge a₁ a₂ } else st, ?_, ?_⟩
  · refine bind_ok.mpr ⟨r₁, OrdMap.at_ok.mpr hr₁, ?_⟩
    rw [slot_of_mem hs₁]
    refine bind_ok.mpr ⟨r₂, OrdMap.at_ok.mpr hr₂, ?_⟩
    rw [slot_of_mem hs₂]
    rfl
  · by_cases hne : a₁ = a₂
    · rw [if_neg (not_not.mpr hne)]
      refine ⟨rfl, rfl, st.PSG.adds_refl.congr fun a b => ?_⟩
      grind
    · rw [if_pos hne]
      refine ⟨rfl, rfl, (st.PSG.adds_addEdge a₁ a₂).congr fun a b => ?_⟩
      grind

/-- The last loop carries every edge of a closed graph over to the components. -/
theorem addDependences_links (heap : Heap) {component : OrdMap Inst (WithBot Inst)}
    {PDG : DependenceGraph Inst} {st₂ : PDGSCCGraphPass Inst}
    (hroot : ∀ i, PDG.IsNode i → ∃ a, RootAt component st₂ i a)
    (hfun : ∀ i a b, RootAt component st₂ i a → RootAt component st₂ i b → a = b)
    (hclosed : PDG.Closed) :
    ∃ st', PDG.nodes.keys.foldlM (addDependences heap component PDG) st₂ = .ok st' ∧
      Links st₂ st' fun a b => a ≠ b ∧
        ∃ i j, PDG.Edge i j ∧ RootAt component st₂ i a ∧ RootAt component st₂ j b := by
  have hrow : ∀ i ∈ PDG.nodes.keys, ∀ st, st.SCCs = st₂.SCCs →
      ∃ st', addDependences heap component PDG st i = .ok st' ∧ Links st st' fun a b => a ≠ b ∧
        ∃ j, PDG.Edge i j ∧ RootAt component st₂ i a ∧ RootAt component st₂ j b := by
    intro i hi st hst
    obtain ⟨deps, hdeps⟩ := DependenceGraph.isNode_iff.mp (ExtTreeMap.mem_keys.mp hi)
    have hedge : ∀ j, j ∈ deps.toList ↔ PDG.Edge i j := fun j => by
      rw [← DependenceGraph.deps_eq hdeps, DependenceGraph.mem_deps]
    obtain ⟨a₁, ha₁⟩ := hroot i (ExtTreeMap.mem_keys.mp hi)
    obtain ⟨st', hok, h⟩ := foldlM_links (R := fun j a b => a ≠ b ∧ a = a₁ ∧
        RootAt component st₂ j b) (l := deps.toList) (f := addDependence heap component i)
      (fun j hj st hst => by
        obtain ⟨a₂, ha₂⟩ := hroot j (hclosed i j ((hedge j).mp hj))
        obtain ⟨st', hok, h⟩ := addDependence_links heap ha₁ ha₂ hst
        refine ⟨st', hok, h.sccs, h.known, h.adds.congr fun a b => ?_⟩
        exact and_congr_right fun _ => and_congr_right fun _ =>
          ⟨fun hb => hb ▸ ha₂, fun hb => hfun j b a₂ hb ha₂⟩) hst
    refine ⟨st', bind_ok.mpr ⟨deps, DependenceGraph.getDependants_ok.mpr hdeps, hok⟩, h.sccs,
      h.known, h.adds.congr fun a b => ?_⟩
    constructor
    · rintro ⟨j, hj, hne, rfl, hb⟩
      exact ⟨hne, j, (hedge j).mp hj, ha₁, hb⟩
    · rintro ⟨hne, j, hij, ha, hb⟩
      exact ⟨j, (hedge j).mpr hij, hne, hfun i a a₁ ha ha₁, hb⟩
  obtain ⟨st', hok, h⟩ := foldlM_links hrow rfl
  refine ⟨st', hok, h.sccs, h.known, h.adds.congr fun a b => ?_⟩
  constructor
  · rintro ⟨i, -, hne, j, hij, h⟩
    exact ⟨hne, i, j, hij, h⟩
  · rintro ⟨hne, i, j, hij, h⟩
    exact ⟨i, ExtTreeMap.mem_keys.mpr hij.isNode, hne, j, hij, h⟩

/-! ## The three loops -/

/-- What the loops leave behind, in terms of the components they were given. -/
structure Stored (PDG : DependenceGraph Inst) (component : OrdMap Inst (WithBot Inst))
    (st₀ st : PDGSCCGraphPass Inst) : Prop where
  row : ∀ i, PDG.IsNode i → ∃ r a s, component[i]? = some r ∧ st.SCCs[r]? = some (a, s) ∧
    st.InstToSCC[i]? = some a
  members : ∀ (r : WithBot Inst) (a : Addr) (s : OrdSet Inst), st.SCCs[r]? = some (a, s) →
    (∃ i : Inst, component[i]? = some r) ∧ ∀ j, j ∈ s ↔ component[j]? = some r
  separate : st.Separate
  isNode : ∀ a, st.PSG.IsNode a ↔ ∃ i, PDG.IsNode i ∧ RootAt component st i a
  edge : ∀ a b, st.PSG.Edge a b ↔
    a ≠ b ∧ ∃ i j, PDG.Edge i j ∧ RootAt component st i a ∧ RootAt component st j b
  stale : ∀ i, ¬ PDG.IsNode i → st.InstToSCC[i]? = st₀.InstToSCC[i]?

theorem RootAt.unique {component : OrdMap Inst (WithBot Inst)} {st : PDGSCCGraphPass Inst}
    {i : Inst} {a b : Addr} (ha : RootAt component st i a) (hb : RootAt component st i b) :
    a = b := by
  obtain ⟨r, s, hr, hs⟩ := ha
  obtain ⟨r', s', hr', hs'⟩ := hb
  obtain rfl := Option.some.inj (hr.symm.trans hr')
  exact (Prod.mk.inj (Option.some.inj (hs.symm.trans hs'))).1

theorem rootAt_congr {component : OrdMap Inst (WithBot Inst)} {st st' : PDGSCCGraphPass Inst}
    (h : st.SCCs = st'.SCCs) {i : Inst} {a : Addr} :
    RootAt component st i a ↔ RootAt component st' i a := by
  unfold RootAt
  rw [h]

/-- Before a run, and after `releaseMemory`: nothing stored, whatever `InstToSCC` says. -/
def Released (st : PDGSCCGraphPass Inst) : Prop := st.SCCs = ∅ ∧ st.PSG = .empty

theorem runOnFunction_stored (heap : Heap) {PDG : DependenceGraph Inst} (hclosed : PDG.Closed)
    {st₀ : PDGSCCGraphPass Inst} (h₀ : st₀.Released) :
    ∃ component st, GraphUtils.findSCC PDG = .ok component ∧
      runOnFunction heap PDG st₀ = .ok st ∧
      st.SCCs = (component.toList.foldl (insertMember heap) st₀).SCCs ∧
      GraphUtils.IsComponentMap PDG component ∧ Stored PDG component st₀ st := by
  obtain ⟨component, hcomp, hmap⟩ := GraphUtils.findSCC_spec hclosed
  have hlist : ∀ {i r}, (i, r) ∈ component.toList ↔ component[i]? = some r :=
    ExtTreeMap.mem_toList_iff_getElem?_eq_some
  have hstore : StoreInv st₀ component.toList (component.toList.foldl (insertMember heap) st₀) := by
    refine foldl_inv (P := StoreInv st₀) (fun done pair st h => storeInv_step pair h)
      ⟨⟨rfl, rfl⟩, ?_, ?_, ?_⟩
    · simp [h₀.1]
    · simp [h₀.1]
    · intro r r' a s s' hr
      simp [h₀.1] at hr
  obtain ⟨st₂, hok₂, h₂⟩ := register_spec fun i r hi => (hstore.roots r).mpr ⟨i, hi⟩
  generalize hst₁ : component.toList.foldl (insertMember heap) st₀ = st₁ at hstore hok₂ h₂
  have hrow : ∀ i, PDG.IsNode i → ∃ r a s, component[i]? = some r ∧ st₂.SCCs[r]? = some (a, s) ∧
      st₂.InstToSCC[i]? = some a := by
    intro i hi
    obtain ⟨r, hr⟩ := hmap.exists_root hi
    obtain ⟨⟨a, s⟩, hs⟩ := (hstore.roots r).mpr ⟨i, hlist.mpr hr⟩
    exact ⟨r, a, s, hr, h₂.sccs ▸ hs, h₂.known i r (hlist.mpr hr) (a, s) hs⟩
  obtain ⟨st, hok, h⟩ := addDependences_links heap
    (fun i hi => by
      obtain ⟨r, a, s, hr, hs, -⟩ := hrow i hi
      exact ⟨a, r, s, hr, hs⟩) (fun i a b ha hb => ha.unique hb) hclosed
  have hsccs : st.SCCs = st₁.SCCs := h.sccs.trans h₂.sccs
  have hnode₂ : ∀ a, st₂.PSG.IsNode a ↔ ∃ i, PDG.IsNode i ∧ RootAt component st₂ i a := by
    intro a
    rw [h₂.isNode, hstore.frame.1, h₀.2]
    simp only [DependenceGraph.empty_isNode, false_or, RootAt, h₂.sccs, hlist]
    constructor
    · rintro ⟨i, r, s, hr, hs⟩
      exact ⟨i, hmap.isNode hr, r, s, hr, hs⟩
    · rintro ⟨i, -, r, s, hr, hs⟩
      exact ⟨i, r, s, hr, hs⟩
  refine ⟨component, st, hcomp,
    bind_ok.mpr ⟨component, hcomp, bind_ok.mpr ⟨st₂, hst₁ ▸ hok₂, hok⟩⟩, hst₁ ▸ hsccs, hmap,
    fun i hi => ?_, fun r a s hs => ?_, ?_, fun a => ?_, fun a b => ?_, fun i hi => ?_⟩
  · rw [h.sccs, h.known]
    exact hrow i hi
  · rw [hsccs] at hs
    obtain ⟨i, hi⟩ := (hstore.roots r).mp ⟨_, hs⟩
    exact ⟨⟨i, hlist.mp hi⟩, fun j => (hstore.members r a s hs j).trans hlist⟩
  · intro r r' a s s' hr hr'
    rw [hsccs] at hr hr'
    exact hstore.separate r r' a s s' hr hr'
  · simp only [rootAt_congr h.sccs]
    rw [h.adds.isNode, hnode₂, or_iff_left_iff_imp]
    rintro ⟨b, -, i, j, hij, ha, -⟩
    exact ⟨i, hij.isNode, ha⟩
  · simp only [rootAt_congr h.sccs]
    rw [h.adds.edge, h₂.edge, hstore.frame.1, h₀.2]
    simp
  · rw [h.known, h₂.stale i fun r hr => hi (hmap.isNode (hlist.mp hr)), hstore.frame.2]

/-! ## The condensation -/

/-- What the pass, run on `PDG` with `st₀` known before, leaves behind: the condensation of `PDG`.
What `InstToSCC` says of instructions off `PDG` is what it said before. -/
structure Condensed (PDG : DependenceGraph Inst) (st₀ st : PDGSCCGraphPass Inst) : Prop where
  isNode : ∀ a, st.PSG.IsNode a ↔ ∃ i, PDG.IsNode i ∧ st.getSCC i = .ok a
  live : ∀ a, (∃ s, st.deref a = some s) ↔ st.PSG.IsNode a
  component : ∀ i, PDG.IsNode i → ∃ a s, st.getSCC i = .ok a ∧ st.deref a = some s ∧
    ∀ j, j ∈ s ↔ Mutual PDG.Edge i j
  same : ∀ i j, PDG.IsNode i → PDG.IsNode j →
    (st.getSCC i = st.getSCC j ↔ Mutual PDG.Edge i j)
  edge : ∀ a b, st.PSG.Edge a b ↔
    a ≠ b ∧ ∃ i j, PDG.Edge i j ∧ st.getSCC i = .ok a ∧ st.getSCC j = .ok b
  stale : ∀ i, ¬ PDG.IsNode i → st.InstToSCC[i]? = st₀.InstToSCC[i]?

section Stored

variable {PDG : DependenceGraph Inst} {component : OrdMap Inst (WithBot Inst)}
  {st₀ st : PDGSCCGraphPass Inst}

theorem Stored.getSCC_iff (h : Stored PDG component st₀ st) {i : Inst} (hi : PDG.IsNode i)
    {a : Addr} : st.getSCC i = .ok a ↔ RootAt component st i a := by
  obtain ⟨r, b, s, hr, hs, hb⟩ := h.row i hi
  rw [getSCC, OrdMap.at_ok, hb, Option.some_inj]
  exact ⟨fun ha => ha ▸ ⟨r, s, hr, hs⟩, fun ha => RootAt.unique ⟨r, s, hr, hs⟩ ha⟩

theorem Stored.component_of (h : Stored PDG component st₀ st)
    (hmap : GraphUtils.IsComponentMap PDG component) (hclosed : PDG.Closed) {i : Inst}
    (hi : PDG.IsNode i) : ∃ a s, st.getSCC i = .ok a ∧ st.deref a = some s ∧
      ∀ j, j ∈ s ↔ Mutual PDG.Edge i j := by
  obtain ⟨r, a, s, hr, hs, -⟩ := h.row i hi
  refine ⟨a, s, (h.getSCC_iff hi).mpr ⟨r, s, hr, hs⟩, (deref_iff h.separate).mpr ⟨r, hs⟩,
    fun j => ?_⟩
  rw [(h.members r a s hs).2]
  constructor
  · intro hj
    exact (hmap.same i j hi (hmap.isNode hj)).mp (hr.trans hj.symm)
  · intro hm
    have hj : PDG.IsNode j := GraphUtils.isNode_of_reach hclosed hi hm.1
    exact ((hmap.same i j hi hj).mpr hm).symm.trans hr

theorem Stored.condensed (h : Stored PDG component st₀ st)
    (hmap : GraphUtils.IsComponentMap PDG component) (hclosed : PDG.Closed) :
    Condensed PDG st₀ st := by
  refine ⟨fun a => ?_, fun a => ?_, fun i hi => h.component_of hmap hclosed hi, fun i j hi hj => ?_,
    fun a b => ?_, h.stale⟩
  · rw [h.isNode]
    exact exists_congr fun i => and_congr_right fun hi => (h.getSCC_iff hi).symm
  · rw [h.isNode]
    simp only [deref_iff h.separate]
    constructor
    · rintro ⟨s, r, hs⟩
      obtain ⟨⟨i, hi⟩, -⟩ := h.members r a s hs
      exact ⟨i, hmap.isNode hi, r, s, hi, hs⟩
    · rintro ⟨i, -, r, s, -, hs⟩
      exact ⟨s, r, hs⟩
  · obtain ⟨a, s, ha, hs, hmem⟩ := h.component_of hmap hclosed hi
    obtain ⟨b, s', hb, hs', hmem'⟩ := h.component_of hmap hclosed hj
    rw [ha, hb, Except.ok.injEq]
    constructor
    · rintro rfl
      obtain rfl : s = s' := Option.some.inj (hs.symm.trans hs')
      exact (hmem j).mp ((hmem' j).mpr (.refl j))
    · intro hm
      obtain ⟨r, sr, hr, hsr⟩ := (h.getSCC_iff hi).mp ha
      have hrj : component[j]? = some r := ((hmap.same i j hi hj).mpr hm).symm.trans hr
      exact RootAt.unique ⟨r, sr, hrj, hsr⟩ ((h.getSCC_iff hj).mp hb)
  · rw [h.edge]
    refine and_congr_right fun _ => exists_congr fun i => exists_congr fun j =>
      and_congr_right fun hij => ?_
    rw [h.getSCC_iff hij.isNode, h.getSCC_iff (hclosed i j hij)]

end Stored

/-- **The condensation.** On a closed graph the pass completes. -/
theorem runOnFunction_spec (heap : Heap) {PDG : DependenceGraph Inst} (hclosed : PDG.Closed)
    {st₀ : PDGSCCGraphPass Inst} (h₀ : st₀.Released) :
    ∃ st, runOnFunction heap PDG st₀ = .ok st ∧ Condensed PDG st₀ st := by
  obtain ⟨component, st, -, hok, -, hmap, h⟩ := runOnFunction_stored heap hclosed h₀
  exact ⟨st, hok, h.condensed hmap hclosed⟩

/-- The set at the address `a` contains `i`. -/
def Contains (st : PDGSCCGraphPass Inst) (a : Addr) (i : Inst) : Prop :=
  ∃ s, st.deref a = some s ∧ i ∈ s

section Condensed

variable {PDG : DependenceGraph Inst} {st₀ st : PDGSCCGraphPass Inst}

theorem Condensed.contains_iff (h : Condensed PDG st₀ st) (hclosed : PDG.Closed) {a : Addr}
    {i : Inst} : st.Contains a i ↔ PDG.IsNode i ∧ st.getSCC i = .ok a := by
  constructor
  · rintro ⟨s, hs, his⟩
    obtain ⟨i', hi', ha⟩ := (h.isNode a).mp ((h.live a).mp ⟨s, hs⟩)
    obtain ⟨a', s', ha', hs', hmem⟩ := h.component i' hi'
    obtain rfl : a = a' := Except.ok.inj (ha.symm.trans ha')
    obtain rfl : s = s' := Option.some.inj (hs.symm.trans hs')
    have hm : Mutual PDG.Edge i' i := (hmem i).mp his
    have hi : PDG.IsNode i := GraphUtils.isNode_of_reach hclosed hi' hm.1
    exact ⟨hi, ((h.same i i' hi hi').mpr hm.symm).trans ha⟩
  · rintro ⟨hi, ha⟩
    obtain ⟨a', s, ha', hs, hmem⟩ := h.component i hi
    obtain rfl : a = a' := Except.ok.inj (ha.symm.trans ha')
    exact ⟨s, hs, (hmem i).mpr (.refl i)⟩

theorem Condensed.edge_iff (h : Condensed PDG st₀ st) (hclosed : PDG.Closed) {a b : Addr} :
    st.PSG.Edge a b ↔ a ≠ b ∧ ∃ i j, st.Contains a i ∧ st.Contains b j ∧ PDG.Edge i j := by
  rw [h.edge]
  simp only [h.contains_iff hclosed]
  constructor
  · rintro ⟨hne, i, j, hij, ha, hb⟩
    exact ⟨hne, i, j, ⟨hij.isNode, ha⟩, ⟨hclosed i j hij, hb⟩, hij⟩
  · rintro ⟨hne, i, j, ⟨-, ha⟩, ⟨-, hb⟩, hij⟩
    exact ⟨hne, i, j, hij, ha, hb⟩

theorem Condensed.condensation (h : Condensed PDG st₀ st) (hclosed : PDG.Closed) :
    Condensation PDG.Edge (fun i a => st.Contains a i) st.PSG.Edge where
  same i j a b hi hj := by
    obtain ⟨hi, ha⟩ := (h.contains_iff hclosed).mp hi
    obtain ⟨hj, hb⟩ := (h.contains_iff hclosed).mp hj
    rw [← h.same i j hi hj, ha, hb, Except.ok.injEq]
  total i j hij := by
    obtain ⟨a, -, ha, -⟩ := h.component i hij.isNode
    obtain ⟨b, -, hb, -⟩ := h.component j (hclosed i j hij)
    exact ⟨⟨a, (h.contains_iff hclosed).mpr ⟨hij.isNode, ha⟩⟩,
      ⟨b, (h.contains_iff hclosed).mpr ⟨hclosed i j hij, hb⟩⟩⟩
  edge a b := h.edge_iff hclosed

/-- Every pointer in the graph points to a node of the graph. -/
theorem Condensed.closed (h : Condensed PDG st₀ st) (hclosed : PDG.Closed) : st.PSG.Closed := by
  intro a b hab
  obtain ⟨-, i, j, hij, -, hb⟩ := (h.edge a b).mp hab
  exact (h.isNode b).mpr ⟨j, hclosed i j hij, hb⟩

theorem released_fresh : (fresh : PDGSCCGraphPass Inst).Released := ⟨rfl, rfl⟩

theorem released_releaseMemory (st : PDGSCCGraphPass Inst) : st.releaseMemory.Released := ⟨rfl, rfl⟩

@[simp] theorem getSCC_fresh (i : Inst) :
    (fresh : PDGSCCGraphPass Inst).getSCC i = .error .outOfRange := by
  simp [getSCC, OrdMap.at, fresh]

@[simp] theorem getSCC_releaseMemory (st : PDGSCCGraphPass Inst) (i : Inst) :
    st.releaseMemory.getSCC i = st.getSCC i := rfl

theorem Condensed.getSCC_stale (h : Condensed PDG st₀ st) {i : Inst} (hi : ¬ PDG.IsNode i) :
    st.getSCC i = st₀.getSCC i := by
  unfold getSCC OrdMap.at
  rw [h.stale i hi]

/-- **The PSG is the condensation of the PDG.** Its nodes are the strong components, each once, in
one of which every instruction lies and `getSCC` finds it; its edges are those between different
components, and make no cycle. -/
theorem psg_correct (heap : Heap) (hclosed : PDG.Closed) :
    ∃ st, runOnFunction heap PDG .fresh = .ok st ∧
      (∀ a, st.PSG.IsNode a → ∃ s, st.deref a = some s ∧ (∃ i, i ∈ s) ∧
        ∀ i ∈ s, PDG.IsNode i ∧ ∀ j, j ∈ s ↔ Mutual PDG.Edge i j) ∧
      (∀ i, PDG.IsNode i → ∃ a, st.getSCC i = .ok a ∧ st.PSG.IsNode a ∧ st.Contains a i ∧
        ∀ b, st.PSG.IsNode b → st.Contains b i → b = a) ∧
      (∀ a b, st.PSG.Edge a b ↔
        a ≠ b ∧ ∃ i j, st.Contains a i ∧ st.Contains b j ∧ PDG.Edge i j) ∧
      st.PSG.Closed ∧ ∀ a, ¬ TransGen st.PSG.Edge a a := by
  obtain ⟨st, hok, h⟩ := runOnFunction_spec heap hclosed released_fresh
  refine ⟨st, hok, fun a ha => ?_, fun i hi => ?_, fun a b => h.edge_iff hclosed,
    h.closed hclosed, (h.condensation hclosed).acyclic⟩
  · obtain ⟨i, hi, hia⟩ := (h.isNode a).mp ha
    obtain ⟨a', s, ha', hs, hmem⟩ := h.component i hi
    obtain rfl : a = a' := Except.ok.inj (hia.symm.trans ha')
    refine ⟨s, hs, ⟨i, (hmem i).mpr (.refl i)⟩, fun k hk => ?_⟩
    have hik : Mutual PDG.Edge i k := (hmem k).mp hk
    refine ⟨GraphUtils.isNode_of_reach hclosed hi hik.1, fun j => ?_⟩
    rw [hmem]
    exact ⟨hik.symm.trans, hik.trans⟩
  · obtain ⟨a, s, ha, hs, hmem⟩ := h.component i hi
    refine ⟨a, ha, (h.isNode a).mpr ⟨i, hi, ha⟩, ⟨s, hs, (hmem i).mpr (.refl i)⟩, fun b _ hb => ?_⟩
    obtain ⟨-, hb⟩ := (h.contains_iff hclosed).mp hb
    exact Except.ok.inj (hb.symm.trans ha)

end Condensed

theorem psg_correct_foo :
    GraphUtils.fooGraph.Closed ∧
    ∃ st, runOnFunction .bump GraphUtils.fooGraph .fresh = .ok st ∧
      (∀ a, st.PSG.IsNode a → ∃ s, st.deref a = some s ∧ (∃ i, i ∈ s) ∧
        ∀ i ∈ s, GraphUtils.fooGraph.IsNode i ∧
          ∀ j, j ∈ s ↔ Mutual GraphUtils.fooGraph.Edge i j) ∧
      (∀ i, GraphUtils.fooGraph.IsNode i → ∃ a, st.getSCC i = .ok a ∧ st.PSG.IsNode a ∧
        st.Contains a i ∧ ∀ b, st.PSG.IsNode b → st.Contains b i → b = a) ∧
      (∀ a b, st.PSG.Edge a b ↔
        a ≠ b ∧ ∃ i j, st.Contains a i ∧ st.Contains b j ∧ GraphUtils.fooGraph.Edge i j) ∧
      st.PSG.Closed ∧ ∀ a, ¬ TransGen st.PSG.Edge a a :=
  have hclosed : GraphUtils.fooGraph.Closed := by decide +kernel
  ⟨hclosed, psg_correct .bump hclosed⟩

end PDGSCCGraphPass

end IcsaDswp
