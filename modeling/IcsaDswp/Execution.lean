import IcsaDswp.Lib.Slice
import IcsaDswp.PhiControl

/-!
# The iterator runs by itself

What the split is for: the iter instructions of a loop can run ahead of the work, in a thread of
their own. `Semantics` gives the instructions a meaning; the passes know their operands only.
Two runs through a loop that agree on its iter instructions, whatever their work does, execute the
same iter instructions with the same results, as far as both get (`iter_runs_alone`). This needs
that the branches that choose the value of an iter phi node are iter (`PhiSettled`), which the PDG
does not ensure.
-/

namespace IcsaDswp

open Lib Relation

variable {Inst BB Loop Val : Type}

/-! ## Execution -/

/-- What instructions compute. A terminator's result is what it branches on. -/
structure Semantics (Inst BB Val : Type) where
  constant : Nat → Val
  argument : Nat → Val
  undefined : Val
  /-- The result of an instruction that is no phi node, from the last results of all. -/
  result : Inst → (Inst → Val) → Val
  target : BB → Val → BB

/-- Control passes from `pred` to `block`; `env` has the last result of each instruction. -/
structure ExecState (Inst BB Val : Type) where
  pred : BB
  block : BB
  env : Inst → Val

/-- The value that flows into a phi node from `pred`. -/
def Function.phiInput [DecidableEq BB] (F : Function Inst BB Loop) (i : Inst) (pred : BB) :
    Option (Value Inst) :=
  match F.incoming i with
  | none => none
  | some vals => (vals.find? fun v => v.2 = pred).map Prod.fst

namespace Semantics

def value (S : Semantics Inst BB Val) (env : Inst → Val) : Option (Value Inst) → Val
  | none => S.undefined
  | some (.constant k) => S.constant k
  | some (.argument n) => S.argument n
  | some (.instruction i) => env i

variable [DecidableEq Inst] [DecidableEq BB]

/-- The phi nodes of a block take their values all at once. -/
def enter (S : Semantics Inst BB Val) (F : Function Inst BB Loop) (s : ExecState Inst BB Val) :
    Inst → Val := fun i =>
  if i ∈ F.insts s.block ∧ (F.incoming i).isSome then S.value s.env (F.phiInput i s.pred)
  else s.env i

/-- The instructions of a block that are no phi nodes, one after the other. -/
def runInsts (S : Semantics Inst BB Val) (l : List Inst) (env : Inst → Val) : Inst → Val :=
  l.foldl (fun env i => Function.update env i (S.result i env)) env

/-- The results of all instructions at the end of the block. -/
def runBlock (S : Semantics Inst BB Val) (F : Function Inst BB Loop) (s : ExecState Inst BB Val) :
    Inst → Val :=
  S.runInsts ((F.insts s.block).filter fun i => (F.incoming i).isNone) (S.enter F s)

/-- On to the next block, unless the function ends or control leaves `blocks`. -/
def step (S : Semantics Inst BB Val) (F : Function Inst BB Loop) (blocks : List BB)
    (s : ExecState Inst BB Val) : Option (ExecState Inst BB Val) :=
  match (F.insts s.block).getLast? with
  | none => none
  | some t =>
    let env := S.runBlock F s
    let next := S.target s.block (env t)
    if s.block ∈ blocks ∧ F.toCfg.Edge s.block next ∧ next ∈ blocks
    then some ⟨s.block, next, env⟩ else none

/-- The run through `blocks` as far as it executes the instructions `keep`; `seen` are the results
that the others do not change. -/
def machine (S : Semantics Inst BB Val) (F : Function Inst BB Loop) (blocks : List BB)
    (keep rest : Inst → Bool) : Machine (ExecState Inst BB Val) BB ({i // rest i = false} → Val)
      (Inst × Val) where
  node s := s.block
  seen s := fun i => s.env i
  emit s := ((F.insts s.block).filter keep).map fun i => (i, S.runBlock F s i)
  step := S.step F blocks

end Semantics

/-- `i` uses the result of `j`, or what `j` has defined in memory. -/
def Function.Operand (F : Function Inst BB Loop) (j i : Inst) : Prop :=
  (j ∈ F.allInsts ∧ some i ∈ F.users j) ∨
    (F.mayReadOrWriteMemory i = true ∧ (F.getDependency i).inst = some j ∧
      (F.getDependency i).isDef = true)

/-- An instruction of one of the blocks. -/
def Function.InBlocks (F : Function Inst BB Loop) (blocks : List BB) (i : Inst) : Prop :=
  ∃ b ∈ blocks, i ∈ F.insts b

/-- What of `blocks` is kept is closed under dependences, and what decides the value of a phi node
that is kept is kept. -/
structure Function.Slice [DecidableEq BB] (F : Function Inst BB Loop) (blocks : List BB)
    (keep rest : Inst → Bool) : Prop where
  mem : ∀ b ∈ blocks, b ∈ F.blocks
  split : ∀ i, F.InBlocks blocks i → (keep i = true ↔ rest i = false)
  closed : ∀ a b, F.Dep a b → F.InBlocks blocks b → rest b = false → rest a = false
  exits : ∀ b ∈ blocks, F.toCfg.ReachesExit b
  phis : ∀ x ∈ blocks, ∀ i ∈ F.insts x, keep i = true → ∀ q ∈ blocks, ∀ q' ∈ blocks,
    F.toCfg.Edge q x → F.toCfg.Edge q' x → F.phiInput i q ≠ F.phiInput i q' →
      ∃ p, (p = q ∨ p = q') ∧ ((∃ k, F.phiInput i p = some (.constant k)) ∨
        ∀ t, F.back p = .ok t → keep t = true)

/-- Two meanings that agree on the instructions `keep` of `blocks`, whose results depend on their
operands only. -/
structure Semantics.SameOn (F : Function Inst BB Loop) (blocks : List BB) (keep : Inst → Bool)
    (S S' : Semantics Inst BB Val) : Prop where
  constant : S.constant = S'.constant
  argument : S.argument = S'.argument
  undefined : S.undefined = S'.undefined
  result : ∀ i, F.InBlocks blocks i → keep i = true → F.incoming i = none → ∀ env env',
    (∀ j, F.Operand j i → env j = env' j) → S.result i env = S'.result i env'
  target : ∀ b ∈ blocks, ∀ t, F.back b = .ok t → keep t = true → S.target b = S'.target b

theorem Function.Operand.dep {F : Function Inst BB Loop} {j i : Inst} (h : F.Operand j i)
    (hi : i ∈ F.allInsts) : F.Dep j i := by
  rcases h with ⟨hj, hu⟩ | ⟨hm, hd, hdef⟩
  · exact .data hj hu
  · exact .memory hi hm hd hdef

/-! ## What is kept does not depend on the rest -/

section Slice

variable [DecidableEq Inst] [DecidableEq BB] {F : Function Inst BB Loop} {blocks : List BB}
  {keep rest : Inst → Bool} {S S' : Semantics Inst BB Val} {s t : ExecState Inst BB Val}

/-- A block with an instruction that is kept. -/
def Function.Observes (F : Function Inst BB Loop) (blocks : List BB) (keep : Inst → Bool) (b : BB) :
    Prop := b ∈ blocks ∧ ∃ i ∈ F.insts b, keep i = true

/-- A block whose terminator is kept. -/
def Function.Decides (F : Function Inst BB Loop) (blocks : List BB) (keep : Inst → Bool) (b : BB) :
    Prop := b ∈ blocks ∧ ∃ t, F.back b = .ok t ∧ keep t = true

/-- Both are at the same block of `blocks` with the same results and phi inputs. -/
structure ExecState.Ready (F : Function Inst BB Loop) (blocks : List BB) (keep rest : Inst → Bool)
    (S S' : Semantics Inst BB Val) (s t : ExecState Inst BB Val) : Prop where
  block : s.block = t.block
  mem : s.block ∈ blocks
  env : ∀ i, rest i = false → s.env i = t.env i
  phi : ∀ i ∈ F.insts s.block, keep i = true → (F.incoming i).isSome →
    S.value s.env (F.phiInput i s.pred) = S'.value t.env (F.phiInput i t.pred)

omit [DecidableEq Inst] [DecidableEq BB] in
theorem Semantics.SameOn.value_eq (h : S.SameOn F blocks keep S') {env env' : Inst → Val}
    {v : Option (Value Inst)} (hv : ∀ i, v = some (.instruction i) → env i = env' i) :
    S.value env v = S'.value env' v := by
  match v with
  | none => exact h.undefined
  | some (.constant k) => exact congrFun h.constant k
  | some (.argument n) => exact congrFun h.argument n
  | some (.instruction i) => exact hv i rfl

omit [DecidableEq Inst] in
/-- The instruction that flows into a phi node that is kept is kept. -/
theorem Function.Slice.rest_phiInput (h : F.Slice blocks keep rest) (hssa : F.SSA) {i j : Inst}
    (hi : F.InBlocks blocks i) (hk : keep i = true) {q : BB}
    (hj : F.phiInput i q = some (.instruction j)) : rest j = false := by
  obtain ⟨b, hb, hib⟩ := hi
  have hmem : i ∈ F.allInsts := Function.mem_allInsts.mpr ⟨b, h.mem b hb, hib⟩
  unfold Function.phiInput at hj
  split at hj
  · cases hj
  · rename_i vals hvals
    obtain ⟨⟨v, q'⟩, hfind, rfl⟩ := Option.map_eq_some_iff.mp hj
    obtain ⟨huser, a, ha, hja, -⟩ :=
      hssa.phi i hmem vals hvals j q' (List.mem_of_find?_eq_some hfind)
    have hdep : F.Dep j i := .data (Function.mem_allInsts.mpr ⟨a, ha, hja⟩) huser
    exact h.closed j i hdep ⟨b, hb, hib⟩ ((h.split i ⟨b, hb, hib⟩).mp hk)

omit [DecidableEq Inst] in
/-- A block from which a constant flows into a phi node that is kept has its terminator kept. -/
theorem Function.Slice.decides_of_constant (h : F.Slice blocks keep rest) (hF : F.SelfContained)
    {i : Inst} (hi : F.InBlocks blocks i) (hk : keep i = true) {q : BB} (hq : q ∈ blocks) {k : Nat}
    (hc : F.phiInput i q = some (.constant k)) : F.Decides blocks keep q := by
  obtain ⟨b, hb, hib⟩ := hi
  have hmem : i ∈ F.allInsts := Function.mem_allInsts.mpr ⟨b, h.mem b hb, hib⟩
  obtain ⟨t, ht⟩ := hF.exists_back (h.mem q hq)
  unfold Function.phiInput at hc
  split at hc
  · cases hc
  · rename_i vals hvals
    obtain ⟨⟨v, q'⟩, hfind, rfl⟩ := Option.map_eq_some_iff.mp hc
    obtain rfl : q' = q := by simpa using List.find?_some hfind
    have hdep : F.Dep t i := .phi hmem hvals (List.mem_of_find?_eq_some hfind) ht
    have hrest := h.closed t i hdep ⟨b, hb, hib⟩ ((h.split i ⟨b, hb, hib⟩).mp hk)
    exact ⟨hq, t, ht, (h.split t ⟨q', hq, Function.back_mem ht⟩).mpr hrest⟩

/-- The results of a block agree where those before it do. -/
theorem Function.Slice.runInsts_eq (h : F.Slice blocks keep rest)
    (hsame : S.SameOn F blocks keep S') {l : List Inst} (hl : ∀ i ∈ l, F.InBlocks blocks i ∧ F.incoming i = none)
    {env env' : Inst → Val} (henv : ∀ i, rest i = false → env i = env' i) :
    ∀ i, rest i = false → S.runInsts l env i = S'.runInsts l env' i := by
  induction l generalizing env env' with
  | nil => exact henv
  | cons i l ih =>
    refine ih (fun j hj => hl j (List.mem_cons_of_mem _ hj)) fun j hj => ?_
    obtain ⟨hin, hphi⟩ := hl i (by simp)
    show Function.update env i (S.result i env) j = Function.update env' i (S'.result i env') j
    by_cases hji : j = i
    · subst hji
      obtain ⟨b, hb, hjb⟩ := hin
      have hmem : j ∈ F.allInsts := Function.mem_allInsts.mpr ⟨b, h.mem b hb, hjb⟩
      rw [Function.update_self, Function.update_self]
      refine hsame.result j ⟨b, hb, hjb⟩ ((h.split j ⟨b, hb, hjb⟩).mpr hj) hphi env env' ?_
      exact fun k hk => henv k (h.closed k j (hk.dep hmem) ⟨b, hb, hjb⟩ hj)
    · rw [Function.update_of_ne hji, Function.update_of_ne hji]
      exact henv j hj

theorem Function.Slice.runBlock_eq (h : F.Slice blocks keep rest)
    (hsame : S.SameOn F blocks keep S') (hst : s.Ready F blocks keep rest S S' t) :
    ∀ i, rest i = false → S.runBlock F s i = S'.runBlock F t i := by
  unfold Semantics.runBlock
  rw [← hst.block]
  refine h.runInsts_eq hsame (fun i hi => ?_) fun i hi => ?_
  · obtain ⟨hi, hphi⟩ := List.mem_filter.mp hi
    exact ⟨⟨s.block, hst.mem, hi⟩, by simpa using hphi⟩
  · unfold Semantics.enter
    rw [← hst.block]
    split
    · rename_i hphi
      have hk : keep i = true := (h.split i ⟨s.block, hst.mem, hphi.1⟩).mpr hi
      exact hst.phi i hphi.1 hk hphi.2
    · exact hst.env i hi

/-- A block without instructions that are kept changes no result that is. -/
theorem Function.Slice.runBlock_silent (h : F.Slice blocks keep rest) (hs : s.block ∈ blocks)
    (hno : ∀ i ∈ F.insts s.block, keep i = false) {i : Inst} (hi : rest i = false) :
    S.runBlock F s i = s.env i := by
  have hnot : i ∉ F.insts s.block := fun hin => by
    have hk := (h.split i ⟨s.block, hs, hin⟩).mpr hi
    simp [hno i hin] at hk
  have hframe : ∀ (l : List Inst) env, i ∉ l → S.runInsts l env i = env i := by
    intro l
    induction l with
    | nil => exact fun _ _ => rfl
    | cons j l ih =>
      intro env hl
      rw [List.mem_cons, not_or] at hl
      exact (ih _ hl.2).trans (Function.update_of_ne hl.1 _ _)
  unfold Semantics.runBlock
  rw [hframe _ _ fun hin => hnot (List.mem_filter.mp hin).1, Semantics.enter, if_neg]
  exact fun hphi => hnot hphi.1

theorem Semantics.step_some {s' : ExecState Inst BB Val} (hs : S.step F blocks s = some s') :
    ∃ t, F.back s.block = .ok t ∧ s.block ∈ blocks ∧ F.toCfg.Edge s.block s'.block ∧
      s'.block ∈ blocks ∧ s'.pred = s.block ∧ s'.env = S.runBlock F s ∧
      s'.block = S.target s.block (S.runBlock F s t) := by
  unfold Semantics.step at hs
  split at hs
  · cases hs
  · rename_i t ht
    simp only at hs
    split at hs
    · rename_i hnext
      obtain rfl := Option.some.inj hs
      exact ⟨t, Function.back_ok.mpr ht, hnext.1, hnext.2.1, hnext.2.2, rfl, rfl, rfl⟩
    · cases hs

omit [DecidableEq Inst] in
theorem Function.Slice.observed (h : F.Slice blocks keep rest) (hF : F.SelfContained) :
    Observed F.toCfg.Edge F.toCfg.Exit (· ∈ blocks) (F.Observes blocks keep)
      (F.Decides blocks keep) where
  decisive := fun v ⟨hv, t, ht, hk⟩ => ⟨hv, t, Function.back_mem ht, hk⟩
  controlled a x ha _ hobs hctrl := by
    obtain ⟨hx, i, hi, hk⟩ := hobs
    obtain ⟨t, ht⟩ := hF.exists_back (h.mem a ha)
    have hrest : rest t = false := h.closed t i (.control hctrl ht hi) ⟨x, hx, hi⟩
      ((h.split i ⟨x, hx, hi⟩).mp hk)
    exact ⟨ha, t, ht, (h.split t ⟨a, ha, Function.back_mem ht⟩).mpr hrest⟩
  exits x hx _ := h.exits x hx

/-- The machine stays in `blocks`, and blocks without instructions that are kept do not show. -/
theorem Function.Slice.moves (h : F.Slice blocks keep rest) (S : Semantics Inst BB Val) :
    (S.machine F blocks keep rest).Moves F.toCfg.Edge (· ∈ blocks) (F.Observes blocks keep) where
  edge s s' hs := by
    obtain ⟨-, -, hmem, hedge, hmem', -⟩ := Semantics.step_some hs
    exact ⟨hmem, hedge, hmem'⟩
  silent s hmem hno := by
    have hnone : ∀ i ∈ F.insts s.block, keep i = false := by
      intro i hi
      by_contra hk
      exact hno ⟨hmem, i, hi, by simpa using hk⟩
    constructor
    · show ((F.insts s.block).filter keep).map _ = []
      rw [List.filter_eq_nil_iff.mpr fun i hi => by simp [hnone i hi]]
      rfl
    · intro s' hs
      obtain ⟨-, -, -, -, -, -, henv, -⟩ := Semantics.step_some hs
      funext i
      exact (congrFun henv i).trans (h.runBlock_silent hmem hnone i.2)

/-- **Two meanings that agree on what is kept agree on runs.** -/
theorem Function.Slice.agree (h : F.Slice blocks keep rest) (hF : F.SelfContained) (hssa : F.SSA)
    (hsame : S.SameOn F blocks keep S') :
    Agree (F.Decides blocks keep) (ExecState.Ready F blocks keep rest S S')
      (S.machine F blocks keep rest) (S'.machine F blocks keep rest) where
  node s t hst := hst.block
  emit s t hst := by
    show ((F.insts s.block).filter keep).map _ = ((F.insts t.block).filter keep).map _
    rw [← hst.block]
    refine List.map_congr_left fun i hi => ?_
    obtain ⟨hi, hk⟩ := List.mem_filter.mp hi
    rw [h.runBlock_eq hsame hst i ((h.split i ⟨s.block, hst.mem, hi⟩).mp hk)]
  seen s t hst s' t' hs ht := by
    obtain ⟨-, -, -, -, -, -, henv, -⟩ := Semantics.step_some hs
    obtain ⟨-, -, -, -, -, -, henv', -⟩ := Semantics.step_some ht
    funext i
    exact (congrFun henv i).trans ((h.runBlock_eq hsame hst i i.2).trans (congrFun henv' i).symm)
  decide s t hst hdec s' t' hs ht := by
    obtain ⟨-, u, hu, hk⟩ := hdec
    obtain ⟨v, hv, -, -, -, -, -, hnext⟩ := Semantics.step_some hs
    obtain ⟨v', hv', -, -, -, -, -, hnext'⟩ := Semantics.step_some ht
    obtain rfl : u = v := Except.ok.inj (hu.symm.trans hv)
    have hut : F.back t.block = .ok u := hst.block ▸ (show F.back s.block = .ok u from hu)
    obtain rfl : u = v' := Except.ok.inj (hut.symm.trans hv')
    show s'.block = t'.block
    have hrest : rest u = false := (h.split u ⟨s.block, hst.mem, Function.back_mem hu⟩).mp hk
    rw [hnext, hnext', h.runBlock_eq hsame hst u hrest, ← hst.block,
      hsame.target s.block hst.mem u hu hk]
  ready s t s' t' hs ht hnode hseen hfrom := by
    obtain ⟨-, -, hmem, hedge, hmem', hpred, -⟩ := Semantics.step_some hs
    obtain ⟨-, -, hmemt, hedget, -, hpredt, -⟩ := Semantics.step_some ht
    have henv : ∀ i, rest i = false → s'.env i = t'.env i := fun i hi => congrFun hseen ⟨i, hi⟩
    have hblock : s'.block = t'.block := hnode
    refine ⟨hblock, hmem', henv, fun i hi hk _ => ?_⟩
    have hin : F.InBlocks blocks i := ⟨s'.block, hmem', hi⟩
    have hinput : F.phiInput i s'.pred = F.phiInput i t'.pred := by
      by_contra hne
      rcases hfrom with heq | ⟨hno, hno'⟩
      · exact hne (by rw [hpred, hpredt]; exact congrArg _ heq)
      rw [hpred, hpredt] at hne
      obtain ⟨p, hp, hwhy⟩ := h.phis s'.block hmem' i hi hk s.block hmem t.block hmemt hedge
        (hblock ▸ hedget) hne
      have hpmem : p ∈ blocks := by
        rcases hp with rfl | rfl
        · exact hmem
        · exact hmemt
      have hdec : F.Decides blocks keep p := by
        rcases hwhy with ⟨k, hconst⟩ | hterm
        · exact h.decides_of_constant hF hin hk hpmem hconst
        · obtain ⟨u, hu⟩ := hF.exists_back (h.mem p hpmem)
          exact ⟨hpmem, u, hu, hterm u hu⟩
      rcases hp with rfl | rfl
      · exact hno hdec
      · exact hno' hdec
    rw [← hinput]
    exact hsame.value_eq fun j hj => henv j (h.rest_phiInput hssa hin hk hj)

/-- **What is kept runs the same**, whatever the rest does. -/
theorem Function.Slice.comparable (h : F.Slice blocks keep rest) (hF : F.SelfContained)
    (hssa : F.SSA) (hsame : S.SameOn F blocks keep S') {pred b : BB} (hb : b ∈ blocks)
    {env env' : Inst → Val} (henv : ∀ i, rest i = false → env i = env' i) (n m : Nat) :
    (S.machine F blocks keep rest).trace n ⟨pred, b, env⟩ <+:
        (S'.machine F blocks keep rest).trace m ⟨pred, b, env'⟩ ∨
      (S'.machine F blocks keep rest).trace m ⟨pred, b, env'⟩ <+:
        (S.machine F blocks keep rest).trace n ⟨pred, b, env⟩ := by
  refine (h.agree hF hssa hsame).comparable (h.observed hF) (h.moves S) (h.moves S') ?_ n m
  refine ⟨rfl, hb, henv, fun i hi hk _ => ?_⟩
  exact hsame.value_eq fun j hj => henv j (h.rest_phiInput hssa ⟨b, hb, hi⟩ hk hj)

end Slice

/-! ## The iter instructions of a loop -/

section Iterator

variable {Fn : Type} [LinearOrder Inst] [LinearOrder BB] [LinearOrder Fn] [LinearOrder Loop]

/-- The iter instructions of `L` that a run through `n` blocks of the loop executes, with their
results. -/
def Analysis.iterTrace (r : Analysis Inst Fn Loop) (F : Function Inst BB Loop) (L : Loop)
    (S : Semantics Inst BB Val) (n : Nat) (s : ExecState Inst BB Val) : List (Inst × Val) :=
  (S.machine F (F.loopBlocks L) (fun i => r.isIter i L = .ok true)
    (fun i => r.isWork i L = .ok true)).trace n s

/-- Of two blocks of `L` from which different values flow into an iter phi node, one has an iter
terminator, or its value is a constant. -/
def Analysis.PhiSettled (r : Analysis Inst Fn Loop) (F : Function Inst BB Loop) (L : Loop) : Prop :=
  ∀ x ∈ F.loopBlocks L, ∀ i ∈ F.insts x, r.isIter i L = .ok true →
    ∀ q ∈ F.loopBlocks L, ∀ q' ∈ F.loopBlocks L, F.toCfg.Edge q x → F.toCfg.Edge q' x →
      F.phiInput i q ≠ F.phiInput i q' → ∃ p, (p = q ∨ p = q') ∧
        ((∃ k, F.phiInput i p = some (.constant k)) ∨
          ∀ t, F.back p = .ok t → r.isIter t L = .ok true)

variable {F : Function Inst BB Loop} {psg₀ : PDGSCCGraphPass Inst} {dl₀ : DecoupleLoopsPass Fn Loop}
  {r : Analysis Inst Fn Loop} {L : Loop}

/-- The iter instructions of a loop are a slice of it, if all its instructions are classified. -/
theorem Analysed.slice (h : Analysed F psg₀ r) (hF : F.WellFormed) (hL : L ∈ F.loops)
    (hall : ∀ i, F.InLoop L i → r.isIter i L = .ok true ∨ r.isWork i L = .ok true)
    (hexits : ∀ b ∈ F.loopBlocks L, F.toCfg.ReachesExit b) (hphis : r.PhiSettled F L) :
    F.Slice (F.loopBlocks L) (fun i => r.isIter i L = .ok true)
      (fun i => r.isWork i L = .ok true) where
  mem := hF.loop_mem L hL
  split i hi := by
    have hmem : i ∈ F.allInsts := hF.inLoop_mem hL hi
    rw [decide_eq_true_iff, decide_eq_false_iff_not]
    refine ⟨fun hiter hwork => ?_, (hall i hi).resolve_right⟩
    rw [(h.isIter hmem L).iff] at hiter
    rw [(h.isWork hmem L).iff] at hwork
    exact IterWork.not_iter_and_work ⟨hiter, hwork⟩
  closed a b hab hb hrest := by
    have hmem := Function.Dep.mem hF.toSelfContained hab
    have hiter : r.isIter b L = .ok true := (hall b hb).resolve_right (of_decide_eq_false hrest)
    rw [(h.isIter hmem.2 L).iff] at hiter
    rw [decide_eq_false_iff_not, (h.isWork hmem.1 L).iff]
    exact fun hwork => hwork.not_iter_of_edge (h.edge ▸ hab) hiter
  exits := hexits
  phis x hx i hi hk q hq q' hq' hqx hqx' hne := by
    obtain ⟨p, hp, hwhy⟩ := hphis x hx i hi (of_decide_eq_true hk) q hq q' hq' hqx hqx' hne
    exact ⟨p, hp, hwhy.imp_right fun ht t hback => decide_eq_true (ht t hback)⟩

/-- **The iterator runs by itself.** Take a loop whose instructions are all classified, whose blocks
reach an exit and whose iter phi nodes are settled. Two runs through it that begin with the same
results, save for the work, and that execute iter instructions alike, execute the same iter
instructions with the same results in the same order, as far as both get, whatever the work does. -/
theorem iter_runs_alone (hF : F.WellFormed) (hssa : F.SSA) (heap : Heap) (name : Fn)
    (hpsg : psg₀.Released) (hdl : dl₀.Released) :
    ∃ r, analyse heap name F psg₀ dl₀ = .ok r ∧ ∀ L ∈ F.loops,
      (∀ i, F.InLoop L i → r.isIter i L = .ok true ∨ r.isWork i L = .ok true) →
      (∀ b ∈ F.loopBlocks L, F.toCfg.ReachesExit b) → r.PhiSettled F L →
      ∀ S S' : Semantics Inst BB Val,
        S.SameOn F (F.loopBlocks L) (fun i => r.isIter i L = .ok true) S' →
        ∀ pred, ∀ b ∈ F.loopBlocks L, ∀ env env' : Inst → Val,
          (∀ i, r.isWork i L ≠ .ok true → env i = env' i) → ∀ n m,
            r.iterTrace F L S n ⟨pred, b, env⟩ <+: r.iterTrace F L S' m ⟨pred, b, env'⟩ ∨
              r.iterTrace F L S' m ⟨pred, b, env'⟩ <+: r.iterTrace F L S n ⟨pred, b, env⟩ := by
  obtain ⟨r, hr, h, -⟩ := analyse_spec hF heap name hpsg hdl
  refine ⟨r, hr, fun L hL hall hexits hphis S S' hsame pred b hb env env' henv n m => ?_⟩
  have hslice := h.slice hF hL hall hexits hphis
  exact hslice.comparable hF.toSelfContained hssa hsame hb
    (fun i hi => henv i (of_decide_eq_false hi)) n m

/-- `i` counts up to 3 by `next`, and `branch` leaves the loop by `test`; `work` is what all other
instructions compute. -/
def countTo3 (i test branch next : Fin 9) (header body exit : Fin 4) (work : Nat) :
    Semantics (Fin 9) (Fin 4) Nat where
  constant k := k
  argument _ := 3
  undefined := 0
  result inst env :=
    if inst = test then if env i < 3 then 1 else 0
    else if inst = branch then env test
    else if inst = next then env i + 1
    else work
  target b v := if b = header then if v = 1 then body else exit else header

theorem storeLoop_split {r : Analysis (Fin 9) (Fin 1) (Fin 1)}
    (hr : analyse .bump (0 : Fin 1) storeLoop .fresh .fresh = .ok r) :
    ∀ i, (r.isIter i 0 = .ok true ↔ i = 1 ∨ i = 2 ∨ i = 3 ∨ i = 6) ∧
      (r.isWork i 0 = .ok true ↔ i = 4 ∨ i = 5 ∨ i = 7) := by
  have hrun : (analyse .bump (0 : Fin 1) storeLoop .fresh .fresh).map (fun r => decide (∀ i,
      (r.isIter i 0 = .ok true ↔ i = 1 ∨ i = 2 ∨ i = 3 ∨ i = 6) ∧
        (r.isWork i 0 = .ok true ↔ i = 4 ∨ i = 5 ∨ i = 7))) = .ok true := by
    unfold analyse buildPDG ControlDependenceGraphPass.runOnFunction
    rw [ControlDependenceGraphPass.getBottomUpTraversal_eq]
    decide +kernel
  rw [hr] at hrun
  exact of_decide_eq_true (Except.ok.inj hrun)

theorem storeLoop_ssa : storeLoop.SSA where
  use a _ i hi u hu _ b _ hub := by
    have huse : ∀ a, ∀ i ∈ storeLoop.insts a, ∀ u, some u ∈ storeLoop.users i →
        storeLoop.incoming u = none → ∀ b, u ∈ storeLoop.insts b →
          (a ≠ b → a = 1 ∧ b = 2) ∧ (a = b → [i, u].Sublist (storeLoop.insts b)) := by
      decide +kernel
    have hpred : ∀ z, storeLoop.toCfg.Edge z 2 → z = 1 := by decide +kernel
    obtain ⟨hne, heq⟩ := huse a i hi u hu ‹_› b hub
    refine ⟨fun hab => ?_, heq⟩
    obtain ⟨rfl, rfl⟩ := hne hab
    intro p hp
    cases hp with
    | exit hentry => exact absurd hentry (by decide)
    | step hedge hp =>
      obtain rfl := hpred _ hedge
      exact List.mem_cons_of_mem _ hp.head_mem
  phi u _ vals hvals i b hi := by
    have hphi : ∀ u, ∀ vals ∈ storeLoop.incoming u, ∀ v ∈ vals, ∀ i, v.1 = .instruction i →
        i = 6 ∧ v.2 = 2 ∧ u = 1 := by
      decide +kernel
    obtain ⟨rfl, hb, rfl⟩ := hphi u vals hvals (.instruction i, b) hi i rfl
    obtain rfl : b = 2 := hb
    exact ⟨by decide, 2, by decide, by decide, .refl 2⟩

theorem iter_runs_alone_storeLoop :
    ∃ r, analyse .bump (0 : Fin 1) storeLoop .fresh .fresh = .ok r ∧
      ((r.iterTrace storeLoop 0 (countTo3 1 2 3 6 1 2 3 0) 7 ⟨0, 1, fun _ => 0⟩ <+:
          r.iterTrace storeLoop 0 (countTo3 1 2 3 6 1 2 3 5) 9 ⟨0, 1, fun _ => 0⟩) ∨
        r.iterTrace storeLoop 0 (countTo3 1 2 3 6 1 2 3 5) 9 ⟨0, 1, fun _ => 0⟩ <+:
          r.iterTrace storeLoop 0 (countTo3 1 2 3 6 1 2 3 0) 7 ⟨0, 1, fun _ => 0⟩) := by
  obtain ⟨r, hr, h⟩ := @iter_runs_alone (Fin 9) (Fin 4) (Fin 1) Nat (Fin 1) _ _ _ _ storeLoop _ _
    (by decide +kernel) storeLoop_ssa .bump (0 : Fin 1) PDGSCCGraphPass.released_fresh DecoupleLoopsPass.released_fresh
  have hsplit := storeLoop_split hr
  refine ⟨r, hr, h 0 (by decide) ?_ ?_ ?_ _ _ ?_ 0 1 (by decide) _ _ (fun _ _ => rfl) 7 9⟩
  · intro i hi
    have hin : ∀ i, storeLoop.InLoop 0 i →
        (i = 1 ∨ i = 2 ∨ i = 3 ∨ i = 6) ∨ i = 4 ∨ i = 5 ∨ i = 7 := by
      unfold Function.InLoop
      decide +kernel
    exact (hin i hi).imp (hsplit i).1.mpr (hsplit i).2.mpr
  · decide +kernel
  · intro x hx i hi _ q hq q' hq' hqx hqx' hne
    have hsame : ∀ x ∈ storeLoop.loopBlocks 0, ∀ i ∈ storeLoop.insts x,
        ∀ q ∈ storeLoop.loopBlocks 0, ∀ q' ∈ storeLoop.loopBlocks 0, storeLoop.toCfg.Edge q x →
          storeLoop.toCfg.Edge q' x → storeLoop.phiInput i q = storeLoop.phiInput i q' := by
      decide +kernel
    exact absurd (hsame x hx i hi q hq q' hq' hqx hqx') hne
  · refine ⟨rfl, rfl, rfl, fun i _ hk hphi env env' henv => ?_, fun _ _ _ _ _ => rfl⟩
    have huser : ∀ j, j ∈ storeLoop.allInsts → some i ∈ storeLoop.users j → env j = env' j :=
      fun j hj hu => henv j (.inl ⟨hj, hu⟩)
    rcases (hsplit i).1.mp (of_decide_eq_true hk) with rfl | rfl | rfl | rfl
    · exact absurd hphi (by decide)
    · simp [countTo3, huser 1 (by decide) (by decide)]
    · simp [countTo3, huser 2 (by decide) (by decide)]
    · simp [countTo3, huser 1 (by decide) (by decide)]

end Iterator

end IcsaDswp
