import IcsaDswp.Lib.PostDom

/-!
# Slices

A machine moves along the edges of a graph without leaving a region `S`. Some nodes are observed
(`O`), and at some of these what is observed decides where the machine goes (`D`). If only such
nodes control observed ones, all ways on from another node meet the same observed node first
(`Observed.eq_of_first`). Two machines that agree on what is observed then emit the same, as far as
both get (`Agree.comparable`).
-/

namespace IcsaDswp.Lib

open Relation

/-- A deterministic machine: the node that it is at, the part of its state that is observed, what it
emits there, and its next state. -/
structure Machine (σ V L ε : Type) where
  node : σ → V
  seen : σ → L
  emit : σ → List ε
  step : σ → Option σ

section Observed

variable {V : Type} {E : V → V → Prop} {exit S O D : V → Prop}

/-- What is observed in `S` is closed under control. -/
structure Observed (E : V → V → Prop) (exit S O D : V → Prop) : Prop where
  decisive : ∀ v, D v → O v
  controlled : ∀ a x, S a → S x → O x → CtrlDep E exit a x → D a
  exits : ∀ x, S x → O x → ReachesExit E exit x

/-- A node that decides nothing cannot avoid the first observed node of a walk. -/
theorem Observed.sPostDom (h : Observed E exit S O D) {x y : V} {m : List V} (hw : Walk E y m x)
    (hm : ∀ v ∈ m, S v ∧ ¬ O v) (hy : S y ∧ ¬ D y) (hx : S x ∧ O x) : SPostDom E exit x y := by
  have hno : ∀ a, ¬ TransGen (fun a b => CtrlDep E exit a b ∧ (a = y ∨ a ∈ m)) a x := by
    intro a hc
    obtain ⟨b, -, hb, hmem⟩ := TransGen.tail'_iff.mp hc
    have hSb : S b := by
      rcases hmem with rfl | hmem
      · exact hy.1
      · exact (hm b hmem).1
    have hDb : D b := h.controlled b x hSb hx.1 hx.2 hb
    rcases hmem with rfl | hmem
    · exact hy.2 hDb
    · exact (hm b hmem).2 (h.decisive b hDb)
  rcases hw.ctrlDep (h.exits x hx.1 hx.2) (.refl x) with hc | hs | ⟨v, -, -, hc⟩
  · exact absurd hc (hno y)
  · exact hs
  · exact absurd hc (hno v)

/-- **Two ways on from a node that decides nothing meet the same observed node first.** -/
theorem Observed.eq_of_first (h : Observed E exit S O D) {x x' y : V} {m m' : List V}
    (hw : Walk E y m x) (hw' : Walk E y m' x') (hm : ∀ v ∈ m, S v ∧ ¬ O v)
    (hm' : ∀ v ∈ m', S v ∧ ¬ O v) (hy : S y ∧ ¬ D y) (hx : S x ∧ O x) (hx' : S x' ∧ O x') :
    x = x' := by
  have hs : SPostDom E exit x y := h.sPostDom hw hm hy hx
  have hs' : SPostDom E exit x' y := h.sPostDom hw' hm' hy hx'
  have hxx' : PostDom E exit x x' := (hw'.postDom hs fun hin => (hm' x hin).2 hx.2).1
  have hx'x : PostDom E exit x' x := (hw.postDom hs' fun hin => (hm x' hin).2 hx'.2).1
  exact hxx'.antisymm (h.exits x' hx'.1 hx'.2) hx'x

end Observed

section Machine

variable {σ τ V L ε : Type} {E : V → V → Prop} {exit S O D : V → Prop} {M : Machine σ V L ε}
  {M' : Machine τ V L ε}

/-- What the machine emits at its first `n` nodes. -/
def Machine.trace (M : Machine σ V L ε) : Nat → σ → List ε
  | 0, _ => []
  | n + 1, s => M.emit s ++
    match M.step s with
    | none => []
    | some s' => M.trace n s'

/-- The machine stays in `S`, and where nothing is observed it changes nothing that is. -/
structure Machine.Moves (M : Machine σ V L ε) (E : V → V → Prop) (S O : V → Prop) : Prop where
  edge : ∀ s s', M.step s = some s' → S (M.node s) ∧ E (M.node s) (M.node s') ∧ S (M.node s')
  silent : ∀ s, S (M.node s) → ¬ O (M.node s) →
    M.emit s = [] ∧ ∀ s', M.step s = some s' → M.seen s' = M.seen s

/-- `s'` is the first state from `s` on at an observed node, after a walk from `y`; the node before
it is not decisive. `n` nodes from `s` are `k` from `s'`. -/
structure Machine.First (M : Machine σ V L ε) (E : V → V → Prop) (S O D : V → Prop) (y : V)
    (n : Nat) (s : σ) (k : Nat) (s' : σ) : Prop where
  le : k ≤ n
  trace_eq : M.trace n s = M.trace k s'
  observed : O (M.node s')
  seen_eq : M.seen s' = M.seen s
  prev : ∃ u, M.step u = some s' ∧ ¬ D (M.node u)
  walk : ∃ m, Walk E y m (M.node s') ∧ ∀ v ∈ m, S v ∧ ¬ O v

/-- From where nothing has been observed since `y`, the machine emits nothing, or it comes to a
first observed node. -/
theorem Machine.Moves.first (hM : M.Moves E S O) (hD : ∀ v, D v → O v) {y : V} {m : List V} {s : σ}
    (hw : Walk E y m (M.node s)) (hm : ∀ v ∈ m, S v ∧ ¬ O v)
    (hprev : ∃ u, M.step u = some s ∧ ¬ D (M.node u)) (n : Nat) :
    M.trace n s = [] ∨ ∃ k s', M.First E S O D y n s k s' := by
  induction n generalizing s m with
  | zero => exact .inl rfl
  | succ n ih =>
    by_cases hO : O (M.node s)
    · exact .inr ⟨n + 1, s, le_refl _, rfl, hO, rfl, hprev, m, hw, hm⟩
    have hS : S (M.node s) := by
      obtain ⟨u, hu, -⟩ := hprev
      exact (hM.edge u s hu).2.2
    obtain ⟨hemit, hseen⟩ := hM.silent s hS hO
    cases hs : M.step s with
    | none =>
      left
      simp [trace, hemit, hs]
    | some s' =>
      have htrace : M.trace (n + 1) s = M.trace n s' := by simp [trace, hemit, hs]
      obtain ⟨-, hedge, -⟩ := hM.edge s s' hs
      have hm' : ∀ v ∈ m ++ [M.node s], S v ∧ ¬ O v := by
        intro v hv
        rcases List.mem_append.mp hv with hv | hv
        · exact hm v hv
        · rw [List.mem_singleton.mp hv]
          exact ⟨hS, hO⟩
      rcases ih (hw.snoc hedge) hm' ⟨s, hs, fun hd => hO (hD _ hd)⟩ with hnil | ⟨k, s'', hfirst⟩
      · exact .inl (htrace.trans hnil)
      · exact .inr ⟨k, s'', hfirst.le.trans (Nat.le_succ n), htrace.trans hfirst.trace_eq,
          hfirst.observed, hfirst.seen_eq.trans (hseen s' hs), hfirst.prev, hfirst.walk⟩

/-- Machines that do the same where they are ready for it: at the same node, with the same seen and
with what they make of where they come from. -/
structure Agree (D : V → Prop) (Ready : σ → τ → Prop) (M : Machine σ V L ε)
    (M' : Machine τ V L ε) : Prop where
  node : ∀ s t, Ready s t → M.node s = M'.node t
  emit : ∀ s t, Ready s t → M.emit s = M'.emit t
  seen : ∀ s t, Ready s t → ∀ s' t', M.step s = some s' → M'.step t = some t' →
    M.seen s' = M'.seen t'
  decide : ∀ s t, Ready s t → D (M.node s) → ∀ s' t', M.step s = some s' → M'.step t = some t' →
    M.node s' = M'.node t'
  /-- Coming from the same node, or from two that decide nothing. -/
  ready : ∀ s t s' t', M.step s = some s' → M'.step t = some t' → M.node s' = M'.node t' →
    M.seen s' = M'.seen t' → (M.node s = M'.node t ∨ ¬ D (M.node s) ∧ ¬ D (M'.node t)) →
    Ready s' t'

/-- **What two agreeing machines emit is the same as far as both get.** -/
theorem Agree.comparable {Ready : σ → τ → Prop} (h : Agree D Ready M M')
    (hobs : Observed E exit S O D) (hM : M.Moves E S O) (hM' : M'.Moves E S O) {s : σ} {t : τ}
    (hst : Ready s t) (n m : Nat) :
    M.trace n s <+: M'.trace m t ∨ M'.trace m t <+: M.trace n s := by
  induction n using Nat.strong_induction_on generalizing s t m with
  | _ n ih =>
    match n, m with
    | 0, m => exact .inl (List.nil_prefix)
    | n + 1, 0 => exact .inr (List.nil_prefix)
    | n + 1, m + 1 =>
      unfold Machine.trace
      rw [h.emit s t hst, List.prefix_append_right_inj, List.prefix_append_right_inj]
      cases hs : M.step s with
      | none => exact .inl (List.nil_prefix)
      | some s' =>
        cases ht : M'.step t with
        | none => exact .inr (List.nil_prefix)
        | some t' =>
          simp only
          have hnode : M.node s = M'.node t := h.node s t hst
          have hseen : M.seen s' = M'.seen t' := h.seen s t hst s' t' hs ht
          by_cases hD : D (M.node s)
          · have hnode' : M.node s' = M'.node t' := h.decide s t hst hD s' t' hs ht
            exact ih n (Nat.lt_succ_self n) (h.ready s t s' t' hs ht hnode' hseen (.inl hnode)) m
          obtain ⟨hS, hedge, -⟩ := hM.edge s s' hs
          obtain ⟨-, hedge', -⟩ := hM'.edge t t' ht
          have hD' : ¬ D (M'.node t) := hnode ▸ hD
          -- both go on from the same node, until each comes to an observed one
          rcases hM.first hobs.decisive (.single hedge) (by simp) ⟨s, hs, hD⟩ n with hnil |
            ⟨k, x, hx⟩
          · exact .inl (hnil ▸ List.nil_prefix)
          rcases hM'.first hobs.decisive (.single hedge') (by simp) ⟨t, ht, hD'⟩ m with hnil |
            ⟨l, x', hx'⟩
          · exact .inr (hnil ▸ List.nil_prefix)
          obtain ⟨w, hw, hmem⟩ := hx.walk
          obtain ⟨w', hw', hmem'⟩ := hx'.walk
          obtain ⟨u, hu, hDu⟩ := hx.prev
          obtain ⟨u', hu', hDu'⟩ := hx'.prev
          have hsame : M.node x = M'.node x' :=
            hobs.eq_of_first hw (hnode ▸ hw') hmem hmem' ⟨hS, hD⟩
              ⟨(hM.edge u x hu).2.2, hx.observed⟩ ⟨(hM'.edge u' x' hu').2.2, hx'.observed⟩
          have hready : Ready x x' := h.ready u u' x x' hu hu' hsame
            (hx.seen_eq.trans (hseen.trans hx'.seen_eq.symm)) (.inr ⟨hDu, hDu'⟩)
          rw [hx.trace_eq, hx'.trace_eq]
          exact ih k (Nat.lt_succ_of_le hx.le) hready l

end Machine

end IcsaDswp.Lib
