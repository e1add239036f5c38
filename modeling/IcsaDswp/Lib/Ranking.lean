import IcsaDswp.Lib.Condense
import Mathlib.Data.Fintype.Card
import Mathlib.Order.Fin.Basic

/-!
# Numbering strong components

A `Ranking` numbers the strong components of `E` in an order that `E` respects. Two of them differ by
a permutation (`Ranking.exists_equiv`); they are equal where `E` leads from one component to the other
between any two of them, since nothing is left to choose (`Ranking.eq_of_comparable`). Where there is
no such path two components come behind the same last predecessor (`Ranking.comparable_of_ready`).
-/

namespace IcsaDswp.Lib

open Relation

variable {V : Type} {E : V → V → Prop} {nodes : V → Prop}

/-- `ρ` numbers the components from 0 to `n - 1` and never falls along `E`. -/
structure Ranking (E : V → V → Prop) (nodes : V → Prop) (n : Nat) (ρ : V → Nat) : Prop where
  lt : ∀ v, nodes v → ρ v < n
  onto : ∀ r < n, ∃ v, nodes v ∧ ρ v = r
  same : ∀ u v, nodes u → nodes v → (ρ u = ρ v ↔ Mutual E u v)
  mono : ∀ u v, E u v → ρ u ≤ ρ v

/-- Of any two nodes one reaches the other. -/
def Comparable (E : V → V → Prop) (nodes : V → Prop) : Prop :=
  ∀ u v, nodes u → nodes v → ReflTransGen E u v ∨ ReflTransGen E v u

/-- All predecessors of the component `r` have numbers below `k`. -/
def Ready (E : V → V → Prop) (ρ : V → Nat) (r k : Nat) : Prop :=
  ∀ u v, E u v → ρ v = r → ρ u ≠ r → ρ u < k

theorem ready_congr {ρ₁ ρ₂ : V → Nat} (hE : ∀ u v, E u v → nodes u ∧ nodes v)
    (h : ∀ v, nodes v → ρ₁ v = ρ₂ v) (r k : Nat) : Ready E ρ₁ r k ↔ Ready E ρ₂ r k := by
  refine forall₂_congr fun u v => forall_congr' fun huv => ?_
  rw [h u (hE u v huv).1, h v (hE u v huv).2]

namespace Ranking

variable {n n₁ n₂ : Nat} {ρ ρ₁ ρ₂ : V → Nat} {u v : V}

theorem le_of_reach (h : Ranking E nodes n ρ) (huv : ReflTransGen E u v) : ρ u ≤ ρ v := by
  induction huv with
  | refl => exact le_rfl
  | tail _ hwv ih => exact ih.trans (h.mono _ _ hwv)

/-- Where `E` decides between any two nodes, the numbers tell what it decides. -/
theorem le_iff (h : Ranking E nodes n ρ) (hcomp : Comparable E nodes) (hu : nodes u) (hv : nodes v) :
    ρ u ≤ ρ v ↔ ReflTransGen E u v := by
  refine ⟨fun hle => ?_, h.le_of_reach⟩
  rcases hcomp u v hu hv with huv | hvu
  · exact huv
  · exact ((h.same u v hu hv).mp (hle.antisymm (h.le_of_reach hvu))).1

/-- **Two rankings** differ by a permutation of the numbers. -/
theorem exists_equiv (h₁ : Ranking E nodes n₁ ρ₁) (h₂ : Ranking E nodes n₂ ρ₂) :
    ∃ π : Fin n₁ ≃ Fin n₂, ∀ v (hv : nodes v), π ⟨ρ₁ v, h₁.lt v hv⟩ = ⟨ρ₂ v, h₂.lt v hv⟩ := by
  choose rep hnode hrep using fun r : Fin n₁ => h₁.onto r r.isLt
  have happly : ∀ v (hv : nodes v), ρ₂ (rep ⟨ρ₁ v, h₁.lt v hv⟩) = ρ₂ v := fun v hv =>
    (h₂.same _ v (hnode _) hv).mpr ((h₁.same _ v (hnode _) hv).mp (hrep _))
  have hbij : Function.Bijective fun r => (⟨ρ₂ (rep r), h₂.lt _ (hnode r)⟩ : Fin n₂) := by
    constructor
    · intro r r' he
      have hmutual := (h₂.same _ _ (hnode r) (hnode r')).mp (Fin.mk.inj he)
      have hρ := (h₁.same _ _ (hnode r) (hnode r')).mpr hmutual
      rw [hrep, hrep] at hρ
      exact Fin.ext hρ
    · intro r
      obtain ⟨v, hv, hr⟩ := h₂.onto r r.isLt
      exact ⟨⟨ρ₁ v, h₁.lt v hv⟩, Fin.ext ((happly v hv).trans hr)⟩
  exact ⟨Equiv.ofBijective _ hbij, fun v hv => Fin.ext (happly v hv)⟩

theorem card_eq (h₁ : Ranking E nodes n₁ ρ₁) (h₂ : Ranking E nodes n₂ ρ₂) : n₁ = n₂ := by
  obtain ⟨π, -⟩ := h₁.exists_equiv h₂
  simpa using Fintype.card_congr π

/-- **One ranking** is possible where `E` decides between any two nodes. -/
theorem eq_of_comparable (h₁ : Ranking E nodes n₁ ρ₁) (h₂ : Ranking E nodes n₂ ρ₂)
    (hcomp : Comparable E nodes) (hv : nodes v) : ρ₁ v = ρ₂ v := by
  obtain ⟨π, hπ⟩ := h₁.exists_equiv h₂
  have hmono : ∀ {r r'}, π r ≤ π r' ↔ r ≤ r' := by
    rintro ⟨r, hr⟩ ⟨r', hr'⟩
    obtain ⟨u, hu, rfl⟩ := h₁.onto r hr
    obtain ⟨u', hu', rfl⟩ := h₁.onto r' hr'
    rw [hπ u hu, hπ u' hu', Fin.mk_le_mk, Fin.mk_le_mk, h₁.le_iff hcomp hu hu',
      h₂.le_iff hcomp hu hu']
  have hid := Fin.coe_orderIso_apply ⟨π, hmono⟩ ⟨ρ₁ v, h₁.lt v hv⟩
  have happly : (π ⟨ρ₁ v, h₁.lt v hv⟩ : Nat) = ρ₂ v := congrArg Fin.val (hπ v hv)
  exact hid.symm.trans happly

/-! ### When a component is ready -/

theorem ready_self (h : Ranking E nodes n ρ) (r : Nat) : Ready E ρ r r := by
  rintro u v huv rfl hne
  exact (h.mono u v huv).lt_of_ne hne

variable (hone : ∀ r < n, ∀ s < n, (∀ k, Ready E ρ r k ↔ Ready E ρ s k) → r = s)

include hone

/-- Where no two components get ready together, none is before the one in front of it. -/
theorem not_ready (h : Ranking E nodes n ρ) {r : Nat} (hr : r < n) : ∀ k < r, ¬ Ready E ρ r k := by
  induction r using Nat.strong_induction_on with
  | _ r ih =>
    intro k hk hready
    classical
    have hex : ∃ k, Ready E ρ r k := ⟨k, hready⟩
    have hfind : Nat.find hex < r := (Nat.find_min' hex hready).trans_lt hk
    have hiff : ∀ s, (∀ j < s, ¬ Ready E ρ s j) → ∀ j, Ready E ρ s j ↔ s ≤ j := by
      refine fun s hs j => ⟨fun hj => Nat.not_lt.mp fun hlt => hs j hlt hj, fun hle => ?_⟩
      exact fun u v huv hv hne => (h.ready_self s u v huv hv hne).trans_le hle
    have hr' : ∀ j, Ready E ρ r j ↔ Nat.find hex ≤ j := by
      refine fun j => ⟨fun hj => Nat.find_min' hex hj, fun hle => ?_⟩
      exact fun u v huv hv hne => (Nat.find_spec hex u v huv hv hne).trans_le hle
    have hsame := hone r hr (Nat.find hex) (hfind.trans hr) fun j => by
      rw [hr', hiff _ (ih _ hfind (hfind.trans hr))]
    omega

/-- Where no two components get ready together, each has an edge to the next one. -/
theorem exists_edge (h : Ranking E nodes n ρ) {r : Nat} (hr : r + 1 < n) :
    ∃ u v, E u v ∧ ρ u = r ∧ ρ v = r + 1 := by
  have hnot := h.not_ready hone hr r (Nat.lt_succ_self r)
  unfold Ready at hnot
  push Not at hnot
  obtain ⟨u, v, huv, hv, hne, hle⟩ := hnot
  have := h.mono u v huv
  exact ⟨u, v, huv, by omega, hv⟩

theorem comparable_of_ready (h : Ranking E nodes n ρ) (hE : ∀ u v, E u v → nodes u ∧ nodes v) :
    Comparable E nodes := by
  have hreach : ∀ u, nodes u → ∀ r, ρ u ≤ r → ∀ v, nodes v → ρ v = r → ReflTransGen E u v := by
    intro u hu r hle
    induction r, hle using Nat.le_induction with
    | base => exact fun v hv he => ((h.same u v hu hv).mp he.symm).1
    | succ r _ ih =>
      intro v hv he
      obtain ⟨a, b, hab, ha, hb⟩ := h.exists_edge hone (he ▸ h.lt v hv)
      obtain ⟨hna, hnb⟩ := hE a b hab
      exact ((ih a hna ha).tail hab).trans ((h.same b v hnb hv).mp (hb.trans he.symm)).1
  intro u v hu hv
  rcases Nat.le_total (ρ u) (ρ v) with hle | hle
  · exact .inl (hreach u hu _ hle v hv rfl)
  · exact .inr (hreach v hv _ hle u hu rfl)

end Ranking

end IcsaDswp.Lib
