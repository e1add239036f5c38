import Mathlib.Logic.Relation
import Mathlib.Tactic.Common

/-!
# Strong components

`Mutual E u v`: each of `u` and `v` reaches the other along `E`. A `Condensation` of `E` has the
strong components as nodes, given by labels `cls i a`, and an edge between two components wherever
`E` has one between their members. Its paths are paths of `E` (`Condensation.reach`), so it has no
cycle (`Condensation.acyclic`).
-/

namespace IcsaDswp.Lib

open Relation

variable {V W : Type}

/-- `u` and `v` lie in one strong component of `E`. -/
def Mutual (E : V → V → Prop) (u v : V) : Prop := ReflTransGen E u v ∧ ReflTransGen E v u

section Mutual

variable {E : V → V → Prop} {u v w : V}

@[simp] theorem Mutual.refl (u : V) : Mutual E u u := ⟨.refl, .refl⟩

theorem Mutual.symm (h : Mutual E u v) : Mutual E v u := ⟨h.2, h.1⟩

theorem Mutual.trans (h₁ : Mutual E u v) (h₂ : Mutual E v w) : Mutual E u w :=
  ⟨h₁.1.trans h₂.1, h₂.2.trans h₁.2⟩

/-- A path that ends in another component than it starts in enters that component by an edge. -/
theorem exists_entry {R : V → V → Prop} (h : ReflTransGen R u v) (hn : ¬ Mutual E u v) :
    ∃ k j, R k j ∧ ¬ Mutual E k v ∧ Mutual E j v := by
  induction h using ReflTransGen.head_induction_on with
  | refl => exact absurd (.refl v) hn
  | @head u w huw _ ih =>
    by_cases hw : Mutual E w v
    · exact ⟨u, w, huw, hn, hw⟩
    · exact ih hw

end Mutual

/-- `E'` joins the components of `E`, with `cls i a` for "`i` is in the component `a`". -/
structure Condensation (E : V → V → Prop) (cls : V → W → Prop) (E' : W → W → Prop) : Prop where
  same : ∀ i j a b, cls i a → cls j b → (a = b ↔ Mutual E i j)
  total : ∀ i j, E i j → (∃ a, cls i a) ∧ ∃ b, cls j b
  edge : ∀ a b, E' a b ↔ a ≠ b ∧ ∃ i j, cls i a ∧ cls j b ∧ E i j

namespace Condensation

variable {E : V → V → Prop} {cls : V → W → Prop} {E' : W → W → Prop}

/-- A path between components is one between their members. -/
theorem reach (h : Condensation E cls E') {a b : W} (hab : ReflTransGen E' a b) {i j : V}
    (hi : cls i a) (hj : cls j b) : ReflTransGen E i j := by
  induction hab using ReflTransGen.head_induction_on generalizing i with
  | refl => exact ((h.same i j b b hi hj).mp rfl).1
  | @head a c hac _ ih =>
    obtain ⟨-, i', k, hi', hk, hik⟩ := (h.edge a c).mp hac
    have hii' : ReflTransGen E i i' := ((h.same i i' a a hi hi').mp rfl).1
    exact (hii'.tail hik).trans (ih hk)

theorem acyclic (h : Condensation E cls E') (a : W) : ¬ TransGen E' a a := by
  intro hcycle
  obtain ⟨b, hab, hba⟩ := TransGen.head'_iff.mp hcycle
  obtain ⟨hne, i, j, hi, hj, hij⟩ := (h.edge a b).mp hab
  exact hne ((h.same i j a b hi hj).mpr ⟨.single hij, h.reach hba hj hi⟩)

end Condensation

end IcsaDswp.Lib
