import Mathlib.Data.List.Perm.Basic
import Mathlib.Logic.Function.Basic
import Mathlib.Tactic.Common

/-!
# Loops whose iterations are independent

A loop runs `body` for one element of a list after the other, on an array. `Confined` bounds what an
iteration writes and what that depends on; `Independent` says that no iteration writes what another
one writes or reads. Then a place has, after the loop, what the one iteration that writes it makes
of the array before the loop (`foldl_at`), and the order of the iterations does not matter
(`foldl_perm`).
-/

namespace IcsaDswp.Lib

variable {ι V α : Type} {body : (ι → V) → α → ι → V} {W R : α → ι → Prop} {g : ι → V} {a : α}
  {k : ι} {l l' : List α}

/-- The iteration for `a` writes `W a` only, and what it writes is determined by `R a`. -/
structure Confined (body : (ι → V) → α → ι → V) (W R : α → ι → Prop) : Prop where
  frame : ∀ g a k, ¬ W a k → body g a k = g k
  depends : ∀ g g' a, (∀ k, R a k → g k = g' k) → ∀ k, W a k → body g a k = body g' a k

/-- Neither of two iterations writes what the other one writes or reads. -/
def Apart (W R : α → ι → Prop) (a b : α) : Prop :=
  ∀ k, (W a k → ¬ W b k ∧ ¬ R b k) ∧ (W b k → ¬ R a k)

def Independent (W R : α → ι → Prop) (l : List α) : Prop := l.Pairwise (Apart W R)

theorem Apart.symm {b : α} (h : Apart W R a b) : Apart W R b a := fun k =>
  ⟨fun hb => ⟨fun ha => ((h k).1 ha).1 hb, (h k).2 hb⟩, fun ha => ((h k).1 ha).2⟩

theorem Independent.perm (h : Independent W R l) (hp : l.Perm l') : Independent W R l' :=
  (hp.pairwise_iff Apart.symm).mp h

/-- What no iteration writes stays. -/
theorem foldl_off (hc : Confined body W R) (hk : ∀ a ∈ l, ¬ W a k) : l.foldl body g k = g k := by
  induction l generalizing g with
  | nil => rfl
  | cons b l ih =>
    rw [List.foldl_cons, ih fun a ha => hk a (List.mem_cons_of_mem b ha)]
    exact hc.frame g b k (hk b List.mem_cons_self)

/-- What one iteration writes is what it would write as the only one. -/
theorem foldl_at (hc : Confined body W R) (hi : Independent W R l) (ha : a ∈ l) (hk : W a k) :
    l.foldl body g k = body g a k := by
  induction l generalizing g with
  | nil => cases ha
  | cons b l ih =>
    obtain ⟨hb, hl⟩ := List.pairwise_cons.mp hi
    rw [List.foldl_cons]
    rcases List.mem_cons.mp ha with rfl | ha
    · exact foldl_off hc fun b' hb' => ((hb b' hb' k).1 hk).1
    · rw [ih hl ha]
      -- what `a` reads is not what `b` wrote before it
      refine hc.depends (body g b) g a (fun k' hk' => hc.frame g b k' fun hbk => ?_) k hk
      exact ((hb a ha k').1 hbk).2 hk'

/-- **Independent iterations can be run in any order.** -/
theorem foldl_perm (hc : Confined body W R) (hi : Independent W R l) (hp : l.Perm l') :
    l.foldl body g = l'.foldl body g := by
  funext k
  by_cases h : ∃ a ∈ l, W a k
  · obtain ⟨a, ha, hk⟩ := h
    rw [foldl_at hc hi ha hk, foldl_at hc (hi.perm hp) (hp.mem_iff.mp ha) hk]
  · have hnone : ∀ a ∈ l, ¬ W a k := fun a ha hk => h ⟨a, ha, hk⟩
    rw [foldl_off hc hnone, foldl_off hc fun a ha => hnone a (hp.mem_iff.mpr ha)]

end IcsaDswp.Lib
