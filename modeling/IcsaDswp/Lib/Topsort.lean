import Mathlib.Data.Finset.Card
import Mathlib.Data.Set.Finite.Basic
import Mathlib.Data.List.Nodup
import Mathlib.Logic.Relation
import Mathlib.Tactic.Common

/-!
# Topological sorting

`KahnOrder E nodes l`: `l` takes in the nodes of which it has all predecessors, each behind these.
What lies on a cycle, or behind one, is never taken in; everything else is (`KahnOrder.mem_iff`),
since among finitely many nodes left out one has no predecessor among them (`exists_source`). In a
list with `Fifo` the nodes whose last predecessor is the same stand in a given order.
-/

namespace IcsaDswp.Lib

open Relation

variable {V : Type} {E : V → V → Prop}

/-- Going back along `E` inside a finite set ends in a source of the set, unless it comes by a
cycle. -/
theorem exists_source [DecidableEq V] (S : Finset V) {x : V} (hx : x ∈ S)
    (hac : ∀ c, ReflTransGen E c x → ¬ TransGen E c c) :
    ∃ s ∈ S, (∀ a ∈ S, ¬ E a s) ∧ ReflTransGen (fun a b => E a b ∧ a ∈ S ∧ b ∈ S) s x := by
  induction S using Finset.strongInduction generalizing x with
  | H S ih =>
    by_cases hp : ∃ p ∈ S, E p x
    · obtain ⟨p, hp, hpx⟩ := hp
      have hne : p ≠ x := fun he => hac x .refl (.single (he ▸ hpx))
      obtain ⟨s, hs, hno, hsp⟩ := ih (S.erase x) (Finset.erase_ssubset hx)
        (Finset.mem_erase.mpr ⟨hne, hp⟩) fun c hc => hac c (hc.tail hpx)
      refine ⟨s, Finset.mem_of_mem_erase hs, fun a ha has => ?_, ?_⟩
      · by_cases hax : a = x
        · -- an edge from `x` to the source would close a cycle
          subst hax
          have hsa : ReflTransGen E s a := (hsp.lift id fun _ _ h => h.1).tail hpx
          exact hac a .refl (.head' has hsa)
        · exact hno a (Finset.mem_erase.mpr ⟨hax, ha⟩) has
      · have hsp' : ReflTransGen (fun a b => E a b ∧ a ∈ S ∧ b ∈ S) s p := hsp.lift id fun _ _ h =>
          ⟨h.1, Finset.mem_of_mem_erase h.2.1, Finset.mem_of_mem_erase h.2.2⟩
        exact hsp'.tail ⟨hpx, hp, hx⟩
    · exact ⟨x, hx, fun a ha h => hp ⟨a, ha, h⟩, .refl⟩

/-- In `l` every element stands behind all its predecessors. -/
def PredsFirst (E : V → V → Prop) (l : List V) : Prop :=
  ∀ before v after, l = before ++ v :: after → ∀ u, E u v → u ∈ before

theorem predsFirst_nil : PredsFirst E [] := by
  intro before v after h
  simp at h

theorem PredsFirst.snoc {l : List V} {v : V} (h : PredsFirst E l) (hv : ∀ u, E u v → u ∈ l) :
    PredsFirst E (l ++ [v]) := by
  intro before w after he u hu
  rcases List.eq_nil_or_concat after with rfl | ⟨after, z, rfl⟩
  · obtain ⟨rfl, he⟩ := List.append_inj' he rfl
    obtain rfl : v = w := by simpa using he
    exact hv u hu
  · rw [List.concat_eq_append, ← List.cons_append, ← List.append_assoc] at he
    exact h before w after (List.append_inj' he rfl).1 u hu

/-- What Kahn's algorithm ends with. -/
structure KahnOrder (E : V → V → Prop) (nodes : V → Prop) (l : List V) : Prop where
  nodup : l.Nodup
  mem : ∀ v, v ∈ l ↔ nodes v ∧ ∀ u, E u v → u ∈ l
  predsFirst : PredsFirst E l

namespace KahnOrder

variable {nodes : V → Prop} {l : List V} {c u v : V}

theorem idxOf_lt [DecidableEq V] (h : KahnOrder E nodes l) (huv : E u v) (hv : v ∈ l) :
    l.idxOf u < l.idxOf v := by
  obtain ⟨before, after, rfl⟩ := List.append_of_mem hv
  have hu : u ∈ before := h.predsFirst before v after rfl u huv
  have hnot : v ∉ before := fun hb => (List.nodup_append.mp h.nodup).2.2 v hb v (by simp) rfl
  rw [List.idxOf_append_of_mem hu, List.idxOf_append_of_notMem hnot]
  exact Nat.lt_add_right _ (List.idxOf_lt_length_of_mem hu)

/-- The list is closed under predecessors. -/
theorem mem_of_reach (h : KahnOrder E nodes l) (hcv : ReflTransGen E c v) (hv : v ∈ l) : c ∈ l := by
  induction hcv using ReflTransGen.head_induction_on with
  | refl => exact hv
  | head hac _ ih => exact ((h.mem _).mp ih).2 _ hac

theorem idxOf_lt_of_transGen [DecidableEq V] (h : KahnOrder E nodes l) (huv : TransGen E u v)
    (hv : v ∈ l) : l.idxOf u < l.idxOf v := by
  induction huv with
  | single huv => exact h.idxOf_lt huv hv
  | @tail w v _ hwv ih => exact (ih (((h.mem v).mp hv).2 w hwv)).trans (h.idxOf_lt hwv hv)

theorem not_cycle (h : KahnOrder E nodes l) (hcv : ReflTransGen E c v) (hv : v ∈ l) :
    ¬ TransGen E c c := by
  classical
  exact fun hcc => Nat.lt_irrefl _ (h.idxOf_lt_of_transGen hcc (h.mem_of_reach hcv hv))

variable (hfin : {v | nodes v}.Finite) (hE : ∀ u v, E u v → nodes u)

include hfin hE

/-- **What is sorted**: the nodes that no cycle reaches. -/
theorem mem_iff (h : KahnOrder E nodes l) :
    v ∈ l ↔ nodes v ∧ ¬ ∃ c, TransGen E c c ∧ ReflTransGen E c v := by
  classical
  refine ⟨fun hv => ⟨((h.mem v).mp hv).1, fun ⟨c, hcc, hcv⟩ => h.not_cycle hcv hv hcc⟩, ?_⟩
  rintro ⟨hv, hno⟩
  by_contra hvl
  have hmem : ∀ w, w ∈ hfin.toFinset.filter (· ∉ l) ↔ nodes w ∧ w ∉ l := by simp
  obtain ⟨s, hs, hsource, -⟩ := exists_source (hfin.toFinset.filter (· ∉ l))
    ((hmem v).mpr ⟨hv, hvl⟩) fun c hcv hcc => hno ⟨c, hcc, hcv⟩
  obtain ⟨hsn, hsl⟩ := (hmem s).mp hs
  refine hsl ((h.mem s).mpr ⟨hsn, fun u hus => ?_⟩)
  by_contra hul
  exact hsource u ((hmem u).mpr ⟨hE u s hus, hul⟩) hus

theorem complete_iff (h : KahnOrder E nodes l) :
    (∀ v, nodes v → v ∈ l) ↔ ∀ c, ¬ TransGen E c c := by
  constructor
  · intro hall c hcc
    obtain ⟨d, hcd, -⟩ := TransGen.head'_iff.mp hcc
    exact h.not_cycle .refl (hall c (hE c d hcd)) hcc
  · exact fun hac v hv => (h.mem_iff hfin hE).mpr ⟨hv, fun ⟨c, hcc, _⟩ => hac c hcc⟩

end KahnOrder

/-! ## First in, first out -/

section Fifo

variable [DecidableEq V] {lt : V → V → Prop} {l pushed : List V} {x y : V} {k : Nat}

/-- Nodes behind the same last predecessor, or without any, stand in the order `lt`. -/
def Fifo (E lt : V → V → Prop) (l : List V) : Prop :=
  ∀ x ∈ l, ∀ y ∈ l, (∀ k, (∀ u, E u x → l.idxOf u < k) ↔ ∀ u, E u y → l.idxOf u < k) → lt x y →
    l.idxOf x < l.idxOf y

variable (hasymm : ∀ x y, lt x y → ¬ lt y x)

include hasymm

theorem idxOf_lt_of_pairwise (h : l.Pairwise lt) (hx : x ∈ l) (hy : y ∈ l) (hxy : lt x y) :
    l.idxOf x < l.idxOf y := by
  by_contra hle
  rcases (Nat.not_lt.mp hle).lt_or_eq with hlt | he
  · have hyx := List.pairwise_iff_getElem.mp h _ _ (List.idxOf_lt_length_of_mem hy)
      (List.idxOf_lt_length_of_mem hx) hlt
    rw [List.getElem_idxOf, List.getElem_idxOf] at hyx
    exact hasymm x y hxy hyx
  · obtain rfl := (List.idxOf_inj hy).mp he
    exact hasymm _ _ hxy hxy

theorem fifo_of_pairwise (h : l.Pairwise lt) : Fifo E lt l :=
  fun _ hx _ hy _ hxy => idxOf_lt_of_pairwise hasymm h hx hy hxy

/-- What is pushed together, in order and behind a predecessor that comes after those of all nodes
so far. -/
theorem Fifo.append (h : Fifo E lt l) (hnodup : (l ++ pushed).Nodup)
    (hearly : ∀ x ∈ l, ∀ u, E u x → u ∈ l ∧ l.idxOf u < k)
    (hlate : ∀ x ∈ pushed, ∃ u ∈ l, E u x ∧ k ≤ l.idxOf u) (hsorted : pushed.Pairwise lt) :
    Fifo E lt (l ++ pushed) := by
  have hidx : ∀ u ∈ l, (l ++ pushed).idxOf u = l.idxOf u := fun u hu =>
    List.idxOf_append_of_mem hu
  have hpreds : ∀ x ∈ l, ∀ k, (∀ u, E u x → (l ++ pushed).idxOf u < k) ↔
      ∀ u, E u x → l.idxOf u < k := fun x hx k =>
    forall₂_congr fun u hu => by rw [hidx u (hearly x hx u hu).1]
  -- no node that is pushed has its last predecessor where one has that was there before
  have hapart : ∀ x ∈ l, ∀ y ∈ pushed,
      ¬ ((∀ u, E u x → (l ++ pushed).idxOf u < k) ↔ ∀ u, E u y → (l ++ pushed).idxOf u < k) := by
    intro x hx y hy hiff
    obtain ⟨u, hu, huy, hk⟩ := hlate y hy
    have hlt := hiff.mp ((hpreds x hx k).mpr fun v hv => (hearly x hx v hv).2) u huy
    rw [hidx u hu] at hlt
    omega
  intro x hx y hy hsame hxy
  rcases List.mem_append.mp hx with hx | hx <;> rcases List.mem_append.mp hy with hy | hy
  · rw [hidx x hx, hidx y hy]
    refine h x hx y hy (fun k => ?_) hxy
    rw [← hpreds x hx, ← hpreds y hy]
    exact hsame k
  · exact absurd (hsame k) (hapart x hx y hy)
  · exact absurd (hsame k).symm (hapart y hy x hx)
  · have hnot : ∀ x ∈ pushed, x ∉ l := fun x hx hl => (List.nodup_append.mp hnodup).2.2 x hl x hx rfl
    rw [List.idxOf_append_of_notMem (hnot x hx), List.idxOf_append_of_notMem (hnot y hy)]
    have := idxOf_lt_of_pairwise hasymm hsorted hx hy hxy
    omega

end Fifo

end IcsaDswp.Lib
