import IcsaDswp.Lib.Condense
import IcsaDswp.Lib.Fold

/-!
# The split into iter and work

What `DecoupleLoops` is for, in terms of dependences alone: `E` relates instructions, `In L` is the
set of instructions of the loop `L`, and `loops` is the order the loops are dealt with in. A
component that meets several loops belongs to the last of them (`Owner`). The work of `L` is what
belongs to `L` and has a predecessor in another component that does (`Work`); the rest of what
belongs to `L` is iter (`Iter`).
-/

namespace IcsaDswp.IterWork

open Lib Relation

variable {V Loop : Type} (E : V → V → Prop) (In : Loop → V → Prop) (loops : List Loop)

/-- The component of `i` contains an instruction of `L`. -/
def Meets (L : Loop) (i : V) : Prop := ∃ j, Mutual E i j ∧ In L j

/-- `L` is the last loop that the component of `i` meets. -/
def Owner (L : Loop) (i : V) : Prop := IsLast (fun L => Meets E In L i) loops L

/-- An edge enters the component of `i` from another one that belongs to `L`. -/
def HasSource (L : Loop) (i : V) : Prop :=
  ∃ k j, E k j ∧ Mutual E j i ∧ ¬ Mutual E k i ∧ Owner E In loops L k

def Work (L : Loop) (i : V) : Prop := Owner E In loops L i ∧ HasSource E In loops L i

def Iter (L : Loop) (i : V) : Prop := Owner E In loops L i ∧ ¬ HasSource E In loops L i

variable {E In loops} {L L' : Loop} {i j : V}

theorem Meets.congr (h : Mutual E i j) : Meets E In L i ↔ Meets E In L j :=
  ⟨fun ⟨k, hk, hL⟩ => ⟨k, h.symm.trans hk, hL⟩, fun ⟨k, hk, hL⟩ => ⟨k, h.trans hk, hL⟩⟩

theorem Owner.congr (h : Mutual E i j) : Owner E In loops L i ↔ Owner E In loops L j :=
  isLast_congr fun _ _ => Meets.congr h

theorem HasSource.congr (h : Mutual E i j) :
    HasSource E In loops L i ↔ HasSource E In loops L j := by
  constructor
  · rintro ⟨k, l, hkl, hli, hki, hk⟩
    exact ⟨k, l, hkl, hli.trans h, fun hkj => hki (hkj.trans h.symm), hk⟩
  · rintro ⟨k, l, hkl, hlj, hkj, hk⟩
    exact ⟨k, l, hkl, hlj.trans h.symm, fun hki => hkj (hki.trans h), hk⟩

theorem owner_iff_iter_or_work :
    Owner E In loops L i ↔ Iter E In loops L i ∨ Work E In loops L i := by
  unfold Iter Work
  tauto

theorem not_iter_and_work : ¬ (Iter E In loops L i ∧ Work E In loops L i) :=
  fun h => h.1.2 h.2.2

/-- **Dependences flow from iter to work.** -/
theorem work_of_edge (hij : E i j) (hn : ¬ Mutual E i j) (hi : Owner E In loops L i)
    (hj : Owner E In loops L j) : Work E In loops L j :=
  ⟨hj, i, j, hij, .refl j, hn, hi⟩

/-- No dependence leads back from work to iter. -/
theorem Work.not_iter_of_edge (hw : Work E In loops L i) (hij : E i j) : ¬ Iter E In loops L j := by
  intro hiter
  by_cases hm : Mutual E i j
  · exact hiter.2 ((HasSource.congr hm).mp hw.2)
  · exact hiter.2 (work_of_edge hij hm hw.1 hiter.1).2

section Disjoint

variable (hone : ∀ i j L L', L ∈ loops → L' ∈ loops → In L i → In L' j → Mutual E i j → L = L')

include hone

/-- Where no component meets two loops, every loop owns what it meets. -/
theorem owner_iff_meets (hnd : loops.Nodup) (hL : L ∈ loops) :
    Owner E In loops L i ↔ Meets E In L i := by
  refine ⟨IsLast.prop, fun h => ?_⟩
  obtain ⟨before, after, rfl⟩ := List.append_of_mem hL
  have hnot : L ∉ after := (List.nodup_cons.mp (List.nodup_append.mp hnd).2.1).1
  refine (isLast_iff hnot h).mpr fun L' hL' ⟨k, hk, hkL'⟩ => ?_
  obtain ⟨j, hj, hjL⟩ := h
  obtain rfl := hone j k L L' hL (by simp [hL']) hjL hkL' (hj.symm.trans hk)
  exact hnot hL'

/-- **One source.** Where an instruction of `L` reaches all others of `L` inside `L`, the iter
component is its component. -/
theorem iter_iff_of_hub (hnd : loops.Nodup) (hL : L ∈ loops) {t : V} (ht : In L t)
    (hub : ∀ i, In L i → ReflTransGen (fun a b => E a b ∧ In L a) t i) :
    Iter E In loops L i ↔ Mutual E i t := by
  have howner : ∀ k, Owner E In loops L k ↔ Meets E In L k := fun k => owner_iff_meets hone hnd hL
  unfold Iter HasSource
  simp only [howner]
  constructor
  · rintro ⟨⟨i', hi, hi'⟩, hno⟩
    by_contra hn
    have hn' : ¬ Mutual E t i' := fun h => hn (hi.trans h.symm)
    obtain ⟨k, j, ⟨hkj, hk⟩, hki, hji⟩ := exists_entry (hub i' hi') hn'
    exact hno ⟨k, j, hkj, hji.trans hi.symm, fun h => hki (h.trans hi), k, .refl k, hk⟩
  · intro h
    refine ⟨⟨t, h, ht⟩, ?_⟩
    rintro ⟨k, j, hkj, hj, hk, k', hkk', hk'⟩
    have htk : ReflTransGen E t k :=
      ((hub k' hk').lift id fun _ _ h => h.1).trans hkk'.2
    exact hk ⟨(ReflTransGen.single hkj).trans hj.1, h.1.trans htk⟩

end Disjoint

end IcsaDswp.IterWork
