import Mathlib.Algebra.BigOperators.Group.Finset.Sigma
import Mathlib.Data.Fintype.BigOperators

/-!
# Streaming on a finite part of a group

A cell `c` of `S` holds an amount for each direction `e`. In one step the cell gives `out c e` to
the cell `c + v e`, if that is in `S` (`Streams`). The total is kept when each cell gives what it
holds, what would leave `S` is turned round, and what nothing arrives at has the amount that is
there before and after (`Streams.sum_eq`).
-/

namespace IcsaDswp.Lib

open Finset

variable {G E M : Type} [AddCommGroup G] [DecidableEq G] [Fintype E] [AddCommGroup M]
  {S : Finset G} {v : E → G} {opp : E → E} {src old out new : G → E → M}

/-- `new` is `old` after each cell has given `out` to its neighbours in `S`. -/
structure Streams (S : Finset G) (v : E → G) (old out new : G → E → M) : Prop where
  arrives : ∀ c ∈ S, ∀ e, c - v e ∈ S → new c e = out (c - v e) e
  stays : ∀ c ∈ S, ∀ e, c - v e ∉ S → new c e = old c e

/-- What arrives from the direction `e` was given in it. -/
theorem sum_arrivals (S : Finset G) (f : G → M) (x : G) :
    ∑ c ∈ S with c - x ∈ S, f (c - x) = ∑ c ∈ S with c + x ∈ S, f c := by
  refine sum_nbij' (· - x) (· + x) ?_ ?_ ?_ ?_ ?_
  · intro c hc
    rw [mem_filter] at hc ⊢
    rw [sub_add_cancel]
    exact hc.symm
  · intro c hc
    rw [mem_filter] at hc ⊢
    rw [add_sub_cancel_right]
    exact hc.symm
  · exact fun c _ => sub_add_cancel c x
  · exact fun c _ => add_sub_cancel_right c x
  · exact fun c _ => rfl

omit [Fintype E] in
/-- One direction: what was given, without what left `S`, and what nothing arrived at. -/
theorem Streams.sum_direction (h : Streams S v old out new) (e : E) :
    ∑ c ∈ S, new c e =
      ∑ c ∈ S, out c e - ∑ c ∈ S with c + v e ∉ S, out c e +
        ∑ c ∈ S with c - v e ∉ S, old c e := by
  have harrives : ∑ c ∈ S with c - v e ∈ S, new c e = ∑ c ∈ S with c + v e ∈ S, out c e := by
    rw [← sum_arrivals S (fun c => out c e) (v e)]
    refine sum_congr rfl fun c hc => ?_
    exact h.arrives c (mem_filter.mp hc).1 e (mem_filter.mp hc).2
  have hstays : ∑ c ∈ S with c - v e ∉ S, new c e = ∑ c ∈ S with c - v e ∉ S, old c e :=
    sum_congr rfl fun c hc => h.stays c (mem_filter.mp hc).1 e (mem_filter.mp hc).2
  have hout := sum_filter_add_sum_filter_not S (fun c => c + v e ∈ S) fun c => out c e
  rw [← sum_filter_add_sum_filter_not S (fun c => c - v e ∈ S) fun c => new c e, harrives, hstays,
    ← hout, add_sub_cancel_right]

/-- **Streaming keeps the total** where `S` is walled in. -/
theorem Streams.sum_eq (h : Streams S v old out new) (hopp : Function.Involutive opp)
    (hv : ∀ e, v (opp e) = - v e) (hcell : ∀ c ∈ S, ∑ e, out c e = ∑ e, src c e)
    (hwall : ∀ c ∈ S, ∀ e, c + v e ∉ S → out c e = src c (opp e))
    (hrest : ∀ c ∈ S, ∀ e, c - v e ∉ S → src c e = old c e) :
    ∑ c ∈ S, ∑ e, new c e = ∑ c ∈ S, ∑ e, src c e := by
  have hturned : ∑ e, ∑ c ∈ S with c + v e ∉ S, out c e =
      ∑ e, ∑ c ∈ S with c - v e ∉ S, old c e := by
    rw [← Equiv.sum_comp (hopp.toPerm opp)]
    refine sum_congr rfl fun e _ => sum_congr ?_ fun c hc => ?_
    · rw [Function.Involutive.coe_toPerm, hv]
      simp only [← sub_eq_add_neg]
    · obtain ⟨hc, hne⟩ := mem_filter.mp hc
      rw [Function.Involutive.coe_toPerm, hwall c hc (opp e) (by rwa [hv, ← sub_eq_add_neg]),
        hopp e]
      exact hrest c hc e hne
  calc ∑ c ∈ S, ∑ e, new c e = ∑ e, ∑ c ∈ S, new c e := sum_comm
    _ = ∑ e, (∑ c ∈ S, out c e - ∑ c ∈ S with c + v e ∉ S, out c e +
          ∑ c ∈ S with c - v e ∉ S, old c e) := sum_congr rfl fun e _ => h.sum_direction e
    _ = ∑ e, ∑ c ∈ S, out c e := by
      rw [sum_add_distrib, sum_sub_distrib, hturned, sub_add_cancel]
    _ = ∑ c ∈ S, ∑ e, out c e := sum_comm
    _ = ∑ c ∈ S, ∑ e, src c e := sum_congr rfl hcell

end IcsaDswp.Lib
