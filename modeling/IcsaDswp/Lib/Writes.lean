import Mathlib.Data.List.Nodup
import Mathlib.Data.List.Perm.Basic
import Mathlib.Logic.Function.Basic
import Mathlib.Tactic.Common

/-!
# Assignments to an array

`writeAll` makes the assignments of a list one after the other. No two to one place: then their
order does not matter (`writeAll_perm`), and threads that share them out come to the same array
(`Settles`).
-/

namespace IcsaDswp.Lib

variable {ι V : Type} [DecidableEq ι] {g r : ι → V} {w : ι × V} {ws ws' : List (ι × V)}

def writeAll (g : ι → V) (ws : List (ι × V)) : ι → V :=
  ws.foldl (fun g w => Function.update g w.1 w.2) g

/-- Assignments to different places can be made in any order. -/
theorem writeAll_perm (h : ws.Perm ws') (hnodup : (ws.map Prod.fst).Nodup) :
    writeAll g ws = writeAll g ws' := by
  refine h.foldl_eq' (fun x hx y hy z => ?_) g
  by_cases hxy : x = y
  · rw [hxy]
  · have hne : x.1 ≠ y.1 := fun he => hxy (List.inj_on_of_nodup_map hnodup hx hy he)
    exact Function.update_comm hne x.2 y.2 z

theorem writeAll_cons (g : ι → V) (w : ι × V) (ws : List (ι × V)) :
    writeAll g (w :: ws) = writeAll (Function.update g w.1 w.2) ws := rfl

/-- A place that nothing is assigned to stays. -/
theorem writeAll_off {k : ι} (h : k ∉ ws.map Prod.fst) : writeAll g ws k = g k := by
  induction ws generalizing g with
  | nil => rfl
  | cons w ws ih =>
    rw [List.map_cons, List.mem_cons, not_or] at h
    rw [writeAll_cons, ih h.2, Function.update_of_ne h.1]

/-- A place has what is assigned to it, where that is done once. -/
theorem writeAll_at (hnodup : (ws.map Prod.fst).Nodup) (h : w ∈ ws) : writeAll g ws w.1 = w.2 := by
  induction ws generalizing g with
  | nil => cases h
  | cons w' ws ih =>
    rw [List.map_cons, List.nodup_cons] at hnodup
    rw [writeAll_cons]
    rcases List.mem_cons.mp h with rfl | h
    · rw [writeAll_off hnodup.1, Function.update_self]
    · exact ih hnodup.2 h

/-- From `g` it takes the assignments `ws`, in any order, to get to `r`. -/
structure Settles (g : ι → V) (ws : List (ι × V)) (r : ι → V) : Prop where
  nodup : (ws.map Prod.fst).Nodup
  final : writeAll g ws = r

theorem Settles.perm (h : Settles g ws r) (hp : ws.Perm ws') : Settles g ws' r :=
  ⟨(hp.map Prod.fst).nodup_iff.mp h.nodup, (writeAll_perm hp h.nodup).symm.trans h.final⟩

/-- One of the assignments is made. -/
theorem Settles.write (h : Settles g ws r) (hp : ws.Perm (w :: ws')) :
    Settles (Function.update g w.1 w.2) ws' r :=
  have hw := h.perm hp
  ⟨(List.nodup_cons.mp hw.nodup).2, hw.final⟩

end IcsaDswp.Lib
