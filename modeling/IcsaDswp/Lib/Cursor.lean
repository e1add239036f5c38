import Mathlib

/-!
# Loops over ordered containers

A cursor into an ordered container stands on a key, or behind the last one, and keeps its place when
keys are inserted elsewhere. `Loop` is a `for` loop over the container that other code may interrupt
anywhere: `enter` tests for the end and reads the element, `next` moves on. As long as the container
stays the same, the loop has been given the elements in front of its cursor, one each, in order, and
its place is told by the number of its own steps (`Loop.On`); it is at its end after two for each
element (`Loop.Exact`). `Tracked` is for a program with any number of loops under way.
-/

namespace IcsaDswp.Lib

variable {K W : Type}

/-- A loop: its cursor, whether it is inside its body, and what it has been given so far. -/
structure Loop (K W : Type) where
  idx : Option K
  inBody : Bool
  yielded : List W

/-- The first of the ordered `keys` behind `k`. -/
def keyAfter [LinearOrder K] (keys : List K) (k : K) : Option K := keys.find? fun x => k < x

theorem keyAfter_append [LinearOrder K] {done rest : List K} {k : K}
    (h : (done ++ k :: rest).Pairwise (· < ·)) : keyAfter (done ++ k :: rest) k = rest.head? := by
  obtain ⟨-, hrest, hdone⟩ := List.pairwise_append.mp h
  have hno : done.find? (fun x => decide (k < x)) = none := by
    rw [List.find?_eq_none]
    intro x hx
    simpa using (hdone x hx k (by simp)).le
  unfold keyAfter
  rw [List.find?_append, hno, Option.none_or, List.find?_cons_of_neg (by simp)]
  cases rest with
  | nil => rfl
  | cons x rest =>
    have hx : k < x := (List.pairwise_cons.mp hrest).1 x (by simp)
    rw [List.find?_cons_of_pos (by simpa using hx)]
    rfl

namespace Loop

def start (keys : List K) : Loop K W := ⟨keys.head?, false, []⟩

/-- The key the loop is about to read. -/
def atHead (l : Loop K W) : Option K := if l.inBody then none else l.idx

/-- The key the body runs for. -/
def inside (l : Loop K W) : Option K := if l.inBody then l.idx else none

def enter (l : Loop K W) (w : W) : Loop K W :=
  { l with inBody := true, yielded := l.yielded ++ [w] }

def next [LinearOrder K] (l : Loop K W) (keys : List K) (k : K) : Loop K W :=
  { l with idx := keyAfter keys k, inBody := false }

/-- After so many steps of its own, the loop has come to some place of `keys` and was given `f k` for
each `k` on the way. -/
inductive On (keys : List K) (f : K → W) : Nat → Loop K W → Prop where
  | head {done rest : List K} : keys = done ++ rest →
      On keys f (2 * done.length) ⟨rest.head?, false, done.map f⟩
  | body {done rest : List K} {k : K} : keys = done ++ k :: rest →
      On keys f (2 * done.length + 1) ⟨some k, true, (done ++ [k]).map f⟩

/-- The loop is given `f v` for each `v` with `P v`, of which there are `n`: a different one whenever
it is entered, every other of its steps, and it is at its end after `2 * n` of them, when it has been
given all. -/
structure Exact (P : K → Prop) (n : Nat) (f : K → W) (steps : Nat) (l : Loop K W) : Prop where
  yielded : ∃ vs : List K, l.yielded = vs.map f ∧ vs.length = (steps + 1) / 2 ∧ vs.Nodup ∧
    (∀ v ∈ vs, P v) ∧ (l.idx = none → ∀ v, v ∈ vs ↔ P v)
  steps_le : steps ≤ 2 * n
  ends : l.idx = none ↔ steps = 2 * n

variable {keys : List K} {f : K → W} {l : Loop K W} {k : K} {steps : Nat}

theorem start_on (keys : List K) (f : K → W) : On keys f 0 (start keys) :=
  have hkeys : keys = [] ++ keys := rfl
  .head hkeys

theorem On.mem (h : On keys f steps l) (hk : l.idx = some k) : k ∈ keys := by
  cases h with
  | head hkeys =>
    rw [hkeys]
    exact List.mem_append_right _ (List.mem_of_mem_head? hk)
  | body hkeys =>
    rw [hkeys, ← Option.some.inj hk]
    simp

theorem idx_of_atHead (hk : l.atHead = some k) : l.idx = some k := by
  unfold atHead at hk
  split at hk
  · cases hk
  · exact hk

theorem idx_of_inside (hk : l.inside = some k) : l.idx = some k := by
  unfold inside at hk
  split at hk
  · exact hk
  · cases hk

theorem On.enter (h : On keys f steps l) (hk : l.atHead = some k) :
    On keys f (steps + 1) (l.enter (f k)) := by
  cases h with
  | @head done rest hkeys =>
    obtain ⟨rest, rfl⟩ := List.head?_eq_some_iff.mp (idx_of_atHead hk)
    have hbody : On keys f (2 * done.length + 1) ⟨some k, true, (done ++ [k]).map f⟩ := .body hkeys
    rw [List.map_append] at hbody
    exact hbody
  | body => cases hk

theorem On.next [LinearOrder K] (hsorted : keys.Pairwise (· < ·)) (h : On keys f steps l)
    (hk : l.inside = some k) : On keys f (steps + 1) (l.next keys k) := by
  cases h with
  | head => cases hk
  | @body done rest k' hkeys =>
    obtain rfl : k' = k := Option.some.inj (idx_of_inside hk)
    have hafter : keyAfter keys k' = rest.head? := by
      rw [hkeys] at hsorted ⊢
      exact keyAfter_append hsorted
    have hhead : On keys f (2 * (done ++ [k']).length) ⟨rest.head?, false, (done ++ [k']).map f⟩ :=
      .head (by simpa using hkeys)
    rw [← hafter, List.length_append] at hhead
    exact hhead

/-- The loop has been given the beginning of the sequence, and at its end everything. -/
theorem On.exact {P : K → Prop} (hmem : ∀ v, v ∈ keys ↔ P v) (hnodup : keys.Nodup)
    (h : On keys f steps l) : Exact P keys.length f steps l := by
  cases h with
  | @head done rest hkeys =>
    have hpre : done <+: keys := ⟨rest, hkeys.symm⟩
    refine ⟨⟨done, rfl, by omega, hnodup.sublist hpre.sublist,
      fun v hv => (hmem v).mp (hpre.subset hv), fun hend v => ?_⟩, ?_, ?_⟩
    · rw [← hmem, hkeys, List.head?_eq_none_iff.mp hend, List.append_nil]
    · rw [hkeys, List.length_append]
      omega
    · rw [hkeys, List.length_append, List.head?_eq_none_iff, ← List.length_eq_zero_iff]
      omega
  | @body done rest k hkeys =>
    have hpre : done ++ [k] <+: keys := ⟨rest, by simp [hkeys]⟩
    refine ⟨⟨done ++ [k], rfl, ?_, hnodup.sublist hpre.sublist,
      fun v hv => (hmem v).mp (hpre.subset hv), nofun⟩, ?_, nofun, fun hend => ?_⟩
    · rw [List.length_append, List.length_singleton]
      omega
    · rw [hkeys, List.length_append, List.length_cons]
      omega
    · omega

/-- Before its end the loop can go on. -/
theorem exists_atHead_or_inside (hk : l.idx = some k) : l.atHead = some k ∨ l.inside = some k := by
  unfold atHead inside
  cases l.inBody
  · exact .inl hk
  · exact .inr hk

end Loop

/-! ## Many loops -/

section Tracked

variable {ι : Type} {P : Nat → ι → Prop} {loops : List ι} {steps steps' : Nat → Nat} {i : Nat}

/-- What `P` says of a loop and the number of its steps holds for each loop that has been begun; the
others have made no steps. -/
def Tracked (P : Nat → ι → Prop) (loops : List ι) (steps : Nat → Nat) : Prop :=
  (∀ i l, loops[i]? = some l → P (steps i) l) ∧ ∀ i, loops.length ≤ i → steps i = 0

theorem Tracked.push (h : Tracked P loops steps) {l : ι} (hl : P 0 l) :
    Tracked P (loops ++ [l]) steps := by
  refine ⟨fun i l' hi => ?_, fun i hi => h.2 i (by rw [List.length_append] at hi; omega)⟩
  rcases Nat.lt_or_ge i loops.length with hlt | hge
  · rw [List.getElem?_append_left hlt] at hi
    exact h.1 i l' hi
  · rw [List.getElem?_append_right hge, List.getElem?_singleton] at hi
    split at hi
    · rw [h.2 i hge, ← Option.some.inj hi]
      exact hl
    · cases hi

/-- The loop `i` makes a step. -/
theorem Tracked.set (h : Tracked P loops steps) (hi : i < loops.length) {l : ι}
    (hl : P (steps' i) l) (hother : ∀ j, j ≠ i → steps' j = steps j) :
    Tracked P (loops.set i l) steps' := by
  refine ⟨fun j l' hj => ?_, fun j hj => ?_⟩
  · by_cases hji : j = i
    · subst hji
      rw [List.getElem?_set_self hi] at hj
      exact Option.some.inj hj ▸ hl
    · rw [List.getElem?_set_ne (Ne.symm hji)] at hj
      rw [hother j hji]
      exact h.1 j l' hj
  · rw [List.length_set] at hj
    rw [hother j (by omega)]
    exact h.2 j hj

end Tracked

end IcsaDswp.Lib
