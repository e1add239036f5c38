import IcsaDswp.Lib.Trace
import Mathlib.Logic.Function.Iterate

/-!
# Loops of concurrent calls

A sequential loop that makes one concurrent call a round. A `Call` is entered from the state of the
loop, its threads act, and when they have come to an end it is left with the next state of the loop.
`Call.Refines f` says that, however its threads take turns, one call computes `f`; then the loop
computes `f` as often as it has left a call, never gets stuck, and comes to an end
(`Call.Refines.run`).
-/

namespace IcsaDswp.Lib

/-- A call that is made in the state `o` of a loop. -/
structure Call (τ σ Act : Type) where
  enter : τ → σ
  step : τ → σ → Act → Option σ
  /-- The loop's next state, when the call is at its end. -/
  leave : τ → σ → Option τ

namespace Call

variable {τ σ Act : Type}

/-- The loop after `done` rounds, with the call it is in. -/
structure State (τ σ : Type) where
  done : Nat
  outer : τ
  inner : Option σ

inductive RoundAct (Act : Type) where
  | enter
  | act (a : Act)
  | leave

/-- One action of a loop of `rounds` calls. -/
def round (c : Call τ σ Act) (rounds : Nat) (s : State τ σ) : RoundAct Act → Option (State τ σ)
  | .enter =>
    match s.inner with
    | none => if s.done < rounds then some { s with inner := some (c.enter s.outer) } else none
    | some _ => none
  | .act a =>
    match s.inner with
    | none => none
    | some i => (c.step s.outer i a).map fun i => { s with inner := some i }
  | .leave =>
    match s.inner with
    | none => none
    | some i => (c.leave s.outer i).map fun o => ⟨s.done + 1, o, none⟩

def start (o : τ) : State τ σ := ⟨0, o, none⟩

/-- A call keeps `P` and uses up `μ`; it is stuck at its end only, and then it has computed `f`. -/
structure Refines (c : Call τ σ Act) (f : τ → τ) (P : τ → σ → Prop) (μ : τ → σ → Nat) (m : Nat) :
    Prop where
  enter : ∀ o, P o (c.enter o) ∧ μ o (c.enter o) ≤ m
  step : ∀ o i a i', P o i → c.step o i a = some i' → P o i' ∧ μ o i' < μ o i
  leave : ∀ o i o', P o i → c.leave o i = some o' → o' = f o
  progress : ∀ o i, P o i → (∃ o', c.leave o i = some o') ∨ ∃ a i', c.step o i a = some i'

variable {c : Call τ σ Act} {f : τ → τ} {P : τ → σ → Prop} {μ : τ → σ → Nat} {m rounds : Nat}
  {o : τ} {s s' : State τ σ} {a : RoundAct Act} {acts : List (RoundAct Act)}

/-- What holds of the loop at any time. -/
structure Inv (f : τ → τ) (P : τ → σ → Prop) (rounds : Nat) (o : τ) (s : State τ σ) : Prop where
  outer : s.outer = f^[s.done] o
  done_le : s.done ≤ rounds
  lt_of_inner : ∀ i, s.inner = some i → s.done < rounds ∧ P s.outer i

/-- What is left to do: two actions and `m` of the call for each round. -/
def todo (μ : τ → σ → Nat) (m rounds : Nat) (s : State τ σ) : Nat :=
  match s.inner with
  | none => (rounds - s.done) * (m + 2)
  | some i => (rounds - s.done - 1) * (m + 2) + μ s.outer i + 1

theorem inv_start (rounds : Nat) (o : τ) : (Inv f P rounds o) (start o : State τ σ) where
  outer := rfl
  done_le := Nat.zero_le rounds
  lt_of_inner := by intro i h; cases h

/-- A round in front of others. -/
theorem mul_rounds {n d : Nat} (h : d < n) (k : Nat) : (n - d) * k = (n - d - 1) * k + k := by
  obtain ⟨r, hr⟩ : ∃ r, n - d = r + 1 := ⟨n - d - 1, by omega⟩
  rw [hr, Nat.add_mul, Nat.one_mul, Nat.add_sub_cancel]

theorem Inv.step (hc : c.Refines f P μ m) (h : Inv f P rounds o s)
    (hs : c.round rounds s a = some s') :
    Inv f P rounds o s' ∧ todo μ m rounds s' < todo μ m rounds s := by
  unfold round at hs
  cases a with
  | enter =>
    cases hi : s.inner with
    | some i => simp only [hi] at hs; cases hs
    | none =>
      simp only [hi] at hs
      split at hs
      · rename_i hlt
        obtain rfl := Option.some.inj hs
        have henter := hc.enter s.outer
        refine ⟨⟨h.outer, h.done_le, ?_⟩, ?_⟩
        · rintro i ⟨⟩
          exact ⟨hlt, henter.1⟩
        · simp only [todo, hi]
          rw [mul_rounds hlt]
          omega
      · cases hs
  | act a =>
    cases hi : s.inner with
    | none => simp only [hi] at hs; cases hs
    | some i =>
      simp only [hi, Option.map_eq_some_iff] at hs
      obtain ⟨i', hi', rfl⟩ := hs
      obtain ⟨hlt, hP⟩ := h.lt_of_inner i hi
      obtain ⟨hP', hμ⟩ := hc.step s.outer i a i' hP hi'
      refine ⟨⟨h.outer, h.done_le, ?_⟩, ?_⟩
      · rintro j ⟨⟩
        exact ⟨hlt, hP'⟩
      · simp only [todo, hi]
        omega
  | leave =>
    cases hi : s.inner with
    | none => simp only [hi] at hs; cases hs
    | some i =>
      simp only [hi, Option.map_eq_some_iff] at hs
      obtain ⟨o', ho', rfl⟩ := hs
      obtain ⟨hlt, hP⟩ := h.lt_of_inner i hi
      refine ⟨⟨?_, hlt, by intro j hj; cases hj⟩, ?_⟩
      · show o' = f^[s.done + 1] o
        rw [Function.iterate_succ_apply', ← h.outer]
        exact hc.leave s.outer i o' hP ho'
      · have hrounds : rounds - (s.done + 1) = rounds - s.done - 1 := by omega
        simp only [todo, hi, hrounds]
        omega

theorem Inv.exists_step (hc : c.Refines f P μ m) (h : Inv f P rounds o s)
    (hrun : ¬ (s.done = rounds ∧ s.inner = none)) : ∃ a s', c.round rounds s a = some s' := by
  cases hi : s.inner with
  | none =>
    have hlt : s.done < rounds := by
      have hle := h.done_le
      have hne : s.done ≠ rounds := fun he => hrun ⟨he, hi⟩
      omega
    exact ⟨.enter, { s with inner := some (c.enter s.outer) }, by simp [round, hi, hlt]⟩
  | some i =>
    rcases hc.progress s.outer i (h.lt_of_inner i hi).2 with ⟨o', ho'⟩ | ⟨a, i', hi'⟩
    · exact ⟨.leave, ⟨s.done + 1, o', none⟩, by simp [round, hi, ho']⟩
    · exact ⟨.act a, { s with inner := some i' }, by simp [round, hi, hi']⟩

/-- **A loop of calls that compute `f`.** Between two calls its state is what the sequential loop
comes to in as many rounds, some action is possible until all rounds are done, and there is a bound
on the actions that a run takes. -/
theorem Refines.run (hc : c.Refines f P μ m)
    (h : exec (c.round rounds) (start o) acts = some s) :
    s.outer = f^[s.done] o ∧ s.done ≤ rounds ∧
      (¬ (s.done = rounds ∧ s.inner = none) → ∃ a s', c.round rounds s a = some s') ∧
      acts.length ≤ rounds * (m + 2) := by
  have hinv : Inv f P rounds o s :=
    exec_inv (P := Inv f P rounds o) (inv_start rounds o)
      (fun s a s' h hs => (h.step hc hs).1) h
  have hle := exec_length_le (P := Inv f P rounds o) (todo μ m rounds) (inv_start rounds o)
    (fun s a s' h hs => h.step hc hs) h
  have hstart : todo μ m rounds (start o : State τ σ) = rounds * (m + 2) := rfl
  exact ⟨hinv.outer, hinv.done_le, hinv.exists_step hc, by omega⟩

/-- Some run makes all the rounds. -/
theorem Refines.exists_run (hc : c.Refines f P μ m) (rounds : Nat) (o : τ) :
    ∃ acts s, exec (c.round rounds) (start o) acts = some s ∧ s.done = rounds ∧ s.inner = none :=
  exists_exec (P := Inv f P rounds o) (todo μ m rounds) (inv_start rounds o)
    (fun _ _ _ h hs => h.step hc hs) fun _ h hnot => h.exists_step hc hnot

end Call

end IcsaDswp.Lib
