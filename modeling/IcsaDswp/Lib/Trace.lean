import Mathlib.Data.List.Infix
import Mathlib.Tactic.Common

/-!
# Runs of concurrent programs

`step s a` is the state after the atomic action `a`, for an `a` that is enabled in `s`; which
threads act when is in the choice of the actions. `exec` performs a list of them, the latest first.
`exec_inv` is the invariant rule, `exec_inv_run` the one for what also depends on the actions taken. `exec_good_iff` tells the runs that stay in good states by the
actions they take, and `exec_length_le` bounds the runs of a program whose actions use something up.
-/

namespace IcsaDswp.Lib

variable {σ Act : Type} {step : σ → Act → Option σ} {init s s' : σ} {a : Act} {acts : List Act}

/-- The state after the actions, the latest first, if each was enabled. -/
def exec (step : σ → Act → Option σ) (init : σ) : List Act → Option σ
  | [] => some init
  | a :: earlier => (exec step init earlier).bind fun s => step s a

theorem exec_cons :
    exec step init (a :: acts) = some s' ↔
      ∃ s, exec step init acts = some s ∧ step s a = some s' :=
  Option.bind_eq_some_iff

/-- What every action preserves, of the state and the run up to it, holds along every run. -/
theorem exec_inv_run {P : List Act → σ → Prop} (h₀ : P [] init)
    (hstep : ∀ acts s a s', P acts s → step s a = some s' → P (a :: acts) s')
    (h : exec step init acts = some s) : P acts s := by
  induction acts generalizing s with
  | nil =>
    obtain rfl : init = s := Option.some.inj h
    exact h₀
  | cons a acts ih =>
    obtain ⟨s₁, h₁, hs⟩ := exec_cons.mp h
    exact hstep acts s₁ a s (ih h₁) hs

/-- What every action preserves holds in all states that are reached. -/
theorem exec_inv {P : σ → Prop} (h₀ : P init)
    (hstep : ∀ s a s', P s → step s a = some s' → P s') (h : exec step init acts = some s) :
    P s :=
  exec_inv_run (P := fun _ => P) h₀ (fun _ => hstep) h

section Good

variable {Inv Good : σ → Prop} {Ok : σ → Act → Prop}

/-- Every action on the way was taken in a state that `Ok` allows. -/
def OkThroughout (step : σ → Act → Option σ) (init : σ) (Ok : σ → Act → Prop)
    (acts : List Act) : Prop :=
  ∀ a earlier s, a :: earlier <:+ acts → exec step init earlier = some s → Ok s a

/-- All states on the way are good. -/
def GoodThroughout (step : σ → Act → Option σ) (init : σ) (Good : σ → Prop)
    (acts : List Act) : Prop :=
  ∀ earlier s, earlier <:+ acts → exec step init earlier = some s → Good s

theorem OkThroughout.tail (h : OkThroughout step init Ok (a :: acts)) :
    OkThroughout step init Ok acts :=
  fun b earlier s hb => h b earlier s (hb.trans (List.suffix_cons a acts))

theorem okThroughout_nil : OkThroughout step init Ok [] :=
  fun a earlier _ hsuf => absurd (List.suffix_nil.mp hsuf) (List.cons_ne_nil a earlier)

theorem OkThroughout.cons (h : OkThroughout step init Ok acts) (hs : exec step init acts = some s)
    (hok : Ok s a) : OkThroughout step init Ok (a :: acts) := by
  intro b earlier s₁ hsuf h₁
  rcases List.suffix_cons_iff.mp hsuf with he | hsuf
  · obtain ⟨rfl, rfl⟩ := List.cons.inj he
    obtain rfl : s = s₁ := Option.some.inj (hs.symm.trans h₁)
    exact hok
  · exact h b earlier s₁ hsuf h₁

theorem GoodThroughout.tail (h : GoodThroughout step init Good (a :: acts)) :
    GoodThroughout step init Good acts :=
  fun earlier s hs => h earlier s (hs.trans (List.suffix_cons a acts))

theorem exec_inv_of_ok (h₀ : Inv init)
    (hkeep : ∀ s a s', Inv s → step s a = some s' → Ok s a → Inv s')
    (hok : OkThroughout step init Ok acts) (h : exec step init acts = some s) : Inv s := by
  induction acts generalizing s with
  | nil =>
    obtain rfl : init = s := Option.some.inj h
    exact h₀
  | cons a acts ih =>
    obtain ⟨s₁, h₁, hs⟩ := exec_cons.mp h
    exact hkeep s₁ a s (ih hok.tail h₁) hs (hok a acts s₁ List.suffix_rfl h₁)

/-- Where the allowed actions keep an invariant and any other one leads to a bad state, a run stays
in good states exactly when it takes allowed actions only. -/
theorem exec_good_iff (h₀ : Inv init) (hgood : ∀ s, Inv s → Good s)
    (hkeep : ∀ s a s', Inv s → step s a = some s' → Ok s a → Inv s')
    (hbreak : ∀ s a s', Inv s → step s a = some s' → ¬ Ok s a → ¬ Good s')
    (h : exec step init acts = some s) :
    GoodThroughout step init Good acts ↔ OkThroughout step init Ok acts := by
  constructor
  · intro hg
    induction acts generalizing s with
    | nil => exact okThroughout_nil
    | cons a acts ih =>
      obtain ⟨s₁, h₁, hs⟩ := exec_cons.mp h
      have hok := ih h₁ hg.tail
      refine hok.cons h₁ ?_
      by_contra hnot
      exact hbreak s₁ a s (exec_inv_of_ok h₀ hkeep hok h₁) hs hnot (hg _ s List.suffix_rfl h)
  · intro hok earlier s₁ hsuf h₁
    have hok' : OkThroughout step init Ok earlier :=
      fun b rest s₂ hb => hok b rest s₂ (hb.trans hsuf)
    exact hgood s₁ (exec_inv_of_ok h₀ hkeep hok' h₁)

/-- A run of allowed actions takes no more of them than it uses up of a measure. -/
theorem exec_length_le_of_ok (μ : σ → Nat) (h₀ : Inv init)
    (hstep : ∀ s a s', Inv s → step s a = some s' → Ok s a → Inv s' ∧ μ s' < μ s)
    (hok : OkThroughout step init Ok acts) (h : exec step init acts = some s) :
    acts.length + μ s ≤ μ init := by
  induction acts generalizing s with
  | nil =>
    obtain rfl : init = s := Option.some.inj h
    simp
  | cons a acts ih =>
    obtain ⟨s₁, h₁, hs⟩ := exec_cons.mp h
    have hinv : Inv s₁ :=
      exec_inv_of_ok h₀ (fun s a s' hs hs' hok => (hstep s a s' hs hs' hok).1) hok.tail h₁
    have hlt := (hstep s₁ a s hinv hs (hok a acts s₁ List.suffix_rfl h₁)).2
    have hle := ih hok.tail h₁
    rw [List.length_cons]
    omega

end Good

/-- A run takes no more actions than it uses up of a measure. -/
theorem exec_length_le {P : σ → Prop} (μ : σ → Nat) (h₀ : P init)
    (hstep : ∀ s a s', P s → step s a = some s' → P s' ∧ μ s' < μ s)
    (h : exec step init acts = some s) : acts.length + μ s ≤ μ init := by
  have hok : OkThroughout step init (fun _ _ => True) acts := fun _ _ _ _ _ => trivial
  exact exec_length_le_of_ok μ h₀ (fun s a s' hs hs' _ => hstep s a s' hs hs') hok h

/-- Where only final states are stuck, some run comes to one. -/
theorem exists_exec {P Final : σ → Prop} (μ : σ → Nat) (h₀ : P init)
    (hstep : ∀ s a s', P s → step s a = some s' → P s' ∧ μ s' < μ s)
    (hprogress : ∀ s, P s → ¬ Final s → ∃ a s', step s a = some s') :
    ∃ acts s, exec step init acts = some s ∧ Final s := by
  have hfrom : ∀ n acts s, μ s ≤ n → exec step init acts = some s → P s →
      ∃ acts s, exec step init acts = some s ∧ Final s := by
    intro n
    induction n with
    | zero =>
      intro acts s hle h hP
      by_cases hfinal : Final s
      · exact ⟨acts, s, h, hfinal⟩
      · obtain ⟨a, s', hs⟩ := hprogress s hP hfinal
        have hlt := (hstep s a s' hP hs).2
        omega
    | succ n ih =>
      intro acts s hle h hP
      by_cases hfinal : Final s
      · exact ⟨acts, s, h, hfinal⟩
      · obtain ⟨a, s', hs⟩ := hprogress s hP hfinal
        obtain ⟨hP', hlt⟩ := hstep s a s' hP hs
        exact ih (a :: acts) s' (by omega) (exec_cons.mpr ⟨s, h, hs⟩) hP'
  exact hfrom (μ init) [] init (le_refl _) rfl h₀

end IcsaDswp.Lib
