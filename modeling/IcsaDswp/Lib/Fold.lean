import Mathlib.Data.List.Basic
import Mathlib.Data.List.Induction
import Mathlib.Tactic.Common

/-!
# Loops as folds

A `for` loop over a range is a left fold of its body; a body that can fail folds in `Except`.
`foldl_iff` is the rule for a predicate each iteration can only switch on, `foldlM_inv` the
partial-correctness rule of a failing loop and `foldlM_total` its total-correctness rule. Both
invariants see the iterations already done. `IsLast` is what a loop that overwrites leaves behind.
-/

namespace IcsaDswp.Lib

variable {σ ι ε α β : Type}

theorem bind_ok {x : Except ε α} {f : α → Except ε β} {b : β} :
    (x >>= f) = .ok b ↔ ∃ a, x = .ok a ∧ f a = .ok b := by
  cases x with
  | error e => simp [bind, Except.bind]
  | ok a => simp [bind, Except.bind]

theorem bind_error {x : Except ε α} {f : α → Except ε β} {e : ε} :
    (x >>= f) = .error e ↔ x = .error e ∨ ∃ a, x = .ok a ∧ f a = .error e := by
  cases x with
  | error e' => simp [bind, Except.bind]
  | ok a => simp [bind, Except.bind]

theorem map_ok {x : Except ε α} {f : α → β} {b : β} :
    x.map f = .ok b ↔ ∃ a, x = .ok a ∧ f a = b := by
  cases x with
  | error e => simp [Except.map]
  | ok a => simp [Except.map]

/-- A loop fails in one of its iterations. -/
theorem foldlM_error {f : σ → ι → Except ε σ} {l : List ι} {s : σ} {e : ε}
    (h : l.foldlM f s = .error e) :
    ∃ done i rest s₁, l = done ++ i :: rest ∧ done.foldlM f s = .ok s₁ ∧ f s₁ i = .error e := by
  induction l generalizing s with
  | nil => cases h
  | cons i l ih =>
    rw [List.foldlM_cons] at h
    rcases bind_error.mp h with h | ⟨s₁, h₁, h⟩
    · exact ⟨[], i, l, s, rfl, rfl, h⟩
    · obtain ⟨done, j, rest, s₂, rfl, h₂, hj⟩ := ih h
      refine ⟨i :: done, j, rest, s₂, rfl, ?_, hj⟩
      rw [List.foldlM_cons]
      exact bind_ok.mpr ⟨s₁, h₁, h₂⟩

/-- Bodies that agree wherever the first does not fail with `e` give the same loop, unless it
fails with `e`. -/
theorem foldlM_congr_ne {f f' : σ → ι → Except ε σ} {e : ε}
    (hf : ∀ s i, f s i ≠ .error e → f' s i = f s i) {l : List ι} {s : σ}
    (h : l.foldlM f s ≠ .error e) : l.foldlM f' s = l.foldlM f s := by
  induction l generalizing s with
  | nil => rfl
  | cons i l ih =>
    rw [List.foldlM_cons] at h ⊢
    rw [List.foldlM_cons, hf s i fun he => h (bind_error.mpr (.inl he))]
    cases hi : f s i with
    | error _ => rfl
    | ok s₁ => exact ih fun he => h (bind_error.mpr (.inr ⟨s₁, hi, he⟩))

/-- Bodies that agree in every iteration give the same loop. -/
theorem foldlM_congr {m : Type → Type} [Monad m] {f f' : σ → ι → m σ} {l : List ι}
    (h : ∀ s, ∀ i ∈ l, f s i = f' s i) (s : σ) : l.foldlM f s = l.foldlM f' s := by
  induction l generalizing s with
  | nil => rfl
  | cons i l ih =>
    rw [List.foldlM_cons, List.foldlM_cons, h s i (by simp)]
    exact congrArg _ (funext fun s => ih (fun s j hj => h s j (List.mem_cons_of_mem _ hj)) s)

/-- A loop whose body is a loop. -/
theorem foldlM_flatMap {m : Type → Type} [Monad m] [LawfulMonad m] {α : Type} (f : σ → α → m σ)
    (g : ι → List α) (l : List ι) (s : σ) :
    (l.flatMap g).foldlM f s = l.foldlM (fun s i => (g i).foldlM f s) s := by
  induction l generalizing s with
  | nil => rfl
  | cons i l ih =>
    rw [List.flatMap_cons, List.foldlM_append, List.foldlM_cons]
    exact congrArg _ (funext fun s => ih s)

/-- Iterations that commute wherever `P` holds can be made in any order. -/
theorem foldlM_perm {f : σ → ι → Except ε σ} {P : σ → Prop} {l l' : List ι} (hp : l.Perm l')
    (hstep : ∀ s s', ∀ i ∈ l, P s → f s i = .ok s' → P s')
    (hcomm : ∀ s, ∀ i ∈ l, ∀ j ∈ l, P s → (f s i >>= (f · j)) = (f s j >>= (f · i))) {s : σ}
    (hs : P s) : l.foldlM f s = l'.foldlM f s := by
  induction hp generalizing s with
  | nil => rfl
  | cons i _ ih =>
    rw [List.foldlM_cons, List.foldlM_cons]
    cases h : f s i with
    | error _ => rfl
    | ok s₁ =>
      exact ih (fun s s' j hj => hstep s s' j (List.mem_cons_of_mem _ hj))
        (fun s j hj k hk => hcomm s j (List.mem_cons_of_mem _ hj) k (List.mem_cons_of_mem _ hk))
        (hstep s s₁ i (by simp) hs h)
  | swap i j l =>
    simp only [List.foldlM_cons, ← bind_assoc]
    rw [hcomm s j (by simp) i (by simp) hs]
  | trans hp _ ih ih' =>
    rw [ih hstep hcomm hs]
    exact ih' (fun s s' i hi => hstep s s' i (hp.mem_iff.mpr hi))
      (fun s i hi j hj => hcomm s i (hp.mem_iff.mpr hi) j (hp.mem_iff.mpr hj)) hs

/-- A predicate that an iteration `i` switches on exactly when `Q i`. -/
theorem foldl_iff {f : σ → ι → σ} {P : σ → Prop} {Q : ι → Prop}
    (h : ∀ s i, P (f s i) ↔ P s ∨ Q i) (l : List ι) (s : σ) :
    P (l.foldl f s) ↔ P s ∨ ∃ i ∈ l, Q i := by
  induction l generalizing s with
  | nil => simp
  | cons i l ih => rw [List.foldl_cons, ih, h]; simp [or_assoc]

theorem foldl_inv_from {f : σ → ι → σ} (P : List ι → σ → Prop)
    (hstep : ∀ done i s, P done s → P (done ++ [i]) (f s i)) (l done : List ι) (s : σ)
    (h0 : P done s) : P (done ++ l) (l.foldl f s) := by
  induction l generalizing done s with
  | nil => simpa using h0
  | cons i l ih => simpa using ih (done ++ [i]) (f s i) (hstep done i s h0)

/-- What every iteration of a loop that cannot fail preserves. -/
theorem foldl_inv {f : σ → ι → σ} (P : List ι → σ → Prop)
    (hstep : ∀ done i s, P done s → P (done ++ [i]) (f s i)) {l : List ι} {s : σ} (h0 : P [] s) :
    P l (l.foldl f s) :=
  foldl_inv_from P hstep l [] s h0

theorem foldlM_inv_from {f : σ → ι → Except ε σ} (P : List ι → σ → Prop)
    (hstep : ∀ done i s s', P done s → f s i = .ok s' → P (done ++ [i]) s') (l done : List ι)
    (s s' : σ) (h0 : P done s) (h : l.foldlM f s = .ok s') : P (done ++ l) s' := by
  induction l generalizing done s with
  | nil =>
    cases h
    simpa using h0
  | cons i l ih =>
    rw [List.foldlM_cons] at h
    obtain ⟨s₁, h₁, h₂⟩ := bind_ok.mp h
    have := ih (done ++ [i]) s₁ (hstep done i s s₁ h0 h₁) h₂
    simpa using this

/-- What every successful iteration preserves holds when the loop ends. -/
theorem foldlM_inv {f : σ → ι → Except ε σ} (P : List ι → σ → Prop)
    (hstep : ∀ done i s s', P done s → f s i = .ok s' → P (done ++ [i]) s') {l : List ι}
    {s s' : σ} (h0 : P [] s) (h : l.foldlM f s = .ok s') : P l s' := by
  simpa using foldlM_inv_from P hstep l [] s s' h0 h

theorem foldlM_total_from {f : σ → ι → Except ε σ} (P : List ι → σ → Prop) {l : List ι}
    (hstep : ∀ done i rest s, l = done ++ i :: rest → P done s →
      ∃ s', f s i = .ok s' ∧ P (done ++ [i]) s') (todo done : List ι) (hl : l = done ++ todo)
    (s : σ) (h0 : P done s) : ∃ s', todo.foldlM f s = .ok s' ∧ P l s' := by
  induction todo generalizing done s with
  | nil => exact ⟨s, rfl, by simpa [hl] using h0⟩
  | cons i todo ih =>
    obtain ⟨s₁, h₁, hP⟩ := hstep done i todo s hl h0
    obtain ⟨s', h', hP'⟩ := ih (done ++ [i]) (by simpa using hl) s₁ hP
    exact ⟨s', by rw [List.foldlM_cons]; exact bind_ok.mpr ⟨s₁, h₁, h'⟩, hP'⟩

/-- A loop none of whose iterations fails under the invariant ends with the invariant. -/
theorem foldlM_total {f : σ → ι → Except ε σ} (P : List ι → σ → Prop) {l : List ι}
    (hstep : ∀ done i rest s, l = done ++ i :: rest → P done s →
      ∃ s', f s i = .ok s' ∧ P (done ++ [i]) s') {s : σ} (h0 : P [] s) :
    ∃ s', l.foldlM f s = .ok s' ∧ P l s' :=
  foldlM_total_from P hstep l [] rfl s h0

/-- A loop whose iterations each append to a list. -/
theorem foldlM_append_ok {f : List α → ι → Except ε (List α)} {g : ι → List α} {l : List ι}
    (h : ∀ i ∈ l, ∀ out, f out i = .ok (out ++ g i)) (out : List α) :
    l.foldlM f out = .ok (out ++ l.flatMap g) := by
  induction l generalizing out with
  | nil => simp [pure, Except.pure]
  | cons i l ih =>
    rw [List.foldlM_cons, h i (by simp)]
    show l.foldlM f (out ++ g i) = _
    rw [ih fun j hj => h j (List.mem_cons_of_mem _ hj)]
    simp

/-- A loop that maps each element to one that is in relation `R` to it. -/
theorem mapM_total {f : ι → Except ε α} {R : ι → α → Prop} {l : List ι}
    (h : ∀ i ∈ l, ∃ a, f i = .ok a ∧ R i a) : ∃ as, l.mapM f = .ok as ∧ List.Forall₂ R l as := by
  induction l with
  | nil => exact ⟨[], rfl, .nil⟩
  | cons i l ih =>
    obtain ⟨a, ha, hR⟩ := h i List.mem_cons_self
    obtain ⟨as, has, hall⟩ := ih fun j hj => h j (List.mem_cons_of_mem _ hj)
    refine ⟨a :: as, ?_, .cons hR hall⟩
    rw [List.mapM_cons]
    exact bind_ok.mpr ⟨a, ha, bind_ok.mpr ⟨as, has, rfl⟩⟩

/-! ## The last of a list -/

/-- `x` is the last element of `l` with `P`: the one a loop that overwrites leaves behind. -/
def IsLast (P : ι → Prop) (l : List ι) (x : ι) : Prop :=
  ∃ before after, l = before ++ x :: after ∧ P x ∧ ∀ y ∈ after, ¬ P y

section IsLast

variable {P Q : ι → Prop} {l : List ι} {x y : ι}

theorem IsLast.mem (h : IsLast P l x) : x ∈ l := by
  obtain ⟨before, after, rfl, -⟩ := h
  simp

theorem IsLast.prop (h : IsLast P l x) : P x := by
  obtain ⟨-, -, -, hx, -⟩ := h
  exact hx

theorem isLast_congr (h : ∀ x ∈ l, (P x ↔ Q x)) : IsLast P l x ↔ IsLast Q l x := by
  unfold IsLast
  refine exists_congr fun before => exists_congr fun after => and_congr_right fun hl => ?_
  subst hl
  rw [h x (by simp)]
  exact and_congr_right fun _ => forall₂_congr fun y hy => not_congr (h y (by simp [hy]))

@[simp] theorem isLast_nil : ¬ IsLast P [] x := by
  rintro ⟨before, after, h, -⟩
  simp at h

theorem isLast_snoc : IsLast P (l ++ [y]) x ↔ (P y ∧ x = y) ∨ (¬ P y ∧ IsLast P l x) := by
  constructor
  · rintro ⟨before, after, he, hx, hafter⟩
    rcases List.eq_nil_or_concat after with rfl | ⟨after, z, rfl⟩
    · obtain ⟨rfl, he⟩ := List.append_inj' he rfl
      obtain rfl : y = x := by simpa using he
      exact .inl ⟨hx, rfl⟩
    · rw [List.concat_eq_append, ← List.cons_append, ← List.append_assoc] at he
      obtain ⟨rfl, he⟩ := List.append_inj' he rfl
      obtain rfl : y = z := by simpa using he
      exact .inr ⟨hafter y (by simp), before, after, rfl, hx, fun w hw => hafter w (by simp [hw])⟩
  · rintro (⟨h, rfl⟩ | ⟨h, before, after, rfl, hx, hafter⟩)
    · exact ⟨l, [], rfl, h, by simp⟩
    · refine ⟨before, after ++ [y], by simp, hx, fun w hw => ?_⟩
      rcases List.mem_append.mp hw with hw | hw
      · exact hafter w hw
      · exact List.mem_singleton.mp hw ▸ h

theorem exists_isLast (hx : x ∈ l) (hP : P x) : ∃ y, IsLast P l y := by
  induction l using List.reverseRecOn with
  | nil => simp at hx
  | append_singleton l z ih =>
    by_cases hz : P z
    · exact ⟨z, isLast_snoc.mpr (.inl ⟨hz, rfl⟩)⟩
    · rcases List.mem_append.mp hx with hx | hx
      · obtain ⟨y, hy⟩ := ih hx
        exact ⟨y, isLast_snoc.mpr (.inr ⟨hz, hy⟩)⟩
      · exact absurd (List.mem_singleton.mp hx ▸ hP) hz

/-- Of the elements with `P`, that is the last which none with `P` follows. -/
theorem isLast_iff {before after : List ι} (hnot : x ∉ after) (hx : P x) :
    IsLast P (before ++ x :: after) x ↔ ∀ y ∈ after, ¬ P y := by
  constructor
  · intro h y hy hP
    induction after using List.reverseRecOn with
    | nil => simp at hy
    | append_singleton after z ih =>
      rw [← List.cons_append, ← List.append_assoc] at h
      rcases isLast_snoc.mp h with ⟨-, rfl⟩ | ⟨hz, h⟩
      · simp at hnot
      · rcases List.mem_append.mp hy with hy | hy
        · exact ih (fun hm => hnot (List.mem_append_left _ hm)) h hy
        · exact hz (List.mem_singleton.mp hy ▸ hP)
  · exact fun h => ⟨before, after, rfl, hx, h⟩

end IsLast

end IcsaDswp.Lib
