import IcsaDswp.Lib.Fold
import IcsaDswp.ParallelSum
import Mathlib.Algebra.BigOperators.Group.Finset.Basic
import Mathlib.Algebra.Group.Action.Defs
import Mathlib.Algebra.Order.BigOperators.Group.Finset
import Mathlib.Data.Nat.Prime.Defs
import Mathlib.Tactic.Ring

/-!
# What `pcqueue.cpp` sums up

`is_prime` and `f` of `src/test/pcqueue.cpp`, for any `MAX_F` and with the overflow of `int` and
`long`. What `f` returns is at most `MAX_F`, so that an element that has come through one stage is
small enough for all others (`f_spec`). With this `f`, and no spurious wake-ups, no number in any
thread of `parallel_sum` overflows, and the number that it returns is the mathematical one
(`parallelSum_exact`).
-/

namespace IcsaDswp.ParallelSum

open Lib

/-! ## The code -/

/-- How a call of `f` goes wrong. -/
inductive Fault where
  | overflow
  /-- The loop makes more turns than the fuel it was given. -/
  | outOfFuel
  deriving DecidableEq

/-- A result that has to fit in a signed word. -/
def signed (width : Nat) (x : Int) : Except Fault Int :=
  if -2 ^ (width - 1) ≤ x ∧ x < 2 ^ (width - 1) then .ok x else .error .overflow

/-- `for (int i = 2; i * i <= n; ++i) if (n % i == 0) return false;` from some `i` on. -/
def trialDivision (n : Int) : Nat → Int → Except Fault Bool
  | 0, _ => throw .outOfFuel
  | fuel + 1, i => do
    let square ← signed 32 (i * i)
    if square ≤ n then
      if n.tmod i = 0 then pure false
      else do
        let i ← signed 32 (i + 1)
        trialDivision n fuel i
    else pure true

def isPrime (n : Int) : Except Fault Bool := trialDivision n (n.toNat + 1) 2

/-- `result += is_prime((i * num + 1) % MAX_F);` -/
def count (MAX_F : Nat) (num result : Int) (i : Nat) : Except Fault Int := do
  let product ← signed 64 (i * num)
  let sum ← signed 64 (product + 1)
  let prime ← isPrime (sum.tmod MAX_F)
  signed 64 (result + prime.toNat)

def f (MAX_F : Nat) (num : Int) : Except Fault Int :=
  (List.range' 3 (MAX_F - 3)).foldlM (count MAX_F num) 0

/-! ## `is_prime` -/

/-- `is_prime` lets the numbers below two through. -/
def Passes (n : Nat) : Prop := n < 2 ∨ n.Prime

instance (n : Nat) : Decidable (Passes n) := inferInstanceAs (Decidable (_ ∨ _))

theorem signed_ok {width : Nat} {x : Int} (h : -2 ^ (width - 1) ≤ x) (h' : x < 2 ^ (width - 1)) :
    signed width x = .ok x :=
  if_pos ⟨h, h'⟩

/-- A turn of the loop of `is_prime`. The square of the first number above the root of `n` is still
an `int`. -/
theorem trialDivision_succ {n i : Nat} (hi : i ≤ 46340) (fuel : Nat) :
    trialDivision n (fuel + 1) i =
      if i * i ≤ n then
        if i ∣ n then .ok false else trialDivision n fuel ↑(i + 1)
      else .ok true := by
  have hsquare : i * i ≤ 46340 * 46340 := Nat.mul_le_mul hi hi
  have hok : signed 32 ((i : Int) * i) = .ok ((i * i : Nat) : Int) := by
    rw [← Nat.cast_mul]
    exact signed_ok (by omega) (by omega)
  have hnext : signed 32 ((i : Int) + 1) = .ok ((i + 1 : Nat) : Int) :=
    signed_ok (by omega) (by omega)
  have hmod : (n : Int).tmod i = 0 ↔ i ∣ n := by
    rw [← Int.dvd_iff_tmod_eq_zero, Int.natCast_dvd_natCast]
  rw [trialDivision, hok, hnext]
  show (if ((i * i : Nat) : Int) ≤ n then
    if (n : Int).tmod i = 0 then .ok false else trialDivision n fuel ↑(i + 1) else .ok true) = _
  simp only [Nat.cast_le, hmod]

theorem trialDivision_spec {n i fuel : Nat} (hn : n < 46340 ^ 2) (hi : 2 ≤ i) (hi' : i ≤ 46340)
    (hfuel : n + 1 < fuel + i * i) (hpos : 0 < fuel) :
    ∃ r, trialDivision n fuel i = .ok r ∧ (r = true ↔ ∀ m, i ≤ m → m * m ≤ n → ¬ m ∣ n) := by
  induction fuel generalizing i with
  | zero => omega
  | succ fuel ih =>
    rw [trialDivision_succ hi']
    by_cases hle : i * i ≤ n
    · rw [if_pos hle]
      by_cases hdvd : i ∣ n
      · rw [if_pos hdvd]
        exact ⟨false, rfl, by simpa using ⟨i, le_rfl, hle, hdvd⟩⟩
      · have hlt : i < 46340 := by
          by_contra hge
          obtain rfl : i = 46340 := by omega
          omega
        have hgrow : (i + 1) * (i + 1) = i * i + 2 * i + 1 := by ring
        rw [if_neg hdvd]
        obtain ⟨r, hr, hiff⟩ := ih (i := i + 1) (by omega) hlt (by omega) (by omega)
        refine ⟨r, hr, hiff.trans ⟨fun h m hm hmn => ?_, fun h m hm => h m (by omega)⟩⟩
        rcases hm.eq_or_lt with rfl | hm
        · exact hdvd
        · exact h m hm hmn
    · rw [if_neg hle]
      refine ⟨true, rfl, ⟨fun _ m hm hmn => ?_, fun _ => rfl⟩⟩
      have := Nat.mul_le_mul hm hm
      omega

theorem isPrime_spec {n : Nat} (hn : n < 46340 ^ 2) : isPrime n = .ok (decide (Passes n)) := by
  have hfuel : n + 1 < (n + 1) + 2 * 2 := by omega
  obtain ⟨r, hr, hiff⟩ := trialDivision_spec hn le_rfl (by omega) hfuel n.succ_pos
  have hpasses : r = true ↔ Passes n := by
    rw [hiff, Passes, Nat.prime_def_le_sqrt]
    simp only [Nat.le_sqrt]
    constructor
    · intro h
      rcases Nat.lt_or_ge n 2 with hn | hn
      · exact .inl hn
      · exact .inr ⟨hn, h⟩
    · rintro (hn | ⟨-, h⟩)
      · intro m hm hmn
        have := Nat.mul_le_mul hm hm
        omega
      · exact h
  rw [isPrime, Int.toNat_natCast]
  refine hr.trans (congrArg _ ?_)
  rw [Bool.eq_iff_iff, hpasses, decide_eq_true_iff]

/-! ## `f` -/

/-- How many of the numbers pass that `f` tries in its first turns. -/
def passed (MAX_F num : Nat) (is : List Nat) : Nat :=
  is.countP fun i => Passes ((i * num + 1) % MAX_F)

/-- What `f` returns. -/
def value (MAX_F num : Nat) : Nat := passed MAX_F num (List.range' 3 (MAX_F - 3))

theorem value_le (MAX_F num : Nat) : value MAX_F num ≤ MAX_F := by
  have hle : value MAX_F num ≤ (List.range' 3 (MAX_F - 3)).length := List.countP_le_length
  rw [List.length_range'] at hle
  omega

section F

variable {MAX_F num : Nat}

theorem count_spec (hmax : MAX_F ≤ 46340 ^ 2) (hnum : MAX_F * num < 2 ^ 63) {i r : Nat}
    (hi : i < MAX_F) (hr : r ≤ MAX_F) :
    count MAX_F num r i = .ok ↑(r + (decide (Passes ((i * num + 1) % MAX_F))).toNat) := by
  have hproduct : i * num + num ≤ MAX_F * num := by
    have := Nat.mul_le_mul_right num hi
    rwa [Nat.succ_mul] at this
  have hsmall : i * num + 1 < 2 ^ 63 := by
    rcases num.eq_zero_or_pos with rfl | hpos
    · omega
    · omega
  have h₁ : signed 64 ((i : Int) * num) = .ok ((i * num : Nat) : Int) := by
    rw [← Nat.cast_mul]
    exact signed_ok (by omega) (by omega)
  have h₂ : signed 64 (((i * num : Nat) : Int) + 1) = .ok ((i * num + 1 : Nat) : Int) :=
    signed_ok (by omega) (by omega)
  have h₃ : isPrime (((i * num + 1 : Nat) : Int).tmod MAX_F) =
      .ok (decide (Passes ((i * num + 1) % MAX_F))) := by
    rw [← Int.ofNat_tmod]
    exact isPrime_spec ((Nat.mod_lt _ (by omega)).trans_le hmax)
  have hone := Bool.toNat_le (decide (Passes ((i * num + 1) % MAX_F)))
  refine bind_ok.mpr ⟨_, h₁, bind_ok.mpr ⟨_, h₂, bind_ok.mpr ⟨_, h₃, ?_⟩⟩⟩
  rw [← Nat.cast_add]
  exact signed_ok (by omega) (by omega)

theorem passed_snoc (is : List Nat) (i : Nat) :
    passed MAX_F num (is ++ [i]) =
      passed MAX_F num is + (decide (Passes ((i * num + 1) % MAX_F))).toNat := by
  rw [passed, List.countP_append, List.countP_singleton]
  cases decide (Passes ((i * num + 1) % MAX_F)) <;> rfl

/-- **`f` counts.** Neither the products nor the numbers that `is_prime` squares overflow. -/
theorem f_spec (hmax : MAX_F ≤ 46340 ^ 2) (hnum : MAX_F * num < 2 ^ 63) :
    f MAX_F num = .ok (value MAX_F num) := by
  obtain ⟨r, hr, rfl⟩ : ∃ r, f MAX_F num = .ok r ∧ r = (value MAX_F num : Int) := by
    refine foldlM_total (fun done r => r = (passed MAX_F num done : Int)) ?_ rfl
    rintro done i rest _ hl rfl
    have hi : i ∈ List.range' 3 (MAX_F - 3) := hl ▸ List.mem_append_right done List.mem_cons_self
    have hdone : passed MAX_F num done ≤ done.length := List.countP_le_length
    have hlen := congrArg List.length hl
    rw [List.length_range', List.length_append] at hlen
    rw [List.mem_range'_1] at hi
    exact ⟨_, count_spec hmax hnum (by omega) (by omega), by rw [passed_snoc]⟩
  exact hr

example : f 10 4 = .ok 6 := by decide

end F

/-! ## The pipeline -/

/-- What the compiler makes of `f`: nothing is known of it where `f` goes wrong. -/
def Computes (MAX_F : Nat) (g : Long → Long) : Prop :=
  ∀ x r, f MAX_F x.toInt = .ok r → (g x).toInt = r

/-- The argument of the call of `f` that a thread makes in its next section. -/
def State.call (n : Nat) (s : State) : Thread → Option Int
  | .main =>
    match s.main with
    | .produce i => if i < n then some i else none
    | _ => none
  | .consumer1 =>
    match s.c1 with
    | .produce _ el => some el.toInt
    | _ => none
  | .consumer2 =>
    match s.c2 with
    | .produce _ el => some el.toInt
    | _ => none
  | .consumer3 =>
    match s.c3 with
    | .consume i => if i < n then s.q3.data.head?.map Int64.toInt else none
    | _ => none

/-- What `sequential_sum` is in mathematical numbers. -/
def exactSum (MAX_F n : Nat) : Nat :=
  ∑ i ∈ Finset.range n, value MAX_F (value MAX_F (value MAX_F (value MAX_F i)))

section Pipeline

variable {MAX_F n : Nat} {g : Long → Long} {N garbage : Long}

theorem toInt_of_computes (hmax : MAX_F ≤ 46340 ^ 2) (hg : Computes MAX_F g) {x : Long} {m : Nat}
    (hx : x.toInt = m) (hm : MAX_F * m < 2 ^ 63) : (g x).toInt = value MAX_F m :=
  hg x _ (hx ▸ f_spec hmax hm)

/-- A number that `f` has returned can be given to `f` again. -/
theorem mul_value_lt (hmax : MAX_F ≤ 46340 ^ 2) (m : Nat) :
    MAX_F * value MAX_F m < 2 ^ 63 := by
  have hle : MAX_F * value MAX_F m ≤ 46340 ^ 2 * 46340 ^ 2 :=
    Nat.mul_le_mul hmax ((value_le MAX_F m).trans hmax)
  omega

theorem mul_index_lt (hmax : MAX_F ≤ 46340 ^ 2) {i : Nat} (hi : i < 2 ^ 31) :
    MAX_F * i < 2 ^ 63 := by
  have hle : MAX_F * i ≤ 46340 ^ 2 * 2 ^ 31 := Nat.mul_le_mul hmax hi.le
  omega

theorem first_toInt (hmax : MAX_F ≤ 46340 ^ 2) (hg : Computes MAX_F g) {i : Nat} (hi : i < 2 ^ 31) :
    (first g i).toInt = value MAX_F i :=
  toInt_of_computes hmax hg (Int64.toInt_ofNat_of_lt (by omega)) (mul_index_lt hmax hi)

theorem second_toInt (hmax : MAX_F ≤ 46340 ^ 2) (hg : Computes MAX_F g) {i : Nat}
    (hi : i < 2 ^ 31) : ((g ∘ first g) i).toInt = value MAX_F (value MAX_F i) :=
  toInt_of_computes hmax hg (first_toInt hmax hg hi) (mul_value_lt hmax i)

theorem third_toInt (hmax : MAX_F ≤ 46340 ^ 2) (hg : Computes MAX_F g) {i : Nat} (hi : i < 2 ^ 31) :
    ((g ∘ g ∘ first g) i).toInt = value MAX_F (value MAX_F (value MAX_F i)) :=
  toInt_of_computes hmax hg (second_toInt hmax hg hi) (mul_value_lt hmax _)

theorem exactSum_le (MAX_F n : Nat) : exactSum MAX_F n ≤ n * MAX_F := by
  have := Finset.sum_le_card_nsmul (Finset.range n)
    (fun i => value MAX_F (value MAX_F (value MAX_F (value MAX_F i)))) MAX_F
    fun i _ => value_le MAX_F _
  rwa [Finset.card_range, smul_eq_mul] at this

theorem exactSum_lt (hmax : MAX_F ≤ 46340 ^ 2) (hn : n ≤ 2 ^ 31) : exactSum MAX_F n < 2 ^ 63 := by
  have hle : n * MAX_F ≤ 2 ^ 31 * 46340 ^ 2 := Nat.mul_le_mul hn hmax
  have := exactSum_le MAX_F n
  omega

/-- The sum does not wrap. -/
theorem sumTo_toInt (hmax : MAX_F ≤ 46340 ^ 2) (hg : Computes MAX_F g) (hn : n ≤ 2 ^ 31) :
    (sumTo g n).toInt = exactSum MAX_F n := by
  induction n with
  | zero => rfl
  | succ n ih =>
    have hlast : (g ((g ∘ g ∘ first g) n)).toInt =
        value MAX_F (value MAX_F (value MAX_F (value MAX_F n))) :=
      toInt_of_computes hmax hg (third_toInt hmax hg hn) (mul_value_lt hmax _)
    have hsucc : exactSum MAX_F (n + 1) =
        exactSum MAX_F n + value MAX_F (value MAX_F (value MAX_F (value MAX_F n))) :=
      Finset.sum_range_succ _ n
    have hlt := exactSum_lt hmax hn
    rw [sumTo_succ, Int64.toInt_add, ih (by omega), hlast, hsucc, ← Nat.cast_add, ← hsucc]
    exact Int.bmod_eq_of_le_mul_two (by omega) (by omega)

/-- The element that `consumer3` is about to take. -/
theorem State.Inv.head_q3 {s : State} (h : s.Inv g n) {i : Nat} (hc3 : s.c3 = .consume i)
    {el : Long} (hel : s.q3.data.head? = some el) : el = (g ∘ g ∘ first g) i := by
  have htaken : s.c3.taken n = i := by rw [hc3]; rfl
  rw [h.q3.data, htaken] at hel
  rcases Nat.lt_or_ge i (s.c2.given n) with hlt | hge
  · rw [List.Ico.eq_cons hlt] at hel
    exact (Option.some.inj hel).symm
  · rw [List.Ico.eq_nil_of_le hge] at hel
    cases hel

/-- In every state that is reached, `f` goes well for the thread whose turn is next. -/
theorem State.Inv.f_call {s : State} (h : s.Inv g n) (hmax : MAX_F ≤ 46340 ^ 2)
    (hg : Computes MAX_F g) (hn : n ≤ 2 ^ 31) {t : Thread} {x : Int} (hx : s.call n t = some x) :
    ∃ r, f MAX_F x = .ok r ∧
      (t = .consumer3 → -2 ^ 63 ≤ s.sum.toInt + r ∧ s.sum.toInt + r < 2 ^ 63) := by
  cases t with
  | main =>
    simp only [State.call] at hx
    split at hx
    · next i hmain =>
      obtain ⟨hi, hx⟩ := Option.ite_none_right_eq_some.mp hx
      obtain rfl := Option.some.inj hx
      exact ⟨_, f_spec hmax (mul_index_lt hmax (by omega)), nofun⟩
    · cases hx
  | consumer1 =>
    simp only [State.call] at hx
    split at hx
    · next i el hc1 =>
      have hok := h.c1
      rw [hc1] at hok
      obtain ⟨hi, rfl⟩ := hok
      obtain rfl := Option.some.inj hx
      rw [first_toInt hmax hg (by omega)]
      exact ⟨_, f_spec hmax (mul_value_lt hmax i), nofun⟩
    · cases hx
  | consumer2 =>
    simp only [State.call] at hx
    split at hx
    · next i el hc2 =>
      have hok := h.c2
      rw [hc2] at hok
      obtain ⟨hi, rfl⟩ := hok
      obtain rfl := Option.some.inj hx
      rw [second_toInt hmax hg (by omega)]
      exact ⟨_, f_spec hmax (mul_value_lt hmax _), nofun⟩
    · cases hx
  | consumer3 =>
    simp only [State.call] at hx
    split at hx
    · next i hc3 =>
      obtain ⟨hi, hx⟩ := Option.ite_none_right_eq_some.mp hx
      obtain ⟨el, hel, rfl⟩ := Option.map_eq_some_iff.mp hx
      have hsum := h.sum (by rw [hc3]; rfl)
      rw [hc3] at hsum
      have hsucc : exactSum MAX_F (i + 1) =
          exactSum MAX_F i + value MAX_F (value MAX_F (value MAX_F (value MAX_F i))) :=
        Finset.sum_range_succ _ i
      have hlt := exactSum_lt (n := i + 1) hmax (by omega)
      rw [h.head_q3 hc3 hel, third_toInt hmax hg (by omega), hsum]
      refine ⟨_, f_spec hmax (mul_value_lt hmax _), fun _ => ?_⟩
      show _ ≤ (sumTo g i).toInt + _ ∧ (sumTo g i).toInt + _ < _
      rw [sumTo_toInt hmax hg (by omega)]
      omega
    · cases hx

/-- **`parallel_sum` adds up numbers, not words.** The `N` that `main` reads is an `int`. However
the threads take turns, if signals alone wake them, no call of `f` goes wrong and no sum overflows,
and what is returned is the number of times that `is_prime` lets a number through in the last stage.
-/
theorem parallelSum_exact (hmax : MAX_F ≤ 46340 ^ 2) (hg : Computes MAX_F g)
    (hN : N.toInt < 2 ^ 31) {acts : List Act} {s : State}
    (h : exec (step g N) (init garbage) acts = some s) :
    (∀ t x, s.call (iterations N) t = some x →
      ∃ r, f MAX_F x = .ok r ∧
        (t = .consumer3 → -2 ^ 63 ≤ s.sum.toInt + r ∧ s.sum.toInt + r < 2 ^ 63)) ∧
      (s.main = .returned → s.sum.toInt = exactSum MAX_F (iterations N)) := by
  have hn : iterations N ≤ 2 ^ 31 := by
    unfold iterations
    omega
  have hinv := inv_exec h
  refine ⟨fun t x hx => hinv.f_call hmax hg hn hx, fun hret => ?_⟩
  have hc3 := hinv.joined3 (hinv.joined2 (hinv.joined1 hret))
  have hsum := hinv.sum (by rw [hc3]; rfl)
  rw [hc3] at hsum
  rw [hsum]
  exact sumTo_toInt hmax hg hn

end Pipeline

/-- An `f` that returns zero where the one of the source goes wrong. -/
def orZero (MAX_F : Nat) (x : Long) : Long :=
  match f MAX_F x.toInt with
  | .ok r => Int64.ofInt r
  | .error _ => 0

theorem signed_range {width : Nat} {x r : Int} (h : signed width x = .ok r) :
    -2 ^ (width - 1) ≤ r ∧ r < 2 ^ (width - 1) := by
  unfold signed at h
  split at h
  · next hx => exact Except.ok.inj h ▸ hx
  · cases h

theorem f_range {MAX_F : Nat} {num r : Int} (h : f MAX_F num = .ok r) :
    -2 ^ 63 ≤ r ∧ r < 2 ^ 63 := by
  refine foldlM_inv (fun _ r => -2 ^ 63 ≤ r ∧ r < 2 ^ 63) ?_ (by omega) h
  intro _ i r r' _ hr
  obtain ⟨_, -, hr⟩ := bind_ok.mp hr
  obtain ⟨_, -, hr⟩ := bind_ok.mp hr
  obtain ⟨_, -, hr⟩ := bind_ok.mp hr
  exact signed_range hr

theorem computes_orZero (MAX_F : Nat) : Computes MAX_F (orZero MAX_F) := by
  intro x r hr
  rw [orZero, hr]
  exact Int64.toInt_ofInt_of_le (f_range hr).1 (f_range hr).2

theorem parallelSum_exact_threeElements :
    ∃ s, exec (step (orZero 10000) 3) (init 5) threeElements = some s ∧ s.main = .returned ∧
      (∀ t x, s.call (iterations 3) t = some x →
        ∃ r, f 10000 x = .ok r ∧
          (t = .consumer3 → -2 ^ 63 ≤ s.sum.toInt + r ∧ s.sum.toInt + r < 2 ^ 63)) ∧
      (s.main = .returned → s.sum.toInt = exactSum 10000 (iterations 3)) := by
  have hrun : (exec (step (orZero 10000) 3) (init 5) threeElements).map (·.main) =
      some .returned := by
    decide +kernel
  obtain ⟨s, hs, hret⟩ := Option.map_eq_some_iff.mp hrun
  exact ⟨s, hs, hret, parallelSum_exact (by omega) (computes_orZero 10000) (by decide) hs⟩

end IcsaDswp.ParallelSum
