import Mathlib.Algebra.BigOperators.Intervals
import Mathlib.Data.BitVec
import Mathlib.Data.Nat.Fib.Basic
import Mathlib.Tactic.IntervalCases
import Mathlib.Tactic.NormNum.NatFib

/-!
# The sum of the even Fibonacci numbers

`src/test/even-fibonacci.cpp`, and `even-fibonacci-prof.cpp` in wider words, for any `MAX` and any
width of the words. As long as some Fibonacci number above `MAX`, from 2 on, fits in a word, no
addition wraps, the sum included, which is less than half of the number after the next one
(`two_mul_evenSum_lt`), and the loop ends with the sum of the even numbers up to `MAX`
(`main_prints`).
-/

namespace IcsaDswp.EvenFibonacci

open Nat (fib)

/-! ## The code -/

structure State (w : Nat) where
  a : BitVec w
  b : BitVec w
  c : BitVec w
  sum : BitVec w

def init (w : Nat) : State w := ⟨1, 1, 1 + 1, 0⟩

/-- The body of the loop. -/
def State.turn {w : Nat} (s : State w) : State w where
  sum := if s.c &&& 1 = 0 then s.sum + s.c else s.sum
  a := s.b
  b := s.c
  c := s.b + s.c

/-- `while (c <= MAX)` for at most `fuel` turns. -/
def loop {w : Nat} (MAX : BitVec w) : Nat → State w → Option (BitVec w)
  | 0, s => if s.c ≤ MAX then none else some s.sum
  | fuel + 1, s => if s.c ≤ MAX then loop MAX fuel s.turn else some s.sum

/-- No addition of the turn wraps. -/
def State.Exact {w : Nat} (s : State w) : Prop :=
  s.b.toNat + s.c.toNat < 2 ^ w ∧ (s.c &&& 1 = 0 → s.sum.toNat + s.c.toNat < 2 ^ w)

/-- The number that `main` prints. -/
def main {w : Nat} (MAX : BitVec w) (fuel : Nat) : Option (BitVec w) := loop MAX fuel (init w)

/-! ## Fibonacci numbers -/

/-- The sum of the even ones of the first `n` Fibonacci numbers. -/
def evenSum (n : Nat) : Nat := ∑ k ∈ Finset.range n, if fib k % 2 = 0 then fib k else 0

theorem evenSum_even {n : Nat} (h : fib n % 2 = 0) : evenSum (n + 1) = evenSum n + fib n := by
  rw [evenSum, Finset.sum_range_succ, if_pos h]
  rfl

theorem evenSum_odd {n : Nat} (h : fib n % 2 = 1) : evenSum (n + 1) = evenSum n := by
  rw [evenSum, Finset.sum_range_succ, if_neg (by omega)]
  rfl

/-- Every third Fibonacci number is even, and so much do they add up to. -/
theorem evenSum_third (j : Nat) : fib (3 * j) % 2 = 0 ∧ fib (3 * j + 1) % 2 = 1 ∧
    2 * evenSum (3 * j + 1) + 1 = fib (3 * j + 2) := by
  induction j with
  | zero => simp [evenSum]
  | succ j ih =>
    obtain ⟨heven, hodd, hsum⟩ := ih
    have h2 : fib (3 * j + 2) = fib (3 * j) + fib (3 * j + 1) := Nat.fib_add_two
    have h3 : fib (3 * j + 3) = fib (3 * j + 1) + fib (3 * j + 2) := Nat.fib_add_two
    have h4 : fib (3 * j + 4) = fib (3 * j + 2) + fib (3 * j + 3) := Nat.fib_add_two
    have h5 : fib (3 * j + 5) = fib (3 * j + 3) + fib (3 * j + 4) := Nat.fib_add_two
    have hs2 : evenSum (3 * j + 2) = evenSum (3 * j + 1) := evenSum_odd hodd
    have hs3 : evenSum (3 * j + 3) = evenSum (3 * j + 2) := evenSum_odd (by omega)
    have hs4 : evenSum (3 * j + 4) = evenSum (3 * j + 3) + fib (3 * j + 3) :=
      evenSum_even (by omega)
    show fib (3 * j + 3) % 2 = 0 ∧ fib (3 * j + 4) % 2 = 1 ∧
      2 * evenSum (3 * j + 4) + 1 = fib (3 * j + 5)
    omega

theorem two_mul_evenSum_lt (n : Nat) : 2 * evenSum n < fib (n + 1) := by
  obtain ⟨j, hj⟩ : ∃ j, n = 3 * j ∨ n = 3 * j + 1 ∨ n = 3 * j + 2 := ⟨n / 3, by omega⟩
  obtain ⟨heven, hodd, hsum⟩ := evenSum_third j
  have h2 : fib (3 * j + 2) = fib (3 * j) + fib (3 * j + 1) := Nat.fib_add_two
  have h3 : fib (3 * j + 3) = fib (3 * j + 1) + fib (3 * j + 2) := Nat.fib_add_two
  have hs1 : evenSum (3 * j + 1) = evenSum (3 * j) + fib (3 * j) := evenSum_even heven
  have hs2 : evenSum (3 * j + 2) = evenSum (3 * j + 1) := evenSum_odd hodd
  rcases hj with rfl | rfl | rfl
  · omega
  · show 2 * evenSum (3 * j + 1) < fib (3 * j + 2)
    omega
  · show 2 * evenSum (3 * j + 2) < fib (3 * j + 3)
    omega

open Classical in
/-- The even Fibonacci numbers up to `MAX`. -/
noncomputable def evenFibonacci (MAX : Nat) : Finset Nat :=
  {x ∈ Finset.range (MAX + 1) | x % 2 = 0 ∧ ∃ k, fib k = x}

/-- The number `n` is above `MAX` and no even one before it is. -/
theorem evenSum_eq {n MAX : Nat} (habove : MAX < fib n)
    (hbelow : ∀ k < n, fib k % 2 = 0 → fib k ≤ MAX) :
    evenSum n = ∑ x ∈ evenFibonacci MAX, x := by
  have hinj : Set.InjOn fib {k | k < n ∧ fib k % 2 = 0} := by
    intro k hk l hl he
    -- 1 is the only number that is there twice, and odd
    have htwo : ∀ i, fib i % 2 = 0 → i = 0 ∨ 2 ≤ i := fun i hi => by
      rcases i with _ | _ | i
      · exact .inl rfl
      · cases hi
      · exact .inr (by omega)
    rcases htwo k hk.2 with rfl | hk2
    · exact (Nat.fib_eq_zero.mp he.symm).symm
    rcases htwo l hl.2 with rfl | hl2
    · exact Nat.fib_eq_zero.mp he
    exact Nat.fib_strictMonoOn.injOn hk2 hl2 he
  have himage : evenFibonacci MAX = ((Finset.range n).filter fun k => fib k % 2 = 0).image fib := by
    ext x
    simp only [evenFibonacci, Finset.mem_filter, Finset.mem_range, Finset.mem_image]
    constructor
    · rintro ⟨hx, heven, k, rfl⟩
      refine ⟨k, ⟨?_, heven⟩, rfl⟩
      by_contra hk
      have := Nat.fib_mono (not_lt.mp hk)
      omega
    · rintro ⟨k, ⟨hk, heven⟩, rfl⟩
      exact ⟨Nat.lt_succ_of_le (hbelow k hk heven), heven, k, rfl⟩
  rw [himage, Finset.sum_image (by simpa [Set.InjOn] using hinj), evenSum, Finset.sum_filter]

/-! ## The loop -/

section Loop

variable {w : Nat} {n : Nat} {MAX : BitVec w} {s : State w}

/-- In front of the turn for the Fibonacci number `n`, and nothing has wrapped. -/
structure Reached (n : Nat) (s : State w) : Prop where
  b : s.b.toNat = fib (n - 1)
  c : s.c.toNat = fib n
  sum : s.sum.toNat = evenSum n

theorem toNat_one (hw : 2 < 2 ^ w) : (1 : BitVec w).toNat = 1 :=
  Nat.mod_eq_of_lt (one_lt_two.trans hw)

theorem reached_init (hw : 2 < 2 ^ w) : Reached 3 (init w) where
  b := toNat_one hw
  c := by
    show ((1 : BitVec w) + 1).toNat = 2
    rw [BitVec.toNat_add, toNat_one hw, Nat.mod_eq_of_lt hw]
  sum := by simp [init, evenSum, Finset.sum_range_succ]

theorem Reached.even_iff (h : Reached n s) (hw : 2 < 2 ^ w) : s.c &&& 1 = 0 ↔ fib n % 2 = 0 := by
  rw [← BitVec.toNat_inj, BitVec.toNat_and, toNat_one hw, Nat.and_one_is_mod, h.c]
  exact Iff.rfl

theorem two_lt_of_fib (hn : 3 ≤ n) (hwide : fib n < 2 ^ w) : 2 < 2 ^ w :=
  lt_of_le_of_lt (Nat.fib_mono hn) hwide

theorem Reached.exact (h : Reached n s) (hn : 3 ≤ n) (hwide : fib (n + 1) < 2 ^ w) : s.Exact := by
  have hnext : fib (n + 1) = fib (n - 1) + fib n := Nat.fib_add_one (by omega)
  rw [State.Exact, h.b, h.c, h.sum, ← hnext, h.even_iff (two_lt_of_fib (by omega) hwide)]
  refine ⟨hwide, fun heven => ?_⟩
  have hsum : 2 * evenSum (n + 1) < fib (n + 2) := two_mul_evenSum_lt (n + 1)
  have hlast : fib (n + 2) = fib n + fib (n + 1) := Nat.fib_add_two
  have hmono : fib n ≤ fib (n + 1) := Nat.fib_le_fib_succ
  rw [← evenSum_even heven]
  omega

theorem Reached.turn (h : Reached n s) (hn : 3 ≤ n) (hwide : fib (n + 1) < 2 ^ w) :
    Reached (n + 1) s.turn := by
  have hnext : fib (n + 1) = fib (n - 1) + fib n := Nat.fib_add_one (by omega)
  have heven := h.even_iff (two_lt_of_fib (by omega) hwide)
  obtain ⟨hc, hsum⟩ := h.exact hn hwide
  refine ⟨h.c, ?_, ?_⟩
  · show (s.b + s.c).toNat = _
    rw [BitVec.toNat_add, Nat.mod_eq_of_lt hc, h.b, h.c, hnext]
  · show (if s.c &&& 1 = 0 then s.sum + s.c else s.sum).toNat = _
    by_cases hzero : s.c &&& 1 = 0
    · rw [if_pos hzero, BitVec.toNat_add, Nat.mod_eq_of_lt (hsum hzero), h.sum, h.c,
        evenSum_even (heven.mp hzero)]
    · have hodd := mt heven.mpr hzero
      rw [if_neg hzero, h.sum, evenSum_odd (by omega)]

theorem Reached.le_iff (h : Reached n s) : s.c ≤ MAX ↔ fib n ≤ MAX.toNat := by
  rw [BitVec.le_def, h.c]

/-- The loop ends at the first number from `k` on that is above `MAX`. -/
theorem Reached.loop {k fuel : Nat} (h : Reached k s) (hk : 3 ≤ k) (hkn : k ≤ n)
    (hbelow : ∀ j < n, 3 ≤ j → fib j ≤ MAX.toNat) (habove : MAX.toNat < fib n)
    (hwide : fib n < 2 ^ w) (hfuel : n ≤ fuel + k) :
    ∃ r, EvenFibonacci.loop MAX fuel s = some r ∧ r.toNat = evenSum n := by
  induction fuel generalizing k s with
  | zero =>
    obtain rfl : k = n := by omega
    exact ⟨s.sum, if_neg (mt h.le_iff.mp habove.not_ge), h.sum⟩
  | succ fuel ih =>
    rcases hkn.eq_or_lt with rfl | hlt
    · exact ⟨s.sum, if_neg (mt h.le_iff.mp habove.not_ge), h.sum⟩
    · have hturn : s.c ≤ MAX := h.le_iff.mpr (hbelow k hlt hk)
      have hnext : fib (k + 1) ≤ fib n := Nat.fib_mono hlt
      rw [EvenFibonacci.loop, if_pos hturn]
      exact ih (h.turn hk (hnext.trans_lt hwide)) (by omega) hlt (by omega)

/-- As long as the loop goes on, its states are the ones that are reached. -/
theorem reached_iterate (hn : 3 ≤ n) (habove : MAX.toNat < fib n) (hwide : fib n < 2 ^ w) {k : Nat}
    (hgo : ∀ j < k, (State.turn^[j] (init w)).c ≤ MAX) :
    Reached (k + 3) (State.turn^[k] (init w)) ∧
      ((State.turn^[k] (init w)).c ≤ MAX → fib (k + 4) < 2 ^ w) := by
  have hnext : ∀ {k : Nat} {s : State w}, Reached (k + 3) s → s.c ≤ MAX → fib (k + 4) < 2 ^ w := by
    intro k s h hle
    have hlt : k + 3 < n := by
      by_contra hge
      have hmono : fib n ≤ fib (k + 3) := Nat.fib_mono (not_lt.mp hge)
      have hle := h.le_iff.mp hle
      omega
    exact (Nat.fib_mono hlt).trans_lt hwide
  suffices h : Reached (k + 3) (State.turn^[k] (init w)) from ⟨h, hnext h⟩
  induction k with
  | zero => exact reached_init (two_lt_of_fib hn hwide)
  | succ k ih =>
    have h := ih fun j hj => hgo j (by omega)
    rw [Function.iterate_succ_apply']
    exact h.turn (by omega) (hnext h (hgo k (by omega)))

/-- **As long as a Fibonacci number above `MAX` fits in a word, `main` prints the sum of the even
Fibonacci numbers up to `MAX`**, and no addition wraps on the way, neither `1 + 1` nor those of the
turns that the loop makes. -/
theorem main_prints (hwide : fib n < 2 ^ w) (habove : MAX.toNat < fib n) (hn : 3 ≤ n) {fuel : Nat}
    (hfuel : n ≤ fuel) :
    (∃ r, main MAX fuel = some r ∧ r.toNat = ∑ x ∈ evenFibonacci MAX.toNat, x) ∧ 1 + 1 < 2 ^ w ∧
      ∀ k, (∀ j ≤ k, (State.turn^[j] (init w)).c ≤ MAX) → (State.turn^[k] (init w)).Exact := by
  have hex : ∃ k, 3 ≤ k ∧ MAX.toNat < fib k := ⟨n, hn, habove⟩
  obtain ⟨hfirst, habove'⟩ := Nat.find_spec hex
  have hle : Nat.find hex ≤ n := Nat.find_min' hex ⟨hn, habove⟩
  have hbelow : ∀ j < Nat.find hex, 3 ≤ j → fib j ≤ MAX.toNat := fun j hj hj3 =>
    not_lt.mp fun hlt => Nat.find_min hex hj ⟨hj3, hlt⟩
  have hwide' : fib (Nat.find hex) < 2 ^ w := (Nat.fib_mono hle).trans_lt hwide
  have hw : 2 < 2 ^ w := two_lt_of_fib hn hwide
  refine ⟨?_, hw, fun k hgo => ?_⟩
  · obtain ⟨r, hr, hsum⟩ := (reached_init hw).loop le_rfl hfirst hbelow habove' hwide'
      (show Nat.find hex ≤ fuel + 3 by omega)
    refine ⟨r, hr, hsum.trans (evenSum_eq habove' fun k hk heven => ?_)⟩
    rcases Nat.lt_or_ge k 3 with hk3 | hk3
    · interval_cases k
      · exact Nat.zero_le _
      · cases heven
      · cases heven
    · exact hbelow k hk hk3
  · obtain ⟨h, hnext⟩ := reached_iterate hn habove hwide fun j hj => hgo j hj.le
    exact h.exact (by omega) (hnext (hgo k le_rfl))

/-- The program as it stands. -/
theorem main_prints_fourMillion :
    (∃ r : BitVec 32, main 4000000 34 = some r ∧ r.toNat = ∑ x ∈ evenFibonacci 4000000, x) ∧
      1 + 1 < 2 ^ 32 ∧ ∀ k, (∀ j ≤ k, (State.turn^[j] (init 32)).c ≤ 4000000) →
        (State.turn^[k] (init 32)).Exact :=
  main_prints (n := 34) (by norm_num) (by norm_num; decide) (by norm_num) le_rfl

end Loop

end IcsaDswp.EvenFibonacci
