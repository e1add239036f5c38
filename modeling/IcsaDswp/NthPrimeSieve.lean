import IcsaDswp.NthPrime

/-!
# Prime numbers by a sieve

`src/test/nth-prime-sieve.cpp`, for any `N` and `MAX_PRIME` and in 32-bit arithmetic. A round
crosses out the multiples of a prime number and goes on to the next number that is not crossed out,
which is the next prime number (`Sieved.round`). Nothing stops that search at the end of the array:
the program prints the number of `nth-prime.cpp` when it is below `MAX_PRIME`, and otherwise it
reads past the array (`main_eq`). The numbers of `nth-prime.cpp` are those of `NthPrime`, where no
sum overflows.
-/

namespace IcsaDswp

open Lib

namespace NthPrimeSieve

/-! ## The code -/

/-- What a run can end in besides a number. -/
inductive SieveFault where
  /-- `sieve[p]` for a `p` past the end. -/
  | outOfBounds
  /-- A loop makes more turns than the fuel it was given. -/
  | outOfFuel
  deriving DecidableEq, Repr

/-- The values of a `uint`. -/
def uintSize : Nat := 2 ^ 32

/-- The array `sieve` and `p`. -/
structure State where
  sieve : Nat → Bool
  p : Nat

def init : State := ⟨fun k => k ≠ 0 && k ≠ 1, 2⟩

/-- `for (uint i = 2; p * i < MAX_PRIME; ++i) sieve[p * i] = false;` from some `i` on. -/
def crossOut (MAX_PRIME p : Nat) : Nat → Nat → (Nat → Bool) → Except SieveFault (Nat → Bool)
  | 0, _, _ => .error .outOfFuel
  | fuel + 1, i, sieve =>
    if p * i % uintSize < MAX_PRIME then
      crossOut MAX_PRIME p fuel ((i + 1) % uintSize)
        (Function.update sieve (p * i % uintSize) false)
    else .ok sieve

/-- `while (!sieve[++p]) ;` -/
def advance (MAX_PRIME : Nat) (sieve : Nat → Bool) : Nat → Nat → Except SieveFault Nat
  | 0, _ => .error .outOfFuel
  | fuel + 1, p =>
    let p := (p + 1) % uintSize
    if p < MAX_PRIME then
      if sieve p then .ok p else advance MAX_PRIME sieve fuel p
    else .error .outOfBounds

/-- One turn of the loop over `count`. -/
def round (MAX_PRIME fuel : Nat) (s : State) : Except SieveFault State := do
  let sieve ← crossOut MAX_PRIME s.p fuel 2 s.sieve
  let p ← advance MAX_PRIME sieve fuel s.p
  pure ⟨sieve, p⟩

/-- The number that `main` prints. -/
def main (N MAX_PRIME fuel : Nat) : Except SieveFault Nat := do
  let s ← (List.range' 1 (N - 1)).foldlM (fun s _ => round MAX_PRIME fuel s) init
  pure s.p

/-! ## One round -/

section Round

variable {MAX_PRIME fuel : Nat}

/-- The products stay below `2 * MAX_PRIME`, so that none wraps before the loop ends. -/
theorem crossOut_spec (hmax : 2 * MAX_PRIME ≤ uintSize) {p : Nat} (hp : 2 ≤ p)
    (hpmax : p < MAX_PRIME) {i : Nat} (hi : 2 ≤ i) (hprev : p * (i - 1) < MAX_PRIME)
    (hfuel : MAX_PRIME < fuel + i) (sieve : Nat → Bool) :
    ∃ sieve', crossOut MAX_PRIME p fuel i sieve = .ok sieve' ∧
      ∀ k < MAX_PRIME, sieve' k = true ↔ sieve k = true ∧ ¬ (p ∣ k ∧ p * i ≤ k) := by
  induction fuel generalizing i sieve with
  | zero =>
    have hle : 2 * (i - 1) ≤ p * (i - 1) := Nat.mul_le_mul_right (i - 1) hp
    omega
  | succ fuel ih =>
    have hstep : p * i = p * (i - 1) + p := by
      obtain ⟨j, rfl⟩ : ∃ j, i = j + 1 := ⟨i - 1, by omega⟩
      rw [Nat.add_sub_cancel]
      ring
    have hle : 2 * i ≤ p * i := Nat.mul_le_mul_right i hp
    have hwrap : p * i % uintSize = p * i := Nat.mod_eq_of_lt (by omega)
    rw [crossOut, hwrap]
    by_cases hlt : p * i < MAX_PRIME
    · have hnext : (i + 1) % uintSize = i + 1 := Nat.mod_eq_of_lt (by omega)
      rw [if_pos hlt, hnext]
      obtain ⟨sieve', hok, h⟩ := ih (i := i + 1) (by omega) (by simpa using hlt) (by omega)
        (Function.update sieve (p * i) false)
      refine ⟨sieve', hok, fun k hk => ?_⟩
      rw [h k hk]
      by_cases hki : k = p * i
      · subst hki
        simp
      · rw [Function.update_of_ne hki]
        refine and_congr_right fun _ => not_congr (and_congr_right fun hdvd => ?_)
        obtain ⟨j, rfl⟩ := hdvd
        have hpos : 0 < p := by omega
        have hne : j ≠ i := fun hj => hki (by rw [hj])
        rw [Nat.mul_le_mul_left_iff hpos, Nat.mul_le_mul_left_iff hpos]
        omega
    · rw [if_neg hlt]
      refine ⟨sieve, rfl, fun k hk => ?_⟩
      have hnot : ¬ (p ∣ k ∧ p * i ≤ k) := fun h => by omega
      simp [hnot]

/-- The search ends at `t`, if `t` is the first number after `p` that is not crossed out. -/
theorem advance_spec (hmax : 2 * MAX_PRIME ≤ uintSize) {sieve : Nat → Bool} {p t : Nat}
    (hpt : p < t) (hpmax : p < MAX_PRIME) (hcrossed : ∀ k, p < k → k < t → k < MAX_PRIME → sieve k = false)
    (ht : t < MAX_PRIME → sieve t = true) (hfuel : MAX_PRIME < fuel + p + 1) :
    advance MAX_PRIME sieve fuel p = if t < MAX_PRIME then .ok t else .error .outOfBounds := by
  induction fuel generalizing p with
  | zero => omega
  | succ fuel ih =>
    have hwrap : (p + 1) % uintSize = p + 1 := Nat.mod_eq_of_lt (by omega)
    simp only [advance, hwrap]
    by_cases hlt : p + 1 < MAX_PRIME
    · rw [if_pos hlt]
      by_cases hpt' : p + 1 = t
      · subst hpt'
        rw [if_pos (ht hlt), if_pos hlt]
      · rw [if_neg (by simp [hcrossed (p + 1) (by omega) (by omega) hlt])]
        exact ih (by omega) hlt (fun k hk => hcrossed k (by omega)) (by omega)
    · rw [if_neg hlt, if_neg (by omega)]

/-- After `count` rounds: `p` is the prime number `count`, and what is left are the numbers that no
smaller prime number strictly divides. -/
structure Sieved (MAX_PRIME count : Nat) (s : State) : Prop where
  p_eq : s.p = Nat.nth Nat.Prime count
  sieve : ∀ k < MAX_PRIME, s.sieve k = true ↔
    2 ≤ k ∧ ∀ j < count, Nat.nth Nat.Prime j ∣ k → Nat.nth Nat.Prime j = k

theorem sieved_init (MAX_PRIME : Nat) : Sieved MAX_PRIME 0 init where
  p_eq := Nat.nth_prime_zero_eq_two.symm
  sieve k _ := by
    simp [init]
    omega

variable {count : Nat} {s : State}

/-- **The next number that is left is the next prime number.** -/
theorem Sieved.round (h : Sieved MAX_PRIME count s) (hmax : 2 * MAX_PRIME ≤ uintSize)
    (hp : s.p < MAX_PRIME) (hfuel : MAX_PRIME < fuel) :
    if Nat.nth Nat.Prime (count + 1) < MAX_PRIME then
      ∃ s', NthPrimeSieve.round MAX_PRIME fuel s = .ok s' ∧ Sieved MAX_PRIME (count + 1) s'
    else NthPrimeSieve.round MAX_PRIME fuel s = .error .outOfBounds := by
  have hprime : ∀ j, (Nat.nth Nat.Prime j).Prime := Nat.prime_nth_prime
  have hlt : Nat.nth Nat.Prime count < Nat.nth Nat.Prime (count + 1) :=
    Nat.nth_strictMono Nat.infinite_setOfPred_prime (Nat.lt_succ_self count)
  have htwo : 2 ≤ s.p := h.p_eq ▸ (hprime count).two_le
  obtain ⟨sieve', hcross, hsieve⟩ := crossOut_spec hmax htwo hp le_rfl (by omega)
    (show MAX_PRIME < fuel + 2 by omega) s.sieve
  have hsieve' : ∀ k < MAX_PRIME, sieve' k = true ↔
      2 ≤ k ∧ ∀ j < count + 1, Nat.nth Nat.Prime j ∣ k → Nat.nth Nat.Prime j = k := by
    intro k hk
    rw [hsieve k hk, h.sieve k hk, h.p_eq, Nat.forall_lt_succ_right, and_assoc]
    refine and_congr_right fun hk2 => and_congr_right fun _ =>
      ⟨fun hno hdvd => ?_, fun heq hle => ?_⟩
    · obtain ⟨m, rfl⟩ := hdvd
      by_contra hne
      have hm : 2 ≤ m := by
        by_contra hm
        obtain rfl | rfl : m = 0 ∨ m = 1 := by omega
        · omega
        · exact hne (mul_one _).symm
      exact hno ⟨Nat.dvd_mul_right _ m, Nat.mul_le_mul_left _ hm⟩
    · have hpos := (hprime count).pos
      have := heq hle.1
      omega
  have hcrossed : ∀ k, s.p < k → k < Nat.nth Nat.Prime (count + 1) → k < MAX_PRIME →
      sieve' k = false := by
    intro k hpk hk hkmax
    by_contra hleft
    obtain ⟨hk2, hall⟩ := (hsieve' k hkmax).mp (by simpa using hleft)
    -- a number that is left is its own least prime factor, which was not crossed out
    have hmin : k.minFac.Prime := Nat.minFac_prime (by omega)
    have hnth : Nat.nth Nat.Prime (Nat.count Nat.Prime k.minFac) = k.minFac := Nat.nth_count hmin
    have hle : k.minFac ≤ k := Nat.minFac_le (by omega)
    have hcount : Nat.count Nat.Prime k.minFac < count + 1 := by
      have hmono := Nat.nth_strictMono Nat.infinite_setOfPred_prime
      refine hmono.lt_iff_lt.mp ?_
      rw [hnth]
      exact hle.trans_lt hk
    have hdvd : Nat.nth Nat.Prime (Nat.count Nat.Prime k.minFac) ∣ k := by
      rw [hnth]
      exact k.minFac_dvd
    have heq : k.minFac = k := hnth.symm.trans (hall _ hcount hdvd)
    have hlast : Nat.nth Nat.Prime (Nat.count Nat.Prime k.minFac) ≤ Nat.nth Nat.Prime count :=
      Nat.nth_monotone Nat.infinite_setOfPred_prime (by omega)
    rw [hnth, heq, ← h.p_eq] at hlast
    omega
  have hnext : Nat.nth Nat.Prime (count + 1) < MAX_PRIME →
      sieve' (Nat.nth Nat.Prime (count + 1)) = true := by
    intro hmem
    refine (hsieve' _ hmem).mpr ⟨(hprime _).two_le, fun j _ hdvd => ?_⟩
    exact (Nat.prime_dvd_prime_iff_eq (hprime j) (hprime _)).mp hdvd
  have hadvance := advance_spec hmax (h.p_eq ▸ hlt) hp hcrossed hnext
    (show MAX_PRIME < fuel + s.p + 1 by omega)
  have hround : NthPrimeSieve.round MAX_PRIME fuel s =
      (advance MAX_PRIME sieve' fuel s.p).map fun p => ⟨sieve', p⟩ := by
    rw [NthPrimeSieve.round, hcross]
    rfl
  rw [hround, hadvance]
  split
  · exact ⟨_, rfl, rfl, hsieve'⟩
  · rfl

/-- The rounds go on until a prime number is not below `MAX_PRIME`. -/
theorem rounds_eq (hmax : 2 * MAX_PRIME ≤ uintSize) (htwo : 2 < MAX_PRIME)
    (hfuel : MAX_PRIME < fuel) (n : Nat) :
    if Nat.nth Nat.Prime n < MAX_PRIME then
      ∃ s, (List.range' 1 n).foldlM (fun s _ => NthPrimeSieve.round MAX_PRIME fuel s) init = .ok s ∧
        Sieved MAX_PRIME n s
    else (List.range' 1 n).foldlM (fun s _ => NthPrimeSieve.round MAX_PRIME fuel s) init =
      .error .outOfBounds := by
  induction n with
  | zero =>
    rw [if_pos (by rwa [Nat.nth_prime_zero_eq_two])]
    exact ⟨init, rfl, sieved_init MAX_PRIME⟩
  | succ n ih =>
    have hlt : Nat.nth Nat.Prime n < Nat.nth Nat.Prime (n + 1) :=
      Nat.nth_strictMono Nat.infinite_setOfPred_prime (Nat.lt_succ_self n)
    rw [List.range'_1_concat, List.foldlM_append]
    by_cases hn : Nat.nth Nat.Prime n < MAX_PRIME
    · rw [if_pos hn] at ih
      obtain ⟨s, hok, hs⟩ := ih
      have hround := hs.round hmax (hs.p_eq ▸ hn) hfuel
      rw [hok]
      show if _ then ∃ s', (NthPrimeSieve.round MAX_PRIME fuel s >>= pure) = _ ∧ _
        else (NthPrimeSieve.round MAX_PRIME fuel s >>= pure) = _
      rwa [bind_pure]
    · rw [if_neg hn] at ih
      rw [ih, if_neg (by omega)]
      rfl

/-- **What the program prints**: the number of `nth-prime.cpp` if that is below `MAX_PRIME`. If it
is not, the program reads past the end of the array. -/
theorem main_eq {N : Nat} (hN : 0 < N) (hmax : 2 * MAX_PRIME ≤ uintSize) (htwo : 2 < MAX_PRIME)
    (hfuel : MAX_PRIME < fuel) :
    ∃ fuel' primes, NthPrime.run N fuel' 0 .init = some primes ∧
      primes (N - 1) = Nat.nth Nat.Prime (N - 1) ∧
      main N MAX_PRIME fuel =
        if primes (N - 1) < MAX_PRIME then .ok (primes (N - 1)) else .error .outOfBounds := by
  have hrun := NthPrime.searching_init.run (Nat.zero_le N)
    (Nat.lt_succ_self (NthPrime.Search.init.todo N))
  have hlast : NthPrime.firstPrimes N (N - 1) = Nat.nth Nat.Prime (N - 1) := if_pos (by omega)
  refine ⟨_, _, hrun, hlast, ?_⟩
  rw [hlast]
  have hrounds := rounds_eq hmax htwo hfuel (N - 1)
  unfold main
  split
  · rename_i hlt
    rw [if_pos hlt] at hrounds
    obtain ⟨s, hok, hs⟩ := hrounds
    rw [hok, ← hs.p_eq]
    rfl
  · rename_i hge
    rw [if_neg hge] at hrounds
    rw [hrounds]
    rfl

/-- The fifth prime number is in an array of twenty, the tenth is not. -/
theorem main_eq_twenty :
    main 5 20 21 = (if Nat.nth Nat.Prime 4 < 20 then .ok (Nat.nth Nat.Prime 4)
      else .error .outOfBounds) ∧ main 5 20 21 = .ok 11 ∧ main 10 20 21 = .error .outOfBounds := by
  obtain ⟨fuel', primes, -, hlast, hmain⟩ := @main_eq 20 21 5 (by decide) (by decide) (by decide)
    (by decide)
  rw [hlast] at hmain
  exact ⟨hmain, by decide +kernel, by decide +kernel⟩

end Round

end NthPrimeSieve

end IcsaDswp
