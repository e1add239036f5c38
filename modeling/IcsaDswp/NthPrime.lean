import IcsaDswp.PacketQueue
import Mathlib

/-!
# Prime numbers by trial division

`src/test/nth-prime.cpp` and `nth-prime-dswp.cpp`, for any `N` and without overflow. The search for
the next prime number tries the ones found so far, starts over at the next candidate when one divides,
and stops early at one whose square is greater (`Searching.turn`). In the decoupled version the
`count`s come over a queue from `main`, which joins the searching thread: whatever the schedule, the
array is then that of the sequential program (`nthPrime_refines`).
-/

namespace IcsaDswp

open Lib

namespace NthPrime

/-! ## The code -/

/-- The array `primes`, the candidate `p` and the `i` of the `for` loop. -/
structure Search where
  primes : Nat → Nat
  p : Nat
  i : Nat

/-- What a turn of the `for` loop comes to. -/
inductive Turn where
  | again (s : Search)
  /-- The loop ends, by its test or by `break`. -/
  | found
  /-- `p % 0`. -/
  | undefined

namespace Search

def init : Search := ⟨fun _ => 0, 2, 0⟩

def turn (s : Search) (count : Nat) : Turn :=
  if s.i < count then
    if s.primes s.i = 0 then .undefined
    else if s.p % s.primes s.i = 0 then .again { s with p := s.p + 1, i := 0 } -- goto continue_while
    else if s.primes s.i * s.primes s.i > s.p then .found
    else .again { s with i := s.i + 1 }
  else .found

/-- `primes[count] = p++;` and on to the next `for` loop. -/
def store (s : Search) (count : Nat) : Search where
  primes := Function.update s.primes count s.p
  p := s.p + 1
  i := 0

end Search

/-- `main` of `nth-prime.cpp` from `continue_while` on, for at most `fuel` turns of the `for` loop. -/
def run (N : Nat) : Nat → Nat → Search → Option (Nat → Nat)
  | 0, count, s => if count < N then none else some s.primes
  | fuel + 1, count, s =>
    if count < N then
      match s.turn count with
      | .again s => run N fuel count s
      | .found => run N fuel (count + 1) (s.store count)
      | .undefined => none
    else some s.primes

/-! ## Trial division -/

/-- The array with the first `count` prime numbers. -/
noncomputable def firstPrimes (count : Nat) (k : Nat) : Nat := if k < count then Nat.nth Nat.Prime k else 0

theorem firstPrimes_succ (count : Nat) :
    firstPrimes (count + 1) = Function.update (firstPrimes count) count (Nat.nth Nat.Prime count) := by
  funext k
  unfold firstPrimes
  by_cases hk : k = count
  · subst hk
    simp
  · rw [Function.update_of_ne hk]
    by_cases h : k < count
    · rw [if_pos h, if_pos (by omega)]
    · rw [if_neg h, if_neg (by omega)]

/-- A number that none of the smaller primes divides is prime; it is enough to try those up to its
square root. -/
theorem prime_of_trial {p i : Nat} (hp : 2 ≤ p)
    (hno : ∀ j < i, ¬ Nat.nth Nat.Prime j ∣ p)
    (hi : Nat.count Nat.Prime p ≤ i ∨ p < Nat.nth Nat.Prime i * Nat.nth Nat.Prime i) : p.Prime := by
  by_contra hnp
  have hmin : p.minFac.Prime := Nat.minFac_prime (by omega)
  have hsq : p.minFac * p.minFac ≤ p := by
    have := Nat.minFac_sq_le_self (by omega) hnp
    rwa [pow_two] at this
  have hnth : Nat.nth Nat.Prime (Nat.count Nat.Prime p.minFac) = p.minFac := Nat.nth_count hmin
  refine hno (Nat.count Nat.Prime p.minFac) ?_ (by rw [hnth]; exact p.minFac_dvd)
  rcases hi with hi | hi
  · have hlt : p.minFac < p := (Nat.not_prime_iff_minFac_lt hp).mp hnp
    have := Nat.count_strict_mono hmin hlt
    omega
  · by_contra hge
    have hle : Nat.nth Nat.Prime i ≤ p.minFac := by
      rw [← hnth]
      exact Nat.nth_monotone Nat.infinite_setOfPred_prime (by omega)
    have := Nat.mul_le_mul hle hle
    omega

/-- The state of the search for the prime number `count`: the primes below the candidate are those
found, and those tried do not divide it. -/
structure Searching (count : Nat) (s : Search) : Prop where
  primes : s.primes = firstPrimes count
  two_le : 2 ≤ s.p
  below : Nat.count Nat.Prime s.p = count
  i_le : s.i ≤ count
  tried : ∀ j < s.i, ¬ Nat.nth Nat.Prime j ∣ s.p

theorem searching_init : Searching 0 .init where
  primes := by
    funext k
    simp [Search.init, firstPrimes]
  two_le := le_rfl
  below := by decide
  i_le := le_rfl
  tried _ hj := absurd hj (Nat.not_lt_zero _)

variable {count : Nat} {s : Search}

/-- The candidate is at most the prime number that is looked for. -/
theorem Searching.le_nth (h : Searching count s) : s.p ≤ Nat.nth Nat.Prime count :=
  (Nat.count_le_iff_le_nth Nat.infinite_setOfPred_prime).mp h.below.le

theorem Searching.store (h : Searching count s) (hp : s.p.Prime) :
    Searching (count + 1) (s.store count) where
  primes := by
    have hnth : Nat.nth Nat.Prime count = s.p := by
      rw [← h.below]
      exact Nat.nth_count hp
    rw [firstPrimes_succ, hnth, ← h.primes]
    rfl
  two_le := h.two_le.trans (Nat.le_succ _)
  below := by
    show Nat.count Nat.Prime (s.p + 1) = count + 1
    rw [Nat.count_succ, h.below, if_pos hp]
  i_le := Nat.zero_le _
  tried _ hj := absurd hj (Nat.not_lt_zero _)

/-- **One turn** of the `for` loop does not divide by zero, keeps what is known of the search and
ends it at a prime number only. -/
theorem Searching.turn (h : Searching count s) :
    (∃ s', s.turn count = .again s' ∧ Searching count s' ∧
      (s'.p = s.p + 1 ∧ s'.i = 0 ∨ s'.p = s.p ∧ s'.i = s.i + 1)) ∨
    (s.turn count = .found ∧ s.p.Prime) := by
  unfold Search.turn
  by_cases hi : s.i < count
  · have hget : s.primes s.i = Nat.nth Nat.Prime s.i := by
      rw [h.primes, firstPrimes, if_pos hi]
    have hprime : (Nat.nth Nat.Prime s.i).Prime := Nat.prime_nth_prime s.i
    have hlt : Nat.nth Nat.Prime s.i < s.p := Nat.nth_lt_of_lt_count (h.below ▸ hi)
    rw [if_pos hi, if_neg (hget ▸ hprime.ne_zero), hget]
    by_cases hdvd : s.p % Nat.nth Nat.Prime s.i = 0
    · -- the candidate is composite: the next one has as many primes below it
      rw [if_pos hdvd]
      have hcomposite : ¬ s.p.Prime := fun hp =>
        hlt.ne ((Nat.prime_dvd_prime_iff_eq hprime hp).mp (Nat.dvd_of_mod_eq_zero hdvd))
      refine .inl ⟨_, rfl, ⟨h.primes, h.two_le.trans (Nat.le_succ _), ?_, Nat.zero_le _, ?_⟩,
        .inl ⟨rfl, rfl⟩⟩
      · show Nat.count Nat.Prime (s.p + 1) = count
        rw [Nat.count_succ, h.below, if_neg hcomposite, Nat.add_zero]
      · exact fun _ hj => absurd hj (Nat.not_lt_zero _)
    · rw [if_neg hdvd]
      by_cases hbreak : Nat.nth Nat.Prime s.i * Nat.nth Nat.Prime s.i > s.p
      · rw [if_pos hbreak]
        exact .inr ⟨rfl, prime_of_trial h.two_le h.tried (.inr hbreak)⟩
      · rw [if_neg hbreak]
        refine .inl ⟨_, rfl, ⟨h.primes, h.two_le, h.below, hi, fun j hj => ?_⟩, .inr ⟨rfl, rfl⟩⟩
        rcases Nat.lt_succ_iff_lt_or_eq.mp hj with hj | rfl
        · exact h.tried j hj
        · exact fun hd => hdvd (Nat.mod_eq_zero_of_dvd hd)
  · rw [if_neg hi]
    refine .inr ⟨rfl, prime_of_trial h.two_le h.tried (.inl ?_)⟩
    rw [h.below]
    omega

/-! ## The sequential program -/

/-- How many turns at most are left: each passes to the next candidate or to the next prime
number to try. -/
noncomputable def Search.todo (N : Nat) (s : Search) : Nat :=
  (Nat.nth Nat.Prime N - s.p) * (N + 2) + (N - s.i)

variable {N : Nat}

/-- The search for one of the first `N` primes does not pass the next one. -/
theorem Searching.p_lt (h : Searching count s) (hN : count < N) : s.p < Nat.nth Nat.Prime N :=
  h.le_nth.trans_lt (Nat.nth_strictMono Nat.infinite_setOfPred_prime hN)

theorem todo_lt_of_p (hp : s.p < Nat.nth Nat.Prime N) {s' : Search} (hs : s'.p = s.p + 1)
    (hi : s'.i = 0) (hle : s.i ≤ N) : s'.todo N < s.todo N := by
  have hmul : (Nat.nth Nat.Prime N - s.p) * (N + 2) =
      (Nat.nth Nat.Prime N - s'.p) * (N + 2) + (N + 2) := by
    rw [← Nat.succ_mul]
    congr 1
    omega
  unfold Search.todo
  omega

theorem todo_lt_of_i {s' : Search} (hp : s'.p = s.p) (hi : s'.i = s.i + 1) (hle : s.i < N) :
    s'.todo N < s.todo N := by
  unfold Search.todo
  rw [hp]
  omega

theorem Searching.todo_store (h : Searching count s) (hN : count < N) :
    (s.store count).todo N < s.todo N :=
  todo_lt_of_p (h.p_lt hN) rfl rfl (h.i_le.trans hN.le)

theorem Searching.todo_again (h : Searching count s) (hN : count < N) {s' : Search}
    (h' : Searching count s') (hs : s'.p = s.p + 1 ∧ s'.i = 0 ∨ s'.p = s.p ∧ s'.i = s.i + 1) :
    s'.todo N < s.todo N := by
  rcases hs with ⟨hp, hi⟩ | ⟨hp, hi⟩
  · exact todo_lt_of_p (h.p_lt hN) hp hi (h.i_le.trans hN.le)
  · have hle := h'.i_le
    exact todo_lt_of_i hp hi (by omega)

/-- **The sequential program terminates** with the first `N` prime numbers. -/
theorem Searching.run {fuel : Nat} (h : Searching count s) (hN : count ≤ N)
    (hfuel : s.todo N < fuel) : NthPrime.run N fuel count s = some (firstPrimes N) := by
  induction fuel generalizing count s with
  | zero => exact absurd hfuel (Nat.not_lt_zero _)
  | succ fuel ih =>
    rw [NthPrime.run]
    by_cases hlt : count < N
    · rw [if_pos hlt]
      rcases h.turn with ⟨s', hturn, h', hs'⟩ | ⟨hturn, hprime⟩
      · simp only [hturn]
        have := h.todo_again hlt h' hs'
        exact ih h' hN (by omega)
      · simp only [hturn]
        have := h.todo_store hlt
        exact ih (h.store hprime) hlt (by omega)
    · obtain rfl : count = N := by omega
      rw [if_neg hlt, h.primes]

/-! ## The decoupled program -/

/-- The queue, the `count` of `main`, the consumer's search, the `count` it has consumed and works
on, whether it came to `p % 0`, and whether `main` has joined it. -/
structure State where
  queue : PacketQueue.State Nat
  count : Nat
  search : Search
  job : Option Nat
  undefined : Bool
  joined : Bool

/-- An atomic action; `turn` is one of the consumer's `for` loop, with the assignment after the
last. -/
inductive Act where
  | produce (notified : Option Unit)
  | produceEnd
  | join
  | endReached
  | consume
  | wake
  | resume
  | turn

namespace State

/-- The consumer runs from the start on: `main` creates its thread first. -/
def init : State := ⟨.init, 0, .init, none, false, false⟩

/-- After a section of `consume`, which returns a `count` or waits. -/
def received (s : State) (queue : PacketQueue.State Nat) : State :=
  { s with queue := queue, job := queue.consumed[s.queue.consumed.length]?.map PcPacket.datum }

def turn (s : State) (count : Nat) : State :=
  match s.search.turn count with
  | .again search => { s with search := search }
  | .found => { s with search := s.search.store count, job := none }
  | .undefined => { s with undefined := true }

def act (N : Nat) (s : State) : Act → Option State
  | .produce notified =>
    if s.count < N then
      (s.queue.step (.produce s.count notified)).map fun queue =>
        { s with queue := queue, count := s.count + 1 }
    else none
  | .produceEnd =>
    if s.count < N then none
    else (s.queue.step .produceEnd).map fun queue => { s with queue := queue }
  | .join =>
    if s.queue.ended = true ∧ s.queue.pc = .left ∧ s.joined = false then
      some { s with joined := true }
    else none
  | .endReached =>
    if s.job = none then (s.queue.step .endReached).map fun queue => { s with queue := queue }
    else none
  | .consume => (s.queue.step .consume).map s.received
  | .wake => (s.queue.step .wake).map fun queue => { s with queue := queue }
  | .resume => (s.queue.step .resume).map s.received
  | .turn => s.job.map s.turn

def step (N : Nat) (s : State) (a : Act) : Option State :=
  if s.undefined ∨ s.queue.undefined then none else s.act N a

/-- `end_reached` is called only while there is a packet. -/
def InTime (s : State) : Act → Prop
  | .endReached => s.queue.queue.data ≠ []
  | _ => True

variable {S S' : State} {got rest : List Nat}

/-- The consumer has `got` these counts and the `rest` is under way; it searches for the prime
number of the last one it has got, or waits to search for the next. -/
structure Runs (N : Nat) (got rest : List Nat) (S : State) : Prop where
  queue : S.queue.Holds got rest
  counts : got ++ rest = List.range S.count
  count_le : S.count ≤ N
  ended : S.queue.ended = true → S.count = N
  defined : S.undefined = false
  idle : S.job = none → Searching got.length S.search
  busy : ∀ count, S.job = some count →
    got.length = count + 1 ∧ S.queue.pc = .test ∧ Searching count S.search
  joined : S.joined = true → S.queue.pc = .left

def Inv (N : Nat) (S : State) : Prop := ∃ got rest, S.Runs N got rest

/-- What is left to do, with two actions to pass on a count. -/
noncomputable def todo (N : Nat) (S : State) : Nat :=
  3 * (N - S.count) + (!S.queue.ended).toNat +
    2 * (S.queue.produced.length - S.queue.consumed.length) +
    (if S.queue.pc = .test then 1 else 0) + S.search.todo N + (!S.joined).toNat

theorem inv_init (N : Nat) : init.Inv N := by
  refine ⟨[], [], ⟨rfl, rfl, rfl, rfl, ⟨rfl, rfl⟩, nofun, nofun⟩, rfl, Nat.zero_le N, nofun, rfl,
    fun _ => searching_init, nofun, nofun⟩

theorem Runs.length_rest (h : S.Runs N got rest) :
    S.queue.produced.length - S.queue.consumed.length = rest.length := by
  rw [h.queue.produced, h.queue.consumed, List.length_append, List.length_map]
  omega

theorem Runs.length_le (h : S.Runs N got rest) : got.length + rest.length ≤ N := by
  have hlen := congrArg List.length h.counts
  rw [List.length_append, List.length_range] at hlen
  exact hlen ▸ h.count_le

/-- The counts come in order. -/
theorem Runs.next {element : Nat} (h : S.Runs N got (element :: rest)) : element = got.length := by
  have hget : (got ++ element :: rest)[got.length]? = some element := by
    rw [List.getElem?_append_right le_rfl, Nat.sub_self, List.getElem?_cons_zero]
  rw [h.counts] at hget
  obtain ⟨hlt, hget⟩ := List.getElem?_eq_some_iff.mp hget
  rw [← hget, List.getElem_range]

theorem Runs.job_eq_none (h : S.Runs N got rest) (hpc : S.queue.pc ≠ .test) : S.job = none := by
  cases hjob : S.job with
  | none => rfl
  | some count => exact absurd (h.busy count hjob).2.1 hpc

@[simp] theorem received_queue (S : State) (queue : PacketQueue.State Nat) :
    (S.received queue).queue = queue := rfl

@[simp] theorem received_count (S : State) (queue : PacketQueue.State Nat) :
    (S.received queue).count = S.count := rfl

@[simp] theorem received_search (S : State) (queue : PacketQueue.State Nat) :
    (S.received queue).search = S.search := rfl

@[simp] theorem received_joined (S : State) (queue : PacketQueue.State Nat) :
    (S.received queue).joined = S.joined := rfl

theorem received_job {queue : PacketQueue.State Nat} {element : Nat} {rest' : List Nat}
    (h : S.queue.Holds got rest) (h' : queue.Holds (got ++ [element]) rest') :
    (S.received queue).job = some element := by
  unfold received
  dsimp only
  rw [h.consumed, h'.consumed, List.length_map, List.map_append, List.map_singleton,
    List.getElem?_append_right (by rw [List.length_map]), List.length_map, Nat.sub_self,
    List.getElem?_cons_zero]
  rfl

/-! ### What an action does -/

theorem Runs.produce {notified : Option Unit} (h : S.Runs N got rest)
    (hs : S.act N (.produce notified) = some S') : S'.Inv N ∧ S'.todo N < S.todo N := by
  obtain ⟨hlt, hs⟩ := Option.ite_none_right_eq_some.mp hs
  obtain ⟨queue, hq, rfl⟩ := Option.map_eq_some_iff.mp hs
  rcases h.queue.step_cases hq trivial with ⟨_, _, ha, hended, hended', hpc, hholds⟩ |
    ⟨⟨⟩, -⟩ | ⟨⟨⟩, -⟩ | ⟨⟨⟩, -⟩
  obtain ⟨rfl, rfl⟩ := PacketQueue.Act.produce.inj ha
  have hruns : Runs N got (rest ++ [S.count]) { S with queue := queue, count := S.count + 1 } := by
    refine ⟨hholds, ?_, hlt, ?_, h.defined, h.idle, ?_, ?_⟩
    · rw [← List.append_assoc, h.counts, List.range_succ]
    · exact fun hended'' => absurd (hended'.symm.trans hended'') nofun
    · exact fun count hjob => hpc.symm ▸ h.busy count hjob
    · exact fun hjoined => hpc.trans (h.joined hjoined)
  refine ⟨⟨_, _, hruns⟩, ?_⟩
  unfold todo
  rw [hruns.length_rest, h.length_rest, hended, hended', hpc, List.length_append,
    List.length_singleton]
  dsimp only
  omega

theorem Runs.produceEnd (h : S.Runs N got rest) (hs : S.act N .produceEnd = some S') :
    S'.Inv N ∧ S'.todo N < S.todo N := by
  obtain ⟨hlt, hs⟩ := Option.ite_none_left_eq_some.mp hs
  obtain ⟨queue, hq, rfl⟩ := Option.map_eq_some_iff.mp hs
  rcases h.queue.step_cases hq trivial with ⟨_, _, ⟨⟩, -⟩ | ⟨-, hended, hended', hpc, hholds⟩ |
    ⟨⟨⟩, -⟩ | ⟨⟨⟩, -⟩
  have hruns : Runs N got rest { S with queue := queue } := by
    refine ⟨hholds, h.counts, h.count_le, ?_, h.defined, h.idle, ?_, ?_⟩
    · exact fun _ => h.count_le.antisymm (Nat.not_lt.mp hlt)
    · exact fun count hjob => hpc.symm ▸ h.busy count hjob
    · exact fun hjoined => hpc.trans (h.joined hjoined)
  refine ⟨⟨_, _, hruns⟩, ?_⟩
  unfold todo
  rw [hruns.length_rest, h.length_rest, hended, hended', hpc]
  simp

theorem Runs.join (h : S.Runs N got rest) (hs : S.act N .join = some S') :
    S'.Inv N ∧ S'.todo N < S.todo N := by
  obtain ⟨⟨-, hpc, hjoined⟩, hs⟩ := Option.ite_none_right_eq_some.mp hs
  obtain rfl := Option.some.inj hs
  refine ⟨⟨got, rest, { h with joined := fun _ => hpc }⟩, ?_⟩
  unfold todo
  simp [hjoined, Search.todo]

theorem Runs.endReached (h : S.Runs N got rest) (hne : S.queue.queue.data ≠ [])
    (hs : S.act N .endReached = some S') : S'.Inv N ∧ S'.todo N < S.todo N := by
  obtain ⟨hjob, hs⟩ := Option.ite_none_right_eq_some.mp hs
  obtain ⟨queue, hq, rfl⟩ := Option.map_eq_some_iff.mp hs
  rcases h.queue.step_cases hq hne with ⟨_, _, ⟨⟩, -⟩ | ⟨⟨⟩, -⟩ |
    ⟨-, hpc, hpc', hended, hholds⟩ | ⟨⟨⟩, -⟩
  have hruns : Runs N got rest { S with queue := queue } := by
    refine ⟨hholds, h.counts, h.count_le, ?_, h.defined, h.idle, ?_, ?_⟩
    · exact fun hended' => h.ended (hended.symm.trans hended')
    · exact fun count hjob' => absurd (hjob.symm.trans hjob') nofun
    · exact fun hjoined => absurd (hpc.symm.trans (h.joined hjoined)) nofun
  refine ⟨⟨_, _, hruns⟩, ?_⟩
  unfold todo
  rw [hruns.length_rest, h.length_rest, hended, if_pos hpc, if_neg hpc']
  dsimp only
  omega

theorem Runs.consume (h : S.Runs N got rest) (hs : S.act N .consume = some S') :
    S'.Inv N ∧ S'.todo N < S.todo N := by
  obtain ⟨queue, hq, rfl⟩ := Option.map_eq_some_iff.mp hs
  rcases h.queue.step_cases hq trivial with ⟨_, _, ⟨⟩, -⟩ | ⟨⟨⟩, -⟩ | ⟨⟨⟩, -⟩ |
    ⟨-, hpc, hpc', hended, element, rest', rfl, hholds⟩
  have hjob : (S.received queue).job = some element := received_job h.queue hholds
  have hsearch : Searching element S.search := by
    rw [h.next]
    exact h.idle (h.job_eq_none (by simp [hpc]))
  have hruns : Runs N (got ++ [element]) rest' (S.received queue) := by
    refine ⟨hholds, ?_, h.count_le, ?_, h.defined, ?_, ?_, ?_⟩
    · rw [List.append_assoc, List.singleton_append]
      exact h.counts
    · exact fun hended' => h.ended (hended.symm.trans hended')
    · exact fun hnone => absurd (hjob.symm.trans hnone) nofun
    · intro count hcount
      obtain rfl : element = count := Option.some.inj (hjob.symm.trans hcount)
      rw [List.length_append, List.length_singleton, ← h.next]
      exact ⟨rfl, hpc', hsearch⟩
    · exact fun hjoined => absurd (hpc.symm.trans (h.joined hjoined)) nofun
  refine ⟨⟨_, _, hruns⟩, ?_⟩
  unfold todo
  rw [hruns.length_rest, h.length_rest, List.length_cons]
  simp only [received_queue, received_count, received_search, received_joined, hended, hpc', hpc,
    if_true, reduceCtorEq, if_false]
  omega

theorem Runs.turn (h : S.Runs N got rest) (hs : S.act N .turn = some S') :
    S'.Inv N ∧ S'.todo N < S.todo N := by
  obtain ⟨count, hjob, rfl⟩ := Option.map_eq_some_iff.mp hs
  obtain ⟨hlen, hpc, hsearch⟩ := h.busy count hjob
  have hlt : count < N := by
    have := h.length_le
    omega
  unfold State.turn
  rcases hsearch.turn with ⟨search, hturn, hsearch', hs'⟩ | ⟨hturn, hprime⟩
  · rw [hturn]
    refine ⟨⟨got, rest, { h with
      idle := fun hnone => absurd (hjob.symm.trans hnone) nofun
      busy := fun count' hcount' => ?_ }⟩, ?_⟩
    · obtain rfl : count = count' := Option.some.inj (hjob.symm.trans hcount')
      exact ⟨hlen, hpc, hsearch'⟩
    · have := hsearch.todo_again hlt hsearch' hs'
      unfold todo
      dsimp only
      omega
  · rw [hturn]
    refine ⟨⟨got, rest, { h with
      idle := fun _ => hlen ▸ hsearch.store hprime
      busy := nofun }⟩, ?_⟩
    have := hsearch.todo_store hlt
    unfold todo
    dsimp only
    omega

theorem Inv.step {a : Act} (h : S.Inv N) (hs : S.step N a = some S') (hin : S.InTime a) :
    S'.Inv N ∧ S'.todo N < S.todo N := by
  obtain ⟨got, rest, h⟩ := h
  rw [State.step, if_neg (by simp [h.defined, h.queue.defined])] at hs
  cases a with
  | produce notified => exact h.produce hs
  | produceEnd => exact h.produceEnd hs
  | join => exact h.join hs
  | endReached => exact h.endReached hin hs
  | consume => exact h.consume hs
  | turn => exact h.turn hs
  | wake | resume =>
    -- the consumer never waits
    obtain ⟨queue, hq, rfl⟩ := Option.map_eq_some_iff.mp hs
    rcases h.queue.step_cases hq trivial with ⟨_, _, ⟨⟩, -⟩ | ⟨⟨⟩, -⟩ | ⟨⟨⟩, -⟩ | ⟨⟨⟩, -⟩

/-- While the queue is empty `main` goes on, and else the consumer. -/
theorem Runs.exists_step (h : S.Runs N got rest) (hjoined : S.joined = false) :
    ∃ a S', S.step N a = some S' ∧ S.InTime a := by
  have hdef : ¬ (S.undefined = true ∨ S.queue.undefined = true) := by
    simp [h.defined, h.queue.defined]
  cases hjob : S.job with
  | some count =>
    exact ⟨.turn, _, (if_neg hdef).trans (Option.map_eq_some_iff.mpr ⟨count, hjob, rfl⟩), trivial⟩
  | none =>
    cases hpc : S.queue.pc with
    | test =>
      by_cases hdata : S.queue.queue.data = []
      · have hended : S.queue.ended = false := by
          by_contra hended
          have hq := h.queue.data
          simp [hdata, PacketQueue.inQueue, hended] at hq
        by_cases hlt : S.count < N
        · obtain ⟨queue, hq⟩ := h.queue.exists_produce hended S.count
          exact ⟨.produce none, _, (if_neg hdef).trans
            ((if_pos hlt).trans (Option.map_eq_some_iff.mpr ⟨queue, hq, rfl⟩)), trivial⟩
        · obtain ⟨queue, hq⟩ := h.queue.exists_produceEnd hended
          exact ⟨.produceEnd, _, (if_neg hdef).trans
            ((if_neg hlt).trans (Option.map_eq_some_iff.mpr ⟨queue, hq, rfl⟩)), trivial⟩
      · obtain ⟨queue, hq⟩ := h.queue.exists_endReached hpc
        exact ⟨.endReached, _, (if_neg hdef).trans
          ((if_pos hjob).trans (Option.map_eq_some_iff.mpr ⟨queue, hq, rfl⟩)), hdata⟩
    | consume =>
      obtain ⟨queue, hq⟩ := h.queue.exists_consume hpc
      exact ⟨.consume, _,
        (if_neg hdef).trans (Option.map_eq_some_iff.mpr ⟨queue, hq, rfl⟩), trivial⟩
    | left =>
      exact ⟨.join, _, (if_neg hdef).trans (if_pos ⟨(h.queue.done hpc).1, hpc, hjoined⟩), trivial⟩

/-- The consumer has left its loop after the last count. -/
theorem Runs.primes_of_joined (h : S.Runs N got rest) (hjoined : S.joined = true) :
    S.search.primes = firstPrimes N := by
  have hpc := h.joined hjoined
  obtain ⟨hended, rfl⟩ := h.queue.done hpc
  have hlen := congrArg List.length h.counts
  rw [List.append_nil, List.length_range, h.ended hended] at hlen
  rw [← hlen]
  exact (h.idle (h.job_eq_none (by simp [hpc]))).primes

end State

/-- **The decoupled program does what the sequential one does.** The latter ends with the first `N`
prime numbers. In a run of the former that looks for the end only while there is a packet nothing
is undefined, the array is the same when `main` has joined the consumer, and it comes to that after
a bounded number of actions. -/
theorem nthPrime_refines (N : Nat) :
    (∃ turns, ∀ fuel, turns ≤ fuel → run N fuel 0 .init = some (firstPrimes N)) ∧
      ∃ most, ∀ acts S, exec (State.step N) .init acts = some S →
        OkThroughout (State.step N) .init State.InTime acts →
        S.undefined = false ∧ S.queue.undefined = false ∧
          (S.joined = true → S.search.primes = firstPrimes N) ∧
          (S.joined = false → ∃ a S', S.step N a = some S' ∧ S.InTime a) ∧
          acts.length ≤ most := by
  refine ⟨⟨Search.init.todo N + 1, fun fuel hfuel => searching_init.run (Nat.zero_le N) hfuel⟩,
    State.init.todo N, fun acts S h hok => ?_⟩
  obtain ⟨got, rest, hruns⟩ : S.Inv N :=
    exec_inv_of_ok (State.inv_init N) (fun _ _ _ h hs hin => (h.step hs hin).1) hok h
  have hle := exec_length_le_of_ok (State.todo N) (State.inv_init N)
    (fun _ _ _ h hs hin => h.step hs hin) hok h
  refine ⟨hruns.defined, hruns.queue.defined, hruns.primes_of_joined, hruns.exists_step, ?_⟩
  omega

/-- The end packet comes while the consumer works on the second prime number. -/
def twoPrimes : List Act := [
  .join, .endReached, .turn, .produceEnd, .consume, .endReached, .turn, .consume, .produce none,
  .endReached, .produce none]

theorem nthPrime_refines_twoPrimes :
    ∃ S, exec (State.step 2) .init twoPrimes = some S ∧ S.joined = true ∧
      S.search.primes 0 = 2 ∧ S.search.primes 1 = 3 ∧ S.search.primes = firstPrimes 2 := by
  have hok : OkThroughout (State.step 2) .init State.InTime twoPrimes := by
    have hne {a : PcPacket Nat} {l : List (PcPacket Nat)} := List.cons_ne_nil a l
    exact .cons (.cons (.cons (.cons (.cons (.cons (.cons (.cons (.cons (.cons (.cons
      okThroughout_nil rfl trivial) rfl hne) rfl trivial) rfl trivial) rfl trivial) rfl hne)
      rfl trivial) rfl trivial) rfl trivial) rfl hne) rfl trivial
  obtain ⟨-, most, h⟩ := nthPrime_refines 2
  exact ⟨_, rfl, rfl, rfl, rfl, (h twoPrimes _ rfl hok).2.2.1 rfl⟩

end NthPrime

end IcsaDswp
