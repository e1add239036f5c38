import IcsaDswp.Lib.Trace
import Mathlib.Data.List.Intervals
import Mathlib.Data.Multiset.AddSub

/-!
# The queue of `pcqueue.cpp`

`pc_queue`, a queue behind a mutex and a condition variable. Between `lock` and `unlock`, or `lock`
and `pthread_cond_wait`, one thread is alone with the queue: such a section is one action here. A
thread that waits is unblocked by a signal, or spuriously, and has to lock the mutex again before it
goes on; others may come first. `consume` tests the queue once, in front of the wait, so it takes
from an empty queue when it goes on too late or for nothing (`conserves_iff`). A single consumer
that only signals wake gets the elements in order (`Served`).
-/

namespace IcsaDswp

open Lib

/-- `pc_queue<T>` with its mutex free. `waiting` are the threads blocked in `pthread_cond_wait`,
`woken` those that are unblocked and have yet to lock the mutex. -/
structure PcQueue (τ T : Type) where
  data : List T
  waiting : List τ
  woken : List τ
  deriving DecidableEq

namespace PcQueue

variable {τ T : Type} [DecidableEq τ]

/-! ## The code -/

def empty : PcQueue τ T := ⟨[], [], []⟩

/-- `pthread_cond_signal(&data_available)`: it unblocks `signalled`, one that waits, if any does. -/
def signal (q : PcQueue τ T) : Option τ → Option (PcQueue τ T)
  | none => if q.waiting = [] then some q else none
  | some t =>
    if t ∈ q.waiting then
      some { q with waiting := q.waiting.erase t, woken := t :: q.woken }
    else none

def produce (q : PcQueue τ T) (element : T) (signalled : Option τ) : Option (PcQueue τ T) :=
  { q with data := q.data ++ [element] }.signal signalled

/-- What a section of `consume` comes to. -/
inductive Outcome (τ T : Type) where
  | returns (element : T) (q : PcQueue τ T)
  | waits (q : PcQueue τ T)
  /-- `front()` and `pop()` of an empty queue. -/
  | undefined

/-- `T element = data.front(); data.pop(); return element;` -/
def take (q : PcQueue τ T) : Outcome τ T :=
  match q.data with
  | [] => .undefined
  | element :: rest => .returns element { q with data := rest }

/-- `consume` of the thread `t`, up to the wait if it has to. -/
def consume (q : PcQueue τ T) (t : τ) : Outcome τ T :=
  if q.data.isEmpty then .waits { q with waiting := t :: q.waiting } else q.take

/-- `consume` of the thread `t`, from the wait on. -/
def resume (q : PcQueue τ T) (t : τ) : Outcome τ T :=
  { q with woken := q.woken.erase t }.take

/-- A spurious wake-up, or one by a signal that unblocks several threads. -/
def wake (q : PcQueue τ T) (t : τ) : Option (PcQueue τ T) :=
  if t ∈ q.waiting then
    some { q with waiting := q.waiting.erase t, woken := t :: q.woken }
  else none

/-- `t` is in no call of `consume`. -/
def Idle (q : PcQueue τ T) (t : τ) : Prop := t ∉ q.waiting ∧ t ∉ q.woken

instance (q : PcQueue τ T) (t : τ) : Decidable (q.Idle t) :=
  inferInstanceAs (Decidable (t ∉ q.waiting ∧ t ∉ q.woken))

/-! ## One queue, many threads -/

/-- A queue shared by threads, what they have put in and what `consume` has returned to them.
Nothing happens any more once a section was `undefined`. -/
structure Shared (τ T : Type) where
  queue : PcQueue τ T
  produced : List T
  returned : List T
  undefined : Bool
  deriving DecidableEq

/-- An atomic action of a thread. -/
inductive Act (τ T : Type) where
  | produce (t : τ) (element : T) (signalled : Option τ)
  | consume (t : τ)
  | wake (t : τ)
  | resume (t : τ)

namespace Shared

def init : Shared τ T := ⟨.empty, [], [], false⟩

def settle (s : Shared τ T) : Outcome τ T → Shared τ T
  | .returns element q => { s with queue := q, returned := s.returned ++ [element] }
  | .waits q => { s with queue := q }
  | .undefined => { s with undefined := true }

def act (s : Shared τ T) : Act τ T → Option (Shared τ T)
  | .produce t element signalled =>
    if s.queue.Idle t then
      (s.queue.produce element signalled).map fun q =>
        { s with queue := q, produced := s.produced ++ [element] }
    else none
  | .consume t => if s.queue.Idle t then some (s.settle (s.queue.consume t)) else none
  | .wake t => (s.queue.wake t).map fun q => { s with queue := q }
  | .resume t => if t ∈ s.queue.woken then some (s.settle (s.queue.resume t)) else none

def step (s : Shared τ T) (a : Act τ T) : Option (Shared τ T) :=
  if s.undefined then none else s.act a

end Shared

/-! ## The operations on the data -/

theorem signal_data {q q' : PcQueue τ T} {signalled : Option τ} (h : q.signal signalled = some q') :
    q'.data = q.data := by
  unfold signal at h
  split at h
  · split at h
    · exact (Option.some.inj h) ▸ rfl
    · cases h
  · split at h
    · exact (Option.some.inj h) ▸ rfl
    · cases h

theorem produce_data {q q' : PcQueue τ T} {element : T} {signalled : Option τ}
    (h : q.produce element signalled = some q') : q'.data = q.data ++ [element] :=
  signal_data h

theorem wake_data {q q' : PcQueue τ T} {t : τ} (h : q.wake t = some q') : q'.data = q.data := by
  unfold wake at h
  split at h
  · exact (Option.some.inj h) ▸ rfl
  · cases h

/-! ## What is kept -/

namespace Shared

/-- No section was undefined, and nothing was lost or returned twice. -/
structure Good (s : Shared τ T) : Prop where
  defined : s.undefined = false
  conserved : (s.returned : Multiset T) + (s.queue.data : Multiset T) = (s.produced : Multiset T)

/-- A thread that was woken goes on only while there is something in the queue. -/
def InTime (s : Shared τ T) : Act τ T → Prop
  | .resume _ => s.queue.data ≠ []
  | _ => True

/-- The elements come out in the order in which they went in. -/
structure Inv (s : Shared τ T) : Prop where
  defined : s.undefined = false
  fifo : s.returned ++ s.queue.data = s.produced

omit [DecidableEq τ] in
theorem Inv.good {s : Shared τ T} (h : s.Inv) : s.Good :=
  ⟨h.defined, by rw [Multiset.coe_add, h.fifo]⟩

omit [DecidableEq τ] in
theorem inv_init : (init : Shared τ T).Inv := ⟨rfl, rfl⟩

omit [DecidableEq τ] in
/-- Taking the first element keeps the order. -/
theorem Inv.settle_take {s : Shared τ T} (h : s.Inv) {q : PcQueue τ T} (hq : q.data = s.queue.data)
    (hne : s.queue.data ≠ []) : (s.settle q.take).Inv := by
  obtain ⟨element, rest, hdata⟩ := List.exists_cons_of_ne_nil hne
  have htake : q.take = .returns element { q with data := rest } := by
    unfold take
    rw [hq, hdata]
  rw [htake]
  refine ⟨h.defined, ?_⟩
  show (s.returned ++ [element]) ++ rest = s.produced
  rw [← h.fifo, hdata, List.append_assoc, List.singleton_append]

theorem Inv.step {s s' : Shared τ T} {a : Act τ T} (h : s.Inv) (hs : s.step a = some s')
    (hin : s.InTime a) : s'.Inv := by
  rw [Shared.step, h.defined, if_neg Bool.false_ne_true] at hs
  cases a with
  | produce t element signalled =>
    obtain ⟨-, hs⟩ := Option.ite_none_right_eq_some.mp hs
    obtain ⟨q, hq, rfl⟩ := Option.map_eq_some_iff.mp hs
    refine ⟨h.defined, ?_⟩
    show s.returned ++ q.data = s.produced ++ [element]
    rw [produce_data hq, ← h.fifo, List.append_assoc]
  | consume t =>
    obtain ⟨-, hs⟩ := Option.ite_none_right_eq_some.mp hs
    obtain rfl := Option.some.inj hs
    unfold PcQueue.consume
    split
    · exact ⟨h.defined, h.fifo⟩
    · next hne => exact h.settle_take rfl fun he => hne (List.isEmpty_iff.mpr he)
  | wake t =>
    obtain ⟨q, hq, rfl⟩ := Option.map_eq_some_iff.mp hs
    refine ⟨h.defined, ?_⟩
    show s.returned ++ q.data = s.produced
    rw [wake_data hq, h.fifo]
  | resume t =>
    obtain ⟨-, hs⟩ := Option.ite_none_right_eq_some.mp hs
    obtain rfl := Option.some.inj hs
    exact h.settle_take rfl hin

/-- A thread that goes on with the queue empty takes from it all the same. -/
theorem Inv.not_good_step {s s' : Shared τ T} {a : Act τ T} (h : s.Inv) (hs : s.step a = some s')
    (hin : ¬ s.InTime a) : ¬ s'.Good := by
  rw [Shared.step, h.defined, if_neg Bool.false_ne_true] at hs
  cases a with
  | resume t =>
    have hdata : s.queue.data = [] := not_not.mp hin
    obtain ⟨-, hs⟩ := Option.ite_none_right_eq_some.mp hs
    have hresume : s.queue.resume t = .undefined := by
      unfold PcQueue.resume take
      rw [hdata]
    rw [hresume] at hs
    obtain rfl := Option.some.inj hs
    exact fun hg => Bool.noConfusion hg.defined
  | produce _ _ _ | consume _ | wake _ => exact absurd trivial hin

/-- **`if` in front of the wait.** A run of any number of threads stays clear of the empty queue,
and keeps every element exactly once, precisely when no woken consumer goes on with the queue
empty. -/
theorem conserves_iff {acts : List (Act τ T)} {s : Shared τ T}
    (h : exec step init acts = some s) :
    GoodThroughout step init Good acts ↔ OkThroughout step init InTime acts :=
  exec_good_iff inv_init (fun _ h => h.good) (fun _ _ _ h hs hin => h.step hs hin)
    (fun _ _ _ h hs hin => h.not_good_step hs hin) h

/-- A consumer waits, is signalled and gets the element. -/
theorem conserves_iff_handover :
    ∃ s, exec step init [.resume 1, .produce 0 7 (some 1), .consume 1] = some s ∧
      (GoodThroughout step init Good
          [Act.resume 1, .produce 0 7 (some 1), .consume (1 : Nat)] ↔
        OkThroughout step init InTime
          [Act.resume 1, .produce 0 (7 : Nat) (some 1), .consume (1 : Nat)]) :=
  ⟨_, rfl, conserves_iff rfl⟩

/-- A second consumer comes between the signal and the first one, which finds the queue empty; and a
consumer that wakes for nothing finds it empty as well. -/
theorem not_good_overtaken :
    (∃ s, exec step init
        [.resume 1, .consume 2, .produce 0 7 (some 1), .consume (1 : Nat)] = some s ∧
      ¬ (s : Shared Nat Nat).Good) ∧
    ∃ s, exec step init [.resume 1, .wake 1, .consume (1 : Nat)] = some s ∧
      ¬ (s : Shared Nat Nat).Good := by
  refine ⟨⟨_, rfl, fun h => ?_⟩, ⟨_, rfl, fun h => ?_⟩⟩
  · exact Bool.noConfusion h.defined
  · exact Bool.noConfusion h.defined

end Shared

/-! ## One consumer, woken by signals only -/

/-- The next section of `consume` of the thread `t`; none while it is blocked. -/
def next (q : PcQueue τ T) (t : τ) : Option (Outcome τ T) :=
  if t ∈ q.waiting then none
  else if t ∈ q.woken then some (q.resume t)
  else some (q.consume t)

/-- `t` is the only consumer of the elements `F 0`, `F 1`, ...: so many were `given` and so many
`taken`. It waits only on the empty queue, and it is woken only once something was given. -/
structure Served (t : τ) (F : Nat → T) (given taken : Nat) (q : PcQueue τ T) : Prop where
  le : taken ≤ given
  data : q.data = (List.Ico taken given).map F
  sleep : (q.waiting = [] ∧ q.woken = []) ∨ (q.waiting = [t] ∧ q.woken = [] ∧ q.data = []) ∨
    (q.waiting = [] ∧ q.woken = [t] ∧ q.data ≠ [])

section Served

variable {t : τ} {F : Nat → T} {given taken : Nat} {q q' : PcQueue τ T}

omit [DecidableEq τ] in
theorem served_empty (t : τ) (F : Nat → T) : Served t F 0 0 (empty : PcQueue τ T) :=
  ⟨le_rfl, rfl, .inl ⟨rfl, rfl⟩⟩

omit [DecidableEq τ] in
theorem Served.data_eq_nil_iff (h : Served t F given taken q) : q.data = [] ↔ taken = given := by
  rw [h.data, List.map_eq_nil_iff, List.Ico.eq_empty_iff]
  exact ⟨fun hle => le_antisymm h.le hle, fun he => he.ge⟩

omit [DecidableEq τ] in
theorem Served.data_push (h : Served t F given taken q) :
    q.data ++ [F given] = (List.Ico taken (given + 1)).map F := by
  rw [List.Ico.succ_top h.le, List.map_append, List.map_singleton, h.data]

/-- **Giving the next element** keeps the queue served, and wakes the consumer if it waits. -/
theorem Served.produce (h : Served t F given taken q) {signalled : Option τ}
    (hq : q.produce (F given) signalled = some q') :
    Served t F (given + 1) taken q' ∧ (q'.Idle t ↔ q.Idle t) := by
  have hdata : q'.data = q.data ++ [F given] := produce_data hq
  have hne : q'.data ≠ [] := by simp [hdata]
  have hserved : ∀ waiting woken, q' = ⟨q'.data, waiting, woken⟩ →
      (waiting = [] ∧ woken = []) ∨ (waiting = [] ∧ woken = [t]) →
      Served t F (given + 1) taken q' := by
    intro waiting woken he hw
    refine ⟨Nat.le_succ_of_le h.le, hdata.trans h.data_push, ?_⟩
    rw [he]
    rcases hw with hw | ⟨hw, hw'⟩
    · exact .inl hw
    · exact .inr (.inr ⟨hw, hw', hne⟩)
  unfold PcQueue.produce signal at hq
  rcases h.sleep with ⟨hw, hw'⟩ | ⟨hw, hw', -⟩ | ⟨hw, hw', -⟩
  · cases signalled with
    | some u => simp [hw] at hq
    | none =>
      obtain rfl := Option.some.inj ((if_pos hw).symm.trans hq)
      exact ⟨hserved [] [] (by simp [hw, hw']) (.inl ⟨rfl, rfl⟩), Iff.rfl⟩
  · cases signalled with
    | none => simp [hw] at hq
    | some u =>
      obtain ⟨hu, hq⟩ := Option.ite_none_right_eq_some.mp hq
      obtain rfl : u = t := by simpa [hw] using hu
      obtain rfl := Option.some.inj hq
      refine ⟨hserved [] [u] (by simp [hw, hw']) (.inr ⟨rfl, rfl⟩), ?_⟩
      simp [Idle, hw]
  · cases signalled with
    | some u => simp [hw] at hq
    | none =>
      obtain rfl := Option.some.inj ((if_pos hw).symm.trans hq)
      exact ⟨hserved [] [t] (by simp [hw, hw']) (.inr ⟨rfl, rfl⟩), Iff.rfl⟩

/-- Some signal goes with every `produce`. -/
theorem Served.exists_produce (h : Served t F given taken q) (element : T) :
    ∃ signalled q', q.produce element signalled = some q' := by
  unfold PcQueue.produce signal
  rcases h.sleep with ⟨hw, -⟩ | ⟨hw, -⟩ | ⟨hw, -⟩
  · exact ⟨none, _, if_pos hw⟩
  · exact ⟨some t, _, if_pos (by simp [hw])⟩
  · exact ⟨none, _, if_pos hw⟩

omit [DecidableEq τ] in
theorem Served.take (h : Served t F given taken q) (hlt : taken < given) {waiting woken : List τ}
    (hw : waiting = [] ∧ woken = []) : ∃ q' : PcQueue τ T,
      PcQueue.take ⟨q.data, waiting, woken⟩ = .returns (F taken) q' ∧
      Served t F given (taken + 1) q' ∧ q'.Idle t := by
  refine ⟨⟨(List.Ico (taken + 1) given).map F, waiting, woken⟩, ?_, ⟨hlt, rfl, .inl hw⟩, ?_⟩
  · rw [h.data, List.Ico.eq_cons hlt]
    rfl
  · simp [Idle, hw]

/-- **A section of the consumer** takes the next element, or starts to wait. -/
theorem Served.next (h : Served t F given taken q) {o : Outcome τ T} (ho : q.next t = some o) :
    (∃ q', o = .waits q' ∧ Served t F given taken q' ∧ q.Idle t ∧ ¬ q'.Idle t) ∨
    ∃ q', o = .returns (F taken) q' ∧ taken < given ∧ Served t F given (taken + 1) q' ∧
      q'.Idle t := by
  unfold PcQueue.next at ho
  rcases h.sleep with ⟨hw, hw'⟩ | ⟨hw, -, -⟩ | ⟨hw, hw', hne⟩
  · rw [if_neg (by simp [hw]), if_neg (by simp [hw'])] at ho
    obtain rfl := Option.some.inj ho
    by_cases hdata : q.data = []
    · refine .inl ⟨{ q with waiting := t :: q.waiting }, ?_, ⟨h.le, h.data, ?_⟩, ?_, ?_⟩
      · unfold consume
        rw [if_pos (List.isEmpty_iff.mpr hdata)]
      · exact .inr (.inl ⟨by simp [hw], hw', hdata⟩)
      · simp [Idle, hw, hw']
      · simp [Idle]
    · have hlt : taken < given := lt_of_le_of_ne h.le fun he => hdata (h.data_eq_nil_iff.mpr he)
      obtain ⟨q', htake, hq'⟩ := h.take hlt ⟨hw, hw'⟩
      refine .inr ⟨q', ?_, hlt, hq'⟩
      unfold consume
      rw [if_neg fun he => hdata (List.isEmpty_iff.mp he)]
      exact htake
  · rw [if_pos (by simp [hw])] at ho
    cases ho
  · rw [if_neg (by simp [hw]), if_pos (by simp [hw'])] at ho
    obtain rfl := Option.some.inj ho
    have hlt : taken < given := lt_of_le_of_ne h.le fun he => hne (h.data_eq_nil_iff.mpr he)
    have hawake : q.waiting = [] ∧ q.woken.erase t = [] := ⟨hw, by simp [hw']⟩
    obtain ⟨q', htake, hq'⟩ := h.take hlt hawake
    exact .inr ⟨q', htake, hlt, hq'⟩

/-- The consumer is blocked only when it has taken all that was given. -/
theorem Served.next_eq_none (h : Served t F given taken q) (hn : q.next t = none) :
    taken = given := by
  unfold PcQueue.next at hn
  rcases h.sleep with ⟨hw, hw'⟩ | ⟨-, -, hdata⟩ | ⟨hw, hw', -⟩
  · simp [hw, hw'] at hn
  · exact h.data_eq_nil_iff.mp hdata
  · simp [hw, hw'] at hn

end Served

end PcQueue

end IcsaDswp
