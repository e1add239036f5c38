import IcsaDswp.PcQueue

/-!
# `parallel_sum`

`parallel_sum` of `pcqueue.cpp`: four threads in a row, each created by the one before it, with a
queue between any two. A thread that waits on a queue is woken by a signal of that queue only. What
each thread has given to the next one and taken from the one before is in its program counter, so
the queues are served (`PcQueue.Served`) by neighbours in step, and no run gets stuck
(`parallelSum_correct`).
-/

namespace IcsaDswp

open Lib

/-- `long`. -/
abbrev Long := Int64

/-- How often `for (long i = 0; i < N; ++i)` goes round. -/
def iterations (N : Long) : Nat := N.toInt.toNat

namespace ParallelSum

/-! ## The code -/

def sequentialSum (f : Long → Long) (N : Long) : Long :=
  (List.range (iterations N)).foldl (fun sum i => sum + f (f (f (f (Int64.ofNat i))))) 0

inductive Thread where
  | main
  | consumer1
  | consumer2
  | consumer3
  deriving DecidableEq

/-- Where `parallel_sum` is; `create` is in front of `pthread_create`. -/
inductive MainPc where
  | create
  | produce (i : Nat)
  | join
  | returned
  deriving DecidableEq

/-- Where `consumer1` or `consumer2` is; `produce` has the element it took. -/
inductive StagePc where
  | notCreated
  | create
  | consume (i : Nat)
  | produce (i : Nat) (el : Long)
  | join
  | finished
  deriving DecidableEq

/-- Where `consumer3` is; `init` is in front of `args3.sum = 0`. -/
inductive SumPc where
  | notCreated
  | init
  | consume (i : Nat)
  | finished
  deriving DecidableEq

/-- The threads, the `queue` of `parallel_sum`, `consumer1` and `consumer2`, and the `sum` they all
refer to. Nothing happens any more once a section was `undefined`. -/
structure State where
  main : MainPc
  c1 : StagePc
  c2 : StagePc
  c3 : SumPc
  q1 : PcQueue Thread Long
  q2 : PcQueue Thread Long
  q3 : PcQueue Thread Long
  sum : Long
  undefined : Bool
  deriving DecidableEq

/-- A thread goes on to the end of its next section; if that signals, `signalled` is woken. -/
structure Act where
  thread : Thread
  signalled : Option Thread

/-- `sum` is not initialised. -/
def init (garbage : Long) : State :=
  ⟨.create, .notCreated, .notCreated, .notCreated, .empty, .empty, .empty, garbage, false⟩

/-- What a section of `consumer1` or `consumer2` comes to. -/
inductive StageResult where
  | go (pc : StagePc) (qin qout : PcQueue Thread Long)
  /-- The next thread is created. -/
  | create
  | undefined

/-- The loop of `consumer1` and `consumer2`: `el = args.queue.consume(); queue.produce(f(el));`. -/
def stage (f : Long → Long) (n : Nat) (t : Thread) (nextFinished : Prop) [Decidable nextFinished]
    (signalled : Option Thread) (pc : StagePc) (qin qout : PcQueue Thread Long) :
    Option StageResult :=
  match pc with
  | .notCreated => none
  | .create => some .create
  | .consume i =>
    if i < n then
      (qin.next t).map fun
        | .returns el q => .go (.produce i el) q qout
        | .waits q => .go (.consume i) q qout
        | .undefined => .undefined
    else some (.go .join qin qout)
  | .produce i el => (qout.produce (f el) signalled).map fun q => .go (.consume (i + 1)) qin q
  | .join => if nextFinished then some (.go .finished qin qout) else none
  | .finished => none

def main (f : Long → Long) (n : Nat) (s : State) (signalled : Option Thread) : Option State :=
  match s.main with
  | .create => some { s with main := .produce 0, c1 := .create }
  | .produce i =>
    if i < n then
      (s.q1.produce (f (Int64.ofNat i)) signalled).map fun q =>
        { s with main := .produce (i + 1), q1 := q }
    else some { s with main := .join }
  | .join => if s.c1 = .finished then some { s with main := .returned } else none
  | .returned => none

def consumer1 (f : Long → Long) (n : Nat) (s : State) (signalled : Option Thread) : Option State :=
  (stage f n .consumer1 (s.c2 = .finished) signalled s.c1 s.q1 s.q2).map fun
    | .go pc qin qout => { s with c1 := pc, q1 := qin, q2 := qout }
    | .create => { s with c1 := .consume 0, c2 := .create }
    | .undefined => { s with undefined := true }

def consumer2 (f : Long → Long) (n : Nat) (s : State) (signalled : Option Thread) : Option State :=
  (stage f n .consumer2 (s.c3 = .finished) signalled s.c2 s.q2 s.q3).map fun
    | .go pc qin qout => { s with c2 := pc, q2 := qin, q3 := qout }
    | .create => { s with c2 := .consume 0, c3 := .init }
    | .undefined => { s with undefined := true }

def consumer3 (f : Long → Long) (n : Nat) (s : State) : Option State :=
  match s.c3 with
  | .notCreated => none
  | .init => some { s with c3 := .consume 0, sum := 0 }
  | .consume i =>
    if i < n then
      (s.q3.next .consumer3).map fun
        | .returns el q => { s with c3 := .consume (i + 1), q3 := q, sum := s.sum + f el }
        | .waits q => { s with q3 := q }
        | .undefined => { s with undefined := true }
    else some { s with c3 := .finished }
  | .finished => none

def step (f : Long → Long) (N : Long) (s : State) (a : Act) : Option State :=
  if s.undefined then none
  else
    match a.thread with
    | .main => main f (iterations N) s a.signalled
    | .consumer1 => consumer1 f (iterations N) s a.signalled
    | .consumer2 => consumer2 f (iterations N) s a.signalled
    | .consumer3 => consumer3 f (iterations N) s

/-- All threads have finished. -/
def State.Finished (s : State) : Prop :=
  s.main = .returned ∧ s.c1 = .finished ∧ s.c2 = .finished ∧ s.c3 = .finished

/-! ## How far a thread is -/

/-- The elements put into the first queue. -/
def MainPc.given (n : Nat) : MainPc → Nat
  | .create => 0
  | .produce i => i
  | .join | .returned => n

def StagePc.taken (n : Nat) : StagePc → Nat
  | .notCreated | .create => 0
  | .consume i => i
  | .produce i _ => i + 1
  | .join | .finished => n

def StagePc.given (n : Nat) : StagePc → Nat
  | .notCreated | .create => 0
  | .consume i | .produce i _ => i
  | .join | .finished => n

def SumPc.taken (n : Nat) : SumPc → Nat
  | .notCreated | .init => 0
  | .consume i => i
  | .finished => n

/-- The thread has created the next one. -/
def StagePc.running : StagePc → Bool
  | .notCreated | .create => false
  | _ => true

def SumPc.running : SumPc → Bool
  | .notCreated | .init => false
  | _ => true

def MainPc.Ok (n : Nat) : MainPc → Prop
  | .produce i => i ≤ n
  | _ => True

/-- In the loop, with the right element in hand. -/
def StagePc.Ok (n : Nat) (F : Nat → Long) : StagePc → Prop
  | .consume i => i ≤ n
  | .produce i el => i < n ∧ el = F i
  | _ => True

def SumPc.Ok (n : Nat) : SumPc → Prop
  | .consume i => i ≤ n
  | _ => True

/-- What is left to do for `main`, in sections. -/
def MainPc.todo (n : Nat) : MainPc → Nat
  | .create => n + 3
  | .produce i => n - i + 2
  | .join => 1
  | .returned => 0

/-- An element takes a section more where its consumer has to wait. -/
def StagePc.todo (n : Nat) (t : Thread) (qin : PcQueue Thread Long) : StagePc → Nat
  | .notCreated => 3 * n + 6
  | .create => 3 * n + 5
  | .consume i => 3 * (n - i) + 2 + if qin.Idle t then 1 else 0
  | .produce i _ => 3 * (n - i) + 1
  | .join => 1
  | .finished => 0

def SumPc.todo (n : Nat) (qin : PcQueue Thread Long) : SumPc → Nat
  | .notCreated => 2 * n + 5
  | .init => 2 * n + 4
  | .consume i => 2 * (n - i) + 1 + if qin.Idle .consumer3 then 1 else 0
  | .finished => 0

theorem idle_le_one (q : PcQueue Thread Long) (t : Thread) :
    (if q.Idle t then 1 else 0) ≤ 1 := by
  split <;> omega

/-! ## One stage -/

section Stage

variable {f : Long → Long} {n : Nat} {t t' : Thread} {F : Nat → Long} {given taken : Nat}
  {nextFinished : Prop} [Decidable nextFinished] {signalled : Option Thread} {pc : StagePc}
  {qin qout : PcQueue Thread Long} {r : StageResult}

/-- Once `create` is behind it, a section of a stage keeps both its queues served, and uses up some
of what it has to do. -/
theorem stage_spec (hin : qin.Served t F given (pc.taken n))
    (hout : qout.Served t' (f ∘ F) (pc.given n) taken) (hpc : pc.Ok n F)
    (h : stage f n t nextFinished signalled pc qin qout = some r) :
    (r = .create ∧ pc = .create) ∨
    ∃ pc' qin' qout', r = .go pc' qin' qout' ∧ qin'.Served t F given (pc'.taken n) ∧
      qout'.Served t' (f ∘ F) (pc'.given n) taken ∧ pc'.Ok n F ∧ pc ≠ .finished ∧
      pc.running = true ∧ pc'.running = true ∧ (pc' = .finished → nextFinished) ∧
      (qout'.Idle t' ↔ qout.Idle t') ∧ pc'.todo n t qin' < pc.todo n t qin := by
  cases pc with
  | notCreated => cases h
  | create => exact .inl ⟨(Option.some.inj h).symm, rfl⟩
  | consume i =>
    right
    by_cases hi : i < n
    · obtain ⟨o, ho, rfl⟩ := Option.map_eq_some_iff.mp ((if_pos hi).symm.trans h)
      rcases hin.next ho with ⟨q', rfl, hq', hidle, hidle'⟩ | ⟨q', rfl, -, hq', -⟩
      · refine ⟨.consume i, q', qout, rfl, hq', hout, hpc, nofun, rfl, rfl, nofun, Iff.rfl, ?_⟩
        simp only [StagePc.todo, if_neg hidle', if_pos hidle]
        omega
      · refine ⟨.produce i (F i), q', qout, rfl, hq', hout, ⟨hi, rfl⟩, nofun, rfl, rfl, nofun,
          Iff.rfl, ?_⟩
        simp only [StagePc.todo]
        omega
    · obtain rfl : i = n := le_antisymm hpc (not_lt.mp hi)
      obtain rfl := Option.some.inj ((if_neg hi).symm.trans h)
      refine ⟨.join, qin, qout, rfl, hin, hout, trivial, nofun, rfl, rfl, nofun, Iff.rfl, ?_⟩
      simp only [StagePc.todo]
      omega
  | produce i el =>
    right
    obtain ⟨hi, rfl⟩ := hpc
    obtain ⟨q', hq', rfl⟩ := Option.map_eq_some_iff.mp h
    obtain ⟨hserved, hidle⟩ := hout.produce hq'
    refine ⟨.consume (i + 1), qin, q', rfl, hin, hserved, hi, nofun, rfl, rfl, nofun, hidle, ?_⟩
    have hone := idle_le_one qin t
    simp only [StagePc.todo]
    omega
  | join =>
    right
    obtain ⟨hnext, h⟩ := Option.ite_none_right_eq_some.mp h
    refine ⟨.finished, qin, qout, (Option.some.inj h).symm, hin, hout, trivial, nofun, rfl, rfl,
      fun _ => hnext, Iff.rfl, ?_⟩
    simp only [StagePc.todo]
    omega
  | finished => cases h

/-- A stage is not stuck where all it needs was given and the next thread does not hold it up. -/
theorem exists_stage (hin : qin.Served t F n (pc.taken n))
    (hout : qout.Served t' (f ∘ F) (pc.given n) taken) (hcreated : pc ≠ .notCreated)
    (hfin : pc ≠ .finished) (hjoin : pc = .join → nextFinished) :
    ∃ signalled r, stage f n t nextFinished signalled pc qin qout = some r := by
  cases pc with
  | notCreated => exact absurd rfl hcreated
  | create => exact ⟨none, _, rfl⟩
  | consume i =>
    by_cases hi : i < n
    · cases hnext : qin.next t with
      | none => exact absurd (hin.next_eq_none hnext) hi.ne
      | some o => exact ⟨none, _, (if_pos hi).trans (Option.map_eq_some_iff.mpr ⟨o, hnext, rfl⟩)⟩
    · exact ⟨none, _, if_neg hi⟩
  | produce i el =>
    obtain ⟨signalled, q', hq'⟩ := hout.exists_produce (f el)
    exact ⟨signalled, _, Option.map_eq_some_iff.mpr ⟨q', hq', rfl⟩⟩
  | join => exact ⟨none, _, if_pos (hjoin rfl)⟩
  | finished => exact absurd rfl hfin

end Stage

/-! ## What is kept -/

/-- The elements that `parallel_sum` produces. -/
def first (f : Long → Long) (i : Nat) : Long := f (Int64.ofNat i)

/-- `sum` once `i` elements have come through. -/
def sumTo (f : Long → Long) (i : Nat) : Long :=
  (List.range i).foldl (fun sum i => sum + f (f (f (f (Int64.ofNat i))))) 0

theorem sumTo_succ (f : Long → Long) (i : Nat) :
    sumTo f (i + 1) = sumTo f i + f ((f ∘ f ∘ first f) i) := by
  unfold sumTo
  rw [List.range_succ, List.foldl_append]
  rfl

/-- What is left to do for all threads. -/
def State.todo (n : Nat) (s : State) : Nat :=
  s.main.todo n + s.c1.todo n .consumer1 s.q1 + s.c2.todo n .consumer2 s.q2 + s.c3.todo n s.q3

/-- Each queue is between two threads in step. A thread is there from when the one before it has
created it, and has finished when the one before it goes on from `pthread_join`. -/
structure State.Inv (f : Long → Long) (n : Nat) (s : State) : Prop where
  defined : s.undefined = false
  q1 : s.q1.Served .consumer1 (first f) (s.main.given n) (s.c1.taken n)
  q2 : s.q2.Served .consumer2 (f ∘ first f) (s.c1.given n) (s.c2.taken n)
  q3 : s.q3.Served .consumer3 (f ∘ f ∘ first f) (s.c2.given n) (s.c3.taken n)
  main : s.main.Ok n
  c1 : s.c1.Ok n (first f)
  c2 : s.c2.Ok n (f ∘ first f)
  c3 : s.c3.Ok n
  created1 : s.main = .create ↔ s.c1 = .notCreated
  created2 : s.c1.running = false ↔ s.c2 = .notCreated
  created3 : s.c2.running = false ↔ s.c3 = .notCreated
  joined1 : s.main = .returned → s.c1 = .finished
  joined2 : s.c1 = .finished → s.c2 = .finished
  joined3 : s.c2 = .finished → s.c3 = .finished
  sum : s.c3.running = true → s.sum = sumTo f (s.c3.taken n)

theorem StagePc.ne_notCreated {pc : StagePc} (h : pc.running = true) : pc ≠ .notCreated := by
  rintro rfl
  cases h

theorem StagePc.todo_congr {n : Nat} {t : Thread} {q q' : PcQueue Thread Long}
    (h : q'.Idle t ↔ q.Idle t) (pc : StagePc) : pc.todo n t q' = pc.todo n t q := by
  cases pc <;> simp [StagePc.todo, h]

theorem SumPc.todo_congr {n : Nat} {q q' : PcQueue Thread Long}
    (h : q'.Idle .consumer3 ↔ q.Idle .consumer3) (pc : SumPc) : pc.todo n q' = pc.todo n q := by
  cases pc <;> simp [SumPc.todo, h]

theorem inv_init (f : Long → Long) (n : Nat) (garbage : Long) : (init garbage).Inv f n where
  defined := rfl
  q1 := PcQueue.served_empty _ _
  q2 := PcQueue.served_empty _ _
  q3 := PcQueue.served_empty _ _
  main := trivial
  c1 := trivial
  c2 := trivial
  c3 := trivial
  created1 := ⟨fun _ => rfl, fun _ => rfl⟩
  created2 := ⟨fun _ => rfl, fun _ => rfl⟩
  created3 := ⟨fun _ => rfl, fun _ => rfl⟩
  joined1 := nofun
  joined2 := nofun
  joined3 := nofun
  sum := nofun

section Step

variable {f : Long → Long} {n : Nat} {s s' : State} {signalled : Option Thread}

theorem State.Inv.main_step (h : s.Inv f n) (hs : ParallelSum.main f n s signalled = some s') :
    s'.Inv f n ∧ s'.todo n < s.todo n := by
  obtain ⟨main, c1, c2, c3, q1, q2, q3, sum, undefined⟩ := s
  cases main with
  | create =>
    obtain rfl := Option.some.inj hs
    obtain rfl : c1 = .notCreated := h.created1.mp rfl
    constructor
    · exact { h with
        q1 := h.q1, main := Nat.zero_le n, c1 := trivial, created1 := ⟨nofun, nofun⟩
        created2 := h.created2, joined1 := nofun, joined2 := nofun }
    · simp only [State.todo, MainPc.todo, StagePc.todo]
      omega
  | produce i =>
    have hi : i ≤ n := h.main
    rcases hi.lt_or_eq with hi | rfl
    · obtain ⟨q, hq, rfl⟩ := Option.map_eq_some_iff.mp ((if_pos hi).symm.trans hs)
      obtain ⟨hserved, hidle⟩ := h.q1.produce hq
      constructor
      · exact { h with
          q1 := hserved, main := hi, joined1 := nofun
          created1 := ⟨nofun, fun hc => absurd (h.created1.mpr hc) nofun⟩ }
      · simp only [State.todo, MainPc.todo, StagePc.todo_congr hidle]
        omega
    · obtain rfl := Option.some.inj ((if_neg (lt_irrefl i)).symm.trans hs)
      constructor
      · exact { h with
          q1 := h.q1, main := trivial, joined1 := nofun
          created1 := ⟨nofun, fun hc => absurd (h.created1.mpr hc) nofun⟩ }
      · simp only [State.todo, MainPc.todo]
        omega
  | join =>
    obtain ⟨hc1, hs⟩ := Option.ite_none_right_eq_some.mp hs
    obtain rfl := Option.some.inj hs
    constructor
    · exact { h with
        q1 := h.q1, main := trivial, joined1 := fun _ => hc1
        created1 := ⟨nofun, fun hc => absurd (h.created1.mpr hc) nofun⟩ }
    · simp only [State.todo, MainPc.todo]
      omega
  | returned => cases hs

theorem State.Inv.consumer1_step (h : s.Inv f n) (hs : consumer1 f n s signalled = some s') :
    s'.Inv f n ∧ s'.todo n < s.todo n := by
  obtain ⟨main, c1, c2, c3, q1, q2, q3, sum, undefined⟩ := s
  obtain ⟨r, hr, rfl⟩ := Option.map_eq_some_iff.mp hs
  rcases stage_spec h.q1 h.q2 h.c1 hr with ⟨rfl, rfl⟩ |
    ⟨pc', qin', qout', rfl, hin, hout, hok, hne, hrun, hrun', hfin, hidle, hlt⟩
  · obtain rfl : c2 = .notCreated := h.created2.mp rfl
    constructor
    · exact { h with
        q1 := h.q1, q2 := h.q2, c1 := Nat.zero_le n, c2 := trivial
        created1 := ⟨fun hm => absurd (h.created1.mp hm) nofun, nofun⟩
        created2 := ⟨nofun, nofun⟩, created3 := h.created3
        joined1 := fun hm => absurd (h.joined1 hm) nofun, joined2 := nofun, joined3 := nofun }
    · have hone := idle_le_one q1 .consumer1
      simp only [State.todo, StagePc.todo]
      omega
  · constructor
    · exact { h with
        q1 := hin, q2 := hout, c1 := hok
        created1 := ⟨fun hm => absurd (h.created1.mp hm) (StagePc.ne_notCreated hrun),
          fun hc => absurd hc (StagePc.ne_notCreated hrun')⟩
        created2 := (hrun'.trans hrun.symm) ▸ h.created2
        joined1 := fun hm => absurd (h.joined1 hm) hne, joined2 := hfin }
    · simp only [State.todo, StagePc.todo_congr hidle] at hlt ⊢
      omega

theorem State.Inv.consumer2_step (h : s.Inv f n) (hs : consumer2 f n s signalled = some s') :
    s'.Inv f n ∧ s'.todo n < s.todo n := by
  obtain ⟨main, c1, c2, c3, q1, q2, q3, sum, undefined⟩ := s
  obtain ⟨r, hr, rfl⟩ := Option.map_eq_some_iff.mp hs
  rcases stage_spec h.q2 h.q3 h.c2 hr with ⟨rfl, rfl⟩ |
    ⟨pc', qin', qout', rfl, hin, hout, hok, hne, hrun, hrun', hfin, hidle, hlt⟩
  · obtain rfl : c3 = .notCreated := h.created3.mp rfl
    constructor
    · exact { h with
        q2 := h.q2, q3 := h.q3, c2 := Nat.zero_le n, c3 := trivial
        created2 := ⟨fun hc => absurd (h.created2.mp hc) nofun, nofun⟩
        created3 := ⟨nofun, nofun⟩
        joined2 := fun hc => absurd (h.joined2 hc) nofun, joined3 := nofun, sum := nofun }
    · have hone := idle_le_one q2 .consumer2
      simp only [State.todo, StagePc.todo, SumPc.todo]
      omega
  · constructor
    · exact { h with
        q2 := hin, q3 := hout, c2 := hok
        created2 := ⟨fun hc => absurd (h.created2.mp hc) (StagePc.ne_notCreated hrun),
          fun hc => absurd hc (StagePc.ne_notCreated hrun')⟩
        created3 := (hrun'.trans hrun.symm) ▸ h.created3
        joined2 := fun hc => absurd (h.joined2 hc) hne, joined3 := hfin }
    · simp only [State.todo, SumPc.todo_congr hidle] at hlt ⊢
      omega

theorem State.Inv.consumer3_step (h : s.Inv f n) (hs : consumer3 f n s = some s') :
    s'.Inv f n ∧ s'.todo n < s.todo n := by
  obtain ⟨main, c1, c2, c3, q1, q2, q3, sum, undefined⟩ := s
  cases c3 with
  | notCreated => cases hs
  | init =>
    obtain rfl := Option.some.inj hs
    constructor
    · exact { h with
        q3 := h.q3, c3 := Nat.zero_le n, sum := fun _ => rfl
        created3 := ⟨fun hc => absurd (h.created3.mp hc) nofun, nofun⟩
        joined3 := fun hc => absurd (h.joined3 hc) nofun }
    · have hone := idle_le_one q3 .consumer3
      simp only [State.todo, SumPc.todo]
      omega
  | consume i =>
    have hi : i ≤ n := h.c3
    rcases hi.lt_or_eq with hi | rfl
    · obtain ⟨o, ho, rfl⟩ := Option.map_eq_some_iff.mp ((if_pos hi).symm.trans hs)
      rcases h.q3.next ho with ⟨q', rfl, hq', hidle, hidle'⟩ | ⟨q', rfl, -, hq', -⟩
      · refine ⟨{ h with q3 := hq' }, ?_⟩
        simp only [State.todo, SumPc.todo, if_neg hidle', if_pos hidle]
        omega
      · have hsum : sum = sumTo f i := h.sum rfl
        constructor
        · exact { h with
            q3 := hq', c3 := hi
            created3 := ⟨fun hc => absurd (h.created3.mp hc) nofun, nofun⟩
            joined3 := fun hc => absurd (h.joined3 hc) nofun
            sum := fun _ => (congrArg (· + f _) hsum).trans (sumTo_succ f i).symm }
        · have hone := idle_le_one q' .consumer3
          simp only [State.todo, SumPc.todo]
          omega
    · obtain rfl := Option.some.inj ((if_neg (lt_irrefl i)).symm.trans hs)
      constructor
      · exact { h with
          q3 := h.q3, c3 := trivial, sum := h.sum
          created3 := ⟨fun hc => absurd (h.created3.mp hc) nofun, nofun⟩
          joined3 := fun _ => rfl }
      · simp only [State.todo, SumPc.todo]
        omega
  | finished => cases hs

theorem State.Inv.step {N : Long} {a : Act} (h : s.Inv f (iterations N))
    (hs : ParallelSum.step f N s a = some s') :
    s'.Inv f (iterations N) ∧ s'.todo (iterations N) < s.todo (iterations N) := by
  rw [ParallelSum.step, h.defined, if_neg Bool.false_ne_true] at hs
  obtain ⟨thread, signalled⟩ := a
  cases thread with
  | main => exact h.main_step hs
  | consumer1 => exact h.consumer1_step hs
  | consumer2 => exact h.consumer2_step hs
  | consumer3 => exact h.consumer3_step hs

/-! ## No thread is stuck for ever -/

theorem State.Inv.exists_main (h : s.Inv f n) (hret : s.main ≠ .returned)
    (hjoin : s.main = .join → s.c1 = .finished) :
    ∃ signalled s', ParallelSum.main f n s signalled = some s' := by
  obtain ⟨main, c1, c2, c3, q1, q2, q3, sum, undefined⟩ := s
  cases main with
  | create => exact ⟨none, _, rfl⟩
  | produce i =>
    by_cases hi : i < n
    · obtain ⟨signalled, q, hq⟩ := h.q1.exists_produce (first f i)
      exact ⟨signalled, _, (if_pos hi).trans (Option.map_eq_some_iff.mpr ⟨q, hq, rfl⟩)⟩
    · exact ⟨none, _, if_neg hi⟩
  | join => exact ⟨none, _, if_pos (hjoin rfl)⟩
  | returned => exact absurd rfl hret

theorem State.Inv.exists_consumer1 (h : s.Inv f n) (hmain : s.main = .join)
    (hfin : s.c1 ≠ .finished) (hjoin : s.c1 = .join → s.c2 = .finished) :
    ∃ signalled s', consumer1 f n s signalled = some s' := by
  have hq1 := h.q1
  rw [hmain] at hq1
  have hcreated : s.c1 ≠ .notCreated := fun hc => by
    have hmain' := h.created1.mpr hc
    rw [hmain] at hmain'
    cases hmain'
  obtain ⟨signalled, r, hr⟩ := exists_stage hq1 h.q2 hcreated hfin hjoin
  exact ⟨signalled, _, Option.map_eq_some_iff.mpr ⟨r, hr, rfl⟩⟩

theorem State.Inv.exists_consumer2 (h : s.Inv f n) (hc1 : s.c1 = .join)
    (hfin : s.c2 ≠ .finished) (hjoin : s.c2 = .join → s.c3 = .finished) :
    ∃ signalled s', consumer2 f n s signalled = some s' := by
  have hq2 := h.q2
  rw [hc1] at hq2
  have hcreated : s.c2 ≠ .notCreated := fun hc => by
    have hrun := h.created2.mpr hc
    rw [hc1] at hrun
    cases hrun
  obtain ⟨signalled, r, hr⟩ := exists_stage hq2 h.q3 hcreated hfin hjoin
  exact ⟨signalled, _, Option.map_eq_some_iff.mpr ⟨r, hr, rfl⟩⟩

theorem State.Inv.exists_consumer3 (h : s.Inv f n) (hc2 : s.c2 = .join)
    (hfin : s.c3 ≠ .finished) : ∃ s', consumer3 f n s = some s' := by
  obtain ⟨main, c1, c2, c3, q1, q2, q3, sum, undefined⟩ := s
  obtain rfl : c2 = .join := hc2
  cases c3 with
  | notCreated => cases h.created3.mpr rfl
  | init => exact ⟨_, rfl⟩
  | consume i =>
    by_cases hi : i < n
    · cases hnext : q3.next .consumer3 with
      | none => exact absurd (h.q3.next_eq_none hnext) hi.ne
      | some o => exact ⟨_, (if_pos hi).trans (Option.map_eq_some_iff.mpr ⟨o, hnext, rfl⟩)⟩
    · exact ⟨_, if_neg hi⟩
  | finished => exact absurd rfl hfin

/-- If the first thread cannot go on it waits for the second one to finish, and so on down to the
last one, which waits for nothing but elements that are there. -/
theorem State.Inv.exists_step {N : Long} (h : s.Inv f (iterations N)) (hnot : ¬ s.Finished) :
    ∃ a s', ParallelSum.step f N s a = some s' := by
  by_contra hstuck
  have hdef : ¬ s.undefined = true := by simp [h.defined]
  have hret : s.main ≠ .returned := fun hret =>
    have hc1 := h.joined1 hret
    hnot ⟨hret, hc1, h.joined2 hc1, h.joined3 (h.joined2 hc1)⟩
  have hmain : s.main = .join ∧ s.c1 ≠ .finished := by
    by_contra hc
    obtain ⟨signalled, s', hs⟩ := h.exists_main hret fun hj => not_not.mp fun hc1 => hc ⟨hj, hc1⟩
    exact hstuck ⟨⟨.main, signalled⟩, s', (if_neg hdef).trans hs⟩
  have hc1 : s.c1 = .join ∧ s.c2 ≠ .finished := by
    by_contra hc
    obtain ⟨signalled, s', hs⟩ :=
      h.exists_consumer1 hmain.1 hmain.2 fun hj => not_not.mp fun hc2 => hc ⟨hj, hc2⟩
    exact hstuck ⟨⟨.consumer1, signalled⟩, s', (if_neg hdef).trans hs⟩
  have hc2 : s.c2 = .join ∧ s.c3 ≠ .finished := by
    by_contra hc
    obtain ⟨signalled, s', hs⟩ :=
      h.exists_consumer2 hc1.1 hc1.2 fun hj => not_not.mp fun hc3 => hc ⟨hj, hc3⟩
    exact hstuck ⟨⟨.consumer2, signalled⟩, s', (if_neg hdef).trans hs⟩
  obtain ⟨s', hs⟩ := h.exists_consumer3 hc2.1 hc2.2
  exact hstuck ⟨⟨.consumer3, none⟩, s', (if_neg hdef).trans hs⟩

end Step

/-- What is kept holds all along a run. -/
theorem inv_exec {f : Long → Long} {N garbage : Long} {acts : List Act} {s : State}
    (h : exec (step f N) (init garbage) acts = some s) : s.Inv f (iterations N) :=
  exec_inv (inv_init f _ garbage) (fun _ _ _ h hs => (h.step hs).1) h

theorem length_exec {f : Long → Long} {N garbage : Long} {acts : List Act} {s : State}
    (h : exec (step f N) (init garbage) acts = some s) :
    acts.length ≤ 9 * iterations N + 20 := by
  have hle := exec_length_le (State.todo (iterations N)) (inv_init f _ garbage)
    (fun _ _ _ h hs => h.step hs) h
  have hinit : (init garbage).todo (iterations N) = 9 * iterations N + 20 := by
    simp only [State.todo, init, MainPc.todo, StagePc.todo, SumPc.todo]
    omega
  omega

/-- **`parallel_sum` sums up.** However its threads take turns, none pops an empty queue, some
thread can go on until all have finished, which is after a bounded number of sections, and what is
returned is the sequential sum. -/
theorem parallelSum_correct (f : Long → Long) (N garbage : Long) {acts : List Act} {s : State}
    (h : exec (step f N) (init garbage) acts = some s) :
    s.undefined = false ∧ (¬ s.Finished → ∃ a s', step f N s a = some s') ∧
      (s.main = .returned → s.Finished ∧ s.sum = sequentialSum f N) ∧
      acts.length ≤ 9 * iterations N + 20 := by
  have hinv := inv_exec h
  refine ⟨hinv.defined, hinv.exists_step, fun hret => ?_, length_exec h⟩
  have hc1 := hinv.joined1 hret
  have hc3 := hinv.joined3 (hinv.joined2 hc1)
  refine ⟨⟨hret, hc1, hinv.joined2 hc1, hc3⟩, ?_⟩
  have hsum := hinv.sum (by rw [hc3]; rfl)
  rw [hc3] at hsum
  exact hsum

/-- Three elements on their way, with each consumer waiting at its queue before the first one. -/
def threeElements : List Act :=
  [⟨.main, none⟩, ⟨.consumer1, none⟩, ⟨.consumer2, none⟩] ++ List.replicate 4 ⟨.consumer3, none⟩ ++
  List.replicate 5 ⟨.consumer2, none⟩ ++ [⟨.consumer2, some .consumer3⟩, ⟨.consumer2, none⟩] ++
  List.replicate 5 ⟨.consumer1, none⟩ ++ [⟨.consumer1, some .consumer2⟩, ⟨.consumer1, none⟩] ++
  List.replicate 3 ⟨.main, none⟩ ++ [⟨.main, some .consumer1⟩,
  ⟨.consumer3, none⟩, ⟨.consumer3, none⟩, ⟨.consumer2, none⟩, ⟨.consumer2, none⟩,
  ⟨.consumer1, none⟩, ⟨.consumer1, none⟩, ⟨.main, none⟩]

theorem parallelSum_correct_threeElements :
    ∃ s, exec (step (· + 1) 3) (init 5) threeElements = some s ∧ s.main = .returned ∧
      s.sum = 15 ∧ s.undefined = false ∧
      (¬ s.Finished → ∃ a s', step (· + 1) 3 s a = some s') ∧
      (s.main = .returned → s.Finished ∧ s.sum = sequentialSum (· + 1) 3) ∧
      threeElements.length ≤ 9 * iterations 3 + 20 := by
  have hrun : (exec (step (· + 1) 3) (init 5) threeElements).map (·.main) = some .returned := by
    decide +kernel
  obtain ⟨s, hs, hret⟩ := Option.map_eq_some_iff.mp hrun
  obtain ⟨hdefined, hprogress, hsum, hlength⟩ := parallelSum_correct (· + 1) 3 5 hs
  have hfifteen : sequentialSum (· + 1) 3 = 15 := by decide
  exact ⟨s, hs, hret, (hsum hret).2.trans hfifteen, hdefined, hprogress, hsum, hlength⟩

end ParallelSum

end IcsaDswp
