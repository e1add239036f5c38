import IcsaDswp.PcQueue

/-!
# The queue with end packets

`pc_queue` of `nth-prime-dswp.cpp` and `lbm-dswp.cpp`: the elements travel in packets, and an end
packet tells the consumer to leave its loop. `consume` waits for a packet; `end_reached` looks at
the first one whether there is one or not. As long as there is, the consumer never has to wait, and
it gets what was produced and leaves in the end (`delivers_iff`).
-/

namespace IcsaDswp

open Lib

/-- `pc_packet<T>`; the datum is invalid in an end packet. -/
structure PcPacket (T : Type) where
  end_of_queue : Bool
  datum : T
  deriving DecidableEq

namespace PacketQueue

variable {τ T : Type} [DecidableEq τ]

/-! ## The code -/

/-- `data.push({false, element}); data_available.notify_one();` -/
def produce (q : PcQueue τ (PcPacket T)) (element : T) (notified : Option τ) :
    Option (PcQueue τ (PcPacket T)) :=
  PcQueue.produce q ⟨false, element⟩ notified

/-- `data.push({true, T()});`, which notifies nobody. -/
def produceEnd [Inhabited T] (q : PcQueue τ (PcPacket T)) : PcQueue τ (PcPacket T) :=
  { q with data := q.data ++ [⟨true, default⟩] }

/-- `data.front().end_of_queue`; nothing to read in an empty queue. -/
def endReached (q : PcQueue τ (PcPacket T)) : Option Bool :=
  q.data.head?.map PcPacket.end_of_queue

/-! ## What is in the queue -/

/-- The packet of a datum. -/
def packet (element : T) : PcPacket T := ⟨false, element⟩

/-- The packets of some data and, once it is sent, the end packet. -/
def inQueue [Inhabited T] (data : List T) (ended : Bool) : List (PcPacket T) :=
  data.map packet ++ if ended then [⟨true, default⟩] else []

theorem inQueue_produce [Inhabited T] (data : List T) (element : T) :
    inQueue data false ++ [packet element] = inQueue (data ++ [element]) false := by
  simp [inQueue]

theorem inQueue_produceEnd [Inhabited T] (data : List T) :
    inQueue data false ++ [⟨true, default⟩] = inQueue data true := by
  simp [inQueue]

theorem map_packet_datum (l : List T) : (l.map packet).map PcPacket.datum = l := by
  rw [List.map_map]
  exact List.map_id l

/-! ## A producer and a consumer -/

/-- Where the consumer is in `while (!end_reached()) consume()`. -/
inductive ConsumerPc where
  | test
  | consume
  | left
  deriving DecidableEq

/-- The queue, the consumer, whether `produce_end` was called, what has been put in and what has
been taken out. Nothing happens any more once a section was `undefined`. -/
structure State (T : Type) where
  queue : PcQueue Unit (PcPacket T)
  pc : ConsumerPc
  ended : Bool
  produced : List T
  consumed : List (PcPacket T)
  undefined : Bool
  deriving DecidableEq

/-- An atomic action; the first two are the producer's. -/
inductive Act (T : Type) where
  | produce (element : T) (notified : Option Unit)
  | produceEnd
  | endReached
  | consume
  | wake
  | resume

namespace State

def init : State T := ⟨.empty, .test, false, [], [], false⟩

def settle (s : State T) : PcQueue.Outcome Unit (PcPacket T) → State T
  | .returns packet q => { s with queue := q, pc := .test, consumed := s.consumed ++ [packet] }
  | .waits q => { s with queue := q }
  | .undefined => { s with undefined := true }

def act [Inhabited T] (s : State T) : Act T → Option (State T)
  | .produce element notified =>
    if s.ended then none
    else (PacketQueue.produce s.queue element notified).map fun q =>
      { s with queue := q, produced := s.produced ++ [element] }
  | .produceEnd =>
    if s.ended then none
    else some { s with queue := PacketQueue.produceEnd s.queue, ended := true }
  | .endReached =>
    if s.pc = .test then
      match PacketQueue.endReached s.queue with
      | some true => some { s with pc := .left }
      | some false => some { s with pc := .consume }
      | none => some { s with undefined := true }
    else none
  | .consume =>
    if s.pc = .consume ∧ s.queue.Idle () then some (s.settle (s.queue.consume ())) else none
  | .wake => (s.queue.wake ()).map fun q => { s with queue := q }
  | .resume => if () ∈ s.queue.woken then some (s.settle (s.queue.resume ())) else none

def step [Inhabited T] (s : State T) (a : Act T) : Option (State T) :=
  if s.undefined then none else s.act a

/-! ## What is delivered -/

/-- No section was undefined, the data come out as they went in, no end packet among them, and the
consumer leaves after the last. -/
structure Good (s : State T) : Prop where
  defined : s.undefined = false
  isPrefix : s.consumed.map PcPacket.datum <+: s.produced
  noEnd : ∀ packet ∈ s.consumed, packet.end_of_queue = false
  left : s.pc = .left → s.ended = true ∧ s.consumed.map PcPacket.datum = s.produced

/-- The consumer looks for the end only while there is a packet. -/
def InTime (s : State T) : Act T → Prop
  | .endReached => s.queue.data ≠ []
  | _ => True

/-- The consumer has `got` these data, the `rest` is under way. -/
structure Holds [Inhabited T] (s : State T) (got rest : List T) : Prop where
  defined : s.undefined = false
  produced : s.produced = got ++ rest
  consumed : s.consumed = got.map packet
  data : s.queue.data = inQueue rest s.ended
  awake : s.queue.waiting = [] ∧ s.queue.woken = []
  pending : s.pc = .consume → rest ≠ []
  done : s.pc = .left → s.ended = true ∧ rest = []

def Inv [Inhabited T] (s : State T) : Prop := ∃ got rest, s.Holds got rest

variable [Inhabited T]

theorem inv_init : (init : State T).Inv :=
  ⟨[], [], rfl, rfl, rfl, rfl, ⟨rfl, rfl⟩, nofun, nofun⟩

theorem Inv.good {s : State T} (h : s.Inv) : s.Good := by
  obtain ⟨got, rest, h⟩ := h
  refine ⟨h.defined, ?_, fun p hp => ?_, fun hleft => ?_⟩
  · rw [h.consumed, map_packet_datum, h.produced]
    exact List.prefix_append got rest
  · rw [h.consumed] at hp
    obtain ⟨element, -, rfl⟩ := List.mem_map.mp hp
    rfl
  · obtain ⟨hended, rfl⟩ := h.done hleft
    rw [h.consumed, map_packet_datum, h.produced, List.append_nil]
    exact ⟨hended, rfl⟩

omit [Inhabited T] in
/-- Nobody waits, so a notification reaches nobody. -/
theorem produce_eq {q q' : PcQueue Unit (PcPacket T)} {element : T} {notified : Option Unit}
    (hq : q.waiting = []) (h : PacketQueue.produce q element notified = some q') :
    q' = { q with data := q.data ++ [packet element] } := by
  unfold PacketQueue.produce PcQueue.produce PcQueue.signal at h
  cases notified with
  | none => exact (Option.some.inj ((if_pos hq).symm.trans h)).symm
  | some u => simp [hq] at h

theorem Holds.produce {s : State T} {got rest : List T} (h : s.Holds got rest)
    (hended : s.ended = false) (element : T) :
    State.Holds { s with
      queue := { s.queue with data := s.queue.data ++ [packet element] }
      produced := s.produced ++ [element] } got (rest ++ [element]) := by
  refine ⟨h.defined, ?_, h.consumed, ?_, h.awake, fun _ => by simp, fun hleft => ?_⟩
  · rw [h.produced, List.append_assoc]
  · rw [h.data, hended]
    exact inQueue_produce rest element
  · exact absurd (h.done hleft).1 (by simp [hended])

theorem Holds.produceEnd {s : State T} {got rest : List T} (h : s.Holds got rest)
    (hended : s.ended = false) :
    State.Holds { s with queue := PacketQueue.produceEnd s.queue, ended := true } got rest := by
  refine ⟨h.defined, h.produced, h.consumed, ?_, h.awake, h.pending, fun hleft => ?_⟩
  · show s.queue.data ++ [⟨true, default⟩] = inQueue rest true
    rw [h.data, hended]
    exact inQueue_produceEnd rest
  · exact absurd (h.done hleft).1 (by simp [hended])

/-- The consumer goes on with the next datum, or leaves when only the end packet is there. -/
theorem Holds.endReached {s s' : State T} {got rest : List T} (h : s.Holds got rest)
    (hne : s.queue.data ≠ []) (hs : s.act .endReached = some s') :
    s.pc = .test ∧ s'.pc ≠ .test ∧ s'.ended = s.ended ∧ s'.Holds got rest := by
  obtain ⟨hpc, hs⟩ := Option.ite_none_right_eq_some.mp hs
  refine ⟨hpc, ?_⟩
  cases rest with
  | nil =>
    have hended : s.ended = true := by
      by_contra hended
      exact hne (by simp [h.data, inQueue, hended])
    have hend : PacketQueue.endReached s.queue = some true := by
      simp [PacketQueue.endReached, h.data, inQueue, hended]
    rw [hend] at hs
    obtain rfl := Option.some.inj hs
    exact ⟨nofun, rfl,
      h.defined, h.produced, h.consumed, h.data, h.awake, nofun, fun _ => ⟨hended, rfl⟩⟩
  | cons element rest =>
    have hend : PacketQueue.endReached s.queue = some false := by
      simp [PacketQueue.endReached, h.data, inQueue, packet]
    rw [hend] at hs
    obtain rfl := Option.some.inj hs
    exact ⟨nofun, rfl,
      h.defined, h.produced, h.consumed, h.data, h.awake, fun _ => List.cons_ne_nil _ _, nofun⟩

/-- There is something to consume, so the consumer does not wait. -/
theorem Holds.consume {s s' : State T} {got rest : List T} (h : s.Holds got rest)
    (hs : s.act .consume = some s') :
    s.pc = .consume ∧ s'.pc = .test ∧ s'.ended = s.ended ∧
      ∃ element rest', rest = element :: rest' ∧ s'.Holds (got ++ [element]) rest' := by
  obtain ⟨⟨hpc, -⟩, hs⟩ := Option.ite_none_right_eq_some.mp hs
  obtain ⟨element, rest, rfl⟩ := List.exists_cons_of_ne_nil (h.pending hpc)
  have hdata : s.queue.data = packet element :: inQueue rest s.ended := h.data
  have hconsume : s.queue.consume () = .returns (packet element)
      { s.queue with data := inQueue rest s.ended } := by
    unfold PcQueue.consume PcQueue.take
    simp [hdata]
  rw [hconsume] at hs
  obtain rfl := Option.some.inj hs
  refine ⟨hpc, rfl, rfl, element, rest, rfl, h.defined, ?_, ?_, rfl, h.awake, nofun, nofun⟩
  · show s.produced = (got ++ [element]) ++ rest
    rw [h.produced, List.append_assoc, List.singleton_append]
  · show s.consumed ++ [packet element] = (got ++ [element]).map packet
    rw [h.consumed, List.map_append, List.map_singleton]

/-- What an action in time can do; nobody waits, so nobody is woken. -/
theorem Holds.step_cases {s s' : State T} {a : Act T} {got rest : List T} (h : s.Holds got rest)
    (hs : s.step a = some s') (hin : s.InTime a) :
    (∃ element notified, a = .produce element notified ∧ s.ended = false ∧ s'.ended = false ∧
      s'.pc = s.pc ∧ s'.Holds got (rest ++ [element])) ∨
    (a = .produceEnd ∧ s.ended = false ∧ s'.ended = true ∧ s'.pc = s.pc ∧ s'.Holds got rest) ∨
    (a = .endReached ∧ s.pc = .test ∧ s'.pc ≠ .test ∧ s'.ended = s.ended ∧ s'.Holds got rest) ∨
    (a = .consume ∧ s.pc = .consume ∧ s'.pc = .test ∧ s'.ended = s.ended ∧
      ∃ element rest', rest = element :: rest' ∧ s'.Holds (got ++ [element]) rest') := by
  rw [State.step, h.defined, if_neg Bool.false_ne_true] at hs
  cases a with
  | produce element notified =>
    obtain ⟨hended, hs⟩ := Option.ite_none_left_eq_some.mp hs
    obtain ⟨q, hq, rfl⟩ := Option.map_eq_some_iff.mp hs
    have hended : s.ended = false := Bool.not_eq_true _ ▸ hended
    rw [produce_eq h.awake.1 hq]
    exact .inl ⟨element, notified, rfl, hended, hended, rfl, h.produce hended element⟩
  | produceEnd =>
    obtain ⟨hended, hs⟩ := Option.ite_none_left_eq_some.mp hs
    obtain rfl := Option.some.inj hs
    have hended : s.ended = false := Bool.not_eq_true _ ▸ hended
    exact .inr (.inl ⟨rfl, hended, rfl, rfl, h.produceEnd hended⟩)
  | endReached => exact .inr (.inr (.inl ⟨rfl, h.endReached hin hs⟩))
  | consume => exact .inr (.inr (.inr ⟨rfl, h.consume hs⟩))
  | wake =>
    obtain ⟨q, hq, -⟩ := Option.map_eq_some_iff.mp hs
    simp [PcQueue.wake, h.awake.1] at hq
  | resume =>
    obtain ⟨hw, -⟩ := Option.ite_none_right_eq_some.mp hs
    simp [h.awake.2] at hw

theorem Inv.step {s s' : State T} {a : Act T} (h : s.Inv) (hs : s.step a = some s')
    (hin : s.InTime a) : s'.Inv := by
  obtain ⟨got, rest, h⟩ := h
  rcases h.step_cases hs hin with ⟨_, _, -, -, -, -, h⟩ | ⟨-, -, -, -, h⟩ | ⟨-, -, -, -, h⟩ |
    ⟨-, -, -, -, _, _, -, h⟩
  · exact ⟨_, _, h⟩
  · exact ⟨_, _, h⟩
  · exact ⟨_, _, h⟩
  · exact ⟨_, _, h⟩

theorem Holds.exists_produce {s : State T} {got rest : List T} (h : s.Holds got rest)
    (hended : s.ended = false) (element : T) : ∃ s', s.step (.produce element none) = some s' := by
  have hq : PacketQueue.produce s.queue element none =
      some { s.queue with data := s.queue.data ++ [packet element] } := if_pos h.awake.1
  rw [State.step, h.defined, if_neg Bool.false_ne_true]
  dsimp only [State.act]
  rw [hended, if_neg Bool.false_ne_true, hq]
  exact ⟨_, rfl⟩

theorem Holds.exists_produceEnd {s : State T} {got rest : List T} (h : s.Holds got rest)
    (hended : s.ended = false) : ∃ s', s.step .produceEnd = some s' := by
  rw [State.step, h.defined, if_neg Bool.false_ne_true]
  dsimp only [State.act]
  rw [hended, if_neg Bool.false_ne_true]
  exact ⟨_, rfl⟩

theorem Holds.exists_endReached {s : State T} {got rest : List T} (h : s.Holds got rest)
    (hpc : s.pc = .test) : ∃ s', s.step .endReached = some s' := by
  rw [State.step, h.defined, if_neg Bool.false_ne_true]
  unfold State.act
  rw [if_pos hpc]
  match PacketQueue.endReached s.queue with
  | some true => exact ⟨_, rfl⟩
  | some false => exact ⟨_, rfl⟩
  | none => exact ⟨_, rfl⟩

theorem Holds.exists_consume {s : State T} {got rest : List T} (h : s.Holds got rest)
    (hpc : s.pc = .consume) : ∃ s', s.step .consume = some s' := by
  have hidle : s.queue.Idle () := by simp [PcQueue.Idle, h.awake]
  rw [State.step, h.defined, if_neg Bool.false_ne_true]
  exact ⟨_, if_pos ⟨hpc, hidle⟩⟩

/-- `front()` of an empty queue. -/
theorem Inv.not_good_step {s s' : State T} {a : Act T} (h : s.Inv) (hs : s.step a = some s')
    (hin : ¬ s.InTime a) : ¬ s'.Good := by
  obtain ⟨got, rest, h⟩ := h
  rw [State.step, h.defined, if_neg Bool.false_ne_true] at hs
  cases a with
  | endReached =>
    have hdata : s.queue.data = [] := not_not.mp hin
    obtain ⟨-, hs⟩ := Option.ite_none_right_eq_some.mp hs
    have hend : PacketQueue.endReached s.queue = none := by
      simp [PacketQueue.endReached, hdata]
    rw [hend] at hs
    obtain rfl := Option.some.inj hs
    exact fun hg => Bool.noConfusion hg.defined
  | produce _ _ | produceEnd | consume | wake | resume => exact absurd trivial hin

/-- **The queue delivers** in every state of a run exactly when `end_reached` is never called on the
empty queue. -/
theorem delivers_iff {acts : List (Act T)} {s : State T} (h : exec step init acts = some s) :
    GoodThroughout step init Good acts ↔ OkThroughout step init InTime acts :=
  exec_good_iff inv_init (fun _ h => h.good) (fun _ _ _ h hs hin => h.step hs hin)
    (fun _ _ _ h hs hin => h.not_good_step hs hin) h

/-- One datum and the end. -/
theorem delivers_iff_one :
    ∃ s, exec step init [.endReached, .produceEnd, .consume, .endReached, .produce (5 : Nat) none] =
        some s ∧
      (GoodThroughout step init Good
          [.endReached, .produceEnd, .consume, .endReached, .produce (5 : Nat) none] ↔
        OkThroughout step init InTime
          [.endReached, .produceEnd, .consume, .endReached, .produce (5 : Nat) none]) :=
  ⟨_, rfl, delivers_iff rfl⟩

/-- The consumer comes first, and finds no packet to read. -/
theorem not_good_first :
    ∃ s, exec step init [.endReached] = some s ∧ ¬ (s : State Nat).Good :=
  ⟨_, rfl, fun h => Bool.noConfusion h.defined⟩

end State

end PacketQueue

end IcsaDswp
