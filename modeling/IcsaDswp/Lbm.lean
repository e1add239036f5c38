import IcsaDswp.PacketQueue
import IcsaDswp.Lib.Writes
import Mathlib.Algebra.Order.Group.Int
import Mathlib.Data.Rat.Init
import Mathlib.Tactic.Ring

/-!
# `LBM_performStreamCollide`

The sweep of `lbm.c` over the cells of a grid, and the one of `lbm-dswp.cpp`, where a worker makes
fifteen of the nineteen assignments of a fluid cell, from a packet. Each assignment goes to the
entry of a neighbour, in one dimension; no two of a sweep go to the same place (`nodup_sweep`), so
the two threads leave the grid that the sequential loop leaves (`performStreamCollide_refines`). The
packet queue is one that blocks, and the sizes are any for which the indices fit into `int`.
-/

namespace IcsaDswp

open Lib
open PacketQueue (inQueue inQueue_produce inQueue_produceEnd)

namespace Lbm

/-- The arithmetic of `double`, of which nothing is known, and the bits of one. -/
class Arith (V : Type) extends Add V, Sub V, Mul V, Div V, Neg V, OfScientific V where
  /-- `*MAGIC_CAST(v)`. -/
  magicCast : V → UInt32

/-- `SIZE_X`, `SIZE_Y` and `SIZE_Z`. -/
structure Size where
  x : Nat
  y : Nat
  z : Nat

/-- A `double *`; there is a margin on both sides. -/
abbrev Grid (V : Type) := Int → V

/-! ## Entries of cells -/

/-- `CELL_ENTRIES`, without `FLAGS`. -/
inductive CellEntry where
  | C
  | N | S | E | W | T | B
  | NE | NW | SE | SW
  | NT | NB | ST | SB
  | ET | EB | WT | WB
  deriving DecidableEq

namespace CellEntry

def val : CellEntry → Int
  | C => 0
  | N => 1 | S => 2 | E => 3 | W => 4 | T => 5 | B => 6
  | NE => 7 | NW => 8 | SE => 9 | SW => 10
  | NT => 11 | NB => 12 | ST => 13 | SB => 14
  | ET => 15 | EB => 16 | WT => 17 | WB => 18

/-- Where the neighbour is that `NEIGHBOR_e` refers to, in `x`. -/
def dx : CellEntry → Int
  | E | NE | SE | ET | EB => 1
  | W | NW | SW | WT | WB => -1
  | C | N | S | T | B | NT | NB | ST | SB => 0

def dy : CellEntry → Int
  | N | NE | NW | NT | NB => 1
  | S | SE | SW | ST | SB => -1
  | C | E | W | T | B | ET | EB | WT | WB => 0

def dz : CellEntry → Int
  | T | NT | ST | ET | WT => 1
  | B | NB | SB | EB | WB => -1
  | C | N | S | E | W | NE | NW | SE | SW => 0

theorem val_bounds (e : CellEntry) : 0 ≤ e.val ∧ e.val < 20 := by
  cases e <;> decide

theorem val_injective {e e' : CellEntry} (h : e.val = e'.val) : e = e' := by
  revert h
  cases e <;> cases e' <;> decide

end CellEntry

def flags : Int := 19

def nCellEntries : Int := 20

/-- `CALC_INDEX(x, y, z, e)`, in an `int` that does not overflow. -/
def calcIndex (sz : Size) (x y z e : Int) : Int :=
  e + nCellEntries * (x + y * sz.x + z * sz.x * sz.y)

def gridEntrySweep (sz : Size) (dx dy dz e i : Int) : Int := calcIndex sz dx dy dz e + i

/-- The values of `i` from `SWEEP_START` to `SWEEP_END`. -/
def sweep (sz : Size) (i : Int) : List Int :=
  if i < calcIndex sz 0 0 sz.z 0 then i :: sweep sz (i + nCellEntries) else []
termination_by (calcIndex sz 0 0 sz.z 0 - i).toNat
decreasing_by
  unfold nCellEntries
  omega

/-! ## One cell -/

section Cell

variable {V : Type}

/-- `LOCAL(g, e)`. -/
def localEntry (sz : Size) (g : Grid V) (e i : Int) : V := g (gridEntrySweep sz 0 0 0 e i)

/-- `SRC_e(g)`. -/
def src (sz : Size) (g : Grid V) (i : Int) (e : CellEntry) : V := localEntry sz g e.val i

/-- The index of `DST_e(g)`. -/
def dst (sz : Size) (i : Int) (e : CellEntry) : Int :=
  gridEntrySweep sz e.dx e.dy e.dz e.val i

/-- Each assignment in an obstacle cell, `DST` and `SRC`. -/
def bounceBack : List (CellEntry × CellEntry) := [
  (.C, .C), (.S, .N), (.N, .S), (.W, .E), (.E, .W), (.B, .T), (.T, .B),
  (.SW, .NE), (.SE, .NW), (.NW, .SE), (.NE, .SW), (.SB, .NT), (.ST, .NB), (.NB, .ST), (.NT, .SB),
  (.WB, .ET), (.WT, .EB), (.EB, .WT), (.ET, .WB)]

/-- The assignments in an obstacle cell. -/
def bounce (sz : Size) (srcGrid : Grid V) (i : Int) : List (Int × V) :=
  bounceBack.map fun e => (dst sz i e.1, src sz srcGrid i e.2)

variable [Arith V]

def obstacle : UInt32 := (1 : UInt32) <<< 0

def accel : UInt32 := (1 : UInt32) <<< 1

def testFlagSweep (sz : Size) (g : Grid V) (f : UInt32) (i : Int) : Bool :=
  Arith.magicCast (localEntry sz g flags i) &&& f != 0

def omega : V := 1.95

def dfl1 : V := 1.0 / 3.0

def dfl2 : V := 1.0 / 18.0

def dfl3 : V := 1.0 / 36.0

/-- `LBM_performStreamCollide_packet`. -/
structure Packet (V : Type) where
  i : Int
  ux : V
  uy : V
  uz : V
  u2 : V
  rho : V

instance : Inhabited (Packet V) := ⟨0, 0.0, 0.0, 0.0, 0.0, 0.0⟩

/-- `rho`, `ux`, `uy`, `uz` and `u2` of the cell at `i`, whose entries are `s`. -/
def moments (s : CellEntry → V) (isAccel : Bool) (i : Int) : Packet V :=
  let rho := s .C + s .N + s .S + s .E + s .W + s .T + s .B + s .NE + s .NW + s .SE + s .SW +
    s .NT + s .NB + s .ST + s .SB + s .ET + s .EB + s .WT + s .WB
  let ux := s .E - s .W + s .NE - s .NW + s .SE - s .SW + s .ET + s .EB - s .WT - s .WB
  let uy := s .N - s .S + s .NE + s .NW - s .SE - s .SW + s .NT + s .NB - s .ST - s .SB
  let uz := s .T - s .B + s .NT - s .NB + s .ST - s .SB + s .ET - s .EB + s .WT - s .WB
  let ux := if isAccel then 0.005 else ux / rho
  let uy := if isAccel then 0.002 else uy / rho
  let uz := if isAccel then 0.000 else uz / rho
  ⟨i, ux, uy, uz, 1.5 * (ux * ux + uy * uy + uz * uz), rho⟩

/-- What is assigned to `DST_e` in a fluid cell; the two files have the same formulas. -/
def collide (s : CellEntry → V) (p : Packet V) : CellEntry → V
  | .C => (1.0 - omega) * s .C + dfl1 * omega * p.rho * (1.0 - p.u2)
  | .N => (1.0 - omega) * s .N + dfl2 * omega * p.rho * (1.0 + p.uy * (4.5 * p.uy + 3.0) - p.u2)
  | .S => (1.0 - omega) * s .S + dfl2 * omega * p.rho * (1.0 + p.uy * (4.5 * p.uy - 3.0) - p.u2)
  | .E => (1.0 - omega) * s .E + dfl2 * omega * p.rho * (1.0 + p.ux * (4.5 * p.ux + 3.0) - p.u2)
  | .W => (1.0 - omega) * s .W + dfl2 * omega * p.rho * (1.0 + p.ux * (4.5 * p.ux - 3.0) - p.u2)
  | .T => (1.0 - omega) * s .T + dfl2 * omega * p.rho * (1.0 + p.uz * (4.5 * p.uz + 3.0) - p.u2)
  | .B => (1.0 - omega) * s .B + dfl2 * omega * p.rho * (1.0 + p.uz * (4.5 * p.uz - 3.0) - p.u2)
  | .NE => (1.0 - omega) * s .NE +
      dfl3 * omega * p.rho * (1.0 + (p.ux + p.uy) * (4.5 * (p.ux + p.uy) + 3.0) - p.u2)
  | .NW => (1.0 - omega) * s .NW +
      dfl3 * omega * p.rho * (1.0 + (-p.ux + p.uy) * (4.5 * (-p.ux + p.uy) + 3.0) - p.u2)
  | .SE => (1.0 - omega) * s .SE +
      dfl3 * omega * p.rho * (1.0 + (p.ux - p.uy) * (4.5 * (p.ux - p.uy) + 3.0) - p.u2)
  | .SW => (1.0 - omega) * s .SW +
      dfl3 * omega * p.rho * (1.0 + (-p.ux - p.uy) * (4.5 * (-p.ux - p.uy) + 3.0) - p.u2)
  | .NT => (1.0 - omega) * s .NT +
      dfl3 * omega * p.rho * (1.0 + (p.uy + p.uz) * (4.5 * (p.uy + p.uz) + 3.0) - p.u2)
  | .NB => (1.0 - omega) * s .NB +
      dfl3 * omega * p.rho * (1.0 + (p.uy - p.uz) * (4.5 * (p.uy - p.uz) + 3.0) - p.u2)
  | .ST => (1.0 - omega) * s .ST +
      dfl3 * omega * p.rho * (1.0 + (-p.uy + p.uz) * (4.5 * (-p.uy + p.uz) + 3.0) - p.u2)
  | .SB => (1.0 - omega) * s .SB +
      dfl3 * omega * p.rho * (1.0 + (-p.uy - p.uz) * (4.5 * (-p.uy - p.uz) + 3.0) - p.u2)
  | .ET => (1.0 - omega) * s .ET +
      dfl3 * omega * p.rho * (1.0 + (p.ux + p.uz) * (4.5 * (p.ux + p.uz) + 3.0) - p.u2)
  | .EB => (1.0 - omega) * s .EB +
      dfl3 * omega * p.rho * (1.0 + (p.ux - p.uz) * (4.5 * (p.ux - p.uz) + 3.0) - p.u2)
  | .WT => (1.0 - omega) * s .WT +
      dfl3 * omega * p.rho * (1.0 + (-p.ux + p.uz) * (4.5 * (-p.ux + p.uz) + 3.0) - p.u2)
  | .WB => (1.0 - omega) * s .WB +
      dfl3 * omega * p.rho * (1.0 + (-p.ux - p.uz) * (4.5 * (-p.ux - p.uz) + 3.0) - p.u2)

/-- The entries of a fluid cell that the sweeping thread of `lbm-dswp.cpp` assigns. -/
def mainEntries : List CellEntry := [.C, .N, .S, .E]

/-- The ones that its worker assigns. -/
def workerEntries : List CellEntry := [
  .W, .T, .B, .NE, .NW, .SE, .SW, .NT, .NB, .ST, .SB, .ET, .EB, .WT, .WB]

/-- The assignments to some entries of a fluid cell. -/
def stream (sz : Size) (srcGrid : Grid V) (entries : List CellEntry) (p : Packet V) :
    List (Int × V) :=
  entries.map fun e => (dst sz p.i e, collide (src sz srcGrid p.i) p e)

/-- The packet of the cell at `i`, if it is a fluid cell. -/
def packet (sz : Size) (srcGrid : Grid V) (i : Int) : Option (Packet V) :=
  if testFlagSweep sz srcGrid obstacle i then none
  else some (moments (src sz srcGrid i) (testFlagSweep sz srcGrid accel i) i)

/-! ## The sequential loop -/

/-- The entries of a fluid cell, in the order of `lbm.c`. -/
def fluidEntries : List CellEntry := [
  .C, .N, .S, .E, .W, .T, .B, .NE, .NW, .SE, .SW, .NT, .NB, .ST, .SB, .ET, .EB, .WT, .WB]

/-- The assignments in the cell at `i`. -/
def cell (sz : Size) (srcGrid : Grid V) (i : Int) : List (Int × V) :=
  match packet sz srcGrid i with
  | none => bounce sz srcGrid i
  | some p => stream sz srcGrid fluidEntries p

def performStreamCollide (sz : Size) (srcGrid dstGrid : Grid V) : Grid V :=
  (sweep sz (calcIndex sz 0 0 0 0)).foldl
    (fun dstGrid i => writeAll dstGrid (cell sz srcGrid i)) dstGrid

end Cell

/-! ## The sweeping thread and the worker -/

inductive Thread where
  | main
  | worker

/-- Where the sweeping thread is: at the test of the loop, in a cell with some assignments left and
maybe a packet to produce after them, or past the loop. -/
inductive MainPc (V : Type) where
  | test (i : Int)
  | cell (i : Int) (left : List (Int × V)) (p : Option (Packet V))
  | produceEnd
  | join
  | returned

inductive WorkerPc (V : Type) where
  | endReached
  | consume
  | cell (left : List (Int × V))
  | finished

structure State (V : Type) where
  main : MainPc V
  worker : WorkerPc V
  queue : List (PcPacket (Packet V))
  dst : Grid V

section Threads

variable {V : Type}

/-- The worker is created before the sweep. -/
def init (sz : Size) (dstGrid : Grid V) : State V :=
  ⟨.test (calcIndex sz 0 0 0 0), .endReached, [], dstGrid⟩

variable [Arith V]

def main (sz : Size) (srcGrid : Grid V) (s : State V) : Option (State V) :=
  match s.main with
  | .test i =>
    if i < calcIndex sz 0 0 sz.z 0 then
      match packet sz srcGrid i with
      | none => some { s with main := .cell i (bounce sz srcGrid i) none }
      | some p => some { s with main := .cell i (stream sz srcGrid mainEntries p) (some p) }
    else some { s with main := .produceEnd }
  | .cell i (w :: left) p =>
    some { s with main := .cell i left p, dst := Function.update s.dst w.1 w.2 }
  | .cell i [] (some p) =>
    some { s with main := .cell i [] none, queue := s.queue ++ [⟨false, p⟩] }
  | .cell i [] none => some { s with main := .test (i + nCellEntries) }
  | .produceEnd => some { s with main := .join, queue := s.queue ++ [⟨true, default⟩] }
  | .join =>
    match s.worker with
    | .finished => some { s with main := .returned }
    | _ => none
  | .returned => none

/-- `LBM_performStreamCollide_worker`; it waits for a packet where it needs one. -/
def worker (sz : Size) (srcGrid : Grid V) (s : State V) : Option (State V) :=
  match s.worker with
  | .endReached =>
    match s.queue with
    | [] => none
    | packet :: _ => some { s with worker := if packet.end_of_queue then .finished else .consume }
  | .consume =>
    match s.queue with
    | [] => none
    | packet :: rest =>
      some { s with worker := .cell (stream sz srcGrid workerEntries packet.datum), queue := rest }
  | .cell (w :: left) =>
    some { s with worker := .cell left, dst := Function.update s.dst w.1 w.2 }
  | .cell [] => some { s with worker := .endReached }
  | .finished => none

def step (sz : Size) (srcGrid : Grid V) (s : State V) : Thread → Option (State V)
  | .main => main sz srcGrid s
  | .worker => worker sz srcGrid s

end Threads

/-! ## No two assignments to one place -/

theorem sweep_of_lt {sz : Size} {i : Int} (h : i < calcIndex sz 0 0 sz.z 0) :
    sweep sz i = i :: sweep sz (i + nCellEntries) := by
  rw [sweep, if_pos h]

theorem sweep_of_not_lt {sz : Size} {i : Int} (h : ¬ i < calcIndex sz 0 0 sz.z 0) :
    sweep sz i = [] := by
  rw [sweep, if_neg h]

theorem length_sweep_of_lt {sz : Size} {i : Int} (h : i < calcIndex sz 0 0 sz.z 0) :
    (sweep sz i).length = (sweep sz (i + nCellEntries)).length + 1 := by
  rw [sweep_of_lt h, List.length_cons]

/-- A sweep goes from cell to cell. -/
theorem exists_of_mem_sweep {sz : Size} {i j : Int} (h : j ∈ sweep sz i) :
    ∃ k : Nat, j = i + nCellEntries * k := by
  fun_induction sweep sz i with
  | case1 i hi ih =>
    rcases List.mem_cons.mp h with rfl | h
    · exact ⟨0, by omega⟩
    · obtain ⟨k, rfl⟩ := ih h
      refine ⟨k + 1, ?_⟩
      unfold nCellEntries
      omega
  | case2 i hi => cases h

theorem length_sweep (sz : Size) (i : Int) :
    (sweep sz i).length = ((calcIndex sz 0 0 sz.z 0 - i + 19) / 20).toNat := by
  fun_induction sweep sz i with
  | case1 i hi ih =>
    rw [List.length_cons, ih]
    unfold nCellEntries
    omega
  | case2 i hi =>
    rw [List.length_nil]
    omega

/-- **Streaming is injective**: an index tells the entry, and then the cell. -/
theorem eq_of_dst_eq {sz : Size} {i k : Int} {e e' : CellEntry}
    (h : dst sz i e = dst sz (i + nCellEntries * k) e') : e = e' ∧ k = 0 := by
  unfold dst gridEntrySweep calcIndex nCellEntries at h
  have hval : e.val = e'.val := by
    have he := e.val_bounds
    have he' := e'.val_bounds
    omega
  obtain rfl := CellEntry.val_injective hval
  exact ⟨rfl, by omega⟩

theorem dst_injective (sz : Size) (i : Int) : Function.Injective (dst sz i) := by
  intro e e' h
  have h' : dst sz i e = dst sz (i + nCellEntries * 0) e' := by rw [h, mul_zero, add_zero]
  exact (eq_of_dst_eq h').1

section Places

variable {V : Type} [Arith V] {sz : Size} {srcGrid : Grid V} {i : Int}

theorem packet_i {p : Packet V} (h : packet sz srcGrid i = some p) : p.i = i := by
  unfold packet at h
  split at h
  · cases h
  · exact (Option.some.inj h) ▸ rfl

theorem cell_of_obstacle (h : packet sz srcGrid i = none) :
    cell sz srcGrid i = bounce sz srcGrid i := by
  rw [cell, h]

/-- The two threads share out the assignments of a fluid cell. -/
theorem cell_of_fluid {p : Packet V} (h : packet sz srcGrid i = some p) :
    cell sz srcGrid i =
      stream sz srcGrid mainEntries p ++ stream sz srcGrid workerEntries p := by
  rw [cell, h]
  show stream sz srcGrid (mainEntries ++ workerEntries) p = _
  unfold stream
  rw [List.map_append]

/-- In a cell there is one assignment to an entry at most. -/
theorem exists_places (sz : Size) (srcGrid : Grid V) (i : Int) :
    ∃ entries : List CellEntry, entries.Nodup ∧
      (cell sz srcGrid i).map Prod.fst = entries.map (dst sz i) := by
  cases hp : packet sz srcGrid i with
  | none =>
    refine ⟨bounceBack.map Prod.fst, by decide, ?_⟩
    rw [cell_of_obstacle hp]
    rfl
  | some p =>
    refine ⟨mainEntries ++ workerEntries, by decide, ?_⟩
    rw [cell_of_fluid hp, ← packet_i hp]
    rfl

/-- **No two assignments of a sweep go to the same place.** -/
theorem nodup_sweep (sz : Size) (srcGrid : Grid V) (i : Int) :
    (((sweep sz i).flatMap (cell sz srcGrid)).map Prod.fst).Nodup := by
  fun_induction sweep sz i with
  | case1 i hi ih =>
    obtain ⟨entries, hnodup, hplaces⟩ := exists_places sz srcGrid i
    rw [List.flatMap_cons, List.map_append, List.nodup_append]
    refine ⟨?_, ih, ?_⟩
    · rw [hplaces]
      exact hnodup.map (dst_injective sz i)
    · rintro a ha b hb rfl
      rw [hplaces] at ha
      obtain ⟨e, -, he⟩ := List.mem_map.mp ha
      rw [List.map_flatMap] at hb
      obtain ⟨j, hj, hb⟩ := List.mem_flatMap.mp hb
      obtain ⟨k, rfl⟩ := exists_of_mem_sweep hj
      obtain ⟨entries', -, hplaces'⟩ :=
        exists_places sz srcGrid (i + nCellEntries + nCellEntries * k)
      rw [hplaces'] at hb
      obtain ⟨e', -, he'⟩ := List.mem_map.mp hb
      have hk : i + nCellEntries + nCellEntries * k = i + nCellEntries * (k + 1 : Int) := by
        unfold nCellEntries
        omega
      rw [hk] at he'
      have hzero := (eq_of_dst_eq (he.trans he'.symm)).2
      omega
  | case2 i hi => exact List.nodup_nil

/-- The sequential loop makes the assignments cell by cell. -/
theorem performStreamCollide_eq (sz : Size) (srcGrid dstGrid : Grid V) :
    performStreamCollide sz srcGrid dstGrid =
      writeAll dstGrid ((sweep sz (calcIndex sz 0 0 0 0)).flatMap (cell sz srcGrid)) := by
  unfold performStreamCollide writeAll
  rw [List.foldl_flatMap]

end Places

/-! ## What is left to do -/

section Left

variable {V : Type}

def WorkerPc.pending : WorkerPc V → List (Int × V)
  | .cell left => left
  | .endReached | .consume | .finished => []

def MainPc.ended : MainPc V → Bool
  | .test _ | .cell _ _ _ | .produceEnd => false
  | .join | .returned => true

/-- What `main` has left to do, with 18 actions of the worker for each packet. -/
def MainPc.todo (sz : Size) : MainPc V → Nat
  | .test i => 25 * (sweep sz i).length + 21
  | .cell i left p =>
    left.length + 19 * p.toList.length + 1 + (25 * (sweep sz (i + nCellEntries)).length + 21)
  | .produceEnd => 20
  | .join => 1
  | .returned => 0

def WorkerPc.todo : WorkerPc V → Nat
  | .endReached => 1
  | .consume => 0
  | .cell left => left.length + 2
  | .finished => 0

def State.todo (sz : Size) (s : State V) : Nat :=
  s.main.todo sz + s.worker.todo + 18 * s.queue.length

variable [Arith V]

/-- The assignments that `main` has yet to make, or to hand over in a packet. -/
def MainPc.pending (sz : Size) (srcGrid : Grid V) : MainPc V → List (Int × V)
  | .test i => (sweep sz i).flatMap (Lbm.cell sz srcGrid)
  | .cell i left p =>
    left ++ p.toList.flatMap (stream sz srcGrid workerEntries) ++
      (sweep sz (i + nCellEntries)).flatMap (Lbm.cell sz srcGrid)
  | .produceEnd | .join | .returned => []

/-- The threads have the remaining assignments among them, some of them as `packets` in the queue;
the worker consumes a packet only where there is one, and leaves at the end packet only. -/
structure State.Inv (sz : Size) (srcGrid dstGrid : Grid V) (packets : List (Packet V))
    (s : State V) : Prop where
  settles : Settles s.dst
    (s.main.pending sz srcGrid ++ s.worker.pending ++
      packets.flatMap (stream sz srcGrid workerEntries))
    (performStreamCollide sz srcGrid dstGrid)
  queue : s.queue = inQueue packets s.main.ended
  consume : s.worker = .consume → packets ≠ []
  finished : s.worker = .finished → packets = [] ∧ s.main.ended = true
  joined : s.main = .returned → s.worker = .finished

end Left

section Step

variable {V : Type} [Arith V] {sz : Size} {srcGrid dstGrid : Grid V} {i : Int}
  {packets : List (Packet V)} {s s' : State V}

theorem inv_init (sz : Size) (srcGrid dstGrid : Grid V) :
    (init sz dstGrid).Inv sz srcGrid dstGrid [] where
  settles := by
    refine ⟨?_, ?_⟩
    · simp only [init, MainPc.pending, WorkerPc.pending, List.append_nil, List.flatMap_nil]
      exact nodup_sweep sz srcGrid _
    · simp only [init, MainPc.pending, WorkerPc.pending, List.append_nil, List.flatMap_nil]
      exact (performStreamCollide_eq sz srcGrid dstGrid).symm
  queue := rfl
  consume := nofun
  finished := nofun
  joined := nofun

/-- What is pending is not changed by the test of the loop. -/
theorem pending_of_obstacle (hi : i < calcIndex sz 0 0 sz.z 0)
    (hp : packet sz srcGrid i = none) :
    (MainPc.test i).pending sz srcGrid =
      (MainPc.cell i (bounce sz srcGrid i) none).pending sz srcGrid := by
  simp only [MainPc.pending, sweep_of_lt hi, List.flatMap_cons, cell_of_obstacle hp,
    Option.toList_none, List.flatMap_nil, List.append_nil]

theorem pending_of_fluid (hi : i < calcIndex sz 0 0 sz.z 0) {p : Packet V}
    (hp : packet sz srcGrid i = some p) :
    (MainPc.test i).pending sz srcGrid =
      (MainPc.cell i (stream sz srcGrid mainEntries p) (some p)).pending sz srcGrid := by
  simp only [MainPc.pending, sweep_of_lt hi, List.flatMap_cons, cell_of_fluid hp,
    Option.toList_some, List.flatMap_nil, List.append_nil]

theorem pending_of_packet (sz : Size) (srcGrid : Grid V) (i : Int) (p : Packet V) :
    (MainPc.cell i [] (some p)).pending sz srcGrid =
      stream sz srcGrid workerEntries p ++ (MainPc.cell i [] none).pending sz srcGrid := by
  simp only [MainPc.pending, Option.toList_some, Option.toList_none, List.flatMap_cons,
    List.flatMap_nil, List.nil_append, List.append_nil]

omit [Arith V] in
theorem length_bounce (sz : Size) (srcGrid : Grid V) (i : Int) :
    (bounce sz srcGrid i).length = 19 := rfl

theorem length_stream_main (sz : Size) (srcGrid : Grid V) (p : Packet V) :
    (stream sz srcGrid mainEntries p).length = 4 := rfl

theorem length_stream_worker (sz : Size) (srcGrid : Grid V) (p : Packet V) :
    (stream sz srcGrid workerEntries p).length = 15 := rfl

omit [Arith V] in
/-- The assignments that go into a packet come last. -/
theorem perm_rotate (a b c d : List (Int × V)) :
    (a ++ b ++ c ++ d).Perm (b ++ c ++ (d ++ a)) := by
  have h : (a ++ (b ++ c ++ d)).Perm (b ++ c ++ d ++ a) := List.perm_append_comm
  simpa only [List.append_assoc] using h

theorem State.Inv.main_step (h : s.Inv sz srcGrid dstGrid packets)
    (hs : Lbm.main sz srcGrid s = some s') :
    (∃ packets', s'.Inv sz srcGrid dstGrid packets') ∧ s'.todo sz < s.todo sz := by
  obtain ⟨main, worker, queue, dst⟩ := s
  have hsettles := h.settles
  match main, hs with
  | .test i, hs =>
    by_cases hi : i < calcIndex sz 0 0 sz.z 0
    · cases hp : packet sz srcGrid i with
      | none =>
        simp only [Lbm.main, if_pos hi, hp, Option.some.injEq] at hs
        subst hs
        rw [pending_of_obstacle hi hp] at hsettles
        refine ⟨⟨packets, { h with settles := hsettles, joined := nofun }⟩, ?_⟩
        simp only [State.todo, MainPc.todo, length_sweep_of_lt hi, length_bounce,
          Option.toList_none, List.length_nil]
        omega
      | some p =>
        simp only [Lbm.main, if_pos hi, hp, Option.some.injEq] at hs
        subst hs
        rw [pending_of_fluid hi hp] at hsettles
        refine ⟨⟨packets, { h with settles := hsettles, joined := nofun }⟩, ?_⟩
        simp only [State.todo, MainPc.todo, length_sweep_of_lt hi, length_stream_main,
          Option.toList_some, List.length_singleton]
        omega
    · simp only [Lbm.main, if_neg hi, Option.some.injEq] at hs
      subst hs
      rw [MainPc.pending, sweep_of_not_lt hi] at hsettles
      refine ⟨⟨packets, { h with settles := hsettles, joined := nofun }⟩, ?_⟩
      simp only [State.todo, MainPc.todo]
      omega
  | .cell i (w :: left) p, hs =>
    obtain rfl := Option.some.inj hs
    refine ⟨⟨packets, { h with settles := hsettles.write (List.Perm.refl _), joined := nofun }⟩, ?_⟩
    simp only [State.todo, MainPc.todo, List.length_cons]
    omega
  | .cell i [] (some p), hs =>
    obtain rfl := Option.some.inj hs
    refine ⟨⟨packets ++ [p], ⟨?_, ?_, fun _ => by simp, ?_, nofun⟩⟩, ?_⟩
    · rw [pending_of_packet] at hsettles
      rw [List.flatMap_append, List.flatMap_singleton]
      exact hsettles.perm (perm_rotate _ _ _ _)
    · exact (congrArg (· ++ [_]) h.queue).trans (inQueue_produce packets p)
    · exact fun hw => absurd (h.finished hw).2 nofun
    · simp only [State.todo, MainPc.todo, Option.toList_some, Option.toList_none,
        List.length_append, List.length_singleton, List.length_nil]
      omega
  | .cell i [] none, hs =>
    obtain rfl := Option.some.inj hs
    refine ⟨⟨packets, { h with settles := hsettles, joined := nofun }⟩, ?_⟩
    simp only [State.todo, MainPc.todo, Option.toList_none, List.length_nil]
    omega
  | .produceEnd, hs =>
    obtain rfl := Option.some.inj hs
    refine ⟨⟨packets, { h with settles := hsettles, queue := ?_, finished := ?_, joined := nofun }⟩,
      ?_⟩
    · exact (congrArg (· ++ [_]) h.queue).trans (inQueue_produceEnd packets)
    · exact fun hw => absurd (h.finished hw).2 nofun
    · simp only [State.todo, MainPc.todo, List.length_append, List.length_singleton]
      omega
  | .join, hs =>
    simp only [Lbm.main] at hs
    split at hs
    · obtain rfl := Option.some.inj hs
      refine ⟨⟨packets, { h with settles := hsettles, joined := fun _ => rfl }⟩, ?_⟩
      simp only [State.todo, MainPc.todo]
      omega
    · cases hs

/-- The worker leaves at the end packet, which comes after all others. -/
theorem State.Inv.endReached_step (h : s.Inv sz srcGrid dstGrid packets)
    (hworker : s.worker = .endReached) (hs : Lbm.worker sz srcGrid s = some s') :
    s'.Inv sz srcGrid dstGrid packets ∧ s'.todo sz < s.todo sz := by
  obtain ⟨main, worker, queue, dst⟩ := s
  obtain rfl : worker = .endReached := hworker
  have hsettles := h.settles
  have hqueue := h.queue
  cases packets with
  | nil =>
    cases hended : main.ended with
    | false =>
      obtain rfl : queue = [] := hqueue.trans (congrArg (inQueue []) hended)
      cases hs
    | true =>
      obtain rfl : queue = [⟨true, default⟩] := hqueue.trans (congrArg (inQueue []) hended)
      obtain rfl := Option.some.inj hs
      refine ⟨{ h with
        settles := hsettles, consume := nofun, finished := fun _ => ⟨rfl, hended⟩
        joined := fun _ => rfl }, ?_⟩
      simp only [State.todo, WorkerPc.todo, if_true]
      omega
  | cons p packets =>
    obtain rfl : queue = ⟨false, p⟩ :: inQueue packets main.ended := hqueue
    obtain rfl := Option.some.inj hs
    refine ⟨{ h with
      settles := hsettles, consume := fun _ => List.cons_ne_nil p packets, finished := nofun
      joined := fun hm => absurd (h.joined hm) nofun }, ?_⟩
    simp only [State.todo, WorkerPc.todo, Bool.false_eq_true, if_false]
    omega

theorem State.Inv.worker_step (h : s.Inv sz srcGrid dstGrid packets)
    (hs : Lbm.worker sz srcGrid s = some s') :
    (∃ packets', s'.Inv sz srcGrid dstGrid packets') ∧ s'.todo sz < s.todo sz := by
  obtain ⟨main, worker, queue, dst⟩ := s
  have hsettles := h.settles
  have hqueue := h.queue
  match worker, hs with
  | .endReached, hs =>
    obtain ⟨hinv, hlt⟩ := h.endReached_step rfl hs
    exact ⟨⟨packets, hinv⟩, hlt⟩
  | .consume, hs =>
    obtain ⟨p, packets, rfl⟩ := List.exists_cons_of_ne_nil (h.consume rfl)
    obtain rfl : queue = ⟨false, p⟩ :: inQueue packets main.ended := hqueue
    obtain rfl := Option.some.inj hs
    refine ⟨⟨packets, ⟨?_, rfl, nofun, nofun, fun hm => absurd (h.joined hm) nofun⟩⟩, ?_⟩
    · simpa [WorkerPc.pending] using hsettles
    · simp only [State.todo, WorkerPc.todo, List.length_cons]
      rw [length_stream_worker]
      omega
  | .cell (w :: left), hs =>
    obtain rfl := Option.some.inj hs
    refine ⟨⟨packets, { h with
      settles := hsettles.write ?_, consume := nofun, finished := nofun
      joined := fun hm => absurd (h.joined hm) nofun }⟩, ?_⟩
    · simp only [WorkerPc.pending]
      rw [List.append_assoc, List.append_assoc]
      exact List.perm_middle
    · simp only [State.todo, WorkerPc.todo, List.length_cons]
      omega
  | .cell [], hs =>
    obtain rfl := Option.some.inj hs
    refine ⟨⟨packets, { h with
      settles := hsettles, consume := nofun, finished := nofun
      joined := fun hm => absurd (h.joined hm) nofun }⟩, ?_⟩
    simp only [State.todo, WorkerPc.todo, List.length_nil]
    omega

theorem step_inv {t : Thread} (h : ∃ packets, s.Inv sz srcGrid dstGrid packets)
    (hs : step sz srcGrid s t = some s') :
    (∃ packets, s'.Inv sz srcGrid dstGrid packets) ∧ s'.todo sz < s.todo sz := by
  obtain ⟨packets, h⟩ := h
  cases t with
  | main => exact h.main_step hs
  | worker => exact h.worker_step hs

/-! ## Neither thread waits for ever -/

theorem exists_main (hret : s.main ≠ .returned) (hjoin : s.main = .join → s.worker = .finished) :
    ∃ s', Lbm.main sz srcGrid s = some s' := by
  obtain ⟨main, worker, queue, dst⟩ := s
  match main with
  | .test i =>
    by_cases hi : i < calcIndex sz 0 0 sz.z 0
    · cases hp : packet sz srcGrid i with
      | none => exact ⟨_, by simp only [Lbm.main, if_pos hi, hp]; rfl⟩
      | some p => exact ⟨_, by simp only [Lbm.main, if_pos hi, hp]; rfl⟩
    · exact ⟨_, by simp only [Lbm.main, if_neg hi]; rfl⟩
  | .cell i (w :: left) p => exact ⟨_, rfl⟩
  | .cell i [] (some p) => exact ⟨_, rfl⟩
  | .cell i [] none => exact ⟨_, rfl⟩
  | .produceEnd => exact ⟨_, rfl⟩
  | .join =>
    obtain rfl : worker = .finished := hjoin rfl
    exact ⟨_, rfl⟩
  | .returned => exact absurd rfl hret

/-- There is a packet for the worker where it needs one, once `main` waits for it. -/
theorem State.Inv.exists_worker (h : s.Inv sz srcGrid dstGrid packets) (hmain : s.main = .join)
    (hfin : s.worker ≠ .finished) : ∃ s', Lbm.worker sz srcGrid s = some s' := by
  obtain ⟨main, worker, queue, dst⟩ := s
  obtain rfl : main = .join := hmain
  obtain rfl : queue = inQueue packets true := h.queue
  match worker with
  | .endReached => cases packets <;> exact ⟨_, rfl⟩
  | .consume => cases packets <;> exact ⟨_, rfl⟩
  | .cell (w :: left) => exact ⟨_, rfl⟩
  | .cell [] => exact ⟨_, rfl⟩
  | .finished => exact absurd rfl hfin

theorem State.Inv.exists_step (h : s.Inv sz srcGrid dstGrid packets) (hret : s.main ≠ .returned) :
    ∃ t s', Lbm.step sz srcGrid s t = some s' := by
  by_cases hwait : s.main = .join ∧ s.worker ≠ .finished
  · obtain ⟨s', hs⟩ := h.exists_worker hwait.1 hwait.2
    exact ⟨.worker, s', hs⟩
  · have hjoin : s.main = .join → s.worker = .finished :=
      fun hj => not_not.mp fun hw => hwait ⟨hj, hw⟩
    obtain ⟨s', hs⟩ := exists_main hret hjoin
    exact ⟨.main, s', hs⟩

/-- Once `main` has returned no assignment is left. -/
theorem State.Inv.dst_of_returned (h : s.Inv sz srcGrid dstGrid packets)
    (hret : s.main = .returned) : s.dst = performStreamCollide sz srcGrid dstGrid := by
  have hfin := h.joined hret
  have hfinal := h.settles.final
  rw [hret, hfin, (h.finished hfin).1] at hfinal
  exact hfinal

end Step

section Run

variable {V : Type} [Arith V] {sz : Size} {srcGrid dstGrid : Grid V} {acts : List Thread}
  {s : State V}

theorem inv_exec (h : exec (step sz srcGrid) (init sz dstGrid) acts = some s) :
    ∃ packets, s.Inv sz srcGrid dstGrid packets :=
  exec_inv (P := fun s => ∃ packets, s.Inv sz srcGrid dstGrid packets)
    ⟨[], inv_init sz srcGrid dstGrid⟩ (fun _ _ _ h hs => (step_inv h hs).1) h

theorem length_exec (h : exec (step sz srcGrid) (init sz dstGrid) acts = some s) :
    acts.length ≤ 25 * (sz.x * sz.y * sz.z) + 22 := by
  have hle := exec_length_le (P := fun s => ∃ packets, s.Inv sz srcGrid dstGrid packets)
    (State.todo sz) ⟨[], inv_init sz srcGrid dstGrid⟩ (fun _ _ _ h hs => step_inv h hs) h
  have hcells : (sweep sz (calcIndex sz 0 0 0 0)).length = sz.x * sz.y * sz.z := by
    have hsize : calcIndex sz 0 0 sz.z 0 - calcIndex sz 0 0 0 0 =
        20 * ((sz.x * sz.y * sz.z : Nat) : Int) := by
      simp only [calcIndex, nCellEntries]
      push_cast
      ring
    rw [length_sweep, hsize]
    omega
  have hinit : (init sz dstGrid).todo sz = 25 * (sz.x * sz.y * sz.z) + 22 := by
    simp only [State.todo, init, MainPc.todo, WorkerPc.todo, List.length_nil, hcells]
  omega

/-- **The two threads do what the sequential loop does.** However they take turns, the grid is that
of `lbm.c` when the sweeping thread has joined the worker, and it comes to that after a bounded
number of actions. -/
theorem performStreamCollide_refines
    (h : exec (step sz srcGrid) (init sz dstGrid) acts = some s) :
    (s.main = .returned → s.dst = performStreamCollide sz srcGrid dstGrid) ∧
      (s.main ≠ .returned → ∃ t s', step sz srcGrid s t = some s') ∧
      acts.length ≤ 25 * (sz.x * sz.y * sz.z) + 22 := by
  obtain ⟨packets, hinv⟩ := inv_exec h
  exact ⟨hinv.dst_of_returned, hinv.exists_step, length_exec h⟩

end Run

instance : Arith Rat where
  magicCast v := UInt32.ofNat v.num.toNat

/-- A fluid cell, an obstacle, one that is accelerated and another fluid cell. -/
def fourCells : Grid Rat := fun k =>
  if k % nCellEntries = flags then ([0, 1, 2, 0].getD (k / nCellEntries).toNat 0 : Rat) else 1

/-- The worker is at the first packet while the sweep is at the obstacle, and at the others after
the sweep. -/
def fourCellsRun : List Thread :=
  [.main, .worker] ++ List.replicate 2 .main ++ List.replicate 36 .worker ++
  List.replicate 14 .main ++ List.replicate 13 .worker ++ List.replicate 21 .main ++
  List.replicate 5 .worker ++ List.replicate 7 .main

theorem performStreamCollide_refines_fourCells :
    testFlagSweep ⟨2, 2, 1⟩ fourCells obstacle (calcIndex ⟨2, 2, 1⟩ 1 0 0 0) = true ∧
    ∃ s : State Rat,
      exec (step ⟨2, 2, 1⟩ fourCells) (init ⟨2, 2, 1⟩ fun _ => 0) fourCellsRun = some s ∧
      s.main = .returned ∧
      (s.main = .returned → s.dst = performStreamCollide ⟨2, 2, 1⟩ fourCells fun _ => 0) ∧
      (s.main ≠ .returned → ∃ t s', step ⟨2, 2, 1⟩ fourCells s t = some s') ∧
      fourCellsRun.length ≤ 25 * (2 * 2 * 1) + 22 := by
  have hrun : (exec (step ⟨2, 2, 1⟩ fourCells) (init ⟨2, 2, 1⟩ fun _ => (0 : Rat))
      fourCellsRun).any (fun s => s.main matches .returned) = true := by
    decide +kernel
  obtain ⟨s, hs, hmain⟩ := (Option.any_eq_true _ _).mp hrun
  have hret : s.main = .returned := by
    revert hmain
    cases s.main <;> simp
  exact ⟨by decide +kernel, s, hs, hret, performStreamCollide_refines hs⟩

end Lbm

end IcsaDswp
