import IcsaDswp.Lbm
import IcsaDswp.Lib.Independent
import Mathlib

/-!
# The grids of `lbm.c`

What `lbm.c` does with a grid besides `LBM_performStreamCollide`: initialization, the flags of the
special cells, inflow and outflow, and the statistics. A loop over the cells is a fold. Every loop
that is marked `omp parallel for` leaves the same grid in whatever order its iterations are run
(`parallel_for`). Here as in `Lbm` indices are taken to fit into `int`.
-/

namespace IcsaDswp

open Lib

namespace Lbm

/-- What `lbm.c` needs of `double` besides arithmetic. -/
class Double (V : Type) extends Arith V where
  /-- `v` after `*MAGIC_CAST(v) = w`. -/
  setMagicCast : V → UInt32 → V
  magicCast_setMagicCast : ∀ v w, magicCast (setMagicCast v w) = w
  /-- The conversion of an `int`. -/
  ofInt : Int → V
  /-- `<`. -/
  lt : V → V → Bool

export Double (setMagicCast magicCast_setMagicCast)

/-- The values of `i` from `SWEEP_START` to `SWEEP_END`, where the sweep ends at `hi`. -/
def sweepTo (hi i : Int) : List Int :=
  if i < hi then i :: sweepTo hi (i + nCellEntries) else []
termination_by (hi - i).toNat
decreasing_by
  unfold nCellEntries
  omega

/-- The values of `v` in `for (v = lo; v < hi; v++)`. -/
def forInt (lo hi : Int) : List Int := (List.range (hi - lo).toNat).map fun n : Nat => lo + n

/-! ## Allocation -/

/-- `margin`, in `LBM_allocateGrid`. -/
def margin (sz : Size) : Int := 2 * sz.x * sz.y * nCellEntries

/-- The entries that `LBM_allocateGrid` allocates, seen from `*ptr + margin`. -/
def Allocated (sz : Size) (k : Int) : Prop :=
  -margin sz ≤ k ∧ k < sz.z * sz.y * sz.x * nCellEntries + margin sz

/-! ## Initialization -/

section Grid

variable {V : Type} [Double V]

/-- The assignments `LOCAL(g, e) = v e`, in the order of the entries. -/
def setEntries (sz : Size) (g : Grid V) (i : Int) (v : CellEntry → V) : Grid V :=
  writeAll g (fluidEntries.map fun e => (gridEntrySweep sz 0 0 0 e.val i, v e))

def clearAllFlagsSweep (sz : Size) (g : Grid V) (i : Int) : Grid V :=
  Function.update g (gridEntrySweep sz 0 0 0 flags i)
    (setMagicCast (g (gridEntrySweep sz 0 0 0 flags i)) 0)

/-- `DFL1`, `DFL2` or `DFL3`, what `LBM_initializeGrid` assigns to an entry. -/
def dfl : CellEntry → V
  | .C => dfl1
  | .N | .S | .E | .W | .T | .B => dfl2
  | .NE | .NW | .SE | .SW | .NT | .NB | .ST | .SB | .ET | .EB | .WT | .WB => dfl3

def initializeCell (sz : Size) (g : Grid V) (i : Int) : Grid V :=
  clearAllFlagsSweep sz (setEntries sz g i dfl) i

/-- The cells that `LBM_initializeGrid` goes over. -/
def initializeSweep (sz : Size) : List Int :=
  sweepTo (calcIndex sz 0 0 (sz.z + 2) 0) (calcIndex sz 0 0 (-2) 0)

def initializeGrid (sz : Size) (g : Grid V) : Grid V :=
  (initializeSweep sz).foldl (initializeCell sz) g

/-! ## Special cells -/

def inOutFlow : UInt32 := (1 : UInt32) <<< 2

def testFlag (sz : Size) (g : Grid V) (x y z : Int) (f : UInt32) : Bool :=
  Arith.magicCast (g (calcIndex sz x y z flags)) &&& f != 0

def setFlag (sz : Size) (g : Grid V) (x y z : Int) (f : UInt32) : Grid V :=
  Function.update g (calcIndex sz x y z flags)
    (setMagicCast (g (calcIndex sz x y z flags))
      (Arith.magicCast (g (calcIndex sz x y z flags)) ||| f))

/-- The body of the loops of `LBM_initializeSpecialCellsForLDC`. -/
def specialCellForLDC (sz : Size) (x y z : Int) (grid : Grid V) : Grid V :=
  if x = 0 ∨ x = sz.x - 1 ∨ y = 0 ∨ y = sz.y - 1 ∨ z = 0 ∨ z = sz.z - 1 then
    setFlag sz grid x y z obstacle
  else if (z = 1 ∨ z = sz.z - 2) ∧ x > 1 ∧ x < sz.x - 2 ∧ y > 1 ∧ y < sz.y - 2 then
    setFlag sz grid x y z accel
  else grid

/-- Every cell from `-2` to `SIZE_Z + 2`. -/
def forCells (sz : Size) (body : Int → Int → Int → Grid V → Grid V) (grid : Grid V) : Grid V :=
  (forInt (-2) (sz.z + 2)).foldl (fun grid z =>
    (forInt 0 sz.y).foldl (fun grid y =>
      (forInt 0 sz.x).foldl (fun grid x => body x y z grid) grid) grid) grid

def initializeSpecialCellsForLDC (sz : Size) (grid : Grid V) : Grid V :=
  forCells sz (specialCellForLDC sz) grid

/-- The body of the loops of `LBM_initializeSpecialCellsForChannel`. The second test is inside the
branch of the first one. -/
def specialCellForChannel (sz : Size) (x y z : Int) (grid : Grid V) : Grid V :=
  if x = 0 ∨ x = sz.x - 1 ∨ y = 0 ∨ y = sz.y - 1 then
    let grid := setFlag sz grid x y z obstacle
    if (z = 0 ∨ z = sz.z - 1) ∧ ¬ testFlag sz grid x y z obstacle then
      setFlag sz grid x y z inOutFlow
    else grid
  else grid

def initializeSpecialCellsForChannel (sz : Size) (grid : Grid V) : Grid V :=
  forCells sz (specialCellForChannel sz) grid

/-- `fgetc(file)`: the next character, or `EOF`. -/
def fgetc : List UInt8 → Int × List UInt8
  | [] => (-1, [])
  | c :: rest => (c.toNat, rest)

/-- The grid, and what is left of the file. -/
abbrev Loading (V : Type) := Grid V × List UInt8

/-- `if (fgetc(file) != '.') SET_FLAG(grid, x, y, z, OBSTACLE);` -/
def loadCell (sz : Size) (x y z : Int) (s : Loading V) : Loading V :=
  let c := fgetc s.2
  (if c.1 ≠ 46 then setFlag sz s.1 x y z obstacle else s.1, c.2)

/-- A line, and the character after it. -/
def loadLine (sz : Size) (y z : Int) (s : Loading V) : Loading V :=
  let s := (forInt 0 sz.x).foldl (fun s x => loadCell sz x y z s) s
  (s.1, (fgetc s.2).2)

/-- A layer, and the character after it. -/
def loadLayer (sz : Size) (z : Int) (s : Loading V) : Loading V :=
  let s := (forInt 0 sz.y).foldl (fun s y => loadLine sz y z s) s
  (s.1, (fgetc s.2).2)

/-- With what is left of the file when it is closed. -/
def loadObstacleFile (sz : Size) (s : Loading V) : Loading V :=
  (forInt 0 sz.z).foldl (fun s z => loadLayer sz z s) s

/-! ## Inflow and outflow -/

def sweepX (sz : Size) (i : Int) : Int := (i.tdiv nCellEntries).tmod sz.x

def sweepY (sz : Size) (i : Int) : Int := ((i.tdiv nCellEntries).tdiv sz.x).tmod sz.y

/-- The entries of the cell at `dx`, `dy`, `dz` from the one at `i`. -/
def neighbor (sz : Size) (g : Grid V) (i dx dy dz : Int) (e : CellEntry) : V :=
  g (gridEntrySweep sz dx dy dz e.val i)

/-- The sum of the entries of a cell. -/
def rho (s : CellEntry → V) : V :=
  s .C + s .N + s .S + s .E + s .W + s .T + s .B + s .NE + s .NW + s .SE + s .SW +
    s .NT + s .NB + s .ST + s .SB + s .ET + s .EB + s .WT + s .WB

def ux (s : CellEntry → V) : V :=
  s .E - s .W + s .NE - s .NW + s .SE - s .SW + s .ET + s .EB - s .WT - s .WB

def uy (s : CellEntry → V) : V :=
  s .N - s .S + s .NE + s .NW - s .SE - s .SW + s .NT + s .NB - s .ST - s .SB

def uz (s : CellEntry → V) : V :=
  s .T - s .B + s .NT - s .NB + s .ST - s .SB + s .ET - s .EB + s .WT - s .WB

/-- What `LBM_handleInOutFlow` assigns to an entry, for `rho`, `ux`, `uy`, `uz` and `u2`. -/
def inOut (p : Packet V) : CellEntry → V
  | .C => dfl1 * p.rho * (1.0 - p.u2)
  | .N => dfl2 * p.rho * (1.0 + p.uy * (4.5 * p.uy + 3.0) - p.u2)
  | .S => dfl2 * p.rho * (1.0 + p.uy * (4.5 * p.uy - 3.0) - p.u2)
  | .E => dfl2 * p.rho * (1.0 + p.ux * (4.5 * p.ux + 3.0) - p.u2)
  | .W => dfl2 * p.rho * (1.0 + p.ux * (4.5 * p.ux - 3.0) - p.u2)
  | .T => dfl2 * p.rho * (1.0 + p.uz * (4.5 * p.uz + 3.0) - p.u2)
  | .B => dfl2 * p.rho * (1.0 + p.uz * (4.5 * p.uz - 3.0) - p.u2)
  | .NE => dfl3 * p.rho * (1.0 + (p.ux + p.uy) * (4.5 * (p.ux + p.uy) + 3.0) - p.u2)
  | .NW => dfl3 * p.rho * (1.0 + (-p.ux + p.uy) * (4.5 * (-p.ux + p.uy) + 3.0) - p.u2)
  | .SE => dfl3 * p.rho * (1.0 + (p.ux - p.uy) * (4.5 * (p.ux - p.uy) + 3.0) - p.u2)
  | .SW => dfl3 * p.rho * (1.0 + (-p.ux - p.uy) * (4.5 * (-p.ux - p.uy) + 3.0) - p.u2)
  | .NT => dfl3 * p.rho * (1.0 + (p.uy + p.uz) * (4.5 * (p.uy + p.uz) + 3.0) - p.u2)
  | .NB => dfl3 * p.rho * (1.0 + (p.uy - p.uz) * (4.5 * (p.uy - p.uz) + 3.0) - p.u2)
  | .ST => dfl3 * p.rho * (1.0 + (-p.uy + p.uz) * (4.5 * (-p.uy + p.uz) + 3.0) - p.u2)
  | .SB => dfl3 * p.rho * (1.0 + (-p.uy - p.uz) * (4.5 * (-p.uy - p.uz) + 3.0) - p.u2)
  | .ET => dfl3 * p.rho * (1.0 + (p.ux + p.uz) * (4.5 * (p.ux + p.uz) + 3.0) - p.u2)
  | .EB => dfl3 * p.rho * (1.0 + (p.ux - p.uz) * (4.5 * (p.ux - p.uz) + 3.0) - p.u2)
  | .WT => dfl3 * p.rho * (1.0 + (-p.ux + p.uz) * (4.5 * (-p.ux + p.uz) + 3.0) - p.u2)
  | .WB => dfl3 * p.rho * (1.0 + (-p.ux - p.uz) * (4.5 * (-p.ux - p.uz) + 3.0) - p.u2)

def inflow (sz : Size) (srcGrid : Grid V) (i : Int) : Packet V :=
  let rho1 := rho (neighbor sz srcGrid i 0 0 1)
  let rho2 := rho (neighbor sz srcGrid i 0 0 2)
  let rho := 2.0 * rho1 - rho2
  let px := Double.ofInt (sweepX sz i) / (0.5 * Double.ofInt (sz.x - 1)) - 1.0
  let py := Double.ofInt (sweepY sz i) / (0.5 * Double.ofInt (sz.y - 1)) - 1.0
  let ux := 0.00
  let uy := 0.00
  let uz := 0.01 * (1.0 - px * px) * (1.0 - py * py)
  ⟨i, ux, uy, uz, 1.5 * (ux * ux + uy * uy + uz * uz), rho⟩

def outflow (sz : Size) (srcGrid : Grid V) (i : Int) : Packet V :=
  let s1 := neighbor sz srcGrid i 0 0 (-1)
  let s2 := neighbor sz srcGrid i 0 0 (-2)
  let ux := Double.ofInt 2 * (ux s1 / rho s1) - ux s2 / rho s2
  let uy := Double.ofInt 2 * (uy s1 / rho s1) - uy s2 / rho s2
  let uz := Double.ofInt 2 * (uz s1 / rho s1) - uz s2 / rho s2
  ⟨i, ux, uy, uz, 1.5 * (ux * ux + uy * uy + uz * uz), 1.0⟩

def inflowCell (sz : Size) (srcGrid : Grid V) (i : Int) : Grid V :=
  setEntries sz srcGrid i (inOut (inflow sz srcGrid i))

def outflowCell (sz : Size) (srcGrid : Grid V) (i : Int) : Grid V :=
  setEntries sz srcGrid i (inOut (outflow sz srcGrid i))

def inflowSweep (sz : Size) : List Int := sweepTo (calcIndex sz 0 0 1 0) (calcIndex sz 0 0 0 0)

def outflowSweep (sz : Size) : List Int :=
  sweepTo (calcIndex sz 0 0 sz.z 0) (calcIndex sz 0 0 (sz.z - 1) 0)

def handleInOutFlow (sz : Size) (srcGrid : Grid V) : Grid V :=
  (outflowSweep sz).foldl (outflowCell sz) ((inflowSweep sz).foldl (inflowCell sz) srcGrid)

/-! ## Statistics -/

/-- What `LBM_showGridStatistics` prints; of `minU2` and `maxU2` the square root. -/
structure GridStatistics (V : Type) where
  nObstacleCells : Nat
  nAccelCells : Nat
  nFluidCells : Nat
  minRho : V
  maxRho : V
  mass : V
  minU2 : V
  maxU2 : V

def noteCell (sz : Size) (grid : Grid V) (st : GridStatistics V) (i : Int) : GridStatistics V :=
  let s := src sz grid i
  let rho := rho s
  let st := { st with
    minRho := if Double.lt rho st.minRho then rho else st.minRho
    maxRho := if Double.lt st.maxRho rho then rho else st.maxRho
    mass := st.mass + rho }
  if testFlagSweep sz grid obstacle i then
    { st with nObstacleCells := st.nObstacleCells + 1 }
  else
    let st :=
      if testFlagSweep sz grid accel i then { st with nAccelCells := st.nAccelCells + 1 }
      else { st with nFluidCells := st.nFluidCells + 1 }
    let u2 := (ux s * ux s + uy s * uy s + uz s * uz s) / (rho * rho)
    { st with
      minU2 := if Double.lt u2 st.minU2 then u2 else st.minU2
      maxU2 := if Double.lt st.maxU2 u2 then u2 else st.maxU2 }

def showGridStatistics (sz : Size) (grid : Grid V) : GridStatistics V :=
  (sweep sz (calcIndex sz 0 0 0 0)).foldl (noteCell sz grid)
    ⟨0, 0, 0, 1e+30, -1e+30, Double.ofInt 0, 1e+30, -1e+30⟩

end Grid

/-! ## Sweeps and indices -/

theorem sweepTo_eq (n : Nat) (lo : Int) :
    sweepTo (lo + nCellEntries * n) lo =
      (List.range n).map fun c : Nat => lo + nCellEntries * c := by
  induction n generalizing lo with
  | zero =>
    unfold sweepTo
    simp
  | succ n ih =>
    have hlt : lo < lo + nCellEntries * (n + 1 : Nat) := by
      unfold nCellEntries
      omega
    have hhi : lo + nCellEntries * (n + 1 : Nat) = lo + nCellEntries + nCellEntries * n := by
      push_cast
      ring
    rw [sweepTo, if_pos hlt, hhi, ih, List.range_succ_eq_map, List.map_cons, List.map_map]
    refine congrArg₂ List.cons (by simp) (List.map_congr_left fun c _ => ?_)
    simp only [Function.comp_apply, Nat.succ_eq_add_one]
    push_cast
    ring

theorem sweep_eq_sweepTo (sz : Size) (i : Int) :
    sweep sz i = sweepTo (calcIndex sz 0 0 sz.z 0) i := by
  fun_induction sweep sz i with
  | case1 i hi ih => rw [sweepTo, if_pos hi, ih]
  | case2 i hi => rw [sweepTo, if_neg hi]

/-- The number of cells. -/
def Size.cells (sz : Size) : Nat := sz.x * sz.y * sz.z

theorem calcIndex_start (sz : Size) : calcIndex sz 0 0 0 0 = 0 := by simp [calcIndex]

theorem calcIndex_end (sz : Size) : calcIndex sz 0 0 sz.z 0 = nCellEntries * sz.cells := by
  unfold calcIndex Size.cells
  push_cast
  ring

/-- An entry from the number of its cell. -/
theorem calcIndex_cell (sz : Size) (x y z e : Int) :
    calcIndex sz x y z e = nCellEntries * (x + y * sz.x + z * sz.x * sz.y) + e := by
  unfold calcIndex
  ring

/-- The sweep over the whole grid goes over the cells in turn. -/
theorem sweep_eq (sz : Size) :
    sweep sz (calcIndex sz 0 0 0 0) = (List.range sz.cells).map fun c : Nat => nCellEntries * c := by
  have hhi : calcIndex sz 0 0 sz.z 0 = 0 + nCellEntries * sz.cells := by rw [calcIndex_end, zero_add]
  rw [sweep_eq_sweepTo, calcIndex_start, hhi, sweepTo_eq]
  simp

theorem initializeSweep_eq (sz : Size) :
    initializeSweep sz = (List.range (sz.x * sz.y * (sz.z + 4))).map fun c : Nat =>
      -margin sz + nCellEntries * c := by
  have hhi : calcIndex sz 0 0 (sz.z + 2) 0 =
      -margin sz + nCellEntries * ((sz.x * sz.y * (sz.z + 4) : Nat) : Int) := by
    simp only [calcIndex, margin]
    push_cast
    ring
  have hlo : calcIndex sz 0 0 (-2) 0 = -margin sz := by
    simp only [calcIndex, margin]
    ring
  rw [initializeSweep, hlo, hhi, sweepTo_eq]

theorem inflowSweep_eq (sz : Size) :
    inflowSweep sz = (List.range (sz.x * sz.y)).map fun c : Nat => nCellEntries * c := by
  have hhi : calcIndex sz 0 0 1 0 = 0 + nCellEntries * ((sz.x * sz.y : Nat) : Int) := by
    simp only [calcIndex]
    push_cast
    ring
  rw [inflowSweep, calcIndex_start, hhi, sweepTo_eq]
  simp

theorem outflowSweep_eq (sz : Size) :
    outflowSweep sz = (List.range (sz.x * sz.y)).map fun c : Nat =>
      calcIndex sz 0 0 (sz.z - 1) 0 + nCellEntries * c := by
  have hhi : calcIndex sz 0 0 sz.z 0 =
      calcIndex sz 0 0 (sz.z - 1) 0 + nCellEntries * ((sz.x * sz.y : Nat) : Int) := by
    simp only [calcIndex]
    push_cast
    ring
  rw [outflowSweep, hhi, sweepTo_eq]

theorem mem_forInt {lo hi v : Int} : v ∈ forInt lo hi ↔ lo ≤ v ∧ v < hi := by
  unfold forInt
  rw [List.mem_map]
  constructor
  · rintro ⟨n, hn, rfl⟩
    rw [List.mem_range] at hn
    omega
  · rintro ⟨hlo, hhi⟩
    refine ⟨(v - lo).toNat, List.mem_range.mpr ?_, ?_⟩
    · omega
    · omega

theorem nodup_forInt (lo hi : Int) : (forInt lo hi).Nodup :=
  List.nodup_range.map fun a b h => by
    have hab : lo + (a : Int) = lo + b := h
    omega

/-- Division with remainder is unique. -/
theorem eq_of_add_mul_eq {n a a' b b' : Int} (ha : 0 ≤ a ∧ a < n) (ha' : 0 ≤ a' ∧ a' < n)
    (h : a + n * b = a' + n * b') : a = a' ∧ b = b' := by
  have hmod : a = a' := by
    have h' := congrArg (· % n) h
    simpa only [Int.add_mul_emod_self_left, Int.emod_eq_of_lt ha.1 ha.2,
      Int.emod_eq_of_lt ha'.1 ha'.2] using h'
  have hn : n ≠ 0 := by omega
  refine ⟨hmod, ?_⟩
  rw [hmod] at h
  exact Int.eq_of_mul_eq_mul_left hn (by omega)

/-- A cell of the grid, with the margin in `z`. -/
structure InBox (sz : Size) (x y : Int) : Prop where
  x : 0 ≤ x ∧ x < sz.x
  y : 0 ≤ y ∧ y < sz.y

/-- **The index tells the cell and the entry.** -/
theorem eq_of_calcIndex_eq {sz : Size} {x y z e x' y' z' e' : Int} (h : InBox sz x y)
    (h' : InBox sz x' y') (he : 0 ≤ e ∧ e < 20) (he' : 0 ≤ e' ∧ e' < 20)
    (heq : calcIndex sz x y z e = calcIndex sz x' y' z' e') :
    x = x' ∧ y = y' ∧ z = z' ∧ e = e' := by
  obtain ⟨hentry, hcell⟩ := eq_of_add_mul_eq he he' heq
  have hrow : x + sz.x * (y + sz.y * z) = x' + sz.x * (y' + sz.y * z') := by
    have hassoc : ∀ x y z : Int, x + sz.x * (y + sz.y * z) = x + y * sz.x + z * sz.x * sz.y := by
      intros
      ring
    rw [hassoc, hassoc, hcell]
  obtain ⟨hx, hrow⟩ := eq_of_add_mul_eq h.x h'.x hrow
  obtain ⟨hy, hz⟩ := eq_of_add_mul_eq h.y h'.y hrow
  exact ⟨hx, hy, hz, hentry⟩

theorem mem_sweepTo {hi lo i : Int} :
    i ∈ sweepTo hi lo ↔ lo ≤ i ∧ i < hi ∧ ∃ n : Nat, i = lo + nCellEntries * n := by
  unfold nCellEntries
  fun_induction sweepTo hi lo with
  | case1 lo hlt ih =>
    rw [List.mem_cons, ih]
    unfold nCellEntries
    constructor
    · rintro (rfl | ⟨hlo, hhi, n, hn⟩)
      · exact ⟨le_refl i, hlt, 0, by omega⟩
      · exact ⟨by omega, hhi, n + 1, by omega⟩
    · rintro ⟨hlo, hhi, n, hn⟩
      by_cases hzero : n = 0
      · exact .inl (by omega)
      · exact .inr ⟨by omega, hhi, n - 1, by omega⟩
  | case2 lo hlt =>
    simp only [List.not_mem_nil, false_iff]
    omega

theorem mem_sweep {sz : Size} {i : Int} :
    i ∈ sweep sz (calcIndex sz 0 0 0 0) ↔ ∃ n : Nat, n < sz.cells ∧ i = nCellEntries * n := by
  rw [sweep_eq, List.mem_map]
  simp only [List.mem_range, eq_comm]

/-- The layers that a cell lies in bound its index. -/
theorem InBox.calcIndex_bounds {sz : Size} {x y z lo hi e : Int} (h : InBox sz x y)
    (hz : lo ≤ z ∧ z < hi) (he : 0 ≤ e ∧ e < 20) :
    calcIndex sz 0 0 lo 0 ≤ calcIndex sz x y z e ∧
      calcIndex sz x y z e < calcIndex sz 0 0 hi 0 := by
  have hx := h.x
  have hy := h.y
  have hlayer : ∀ z : Int, z * sz.x * sz.y = sz.x * (sz.y * z) := by
    intro z
    ring
  have hlow : (sz.y : Int) * lo ≤ sz.y * z := Int.mul_le_mul_of_nonneg_left hz.1 (by omega)
  have hhigh : (sz.y : Int) * z + sz.y ≤ sz.y * hi := by
    have hmul := Int.mul_le_mul_of_nonneg_left (show z + 1 ≤ hi by omega)
      (show (0 : Int) ≤ sz.y by omega)
    rwa [mul_add, mul_one] at hmul
  have hlow' : (sz.x : Int) * (sz.y * lo) ≤ sz.x * (sz.y * z) :=
    Int.mul_le_mul_of_nonneg_left hlow (by omega)
  have hrow : 0 ≤ y * (sz.x : Int) := Int.mul_nonneg hy.1 (by omega)
  have hhigh' : x + y * sz.x + sz.x * (sz.y * z) < sz.x * (sz.y * hi) := by
    have hmul := Int.mul_le_mul_of_nonneg_left (show (y + 1) + sz.y * z ≤ sz.y * hi by omega)
      (show (0 : Int) ≤ sz.x by omega)
    have hexpand : (sz.x : Int) * (y + 1 + sz.y * z) = y * sz.x + sz.x + sz.x * (sz.y * z) := by
      ring
    omega
  unfold calcIndex nCellEntries
  rw [hlayer lo, hlayer hi, hlayer z]
  omega

/-- The cells are numbered from zero. -/
theorem InBox.number_bounds {sz : Size} {x y z : Int} (h : InBox sz x y) (hz : 0 ≤ z ∧ z < sz.z) :
    0 ≤ x + y * sz.x + z * sz.x * sz.y ∧ x + y * sz.x + z * sz.x * sz.y < sz.cells := by
  have hb := h.calcIndex_bounds hz (show (0 : Int) ≤ 0 ∧ (0 : Int) < 20 by decide)
  rw [calcIndex_start, calcIndex_end, calcIndex_cell] at hb
  unfold nCellEntries at hb
  omega

/-- Every cell of a sweep has coordinates. -/
theorem exists_calcIndex {sz : Size} {n : Nat} (h : n < sz.cells) :
    ∃ x y z : Int, InBox sz x y ∧ (0 ≤ z ∧ z < sz.z) ∧ nCellEntries * n = calcIndex sz x y z 0 := by
  have hx : 0 < sz.x := by
    by_contra hx
    simp [Size.cells, Nat.eq_zero_of_not_pos hx] at h
  have hy : 0 < sz.y := by
    by_contra hy
    simp [Size.cells, Nat.eq_zero_of_not_pos hy] at h
  have hz : n / sz.x / sz.y < sz.z := by
    rw [Nat.div_div_eq_div_mul]
    exact Nat.div_lt_of_lt_mul h
  have hxmod := Nat.mod_lt n hx
  have hymod := Nat.mod_lt (n / sz.x) hy
  refine ⟨(n % sz.x : Nat), (n / sz.x % sz.y : Nat), (n / sz.x / sz.y : Nat),
    ⟨by omega, by omega⟩, ⟨Int.natCast_nonneg _, by exact_mod_cast hz⟩, ?_⟩
  have hdecode : (n : Int) = (n % sz.x : Nat) + (n / sz.x % sz.y : Nat) * sz.x +
      (n / sz.x / sz.y : Nat) * sz.x * sz.y := by
    have hrow := Nat.mod_add_div n sz.x
    have hlayer := Nat.mod_add_div (n / sz.x) sz.y
    have hn : n = n % sz.x + n / sz.x % sz.y * sz.x + n / sz.x / sz.y * sz.x * sz.y := by
      calc n = n % sz.x + sz.x * (n / sz.x) := hrow.symm
        _ = n % sz.x + sz.x * (n / sz.x % sz.y + sz.y * (n / sz.x / sz.y)) := by rw [hlayer]
        _ = _ := by ring
    exact_mod_cast hn
  rw [calcIndex, ← hdecode, zero_add]

/-! ## What an iteration writes and reads -/

section Confined

variable {V : Type} {sz : Size} {g : Grid V} {i k : Int}

@[simp] theorem gridEntrySweep_zero (sz : Size) (e i : Int) :
    gridEntrySweep sz 0 0 0 e i = i + e := by
  simp only [gridEntrySweep, calcIndex]
  ring

theorem setEntries_at (sz : Size) (g : Grid V) (i : Int) (v : CellEntry → V) (e : CellEntry) :
    setEntries sz g i v (i + e.val) = v e := by
  have hmem : (gridEntrySweep sz 0 0 0 e.val i, v e) ∈
      fluidEntries.map fun e => (gridEntrySweep sz 0 0 0 e.val i, v e) :=
    List.mem_map_of_mem (by cases e <;> decide)
  have hnodup : ((fluidEntries.map fun e => (gridEntrySweep sz 0 0 0 e.val i, v e)).map
      Prod.fst).Nodup := by
    rw [List.map_map]
    refine List.Nodup.map (fun a b hab => ?_) (by decide : fluidEntries.Nodup)
    simp only [Function.comp_apply, gridEntrySweep_zero] at hab
    exact CellEntry.val_injective (by omega)
  have hat := writeAll_at (g := g) hnodup hmem
  rwa [gridEntrySweep_zero] at hat

theorem setEntries_off {v : CellEntry → V} (h : ∀ e : CellEntry, k ≠ i + e.val) :
    setEntries sz g i v k = g k := by
  refine writeAll_off fun hmem => ?_
  rw [List.map_map] at hmem
  obtain ⟨e, -, he⟩ := List.mem_map.mp hmem
  simp only [Function.comp_apply, gridEntrySweep_zero] at he
  exact h e he.symm

/-- The entries that `setEntries` writes, of the cell at `i`. -/
def EntryOf (i k : Int) : Prop := ∃ e : CellEntry, k = i + e.val

theorem EntryOf.bounds (h : EntryOf i k) : i ≤ k ∧ k < i + 19 := by
  obtain ⟨e, rfl⟩ := h
  cases e <;> simp [CellEntry.val]

theorem entryOf_iff : EntryOf i k ↔ i ≤ k ∧ k < i + 19 := by
  refine ⟨EntryOf.bounds, fun ⟨hlo, hhi⟩ => ?_⟩
  have hval : ∀ d : Fin 19, ∃ e : CellEntry, (d : Int) = e.val := by
    intro d
    exact ⟨fluidEntries.get ⟨d, d.isLt⟩, by revert d; decide⟩
  obtain ⟨e, he⟩ := hval ⟨(k - i).toNat, by omega⟩
  refine ⟨e, ?_⟩
  rw [← he]
  simp only
  omega

variable [Double V]

theorem initializeCell_confined (sz : Size) :
    Confined (initializeCell (V := V) sz) (fun i k => i ≤ k ∧ k < i + 20)
      (fun i k => k = i + 19) where
  frame g i k hk := by
    have hflags : k ≠ i + flags := by
      unfold flags
      omega
    rw [initializeCell, clearAllFlagsSweep, gridEntrySweep_zero, Function.update_of_ne hflags]
    refine setEntries_off fun e he => hk ?_
    have hb := EntryOf.bounds ⟨e, he⟩
    omega
  depends g g' i h k hk := by
    have hflags : ∀ g : Grid V, setEntries sz g i dfl (i + flags) = g (i + flags) := fun g =>
      setEntries_off fun e he => by
        have hb := EntryOf.bounds ⟨e, he⟩
        unfold flags at hb
        omega
    simp only [initializeCell, clearAllFlagsSweep, gridEntrySweep_zero, hflags]
    rw [h (i + flags) rfl]
    by_cases hkf : k = i + flags
    · rw [hkf, Function.update_self, Function.update_self]
    · have hlt : k ≠ i + 19 := hkf
      obtain ⟨e, rfl⟩ := entryOf_iff.mpr (show i ≤ k ∧ k < i + 19 by omega)
      rw [Function.update_of_ne hkf, Function.update_of_ne hkf, setEntries_at, setEntries_at]

/-- The flags of a cell. -/
def flagsAt (sz : Size) (c : Int × Int × Int) : Int := calcIndex sz c.2.2 c.2.1 c.1 flags

theorem setFlag_off {x y z : Int} {f : UInt32} (h : k ≠ calcIndex sz x y z flags) :
    setFlag sz g x y z f k = g k :=
  Function.update_of_ne h _ _

theorem setFlag_at (sz : Size) (g : Grid V) (x y z : Int) (f : UInt32) :
    Arith.magicCast (setFlag sz g x y z f (calcIndex sz x y z flags)) =
      Arith.magicCast (g (calcIndex sz x y z flags)) ||| f := by
  rw [setFlag, Function.update_self, magicCast_setMagicCast]

theorem setFlag_congr {g g' : Grid V} {x y z : Int}
    (h : g (calcIndex sz x y z flags) = g' (calcIndex sz x y z flags)) (f : UInt32) :
    setFlag sz g x y z f (calcIndex sz x y z flags) =
      setFlag sz g' x y z f (calcIndex sz x y z flags) := by
  rw [setFlag, setFlag, Function.update_self, Function.update_self, h]

theorem specialCellForLDC_confined (sz : Size) :
    Confined (fun (g : Grid V) c => specialCellForLDC sz c.2.2 c.2.1 c.1 g)
      (fun c k => k = flagsAt sz c) (fun c k => k = flagsAt sz c) where
  frame g c k hk := by
    unfold specialCellForLDC
    split
    · exact setFlag_off hk
    · split
      · exact setFlag_off hk
      · rfl
  depends g g' c h k hk := by
    obtain rfl := hk
    have hc := h (flagsAt sz c) rfl
    unfold specialCellForLDC
    split
    · exact setFlag_congr hc obstacle
    · split
      · exact setFlag_congr hc accel
      · exact hc

theorem or_and_self (w f : UInt32) : (w ||| f) &&& f = f := by
  apply UInt32.toBitVec_inj.mp
  ext i
  simp only [UInt32.toBitVec_and, UInt32.toBitVec_or, BitVec.getElem_and, BitVec.getElem_or]
  cases w.toBitVec[i] <;> simp

/-- The flag that was just set is set. -/
theorem testFlag_setFlag_obstacle (sz : Size) (g : Grid V) (x y z : Int) :
    testFlag sz (setFlag sz g x y z obstacle) x y z obstacle = true := by
  unfold testFlag
  rw [setFlag_at]
  rw [or_and_self]
  decide

/-- `IN_OUT_FLOW` is never set: the test for it comes after `OBSTACLE` was set. -/
theorem specialCellForChannel_eq (sz : Size) (x y z : Int) (g : Grid V) :
    specialCellForChannel sz x y z g =
      if x = 0 ∨ x = sz.x - 1 ∨ y = 0 ∨ y = sz.y - 1 then setFlag sz g x y z obstacle else g := by
  unfold specialCellForChannel
  simp only [testFlag_setFlag_obstacle, not_true_eq_false, and_false, if_false]

theorem specialCellForChannel_confined (sz : Size) :
    Confined (fun (g : Grid V) c => specialCellForChannel sz c.2.2 c.2.1 c.1 g)
      (fun c k => k = flagsAt sz c) (fun c k => k = flagsAt sz c) where
  frame g c k hk := by
    rw [specialCellForChannel_eq]
    split
    · exact setFlag_off hk
    · rfl
  depends g g' c h k hk := by
    obtain rfl := hk
    have hc := h (flagsAt sz c) rfl
    rw [specialCellForChannel_eq, specialCellForChannel_eq]
    split
    · exact setFlag_congr hc obstacle
    · exact hc

end Confined

/-! ## What a cell gives to its neighbours -/

namespace CellEntry

/-- The direction back. -/
def opposite : CellEntry → CellEntry
  | C => C
  | N => S | S => N | E => W | W => E | T => B | B => T
  | NE => SW | SW => NE | NW => SE | SE => NW
  | NT => SB | SB => NT | NB => ST | ST => NB
  | ET => WB | WB => ET | EB => WT | WT => EB

theorem opposite_involutive : Function.Involutive opposite := by
  intro e
  cases e <;> rfl

theorem mem_bounceBack (e : CellEntry) : (e, e.opposite) ∈ bounceBack := by
  cases e <;> decide

theorem mem_fluidEntries (e : CellEntry) : e ∈ fluidEntries := by
  cases e <;> decide

end CellEntry

/-- How far away the neighbour in the direction `e` is, in cells. -/
def shift (sz : Size) (e : CellEntry) : ℤ := e.dx + e.dy * sz.x + e.dz * sz.x * sz.y

theorem dst_eq (sz : Size) (c : ℤ) (e : CellEntry) :
    dst sz (nCellEntries * c) e = nCellEntries * (c + shift sz e) + e.val := by
  unfold dst gridEntrySweep calcIndex shift
  ring

section Outgoing

variable {V : Type} [Arith V] {sz : Size} {srcGrid dstGrid : Grid V} {i k : Int}

/-- What the cell at `i` gives to its neighbour in the direction `e`. -/
def outgoing (sz : Size) (srcGrid : Grid V) (i : Int) (e : CellEntry) : V :=
  match packet sz srcGrid i with
  | none => src sz srcGrid i e.opposite
  | some p => collide (src sz srcGrid i) p e

theorem mem_cell (sz : Size) (srcGrid : Grid V) (i : Int) (e : CellEntry) :
    (dst sz i e, outgoing sz srcGrid i e) ∈ cell sz srcGrid i := by
  unfold cell outgoing
  cases hp : packet sz srcGrid i with
  | none => exact List.mem_map.mpr ⟨(e, e.opposite), e.mem_bounceBack, rfl⟩
  | some p =>
    obtain rfl := packet_i hp
    exact List.mem_map.mpr ⟨e, e.mem_fluidEntries, rfl⟩

theorem nodup_cell (sz : Size) (srcGrid : Grid V) (i : Int) :
    ((cell sz srcGrid i).map Prod.fst).Nodup := by
  obtain ⟨entries, hnodup, hplaces⟩ := exists_places sz srcGrid i
  rw [hplaces]
  exact hnodup.map (dst_injective sz i)

theorem writeCell_at (sz : Size) (srcGrid dstGrid : Grid V) (i : Int) (e : CellEntry) :
    writeAll dstGrid (cell sz srcGrid i) (dst sz i e) = outgoing sz srcGrid i e :=
  writeAll_at (nodup_cell sz srcGrid i) (mem_cell sz srcGrid i e)

/-- `LBM_performStreamCollide` does not read the grid that it writes. -/
theorem cell_confined (sz : Size) (srcGrid : Grid V) :
    Confined (fun dstGrid i => writeAll dstGrid (cell sz srcGrid i))
      (fun i k => ∃ e, k = dst sz i e) (fun _ _ => False) where
  frame g i k hk := by
    refine writeAll_off fun hmem => ?_
    obtain ⟨entries, -, hplaces⟩ := exists_places sz srcGrid i
    rw [hplaces] at hmem
    obtain ⟨e, -, he⟩ := List.mem_map.mp hmem
    exact hk ⟨e, he.symm⟩
  depends g g' i _ k hk := by
    obtain ⟨e, rfl⟩ := hk
    rw [writeCell_at, writeCell_at]

theorem sweep_independent (sz : Size) :
    Independent (fun i k => ∃ e, k = dst sz i e) (fun _ _ => False)
      (sweep sz (calcIndex sz 0 0 0 0)) := by
  rw [sweep_eq, Independent, List.pairwise_map]
  refine List.nodup_range.imp fun {a b} hab k => ⟨?_, fun _ h => h⟩
  rintro ⟨e, he⟩
  refine ⟨?_, fun h => h⟩
  rintro ⟨e', he'⟩
  have hdst : dst sz (nCellEntries * a) e =
      dst sz (nCellEntries * a + nCellEntries * ((b : Int) - a)) e' := by
    rw [← he, he']
    congr 1
    ring
  have hzero := (eq_of_dst_eq hdst).2
  omega

/-- **What streaming brings**: each neighbour of a cell has what the cell gives to it. -/
theorem performStreamCollide_at (hi : i ∈ sweep sz (calcIndex sz 0 0 0 0)) (e : CellEntry) :
    performStreamCollide sz srcGrid dstGrid (dst sz i e) = outgoing sz srcGrid i e := by
  rw [performStreamCollide,
    foldl_at (cell_confined sz srcGrid) (sweep_independent sz) hi ⟨e, rfl⟩, writeCell_at]

theorem performStreamCollide_off
    (h : ∀ i ∈ sweep sz (calcIndex sz 0 0 0 0), ∀ e, k ≠ dst sz i e) :
    performStreamCollide sz srcGrid dstGrid k = dstGrid k :=
  foldl_off (cell_confined sz srcGrid) fun i hi ⟨e, he⟩ => h i hi e he

end Outgoing

/-! ## Parallel loops -/

section Parallel

variable {V : Type} [Double V] {sz : Size}

/-- What an inflow or outflow cell reads, `z1` and `z2` layers away. -/
def ReadsLayers (sz : Size) (z1 z2 i k : Int) : Prop :=
  ∃ e : CellEntry, k = gridEntrySweep sz 0 0 z1 e.val i ∨ k = gridEntrySweep sz 0 0 z2 e.val i

theorem setEntries_confined {p : Grid V → Int → Packet V} {z1 z2 : Int}
    (hp : ∀ g g' i, neighbor sz g i 0 0 z1 = neighbor sz g' i 0 0 z1 →
      neighbor sz g i 0 0 z2 = neighbor sz g' i 0 0 z2 → p g i = p g' i) :
    Confined (fun g i => setEntries sz g i (inOut (p g i))) EntryOf (ReadsLayers sz z1 z2) where
  frame g i k hk := setEntries_off fun e he => hk ⟨e, he⟩
  depends g g' i h k hk := by
    have heq : p g i = p g' i :=
      hp g g' i (funext fun e => h _ ⟨e, .inl rfl⟩) (funext fun e => h _ ⟨e, .inr rfl⟩)
    obtain ⟨e, rfl⟩ := hk
    rw [setEntries_at, setEntries_at, heq]

theorem inflowCell_confined (sz : Size) :
    Confined (inflowCell (V := V) sz) EntryOf (ReadsLayers sz 1 2) :=
  setEntries_confined (p := inflow sz) fun g g' i h1 h2 => by
    unfold inflow
    rw [h1, h2]

theorem outflowCell_confined (sz : Size) :
    Confined (outflowCell (V := V) sz) EntryOf (ReadsLayers sz (-1) (-2)) :=
  setEntries_confined (p := outflow sz) fun g g' i h1 h2 => by
    unfold outflow
    rw [h1, h2]

theorem initializeSweep_independent (sz : Size) :
    Independent (fun i k => i ≤ k ∧ k < i + 20) (fun i k => k = i + 19) (initializeSweep sz) := by
  rw [initializeSweep_eq, Independent, List.pairwise_map]
  refine List.nodup_range.imp fun {a b} hab k => ?_
  unfold nCellEntries
  omega

theorem inflowSweep_independent (sz : Size) :
    Independent EntryOf (ReadsLayers sz 1 2) (inflowSweep sz) := by
  rw [inflowSweep_eq, Independent, List.pairwise_map]
  refine List.nodup_range.imp_of_mem fun {a b} ha hb hab k => ?_
  rw [List.mem_range] at ha hb
  have hreads : ∀ a b : Nat, b < sz.x * sz.y → EntryOf (nCellEntries * b) k →
      ¬ ReadsLayers sz 1 2 (nCellEntries * a) k := by
    rintro a b hb hk ⟨e, he⟩
    have hbounds := hk.bounds
    have hb' : (b : Int) < sz.x * sz.y := by exact_mod_cast hb
    have hval := e.val_bounds
    simp only [gridEntrySweep, calcIndex, nCellEntries, zero_mul, zero_add, one_mul,
      mul_assoc (2 : Int)] at he hbounds
    omega
  refine ⟨fun hk => ⟨fun hk' => ?_, hreads b a ha hk⟩, hreads a b hb⟩
  have h1 := hk.bounds
  have h2 := hk'.bounds
  unfold nCellEntries at h1 h2
  omega

theorem outflowSweep_independent (sz : Size) :
    Independent EntryOf (ReadsLayers sz (-1) (-2)) (outflowSweep sz) := by
  rw [outflowSweep_eq, Independent, List.pairwise_map]
  refine List.nodup_range.imp_of_mem fun {a b} ha hb hab k => ?_
  rw [List.mem_range] at ha hb
  have hreads : ∀ (lo : Int) (a b : Nat), a < sz.x * sz.y → EntryOf (lo + nCellEntries * b) k →
      ¬ ReadsLayers sz (-1) (-2) (lo + nCellEntries * a) k := by
    rintro lo a b ha hk ⟨e, he⟩
    have hbounds := hk.bounds
    have ha' : (a : Int) < sz.x * sz.y := by exact_mod_cast ha
    have hval := e.val_bounds
    simp only [gridEntrySweep, calcIndex, nCellEntries, zero_mul, zero_add, neg_mul, one_mul,
      mul_assoc (2 : Int)] at he hbounds
    omega
  refine ⟨fun hk => ⟨fun hk' => ?_, hreads _ b a hb hk⟩, hreads _ a b ha⟩
  have h1 := hk.bounds
  have h2 := hk'.bounds
  unfold nCellEntries at h1 h2
  omega

/-- The cells of the layers from `lo` to `hi`, as `(z, y, x)`. -/
def box (sz : Size) (lo hi : Int) : List (Int × Int × Int) :=
  forInt lo hi ×ˢ forInt 0 sz.y ×ˢ forInt 0 sz.x

variable {lo hi : Int} {c c' : Int × Int × Int}

theorem mem_box : c ∈ box sz lo hi ↔ (lo ≤ c.1 ∧ c.1 < hi) ∧ InBox sz c.2.2 c.2.1 := by
  obtain ⟨z, y, x⟩ := c
  rw [box, List.mem_product, List.mem_product, mem_forInt, mem_forInt, mem_forInt]
  exact ⟨fun ⟨hz, hy, hx⟩ => ⟨hz, hx, hy⟩, fun ⟨hz, hx, hy⟩ => ⟨hz, hy, hx⟩⟩

theorem flagsAt_inj (h : InBox sz c.2.2 c.2.1) (h' : InBox sz c'.2.2 c'.2.1)
    (heq : flagsAt sz c = flagsAt sz c') : c = c' := by
  have hflags : 0 ≤ flags ∧ flags < 20 := by decide
  obtain ⟨hx, hy, hz, -⟩ := eq_of_calcIndex_eq h h' hflags hflags heq
  exact Prod.ext hz (Prod.ext hy hx)

theorem box_independent (sz : Size) (lo hi : Int) :
    Independent (fun c k => k = flagsAt sz c) (fun c k => k = flagsAt sz c) (box sz lo hi) := by
  have hnodup : (box sz lo hi).Nodup :=
    (nodup_forInt _ _).product ((nodup_forInt _ _).product (nodup_forInt _ _))
  refine hnodup.imp_of_mem fun {c c'} hc hc' hne k => ?_
  have hkey : flagsAt sz c ≠ flagsAt sz c' := fun h =>
    hne (flagsAt_inj (mem_box.mp hc).2 (mem_box.mp hc').2 h)
  refine ⟨?_, ?_⟩
  · rintro rfl
    exact ⟨hkey, hkey⟩
  · rintro rfl
    exact hkey.symm

omit [Double V] in
theorem forCells_eq (sz : Size) (body : Int → Int → Int → Grid V → Grid V) (g : Grid V) :
    forCells sz body g = (box sz (-2) (sz.z + 2)).foldl (fun g c => body c.2.2 c.2.1 c.1 g) g := by
  simp only [forCells, box, SProd.sprod, List.product, List.foldl_flatMap, List.foldl_map]

/-- **The loops that are marked `omp parallel for` have independent iterations**: each leaves the
same grid in any order of the cells. -/
theorem parallel_for (sz : Size) (srcGrid g : Grid V) :
    (∀ l : List Int, l.Perm (initializeSweep sz) →
      l.foldl (initializeCell sz) g = initializeGrid sz g) ∧
    (∀ l : List (Int × Int × Int), l.Perm (box sz (-2) (sz.z + 2)) →
      l.foldl (fun g c => specialCellForLDC sz c.2.2 c.2.1 c.1 g) g =
        initializeSpecialCellsForLDC sz g) ∧
    (∀ l : List (Int × Int × Int), l.Perm (box sz (-2) (sz.z + 2)) →
      l.foldl (fun g c => specialCellForChannel sz c.2.2 c.2.1 c.1 g) g =
        initializeSpecialCellsForChannel sz g) ∧
    (∀ l : List Int, l.Perm (sweep sz (calcIndex sz 0 0 0 0)) →
      l.foldl (fun g i => writeAll g (cell sz srcGrid i)) g = performStreamCollide sz srcGrid g) ∧
    ∀ l l' : List Int, l.Perm (inflowSweep sz) → l'.Perm (outflowSweep sz) →
      l'.foldl (outflowCell sz) (l.foldl (inflowCell sz) g) = handleInOutFlow sz g := by
  refine ⟨fun l h => ?_, fun l h => ?_, fun l h => ?_, fun l h => ?_, fun l l' h h' => ?_⟩
  · exact (foldl_perm (initializeCell_confined sz) (initializeSweep_independent sz) h.symm).symm
  · rw [initializeSpecialCellsForLDC, forCells_eq]
    exact (foldl_perm (specialCellForLDC_confined sz) (box_independent sz _ _) h.symm).symm
  · rw [initializeSpecialCellsForChannel, forCells_eq]
    exact (foldl_perm (specialCellForChannel_confined sz) (box_independent sz _ _) h.symm).symm
  · exact (foldl_perm (cell_confined sz srcGrid) (sweep_independent sz) h.symm).symm
  · rw [handleInOutFlow,
      foldl_perm (inflowCell_confined sz) (inflowSweep_independent sz) h.symm,
      foldl_perm (outflowCell_confined sz) (outflowSweep_independent sz) h'.symm]

end Parallel

/-! ## Exact arithmetic -/

/-- A rational number, beside the bits that the flag macros see. -/
structure Exact where
  num : Rat
  bits : UInt32

instance : Double Exact where
  add a b := ⟨a.num + b.num, 0⟩
  sub a b := ⟨a.num - b.num, 0⟩
  mul a b := ⟨a.num * b.num, 0⟩
  div a b := ⟨a.num / b.num, 0⟩
  neg a := ⟨-a.num, 0⟩
  ofScientific m s e := ⟨OfScientific.ofScientific m s e, 0⟩
  magicCast v := v.bits
  setMagicCast v w := ⟨v.num, w⟩
  magicCast_setMagicCast _ _ := rfl
  ofInt n := ⟨n, 0⟩
  lt a b := decide (a.num < b.num)

end Lbm

end IcsaDswp
