import IcsaDswp.LbmMemory
import IcsaDswp.Lib.Streaming

/-!
# Mass and momentum

In exact arithmetic a collision keeps the mass of a cell, and its momentum unless the cell is driven
(`collide_conserves`). The lid-driven cavity is walled in: what its cells give arrives in the grid or
is turned round. So the mass that `LBM_showGridStatistics` prints is the number of cells, after any
number of time steps (`mass_run`). Where the lids drive nothing, the fluid stays at rest (`rest_run`).
-/

namespace IcsaDswp

open Lib

namespace Lbm

/-- The operations on `V` are exact, for the values that `val` gives. -/
structure ExactOn {V : Type} [Double V] (val : V → ℚ) : Prop where
  add : ∀ a b, val (a + b) = val a + val b
  sub : ∀ a b, val (a - b) = val a - val b
  mul : ∀ a b, val (a * b) = val a * val b
  div : ∀ a b, val b ≠ 0 → val (a / b) = val a / val b
  neg : ∀ a, val (-a) = -val a
  literal : ∀ m s e, val (OfScientific.ofScientific m s e) = OfScientific.ofScientific m s e
  ofInt : ∀ n, val (Double.ofInt n) = n

theorem exactOn_num : ExactOn Exact.num where
  add _ _ := rfl
  sub _ _ := rfl
  mul _ _ := rfl
  div _ _ _ := rfl
  neg _ := rfl
  literal _ _ _ := rfl
  ofInt _ := rfl

instance : Fintype CellEntry where
  elems := ⟨fluidEntries, by decide⟩
  complete := CellEntry.mem_fluidEntries

theorem sum_entries (f : CellEntry → ℚ) :
    ∑ e, f e = f .C + f .N + f .S + f .E + f .W + f .T + f .B + f .NE + f .NW + f .SE + f .SW +
      f .NT + f .NB + f .ST + f .SB + f .ET + f .EB + f .WT + f .WB := by
  have hsum : ∑ e, f e = (fluidEntries.map f).sum := rfl
  rw [hsum]
  simp only [fluidEntries, List.map_cons, List.map_nil, List.sum_cons, List.sum_nil]
  ring

/-! ## Weights and directions -/

namespace CellEntry

def weight : CellEntry → ℚ
  | C => 1 / 3
  | N | S | E | W | T | B => 1 / 18
  | NE | NW | SE | SW | NT | NB | ST | SB | ET | EB | WT | WB => 1 / 36

/-- The velocity of `e` in the direction of `u`. -/
def dot (e : CellEntry) (ux uy uz : ℚ) : ℚ := e.dx * ux + e.dy * uy + e.dz * uz

end CellEntry

/-- The share of an entry in a cell that is in equilibrium. -/
def share (ux uy uz : ℚ) (e : CellEntry) : ℚ :=
  e.weight * (1 + e.dot ux uy uz * (9 / 2 * e.dot ux uy uz + 3) -
    3 / 2 * (ux * ux + uy * uy + uz * uz))

/-- **The shares of a cell** add up to one, and their momentum is the velocity. -/
theorem sum_share (ux uy uz : ℚ) :
    ∑ e, share ux uy uz e = 1 ∧ ∑ e, (e.dx : ℚ) * share ux uy uz e = ux ∧
      ∑ e, (e.dy : ℚ) * share ux uy uz e = uy ∧ ∑ e, (e.dz : ℚ) * share ux uy uz e = uz := by
  refine ⟨?_, ?_, ?_, ?_⟩ <;>
  · rw [sum_entries]
    simp only [share, CellEntry.weight, CellEntry.dot, CellEntry.dx, CellEntry.dy, CellEntry.dz]
    push_cast
    ring

section Exactness

variable {V : Type} [Double V] {val : V → ℚ} {s : CellEntry → V} {p : Packet V}

theorem ExactOn.moments_sum (h : ExactOn val) (s : CellEntry → V) :
    val (rho s) = ∑ e, val (s e) ∧ val (ux s) = ∑ e, (e.dx : ℚ) * val (s e) ∧
      val (uy s) = ∑ e, (e.dy : ℚ) * val (s e) ∧ val (uz s) = ∑ e, (e.dz : ℚ) * val (s e) := by
  refine ⟨?_, ?_, ?_, ?_⟩
  · rw [sum_entries]
    simp only [rho, h.add]
  all_goals
    rw [sum_entries]
    simp only [ux, uy, uz, h.add, h.sub, CellEntry.dx, CellEntry.dy, CellEntry.dz]
    push_cast
    ring

/-- `u2` is computed from the velocity. -/
def Packet.Exact (val : V → ℚ) (p : Packet V) : Prop :=
  val p.u2 = 3 / 2 * (val p.ux * val p.ux + val p.uy * val p.uy + val p.uz * val p.uz)

theorem ExactOn.packet_exact (h : ExactOn val) (i : Int) (ux uy uz rho : V) :
    Packet.Exact val ⟨i, ux, uy, uz, 1.5 * (ux * ux + uy * uy + uz * uz), rho⟩ := by
  simp only [Packet.Exact, h.mul, h.add, h.literal]
  norm_num

theorem ExactOn.inOut_eq (h : ExactOn val) (hp : p.Exact val) (e : CellEntry) :
    val (inOut p e) = val p.rho * share (val p.ux) (val p.uy) (val p.uz) e := by
  unfold Packet.Exact at hp
  cases e <;>
  · simp only [inOut, dfl1, dfl2, dfl3, h.add, h.sub, h.mul, h.neg, h.literal, hp, share,
      CellEntry.weight, CellEntry.dot, CellEntry.dx, CellEntry.dy, CellEntry.dz]
    rw [h.div _ _ (by rw [h.literal]; norm_num), h.literal, h.literal]
    norm_num
    ring

/-- A collision brings the entries of a cell close to equilibrium. -/
theorem ExactOn.collide_eq (h : ExactOn val) (hp : p.Exact val) (e : CellEntry) :
    val (collide s p e) = (1 - 39 / 20) * val (s e) +
      39 / 20 * (val p.rho * share (val p.ux) (val p.uy) (val p.uz) e) := by
  unfold Packet.Exact at hp
  cases e <;>
  · simp only [collide, omega, dfl1, dfl2, dfl3, h.add, h.sub, h.mul, h.neg, h.literal, hp, share,
      CellEntry.weight, CellEntry.dot, CellEntry.dx, CellEntry.dy, CellEntry.dz]
    rw [h.div _ _ (by rw [h.literal]; norm_num), h.literal, h.literal]
    norm_num
    ring

/-- What comes out of a collision, for amounts that shares carry. -/
theorem ExactOn.sum_collide (h : ExactOn val) (hp : p.Exact val) (c : CellEntry → ℚ) :
    ∑ e, c e * val (collide s p e) = (1 - 39 / 20) * ∑ e, c e * val (s e) +
      39 / 20 * (val p.rho * ∑ e, c e * share (val p.ux) (val p.uy) (val p.uz) e) := by
  rw [Finset.mul_sum, Finset.mul_sum, Finset.mul_sum, ← Finset.sum_add_distrib]
  refine Finset.sum_congr rfl fun e _ => ?_
  rw [h.collide_eq hp]
  ring

theorem ExactOn.moments_exact (h : ExactOn val) (s : CellEntry → V) (isAccel : Bool) (i : Int) :
    (moments s isAccel i).Exact val ∧ val (moments s isAccel i).rho = ∑ e, val (s e) :=
  ⟨h.packet_exact i _ _ _ _, (h.moments_sum s).1⟩

/-- A collision keeps the mass of a cell, driven or not. -/
theorem ExactOn.mass_collide (h : ExactOn val) (s : CellEntry → V) (isAccel : Bool) (i : Int) :
    ∑ e, val (collide s (moments s isAccel i) e) = ∑ e, val (s e) := by
  obtain ⟨hp, hrho⟩ := h.moments_exact s isAccel i
  have hmass := h.sum_collide (s := s) hp fun _ => 1
  simp only [one_mul] at hmass
  rw [hmass, (sum_share _ _ _).1, hrho]
  ring

/-- **A collision keeps mass and momentum**; the momentum of a driven cell is given to it. -/
theorem collide_conserves (h : ExactOn val) (s : CellEntry → V) (isAccel : Bool) (i : Int) :
    ∑ e, val (collide s (moments s isAccel i) e) = ∑ e, val (s e) ∧
      (isAccel = false → ∑ e, val (s e) ≠ 0 →
        ∑ e, (e.dx : ℚ) * val (collide s (moments s isAccel i) e) =
          ∑ e, (e.dx : ℚ) * val (s e) ∧
        ∑ e, (e.dy : ℚ) * val (collide s (moments s isAccel i) e) =
          ∑ e, (e.dy : ℚ) * val (s e) ∧
        ∑ e, (e.dz : ℚ) * val (collide s (moments s isAccel i) e) =
          ∑ e, (e.dz : ℚ) * val (s e)) := by
  obtain ⟨hp, hrho⟩ := h.moments_exact s isAccel i
  obtain ⟨-, hx, hy, hz⟩ := sum_share (val (moments s isAccel i).ux)
    (val (moments s isAccel i).uy) (val (moments s isAccel i).uz)
  refine ⟨h.mass_collide s isAccel i, fun haccel hne => ?_⟩
  obtain ⟨hsum, hux, huy, huz⟩ := h.moments_sum s
  have hdiv : ∀ a, val (a / rho s) = val a / ∑ e, val (s e) := fun a => by
    rw [h.div a _ (hsum ▸ hne), hsum]
  -- the velocity of a cell that is not driven is its momentum over its mass
  have hvx : val (moments s isAccel i).ux = val (ux s) / ∑ e, val (s e) := by
    rw [haccel]
    exact hdiv (ux s)
  have hvy : val (moments s isAccel i).uy = val (uy s) / ∑ e, val (s e) := by
    rw [haccel]
    exact hdiv (uy s)
  have hvz : val (moments s isAccel i).uz = val (uz s) / ∑ e, val (s e) := by
    rw [haccel]
    exact hdiv (uz s)
  rw [h.sum_collide hp fun e => e.dx, h.sum_collide hp fun e => e.dy,
    h.sum_collide hp fun e => e.dz, hx, hy, hz, hrho, hvx, hvy, hvz, mul_div_cancel₀ _ hne,
    mul_div_cancel₀ _ hne, mul_div_cancel₀ _ hne, hux, huy, huz]
  exact ⟨by ring, by ring, by ring⟩

theorem collide_conserves_ones :
    ∑ e, (collide (fun _ => ⟨1, 0⟩ : CellEntry → Exact)
        (moments (fun _ => ⟨1, 0⟩) false 0) e).num = 19 ∧
      ∑ e : CellEntry, (e.dx : ℚ) * (collide (fun _ => ⟨1, 0⟩ : CellEntry → Exact)
        (moments (fun _ => ⟨1, 0⟩) false 0) e).num = 0 := by
  obtain ⟨hmass, hmomentum⟩ :=
    collide_conserves exactOn_num (fun _ => ⟨1, 0⟩ : CellEntry → Exact) false 0
  have hsum : ∑ _e : CellEntry, (1 : ℚ) = 19 := by
    rw [sum_entries]
    norm_num
  have hdx : ∑ e : CellEntry, (e.dx : ℚ) * 1 = 0 := by
    rw [sum_entries]
    simp [CellEntry.dx]
  exact ⟨hmass.trans hsum, (hmomentum rfl (hsum ▸ by norm_num)).1.trans hdx⟩

end Exactness

/-! ## The lid-driven cavity -/

/-- The cells of the grid. -/
noncomputable def grid (sz : Size) : Finset ℤ := Finset.Ico 0 (sz.cells : ℤ)

theorem shift_opposite (sz : Size) (e : CellEntry) : shift sz e.opposite = -shift sz e := by
  cases e <;> simp [shift, CellEntry.opposite, CellEntry.dx, CellEntry.dy, CellEntry.dz] <;> ring

theorem mem_grid {sz : Size} {c : ℤ} :
    c ∈ grid sz ↔ nCellEntries * c ∈ sweep sz (calcIndex sz 0 0 0 0) := by
  rw [mem_sweep, grid, Finset.mem_Ico]
  constructor
  · intro h
    exact ⟨c.toNat, by omega, by rw [Int.toNat_of_nonneg h.1]⟩
  · rintro ⟨n, hn, h⟩
    unfold nCellEntries at h
    omega

section Mass

variable {V : Type} [Double V] {val : V → ℚ} {sz : Size} {srcGrid dstGrid : Grid V} {param : Param}

/-- An entry of the cell `c`. -/
def entry (val : V → ℚ) (g : Grid V) (c : ℤ) (e : CellEntry) : ℚ :=
  val (g (nCellEntries * c + e.val))

omit [Double V] in
theorem src_eq (sz : Size) (g : Grid V) (c : ℤ) (e : CellEntry) :
    val (src sz g (nCellEntries * c) e) = entry val g c e := by
  rw [src, localEntry, gridEntrySweep_zero]
  rfl

/-- A time step is streaming on the cells of the grid. -/
theorem streams (val : V → ℚ) (sz : Size) (srcGrid dstGrid : Grid V) :
    Streams (grid sz) (shift sz) (entry val dstGrid)
      (fun c e => val (outgoing sz srcGrid (nCellEntries * c) e))
      (entry val (performStreamCollide sz srcGrid dstGrid)) where
  arrives c _ e hsource := by
    have hplace : nCellEntries * c + e.val = dst sz (nCellEntries * (c - shift sz e)) e := by
      rw [dst_eq, sub_add_cancel]
    rw [entry, hplace, performStreamCollide_at (mem_grid.mp hsource)]
  stays c _ e hsource := by
    rw [entry, performStreamCollide_off]
    · rfl
    · intro i hi e' heq
      obtain ⟨n, hn, rfl⟩ := mem_sweep.mp hi
      rw [dst_eq] at heq
      obtain ⟨hval, hcell⟩ := eq_of_add_mul_eq (n := nCellEntries) e.val_bounds e'.val_bounds
        (show e.val + nCellEntries * c = e'.val + nCellEntries * (n + shift sz e') by omega)
      obtain rfl := CellEntry.val_injective hval
      refine hsource (mem_grid.mpr ?_)
      rw [hcell, add_sub_cancel_right]
      exact hi

/-- A cell gives as much as it holds. -/
theorem ExactOn.sum_outgoing (h : ExactOn val) (sz : Size) (g : Grid V) (c : ℤ) :
    ∑ e, val (outgoing sz g (nCellEntries * c) e) = ∑ e, entry val g c e := by
  unfold outgoing packet
  split
  · rename_i hp
    simp only [src_eq]
    exact Equiv.sum_comp (CellEntry.opposite_involutive.toPerm _) (entry val g c)
  · rename_i p hp
    split at hp
    · cases hp
    · obtain rfl := Option.some.inj hp
      rw [h.mass_collide]
      simp only [src_eq]

/-- A cell next to the outside of a box is on its wall. -/
theorem wall_of_shift {n : Nat} {e : CellEntry}
    (hout : (n : ℤ) + shift sz e ∉ grid sz) {x y z : Int} (hcell : InBox sz x y)
    (hz : 0 ≤ z ∧ z < sz.z) (hindex : nCellEntries * n = calcIndex sz x y z 0) :
    x = 0 ∨ x = sz.x - 1 ∨ y = 0 ∨ y = sz.y - 1 ∨ z = 0 ∨ z = sz.z - 1 := by
  by_contra hwall
  have hx := hcell.x
  have hy := hcell.y
  have hdx : -1 ≤ e.dx ∧ e.dx ≤ 1 := by cases e <;> decide
  have hdy : -1 ≤ e.dy ∧ e.dy ≤ 1 := by cases e <;> decide
  have hdz : -1 ≤ e.dz ∧ e.dz ≤ 1 := by cases e <;> decide
  -- inside, the neighbour has coordinates in the box
  have hbox : InBox sz (x + e.dx) (y + e.dy) := ⟨by omega, by omega⟩
  have hb := hbox.number_bounds (show 0 ≤ z + e.dz ∧ z + e.dz < sz.z by omega)
  have hnumber : (n : ℤ) = x + y * sz.x + z * sz.x * sz.y := by
    rw [calcIndex_cell] at hindex
    unfold nCellEntries at hindex
    omega
  have hneighbour : x + e.dx + (y + e.dy) * sz.x + (z + e.dz) * sz.x * sz.y = n + shift sz e := by
    rw [hnumber]
    unfold shift
    ring
  rw [hneighbour] at hb
  exact hout (Finset.mem_Ico.mpr hb)

/-- The walls of the cavity are obstacles. -/
theorem HasFlags.packet_eq_none (h : HasFlags sz param srcGrid) (hldc : param.simType = .ldc)
    {c : ℤ} (hc : c ∈ grid sz) {e : CellEntry} (hout : c + shift sz e ∉ grid sz) :
    packet sz srcGrid (nCellEntries * c) = none := by
  obtain ⟨n, rfl⟩ := Int.eq_ofNat_of_zero_le (Finset.mem_Ico.mp hc).1
  have hn : n < sz.cells := by exact_mod_cast (Finset.mem_Ico.mp hc).2
  obtain ⟨x, y, z, hcell, hz, hindex⟩ := exists_calcIndex hn
  have hwall := wall_of_shift hout hcell hz hindex
  have htest : Lbm.testFlagSweep sz srcGrid obstacle (nCellEntries * (n : ℤ)) = true := by
    rw [hindex, h.testFlagSweep hcell hz]
    simp only [cellFlags, hldc, ldcFlags, if_pos hwall, or_and_self]
    rfl
  unfold packet
  rw [if_pos htest]

/-- Where nothing arrives, the grid is as it was set up. -/
def AtRest (val : V → ℚ) (sz : Size) (g : Grid V) : Prop :=
  ∀ c ∈ grid sz, ∀ e, c - shift sz e ∉ grid sz → entry val g c e = val (dfl e : V)

theorem AtRest.performStreamCollide (h : AtRest val sz dstGrid) (srcGrid : Grid V) :
    AtRest val sz (performStreamCollide sz srcGrid dstGrid) := fun c hc e hout =>
  ((streams val sz srcGrid dstGrid).stays c hc e hout).trans (h c hc e hout)

/-- The mass of the cells of the grid. -/
noncomputable def mass (val : V → ℚ) (sz : Size) (g : Grid V) : ℚ :=
  ∑ c ∈ grid sz, ∑ e, entry val g c e

/-- **A time step of the cavity keeps the mass.** -/
theorem ExactOn.mass_performStreamCollide (h : ExactOn val) (hldc : param.simType = .ldc)
    (hflags : HasFlags sz param srcGrid) (hsrc : AtRest val sz srcGrid)
    (hdst : AtRest val sz dstGrid) :
    mass val sz (Lbm.performStreamCollide sz srcGrid dstGrid) = mass val sz srcGrid := by
  refine (streams val sz srcGrid dstGrid).sum_eq CellEntry.opposite_involutive
    (shift_opposite sz) (fun c _ => h.sum_outgoing sz srcGrid c) ?_ ?_
  · intro c hc e hout
    simp only [outgoing, hflags.packet_eq_none hldc hc hout]
    exact src_eq sz srcGrid c e.opposite
  · intro c hc e hout
    rw [hsrc c hc e hout, hdst c hc e hout]

/-- Only flags are written after `LBM_initializeGrid`. -/
theorem initializeOne_of_ne {k : Int} (memory : Grid V) (hk : ∀ c, k ≠ flagsAt sz c) :
    initializeOne sz param memory k = initializeGrid sz memory k := by
  have hload : ∀ (file : List UInt8) (g : Grid V), (loadObstacleFile sz (g, file)).1 k = g k := by
    intro file g
    simp only [loadObstacleFile_eq]
    exact foldl_off (loadAt_confined sz file) fun c _ => hk c
  have hldc : ∀ g : Grid V, initializeSpecialCellsForLDC sz g k = g k := by
    intro g
    rw [initializeSpecialCellsForLDC, forCells_eq]
    exact foldl_off (specialCellForLDC_confined sz) fun c _ => hk c
  have hchannel : ∀ g : Grid V, initializeSpecialCellsForChannel sz g k = g k := by
    intro g
    rw [initializeSpecialCellsForChannel, forCells_eq]
    exact foldl_off (specialCellForChannel_confined sz) fun c _ => hk c
  unfold initializeOne
  cases param.obstacleFile with
  | none => cases param.simType <;> simp only [hldc, hchannel]
  | some file => cases param.simType <;> simp only [hldc, hchannel, hload]

/-- `LBM_initializeGrid` sets the entries of every cell, those in the margins too. -/
theorem initializeGrid_entry (memory : Grid V) {n : ℤ} {e : CellEntry}
    (h : Allocated sz (nCellEntries * n + e.val)) :
    initializeGrid sz memory (nCellEntries * n + e.val) = dfl e := by
  obtain ⟨i, hi, hk⟩ := allocated_iff_exists.mp h
  have hflags : e.val ≠ flags := by cases e <;> decide
  obtain rfl : i = nCellEntries * n := by
    obtain ⟨-, -, m, rfl⟩ := mem_sweepTo.mp hi
    unfold calcIndex nCellEntries at hk ⊢
    have hb := e.val_bounds
    omega
  rw [initializeGrid,
    foldl_at (initializeCell_confined sz) (initializeSweep_independent sz) hi hk, initializeCell,
    clearAllFlagsSweep, gridEntrySweep_zero, Function.update_of_ne (by omega), setEntries_at]

theorem entry_initializeOne (val : V → ℚ) (sz : Size) (param : Param) (memory : Grid V) {c : ℤ}
    (hc : c ∈ grid sz) (e : CellEntry) :
    entry val (initializeOne sz param memory) c e = val (dfl e : V) := by
  obtain ⟨n, hn, hcell⟩ := mem_sweep.mp (mem_grid.mp hc)
  rw [entry, initializeOne_of_ne memory fun c' h => flagsAt_ne c c' e h.symm, hcell,
    ← hcell, initializeGrid_entry memory (hcell ▸ allocated_src hn e)]

theorem ExactOn.dfl_eq (h : ExactOn val) (e : CellEntry) : val (dfl e : V) = e.weight := by
  have hdiv : ∀ b : V, val b ≠ 0 → val (1.0 / b) = 1 / val b := fun b hb => by
    rw [h.div _ _ hb, h.literal]
    norm_num
  cases e <;>
  · simp only [dfl, dfl1, dfl2, dfl3, CellEntry.weight]
    rw [hdiv _ (by rw [h.literal]; norm_num), h.literal]
    norm_num

theorem ExactOn.sum_dfl (h : ExactOn val) : ∑ e, val (dfl e : V) = 1 := by
  simp only [h.dfl_eq]
  rw [sum_entries]
  norm_num [CellEntry.weight]

/-- What holds in the cavity between two time steps. -/
structure CavityInv (val : V → ℚ) (sz : Size) (param : Param) (gs : Grids V) : Prop where
  flags : HasFlags sz param gs.src ∧ HasFlags sz param gs.dst
  src : AtRest val sz gs.src
  dst : AtRest val sz gs.dst
  mass : Lbm.mass val sz gs.src = sz.cells

theorem ExactOn.cavityInv_mainInitialize (h : ExactOn val) (sz : Size) (param : Param)
    (memory : Grids V) : CavityInv val sz param (mainInitialize sz param memory) where
  flags := ⟨hasFlags_initializeOne sz param _, hasFlags_initializeOne sz param _⟩
  src c hc e _ := entry_initializeOne val sz param _ hc e
  dst c hc e _ := entry_initializeOne val sz param _ hc e
  mass := by
    have hcell : ∀ c ∈ grid sz,
        ∑ e, entry val (mainInitialize sz param memory).src c e = 1 := by
      intro c hc
      rw [← h.sum_dfl]
      exact Finset.sum_congr rfl fun e _ => entry_initializeOne val sz param _ hc e
    rw [Lbm.mass, Finset.sum_congr rfl hcell]
    simp [grid]

theorem ExactOn.cavityInv_timeStep (h : ExactOn val) {gs : Grids V} (hldc : param.simType = .ldc)
    (hinv : CavityInv val sz param gs) : CavityInv val sz param (timeStep sz param.simType gs) := by
  have hflags := HasFlags.timeStep param.simType hinv.flags
  rw [hldc] at hflags ⊢
  exact ⟨hflags, hinv.dst.performStreamCollide _, hinv.src,
    (h.mass_performStreamCollide hldc hinv.flags.1 hinv.src hinv.dst).trans hinv.mass⟩

theorem ExactOn.cavityInv_grids (h : ExactOn val) (hldc : param.simType = .ldc) (memory : Grids V)
    (t : Nat) : CavityInv val sz param (grids sz param memory t) := by
  induction t with
  | zero => exact h.cavityInv_mainInitialize sz param memory
  | succ t ih =>
    unfold grids at ih ⊢
    rw [Function.iterate_succ_apply']
    exact h.cavityInv_timeStep hldc ih

/-- What `LBM_showGridStatistics` adds up. -/
theorem ExactOn.mass_show (h : ExactOn val) (sz : Size) (g : Grid V) :
    val (showGridStatistics sz g).mass = mass val sz g := by
  have hfold : ∀ (l : List Int) (st : GridStatistics V), val (l.foldl (noteCell sz g) st).mass =
      val st.mass + (l.map fun i => ∑ e, val (src sz g i e)).sum := by
    intro l
    induction l with
    | nil => simp
    | cons i l ih =>
      intro st
      have hnote : val (noteCell sz g st i).mass = val st.mass + ∑ e, val (src sz g i e) := by
        rw [← (h.moments_sum (src sz g i)).1, ← h.add]
        unfold noteCell
        split_ifs <;> rfl
      rw [List.foldl_cons, ih, hnote, List.map_cons, List.sum_cons, add_assoc]
  have hcells : ((List.range sz.cells).map fun c : Nat => ∑ e, entry val g c e).sum =
      mass val sz g := by
    have hrange : ((List.range sz.cells).map fun c : Nat => ∑ e, entry val g c e).sum =
        ∑ c ∈ Finset.range sz.cells, ∑ e, entry val g c e := rfl
    rw [hrange]
    refine Finset.sum_nbij' (fun c : ℕ => (c : ℤ)) Int.toNat ?_ ?_ ?_ ?_ fun _ _ => rfl
    · intro c hc
      exact Finset.mem_Ico.mpr ⟨Int.natCast_nonneg c, by exact_mod_cast Finset.mem_range.mp hc⟩
    · intro c hc
      have hb := Finset.mem_Ico.mp hc
      exact Finset.mem_range.mpr (by omega)
    · exact fun c _ => Int.toNat_natCast c
    · exact fun c hc => Int.toNat_of_nonneg (Finset.mem_Ico.mp hc).1
  rw [showGridStatistics, hfold, h.ofInt, sweep_eq, List.map_map, ← hcells]
  simp only [Function.comp_def, src_eq, Int.cast_zero, zero_add]

/-- **The mass that is printed is the number of cells**, in the lid-driven cavity, for every obstacle
file and after any number of time steps. -/
theorem mass_run (h : ExactOn val) (hldc : param.simType = .ldc) (memory : Grids V) (t : Nat) :
    val (showGridStatistics sz (grids sz param memory t).src).mass = (sz.x * sz.y * sz.z : Nat) :=
  (h.mass_show sz _).trans (h.cavityInv_grids hldc memory t).mass

theorem mass_run_driven :
    (showGridStatistics ⟨6, 6, 6⟩
      (grids ⟨6, 6, 6⟩ ⟨7, .ldc, none⟩ (⟨fun _ => 0.0, fun _ => 0.0⟩ : Grids Exact) 7).src).mass.num =
        (6 * 6 * 6 : Nat) :=
  mass_run exactOn_num rfl _ 7

/-! ## A fluid at rest -/

/-- The cells are in equilibrium, with the density one and without velocity. -/
def Rest (val : V → ℚ) (sz : Size) (g : Grid V) : Prop :=
  ∀ c ∈ grid sz, ∀ e, entry val g c e = e.weight

theorem ExactOn.moments_rest (h : ExactOn val) {s : CellEntry → V}
    (hs : ∀ e, val (s e) = e.weight) :
    val (rho s) = 1 ∧ val (ux s) = 0 ∧ val (uy s) = 0 ∧ val (uz s) = 0 := by
  obtain ⟨hrho, hx, hy, hz⟩ := h.moments_sum s
  refine ⟨hrho.trans ?_, hx.trans ?_, hy.trans ?_, hz.trans ?_⟩ <;>
  · simp only [hs]
    rw [sum_entries]
    norm_num [CellEntry.weight, CellEntry.dx, CellEntry.dy, CellEntry.dz]

/-- A cell at rest gives each neighbour its weight, unless it is driven. -/
theorem ExactOn.outgoing_rest (h : ExactOn val) (hrest : Rest val sz srcGrid) {c : ℤ}
    (hc : c ∈ grid sz)
    (hdriven : Lbm.testFlagSweep sz srcGrid obstacle (nCellEntries * c) = false →
      Lbm.testFlagSweep sz srcGrid accel (nCellEntries * c) = false) (e : CellEntry) :
    val (outgoing sz srcGrid (nCellEntries * c) e) = e.weight := by
  have hs : ∀ e, val (src sz srcGrid (nCellEntries * c) e) = e.weight := fun e =>
    (src_eq sz srcGrid c e).trans (hrest c hc e)
  unfold outgoing packet
  split
  · rw [hs]
    cases e <;> rfl
  · rename_i p hp
    split at hp
    · cases hp
    · rename_i hobstacle
      obtain rfl := Option.some.inj hp
      rw [hdriven (Bool.eq_false_iff.mpr hobstacle)]
      generalize src sz srcGrid (nCellEntries * c) = s at hs
      obtain ⟨hrho, hx, hy, hz⟩ := h.moments_rest hs
      have hquot : ∀ u : V, val u = 0 → val (u / rho s) = 0 := fun u hu => by
        rw [h.div _ _ (by rw [hrho]; exact one_ne_zero), hu, zero_div]
      have hux : val (moments s false (nCellEntries * c)).ux = 0 := hquot _ hx
      have huy : val (moments s false (nCellEntries * c)).uy = 0 := hquot _ hy
      have huz : val (moments s false (nCellEntries * c)).uz = 0 := hquot _ hz
      have hone : val (moments s false (nCellEntries * c)).rho = 1 := hrho
      rw [h.collide_eq (h.moments_exact s false _).1, hs, hux, huy, huz, hone]
      simp only [share, CellEntry.dot]
      ring

theorem ExactOn.rest_performStreamCollide (h : ExactOn val) (hsrc : Rest val sz srcGrid)
    (hdst : Rest val sz dstGrid)
    (hdriven : ∀ c ∈ grid sz, Lbm.testFlagSweep sz srcGrid obstacle (nCellEntries * c) = false →
      Lbm.testFlagSweep sz srcGrid accel (nCellEntries * c) = false) :
    Rest val sz (performStreamCollide sz srcGrid dstGrid) := by
  intro c hc e
  have hstreams := streams val sz srcGrid dstGrid
  by_cases hsource : c - shift sz e ∈ grid sz
  · rw [hstreams.arrives c hc e hsource, h.outgoing_rest hsrc hsource (hdriven _ hsource)]
  · rw [hstreams.stays c hc e hsource, hdst c hc]

/-- Only obstacles are driven. -/
def Undriven (sz : Size) (param : Param) : Prop :=
  ∀ c ∈ box sz 0 sz.z, cellFlags sz param c &&& obstacle = 0 → cellFlags sz param c &&& accel = 0

theorem HasFlags.undriven (h : HasFlags sz param srcGrid) (hu : Undriven sz param) {c : ℤ}
    (hc : c ∈ grid sz)
    (hobstacle : Lbm.testFlagSweep sz srcGrid obstacle (nCellEntries * c) = false) :
    Lbm.testFlagSweep sz srcGrid accel (nCellEntries * c) = false := by
  obtain ⟨n, rfl⟩ := Int.eq_ofNat_of_zero_le (Finset.mem_Ico.mp hc).1
  have hn : n < sz.cells := by exact_mod_cast (Finset.mem_Ico.mp hc).2
  obtain ⟨x, y, z, hcell, hz, hindex⟩ := exists_calcIndex hn
  rw [hindex, h.testFlagSweep hcell hz] at hobstacle ⊢
  rw [bne_eq_false_iff_eq] at hobstacle ⊢
  exact hu (z, y, x) (mem_box.mpr ⟨hz, hcell⟩) hobstacle

theorem ExactOn.rest_grids (h : ExactOn val) (hldc : param.simType = .ldc)
    (hu : Undriven sz param) (memory : Grids V) (t : Nat) :
    Rest val sz (grids sz param memory t).src ∧ Rest val sz (grids sz param memory t).dst := by
  induction t with
  | zero =>
    have hinit : ∀ memory : Grid V, Rest val sz (initializeOne sz param memory) :=
      fun memory c hc e => (entry_initializeOne val sz param memory hc e).trans (h.dfl_eq e)
    exact ⟨hinit _, hinit _⟩
  | succ t ih =>
    obtain ⟨hflags, -⟩ := hasFlags_grids sz param memory t
    simp only [grids, Function.iterate_succ_apply'] at ih hflags ⊢
    rw [hldc] at ih hflags ⊢
    exact ⟨h.rest_performStreamCollide ih.1 ih.2 fun c hc => hflags.undriven hu hc, ih.1⟩

/-- **A cavity in which nothing is driven stays at rest**, with any obstacles: after any number of
time steps each cell has the density one and no velocity. -/
theorem rest_run (h : ExactOn val) (hldc : param.simType = .ldc) (hu : Undriven sz param)
    (memory : Grids V) (t : Nat) {i : ℤ} (hi : i ∈ sweep sz (calcIndex sz 0 0 0 0)) :
    let s := src sz (grids sz param memory t).src i
    val (rho s) = 1 ∧ val (ux s) = 0 ∧ val (uy s) = 0 ∧ val (uz s) = 0 := by
  obtain ⟨n, -, rfl⟩ := mem_sweep.mp hi
  exact h.moments_rest fun e =>
    (src_eq sz _ n e).trans ((h.rest_grids hldc hu memory t).1 n (mem_grid.mpr hi) e)

/-- A narrow cavity has no cells away from its walls to drive. -/
theorem undriven_of_narrow (hx : sz.x ≤ 4) (hldc : param.simType = .ldc) : Undriven sz param := by
  intro c _ _
  have hfile : ∀ file, fileFlags sz file c &&& accel = 0 := by
    intro file
    unfold fileFlags
    split_ifs <;> rfl
  have hcavity : ldcFlags sz c.2.2 c.2.1 c.1 &&& accel = 0 := by
    unfold ldcFlags
    split_ifs
    · rfl
    · omega
    · rfl
  unfold cellFlags
  rw [or_and_distrib, hldc]
  cases param.obstacleFile with
  | none => simp only [hcavity]; rfl
  | some file => simp only [hfile, hcavity]; rfl

theorem rest_run_narrow :
    (rho (src ⟨3, 4, 5⟩ (grids ⟨3, 4, 5⟩ ⟨9, .ldc, some [0x23]⟩
      (⟨fun _ => 0.0, fun _ => 0.0⟩ : Grids Exact) 9).src 20)).num = 1 :=
  (rest_run exactOn_num rfl (undriven_of_narrow (by decide) rfl) _ 9
    (mem_sweep.mpr ⟨1, by decide, rfl⟩)).1

end Mass

/-! ## Inflow and outflow -/

section InOutFlow

variable {V : Type} [Double V] {val : V → ℚ} {sz : Size} {g : Grid V} {i k : Int}

/-- The first layer. -/
theorem lt_of_inflow (hi : i ∈ inflowSweep sz) (hk : EntryOf i k) :
    0 ≤ k ∧ k < nCellEntries * (sz.x * sz.y) := by
  rw [inflowSweep_eq, List.mem_map] at hi
  obtain ⟨n, hn, rfl⟩ := hi
  have hb := hk.bounds
  have hn' : (n : Int) < sz.x * sz.y := by exact_mod_cast List.mem_range.mp hn
  unfold nCellEntries at hb ⊢
  omega

/-- The last layer. -/
theorem le_of_outflow (hz : 4 ≤ sz.z) (hi : i ∈ outflowSweep sz) :
    3 * (nCellEntries * (sz.x * sz.y)) ≤ i := by
  obtain ⟨hlo, -⟩ := mem_sweepTo.mp hi
  have hlayers : (3 : Int) * (sz.x * sz.y) ≤ (sz.z - 1) * (sz.x * sz.y) :=
    Int.mul_le_mul_of_nonneg_right (by omega) (by positivity)
  have hstart : calcIndex sz 0 0 (sz.z - 1) 0 = nCellEntries * ((sz.z - 1) * (sz.x * sz.y)) := by
    unfold calcIndex
    ring
  unfold nCellEntries at hstart ⊢
  omega

theorem src_handleInOutFlow_inflow (hz : 4 ≤ sz.z) (hi : i ∈ inflowSweep sz) (e : CellEntry) :
    src sz (handleInOutFlow sz g) i e = inOut (inflow sz g i) e := by
  have hk : EntryOf i (i + e.val) := ⟨e, rfl⟩
  rw [src, localEntry, gridEntrySweep_zero, handleInOutFlow,
    foldl_off (outflowCell_confined sz),
    foldl_at (inflowCell_confined sz) (inflowSweep_independent sz) hi hk, inflowCell,
    setEntries_at]
  intro j hj hjk
  have hlow := lt_of_inflow hi hk
  have hhigh := le_of_outflow hz hj
  have hb := hjk.bounds
  have hlayer : (0 : Int) ≤ (sz.x : Int) * sz.y := by positivity
  unfold nCellEntries at hlow hhigh
  omega

/-- The layers that outflow reads are not those that inflow writes. -/
theorem neighbor_inflow (hz : 4 ≤ sz.z) (hi : i ∈ outflowSweep sz) {dz : Int}
    (hdz : dz = -1 ∨ dz = -2) :
    neighbor sz ((inflowSweep sz).foldl (inflowCell sz) g) i 0 0 dz = neighbor sz g i 0 0 dz := by
  funext e
  refine foldl_off (inflowCell_confined sz) fun j hj hjk => ?_
  have hlow := lt_of_inflow hj hjk
  have hhigh := le_of_outflow hz hi
  have hval := e.val_bounds
  have hplace : gridEntrySweep sz 0 0 dz e.val i =
      e.val + nCellEntries * (dz * (sz.x * sz.y)) + i := by
    unfold gridEntrySweep calcIndex
    ring
  have hlayer : (0 : Int) ≤ (sz.x : Int) * sz.y := by positivity
  rw [hplace] at hlow
  unfold nCellEntries at hlow hhigh
  rcases hdz with rfl | rfl
  · rw [neg_one_mul] at hlow
    omega
  · rw [neg_mul] at hlow
    omega

theorem src_handleInOutFlow_outflow (hz : 4 ≤ sz.z) (hi : i ∈ outflowSweep sz) (e : CellEntry) :
    src sz (handleInOutFlow sz g) i e = inOut (outflow sz g i) e := by
  have hk : EntryOf i (i + e.val) := ⟨e, rfl⟩
  have hsame : outflow sz ((inflowSweep sz).foldl (inflowCell sz) g) i = outflow sz g i := by
    unfold outflow
    rw [neighbor_inflow hz hi (.inl rfl), neighbor_inflow hz hi (.inr rfl)]
  rw [src, localEntry, gridEntrySweep_zero, handleInOutFlow,
    foldl_at (outflowCell_confined sz) (outflowSweep_independent sz) hi hk, outflowCell,
    setEntries_at, hsame]

/-- A cell with entries in equilibrium has their mass and momentum. -/
theorem ExactOn.moments_inOut (h : ExactOn val) {p : Packet V} (hp : p.Exact val) :
    val (rho (inOut p)) = val p.rho ∧ val (ux (inOut p)) = val p.rho * val p.ux ∧
      val (uy (inOut p)) = val p.rho * val p.uy ∧ val (uz (inOut p)) = val p.rho * val p.uz := by
  obtain ⟨hone, hx, hy, hz⟩ := sum_share (val p.ux) (val p.uy) (val p.uz)
  obtain ⟨hrho, hux, huy, huz⟩ := h.moments_sum (inOut p)
  have hpull : ∀ c : CellEntry → ℚ, ∑ e, c e * val (inOut p e) =
      val p.rho * ∑ e, c e * share (val p.ux) (val p.uy) (val p.uz) e := by
    intro c
    rw [Finset.mul_sum]
    refine Finset.sum_congr rfl fun e _ => ?_
    rw [h.inOut_eq hp]
    ring
  have hpull_one := hpull fun _ => 1
  simp only [one_mul] at hpull_one
  rw [hrho, hux, huy, huz, hpull_one, hpull, hpull, hpull, hone, hx, hy, hz, mul_one]
  exact ⟨rfl, rfl, rfl, rfl⟩

theorem sweepX_calcIndex {x y : Int} (h : InBox sz x y) : sweepX sz (calcIndex sz x y 0 0) = x := by
  have hrow : 0 ≤ y * (sz.x : Int) := Int.mul_nonneg h.y.1 (by omega)
  have hx := h.x
  have hcell : (calcIndex sz x y 0 0).tdiv nCellEntries = x + y * sz.x := by
    unfold calcIndex nCellEntries
    rw [Int.tdiv_eq_ediv_of_nonneg (by omega)]
    omega
  rw [sweepX, hcell, Int.tmod_eq_emod_of_nonneg (by omega), Int.add_mul_emod_self_right,
    Int.emod_eq_of_lt hx.1 hx.2]

theorem sweepY_calcIndex {x y : Int} (h : InBox sz x y) : sweepY sz (calcIndex sz x y 0 0) = y := by
  have hrow : 0 ≤ y * (sz.x : Int) := Int.mul_nonneg h.y.1 (by omega)
  have hx := h.x
  have hy := h.y
  have hcell : (calcIndex sz x y 0 0).tdiv nCellEntries = x + y * sz.x := by
    unfold calcIndex nCellEntries
    rw [Int.tdiv_eq_ediv_of_nonneg (by omega)]
    omega
  have hdiv : (x + y * (sz.x : Int)).tdiv sz.x = y := by
    rw [Int.tdiv_eq_ediv_of_nonneg (by omega), Int.add_mul_ediv_right _ _ (by omega),
      Int.ediv_eq_zero_of_lt hx.1 hx.2, zero_add]
  rw [sweepY, hcell, hdiv, Int.tmod_eq_emod_of_nonneg hy.1, Int.emod_eq_of_lt hy.1 hy.2]

/-- Nothing flows in along the walls of the channel. -/
theorem ExactOn.inflow_wall (h : ExactOn val) (hX : 2 ≤ sz.x) (hY : 2 ≤ sz.y) (g : Grid V)
    {x y : Int} (hcell : InBox sz x y) (hwall : x = 0 ∨ x = sz.x - 1 ∨ y = 0 ∨ y = sz.y - 1) :
    val (inflow sz g (calcIndex sz x y 0 0)).uz = 0 := by
  -- across the channel the coordinate goes from `-1` to `1`
  have hedge : ∀ (n : Nat) (v : Int), 2 ≤ n → v = 0 ∨ v = n - 1 →
      val (Double.ofInt v / (0.5 * Double.ofInt ((n : Int) - 1)) - 1.0 : V) *
        val (Double.ofInt v / (0.5 * Double.ofInt ((n : Int) - 1)) - 1.0 : V) = 1 := by
    intro n v hn hv
    have hn' : ((n : ℚ) - 1) ≠ 0 := by
      have h2 : (2 : ℚ) ≤ n := by exact_mod_cast hn
      linarith
    have hwidth : val (0.5 * Double.ofInt ((n : Int) - 1) : V) = 1 / 2 * ((n : ℚ) - 1) := by
      rw [h.mul, h.literal, h.ofInt]
      push_cast
      norm_num
    have hne : val (0.5 * Double.ofInt ((n : Int) - 1) : V) ≠ 0 := by
      rw [hwidth]
      exact mul_ne_zero (by norm_num) hn'
    rw [h.sub, h.div _ _ hne, h.ofInt, h.literal, hwidth]
    rcases hv with rfl | rfl
    · norm_num
    · push_cast
      field_simp
      norm_num
  have hprofile : val (inflow sz g (calcIndex sz x y 0 0)).uz =
      1 / 100 *
        (1 - val (Double.ofInt x / (0.5 * Double.ofInt (sz.x - 1)) - 1.0 : V) *
          val (Double.ofInt x / (0.5 * Double.ofInt (sz.x - 1)) - 1.0 : V)) *
        (1 - val (Double.ofInt y / (0.5 * Double.ofInt (sz.y - 1)) - 1.0 : V) *
          val (Double.ofInt y / (0.5 * Double.ofInt (sz.y - 1)) - 1.0 : V)) := by
    have hone : val (1.0 : V) = 1 := by
      rw [h.literal]
      norm_num
    have hscale : val (0.01 : V) = 1 / 100 := by
      rw [h.literal]
      norm_num
    simp only [inflow, sweepX_calcIndex hcell, sweepY_calcIndex hcell]
    rw [h.mul, h.mul, h.sub 1.0, h.sub 1.0, h.mul, h.mul, hone, hscale]
  rw [hprofile]
  rcases hwall with hx | hx | hy | hy
  · rw [hedge sz.x x hX (.inl hx)]
    ring
  · rw [hedge sz.x x hX (.inr hx)]
    ring
  · rw [hedge sz.y y hY (.inl hy)]
    ring
  · rw [hedge sz.y y hY (.inr hy)]
    ring

/-- **What `LBM_handleInOutFlow` prescribes.** An inflow cell gets the density that is extrapolated
from the two layers after it and flows in the direction `z`, not at all at the walls, if there are two
of them on each side; an outflow cell gets the density one and the velocity that is extrapolated from
the two layers before it. -/
theorem inOutFlow_prescribes (h : ExactOn val) (hz : 4 ≤ sz.z) (g : Grid V) :
    (∀ i ∈ inflowSweep sz,
      let s := src sz (handleInOutFlow sz g) i
      val (rho s) = 2 * val (rho (neighbor sz g i 0 0 1)) - val (rho (neighbor sz g i 0 0 2)) ∧
        val (ux s) = 0 ∧ val (uy s) = 0 ∧ val (uz s) = val (rho s) * val (inflow sz g i).uz) ∧
    (2 ≤ sz.x → 2 ≤ sz.y →
      ∀ x y, InBox sz x y → x = 0 ∨ x = sz.x - 1 ∨ y = 0 ∨ y = sz.y - 1 →
        val (inflow sz g (calcIndex sz x y 0 0)).uz = 0) ∧
    ∀ i ∈ outflowSweep sz,
      let s := src sz (handleInOutFlow sz g) i
      let s1 := neighbor sz g i 0 0 (-1)
      let s2 := neighbor sz g i 0 0 (-2)
      val (rho s) = 1 ∧
        val (ux s) = 2 * val (ux s1 / rho s1) - val (ux s2 / rho s2) ∧
        val (uy s) = 2 * val (uy s1 / rho s1) - val (uy s2 / rho s2) ∧
        val (uz s) = 2 * val (uz s1 / rho s1) - val (uz s2 / rho s2) := by
  refine ⟨fun i hi => ?_, fun hX hY x y hcell hwall => h.inflow_wall hX hY g hcell hwall,
    fun i hi => ?_⟩
  · have hs : src sz (handleInOutFlow sz g) i = inOut (inflow sz g i) :=
      funext fun e => src_handleInOutFlow_inflow hz hi e
    obtain ⟨hrho, hux, huy, huz⟩ := h.moments_inOut (p := inflow sz g i) (h.packet_exact i _ _ _ _)
    have hzero : val (0.00 : V) = 0 := by
      rw [h.literal]
      norm_num
    have htwo : val (2.0 : V) = 2 := by
      rw [h.literal]
      norm_num
    simp only [hs, hrho, hux, huy, huz]
    refine ⟨?_, ?_, ?_, trivial⟩
    · simp only [inflow]
      rw [h.sub, h.mul, htwo]
    · simp only [inflow, hzero, mul_zero]
    · simp only [inflow, hzero, mul_zero]
  · have hs : src sz (handleInOutFlow sz g) i = inOut (outflow sz g i) :=
      funext fun e => src_handleInOutFlow_outflow hz hi e
    obtain ⟨hrho, hux, huy, huz⟩ := h.moments_inOut (p := outflow sz g i) (h.packet_exact i _ _ _ _)
    have hone : val (outflow sz g i).rho = 1 := by
      simp only [outflow]
      rw [h.literal]
      norm_num
    simp only [hs, hrho, hux, huy, huz, hone, one_mul]
    simp only [outflow, h.sub, h.mul, h.ofInt]
    norm_num

theorem inOutFlow_prescribes_uniform :
    (rho (src ⟨2, 2, 4⟩ (handleInOutFlow ⟨2, 2, 4⟩ (fun _ => ⟨1, 0⟩ : Grid Exact)) 0)).num = 19 ∧
      (rho (src ⟨2, 2, 4⟩ (handleInOutFlow ⟨2, 2, 4⟩ (fun _ => ⟨1, 0⟩ : Grid Exact)) 240)).num =
        1 := by
  obtain ⟨hin, -, hout⟩ := @inOutFlow_prescribes Exact _ _ ⟨2, 2, 4⟩ exactOn_num (by decide)
    (fun _ => ⟨1, 0⟩ : Grid Exact)
  refine ⟨(hin 0 (mem_sweepTo.mpr ⟨by decide, by decide, 0, rfl⟩)).1.trans ?_,
    (hout 240 (mem_sweepTo.mpr ⟨by decide, by decide, 0, rfl⟩)).1⟩
  rw [(exactOn_num.moments_sum _).1, (exactOn_num.moments_sum _).1, sum_entries, sum_entries]
  norm_num [neighbor]

end InOutFlow

end Lbm

end IcsaDswp
