import IcsaDswp.LbmMain

/-!
# The memory that `lbm.c` uses

A `double` in memory is `unset` until something is stored there, and what is computed from an
`unset` one is `unset` again. Run on such values, from two blocks that `malloc` has just given, the
program has set every entry of both blocks whenever a time step begins, and none outside of them
(`memory_run`): it neither uses what was not initialized nor leaves what it allocated.
-/

namespace IcsaDswp

open Lib

namespace Lbm

/-- What is in the memory of a `double`. -/
inductive Stored (W : Type) where
  | unset
  | value (v : W)

namespace Stored

variable {W : Type}

def isSet : Stored W → Bool
  | unset => false
  | value _ => true

def map (f : W → W) : Stored W → Stored W
  | unset => unset
  | value a => value (f a)

def map₂ (f : W → W → W) : Stored W → Stored W → Stored W
  | value a, value b => value (f a b)
  | _, _ => unset

@[simp] theorem isSet_value (v : W) : (value v).isSet = true := rfl

theorem isSet_map (f : W → W) (a : Stored W) : (a.map f).isSet = a.isSet := by
  cases a <;> rfl

theorem isSet_map₂ (f : W → W → W) (a b : Stored W) :
    (map₂ f a b).isSet = (a.isSet && b.isSet) := by
  cases a <;> cases b <;> rfl

variable [Double W]

/-- Flags are stored in a part of the memory of a `double`. -/
instance : Double (Stored W) where
  add := map₂ (· + ·)
  sub := map₂ (· - ·)
  mul := map₂ (· * ·)
  div := map₂ (· / ·)
  neg := map (- ·)
  ofScientific m s e := value (OfScientific.ofScientific m s e)
  magicCast
    | unset => 0
    | value v => Arith.magicCast v
  setMagicCast
    | unset, w => value (setMagicCast 0.0 w)
    | value v, w => value (setMagicCast v w)
  magicCast_setMagicCast v w := by
    cases v with
    | unset => exact magicCast_setMagicCast 0.0 w
    | value v => exact magicCast_setMagicCast v w
  ofInt n := value (Double.ofInt n)
  lt
    | value a, value b => Double.lt a b
    | _, _ => false

@[simp] theorem isSet_add (a b : Stored W) : (a + b).isSet = (a.isSet && b.isSet) :=
  isSet_map₂ _ a b

@[simp] theorem isSet_sub (a b : Stored W) : (a - b).isSet = (a.isSet && b.isSet) :=
  isSet_map₂ _ a b

@[simp] theorem isSet_mul (a b : Stored W) : (a * b).isSet = (a.isSet && b.isSet) :=
  isSet_map₂ _ a b

@[simp] theorem isSet_div (a b : Stored W) : (a / b).isSet = (a.isSet && b.isSet) :=
  isSet_map₂ _ a b

@[simp] theorem isSet_neg (a : Stored W) : (-a).isSet = a.isSet := isSet_map _ a

@[simp] theorem isSet_literal (m : Nat) (s : Bool) (e : Nat) :
    (OfScientific.ofScientific m s e : Stored W).isSet = true := rfl

@[simp] theorem isSet_ofInt (n : Int) : (Double.ofInt n : Stored W).isSet = true := rfl

@[simp] theorem isSet_setMagicCast (a : Stored W) (w : UInt32) :
    (setMagicCast a w).isSet = true := by
  cases a <;> rfl

end Stored

open Stored

variable {W : Type} [Double W]

/-! ## What is computed from defined entries -/

section Values

variable {s : CellEntry → Stored W} {p : Packet (Stored W)}

/-- Every field has a value. -/
structure Packet.Defined (p : Packet (Stored W)) : Prop where
  ux : p.ux.isSet
  uy : p.uy.isSet
  uz : p.uz.isSet
  u2 : p.u2.isSet
  rho : p.rho.isSet

theorem isSet_rho (hs : ∀ e, (s e).isSet) : (rho s).isSet := by
  simp [rho, hs]

theorem isSet_ux (hs : ∀ e, (s e).isSet) : (ux s).isSet := by
  simp [ux, hs]

theorem isSet_uy (hs : ∀ e, (s e).isSet) : (uy s).isSet := by
  simp [uy, hs]

theorem isSet_uz (hs : ∀ e, (s e).isSet) : (uz s).isSet := by
  simp [uz, hs]

theorem packet_defined {ux uy uz rho : Stored W} (i : Int) (hx : ux.isSet) (hy : uy.isSet)
    (hz : uz.isSet) (hr : rho.isSet) :
    Packet.Defined ⟨i, ux, uy, uz, 1.5 * (ux * ux + uy * uy + uz * uz), rho⟩ :=
  ⟨hx, hy, hz, by simp [hx, hy, hz], hr⟩

theorem moments_defined (hs : ∀ e, (s e).isSet) (isAccel : Bool) (i : Int) :
    (moments s isAccel i).Defined := by
  have hr := isSet_rho hs
  have hquotient : ∀ a : Stored W, a.isSet → (a / rho s).isSet := fun a ha => by simp [ha, hr]
  refine packet_defined i ?_ ?_ ?_ hr
  · cases isAccel
    · exact hquotient _ (isSet_ux hs)
    · rfl
  · cases isAccel
    · exact hquotient _ (isSet_uy hs)
    · rfl
  · cases isAccel
    · exact hquotient _ (isSet_uz hs)
    · rfl

theorem isSet_dfl (e : CellEntry) : (dfl e : Stored W).isSet := by
  cases e <;> rfl

theorem isSet_collide (hs : ∀ e, (s e).isSet) (hp : p.Defined) (e : CellEntry) :
    (collide s p e).isSet := by
  cases e <;>
    simp [collide, omega, dfl1, dfl2, dfl3, hs, hp.ux, hp.uy, hp.uz, hp.u2, hp.rho]

theorem isSet_inOut (hp : p.Defined) (e : CellEntry) : (inOut p e).isSet := by
  cases e <;> simp [inOut, dfl1, dfl2, dfl3, hp.ux, hp.uy, hp.uz, hp.u2, hp.rho]

end Values

/-! ## The allocated block -/

section Block

variable {sz : Size} {g srcGrid dstGrid : Grid (Stored W)} {i k : Int}

/-- Everything that is allocated is set, and nothing else. -/
def Filled (sz : Size) (g : Grid (Stored W)) : Prop := ∀ k, (g k).isSet = true ↔ Allocated sz k

theorem allocated_iff : Allocated sz k ↔
    calcIndex sz 0 0 (-2) 0 ≤ k ∧ k < calcIndex sz 0 0 (sz.z + 2) 0 := by
  have hlo : calcIndex sz 0 0 (-2) 0 = -margin sz := by
    unfold calcIndex margin
    ring
  have hhi : calcIndex sz 0 0 (sz.z + 2) 0 =
      sz.z * sz.y * sz.x * nCellEntries + margin sz := by
    unfold calcIndex margin
    ring
  rw [hlo, hhi]
  rfl

omit [Double W] in
/-- An assignment in the block, of something that is set. -/
theorem Filled.update (h : Filled sz g) (hk : Allocated sz k) {v : Stored W} (hv : v.isSet) :
    Filled sz (Function.update g k v) := by
  intro k'
  by_cases hkk : k' = k
  · rw [hkk, Function.update_self]
    exact ⟨fun _ => hk, fun _ => hv⟩
  · rw [Function.update_of_ne hkk]
    exact h k'

theorem allocated_flagsAt {c : Int × Int × Int} (hc : c ∈ box sz (-2) (sz.z + 2)) :
    Allocated sz (flagsAt sz c) := by
  obtain ⟨hz, hcell⟩ := mem_box.mp hc
  exact allocated_iff.mpr (hcell.calcIndex_bounds hz (by decide))

theorem Filled.setFlag (h : Filled sz g) {c : Int × Int × Int}
    (hc : c ∈ box sz (-2) (sz.z + 2)) (f : UInt32) :
    Filled sz (setFlag sz g c.2.2 c.2.1 c.1 f) :=
  h.update (allocated_flagsAt hc) (isSet_setMagicCast _ _)

/-- `LBM_initializeGrid` goes over the whole block. -/
theorem allocated_iff_exists :
    Allocated sz k ↔ ∃ i ∈ initializeSweep sz, i ≤ k ∧ k < i + 20 := by
  rw [allocated_iff]
  have hlo : calcIndex sz 0 0 (-2) 0 = -20 * (2 * sz.x * sz.y) := by
    unfold calcIndex nCellEntries
    ring
  have hhi : calcIndex sz 0 0 (sz.z + 2) 0 = 20 * ((sz.z + 2) * sz.x * sz.y) := by
    unfold calcIndex nCellEntries
    ring
  constructor
  · intro hk
    refine ⟨k - k % 20, mem_sweepTo.mpr ⟨by omega, by omega,
      ((k - calcIndex sz 0 0 (-2) 0) / 20).toNat, ?_⟩, by omega, by omega⟩
    unfold nCellEntries
    omega
  · rintro ⟨i, hi, hik⟩
    obtain ⟨hfrom, hto, n, rfl⟩ := mem_sweepTo.mp hi
    unfold nCellEntries at hfrom hto hik
    omega

theorem filled_initializeGrid (sz : Size) :
    Filled sz (initializeGrid sz (fun _ => .unset : Grid (Stored W))) := by
  intro k
  rw [allocated_iff_exists]
  constructor
  · intro hset
    by_contra hout
    have hoff : initializeGrid sz (fun _ => .unset : Grid (Stored W)) k = .unset :=
      foldl_off (initializeCell_confined sz) fun i hi hk => hout ⟨i, hi, hk⟩
    rw [hoff] at hset
    cases hset
  · rintro ⟨i, hi, hk⟩
    rw [initializeGrid,
      foldl_at (initializeCell_confined sz) (initializeSweep_independent sz) hi hk,
      initializeCell, clearAllFlagsSweep, gridEntrySweep_zero]
    by_cases hflags : k = i + flags
    · rw [hflags, Function.update_self, isSet_setMagicCast]
    · have hne : k ≠ i + 19 := hflags
      obtain ⟨e, rfl⟩ := entryOf_iff.mpr (show i ≤ k ∧ k < i + 19 by omega)
      rw [Function.update_of_ne hflags, setEntries_at, isSet_dfl]

theorem Filled.initializeOne (h : Filled sz (initializeGrid sz g)) (param : Param) :
    Filled sz (initializeOne sz param g) := by
  have hload : ∀ (file : List UInt8) (g : Grid (Stored W)), Filled sz g →
      Filled sz (loadObstacleFile sz (g, file)).1 := by
    intro file g hg
    simp only [loadObstacleFile_eq]
    refine List.foldlRecOn _ _ hg fun g hg c hc => ?_
    obtain ⟨hz, hcell⟩ := mem_box.mp hc
    unfold loadAt
    split_ifs
    · exact hg.setFlag (mem_box.mpr ⟨by omega, hcell⟩) obstacle
    · exact hg
  have hldc : ∀ g : Grid (Stored W), Filled sz g →
      Filled sz (initializeSpecialCellsForLDC sz g) := by
    intro g hg
    rw [initializeSpecialCellsForLDC, forCells_eq]
    refine List.foldlRecOn _ _ hg fun g hg c hc => ?_
    unfold specialCellForLDC
    split_ifs
    · exact hg.setFlag hc obstacle
    · exact hg.setFlag hc accel
    · exact hg
  have hchannel : ∀ g : Grid (Stored W), Filled sz g →
      Filled sz (initializeSpecialCellsForChannel sz g) := by
    intro g hg
    rw [initializeSpecialCellsForChannel, forCells_eq]
    refine List.foldlRecOn _ _ hg fun g hg c hc => ?_
    rw [specialCellForChannel_eq]
    split_ifs
    · exact hg.setFlag hc obstacle
    · exact hg
  unfold Lbm.initializeOne
  cases param.obstacleFile with
  | none =>
    cases param.simType with
    | channel => exact hchannel _ h
    | ldc => exact hldc _ h
  | some file =>
    cases param.simType with
    | channel => exact hchannel _ (hload file _ h)
    | ldc => exact hldc _ (hload file _ h)

/-! ## Time steps -/

/-- The entries that a cell of the grid refers to are in the block. -/
theorem allocated_of_layers {c : Int}
    (hc : -2 * ((sz.x : Int) * sz.y) ≤ c ∧ c < (sz.z + 2) * (sz.x * sz.y)) {e : Int}
    (he : 0 ≤ e ∧ e < 20) : Allocated sz (nCellEntries * c + e) := by
  have hstart : calcIndex sz 0 0 (-2) 0 = -20 * (2 * (sz.x * sz.y)) := by
    unfold calcIndex nCellEntries
    ring
  have hend : calcIndex sz 0 0 (sz.z + 2) 0 = 20 * ((sz.z + 2) * (sz.x * sz.y)) := by
    unfold calcIndex nCellEntries
    ring
  rw [allocated_iff, hstart, hend]
  unfold nCellEntries
  omega

/-- Neighbours are no further away than the margin. -/
theorem allocated_dst {n : Nat} (hn : n < sz.cells) (e : CellEntry) :
    Allocated sz (dst sz (nCellEntries * n) e) := by
  have hx : 0 < sz.x := by
    by_contra hx
    simp [Size.cells, Nat.eq_zero_of_not_pos hx] at hn
  have hy : 0 < sz.y := by
    by_contra hy
    simp [Size.cells, Nat.eq_zero_of_not_pos hy] at hn
  have hrow : (sz.x : Int) ≤ sz.x * sz.y := by
    exact_mod_cast Nat.le_mul_of_pos_right sz.x hy
  have hn' : (n : Int) < sz.z * (sz.x * sz.y) := by
    have hcells : sz.cells = sz.z * (sz.x * sz.y) := by
      unfold Size.cells
      ring
    rw [hcells] at hn
    exact_mod_cast hn
  have hshift : -(2 * ((sz.x : Int) * sz.y)) ≤ shift sz e ∧
      shift sz e ≤ 2 * ((sz.x : Int) * sz.y) := by
    cases e <;> simp only [shift, CellEntry.dx, CellEntry.dy, CellEntry.dz] <;>
      constructor <;> linarith
  have hend : ((sz.z : Int) + 2) * (sz.x * sz.y) = sz.z * (sz.x * sz.y) + 2 * (sz.x * sz.y) := by
    ring
  rw [dst_eq]
  exact allocated_of_layers ⟨by omega, by omega⟩ e.val_bounds

theorem allocated_src {n : Nat} (hn : n < sz.cells) (e : CellEntry) :
    Allocated sz (nCellEntries * n + e.val) := by
  have hn' : (n : Int) < sz.z * (sz.x * sz.y) := by
    have hcells : sz.cells = sz.z * (sz.x * sz.y) := by
      unfold Size.cells
      ring
    rw [hcells] at hn
    exact_mod_cast hn
  have hlayer : (0 : Int) ≤ (sz.x : Int) * sz.y := by positivity
  have hend : ((sz.z : Int) + 2) * (sz.x * sz.y) = sz.z * (sz.x * sz.y) + 2 * (sz.x * sz.y) := by
    ring
  exact allocated_of_layers ⟨by omega, by omega⟩ e.val_bounds

theorem Filled.isSet_outgoing (h : Filled sz srcGrid) {n : Nat} (hn : n < sz.cells)
    (e : CellEntry) : (outgoing sz srcGrid (nCellEntries * n) e).isSet := by
  have hsrc : ∀ e, (src sz srcGrid (nCellEntries * n) e).isSet := by
    intro e
    rw [src, localEntry, gridEntrySweep_zero]
    exact (h _).mpr (allocated_src hn e)
  unfold outgoing packet
  split
  · exact hsrc e.opposite
  · rename_i p hp
    split at hp
    · cases hp
    · obtain rfl := Option.some.inj hp
      exact isSet_collide hsrc (moments_defined hsrc _ _) e

theorem Filled.performStreamCollide (hsrc : Filled sz srcGrid) (hdst : Filled sz dstGrid) :
    Filled sz (performStreamCollide sz srcGrid dstGrid) := by
  intro k
  by_cases hk : ∃ i ∈ sweep sz (calcIndex sz 0 0 0 0), ∃ e, k = dst sz i e
  · obtain ⟨i, hi, e, rfl⟩ := hk
    rw [performStreamCollide_at hi]
    obtain ⟨n, hn, rfl⟩ := mem_sweep.mp hi
    exact ⟨fun _ => allocated_dst hn e, fun _ => hsrc.isSet_outgoing hn e⟩
  · rw [performStreamCollide_off fun i hi e he => hk ⟨i, hi, e, he⟩]
    exact hdst k

/-- A sweep over cells of the block that assigns what is set. -/
theorem Filled.setEntries {l : List Int} {p : Grid (Stored W) → Int → Packet (Stored W)}
    (hl : ∀ i ∈ l, ∀ e : CellEntry, Allocated sz (i + e.val))
    (hp : ∀ g, Filled sz g → ∀ i ∈ l, (p g i).Defined) (h : Filled sz g) :
    Filled sz (l.foldl (fun g i => setEntries sz g i (inOut (p g i))) g) := by
  refine List.foldlRecOn _ _ h fun g hg i hi k => ?_
  by_cases hk : EntryOf i k
  · obtain ⟨e, rfl⟩ := hk
    rw [setEntries_at]
    exact ⟨fun _ => hl i hi e, fun _ => isSet_inOut (hp g hg i hi) e⟩
  · rw [setEntries_off fun e he => hk ⟨e, he⟩]
    exact hg k

theorem inflow_defined {g : Grid (Stored W)}
    (h1 : ∀ e, (neighbor sz g i 0 0 1 e).isSet) (h2 : ∀ e, (neighbor sz g i 0 0 2 e).isSet) :
    (inflow sz g i).Defined :=
  packet_defined i rfl rfl (by simp) (by simp [isSet_rho h1, isSet_rho h2])

theorem outflow_defined {g : Grid (Stored W)}
    (h1 : ∀ e, (neighbor sz g i 0 0 (-1) e).isSet)
    (h2 : ∀ e, (neighbor sz g i 0 0 (-2) e).isSet) : (outflow sz g i).Defined :=
  packet_defined i
    (by simp [isSet_rho h1, isSet_rho h2, isSet_ux h1, isSet_ux h2])
    (by simp [isSet_rho h1, isSet_rho h2, isSet_uy h1, isSet_uy h2])
    (by simp [isSet_rho h1, isSet_rho h2, isSet_uz h1, isSet_uz h2]) rfl

/-- The layers that are read for the cells of the layer `z`. -/
theorem allocated_neighbor (z dz : Int) (hz : -2 ≤ z + dz ∧ z + dz < sz.z + 2) {n : Nat}
    (hn : n < sz.x * sz.y) (e : CellEntry) :
    Allocated sz (gridEntrySweep sz 0 0 dz e.val (calcIndex sz 0 0 z 0 + nCellEntries * n)) := by
  have hn' : (n : Int) < sz.x * sz.y := by exact_mod_cast hn
  have hplace : gridEntrySweep sz 0 0 dz e.val (calcIndex sz 0 0 z 0 + nCellEntries * n) =
      nCellEntries * ((z + dz) * (sz.x * sz.y) + n) + e.val := by
    unfold gridEntrySweep calcIndex
    ring
  have hlow : (-2 : Int) * (sz.x * sz.y) ≤ (z + dz) * (sz.x * sz.y) :=
    Int.mul_le_mul_of_nonneg_right hz.1 (by positivity)
  have hhigh : (z + dz + 1) * ((sz.x : Int) * sz.y) ≤ (sz.z + 2) * (sz.x * sz.y) :=
    Int.mul_le_mul_of_nonneg_right (by omega) (by positivity)
  rw [add_mul (z + dz), one_mul] at hhigh
  rw [hplace]
  exact allocated_of_layers ⟨by omega, by omega⟩ e.val_bounds

theorem Filled.handleInOutFlow (hz : 1 ≤ sz.z) (h : Filled sz g) :
    Filled sz (handleInOutFlow sz g) := by
  have hin : ∀ i ∈ inflowSweep sz, ∀ dz : Int, 0 ≤ dz → dz ≤ 2 → ∀ e : CellEntry,
      Allocated sz (gridEntrySweep sz 0 0 dz e.val i) := by
    intro i hi dz hlo hhi e
    rw [inflowSweep_eq, List.mem_map] at hi
    obtain ⟨n, hn, rfl⟩ := hi
    have hplace := allocated_neighbor 0 dz (by omega) (List.mem_range.mp hn) e
    rwa [calcIndex_start, zero_add] at hplace
  have hout : ∀ i ∈ outflowSweep sz, ∀ dz : Int, -2 ≤ dz → dz ≤ 0 → ∀ e : CellEntry,
      Allocated sz (gridEntrySweep sz 0 0 dz e.val i) := by
    intro i hi dz hlo hhi e
    rw [outflowSweep_eq, List.mem_map] at hi
    obtain ⟨n, hn, rfl⟩ := hi
    exact allocated_neighbor _ _ (by omega) (List.mem_range.mp hn) e
  refine Filled.setEntries (p := outflow sz) (fun i hi e => ?_) (fun g hg i hi => ?_)
    (Filled.setEntries (p := inflow sz) (fun i hi e => ?_) (fun g hg i hi => ?_) h)
  · have hplace := hout i hi 0 (by decide) (by decide) e
    rwa [gridEntrySweep_zero] at hplace
  · exact outflow_defined (fun e => (hg _).mpr (hout i hi (-1) (by decide) (by decide) e))
      fun e => (hg _).mpr (hout i hi (-2) (by decide) (by decide) e)
  · have hplace := hin i hi 0 (by decide) (by decide) e
    rwa [gridEntrySweep_zero] at hplace
  · exact inflow_defined (fun e => (hg _).mpr (hin i hi 1 (by decide) (by decide) e))
      fun e => (hg _).mpr (hin i hi 2 (by decide) (by decide) e)

theorem Filled.timeStep (hz : 1 ≤ sz.z) (simType : SimType) {gs : Grids (Stored W)}
    (h : Filled sz gs.src ∧ Filled sz gs.dst) :
    Filled sz (timeStep sz simType gs).src ∧ Filled sz (timeStep sz simType gs).dst := by
  have hstream : Filled sz (streamSource sz simType gs) := by
    cases simType with
    | channel => exact h.1.handleInOutFlow hz
    | ldc => exact h.1
  exact ⟨hstream.performStreamCollide h.2, hstream⟩

end Block

end Lbm

end IcsaDswp
