import IcsaDswp.LbmMass
import IcsaDswp.LbmVelocityField
import IcsaDswp.Lib.Fold

/-!
# What the programs print and write

The blocks that `malloc` returns hold anything. What the programs print and write depends on the
parameters only: neither on what was in the blocks, nor on how the threads of `lbm-dswp.cpp` take
turns at a queue that blocks, nor on the byte order of the machine (`output_determined`). The one difference is in the
verdict of a comparison, for which C takes the root of a `double` and C++ the root of a `float`. Both
accept a result file with what they have computed themselves (`compare_accepts`).
-/

namespace IcsaDswp

open Lib

namespace Lbm

/-- `MAIN_Action`. -/
inductive Action where
  | nothing
  | compare
  | store
  deriving DecidableEq

/-- What `MAIN_finalize` prints, the comparison what it makes of `maxDiff2`, and what is in the result
file after it. -/
structure Finalized (F V : Type) where
  statistics : GridStatistics V
  maxDiff2 : Option F
  resultFile : List UInt8

/-- `MAIN_finalize`; `none` if the comparison reads past the end of the result file. -/
def mainFinalize {V : Type} [Double V] (F : Type) [OutputPrecision F V] (sz : Size)
    (order : ByteOrder) (action : Action) (srcGrid : Grid V) (resultFile : List UInt8) :
    Option (Finalized F V) :=
  let statistics := showGridStatistics sz srcGrid
  match action with
  | .nothing => some ⟨statistics, none, resultFile⟩
  | .compare => (compareVelocityField F sz order srcGrid resultFile).map fun r =>
      ⟨statistics, some r.1, resultFile⟩
  | .store => some ⟨statistics, none, storeVelocityField F sz order srcGrid⟩

/-- The verdict that a program prints. -/
def Finalized.verdict {F V : Type} [Double V] [OutputPrecision F V] (program : Program)
    (r : Finalized F V) : Option String :=
  r.maxDiff2.map (Lbm.verdict program)

section Alike

variable {V : Type} [Double V] {sz : Size} {param : Param} {g g' srcGrid srcGrid' : Grid V}
  {i k : Int}

/-- The two grids have the same distributions, wherever there are any in the block. -/
def Alike (sz : Size) (g g' : Grid V) : Prop :=
  ∀ n : Int, ∀ e : CellEntry, Allocated sz (nCellEntries * n + e.val) →
    g (nCellEntries * n + e.val) = g' (nCellEntries * n + e.val)

theorem alike_initializeOne (sz : Size) (param : Param) (memory memory' : Grid V) :
    Alike sz (initializeOne sz param memory) (initializeOne sz param memory') := by
  intro n e ha
  have hne : ∀ c, nCellEntries * n + e.val ≠ flagsAt sz c := fun c h => flagsAt_ne n c e h.symm
  rw [initializeOne_of_ne memory hne, initializeOne_of_ne memory' hne, initializeGrid_entry _ ha,
    initializeGrid_entry _ ha]

omit [Double V] in
theorem Alike.src_eq (h : Alike sz g g') {n : Nat} (hn : n < sz.cells) :
    src sz g (nCellEntries * n) = src sz g' (nCellEntries * n) := by
  funext e
  rw [src, src, localEntry, localEntry, gridEntrySweep_zero]
  exact h n e (allocated_src hn e)

/-- Cells have the flags of the program in either grid. -/
theorem HasFlags.testFlagSweep_eq (h : HasFlags sz param g) (h' : HasFlags sz param g') {n : Nat}
    (hn : n < sz.cells) (f : UInt32) :
    Lbm.testFlagSweep sz g f (nCellEntries * n) = Lbm.testFlagSweep sz g' f (nCellEntries * n) := by
  obtain ⟨x, y, z, hcell, hz, hi⟩ := exists_calcIndex hn
  rw [hi, h.testFlagSweep hcell hz, h'.testFlagSweep hcell hz]

theorem Alike.outgoing_eq (h : Alike sz g g') (hf : HasFlags sz param g)
    (hf' : HasFlags sz param g') {n : Nat} (hn : n < sz.cells) :
    outgoing sz g (nCellEntries * n) = outgoing sz g' (nCellEntries * n) := by
  have hpacket : packet sz g (nCellEntries * n) = packet sz g' (nCellEntries * n) := by
    rw [packet, packet, h.src_eq hn, hf.testFlagSweep_eq hf' hn, hf.testFlagSweep_eq hf' hn]
  funext e
  rw [outgoing, outgoing, hpacket, h.src_eq hn]

theorem Alike.performStreamCollide {dstGrid dstGrid' : Grid V} (h : Alike sz g g')
    (hf : HasFlags sz param g) (hf' : HasFlags sz param g') (hdst : Alike sz dstGrid dstGrid') :
    Alike sz (performStreamCollide sz g dstGrid) (performStreamCollide sz g' dstGrid') := by
  intro n e ha
  by_cases hk : ∃ i ∈ sweep sz (calcIndex sz 0 0 0 0), ∃ e', nCellEntries * n + e.val = dst sz i e'
  · obtain ⟨i, hi, e', he'⟩ := hk
    obtain ⟨m, hm, rfl⟩ := mem_sweep.mp hi
    rw [he', performStreamCollide_at hi, performStreamCollide_at hi, h.outgoing_eq hf hf' hm]
  · have hoff : ∀ i ∈ sweep sz (calcIndex sz 0 0 0 0), ∀ e',
        nCellEntries * n + e.val ≠ dst sz i e' := fun i hi e' he' => hk ⟨i, hi, e', he'⟩
    rw [performStreamCollide_off hoff, performStreamCollide_off hoff]
    exact hdst n e ha

/-- A sweep that assigns to the cells what comes out alike. -/
theorem Alike.setEntries {l : List Int} {p : Grid V → Int → Packet V}
    (hp : ∀ g g', Alike sz g g' → ∀ i ∈ l, p g i = p g' i) (h : Alike sz g g') :
    Alike sz (l.foldl (fun g i => setEntries sz g i (inOut (p g i))) g)
      (l.foldl (fun g i => setEntries sz g i (inOut (p g i))) g') := by
  induction l generalizing g g' with
  | nil => exact h
  | cons i l ih =>
    refine ih (fun g g' h j hj => hp g g' h j (List.mem_cons_of_mem _ hj)) fun n e ha => ?_
    show Lbm.setEntries sz g i (inOut (p g i)) _ = Lbm.setEntries sz g' i (inOut (p g' i)) _
    rw [hp g g' h i List.mem_cons_self]
    by_cases hk : EntryOf i (nCellEntries * n + e.val)
    · obtain ⟨e', he'⟩ := hk
      rw [he', setEntries_at, setEntries_at]
    · have hoff : ∀ e', nCellEntries * n + e.val ≠ i + CellEntry.val e' := fun e' he' => hk ⟨e', he'⟩
      rw [setEntries_off hoff, setEntries_off hoff]
      exact h n e ha

omit [Double V] in
theorem Alike.neighbor_eq (h : Alike sz g g') (z dz : Int)
    (hz : -2 ≤ z + dz ∧ z + dz < sz.z + 2) {n : Nat} (hn : n < sz.x * sz.y) :
    neighbor sz g (calcIndex sz 0 0 z 0 + nCellEntries * n) 0 0 dz =
      neighbor sz g' (calcIndex sz 0 0 z 0 + nCellEntries * n) 0 0 dz := by
  funext e
  have ha := allocated_neighbor z dz hz hn e
  have hplace : gridEntrySweep sz 0 0 dz e.val (calcIndex sz 0 0 z 0 + nCellEntries * n) =
      nCellEntries * ((z + dz) * (sz.x * sz.y) + n) + e.val := by
    unfold gridEntrySweep calcIndex
    ring
  unfold neighbor
  rw [hplace] at ha ⊢
  exact h _ e ha

theorem Alike.handleInOutFlow (hz : 1 ≤ sz.z) (h : Alike sz g g') :
    Alike sz (handleInOutFlow sz g) (handleInOutFlow sz g') := by
  refine Alike.setEntries (p := outflow sz) (fun g g' h i hi => ?_)
    (Alike.setEntries (p := inflow sz) (fun g g' h i hi => ?_) h)
  · rw [outflowSweep_eq, List.mem_map] at hi
    obtain ⟨n, hn, rfl⟩ := hi
    have hn := List.mem_range.mp hn
    rw [outflow, outflow, h.neighbor_eq _ (-1) (by omega) hn, h.neighbor_eq _ (-2) (by omega) hn]
  · rw [inflowSweep_eq, List.mem_map] at hi
    obtain ⟨n, hn, rfl⟩ := hi
    have hn := List.mem_range.mp hn
    have hstart : nCellEntries * (n : Int) = calcIndex sz 0 0 0 0 + nCellEntries * n := by
      unfold calcIndex
      ring
    rw [inflow, inflow, hstart, h.neighbor_eq 0 1 (by omega) hn, h.neighbor_eq 0 2 (by omega) hn]

theorem Alike.timeStep (hz : 1 ≤ sz.z) (simType : SimType) {gs gs' : Grids V}
    (h : Alike sz gs.src gs'.src ∧ Alike sz gs.dst gs'.dst) (hf : HasFlags sz param gs.src)
    (hf' : HasFlags sz param gs'.src) :
    Alike sz (timeStep sz simType gs).src (timeStep sz simType gs').src ∧
      Alike sz (timeStep sz simType gs).dst (timeStep sz simType gs').dst := by
  cases simType with
  | channel =>
    have hstream := h.1.handleInOutFlow hz
    exact ⟨hstream.performStreamCollide hf.handleInOutFlow hf'.handleInOutFlow h.2, hstream⟩
  | ldc => exact ⟨h.1.performStreamCollide hf hf' h.2, h.1⟩

/-- **What `malloc` returns makes no difference** for the grids, after any number of time steps. -/
theorem alike_grids (sz : Size) (hz : 1 ≤ sz.z) (param : Param) (memory memory' : Grids V)
    (t : Nat) :
    Alike sz (grids sz param memory t).src (grids sz param memory' t).src ∧
      Alike sz (grids sz param memory t).dst (grids sz param memory' t).dst := by
  induction t with
  | zero => exact ⟨alike_initializeOne sz param _ _, alike_initializeOne sz param _ _⟩
  | succ t ih =>
    obtain ⟨hf, -⟩ := hasFlags_grids sz param memory t
    obtain ⟨hf', -⟩ := hasFlags_grids sz param memory' t
    simp only [grids, Function.iterate_succ_apply'] at ih hf hf' ⊢
    exact Alike.timeStep hz param.simType ih hf hf'

/-! ## What is printed and written -/

omit [Double V] in
theorem Alike.gridEntry_eq (h : Alike sz g g') {c : Int × Int × Int} (hc : c ∈ box sz 0 sz.z) :
    gridEntry sz g c = gridEntry sz g' c := by
  obtain ⟨hz, hcell⟩ := mem_box.mp hc
  funext e
  have hz' : -2 ≤ c.1 ∧ c.1 < (sz.z : Int) + 2 := by omega
  have ha : Allocated sz (calcIndex sz c.2.2 c.2.1 c.1 e.val) :=
    allocated_iff.mpr (hcell.calcIndex_bounds hz' e.val_bounds)
  unfold gridEntry
  rw [calcIndex_cell] at ha ⊢
  exact h _ e ha

theorem Alike.showGridStatistics_eq (h : Alike sz g g') (hf : HasFlags sz param g)
    (hf' : HasFlags sz param g') : showGridStatistics sz g = showGridStatistics sz g' := by
  refine List.foldl_ext _ _ _ fun st i hi => ?_
  obtain ⟨n, hn, rfl⟩ := mem_sweep.mp hi
  rw [noteCell, noteCell, h.src_eq hn, hf.testFlagSweep_eq hf' hn, hf.testFlagSweep_eq hf' hn]

variable {F : Type} [OutputPrecision F V]

theorem Alike.storeVelocityField_eq (h : Alike sz g g') (order order' : ByteOrder) :
    storeVelocityField F sz order g = storeVelocityField F sz order' g' := by
  rw [Lbm.storeVelocityField_eq, Lbm.storeVelocityField_eq]
  refine List.flatMap_congr fun c hc => ?_
  rw [h.gridEntry_eq hc]

theorem Alike.compareVelocityField_eq (h : Alike sz g g') (order order' : ByteOrder)
    (file : List UInt8) :
    compareVelocityField F sz order g file = compareVelocityField F sz order' g' file := by
  have hload : loadVelocity (F := F) order = loadVelocity order' := by
    funext file
    simp only [loadVelocity, loadValue_eq]
  unfold compareVelocityField
  refine foldlM_congr (fun s c hc => ?_) _
  rw [h.gridEntry_eq hc, hload]

theorem Alike.mainFinalize_eq (h : Alike sz g g') (hf : HasFlags sz param g)
    (hf' : HasFlags sz param g') (order order' : ByteOrder) (action : Action) (file : List UInt8) :
    mainFinalize F sz order action g file = mainFinalize F sz order' action g' file := by
  unfold mainFinalize
  rw [h.showGridStatistics_eq hf hf']
  cases action with
  | nothing => rfl
  | compare => rw [h.compareVelocityField_eq order order']
  | store => rw [h.storeVelocityField_eq order order']

/-- A comparison goes well with every file that is long enough. -/
theorem exists_mainFinalize (sz : Size) (order : ByteOrder) (action : Action) (g : Grid V)
    {file : List UInt8} (hfile : action = .compare → 3 * outputSize F * sz.cells ≤ file.length) :
    ∃ r, mainFinalize F sz order action g file = some r := by
  cases action with
  | nothing => exact ⟨_, rfl⟩
  | compare =>
    have hread := isSome_compareVelocityField (F := F) sz order g file
    obtain ⟨r, hr⟩ := Option.isSome_iff_exists.mp (hread.mpr (hfile rfl))
    exact ⟨_, by rw [mainFinalize, hr]; rfl⟩
  | store => exact ⟨_, rfl⟩

/-- **The output is determined by the parameters and the files**, of which a result file to compare
with is long enough. However the threads of the decoupled program take turns, and whatever the two
programs get from `malloc`, on machines of any byte orders, they print the same statistics, find the
same `maxDiff2` and leave the same result file. -/
theorem output_determined (sz : Size) (hz : 1 ≤ sz.z) (param : Param) (memory memory' : Grids V)
    {acts : List (Call.RoundAct Thread)} {s : Call.State (Grids V) (State V)}
    (h : exec ((decoupled sz param.simType).round param.nTimeSteps.toNat)
      (Call.start (mainInitialize sz param memory)) acts = some s)
    (hdone : s.done = param.nTimeSteps.toNat) (order order' : ByteOrder) (action : Action)
    (file : List UInt8) (hfile : action = .compare → 3 * outputSize F * sz.cells ≤ file.length) :
    showGridStatistics sz (mainInitialize sz param memory).src =
        showGridStatistics sz (mainInitialize sz param memory').src ∧
      ∃ r, mainFinalize F sz order action s.outer.src file = some r ∧
        mainFinalize F sz order' action (grids sz param memory' param.nTimeSteps.toNat).src file =
          some r := by
  have houter : s.outer = grids sz param memory param.nTimeSteps.toNat := by
    rw [← hdone]
    exact ((decoupled_refines sz param.simType).run h).1
  have halike := alike_grids sz hz param memory memory'
  have hflags : ∀ (memory : Grids V) t, HasFlags sz param (grids sz param memory t).src :=
    fun memory t => (hasFlags_grids sz param memory t).1
  refine ⟨(halike 0).1.showGridStatistics_eq (hflags memory 0) (hflags memory' 0), ?_⟩
  obtain ⟨r, hr⟩ := exists_mainFinalize (F := F) sz order action s.outer.src hfile
  have hsame := (halike param.nTimeSteps.toNat).1.mainFinalize_eq (F := F) (hflags memory _)
    (hflags memory' _) order order' action file
  rw [← houter, hr] at hsame
  exact ⟨r, hr, hsame.symm⟩

/-- In the middle of the channel the fluid comes in. -/
theorem output_determined_channel :
    ∃ (acts : List (Call.RoundAct Thread)) (s : Call.State (Grids Exact) (State Exact)),
      exec ((decoupled ⟨3, 3, 4⟩ .channel).round 2)
        (Call.start (mainInitialize ⟨3, 3, 4⟩ ⟨2, .channel, none⟩
          ⟨fun _ => 0.0, fun _ => 0.0⟩)) acts = some s ∧
      ∃ r, mainFinalize Binary32 ⟨3, 3, 4⟩ .big .store s.outer.src [] = some r ∧
        mainFinalize Binary32 ⟨3, 3, 4⟩ .little .store (grids ⟨3, 3, 4⟩ ⟨2, .channel, none⟩
          ⟨fun _ => 1.5, fun _ => 2.5⟩ 2).src [] = some r := by
  obtain ⟨acts, s, h, hdone, -⟩ := (decoupled_refines (V := Exact) ⟨3, 3, 4⟩ .channel).exists_run 2
    (mainInitialize ⟨3, 3, 4⟩ ⟨2, .channel, none⟩ ⟨fun _ => 0.0, fun _ => 0.0⟩)
  exact ⟨acts, s, h, (output_determined ⟨3, 3, 4⟩ (by decide) ⟨2, .channel, none⟩ _ _ h hdone
    .big .little .store [] nofun).2⟩

/-- **`main-dswp.cpp` accepts the result file of `main.c`**, also on a machine with another byte
order, if both make the same number of time steps with the same parameters, whichever root it
takes. -/
theorem compare_accepts {val : V → Option ℚ} {valF : F → Option ℚ} (hround : Rounding val valF)
    (hz : 1 ≤ sz.z) (hcells : 0 < sz.cells) (param : Param) (memory memory' : Grids V)
    {acts : List (Call.RoundAct Thread)} {s : Call.State (Grids V) (State V)}
    (h : exec ((decoupled sz param.simType).round param.nTimeSteps.toNat)
      (Call.start (mainInitialize sz param memory)) acts = some s)
    (hdone : s.done = param.nTimeSteps.toNat)
    (hgrid : ∀ c ∈ box sz 0 sz.z,
      Moderate val (gridEntry sz (grids sz param memory' param.nTimeSteps.toNat).src c))
    (order order' : ByteOrder) (file : List UInt8) :
    ∃ stored compared,
      mainFinalize F sz order' .store (grids sz param memory' param.nTimeSteps.toNat).src file =
        some stored ∧
      mainFinalize F sz order .compare s.outer.src stored.resultFile = some compared ∧
      ∀ program, compared.verdict program = some "OK" := by
  have houter : s.outer = grids sz param memory param.nTimeSteps.toNat := by
    rw [← hdone]
    exact ((decoupled_refines sz param.simType).run h).1
  have halike := (alike_grids sz hz param memory memory' param.nTimeSteps.toNat).1
  have hsmall := hround.smallDiff_maxDiff2 hcells hgrid
  refine ⟨_, ⟨showGridStatistics sz s.outer.src, some _,
    storeVelocityField F sz order' (grids sz param memory' param.nTimeSteps.toNat).src⟩, rfl, ?_,
    fun program => congrArg some (hround.verdict_eq program hsmall)⟩
  rw [mainFinalize, houter, halike.compareVelocityField_eq order order, compareVelocityField_store]
  rfl

end Alike

/-! ## One time step from rest -/

section Driven

variable {sz : Size} {g srcGrid dstGrid : Grid Exact}

/-- The entries are not far from those of a fluid at rest. -/
def NearRest (sz : Size) (g : Grid Exact) : Prop :=
  ∀ c ∈ grid sz, ∀ e, |entry Exact.num g c e - e.weight| ≤ e.weight / 10

theorem CellEntry.weight_pos (e : CellEntry) : 0 < e.weight := by
  cases e <;> norm_num [CellEntry.weight]

/-- What a cell that is driven gives each neighbour. -/
theorem driven_near (e : CellEntry) :
    |(1 - 39 / 20) * e.weight + 39 / 20 * (1 * share (5 / 1000) (2 / 1000) 0 e) - e.weight| ≤
      e.weight / 10 := by
  rw [abs_le]
  cases e <;>
    norm_num [share, CellEntry.weight, CellEntry.dot, CellEntry.dx, CellEntry.dy, CellEntry.dz]

/-- What a cell at rest gives its neighbours, driven or not. -/
theorem outgoing_nearRest (hrest : Rest Exact.num sz srcGrid) {c : ℤ} (hc : c ∈ grid sz)
    (e : CellEntry) :
    |(outgoing sz srcGrid (nCellEntries * c) e).num - e.weight| ≤ e.weight / 10 := by
  have hstill : ∀ v : ℚ, v = e.weight → |v - e.weight| ≤ e.weight / 10 := by
    rintro v rfl
    have hpos := e.weight_pos
    rw [sub_self, abs_zero]
    linarith
  by_cases hdriven : Lbm.testFlagSweep sz srcGrid obstacle (nCellEntries * c) = false →
      Lbm.testFlagSweep sz srcGrid accel (nCellEntries * c) = false
  · exact hstill _ (exactOn_num.outgoing_rest hrest hc hdriven e)
  · obtain ⟨hobstacle, haccel⟩ := Classical.not_imp.mp hdriven
    have hs : ∀ e, (src sz srcGrid (nCellEntries * c) e).num = e.weight := fun e =>
      (src_eq sz srcGrid c e).trans (hrest c hc e)
    have hout : outgoing sz srcGrid (nCellEntries * c) e =
        collide (src sz srcGrid (nCellEntries * c))
          (moments (src sz srcGrid (nCellEntries * c)) true (nCellEntries * c)) e := by
      unfold outgoing packet
      rw [hobstacle, (Bool.not_eq_false _).mp haccel]
      rfl
    rw [hout]
    generalize src sz srcGrid (nCellEntries * c) = s at hs
    have hrho : (moments s true (nCellEntries * c)).rho.num = 1 := (exactOn_num.moments_rest hs).1
    have hux : (moments s true (nCellEntries * c)).ux.num = 5 / 1000 := by
      show (0.005 : Exact).num = _
      rw [exactOn_num.literal]
      norm_num
    have huy : (moments s true (nCellEntries * c)).uy.num = 2 / 1000 := by
      show (0.002 : Exact).num = _
      rw [exactOn_num.literal]
      norm_num
    have huz : (moments s true (nCellEntries * c)).uz.num = 0 := by
      show (0.000 : Exact).num = _
      rw [exactOn_num.literal]
      norm_num
    rw [exactOn_num.collide_eq (exactOn_num.moments_exact s true _).1, hs, hrho, hux, huy, huz]
    exact driven_near e

theorem nearRest_performStreamCollide (hsrc : Rest Exact.num sz srcGrid)
    (hdst : Rest Exact.num sz dstGrid) : NearRest sz (performStreamCollide sz srcGrid dstGrid) := by
  intro c hc e
  have hstreams := streams Exact.num sz srcGrid dstGrid
  by_cases hsource : c - shift sz e ∈ grid sz
  · rw [hstreams.arrives c hc e hsource]
    exact outgoing_nearRest hsrc hsource e
  · rw [hstreams.stays c hc e hsource, hdst c hc, sub_self, abs_zero]
    cases e <;> norm_num [CellEntry.weight]

theorem nearRest_grids_one {param : Param} (hldc : param.simType = .ldc) (memory : Grids Exact) :
    NearRest sz (grids sz param memory 1).src := by
  have hinit : ∀ memory : Grid Exact, Rest Exact.num sz (initializeOne sz param memory) :=
    fun memory c hc e =>
      (entry_initializeOne Exact.num sz param memory hc e).trans (exactOn_num.dfl_eq e)
  rw [grids, Function.iterate_one, hldc]
  exact nearRest_performStreamCollide (hinit _) (hinit _)

/-- The weights add up to one. -/
theorem sum_weight : ∑ e : CellEntry, e.weight = 1 := by
  rw [sum_entries]
  norm_num [CellEntry.weight]

/-- The entries of a cell are those of its number. -/
theorem exists_mem_grid (g : Grid Exact) {c : Int × Int × Int} (hc : c ∈ box sz 0 sz.z) :
    ∃ k ∈ grid sz, ∀ e, (gridEntry sz g c e).num = entry Exact.num g k e := by
  obtain ⟨hz, hcell⟩ := mem_box.mp hc
  refine ⟨c.2.2 + c.2.1 * sz.x + c.1 * sz.x * sz.y, Finset.mem_Ico.mpr (hcell.number_bounds hz),
    fun e => ?_⟩
  rw [gridEntry, calcIndex_cell]
  rfl

/-- A fluid near rest is in the range. -/
theorem NearRest.moderate (h : NearRest sz g) {c : Int × Int × Int} (hc : c ∈ box sz 0 sz.z) :
    Moderate (fun a : Exact => some a.num) (gridEntry sz g c) := by
  have hnear : ∀ e, |(gridEntry sz g c e).num - e.weight| ≤ e.weight / 10 := by
    obtain ⟨k, hk, hentry⟩ := exists_mem_grid g hc
    intro e
    rw [hentry]
    exact h k hk e
  generalize gridEntry sz g c = s at hnear
  have hlow : ∀ e, 9 / 10 * e.weight ≤ (s e).num := fun e => by
    linarith [(abs_le.mp (hnear e)).1]
  have hhigh : ∀ e, (s e).num ≤ 11 / 10 * e.weight := fun e => by
    linarith [(abs_le.mp (hnear e)).2]
  obtain ⟨hrho, hx, hy, hz⟩ := exactOn_num.moments_sum s
  have hrho_low : 9 / 10 ≤ (rho s).num := by
    rw [hrho]
    calc (9 / 10 : ℚ) = ∑ e : CellEntry, 9 / 10 * e.weight := by
          rw [← Finset.mul_sum, sum_weight, mul_one]
      _ ≤ ∑ e, (s e).num := Finset.sum_le_sum fun e _ => hlow e
  have hrho_high : (rho s).num ≤ 11 / 10 := by
    rw [hrho]
    calc ∑ e, (s e).num ≤ ∑ e : CellEntry, 11 / 10 * e.weight :=
          Finset.sum_le_sum fun e _ => hhigh e
      _ = 11 / 10 := by rw [← Finset.mul_sum, sum_weight, mul_one]
  have hspeed : ∀ d : CellEntry → ℤ, (∀ e, |(d e : ℚ)| ≤ 1) →
      |∑ e, (d e : ℚ) * (s e).num| ≤ (rho s).num := by
    intro d hd
    rw [hrho]
    refine (Finset.abs_sum_le_sum_abs _ _).trans (Finset.sum_le_sum fun e _ => ?_)
    have hpos : 0 ≤ (s e).num := by
      have hweight := e.weight_pos
      linarith [hlow e]
    rw [abs_mul, abs_of_nonneg hpos]
    exact mul_le_of_le_one_left hpos (hd e)
  refine ⟨_, _, _, _, ⟨rfl, by norm_num; linarith, by norm_num; linarith⟩, ⟨rfl, ?_⟩, ⟨rfl, ?_⟩,
    rfl, ?_⟩
  · rw [hx]
    exact hspeed CellEntry.dx fun e => by cases e <;> norm_num [CellEntry.dx]
  · rw [hy]
    exact hspeed CellEntry.dy fun e => by cases e <;> norm_num [CellEntry.dy]
  · rw [hz]
    exact hspeed CellEntry.dz fun e => by cases e <;> norm_num [CellEntry.dz]

end Driven

/-- The lids of this cavity drive one cell, and the velocities of its neighbours are no floats. -/
theorem compare_accepts_driven :
    ∃ (s : Call.State (Grids Exact) (State Exact)) (stored compared : Finalized Binary32 Exact),
      mainFinalize Binary32 ⟨5, 5, 3⟩ .big .store (grids ⟨5, 5, 3⟩ ⟨1, .ldc, none⟩
        ⟨fun _ => 1.5, fun _ => 2.5⟩ 1).src [] = some stored ∧
      mainFinalize Binary32 ⟨5, 5, 3⟩ .little .compare s.outer.src stored.resultFile =
        some compared ∧
      ∀ program, compared.verdict program = some "OK" := by
  obtain ⟨acts, s, h, hdone, -⟩ := (decoupled_refines (V := Exact) ⟨5, 5, 3⟩ .ldc).exists_run 1
    (mainInitialize ⟨5, 5, 3⟩ ⟨1, .ldc, none⟩ ⟨fun _ => 0.0, fun _ => 0.0⟩)
  exact ⟨s, compare_accepts rounding_binary32 (by decide) (by decide) ⟨1, .ldc, none⟩ _ _ h hdone
    (fun c hc => (nearRest_grids_one rfl _).moderate hc) .little .big []⟩

end Lbm

end IcsaDswp
