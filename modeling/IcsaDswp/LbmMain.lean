import IcsaDswp.LbmGrid
import IcsaDswp.Lib.Rounds

/-!
# The programs of `main.c` and `main-dswp.cpp`

Both allocate two grids, set them up from the obstacle file and for the kind of simulation, and make
time steps from one grid to the other. They differ in `LBM_performStreamCollide`, which is a
concurrent call in the second one (`dswp_refines`). What `MAIN_initialize` writes to the flags stays
there (`flags_run`): cells neither get nor lose a flag while the program runs.
-/

namespace IcsaDswp

open Lib

namespace Lbm

/-- `MAIN_SimType`. -/
inductive SimType where
  | ldc
  | channel
  deriving DecidableEq

/-- What `MAIN_initialize` and the time steps need of `MAIN_Param`, with the contents of the
obstacle file. -/
structure Param where
  nTimeSteps : Int
  simType : SimType
  obstacleFile : Option (List UInt8)

/-- The size that `MAIN_parseCommandLine` expects of the obstacle file; it is taken to fit into
`int`. -/
def obstacleFileSize (sz : Size) : Nat := sz.x * sz.y * sz.z + (sz.y + 1) * sz.z

/-- `srcGrid` and `dstGrid`. -/
structure Grids (V : Type) where
  src : Grid V
  dst : Grid V

section Main

variable {V : Type} [Double V]

/-- What `MAIN_initialize` does to one of the grids. -/
def initializeOne (sz : Size) (param : Param) (grid : Grid V) : Grid V :=
  let grid := initializeGrid sz grid
  let grid :=
    match param.obstacleFile with
    | none => grid
    | some file => (loadObstacleFile sz (grid, file)).1
  match param.simType with
  | .channel => initializeSpecialCellsForChannel sz grid
  | .ldc => initializeSpecialCellsForLDC sz grid

/-- `MAIN_initialize`, from what `malloc` gives. -/
def mainInitialize (sz : Size) (param : Param) (memory : Grids V) : Grids V :=
  ⟨initializeOne sz param memory.src, initializeOne sz param memory.dst⟩

/-- `*srcGrid` when `LBM_performStreamCollide` is called. -/
def streamSource (sz : Size) (simType : SimType) (g : Grids V) : Grid V :=
  match simType with
  | .channel => handleInOutFlow sz g.src
  | .ldc => g.src

/-- The body of the loop of `main`, with `LBM_swapGrids`. -/
def timeStep (sz : Size) (simType : SimType) (g : Grids V) : Grids V :=
  let srcGrid := streamSource sz simType g
  ⟨performStreamCollide sz srcGrid g.dst, srcGrid⟩

/-- The grids after `t` time steps. -/
def grids (sz : Size) (param : Param) (memory : Grids V) (t : Nat) : Grids V :=
  (timeStep sz param.simType)^[t] (mainInitialize sz param memory)

/-- `LBM_performStreamCollide` of `lbm-dswp.cpp`, as a call that `main` makes. -/
def decoupled (sz : Size) (simType : SimType) : Call (Grids V) (State V) Thread where
  enter g := init sz g.dst
  step g := step sz (streamSource sz simType g)
  leave g s :=
    match s.main with
    | .returned => some ⟨s.dst, streamSource sz simType g⟩
    | _ => none

end Main

/-! ## The obstacle file -/

section File

variable {V : Type} {sz : Size} {file : List UInt8}

/-- The character at a place, `EOF` past the end. -/
def charAt (file : List UInt8) (n : Nat) : Int :=
  match file[n]? with
  | none => -1
  | some c => c.toNat

theorem fgetc_drop (file : List UInt8) (n : Nat) :
    fgetc (file.drop n) = (charAt file n, file.drop (n + 1)) := by
  unfold charAt
  cases h : file[n]? with
  | none =>
    have hle := List.getElem?_eq_none_iff.mp h
    rw [List.drop_eq_nil_of_le hle, List.drop_eq_nil_of_le (by omega)]
    rfl
  | some c =>
    obtain ⟨hlt, rfl⟩ := List.getElem?_eq_some_iff.mp h
    rw [List.drop_eq_getElem_cons hlt]
    rfl

/-- A loop that reads `k` characters in each iteration. -/
theorem foldl_reading {F : Loading V → Nat → Loading V} {H : Grid V → Nat → Grid V} {k n : Nat}
    (h : ∀ g i, F (g, file.drop (n + k * i)) i = (H g i, file.drop (n + k * (i + 1))))
    (m : Nat) (g : Grid V) :
    (List.range m).foldl F (g, file.drop n) =
      ((List.range m).foldl H g, file.drop (n + k * m)) := by
  induction m with
  | zero => rfl
  | succ m ih =>
    rw [List.range_succ, List.foldl_append, List.foldl_append, ih]
    exact h _ m

/-- Where the character for a cell is in the file. -/
def offset (sz : Size) (z y x : Nat) : Nat := (sz.y * (sz.x + 1) + 1) * z + (sz.x + 1) * y + x

variable [Double V]

/-- What `loadCell` does, at its place in the file. -/
def loadAt (sz : Size) (file : List UInt8) (g : Grid V) (c : Int × Int × Int) : Grid V :=
  if charAt file (offset sz c.1.toNat c.2.1.toNat c.2.2.toNat) ≠ 46 then
    setFlag sz g c.2.2 c.2.1 c.1 obstacle
  else g

theorem loadCell_at (g : Grid V) (z y x : Nat) :
    loadCell sz x y z (g, file.drop (offset sz z y x)) =
      (loadAt sz file g (z, y, x), file.drop (offset sz z y x + 1)) := by
  rw [loadCell, fgetc_drop]
  rfl

theorem forInt_zero (m : Nat) : forInt 0 m = (List.range m).map fun n : Nat => (n : Int) := by
  unfold forInt
  simp

theorem loadLine_at (g : Grid V) (z y : Nat) :
    loadLine sz y z (g, file.drop (offset sz z y 0)) =
      ((forInt 0 sz.x).foldl (fun g x => loadAt sz file g (z, y, x)) g,
        file.drop (offset sz z (y + 1) 0)) := by
  have hreads := foldl_reading (k := 1) (n := offset sz z y 0)
    (F := fun s (x : Nat) => loadCell sz x y z s) (H := fun g x => loadAt sz file g (z, y, x))
    (fun g x => by
      have hx : offset sz z y 0 + 1 * x = offset sz z y x := by simp [offset]
      rw [hx, loadCell_at]
      congr 2
      simp [offset]
      ring) sz.x g
  rw [loadLine, forInt_zero, List.foldl_map, List.foldl_map, hreads, fgetc_drop]
  congr 2
  have hnext : offset sz z y 0 + 1 * sz.x + 1 = offset sz z (y + 1) 0 := by
    unfold offset
    ring
  rw [hnext]

theorem loadLayer_at (g : Grid V) (z : Nat) :
    loadLayer sz z (g, file.drop (offset sz z 0 0)) =
      ((forInt 0 sz.y).foldl (fun g y =>
        (forInt 0 sz.x).foldl (fun g x => loadAt sz file g (z, y, x)) g) g,
        file.drop (offset sz (z + 1) 0 0)) := by
  have hreads := foldl_reading (k := sz.x + 1) (n := offset sz z 0 0)
    (F := fun s (y : Nat) => loadLine sz y z s)
    (H := fun g y => (forInt 0 sz.x).foldl (fun g x => loadAt sz file g (z, y, x)) g)
    (fun g y => by
      have hy : ∀ y, offset sz z 0 0 + (sz.x + 1) * y = offset sz z y 0 := by simp [offset]
      rw [hy, hy, loadLine_at]) sz.y g
  rw [loadLayer, forInt_zero, List.foldl_map, List.foldl_map, hreads, fgetc_drop]
  congr 2
  have hnext : offset sz z 0 0 + (sz.x + 1) * sz.y + 1 = offset sz (z + 1) 0 0 := by
    unfold offset
    ring
  rw [hnext]

/-- **The characters of the file are those of the cells**, with one after each line and layer. -/
theorem loadObstacleFile_eq (sz : Size) (file : List UInt8) (g : Grid V) :
    loadObstacleFile sz (g, file) =
      ((box sz 0 sz.z).foldl (loadAt sz file) g, file.drop (obstacleFileSize sz)) := by
  have hreads := foldl_reading (k := sz.y * (sz.x + 1) + 1) (n := 0)
    (F := fun s (z : Nat) => loadLayer sz z s)
    (H := fun g z => (forInt 0 sz.y).foldl (fun g y =>
      (forInt 0 sz.x).foldl (fun g x => loadAt sz file g (z, y, x)) g) g)
    (fun g z => by
      have hz : ∀ z, 0 + (sz.y * (sz.x + 1) + 1) * z = offset sz z 0 0 := by simp [offset]
      rw [hz, hz, loadLayer_at]) sz.z g
  rw [List.drop_zero] at hreads
  have hsize : 0 + (sz.y * (sz.x + 1) + 1) * sz.z = obstacleFileSize sz := by
    unfold obstacleFileSize
    ring
  rw [loadObstacleFile, forInt_zero, List.foldl_map, hreads, hsize]
  simp only [box, SProd.sprod, List.product, List.foldl_flatMap, List.foldl_map, forInt_zero]

theorem loadAt_confined (sz : Size) (file : List UInt8) :
    Confined (V := V) (loadAt sz file) (fun c k => k = flagsAt sz c)
      (fun c k => k = flagsAt sz c) where
  frame g c k hk := by
    unfold loadAt
    split
    · exact setFlag_off hk
    · rfl
  depends g g' c h k hk := by
    obtain rfl := hk
    have hc := h (flagsAt sz c) rfl
    unfold loadAt
    split
    · exact setFlag_congr hc obstacle
    · exact hc

end File

/-! ## The decoupled program -/

section Decoupled

variable {V : Type} [Double V] {sz : Size} {simType : SimType}

/-- **The call of `lbm-dswp.cpp` does what the one of `lbm.c` does.** -/
theorem decoupled_refines (sz : Size) (simType : SimType) :
    (decoupled (V := V) sz simType).Refines (timeStep sz simType)
      (fun g s => ∃ packets, s.Inv sz (streamSource sz simType g) g.dst packets)
      (fun _ s => s.todo sz) (25 * sz.cells + 22) where
  enter g := by
    refine ⟨⟨[], inv_init sz _ g.dst⟩, ?_⟩
    have hinit : (init sz g.dst).todo sz = 25 * sz.cells + 22 := by
      have hcells : (sweep sz (calcIndex sz 0 0 0 0)).length = sz.cells := by
        rw [sweep_eq, List.length_map, List.length_range]
      simp only [State.todo, init, MainPc.todo, WorkerPc.todo, List.length_nil, hcells]
    exact hinit.le
  step g s a s' h hs := step_inv h hs
  leave g s o' h ho := by
    obtain ⟨packets, hinv⟩ := h
    simp only [decoupled] at ho
    split at ho
    · rename_i hret
      rw [← Option.some.inj ho, hinv.dst_of_returned hret]
      rfl
    · cases ho
  progress g s h := by
    obtain ⟨packets, hinv⟩ := h
    by_cases hret : s.main = .returned
    · exact .inl ⟨⟨s.dst, streamSource sz simType g⟩, by simp only [decoupled, hret]⟩
    · obtain ⟨t, s', hs⟩ := hinv.exists_step hret
      exact .inr ⟨t, s', hs⟩

/-- **The program of `main-dswp.cpp` refines the one of `main.c`.** However the threads take turns
in any of the time steps, the grids between two steps are the sequential ones; no state before the
last one is stuck, and the number of actions is bounded. -/
theorem dswp_refines (sz : Size) (param : Param) (memory : Grids V)
    {acts : List (Call.RoundAct Thread)} {s : Call.State (Grids V) (State V)}
    (h : exec ((decoupled sz param.simType).round param.nTimeSteps.toNat)
      (Call.start (mainInitialize sz param memory)) acts = some s) :
    s.outer = grids sz param memory s.done ∧ s.done ≤ param.nTimeSteps.toNat ∧
      (¬ (s.done = param.nTimeSteps.toNat ∧ s.inner = none) →
        ∃ a s', (decoupled sz param.simType).round param.nTimeSteps.toNat s a = some s') ∧
      acts.length ≤ param.nTimeSteps.toNat * (25 * sz.cells + 24) :=
  (decoupled_refines sz param.simType).run h

theorem dswp_refines_twoSteps :
    ∃ (acts : List (Call.RoundAct Thread)) (s : Call.State (Grids Exact) (State Exact)),
      exec ((decoupled ⟨3, 3, 3⟩ .ldc).round 2)
        (Call.start (mainInitialize ⟨3, 3, 3⟩ ⟨2, .ldc, none⟩
          ⟨fun _ => 0.0, fun _ => 0.0⟩)) acts = some s ∧
      s.done = 2 ∧ s.outer = grids ⟨3, 3, 3⟩ ⟨2, .ldc, none⟩ ⟨fun _ => 0.0, fun _ => 0.0⟩ 2 ∧
      acts.length ≤ 2 * (25 * 27 + 24) := by
  obtain ⟨acts, s, h, hdone, -⟩ := (decoupled_refines (V := Exact) ⟨3, 3, 3⟩ .ldc).exists_run 2
    (mainInitialize ⟨3, 3, 3⟩ ⟨2, .ldc, none⟩ ⟨fun _ => 0.0, fun _ => 0.0⟩)
  obtain ⟨hgrids, -, -, hle⟩ := dswp_refines ⟨3, 3, 3⟩ ⟨2, .ldc, none⟩ _ h
  exact ⟨acts, s, h, hdone, hdone ▸ hgrids, hle⟩

end Decoupled

/-! ## Flags -/

section Flags

variable {V : Type} [Double V] {sz : Size} {param : Param} {g dstGrid : Grid V}
  {c : Int × Int × Int}

/-- `OBSTACLE` where the file has another character than `'.'`. -/
def fileFlags (sz : Size) (file : List UInt8) (c : Int × Int × Int) : UInt32 :=
  if (0 ≤ c.1 ∧ c.1 < sz.z) ∧ charAt file (offset sz c.1.toNat c.2.1.toNat c.2.2.toNat) ≠ 46 then
    obstacle
  else 0

/-- A closed box, with driven cells below its lids. -/
def ldcFlags (sz : Size) (x y z : Int) : UInt32 :=
  if x = 0 ∨ x = sz.x - 1 ∨ y = 0 ∨ y = sz.y - 1 ∨ z = 0 ∨ z = sz.z - 1 then obstacle
  else if (z = 1 ∨ z = sz.z - 2) ∧ x > 1 ∧ x < sz.x - 2 ∧ y > 1 ∧ y < sz.y - 2 then accel
  else 0

/-- A tube along `z`. -/
def channelFlags (sz : Size) (x y : Int) : UInt32 :=
  if x = 0 ∨ x = sz.x - 1 ∨ y = 0 ∨ y = sz.y - 1 then obstacle else 0

/-- The flags of a cell, in the program with the parameters `param`. -/
def cellFlags (sz : Size) (param : Param) (c : Int × Int × Int) : UInt32 :=
  (match param.obstacleFile with
    | none => 0
    | some file => fileFlags sz file c) |||
  match param.simType with
  | .channel => channelFlags sz c.2.2 c.2.1
  | .ldc => ldcFlags sz c.2.2 c.2.1 c.1

theorem or_and_distrib (a b f : UInt32) : (a ||| b) &&& f = (a &&& f) ||| (b &&& f) :=
  UInt32.toBitVec_inj.mp (by
    simp only [UInt32.toBitVec_and, UInt32.toBitVec_or]
    exact BitVec.and_or_distrib_right)

theorem cellFlags_inOutFlow (sz : Size) (param : Param) (c : Int × Int × Int) :
    cellFlags sz param c &&& inOutFlow = 0 := by
  have hfile : ∀ file, fileFlags sz file c &&& inOutFlow = 0 := by
    intro file
    unfold fileFlags
    split_ifs <;> rfl
  have hldc : ldcFlags sz c.2.2 c.2.1 c.1 &&& inOutFlow = 0 := by
    unfold ldcFlags
    split_ifs <;> rfl
  have hchannel : channelFlags sz c.2.2 c.2.1 &&& inOutFlow = 0 := by
    unfold channelFlags
    split_ifs <;> rfl
  unfold cellFlags
  rw [or_and_distrib]
  cases param.obstacleFile <;> cases param.simType <;> simp only [hfile, hldc, hchannel] <;> rfl

/-- The grid has the flags of the program. -/
def HasFlags (sz : Size) (param : Param) (g : Grid V) : Prop :=
  ∀ c ∈ box sz (-2) (sz.z + 2), Arith.magicCast (g (flagsAt sz c)) = cellFlags sz param c

theorem mem_initializeSweep (hc : c ∈ box sz (-2) (sz.z + 2)) :
    calcIndex sz c.2.2 c.2.1 c.1 0 ∈ initializeSweep sz := by
  obtain ⟨hz, hbox⟩ := mem_box.mp hc
  have hb := hbox.calcIndex_bounds hz (show (0 : Int) ≤ 0 ∧ (0 : Int) < 20 by decide)
  refine mem_sweepTo.mpr ⟨hb.1, hb.2, ?_⟩
  refine ⟨(c.2.2 + c.2.1 * sz.x + c.1 * sz.x * sz.y - (-2) * sz.x * sz.y).toNat, ?_⟩
  unfold calcIndex nCellEntries at hb ⊢
  omega

theorem flags_initializeGrid (g : Grid V) (hc : c ∈ box sz (-2) (sz.z + 2)) :
    Arith.magicCast (initializeGrid sz g (flagsAt sz c)) = 0 := by
  have hflags : flagsAt sz c = calcIndex sz c.2.2 c.2.1 c.1 0 + flags := by
    unfold flagsAt calcIndex
    omega
  rw [initializeGrid, foldl_at (initializeCell_confined sz) (initializeSweep_independent sz)
    (mem_initializeSweep hc) (by rw [hflags]; unfold flags; omega), hflags, initializeCell,
    clearAllFlagsSweep, gridEntrySweep_zero, Function.update_self, magicCast_setMagicCast]

theorem flags_load (file : List UInt8) (g : Grid V) (hc : c ∈ box sz (-2) (sz.z + 2)) :
    Arith.magicCast ((loadObstacleFile sz (g, file)).1 (flagsAt sz c)) =
      Arith.magicCast (g (flagsAt sz c)) ||| fileFlags sz file c := by
  obtain ⟨-, hbox⟩ := mem_box.mp hc
  simp only [loadObstacleFile_eq]
  unfold fileFlags
  by_cases hz : 0 ≤ c.1 ∧ c.1 < sz.z
  · rw [foldl_at (loadAt_confined sz file) (box_independent sz _ _) (mem_box.mpr ⟨hz, hbox⟩) rfl,
      loadAt]
    simp only [hz, true_and]
    split_ifs
    · exact setFlag_at sz g _ _ _ _
    · rw [UInt32.or_zero]
  · rw [foldl_off (loadAt_confined sz file), if_neg fun h => hz h.1, UInt32.or_zero]
    intro c' hc' hk
    obtain ⟨hz', hbox'⟩ := mem_box.mp hc'
    exact hz ((flagsAt_inj hbox hbox' hk) ▸ hz')

theorem flags_ldc (g : Grid V) (hc : c ∈ box sz (-2) (sz.z + 2)) :
    Arith.magicCast (initializeSpecialCellsForLDC sz g (flagsAt sz c)) =
      Arith.magicCast (g (flagsAt sz c)) ||| ldcFlags sz c.2.2 c.2.1 c.1 := by
  rw [initializeSpecialCellsForLDC, forCells_eq,
    foldl_at (specialCellForLDC_confined sz) (box_independent sz _ _) hc rfl]
  unfold specialCellForLDC ldcFlags
  split_ifs
  · exact setFlag_at sz g _ _ _ _
  · exact setFlag_at sz g _ _ _ _
  · rw [UInt32.or_zero]

theorem flags_channel (g : Grid V) (hc : c ∈ box sz (-2) (sz.z + 2)) :
    Arith.magicCast (initializeSpecialCellsForChannel sz g (flagsAt sz c)) =
      Arith.magicCast (g (flagsAt sz c)) ||| channelFlags sz c.2.2 c.2.1 := by
  rw [initializeSpecialCellsForChannel, forCells_eq,
    foldl_at (specialCellForChannel_confined sz) (box_independent sz _ _) hc rfl,
    specialCellForChannel_eq]
  unfold channelFlags
  split_ifs
  · exact setFlag_at sz g _ _ _ _
  · rw [UInt32.or_zero]

theorem hasFlags_initializeOne (sz : Size) (param : Param) (memory : Grid V) :
    HasFlags sz param (initializeOne sz param memory) := by
  intro c hc
  unfold initializeOne cellFlags
  cases param.obstacleFile with
  | none =>
    cases param.simType with
    | channel => rw [flags_channel _ hc, flags_initializeGrid _ hc]
    | ldc => rw [flags_ldc _ hc, flags_initializeGrid _ hc]
  | some file =>
    cases param.simType with
    | channel => rw [flags_channel _ hc, flags_load _ _ hc, flags_initializeGrid _ hc, UInt32.zero_or]
    | ldc => rw [flags_ldc _ hc, flags_load _ _ hc, flags_initializeGrid _ hc, UInt32.zero_or]

/-- An entry of a cell is not the flags of any. -/
theorem flagsAt_ne (n : Int) (c : Int × Int × Int) (e : CellEntry) :
    flagsAt sz c ≠ nCellEntries * n + e.val := by
  intro h
  have hval : e.val < 19 := by cases e <;> decide
  have hpos := e.val_bounds
  unfold flagsAt calcIndex flags nCellEntries at h
  omega

theorem HasFlags.performStreamCollide (h : HasFlags sz param dstGrid) (srcGrid : Grid V) :
    HasFlags sz param (performStreamCollide sz srcGrid dstGrid) := by
  intro c hc
  rw [performStreamCollide_off, h c hc]
  intro i hi e he
  obtain ⟨n, -, rfl⟩ := mem_sweep.mp hi
  refine flagsAt_ne (n + (e.dx + e.dy * sz.x + e.dz * sz.x * sz.y)) c e (he.trans ?_)
  unfold dst gridEntrySweep calcIndex
  ring

theorem HasFlags.setEntries {l : List Int} {v : Grid V → Int → CellEntry → V}
    (hl : ∀ i ∈ l, ∃ n : Int, i = nCellEntries * n) (h : HasFlags sz param g) :
    HasFlags sz param (l.foldl (fun g i => Lbm.setEntries sz g i (v g i)) g) := by
  induction l generalizing g with
  | nil => exact h
  | cons i l ih =>
    refine ih (fun i hi => hl i (List.mem_cons_of_mem _ hi)) fun c hc => ?_
    obtain ⟨n, rfl⟩ := hl i List.mem_cons_self
    have hoff : Lbm.setEntries sz g (nCellEntries * n) (v g (nCellEntries * n)) (flagsAt sz c) =
        g (flagsAt sz c) := setEntries_off (flagsAt_ne n c)
    show Arith.magicCast (Lbm.setEntries sz g _ _ (flagsAt sz c)) = _
    rw [hoff, h c hc]

theorem HasFlags.handleInOutFlow (h : HasFlags sz param g) :
    HasFlags sz param (handleInOutFlow sz g) := by
  refine HasFlags.setEntries (fun i hi => ?_) (HasFlags.setEntries (fun i hi => ?_) h)
  · obtain ⟨-, -, n, rfl⟩ := mem_sweepTo.mp hi
    exact ⟨(sz.z - 1) * sz.x * sz.y + n, by unfold calcIndex; ring⟩
  · obtain ⟨-, -, n, rfl⟩ := mem_sweepTo.mp hi
    exact ⟨n, by unfold calcIndex; ring⟩

theorem HasFlags.timeStep {gs : Grids V} (simType : SimType)
    (h : HasFlags sz param gs.src ∧ HasFlags sz param gs.dst) :
    HasFlags sz param (timeStep sz simType gs).src ∧
      HasFlags sz param (timeStep sz simType gs).dst := by
  refine ⟨h.2.performStreamCollide _, ?_⟩
  cases simType with
  | channel => exact h.1.handleInOutFlow
  | ldc => exact h.1

theorem hasFlags_grids (sz : Size) (param : Param) (memory : Grids V) (t : Nat) :
    HasFlags sz param (grids sz param memory t).src ∧
      HasFlags sz param (grids sz param memory t).dst := by
  induction t with
  | zero => exact ⟨hasFlags_initializeOne sz param _, hasFlags_initializeOne sz param _⟩
  | succ t ih =>
    unfold grids at ih ⊢
    rw [Function.iterate_succ_apply']
    exact HasFlags.timeStep param.simType ih

/-- **Flags are constant.** In either grid, after any number of time steps, a cell has the flags of
the program, and in no cell is `IN_OUT_FLOW` ever set. -/
theorem flags_run (sz : Size) (param : Param) (memory : Grids V) (t : Nat) {x y z : Int}
    (hcell : InBox sz x y) (hz : -2 ≤ z ∧ z < sz.z + 2) :
    Arith.magicCast ((grids sz param memory t).src (calcIndex sz x y z flags)) =
        cellFlags sz param (z, y, x) ∧
      Arith.magicCast ((grids sz param memory t).dst (calcIndex sz x y z flags)) =
        cellFlags sz param (z, y, x) ∧
      testFlag sz (grids sz param memory t).src x y z inOutFlow = false := by
  have hc : (z, y, x) ∈ box sz (-2) (sz.z + 2) := mem_box.mpr ⟨hz, hcell⟩
  obtain ⟨hsrc, hdst⟩ := hasFlags_grids sz param memory t
  refine ⟨hsrc _ hc, hdst _ hc, ?_⟩
  have hflags : Arith.magicCast ((grids sz param memory t).src (calcIndex sz x y z flags)) =
      cellFlags sz param (z, y, x) := hsrc _ hc
  rw [testFlag, hflags, cellFlags_inOutFlow]
  rfl

theorem flags_run_corner :
    Arith.magicCast ((grids ⟨4, 4, 4⟩ ⟨9, .channel, none⟩ (⟨fun _ => 0.0, fun _ => 0.0⟩ : Grids Exact)
        9).src (calcIndex ⟨4, 4, 4⟩ 0 0 0 flags)) =
        cellFlags ⟨4, 4, 4⟩ ⟨9, .channel, none⟩ (0, 0, 0) ∧
      Arith.magicCast ((grids ⟨4, 4, 4⟩ ⟨9, .channel, none⟩
        (⟨fun _ => 0.0, fun _ => 0.0⟩ : Grids Exact) 9).dst (calcIndex ⟨4, 4, 4⟩ 0 0 0 flags)) =
        cellFlags ⟨4, 4, 4⟩ ⟨9, .channel, none⟩ (0, 0, 0) ∧
      testFlag ⟨4, 4, 4⟩ (grids ⟨4, 4, 4⟩ ⟨9, .channel, none⟩
        (⟨fun _ => 0.0, fun _ => 0.0⟩ : Grids Exact) 9).src 0 0 0 inOutFlow = false :=
  flags_run ⟨4, 4, 4⟩ ⟨9, .channel, none⟩ _ 9 ⟨by decide, by decide⟩ (by decide)

theorem HasFlags.testFlagSweep (h : HasFlags sz param g) {x y z : Int} (hcell : InBox sz x y)
    (hz : 0 ≤ z ∧ z < sz.z) (f : UInt32) :
    testFlagSweep sz g f (calcIndex sz x y z 0) = (cellFlags sz param (z, y, x) &&& f != 0) := by
  have hc : (z, y, x) ∈ box sz (-2) (sz.z + 2) := mem_box.mpr ⟨by simp only; omega, hcell⟩
  have hlocal : localEntry sz g flags (calcIndex sz x y z 0) = g (flagsAt sz (z, y, x)) := by
    rw [localEntry, gridEntrySweep_zero]
    congr 1
    unfold flagsAt calcIndex
    ring
  rw [Lbm.testFlagSweep, hlocal, h _ hc]

/-! ## A file of the expected size -/

/-- The place of a cell's character is in a file of the expected size. -/
theorem offset_lt {z y x : Nat} (hx : x < sz.x) (hy : y < sz.y) (hz : z < sz.z) :
    offset sz z y x < obstacleFileSize sz := by
  have hline : (sz.x + 1) * y + x < sz.y * (sz.x + 1) := by
    calc (sz.x + 1) * y + x < (sz.x + 1) * y + (sz.x + 1) := by omega
      _ = (y + 1) * (sz.x + 1) := by ring
      _ ≤ sz.y * (sz.x + 1) := Nat.mul_le_mul_right _ hy
  have hlayer : (sz.y * (sz.x + 1) + 1) * (z + 1) ≤ (sz.y * (sz.x + 1) + 1) * sz.z :=
    Nat.mul_le_mul_left _ hz
  have hsize : obstacleFileSize sz = (sz.y * (sz.x + 1) + 1) * sz.z := by
    unfold obstacleFileSize
    ring
  rw [Nat.mul_add, Nat.mul_one] at hlayer
  unfold offset
  omega

theorem offset_inj {z y x z' y' x' : Nat} (hx : x < sz.x) (hy : y < sz.y) (hx' : x' < sz.x)
    (hy' : y' < sz.y) (h : offset sz z y x = offset sz z' y' x') : z = z' ∧ y = y' ∧ x = x' := by
  have hline : ∀ x y : Nat, x < sz.x → y < sz.y → (sz.x + 1) * y + x < sz.y * (sz.x + 1) + 1 := by
    intro x y hx hy
    have hmul : (y + 1) * (sz.x + 1) ≤ sz.y * (sz.x + 1) := Nat.mul_le_mul_right _ hy
    have hexpand : (y + 1) * (sz.x + 1) = (sz.x + 1) * y + sz.x + 1 := by ring
    omega
  have hoffset : ((sz.x + 1) * y + x) + (sz.y * (sz.x + 1) + 1) * z =
      ((sz.x + 1) * y' + x') + (sz.y * (sz.x + 1) + 1) * z' := by
    unfold offset at h
    omega
  have hl := hline x y hx hy
  have hl' := hline x' y' hx' hy'
  obtain ⟨hrow, hz⟩ := eq_of_add_mul_eq (n := ((sz.y * (sz.x + 1) + 1 : Nat) : Int))
    ⟨Int.natCast_nonneg _, Int.ofNat_lt.mpr hl⟩ ⟨Int.natCast_nonneg _, Int.ofNat_lt.mpr hl'⟩
    (by exact_mod_cast hoffset : (((sz.x + 1) * y + x : Nat) : Int) + _ * (z : Int) =
      (((sz.x + 1) * y' + x' : Nat) : Int) + _ * (z' : Int))
  have hcell : x + (sz.x + 1) * y = x' + (sz.x + 1) * y' := by
    have hrow' : (sz.x + 1) * y + x = (sz.x + 1) * y' + x' := by exact_mod_cast hrow
    omega
  obtain ⟨hx, hy⟩ := eq_of_add_mul_eq (n := ((sz.x + 1 : Nat) : Int))
    (show 0 ≤ (x : Int) ∧ (x : Int) < _ by omega) (show 0 ≤ (x' : Int) ∧ (x' : Int) < _ by omega)
    (by exact_mod_cast hcell : (x : Int) + _ * (y : Int) = (x' : Int) + _ * (y' : Int))
  exact ⟨by exact_mod_cast hz, by exact_mod_cast hy, by exact_mod_cast hx⟩

/-- Two rows, with an obstacle at the start of one and at the end of the other. -/
def twoRows : List UInt8 := [35, 46, 10, 46, 35, 10, 10]

theorem counts_fold (sz : Size) (g : Grid V) (l : List Int) (st : GridStatistics V) :
    (l.foldl (noteCell sz g) st).nObstacleCells =
        st.nObstacleCells + l.countP (Lbm.testFlagSweep sz g obstacle) ∧
      (l.foldl (noteCell sz g) st).nAccelCells = st.nAccelCells +
        l.countP (fun i => !Lbm.testFlagSweep sz g obstacle i && Lbm.testFlagSweep sz g accel i) ∧
      (l.foldl (noteCell sz g) st).nObstacleCells + (l.foldl (noteCell sz g) st).nAccelCells +
          (l.foldl (noteCell sz g) st).nFluidCells =
        st.nObstacleCells + st.nAccelCells + st.nFluidCells + l.length := by
  induction l generalizing st with
  | nil => exact ⟨rfl, rfl, rfl⟩
  | cons i l ih =>
    obtain ⟨hobstacle, haccel, hall⟩ := ih (noteCell sz g st i)
    rw [List.foldl_cons, hobstacle, haccel, List.countP_cons, List.countP_cons, List.length_cons]
    rw [hobstacle, haccel] at hall
    rw [hall]
    unfold noteCell
    cases Lbm.testFlagSweep sz g obstacle i
    · cases Lbm.testFlagSweep sz g accel i
      · simp
        omega
      · simp
        omega
    · simp
      omega

theorem counts_show (sz : Size) (g : Grid V) :
    (showGridStatistics sz g).nObstacleCells =
        (sweep sz (calcIndex sz 0 0 0 0)).countP (Lbm.testFlagSweep sz g obstacle) ∧
      (showGridStatistics sz g).nAccelCells = (sweep sz (calcIndex sz 0 0 0 0)).countP
        (fun i => !Lbm.testFlagSweep sz g obstacle i && Lbm.testFlagSweep sz g accel i) ∧
      (showGridStatistics sz g).nObstacleCells + (showGridStatistics sz g).nAccelCells +
        (showGridStatistics sz g).nFluidCells = sz.cells := by
  have hlength : (sweep sz (calcIndex sz 0 0 0 0)).length = sz.cells := by
    rw [sweep_eq, List.length_map, List.length_range]
  obtain ⟨hobstacle, haccel, hall⟩ := counts_fold sz g (sweep sz (calcIndex sz 0 0 0 0))
    ⟨0, 0, 0, 1e+30, -1e+30, Double.ofInt 0, 1e+30, -1e+30⟩
  unfold showGridStatistics
  refine ⟨?_, ?_, ?_⟩
  · rw [hobstacle, zero_add]
  · rw [haccel, zero_add]
  · rw [hall, hlength, zero_add, zero_add, zero_add]

/-- The counts depend on the flags only. -/
theorem HasFlags.counts {g' : Grid V} (h : HasFlags sz param g) (h' : HasFlags sz param g') :
    (showGridStatistics sz g).nObstacleCells = (showGridStatistics sz g').nObstacleCells ∧
      (showGridStatistics sz g).nAccelCells = (showGridStatistics sz g').nAccelCells ∧
      (showGridStatistics sz g).nFluidCells = (showGridStatistics sz g').nFluidCells := by
  have htest : ∀ f, ∀ i ∈ sweep sz (calcIndex sz 0 0 0 0),
      Lbm.testFlagSweep sz g f i = Lbm.testFlagSweep sz g' f i := by
    intro f i hi
    obtain ⟨n, hn, rfl⟩ := mem_sweep.mp hi
    obtain ⟨x, y, z, hcell, hz, hindex⟩ := exists_calcIndex hn
    rw [hindex, h.testFlagSweep hcell hz, h'.testFlagSweep hcell hz]
  obtain ⟨hobstacle, haccel, hall⟩ := counts_show sz g
  obtain ⟨hobstacle', haccel', hall'⟩ := counts_show sz g'
  have hobstacles : (showGridStatistics sz g).nObstacleCells =
      (showGridStatistics sz g').nObstacleCells := by
    rw [hobstacle, hobstacle']
    exact List.countP_congr fun i hi => by rw [htest obstacle i hi]
  have haccels : (showGridStatistics sz g).nAccelCells =
      (showGridStatistics sz g').nAccelCells := by
    rw [haccel, haccel']
    exact List.countP_congr fun i hi => by simp only [htest obstacle i hi, htest accel i hi]
  exact ⟨hobstacles, haccels, by omega⟩

/-- **The numbers of cells that the program prints** are the same whenever it prints them, and add
up to the number of cells. -/
theorem counts_run (sz : Size) (param : Param) (memory : Grids V) (t : Nat) :
    let st := showGridStatistics sz (grids sz param memory t).src
    let st₀ := showGridStatistics sz (mainInitialize sz param memory).src
    st.nObstacleCells = st₀.nObstacleCells ∧ st.nAccelCells = st₀.nAccelCells ∧
      st.nFluidCells = st₀.nFluidCells ∧
      st.nObstacleCells + st.nAccelCells + st.nFluidCells = sz.x * sz.y * sz.z := by
  have hsrc := (hasFlags_grids sz param memory t).1
  have hsrc₀ : HasFlags sz param (mainInitialize sz param memory).src :=
    hasFlags_initializeOne sz param memory.src
  obtain ⟨hobstacles, haccels, hfluids⟩ := hsrc.counts hsrc₀
  exact ⟨hobstacles, haccels, hfluids, (counts_show sz _).2.2⟩

end Flags

end Lbm

end IcsaDswp
