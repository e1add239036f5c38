import IcsaDswp.LbmMain
import IcsaDswp.Lib.Binary32
import IcsaDswp.Lib.Scalar

/-!
# The result file

`LBM_storeVelocityField` writes the velocities in the cells to a binary file, and
`LBM_compareVelocityField` holds a grid against such a file. The numbers in the file have one byte
order, whatever the machine is: a file that one machine has stored is read back by any other
(`velocityField_read`). The two functions do not compute the same: one divides floats and the other
doubles. The difference stays below what the comparison accepts (`Rounding.verdict_eq`). The indices
of the grids are taken to fit into `int`.
-/

namespace IcsaDswp

open Lib

namespace Lbm

/-- `OUTPUT_PRECISION`, beside `double`. -/
class OutputPrecision (F : Type) (V : outParam Type) extends Add F, Mul F, Div F where
  scalar : Scalar UInt8 F
  /-- The conversion of a `double`. -/
  ofDouble : V → F
  toDouble : F → V
  /-- `<`. -/
  lt : F → F → Bool
  /-- The `sqrt` of C. -/
  sqrt : V → V
  /-- The overload of `sqrt` that C++ has for `OUTPUT_PRECISION`. -/
  sqrtOverload : F → F

export OutputPrecision (ofDouble toDouble)

/-- `*((unsigned char*) &litteBigEndianTest)`, of an `int` that is one. -/
def litteBigEndianTest (order : ByteOrder) : UInt8 := (order.object [1, 0, 0, 0]).headD 0

/-- The velocity in a cell. -/
structure Velocity (F : Type) where
  ux : F
  uy : F
  uz : F

section Values

variable {V F : Type} [OutputPrecision F V]

variable (F) in
/-- `sizeof(OUTPUT_PRECISION)` -/
def outputSize : Nat := (OutputPrecision.scalar (F := F)).size

def storeValue (order : ByteOrder) (file : List UInt8) (v : F) : List UInt8 :=
  let vPtr := order.object (OutputPrecision.scalar.bytes v)
  if litteBigEndianTest order = 0 then
    -- whatever is in `buffer` is overwritten
    let buffer := List.replicate (outputSize F) 0
    file ++ turnRound (outputSize F) vPtr buffer
  else file ++ vPtr

/-- `loadValue`: what it makes of `*v`, and the rest of the file. -/
def loadValue (order : ByteOrder) (file : List UInt8) : Option (F × List UInt8) :=
  (fread (outputSize F) file).map fun (buffer, file) =>
    let vPtr :=
      if litteBigEndianTest order = 0 then
        turnRound (outputSize F) buffer (List.replicate (outputSize F) 0)
      else buffer
    (OutputPrecision.scalar.ofBytes (order.object vPtr), file)

def storeVelocity (order : ByteOrder) (file : List UInt8) (u : Velocity F) : List UInt8 :=
  let file := storeValue order file u.ux
  let file := storeValue order file u.uy
  storeValue order file u.uz

def loadVelocity (order : ByteOrder) (file : List UInt8) : Option (Velocity F × List UInt8) := do
  let (fileUx, file) ← loadValue order file
  let (fileUy, file) ← loadValue order file
  let (fileUz, file) ← loadValue order file
  some (⟨fileUx, fileUy, fileUz⟩, file)

/-- **The bytes in the file are in one order.** -/
theorem storeValue_eq (order : ByteOrder) (file : List UInt8) (v : F) :
    storeValue order file v = file ++ OutputPrecision.scalar.bytes v := by
  unfold storeValue
  cases order with
  | little => rfl
  | big =>
    have hlength : (ByteOrder.big.object (OutputPrecision.scalar.bytes v)).length =
        outputSize F := by
      rw [ByteOrder.length_object, OutputPrecision.scalar.length_bytes]
      rfl
    have hbytes := turnRound_eq hlength (List.length_replicate (a := (0 : UInt8)))
    simp only [litteBigEndianTest, ByteOrder.object] at hbytes ⊢
    rw [hbytes, List.reverse_reverse]
    rfl

theorem loadValue_eq (order : ByteOrder) (file : List UInt8) :
    loadValue (F := F) order file =
      (fread (outputSize F) file).map fun r => (OutputPrecision.scalar.ofBytes r.1, r.2) := by
  by_cases hlong : outputSize F ≤ file.length
  · have hbytes := turnRound_eq (List.length_take_of_le hlong)
      (List.length_replicate (a := (0 : UInt8)))
    simp only [loadValue, fread, if_pos hlong, Option.map_some]
    cases order with
    | little => rfl
    | big =>
      simp only [litteBigEndianTest, ByteOrder.object, hbytes]
      rw [if_pos (by rfl), List.reverse_reverse]
  · simp only [loadValue, fread, if_neg hlong, Option.map_none]

theorem loadValue_bytes (order : ByteOrder) (v : F) (rest : List UInt8) :
    loadValue order (OutputPrecision.scalar.bytes v ++ rest) = some (v, rest) := by
  have hlength : (OutputPrecision.scalar.bytes v).length = outputSize F :=
    OutputPrecision.scalar.length_bytes v
  rw [loadValue_eq, fread_append hlength, Option.map_some]
  exact congrArg (fun v => some (v, rest)) (OutputPrecision.scalar.ofBytes_bytes v)

/-- The bytes of a velocity in the file. -/
def Velocity.bytes (u : Velocity F) : List UInt8 :=
  OutputPrecision.scalar.bytes u.ux ++ OutputPrecision.scalar.bytes u.uy ++
    OutputPrecision.scalar.bytes u.uz

theorem Velocity.length_bytes (u : Velocity F) : u.bytes.length = 3 * outputSize F := by
  simp only [bytes, List.length_append, OutputPrecision.scalar.length_bytes, outputSize]
  omega

theorem storeVelocity_eq (order : ByteOrder) (file : List UInt8) (u : Velocity F) :
    storeVelocity order file u = file ++ u.bytes := by
  simp only [storeVelocity, storeValue_eq, Velocity.bytes, List.append_assoc]

theorem loadVelocity_bytes (order : ByteOrder) (u : Velocity F) (rest : List UInt8) :
    loadVelocity order (u.bytes ++ rest) = some (u, rest) := by
  simp only [loadVelocity, Velocity.bytes, List.append_assoc, loadValue_bytes, Option.bind_eq_bind,
    Option.bind_some]

theorem takes_loadVelocity (order : ByteOrder) :
    Takes (loadVelocity (F := F) order) (3 * outputSize F) := by
  have hvalue : Takes (loadValue (F := F) order) (outputSize F) := by
    intro file
    rw [← takes_fread _ file, loadValue, Option.map_map]
    rfl
  have hend : ∀ u : Velocity F, Takes (fun file : List UInt8 => some (u, file)) 0 := by
    intro u file
    rfl
  have hthree : 3 * outputSize F = outputSize F + (outputSize F + (outputSize F + 0)) := by omega
  rw [hthree]
  exact hvalue.bind fun ux => hvalue.bind fun uy => hvalue.bind fun uz => hend ⟨ux, uy, uz⟩

end Values

/-! ## The fields -/

section Field

variable {V : Type} [Double V] (F : Type) [OutputPrecision F V]

/-- `GRID_ENTRY`, of the cell at `c`, which is `(z, y, x)`. -/
def gridEntry (sz : Size) (grid : Grid V) (c : Int × Int × Int) (e : CellEntry) : V :=
  grid (calcIndex sz c.2.2 c.2.1 c.1 e.val)

/-- What `LBM_storeVelocityField` computes in a cell, with floats. -/
def storedVelocity (s : CellEntry → V) : Velocity F :=
  let rho : F := ofDouble (rho s)
  ⟨ofDouble (ux s) / rho, ofDouble (uy s) / rho, ofDouble (uz s) / rho⟩

def storeVelocityField (sz : Size) (order : ByteOrder) (grid : Grid V) : List UInt8 :=
  (box sz 0 sz.z).foldl (fun file c =>
    storeVelocity order file (storedVelocity F (gridEntry sz grid c))) []

variable {F} in
/-- `diff2`, of what `LBM_compareVelocityField` computes in a cell and what it has loaded. -/
def diff2 (s : CellEntry → V) (file : Velocity F) : F :=
  let rho := rho s
  let ux := ux s / rho
  let uy := uy s / rho
  let uz := uz s / rho
  let dUx : F := ofDouble (ux - toDouble file.ux)
  let dUy : F := ofDouble (uy - toDouble file.uy)
  let dUz : F := ofDouble (uz - toDouble file.uz)
  dUx * dUx + dUy * dUy + dUz * dUz

variable {F} in
/-- `if (diff2 > maxDiff2) maxDiff2 = diff2;` -/
def noteDiff (maxDiff2 diff2 : F) : F :=
  if OutputPrecision.lt maxDiff2 diff2 then diff2 else maxDiff2

/-- `LBM_compareVelocityField`: `maxDiff2`, and the rest of the file. -/
def compareVelocityField (sz : Size) (order : ByteOrder) (grid : Grid V) (file : List UInt8) :
    Option (F × List UInt8) :=
  (box sz 0 sz.z).foldlM (fun s c =>
    (loadVelocity order s.2).map fun (u, file) =>
      (noteDiff s.1 (diff2 (gridEntry sz grid c) u), file)) (ofDouble (-1e+30), file)

/-- The two programs. -/
inductive Program where
  /-- `main.c` with `lbm.c`. -/
  | c
  /-- `main-dswp.cpp` with `lbm-dswp.cpp`. -/
  | cpp
  deriving DecidableEq

variable {F} in
/-- `sqrt( maxDiff2 )`, as it is compared with a `double`. -/
def sqrtMaxDiff2 : Program → F → V
  | .c, maxDiff2 => OutputPrecision.sqrt F (toDouble maxDiff2)
  | .cpp, maxDiff2 => toDouble (OutputPrecision.sqrtOverload maxDiff2)

variable {F} in
/-- What `LBM_compareVelocityField` prints of `maxDiff2`. -/
def verdict (program : Program) (maxDiff2 : F) : String :=
  if Double.lt (1e-5 : V) (sqrtMaxDiff2 program maxDiff2) then "##### ERROR #####" else "OK"

theorem length_box (sz : Size) : (box sz 0 sz.z).length = sz.cells := by
  simp only [box, List.length_product, forInt, List.length_map, List.length_range, Int.sub_zero,
    Int.toNat_natCast, Size.cells]
  ring

theorem storeVelocityField_eq (sz : Size) (order : ByteOrder) (grid : Grid V) :
    storeVelocityField F sz order grid =
      (box sz 0 sz.z).flatMap fun c => (storedVelocity F (gridEntry sz grid c)).bytes := by
  simp only [storeVelocityField, storeVelocity_eq]
  rw [foldl_write, List.nil_append]

variable {F} in
/-- `maxDiff2`, where the velocities in the file are `u`. -/
def maxDiff2 (sz : Size) (grid : Grid V) (u : Int × Int × Int → Velocity F) : F :=
  (box sz 0 sz.z).foldl (fun m c => noteDiff m (diff2 (gridEntry sz grid c) (u c)))
    (ofDouble (-1e+30))

theorem compareVelocityField_store (sz : Size) (order order' : ByteOrder) (grid grid' : Grid V) :
    compareVelocityField F sz order' grid' (storeVelocityField F sz order grid) =
      some (maxDiff2 sz grid' fun c => storedVelocity F (gridEntry sz grid c), []) := by
  have hload : ∀ (c : Int × Int × Int) (rest : List UInt8),
      loadVelocity order' ((storedVelocity F (gridEntry sz grid c)).bytes ++ rest) =
        some (storedVelocity F (gridEntry sz grid c), rest) :=
    fun c rest => loadVelocity_bytes order' _ rest
  rw [storeVelocityField_eq, compareVelocityField]
  have hread := foldlM_read hload (fun m c u => noteDiff m (diff2 (gridEntry sz grid' c) u))
    (box sz 0 sz.z) (ofDouble (-1e+30)) []
  rw [List.append_nil] at hread
  exact hread

theorem isSome_compareVelocityField (sz : Size) (order : ByteOrder) (grid : Grid V)
    (file : List UInt8) :
    (compareVelocityField F sz order grid file).isSome ↔
      3 * outputSize F * sz.cells ≤ file.length := by
  have htakes := takes_foldlM (takes_loadVelocity order)
    (fun m c (u : Velocity F) => noteDiff m (diff2 (gridEntry sz grid c) u)) (box sz 0 sz.z)
    (ofDouble (-1e+30)) file
  rw [length_box] at htakes
  rw [← Option.isSome_map (f := Prod.snd)]
  refine (congrArg (fun o => Option.isSome o = true) htakes).to_iff.trans ?_
  split_ifs with hlong
  · exact iff_of_true rfl hlong
  · exact iff_of_false (by simp) hlong

/-- **Any machine reads the file of any other**: it does not depend on the byte order of the writer,
and the reader gets the velocities that were stored and comes to the end of it. Of other files, those
can be compared that are at least as long. -/
theorem velocityField_read (sz : Size) (order order' : ByteOrder) (grid grid' : Grid V) :
    (storeVelocityField F sz order grid).length = 3 * outputSize F * sz.cells ∧
      storeVelocityField F sz order grid = storeVelocityField F sz order' grid ∧
      compareVelocityField F sz order' grid' (storeVelocityField F sz order grid) =
        some (maxDiff2 sz grid' fun c => storedVelocity F (gridEntry sz grid c), []) ∧
      ∀ file, (compareVelocityField F sz order' grid' file).isSome ↔
        3 * outputSize F * sz.cells ≤ file.length := by
  refine ⟨?_, ?_, compareVelocityField_store F sz order order' grid grid',
    isSome_compareVelocityField F sz order' grid'⟩
  · rw [storeVelocityField_eq, List.length_flatMap]
    simp only [Velocity.length_bytes, List.map_const', List.sum_replicate, length_box, smul_eq_mul]
    ring
  · rw [storeVelocityField_eq, storeVelocityField_eq]

end Field

/-! ## Rounding -/

/-- What is relied on of the two arithmetics, where `val` and `valF` are the numbers that finite
values stand for: results in the range are rounded, and `sqrt` is not far off. -/
structure Rounding {V F : Type} [Double V] [OutputPrecision F V] (val : V → Option ℚ)
    (valF : F → Option ℚ) : Prop where
  sub : ∀ {a b x y}, val a = some x → val b = some y → |x - y| ≤ fltBound →
    Gives (val (a - b)) (x - y)
  div : ∀ {a b x y}, val a = some x → val b = some y → y ≠ 0 → |x / y| ≤ fltBound →
    Gives (val (a / b)) (x / y)
  lt : ∀ {a b x y}, val a = some x → val b = some y → (Double.lt a b = true ↔ x < y)
  lowest : Gives (val (-1e+30 : V)) (-10 ^ 30)
  limit : Gives (val (1e-5 : V)) (1 / 10 ^ 5)
  addF : ∀ {a b x y}, valF a = some x → valF b = some y → |x + y| ≤ fltBound →
    Gives (valF (a + b)) (x + y)
  mulF : ∀ {a b x y}, valF a = some x → valF b = some y → |x * y| ≤ fltBound →
    Gives (valF (a * b)) (x * y)
  divF : ∀ {a b x y}, valF a = some x → valF b = some y → y ≠ 0 → |x / y| ≤ fltBound →
    Gives (valF (a / b)) (x / y)
  ltF : ∀ {a b x y}, valF a = some x → valF b = some y → (OutputPrecision.lt a b = true ↔ x < y)
  narrow : ∀ {a x}, val a = some x → |x| ≤ fltBound → Gives (valF (ofDouble a : F)) x
  widen : ∀ {a x}, valF a = some x → val (toDouble a) = some x
  sqrt : ∀ {a x}, val a = some x → 0 ≤ x →
    ∃ r, val (OutputPrecision.sqrt F a) = some r ∧ 0 ≤ r ∧ r * r ≤ 2 * x
  sqrtOverload : ∀ {a x}, valF a = some x → 0 ≤ x → x ≤ 1 →
    ∃ q, 0 ≤ q ∧ q * q ≤ 2 * x ∧ Gives (valF (OutputPrecision.sqrtOverload a)) q

/-- The sums of a cell are in the range of floats, and nothing is faster than the lattice. -/
structure Moderate {V : Type} [Double V] (val : V → Option ℚ) (s : CellEntry → V) : Prop where
  cell : ∃ r x y z, (val (rho s) = some r ∧ 1 / 2 ^ 100 ≤ r ∧ r ≤ 2 ^ 100) ∧
    (val (ux s) = some x ∧ |x| ≤ r) ∧ (val (uy s) = some y ∧ |y| ≤ r) ∧
    val (uz s) = some z ∧ |z| ≤ r

section Rounding

variable {V F : Type} [Double V] [OutputPrecision F V] {val : V → Option ℚ} {valF : F → Option ℚ}
  {sz : Size} {a b : V} {x r : ℚ}

/-- The difference between a component that is stored and the one that is compared with it. -/
theorem Rounding.component (h : Rounding val valF) (hb : val b = some r) (hr : 1 / 2 ^ 100 ≤ r)
    (hr' : r ≤ 2 ^ 100) (ha : val a = some x) (hx : |x| ≤ r) :
    ∃ d, valF (ofDouble (a / b - toDouble (ofDouble a / ofDouble b : F))) = some d ∧
      |d| ≤ 15 * fltEpsilon := by
  have hrpos : 0 < r := lt_of_lt_of_le (by norm_num) hr
  have hrange : ∀ q : ℚ, |q| ≤ 2 ^ 100 → |q| ≤ fltBound := fun q hq =>
    hq.trans (by unfold fltBound; norm_num)
  obtain ⟨v, hv, hvr⟩ := h.narrow hb (hrange r (by rwa [abs_of_pos hrpos]))
  obtain ⟨u, hu, hux⟩ := h.narrow ha (hrange x (hx.trans hr'))
  obtain ⟨hvpos, hclose⟩ := RoundsTo.div_close hr hx hvr hux
  have hexact : |x / r| ≤ 1 := by
    rw [abs_div, abs_of_pos hrpos]
    exact (div_le_one hrpos).mpr hx
  have hquot : |u / v| ≤ 2 := by
    have hle := abs_sub_abs_le_abs_sub (u / v) (x / r)
    unfold fltEpsilon at hclose
    linarith
  have hsmall : ∀ q : ℚ, |q| ≤ 2 → |q| ≤ fltBound := fun q hq =>
    hq.trans (by unfold fltBound; norm_num)
  -- what is in the file, and what is held against it
  obtain ⟨f, hf, hfq⟩ := h.divF hu hv hvpos.ne' (hsmall _ hquot)
  obtain ⟨d, hd, hdx⟩ := h.div ha hb hrpos.ne' (hsmall _ (by linarith))
  have hferr := hfq.abs_sub_le hquot
  have hderr := hdx.abs_sub_le hexact
  have hdiff : |d - f| ≤ 13 * fltEpsilon := by
    rw [abs_le] at hclose hferr hderr ⊢
    unfold fltEpsilon fltMin at *
    constructor <;> linarith
  obtain ⟨e, he, hed⟩ := h.sub hd (h.widen hf)
    (hsmall _ (hdiff.trans (by unfold fltEpsilon; norm_num)))
  have heerr := hed.abs_sub_le hdiff
  have hesmall : |e| ≤ 14 * fltEpsilon := by
    rw [abs_le] at hdiff heerr ⊢
    unfold fltEpsilon fltMin at *
    constructor <;> linarith
  obtain ⟨g, hg, hge⟩ := h.narrow he (hsmall _ (hesmall.trans (by unfold fltEpsilon; norm_num)))
  have hgerr := hge.abs_sub_le hesmall
  refine ⟨g, hg, ?_⟩
  rw [abs_le] at hesmall hgerr ⊢
  unfold fltEpsilon fltMin at *
  constructor <;> linarith

/-- What the comparison may come to. -/
def diffBound : ℚ := 680 * (fltEpsilon * fltEpsilon)

/-- A float that the comparison may come to. -/
def SmallDiff (valF : F → Option ℚ) (m : F) : Prop := ∃ q, valF m = some q ∧ 0 ≤ q ∧ q ≤ diffBound

theorem Rounding.smallDiff (h : Rounding val valF) {s : CellEntry → V} (hs : Moderate val s) :
    SmallDiff valF (diff2 s (storedVelocity F s)) := by
  obtain ⟨r, x, y, z, ⟨hr, hlow, hhigh⟩, ⟨hx, hxr⟩, ⟨hy, hyr⟩, hz, hzr⟩ := hs.cell
  obtain ⟨dx, hdx, hdxle⟩ := h.component hr hlow hhigh hx hxr
  obtain ⟨dy, hdy, hdyle⟩ := h.component hr hlow hhigh hy hyr
  obtain ⟨dz, hdz, hdzle⟩ := h.component hr hlow hhigh hz hzr
  have hsquare : ∀ {f : F} {d : ℚ}, valF f = some d → |d| ≤ 15 * fltEpsilon →
      ∃ p, valF (f * f) = some p ∧ 0 ≤ p ∧ p ≤ 226 * (fltEpsilon * fltEpsilon) := by
    intro f d hf hd
    have hpos : 0 ≤ 15 * fltEpsilon := le_trans (abs_nonneg d) hd
    have hle : |d * d| ≤ 225 * (fltEpsilon * fltEpsilon) := by
      calc |d * d| = |d| * |d| := abs_mul d d
        _ ≤ 15 * fltEpsilon * (15 * fltEpsilon) := by gcongr
        _ = 225 * (fltEpsilon * fltEpsilon) := by ring
    obtain ⟨p, hp, hpd⟩ := h.mulF hf hf (hle.trans (by unfold fltEpsilon fltBound; norm_num))
    have herr := (abs_le.mp (hpd.abs_sub_le hle)).2
    have hself := le_abs_self (d * d)
    refine ⟨p, hp, hpd.nonneg (mul_self_nonneg d), ?_⟩
    unfold fltEpsilon fltMin at *
    linarith
  have hsum : ∀ {f g : F} {p q B : ℚ}, valF f = some p → 0 ≤ p → valF g = some q → 0 ≤ q →
      p + q ≤ B → B ≤ 1 → ∃ t, valF (f + g) = some t ∧ 0 ≤ t ∧ t ≤ B + fltEpsilon * B + fltMin := by
    intro f g p q B hf hp hg hq hB hB1
    have habs : |p + q| ≤ B := by rwa [abs_of_nonneg (by linarith)]
    obtain ⟨t, ht, htq⟩ := h.addF hf hg (habs.trans (hB1.trans (by unfold fltBound; norm_num)))
    have herr := (abs_le.mp (htq.abs_sub_le habs)).2
    exact ⟨t, ht, htq.nonneg (by linarith), by linarith⟩
  obtain ⟨px, hpx, hpx0, hpxle⟩ := hsquare hdx hdxle
  obtain ⟨py, hpy, hpy0, hpyle⟩ := hsquare hdy hdyle
  obtain ⟨pz, hpz, hpz0, hpzle⟩ := hsquare hdz hdzle
  obtain ⟨t, ht, ht0, htle⟩ := hsum hpx hpx0 hpy hpy0
    (show px + py ≤ 452 * (fltEpsilon * fltEpsilon) by linarith) (by unfold fltEpsilon; norm_num)
  obtain ⟨m, hm, hm0, hmle⟩ := hsum ht ht0 hpz hpz0
    (show t + pz ≤ 679 * (fltEpsilon * fltEpsilon) by
      unfold fltEpsilon fltMin at *
      linarith) (by unfold fltEpsilon; norm_num)
  refine ⟨m, hm, hm0, ?_⟩
  unfold diffBound fltEpsilon fltMin at *
  linarith

theorem SmallDiff.noteDiff (h : Rounding val valF) {m d : F} (hd : SmallDiff valF d)
    (hm : SmallDiff valF m ∨ ∃ q, valF m = some q ∧ q < 0) : SmallDiff valF (noteDiff m d) := by
  obtain ⟨q, hq, hq0, -⟩ := id hd
  unfold Lbm.noteDiff
  rcases hm with hm | ⟨p, hp, hp0⟩
  · split_ifs
    · exact hd
    · exact hm
  · rw [if_pos ((h.ltF hp hq).mpr (by linarith))]
    exact hd

/-- `maxDiff2` of a grid and the file that it was stored in. -/
theorem Rounding.smallDiff_maxDiff2 (h : Rounding val valF) {grid : Grid V} (hcells : 0 < sz.cells)
    (hgrid : ∀ c ∈ box sz 0 sz.z, Moderate val (gridEntry sz grid c)) :
    SmallDiff valF (maxDiff2 sz grid fun c => storedVelocity F (gridEntry sz grid c)) := by
  have hlowest : ∃ q, valF (ofDouble (-1e+30 : V)) = some q ∧ q < 0 := by
    obtain ⟨p, hp, hp10⟩ := h.lowest
    have hperr := hp10.abs_sub_le (b := 10 ^ 30) (by norm_num)
    have hple : |p| ≤ 2 * 10 ^ 30 ∧ p < -10 ^ 29 := by
      rw [abs_le] at hperr
      unfold fltEpsilon fltMin at hperr
      rw [abs_le]
      refine ⟨⟨by linarith, by linarith⟩, by linarith⟩
    obtain ⟨q, hq, hqp⟩ := h.narrow hp (hple.1.trans (by unfold fltBound; norm_num))
    have hqerr := hqp.abs_sub_le hple.1
    refine ⟨q, hq, ?_⟩
    rw [abs_le] at hqerr
    unfold fltEpsilon fltMin at hqerr
    linarith
  unfold maxDiff2
  rw [← length_box] at hcells
  generalize box sz 0 sz.z = l at hcells hgrid
  cases l with
  | nil => cases hcells
  | cons c l =>
    have hfirst := (h.smallDiff (hgrid c List.mem_cons_self)).noteDiff h (.inr hlowest)
    rw [List.foldl_cons]
    exact List.foldlRecOn l _ hfirst fun m hm c hc =>
      (h.smallDiff (hgrid c (List.mem_cons_of_mem _ hc))).noteDiff h (.inl hm)

/-- The square root of a small difference, in either program. -/
theorem Rounding.sqrtMaxDiff2_le (h : Rounding val valF) (program : Program) {m : F}
    (hm : SmallDiff valF m) :
    ∃ r, val (sqrtMaxDiff2 program m) = some r ∧ r ≤ 1 / 10 ^ 5 - 1 / 10 ^ 6 := by
  obtain ⟨q, hq, hq0, hqle⟩ := hm
  have hroot : ∀ {r : ℚ}, 0 ≤ r → r * r ≤ 2 * q → r ≤ 1 / 10 ^ 5 - 5 / 10 ^ 6 := by
    intro r hr hrq
    unfold diffBound fltEpsilon at hqle
    nlinarith
  cases program with
  | c =>
    obtain ⟨r, hr, hr0, hrq⟩ := h.sqrt (h.widen hq) hq0
    exact ⟨r, hr, (hroot hr0 hrq).trans (by norm_num)⟩
  | cpp =>
    obtain ⟨r, hr0, hrq, v, hv, hvr⟩ := h.sqrtOverload hq hq0
      (hqle.trans (by unfold diffBound fltEpsilon; norm_num))
    refine ⟨v, h.widen hv, ?_⟩
    have hle := hroot hr0 hrq
    have herr := hvr.abs_sub_le (b := 1) (by rw [abs_of_nonneg hr0]; linarith)
    have hv := (abs_le.mp herr).2
    unfold fltEpsilon fltMin at hv
    linarith

/-- **The comparison allows for the rounding**: of a grid and a file that it was stored in. -/
theorem Rounding.verdict_eq (h : Rounding val valF) (program : Program) {m : F}
    (hm : SmallDiff valF m) : verdict program m = "OK" := by
  obtain ⟨r, hr, hrle⟩ := h.sqrtMaxDiff2_le program hm
  obtain ⟨l, hl, hl5⟩ := h.limit
  have hlerr := hl5.abs_sub_le (b := 1) (by norm_num)
  have hnot : ¬ Double.lt (1e-5 : V) (sqrtMaxDiff2 program m) = true := by
    rw [h.lt hl hr]
    rw [abs_le] at hlerr
    unfold fltEpsilon fltMin at hlerr
    linarith
  rw [verdict, if_neg hnot]

end Rounding

/-! ## Floats of 32 bits -/

/-- The square root, with 60 binary places. -/
def sqrtRat (q : ℚ) : ℚ := Nat.sqrt (q.num.toNat * q.den * 4 ^ 60) / (q.den * 2 ^ 60)

theorem sqrtRat_nonneg (q : ℚ) : 0 ≤ sqrtRat q := by
  unfold sqrtRat
  positivity

theorem sqrtRat_mul_self_le {q : ℚ} (h : 0 ≤ q) : sqrtRat q * sqrtRat q ≤ q := by
  have hden : (0 : ℚ) < q.den * 2 ^ 60 := by
    have hpos : (0 : ℚ) < q.den := by exact_mod_cast q.den_pos
    positivity
  have hnum : ((q.num.toNat : ℕ) : ℚ) = q * q.den := by
    have hnonneg := Int.toNat_of_nonneg (Rat.num_nonneg.mpr h)
    rw [Rat.mul_den_eq_num, ← hnonneg]
    push_cast
    rw [hnonneg]
  have hsqrt : ((Nat.sqrt (q.num.toNat * q.den * 4 ^ 60) : ℕ) : ℚ) *
      Nat.sqrt (q.num.toNat * q.den * 4 ^ 60) ≤ q.num.toNat * q.den * 4 ^ 60 := by
    exact_mod_cast Nat.sqrt_le (q.num.toNat * q.den * 4 ^ 60)
  unfold sqrtRat
  rw [div_mul_div_comm, div_le_iff₀ (mul_pos hden hden)]
  refine hsqrt.trans (le_of_eq ?_)
  rw [hnum]
  ring

instance : OutputPrecision Binary32 Exact where
  add := Binary32.lift (· + ·)
  mul := Binary32.lift (· * ·)
  div := Binary32.lift (· / ·)
  scalar := Binary32.scalar
  ofDouble v := Binary32.chop v.num
  toDouble f := ⟨f.value.getD 0, 0⟩
  lt := Binary32.lt
  sqrt v := ⟨sqrtRat v.num, 0⟩
  sqrtOverload f := Binary32.chop (sqrtRat (f.value.getD 0))

theorem rounding_binary32 :
    Rounding (fun a : Exact => some a.num) Binary32.value where
  sub := by
    rintro a b x y ⟨⟩ ⟨⟩ -
    exact ⟨_, rfl, roundsTo_self _⟩
  div := by
    rintro a b x y ⟨⟩ ⟨⟩ - -
    exact ⟨_, rfl, roundsTo_self _⟩
  lt := by
    rintro a b x y ⟨⟩ ⟨⟩
    exact decide_eq_true_iff
  lowest := ⟨_, rfl, by
    have hnum : (-1e+30 : Exact).num = -(1e+30 : ℚ) := rfl
    rw [hnum]
    norm_num
    exact roundsTo_self _⟩
  limit := ⟨_, rfl, by
    have hnum : (1e-5 : Exact).num = (1e-5 : ℚ) := rfl
    rw [hnum]
    norm_num
    exact roundsTo_self _⟩
  addF hx hy h := Binary32.gives_lift hx hy h
  mulF hx hy h := Binary32.gives_lift hx hy h
  divF hx hy _ h := Binary32.gives_lift hx hy h
  ltF := by
    intro a b x y hx hy
    show Binary32.lt a b = true ↔ _
    rw [Binary32.lt, hx, hy]
    exact decide_eq_true_iff
  narrow := by
    rintro a x ⟨⟩ h
    exact Binary32.gives_chop h
  widen := by
    intro a x h
    show some (a.value.getD 0) = some x
    rw [h, Option.getD_some]
  sqrt := by
    rintro a x ⟨⟩ h0
    have hle := sqrtRat_mul_self_le h0
    exact ⟨sqrtRat a.num, rfl, sqrtRat_nonneg _, by linarith⟩
  sqrtOverload := by
    intro a x hx h0 h1
    have hle := sqrtRat_mul_self_le h0
    have hnonneg := sqrtRat_nonneg x
    refine ⟨sqrtRat x, hnonneg, by linarith, ?_⟩
    have hsmall : |sqrtRat x| ≤ fltBound := by
      rw [abs_of_nonneg hnonneg]
      unfold fltBound
      nlinarith
    have hgives := Binary32.gives_chop hsmall
    have hvalue : OutputPrecision.sqrtOverload a = Binary32.chop (sqrtRat x) := by
      show Binary32.chop (sqrtRat (a.value.getD 0)) = _
      rw [hx, Option.getD_some]
    rw [hvalue]
    exact hgives

end Lbm

end IcsaDswp
