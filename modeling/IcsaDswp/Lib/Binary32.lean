import IcsaDswp.Lib.Scalar
import Mathlib

/-!
# Numbers of 32 bits

The format of `float`: a sign, eight bits of exponent and 23 of fraction. A rational number is
rounded towards zero (`chop`). What the error of a rounding is bounded by (`RoundsTo`) holds of any
of the rounding directions, and whether or not numbers below the normal ones are flushed to zero.
-/

namespace IcsaDswp.Lib

/-- `FLT_EPSILON` -/
def fltEpsilon : ℚ := 1 / 2 ^ 23

/-- `FLT_MIN` -/
def fltMin : ℚ := 1 / 2 ^ 126

/-- Numbers up to this one are not rounded to infinity. -/
def fltBound : ℚ := 2 ^ 127

/-- `v` is `q`, rounded. -/
structure RoundsTo (v q : ℚ) : Prop where
  error : |v - q| ≤ fltEpsilon * |q| + fltMin
  nonneg : 0 ≤ q → 0 ≤ v

theorem roundsTo_self (q : ℚ) : RoundsTo q q where
  error := by
    unfold fltEpsilon fltMin
    rw [sub_self, abs_zero]
    positivity
  nonneg h := h

/-- A rounding of a number up to `b`. -/
theorem RoundsTo.abs_sub_le {v q b : ℚ} (h : RoundsTo v q) (hq : |q| ≤ b) :
    |v - q| ≤ fltEpsilon * b + fltMin := by
  have herr := h.error
  unfold fltEpsilon at herr ⊢
  linarith

/-- The result `o` of an operation is `q`, rounded. -/
def Gives (o : Option ℚ) (q : ℚ) : Prop := ∃ v, o = some v ∧ RoundsTo v q

/-- Division commutes with rounding, up to an error. -/
theorem RoundsTo.div_close {r x v u : ℚ} (hr : 1 / 2 ^ 100 ≤ r) (hx : |x| ≤ r)
    (hv : RoundsTo v r) (hu : RoundsTo u x) : 0 < v ∧ |u / v - x / r| ≤ 8 * fltEpsilon := by
  have hrpos : 0 < r := lt_of_lt_of_le (by norm_num) hr
  have hmin : fltMin ≤ fltEpsilon * r := by
    unfold fltMin fltEpsilon
    linarith
  have hverr : |v - r| ≤ 2 * fltEpsilon * r := by
    have h := hv.abs_sub_le (le_of_eq (abs_of_pos hrpos))
    linarith
  have huerr : |u - x| ≤ 2 * fltEpsilon * r := by
    have h := hu.abs_sub_le hx
    linarith
  have hhalf : r / 2 ≤ v := by
    have h := (abs_le.mp hverr).1
    unfold fltEpsilon at h
    linarith
  have hvpos : 0 < v := by linarith
  refine ⟨hvpos, ?_⟩
  have hnum : |u * r - v * x| ≤ 4 * fltEpsilon * r * r := by
    calc |u * r - v * x| = |(u - x) * r - x * (v - r)| := by
          congr 1
          ring
      _ ≤ |(u - x) * r| + |x * (v - r)| := abs_sub _ _
      _ = |u - x| * r + |x| * |v - r| := by rw [abs_mul, abs_mul, abs_of_pos hrpos]
      _ ≤ 2 * fltEpsilon * r * r + r * (2 * fltEpsilon * r) := by gcongr
      _ = 4 * fltEpsilon * r * r := by ring
  have hfour : 0 ≤ 4 * fltEpsilon * r := by
    unfold fltEpsilon
    positivity
  rw [div_sub_div _ _ hvpos.ne' hrpos.ne', abs_div, abs_of_pos (mul_pos hvpos hrpos),
    div_le_iff₀ (mul_pos hvpos hrpos)]
  calc |u * r - v * x| ≤ 4 * fltEpsilon * r * r := hnum
    _ ≤ 4 * fltEpsilon * r * (2 * v) := by
        gcongr
        linarith
    _ = 8 * fltEpsilon * (v * r) := by ring

/-- A float. -/
@[ext]
structure Binary32 where
  sign : Bool
  exponent : Nat
  fraction : Nat
  exponent_lt : exponent < 2 ^ 8
  fraction_lt : fraction < 2 ^ 23

namespace Binary32

/-- The number that is meant, if there is one. -/
def value (f : Binary32) : Option ℚ :=
  if f.exponent = 255 then none
  else
    let magnitude : ℚ :=
      if f.exponent = 0 then f.fraction * 2 ^ (-149 : ℤ)
      else (2 ^ 23 + f.fraction : ℕ) * 2 ^ ((f.exponent : ℤ) - 150)
    some (if f.sign then -magnitude else magnitude)

def zero (sign : Bool) : Binary32 := ⟨sign, 0, 0, by decide, by decide⟩

def infinity (sign : Bool) : Binary32 := ⟨sign, 255, 0, by decide, by decide⟩

def nan : Binary32 := ⟨false, 255, 1, by decide, by decide⟩

/-- `q`, rounded towards zero. -/
def chop (q : ℚ) : Binary32 :=
  let e := Int.log 2 |q|
  let significand := ⌊|q| / 2 ^ (e - 23)⌋₊
  if |q| < fltMin then zero (decide (q < 0))
  else if 2 ^ 128 ≤ |q| then infinity (decide (q < 0))
  else
    ⟨decide (q < 0), (e + 127).toNat % 2 ^ 8, significand % 2 ^ 23,
      Nat.mod_lt _ (by decide), Nat.mod_lt _ (by decide)⟩

/-- The exponent of a normal number. -/
theorem log_bounds {a : ℚ} (hlow : fltMin ≤ a) (hhigh : a < 2 ^ 128) :
    ((2 : ℚ) ^ Int.log 2 a ≤ a ∧ a < 2 ^ (Int.log 2 a + 1)) ∧
      -126 ≤ Int.log 2 a ∧ Int.log 2 a ≤ 127 := by
  have hpos : 0 < a := lt_of_lt_of_le (by unfold fltMin; positivity) hlow
  have hle : (2 : ℚ) ^ Int.log 2 a ≤ a := by
    exact_mod_cast Int.zpow_log_le_self (by decide) hpos
  have hlt : a < 2 ^ (Int.log 2 a + 1) := by
    exact_mod_cast Int.lt_zpow_succ_log_self (b := 2) (by decide) a
  refine ⟨⟨hle, hlt⟩, ?_, ?_⟩
  · by_contra hsmall
    have hbinade : (2 : ℚ) ^ (Int.log 2 a + 1) ≤ 2 ^ (-126 : ℤ) :=
      zpow_le_zpow_right₀ (by norm_num) (by omega)
    have hmin : fltMin = 2 ^ (-126 : ℤ) := by
      unfold fltMin
      norm_num
    linarith
  · by_contra hbig
    have hbinade : (2 : ℚ) ^ (128 : ℤ) ≤ 2 ^ Int.log 2 a :=
      zpow_le_zpow_right₀ (by norm_num) (by omega)
    have h128 : (2 : ℚ) ^ (128 : ℤ) = 2 ^ 128 := by norm_cast
    linarith

/-- The 24 bits of a normal number, with the unit of the last one. -/
theorem significand_bounds {a : ℚ} {e : ℤ} (hlow : (2 : ℚ) ^ e ≤ a) (hhigh : a < 2 ^ (e + 1)) :
    let m := ⌊a / 2 ^ (e - 23)⌋₊
    (2 ^ 23 ≤ m ∧ m < 2 ^ 24) ∧ (m : ℚ) * 2 ^ (e - 23) ≤ a ∧
      a - m * 2 ^ (e - 23) ≤ fltEpsilon * a := by
  intro m
  have hunit : (0 : ℚ) < 2 ^ (e - 23) := by positivity
  have hscale : (2 : ℚ) ^ e = 2 ^ 23 * 2 ^ (e - 23) := by
    rw [← zpow_natCast, ← zpow_add₀ (by norm_num)]
    congr 1
    push_cast
    ring
  have hdouble : (2 : ℚ) ^ (e + 1) = 2 ^ 24 * 2 ^ (e - 23) := by
    rw [zpow_add_one₀ (by norm_num), hscale]
    ring
  have hapos : 0 ≤ a := le_trans (by positivity) hlow
  have hle : (m : ℚ) * 2 ^ (e - 23) ≤ a := by
    rw [← le_div_iff₀ hunit]
    exact Nat.floor_le (by positivity)
  have hlt : a < (m + 1 : ℚ) * 2 ^ (e - 23) := by
    rw [← div_lt_iff₀ hunit]
    exact Nat.lt_floor_add_one _
  refine ⟨⟨?_, ?_⟩, hle, ?_⟩
  · rw [Nat.le_floor_iff (by positivity), le_div_iff₀ hunit]
    push_cast
    linarith
  · rw [Nat.floor_lt (by positivity), div_lt_iff₀ hunit]
    push_cast
    linarith
  · unfold fltEpsilon
    linarith

/-- **Rounding towards zero** is a rounding, below the bound for overflow. -/
theorem gives_chop {q : ℚ} (h : |q| ≤ fltBound) : Gives (chop q).value q := by
  by_cases hsmall : |q| < fltMin
  · refine ⟨0, ?_, ?_, fun _ => le_rfl⟩
    · simp [chop, hsmall, value, zero]
    · unfold fltEpsilon
      rw [zero_sub, abs_neg]
      have hpos := abs_nonneg q
      linarith
  · have hfinite : ¬ (2 : ℚ) ^ 128 ≤ |q| := by
      unfold fltBound at h
      linarith
    obtain ⟨⟨hlow, hhigh⟩, hexp⟩ := log_bounds (not_lt.mp hsmall) (not_le.mp hfinite)
    obtain ⟨hm, hle, herr⟩ := significand_bounds hlow hhigh
    obtain ⟨e, he⟩ : ∃ e, e = Int.log 2 |q| := ⟨_, rfl⟩
    obtain ⟨m, hmdef⟩ : ∃ m, m = ⌊|q| / 2 ^ (e - 23)⌋₊ := ⟨_, rfl⟩
    rw [← he] at hexp hm hle herr
    rw [← hmdef] at hm hle herr
    have hvalue : (chop q).value =
        some (if decide (q < 0) then -((m : ℚ) * 2 ^ (e - 23)) else m * 2 ^ (e - 23)) := by
      have hexponent : (e + 127).toNat % 2 ^ 8 = (e + 127).toNat := Nat.mod_eq_of_lt (by omega)
      have hfraction : 2 ^ 23 + m % 2 ^ 23 = m := by omega
      have h255 : (e + 127).toNat ≠ 255 := by omega
      have h0 : (e + 127).toNat ≠ 0 := by omega
      have hscale : ((e + 127).toNat : ℤ) - 150 = e - 23 := by omega
      simp only [chop, hsmall, hfinite, if_false, value, ← he, ← hmdef, hexponent, h255, h0,
        hfraction, hscale]
    have hmin : 0 ≤ fltMin := by
      unfold fltMin
      positivity
    refine ⟨_, hvalue, ?_⟩
    by_cases hneg : q < 0
    · simp only [hneg, decide_true, if_true]
      refine ⟨?_, fun hq => absurd hneg (not_lt.mpr hq)⟩
      rw [abs_of_neg hneg] at hle herr ⊢
      rw [abs_of_nonneg (by linarith)]
      linarith
    · simp only [hneg, decide_false, Bool.false_eq_true, if_false]
      refine ⟨?_, fun _ => by positivity⟩
      rw [abs_of_nonneg (not_lt.mp hneg)] at hle herr ⊢
      rw [abs_of_nonpos (by linarith)]
      linarith

/-- An operation on finite values. -/
def lift (op : ℚ → ℚ → ℚ) (f g : Binary32) : Binary32 :=
  match f.value, g.value with
  | some x, some y => chop (op x y)
  | _, _ => nan

theorem gives_lift {op : ℚ → ℚ → ℚ} {f g : Binary32} {x y : ℚ} (hx : f.value = some x)
    (hy : g.value = some y) (h : |op x y| ≤ fltBound) : Gives (lift op f g).value (op x y) := by
  rw [lift, hx, hy]
  exact gives_chop h

/-- `<`, which is false of what is not finite. -/
def lt (f g : Binary32) : Bool :=
  match f.value, g.value with
  | some x, some y => decide (x < y)
  | _, _ => false

/-! ## Bytes -/

/-- The 32 bits, as a number. -/
def code (f : Binary32) : Nat := f.sign.toNat * 2 ^ 31 + f.exponent * 2 ^ 23 + f.fraction

def ofCode (n : Nat) : Binary32 :=
  ⟨decide (2 ^ 31 ≤ n), n / 2 ^ 23 % 2 ^ 8, n % 2 ^ 23,
    Nat.mod_lt _ (by decide), Nat.mod_lt _ (by decide)⟩

theorem code_lt (f : Binary32) : f.code < 2 ^ 32 := by
  have hsign : f.sign.toNat ≤ 1 := Bool.toNat_le f.sign
  have hexp := f.exponent_lt
  have hfrac := f.fraction_lt
  unfold code
  omega

theorem ofCode_code (f : Binary32) : ofCode f.code = f := by
  have hexp := f.exponent_lt
  have hfrac := f.fraction_lt
  have hsign : decide (2 ^ 31 ≤ f.code) = f.sign := by
    unfold code
    cases f.sign with
    | false => exact decide_eq_false (by rw [Bool.toNat_false]; omega)
    | true => exact decide_eq_true (by rw [Bool.toNat_true]; omega)
  refine Binary32.ext hsign ?_ ?_
  · show f.code / 2 ^ 23 % 2 ^ 8 = f.exponent
    unfold code
    omega
  · show f.code % 2 ^ 23 = f.fraction
    unfold code
    omega

/-- The bytes of a number of 32 bits, the least significant one first. -/
def bytes32 (n : Nat) : List UInt8 :=
  [UInt8.ofNat n, UInt8.ofNat (n / 256), UInt8.ofNat (n / 65536), UInt8.ofNat (n / 16777216)]

theorem foldr_bytes32 {n : Nat} (h : n < 2 ^ 32) :
    (bytes32 n).foldr (fun b n => b.toNat + 256 * n) 0 = n := by
  simp only [bytes32, List.foldr_cons, List.foldr_nil, UInt8.toNat_ofNat']
  omega

def scalar : Scalar UInt8 Binary32 where
  size := 4
  bytes f := bytes32 f.code
  ofBytes l := ofCode (l.foldr (fun b n => b.toNat + 256 * n) 0)
  length_bytes _ := rfl
  ofBytes_bytes f := by rw [foldr_bytes32 f.code_lt, ofCode_code]

end Binary32

end IcsaDswp.Lib
