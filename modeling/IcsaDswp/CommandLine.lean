import IcsaDswp.LbmMain
import IcsaDswp.Lib.Fold

/-!
# Command lines

`src/test/swap-sign.cpp` and `MAIN_parseCommandLine` and `MAIN_printInfo` of `main.c` and
`main-dswp.cpp` read numbers from the command line with `atoi`, which reads back what `%i` prints
(`atoi_decimal`). A command line that is accepted can be printed again from what was read, and its
obstacle file is read to the end. Nothing checks that the action and the kind of simulation are ones
that there are: `MAIN_printInfo` reads past its arrays if they are not (`commandLine_read`).
-/

namespace IcsaDswp

open Lib

/-! ## The code -/

/-- How a program stops early. -/
inductive Stop where
  /-- `exit(1)`, after it has printed this. -/
  | exit (printed : String)
  /-- A signed number is too large, or an array is read past its end. -/
  | undefined
  deriving DecidableEq

def isSpace (c : Char) : Bool := c.toNat = 32 || (9 ≤ c.toNat && c.toNat ≤ 13)

/-- The values of an `int`. -/
def IsInt (n : Int) : Prop := -2 ^ 31 ≤ n ∧ n < 2 ^ 31

instance (n : Int) : Decidable (IsInt n) := inferInstanceAs (Decidable (_ ∧ _))

/-- A result of type `int`. -/
def asInt (n : Int) : Except Stop Int := if IsInt n then .ok n else .error .undefined

def atoi (nptr : String) : Except Stop Int :=
  let s := nptr.toList.dropWhile isSpace
  let negative := s.head? = some '-'
  let digits := if negative ∨ s.head? = some '+' then s.tail else s
  let n : Int := Nat.ofDigitChars 10 (digits.takeWhile Char.isDigit) 0
  asInt (if negative then -n else n)

/-- `%i` of `printf`. -/
def decimal (n : Int) : String := if n < 0 then "-" ++ n.natAbs.repr else n.natAbs.repr

/-- `main` of `swap-sign.cpp`. -/
def SwapSign.main (argv : List String) : Except Stop Int :=
  if argv.length = 3 then do
    let x ← atoi (argv.getD 1 "")
    let y ← atoi (argv.getD 2 "")
    if x < 0 then asInt (-y) else pure y
  else pure (-1)

namespace Lbm

/-- The contents of the files that there are. -/
abbrev FileSystem := String → Option (List UInt8)

/-- `MAIN_Param`. The enumerations hold what `atoi` has returned. -/
structure MainParam where
  nTimeSteps : Int
  resultFilename : String
  action : Int
  simType : Int
  obstacleFilename : Option String
  deriving DecidableEq

/-- `obstacleFilename`, as `MAIN_parseCommandLine` sets it. -/
def parseObstacle (sz : Size) (fs : FileSystem) (arg : List String) : Except Stop (Option String) :=
  if arg.length = 6 then
    let filename := arg.getD 5 ""
    match fs filename with
    | none =>
      throw (.exit ("MAIN_parseCommandLine: cannot stat obstacle file '" ++ filename ++ "'\n"))
    | some file =>
      if file.length = obstacleFileSize sz then pure (some filename)
      else
        throw (.exit ("MAIN_parseCommandLine:\n\tsize of file '" ++ filename ++ "' is " ++
          decimal ((file.length : Int).bmod (2 ^ 32)) ++ " bytes\n\texpected size is " ++
          decimal (obstacleFileSize sz) ++ " bytes\n"))
  else pure none

def parseCommandLine (sz : Size) (fs : FileSystem) (arg : List String) : Except Stop MainParam :=
  if arg.length < 5 ∨ arg.length > 6 then
    throw (.exit ("syntax: lbm <time steps> <result file> <0: nil, 1: cmp, 2: str> " ++
      "<0: ldc, 1: channel flow> [<obstacle file>]\n"))
  else do
    let nTimeSteps ← atoi (arg.getD 1 "")
    let resultFilename := arg.getD 2 ""
    let action ← atoi (arg.getD 3 "")
    let simType ← atoi (arg.getD 4 "")
    let obstacleFilename ← parseObstacle sz fs arg
    if action = 1 ∧ fs resultFilename = none then
      throw (.exit ("MAIN_parseCommandLine: cannot stat result file '" ++ resultFilename ++ "'\n"))
    else pure ⟨nTimeSteps, resultFilename, action, simType, obstacleFilename⟩

/-- `strings[i]`. -/
def stringAt (strings : List String) (i : Int) : Except Stop String :=
  match if 0 ≤ i then strings[i.toNat]? else none with
  | some s => .ok s
  | none => .error .undefined

/-- `MAIN_printInfo`; `mega` is what `%.2f` makes of the number of cells in millions. -/
def printInfo (sz : Size) (mega : String) (param : MainParam) : Except Stop String := do
  let actionString ← stringAt ["nothing", "compare", "store"] param.action
  -- the array has room for a third string, which is empty
  let simTypeString ← stringAt ["lid-driven cavity", "channel flow", ""] param.simType
  pure ("MAIN_printInfo:\n\tgrid size      : " ++ decimal sz.x ++ " x " ++ decimal sz.y ++ " x " ++
    decimal sz.z ++ " = " ++ mega ++ " * 10^6 Cells\n\tnTimeSteps     : " ++
    decimal param.nTimeSteps ++ "\n\tresult file    : " ++ param.resultFilename ++
    "\n\taction         : " ++ actionString ++ "\n\tsimulation type: " ++ simTypeString ++
    "\n\tobstacle file  : " ++ param.obstacleFilename.getD "<none>" ++ "\n\n")

/-- What the rest of the program takes from it. -/
def MainParam.param (fs : FileSystem) (param : MainParam) : Param where
  nTimeSteps := param.nTimeSteps
  simType := if param.simType = 1 then .channel else .ldc
  obstacleFile := param.obstacleFilename.bind fs

end Lbm

/-! ## Numbers -/

theorem asInt_ok {n k : Int} : asInt n = .ok k ↔ IsInt n ∧ n = k := by
  unfold asInt
  by_cases hn : IsInt n <;> simp [hn]

theorem takeWhile_toDigits (n : Nat) :
    (Nat.toDigits 10 n).takeWhile Char.isDigit = Nat.toDigits 10 n :=
  List.takeWhile_eq_self_iff.mpr fun _ hc => Nat.isDigit_of_mem_toDigits (by decide) (by decide) hc

theorem isSpace_of_isDigit {c : Char} (hc : c.isDigit) : isSpace c = false := by
  have h48 : 48 ≤ c.toNat := by
    simp only [Char.isDigit, Bool.and_eq_true, decide_eq_true_eq] at hc
    exact hc.1
  simp only [isSpace, Bool.or_eq_false_iff, Bool.and_eq_false_iff, decide_eq_false_iff_not]
  omega

/-- The digits of a number start with neither a sign nor a space. -/
theorem exists_toDigits (n : Nat) : ∃ c l, Nat.toDigits 10 n = c :: l ∧ isSpace c = false ∧
    c ≠ '-' ∧ c ≠ '+' := by
  obtain ⟨c, l, hl⟩ := List.exists_cons_of_ne_nil (Nat.toDigits_ne_nil (n := n) (b := 10))
  have hc : c.isDigit := Nat.isDigit_of_mem_toDigits (b := 10) (by decide) (by decide)
    (hl ▸ List.mem_cons_self)
  refine ⟨c, l, hl, isSpace_of_isDigit hc, ?_, ?_⟩
  · rintro rfl
    cases hc
  · rintro rfl
    cases hc

/-- **`atoi` reads what `%i` prints.** -/
theorem atoi_decimal {n : Int} (hn : IsInt n) : atoi (decimal n) = .ok n := by
  by_cases hneg : n < 0
  · have hl : (decimal n).toList = '-' :: Nat.toDigits 10 n.natAbs := by
      simp [decimal, hneg]
    have hspace : ('-' :: Nat.toDigits 10 n.natAbs).dropWhile isSpace =
        '-' :: Nat.toDigits 10 n.natAbs := List.dropWhile_cons_of_neg (by decide)
    have hvalue : -(n.natAbs : Int) = n := by omega
    simp only [atoi, hl, hspace, List.head?_cons, List.tail_cons, true_or, if_true,
      takeWhile_toDigits, Nat.ofDigitChars_ten_toDigits, hvalue]
    exact asInt_ok.mpr ⟨hn, rfl⟩
  · have hl : (decimal n).toList = Nat.toDigits 10 n.natAbs := by
      simp [decimal, hneg]
    obtain ⟨c, l, hcl, hspace, hminus, hplus⟩ := exists_toDigits n.natAbs
    have hdrop : (Nat.toDigits 10 n.natAbs).dropWhile isSpace = Nat.toDigits 10 n.natAbs := by
      rw [hcl]
      exact List.dropWhile_cons_of_neg (by simp [hspace])
    have hhead : (Nat.toDigits 10 n.natAbs).head? = some c := by rw [hcl]; rfl
    have hvalue : (n.natAbs : Int) = n := by omega
    simp only [atoi, hl, hdrop, hhead, Option.some.injEq, hminus, hplus, or_self, if_false,
      takeWhile_toDigits, Nat.ofDigitChars_ten_toDigits, hvalue]
    exact asInt_ok.mpr ⟨hn, rfl⟩

theorem isInt_of_atoi {s : String} {n : Int} (h : atoi s = .ok n) : IsInt n := by
  obtain ⟨hn, rfl⟩ := asInt_ok.mp h
  exact hn

/-- **Two numbers on the command line.** Only the least number has no opposite. -/
theorem SwapSign.main_decimal (prog : String) {x y : Int} (hx : IsInt x) (hy : IsInt y) :
    main [prog, decimal x, decimal y] =
      if x < 0 then if y = -2 ^ 31 then .error .undefined else .ok (-y) else .ok y := by
  show (do let x ← atoi (decimal x); _) = _
  rw [atoi_decimal hx]
  show (do let y ← atoi (decimal y); if x < 0 then asInt (-y) else pure y) = _
  rw [atoi_decimal hy]
  show (if x < 0 then asInt (-y) else pure y) = _
  have hopposite : IsInt (-y) ↔ y ≠ -2 ^ 31 := by
    unfold IsInt at hy ⊢
    omega
  by_cases h : x < 0 <;> by_cases hmin : y = -2 ^ 31 <;>
    simp only [asInt, hopposite, h, hmin, ne_eq, not_false_eq_true, if_true, if_false] <;> rfl

namespace Lbm

variable {sz : Size} {fs : FileSystem} {param : MainParam} {arg : List String}

/-- A command line for these parameters. -/
def MainParam.commandLine (param : MainParam) (prog : String) : List String :=
  [prog, decimal param.nTimeSteps, param.resultFilename, decimal param.action,
    decimal param.simType] ++ param.obstacleFilename.toList

/-- What a command line must satisfy: the numbers are of type `int`, the obstacle file has the size
of the grid, and there is a result file to compare with. -/
structure MainParam.Accepted (sz : Size) (fs : FileSystem) (param : MainParam) : Prop where
  nTimeSteps : IsInt param.nTimeSteps
  action : IsInt param.action
  simType : IsInt param.simType
  obstacle : ∀ filename, param.obstacleFilename = some filename →
    ∃ file, fs filename = some file ∧ file.length = obstacleFileSize sz
  result : param.action = 1 → fs param.resultFilename ≠ none

theorem MainParam.Accepted.parseCommandLine (h : param.Accepted sz fs) (prog : String) :
    parseCommandLine sz fs (param.commandLine prog) = .ok param := by
  obtain ⟨nTimeSteps, resultFilename, action, simType, obstacleFilename⟩ := param
  have hresult : ¬ (action = 1 ∧ fs resultFilename = none) := fun hr => h.result hr.1 hr.2
  cases obstacleFilename with
  | none =>
    exact bind_ok.mpr ⟨_, atoi_decimal h.nTimeSteps, bind_ok.mpr ⟨_, atoi_decimal h.action,
      bind_ok.mpr ⟨_, atoi_decimal h.simType, bind_ok.mpr ⟨none, rfl, if_neg hresult⟩⟩⟩⟩
  | some filename =>
    obtain ⟨file, hfile, hsize⟩ := h.obstacle filename rfl
    refine bind_ok.mpr ⟨_, atoi_decimal h.nTimeSteps, bind_ok.mpr ⟨_, atoi_decimal h.action,
      bind_ok.mpr ⟨_, atoi_decimal h.simType, bind_ok.mpr ⟨some filename, ?_, if_neg hresult⟩⟩⟩⟩
    show (match fs filename with | none => _ | some file => _) = _
    rw [hfile]
    exact if_pos hsize

theorem obstacle_of_parse {obstacleFilename : Option String}
    (h : parseObstacle sz fs arg = .ok obstacleFilename) {filename : String}
    (hname : obstacleFilename = some filename) :
    ∃ file, fs filename = some file ∧ file.length = obstacleFileSize sz := by
  subst hname
  unfold parseObstacle at h
  split at h
  · dsimp only at h
    split at h
    · cases h
    · rename_i file hfile
      split at h
      · rename_i hsize
        cases h
        exact ⟨file, hfile, hsize⟩
      · cases h
  · cases h

theorem accepted_of_parseCommandLine (h : parseCommandLine sz fs arg = .ok param) :
    param.Accepted sz fs := by
  unfold parseCommandLine at h
  split at h
  · cases h
  obtain ⟨nTimeSteps, hn, h⟩ := bind_ok.mp h
  obtain ⟨action, ha, h⟩ := bind_ok.mp h
  obtain ⟨simType, hs, h⟩ := bind_ok.mp h
  obtain ⟨obstacleFilename, ho, h⟩ := bind_ok.mp h
  split at h
  · cases h
  rename_i hresult
  cases h
  exact ⟨isInt_of_atoi hn, isInt_of_atoi ha, isInt_of_atoi hs, fun _ => obstacle_of_parse ho,
    fun h1 h2 => hresult ⟨h1, h2⟩⟩

theorem stringAt_isOk (strings : List String) (i : Int) :
    (∃ s, stringAt strings i = .ok s) ↔ 0 ≤ i ∧ i < strings.length := by
  unfold stringAt
  by_cases hi : 0 ≤ i
  · rw [if_pos hi]
    cases hs : strings[i.toNat]? with
    | none =>
      rw [List.getElem?_eq_none_iff] at hs
      simp
      omega
    | some s =>
      have := (List.getElem?_eq_some_iff.mp hs).1
      simp
      omega
  · simp [hi]

/-- `MAIN_printInfo` stays within its arrays for three actions and three kinds of simulation. -/
theorem printInfo_isOk {mega : String} : (∃ s, printInfo sz mega param = .ok s) ↔
    (0 ≤ param.action ∧ param.action < 3) ∧ (0 ≤ param.simType ∧ param.simType < 3) := by
  have haction := stringAt_isOk ["nothing", "compare", "store"] param.action
  have hsimType := stringAt_isOk ["lid-driven cavity", "channel flow", ""] param.simType
  constructor
  · rintro ⟨s, h⟩
    obtain ⟨_, ha, h⟩ := bind_ok.mp h
    obtain ⟨_, hs, -⟩ := bind_ok.mp h
    exact ⟨haction.mp ⟨_, ha⟩, hsimType.mp ⟨_, hs⟩⟩
  · rintro ⟨ha, hs⟩
    obtain ⟨actionString, ha⟩ := haction.mpr ha
    obtain ⟨simTypeString, hs⟩ := hsimType.mpr hs
    exact ⟨_, bind_ok.mpr ⟨_, ha, bind_ok.mpr ⟨_, hs, rfl⟩⟩⟩

/-- The obstacle file of an accepted command line is read to its end. -/
theorem MainParam.Accepted.loadObstacleFile {V : Type} [Double V] (h : param.Accepted sz fs)
    (g : Grid V) {file : List UInt8} (hfile : (param.param fs).obstacleFile = some file) :
    (loadObstacleFile sz (g, file)).2 = [] := by
  obtain ⟨filename, hname, hf⟩ := Option.bind_eq_some_iff.mp hfile
  obtain ⟨file', hf', hsize⟩ := h.obstacle filename hname
  obtain rfl : file = file' := Option.some.inj (hf.symm.trans hf')
  rw [loadObstacleFile_eq, ← hsize]
  exact List.drop_length

/-- An action without a name is accepted, and `MAIN_printInfo` looks for its name. -/
example : parseCommandLine ⟨1, 1, 1⟩ (fun _ => none) ["lbm", "20", "out", "7", "0"] =
      .ok ⟨20, "out", 7, 0, none⟩ ∧
    printInfo ⟨1, 1, 1⟩ "0.00" ⟨20, "out", 7, 0, none⟩ = .error .undefined := by
  decide

end Lbm

end IcsaDswp
