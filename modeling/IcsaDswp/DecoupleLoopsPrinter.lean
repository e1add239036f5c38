import IcsaDswp.DecoupleSourceSplitPrinter

/-!
# The split of the loops, line by line

`pass/src/DecoupleLoopsPrinter.cpp`: the instructions of the loops with work are gathered in
parallel vectors, a `Row` each, and printed an entry per source line, in the order in which the lines
occur; an entry takes the rows of its line from all over the vectors and marks their lines with -1.
`readItem` reads what is printed as its reader does: a record belongs to the last label, entry and
loop header in front of it. What is read is each row once, but under the header of the loop that its
line occurs in first (`printRows_read`).
-/

namespace IcsaDswp

open Lib

variable {Inst BB Fn Loop : Type}

/-- What this printer reads of an instruction besides: the column of its location, which LLVM keeps
in 16 bits, and whether it is a `BranchInst`. -/
structure RecordInfo (Inst : Type) extends DebugInfo Inst where
  getColumn : Inst → UInt16
  isBranch : Inst → Bool

namespace DecoupleLoopsPrinter

/-! ## The code -/

/-- One position of `lines`, `cols`, `BBs`, `Loops`, `branchLines`, `workLines` and `iterLines`. -/
structure Row where
  line : Int
  col : Nat
  bb : Nat
  loop : Nat
  branchLine : Bool
  workLine : Bool
  iterLine : Bool
  deriving DecidableEq

/-- `unsigned` to `int`. -/
def toInt (n : Nat) : Int := (n : Int).bmod (2 ^ 32)

/-- What the first loops fill. -/
structure Gathered where
  File : Option DIFile
  rows : List Row
  bbCount : Nat
  loopCount : Nat

section Gather

variable [LinearOrder Inst] [LinearOrder Fn] [LinearOrder Loop]

/-- One turn of the loop over the instructions of a block of `L`. -/
def noteInst (info : RecordInfo Inst) (r : Analysis Inst Fn Loop) (L : Loop) (st : Gathered)
    (inst : Inst) : Except Fault Gathered :=
  match info.getDebugLoc inst with
  | none => .ok st
  | some Loc => do
    let File := match st.File with
      | some File => some File
      | none => Loc.file
    let work ← r.isWork inst L
    let iter ← r.isIter inst L
    let row : Row := ⟨toInt Loc.line, (info.getColumn inst).toNat, st.bbCount, st.loopCount,
      info.isBranch inst, work, iter⟩
    pure { st with File := File, rows := st.rows ++ [row] }

def noteBlock (info : RecordInfo Inst) (F : Function Inst BB Loop) (r : Analysis Inst Fn Loop)
    (L : Loop) (st : Gathered) (bb : BB) : Except Fault Gathered := do
  let st ← (F.insts bb).foldlM (noteInst info r L) st
  pure { st with bbCount := st.bbCount + 1 }

def noteLoop (info : RecordInfo Inst) (F : Function Inst BB Loop) (r : Analysis Inst Fn Loop)
    (st : Gathered) (L : Loop) : Except Fault Gathered :=
  if r.dl.hasWork L then do
    let st ← (F.loopBlocks L).foldlM (noteBlock info F r L) st
    pure { st with loopCount := st.loopCount + 1 }
  else .ok st

def gather (info : RecordInfo Inst) (F : Function Inst BB Loop) (r : Analysis Inst Fn Loop) :
    Except Fault Gathered :=
  F.loops.foldlM (noteLoop info F r) ⟨none, [], 0, 0⟩

end Gather

/-- The pieces that are written to the output. -/
inductive Item where
  | loop (k : Nat)
  | entry (filename : String) (line : Int)
  | bb (n : Nat)
  | record (col : Nat) (branchLine workLine iterLine : Bool)
  | newline
  deriving DecidableEq

def Item.text : Item → String
  | .loop k => "Loop " ++ toString k ++ "\n"
  | .entry filename line => filename ++ ":" ++ toString line
  | .bb n => " ; BB" ++ toString n ++ ":"
  | .record col branchLine workLine iterLine =>
    " " ++ toString col ++ ":" ++ (if branchLine then "b-" else "") ++
      (if workLine then "w" else "") ++ (if iterLine then "i" else "")
  | .newline => "\n"

def Row.record (r : Row) : Item := .record r.col r.branchLine r.workLine r.iterLine

/-- The loop over `j`: the rows of `line` are marked and written. -/
def printEntry (line : Int) : Int → List Row → List Row × List Item
  | _, [] => ([], [])
  | prevBB, r :: rest =>
    if r.line ≠ line then
      let (rest, out) := printEntry line prevBB rest
      (r :: rest, out)
    else
      let label := if (r.bb : Int) ≠ prevBB then [Item.bb r.bb] else []
      let (rest, out) := printEntry line r.bb rest
      ({ r with line := -1 } :: rest, label ++ r.record :: out)

structure Printed where
  rows : List Row
  prevLoop : Int
  out : List Item

/-- One turn of the loop over `i`. -/
def printTurn (File : DIFile) (st : Printed) (i : Nat) : Printed :=
  match st.rows[i]? with
  | none => st
  | some r =>
    if r.line = -1 then st -- Already traversed.
    else
      let header := if (r.loop : Int) ≠ st.prevLoop then [Item.loop r.loop] else []
      let (rows, items) := printEntry r.line (-1) st.rows
      ⟨rows, r.loop, st.out ++ header ++ [.entry File.filename r.line] ++ items ++ [.newline]⟩

def printRows (File : DIFile) (rows : List Row) : List Item :=
  ((List.range rows.length).foldl (printTurn File) ⟨rows, -1, []⟩).out

section Run

variable [LinearOrder Inst] [LinearOrder Fn] [LinearOrder Loop]

/-- What is written, if there is a file. -/
def items (info : RecordInfo Inst) (name : Fn) (F : Function Inst BB Loop)
    (r : Analysis Inst Fn Loop) : Except Fault (Option (List Item)) :=
  match r.dl.getLI name with
  | none => .error .nullDeref
  | some _ => do
    let st ← gather info F r
    pure (st.File.map fun File => printRows File st.rows)

/-- The standard output and the error output. -/
def runOnFunction (info : RecordInfo Inst) (name : Fn) (F : Function Inst BB Loop)
    (r : Analysis Inst Fn Loop) : Except Fault (String × String) := do
  match ← items info name F r with
  | some out => pure (String.join (out.map Item.text), "")
  | none => pure ("", "ERROR: No debugging information found!\n")

end Run

/-! ## Reading the output -/

/-- The header, the entry and the label that a reader is at. -/
structure Place where
  loop : Option Nat
  line : Option Int
  bb : Option Nat
  deriving DecidableEq

/-- A record, and where it is found. -/
structure Shown where
  place : Place
  col : Nat
  branchLine : Bool
  workLine : Bool
  iterLine : Bool
  deriving DecidableEq

def readItem (st : Place × List Shown) : Item → Place × List Shown
  | .loop k => (⟨some k, none, none⟩, st.2)
  | .entry _ line => (⟨st.1.loop, some line, none⟩, st.2)
  | .bb n => (⟨st.1.loop, st.1.line, some n⟩, st.2)
  | .record col branchLine workLine iterLine =>
    (st.1, st.2 ++ [⟨st.1, col, branchLine, workLine, iterLine⟩])
  | .newline => (⟨st.1.loop, none, none⟩, st.2)

/-- The records of an output and where it ends. -/
def read (out : List Item) : Place × List Shown := out.foldl readItem (⟨none, none, none⟩, [])

/-- The record of `r` under the header of the loop `k`. -/
def Row.shown (r : Row) (k : Nat) : Shown :=
  ⟨⟨some k, some r.line, some r.bb⟩, r.col, r.branchLine, r.workLine, r.iterLine⟩

/-! ## One entry -/

theorem printEntry_rows (line prevBB : Int) (rows : List Row) :
    (printEntry line prevBB rows).1 =
      rows.map fun r => if r.line = line then { r with line := -1 } else r := by
  induction rows generalizing prevBB with
  | nil => rfl
  | cons r rest ih =>
    rw [printEntry, List.map_cons]
    by_cases h : r.line = line
    · rw [if_neg (not_not.mpr h), if_pos h, ← ih r.bb]
    · rw [if_pos h, if_neg h, ← ih prevBB]

/-- The loop over `j` writes the rows of `line`, each under the label of its block. -/
theorem printEntry_read (line : Int) (k : Nat) (rows : List Row) (prevBB : Int) (bb : Option Nat)
    (hbb : ∀ n : Nat, (n : Int) = prevBB → bb = some n) (acc : List Shown) :
    ∃ bb', (printEntry line prevBB rows).2.foldl readItem (⟨some k, some line, bb⟩, acc) =
      (⟨some k, some line, bb'⟩,
        acc ++ (rows.filter fun r => r.line = line).map fun r => r.shown k) := by
  induction rows generalizing prevBB bb acc with
  | nil => exact ⟨bb, by simp [printEntry]⟩
  | cons r rest ih =>
    rw [printEntry]
    by_cases h : r.line = line
    · have hlabel : (if (r.bb : Int) ≠ prevBB then [Item.bb r.bb] else []).foldl readItem
          (⟨some k, some line, bb⟩, acc) = (⟨some k, some line, some r.bb⟩, acc) := by
        by_cases hp : (r.bb : Int) = prevBB
        · rw [if_neg (not_not.mpr hp), hbb r.bb hp]
          rfl
        · rw [if_pos hp]
          rfl
      obtain ⟨bb', hrest⟩ := ih r.bb (some r.bb) (fun n hn => by rw [Nat.cast_inj.mp hn])
        (acc ++ [r.shown k])
      refine ⟨bb', ?_⟩
      rw [if_neg (not_not.mpr h), List.filter_cons_of_pos (by simpa using h)]
      simp only [List.foldl_append, hlabel, List.foldl_cons]
      have hrecord : readItem (⟨some k, some line, some r.bb⟩, acc) r.record =
          (⟨some k, some line, some r.bb⟩, acc ++ [r.shown k]) := by
        rw [← h]
        rfl
      rw [hrecord, hrest, List.map_cons, List.append_assoc]
      rfl
    · rw [if_pos h, List.filter_cons_of_neg (by simpa using h)]
      exact ih prevBB bb hbb acc

/-! ## All entries -/

/-- The loop of the first row of `line`. -/
def firstLoop (rows : List Row) (line : Int) : Nat :=
  ((rows.find? fun r => r.line = line).map Row.loop).getD 0

/-- `r` as it is left when the lines in `seen` have been printed. -/
def Row.marked (seen : List Int) (r : Row) : Row :=
  if r.line ∈ seen then { r with line := -1 } else r

/-- What is kept when the loop over `i` has dealt with the lines in `seen`. -/
structure PrintInv (rows : List Row) (seen : List Int) (st : Printed) : Prop where
  rows_eq : st.rows = rows.map (Row.marked seen)
  loop : ∀ k : Nat, (k : Int) = st.prevLoop → (read st.out).1.loop = some k
  perm : (read st.out).2.Perm
    ((rows.filter fun r => r.line ≠ -1 ∧ r.line ∈ seen).map fun r =>
      r.shown (firstLoop rows r.line))

/-- What the entry of a new line adds. -/
theorem filter_seen_perm (rows : List Row) (seen : List Int) {line : Int} (hline : line ≠ -1)
    (hnew : line ∉ seen) :
    (rows.filter fun r => r.line ≠ -1 ∧ r.line ∈ seen ++ [line]).Perm
      ((rows.filter fun r => r.line ≠ -1 ∧ r.line ∈ seen) ++ rows.filter fun r => r.line = line) := by
  refine (List.filter_append_perm (fun r => decide (r.line ∈ seen)) _).symm.trans ?_
  rw [List.filter_filter, List.filter_filter]
  refine List.Perm.of_eq (congrArg₂ _ (List.filter_congr fun r _ => ?_)
    (List.filter_congr fun r _ => ?_))
  · by_cases h : r.line ∈ seen <;> simp [h]
  · by_cases h : r.line = line
    · simp [h, hline, hnew]
    · by_cases h' : r.line ∈ seen <;> simp [h, h']

/-- The rows of a line that has not been printed are unmarked. -/
theorem filter_marked (rows : List Row) (seen : List Int) {line : Int} (hline : line ≠ -1)
    (hnew : line ∉ seen) :
    ((rows.map (Row.marked seen)).filter fun r => r.line = line) =
      rows.filter fun r => r.line = line := by
  induction rows with
  | nil => rfl
  | cons r rest ih =>
    rw [List.map_cons]
    by_cases h : r.line ∈ seen
    · have hne : ¬ (-1 : Int) = line := Ne.symm hline
      have hr : ¬ r.line = line := by
        rintro rfl
        exact hnew h
      rw [List.filter_cons_of_neg (by simpa [Row.marked, h] using hne),
        List.filter_cons_of_neg (by simpa using hr), ih]
    · have hm : r.marked seen = r := if_neg h
      rw [hm, List.filter_cons, List.filter_cons, ih]

/-- A line that has been printed, or that is -1, adds nothing. -/
theorem PrintInv.skip {rows : List Row} {seen : List Int} {st : Printed} (h : PrintInv rows seen st)
    {line : Int} (hline : line ∈ seen ∨ line = -1) : PrintInv rows (seen ++ [line]) st := by
  have hmarked : ∀ r : Row, r.marked (seen ++ [line]) = r.marked seen := by
    intro r
    unfold Row.marked
    by_cases hr : r.line ∈ seen
    · rw [if_pos hr, if_pos (List.mem_append_left _ hr)]
    · by_cases he : r.line = line
      · have hneg : r.line = -1 := he.trans (hline.resolve_left (he ▸ hr))
        rw [if_neg hr, if_pos (by simp [he]), ← hneg]
      · rw [if_neg hr, if_neg (by simp [hr, he])]
  have hfilter : ∀ r : Row, (r.line ≠ -1 ∧ r.line ∈ seen ++ [line]) ↔
      (r.line ≠ -1 ∧ r.line ∈ seen) := by
    intro r
    refine and_congr_right fun hr => ?_
    rw [List.mem_append, List.mem_singleton]
    refine or_iff_left_of_imp fun he => ?_
    rcases hline with hline | hline
    · exact he ▸ hline
    · exact absurd (he.trans hline) hr
  refine ⟨h.rows_eq.trans (List.map_congr_left fun r _ => (hmarked r).symm), h.loop, ?_⟩
  simp only [hfilter]
  exact h.perm

/-- The output of a turn that prints an entry. -/
theorem read_turn (out : List Item) {prevLoop : Int}
    (hloop : ∀ k : Nat, (k : Int) = prevLoop → (read out).1.loop = some k) (filename : String)
    (r : Row) (rows : List Row) :
    read (out ++ (if (r.loop : Int) ≠ prevLoop then [Item.loop r.loop] else []) ++
        [.entry filename r.line] ++ (printEntry r.line (-1) rows).2 ++ [.newline]) =
      (⟨some r.loop, none, none⟩,
        (read out).2 ++ (rows.filter fun r' => r'.line = r.line).map fun r' => r'.shown r.loop) := by
  have hheader : (read (out ++ if (r.loop : Int) ≠ prevLoop then [Item.loop r.loop] else [])).1.loop
      = some r.loop ∧
      (read (out ++ if (r.loop : Int) ≠ prevLoop then [Item.loop r.loop] else [])).2 =
        (read out).2 := by
    by_cases hp : (r.loop : Int) = prevLoop
    · rw [if_neg (not_not.mpr hp), List.append_nil]
      exact ⟨hloop _ hp, rfl⟩
    · rw [if_pos hp, read, List.foldl_append]
      exact ⟨rfl, rfl⟩
  obtain ⟨bb', hentry⟩ := printEntry_read r.line r.loop rows (-1) none
    (fun n hn => by omega) (read out).2
  generalize hout : (out ++ if (r.loop : Int) ≠ prevLoop then [Item.loop r.loop] else []) = out'
    at hheader ⊢
  have hplace : readItem (read out') (.entry filename r.line) =
      (⟨some r.loop, some r.line, none⟩, (read out).2) := by
    rw [readItem, hheader.1, hheader.2]
  rw [read, List.foldl_append, List.foldl_append, List.foldl_append, ← read]
  simp only [List.foldl_cons, List.foldl_nil, hplace, hentry]
  rfl

theorem PrintInv.turn {File : DIFile} {rows : List Row} {seen : List Int} {i : Nat} {r : Row}
    {st : Printed} (h : PrintInv rows seen st) (hi : st.rows[i]? = some (r.marked seen))
    (hfirst : r.line ∉ seen → rows.find? (fun r' => r'.line = r.line) = some r) :
    PrintInv rows (seen ++ [r.line]) (printTurn File st i) := by
  unfold printTurn
  rw [hi]
  by_cases hskip : r.line ∈ seen ∨ r.line = -1
  · have hneg : (r.marked seen).line = -1 := by
      unfold Row.marked
      split
      · rfl
      · next hr => exact hskip.resolve_left hr
    simp only [if_pos hneg]
    exact h.skip hskip
  · obtain ⟨hnew, hne⟩ := not_or.mp hskip
    have hr : r.marked seen = r := if_neg hnew
    simp only [hr, if_neg hne]
    have hread := read_turn st.out h.loop File.filename r st.rows
    refine ⟨?_, fun k hk => ?_, ?_⟩
    · rw [printEntry_rows, h.rows_eq, List.map_map]
      refine List.map_congr_left fun r' _ => ?_
      unfold Row.marked
      by_cases hs : r'.line ∈ seen
      · simp [hs, Ne.symm hne]
      · simp [hs]
    · rw [hread, Nat.cast_inj.mp hk]
    · have hk : firstLoop rows r.line = r.loop := by
        rw [firstLoop, hfirst hnew]
        rfl
      rw [hread, h.rows_eq, filter_marked rows seen hne hnew]
      refine List.Perm.trans ?_ ((filter_seen_perm rows seen hne hnew).map _).symm
      rw [List.map_append]
      refine h.perm.append (List.Perm.of_eq (List.map_congr_left fun r' hr' => ?_))
      have he : r'.line = r.line := by simpa using (List.mem_filter.mp hr').2
      rw [he, hk]

/-- **What is printed**: each row once, unless its line is -1, under the header of the loop that its
line occurs in first. -/
theorem printRows_read (File : DIFile) (rows : List Row) :
    (read (printRows File rows)).2.Perm
      ((rows.filter fun r => r.line ≠ -1).map fun r => r.shown (firstLoop rows r.line)) := by
  have hinv : ∀ i ≤ rows.length, PrintInv rows ((rows.take i).map Row.line)
      ((List.range i).foldl (printTurn File) ⟨rows, -1, []⟩) := by
    intro i
    induction i with
    | zero =>
      intro _
      have hmarked : Row.marked [] = id := by
        funext r
        simp [Row.marked]
      refine ⟨by simp [hmarked], fun k hk => ?_, by simp [read]⟩
      have hneg : (k : Int) = -1 := hk
      omega
    | succ i ih =>
      intro hi
      have hlt : i < rows.length := hi
      have h := ih hlt.le
      rw [List.range_succ, List.foldl_append, List.take_succ_eq_append_getElem hlt, List.map_append]
      refine h.turn ?_ fun hnew => ?_
      · rw [h.rows_eq, List.getElem?_map, List.getElem?_eq_getElem hlt]
        rfl
      · refine List.find?_eq_some_iff_getElem.mpr ⟨by simp, i, hlt, rfl, fun j hj => ?_⟩
        have hmem : rows[j] ∈ rows.take i := List.mem_take_iff_getElem.mpr ⟨j, by omega, rfl⟩
        have hne : rows[j].line ≠ rows[i].line := fun he => hnew (he ▸ List.mem_map_of_mem hmem)
        simpa using hne
  have h := (hinv rows.length le_rfl).perm
  have hfilter : (rows.filter fun r => r.line ≠ -1 ∧ r.line ∈ (rows.take rows.length).map Row.line) =
      rows.filter fun r => r.line ≠ -1 := by
    refine List.filter_congr fun r hr => ?_
    have hmem : r.line ∈ (rows.take rows.length).map Row.line := by
      rw [List.take_length]
      exact List.mem_map_of_mem hr
    simp only [hmem, and_true]
  rw [hfilter] at h
  exact h

/-! ## The instructions of the loops -/

/-- A block `bb` of the loop `L`, the one with number `k` among those with work; `n` is the number of
the block among all of their blocks. -/
structure Site (Loop BB : Type) where
  L : Loop
  k : Nat
  bb : BB
  n : Nat

/-- The blocks of `works`, loop by loop. -/
def sites (F : Function Inst BB Loop) (works : List Loop) : List (Site Loop BB) :=
  (works.zipIdx.flatMap fun L => (F.loopBlocks L.1).map fun bb => (L, bb)).zipIdx.map
    fun s => ⟨s.1.1.1, s.1.1.2, s.1.2, s.2⟩

/-- The instructions of `works`, block by block. -/
def visited (F : Function Inst BB Loop) (works : List Loop) : List (Site Loop BB × Inst) :=
  (sites F works).flatMap fun s => (F.insts s.bb).map fun inst => (s, inst)

section Sites

variable {F : Function Inst BB Loop} {works : List Loop} {s : Site Loop BB}

theorem sites_snoc (F : Function Inst BB Loop) (works : List Loop) (L : Loop) :
    sites F (works ++ [L]) = sites F works ++
      ((F.loopBlocks L).zipIdx (sites F works).length).map fun bb =>
        ⟨L, works.length, bb.1, bb.2⟩ := by
  unfold sites
  simp [List.zipIdx_append, List.zipIdx_map]

theorem mem_sites (hs : s ∈ sites F works) :
    works[s.k]? = some s.L ∧ s.bb ∈ F.loopBlocks s.L ∧ (sites F works)[s.n]? = some s := by
  obtain ⟨x, hx, rfl⟩ := List.mem_map.mp hs
  have hget := List.mem_zipIdx_iff_getElem?.mp hx
  obtain ⟨L, hL, hbb⟩ := List.mem_flatMap.mp (List.mem_of_getElem? hget)
  obtain ⟨bb, hbb, he⟩ := List.mem_map.mp hbb
  rw [← he] at hget ⊢
  refine ⟨List.mem_zipIdx_iff_getElem?.mp hL, hbb, ?_⟩
  rw [sites, List.getElem?_map, List.getElem?_zipIdx, hget]
  simp

theorem exists_site {L : Loop} (hL : L ∈ works) {bb : BB} (hbb : bb ∈ F.loopBlocks L) :
    ∃ s ∈ sites F works, s.L = L ∧ s.bb = bb := by
  obtain ⟨k, hk⟩ := List.mem_iff_getElem?.mp hL
  have hmem : ((L, k), bb) ∈
      works.zipIdx.flatMap fun L => (F.loopBlocks L.1).map fun bb => (L, bb) :=
    List.mem_flatMap.mpr ⟨(L, k), List.mem_zipIdx_iff_getElem?.mpr hk,
      List.mem_map.mpr ⟨bb, hbb, rfl⟩⟩
  obtain ⟨n, hn⟩ := List.mem_iff_getElem?.mp hmem
  exact ⟨⟨L, k, bb, n⟩, List.mem_map.mpr ⟨(((L, k), bb), n),
    List.mem_zipIdx_iff_getElem?.mpr hn, rfl⟩, rfl, rfl⟩

theorem mem_visited {v : Site Loop BB × Inst} :
    v ∈ visited F works ↔ v.1 ∈ sites F works ∧ v.2 ∈ F.insts v.1.bb := by
  unfold visited
  simp only [List.mem_flatMap, List.mem_map]
  constructor
  · rintro ⟨s, hs, inst, hinst, rfl⟩
    exact ⟨hs, hinst⟩
  · rintro ⟨hs, hinst⟩
    exact ⟨v.1, hs, v.2, hinst, rfl⟩

/-- The loops' instructions are visited, and no others. -/
theorem exists_visited {L : Loop} (hL : L ∈ works) {inst : Inst} (hinst : F.InLoop L inst) :
    ∃ s, (s, inst) ∈ visited F works ∧ s.L = L := by
  obtain ⟨bb, hbb, hinst⟩ := hinst
  obtain ⟨s, hs, hsL, rfl⟩ := exists_site hL hbb
  exact ⟨s, mem_visited.mpr ⟨hs, hinst⟩, hsL⟩

theorem inLoop_of_visited {v : Site Loop BB × Inst} (hv : v ∈ visited F works) :
    v.1.L ∈ works ∧ F.InLoop v.1.L v.2 := by
  obtain ⟨hs, hinst⟩ := mem_visited.mp hv
  obtain ⟨hk, hbb, -⟩ := mem_sites hs
  exact ⟨List.mem_of_getElem? hk, v.1.bb, hbb, hinst⟩

end Sites

/-! ## Gathering -/

section Gather

variable [LinearOrder Inst] [LinearOrder Fn] [LinearOrder Loop]

/-- The row of an instruction, if it has a location. -/
def rowAt (info : RecordInfo Inst) (r : Analysis Inst Fn Loop) (v : Site Loop BB × Inst) :
    Option Row :=
  (info.getDebugLoc v.2).map fun Loc => ⟨toInt Loc.line, (info.getColumn v.2).toNat, v.1.n, v.1.k,
    info.isBranch v.2, r.isWork v.2 v.1.L = .ok true, r.isIter v.2 v.1.L = .ok true⟩

/-- The vectors hold the rows of `vs`, and `File` is the first file. -/
structure Gathers (info : RecordInfo Inst) (r : Analysis Inst Fn Loop)
    (vs : List (Site Loop BB × Inst)) (st : Gathered) : Prop where
  file : st.File = vs.findSome? fun v => (info.getDebugLoc v.2).bind DILocation.file
  rows : st.rows = vs.filterMap (rowAt info r)

/-- `isWork` and `isIter` answer for the instructions of the loops in `loops`. -/
def Answers (F : Function Inst BB Loop) (r : Analysis Inst Fn Loop) (loops : List Loop) : Prop :=
  ∀ L ∈ loops, ∀ inst, F.InLoop L inst →
    (∃ work, r.isWork inst L = .ok work) ∧ ∃ iter, r.isIter inst L = .ok iter

variable {info : RecordInfo Inst} {F : Function Inst BB Loop} {r : Analysis Inst Fn Loop}
  {vs : List (Site Loop BB × Inst)} {st : Gathered} {works : List Loop}

theorem noteInst_spec (h : Gathers info r vs st) {v : Site Loop BB × Inst} (hn : st.bbCount = v.1.n)
    (hk : st.loopCount = v.1.k) {work iter : Bool} (hwork : r.isWork v.2 v.1.L = .ok work)
    (hiter : r.isIter v.2 v.1.L = .ok iter) :
    ∃ st', noteInst info r v.1.L st v.2 = .ok st' ∧ Gathers info r (vs ++ [v]) st' ∧
      st'.bbCount = st.bbCount ∧ st'.loopCount = st.loopCount := by
  unfold noteInst
  cases hLoc : info.getDebugLoc v.2 with
  | none =>
    refine ⟨st, rfl, ⟨?_, ?_⟩, rfl, rfl⟩
    · rw [h.file, List.findSome?_append]
      simp [hLoc]
    · rw [h.rows, List.filterMap_append]
      simp [rowAt, hLoc]
  | some Loc =>
    let row : Row := ⟨toInt Loc.line, (info.getColumn v.2).toNat, st.bbCount, st.loopCount,
      info.isBranch v.2, work, iter⟩
    refine ⟨{ st with File := st.File <|> Loc.file, rows := st.rows ++ [row] }, ?_, ⟨?_, ?_⟩, rfl,
      rfl⟩
    · simp only [hwork, hiter]
      cases hfile : st.File <;> rfl
    · show (st.File <|> Loc.file) = _
      rw [h.file, List.findSome?_append]
      simp [hLoc]
    · show st.rows ++ [row] = _
      rw [h.rows, List.filterMap_append]
      simp [rowAt, row, hLoc, hn, hk, hwork, hiter]

theorem noteBlock_spec (h : Gathers info r vs st) {s : Site Loop BB} (hn : st.bbCount = s.n)
    (hk : st.loopCount = s.k)
    (hanswer : ∀ inst ∈ F.insts s.bb, (∃ work, r.isWork inst s.L = .ok work) ∧
      ∃ iter, r.isIter inst s.L = .ok iter) :
    ∃ st', noteBlock info F r s.L st s.bb = .ok st' ∧
      Gathers info r (vs ++ (F.insts s.bb).map fun inst => (s, inst)) st' ∧
      st'.bbCount = s.n + 1 ∧ st'.loopCount = s.k := by
  obtain ⟨st', hok, h', hn', hk'⟩ := foldlM_total (l := F.insts s.bb) (f := noteInst info r s.L)
    (s := st) (P := fun (done : List Inst) st' =>
      Gathers info r (vs ++ done.map fun inst => (s, inst)) st' ∧ st'.bbCount = s.n ∧
        st'.loopCount = s.k)
    (fun done inst rest st₁ hl h₁ => by
      obtain ⟨h₁, hn₁, hk₁⟩ := h₁
      obtain ⟨⟨work, hwork⟩, iter, hiter⟩ := hanswer inst (by simp [hl])
      obtain ⟨st₂, hok, h₂, hn₂, hk₂⟩ := noteInst_spec h₁ (v := (s, inst)) hn₁ hk₁ hwork hiter
      refine ⟨st₂, hok, ?_, hn₂.trans hn₁, hk₂.trans hk₁⟩
      simpa using h₂)
    ⟨by simpa using h, hn, hk⟩
  refine ⟨{ st' with bbCount := st'.bbCount + 1 }, ?_, ⟨h'.file, h'.rows⟩, ?_, hk'⟩
  · rw [noteBlock, hok]
    rfl
  · show st'.bbCount + 1 = s.n + 1
    rw [hn']

theorem noteLoop_spec {L : Loop} (h : Gathers info r (visited F works) st)
    (hn : st.bbCount = (sites F works).length) (hk : st.loopCount = works.length)
    (hwork : r.dl.hasWork L = true)
    (hanswer : ∀ inst, F.InLoop L inst → (∃ work, r.isWork inst L = .ok work) ∧
      ∃ iter, r.isIter inst L = .ok iter) :
    ∃ st', noteLoop info F r st L = .ok st' ∧ Gathers info r (visited F (works ++ [L])) st' ∧
      st'.bbCount = (sites F (works ++ [L])).length ∧ st'.loopCount = (works ++ [L]).length := by
  let at' : BB × Nat → Site Loop BB := fun bb => ⟨L, works.length, bb.1, bb.2⟩
  obtain ⟨st', hok, h', hn', hk'⟩ := foldlM_total (l := F.loopBlocks L) (f := noteBlock info F r L)
    (s := st) (P := fun (done : List BB) st' =>
      Gathers info r (visited F works ++ ((done.zipIdx (sites F works).length).map at').flatMap
        fun s => (F.insts s.bb).map fun inst => (s, inst)) st' ∧
      st'.bbCount = (sites F works).length + done.length ∧ st'.loopCount = works.length)
    (fun done bb rest st₁ hl h₁ => by
      obtain ⟨h₁, hn₁, hk₁⟩ := h₁
      obtain ⟨st₂, hok, h₂, hn₂, hk₂⟩ := noteBlock_spec (s := at' (bb, st₁.bbCount)) h₁ rfl hk₁
        (fun inst hinst => hanswer inst ⟨bb, by simp [hl], hinst⟩)
      refine ⟨st₂, hok, ?_, ?_, hk₂⟩
      · rw [hn₁] at h₂
        simpa [List.zipIdx_append, List.zipIdx_singleton] using h₂
      · rw [hn₂]
        show st₁.bbCount + 1 = _
        rw [hn₁, List.length_append, List.length_singleton, Nat.add_assoc])
    ⟨by simpa using h, hn, hk⟩
  refine ⟨{ st' with loopCount := st'.loopCount + 1 }, ?_, ?_, ?_, ?_⟩
  · rw [noteLoop, if_pos hwork, hok]
    rfl
  · rw [visited, sites_snoc, List.flatMap_append]
    exact ⟨h'.file, h'.rows⟩
  · rw [sites_snoc]
    simpa using hn'
  · show st'.loopCount + 1 = _
    rw [hk', List.length_append]
    rfl

/-- **The vectors** hold the located instructions of the loops with work. -/
theorem gather_spec (info : RecordInfo Inst) (hanswer : Answers F r (F.loops.filter r.dl.hasWork)) :
    ∃ st, gather info F r = .ok st ∧
      Gathers info r (visited F (F.loops.filter r.dl.hasWork)) st := by
  obtain ⟨st, hok, h, -⟩ := foldlM_total (l := F.loops) (f := noteLoop info F r)
    (s := ⟨none, [], 0, 0⟩) (P := fun (done : List Loop) st =>
      Gathers info r (visited F (done.filter r.dl.hasWork)) st ∧
      st.bbCount = (sites F (done.filter r.dl.hasWork)).length ∧
      st.loopCount = (done.filter r.dl.hasWork).length)
    (fun done L rest st hl h => by
      obtain ⟨h, hn, hk⟩ := h
      rw [List.filter_append]
      by_cases hwork : r.dl.hasWork L = true
      · rw [List.filter_cons_of_pos hwork, List.filter_nil]
        exact noteLoop_spec h hn hk hwork
          (hanswer L (List.mem_filter.mpr ⟨by simp [hl], hwork⟩))
      · rw [List.filter_cons_of_neg hwork, List.filter_nil, List.append_nil]
        exact ⟨st, by rw [noteLoop, if_neg hwork], h, hn, hk⟩)
    ⟨⟨rfl, rfl⟩, rfl, rfl⟩
  exact ⟨st, hok, h⟩

end Gather

/-! ## Where the output is right -/

theorem toInt_eq {n : Nat} (h : n < 2 ^ 31) : toInt n = n := by
  unfold toInt
  rw [Int.bmod_eq_of_le] <;> omega

theorem toInt_lt (n : Nat) : toInt n < 2 ^ 31 :=
  Int.bmod_lt (by norm_num)

section Faithful

variable [LinearOrder Inst] [LinearOrder Fn] [LinearOrder Loop]

/-- The record that an instruction with a location should have. -/
def shownAt (info : RecordInfo Inst) (r : Analysis Inst Fn Loop) (v : Site Loop BB × Inst) :
    Option Shown :=
  (info.getDebugLoc v.2).map fun Loc => ⟨⟨some v.1.k, some Loc.line, some v.1.n⟩,
    (info.getColumn v.2).toNat, info.isBranch v.2, r.isWork v.2 v.1.L = .ok true,
    r.isIter v.2 v.1.L = .ok true⟩

/-- Each located instruction of the loops with work has its record, once, under the header of its
loop, in an entry of its line and under the label of its block. -/
def Faithful (info : RecordInfo Inst) (name : Fn) (F : Function Inst BB Loop)
    (r : Analysis Inst Fn Loop) : Prop :=
  ∃ out, items info name F r = .ok out ∧ (read (out.getD [])).2.Perm
    ((visited F (F.loops.filter r.dl.hasWork)).filterMap (shownAt info r))

structure Separated (info : RecordInfo Inst) (F : Function Inst BB Loop)
    (r : Analysis Inst Fn Loop) : Prop where
  /-- The lines are positive as `int`. -/
  line_lt : ∀ L ∈ F.loops.filter r.dl.hasWork, ∀ Loc ∈ F.located info.toDebugInfo L,
    Loc.line < 2 ^ 31
  /-- No two loops with work have a line in common. -/
  loop : ∀ L ∈ F.loops.filter r.dl.hasWork, ∀ L' ∈ F.loops.filter r.dl.hasWork,
    ∀ Loc ∈ F.located info.toDebugInfo L, ∀ Loc' ∈ F.located info.toDebugInfo L',
      Loc.line = Loc'.line → L = L'
  /-- If they have locations, one of these has a file. -/
  file : ∀ L ∈ F.loops.filter r.dl.hasWork, F.located info.toDebugInfo L ≠ [] →
    ∃ L' ∈ F.loops.filter r.dl.hasWork, ∃ Loc ∈ F.located info.toDebugInfo L', Loc.file ≠ none

variable {info : RecordInfo Inst} {F : Function Inst BB Loop} {r : Analysis Inst Fn Loop}
  {works : List Loop}

/-- The rows are shown where they belong exactly when no row is under the header of another loop. -/
theorem shown_perm_iff {rows : List Row}
    (hrows : rows = (visited F works).filterMap (rowAt info r)) :
    ((rows.filter fun row => row.line ≠ -1).map fun row =>
        row.shown (firstLoop rows row.line)).Perm
      ((visited F works).filterMap (shownAt info r)) ↔
    ∀ v ∈ visited F works, ∀ Loc, info.getDebugLoc v.2 = some Loc →
      Loc.line < 2 ^ 31 ∧ v.1.k = firstLoop rows (toInt Loc.line) := by
  constructor
  · intro h v hv Loc hLoc
    have hmem : ∀ row ∈ rows, row.line ≠ -1 → row.shown (firstLoop rows row.line) ∈
        (visited F works).filterMap (shownAt info r) := fun row hrow hne =>
      h.mem_iff.mp (List.mem_map_of_mem (List.mem_filter.mpr ⟨hrow, by simpa using hne⟩))
    -- the record of `v` is that of some row, whose line is an `int`
    have hlt : Loc.line < 2 ^ 31 := by
      have hv' : (shownAt info r v).get (by simp [shownAt, hLoc]) ∈
          (visited F works).filterMap (shownAt info r) :=
        List.mem_filterMap.mpr ⟨v, hv, by simp⟩
      obtain ⟨row, hrow, he⟩ := List.mem_map.mp (h.mem_iff.mpr hv')
      have hline : row.line = Loc.line := by
        have := congrArg (fun s : Shown => s.place.line) he
        simpa [Row.shown, shownAt, hLoc] using this
      have hrow' := (List.mem_filter.mp hrow).1
      rw [hrows] at hrow'
      obtain ⟨w, -, hw⟩ := List.mem_filterMap.mp hrow'
      obtain ⟨Loc', -, rfl⟩ := Option.map_eq_some_iff.mp hw
      have := toInt_lt Loc'.line
      dsimp only at hline
      omega
    refine ⟨hlt, ?_⟩
    -- the row of `v` is shown with the label of `v`, which only instructions of its block have
    have hrow : (rowAt info r v).get (by simp [rowAt, hLoc]) ∈ rows := by
      rw [hrows]
      exact List.mem_filterMap.mpr ⟨v, hv, by simp⟩
    have hne : ((rowAt info r v).get (by simp [rowAt, hLoc])).line ≠ -1 := by
      simp only [rowAt, hLoc, Option.map_some, Option.get_some, toInt_eq hlt]
      omega
    obtain ⟨w, hw, he⟩ := List.mem_filterMap.mp (hmem _ hrow hne)
    obtain ⟨Loc', -, he⟩ := Option.map_eq_some_iff.mp he
    simp only [rowAt, hLoc, Option.map_some, Option.get_some, Row.shown, Shown.mk.injEq,
      Place.mk.injEq, Option.some.injEq] at he
    obtain ⟨⟨hk, -, hn⟩, -⟩ := he
    have hsite : w.1 = v.1 := by
      have h₁ := (mem_sites (mem_visited.mp hw).1).2.2
      have h₂ := (mem_sites (mem_visited.mp hv).1).2.2
      rw [hn, h₂] at h₁
      exact (Option.some.inj h₁).symm
    rw [← hk, hsite]
  · intro h
    have hline : ∀ row ∈ rows, row.line ≠ -1 := by
      intro row hrow
      rw [hrows] at hrow
      obtain ⟨v, hv, he⟩ := List.mem_filterMap.mp hrow
      obtain ⟨Loc, hLoc, rfl⟩ := Option.map_eq_some_iff.mp he
      dsimp only
      rw [toInt_eq (h v hv Loc hLoc).1]
      omega
    rw [List.filter_eq_self.mpr fun row hrow => by simpa using hline row hrow]
    refine List.Perm.of_eq ?_
    generalize hfirst : firstLoop rows = first at h
    rw [hrows, List.map_filterMap]
    refine List.filterMap_congr fun v hv => ?_
    unfold rowAt shownAt
    cases hLoc : info.getDebugLoc v.2 with
    | none => rfl
    | some Loc =>
      obtain ⟨hlt, hk⟩ := h v hv Loc hLoc
      rw [toInt_eq hlt] at hk
      simp only [Option.map_some, Row.shown, toInt_eq hlt, hk]

omit [LinearOrder Inst] [LinearOrder Fn] [LinearOrder Loop] in
theorem mem_located_iff {L : Loop} (hL : L ∈ works) {Loc : DILocation} :
    Loc ∈ F.located info.toDebugInfo L ↔
      ∃ v ∈ visited F works, v.1.L = L ∧ info.getDebugLoc v.2 = some Loc := by
  rw [Function.mem_located]
  constructor
  · rintro ⟨inst, hinst, hLoc⟩
    obtain ⟨s, hs, hsL⟩ := exists_visited hL hinst
    exact ⟨(s, inst), hs, hsL, hLoc⟩
  · rintro ⟨v, hv, rfl, hLoc⟩
    exact ⟨v.2, (inLoop_of_visited hv).2, hLoc⟩

/-- No row is under the header of another loop exactly when the loops share no line. -/
theorem firstLoop_iff (hnodup : works.Nodup) {rows : List Row}
    (hrows : rows = (visited F works).filterMap (rowAt info r)) :
    (∀ v ∈ visited F works, ∀ Loc, info.getDebugLoc v.2 = some Loc →
      Loc.line < 2 ^ 31 ∧ v.1.k = firstLoop rows (toInt Loc.line)) ↔
    (∀ L ∈ works, ∀ Loc ∈ F.located info.toDebugInfo L, Loc.line < 2 ^ 31) ∧
    ∀ L ∈ works, ∀ L' ∈ works, ∀ Loc ∈ F.located info.toDebugInfo L,
      ∀ Loc' ∈ F.located info.toDebugInfo L', Loc.line = Loc'.line → L = L' := by
  have hk : ∀ v ∈ visited F works, works[v.1.k]? = some v.1.L := fun v hv =>
    (mem_sites (mem_visited.mp hv).1).1
  constructor
  · intro h
    refine ⟨fun L hL Loc hLoc => ?_, fun L hL L' hL' Loc hLoc Loc' hLoc' he => ?_⟩
    · obtain ⟨v, hv, -, hLoc⟩ := (mem_located_iff hL).mp hLoc
      exact (h v hv Loc hLoc).1
    · obtain ⟨v, hv, rfl, hv'⟩ := (mem_located_iff hL).mp hLoc
      obtain ⟨w, hw, rfl, hw'⟩ := (mem_located_iff hL').mp hLoc'
      have hkk : v.1.k = w.1.k := by
        rw [(h v hv Loc hv').2, (h w hw Loc' hw').2, he]
      have := hk v hv
      rw [hkk, hk w hw] at this
      exact (Option.some.inj this).symm
  · rintro ⟨hlt, hloop⟩ v hv Loc hLoc
    have hvL := (inLoop_of_visited hv).1
    have hmem : Loc ∈ F.located info.toDebugInfo v.1.L :=
      (mem_located_iff hvL).mpr ⟨v, hv, rfl, hLoc⟩
    refine ⟨hlt _ hvL Loc hmem, ?_⟩
    have hsome : (rows.find? fun row => row.line = toInt Loc.line).isSome := by
      rw [List.find?_isSome]
      refine ⟨(rowAt info r v).get (by simp [rowAt, hLoc]), ?_, by simp [rowAt, hLoc]⟩
      rw [hrows]
      exact List.mem_filterMap.mpr ⟨v, hv, by simp⟩
    obtain ⟨row, hrow⟩ := Option.isSome_iff_exists.mp hsome
    have hline : row.line = toInt Loc.line := by simpa using List.find?_some hrow
    have hrowmem := List.mem_of_find?_eq_some hrow
    rw [hrows] at hrowmem
    obtain ⟨w, hw, he⟩ := List.mem_filterMap.mp hrowmem
    obtain ⟨Loc', hLoc', rfl⟩ := Option.map_eq_some_iff.mp he
    have hwL := (inLoop_of_visited hw).1
    have hmem' : Loc' ∈ F.located info.toDebugInfo w.1.L :=
      (mem_located_iff hwL).mpr ⟨w, hw, rfl, hLoc'⟩
    dsimp only at hline
    rw [toInt_eq (hlt _ hwL Loc' hmem'), toInt_eq (hlt _ hvL Loc hmem)] at hline
    have hLL := hloop _ hwL _ hvL Loc' hmem' Loc hmem (Nat.cast_inj.mp hline)
    rw [firstLoop, hrow]
    show v.1.k = w.1.k
    have hlen : v.1.k < works.length := (List.getElem?_eq_some_iff.mp (hk v hv)).1
    exact (List.getElem?_inj hlen hnodup).mp (by rw [hk v hv, hk w hw, hLL])

/-- Where `isWork` and `isIter` answer, the output is right when the loops are apart. -/
theorem faithful_iff_of_answers {name : Fn} (hnodup : F.loops.Nodup)
    (hLI : r.dl.getLI name = some ()) (hanswer : Answers F r (F.loops.filter r.dl.hasWork)) :
    Faithful info name F r ↔ Separated info F r := by
  obtain ⟨st, hst, hg⟩ := gather_spec info hanswer
  have hitems : items info name F r = .ok (st.File.map fun File => printRows File st.rows) := by
    rw [items, hLI]
    simp only [hst]
    rfl
  have hlocated : ∀ L ∈ F.loops.filter r.dl.hasWork, F.located info.toDebugInfo L ≠ [] →
      ∃ v ∈ visited F (F.loops.filter r.dl.hasWork), ∃ Loc, info.getDebugLoc v.2 = some Loc := by
    intro L hL hne
    obtain ⟨Loc, hLoc⟩ := List.exists_mem_of_ne_nil _ hne
    obtain ⟨v, hv, -, hLoc⟩ := (mem_located_iff hL).mp hLoc
    exact ⟨v, hv, Loc, hLoc⟩
  unfold Faithful
  rw [hitems]
  cases hfile : st.File with
  | none =>
    have hno : ∀ v ∈ visited F (F.loops.filter r.dl.hasWork), ∀ Loc,
        info.getDebugLoc v.2 = some Loc → Loc.file = none := by
      rw [hg.file, List.findSome?_eq_none_iff] at hfile
      intro v hv Loc hLoc
      simpa [hLoc] using hfile v hv
    constructor
    · rintro ⟨out, hout, hperm⟩
      obtain rfl := Except.ok.inj hout
      have hnil := List.nil_perm.mp hperm
      have hall : ∀ L ∈ F.loops.filter r.dl.hasWork, F.located info.toDebugInfo L = [] := by
        intro L hL
        by_contra hne
        obtain ⟨v, hv, Loc, hLoc⟩ := hlocated L hL hne
        have := List.filterMap_eq_nil_iff.mp hnil v hv
        simp [shownAt, hLoc] at this
      refine ⟨fun L hL Loc hLoc => ?_, fun L hL _ _ Loc hLoc => ?_, fun L hL hne => ?_⟩
      · simp [hall L hL] at hLoc
      · simp [hall L hL] at hLoc
      · exact absurd (hall L hL) hne
    · intro h
      refine ⟨_, rfl, List.nil_perm.mpr (List.filterMap_eq_nil_iff.mpr fun v hv => ?_)⟩
      cases hLoc : info.getDebugLoc v.2 with
      | none => simp [shownAt, hLoc]
      | some Loc =>
        have hvL := (inLoop_of_visited hv).1
        have hmem := (mem_located_iff hvL).mpr ⟨v, hv, rfl, hLoc⟩
        obtain ⟨L', hL', Loc', hLoc', hf⟩ := h.file _ hvL (List.ne_nil_of_mem hmem)
        obtain ⟨w, hw, -, hLoc'⟩ := (mem_located_iff hL').mp hLoc'
        exact absurd (hno w hw Loc' hLoc') hf
  | some File =>
    have hread := printRows_read File st.rows
    have hiff := (shown_perm_iff hg.rows).trans
      (firstLoop_iff (hnodup.sublist List.filter_sublist) hg.rows)
    constructor
    · rintro ⟨out, hout, hperm⟩
      obtain rfl := Except.ok.inj hout
      obtain ⟨hlt, hloop⟩ := hiff.mp (hread.symm.trans hperm)
      refine ⟨hlt, hloop, fun _ _ _ => ?_⟩
      rw [hg.file] at hfile
      obtain ⟨v, hv, hf⟩ := List.exists_of_findSome?_eq_some hfile
      obtain ⟨Loc, hLoc, hf⟩ := Option.bind_eq_some_iff.mp hf
      have hvL := (inLoop_of_visited hv).1
      exact ⟨v.1.L, hvL, Loc, (mem_located_iff hvL).mpr ⟨v, hv, rfl, hLoc⟩, by simp [hf]⟩
    · intro h
      exact ⟨_, rfl, hread.trans (hiff.mpr ⟨h.line_lt, h.loop⟩)⟩

variable [LinearOrder BB] {psg₀ : PDGSCCGraphPass Inst} {dl₀ : DecoupleLoopsPass Fn Loop}

/-- **Where the printed split is right**: no two loops with work share a source line, the lines fit in
an `int`, and the file is known. -/
theorem faithful_iff (hF : F.WellFormed) (heap : Heap) (name : Fn) (hpsg : psg₀.Released)
    (hdl : dl₀.Released) :
    ∃ r, analyse heap name F psg₀ dl₀ = .ok r ∧
      ∀ info : RecordInfo Inst, Faithful info name F r ↔ Separated info F r := by
  obtain ⟨r, hr, h, hLI, -⟩ := analyse_spec hF heap name hpsg hdl
  refine ⟨r, hr, fun info => faithful_iff_of_answers hF.loops_nodup ?_ fun L hL inst hinst => ?_⟩
  · rw [DecoupleLoopsPass.getLI, hLI, OrdMap.get_insert, if_pos rfl]
  · have hmem := hF.inLoop_mem (List.mem_filter.mp hL).1 hinst
    obtain ⟨work, hwork, -⟩ := h.isWork hmem L
    obtain ⟨iter, hiter, -⟩ := h.isIter hmem L
    exact ⟨⟨work, hwork⟩, iter, hiter⟩

/-- `for (i = 0; i < n; ++i) a[i] = i; for (i = 0; i < n; ++i) b[i] = i;`, each loop one block. -/
def twoLoops : Function (Fin 11) (Fin 13) (Fin 14) where
  blocks := [0, 1, 2, 3]
  succs b := [[1], [1, 2], [2, 3]].getD b.val []
  succs_mem := by decide
  insts b := [[0], [1, 2, 3, 4], [5, 6, 7, 8], [9]].getD b.val []
  users i := [[], [some 2, some 3], [], [some 1, some 4], [], [some 6, some 7], [],
    [some 5, some 8]].getD i.val []
  incoming i := [none, some [(.constant 0, 0), (.instruction 3, 1)], none, none, none,
    some [(.constant 0, 1), (.instruction 7, 2)]].getD i.val none
  mayReadOrWriteMemory i := i.val = 2 ∨ i.val = 6
  getDependency _ := ⟨none, false⟩
  pdt := ⟨.node (some 3) [.node (some 2) [.node (some 1) [.node (some 0) []]]]⟩
  loops := [0, 1]
  loopBlocks L := [[1], [2]].getD L.val []

/-- Both loops are written on one line. -/
def oneLine : RecordInfo (Fin 11) where
  functionName _ := "f"
  getDebugLoc _ := some ⟨some ⟨"", "two.c"⟩, 5⟩
  getColumn i := .ofNat i.val
  isBranch i := i.val = 4 ∨ i.val = 8

theorem faithful_iff_twoLoops :
    twoLoops.WellFormed ∧
    ∃ r, analyse .bump (0 : Fin 1) twoLoops .fresh .fresh = .ok r ∧
      ∀ info : RecordInfo (Fin 11), Faithful info 0 twoLoops r ↔ Separated info twoLoops r :=
  have hF : twoLoops.WellFormed := by decide +kernel
  ⟨hF, faithful_iff hF .bump 0 PDGSCCGraphPass.released_fresh DecoupleLoopsPass.released_fresh⟩

/-- The records of the second loop are printed under `Loop 0`. -/
theorem not_faithful_oneLine :
    twoLoops.WellFormed ∧
    ∃ r, analyse .bump (0 : Fin 1) twoLoops .fresh .fresh = .ok r ∧
      ¬ Faithful oneLine 0 twoLoops r := by
  refine ⟨by decide +kernel, ?_⟩
  have hrun : (analyse .bump (0 : Fin 1) twoLoops .fresh .fresh).map
      (fun r => (items oneLine 0 twoLoops r).map fun out => (read (out.getD [])).2.isPerm
        ((visited twoLoops (twoLoops.loops.filter r.dl.hasWork)).filterMap (shownAt oneLine r))) =
      .ok (.ok false) := by
    unfold analyse buildPDG ControlDependenceGraphPass.runOnFunction
    rw [ControlDependenceGraphPass.getBottomUpTraversal_eq]
    decide +kernel
  obtain ⟨r, hr, he⟩ := map_ok.mp hrun
  refine ⟨r, hr, ?_⟩
  rintro ⟨out, hout, hperm⟩
  rw [hout] at he
  exact Bool.false_ne_true ((Except.ok.inj he).symm.trans (List.isPerm_iff.mpr hperm))

end Faithful

end DecoupleLoopsPrinter

end IcsaDswp
