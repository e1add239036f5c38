import IcsaDswp.SourceToPSGPrinter

/-!
# Source ranges of loops

`pass/src/DecoupleSourceSplitPrinter.cpp`: an entry with file, first and last line for each loop
that has work. The first line is the one of the first instruction with a location, in the order of
the blocks, the last line is the greatest, and the file is that of the first location of all
(`entries_eq`). This tells where the entries are right (`correct_iff`).
-/

namespace IcsaDswp

open Lib

variable {Inst BB Fn Loop : Type}

/-- The locations of the instructions of `L`, in the order of its blocks. -/
def Function.located (F : Function Inst BB Loop) (dbg : DebugInfo Inst) (L : Loop) :
    List DILocation :=
  ((F.loopBlocks L).flatMap F.insts).filterMap dbg.getDebugLoc

theorem Function.mem_located {F : Function Inst BB Loop} {dbg : DebugInfo Inst} {L : Loop}
    {Loc : DILocation} :
    Loc ∈ F.located dbg L ↔ ∃ inst, F.InLoop L inst ∧ dbg.getDebugLoc inst = some Loc := by
  simp [located, InLoop]

namespace DecoupleSourceSplitPrinter

variable [LinearOrder Fn] [LinearOrder Loop]

/-! ## The code -/

/-- What is printed for a loop. -/
structure Entry where
  filename : String
  firstLine : Nat
  lastLine : Nat
  deriving DecidableEq

def Entry.text (e : Entry) : String :=
  e.filename ++ " " ++ toString e.firstLine ++ " " ++ toString e.lastLine ++ "\n"

/-- `File`, which outlives a loop, and `firstLine` and `lastLine` of one loop. The `int` that a line
is stored in meanwhile is compared and assigned as `unsigned` again. -/
structure Span where
  File : Option DIFile
  firstLine : Nat
  lastLine : Nat

def Span.note (st : Span) (Loc : DILocation) : Span where
  File :=
    match st.File with
    | some File => some File
    | none => Loc.file
  firstLine := if st.firstLine = 0 then Loc.line else st.firstLine
  lastLine := if Loc.line > st.lastLine then Loc.line else st.lastLine

/-- One turn of the loop over the instructions. -/
def noteInst (dbg : DebugInfo Inst) (st : Span) (inst : Inst) : Span :=
  match dbg.getDebugLoc inst with
  | none => st
  | some Loc => st.note Loc

/-- The loop over the blocks of `L`. -/
def scanLoop (dbg : DebugInfo Inst) (F : Function Inst BB Loop) (File : Option DIFile) (L : Loop) :
    Span :=
  (F.loopBlocks L).foldl (fun st bb => (F.insts bb).foldl (noteInst dbg) st) ⟨File, 0, 0⟩

/-- One turn of the loop over the loops, on `File` and what has been printed. -/
def printLoop (dbg : DebugInfo Inst) (F : Function Inst BB Loop) (dl : DecoupleLoopsPass Fn Loop)
    (st : Option DIFile × List Entry) (L : Loop) : Except Fault (Option DIFile × List Entry) :=
  if dl.hasWork L then
    let span := scanLoop dbg F st.1 L
    match span.File with
    | none => .error .nullDeref
    | some File => .ok (some File, st.2 ++ [⟨File.filename, span.firstLine, span.lastLine⟩])
  else .ok st

def entries (dbg : DebugInfo Inst) (name : Fn) (F : Function Inst BB Loop)
    (dl : DecoupleLoopsPass Fn Loop) : Except Fault (List Entry) :=
  match dl.getLI name with
  | none => .error .nullDeref
  | some _ => do
    let (_, out) ← F.loops.foldlM (printLoop dbg F dl) (none, [])
    pure out

def runOnFunction (dbg : DebugInfo Inst) (name : Fn) (F : Function Inst BB Loop)
    (dl : DecoupleLoopsPass Fn Loop) : Except Fault String := do
  let out ← entries dbg name F dl
  pure (String.join (out.map Entry.text))

/-! ## One loop -/

section Scan

variable {dbg : DebugInfo Inst} {F : Function Inst BB Loop} {File : Option DIFile} {L : Loop}

omit [LinearOrder Loop]

theorem scanLoop_eq (dbg : DebugInfo Inst) (F : Function Inst BB Loop) (File : Option DIFile)
    (L : Loop) : scanLoop dbg F File L = (F.located dbg L).foldl Span.note ⟨File, 0, 0⟩ := by
  rw [scanLoop, Function.located, List.foldl_filterMap, List.foldl_flatMap]
  congr with st bb
  congr with st inst
  unfold noteInst
  cases dbg.getDebugLoc inst <;> rfl

/-- The file that was found first stays. -/
theorem foldl_note_file {f : DIFile} {st : Span} (hfile : st.File = some f)
    (locs : List DILocation) : (locs.foldl Span.note st).File = some f := by
  refine foldl_inv (P := fun _ (st : Span) => st.File = some f) ?_ hfile
  intro _ Loc st h
  simp [Span.note, h]

/-- So does the first line; the last line goes along with the greatest. -/
theorem foldl_note_lines {st : Span} (hfirst : st.firstLine ≠ 0) (locs : List DILocation) :
    (locs.foldl Span.note st).firstLine = st.firstLine ∧
    st.lastLine ≤ (locs.foldl Span.note st).lastLine ∧
    ∀ Loc ∈ locs, Loc.line ≤ (locs.foldl Span.note st).lastLine := by
  refine foldl_inv (P := fun (done : List DILocation) (st' : Span) =>
    st'.firstLine = st.firstLine ∧ st.lastLine ≤ st'.lastLine ∧
      ∀ Loc ∈ done, Loc.line ≤ st'.lastLine) ?_ ⟨rfl, le_rfl, by simp⟩
  intro done Loc st' h
  obtain ⟨h₁, h₂, hall⟩ := h
  have hle : st'.lastLine ≤ (st'.note Loc).lastLine ∧ Loc.line ≤ (st'.note Loc).lastLine := by
    show st'.lastLine ≤ (if Loc.line > st'.lastLine then Loc.line else st'.lastLine) ∧
      Loc.line ≤ (if Loc.line > st'.lastLine then Loc.line else st'.lastLine)
    split <;> omega
  refine ⟨by simp [Span.note, h₁, hfirst], h₂.trans hle.1, fun Loc' hLoc' => ?_⟩
  rcases List.mem_append.mp hLoc' with h | h
  · exact (hall Loc' h).trans hle.1
  · rw [List.mem_singleton.mp h]
    exact hle.2

/-- What a loop with a location leaves behind. -/
theorem scanLoop_cons {first : DILocation} {rest : List DILocation}
    (hL : F.located dbg L = first :: rest) (hline : 1 ≤ first.line) :
    (scanLoop dbg F File L).firstLine = first.line ∧
      ∀ Loc ∈ F.located dbg L, Loc.line ≤ (scanLoop dbg F File L).lastLine := by
  have hpos : 0 < first.line := hline
  have hnote : Span.note ⟨File, 0, 0⟩ first =
      ⟨match File with | some File => some File | none => first.file, first.line, first.line⟩ := by
    simp [Span.note, hpos]
  have hset : (Span.note ⟨File, 0, 0⟩ first).firstLine ≠ 0 := by
    rw [hnote]
    exact Nat.ne_of_gt hpos
  obtain ⟨h₁, h₂, hall⟩ := foldl_note_lines hset rest
  rw [scanLoop_eq, hL, List.foldl_cons]
  refine ⟨by rw [h₁, hnote], fun Loc hLoc => ?_⟩
  rcases List.mem_cons.mp hLoc with rfl | hLoc
  · rw [hnote] at h₂ ⊢
    exact h₂
  · exact hall Loc hLoc

/-- A loop with a location does the same whether the file of the location is there already. -/
theorem scanLoop_none {first : DILocation} {rest : List DILocation} {f : DIFile}
    (hL : F.located dbg L = first :: rest) (hf : first.file = some f) :
    scanLoop dbg F none L = scanLoop dbg F (some f) L := by
  have hnote : Span.note ⟨none, 0, 0⟩ first = Span.note ⟨some f, 0, 0⟩ first := by
    simp [Span.note, hf]
  rw [scanLoop_eq, scanLoop_eq, hL, List.foldl_cons, List.foldl_cons, hnote]

end Scan

/-! ## All loops -/

section Entries

variable {dbg : DebugInfo Inst} {name : Fn} {F : Function Inst BB Loop}
  {dl : DecoupleLoopsPass Fn Loop} {L : Loop} {works : List Loop}

/-- The entry of `L` when `f` is the file that was found first. -/
def entryOf (dbg : DebugInfo Inst) (F : Function Inst BB Loop) (f : DIFile) (L : Loop) : Entry :=
  ⟨f.filename, (scanLoop dbg F (some f) L).firstLine, (scanLoop dbg F (some f) L).lastLine⟩

/-- Loops without work are skipped. -/
theorem foldlM_printLoop (loops : List Loop) (st : Option DIFile × List Entry) :
    loops.foldlM (printLoop dbg F dl) st =
      (loops.filter dl.hasWork).foldlM (printLoop dbg F dl) st := by
  induction loops generalizing st with
  | nil => rfl
  | cons L loops ih =>
    rw [List.foldlM_cons]
    by_cases hL : dl.hasWork L = true
    · rw [List.filter_cons_of_pos hL, List.foldlM_cons]
      exact bind_congr fun st => ih st
    · rw [List.filter_cons_of_neg hL, ← ih, printLoop, if_neg hL]
      rfl

/-- Once there is a file every loop gets its entry. -/
theorem foldlM_printLoop_some (f : DIFile) (hworks : ∀ L ∈ works, dl.hasWork L = true)
    (out : List Entry) : works.foldlM (printLoop dbg F dl) (some f, out) =
      .ok (some f, out ++ works.map (entryOf dbg F f)) := by
  induction works generalizing out with
  | nil => simp [pure, Except.pure]
  | cons L works ih =>
    have hfile : (scanLoop dbg F (some f) L).File = some f := by
      rw [scanLoop_eq]
      exact foldl_note_file rfl _
    have hturn : printLoop dbg F dl (some f, out) L = .ok (some f, out ++ [entryOf dbg F f L]) := by
      rw [printLoop, if_pos (hworks L (by simp))]
      simp only [hfile]
      rfl
    rw [List.foldlM_cons, hturn]
    show works.foldlM (printLoop dbg F dl) (some f, out ++ [entryOf dbg F f L]) = _
    rw [ih (fun L' hL' => hworks L' (List.mem_cons_of_mem _ hL'))]
    simp

theorem entries_eq_foldlM (hLI : dl.getLI name = some ()) :
    entries dbg name F dl =
      ((F.loops.filter dl.hasWork).foldlM (printLoop dbg F dl) (none, [])).map Prod.snd := by
  rw [entries, hLI, ← foldlM_printLoop]
  rfl

/-- Without a location in the first loop the null `File` is read. -/
theorem entries_fault (hLI : dl.getLI name = some ())
    (hworks : F.loops.filter dl.hasWork = L :: works) (hL : F.located dbg L = []) :
    entries dbg name F dl = .error .nullDeref := by
  have hwork : dl.hasWork L = true := (List.mem_filter.mp (hworks ▸ List.mem_cons_self)).2
  have hturn : printLoop dbg F dl (none, []) L = .error .nullDeref := by
    rw [printLoop, if_pos hwork, scanLoop_eq, hL]
    rfl
  rw [entries_eq_foldlM hLI, hworks, List.foldlM_cons, hturn]
  rfl

/-- **The entries** name the file of the first location of all. -/
theorem entries_eq (hLI : dl.getLI name = some ())
    (hworks : F.loops.filter dl.hasWork = L :: works) {first : DILocation} {rest : List DILocation}
    (hL : F.located dbg L = first :: rest) {f : DIFile} (hf : first.file = some f) :
    entries dbg name F dl = .ok ((L :: works).map (entryOf dbg F f)) := by
  have hall : ∀ L' ∈ L :: works, dl.hasWork L' = true := fun L' hL' =>
    (List.mem_filter.mp (hworks ▸ hL')).2
  have hfile : (scanLoop dbg F (some f) L).File = some f := by
    rw [scanLoop_eq]
    exact foldl_note_file rfl _
  have hturn : printLoop dbg F dl (none, []) L = .ok (some f, [entryOf dbg F f L]) := by
    rw [printLoop, if_pos (hall L (by simp))]
    simp only [scanLoop_none hL hf, hfile]
    rfl
  rw [entries_eq_foldlM hLI, hworks, List.foldlM_cons, hturn]
  show (works.foldlM (printLoop dbg F dl) (some f, [entryOf dbg F f L])).map Prod.snd = _
  rw [foldlM_printLoop_some f fun L' hL' => hall L' (List.mem_cons_of_mem _ hL')]
  rfl

/-! ## Where the entries are right -/

/-- `e` spans the lines of the instructions of `L` and names their file. -/
def Describes (dbg : DebugInfo Inst) (F : Function Inst BB Loop) (L : Loop) (e : Entry) : Prop :=
  ∀ inst, F.InLoop L inst → ∀ Loc, dbg.getDebugLoc inst = some Loc →
    e.firstLine ≤ Loc.line ∧ Loc.line ≤ e.lastLine ∧ Loc.file.map DIFile.filename = some e.filename

/-- Each loop with work gets an entry that describes it; in particular no null `File` is read. -/
def Correct (dbg : DebugInfo Inst) (name : Fn) (F : Function Inst BB Loop)
    (dl : DecoupleLoopsPass Fn Loop) : Prop :=
  ∃ out, entries dbg name F dl = .ok out ∧
    List.Forall₂ (Describes dbg F) (F.loops.filter dl.hasWork) out

structure Regular (dbg : DebugInfo Inst) (F : Function Inst BB Loop)
    (dl : DecoupleLoopsPass Fn Loop) : Prop where
  /-- The first loop with work has an instruction with a location. -/
  located : ∀ L, (F.loops.filter dl.hasWork).head? = some L → F.located dbg L ≠ []
  /-- No instruction of a loop is on an earlier line than the first one the pass comes to. -/
  first : ∀ L ∈ F.loops, dl.hasWork L = true → ∀ first rest, F.located dbg L = first :: rest →
    ∀ Loc ∈ rest, first.line ≤ Loc.line
  /-- The loops with work are in one file. -/
  file : ∀ L ∈ F.loops, dl.hasWork L = true → ∀ L' ∈ F.loops, dl.hasWork L' = true →
    ∀ Loc ∈ F.located dbg L, ∀ Loc' ∈ F.located dbg L',
      Loc.file.map DIFile.filename = Loc'.file.map DIFile.filename

omit [LinearOrder Loop] in
theorem describes_iff {f : DIFile} (hline : ∀ Loc ∈ F.located dbg L, 1 ≤ Loc.line) :
    Describes dbg F L (entryOf dbg F f L) ↔
      (∀ first rest, F.located dbg L = first :: rest → ∀ Loc ∈ rest, first.line ≤ Loc.line) ∧
      ∀ Loc ∈ F.located dbg L, Loc.file.map DIFile.filename = some f.filename := by
  have hmem : ∀ {p : DILocation → Prop}, (∀ inst, F.InLoop L inst → ∀ Loc,
      dbg.getDebugLoc inst = some Loc → p Loc) ↔ ∀ Loc ∈ F.located dbg L, p Loc := by
    intro p
    simp only [Function.mem_located]
    exact ⟨fun h Loc ⟨inst, hin, hLoc⟩ => h inst hin Loc hLoc,
      fun h inst hin Loc hLoc => h Loc ⟨inst, hin, hLoc⟩⟩
  rw [Describes, hmem]
  cases hL : F.located dbg L with
  | nil => simp
  | cons first rest =>
    have hscan : (scanLoop dbg F (some f) L).firstLine = first.line ∧
        ∀ Loc ∈ F.located dbg L, Loc.line ≤ (scanLoop dbg F (some f) L).lastLine :=
      scanLoop_cons hL (hline first (by simp [hL]))
    rw [hL] at hscan
    unfold entryOf
    constructor
    · intro h
      refine ⟨?_, fun Loc hLoc => (h Loc hLoc).2.2⟩
      rintro first' rest' he Loc hLoc
      obtain ⟨rfl, rfl⟩ := List.cons.inj he
      rw [← hscan.1]
      exact (h Loc (List.mem_cons_of_mem _ hLoc)).1
    · intro h Loc hLoc
      refine ⟨?_, hscan.2 Loc hLoc, h.2 Loc hLoc⟩
      rw [hscan.1]
      rcases List.mem_cons.mp hLoc with rfl | hLoc
      · exact le_rfl
      · exact h.1 first rest rfl Loc hLoc

/-- **Where the source ranges are right**: the pass comes to the first line of each loop first, all
loops with work are in one file, and the first of them tells which. -/
theorem correct_iff (hLI : dl.getLI name = some ())
    (hloc : ∀ L ∈ F.loops, ∀ inst, F.InLoop L inst → ∀ Loc, dbg.getDebugLoc inst = some Loc →
      1 ≤ Loc.line ∧ ∃ f, Loc.file = some f) :
    Correct dbg name F dl ↔ Regular dbg F dl := by
  have hmem : ∀ L, L ∈ F.loops.filter dl.hasWork ↔ L ∈ F.loops ∧ dl.hasWork L = true := fun L =>
    List.mem_filter
  have hloc' : ∀ L ∈ F.loops, ∀ Loc ∈ F.located dbg L, 1 ≤ Loc.line ∧ ∃ f, Loc.file = some f := by
    intro L hL Loc hLoc
    obtain ⟨inst, hin, hLoc⟩ := Function.mem_located.mp hLoc
    exact hloc L hL inst hin Loc hLoc
  unfold Correct
  cases hworks : F.loops.filter dl.hasWork with
  | nil =>
    have hno : ∀ L ∈ F.loops, ¬ dl.hasWork L = true := fun L hL hwork => by
      have := (hmem L).mpr ⟨hL, hwork⟩
      simp [hworks] at this
    refine ⟨fun _ => ⟨by simp [hworks], ?_, ?_⟩, fun _ => ⟨[], ?_, .nil⟩⟩
    · exact fun L hL hwork => absurd hwork (hno L hL)
    · exact fun L hL hwork => absurd hwork (hno L hL)
    · rw [entries_eq_foldlM hLI, hworks]
      rfl
  | cons L works =>
    cases hL : F.located dbg L with
    | nil =>
      refine iff_of_false ?_ fun h => h.located L (by simp [hworks]) hL
      rintro ⟨out, hout, -⟩
      rw [entries_fault hLI hworks hL] at hout
      cases hout
    | cons first rest =>
      have hLmem := (hmem L).mp (by simp [hworks])
      have hfirst : first ∈ F.located dbg L := by simp [hL]
      obtain ⟨-, f, hf⟩ := hloc' L hLmem.1 first hfirst
      have hdescribes : ∀ L' ∈ F.loops, _ := fun L' hL' =>
        describes_iff (f := f) fun Loc hLoc => (hloc' L' hL' Loc hLoc).1
      rw [entries_eq hLI hworks hL hf]
      constructor
      · rintro ⟨out, hout, hall⟩
        obtain rfl := Except.ok.inj hout
        rw [List.forall₂_map_right_iff, List.forall₂_same] at hall
        have hall' : ∀ L' ∈ F.loops, dl.hasWork L' = true → _ := fun L' hL' hwork =>
          (hdescribes L' hL').mp (hall L' (hworks ▸ (hmem L').mpr ⟨hL', hwork⟩))
        refine ⟨fun L' hL' => ?_, fun L' hL' hwork => (hall' L' hL' hwork).1, ?_⟩
        · rw [hworks] at hL'
          obtain rfl : L = L' := by simpa using hL'
          simp [hL]
        · intro L₁ h₁ hwork₁ L₂ h₂ hwork₂ Loc₁ hLoc₁ Loc₂ hLoc₂
          rw [(hall' L₁ h₁ hwork₁).2 Loc₁ hLoc₁, (hall' L₂ h₂ hwork₂).2 Loc₂ hLoc₂]
      · intro h
        refine ⟨_, rfl, ?_⟩
        rw [List.forall₂_map_right_iff, List.forall₂_same]
        intro L' hL'
        obtain ⟨hL'mem, hwork⟩ := (hmem L').mp (hworks ▸ hL')
        refine (hdescribes L' hL'mem).mpr ⟨h.first L' hL'mem hwork, fun Loc hLoc => ?_⟩
        rw [h.file L' hL'mem hwork L hLmem.1 hLmem.2 Loc hLoc first hfirst, hf]
        rfl

/-- The header of `storeLoop` on line 3, its body on line 4. -/
def twoLines : DebugInfo (Fin 9) where
  functionName _ := "f"
  getDebugLoc i := some ⟨some ⟨"", "store.c"⟩, if i.val < 4 then 3 else 4⟩

theorem correct_iff_twoLines :
    ∃ r, analyse .bump (0 : Fin 1) storeLoop .fresh .fresh = .ok r ∧ r.dl.getLI 0 = some () ∧
      entries twoLines 0 storeLoop r.dl = .ok [⟨"store.c", 3, 4⟩] ∧
      Regular twoLines storeLoop r.dl ∧
      (Correct twoLines 0 storeLoop r.dl ↔ Regular twoLines storeLoop r.dl) := by
  have hrun : (analyse .bump (0 : Fin 1) storeLoop .fresh .fresh).map
      (fun r => (r.dl.getLI 0, entries twoLines 0 storeLoop r.dl)) =
      .ok (some (), .ok [⟨"store.c", 3, 4⟩]) := by
    unfold analyse buildPDG ControlDependenceGraphPass.runOnFunction
    rw [ControlDependenceGraphPass.getBottomUpTraversal_eq]
    decide +kernel
  obtain ⟨r, hr, he⟩ := map_ok.mp hrun
  obtain ⟨hLI, hentries⟩ := Prod.mk.inj he
  -- there is one loop, whose instructions are located in order
  have hloc : ∀ L, storeLoop.located twoLines L = List.replicate 3 ⟨some ⟨"", "store.c"⟩, 3⟩ ++
      List.replicate 4 ⟨some ⟨"", "store.c"⟩, 4⟩ := by decide +kernel
  refine ⟨r, hr, hLI, hentries, ⟨fun L _ => by simp [hloc], ?_, ?_⟩, correct_iff hLI ?_⟩
  · intro L _ _ first rest hL Loc hrest
    obtain ⟨rfl, rfl⟩ := List.cons.inj (hL.symm.trans (hloc L))
    revert Loc
    decide
  · intro L _ _ L' _ _ Loc hLoc Loc' hLoc'
    have hfile : ∀ Loc ∈ List.replicate 3 (⟨some ⟨"", "store.c"⟩, 3⟩ : DILocation) ++
        List.replicate 4 ⟨some ⟨"", "store.c"⟩, 4⟩,
        Loc.file.map DIFile.filename = some "store.c" := by decide
    rw [hfile Loc (hloc L ▸ hLoc), hfile Loc' (hloc L' ▸ hLoc')]
  · intro L _ inst _ Loc hLoc
    obtain rfl := Option.some.inj hLoc
    refine ⟨?_, _, rfl⟩
    show 1 ≤ if inst.val < 4 then 3 else 4
    split <;> omega

/-- The instructions of `storeLoop` on line 3, save the store, which comes from a function inlined
from further up. -/
def inlinedStore : DebugInfo (Fin 9) where
  functionName _ := "f"
  getDebugLoc i := some ⟨some ⟨"", "store.c"⟩, if i.val = 5 then 1 else 3⟩

theorem inlinedStore_loc (L : Fin 1) (_ : L ∈ storeLoop.loops) (inst : Fin 9)
    (_ : storeLoop.InLoop L inst) (Loc : DILocation)
    (hLoc : inlinedStore.getDebugLoc inst = some Loc) : 1 ≤ Loc.line ∧ ∃ f, Loc.file = some f := by
  obtain rfl := Option.some.inj hLoc
  refine ⟨?_, _, rfl⟩
  show 1 ≤ if inst.val = 5 then 1 else 3
  split <;> omega

/-- The loop is printed as line 3 only. -/
theorem not_correct_inlinedStore :
    ∃ r, analyse .bump (0 : Fin 1) storeLoop .fresh .fresh = .ok r ∧ r.dl.getLI 0 = some () ∧
      (∀ L ∈ storeLoop.loops, ∀ inst, storeLoop.InLoop L inst → ∀ Loc,
        inlinedStore.getDebugLoc inst = some Loc → 1 ≤ Loc.line ∧ ∃ f, Loc.file = some f) ∧
      ¬ Correct inlinedStore 0 storeLoop r.dl := by
  have hrun : (analyse .bump (0 : Fin 1) storeLoop .fresh .fresh).map
      (fun r => (r.dl.getLI 0, storeLoop.loops.filter r.dl.hasWork,
        entries inlinedStore 0 storeLoop r.dl)) =
      .ok (some (), [0], .ok [⟨"store.c", 3, 3⟩]) := by
    unfold analyse buildPDG ControlDependenceGraphPass.runOnFunction
    rw [ControlDependenceGraphPass.getBottomUpTraversal_eq]
    decide +kernel
  obtain ⟨r, hr, he⟩ := map_ok.mp hrun
  obtain ⟨hLI, he⟩ := Prod.mk.inj he
  obtain ⟨hworks, hentries⟩ := Prod.mk.inj he
  refine ⟨r, hr, hLI, inlinedStore_loc, ?_⟩
  rintro ⟨out, hout, hall⟩
  obtain rfl := Except.ok.inj (hentries.symm.trans hout)
  rw [hworks, List.forall₂_cons] at hall
  have hstore : storeLoop.InLoop 0 5 := ⟨2, by decide, by decide⟩
  have := (hall.1 5 hstore _ rfl).1
  revert this
  decide

end Entries

end DecoupleSourceSplitPrinter

end IcsaDswp
