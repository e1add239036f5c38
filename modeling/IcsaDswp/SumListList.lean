import IcsaDswp.Lib.Memory
import Mathlib.Data.List.Perm.Subperm

/-!
# The sum of a list of lists

`src/test/sum-list-list.cpp`, for any `random` and `R` and any allocator. The lists are chains in a
memory and the list of them a chain of chains, so that the loops that build, read and free them are
cases of the rules for chains. The program adds the values of each list from the last one to the
first, uses no pointer that is null or dead and gives back all that it has allocated (`main_sums`).
-/

namespace IcsaDswp.SumListList

open Lib

/-! ## The code -/

inductive Cell (A : Type) where
  /-- `new` has found the address and not yet evaluated the initializers. -/
  | raw
  | list (next : Option A) (value : Int)
  | lList (next value : Option A)

variable {A : Type} [DecidableEq A]

/-- `*head` for a `List *head`. -/
def list (m : Memory A (Cell A)) (head : Option A) : Except MemoryFault (Option A × Int) := do
  match ← m.load head with
  | .list next value => pure (next, value)
  | _ => throw .invalidAccess

/-- `*head` for an `LList *head`. -/
def lList (m : Memory A (Cell A)) (head : Option A) : Except MemoryFault (Option A × Option A) := do
  match ← m.load head with
  | .lList next value => pure (next, value)
  | _ => throw .invalidAccess

def generateList (alloc : Allocator A (Cell A)) (random : List Int) (m : Memory A (Cell A)) :
    Except MemoryFault (Option A × Memory A (Cell A)) :=
  random.foldlM (fun (head, m) value => do
    let (a, m) ← m.new alloc (.list head value)
    pure (some a, m)) (none, m)

def freeList (fuel : Nat) (head : Option A) (m : Memory A (Cell A)) :
    Except MemoryFault (Memory A (Cell A)) :=
  whileSome (fun head m => do
    let (next, _) ← list m (some head)
    let m ← m.delete (some head)
    pure (next, m)) fuel head m

def generateLList (alloc : Allocator A (Cell A)) (random : List Int) (R : Nat)
    (m : Memory A (Cell A)) : Except MemoryFault (Option A × Memory A (Cell A)) :=
  (List.range R).foldlM (fun (head, m) _ => do
    let (a, m) ← m.new alloc .raw
    let (value, m) ← generateList alloc random m
    let m ← m.store (some a) (.lList head value)
    pure (some a, m)) (none, m)

def freeLList (fuel : Nat) (head : Option A) (m : Memory A (Cell A)) :
    Except MemoryFault (Memory A (Cell A)) :=
  whileSome (fun head m => do
    let (next, value) ← lList m (some head)
    let m ← freeList fuel value m
    let m ← m.delete (some head)
    pure (next, m)) fuel head m

/-- `sum += value` of two `int`s. -/
def addInt (sum value : Int) : Except MemoryFault Int :=
  if -2 ^ 31 ≤ sum + value ∧ sum + value < 2 ^ 31 then .ok (sum + value) else .error .overflow

/-- The inner loop of `main`. -/
def sumList (m : Memory A (Cell A)) (fuel : Nat) (j : Option A) (sum : Int) :
    Except MemoryFault Int :=
  whileSome (fun j sum => do
    let (next, value) ← list m (some j)
    let sum ← addInt sum value
    pure (next, sum)) fuel j sum

/-- The outer loop of `main`. -/
def sumLList (m : Memory A (Cell A)) (fuel : Nat) (i : Option A) (sum : Int) :
    Except MemoryFault Int :=
  whileSome (fun i sum => do
    let (next, j) ← lList m (some i)
    let sum ← sumList m fuel j sum
    pure (next, sum)) fuel i sum

/-- What `main` prints, and the memory it leaves. No loop makes more than `fuel` turns. -/
def main (alloc : Allocator A (Cell A)) (random : List Int) (R fuel : Nat) (m : Memory A (Cell A)) :
    Except MemoryFault (Int × Memory A (Cell A)) := do
  let (head, m) ← generateLList alloc random R m
  let sum ← sumLList m fuel head 0
  let m ← freeLList fuel head m
  pure (sum, m)

/-! ## Lists and lists of lists -/

/-- A list of these values runs from here. -/
abbrev IsList : (A → Option (Cell A)) → Option A → List (A × Int) → Prop :=
  Chain Cell.list fun _ v w => v = w

abbrev listFootprint : List (A × Int) → List A := footprint fun _ => []

/-- A list of these lists runs from here. -/
abbrev IsLList : (A → Option (Cell A)) → Option A → List (A × List (A × Int)) → Prop :=
  Chain Cell.lList IsList

abbrev lListFootprint : List (A × List (A × Int)) → List A := footprint listFootprint

section Loops

variable {alloc : Allocator A (Cell A)} {random : List Int} {R fuel : Nat} {m : Memory A (Cell A)}
  {a : A} {next : Option A}

omit [DecidableEq A] in
theorem framed_isList : Framed (IsList (A := A)) listFootprint := framed_chain framed_eq

omit [DecidableEq A] in
theorem list_ok {value : Int} (h : m.cells a = some (.list next value)) :
    list m (some a) = .ok (next, value) := by
  rw [list, Memory.load_ok h]
  rfl

omit [DecidableEq A] in
theorem lList_ok {value : Option A} (h : m.cells a = some (.lList next value)) :
    lList m (some a) = .ok (next, value) := by
  rw [lList, Memory.load_ok h]
  rfl

theorem generateList_spec (hm : m.Serves alloc random.length) :
    ∃ s, generateList alloc random m = .ok s ∧
      ∃ l, Built Cell.list (fun _ v w => v = w) (fun _ => []) Eq 0 m random s l := by
  refine foldlM_build framed_eq ?_ random (by simpa using hm)
  intro head m value hm
  obtain ⟨a, m', hnew, hgrown, ha⟩ := hm.new (by omega) (.list head value)
  exact ⟨a, value, value, m', bind_ok.mpr ⟨_, hnew, rfl⟩, hgrown, rfl, ha, rfl, rfl⟩

omit [DecidableEq A] in
/-- What `generateList` has built are the values backwards. -/
theorem values_eq {s : Option A × Memory A (Cell A)} {l : List (A × Int)}
    (h : Built Cell.list (fun _ v w => v = w) (fun _ => []) Eq 0 m random s l) :
    l.map Prod.snd = random.reverse := by
  simpa using h.map_values (f := id) (g := id) fun _ _ hw => hw.symm

theorem generateLList_spec (hm : m.Serves alloc (R * (random.length + 1))) :
    ∃ s, generateLList alloc random R m = .ok s ∧
      ∃ l, Built Cell.lList IsList listFootprint (fun _ w => w.map Prod.snd = random.reverse)
        random.length m (List.range R) s l := by
  refine foldlM_build framed_isList ?_ (List.range R) (by simpa using hm)
  intro head m _ hm
  obtain ⟨a, m₁, hnew, hgrown₁, -⟩ := hm.new (by omega) .raw
  obtain ⟨⟨value, m₂⟩, hlist, l, hl⟩ := generateList_spec
    (hm.grown hgrown₁ (k := random.length) (by simp; omega))
  have hgrown₂ : m.Grown m₂ (a :: listFootprint l) :=
    (hgrown₁.trans hl.grown).perm List.perm_append_comm
  have hnodup := hgrown₂.nodup
  obtain ⟨m₃, hstore, hgrown₃, ha, hother⟩ := hgrown₂.store (List.mem_cons_self ..)
    (.lList head value)
  refine ⟨a, value, l, m₃, bind_ok.mpr ⟨_, hnew, bind_ok.mpr ⟨_, hlist,
    bind_ok.mpr ⟨_, hstore, rfl⟩⟩⟩, hgrown₃, by simpa using hl.length, ha, ?_, values_eq hl⟩
  refine hl.chain.congr framed_eq fun b hb => hother b fun he => ?_
  exact (List.nodup_cons.mp hnodup).1 (he ▸ hb)

theorem freeList_spec {head : Option A} {l : List (A × Int)} (hl : IsList m.cells head l)
    (hnodup : (listFootprint l).Nodup) (hfuel : l.length ≤ fuel) :
    freeList fuel head m = .ok (m.remove (listFootprint l)) := by
  refine whileSome_free framed_eq ?_ hl hnodup hfuel
  intro a next v w m _ ha hv _
  exact bind_ok.mpr ⟨_, list_ok ha, bind_ok.mpr ⟨_, Memory.delete_ok ha, rfl⟩⟩

theorem freeLList_spec {head : Option A} {l : List (A × List (A × Int))}
    (hl : IsLList m.cells head l) (hnodup : (lListFootprint l).Nodup) (hfuel : l.length ≤ fuel)
    (hlists : ∀ w ∈ l.map Prod.snd, w.length ≤ fuel) :
    freeLList fuel head m = .ok (m.remove (lListFootprint l)) := by
  refine whileSome_free framed_isList ?_ hl hnodup hfuel
  intro a next v w m hw ha hv hnodup
  obtain ⟨haw, hw'⟩ := List.nodup_cons.mp hnodup
  have hfree := freeList_spec hv hw' (hlists w (List.mem_map_of_mem hw))
  have hlive : (m.remove (listFootprint w)).cells a = some (.lList next v) :=
    (Memory.remove_cells_of_notMem haw).trans ha
  have hboth : (m.remove (listFootprint w)).remove [a] = m.remove (a :: listFootprint w) := by
    rw [Memory.remove_remove]
    exact m.remove_perm List.perm_append_comm
  exact bind_ok.mpr ⟨_, lList_ok ha, bind_ok.mpr ⟨_, hfree, bind_ok.mpr ⟨_, Memory.delete_ok hlive,
    congrArg (fun m => Except.ok (next, m)) hboth⟩⟩⟩

omit [DecidableEq A] in
theorem sumList_eq {head : Option A} {l : List (A × Int)} (hl : IsList m.cells head l)
    (hfuel : l.length ≤ fuel) (sum : Int) :
    sumList m fuel head sum = (l.map Prod.snd).foldlM addInt sum := by
  refine whileSome_read (fun _ => m.cells) framed_eq ?_ (fun _ _ _ _ _ _ => rfl) hl hfuel
  rintro a next value _ sum - ha rfl
  rw [list_ok ha]
  rfl

omit [DecidableEq A] in
theorem sumLList_eq {head : Option A} {l : List (A × List (A × Int))} (hl : IsLList m.cells head l)
    (hfuel : l.length ≤ fuel) (hlists : ∀ w ∈ l.map Prod.snd, w.length ≤ fuel) (sum : Int) :
    sumLList m fuel head sum =
      ((l.map Prod.snd).flatMap fun w => w.map Prod.snd).foldlM addInt sum := by
  rw [foldlM_flatMap]
  refine whileSome_read (fun _ => m.cells) framed_isList ?_ (fun _ _ _ _ _ _ => rfl) hl hfuel
  intro a next v w sum hw ha hv
  rw [lList_ok ha]
  show (do let sum ← sumList m fuel v sum; pure (next, sum)) = _
  rw [sumList_eq hv (hlists w (List.mem_map_of_mem hw))]
  rfl

/-- As long as the absolute values do not add up to more than an `int` holds, no addition
overflows. -/
theorem foldlM_addInt {values : List Int} {sum : Int}
    (h : sum.natAbs + (values.map Int.natAbs).sum < 2 ^ 31) :
    values.foldlM addInt sum = .ok (sum + values.sum) := by
  induction values generalizing sum with
  | nil => simp [pure, Except.pure]
  | cons v values ih =>
    rw [List.map_cons, List.sum_cons] at h
    rw [List.foldlM_cons, addInt, if_pos (by omega)]
    show values.foldlM addInt (sum + v) = _
    rw [ih (by omega), List.sum_cons, add_assoc]

/-- All of `main` but the additions. -/
theorem main_adds (hm : m.Serves alloc (R * (random.length + 1))) (hR : R ≤ fuel)
    (hrandom : random.length ≤ fuel) :
    main alloc random R fuel m =
      ((List.replicate R random.reverse).flatten.foldlM addInt 0).map
        (·, { m with news := m.news + R * (random.length + 1) }) := by
  obtain ⟨⟨head, m'⟩, hgenerate, l, h⟩ := generateLList_spec hm
  have hvalues : (l.map Prod.snd).map (fun w => w.map Prod.snd) =
      List.replicate R random.reverse := by
    have := h.map_values (f := fun _ => random.reverse) fun _ _ hw => hw
    simpa using this
  have hlength : l.length = R := by simpa using congrArg List.length hvalues
  have hlists : ∀ w ∈ l.map Prod.snd, w.length ≤ fuel := by
    intro w hw
    have hw' : w.map Prod.snd ∈ List.replicate R random.reverse :=
      hvalues ▸ List.mem_map_of_mem hw
    have := congrArg List.length (List.eq_of_mem_replicate hw')
    simp only [List.length_map, List.length_reverse] at this
    omega
  have hsum := sumLList_eq h.chain (hlength.trans_le hR) hlists 0
  have hfree := freeLList_spec h.chain h.grown.nodup (hlength.trans_le hR) hlists
  rw [List.flatMap_def, hvalues] at hsum
  rw [h.grown.remove, h.length, List.length_range] at hfree
  show (do let (head, m) ← generateLList alloc random R m; _) = _
  rw [hgenerate]
  show (do let sum ← sumLList m' fuel head 0; _) = _
  rw [hsum]
  cases (List.replicate R random.reverse).flatten.foldlM addInt 0 with
  | error e => rfl
  | ok sum =>
    show (do let m ← freeLList fuel head m'; _) = _
    rw [hfree]
    rfl

/-- **`main` adds the values of each list, the last one first; nothing but an addition can go wrong,
and it gives back what it has allocated.** It has no more cells than the `R * (random.length + 1)` at
any time. -/
theorem main_sums (hm : m.Serves alloc (R * (random.length + 1))) (hR : R ≤ fuel)
    (hrandom : random.length ≤ fuel) :
    main alloc random R fuel m =
        ((List.replicate R random.reverse).flatten.foldlM addInt 0).map
          (·, { m with news := m.news + R * (random.length + 1) }) ∧
      (R * (random.map Int.natAbs).sum < 2 ^ 31 → main alloc random R fuel m =
        .ok (R * random.sum, { m with news := m.news + R * (random.length + 1) })) := by
  refine ⟨main_adds hm hR hrandom, fun hsmall => ?_⟩
  have habs : ((List.replicate R random.reverse).flatten.map Int.natAbs).sum =
      R * (random.map Int.natAbs).sum := by
    rw [List.map_flatten, List.sum_flatten, List.map_replicate, List.map_replicate,
      List.sum_replicate_nat, List.map_reverse, List.sum_reverse_nat]
  have hsum : (List.replicate R random.reverse).flatten.sum = R * random.sum := by
    rw [List.sum_flatten, List.map_replicate, List.sum_replicate_int, List.sum_reverse_int]
  rw [main_adds hm hR hrandom, foldlM_addInt (by simpa only [habs, Int.natAbs_zero, zero_add]), hsum,
    zero_add]
  rfl

end Loops

/-- An allocator that takes the first of `n` addresses that is free. -/
def firstFree (n : Nat) : Allocator Nat (Cell Nat) :=
  fun _ cells => (List.range n).find? fun a => (cells a).isNone

theorem serves_firstFree (n : Nat) : Memory.Serves (firstFree n) ⟨fun _ => none, 0⟩ n where
  fresh _ cells a ha := by simpa using List.find?_some ha
  room _ cells as has hsame := by
    obtain ⟨a, ha, hfree⟩ : ∃ a ∈ List.range n, a ∉ as := by
      by_contra hall
      push Not at hall
      have := (List.subperm_of_subset List.nodup_range hall).length_le
      rw [List.length_range] at this
      omega
    intro hnone
    have := List.find?_eq_none.mp hnone a ha
    simp [hsame a hfree] at this

/-- The program as it stands. -/
theorem main_sums_random :
    main (firstFree 120) [3, 1, 4, 1, 5, 9, 2, 6, 5, 3, 5] 10 11 ⟨fun _ => none, 0⟩ =
      .ok (440, ⟨fun _ => none, 120⟩) :=
  (main_sums (serves_firstFree 120) (by decide) (by decide)).2 (by decide)

end IcsaDswp.SumListList
