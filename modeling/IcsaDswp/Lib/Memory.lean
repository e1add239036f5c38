import IcsaDswp.Lib.Fold
import Mathlib.Data.List.Basic
import Mathlib.Data.List.Nodup
import Mathlib.Logic.Function.Basic
import Mathlib.Tactic.Ring

/-!
# Cells and chains of cells

A memory holds a cell at each live address; a null pointer is `none`. `new` gets an address that is
not live from an allocator, `delete` gives one back. A chain is a list that runs through the memory,
whose values may be chains in turn; what it is depends on the cells of its `footprint` only. There is
a rule for each kind of loop over a chain: one that builds it (`foldlM_build`), one that reads it
(`whileSome_read`) and one that frees it (`whileSome_free`).
-/

namespace IcsaDswp.Lib

/-- What a program does wrong with its memory or its numbers, and what it runs out of. -/
inductive MemoryFault where
  /-- Through a null pointer, or to a cell that is not live or not of the type of the pointer. -/
  | invalidAccess
  | overflow
  | outOfMemory
  | outOfFuel
  deriving DecidableEq

variable {A C V W σ ι : Type}

structure Memory (A C : Type) where
  cells : A → Option C
  /-- How many cells were made. -/
  news : Nat

/-- Where there is room for the next cell, if anywhere. -/
abbrev Allocator (A C : Type) := Nat → (A → Option C) → Option A

namespace Memory

variable [DecidableEq A] {alloc : Allocator A C} {m m' m'' : Memory A C} {as bs : List A} {n : Nat}

def new (alloc : Allocator A C) (c : C) (m : Memory A C) : Except MemoryFault (A × Memory A C) :=
  match alloc m.news m.cells with
  | some a => .ok (a, ⟨Function.update m.cells a (some c), m.news + 1⟩)
  | none => .error .outOfMemory

def load (m : Memory A C) : Option A → Except MemoryFault C
  | some a => match m.cells a with
    | some c => .ok c
    | none => .error .invalidAccess
  | none => .error .invalidAccess

def store (m : Memory A C) (p : Option A) (c : C) : Except MemoryFault (Memory A C) :=
  match p with
  | some a =>
    if (m.cells a).isSome then .ok { m with cells := Function.update m.cells a (some c) }
    else .error .invalidAccess
  | none => .error .invalidAccess

/-- Of a null pointer it does nothing. -/
def delete (m : Memory A C) : Option A → Except MemoryFault (Memory A C)
  | some a =>
    if (m.cells a).isSome then .ok { m with cells := Function.update m.cells a none }
    else .error .invalidAccess
  | none => .ok m

/-- `m` without the cells at `as`. -/
def remove (m : Memory A C) (as : List A) : Memory A C :=
  { m with cells := fun a => if a ∈ as then none else m.cells a }

omit [DecidableEq A] in
theorem load_ok {a : A} {c : C} (h : m.cells a = some c) : m.load (some a) = .ok c := by
  simp [load, h]

theorem store_ok {a : A} {c : C} (h : m.cells a = some c) (c' : C) :
    m.store (some a) c' = .ok { m with cells := Function.update m.cells a (some c') } := by
  simp [store, h]

theorem delete_ok {a : A} {c : C} (h : m.cells a = some c) :
    m.delete (some a) = .ok (m.remove [a]) := by
  have hcells : Function.update m.cells a none = fun b => if b ∈ [a] then none else m.cells b := by
    funext b
    simp [Function.update_apply]
  simp [delete, h, remove, hcells]

theorem remove_remove (m : Memory A C) (as bs : List A) :
    (m.remove as).remove bs = m.remove (as ++ bs) := by
  unfold remove
  congr 1
  funext a
  by_cases ha : a ∈ as <;> by_cases hb : a ∈ bs <;> simp [ha, hb]

theorem remove_perm (m : Memory A C) (h : as.Perm bs) : m.remove as = m.remove bs := by
  unfold remove
  congr 1
  funext a
  simp only [h.mem_iff]

theorem remove_cells_of_notMem {a : A} (h : a ∉ as) : (m.remove as).cells a = m.cells a :=
  if_neg h

/-! ## Growth -/

/-- `m'` is `m` with new cells at `as`. -/
structure Grown (m m' : Memory A C) (as : List A) : Prop where
  nodup : as.Nodup
  dead : ∀ a ∈ as, m.cells a = none
  live : ∀ a ∈ as, m'.cells a ≠ none
  same : ∀ a ∉ as, m'.cells a = m.cells a
  news : m'.news = m.news + as.length

omit [DecidableEq A] in
theorem Grown.refl (m : Memory A C) : Grown m m [] where
  nodup := .nil
  dead := by simp
  live := by simp
  same _ _ := rfl
  news := rfl

omit [DecidableEq A] in
theorem Grown.disjoint (h : Grown m m' as) (h' : Grown m' m'' bs) : bs.Disjoint as :=
  fun a hb ha => h.live a ha (h'.dead a hb)

omit [DecidableEq A] in
theorem Grown.trans (h : Grown m m' as) (h' : Grown m' m'' bs) : Grown m m'' (bs ++ as) where
  nodup := h'.nodup.append h.nodup (h.disjoint h')
  dead a ha := by
    rcases List.mem_append.mp ha with hb | ha
    · rw [← h.same a (fun ha => h.disjoint h' hb ha)]
      exact h'.dead a hb
    · exact h.dead a ha
  live a ha := by
    rcases List.mem_append.mp ha with hb | ha
    · exact h'.live a hb
    · rw [h'.same a (fun hb => h.disjoint h' hb ha)]
      exact h.live a ha
  same a ha := by
    rw [List.mem_append, not_or] at ha
    rw [h'.same a ha.1, h.same a ha.2]
  news := by
    rw [h'.news, h.news, List.length_append]
    omega

omit [DecidableEq A] in
theorem Grown.perm (h : Grown m m' as) (hp : as.Perm bs) : Grown m m' bs where
  nodup := hp.nodup_iff.mp h.nodup
  dead a ha := h.dead a (hp.mem_iff.mpr ha)
  live a ha := h.live a (hp.mem_iff.mpr ha)
  same a ha := h.same a fun ha' => ha (hp.mem_iff.mp ha')
  news := by rw [h.news, hp.length_eq]

/-- Without its new cells it is what it was. -/
theorem Grown.remove (h : Grown m m' as) :
    m'.remove as = { m with news := m.news + as.length } := by
  have hcells : (m'.remove as).cells = m.cells := by
    funext a
    by_cases ha : a ∈ as
    · rw [h.dead a ha]
      exact if_pos ha
    · rw [remove_cells_of_notMem ha, h.same a ha]
  calc m'.remove as = ⟨(m'.remove as).cells, m'.news⟩ := rfl
    _ = { m with news := m.news + as.length } := by rw [hcells, h.news]

/-- From `m` on, `alloc` has room for `n` cells. -/
structure Serves (alloc : Allocator A C) (m : Memory A C) (n : Nat) : Prop where
  fresh : ∀ k cells a, alloc k cells = some a → cells a = none
  room : ∀ k cells (as : List A), as.length < n → (∀ a ∉ as, cells a = m.cells a) →
    alloc k cells ≠ none

omit [DecidableEq A] in
theorem Serves.grown (h : Serves alloc m n) (hm : Grown m m' as) {k : Nat} (hk : as.length + k ≤ n) :
    Serves alloc m' k where
  fresh := h.fresh
  room j cells bs hbs hsame := by
    refine h.room j cells (bs ++ as) (by rw [List.length_append]; omega) fun a ha => ?_
    rw [List.mem_append, not_or] at ha
    rw [hsame a ha.1, hm.same a ha.2]

theorem Serves.new (h : Serves alloc m n) (hn : 0 < n) (c : C) :
    ∃ a m', m.new alloc c = .ok (a, m') ∧ Grown m m' [a] ∧ m'.cells a = some c := by
  obtain ⟨a, ha⟩ := Option.ne_none_iff_exists'.mp (h.room m.news m.cells [] hn fun _ _ => rfl)
  refine ⟨a, _, by rw [Memory.new, ha], ?_, Function.update_self ..⟩
  exact {
    nodup := List.nodup_singleton a
    dead := by simpa using h.fresh _ _ _ ha
    live := by simp
    same := fun b hb => Function.update_of_ne (by simpa using hb) ..
    news := rfl }

/-- A cell that is new may be written. -/
theorem Grown.store (h : Grown m m' as) {a : A} (ha : a ∈ as) (c : C) :
    ∃ m'', m'.store (some a) c = .ok m'' ∧ Grown m m'' as ∧ m''.cells a = some c ∧
      ∀ b ≠ a, m''.cells b = m'.cells b := by
  obtain ⟨c₀, hc₀⟩ := Option.ne_none_iff_exists'.mp (h.live a ha)
  refine ⟨_, store_ok hc₀ c, ?_, Function.update_self .., fun b hb => Function.update_of_ne hb ..⟩
  exact {
    nodup := h.nodup
    dead := h.dead
    live := fun b hb => by
      by_cases hba : b = a
      · simp [hba]
      · simpa [Function.update_of_ne hba] using h.live b hb
    same := fun b hb => by
      have hne : b ≠ a := fun he => hb (he ▸ ha)
      simpa [Function.update_of_ne hne] using h.same b hb
    news := h.news }

end Memory

/-! ## Chains -/

section Chain

/-- From `p` there runs a chain over the cells `node next v`; at the addresses of `l`, the `v` are
what `l` says, as told by `Holds`. -/
def Chain (node : Option A → V → C) (Holds : (A → Option C) → V → W → Prop) (cells : A → Option C) :
    Option A → List (A × W) → Prop
  | p, [] => p = none
  | p, (a, w) :: l => p = some a ∧ ∃ next v, cells a = some (node next v) ∧ Holds cells v w ∧
      Chain node Holds cells next l

/-- The addresses of a chain and those of its values. -/
def footprint (foot : W → List A) (l : List (A × W)) : List A :=
  l.flatMap fun x => x.1 :: foot x.2

variable {node : Option A → V → C} {Holds : (A → Option C) → V → W → Prop} {foot : W → List A}
  {cells cells' : A → Option C} {p : Option A} {l : List (A × W)}

/-- `Holds` looks at no other cells than those of `foot`. -/
def Framed (Holds : (A → Option C) → V → W → Prop) (foot : W → List A) : Prop :=
  ∀ cells cells' v w, (∀ a ∈ foot w, cells' a = cells a) → Holds cells v w → Holds cells' v w

theorem Chain.congr (hH : Framed Holds foot) (h : Chain node Holds cells p l)
    (hcells : ∀ a ∈ footprint foot l, cells' a = cells a) : Chain node Holds cells' p l := by
  induction l generalizing p with
  | nil => exact h
  | cons x l ih =>
    obtain ⟨a, w⟩ := x
    obtain ⟨rfl, next, v, ha, hv, hl⟩ := h
    have hmem : footprint foot ((a, w) :: l) = (a :: foot w) ++ footprint foot l := rfl
    rw [hmem] at hcells
    refine ⟨rfl, next, v, ?_, hH _ _ v w (fun b hb => hcells b ?_) hv,
      ih hl fun b hb => hcells b (List.mem_append_right _ hb)⟩
    · rw [hcells a (by simp), ha]
    · simp [hb]

/-- Chains are values that a chain can have. -/
theorem framed_chain (hH : Framed Holds foot) : Framed (Chain node Holds) (footprint foot) :=
  fun _ _ _ _ hcells h => h.congr hH hcells

/-- Values that are in the cells themselves. -/
theorem framed_eq : Framed (fun (_ : A → Option C) (v w : V) => v = w) fun _ => ([] : List A) :=
  fun _ _ _ _ _ h => h

/-- `m` is grown by a chain over the elements `is`, the last one first. -/
structure Built (node : Option A → V → C) (Holds : (A → Option C) → V → W → Prop)
    (foot : W → List A) (Made : ι → W → Prop) (size : Nat) (m : Memory A C) (is : List ι)
    (s : Option A × Memory A C) (l : List (A × W)) : Prop where
  chain : Chain node Holds s.2.cells s.1 l
  grown : m.Grown s.2 (footprint foot l)
  length : (footprint foot l).length = is.length * (size + 1)
  made : List.Forall₂ Made is.reverse (l.map Prod.snd)

variable {m : Memory A C}

theorem Built.map_values {X : Type} {Made : ι → W → Prop} {size : Nat} {is : List ι}
    {s : Option A × Memory A C} (h : Built node Holds foot Made size m is s l) {f : ι → X}
    {g : W → X} (hfg : ∀ i w, Made i w → g w = f i) :
    (l.map Prod.snd).map g = is.reverse.map f := by
  have hmade : List.Forall₂ Eq (is.reverse.map f) ((l.map Prod.snd).map g) := by
    rw [List.forall₂_map_left_iff, List.forall₂_map_right_iff]
    exact h.made.imp fun i w hw => (hfg i w hw).symm
  rw [List.forall₂_eq_eq_eq] at hmade
  exact hmade.symm

/-- **A loop that puts a new cell in front, for each element, builds a chain.** -/
theorem foldlM_build (hH : Framed Holds foot) {Made : ι → W → Prop} {size : Nat}
    {alloc : Allocator A C} {f : Option A × Memory A C → ι → Except MemoryFault (Option A × Memory A C)}
    (hstep : ∀ head m i, m.Serves alloc (size + 1) → ∃ a v w m', f (head, m) i = .ok (some a, m') ∧
      m.Grown m' (a :: foot w) ∧ (foot w).length = size ∧ m'.cells a = some (node head v) ∧
      Holds m'.cells v w ∧ Made i w)
    (is : List ι) (hm : m.Serves alloc (is.length * (size + 1))) :
    ∃ s, is.foldlM f (none, m) = .ok s ∧ ∃ l, Built node Holds foot Made size m is s l := by
  refine foldlM_total (fun done s => ∃ l, Built node Holds foot Made size m done s l) ?_
    ⟨[], rfl, .refl m, by simp [footprint], .nil⟩
  rintro done i rest ⟨head, m₁⟩ rfl ⟨l, h⟩
  have hroom : (done ++ i :: rest).length * (size + 1) =
      done.length * (size + 1) + (size + 1) + rest.length * (size + 1) := by
    simp only [List.length_append, List.length_cons]
    ring
  have hlength := h.length
  obtain ⟨a, v, w, m₂, hf, hgrown, hsize, ha, hv, hw⟩ :=
    hstep head m₁ i (hm.grown h.grown (by omega))
  have hmem : footprint foot ((a, w) :: l) = (a :: foot w) ++ footprint foot l := rfl
  refine ⟨_, hf, (a, w) :: l, ⟨rfl, head, v, ha, hv, ?_⟩, h.grown.trans hgrown, ?_, ?_⟩
  · exact h.chain.congr hH fun b hb => hgrown.same b fun hb' => h.grown.disjoint hgrown hb' hb
  · rw [hmem, List.length_append, List.length_append, List.length_cons, hsize, hlength,
      List.length_singleton]
    ring
  · rw [List.reverse_append]
    exact .cons hw h.made

/-- `while (nullptr != p)`: the body goes from a cell and a state to the next pointer. -/
def whileSome (body : A → σ → Except MemoryFault (Option A × σ)) :
    Nat → Option A → σ → Except MemoryFault σ
  | _, none, s => .ok s
  | 0, some _, _ => .error .outOfFuel
  | fuel + 1, some a, s => do
    let (next, s) ← body a s
    whileSome body fuel next s

/-- **A loop that reads a chain, and writes nothing of it, is a fold over its values.** -/
theorem whileSome_read (view : σ → A → Option C) (hH : Framed Holds foot)
    {g : σ → W → Except MemoryFault σ} {body : A → σ → Except MemoryFault (Option A × σ)}
    (hbody : ∀ a next v w s, (a, w) ∈ l → view s a = some (node next v) → Holds (view s) v w →
      body a s = (g s w).map (next, ·))
    (hkeep : ∀ s s' w, g s w = .ok s' → ∀ a ∈ footprint foot l, view s' a = view s a) {s : σ}
    (hl : Chain node Holds (view s) p l) {fuel : Nat} (hfuel : l.length ≤ fuel) :
    whileSome body fuel p s = (l.map Prod.snd).foldlM g s := by
  induction l generalizing p fuel s with
  | nil =>
    rw [show p = none from hl]
    cases fuel <;> rfl
  | cons x l ih =>
    obtain ⟨a, w⟩ := x
    obtain ⟨rfl, next, v, ha, hv, hl⟩ := hl
    obtain ⟨fuel, rfl⟩ : ∃ k, fuel = k + 1 := ⟨fuel - 1, by rw [List.length_cons] at hfuel; omega⟩
    have hkeep' : ∀ s s' w, g s w = .ok s' → ∀ a ∈ footprint foot l, view s' a = view s a :=
      fun s s' w hg a ha => hkeep s s' w hg a (List.mem_append_right _ ha)
    rw [whileSome, hbody a next v w s (List.mem_cons_self ..) ha hv, List.map_cons, List.foldlM_cons]
    cases hg : g s w with
    | error e => rfl
    | ok s' =>
      exact ih (fun a next v w s hw => hbody a next v w s (List.mem_cons_of_mem _ hw)) hkeep'
        (hl.congr hH (hkeep' s s' w hg)) (by simpa using hfuel)

variable [DecidableEq A]

/-- **A loop that frees the cell and the value of each turn frees the chain.** -/
theorem whileSome_free (hH : Framed Holds foot)
    {body : A → Memory A C → Except MemoryFault (Option A × Memory A C)}
    (hbody : ∀ a next v w m, (a, w) ∈ l → m.cells a = some (node next v) → Holds m.cells v w →
      (a :: foot w).Nodup → body a m = .ok (next, m.remove (a :: foot w)))
    (hl : Chain node Holds m.cells p l) (hnodup : (footprint foot l).Nodup) {fuel : Nat}
    (hfuel : l.length ≤ fuel) :
    whileSome body fuel p m = .ok (m.remove (footprint foot l)) := by
  induction l generalizing p fuel m with
  | nil =>
    rw [show p = none from hl]
    have hm : m.remove (footprint foot []) = m := by simp [Memory.remove, footprint]
    rw [hm]
    cases fuel <;> rfl
  | cons x l ih =>
    obtain ⟨a, w⟩ := x
    obtain ⟨rfl, next, v, ha, hv, hl⟩ := hl
    obtain ⟨fuel, rfl⟩ : ∃ k, fuel = k + 1 := ⟨fuel - 1, by rw [List.length_cons] at hfuel; omega⟩
    have hmem : footprint foot ((a, w) :: l) = (a :: foot w) ++ footprint foot l := rfl
    rw [hmem, List.nodup_append'] at hnodup
    obtain ⟨hhead, hrest, hdisjoint⟩ := hnodup
    have hl' : Chain node Holds (m.remove (a :: foot w)).cells next l :=
      hl.congr hH fun b hb => Memory.remove_cells_of_notMem fun hb' => hdisjoint hb' hb
    rw [whileSome, hbody a next v w m (List.mem_cons_self ..) ha hv hhead, hmem,
      ← Memory.remove_remove]
    exact ih (fun a next v w m hw => hbody a next v w m (List.mem_cons_of_mem _ hw)) hl' hrest
      (by simpa using hfuel)

end Chain

end IcsaDswp.Lib
