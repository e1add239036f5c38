import IcsaDswp.Lib.Memory
import Mathlib.Data.List.Permutation
import Mathlib.Tactic.IntervalCases

/-!
# Functions applied to payloads

`applyToList` of `src/test/linked-list-dswp.cpp` and `applyToArray` of `array-not-safe.cpp` call a
function with one payload after the other. A function that writes no node of the list gets the
payloads that the list has at the start (`applyToList_eq`), so that the search for them may run ahead.
Whether the calls for an array may be made in another order depends on the function: those of `square`
may, also where payloads coincide (`square_any_order`). `deleteNext` takes the node after the payload
out of the ring that the nodes form; how that ends depends on the order from four nodes on
(`deleteNext_any_order_iff`).
-/

namespace IcsaDswp.Payloads

open Lib

/-! ## The code -/

inductive Cell (A : Type) where
  | listNode (payload next : Option A)
  | node (payload : Option A)
  | int (value : Int)

variable {A : Type} [DecidableEq A]

/-- `*iterator` for a `ListNode *iterator`. -/
def listNode (m : Memory A (Cell A)) (p : Option A) : Except MemoryFault (Option A × Option A) := do
  match ← m.load p with
  | .listNode payload next => pure (payload, next)
  | _ => throw .invalidAccess

def applyToList (fuel : Nat) (head : Option A)
    (f : Option A → Memory A (Cell A) → Except MemoryFault (Memory A (Cell A)))
    (m : Memory A (Cell A)) : Except MemoryFault (Memory A (Cell A)) :=
  whileSome (fun iterator m => do
    let (payload, _) ← listNode m (some iterator)
    let m ← f payload m
    let (_, next) ← listNode m (some iterator)
    pure (next, m)) fuel head m

/-- `((Node *)p)->payload`. -/
def payload (m : Memory A (Cell A)) (p : Option A) : Except MemoryFault (Option A) := do
  match ← m.load p with
  | .node payload => pure payload
  | _ => throw .invalidAccess

/-- `((Node *)p)->payload = q`. -/
def setPayload (m : Memory A (Cell A)) (p q : Option A) : Except MemoryFault (Memory A (Cell A)) := do
  let _ ← payload m p
  m.store p (.node q)

/-- `*(int *)p`. -/
def value (m : Memory A (Cell A)) (p : Option A) : Except MemoryFault Int := do
  match ← m.load p with
  | .int value => pure value
  | _ => throw .invalidAccess

/-- The product of two `int`s. -/
def mulInt (x y : Int) : Except MemoryFault Int :=
  if -2 ^ 31 ≤ x * y ∧ x * y < 2 ^ 31 then .ok (x * y) else .error .overflow

/-- What stands to the left of the bars: the file has `square` beside it, too. -/
def deleteNext (a : Option A) (m : Memory A (Cell A)) : Except MemoryFault (Memory A (Cell A)) := do
  let b ← payload m a
  let c ← payload m b
  let m ← setPayload m a c
  setPayload m b b

def square (a : Option A) (m : Memory A (Cell A)) : Except MemoryFault (Memory A (Cell A)) := do
  let x ← value m a
  let y ← value m a
  let z ← mulInt x y
  m.store a (.int z)

/-- A turn of the loop of `applyToArray`; `nodes i` is `&nodes[i]`. -/
def apply (nodes : Nat → A) (f : Option A → Memory A (Cell A) → Except MemoryFault (Memory A (Cell A)))
    (m : Memory A (Cell A)) (i : Nat) : Except MemoryFault (Memory A (Cell A)) := do
  let p ← payload m (some (nodes i))
  f p m

def applyToArray (nodes : Nat → A) (nNodes : Nat)
    (f : Option A → Memory A (Cell A) → Except MemoryFault (Memory A (Cell A)))
    (m : Memory A (Cell A)) : Except MemoryFault (Memory A (Cell A)) :=
  (List.range nNodes).foldlM (apply nodes f) m

/-- The calls of `applyToArray` can be made in any order. -/
def AnyOrder (nodes : Nat → A) (nNodes : Nat)
    (f : Option A → Memory A (Cell A) → Except MemoryFault (Memory A (Cell A)))
    (m : Memory A (Cell A)) : Prop :=
  ∀ order : List Nat, order.Perm (List.range nNodes) →
    order.foldlM (apply nodes f) m = applyToArray nodes nNodes f m

variable {nodes : Nat → A} {n i : Nat} {m m' m₀ : Memory A (Cell A)} {a : A} {p : Option A}

omit [DecidableEq A] in
theorem payload_ok (h : m.cells a = some (.node p)) : payload m (some a) = .ok p := by
  rw [payload, Memory.load_ok h]
  rfl

omit [DecidableEq A] in
theorem value_ok {v : Int} (h : m.cells a = some (.int v)) : value m (some a) = .ok v := by
  rw [value, Memory.load_ok h]
  rfl

theorem setPayload_ok (h : m.cells a = some (.node p)) (q : Option A) :
    setPayload m (some a) q =
      .ok { m with cells := Function.update m.cells a (some (.node q)) } :=
  bind_ok.mpr ⟨p, payload_ok h, Memory.store_ok h _⟩

/-! ## `applyToList` -/

/-- A list of nodes with these payloads runs from here. -/
abbrev IsList : (A → Option (Cell A)) → Option A → List (A × Option A) → Prop :=
  Chain (fun next payload => .listNode payload next) fun _ v w => v = w

omit [DecidableEq A] in
theorem listNode_ok {next : Option A} (h : m.cells a = some (.listNode p next)) :
    listNode m (some a) = .ok (p, next) := by
  rw [listNode, Memory.load_ok h]
  rfl

omit [DecidableEq A] in
/-- **A function that leaves the list as it is gets the payloads of the list at the start.** -/
theorem applyToList_eq {f : Option A → Memory A (Cell A) → Except MemoryFault (Memory A (Cell A))}
    {head : Option A} {l : List (A × Option A)} (hl : IsList m.cells head l)
    (hf : ∀ p m m', f p m = .ok m' → ∀ a ∈ l.map Prod.fst, m'.cells a = m.cells a) {fuel : Nat}
    (hfuel : l.length ≤ fuel) :
    applyToList fuel head f m = (l.map Prod.snd).foldlM (fun m p => f p m) m := by
  have hfoot : footprint (fun _ => []) l = l.map Prod.fst := List.map_eq_flatMap.symm
  refine whileSome_read Memory.cells framed_eq ?_ ?_ hl hfuel
  · rintro a next p _ m hp ha rfl
    have hiterator : ∀ m', f p m = .ok m' → m'.cells a = some (.listNode p next) := fun m' hm' =>
      (hf p m m' hm' a (List.mem_map_of_mem hp)).trans ha
    rw [listNode_ok ha]
    show (do let m' ← f p m; let (_, next) ← listNode m' (some a); pure (next, m')) = _
    cases hm' : f p m with
    | error e => rfl
    | ok m' =>
      show (do let (_, next) ← listNode m' (some a); pure (next, m')) = _
      rw [listNode_ok (hiterator m' hm')]
      rfl
  · intro m m' p hm' a ha
    rw [hfoot] at ha
    exact hf p m m' hm' a ha

/-! ## `square` -/

/-- The payloads of the nodes are pointers to `int`s, not all different perhaps. -/
structure IntPayloads (nodes : Nat → A) (n : Nat) (ints : Nat → A) (m : Memory A (Cell A)) : Prop where
  node : ∀ i < n, m.cells (nodes i) = some (.node (some (ints i)))
  int : ∀ i < n, ∃ v, m.cells (ints i) = some (.int v)

section Square

variable {ints : Nat → A}

/-- The memory after `*a = v`. -/
def setInt (m : Memory A (Cell A)) (a : A) (v : Int) : Memory A (Cell A) :=
  { m with cells := Function.update m.cells a (some (.int v)) }

theorem IntPayloads.apply_square (h : IntPayloads nodes n ints m) (hi : i < n) {v : Int}
    (hv : m.cells (ints i) = some (.int v)) :
    apply nodes square m i = (mulInt v v).map (setInt m (ints i)) := by
  rw [apply, payload_ok (h.node i hi)]
  show square (some (ints i)) m = _
  rw [square, value_ok hv]
  show (do let z ← mulInt v v; m.store (some (ints i)) (.int z)) = _
  cases mulInt v v with
  | error e => rfl
  | ok z => exact Memory.store_ok hv _

theorem IntPayloads.setInt (h : IntPayloads nodes n ints m) (hi : i < n) (v : Int) :
    IntPayloads nodes n ints (setInt m (ints i) v) where
  node j hj := by
    obtain ⟨u, hu⟩ := h.int i hi
    have hne : nodes j ≠ ints i := fun he => by
      have := h.node j hj
      rw [he, hu] at this
      cases this
    exact (Function.update_of_ne hne ..).trans (h.node j hj)
  int j hj := by
    by_cases he : ints j = ints i
    · exact ⟨v, by rw [he]; exact Function.update_self ..⟩
    · obtain ⟨u, hu⟩ := h.int j hj
      exact ⟨u, (Function.update_of_ne he ..).trans hu⟩

omit [DecidableEq A] in
theorem mulInt_error {x y : Int} {e : MemoryFault} (h : mulInt x y = .error e) : e = .overflow := by
  unfold mulInt at h
  split at h
  · cases h
  · exact (Except.error.inj h).symm

theorem IntPayloads.apply_two {j : Nat} (h : IntPayloads nodes n ints m) (hi : i < n) (hj : j < n)
    (hne : ints i ≠ ints j) {u v : Int} (hv : m.cells (ints i) = some (.int v))
    (hu : m.cells (ints j) = some (.int u)) :
    (apply nodes square m i >>= (apply nodes square · j)) = (do
      let y ← mulInt v v
      let z ← mulInt u u
      pure (Payloads.setInt (Payloads.setInt m (ints i) y) (ints j) z)) := by
  rw [h.apply_square hi hv]
  cases mulInt v v with
  | error e => rfl
  | ok y =>
    have hu' : (Payloads.setInt m (ints i) y).cells (ints j) = some (.int u) :=
      (Function.update_of_ne hne.symm ..).trans hu
    exact (h.setInt hi y).apply_square hj hu'

theorem IntPayloads.comm {j : Nat} (h : IntPayloads nodes n ints m) (hi : i < n) (hj : j < n) :
    (apply nodes square m i >>= (apply nodes square · j)) =
      (apply nodes square m j >>= (apply nodes square · i)) := by
  by_cases he : ints i = ints j
  · -- the same call twice
    have hsame : ∀ m, IntPayloads nodes n ints m →
        apply nodes square m i = apply nodes square m j := by
      intro m h
      rw [apply, apply, payload_ok (h.node i hi), payload_ok (h.node j hj), he]
    obtain ⟨u, hu⟩ := h.int j hj
    rw [hsame m h, h.apply_square hj hu]
    cases mulInt u u with
    | error e => rfl
    | ok z => exact (hsame _ (h.setInt hj z)).symm
  · obtain ⟨v, hv⟩ := h.int i hi
    obtain ⟨u, hu⟩ := h.int j hj
    rw [h.apply_two hi hj he hv hu, h.apply_two hj hi (Ne.symm he) hu hv]
    cases hvv : mulInt v v with
    | error e =>
      cases huu : mulInt u u with
      | error e' =>
        obtain rfl := mulInt_error hvv
        obtain rfl := mulInt_error huu
        rfl
      | ok z => rfl
    | ok y =>
      cases mulInt u u with
      | error e' => rfl
      | ok z =>
        have hcells : (Payloads.setInt (Payloads.setInt m (ints i) y) (ints j) z).cells =
            (Payloads.setInt (Payloads.setInt m (ints j) z) (ints i) y).cells :=
          Function.update_comm he ..
        exact congrArg (fun cells => Except.ok (⟨cells, m.news⟩ : Memory A (Cell A))) hcells

/-- **`square` may be applied in any order, to payloads that coincide too.** -/
theorem square_any_order (h : IntPayloads nodes n ints m) : AnyOrder nodes n square m := by
  intro order hp
  have hlt : ∀ i ∈ order, i < n := fun i hi => List.mem_range.mp (hp.mem_iff.mp hi)
  refine foldlM_perm (P := IntPayloads nodes n ints) hp ?_
    (fun m i hi j hj h => IntPayloads.comm (i := i) (j := j) h (hlt i hi) (hlt j hj)) h
  intro m m' i hi h hm'
  obtain ⟨v, hv⟩ := h.int i (hlt i hi)
  rw [h.apply_square (hlt i hi) hv] at hm'
  obtain ⟨z, -, rfl⟩ := map_ok.mp hm'
  exact h.setInt (hlt i hi) z

end Square

/-- The squares of the numbers from 0 to 7, each at a payload of its own. -/
theorem square_any_order_ints :
    AnyOrder (fun i => i) 8 square
      ⟨fun a => if a < 8 then some (.node (some (8 + a)))
        else if a < 16 then some (.int (a - 8)) else none, 0⟩ :=
  square_any_order ⟨fun i hi => if_pos hi, fun i hi => ⟨i, by
    simp [show 8 + i < 16 by omega]⟩⟩

/-! ## `deleteNext` -/

/-- What `deleteNext` does to the links when it is called for node `i`. -/
def unlink (p : Nat → Nat) (i : Nat) : Nat → Nat :=
  Function.update (Function.update p (p i) (p (p (p i)))) (p (p i)) (p (p i))

/-- The ring that `main` sets up. -/
def ring (n i : Nat) : Nat := (i + 1) % n

section Ring

variable {p p' : Nat → Nat} {k : Nat}

theorem unlink_of_fixed (h : p i = i) : unlink p i = p := by
  unfold unlink
  rw [h, h, h, Function.update_idem]
  exact Function.update_eq_self_iff.mpr h.symm

/-- Node `k` is a ring by itself. -/
structure Alone (n k : Nat) (p : Nat → Nat) : Prop where
  lt : ∀ i < n, p i < n
  self : p k = k
  eq : ∀ i < n, p i = k → i = k

theorem Alone.unlink (h : Alone n k p) (hi : i < n) : Alone n k (unlink p i) := by
  by_cases hik : i = k
  · rw [unlink_of_fixed (by rw [hik]; exact h.self)]
    exact h
  have ha := h.lt i hi
  have hb := h.lt _ ha
  have hak : p i ≠ k := fun he => hik (h.eq i hi he)
  have hbk : p (p i) ≠ k := fun he => hak (h.eq _ ha he)
  have hck : p (p (p i)) ≠ k := fun he => hbk (h.eq _ hb he)
  refine ⟨fun j hj => ?_, ?_, fun j hj => ?_⟩
  · simp only [Payloads.unlink, Function.update_apply]
    split_ifs
    exacts [hb, h.lt _ hb, h.lt j hj]
  · rw [Payloads.unlink, Function.update_of_ne hbk.symm, Function.update_of_ne hak.symm]
    exact h.self
  · simp only [Payloads.unlink, Function.update_apply]
    split_ifs
    exacts [fun he => absurd he hbk, fun he => absurd he hck, h.eq j hj]

theorem Alone.foldl {order : List Nat} (h : Alone n k p) (horder : ∀ i ∈ order, i < n) :
    Alone n k (order.foldl Payloads.unlink p) := by
  induction order generalizing p with
  | nil => exact h
  | cons i order ih =>
    exact ih (h.unlink (horder i (by simp))) fun j hj => horder j (List.mem_cons_of_mem _ hj)

/-- In the order of the array, the first call leaves node 2 alone, and it stays so. -/
theorem forward_ring (hn : 3 ≤ n) : (List.range n).foldl unlink (ring n) 2 = 2 := by
  have h0 : ring n 0 = 1 := Nat.mod_eq_of_lt (by omega)
  have h1 : ring n 1 = 2 := Nat.mod_eq_of_lt (by omega)
  have halone : Alone n 2 (unlink (ring n) 0) := by
    unfold unlink
    rw [h0, h1]
    refine ⟨fun i hi => ?_, Function.update_self .., fun i hi => ?_⟩
    · simp only [Function.update_apply]
      split_ifs
      exacts [by omega, Nat.mod_lt _ (by omega), Nat.mod_lt _ (by omega)]
    · simp only [Function.update_apply]
      split_ifs with hi2 hi1
      · exact fun _ => hi2
      · intro he
        have : (2 + 1) % n = 2 := he
        rcases Nat.lt_or_ge 3 n with h | h
        · rw [Nat.mod_eq_of_lt h] at this
          omega
        · obtain rfl : n = 3 := by omega
          omega
      · intro he
        have : (i + 1) % n = 2 := he
        rcases Nat.lt_or_ge (i + 1) n with h | h
        · rw [Nat.mod_eq_of_lt h] at this
          omega
        · obtain rfl : i + 1 = n := by omega
          rw [Nat.mod_self] at this
          omega
  obtain ⟨n, rfl⟩ : ∃ k, n = k + 1 := ⟨n - 1, by omega⟩
  rw [List.range_succ_eq_map, List.foldl_cons]
  refine (halone.foldl fun i hi => ?_).self
  obtain ⟨j, hj, rfl⟩ := List.mem_map.mp hi
  have := List.mem_range.mp hj
  omega

/-- In front of the call for `k`, counting down: what is left of the ring are the nodes from 2 to
`k + 2`. -/
structure Wound (k : Nat) (p : Nat → Nat) : Prop where
  zero : p 0 = 0
  one : p 1 = 1
  next : ∀ i, 2 ≤ i → i ≤ k + 1 → p i = i + 1
  last : p (k + 2) = 2

theorem Wound.foldl (h : Wound k p) (hk : 1 ≤ k) :
    (List.range (k + 1)).reverse.foldl unlink p 2 = 3 := by
  induction k, hk using Nat.le_induction generalizing p with
  | base =>
    have hfold : (List.range 2).reverse.foldl unlink p = p := by
      show unlink (unlink p 1) 0 = p
      rw [unlink_of_fixed h.one, unlink_of_fixed h.zero]
    rw [hfold]
    exact h.next 2 le_rfl le_rfl
  | succ k hk ih =>
    rw [List.range_succ, List.reverse_append]
    refine ih ?_
    have ha : p (k + 1) = k + 2 := h.next _ (by omega) (by omega)
    have hb : p (k + 2) = k + 3 := h.next _ (by omega) (by omega)
    have hc : p (k + 3) = 2 := h.last
    unfold unlink
    rw [ha, hb, hc]
    exact {
      zero := by simp [h.zero]
      one := by simp [h.one]
      next := fun i hi hik => by
        rw [Function.update_of_ne (by omega), Function.update_of_ne (by omega)]
        exact h.next i hi (by omega)
      last := by rw [Function.update_of_ne (by omega), Function.update_self] }

/-- In the opposite order, nodes 2 and 3 are left as a ring. -/
theorem backward_ring (hn : 4 ≤ n) : (List.range n).reverse.foldl unlink (ring n) 2 = 3 := by
  obtain ⟨k, rfl⟩ : ∃ k, n = k + 3 := ⟨n - 3, by omega⟩
  have hring : ∀ i < k + 2, ring (k + 3) i = i + 1 := fun i hi => Nat.mod_eq_of_lt (by omega)
  have hlast : ring (k + 3) (k + 2) = 0 := Nat.mod_self _
  rw [List.range_succ, List.range_succ, List.reverse_append, List.reverse_append]
  show (List.range (k + 1)).reverse.foldl unlink (unlink (unlink (ring (k + 3)) (k + 2)) (k + 1)) 2 = 3
  have hfirst : unlink (ring (k + 3)) (k + 2) =
      Function.update (Function.update (ring (k + 3)) 0 2) 1 1 := by
    rw [unlink, hlast, hring 0 (by omega), hring 1 (by omega)]
  rw [hfirst]
  generalize hp : Function.update (Function.update (ring (k + 3)) 0 2) 1 1 = p
  have hother : ∀ i, 2 ≤ i → p i = ring (k + 3) i := fun i hi => by
    rw [← hp, Function.update_of_ne (by omega), Function.update_of_ne (by omega)]
  have hzero : p 0 = 2 := by simp [← hp]
  have hone : p 1 = 1 := by simp [← hp]
  have hsecond : unlink p (k + 1) = Function.update (Function.update p (k + 2) 2) 0 0 := by
    rw [unlink, hother (k + 1) (by omega), hring (k + 1) (by omega), hother (k + 2) (by omega), hlast,
      hzero]
  rw [hsecond]
  refine Wound.foldl ?_ (by omega)
  exact {
    zero := Function.update_self ..
    one := by
      rw [Function.update_of_ne (by omega), Function.update_of_ne (by omega)]
      exact hone
    next := fun i hi hik => by
      rw [Function.update_of_ne (by omega), Function.update_of_ne (by omega), hother i hi]
      exact hring i (by omega)
    last := by rw [Function.update_of_ne (by omega), Function.update_self] }

/-- **How the ring ends depends on the order from four nodes on.** -/
theorem ring_any_order_iff :
    (∀ order : List Nat, order.Perm (List.range n) →
      ∀ i < n, order.foldl unlink (ring n) i = (List.range n).foldl unlink (ring n) i) ↔ n ≤ 3 := by
  constructor
  · intro h
    by_contra hn
    have := h _ (List.reverse_perm _) 2 (by omega)
    rw [backward_ring (by omega), forward_ring (by omega)] at this
    omega
  · intro hn order hp
    rw [← List.mem_permutations'] at hp
    revert order
    interval_cases n <;> decide

end Ring

/-- The nodes are linked by `p`; apart from that the memory is `m₀`. -/
structure Linked (nodes : Nat → A) (n : Nat) (m₀ : Memory A (Cell A)) (p : Nat → Nat)
    (m : Memory A (Cell A)) : Prop where
  lt : ∀ i < n, p i < n
  node : ∀ i < n, m.cells (nodes i) = some (.node (some (nodes (p i))))
  other : ∀ a, (∀ i < n, a ≠ nodes i) → m.cells a = m₀.cells a
  news : m.news = m₀.news

section Linked

variable {p p' : Nat → Nat} {j k : Nat}

theorem Linked.setPayload (hinj : ∀ i < n, ∀ j < n, nodes i = nodes j → i = j)
    (h : Linked nodes n m₀ p m) (hj : j < n) (hk : k < n) :
    ∃ m', Payloads.setPayload m (some (nodes j)) (some (nodes k)) = .ok m' ∧
      Linked nodes n m₀ (Function.update p j k) m' := by
  refine ⟨_, setPayload_ok (h.node j hj) _, fun i hi => ?_, fun i hi => ?_, fun a ha => ?_, h.news⟩
  · by_cases hij : i = j
    · rw [hij, Function.update_self]
      exact hk
    · rw [Function.update_of_ne hij]
      exact h.lt i hi
  · by_cases hij : i = j
    · simp [hij]
    · have hne : nodes i ≠ nodes j := fun he => hij (hinj i hi j hj he)
      rw [Function.update_of_ne hij]
      exact (Function.update_of_ne hne ..).trans (h.node i hi)
  · exact (Function.update_of_ne (ha j hj) ..).trans (h.other a ha)

theorem Linked.apply_deleteNext (hinj : ∀ i < n, ∀ j < n, nodes i = nodes j → i = j)
    (h : Linked nodes n m₀ p m) (hi : i < n) :
    ∃ m', apply nodes deleteNext m i = .ok m' ∧ Linked nodes n m₀ (unlink p i) m' := by
  have ha := h.lt i hi
  have hb := h.lt _ ha
  obtain ⟨m₁, hm₁, h₁⟩ := h.setPayload hinj ha (h.lt _ hb)
  obtain ⟨m₂, hm₂, h₂⟩ := h₁.setPayload hinj hb hb
  exact ⟨m₂, bind_ok.mpr ⟨_, payload_ok (h.node i hi), bind_ok.mpr ⟨_, payload_ok (h.node _ ha),
    bind_ok.mpr ⟨_, payload_ok (h.node _ hb), bind_ok.mpr ⟨_, hm₁, hm₂⟩⟩⟩⟩, h₂⟩

theorem Linked.foldl (hinj : ∀ i < n, ∀ j < n, nodes i = nodes j → i = j)
    (h : Linked nodes n m₀ p m) {order : List Nat} (horder : ∀ i ∈ order, i < n) :
    ∃ m', order.foldlM (apply nodes deleteNext) m = .ok m' ∧
      Linked nodes n m₀ (order.foldl unlink p) m' := by
  induction order generalizing p m with
  | nil => exact ⟨m, rfl, h⟩
  | cons i order ih =>
    obtain ⟨m₁, hm₁, h₁⟩ := h.apply_deleteNext hinj (horder i (by simp))
    obtain ⟨m₂, hm₂, h₂⟩ := ih h₁ fun j hj => horder j (List.mem_cons_of_mem _ hj)
    exact ⟨m₂, bind_ok.mpr ⟨m₁, hm₁, hm₂⟩, h₂⟩

omit [DecidableEq A] in
/-- The links are what tells memories apart. -/
theorem Linked.eq_iff (hinj : ∀ i < n, ∀ j < n, nodes i = nodes j → i = j)
    (h : Linked nodes n m₀ p m) (h' : Linked nodes n m₀ p' m') :
    m = m' ↔ ∀ i < n, p i = p' i := by
  constructor
  · rintro rfl i hi
    have he := (h.node i hi).symm.trans (h'.node i hi)
    simp only [Option.some.injEq, Cell.node.injEq] at he
    exact hinj _ (h.lt i hi) _ (h'.lt i hi) he
  · intro hp
    have hcells : m.cells = m'.cells := by
      funext a
      by_cases ha : ∃ i < n, a = nodes i
      · obtain ⟨i, hi, rfl⟩ := ha
        rw [h.node i hi, h'.node i hi, hp i hi]
      · push Not at ha
        rw [h.other a ha, h'.other a ha]
    cases m
    cases m'
    simp only [Memory.mk.injEq]
    exact ⟨hcells, h.news.trans h'.news.symm⟩

/-- **`deleteNext` may be applied to a ring of nodes in any order only if there are three at
most.** -/
theorem deleteNext_any_order_iff (hinj : ∀ i < n, ∀ j < n, nodes i = nodes j → i = j)
    (hring : ∀ i < n, m.cells (nodes i) = some (.node (some (nodes ((i + 1) % n))))) :
    AnyOrder nodes n deleteNext m ↔ n ≤ 3 := by
  have h : Linked nodes n m (ring n) m :=
    ⟨fun i hi => Nat.mod_lt _ (by omega), hring, fun _ _ => rfl, rfl⟩
  have hrun : ∀ order : List Nat, order.Perm (List.range n) →
      ∃ m', order.foldlM (apply nodes deleteNext) m = .ok m' ∧
        Linked nodes n m (order.foldl unlink (ring n)) m' := fun order hp =>
    h.foldl hinj fun i hi => List.mem_range.mp (hp.mem_iff.mp hi)
  obtain ⟨m₁, hm₁, h₁⟩ := hrun _ (List.Perm.refl _)
  rw [← ring_any_order_iff]
  refine forall_congr' fun order => forall_congr' fun hp => ?_
  obtain ⟨m₂, hm₂, h₂⟩ := hrun order hp
  rw [hm₂, applyToArray, hm₁, Except.ok.injEq, h₂.eq_iff hinj h₁]

end Linked

/-- The ring of `main`. -/
theorem deleteNext_any_order_iff_eight :
    ¬ AnyOrder (fun i => i) 8 deleteNext
      ⟨fun a => if a < 8 then some (.node (some ((a + 1) % 8))) else none, 0⟩ := by
  rw [deleteNext_any_order_iff (fun _ _ _ _ h => h) fun _ hi => if_pos hi]
  decide

end IcsaDswp.Payloads
