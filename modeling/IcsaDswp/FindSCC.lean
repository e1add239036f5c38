import IcsaDswp.GraphUtils

/-!
# Kosaraju's algorithm finds the strong components

The first pass of `findSCC` is a depth-first search of `g` from all nodes (`postOrder_spec`), the
second deals with one component of `g` after the other (`assignComponent_spec`). `findSCC` never
runs out of fuel and completes exactly on graphs all of whose dependants are nodes.
-/

namespace IcsaDswp

open Std (ExtTreeMap ExtTreeSet)
open Lib Relation

namespace GraphUtils

variable {V : Type} [LinearOrder V]

theorem foldl_insert_const {W : Type} (c : W) (us : List V) (m : OrdMap V W) (x : V) :
    (us.foldl (fun m u => m.insert u c) m)[x]? = if x ∈ us then some c else m[x]? := by
  induction us generalizing m with
  | nil => simp
  | cons u us ih =>
    rw [List.foldl_cons, ih, OrdMap.get_insert]
    by_cases h : x ∈ us
    · simp [h]
    · by_cases hu : u = x
      · simp [hu]
      · simp [h, hu, Ne.symm hu]

/-- Every node starts unvisited. -/
theorem createVisited_getD (g : DependenceGraph V) (x : V) :
    (createVisited g)[x]?.getD false = false := by
  rw [createVisited, foldl_insert_const]
  split <;> simp

/-- Every node starts unassigned. -/
theorem createComponent_get (g : DependenceGraph V) (x : V) (c : WithBot V) :
    (createComponent g)[x]? = some c ↔ g.IsNode x ∧ c = ⊥ := by
  rw [createComponent, foldl_insert_const, DependenceGraph.IsNode]
  by_cases h : x ∈ g.nodes
  · simp [h, eq_comm]
  · simp [h]

theorem dependants_ok {g : DependenceGraph V} {u : V} {l : List V} :
    dependants g u = .ok l ↔ g.IsNode u ∧ g.deps u = l := by
  rw [dependants, bind_ok, DependenceGraph.isNode_iff]
  constructor
  · rintro ⟨deps, h, hl⟩
    cases hl
    rw [DependenceGraph.getDependants_ok] at h
    exact ⟨⟨deps, h⟩, DependenceGraph.deps_eq h⟩
  · rintro ⟨⟨deps, h⟩, rfl⟩
    exact ⟨deps, DependenceGraph.getDependants_ok.mpr h, by rw [DependenceGraph.deps_eq h]; rfl⟩

theorem dependants_error {g : DependenceGraph V} {u : V} {e : Fault} :
    dependants g u = .error e ↔ ¬ g.IsNode u ∧ e = .outOfRange := by
  rw [dependants, bind_error, DependenceGraph.getDependants_error]
  simp [pure, Except.pure]

theorem deps_rel (g : DependenceGraph V) : (fun a b => b ∈ g.deps a) = g.Edge := by
  ext a b; exact DependenceGraph.mem_deps

/-- The nodes of a closed graph stay its nodes along paths. -/
theorem isNode_of_reach {g : DependenceGraph V} (hg : g.Closed) {u w : V} (hu : g.IsNode u)
    (h : ReflTransGen g.Edge u w) : g.IsNode w := by
  rcases h.cases_tail with rfl | ⟨c, -, hc⟩
  · exact hu
  · exact hg c w hc

/-- The nodes of `g` as a finite set. -/
def nodeSet (g : DependenceGraph V) : Finset V := g.nodes.keys.toFinset

@[simp] theorem mem_nodeSet {g : DependenceGraph V} {u : V} : u ∈ nodeSet g ↔ g.IsNode u := by
  rw [nodeSet, List.mem_toFinset, ExtTreeMap.mem_keys]; rfl

theorem card_nodeSet_filter_le (g : DependenceGraph V) (p : V → Prop) [DecidablePred p] :
    ((nodeSet g).filter p).card ≤ g.nodes.size := by
  refine (Finset.card_filter_le _ _).trans ((List.toFinset_card_le _).trans ?_)
  rw [ExtTreeMap.length_keys]

/-- How a search of `g` can fail when the fuel exceeds the number of nodes. -/
theorem search_dependants_error {σ : Type} {seen : σ → V → Bool} {enter leave : V → σ → σ}
    (M : Marks seen enter leave) {g : DependenceGraph V} {fuel : Nat}
    (hfuel : g.nodes.size < fuel) {u : V} {s : σ} {e : Fault}
    (h : search seen enter leave (dependants g) .outOfFuel fuel u s = .error e) :
    e = .outOfRange ∧ ∃ w, ReflTransGen g.Edge u w ∧ ¬ g.IsNode w := by
  have hnodes : ∀ u l, dependants g u = .ok l → u ∈ nodeSet g := fun u l hl =>
    mem_nodeSet.mpr (dependants_ok.mp hl).1
  rcases search_error M (fun u l hl => (dependants_ok.mp hl).2) hnodes h with
    ⟨-, hle⟩ | ⟨w, hw, he⟩
  · have := card_nodeSet_filter_le g fun v => ¬ seen s v = true
    omega
  · rw [deps_rel] at hw
    obtain ⟨hn, rfl⟩ := dependants_error.mp he
    exact ⟨rfl, w, hw, hn⟩

/-! ## First pass -/

theorem postOrderEnumerate_marks :
    Marks (fun (st : OrdMap V Bool × List V) u => st.1[u]?.getD false)
      (fun u st => (st.1.insert u true, st.2)) (fun u st => (st.1, u :: st.2)) where
  enter st u v := by
    rw [OrdMap.get_insert]
    by_cases h : u = v
    · simp [h]
    · simp [h, Ne.symm h]
  leave _ _ _ := rfl

/-- **The first pass** is a depth-first search of `g` from the nodes of `transposedG`; `postOrder`
is what it visits. -/
theorem postOrder_spec {g : DependenceGraph V} {fuel : Nat} {us : List V}
    {st : OrdMap V Bool × List V}
    (h : us.foldlM (fun state u => postOrderEnumerate g fuel u state) (createVisited g, []) =
      .ok st) :
    Forest g.deps ∅ us st.2 ∧ ∀ x ∈ st.2, g.IsNode x := by
  have happ : ∀ {n₁ n₂ : List V} {s s₁ s₂ : OrdMap V Bool × List V}, s₁.2 = n₁ ++ s.2 →
      s₂.2 = n₂ ++ s₁.2 → s₂.2 = n₂ ++ n₁ ++ s.2 := fun h₁ h₂ => by rw [h₂, h₁, List.append_assoc]
  obtain ⟨new, hf, -, hnew, hok⟩ := visits_foldlM (R := fun new s s' => s'.2 = new ++ s.2)
    (fun _ => rfl) happ (fun u s s' hs => search_visits postOrderEnumerate_marks
      (fun u l hl => (dependants_ok.mp hl).2) (fun _ => rfl) happ
      (fun _ hR => by simp only [hR, List.cons_append]) hs) h
  have hempty : {u | (createVisited g)[u]?.getD false = true} = (∅ : Set V) := by
    ext u; simp [createVisited_getD]
  rw [hempty] at hf
  rw [List.append_nil] at hnew
  refine ⟨hnew ▸ hf, fun x hx => ?_⟩
  obtain ⟨l, hl⟩ := hok x (hnew ▸ hx)
  exact (dependants_ok.mp hl).1

/-- A first pass that completes has seen all dependants as nodes. -/
theorem closed_of_postOrder {g : DependenceGraph V} {fuel : Nat}
    {st : OrdMap V Bool × List V}
    (h : (transpose g).nodes.keys.foldlM (fun state u => postOrderEnumerate g fuel u state)
      (createVisited g, []) = .ok st) : g.Closed := by
  obtain ⟨hf, hnode⟩ := postOrder_spec h
  intro a b hab
  have ha : a ∈ st.2 := by
    refine (hf.roots a ?_).resolve_left (by simp)
    rw [ExtTreeMap.mem_keys]
    exact (transpose_isNode g a).mpr (.inl hab.isNode)
  have hb := (hf.closed a ha b (DependenceGraph.mem_deps.mpr hab)).resolve_left (by simp)
  exact hnode b hb

/-- On a closed graph the first pass completes. -/
theorem postOrder_total {g : DependenceGraph V} (hg : g.Closed) {fuel : Nat}
    (hfuel : g.nodes.size < fuel) {us : List V} (hus : ∀ u ∈ us, g.IsNode u)
    (st : OrdMap V Bool × List V) :
    ∃ st', us.foldlM (fun state u => postOrderEnumerate g fuel u state) st = .ok st' := by
  cases h : us.foldlM (fun state u => postOrderEnumerate g fuel u state) st with
  | ok st' => exact ⟨st', rfl⟩
  | error e =>
    obtain ⟨done, u, rest, s, hl, -, he⟩ := foldlM_error h
    obtain ⟨-, w, hw, hn⟩ := search_dependants_error postOrderEnumerate_marks hfuel he
    exact absurd (isNode_of_reach hg (hus u (by simp [hl])) hw) hn

/-- It does so with the same result for all sufficient fuel. -/
theorem postOrder_fuel {g : DependenceGraph V} (hg : g.Closed) {us : List V}
    (hus : ∀ u ∈ us, g.IsNode u) (st : OrdMap V Bool × List V) :
    ∃ st', ∀ fuel, g.nodes.size < fuel →
      us.foldlM (fun state u => postOrderEnumerate g fuel u state) st = .ok st' := by
  obtain ⟨st', hst⟩ := postOrder_total hg (Nat.lt_succ_self g.nodes.size) hus st
  refine ⟨st', fun fuel hfuel => ?_⟩
  induction fuel, hfuel using Nat.le_induction with
  | base => exact hst
  | succ fuel _ ih =>
    have hne : us.foldlM (fun state u => postOrderEnumerate g fuel u state) st ≠
        .error .outOfFuel := by
      rw [ih]
      nofun
    rw [← ih]
    exact foldlM_congr_ne (fun s u hu => search_succ_fuel hu) hne

/-! ## Second pass -/

/-- `x` has a component. -/
def Assigned (component : OrdMap V (WithBot V)) (x : V) : Prop :=
  ∃ r : V, component[x]? = some (r : WithBot V)

theorem assigned_iff (component : OrdMap V (WithBot V)) (x : V) :
    decide (component[x]?.getD ⊥ ≠ ⊥) = true ↔ Assigned component x := by
  rw [decide_eq_true_iff, Assigned]
  cases component[x]? with
  | none => simp
  | some m => simp [WithBot.ne_bot_iff_exists, eq_comm]

theorem assignComponent_marks (root : V) :
    Marks (fun (component : OrdMap V (WithBot V)) u => decide (component[u]?.getD ⊥ ≠ ⊥))
      (fun u component => component.insert u (root : WithBot V))
      (fun _ component => component) where
  enter m u v := by
    rw [assigned_iff, assigned_iff, Assigned, Assigned, OrdMap.get_insert]
    by_cases h : u = v
    · simp [h]
    · simp [h, Ne.symm h]
  leave _ _ _ := rfl

/-- A call of `assignComponent` assigns `root` to what `u` reaches over unassigned nodes. -/
theorem assignComponent_spec {g : DependenceGraph V} {fuel : Nat} {u root : V}
    {m m' : OrdMap V (WithBot V)} (h : assignComponent g fuel u root m = .ok m') :
    ∃ new : List V, (∀ x, x ∈ new ↔ Reach g.deps {x | Assigned m x} u x) ∧
      ∀ x, m'[x]? = if x ∈ new then some (root : WithBot V) else m[x]? := by
  let R : List V → OrdMap V (WithBot V) → OrdMap V (WithBot V) → Prop := fun new m m' =>
    ∀ x, m'[x]? = if x ∈ new then some (root : WithBot V) else m[x]?
  have happ : ∀ {n₁ n₂ m m₁ m₂}, R n₁ m m₁ → R n₂ m₁ m₂ → R (n₂ ++ n₁) m m₂ := by
    intro n₁ n₂ m m₁ m₂ h₁ h₂ x
    rw [h₂, h₁]
    by_cases hx : x ∈ n₂ <;> simp [hx]
  have hvisit : ∀ {n m m₁ u}, u ∉ n → R n (m.insert u (root : WithBot V)) m₁ →
      R (u :: n) m m₁ := by
    intro n m m₁ u hu hR x
    rw [hR, OrdMap.get_insert]
    by_cases hx : u = x
    · simp [hx]
    · simp [hx, Ne.symm hx]
  obtain ⟨new, hf, -, hnew, -⟩ := search_visits (R := R) (assignComponent_marks root)
    (fun u l hl => (dependants_ok.mp hl).2) (fun _ _ => by simp) happ hvisit h
  have hset : {x | decide (m[x]?.getD ⊥ ≠ ⊥) = true} = {x | Assigned m x} := by
    ext x; exact assigned_iff m x
  rw [hset] at hf
  exact ⟨new, fun x => by simpa using hf.mem_iff, hnew⟩

/-- What holds of `component` when the roots `done` have been dealt with. -/
structure ComponentInv (g : DependenceGraph V) (done : List V) (m : OrdMap V (WithBot V)) :
    Prop where
  keys : ∀ x, (∃ r, m[x]? = some r) ↔ g.IsNode x
  assigned : ∀ x, Assigned m x ↔ ∃ w ∈ done, Mutual g.Edge w x
  root : ∀ x r : V, m[x]? = some (r : WithBot V) →
    Mutual g.Edge r x ∧ m[r]? = some (r : WithBot V)
  same : ∀ x y r s : V, m[x]? = some (r : WithBot V) → m[y]? = some (s : WithBot V) →
    Mutual g.Edge x y → r = s

theorem componentInv_init (g : DependenceGraph V) : ComponentInv g [] (createComponent g) where
  keys x := by simp [createComponent_get]
  assigned x := by simp [Assigned, createComponent_get]
  root x r h := by simp [createComponent_get] at h
  same x y r s h := by simp [createComponent_get] at h

/-- From `u`, in the transposed graph, the unassigned nodes reached are the component of `u`, unless
that is assigned already. -/
theorem assignComponent_new {g : DependenceGraph V} {done rest : List V} {u : V}
    (hnodes : ∀ x, x ∈ done ++ u :: rest ↔ g.IsNode x) (hnd : (done ++ u :: rest).Nodup)
    (ho : FinishOrder g.Edge (done ++ u :: rest)) {fuel : Nat} {m m' : OrdMap V (WithBot V)}
    (hinv : ComponentInv g done m) (h : assignComponent (transpose g) fuel u u m = .ok m') :
    ∃ new : List V,
      (∀ x, x ∈ new ↔ (¬ ∃ w ∈ done, Mutual g.Edge w u) ∧ Mutual g.Edge u x) ∧
      ∀ x : V, m'[x]? = if x ∈ new then some (u : WithBot V) else m[x]? := by
  obtain ⟨new, hreach, hget⟩ := assignComponent_spec h
  refine ⟨new, fun x => ?_, hget⟩
  have hset : {x | Assigned m x} = {z | ∃ w ∈ done, Mutual g.Edge w z} := by
    ext z
    exact hinv.assigned z
  rw [hreach, hset]
  by_cases hu : ∃ w ∈ done, Mutual g.Edge w u
  · simp only [hu, not_true_eq_false, false_and, iff_false]
    exact fun hr => hr.1 hu
  · rw [reach_transpose_iff (fun a b => by rw [DependenceGraph.mem_deps, transpose_edge])
      (fun a b hab => (hnodes a).mpr hab.isNode) hnd ho (fun w hw hm => hu ⟨w, hw, hm⟩)]
    simp [hu]

/-- **The second pass**, one root: `assignComponent` gives `u` its component unless it has one. -/
theorem componentInv_step {g : DependenceGraph V} (hg : g.Closed) {done rest : List V} {u : V}
    (hnodes : ∀ x, x ∈ done ++ u :: rest ↔ g.IsNode x) (hnd : (done ++ u :: rest).Nodup)
    (ho : FinishOrder g.Edge (done ++ u :: rest)) {fuel : Nat} {m m' : OrdMap V (WithBot V)}
    (hinv : ComponentInv g done m) (h : assignComponent (transpose g) fuel u u m = .ok m') :
    ComponentInv g (done ++ [u]) m' := by
  obtain ⟨new, hnew, hget⟩ := assignComponent_new hnodes hnd ho hinv h
  have hnodeu : g.IsNode u := (hnodes u).mp (by simp)
  refine ⟨fun x => ?_, fun x => ?_, fun x r hr => ?_, fun x y r s hr hs hxy => ?_⟩
  · rw [hget]
    split
    · next hx =>
      have := isNode_of_reach hg hnodeu ((hnew x).mp hx).2.1
      simp [this]
    · exact hinv.keys x
  · have hsplit : (∃ w ∈ done ++ [u], Mutual g.Edge w x) ↔
        (∃ w ∈ done, Mutual g.Edge w x) ∨ Mutual g.Edge u x := by
      simp [or_and_right, exists_or]
    rw [hsplit, ← hinv.assigned x, Assigned, hget]
    split
    · next hx => simp [((hnew x).mp hx).2]
    · next hx =>
      refine ⟨.inl, fun hx' => hx'.elim id fun hux => ?_⟩
      by_contra hc
      refine hx ((hnew x).mpr ⟨fun ⟨w, hw, hwu⟩ => hc ?_, hux⟩)
      exact (hinv.assigned x).mpr ⟨w, hw, hwu.trans hux⟩
  · rw [hget] at hr
    split at hr
    · next hx =>
      obtain rfl : u = r := by simpa using hr
      have hu : u ∈ new := (hnew u).mpr ⟨((hnew x).mp hx).1, .refl u⟩
      exact ⟨((hnew x).mp hx).2, by rw [hget, if_pos hu]⟩
    · next hx =>
      obtain ⟨hm, hrr⟩ := hinv.root x r hr
      refine ⟨hm, ?_⟩
      have hr' : r ∉ new := fun hrn => hx
        ((hnew x).mpr ⟨((hnew r).mp hrn).1, ((hnew r).mp hrn).2.trans hm⟩)
      rw [hget, if_neg hr', hrr]
  · have hiff : x ∈ new ↔ y ∈ new := by
      rw [hnew, hnew]
      exact and_congr_right fun _ => ⟨fun h => h.trans hxy, fun h => h.trans hxy.symm⟩
    rw [hget] at hr hs
    by_cases hx : x ∈ new
    · rw [if_pos hx] at hr
      rw [if_pos (hiff.mp hx)] at hs
      exact WithBot.coe_injective (by simpa using hr.symm.trans hs)
    · rw [if_neg hx] at hr
      rw [if_neg (mt hiff.mpr hx)] at hs
      exact hinv.same x y r s hr hs hxy

/-! ## Both passes -/

theorem card_nodeSet (g : DependenceGraph V) : (nodeSet g).card = g.nodes.size := by
  rw [nodeSet, List.toFinset_card_of_nodup ExtTreeMap.nodup_keys, ExtTreeMap.length_keys]

theorem transpose_closed (g : DependenceGraph V) : (transpose g).Closed := by
  intro a b hab
  exact (transpose_isNode g b).mpr (.inl ((transpose_edge g b a).mp hab).isNode)

theorem transpose_size {g : DependenceGraph V} (hg : g.Closed) :
    (transpose g).nodes.size = g.nodes.size := by
  rw [← card_nodeSet, ← card_nodeSet]
  congr 1
  ext v
  rw [mem_nodeSet, mem_nodeSet, transpose_isNode_closed hg]

/-- **`findSCC` on a closed graph** completes with every component dealt with. -/
theorem findSCCFuel_spec {g : DependenceGraph V} (hg : g.Closed) {fuel : Nat}
    (hfuel : g.nodes.size < fuel) :
    ∃ component done, findSCCFuel fuel g = .ok component ∧ ComponentInv g done component ∧
      ∀ x, x ∈ done ↔ g.IsNode x := by
  have hkeys : ∀ u, u ∈ (transpose g).nodes.keys ↔ g.IsNode u := fun u => by
    rw [ExtTreeMap.mem_keys]
    exact transpose_isNode_closed hg u
  obtain ⟨⟨visited, postOrder⟩, hfirst⟩ :=
    postOrder_total hg hfuel (fun u hu => (hkeys u).mp hu) (createVisited g, [])
  obtain ⟨hforest, hnode⟩ := postOrder_spec hfirst
  have hnodes : ∀ x, x ∈ postOrder ↔ g.IsNode x := fun x =>
    ⟨hnode x, fun hx => (hforest.roots x ((hkeys x).mpr hx)).resolve_left (by simp)⟩
  have ho : FinishOrder g.Edge postOrder := deps_rel g ▸ hforest.finishOrder
  have hsecond : ∃ component, postOrder.foldlM
      (fun component u => assignComponent (transpose g) fuel u u component)
      (createComponent g) = .ok component ∧ ComponentInv g postOrder component := by
    refine foldlM_total (ComponentInv g) ?_ (componentInv_init g)
    intro done u rest component hl hinv
    cases hcall : assignComponent (transpose g) fuel u u component with
    | ok component' =>
      refine ⟨component', rfl, ?_⟩
      exact componentInv_step hg (by simpa [hl] using hnodes) (hl ▸ hforest.nodup) (hl ▸ ho)
        hinv hcall
    | error e =>
      have hsize := transpose_size hg
      obtain ⟨-, w, hw, hn⟩ := search_dependants_error (assignComponent_marks u)
        (hsize ▸ hfuel) hcall
      have hu : (transpose g).IsNode u :=
        (transpose_isNode_closed hg u).mpr ((hnodes u).mp (by simp [hl]))
      exact absurd (isNode_of_reach (transpose_closed g) hu hw) hn
  obtain ⟨component, hloop, hinv⟩ := hsecond
  exact ⟨component, postOrder, bind_ok.mpr ⟨_, hfirst, hloop⟩, hinv, hnodes⟩

theorem findSCCFuel_ok_closed {g : DependenceGraph V} {fuel : Nat}
    {component : OrdMap V (WithBot V)} (h : findSCCFuel fuel g = .ok component) : g.Closed := by
  obtain ⟨st, hst, -⟩ := bind_ok.mp h
  exact closed_of_postOrder hst

/-- Given more fuel than nodes, the only failure is a missing node. -/
theorem findSCCFuel_error {g : DependenceGraph V} {fuel : Nat} (hfuel : g.nodes.size < fuel)
    {e : Fault} (h : findSCCFuel fuel g = .error e) : e = .outOfRange := by
  have hg : ¬ g.Closed := fun hg => by
    obtain ⟨component, done, hok, -⟩ := findSCCFuel_spec hg hfuel
    cases hok.symm.trans h
  rcases bind_error.mp h with h | ⟨st, hst, -⟩
  · obtain ⟨done, u, rest, s, -, -, he⟩ := foldlM_error h
    exact (search_dependants_error postOrderEnumerate_marks hfuel he).1
  · exact absurd (closed_of_postOrder hst) hg

theorem findSCCFuel_succ {g : DependenceGraph V} {fuel : Nat}
    (h : findSCCFuel fuel g ≠ .error .outOfFuel) :
    findSCCFuel (fuel + 1) g = findSCCFuel fuel g := by
  have hfirst : (transpose g).nodes.keys.foldlM
      (fun state u => postOrderEnumerate g fuel u state) (createVisited g, []) ≠
      .error .outOfFuel := fun he => h (bind_error.mpr (.inl he))
  have hsucc : (transpose g).nodes.keys.foldlM
      (fun state u => postOrderEnumerate g (fuel + 1) u state) (createVisited g, []) =
      (transpose g).nodes.keys.foldlM
        (fun state u => postOrderEnumerate g fuel u state) (createVisited g, []) :=
    foldlM_congr_ne (fun s u hu => search_succ_fuel hu) hfirst
  rw [findSCCFuel, findSCCFuel, hsucc]
  cases hst : (transpose g).nodes.keys.foldlM
      (fun state u => postOrderEnumerate g fuel u state) (createVisited g, []) with
  | error e => rfl
  | ok st =>
    refine foldlM_congr_ne (fun s u hu => search_succ_fuel hu) fun he => h ?_
    exact bind_error.mpr (.inr ⟨st, hst, he⟩)

/-- The recursion never needs more fuel than one more than the number of nodes. -/
theorem findSCCFuel_eq {g : DependenceGraph V} {fuel : Nat} (hfuel : g.nodes.size < fuel) :
    findSCCFuel fuel g = findSCC g := by
  induction fuel, hfuel using Nat.le_induction with
  | base => rfl
  | succ n hn ih =>
    rw [← ih]
    refine findSCCFuel_succ fun he => ?_
    cases findSCCFuel_error hn he

/-- `component` maps the nodes of `g` to the roots of their strong components. -/
structure IsComponentMap (g : DependenceGraph V) (component : OrdMap V (WithBot V)) : Prop where
  mem_iff : ∀ u, u ∈ component ↔ g.IsNode u
  ne_bot : ∀ u : V, component[u]? ≠ some (⊥ : WithBot V)
  same : ∀ u v, g.IsNode u → g.IsNode v →
    (component[u]? = component[v]? ↔ Mutual g.Edge u v)
  root : ∀ u r : V, component[u]? = some (r : WithBot V) → component[r]? = some (r : WithBot V)

theorem IsComponentMap.isNode {g : DependenceGraph V} {component : OrdMap V (WithBot V)}
    (h : IsComponentMap g component) {u : V} {r : WithBot V} (hu : component[u]? = some r) :
    g.IsNode u :=
  (h.mem_iff u).mp (OrdMap.mem_iff.mpr ⟨r, hu⟩)

theorem IsComponentMap.exists_root {g : DependenceGraph V} {component : OrdMap V (WithBot V)}
    (h : IsComponentMap g component) {u : V} (hu : g.IsNode u) : ∃ r, component[u]? = some r :=
  OrdMap.mem_iff.mp ((h.mem_iff u).mpr hu)

theorem findSCC_spec {g : DependenceGraph V} (hg : g.Closed) :
    ∃ component, findSCC g = .ok component ∧ IsComponentMap g component := by
  obtain ⟨component, done, h, hinv, hdone⟩ := findSCCFuel_spec hg (Nat.lt_succ_self g.nodes.size)
  have hassigned : ∀ u, g.IsNode u → ∃ r : V, component[u]? = some (r : WithBot V) := fun u hu =>
    (hinv.assigned u).mpr ⟨u, (hdone u).mpr hu, .refl u⟩
  refine ⟨component, h, fun u => ?_, fun u hu => ?_, fun u v hu hv => ?_,
    fun u r hr => (hinv.root u r hr).2⟩
  · rw [ExtTreeMap.mem_iff_isSome_getElem?, Option.isSome_iff_exists]
    exact hinv.keys u
  · obtain ⟨r, hr⟩ := hassigned u ((hinv.keys u).mp ⟨_, hu⟩)
    simp [hu] at hr
  · obtain ⟨r, hr⟩ := hassigned u hu
    obtain ⟨s, hs⟩ := hassigned v hv
    constructor
    · intro he
      have hrs : component[v]? = some (r : WithBot V) := he ▸ hr
      exact (hinv.root u r hr).1.symm.trans (hinv.root v r hrs).1
    · intro hm
      rw [hr, hs, hinv.same u v r s hr hs hm]

/-- **Correctness of `findSCC`.** It terminates on every graph and throws exactly when some
dependant is not a node; otherwise its result maps each node to the root of its component. -/
theorem findSCC_correct (g : DependenceGraph V) :
    (∀ fuel, g.nodes.size < fuel → findSCCFuel fuel g = findSCC g) ∧
    findSCC g ≠ .error .outOfFuel ∧
    ((∃ component, findSCC g = .ok component) ↔ g.Closed) ∧
    (¬ g.Closed → findSCC g = .error .outOfRange) ∧
    ∀ component, findSCC g = .ok component →
      (∀ u, u ∈ component ↔ g.IsNode u) ∧
      (∀ u : V, component[u]? ≠ some (⊥ : WithBot V)) ∧
      (∀ u v, g.IsNode u → g.IsNode v →
        (component[u]? = component[v]? ↔ ReflTransGen g.Edge u v ∧ ReflTransGen g.Edge v u)) ∧
      ∀ u r : V, component[u]? = some (r : WithBot V) → component[r]? = some (r : WithBot V) := by
  have herr : ∀ e, findSCC g = .error e → e = .outOfRange := fun e he =>
    findSCCFuel_error (Nat.lt_succ_self g.nodes.size) he
  refine ⟨fun fuel hfuel => findSCCFuel_eq hfuel, ?_, ?_, ?_, ?_⟩
  · intro he
    cases herr _ he
  · refine ⟨fun ⟨component, h⟩ => findSCCFuel_ok_closed h, fun hg => ?_⟩
    obtain ⟨component, h, -⟩ := findSCC_spec hg
    exact ⟨component, h⟩
  · intro hg
    cases h : findSCC g with
    | ok component => exact absurd (findSCCFuel_ok_closed h) hg
    | error e => rw [herr e h]
  · intro component h
    obtain ⟨component', h', hmap⟩ := findSCC_spec (findSCCFuel_ok_closed h)
    obtain rfl : component = component' := Except.ok.inj (h.symm.trans h')
    exact ⟨hmap.mem_iff, hmap.ne_bot, hmap.same, hmap.root⟩

/-- The graph of `pass/test/TestKosaraju.cpp`. -/
def fooGraph : DependenceGraph (Fin 8) :=
  let g := DependenceGraph.empty.addNodes (List.finRange 8)
  let g := (List.finRange 7).foldl (fun g i => g.addEdge i.castSucc i.succ) g
  (g.addEdge 1 0).addEdge 7 5

example : (findSCC fooGraph).map (fun component => component.values) =
    .ok (([0, 0, 2, 3, 4, 5, 5, 5] : List (Fin 8)).map (↑)) := by
  decide +kernel

/-- The same without the edge back to 0, which leaves no cycle before that of 3 and 4. -/
def cutGraph : DependenceGraph (Fin 8) :=
  let g := DependenceGraph.empty.addNodes (List.finRange 8)
  let g := (List.finRange 7).foldl (fun g i => g.addEdge i.castSucc i.succ) g
  (g.addEdge 4 3).addEdge 7 5

/-! ## The order of the first pass -/

/-- **The order of the first pass.** Its recursion terminates, each node is enumerated once, and
where `u` leads to `v` and not back, a node of the component of `u` comes before that of `v`. -/
theorem postOrder_topological {g : DependenceGraph V} (hg : g.Closed) :
    (∀ u, g.IsNode u → ∀ state, ∃ state', ∀ fuel, g.nodes.size < fuel →
      postOrderEnumerate g fuel u state = .ok state') ∧
    ∃ visited postOrder, (∀ fuel, g.nodes.size < fuel →
        (transpose g).nodes.keys.foldlM (fun state u => postOrderEnumerate g fuel u state)
          (createVisited g, []) = .ok (visited, postOrder)) ∧
      postOrder.Nodup ∧ (∀ v, v ∈ postOrder ↔ g.IsNode v) ∧
      (∀ u v, ReflTransGen g.Edge u v → ¬ ReflTransGen g.Edge v u →
        ∃ u', Mutual g.Edge u' u ∧
          ∀ v', Mutual g.Edge v' v → postOrder.idxOf u' < postOrder.idxOf v') ∧
      ((∀ c, ¬ TransGen g.Edge c c) →
        ∀ a b, g.Edge a b → postOrder.idxOf a < postOrder.idxOf b) := by
  have hroots : ∀ u, u ∈ (transpose g).nodes.keys ↔ g.IsNode u := fun u => by
    rw [ExtTreeMap.mem_keys]
    exact transpose_isNode_closed hg u
  obtain ⟨st, hst⟩ := postOrder_fuel hg (fun u hu => (hroots u).mp hu) (createVisited g, [])
  obtain ⟨hforest, hnodes⟩ := postOrder_spec (hst _ (Nat.lt_succ_self _))
  have hmem : ∀ v, v ∈ st.2 ↔ g.IsNode v := fun v =>
    ⟨hnodes v, fun hv => (hforest.roots v ((hroots v).mpr hv)).resolve_left (by simp)⟩
  have horder : FinishOrder g.Edge st.2 := deps_rel g ▸ hforest.finishOrder
  have hfirst : ∀ u v, ReflTransGen g.Edge u v → ¬ ReflTransGen g.Edge v u →
      ∃ u', Mutual g.Edge u' u ∧
        ∀ v', Mutual g.Edge v' v → st.2.idxOf u' < st.2.idxOf v' := by
    intro u v huv hvu
    have hu : g.IsNode u := by
      rcases huv.cases_head with rfl | ⟨w, hw, -⟩
      · exact absurd .refl hvu
      · exact hw.isNode
    obtain ⟨u', hu', hlt⟩ := horder.exists_first hforest.nodup ((hmem u).mpr hu) huv hvu
    refine ⟨u', hu', fun v' hv' => hlt v' ((hmem v').mpr ?_) hv'⟩
    exact isNode_of_reach hg hu (huv.trans hv'.2)
  refine ⟨fun u hu state => ?_, st.1, st.2, hst, hforest.nodup, hmem, hfirst,
    fun hacyclic a b hab => ?_⟩
  · have hus : ∀ w ∈ [u], g.IsNode w := by simpa using hu
    obtain ⟨state', h⟩ := postOrder_fuel hg hus state
    exact ⟨state', fun fuel hfuel => by simpa using h fuel hfuel⟩
  · obtain ⟨u', hu', hlt⟩ := hfirst a b (.single hab) fun hba =>
      hacyclic a (TransGen.head' hab hba)
    obtain rfl : a = u' := by
      rcases reflTransGen_iff_eq_or_transGen.mp hu'.2 with he | he
      · exact he.symm
      · exact absurd (he.trans_left hu'.1) (hacyclic a)
    exact hlt b (.refl b)

theorem postOrder_topological_foo :
    fooGraph.Closed ∧
    (∀ u, fooGraph.IsNode u → ∀ state, ∃ state', ∀ fuel, fooGraph.nodes.size < fuel →
      postOrderEnumerate fooGraph fuel u state = .ok state') ∧
    ∃ visited postOrder, (∀ fuel, fooGraph.nodes.size < fuel →
        (transpose fooGraph).nodes.keys.foldlM
          (fun state u => postOrderEnumerate fooGraph fuel u state)
          (createVisited fooGraph, []) = .ok (visited, postOrder)) ∧
      postOrder.Nodup ∧ (∀ v, v ∈ postOrder ↔ fooGraph.IsNode v) ∧
      (∀ u v, ReflTransGen fooGraph.Edge u v → ¬ ReflTransGen fooGraph.Edge v u →
        ∃ u', Mutual fooGraph.Edge u' u ∧
          ∀ v', Mutual fooGraph.Edge v' v → postOrder.idxOf u' < postOrder.idxOf v') ∧
      ((∀ c, ¬ TransGen fooGraph.Edge c c) →
        ∀ a b, fooGraph.Edge a b → postOrder.idxOf a < postOrder.idxOf b) :=
  have hg : fooGraph.Closed := by decide +kernel
  ⟨hg, postOrder_topological hg⟩

end GraphUtils

end IcsaDswp
