import IcsaDswp.FindSCC
import IcsaDswp.Lib.Topsort

/-!
# Correctness of `topsort`

`SortInv g R gt result frontier` is what the loop over the dependants keeps: `gt` holds the edges of
`R` that are left, reversed, and the nodes without one are those in `result` or in `frontier`, each
once. A turn of the outer loop drops the edges out of one node (`topsortLoop_turn`), so that the end
result is the order of Kahn's algorithm (`topsort_kahnOrder`), cycles or not. Where several nodes
are pushed in one turn they are taken in the order of `set` and `map`. On a dependant that is no
node the loop ends with an exception; on no graph does it run out of fuel (`topsort_total`).
-/

namespace IcsaDswp

open Std (ExtTreeMap ExtTreeSet)
open Lib Relation

namespace GraphUtils

variable {V : Type} [LinearOrder V] {g gt : DependenceGraph V} {R : V → V → Prop}
  {result frontier : List V}

/-- With the edges of `R` left, each node without one to it stands in one of the lists, once. -/
structure SortInv (g : DependenceGraph V) (R : V → V → Prop) (gt : DependenceGraph V)
    (result frontier : List V) : Prop where
  isNode : ∀ v, gt.IsNode v ↔ (transpose g).IsNode v
  edge : ∀ u v, gt.Edge v u ↔ R u v
  nodup : (result ++ frontier).Nodup
  mem : ∀ v, v ∈ result ++ frontier ↔ (transpose g).IsNode v ∧ ∀ u, ¬ R u v

theorem SortInv.congr {R' : V → V → Prop} (h : SortInv g R gt result frontier)
    (hR : ∀ u v, R u v ↔ R' u v) : SortInv g R' gt result frontier := by
  obtain rfl : R = R' := by
    ext u v
    exact hR u v
  exact h

/-! ## The loop over the dependants -/

/-- Dropping one edge keeps the invariant: its end is pushed when no other edge leads there. -/
theorem dropEdge_spec (h : SortInv g R gt result frontier) {n m : V} (hnm : R n m) :
    ∃ st, dropEdge n (gt, frontier) m = .ok st ∧
      SortInv g (fun u v => R u v ∧ ¬ (v = m ∧ u = n)) st.1 result st.2 := by
  have hm : gt.IsNode m := ((h.edge n m).mpr hnm).isNode
  obtain ⟨gt', hok, hnode, hedge⟩ := DependenceGraph.removeEdge_spec hm n
  obtain ⟨deps, hdeps⟩ := DependenceGraph.isNode_iff.mp ((hnode m).mpr hm)
  have hedge' : ∀ u v, gt'.Edge v u ↔ R u v ∧ ¬ (v = m ∧ u = n) := fun u v => by
    rw [hedge, h.edge]
  have hempty : deps.isEmpty = true ↔ ∀ u, ¬ (R u m ∧ ¬ (m = m ∧ u = n)) := by
    rw [OrdSet.isEmpty_iff]
    exact forall_congr' fun u => by rw [← hedge', DependenceGraph.edge_iff_mem hdeps]
  have hnot : m ∉ result ++ frontier := fun hmem => ((h.mem m).mp hmem).2 n hnm
  -- elsewhere no edge is dropped
  have hother : ∀ v, v ≠ m → (v ∈ result ++ frontier ↔
      (transpose g).IsNode v ∧ ∀ u, ¬ (R u v ∧ ¬ (v = m ∧ u = n))) := by
    intro v hv
    rw [h.mem]
    simp [hv]
  refine ⟨(gt', if deps.isEmpty then frontier ++ [m] else frontier), ?_, ?_⟩
  · exact bind_ok.mpr ⟨gt', hok, bind_ok.mpr
      ⟨deps, DependenceGraph.getDependants_ok.mpr hdeps, rfl⟩⟩
  · refine ⟨fun v => (hnode v).trans (h.isNode v), hedge', ?_, fun v => ?_⟩
    · show (result ++ if deps.isEmpty then frontier ++ [m] else frontier).Nodup
      split
      · rw [← List.append_assoc]
        exact List.nodup_append.mpr ⟨h.nodup, List.nodup_singleton m,
          fun a ha b hb he => hnot (List.mem_singleton.mp hb ▸ he ▸ ha)⟩
      · exact h.nodup
    · show v ∈ result ++ (if deps.isEmpty then frontier ++ [m] else frontier) ↔ _
      by_cases hv : v = m
      · subst hv
        rw [← hempty, and_iff_right ((h.isNode v).mp hm)]
        split
        · next he => simp [he]
        · next he => simp [he, hnot]
      · rw [← hother v hv]
        split
        · simp [hv]
        · rfl

/-- **One turn of the outer loop** takes the node `n` over and drops the edges out of it. -/
theorem topsortLoop_turn {n : V} (hn : g.IsNode n)
    (h : SortInv g (fun u v => g.Edge u v ∧ u ∉ result) gt result (n :: frontier)) :
    ∃ deps gt' frontier', g.getDependants n = .ok deps ∧
      deps.toList.foldlM (dropEdge n) (gt, frontier) = .ok (gt', frontier') ∧
      SortInv g (fun u v => g.Edge u v ∧ u ∉ result ++ [n]) gt' (result ++ [n]) frontier' := by
  have hnr : n ∉ result := fun hr => (List.nodup_append.mp h.nodup).2.2 n hr n (by simp) rfl
  obtain ⟨deps, hdeps⟩ := DependenceGraph.isNode_iff.mp hn
  have hmem : ∀ m, m ∈ deps.toList ↔ g.Edge n m := fun m => by
    rw [ExtTreeSet.mem_toList, DependenceGraph.edge_iff_mem hdeps]
  have happ : result ++ [n] ++ frontier = result ++ n :: frontier := by simp
  obtain ⟨⟨gt', frontier'⟩, hok, h'⟩ := foldlM_total (l := deps.toList) (f := dropEdge n)
    (s := (gt, frontier)) (P := fun (done : List V) st =>
      SortInv g (fun u v => (g.Edge u v ∧ u ∉ result) ∧ ¬ (v ∈ done ∧ u = n)) st.1
        (result ++ [n]) st.2)
    (fun done m rest st hl hst => by
      have hm : g.Edge n m := (hmem m).mp (by simp [hl])
      have hnot : m ∉ done := fun hd => by
        have hnd := OrdSet.nodup_toList deps
        rw [hl] at hnd
        exact (List.nodup_append.mp hnd).2.2 m hd m (by simp) rfl
      obtain ⟨st', hok, hst'⟩ := dropEdge_spec hst ⟨⟨hm, hnr⟩, fun hd => hnot hd.1⟩
      refine ⟨st', hok, hst'.congr fun u v => ?_⟩
      simp only [List.mem_append, List.mem_singleton]
      tauto)
    ⟨h.isNode, fun u v => (h.edge u v).trans (by simp), happ ▸ h.nodup,
      fun v => happ ▸ (h.mem v).trans (by simp)⟩
  refine ⟨deps, gt', frontier', DependenceGraph.getDependants_ok.mpr hdeps, hok,
    h'.congr fun u v => ?_⟩
  simp only [hmem, List.mem_append, List.mem_singleton]
  constructor
  · rintro ⟨⟨huv, hu⟩, hno⟩
    exact ⟨huv, fun hu' => hu'.elim hu fun he => hno ⟨he ▸ huv, he⟩⟩
  · rintro ⟨huv, hu⟩
    exact ⟨⟨huv, fun hr => hu (.inl hr)⟩, fun hno => hu (.inr hno.2)⟩

/-- What the loop pushes comes in the order of the dependants. -/
theorem dropEdges_pushed {n : V} {deps : List V} {st st' : DependenceGraph V × List V}
    (h : deps.foldlM (dropEdge n) st = .ok st') :
    ∃ pushed, st'.2 = st.2 ++ pushed ∧ pushed.Sublist deps := by
  induction deps generalizing st with
  | nil =>
    obtain rfl := Except.ok.inj h
    exact ⟨[], (List.append_nil _).symm, .slnil⟩
  | cons m deps ih =>
    rw [List.foldlM_cons] at h
    obtain ⟨st₁, h₁, h⟩ := bind_ok.mp h
    obtain ⟨pushed, hpushed, hsub⟩ := ih h
    obtain ⟨gt', -, h₁⟩ := bind_ok.mp h₁
    obtain ⟨deps', -, h₁⟩ := bind_ok.mp h₁
    obtain rfl := Except.ok.inj h₁
    by_cases he : deps'.isEmpty
    · refine ⟨m :: pushed, ?_, hsub.cons_cons m⟩
      rw [hpushed, if_pos he, List.append_assoc, List.singleton_append]
    · refine ⟨pushed, ?_, hsub.cons m⟩
      rw [hpushed, if_neg he]

/-- The nodes that a turn pushes have `n` as their last predecessor, and come in order. -/
theorem SortInv.fifo {n : V} {pushed : List V}
    (h : SortInv g (fun u v => g.Edge u v ∧ u ∉ result) gt result (n :: frontier))
    (hfifo : Fifo g.Edge (· < ·) (result ++ n :: frontier))
    (hnodup : (result ++ [n] ++ (frontier ++ pushed)).Nodup) (hedge : ∀ m ∈ pushed, g.Edge n m)
    (hsorted : pushed.Pairwise (· < ·)) :
    Fifo g.Edge (· < ·) (result ++ [n] ++ (frontier ++ pushed)) := by
  have happ : result ++ [n] ++ (frontier ++ pushed) = result ++ n :: frontier ++ pushed := by simp
  have hn : n ∉ result := fun hr => (List.nodup_append.mp h.nodup).2.2 n hr n (by simp) rfl
  rw [happ] at hnodup ⊢
  refine hfifo.append (k := result.length) (fun x y hxy => hxy.not_gt) hnodup (fun x hx u hux => ?_)
    (fun m hm => ⟨n, by simp, hedge m hm, ?_⟩) hsorted
  · have hu : u ∈ result := by
      by_contra hu
      exact ((h.mem x).mp hx).2 u ⟨hux, hu⟩
    rw [List.idxOf_append_of_mem hu]
    exact ⟨List.mem_append_left _ hu, List.idxOf_lt_length_of_mem hu⟩
  · rw [List.idxOf_append_of_notMem hn]
    exact Nat.le_add_right _ _

/-! ## The outer loop -/

theorem SortInv.length_le (h : SortInv g R gt result frontier) :
    result.length + frontier.length ≤ (transpose g).nodes.size := by
  rw [← List.length_append, ← List.toFinset_card_of_nodup h.nodup, ← card_nodeSet]
  refine Finset.card_le_card fun v hv => ?_
  exact mem_nodeSet.mpr ((h.mem v).mp (List.mem_toFinset.mp hv)).1

/-- With nothing in the frontier, Kahn's order is complete. -/
theorem SortInv.kahnOrder (hp : PredsFirst g.Edge result)
    (h : SortInv g (fun u v => g.Edge u v ∧ u ∉ result) gt result []) :
    KahnOrder g.Edge (transpose g).IsNode result := by
  obtain ⟨-, -, hnd, hmem⟩ := h
  rw [List.append_nil] at hnd hmem
  refine ⟨hnd, fun v => ?_, hp⟩
  rw [hmem]
  simp only [not_and, not_not]

/-- A node of the transposed graph only is a dependant that is no node. -/
theorem not_closed_of_transpose {v : V} (hv : (transpose g).IsNode v) (hno : ¬ g.IsNode v) :
    ¬ g.Closed :=
  fun hg => hno ((transpose_isNode_closed hg v).mp hv)

/-- The loop ends within one turn for each node that is left: with Kahn's order, or with an
exception on a dependant that is no node. -/
theorem topsortLoop_spec (hp : PredsFirst g.Edge result)
    (hfifo : Fifo g.Edge (· < ·) (result ++ frontier))
    (h : SortInv g (fun u v => g.Edge u v ∧ u ∉ result) gt result frontier) :
    ∃ r, (∀ fuel, (transpose g).nodes.size ≤ fuel + result.length →
        topsortLoop g fuel gt frontier result = r) ∧
      ((∃ l, r = .ok l ∧ KahnOrder g.Edge (transpose g).IsNode l ∧ Fifo g.Edge (· < ·) l) ∨
        r = .error .outOfRange ∧ ¬ g.Closed) := by
  induction hk : (transpose g).nodes.size - result.length using Nat.strong_induction_on
    generalizing gt frontier result with
  | _ k ih =>
    cases frontier with
    | nil =>
      rw [List.append_nil] at hfifo
      exact ⟨.ok result, fun fuel _ => by rw [topsortLoop], .inl ⟨result, rfl, h.kahnOrder hp, hfifo⟩⟩
    | cons n frontier =>
      have hlen : result.length + (frontier.length + 1) ≤ (transpose g).nodes.size := h.length_le
      by_cases hn : g.IsNode n
      · obtain ⟨deps, gt', frontier', hdeps, hok, h'⟩ := topsortLoop_turn hn h
        have hp' : PredsFirst g.Edge (result ++ [n]) := by
          refine hp.snoc fun u hu => ?_
          by_contra hur
          exact ((h.mem n).mp (by simp)).2 u ⟨hu, hur⟩
        have hfifo' : Fifo g.Edge (· < ·) (result ++ [n] ++ frontier') := by
          obtain ⟨pushed, rfl, hsub⟩ := dropEdges_pushed hok
          refine h.fifo hfifo h'.nodup (fun m hm => ?_) ((OrdSet.toList_sorted deps).sublist hsub)
          rw [DependenceGraph.getDependants_ok] at hdeps
          exact (DependenceGraph.edge_iff_mem hdeps).mpr (ExtTreeSet.mem_toList.mp (hsub.subset hm))
        obtain ⟨r, hr, hres⟩ := ih ((transpose g).nodes.size - (result ++ [n]).length)
          (by simp only [List.length_append, List.length_singleton]; omega) hp' hfifo' h' rfl
        refine ⟨r, fun fuel hfuel => ?_, hres⟩
        cases fuel with
        | zero => omega
        | succ fuel =>
          have hrest : topsortLoop g fuel gt' frontier' (result ++ [n]) = r := by
            refine hr fuel ?_
            simp only [List.length_append, List.length_singleton]
            omega
          rw [topsortLoop, hdeps]
          show (deps.toList.foldlM (dropEdge n) (gt, frontier) >>= fun x => _) = r
          rw [hok]
          exact hrest
      · -- `g.getDependants` throws
        refine ⟨.error .outOfRange, fun fuel hfuel => ?_,
          .inr ⟨rfl, not_closed_of_transpose ((h.mem n).mp (by simp)).1 hn⟩⟩
        cases fuel with
        | zero => omega
        | succ fuel =>
          rw [topsortLoop]
          exact bind_error.mpr (.inl (DependenceGraph.getDependants_error.mpr ⟨hn, rfl⟩))

theorem sortInv_init (g : DependenceGraph V) :
    SortInv g (fun u v => g.Edge u v ∧ u ∉ []) (transpose g) []
      (((transpose g).nodes.toList.filter fun I => I.2.isEmpty).map Prod.fst) := by
  refine ⟨fun v => Iff.rfl, fun u v => by simp [transpose_edge], ?_, fun v => ?_⟩
  · refine List.Nodup.sublist (List.filter_sublist.map Prod.fst) ?_
    rw [ExtTreeMap.map_fst_toList_eq_keys]
    exact ExtTreeMap.nodup_keys
  · have hin : ∀ deps : OrdSet V, (transpose g).nodes[v]? = some deps →
        (deps.isEmpty = true ↔ ∀ u, ¬ g.Edge u v) := fun deps hdeps => by
      rw [OrdSet.isEmpty_iff]
      exact forall_congr' fun u => by rw [← transpose_edge, DependenceGraph.edge_iff_mem hdeps]
    rw [DependenceGraph.isNode_iff]
    simp only [List.nil_append, List.mem_map, List.mem_filter, Prod.exists, exists_and_right,
      exists_eq_right, DependenceGraph.mem_nodes_toList, List.not_mem_nil, not_false_eq_true,
      and_true]
    constructor
    · rintro ⟨deps, hdeps, he⟩
      exact ⟨⟨deps, hdeps⟩, (hin deps hdeps).mp he⟩
    · rintro ⟨⟨deps, hdeps⟩, hno⟩
      exact ⟨deps, hdeps, (hin deps hdeps).mpr hno⟩

/-- **`topsort` ends** on every graph, however much fuel it has beyond a turn for each node of the
transposed graph: with the order of Kahn's algorithm, or with an exception on a graph that is not
closed. -/
theorem topsort_total (g : DependenceGraph V) :
    (∀ fuel, (transpose g).nodes.size ≤ fuel → topsortFuel fuel g = topsort g) ∧
      ((∃ l, topsort g = .ok l ∧ KahnOrder g.Edge (transpose g).IsNode l ∧
          Fifo g.Edge (· < ·) l) ∨
        topsort g = .error .outOfRange ∧ ¬ g.Closed) := by
  have hsources : (((transpose g).nodes.toList.filter fun I => I.2.isEmpty).map
      Prod.fst).Pairwise (· < ·) := by
    refine (OrdMap.keys_sorted (transpose g).nodes).sublist ?_
    rw [← ExtTreeMap.map_fst_toList_eq_keys]
    exact List.filter_sublist.map Prod.fst
  obtain ⟨r, hrun, h⟩ := topsortLoop_spec predsFirst_nil
    (fifo_of_pairwise (fun x y hxy => hxy.not_gt) hsources) (sortInv_init g)
  obtain rfl : topsort g = r := hrun _ le_rfl
  exact ⟨fun fuel hfuel => hrun fuel hfuel, h⟩

/-- **Kahn's algorithm** on a closed graph completes, and takes the nodes that it pushes together
in order. -/
theorem topsort_kahnOrder (hg : g.Closed) :
    ∃ result, topsort g = .ok result ∧
      (∀ fuel, g.nodes.size ≤ fuel → topsortFuel fuel g = .ok result) ∧
      KahnOrder g.Edge g.IsNode result ∧ Fifo g.Edge (· < ·) result := by
  obtain ⟨hfuel, h⟩ := topsort_total g
  obtain ⟨result, hrun, hkahn, hfifo⟩ := h.resolve_right fun hno => hno.2 hg
  refine ⟨result, hrun, fun fuel hle => ?_, ⟨hkahn.nodup, fun v => ?_, hkahn.predsFirst⟩, hfifo⟩
  · rw [hfuel fuel (by rwa [transpose_size hg]), hrun]
  · rw [hkahn.mem, transpose_isNode_closed hg]

theorem finite_isNode (g : DependenceGraph V) : {v | g.IsNode v}.Finite :=
  (nodeSet g).finite_toSet.subset fun _ hv => mem_nodeSet.mpr hv

/-- **Correctness of `topsort`.** Its result has each node that no cycle reaches, once, and behind
those it depends on; it has all nodes exactly when there is no cycle. -/
theorem topsort_correct (hg : g.Closed) :
    ∃ result, topsort g = .ok result ∧
      (∀ fuel, g.nodes.size ≤ fuel → topsortFuel fuel g = .ok result) ∧
      result.Nodup ∧
      (∀ v, v ∈ result ↔
        g.IsNode v ∧ ¬ ∃ c, TransGen g.Edge c c ∧ ReflTransGen g.Edge c v) ∧
      (∀ u v, g.Edge u v → u ∈ result → v ∈ result → result.idxOf u < result.idxOf v) ∧
      ((∀ v, v ∈ result ↔ g.IsNode v) ↔ ∀ c, ¬ TransGen g.Edge c c) := by
  obtain ⟨result, hok, hrun, hkahn, -⟩ := topsort_kahnOrder hg
  have hE : ∀ u v, g.Edge u v → g.IsNode u := fun u v h => h.isNode
  refine ⟨result, hok, hrun, hkahn.nodup, fun v => hkahn.mem_iff (finite_isNode g) hE,
    fun u v huv _ hv => hkahn.idxOf_lt huv hv, ?_⟩
  rw [← hkahn.complete_iff (finite_isNode g) hE]
  exact ⟨fun h v => (h v).mpr, fun h v => ⟨fun hv => ((hkahn.mem v).mp hv).1, h v⟩⟩

theorem topsort_correct_cut :
    cutGraph.Closed ∧ topsort cutGraph = .ok [0, 1, 2] ∧
    ∃ result, topsort cutGraph = .ok result ∧
      (∀ fuel, cutGraph.nodes.size ≤ fuel → topsortFuel fuel cutGraph = .ok result) ∧
      result.Nodup ∧
      (∀ v, v ∈ result ↔
        cutGraph.IsNode v ∧ ¬ ∃ c, TransGen cutGraph.Edge c c ∧ ReflTransGen cutGraph.Edge c v) ∧
      (∀ u v, cutGraph.Edge u v → u ∈ result → v ∈ result → result.idxOf u < result.idxOf v) ∧
      ((∀ v, v ∈ result ↔ cutGraph.IsNode v) ↔ ∀ c, ¬ TransGen cutGraph.Edge c c) :=
  have hg : cutGraph.Closed := by decide +kernel
  ⟨hg, by decide +kernel, topsort_correct hg⟩

/-- A dependant that is no node is pushed, and its dependants are asked for. -/
example : topsort ((DependenceGraph.empty.addNode (0 : Fin 2)).addEdge 0 1) =
    .error .outOfRange := by
  decide +kernel

end GraphUtils

end IcsaDswp
