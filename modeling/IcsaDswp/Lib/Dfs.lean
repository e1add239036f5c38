import IcsaDswp.Lib.Condense
import IcsaDswp.Lib.Fold
import Mathlib.Data.Finset.Card
import Mathlib.Data.List.Nodup
import Mathlib.Data.Set.Insert
import Mathlib.Logic.Relation
import Mathlib.Order.WellFounded
import Mathlib.Tactic.Common

/-!
# Depth-first search and strong components

`Forest adj B us new` is a depth-first search from the roots `us`, in order, off the set `B` of
nodes visited before: `new` lists the nodes it visits, the one finished last first. `Reach adj B`
is reachability off `B`. The search visits exactly what it can reach (`Forest.mem_iff`), and a node
that reaches `y` has a node of its own component in front of `y` (`Forest.order`): the white-path
property. A list with that order for all nodes is what the second pass of Kosaraju's algorithm
needs: off the components already dealt with, the next node reaches in the transposed graph its own
component and nothing else (`reach_transpose_iff`).
-/

namespace IcsaDswp.Lib

open Relation

variable {V : Type}

/-! ## Positions in a list -/

section AtOrBefore

/-- `x` stands at or before `y` in `l`. -/
def AtOrBefore (l : List V) (x y : V) : Prop := (x = y ∧ y ∈ l) ∨ [x, y].Sublist l

theorem AtOrBefore.mono {l l' : List V} {x y : V} (h : AtOrBefore l x y) (hl : l.Sublist l') :
    AtOrBefore l' x y := by
  rcases h with ⟨rfl, h⟩ | h
  · exact .inl ⟨rfl, hl.subset h⟩
  · exact .inr (h.trans hl)

theorem atOrBefore_cons {l : List V} {x y : V} (h : y ∈ x :: l) : AtOrBefore (x :: l) x y := by
  rcases List.mem_cons.mp h with rfl | h
  · exact .inl ⟨rfl, by simp⟩
  · exact .inr (by simpa using h)

theorem atOrBefore_append {l l' : List V} {x y : V} (hx : x ∈ l) (hy : y ∈ l') :
    AtOrBefore (l ++ l') x y :=
  .inr (List.Sublist.append (List.singleton_sublist.mpr hx) (List.singleton_sublist.mpr hy))

/-- What stands at or before the head of a suffix is that head or stands in front of the suffix. -/
theorem AtOrBefore.split {l₁ l₂ : List V} {x y : V} (h : AtOrBefore (l₁ ++ y :: l₂) x y)
    (hnd : (l₁ ++ y :: l₂).Nodup) : x = y ∨ x ∈ l₁ := by
  rcases h with ⟨rfl, -⟩ | h
  · exact .inl rfl
  · have hy : y ∉ l₁ ∧ y ∉ l₂ := by
      have := List.nodup_append.mp hnd
      exact ⟨fun h => this.2.2 y h y (by simp) rfl, (List.nodup_cons.mp this.2.1).1⟩
    obtain ⟨s₁, s₂, hs, h₁, h₂⟩ := List.sublist_append_iff.mp h
    rcases s₁ with _ | ⟨a, s₁⟩
    · obtain rfl : s₂ = [x, y] := by simpa using hs.symm
      cases h₂ with
      | cons _ h₂ => exact absurd (h₂.subset (by simp)) hy.2
      | cons_cons _ h₂ => exact .inl rfl
    · obtain rfl : x = a := by simpa using (List.cons.inj hs).1
      exact .inr (h₁.subset (by simp))

theorem AtOrBefore.idxOf_lt [DecidableEq V] {l : List V} {x y : V} (h : AtOrBefore l x y)
    (hne : x ≠ y) (hnd : l.Nodup) : l.idxOf x < l.idxOf y := by
  have hy : y ∈ l := by
    rcases h with h | h
    · exact h.2
    · exact h.subset (by simp)
  obtain ⟨l₁, l₂, rfl⟩ := List.append_of_mem hy
  have hx : x ∈ l₁ := (h.split hnd).resolve_left hne
  have hy₁ : y ∉ l₁ := fun hy => (List.nodup_append.mp hnd).2.2 y hy y (by simp) rfl
  rw [List.idxOf_append_of_mem hx, List.idxOf_append_of_notMem hy₁]
  have := List.idxOf_lt_length_of_mem hx
  omega

end AtOrBefore

/-! ## Search off a visited set -/

/-- `u` reaches `x` over nodes off `B`. -/
def Reach (adj : V → List V) (B : Set V) (u x : V) : Prop :=
  u ∉ B ∧ ReflTransGen (fun a b => b ∈ adj a ∧ b ∉ B) u x

section Reach

variable {adj : V → List V} {B B' : Set V} {u x y : V}

theorem Reach.not_mem (h : Reach adj B u x) : x ∉ B := by
  obtain ⟨hu, h⟩ := h
  cases h with
  | refl => exact hu
  | tail _ h => exact h.2

theorem Reach.trans (h₁ : Reach adj B u x) (h₂ : Reach adj B x y) : Reach adj B u y :=
  ⟨h₁.1, h₁.2.trans h₂.2⟩

theorem Reach.mono (h : Reach adj B u x) (hB : B' ⊆ B) : Reach adj B' u x :=
  ⟨fun hu => h.1 (hB hu), h.2.lift id fun _ _ hab => ⟨hab.1, fun hb => hab.2 (hB hb)⟩⟩

theorem Reach.head (hu : u ∉ B) (hx : x ∈ adj u) (h : Reach adj B x y) : Reach adj B u y :=
  ⟨hu, .head ⟨hx, h.1⟩ h.2⟩

theorem reach_empty : Reach adj ∅ u x ↔ ReflTransGen (fun a b => b ∈ adj a) u x := by
  simp [Reach]

/-- A path either stays off more nodes or passes through one of them. -/
theorem Reach.avoid_or (S : Set V) (h : Reach adj B u x) :
    Reach adj (B ∪ S) u x ∨ ∃ s ∈ S, Reach adj B u s ∧ Reach adj B s x := by
  obtain ⟨hu, h⟩ := h
  induction h with
  | refl =>
    by_cases hs : u ∈ S
    · exact .inr ⟨u, hs, ⟨hu, .refl⟩, ⟨hu, .refl⟩⟩
    · exact .inl ⟨by simp [hu, hs], .refl⟩
  | @tail b c hb hbc ih =>
    rcases ih with h | ⟨s, hs, h₁, h₂⟩
    · by_cases hc : c ∈ S
      · exact .inr ⟨c, hc, ⟨hu, hb.tail hbc⟩, ⟨hbc.2, .refl⟩⟩
      · exact .inl ⟨h.1, h.2.tail ⟨hbc.1, by simp [hbc.2, hc]⟩⟩
    · exact .inr ⟨s, hs, h₁, ⟨h₂.1, h₂.2.tail hbc⟩⟩

end Reach

/-- A depth-first search from `us` off `B` that visits `new`, the node finished last first. -/
inductive Forest (adj : V → List V) : Set V → List V → List V → Prop where
  | nil (B : Set V) : Forest adj B [] []
  | skip {B : Set V} {u : V} {us new : List V} : u ∈ B → Forest adj B us new →
      Forest adj B (u :: us) new
  | visit {B : Set V} {u : V} {us below rest : List V} : u ∉ B →
      Forest adj (insert u B) (adj u) below →
      Forest adj (insert u B ∪ {x | x ∈ below}) us rest →
      Forest adj B (u :: us) (rest ++ u :: below)

namespace Forest

variable {adj : V → List V} {B : Set V} {us new : List V} {x y : V}

theorem not_mem (h : Forest adj B us new) : ∀ x ∈ new, x ∉ B := by
  induction h with
  | nil => simp
  | skip _ _ ih => exact ih
  | visit hu _ _ ih₁ ih₂ =>
    intro x hx
    rcases List.mem_append.mp hx with hx | hx
    · exact fun hB => ih₂ x hx (.inl (.inr hB))
    · rcases List.mem_cons.mp hx with rfl | hx
      · exact hu
      · exact fun hB => ih₁ x hx (.inr hB)

theorem nodup (h : Forest adj B us new) : new.Nodup := by
  induction h with
  | nil => exact List.nodup_nil
  | skip _ _ ih => exact ih
  | @visit B u us below rest hu h₁ h₂ ih₁ ih₂ =>
    have hb : u ∉ below := fun hm => h₁.not_mem u hm (.inl rfl)
    refine List.nodup_append.mpr ⟨ih₂, List.nodup_cons.mpr ⟨hb, ih₁⟩, ?_⟩
    rintro x hx y hy rfl
    rcases List.mem_cons.mp hy with rfl | hy
    · exact h₂.not_mem x hx (.inl (.inl rfl))
    · exact h₂.not_mem x hx (.inr hy)

/-- Every root ends up visited. -/
theorem roots (h : Forest adj B us new) : ∀ u ∈ us, u ∈ B ∨ u ∈ new := by
  induction h with
  | nil => simp
  | skip hu _ ih =>
    intro x hx
    rcases List.mem_cons.mp hx with rfl | hx
    · exact .inl hu
    · exact ih x hx
  | visit hu _ _ _ ih₂ =>
    intro x hx
    rcases List.mem_cons.mp hx with rfl | hx
    · exact .inr (by simp)
    · rcases ih₂ x hx with ((rfl | h) | h) | h
      · exact .inr (by simp)
      · exact .inl h
      · exact .inr (List.mem_append_right _ (List.mem_cons_of_mem _ h))
      · exact .inr (List.mem_append_left _ h)

/-- The visited nodes are closed under `adj`. -/
theorem closed (h : Forest adj B us new) : ∀ x ∈ new, ∀ y ∈ adj x, y ∈ B ∨ y ∈ new := by
  induction h with
  | nil => simp
  | skip _ _ ih => exact ih
  | @visit B u us below rest hu h₁ _ ih₁ ih₂ =>
    intro x hx y hy
    rcases List.mem_append.mp hx with hx | hx
    · rcases ih₂ x hx y hy with ((rfl | h) | h) | h
      · exact .inr (by simp)
      · exact .inl h
      · exact .inr (List.mem_append_right _ (List.mem_cons_of_mem _ h))
      · exact .inr (List.mem_append_left _ h)
    · have : y ∈ insert u B ∨ y ∈ below := by
        rcases List.mem_cons.mp hx with rfl | hx
        · exact h₁.roots y hy
        · exact ih₁ x hx y hy
      rcases this with (rfl | h) | h
      · exact .inr (by simp)
      · exact .inl h
      · exact .inr (List.mem_append_right _ (List.mem_cons_of_mem _ h))

theorem sound (h : Forest adj B us new) : ∀ x ∈ new, ∃ u ∈ us, Reach adj B u x := by
  induction h with
  | nil => simp
  | skip _ _ ih =>
    intro x hx
    obtain ⟨u, hu, h⟩ := ih x hx
    exact ⟨u, List.mem_cons_of_mem _ hu, h⟩
  | @visit B u us below rest hu h₁ _ ih₁ ih₂ =>
    intro x hx
    rcases List.mem_append.mp hx with hx | hx
    · obtain ⟨w, hw, h⟩ := ih₂ x hx
      exact ⟨w, List.mem_cons_of_mem _ hw, h.mono fun _ hb => .inl (.inr hb)⟩
    · rcases List.mem_cons.mp hx with rfl | hx
      · exact ⟨x, by simp, hu, .refl⟩
      · obtain ⟨w, hw, h⟩ := ih₁ x hx
        exact ⟨u, by simp, .head hu hw (h.mono fun _ hb => .inr hb)⟩

theorem reach_closed (h : Forest adj B us new) (hx : x ∈ new) (hr : Reach adj B x y) :
    y ∈ new := by
  obtain ⟨-, hr⟩ := hr
  induction hr with
  | refl => exact hx
  | tail _ hbc ih => exact (h.closed _ ih _ hbc.1).resolve_left hbc.2

/-- The search visits exactly what its roots reach. -/
theorem mem_iff (h : Forest adj B us new) : x ∈ new ↔ ∃ u ∈ us, Reach adj B u x := by
  refine ⟨h.sound x, fun ⟨u, hu, hr⟩ => ?_⟩
  exact h.reach_closed ((h.roots u hu).resolve_left hr.1) hr

/-- White paths: in front of every node `y` that a visited `x` reaches stands one of the
component of `x`. -/
theorem order (h : Forest adj B us new) : ∀ x ∈ new, ∀ y, Reach adj B x y →
    ∃ x', Reach adj B x x' ∧ Reach adj B x' x ∧ AtOrBefore new x' y := by
  induction h with
  | nil => simp
  | skip _ _ ih => exact ih
  | @visit B u us below rest hu h₁ h₂ ih₁ ih₂ =>
    intro x hx y hxy
    rcases List.mem_append.mp hx with hx | hx
    · -- a later root: a path into the earlier trees ends behind it
      rcases hxy.avoid_or ({u} ∪ {z | z ∈ below}) with hr | ⟨s, hs, -, hsy⟩
      · have hset : B ∪ ({u} ∪ {z | z ∈ below}) = insert u B ∪ {z | z ∈ below} := by
          ext z; simp [or_assoc]
        obtain ⟨x', hxx', hx'x, ho⟩ := ih₂ x hx y (hset ▸ hr)
        have hsub : B ⊆ insert u B ∪ {z | z ∈ below} := fun _ hb => .inl (.inr hb)
        exact ⟨x', hxx'.mono hsub, hx'x.mono hsub, ho.mono (List.sublist_append_left ..)⟩
      · refine ⟨x, ⟨hxy.1, .refl⟩, ⟨hxy.1, .refl⟩, atOrBefore_append hx ?_⟩
        have htree : Forest adj B [u] (u :: below) := .visit hu h₁ (.nil _)
        exact htree.reach_closed (by simpa using hs) hsy
    · -- the tree of `u`: `u` comes first and reaches all of it
      have htree : Forest adj B [u] (u :: below) := .visit hu h₁ (.nil _)
      have hy : y ∈ u :: below := htree.reach_closed hx hxy
      have hux : Reach adj B u x := by
        obtain ⟨w, hw, h⟩ := htree.sound x hx
        rwa [List.mem_singleton.mp hw] at h
      rcases hxy.avoid_or {u} with hr | ⟨s, hs, hxs, -⟩
      · have hset : B ∪ {u} = insert u B := by ext z; simp
        rw [hset] at hr
        have hxb : x ∈ below := (List.mem_cons.mp hx).resolve_left fun he => hr.1 (.inl he)
        obtain ⟨x', hxx', hx'x, ho⟩ := ih₁ x hxb y hr
        have hsub : B ⊆ insert u B := fun _ hb => .inr hb
        exact ⟨x', hxx'.mono hsub, hx'x.mono hsub,
          ho.mono ((List.sublist_cons_self ..).trans (List.sublist_append_right ..))⟩
      · obtain rfl : s = u := hs
        exact ⟨s, hxs, hux, (atOrBefore_cons hy).mono (List.sublist_append_right ..)⟩

/-- Searches from two lists of roots, one after the other. -/
theorem append {us' new' : List V} (h : Forest adj B us new)
    (h' : Forest adj (B ∪ {x | x ∈ new}) us' new') : Forest adj B (us ++ us') (new' ++ new) := by
  induction h with
  | nil => simpa using h'
  | skip hu _ ih => exact .skip hu (ih h')
  | @visit B u us below rest hu h₁ h₂ _ ih₂ =>
    have hset : B ∪ {x | x ∈ rest ++ u :: below} =
        insert u B ∪ {x | x ∈ below} ∪ {x | x ∈ rest} := by
      ext z
      simp only [List.mem_append, List.mem_cons, Set.mem_union, Set.mem_ofPred_eq,
        Set.mem_insert_iff]
      tauto
    have := visit hu h₁ (ih₂ (hset ▸ h'))
    simpa using this

end Forest

/-! ## Recursive search

`search` is the recursive program: it keeps a client state, skips the nodes the state has `seen`,
`enter`s the others, searches their successors in order and `leave`s. -/

section Search

variable {σ ε : Type}

def search (seen : σ → V → Bool) (enter leave : V → σ → σ) (succ : V → Except ε (List V))
    (noFuel : ε) : Nat → V → σ → Except ε σ
  | 0, _, _ => .error noFuel
  | fuel + 1, u, s =>
    if seen s u then .ok s
    else do
      let next ← succ u
      let s ← next.foldlM (fun s v => search seen enter leave succ noFuel fuel v s) (enter u s)
      pure (leave u s)

/-- More fuel changes nothing once the fuel has sufficed. -/
theorem search_succ_fuel {seen : σ → V → Bool} {enter leave : V → σ → σ}
    {succ : V → Except ε (List V)} {noFuel : ε} {fuel : Nat} {u : V} {s : σ}
    (h : search seen enter leave succ noFuel fuel u s ≠ .error noFuel) :
    search seen enter leave succ noFuel (fuel + 1) u s =
      search seen enter leave succ noFuel fuel u s := by
  induction fuel generalizing u s with
  | zero => exact absurd rfl h
  | succ fuel ih =>
    rw [search] at h
    rw [search, search]
    split
    · rfl
    · next hs =>
      rw [if_neg hs] at h
      cases hnext : succ u with
      | error e => rfl
      | ok next =>
        rw [hnext] at h
        have hloop : next.foldlM (fun s v => search seen enter leave succ noFuel fuel v s)
            (enter u s) ≠ .error noFuel := fun he =>
          h (bind_error.mpr (.inr ⟨next, rfl, bind_error.mpr (.inl he)⟩))
        show ((next.foldlM _ _ : Except ε σ) >>= fun s => pure (leave u s)) =
          (next.foldlM _ _ >>= fun s => pure (leave u s))
        rw [foldlM_congr_ne (fun s v hv => ih hv) hloop]

/-- What `search` needs of its client state: `enter` marks its node, `leave` marks none. -/
structure Marks (seen : σ → V → Bool) (enter leave : V → σ → σ) : Prop where
  enter : ∀ s u v, seen (enter u s) v = true ↔ v = u ∨ seen s v = true
  leave : ∀ s u v, seen (leave u s) v = seen s v

variable {seen : σ → V → Bool} {enter leave : V → σ → σ} {succ : V → Except ε (List V)}
  {noFuel : ε} {adj : V → List V} {R : List V → σ → σ → Prop}

/-- `s'` is `s` after a search that visits `new`, with the effect `R new` on the state. -/
def Visits (seen : σ → V → Bool) (succ : V → Except ε (List V)) (adj : V → List V)
    (R : List V → σ → σ → Prop) (us : List V) (s s' : σ) : Prop :=
  ∃ new, Forest adj {u | seen s u = true} us new ∧
    (∀ v, seen s' v = true ↔ seen s v = true ∨ v ∈ new) ∧ R new s s' ∧
    ∀ x ∈ new, ∃ l, succ x = .ok l

theorem Visits.append (happ : ∀ {n₁ n₂ s s₁ s₂}, R n₁ s s₁ → R n₂ s₁ s₂ → R (n₂ ++ n₁) s s₂)
    {us us' : List V} {s s₁ s₂ : σ} (h : Visits seen succ adj R us s s₁)
    (h' : Visits seen succ adj R us' s₁ s₂) : Visits seen succ adj R (us ++ us') s s₂ := by
  obtain ⟨n₁, f₁, v₁, e₁, o₁⟩ := h
  obtain ⟨n₂, f₂, v₂, e₂, o₂⟩ := h'
  have hset : {u | seen s₁ u = true} = {u | seen s u = true} ∪ {x | x ∈ n₁} := by
    ext v; exact v₁ v
  refine ⟨n₂ ++ n₁, f₁.append (hset ▸ f₂), fun v => ?_, happ e₁ e₂, fun x hx => ?_⟩
  · rw [v₂, v₁, List.mem_append, or_assoc, or_comm (a := v ∈ n₁)]
  · exact (List.mem_append.mp hx).elim (o₂ x) (o₁ x)

/-- A loop of searches is a search from the list of its roots. -/
theorem visits_foldlM (hnil : ∀ s, R [] s s)
    (happ : ∀ {n₁ n₂ s s₁ s₂}, R n₁ s s₁ → R n₂ s₁ s₂ → R (n₂ ++ n₁) s s₂)
    {f : σ → V → Except ε σ} (hf : ∀ u s s', f s u = .ok s' → Visits seen succ adj R [u] s s')
    {us : List V} {s s' : σ} (h : us.foldlM f s = .ok s') : Visits seen succ adj R us s s' := by
  refine foldlM_inv (fun done s₁ => Visits seen succ adj R done s s₁) ?_ ?_ h
  · intro done u s₁ s₂ h₁ h₂
    exact h₁.append happ (hf u s₁ s₂ h₂)
  · exact ⟨[], .nil _, by simp, hnil s, by simp⟩

/-- **A search that ends is a depth-first search of its root.** -/
theorem search_visits (M : Marks seen enter leave) (hadj : ∀ u l, succ u = .ok l → adj u = l)
    (hnil : ∀ s, R [] s s)
    (happ : ∀ {n₁ n₂ s s₁ s₂}, R n₁ s s₁ → R n₂ s₁ s₂ → R (n₂ ++ n₁) s s₂)
    (hvisit : ∀ {n s s₁ u}, u ∉ n → R n (enter u s) s₁ → R (u :: n) s (leave u s₁)) :
    ∀ {fuel : Nat} {u : V} {s s' : σ}, search seen enter leave succ noFuel fuel u s = .ok s' →
      Visits seen succ adj R [u] s s' := by
  intro fuel
  induction fuel with
  | zero => intro u s s' h; cases h
  | succ fuel ih =>
    intro u s s' h
    rw [search] at h
    split at h
    · next hs =>
      cases h
      exact ⟨[], .skip hs (.nil _), by simp, hnil s, by simp⟩
    · next hs =>
      obtain ⟨next, hnext, h⟩ := bind_ok.mp h
      obtain ⟨s₁, hloop, h⟩ := bind_ok.mp h
      cases h
      obtain ⟨below, hforest, hseen, heff, hok⟩ :=
        visits_foldlM hnil happ (fun v t t' ht => ih ht) hloop
      have hset : {v | seen (enter u s) v = true} = insert u {v | seen s v = true} := by
        ext v; exact M.enter s u v
      rw [hset, ← hadj u next hnext] at hforest
      have hu : u ∉ below := fun hm => hforest.not_mem u hm (.inl rfl)
      have hs' : u ∉ {v | seen s v = true} := hs
      refine ⟨u :: below, .visit hs' hforest (.nil _), fun v => ?_, hvisit hu heff, ?_⟩
      · rw [M.leave, hseen, M.enter, List.mem_cons]
        tauto
      · intro x hx
        rcases List.mem_cons.mp hx with rfl | hx
        · exact ⟨next, hnext⟩
        · exact hok x hx

/-- **A search fails only on a node it reaches that has no successor list, or out of fuel**, and
not out of fuel while the fuel exceeds the number of nodes left. -/
theorem search_error (M : Marks seen enter leave) (hadj : ∀ u l, succ u = .ok l → adj u = l)
    {nodes : Finset V} (hnodes : ∀ u l, succ u = .ok l → u ∈ nodes) :
    ∀ {fuel : Nat} {u : V} {s : σ} {e : ε},
      search seen enter leave succ noFuel fuel u s = .error e →
      (e = noFuel ∧ fuel ≤ (nodes.filter fun v => ¬ seen s v).card) ∨
        ∃ w, ReflTransGen (fun a b => b ∈ adj a) u w ∧ succ w = .error e := by
  intro fuel
  induction fuel with
  | zero =>
    intro u s e h
    cases h
    exact .inl ⟨rfl, Nat.zero_le _⟩
  | succ fuel ih =>
    intro u s e h
    rw [search] at h
    split at h
    · cases h
    · next hs =>
      rcases bind_error.mp h with h | ⟨next, hnext, h⟩
      · exact .inr ⟨u, .refl, h⟩
      · rcases bind_error.mp h with h | ⟨s₁, -, h⟩
        · obtain ⟨done, v, rest, s₁, hl, hdone, hv⟩ := foldlM_error h
          rcases ih hv with ⟨rfl, hfuel⟩ | ⟨w, hw, he⟩
          · left
            refine ⟨rfl, ?_⟩
            -- `u` is a node that was left and no longer is
            have hmono : ∀ x, seen (enter u s) x = true → seen s₁ x = true := by
              obtain ⟨new, -, hseen, -⟩ := visits_foldlM (R := fun _ _ _ => True)
                (fun _ => trivial) (fun _ _ => trivial)
                (fun v t t' ht => search_visits M hadj (fun _ => trivial) (fun _ _ => trivial)
                  (fun _ _ => trivial) ht) hdone
              exact fun x hx => (hseen x).mpr (.inl hx)
            have hlt : (nodes.filter fun v => ¬ seen s₁ v).card <
                (nodes.filter fun v => ¬ seen s v).card := by
              refine Finset.card_lt_card ⟨fun x hx => ?_, fun hsub => ?_⟩
              · simp only [Finset.mem_filter] at hx ⊢
                exact ⟨hx.1, fun hx' => hx.2 (hmono x ((M.enter s u x).mpr (.inr hx')))⟩
              · have := hsub (Finset.mem_filter.mpr ⟨hnodes u next hnext, hs⟩)
                exact (Finset.mem_filter.mp this).2 (hmono u ((M.enter s u u).mpr (.inl rfl)))
            omega
          · refine .inr ⟨w, .head ?_ hw, he⟩
            rw [hadj u next hnext, hl]
            simp
        · cases h

end Search

/-! ## Kosaraju's second pass -/

/-- In front of every node that `x` reaches stands a node of the component of `x`. -/
def FinishOrder (E : V → V → Prop) (l : List V) : Prop :=
  ∀ x y, ReflTransGen E x y → x ∈ l → ∃ x', Mutual E x x' ∧ AtOrBefore l x' y

theorem Forest.finishOrder {adj : V → List V} {us new : List V} (h : Forest adj ∅ us new) :
    FinishOrder (fun a b => b ∈ adj a) new := by
  intro x y hxy hx
  obtain ⟨x', h₁, h₂, ho⟩ := h.order x hx y (reach_empty.mpr hxy)
  exact ⟨x', ⟨reach_empty.mp h₁, reach_empty.mp h₂⟩, ho⟩

/-- Where no way leads back from `v` to `u`, one node of the component of `u` stands in front of the
whole component of `v`. -/
theorem FinishOrder.exists_first [DecidableEq V] {E : V → V → Prop} {l : List V}
    (ho : FinishOrder E l) (hnd : l.Nodup) {u v : V} (hu : u ∈ l) (huv : ReflTransGen E u v)
    (hvu : ¬ ReflTransGen E v u) :
    ∃ u', Mutual E u' u ∧ ∀ v' ∈ l, Mutual E v' v → l.idxOf u' < l.idxOf v' := by
  obtain ⟨u', hu', hmin⟩ := (measure l.idxOf).wf.has_min {w | Mutual E w u} ⟨u, .refl u⟩
  refine ⟨u', hu', fun v' hv' hm => ?_⟩
  obtain ⟨w, hw, hbefore⟩ := ho u v' (huv.trans hm.2) hu
  have hne : w ≠ v' := by
    rintro rfl
    exact hvu (hm.2.trans hw.2)
  have hfirst : ¬ l.idxOf w < l.idxOf u' := hmin w hw.symm
  have := hbefore.idxOf_lt hne hnd
  omega

/-- **One step of the second pass.** `E` has its edges among the nodes of `l`, and `B` holds the
components of the nodes in front of `u`. Off `B` the transposed graph `adj` takes `u` exactly to
its own component. -/
theorem reach_transpose_iff {E : V → V → Prop} {adj : V → List V} {l₁ l₂ : List V} {u x : V}
    (hadj : ∀ a b, b ∈ adj a ↔ E b a) (hnodes : ∀ a b, E a b → a ∈ l₁ ++ u :: l₂)
    (hnd : (l₁ ++ u :: l₂).Nodup) (ho : FinishOrder E (l₁ ++ u :: l₂))
    (hu : ∀ w ∈ l₁, ¬ Mutual E w u) :
    Reach adj {z | ∃ w ∈ l₁, Mutual E w z} u x ↔ Mutual E u x := by
  constructor
  · rintro ⟨huB, hr⟩
    have hxB := Reach.not_mem ⟨huB, hr⟩
    have hxu : ReflTransGen E x u := by
      clear hxB
      induction hr with
      | refl => exact .refl
      | tail _ hbc ih => exact .head ((hadj _ _).mp hbc.1) ih
    have hx : x ∈ l₁ ++ u :: l₂ := by
      rcases hxu.cases_head with rfl | ⟨c, hc, -⟩
      · simp
      · exact hnodes _ _ hc
    obtain ⟨x', hxx', hb⟩ := ho x u hxu hx
    rcases hb.split hnd with rfl | hx'
    · exact hxx'.symm
    · exact absurd ⟨x', hx', hxx'.symm⟩ hxB
  · rintro ⟨hux, hxu⟩
    have huB : u ∉ {z | ∃ w ∈ l₁, Mutual E w z} := fun ⟨w, hw, h⟩ => hu w hw h
    refine ⟨huB, ?_⟩
    -- the path back from `x` to `u` runs inside the component
    induction hxu using ReflTransGen.head_induction_on with
    | refl => exact .refl
    | @head a c hac hcu ih =>
      have huc : ReflTransGen E u c := hux.tail hac
      refine (ih huc).tail ⟨(hadj _ _).mpr hac, ?_⟩
      rintro ⟨w, hw, h⟩
      exact hu w hw (h.trans ⟨.head hac hcu, hux⟩)

end IcsaDswp.Lib
