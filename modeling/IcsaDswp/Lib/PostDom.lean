import Mathlib.Data.List.Infix
import Mathlib.Data.List.Nodup
import Mathlib.Data.List.Perm.Subperm
import Mathlib.Data.Set.Insert
import Mathlib.Logic.Relation
import Mathlib.Tactic.Common

/-!
# Post-dominance and control dependence

A graph with edges `E` and exits `exit`, not necessarily finite, reducible or everywhere able to
exit. `PostDom x z`: every path from `z` to an exit passes through `x`; it is a partial order on the
nodes that reach an exit, and the post-dominators of one node are totally ordered
(`PostDom.comparable`). `CtrlDep y x`: some successor of `y` is post-dominated by `x` and `y` is not,
strictly. `ctrlDep_iff` is the frontier equation, local plus upward part. `Walk.ctrlDep` follows a
walk back from its end: its start controls the end unless a node of the walk post-dominates the
start. On a finite graph, paths without repetition suffice and post-dominance is decidable.
-/

namespace IcsaDswp.Lib

open Relation

variable {V : Type}

/-- `p` lists the nodes of a path from `z` to an exit. -/
inductive ExitPath (E : V → V → Prop) (exit : V → Prop) : V → List V → Prop where
  | exit {z : V} : exit z → ExitPath E exit z [z]
  | step {y z : V} {p : List V} : E y z → ExitPath E exit z p → ExitPath E exit y (y :: p)

def ReachesExit (E : V → V → Prop) (exit : V → Prop) (z : V) : Prop := ∃ p, ExitPath E exit z p

def PostDom (E : V → V → Prop) (exit : V → Prop) (x z : V) : Prop :=
  ∀ p, ExitPath E exit z p → x ∈ p

def SPostDom (E : V → V → Prop) (exit : V → Prop) (x z : V) : Prop :=
  PostDom E exit x z ∧ x ≠ z

/-- `x` is the closest strict post-dominator of `z`. -/
def IPostDom (E : V → V → Prop) (exit : V → Prop) (x z : V) : Prop :=
  SPostDom E exit x z ∧ ∀ w, SPostDom E exit w z → PostDom E exit w x

/-- Whether `x` runs may depend on the branch taken at the end of `y`. -/
def CtrlDep (E : V → V → Prop) (exit : V → Prop) (y x : V) : Prop :=
  ∃ z, E y z ∧ ReachesExit E exit z ∧ PostDom E exit x z ∧ ¬ SPostDom E exit x y

/-- `z` can reach an exit without passing through `x`. -/
inductive Escapes (E : V → V → Prop) (exit : V → Prop) (x : V) : V → Prop where
  | exit {z : V} : exit z → z ≠ x → Escapes E exit x z
  | step {y z : V} : E y z → Escapes E exit x z → y ≠ x → Escapes E exit x y

section PostDom

variable {E : V → V → Prop} {exit : V → Prop} {w x y z : V}

/-! ## Paths -/

theorem ExitPath.head_mem {p : List V} (h : ExitPath E exit z p) : z ∈ p := by
  cases h <;> simp

theorem ExitPath.suffix {p : List V} (h : ExitPath E exit z p) (hx : x ∈ p) :
    ∃ q, ExitPath E exit x q ∧ q <:+ p ∧ (x ≠ z → q.length < p.length) := by
  induction h with
  | @exit z he =>
    obtain rfl : x = z := by simpa using hx
    exact ⟨[x], .exit he, List.suffix_refl _, fun h => absurd rfl h⟩
  | @step y z p hyz hp ih =>
    by_cases hxy : x = y
    · subst hxy
      exact ⟨x :: p, .step hyz hp, List.suffix_refl _, fun h => absurd rfl h⟩
    · obtain ⟨q, hq, hs, -⟩ := ih ((List.mem_cons.mp hx).resolve_left hxy)
      refine ⟨q, hq, hs.trans (List.suffix_cons ..), fun _ => ?_⟩
      have := hs.length_le
      simp only [List.length_cons]
      omega

/-- Cutting loops out of a path. -/
theorem ExitPath.exists_nodup {p : List V} (h : ExitPath E exit z p) :
    ∃ q, ExitPath E exit z q ∧ q.Nodup ∧ q ⊆ p := by
  induction h with
  | @exit z he => exact ⟨[z], .exit he, by simp, List.Subset.refl _⟩
  | @step y z p hyz _ ih =>
    obtain ⟨q, hq, hnd, hsub⟩ := ih
    by_cases hy : y ∈ q
    · obtain ⟨r, hr, hs, -⟩ := hq.suffix hy
      exact ⟨r, hr, hnd.sublist hs.sublist, fun v hv => .tail _ (hsub (hs.subset hv))⟩
    · exact ⟨y :: q, .step hyz hq, by simp [hy, hnd], List.cons_subset_cons y hsub⟩

theorem ReachesExit.step (hyz : E y z) (h : ReachesExit E exit z) : ReachesExit E exit y := by
  obtain ⟨p, hp⟩ := h
  exact ⟨y :: p, .step hyz hp⟩

theorem ReachesExit.of_reflTransGen (h : ReflTransGen E y z) (hz : ReachesExit E exit z) :
    ReachesExit E exit y := by
  induction h using ReflTransGen.head_induction_on with
  | refl => exact hz
  | head hab _ ih => exact .step hab ih

theorem Escapes.exists_path (h : Escapes E exit x z) : ∃ p, ExitPath E exit z p ∧ x ∉ p := by
  induction h with
  | exit he hne => exact ⟨_, .exit he, by simpa using Ne.symm hne⟩
  | step hyz _ hne ih =>
    obtain ⟨p, hp, hx⟩ := ih
    exact ⟨_, .step hyz hp, by simp [Ne.symm hne, hx]⟩

theorem ExitPath.escapes {p : List V} (h : ExitPath E exit z p) (hx : x ∉ p) :
    Escapes E exit x z := by
  induction h with
  | exit he => exact .exit he fun h => hx (by simp [h])
  | step hyz _ ih =>
    simp only [List.mem_cons, not_or] at hx
    exact .step hyz (ih hx.2) (Ne.symm hx.1)

theorem postDom_iff : PostDom E exit x z ↔ ¬ Escapes E exit x z := by
  constructor
  · intro h he
    obtain ⟨p, hp, hx⟩ := he.exists_path
    exact hx (h p hp)
  · intro h p hp
    by_contra hx
    exact h (hp.escapes hx)

/-! ## The order -/

theorem PostDom.refl (z : V) : PostDom E exit z z := fun _ hp => hp.head_mem

theorem PostDom.trans (h₁ : PostDom E exit w x) (h₂ : PostDom E exit x z) :
    PostDom E exit w z := by
  intro p hp
  obtain ⟨q, hq, hs, -⟩ := hp.suffix (h₂ p hp)
  exact hs.subset (h₁ q hq)

theorem PostDom.antisymm (hz : ReachesExit E exit z) (h₁ : PostDom E exit x z)
    (h₂ : PostDom E exit z x) : x = z := by
  by_contra hne
  -- no path from `z` to an exit can be shortest
  obtain ⟨p, hp⟩ := hz
  induction hn : p.length using Nat.strong_induction_on generalizing p with
  | _ n ih =>
    obtain ⟨q, hq, -, hlq⟩ := hp.suffix (h₁ p hp)
    obtain ⟨r, hr, -, hlr⟩ := hq.suffix (h₂ q hq)
    have := hlq hne
    have := hlr (Ne.symm hne)
    exact ih r.length (by omega) r hr rfl

theorem ReachesExit.of_postDom (hz : ReachesExit E exit z) (h : PostDom E exit x z) :
    ReachesExit E exit x := by
  obtain ⟨p, hp⟩ := hz
  obtain ⟨q, hq, -⟩ := hp.suffix (h p hp)
  exact ⟨q, hq⟩

/-- A strict post-dominator post-dominates every successor. -/
theorem SPostDom.succ (h : SPostDom E exit x y) (hyz : E y z) : PostDom E exit x z := by
  intro p hp
  exact (List.mem_cons.mp (h.1 _ (.step hyz hp))).resolve_left h.2

/-- Two nodes each of which can be avoided from the other cannot both be unavoidable. -/
theorem escapes_or (hz : ReachesExit E exit z) (hw : Escapes E exit x w)
    (hx : Escapes E exit w x) : Escapes E exit x z ∨ Escapes E exit w z := by
  obtain ⟨p, hp⟩ := hz
  induction hp with
  | @exit z he =>
    by_cases h : z = x
    · exact .inr (h ▸ hx)
    · exact .inl (.exit he h)
  | @step y z p hyz _ ih =>
    by_cases h : y = x
    · exact .inr (h ▸ hx)
    · by_cases h' : y = w
      · exact .inl (h' ▸ hw)
      · exact ih.imp (fun he => .step hyz he h) fun he => .step hyz he h'

theorem PostDom.comparable (hz : ReachesExit E exit z) (h₁ : PostDom E exit x z)
    (h₂ : PostDom E exit w z) : PostDom E exit x w ∨ PostDom E exit w x := by
  by_contra h
  rw [not_or, postDom_iff, postDom_iff, not_not, not_not] at h
  rcases escapes_or hz h.1 h.2 with he | he
  · exact postDom_iff.mp h₁ he
  · exact postDom_iff.mp h₂ he

theorem SPostDom.trans_postDom (hz : ReachesExit E exit z) (h₁ : SPostDom E exit w x)
    (h₂ : PostDom E exit x z) : SPostDom E exit w z := by
  refine ⟨h₁.1.trans h₂, ?_⟩
  rintro rfl
  exact h₁.2 (h₁.1.antisymm (hz.of_postDom h₂) h₂)

/-- Of the strict post-dominators of `z`, one that is not the closest has another below it. -/
theorem SPostDom.between (hz : ReachesExit E exit z) (h : SPostDom E exit x z)
    (hn : ¬ IPostDom E exit x z) : ∃ w, SPostDom E exit w z ∧ SPostDom E exit x w := by
  have : ∃ w, SPostDom E exit w z ∧ ¬ PostDom E exit w x := by
    by_contra hc
    push Not at hc
    exact hn ⟨h, hc⟩
  obtain ⟨w, hw, hwx⟩ := this
  refine ⟨w, hw, ?_, ?_⟩
  · exact (PostDom.comparable hz h.1 hw.1).resolve_right hwx
  · rintro rfl
    exact hwx (.refl _)

/-- The child of `x` on the way down to a node `x` strictly post-dominates. -/
theorem SPostDom.exists_child (hz : ReachesExit E exit z) (h : SPostDom E exit x z) :
    ∃ c, IPostDom E exit x c ∧ PostDom E exit c z := by
  obtain ⟨p, hp⟩ := hz
  induction hn : p.length using Nat.strong_induction_on generalizing z p with
  | _ n ih =>
    by_cases hi : IPostDom E exit x z
    · exact ⟨z, hi, .refl z⟩
    · obtain ⟨w, hw, hxw⟩ := h.between ⟨p, hp⟩ hi
      obtain ⟨q, hq, -, hlt⟩ := hp.suffix (hw.1 p hp)
      obtain ⟨c, hc, hcw⟩ := ih q.length (hn ▸ hlt hw.2) hxw q hq rfl
      exact ⟨c, hc, hcw.trans hw.1⟩

/-! ## Control dependence -/

theorem CtrlDep.reachesExit (h : CtrlDep E exit y x) :
    ReachesExit E exit y ∧ ReachesExit E exit x := by
  obtain ⟨z, hyz, hz, hx, -⟩ := h
  exact ⟨.step hyz hz, hz.of_postDom hx⟩

/-- A predecessor that `x` does not immediately post-dominate is not strictly post-dominated. -/
theorem SPostDom.iPostDom_of_edge (hyx : E y x) (h : SPostDom E exit x y) :
    IPostDom E exit x y := ⟨h, fun _ hw => hw.succ hyx⟩

/-- A node controlled through a child `c` of `x` and strictly post-dominated by `x` has `x` as its
immediate post-dominator. -/
theorem CtrlDep.iPostDom_up {c : V} (hxc : IPostDom E exit x c) (h : CtrlDep E exit y c)
    (hxy : SPostDom E exit x y) : IPostDom E exit x y := by
  by_contra hn
  obtain ⟨hy, -⟩ := h.reachesExit
  obtain ⟨z, hyz, hz, hcz, hncy⟩ := h
  obtain ⟨w, hwy, hxw⟩ := hxy.between hy hn
  have hwz : PostDom E exit w z := hwy.succ hyz
  have hc : ReachesExit E exit c := hz.of_postDom hcz
  rcases PostDom.comparable hz hcz hwz with hcw | hwc
  · exact hncy (by
      refine ⟨hcw.trans hwy.1, ?_⟩
      rintro rfl
      exact hwy.2 (hwy.1.antisymm hy hcw))
  · by_cases he : w = c
    · subst he
      exact hncy hwy
    · have hwx := hxc.2 w ⟨hwc, he⟩
      exact hxw.2 (hxw.1.antisymm (hc.of_postDom hwc) hwx)

/-- **The frontier equation**: `x` is controlled by its predecessors and by what controls its
children, save the nodes it immediately post-dominates. -/
theorem ctrlDep_iff (hx : ReachesExit E exit x) :
    CtrlDep E exit y x ↔ (E y x ∧ ¬ IPostDom E exit x y) ∨
      ∃ c, IPostDom E exit x c ∧ CtrlDep E exit y c ∧ ¬ IPostDom E exit x y := by
  constructor
  · rintro ⟨z, hyz, hz, hxz, hn⟩
    have hni : ¬ IPostDom E exit x y := fun h => hn h.1
    by_cases he : x = z
    · subst he
      exact .inl ⟨hyz, hni⟩
    · obtain ⟨c, hc, hcz⟩ := SPostDom.exists_child hz ⟨hxz, he⟩
      refine .inr ⟨c, hc, ⟨z, hyz, hz, hcz, fun hcy => hn ?_⟩, hni⟩
      exact hc.1.trans_postDom (.step hyz hz) hcy.1
  · rintro (⟨hyx, hni⟩ | ⟨c, hc, hcd, hni⟩)
    · exact ⟨x, hyx, hx, .refl x, fun h => hni (h.iPostDom_of_edge hyx)⟩
    · have hn : ¬ SPostDom E exit x y := fun h => hni (hcd.iPostDom_up hc h)
      obtain ⟨z, hyz, hz, hcz, -⟩ := hcd
      exact ⟨z, hyz, hz, hc.1.1.trans hcz, hn⟩

/-- **Control needs a choice.** A node that controls another has two successors from which an exit
can be reached. -/
theorem CtrlDep.exists_branch (h : CtrlDep E exit y x) (hy : ¬ exit y) :
    ∃ z w, E y z ∧ ReachesExit E exit z ∧ E y w ∧ ReachesExit E exit w ∧ z ≠ w := by
  obtain ⟨z, hyz, hz, hxz, hn⟩ := h
  by_contra hno
  have hall : ∀ w, E y w → ReachesExit E exit w → w = z := by
    intro w hyw hw
    by_contra hne
    exact hno ⟨w, z, hyw, hw, hyz, hz, hne⟩
  -- every path from `y` goes on from `z`
  have hvia : ∀ p, ExitPath E exit y p → ∃ q, p = y :: q ∧ ExitPath E exit z q := by
    intro p hp
    cases hp with
    | exit he => exact absurd he hy
    | step hyw hq =>
      obtain rfl := hall _ hyw ⟨_, hq⟩
      exact ⟨_, rfl, hq⟩
  by_cases hxy : x = y
  · subst hxy
    -- a path from `z` leads back to `y`, and on from `z` by a shorter one
    obtain ⟨p, hp⟩ := hz
    induction hlen : p.length using Nat.strong_induction_on generalizing p with
    | _ n ih =>
      obtain ⟨q, hq, hs, -⟩ := hp.suffix (hxz p hp)
      obtain ⟨r, rfl, hr⟩ := hvia q hq
      have := hs.length_le
      simp only [List.length_cons] at this
      exact ih r.length (by omega) r hr rfl
  · refine hn ⟨fun p hp => ?_, hxy⟩
    obtain ⟨q, rfl, hq⟩ := hvia p hp
    exact List.mem_cons_of_mem _ (hxz q hq)

/-! ## Walks -/

/-- A nonempty walk from `y`, its inner nodes `m` in order, to `z`. -/
inductive Walk (E : V → V → Prop) (y : V) : List V → V → Prop where
  | single {z : V} : E y z → Walk E y [] z
  | snoc {m : List V} {v z : V} : Walk E y m v → E v z → Walk E y (m ++ [v]) z

/-- The part of a walk in front of one of its nodes. -/
theorem Walk.split {m : List V} (h : Walk E y m z) {d : V} (hd : d ∈ m) :
    ∃ m', Walk E y m' d ∧ (∀ v ∈ m', v ∈ m) ∧ ReflTransGen E d z := by
  induction h with
  | single _ => simp at hd
  | @snoc m v z hw hvz ih =>
    rcases List.mem_append.mp hd with hd | hd
    · obtain ⟨m', hm', hsub, hdv⟩ := ih hd
      exact ⟨m', hm', fun u hu => List.mem_append_left _ (hsub u hu), hdv.tail hvz⟩
    · obtain rfl := List.mem_singleton.mp hd
      exact ⟨m, hw, fun u hu => List.mem_append_left _ hu, .single hvz⟩

/-- **Control along a walk.** Where `x` post-dominates the end of a walk from `y`, a chain of
control dependences through the walk leads to `x` from `y`, or from a node of the walk that strictly
post-dominates `y`, unless `x` does so itself. -/
theorem Walk.ctrlDep {m : List V} (h : Walk E y m z) (hz : ReachesExit E exit z)
    (hx : PostDom E exit x z) :
    TransGen (fun a b => CtrlDep E exit a b ∧ (a = y ∨ a ∈ m)) y x ∨ SPostDom E exit x y ∨
      ∃ v ∈ m, SPostDom E exit v y ∧
        TransGen (fun a b => CtrlDep E exit a b ∧ (a = y ∨ a ∈ m)) v x := by
  induction h generalizing x with
  | @single z hyz =>
    by_cases hs : SPostDom E exit x y
    · exact .inr (.inl hs)
    · exact .inl (.single ⟨⟨z, hyz, hz, hx, hs⟩, .inl rfl⟩)
  | @snoc m v z hw hvz ih =>
    have hmono : ∀ {a b : V}, TransGen (fun a b => CtrlDep E exit a b ∧ (a = y ∨ a ∈ m)) a b →
        TransGen (fun a b => CtrlDep E exit a b ∧ (a = y ∨ a ∈ m ++ [v])) a b := fun h =>
      h.lift id fun a b hab => ⟨hab.1, hab.2.imp id (List.mem_append_left _)⟩
    have hv : ReachesExit E exit v := .step hvz hz
    by_cases hs : SPostDom E exit x v
    · rcases ih hv hs.1 with h | h | ⟨u, hu, huy, h⟩
      · exact .inl (hmono h)
      · exact .inr (.inl h)
      · exact .inr (.inr ⟨u, List.mem_append_left _ hu, huy, hmono h⟩)
    · have hlast : CtrlDep E exit v x ∧ (v = y ∨ v ∈ m ++ [v]) :=
        ⟨⟨z, hvz, hz, hx, hs⟩, .inr (by simp)⟩
      rcases ih hv (.refl v) with h | h | ⟨u, hu, huy, h⟩
      · exact .inl ((hmono h).tail hlast)
      · exact .inr (.inr ⟨v, by simp, h, .single hlast⟩)
      · exact .inr (.inr ⟨u, List.mem_append_left _ hu, huy, (hmono h).tail hlast⟩)

/-- A strict post-dominator of the start that is off the walk post-dominates its nodes. -/
theorem Walk.postDom {m : List V} (h : Walk E y m z) (hx : SPostDom E exit x y) (hm : x ∉ m) :
    PostDom E exit x z ∧ ∀ v ∈ m, PostDom E exit x v := by
  induction h with
  | single hyz => exact ⟨hx.succ hyz, by simp⟩
  | @snoc m v z _ hvz ih =>
    simp only [List.mem_append, List.mem_singleton, not_or] at hm
    obtain ⟨hv, hall⟩ := ih hm.1
    refine ⟨SPostDom.succ ⟨hv, hm.2⟩ hvz, fun u hu => ?_⟩
    rcases List.mem_append.mp hu with hu | hu
    · exact hall u hu
    · exact List.mem_singleton.mp hu ▸ hv

/-! ## Forks -/

section Fork

-- two walks from `y` to `b` that share no other node
variable {b d : V} {m₁ m₂ : List V} (h₁ : Walk E y m₁ b) (h₂ : Walk E y m₂ b)
  (hdisj : ∀ v ∈ m₁, v ∈ m₂ → v = y) (hb : ReachesExit E exit b)

include h₁ h₂ hdisj hb

/-- The fork controls the join, unless the join cannot be avoided. -/
theorem ctrlDep_of_fork (hn : ¬ SPostDom E exit b y) : TransGen (CtrlDep E exit) y b := by
  rcases h₁.ctrlDep hb (.refl b) with h | h | ⟨v, hv, hvy, -⟩
  · exact h.lift id fun _ _ h => h.1
  · exact absurd h hn
  · rcases h₂.ctrlDep hb (.refl b) with h | h | ⟨w, hw, hwy, -⟩
    · exact h.lift id fun _ _ h => h.1
    · exact absurd h hn
    -- both walks meet a node that cannot be avoided: they would be the same node
    · have hvw : PostDom E exit v w :=
        (h₂.postDom hvy fun hv' => hvy.2 (hdisj v hv hv')).2 w hw
      have hwv : PostDom E exit w v :=
        (h₁.postDom hwy fun hw' => hwy.2 (hdisj w hw' hw)).2 v hv
      have hrw : ReachesExit E exit w := by
        obtain ⟨-, -, -, hwb⟩ := h₂.split hw
        exact .of_reflTransGen hwb hb
      obtain rfl := hvw.antisymm hrw hwv
      exact absurd (hdisj v hv hw) hvy.2

/-- Where the join cannot be avoided, the fork controls what lies on the walks to it. -/
theorem ctrlDep_of_fork_inner (hs : SPostDom E exit b y) (hb₁ : b ∉ m₁) (hd : d ∈ m₁) :
    TransGen (CtrlDep E exit) y d := by
  have hno : ∀ v ∈ m₁, ¬ SPostDom E exit v y := by
    intro v hv hvy
    have hvb : PostDom E exit v b := (h₂.postDom hvy fun hv' => hvy.2 (hdisj v hv hv')).1
    have hbv : PostDom E exit b v := (h₁.postDom hs hb₁).2 v hv
    obtain rfl := hvb.antisymm hb hbv
    exact hb₁ hv
  obtain ⟨m', hm', hsub, hdb⟩ := h₁.split hd
  rcases hm'.ctrlDep (.of_reflTransGen hdb hb) (.refl d) with h | h | ⟨v, hv, hvy, -⟩
  · exact h.lift id fun _ _ h => h.1
  · exact absurd h (hno d hd)
  · exact absurd hvy (hno v (hsub v hv))

end Fork

/-! ## Regions -/

theorem exists_walk_on {S : V → Prop} (h : TransGen (fun a b => E a b ∧ S a ∧ S b) y z) :
    ∃ m, Walk E y m z ∧ ∀ v ∈ m, S v := by
  induction h with
  | single h => exact ⟨[], .single h.1, by simp⟩
  | tail _ h ih =>
    obtain ⟨m, hm, hS⟩ := ih
    refine ⟨_, hm.snoc h.1, fun v hv => ?_⟩
    rcases List.mem_append.mp hv with hv | hv
    · exact hS v hv
    · exact List.mem_singleton.mp hv ▸ h.2.1

section Region

-- `S` has no exit of its own and is left only from `e`
variable {S : V → Prop} {e : V} (hin : ∀ y, S y → ¬ exit y)
  (hout : ∀ y z, S y → E y z → ¬ S z → y = e)

include hin hout

theorem ExitPath.mem_of_region {p : List V} (h : ExitPath E exit z p) (hz : S z) : e ∈ p := by
  induction h with
  | exit he => exact absurd he (hin _ hz)
  | @step y z p hyz _ ih =>
    by_cases hz' : S z
    · exact .tail _ (ih hz')
    · obtain rfl := hout y z hz hyz hz'
      simp

/-- No other node of the region is unavoidable from the one it is left from. -/
theorem not_postDom_of_region (he : S e) (hr : ReachesExit E exit e) (hx : S x) (hne : x ≠ e) :
    ¬ PostDom E exit x e := by
  intro h
  obtain ⟨p, hp⟩ := hr
  obtain ⟨q, hq, hnd, -⟩ := hp.exists_nodup
  have hxq : x ∈ q := h q hq
  cases hq with
  | exit hex => exact hin e he hex
  | step _ hq =>
    -- a path back into the region would have to leave it from `e` once more
    obtain ⟨r, hr, hs, -⟩ := hq.suffix ((List.mem_cons.mp hxq).resolve_left hne)
    exact (List.nodup_cons.mp hnd).1 (hs.subset (hr.mem_of_region hin hout hx))

/-- **Control inside a region.** In a strongly connected region a chain of control dependences leads
from the node it is left from to each of its nodes. -/
theorem ctrlDep_of_region (hstrong : ∀ x y, S x → S y → TransGen (fun a b => E a b ∧ S a ∧ S b) x y)
    (he : S e) (hr : ReachesExit E exit e) (hx : S x) :
    TransGen (fun a b => CtrlDep E exit a b ∧ S a) e x := by
  have hrx : ReachesExit E exit x :=
    .of_reflTransGen ((hstrong x e hx he).to_reflTransGen.lift id fun _ _ h => h.1) hr
  have hno : ∀ v, S v → ¬ SPostDom E exit v e := fun v hv h =>
    not_postDom_of_region hin hout he hr hv h.2 h.1
  obtain ⟨m, hm, hS⟩ := exists_walk_on (hstrong e x he hx)
  rcases hm.ctrlDep hrx (.refl x) with h | h | ⟨v, hv, h, -⟩
  · refine h.lift id fun a b hab => ⟨hab.1, ?_⟩
    rcases hab.2 with rfl | ha
    · exact he
    · exact hS a ha
  · exact absurd h (hno x hx)
  · exact absurd h (hno v (hS v hv))

end Region

end PostDom

/-! ## Finite graphs -/

section Finite

variable (succs : V → List V) (exit : V → Prop) [DecidablePred exit]

/-- Whether a path of at most `n` nodes leads from `z` to an exit through no `bad` node. -/
def exitsWithin (bad : V → Bool) : Nat → V → Bool
  | 0, _ => false
  | n + 1, z => !bad z && (decide (exit z) || (succs z).any (exitsWithin bad n))

variable {succs exit} {E : V → V → Prop}

theorem exitsWithin_iff (hE : ∀ y z, E y z ↔ z ∈ succs y) {bad : V → Bool} {n : Nat} {z : V} :
    exitsWithin succs exit bad n z = true ↔
      ∃ p, ExitPath E exit z p ∧ p.length ≤ n ∧ ∀ v ∈ p, bad v = false := by
  induction n generalizing z with
  | zero =>
    simp only [exitsWithin, Bool.false_eq_true, false_iff]
    rintro ⟨p, hp, hl, -⟩
    cases hp <;> simp at hl
  | succ n ih =>
    simp only [exitsWithin, Bool.and_eq_true, Bool.not_eq_true', Bool.or_eq_true,
      decide_eq_true_eq, List.any_eq_true, ih]
    constructor
    · rintro ⟨hz, he | ⟨s, hs, p, hp, hl, hall⟩⟩
      · exact ⟨[z], .exit he, by simp, by simpa using hz⟩
      · exact ⟨z :: p, .step ((hE z s).mpr hs) hp, by simpa using hl, by simpa [hz] using hall⟩
    · rintro ⟨p, hp, hl, hall⟩
      cases hp with
      | exit he => exact ⟨hall z (by simp), .inl he⟩
      | @step _ s p hzs hp =>
        refine ⟨hall z (by simp), .inr ⟨s, (hE z s).mp hzs, p, hp, by simpa using hl, ?_⟩⟩
        exact fun v hv => hall v (List.mem_cons_of_mem _ hv)

/-- As many nodes as the graph has are enough for a path. -/
theorem exists_exitPath_iff (hE : ∀ y z, E y z ↔ z ∈ succs y) {nodes : List V}
    (hsrc : ∀ y z, E y z → y ∈ nodes) (hexit : ∀ z, exit z → z ∈ nodes) {bad : V → Bool} {z : V} :
    exitsWithin succs exit bad nodes.length z = true ↔
      ∃ p, ExitPath E exit z p ∧ ∀ v ∈ p, bad v = false := by
  have hsub : ∀ {z : V} {p : List V}, ExitPath E exit z p → p ⊆ nodes := fun h => by
    induction h with
    | exit he => simpa using hexit _ he
    | step hyz _ ih => exact List.cons_subset.mpr ⟨hsrc _ _ hyz, ih⟩
  rw [exitsWithin_iff hE]
  constructor
  · rintro ⟨p, hp, -, hall⟩
    exact ⟨p, hp, hall⟩
  · rintro ⟨p, hp, hall⟩
    obtain ⟨q, hq, hnd, hqp⟩ := hp.exists_nodup
    exact ⟨q, hq, (List.subperm_of_subset hnd (hsub hq)).length_le, fun v hv => hall v (hqp hv)⟩

/-- Reaching an exit is decidable on a finite graph. -/
def decidableReachesExit (hE : ∀ y z, E y z ↔ z ∈ succs y) {nodes : List V}
    (hsrc : ∀ y z, E y z → y ∈ nodes) (hexit : ∀ z, exit z → z ∈ nodes) (z : V) :
    Decidable (ReachesExit E exit z) :=
  decidable_of_iff (exitsWithin succs exit (fun _ => false) nodes.length z = true)
    (by simp [exists_exitPath_iff hE hsrc hexit, ReachesExit])

/-- Post-dominance is decidable on a finite graph. -/
def decidablePostDom [DecidableEq V] (hE : ∀ y z, E y z ↔ z ∈ succs y) {nodes : List V}
    (hsrc : ∀ y z, E y z → y ∈ nodes) (hexit : ∀ z, exit z → z ∈ nodes) (x z : V) :
    Decidable (PostDom E exit x z) :=
  decidable_of_iff (¬ exitsWithin succs exit (· = x) nodes.length z = true) (by
    rw [exists_exitPath_iff hE hsrc hexit, postDom_iff]
    refine not_congr ⟨?_, fun h => ?_⟩
    · rintro ⟨p, hp, hall⟩
      exact hp.escapes fun hx => by simpa using hall x hx
    · obtain ⟨p, hp, hx⟩ := h.exists_path
      exact ⟨p, hp, fun v hv => decide_eq_false (by rintro rfl; exact hx hv)⟩)

end Finite

end IcsaDswp.Lib
