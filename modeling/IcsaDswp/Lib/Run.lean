import IcsaDswp.Lib.Fold

/-!
# Runs of calls

An object answers calls one after the other; the calls made so far are a list, the latest first.
`Enabled` says which call its caller may make after which others. `run_total` is the rule for a run
as a whole and `forall_suffix_iff` the one for a property of every state on the way: it holds
throughout exactly when every call on the way is of the kind that keeps it.
-/

namespace IcsaDswp.Lib

variable {Call σ ε : Type}

/-- Every call was enabled after those before it. -/
def Legal (Enabled : List Call → Call → Prop) : List Call → Prop
  | [] => True
  | c :: earlier => Legal Enabled earlier ∧ Enabled earlier c

instance Legal.decidable {Enabled : List Call → Call → Prop}
    [∀ earlier c, Decidable (Enabled earlier c)] : ∀ calls, Decidable (Legal Enabled calls)
  | [] => isTrue trivial
  | _ :: earlier => @instDecidableAnd _ _ (Legal.decidable earlier) _

def run (step : σ → Call → Except ε σ) (init : σ) : List Call → Except ε σ
  | [] => .ok init
  | c :: earlier => do
    let s ← run step init earlier
    step s c

variable {Enabled : List Call → Call → Prop} {step : σ → Call → Except ε σ} {init : σ}
  {calls : List Call}

/-- Enabled calls that do not fail under the invariant make a run that ends with the invariant. -/
theorem run_total (P : List Call → σ → Prop) (h₀ : P [] init)
    (hstep : ∀ earlier c s, P earlier s → Enabled earlier c →
      ∃ s', step s c = .ok s' ∧ P (c :: earlier) s') (hcalls : Legal Enabled calls) :
    ∃ s, run step init calls = .ok s ∧ P calls s := by
  induction calls with
  | nil => exact ⟨init, rfl, h₀⟩
  | cons c earlier ih =>
    obtain ⟨hearlier, hc⟩ := hcalls
    obtain ⟨s, hs, hP⟩ := ih hearlier
    obtain ⟨s', hs', hP'⟩ := hstep earlier c s hP hc
    exact ⟨s', bind_ok.mpr ⟨s, hs, hs'⟩, hP'⟩

/-- Where a call after calls that keep `Q` keeps it exactly when it is one of `H`, `Q` holds
throughout exactly when all calls are of `H`. -/
theorem forall_suffix_iff {Q : List Call → Prop} {H : List Call → Call → Prop} (h₀ : Q [])
    (hstep : ∀ earlier c, Legal Enabled (c :: earlier) → Q earlier →
      (Q (c :: earlier) ↔ H earlier c)) (hcalls : Legal Enabled calls) :
    (∀ earlier, earlier <:+ calls → Q earlier) ↔
      ∀ c earlier, c :: earlier <:+ calls → H earlier c := by
  induction calls with
  | nil => simp [List.suffix_nil, h₀]
  | cons c earlier ih =>
    have hlast : Q earlier → (Q (c :: earlier) ↔ H earlier c) := hstep earlier c hcalls
    constructor
    · intro hQ d l hd
      have hrest : ∀ l, l <:+ earlier → Q l := fun l hl => hQ l (hl.trans (List.suffix_cons c _))
      rcases List.suffix_cons_iff.mp hd with he | hd
      · obtain ⟨rfl, rfl⟩ := List.cons.inj he
        exact (hlast (hrest _ (List.suffix_refl _))).mp (hQ _ (List.suffix_refl _))
      · exact (ih hcalls.1).mp hrest d l hd
    · intro hH l hl
      have hrest : ∀ l, l <:+ earlier → Q l := (ih hcalls.1).mpr fun d l hd =>
        hH d l (hd.trans (List.suffix_cons c _))
      rcases List.suffix_cons_iff.mp hl with rfl | hl
      · exact (hlast (hrest _ (List.suffix_refl _))).mpr (hH c _ (List.suffix_refl _))
      · exact hrest l hl

end IcsaDswp.Lib
