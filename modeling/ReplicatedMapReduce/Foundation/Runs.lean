/-
# Runs of a partial step function, and the two ways to carry a property along them

A machine is given by `step : σ → α → Option σ`, where `none` is an action that cannot happen
(it faults, or there is nothing to act on).  A run takes the actions of a list one after the
other, each of them allowed by a `guard` in the state it is taken in.  The guard is how a
result says which environment it is about; the machine itself never reads it.

Five rules are all the later files use:

* `Run.invariant`: what one allowed step preserves, a whole run preserves;
* `Run.unique`: the actions determine where a run ends, whatever allows them;
* `Run.refines`: if every allowed step of a machine is an allowed step of another one, under another
  name, every run is a run of the other one;
* `throughout_iff`: when each single step either keeps a property or breaks it, and a condition
  on the state before the step tells which, then the property holds in EVERY state a run goes
  through exactly when every step of the run meets the condition;
* `Run.project`: in an interleaving of several machines, each of them makes a run of its own, so
  what holds of every run of one machine holds of all of them at once.

Nothing here mentions any particular machine.
-/
import Mathlib.Data.List.Basic

namespace Runs

variable {σ α : Type*}

/-! ## 1. Runs -/

/-- `Run step guard s as t`: from `s`, the actions `as` are allowed one after the other and
lead to `t`. -/
inductive Run (step : σ → α → Option σ) (guard : σ → α → Prop) : σ → List α → σ → Prop
  | refl (s : σ) : Run step guard s [] s
  | cons {s u t : σ} {a : α} {as : List α} :
      guard s a → step s a = some u → Run step guard u as t → Run step guard s (a :: as) t

variable {step : σ → α → Option σ} {guard : σ → α → Prop}

/-- **The invariant rule.**  A property every allowed step preserves holds at the end of every
run that starts with it. -/
theorem Run.invariant {Inv : σ → Prop}
    (hstep : ∀ s a u, Inv s → guard s a → step s a = some u → Inv u)
    {s t : σ} {as : List α} (h : Run step guard s as t) : Inv s → Inv t := by
  induction h with
  | refl => exact id
  | cons hg hs _ ih => exact fun hi => ih (hstep _ _ _ hi hg hs)

/-- What is allowed by one guard may be allowed by a weaker one. -/
theorem Run.mono {guard' : σ → α → Prop} (hguard : ∀ s a, guard s a → guard' s a) {s t : σ}
    {as : List α} (h : Run step guard s as t) : Run step guard' s as t := by
  induction h with
  | refl s => exact Run.refl s
  | cons hg hs _ ih => exact Run.cons (hguard _ _ hg) hs ih

/-- Two runs one after the other are a run. -/
theorem Run.append {s u t : σ} {as bs : List α} (h1 : Run step guard s as u)
    (h2 : Run step guard u bs t) : Run step guard s (as ++ bs) t := by
  induction h1 with
  | refl => exact h2
  | cons hg hs _ ih => exact Run.cons hg hs (ih h2)

/-- **The uniqueness rule.**  A run ends where its actions lead. -/
theorem Run.unique {guard' : σ → α → Prop} {s t t' : σ} {as : List α}
    (h : Run step guard s as t) (h' : Run step guard' s as t') : t = t' := by
  induction h with
  | refl =>
    cases h'
    rfl
  | cons _ hs _ ih =>
    cases h' with
    | cons _ hs' hrest =>
      rw [hs] at hs'
      cases hs'
      exact ih hrest

/-- A run can be cut between any two of its actions. -/
theorem Run.split {s t : σ} :
    ∀ {as bs : List α}, Run step guard s (as ++ bs) t →
      ∃ u, Run step guard s as u ∧ Run step guard u bs t := by
  intro as
  induction as generalizing s with
  | nil => exact fun h => ⟨s, Run.refl s, h⟩
  | cons a as ih =>
    intro bs h
    cases h with
    | cons hg hs hrest =>
      obtain ⟨u, h1, h2⟩ := ih hrest
      exact ⟨u, Run.cons hg hs h1, h2⟩

/-- **The refinement rule.**  `f` says which action of the other machine an action is. -/
theorem Run.refines {β : Type*} {stepβ : σ → β → Option σ} {guardβ : σ → β → Prop} {f : β → α}
    (hstep : ∀ s b u, guardβ s b → stepβ s b = some u → guard s (f b) ∧ step s (f b) = some u)
    {s t : σ} {bs : List β} (h : Run stepβ guardβ s bs t) : Run step guard s (bs.map f) t := by
  induction h with
  | refl s => exact Run.refl s
  | cons hg hs _ ih =>
    obtain ⟨hg', hs'⟩ := hstep _ _ _ hg hs
    exact Run.cons hg' hs' ih

/-! ## 2. A property of every state a run goes through -/

/-- `Q` holds in every state that some initial part of the actions `as` leads to. -/
def Throughout (step : σ → α → Option σ) (guard : σ → α → Prop) (Q : σ → Prop) (s : σ)
    (as : List α) : Prop :=
  ∀ (as₁ as₂ : List α) (t : σ), as = as₁ ++ as₂ → Run step guard s as₁ t → Q t

theorem Throughout.head {Q : σ → Prop} {s : σ} {as : List α}
    (h : Throughout step guard Q s as) : Q s :=
  h [] as s rfl (Run.refl s)

theorem Throughout.tail {Q : σ → Prop} {s u : σ} {a : α} {as : List α}
    (h : Throughout step guard Q s (a :: as)) (hg : guard s a) (hs : step s a = some u) :
    Throughout step guard Q u as := by
  intro as₁ as₂ t heq hrun
  exact h (a :: as₁) as₂ t (by rw [heq, List.cons_append]) (Run.cons hg hs hrun)

/-- **The exactness rule.**  `Inv` is carried as long as `Q` still holds; under both, one step
keeps `Q` exactly when the condition `C` holds before it.  Then `Q` holds throughout a run
exactly when every step of the run meets `C`. -/
theorem throughout_iff {Inv Q : σ → Prop} {C : σ → α → Prop}
    (hinv : ∀ s a u, Inv s → Q s → guard s a → step s a = some u → Inv u)
    (hexact : ∀ s a u, Inv s → Q s → guard s a → step s a = some u → (Q u ↔ C s a))
    {s t : σ} {as : List α} (hrun : Run step guard s as t) :
    Inv s → Q s →
      (Throughout step guard Q s as ↔ Run step (fun s a => guard s a ∧ C s a) s as t) := by
  induction hrun with
  | refl s =>
    intro _ hQ
    refine ⟨fun _ => Run.refl s, fun _ as₁ as₂ t heq hrun => ?_⟩
    obtain ⟨rfl, -⟩ := List.nil_eq_append_iff.mp heq
    cases hrun with | refl => exact hQ
  | @cons s u t a as hg hs hrest ih =>
    intro hI hQ
    have hIu : Inv u := hinv s a u hI hQ hg hs
    have hQu : Q u ↔ C s a := hexact s a u hI hQ hg hs
    constructor
    · intro hthr
      have htail : Throughout step guard Q u as := hthr.tail hg hs
      exact Run.cons ⟨hg, hQu.mp htail.head⟩ hs ((ih hIu htail.head).mp htail)
    · intro hrun as₁ as₂ v heq hv
      cases hrun with
      | cons hgC hs' hrestC =>
        rw [hs] at hs'
        cases hs'
        have hq : Q u := hQu.mpr hgC.2
        cases hv with
        | refl => exact hQ
        | @cons _ u' _ b bs _ hsv hrestv =>
          rw [List.cons_append, List.cons.injEq] at heq
          obtain ⟨rfl, hbs⟩ := heq
          rw [hs] at hsv
          cases hsv
          exact (ih hIu hq).mpr hrestC bs as₂ v hbs hrestv

/-! ## 3. Several machines -/

section Interleaving

variable {ι : Type*} [DecidableEq ι]

/-- One of the machines takes a step, and the others stay as they are. -/
def interleave (step : σ → α → Option σ) (s : ι → σ) (e : ι × α) : Option (ι → σ) :=
  (step (s e.1) e.2).map fun u => Function.update s e.1 u

/-- The actions of one machine. -/
def own (k : ι) (es : List (ι × α)) : List α :=
  es.filterMap fun e => if e.1 = k then some e.2 else none

/-- One machine has moved, and no other. -/
theorem interleave_eq_some {s t : ι → σ} {e : ι × α} (h : interleave step s e = some t) :
    step (s e.1) e.2 = some (t e.1) ∧ ∀ k, k ≠ e.1 → t k = s k := by
  simp only [interleave, Option.map_eq_some_iff] at h
  obtain ⟨u, hu, rfl⟩ := h
  refine ⟨?_, fun k hk => Function.update_of_ne hk u s⟩
  rw [Function.update_self]
  exact hu

theorem interleave_eq {s : ι → σ} {e : ι × α} {u : σ} (h : step (s e.1) e.2 = some u) :
    interleave step s e = some (Function.update s e.1 u) := by
  rw [interleave, h, Option.map_some]

/-- A run of one machine, while the others stay as they are. -/
theorem Run.alone {k : ι} {s : ι → σ} {t : σ} {as : List α} (h : Run step guard (s k) as t) :
    Run (interleave step) (fun s e => guard (s e.1) e.2) s (as.map fun a => (k, a))
      (Function.update s k t) := by
  generalize hs : s k = u at h
  induction h generalizing s with
  | refl u =>
    rw [← hs, Function.update_eq_self]
    exact Run.refl s
  | @cons u v t a as hg hstep _ ih =>
    have hrest := ih (s := Function.update s k v) (Function.update_self k v s)
    rw [Function.update_idem] at hrest
    rw [← hs] at hg hstep
    exact Run.cons hg (interleave_eq hstep) hrest

/-- **The projection rule.**  An interleaving is a run for each of the machines. -/
theorem Run.project {s t : ι → σ} {es : List (ι × α)}
    (h : Run (interleave step) (fun s e => guard (s e.1) e.2) s es t) (k : ι) :
    Run step guard (s k) (own k es) (t k) := by
  induction h with
  | refl s => exact Run.refl (s k)
  | @cons s u t e es hg hs _ ih =>
    obtain ⟨hmoved, hothers⟩ := interleave_eq_some hs
    by_cases hk : e.1 = k
    · subst hk
      have hown : own e.1 (e :: es) = e.2 :: own e.1 es := by simp [own]
      rw [hown]
      exact Run.cons hg hmoved ih
    · have hown : own k (e :: es) = own k es := by simp [own, hk]
      rw [hothers k fun heq => hk heq.symm] at ih
      rw [hown]
      exact ih

end Interleaving

end Runs
