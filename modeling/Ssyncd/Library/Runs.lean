import Mathlib.Tactic.Common

/-! Machines that take one labelled step after another, and the induction rule for what
holds along every run. A run may be limited to the steps that meet a condition. -/
namespace Runs
variable {S E : Type*}

/-- The states that a machine gets to by steps that meet a condition on the state before
them and their label. -/
inductive Reach (step : S → E → Option S) (ok : S → E → Prop) (s₀ : S) : S → Prop
  | start : Reach step ok s₀ s₀
  | next {s e s'} (reach : Reach step ok s₀ s) (h : ok s e) (hstep : step s e = some s') :
      Reach step ok s₀ s'

variable {step : S → E → Option S} {ok : S → E → Prop} {s₀ s : S}

/-- What holds at first and is kept by every step holds all along. -/
theorem Reach.invariant (hr : Reach step ok s₀ s) (Inv : S → Prop) (h₀ : Inv s₀)
    (hstep : ∀ s e s', Inv s → ok s e → step s e = some s' → Inv s') : Inv s := by
  induction hr with
  | start => exact h₀
  | next _ hok hs ih => exact hstep _ _ _ ih hok hs

theorem Reach.mono {ok' : S → E → Prop} (hr : Reach step ok s₀ s)
    (h : ∀ s e, ok s e → ok' s e) : Reach step ok' s₀ s := by
  induction hr with
  | start => exact .start
  | next _ hok hs ih => exact .next ih (h _ _ hok) hs

theorem Reach.trans {s' : S} (hr : Reach step ok s₀ s) (hr' : Reach step ok s s') :
    Reach step ok s₀ s' := by
  induction hr' with
  | start => exact hr
  | next _ hok hs ih => exact .next ih hok hs

/-- A run given by its labels, which ends where a step is not enabled. -/
def run (step : S → E → Option S) : S → List E → Option S
  | s, [] => some s
  | s, e::es => (step s e).bind fun s' => run step s' es

theorem run_append (es es' : List E) :
    run step s₀ (es ++ es') = (run step s₀ es).bind fun s => run step s es' := by
  induction es generalizing s₀ with
  | nil => rfl
  | cons e es ih =>
    rw [List.cons_append, run, run, Option.bind_assoc]
    exact congrArg _ (funext fun _ => ih)

/-- A machine that keeps related to another one step by step ends related to it. -/
theorem run_simulates {T : Type*} {step' : T → E → T} {R : S → T → Prop} {es : List E}
    (hstep : ∀ s t e s', e ∈ es → R s t → step s e = some s' → R s' (step' t e)) {t : T}
    (h : R s₀ t) (hrun : run step s₀ es = some s) : R s (es.foldl step' t) := by
  induction es generalizing s₀ t with
  | nil =>
    obtain rfl : s₀ = s := Option.some.inj hrun
    exact h
  | cons e es ih =>
    obtain ⟨s',hs,hrest⟩ := Option.bind_eq_some_iff.mp hrun
    exact ih (fun s t e s' he => hstep s t e s' (List.mem_cons_of_mem _ he))
      (hstep s₀ t e s' (List.mem_cons_self ..) h hs) hrest

theorem rel_mono {T : Type*} {R R' : S → T → Prop} (h : ∀ s t, R s t → R' s t) {r : Option S}
    {r' : Option T} (hrel : Option.Rel R r r') : Option.Rel R' r r' := by
  cases hrel with
  | none => exact .none
  | some hst => exact .some (h _ _ hst)

/-- Machines whose steps stay related, and have a result together, do so along every run. -/
theorem run_related {T : Type*} {step' : T → E → Option T} {R : S → T → Prop}
    (hstep : ∀ s t e, R s t → Option.Rel R (step s e) (step' t e)) {t : T} (h : R s₀ t) (es : List E) :
    Option.Rel R (run step s₀ es) (run step' t es) := by
  induction es generalizing s₀ t with
  | nil => exact .some h
  | cons e es ih =>
    have hfirst := hstep s₀ t e h
    unfold run
    generalize step s₀ e = r at hfirst ⊢
    generalize step' t e = r' at hfirst ⊢
    cases hfirst with
    | none => exact .none
    | some hrel => exact ih hrel

theorem reach_of_run {es : List E} (h : run step s₀ es = some s)
    (hok : ∀ s, ∀ e ∈ es, ok s e) : Reach step ok s₀ s := by
  induction es generalizing s₀ with
  | nil =>
    obtain rfl : s₀ = s := Option.some.inj h
    exact .start
  | cons e es ih =>
    obtain ⟨s',hs,hrest⟩ := Option.bind_eq_some_iff.mp h
    have hfirst : Reach step ok s₀ s' := .next .start (hok _ e (List.mem_cons_self ..)) hs
    exact hfirst.trans (ih hrest fun s e he => hok s e (List.mem_cons_of_mem _ he))

/-- A step that is only taken where a check passes. -/
def guarded (check : S → Bool) (step : S → E → Option S) (s : S) (e : E) : Option S :=
  if check s then step s e else none

theorem reach_of_guarded {check : S → Bool} {es : List E}
    (h : run (guarded check step) s₀ es = some s)
    (hok : ∀ s, check s = true → ∀ e ∈ es, ok s e) : Reach step ok s₀ s := by
  induction es generalizing s₀ with
  | nil =>
    obtain rfl : s₀ = s := Option.some.inj h
    exact .start
  | cons e es ih =>
    obtain ⟨s',hs,hrest⟩ := Option.bind_eq_some_iff.mp h
    unfold guarded at hs
    split at hs
    · next hcheck =>
      have hfirst : Reach step ok s₀ s' :=
        .next .start (hok _ hcheck e (List.mem_cons_self ..)) hs
      exact hfirst.trans (ih hrest fun s hs e he => hok s hs e (List.mem_cons_of_mem _ he))
    · contradiction

/-- Every state of a run, up to where a step is not enabled. -/
def Always (step : S → E → Option S) (P : S → Prop) : S → List E → Prop
  | s, [] => P s
  | s, e::es => P s ∧ ∀ s', step s e = some s' → Always step P s' es

/-- Every step of a run meets a condition on the state before it and its label. -/
def Meets (step : S → E → Option S) (ok : S → E → Prop) : S → List E → Prop
  | _, [] => True
  | s, e::es => ok s e ∧ ∀ s', step s e = some s' → Meets step ok s' es

theorem meets_of_forall {es : List E} (h : ∀ s, ∀ e ∈ es, ok s e) : Meets step ok s es := by
  induction es generalizing s with
  | nil => trivial
  | cons e es ih =>
    exact ⟨h s e (List.mem_cons_self ..),fun _ _ => ih fun s e he => h s e (List.mem_cons_of_mem _ he)⟩

theorem Meets.mono {ok' : S → E → Prop} {es : List E} (h : Meets step ok s es)
    (hmono : ∀ s e, ok s e → ok' s e) : Meets step ok' s es := by
  induction es generalizing s with
  | nil => trivial
  | cons e es ih => exact ⟨hmono s e h.1,fun s' hs => ih (h.2 s' hs)⟩

/-- Where a run meets the condition, so does what follows a part of it. -/
theorem Meets.rest {es es' : List E} (h : Meets step ok s₀ (es ++ es'))
    (hrun : run step s₀ es = some s) : Meets step ok s es' := by
  induction es generalizing s₀ with
  | nil =>
    obtain rfl : s₀ = s := Option.some.inj hrun
    exact h
  | cons e es ih =>
    obtain ⟨s',hs,hrest⟩ := Option.bind_eq_some_iff.mp hrun
    exact ih (h.2 s' hs) hrest

theorem Meets.first {es es' : List E} (h : Meets step ok s (es ++ es')) : Meets step ok s es := by
  induction es generalizing s with
  | nil => trivial
  | cons e es ih => exact ⟨h.1,fun s' hs => ih (h.2 s' hs)⟩

/-- A machine that can always go on. -/
theorem run_total (next : S → E → S) (es : List E) :
    run (fun s e => some (next s e)) s₀ es = some (es.foldl next s₀) := by
  induction es generalizing s₀ with
  | nil => rfl
  | cons e es ih => exact ih

/-- Every label of a run that comes to its end meets the condition somewhere. -/
theorem Meets.exists_of_run {es : List E} (h : Meets step ok s₀ es) (hrun : run step s₀ es = some s) :
    ∀ e ∈ es, ∃ s, ok s e := by
  induction es generalizing s₀ with
  | nil => exact fun _ he => absurd he List.not_mem_nil
  | cons e es ih =>
    obtain ⟨s',hs,hrest⟩ := Option.bind_eq_some_iff.mp hrun
    intro e' he'
    rcases List.mem_cons.mp he' with rfl | he'
    · exact ⟨s₀,h.1⟩
    · exact ih (h.2 s' hs) hrest e' he'

/-- What the steps that meet the condition keep, and every other step breaks, holds all along
exactly the runs whose steps all meet it. -/
theorem always_iff_meets {P : S → Prop} (Inv : S → Prop) (hinv : ∀ s, Inv s → P s)
    (hkeep : ∀ s e s', Inv s → ok s e → step s e = some s' → Inv s')
    (hbreak : ∀ s e, Inv s → ¬ok s e → ∃ s', step s e = some s' ∧ ¬P s') {es : List E}
    (h : Inv s) : Always step P s es ↔ Meets step ok s es := by
  induction es generalizing s with
  | nil => exact ⟨fun _ => trivial,fun _ => hinv s h⟩
  | cons e es ih =>
    by_cases hok : ok s e
    · have hrest := fun s' hs => ih (hkeep s e s' h hok hs)
      exact ⟨fun ⟨_,hall⟩ => ⟨hok,fun s' hs => (hrest s' hs).mp (hall s' hs)⟩,
        fun ⟨_,hall⟩ => ⟨hinv s h,fun s' hs => (hrest s' hs).mpr (hall s' hs)⟩⟩
    · obtain ⟨s',hs,hnot⟩ := hbreak s e h hok
      refine ⟨fun ⟨_,hall⟩ => absurd ?_ hnot,fun ⟨hmeets,_⟩ => absurd hmeets hok⟩
      have hs' := hall s' hs
      cases es with
      | nil => exact hs'
      | cons e es => exact hs'.1

section Reference
variable {T : Type*} {step' : T → E → T} {R : S → T → Prop} {fits safe : T → E → Prop}
  (hsafe : ∀ s t e, R s t → fits t e → safe t e → ∃ s', step s e = some s' ∧ R s' (step' t e))
  (hfault : ∀ s t e, R s t → fits t e → ¬safe t e → step s e = none)

include hsafe hfault

/-- A machine that follows a reference, and stops at its unsafe steps, has a result exactly where
the reference takes none. -/
theorem exists_run_iff_meets {t : T} {es : List E} (h : R s₀ t)
    (hfits : Meets (fun t e => some (step' t e)) fits t es) :
    (∃ s, run step s₀ es = some s) ↔ Meets (fun t e => some (step' t e)) safe t es := by
  induction es generalizing s₀ t with
  | nil => exact ⟨fun _ => trivial,fun _ => ⟨s₀,rfl⟩⟩
  | cons e es ih =>
    by_cases hok : safe t e
    · obtain ⟨s',hs,hrel⟩ := hsafe s₀ t e h hfits.1 hok
      have hrest := ih hrel (hfits.2 _ rfl)
      rw [run, hs, Option.bind_some, hrest]
      refine ⟨fun hmeets => ⟨hok,fun t' ht => ?_⟩,fun hmeets => hmeets.2 _ rfl⟩
      obtain rfl := Option.some.inj ht
      exact hmeets
    · rw [run, hfault s₀ t e h hfits.1 hok]
      simp only [Option.bind_none, reduceCtorEq, exists_false, false_iff]
      exact fun hmeets => hok hmeets.1

/-- The result that it has is the reference's. -/
theorem run_follows {t : T} {es : List E} (h : R s₀ t)
    (hfits : Meets (fun t e => some (step' t e)) fits t es) (hrun : run step s₀ es = some s) :
    R s (es.foldl step' t) := by
  induction es generalizing s₀ t with
  | nil =>
    obtain rfl : s₀ = s := Option.some.inj hrun
    exact h
  | cons e es ih =>
    by_cases hok : safe t e
    · obtain ⟨s',hs,hrel⟩ := hsafe s₀ t e h hfits.1 hok
      rw [run, hs, Option.bind_some] at hrun
      exact ih hrel (hfits.2 _ rfl) hrun
    · rw [run, hfault s₀ t e h hfits.1 hok] at hrun
      contradiction

end Reference

end Runs
