import Mathlib.Logic.Function.Basic
import Mathlib.Data.List.Induction

/-! Pointwise updates of partial maps, and what survives when a log of them is replayed.
An update either leaves a key alone, puts a value at it, or drops it; a replica that
starts behind catches up at exactly the keys that some later update touches. -/
namespace Overlay

/-- What one update does at one key. -/
inductive Effect (V : Type*)
  | keep
  | put (v : V)
  | drop
  deriving DecidableEq

namespace Effect
variable {V : Type*}

def act : Effect V → Option V → Option V
  | keep, old => old
  | put v, _ => some v
  | drop, _ => none

@[simp] theorem act_keep (old : Option V) : (keep : Effect V).act old = old := rfl
@[simp] theorem act_put (v : V) (old : Option V) : (put v).act old = some v := rfl
@[simp] theorem act_drop (old : Option V) : (drop : Effect V).act old = none := rfl

/-- The same update of an embedded value. -/
def map {W : Type*} (f : V → W) : Effect V → Effect W
  | keep => keep
  | put v => put (f v)
  | drop => drop

theorem act_map {W : Type*} (f : V → W) (e : Effect V) (old : Option V) :
    (e.map f).act (old.map f) = (e.act old).map f := by
  cases e <;> rfl

theorem map_ne_keep {W : Type*} (f : V → W) {e : Effect V} : e.map f ≠ keep ↔ e ≠ keep := by
  cases e <;> simp [map]

/-- An update that touches a key forgets what was there. -/
theorem act_touched {e : Effect V} (h : e ≠ keep) (a b : Option V) : e.act a = e.act b := by
  cases e with
  | keep => exact absurd rfl h
  | put v => rfl
  | drop => rfl

end Effect

variable {K V A : Type*} (eff : A → K → Effect V)

/-- One update, at every key at once. -/
def step (m : K → Option V) (a : A) : K → Option V := fun k => (eff a k).act (m k)

/-- A whole log, oldest update first. -/
def replay (m : K → Option V) (log : List A) : K → Option V := log.foldl (step eff) m

def Touched (log : List A) (k : K) : Prop := ∃ a ∈ log, eff a k ≠ .keep

@[simp] theorem replay_nil (m : K → Option V) : replay eff m [] = m := rfl

@[simp] theorem replay_cons (m : K → Option V) (a : A) (log : List A) :
    replay eff m (a::log) = replay eff (step eff m a) log := rfl

@[simp] theorem replay_append (m : K → Option V) (log log' : List A) :
    replay eff m (log ++ log') = replay eff (replay eff m log) log' := by
  simp [replay, List.foldl_append]

theorem replay_concat (m : K → Option V) (log : List A) (a : A) :
    replay eff m (log ++ [a]) = step eff (replay eff m log) a := by simp

theorem touched_append (log log' : List A) (k : K) :
    Touched eff (log ++ log') k ↔ Touched eff log k ∨ Touched eff log' k := by
  simp only [Touched, List.mem_append]
  constructor
  · rintro ⟨a, ha | ha, hk⟩
    · exact Or.inl ⟨a, ha, hk⟩
    · exact Or.inr ⟨a, ha, hk⟩
  · rintro (⟨a, ha, hk⟩ | ⟨a, ha, hk⟩)
    · exact ⟨a, Or.inl ha, hk⟩
    · exact ⟨a, Or.inr ha, hk⟩

theorem replay_untouched (m : K → Option V) {log : List A} {k : K}
    (h : ¬ Touched eff log k) : replay eff m log k = m k := by
  induction log generalizing m with
  | nil => rfl
  | cons a log ih =>
    have hlog : ¬ Touched eff log k := fun ⟨b, hb, hk⟩ => h ⟨b, by simp [hb], hk⟩
    have ha : eff a k = .keep := by
      by_contra hk
      exact h ⟨a, by simp, hk⟩
    rw [replay_cons, ih _ hlog, step, ha, Effect.act_keep]

/-- The value at a touched key does not depend on the starting map. -/
theorem replay_touched (m m' : K → Option V) {log : List A} {k : K}
    (h : Touched eff log k) : replay eff m log k = replay eff m' log k := by
  induction log generalizing m m' with
  | nil => simp [Touched] at h
  | cons a log ih =>
    by_cases hlog : Touched eff log k
    · exact ih _ _ hlog
    · have ha : eff a k ≠ .keep := by
        rintro hk
        obtain ⟨b, hb, hbk⟩ := h
        rcases List.mem_cons.mp hb with rfl | hb
        · exact hbk hk
        · exact hlog ⟨b, hb, hbk⟩
      rw [replay_cons, replay_cons, replay_untouched eff _ hlog, replay_untouched eff _ hlog]
      exact Effect.act_touched ha _ _

/-- A log that does one thing at each key. -/
structure Patch (log : List A) (effect : K → Effect V) : Prop where
  only : ∀ a ∈ log, ∀ k, eff a k ≠ .keep → eff a k = effect k
  covers : ∀ k, effect k ≠ .keep → Touched eff log k

/-- A patch replayed is its effect, once. -/
theorem Patch.replay {log : List A} {effect : K → Effect V} (h : Patch eff log effect)
    (m : K → Option V) (k : K) : Overlay.replay eff m log k = (effect k).act (m k) := by
  have honce : ∀ log : List A, (∀ a ∈ log, eff a k ≠ .keep → eff a k = effect k) →
      Touched eff log k → Overlay.replay eff m log k = (effect k).act (m k) := by
    intro log
    induction log using List.reverseRecOn with
    | nil => exact fun _ ⟨_,ha,_⟩ => absurd ha List.not_mem_nil
    | append_singleton log a ih =>
      intro hone ht
      rw [replay_concat, step]
      by_cases ha : eff a k = .keep
      · rw [ha, Effect.act_keep]
        refine ih (fun b hb => hone b (List.mem_append_left _ hb)) ?_
        rcases (touched_append eff log [a] k).mp ht with ht | ⟨b,hb,hbk⟩
        · exact ht
        · rw [List.mem_singleton.mp hb] at hbk
          exact absurd ha hbk
      · rw [hone a (by simp) ha]
        rw [hone a (by simp) ha] at ha
        exact Effect.act_touched ha _ _
  by_cases ht : Touched eff log k
  · exact honce log (fun a ha => h.only a ha k) ht
  · have hkeep : effect k = .keep := by
      by_contra hk
      exact ht (h.covers k hk)
    rw [replay_untouched eff m ht, hkeep, Effect.act_keep]

/-- A replica that holds nothing but what the original holds. -/
def Sub (r m : K → Option V) : Prop := ∀ k v, r k = some v → m k = some v

theorem sub_empty (m : K → Option V) : Sub (fun _ => none) m := by simp [Sub]

theorem Sub.eq_none {r m : K → Option V} (h : Sub r m) {k : K} (hm : m k = none) : r k = none := by
  cases hr : r k with
  | none => rfl
  | some v =>
    have := h k v hr
    rw [hm] at this
    contradiction

/-- Replica and original may take the same update together. -/
theorem Sub.step {r m : K → Option V} (h : Sub r m) (a : A) : Sub (step eff r a) (step eff m a) := by
  intro k v hr
  simp only [Overlay.step] at hr ⊢
  cases ha : eff a k with
  | keep => rw [ha] at hr; exact h k v hr
  | put w => rw [ha] at hr; exact hr
  | drop => rw [ha] at hr; exact hr

/-- An update that the original already satisfies may be sent to a replica at any time. -/
theorem Sub.step_of_fixed {r m : K → Option V} (h : Sub r m) {a : A} (hfix : Overlay.step eff m a = m) :
    Sub (Overlay.step eff r a) m := by
  have := h.step eff a
  rwa [hfix] at this

theorem replay_fixed {m : K → Option V} {log : List A} (h : ∀ a ∈ log, step eff m a = m) :
    replay eff m log = m := by
  induction log with
  | nil => rfl
  | cons a log ih =>
    rw [replay_cons, h a (by simp)]
    exact ih (fun b hb => h b (by simp [hb]))

/-- A log of updates that the original satisfies and that names each of its keys. -/
structure Snapshot (m : K → Option V) (log : List A) : Prop where
  fixed : ∀ a ∈ log, step eff m a = m
  covers : ∀ k, m k ≠ none → Touched eff log k

/-- A snapshot brings every partial replica up to date. -/
theorem Sub.replay_snapshot {r m : K → Option V} (h : Sub r m) {log : List A}
    (hs : Snapshot eff m log) : Overlay.replay eff r log = m := by
  funext k
  by_cases hk : Touched eff log k
  · rw [replay_touched eff r m hk, replay_fixed eff hs.fixed]
  · have hm : m k = none := by
      by_contra hm
      exact hk (hs.covers k hm)
    rw [replay_untouched eff r hk, h.eq_none hm, hm]

/-- A stale replica is repaired exactly where the log touches what it should not hold. -/
theorem replay_eq_empty_replay_iff (r : K → Option V) (log : List A) :
    replay eff r log = replay eff (fun _ => none) log ↔ ∀ k, r k ≠ none → Touched eff log k := by
  constructor
  · intro h k hr
    by_contra hk
    have hk' := congrFun h k
    rw [replay_untouched eff _ hk, replay_untouched eff _ hk] at hk'
    exact hr hk'
  · intro h
    funext k
    by_cases hk : Touched eff log k
    · exact replay_touched eff _ _ hk
    · rw [replay_untouched eff _ hk, replay_untouched eff _ hk]
      by_contra hr
      exact hk (h k hr)

section Lossy
variable {eff} {lossy : A → K → Effect V}

/-- The second semantics also drops keys which the reference leaves alone. -/
def Loses (eff lossy : A → K → Effect V) : Prop :=
  ∀ a k, lossy a k = eff a k ∨ eff a k = .keep ∧ lossy a k = .drop

/-- One update that loses something is noticed exactly where a value was there to lose. -/
theorem Loses.step_iff (h : Loses eff lossy) (m : K → Option V) (a : A) :
    step lossy m a = step eff m a ↔ ∀ k, lossy a k ≠ eff a k → m k = none := by
  constructor
  · intro heq k hne
    obtain ⟨hkeep,hdrop⟩ := (h a k).resolve_left hne
    have hk := congrFun heq k
    simpa [step, hkeep, hdrop] using hk.symm
  · intro hnone
    funext k
    rcases h a k with heq | ⟨hkeep,hdrop⟩
    · rw [step, step, heq]
    · have hm := hnone k (by simp [hkeep, hdrop])
      simp [step, hkeep, hdrop, hm]

/-- The two semantics agree all along a log exactly when no update of it drops a live value. -/
theorem Loses.replay_iff (h : Loses eff lossy) (m : K → Option V) (log : List A) :
    (∀ before, before <+: log → replay lossy m before = replay eff m before) ↔
      ∀ before a, before ++ [a] <+: log → ∀ k, lossy a k ≠ eff a k → replay eff m before k = none := by
  constructor
  · intro hagree before a hpart
    have hbefore := hagree before ((List.prefix_append before [a]).trans hpart)
    have hnext := hagree (before ++ [a]) hpart
    rw [replay_concat, replay_concat, hbefore] at hnext
    exact (h.step_iff _ a).mp hnext
  · intro hlive before
    induction before using List.reverseRecOn with
    | nil => exact fun _ => rfl
    | append_singleton before a ih =>
      intro hpart
      have hbefore := ih ((List.prefix_append before [a]).trans hpart)
      rw [replay_concat, replay_concat, hbefore]
      exact (h.step_iff _ a).mpr (hlive before a hpart)

end Lossy
end Overlay
