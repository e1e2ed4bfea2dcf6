import Ssyncd.Store.HttpStore
import Ssyncd.Store.RecentStore

/-! Both stores of a node as one flat map, and the messages that update it. -/
namespace Ssyncd
open Overlay Http Recent

/-- The actions that a master sends to its backups. -/
inductive Message
  | http (action : HttpAction)
  | recent (xaction : XtRecentAction)
  deriving DecidableEq

/-- The stores that a master and a backup both keep. -/
structure BaseSync where
  httpSessionData : HttpSessionData := ∅
  recentData : RecentData := ∅
  deriving DecidableEq

abbrev NodeKey := SessionKey ⊕ EntryKey
abbrev NodeValue := HttpSession ⊕ XtRecentEntry

def messageEffect : Message → NodeKey → Effect NodeValue
  | .http action, .inl k => (sessionEffect action k).map .inl
  | .recent xaction, .inr k => (recentEffect xaction k).map .inr
  | _, _ => .keep

namespace BaseSync

def apply (d : BaseSync) : Message → BaseSync
  | .http action => { d with httpSessionData := applyHttpAction d.httpSessionData action }
  | .recent xaction => { d with recentData := applyRecentAction d.recentData xaction }

def clearFarm (d : BaseSync) (farmName : Bytes) : BaseSync :=
  { d with httpSessionData := clearHttpFarmData d.httpSessionData farmName }

/-- Both stores read as one flat partial map. -/
def view (d : BaseSync) : NodeKey → Option NodeValue
  | .inl k => (sessions d.httpSessionData k).map .inl
  | .inr k => (entries d.recentData k).map .inr

structure WellFormed (d : BaseSync) : Prop where
  oneService : OneService d.httpSessionData
  sessions : Http.Keyed d.httpSessionData
  entries : Recent.Keyed d.recentData

theorem wellFormed_empty : WellFormed {} := ⟨oneService_empty,Http.keyed_empty,Recent.keyed_empty⟩

theorem WellFormed.apply {d : BaseSync} (h : d.WellFormed) (m : Message) :
    (d.apply m).WellFormed := by
  cases m with
  | http action =>
    exact ⟨h.oneService.applyHttpAction action,h.sessions.applyHttpAction h.oneService action,
      h.entries⟩
  | recent xaction => exact ⟨h.oneService,h.sessions,h.entries.applyRecentAction xaction⟩

theorem WellFormed.clearFarm {d : BaseSync} (h : d.WellFormed) (farmName : Bytes) :
    (d.clearFarm farmName).WellFormed :=
  ⟨h.oneService.clearHttpFarmData farmName,h.sessions.clearHttpFarmData farmName,h.entries⟩

/-- A message applied to the stores is one pointwise update of the flat map. -/
theorem view_apply {d : BaseSync} (h : OneService d.httpSessionData) (m : Message) :
    (d.apply m).view = step messageEffect d.view m := by
  funext k
  cases m with
  | http action =>
    cases k with
    | inl k =>
      simp only [view, apply, sessions_applyHttpAction h, step, messageEffect, Effect.act_map]
    | inr k => rfl
  | recent xaction =>
    cases k with
    | inl k => rfl
    | inr k =>
      simp only [view, apply, entries_applyRecentAction, step, messageEffect, Effect.act_map]

theorem view_clearFarm (d : BaseSync) (farmName : Bytes) :
    (d.clearFarm farmName).view =
      step messageEffect d.view (.http (clearRequest farmName)) := by
  funext k
  cases k with
  | inl k =>
    simp only [view, clearFarm, sessions_clearHttpFarmData, step, messageEffect, Effect.act_map]
  | inr k => rfl

theorem view_empty : view {} = fun _ => none := by
  funext k
  cases k with
  | inl k => simp [view]
  | inr k => simp [view]

theorem view_inl (d : BaseSync) (k : SessionKey) :
    d.view (.inl k) = (Http.sessions d.httpSessionData k).map .inl := rfl

theorem view_inr (d : BaseSync) (k : EntryKey) :
    d.view (.inr k) = (Recent.entries d.recentData k).map .inr := rfl

/-- The flat maps agree on sessions exactly when the HTTP stores do. -/
theorem sessions_eq_iff (d d' : BaseSync) :
    Http.sessions d.httpSessionData = Http.sessions d'.httpSessionData ↔
      ∀ k, d.view (.inl k) = d'.view (.inl k) := by
  constructor
  · intro h k
    rw [view_inl, view_inl, h]
  · intro h
    funext k
    exact Option.map_injective (fun _ _ => Sum.inl.inj) (h k)

theorem entries_eq_iff (d d' : BaseSync) :
    Recent.entries d.recentData = Recent.entries d'.recentData ↔
      ∀ k, d.view (.inr k) = d'.view (.inr k) := by
  constructor
  · intro h k
    rw [view_inr, view_inr, h]
  · intro h
    funext k
    exact Option.map_injective (fun _ _ => Sum.inr.inj) (h k)

/-- The stores after a log of messages. -/
def applyAll (d : BaseSync) (log : List Message) : BaseSync := log.foldl apply d

theorem applyAll_spec {d : BaseSync} (h : d.WellFormed) (log : List Message) :
    (d.applyAll log).WellFormed ∧
      (d.applyAll log).view = replay messageEffect d.view log := by
  induction log generalizing d with
  | nil => exact ⟨h,rfl⟩
  | cons m log ih =>
    obtain ⟨hwf,hview⟩ := ih (h.apply m)
    refine ⟨hwf,?_⟩
    rw [replay_cons, ← view_apply h.oneService]
    exact hview

/-- What a replica that started empty holds after a log of messages. -/
theorem view_applyAll_empty (log : List Message) :
    (applyAll {} log).view = replay messageEffect (fun _ => none) log := by
  rw [(applyAll_spec wellFormed_empty log).2, view_empty]

/-- The messages that a snapshot for one descriptor is made of: the entries, then the sessions. -/
def recentRequests (d : BaseSync) (fd : Int) : List XtRecentAction :=
  (entryActions d.recentData).map fun a => { a with fd }

def httpRequests (d : BaseSync) (fd : Int) : List HttpAction :=
  (sessionActions d.httpSessionData).map fun a => { a with fd }

theorem fixed_recentRequests {d : BaseSync} (h : d.WellFormed) {fd : Int} {a : XtRecentAction}
    (ha : a ∈ d.recentRequests fd) : step messageEffect d.view (.recent a) = d.view := by
  obtain ⟨b,hb,rfl⟩ := List.mem_map.mp ha
  have hfix := (snapshot_entryActions h.entries).fixed b hb
  funext k
  cases k with
  | inl k => rfl
  | inr k =>
    rw [step, view_inr]
    change ((recentEffect b k).map Sum.inr).act _ = _
    rw [Effect.act_map]
    exact congrArg _ (congrFun hfix k)

theorem fixed_httpRequests {d : BaseSync} (h : d.WellFormed) {fd : Int} {a : HttpAction}
    (ha : a ∈ d.httpRequests fd) : step messageEffect d.view (.http a) = d.view := by
  obtain ⟨b,hb,rfl⟩ := List.mem_map.mp ha
  have hfix := (snapshot_sessionActions h.oneService h.sessions).fixed b hb
  funext k
  cases k with
  | inl k =>
    rw [step, view_inl]
    change ((sessionEffect b k).map Sum.inl).act _ = _
    rw [Effect.act_map]
    exact congrArg _ (congrFun hfix k)
  | inr k => rfl

theorem touched_recentRequests {d : BaseSync} (h : d.WellFormed) (fd : Int) {k : EntryKey}
    (hk : d.view (.inr k) ≠ none) :
    Touched messageEffect ((d.recentRequests fd).map .recent) (.inr k) := by
  have hne : Recent.entries d.recentData k ≠ none := by simpa [view_inr] using hk
  obtain ⟨a,ha,hak⟩ := (snapshot_entryActions h.entries).covers k hne
  exact ⟨_,List.mem_map_of_mem (List.mem_map_of_mem ha),(Effect.map_ne_keep _).mpr hak⟩

theorem touched_httpRequests {d : BaseSync} (h : d.WellFormed) (fd : Int) {k : SessionKey}
    (hk : d.view (.inl k) ≠ none) :
    Touched messageEffect ((d.httpRequests fd).map .http) (.inl k) := by
  have hne : Http.sessions d.httpSessionData k ≠ none := by simpa [view_inl] using hk
  obtain ⟨a,ha,hak⟩ := (snapshot_sessionActions h.oneService h.sessions).covers k hne
  exact ⟨_,List.mem_map_of_mem (List.mem_map_of_mem ha),(Effect.map_ne_keep _).mpr hak⟩

section Part
variable {κ : Type} (part : κ → NodeKey)

/-- Messages as updates of a part of the flat map. -/
def effectOn (m : Message) (k : κ) : Effect NodeValue := messageEffect m (part k)

def viewOn (d : BaseSync) (k : κ) : Option NodeValue := d.view (part k)

theorem viewOn_empty : viewOn part {} = fun _ => none := by
  funext k
  rw [viewOn, view_empty]

theorem viewOn_apply {d : BaseSync} (h : OneService d.httpSessionData) (m : Message) :
    (d.apply m).viewOn part = step (effectOn part) (d.viewOn part) m := by
  funext k
  rw [viewOn, view_apply h]
  rfl

theorem viewOn_clearFarm (d : BaseSync) (farmName : Bytes) :
    (d.clearFarm farmName).viewOn part =
      step (effectOn part) (d.viewOn part) (.http (clearRequest farmName)) := by
  funext k
  rw [viewOn, view_clearFarm]
  rfl

theorem replay_effectOn (m : NodeKey → Option NodeValue) (log : List Message) :
    replay (effectOn part) (fun k => m (part k)) log =
      fun k => replay messageEffect m log (part k) := by
  induction log generalizing m with
  | nil => rfl
  | cons a log ih => exact ih (step messageEffect m a)

theorem viewOn_applyAll {d : BaseSync} (h : d.WellFormed) (log : List Message) :
    (d.applyAll log).viewOn part = replay (effectOn part) (d.viewOn part) log := by
  have hview := (applyAll_spec h log).2
  have hreplay := replay_effectOn part d.view log
  funext k
  rw [viewOn, hview]
  exact (congrFun hreplay k).symm

/-- The listeners whose data the part contains are running, or have no data. -/
structure Served (httpRunning recentRunning : Bool) (d : BaseSync) : Prop where
  http : httpRunning = true ∨ (∀ k, ∃ e, part k = .inr e) ∨ d.httpSessionData = ∅
  recent : recentRunning = true ∨ ∀ k, ∃ e, part k = .inl e

/-- The messages of a snapshot, from the listeners that run. -/
def requests (httpRunning recentRunning : Bool) (d : BaseSync) (fd : Int) : List Message :=
  (if recentRunning then (d.recentRequests fd).map .recent else []) ++
    if httpRunning then (d.httpRequests fd).map .http else []

theorem mem_requests {httpRunning recentRunning : Bool} {d : BaseSync} {fd : Int} {m : Message}
    (h : m ∈ requests httpRunning recentRunning d fd) :
    (∃ a ∈ d.recentRequests fd, m = .recent a) ∨ ∃ a ∈ d.httpRequests fd, m = .http a := by
  rcases List.mem_append.mp h with hm | hm
  · split at hm
    · obtain ⟨a,ha,rfl⟩ := List.mem_map.mp hm
      exact .inl ⟨a,ha,rfl⟩
    · simp at hm
  · split at hm
    · obtain ⟨a,ha,rfl⟩ := List.mem_map.mp hm
      exact .inr ⟨a,ha,rfl⟩
    · simp at hm

variable {part}

/-- A whole snapshot names everything the watched part holds and changes none of it. -/
theorem snapshot_requests {d : BaseSync} (h : d.WellFormed) {httpRunning recentRunning : Bool}
    (hserved : Served part httpRunning recentRunning d) (fd : Int) :
    Snapshot (effectOn part) (d.viewOn part) (requests httpRunning recentRunning d fd) where
  fixed m hm := by
    funext k
    rcases mem_requests hm with ⟨a,ha,rfl⟩ | ⟨a,ha,rfl⟩
    · exact congrFun (fixed_recentRequests h ha) (part k)
    · exact congrFun (fixed_httpRequests h ha) (part k)
  covers k hk := by
    change Touched messageEffect _ (part k)
    unfold viewOn at hk
    rw [requests, touched_append]
    cases hp : part k with
    | inl key =>
      rcases hserved.http with hrun | hall | hempty
      · rw [hp] at hk
        rw [if_pos hrun]
        exact .inr (touched_httpRequests h fd hk)
      · obtain ⟨e,he⟩ := hall k
        rw [hp] at he
        contradiction
      · rw [hp, view_inl, hempty] at hk
        simp at hk
    | inr key =>
      rcases hserved.recent with hrun | hall
      · rw [hp] at hk
        rw [if_pos hrun]
        exact .inl (touched_recentRequests h fd hk)
      · obtain ⟨e,he⟩ := hall k
        rw [hp] at he
        contradiction

/-- HTTP messages leave a part alone that holds entries only. -/
theorem step_http_of_entries (hall : ∀ k, ∃ e, part k = .inr e) (view : κ → Option NodeValue)
    (a : HttpAction) : step (effectOn part) view (.http a) = view := by
  funext k
  obtain ⟨e,he⟩ := hall k
  simp [step, effectOn, he, messageEffect]

theorem viewOn_of_entries (hall : ∀ k, ∃ e, part k = .inr e) (d : BaseSync)
    (httpSessionData : HttpSessionData) : viewOn part { d with httpSessionData } = d.viewOn part := by
  funext k
  obtain ⟨e,he⟩ := hall k
  simp [viewOn, he, view]

end Part

end BaseSync
end Ssyncd
