import Ssyncd.Http
import Ssyncd.Library.Overlay
import Ssyncd.Library.Table

/-! The nested session store against the flat map it stands for. The store keeps one
service per listener: creating a service discards the listener's other services. -/
namespace Ssyncd
namespace Http
open Overlay

def HttpAction.Sets (a : HttpAction) : Prop :=
  a.action = .named .sessAdd ∨ a.action = .named .sessUpdate

instance (a : HttpAction) : Decidable a.Sets := inferInstanceAs (Decidable (_ ∨ _))

/-- What each action is for, on the flat map (farm, listener, service, key) to session. -/
def referenceEffect (a : HttpAction) (k : SessionKey) : Effect HttpSession :=
  match a.action with
  | .named .clearData => if k.farm = a.farmName then .drop else .keep
  | .named .sessUpdate | .named .sessAdd => if k = a.sessionKey then .put a.session else .keep
  | .named .sessDelete => if k = a.sessionKey then .drop else .keep
  | _ => .keep

/-- A key of another service under the listener to which the action adds. -/
def Rival (a : HttpAction) (k : SessionKey) : Prop :=
  k.farm = a.farmName ∧ k.listener = a.listener ∧ k.service ≠ a.service

instance (a : HttpAction) (k : SessionKey) : Decidable (Rival a k) :=
  inferInstanceAs (Decidable (_ ∧ _))

/-- What the code does on the flat map: an added session also evicts its rivals. -/
def sessionEffect (a : HttpAction) (k : SessionKey) : Effect HttpSession :=
  if a.Sets ∧ Rival a k then .drop else referenceEffect a k

/-- No listener of the store holds two services. -/
def OneService (data : HttpSessionData) : Prop :=
  ∀ f l s s', s ∈ services data f l → s' ∈ services data f l → s = s'

theorem oneService_empty : OneService ∅ := by simp [OneService]

theorem services_insert_listeners (data : HttpSessionData) (f f' : Bytes) (farm : Listeners)
    (l' : UInt32) :
    services (data.insert f farm) f' l' =
      if f = f' then farm.getD l' ∅ else services data f' l' := by
  rw [services, Table.getD_insert_eq]
  split <;> rfl

/-- Storing one listener's services changes that listener alone. -/
theorem services_insert (data : HttpSessionData) (f f' : Bytes) (l l' : UInt32) (m : Services) :
    services (data.insert f ((data.getD f ∅).insert l m)) f' l' =
      if f = f' ∧ l = l' then m else services data f' l' := by
  rw [services_insert_listeners, Table.getD_insert_eq]
  by_cases hf : f = f'
  · subst hf
    by_cases hl : l = l' <;> simp [hl, services]
  · simp [hf]

/-- The session of one service of a listener. -/
def look (m : Services) (s : UInt32) (key : Bytes) : Option HttpSession :=
  (m.getD s {}).sessions[key]?

theorem sessions_eq_look (data : HttpSessionData) (k : SessionKey) :
    sessions data k = look (services data k.farm k.listener) k.service k.key := rfl

theorem look_of_not_mem {m : Services} {s : UInt32} (h : s ∉ m) (key : Bytes) :
    look m s key = none := by
  simp [look, Std.ExtTreeMap.getD_eq_fallback h]

theorem look_insert (m : Services) (s s' : UInt32) (service : HttpService) (key : Bytes) :
    look (m.insert s service) s' key = if s = s' then service.sessions[key]? else look m s' key := by
  rw [look, Table.getD_insert_eq]
  split <;> rfl

/-- A listener's services after a session was added. -/
def addSession (old : Services) (a : HttpAction) : Services :=
  let kept := if a.service ∈ old then old else ∅
  let service := kept.getD a.service {}
  kept.insert a.service
    { service with sessions := service.sessions.insert a.session.key a.session }

theorem applyHttpAction_sets (data : HttpSessionData) {a : HttpAction} (h : a.Sets) :
    applyHttpAction data a = data.insert a.farmName ((data.getD a.farmName ∅).insert a.listener
      (addSession (services data a.farmName a.listener) a)) := by
  have hmem : (a.listener ∉ data.getD a.farmName ∅ ∨
      a.service ∉ (data.getD a.farmName ∅).getD a.listener ∅) ↔
      a.service ∉ services data a.farmName a.listener := by
    constructor
    · rintro (hl | hs)
      · simp [services, Std.ExtTreeMap.getD_eq_fallback hl]
      · exact hs
    · exact Or.inr
  rcases h with h | h <;>
  · simp only [applyHttpAction, h, hmem, addSession]
    by_cases hs : a.service ∈ services data a.farmName a.listener
    · simp only [hs, not_true_eq_false, if_false, if_true]
      rfl
    · simp [hs, Table.insert_insert]

/-- A listener's services after a session was deleted. -/
def eraseSession (old : Services) (a : HttpAction) : Services :=
  let service := old.getD a.service {}
  if a.service ∈ old ∧ a.session.key ∈ service.sessions then
    old.insert a.service { service with sessions := service.sessions.erase a.session.key }
  else old

theorem eraseSession_of_absent {old : Services} {a : HttpAction}
    (h : ¬ (a.service ∈ old ∧ a.session.key ∈ (old.getD a.service {}).sessions)) :
    eraseSession old a = old := if_neg h

theorem services_delete (data : HttpSessionData) {a : HttpAction}
    (h : a.action = .named .sessDelete) (f : Bytes) (l : UInt32) :
    services (applyHttpAction data a) f l =
      if a.farmName = f ∧ a.listener = l then eraseSession (services data f l) a
      else services data f l := by
  simp only [applyHttpAction, h]
  split
  · next hin =>
    rw [services_insert]
    by_cases hk : a.farmName = f ∧ a.listener = l
    · obtain ⟨rfl, rfl⟩ := hk
      simp only [and_self, if_true]
      exact (if_pos hin.2).symm
    · simp [hk]
  · next hout =>
    rw [services_insert_listeners]
    by_cases hf : a.farmName = f
    · subst hf
      by_cases hl : a.listener = l
      · subst hl
        have hnot : ¬ (a.service ∈ services data a.farmName a.listener ∧
            a.session.key ∈ ((services data a.farmName a.listener).getD a.service {}).sessions) := by
          rintro hin
          refine hout ⟨?_, hin⟩
          by_contra hl
          rw [services, Std.ExtTreeMap.getD_eq_fallback hl] at hin
          simp at hin
        rw [if_pos rfl, if_pos ⟨rfl, rfl⟩, eraseSession_of_absent hnot]
        rfl
      · simp [hl, services]
    · simp [hf]

theorem services_clear (data : HttpSessionData) {a : HttpAction}
    (h : a.action = .named .clearData) (f : Bytes) (l : UInt32) :
    services (applyHttpAction data a) f l =
      if a.farmName = f then ∅ else services data f l := by
  simp only [applyHttpAction, h, services_insert_listeners]
  simp

theorem services_clearHttpFarmData (data : HttpSessionData) (farmName f : Bytes) (l : UInt32) :
    services (clearHttpFarmData data farmName) f l =
      if farmName = f then ∅ else services data f l := by
  unfold clearHttpFarmData
  split
  · simp [services_insert_listeners]
  · next hout =>
    by_cases hf : farmName = f
    · subst hf
      simp [services, Std.ExtTreeMap.getD_eq_fallback hout]
    · simp [hf]

/-- An action is an addition, a deletion, a clear, or leaves the store as it is. -/
theorem action_cases (a : HttpAction) :
    a.Sets ∨ a.action = .named .sessDelete ∨ a.action = .named .clearData ∨
      ((∀ data, applyHttpAction data a = data) ∧ ¬ a.Sets ∧ ∀ k, referenceEffect a k = .keep) := by
  rcases h : a.action with t | ⟨b, hb⟩
  · cases t <;> simp [HttpAction.Sets, applyHttpAction, referenceEffect, h]
  · simp [HttpAction.Sets, applyHttpAction, referenceEffect, h]

theorem mem_addSession {old : Services} {a : HttpAction} {s : UInt32}
    (hone : ∀ s s', s ∈ old → s' ∈ old → s = s') : s ∈ addSession old a ↔ s = a.service := by
  unfold addSession
  by_cases hs : a.service ∈ old
  · simp only [hs, if_true, Std.ExtTreeMap.mem_insert, Std.compare_eq_iff_eq]
    constructor
    · rintro (h | h)
      · exact h.symm
      · exact hone _ _ h hs
    · exact fun h => Or.inl h.symm
  · simp only [hs, if_false, Std.ExtTreeMap.mem_insert, Std.compare_eq_iff_eq,
      Std.ExtTreeMap.not_mem_empty, or_false]
    exact eq_comm

theorem mem_eraseSession {old : Services} {a : HttpAction} {s : UInt32}
    (h : s ∈ eraseSession old a) : s ∈ old := by
  unfold eraseSession at h
  dsimp only at h
  split at h
  · next hin =>
    simp only [Std.ExtTreeMap.mem_insert, Std.compare_eq_iff_eq] at h
    rcases h with rfl | h
    · exact hin.1
    · exact h
  · exact h

theorem services_sets (data : HttpSessionData) {a : HttpAction} (h : a.Sets) (f : Bytes)
    (l : UInt32) :
    services (applyHttpAction data a) f l =
      if a.farmName = f ∧ a.listener = l then addSession (services data f l) a
      else services data f l := by
  rw [applyHttpAction_sets data h, services_insert]
  split
  · next hk =>
    obtain ⟨rfl, rfl⟩ := hk
    rfl
  · rfl

/-- Starting from one service per listener, a listener never holds two. -/
theorem OneService.applyHttpAction {data : HttpSessionData} (h : OneService data)
    (a : HttpAction) : OneService (applyHttpAction data a) := by
  intro f l s s' hs hs'
  rcases action_cases a with ha | ha | ha | ⟨ha, _⟩
  · rw [services_sets data ha] at hs hs'
    split at hs
    · next hk =>
      rw [if_pos hk] at hs'
      rw [(mem_addSession (h f l)).mp hs, (mem_addSession (h f l)).mp hs']
    · next hk =>
      rw [if_neg hk] at hs'
      exact h f l s s' hs hs'
  · rw [services_delete data ha] at hs hs'
    split at hs
    · next hk =>
      rw [if_pos hk] at hs'
      exact h f l s s' (mem_eraseSession hs) (mem_eraseSession hs')
    · next hk =>
      rw [if_neg hk] at hs'
      exact h f l s s' hs hs'
  · rw [services_clear data ha] at hs hs'
    split at hs
    · simp at hs
    · next hk =>
      rw [if_neg hk] at hs'
      exact h f l s s' hs hs'
  · rw [ha] at hs hs'
    exact h f l s s' hs hs'

theorem OneService.clearHttpFarmData {data : HttpSessionData} (h : OneService data)
    (farmName : Bytes) : OneService (clearHttpFarmData data farmName) := by
  intro f l s s' hs hs'
  rw [services_clearHttpFarmData] at hs hs'
  split at hs
  · simp at hs
  · next hk =>
    rw [if_neg hk] at hs'
    exact h f l s s' hs hs'

theorem look_kept (old : Services) (service : UInt32) (key : Bytes) :
    look (if service ∈ old then old else ∅) service key = look old service key := by
  split
  · rfl
  · next h => rw [look_of_not_mem h, look_of_not_mem (by simp)]

theorem look_addSession {old : Services} {a : HttpAction}
    (hone : ∀ s s', s ∈ old → s' ∈ old → s = s') (s : UInt32) (key : Bytes) :
    look (addSession old a) s key =
      if s = a.service then if key = a.session.key then some a.session else look old s key
      else none := by
  by_cases hs : s = a.service
  · subst hs
    simp only [addSession, look_insert, if_true, Std.ExtTreeMap.getElem?_insert,
      Std.compare_eq_iff_eq]
    by_cases hk : key = a.session.key
    · simp [hk]
    · rw [if_neg (fun h => hk h.symm), if_neg hk]
      exact look_kept old a.service key
  · have hnot : s ∉ (if a.service ∈ old then old else ∅) := by
      split
      · next hin => exact fun h => hs (hone s a.service h hin)
      · simp
    rw [if_neg hs, addSession, look_insert, if_neg (fun h => hs h.symm), look_of_not_mem hnot]

theorem look_eraseSession (old : Services) (a : HttpAction) (s : UInt32) (key : Bytes) :
    look (eraseSession old a) s key =
      if s = a.service ∧ key = a.session.key then none else look old s key := by
  by_cases hin : a.service ∈ old ∧ a.session.key ∈ (old.getD a.service {}).sessions
  · rw [eraseSession, if_pos hin, look_insert]
    by_cases hs : s = a.service
    · subst hs
      simp only [if_true, true_and, Std.ExtTreeMap.getElem?_erase, Std.compare_eq_iff_eq]
      by_cases hk : key = a.session.key
      · simp [hk]
      · rw [if_neg (fun h => hk h.symm), if_neg hk]
        rfl
    · have hs' : a.service ≠ s := fun h => hs h.symm
      simp [hs, hs']
  · rw [eraseSession_of_absent hin]
    split
    · next hk =>
      obtain ⟨rfl, rfl⟩ := hk
      by_cases hs : a.service ∈ old
      · have hkey : a.session.key ∉ (old.getD a.service {}).sessions := fun h => hin ⟨hs, h⟩
        exact Std.ExtTreeMap.getElem?_eq_none hkey
      · exact look_of_not_mem hs _
    · rfl

theorem eq_sessionKey_iff (a : HttpAction) (k : SessionKey) :
    k = a.sessionKey ↔ (a.farmName = k.farm ∧ a.listener = k.listener) ∧
      k.service = a.service ∧ k.key = a.session.key := by
  rw [SessionKey.ext_iff]
  simp only [HttpAction.sessionKey]
  constructor
  · rintro ⟨hf, hl, hs, hk⟩
    exact ⟨⟨hf.symm, hl.symm⟩, hs, hk⟩
  · rintro ⟨⟨hf, hl⟩, hs, hk⟩
    exact ⟨hf.symm, hl.symm, hs, hk⟩

/-- One action on the nested store is one pointwise update of the flat map. -/
theorem sessions_applyHttpAction {data : HttpSessionData} (h : OneService data) (a : HttpAction) :
    sessions (applyHttpAction data a) = step sessionEffect (sessions data) a := by
  funext k
  simp only [sessions_eq_look, step]
  rcases action_cases a with ha | ha | ha | ⟨ha, hsets, hkeep⟩
  · rw [services_sets data ha]
    by_cases hk : a.farmName = k.farm ∧ a.listener = k.listener
    · rw [if_pos hk, look_addSession (h k.farm k.listener)]
      by_cases hs : k.service = a.service
      · have href : referenceEffect a k = if k = a.sessionKey then .put a.session else .keep := by
          rcases ha with ha | ha <;> simp [referenceEffect, ha]
        have hriv : ¬ Rival a k := fun hr => hr.2.2 hs
        simp only [sessionEffect, hriv, and_false, if_false, href, eq_sessionKey_iff, hk, hs,
          true_and, if_true]
        split <;> rfl
      · have hriv : Rival a k := ⟨hk.1.symm, hk.2.symm, hs⟩
        simp [sessionEffect, ha, hriv, hs]
    · have hriv : ¬ Rival a k := fun hr => hk ⟨hr.1.symm, hr.2.1.symm⟩
      have href : referenceEffect a k = .keep := by
        rcases ha with ha | ha <;> simp [referenceEffect, ha, eq_sessionKey_iff, hk]
      simp [hk, sessionEffect, hriv, href]
  · have hsets : ¬ a.Sets := by simp [HttpAction.Sets, ha]
    have href : referenceEffect a k = if k = a.sessionKey then .drop else .keep := by
      simp [referenceEffect, ha]
    rw [services_delete data ha]
    by_cases hk : a.farmName = k.farm ∧ a.listener = k.listener
    · rw [if_pos hk, look_eraseSession]
      simp only [sessionEffect, hsets, false_and, if_false, href, eq_sessionKey_iff, hk, true_and,
        and_self]
      split <;> rfl
    · simp [hk, sessionEffect, hsets, href, eq_sessionKey_iff]
  · have hsets : ¬ a.Sets := by simp [HttpAction.Sets, ha]
    have href : referenceEffect a k = if k.farm = a.farmName then .drop else .keep := by
      simp [referenceEffect, ha]
    rw [services_clear data ha]
    by_cases hf : a.farmName = k.farm
    · simp [hf, sessionEffect, hsets, href, look_of_not_mem]
    · have hf' : k.farm ≠ a.farmName := fun h => hf h.symm
      simp [hf, hf', sessionEffect, hsets, href]
  · simp [ha, sessionEffect, hsets, hkeep]

/-- A whole log on the nested store is its replay on the flat map. -/
theorem sessions_foldl {data : HttpSessionData} (h : OneService data) (log : List HttpAction) :
    OneService (log.foldl applyHttpAction data) ∧
      sessions (log.foldl applyHttpAction data) = replay sessionEffect (sessions data) log := by
  induction log generalizing data with
  | nil => exact ⟨h, rfl⟩
  | cons a log ih =>
    obtain ⟨hone, heq⟩ := ih (h.applyHttpAction a)
    refine ⟨hone, ?_⟩
    rw [List.foldl_cons, heq, sessions_applyHttpAction h, replay_cons]

/-- Each session is stored under its own key. -/
def Keyed (data : HttpSessionData) : Prop :=
  ∀ k s, sessions data k = some s → s.key = k.key

theorem keyed_empty : Keyed ∅ := by simp [Keyed]

theorem sessionEffect_put {a : HttpAction} {k : SessionKey} {s : HttpSession}
    (h : sessionEffect a k = .put s) : k = a.sessionKey ∧ s = a.session := by
  unfold sessionEffect at h
  split at h
  · contradiction
  · unfold referenceEffect at h
    split at h
    · split at h <;> contradiction
    · split at h
      · next hk => exact ⟨hk,(Effect.put.inj h).symm⟩
      · contradiction
    · split at h
      · next hk => exact ⟨hk,(Effect.put.inj h).symm⟩
      · contradiction
    · split at h <;> contradiction
    · contradiction

theorem Keyed.applyHttpAction {data : HttpSessionData} (h : Keyed data) (hone : OneService data)
    (a : HttpAction) : Keyed (applyHttpAction data a) := by
  intro k s hs
  rw [sessions_applyHttpAction hone] at hs
  simp only [step] at hs
  cases hf : sessionEffect a k with
  | keep =>
    rw [hf] at hs
    exact h k s hs
  | put v =>
    rw [hf, Effect.act_put] at hs
    obtain ⟨rfl,rfl⟩ := sessionEffect_put hf
    rw [← Option.some.inj hs]
    rfl
  | drop =>
    rw [hf] at hs
    contradiction

/-- The request that clears a farm, with the fields that are never set at zero. -/
def clearRequest (farmName : Bytes) : HttpAction where
  action := .named .clearData
  service := 0
  listener := 0
  backend := 0
  session := ⟨[],0,[],0⟩
  farmName := farmName

theorem sessionEffect_clearRequest (farmName : Bytes) (k : SessionKey) :
    sessionEffect (clearRequest farmName) k = if k.farm = farmName then .drop else .keep := by
  simp [sessionEffect, referenceEffect, clearRequest, HttpAction.Sets]
  rfl

theorem sessions_clearHttpFarmData (data : HttpSessionData) (farmName : Bytes) :
    sessions (clearHttpFarmData data farmName) =
      step sessionEffect (sessions data) (clearRequest farmName) := by
  funext k
  rw [sessions_eq_look, services_clearHttpFarmData, step, sessionEffect_clearRequest]
  by_cases hf : farmName = k.farm
  · rw [if_pos hf, if_pos hf.symm, look_of_not_mem (by simp), Effect.act_drop]
  · rw [if_neg hf, if_neg (fun h => hf h.symm)]
    rfl

theorem Keyed.clearHttpFarmData {data : HttpSessionData} (h : Keyed data) (farmName : Bytes) :
    Keyed (clearHttpFarmData data farmName) := by
  intro k s hs
  rw [sessions_eq_look, services_clearHttpFarmData] at hs
  split at hs
  · rw [look_of_not_mem (by simp)] at hs
    contradiction
  · exact h k s hs

/-- The addition that names one stored session. -/
def addRequest (farmName : Bytes) (listener service : UInt32) (session : HttpSession) :
    HttpAction where
  action := .named .sessAdd
  service := service
  listener := listener
  backend := session.backendId
  session := session
  farmName := farmName

/-- The additions that name every session of the store. -/
def sessionActions (data : HttpSessionData) : List HttpAction :=
  data.toList.flatMap fun (farmName,listeners) =>
    listeners.toList.flatMap fun (listener,services) =>
      services.toList.flatMap fun (serviceId,service) =>
        service.sessions.toList.map fun (_,session) =>
          addRequest farmName listener serviceId session

/-- A stored session is reached through its farm, its listener and its service. -/
theorem sessions_eq_some {data : HttpSessionData} {k : SessionKey} {s : HttpSession} :
    sessions data k = some s ↔ ∃ listeners, data[k.farm]? = some listeners ∧
      ∃ services, listeners[k.listener]? = some services ∧
        ∃ service, services[k.service]? = some service ∧ service.sessions[k.key]? = some s := by
  have hservice : ∀ services : Services, (services.getD k.service {}).sessions[k.key]? = some s ↔
      ∃ service, services[k.service]? = some service ∧ service.sessions[k.key]? = some s :=
    fun _ => Table.getD_iff (P := fun service : HttpService => service.sessions[k.key]? = some s) (by simp)
  simp only [← hservice]
  have hlistener : ∀ listeners : Listeners,
      ((listeners.getD k.listener ∅).getD k.service {}).sessions[k.key]? = some s ↔
        ∃ services, listeners[k.listener]? = some services ∧
          (services.getD k.service {}).sessions[k.key]? = some s :=
    fun _ => Table.getD_iff
      (P := fun services : Services => (services.getD k.service {}).sessions[k.key]? = some s) (by simp)
  simp only [← hlistener]
  exact Table.getD_iff (P := fun listeners : Listeners =>
    ((listeners.getD k.listener ∅).getD k.service {}).sessions[k.key]? = some s) (by simp)

theorem mem_sessionActions {data : HttpSessionData} {a : HttpAction} :
    a ∈ sessionActions data ↔
      ∃ k s, sessions data k = some s ∧ a = addRequest k.farm k.listener k.service s := by
  simp only [sessionActions, List.mem_flatMap, List.mem_map, Prod.exists,
    Std.ExtTreeMap.mem_toList_iff_getElem?_eq_some, sessions_eq_some]
  constructor
  · rintro ⟨farm,listeners,hf,l,services,hl,i,service,hi,key,s,hs,rfl⟩
    exact ⟨⟨farm,l,i,key⟩,s,⟨listeners,hf,services,hl,service,hi,hs⟩,rfl⟩
  · rintro ⟨k,s,⟨listeners,hf,services,hl,service,hi,hs⟩,rfl⟩
    exact ⟨k.farm,listeners,hf,k.listener,services,hl,k.service,service,hi,k.key,s,hs,rfl⟩

theorem sessionEffect_addRequest (farmName : Bytes) (listener service : UInt32) (s : HttpSession)
    (k : SessionKey) :
    sessionEffect (addRequest farmName listener service s) k =
      if k.farm = farmName ∧ k.listener = listener ∧ k.service ≠ service then .drop
      else if k = ⟨farmName,listener,service,s.key⟩ then .put s else .keep := by
  simp only [sessionEffect, addRequest, HttpAction.Sets, true_or, true_and]
  rfl

theorem mem_services_of_session {data : HttpSessionData} {k : SessionKey} {s : HttpSession}
    (h : sessions data k = some s) : k.service ∈ services data k.farm k.listener := by
  by_contra hout
  rw [sessions_eq_look, look_of_not_mem hout] at h
  contradiction

/-- One service per listener: the additions of a snapshot do not evict each other. -/
theorem snapshot_sessionActions {data : HttpSessionData} (hone : OneService data)
    (h : Keyed data) : Snapshot sessionEffect (sessions data) (sessionActions data) where
  fixed a ha := by
    obtain ⟨k,s,hs,rfl⟩ := mem_sessionActions.mp ha
    funext k'
    rw [step, sessionEffect_addRequest, h k s hs]
    split
    · next hrival =>
      obtain ⟨hf,hl,hne⟩ := hrival
      cases hs' : sessions data k' with
      | none => rfl
      | some s' =>
        have hmem := mem_services_of_session hs'
        rw [hf, hl] at hmem
        exact absurd (hone _ _ _ _ hmem (mem_services_of_session hs)) hne
    · split
      · next hk => rw [hk, hs, Effect.act_put]
      · rfl
  covers k hk := by
    obtain ⟨s,hs⟩ := Option.ne_none_iff_exists'.mp hk
    refine ⟨_,mem_sessionActions.mpr ⟨k,s,hs,rfl⟩,?_⟩
    rw [sessionEffect_addRequest, if_neg (fun hr => hr.2.2 rfl), if_pos (by rw [h k s hs])]
    simp

theorem referenceEffect_rival {a : HttpAction} {k : SessionKey} (hsets : a.Sets) (hrival : Rival a k) :
    referenceEffect a k = .keep := by
  have hk : k ≠ a.sessionKey := fun hk => hrival.2.2 (by rw [hk]; rfl)
  rcases hsets with ha | ha <;> simp [referenceEffect, ha, hk]

theorem sessionEffect_loses : Loses referenceEffect sessionEffect := by
  intro a k
  by_cases h : a.Sets ∧ Rival a k
  · exact .inr ⟨referenceEffect_rival h.1 h.2,if_pos h⟩
  · exact .inl (if_neg h)

theorem referenceEffect_put {a : HttpAction} {k : SessionKey} {v : HttpSession}
    (h : referenceEffect a k = .put v) : a.Sets ∧ k = a.sessionKey := by
  unfold referenceEffect at h
  split at h
  · split at h <;> contradiction
  · next ha =>
    split at h
    · next hk => exact ⟨Or.inr ha, hk⟩
    · contradiction
  · next ha =>
    split at h
    · next hk => exact ⟨Or.inl ha, hk⟩
    · contradiction
  · split at h <;> contradiction
  · contradiction

theorem sessionEffect_ne_iff {a : HttpAction} {k : SessionKey} :
    sessionEffect a k ≠ referenceEffect a k ↔ a.Sets ∧ Rival a k := by
  constructor
  · intro hne
    by_contra hrival
    exact hne (if_neg hrival)
  · intro hrival
    rw [sessionEffect, if_pos hrival, referenceEffect_rival hrival.1 hrival.2]
    simp

/-- No action adds a session while one of another service of the same listener is live: set before, and
neither deleted since nor cleared with its farm. -/
def KeepsServices (log : List HttpAction) : Prop :=
  ∀ before a, before ++ [a] <+: log → a.Sets →
    ∀ k, Rival a k → replay referenceEffect (fun _ => none) before k = none

/-- From the empty store, the code and the reference semantics have the same sessions after each action
of a sequence exactly when none of them is added while a session of another service of its listener is
live. -/
theorem sessions_eq_reference_iff (log : List HttpAction) :
    (∀ before, before <+: log →
      sessions (before.foldl applyHttpAction ∅) = replay referenceEffect (fun _ => none) before) ↔
      KeepsServices log := by
  have hempty : sessions ∅ = fun _ => none := funext sessions_empty
  have hcode : ∀ before : List HttpAction, sessions (before.foldl applyHttpAction ∅) =
      replay sessionEffect (fun _ => none) before := fun before => by
    rw [(sessions_foldl oneService_empty before).2, hempty]
  simp only [hcode, sessionEffect_loses.replay_iff, sessionEffect_ne_iff]
  exact ⟨fun h before a hpart hsets k hrival => h before a hpart k ⟨hsets,hrival⟩,
    fun h before a hpart k hrival => h before a hpart hrival.1 k hrival.2⟩

def sessionOf (service : UInt32) (key : UInt8) : HttpAction where
  action := .named .sessAdd
  service := service
  listener := 0
  backend := 1
  session := ⟨[key], 1, [], 0⟩
  farmName := [102]

/-- Two additions for two services of one listener: the first session is gone. -/
theorem second_service_evicts_first :
    sessions ([sessionOf 1 97, sessionOf 2 98].foldl applyHttpAction ∅) ≠
      replay referenceEffect (fun _ => none) [sessionOf 1 97, sessionOf 2 98] := by
  intro h
  have hkey := congrFun h (sessionOf 1 97).sessionKey
  revert hkey
  decide

end Http
end Ssyncd
