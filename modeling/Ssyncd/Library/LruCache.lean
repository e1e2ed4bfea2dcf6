import Mathlib.Data.Finset.Card
import Mathlib.Data.List.Nodup
import Mathlib.Tactic.Common

/-! Caches that hold the values of the keys used last: a value that is used goes to the end, and a
cache that is full gives up the one at its front. -/
namespace Lru
variable {K V : Type*}

/-- Values under their keys, the one used longest ago first. -/
structure Cache (K V : Type*) where
  items : List (K × V)
  nodup : (items.map Prod.fst).Nodup

namespace Cache

@[ext] theorem ext {c c' : Cache K V} (h : c.items = c'.items) : c = c' := by
  cases c
  cases c'
  cases h
  rfl

def empty : Cache K V := ⟨[],List.nodup_nil⟩

def keys (c : Cache K V) : List K := c.items.map Prod.fst

def size (c : Cache K V) : ℕ := c.items.length

/-- The value at the front goes. -/
def dropOldest (c : Cache K V) : Cache K V where
  items := c.items.tail
  nodup := by
    rw [List.map_tail]
    exact c.nodup.tail

/-- Room for one more value. -/
def evict (c : Cache K V) (capacity : ℕ) : Cache K V :=
  if capacity ≤ c.size then c.dropOldest else c

variable [DecidableEq K]

def get (c : Cache K V) (k : K) : Option V := (c.items.find? fun item => item.1 = k).map Prod.snd

def erase (c : Cache K V) (k : K) : Cache K V where
  items := c.items.filter fun item => item.1 ≠ k
  nodup := (List.filter_sublist.map Prod.fst).nodup c.nodup

/-- A key gets a value, new or in place of another one, at the end. -/
def use (c : Cache K V) (k : K) (v : V) : Cache K V where
  items := (c.erase k).items ++ [(k,v)]
  nodup := by
    rw [List.map_append, List.map_singleton, ← List.concat_eq_append]
    refine List.Nodup.concat (fun hk => ?_) (c.erase k).nodup
    obtain ⟨item,hitem,rfl⟩ := List.mem_map.mp hk
    exact of_decide_eq_true (List.mem_filter.mp hitem).2 rfl

section Items
variable {c : Cache K V} {k k' : K} {v v' : V} {before after : List (K × V)}

theorem get_eq_some_iff : c.get k = some v ↔ (k,v) ∈ c.items := by
  constructor
  · intro h
    obtain ⟨item,hitem,rfl⟩ := Option.map_eq_some_iff.mp h
    have hkey := List.find?_some hitem
    obtain rfl : item.1 = k := of_decide_eq_true hkey
    exact List.mem_of_find?_eq_some hitem
  · intro h
    cases hfind : c.items.find? fun item => item.1 = k with
    | none => exact absurd (decide_eq_true rfl) (List.find?_eq_none.mp hfind (k,v) h)
    | some item =>
      have hfound := List.find?_some hfind
      have hkey : item.1 = k := of_decide_eq_true hfound
      have hitem : item = (k,v) :=
        List.inj_on_of_nodup_map c.nodup (List.mem_of_find?_eq_some hfind) h hkey
      rw [get, hfind, hitem, Option.map_some]

theorem get_of_head {item : K × V} (h : c.items.head? = some item) : c.get item.1 = some item.2 :=
  get_eq_some_iff.mpr (List.mem_of_mem_head? h)

theorem get_eq_none_iff : c.get k = none ↔ k ∉ c.keys := by
  constructor
  · intro h hk
    obtain ⟨⟨_,v⟩,hitem,rfl⟩ := List.mem_map.mp hk
    have hsome := get_eq_some_iff.mpr hitem
    rw [h] at hsome
    contradiction
  · intro h
    cases hget : c.get k with
    | none => rfl
    | some v => exact absurd (List.mem_map_of_mem (get_eq_some_iff.mp hget)) h

/-- Where a value stands. -/
theorem exists_items (h : c.get k = some v) : ∃ before after, c.items = before ++ (k,v)::after :=
  List.append_of_mem (get_eq_some_iff.mp h)

/-- What is left without it. -/
theorem items_erase (h : c.items = before ++ (k,v)::after) : (c.erase k).items = before ++ after := by
  have hnodup := c.nodup
  rw [h, List.map_append, List.map_cons] at hnodup
  obtain ⟨-,hcons,hdisjoint⟩ := List.nodup_append.mp hnodup
  have hout : ∀ item ∈ before ++ after, item.1 ≠ k := by
    intro item hitem heq
    rcases List.mem_append.mp hitem with hb | ha
    · exact hdisjoint item.1 (List.mem_map_of_mem hb) k (List.mem_cons_self ..) heq
    · exact (List.nodup_cons.mp hcons).1 (List.mem_map.mpr ⟨item,ha,heq⟩)
  have hself : ∀ items : List (K × V), (∀ item ∈ items, item.1 ≠ k) →
      items.filter (fun item => item.1 ≠ k) = items := fun items hitems =>
    List.filter_eq_self.mpr fun item hitem => decide_eq_true (hitems item hitem)
  unfold erase
  dsimp only
  rw [h, List.filter_append, List.filter_cons_of_neg (by simp),
    hself before fun item hitem => hout item (List.mem_append_left _ hitem),
    hself after fun item hitem => hout item (List.mem_append_right _ hitem)]

theorem items_use (c : Cache K V) (k : K) (v : V) : (c.use k v).items = (c.erase k).items ++ [(k,v)] :=
  rfl

theorem erase_of_get_eq_none (h : c.get k = none) : c.erase k = c := by
  refine ext (List.filter_eq_self.mpr fun item hitem => decide_eq_true ?_)
  rintro rfl
  exact get_eq_none_iff.mp h (List.mem_map_of_mem hitem)

@[simp] theorem get_erase_self (c : Cache K V) (k : K) : (c.erase k).get k = none := by
  refine get_eq_none_iff.mpr fun hk => ?_
  obtain ⟨item,hitem,hkey⟩ := List.mem_map.mp hk
  exact of_decide_eq_true (List.mem_filter.mp hitem).2 hkey

theorem get_erase_of_ne (h : k' ≠ k) : (c.erase k).get k' = c.get k' := by
  refine Option.ext fun v => ?_
  have hmem : (k',v) ∈ (c.erase k).items ↔ (k',v) ∈ c.items := by
    simp [erase, List.mem_filter, h]
  exact get_eq_some_iff.trans (hmem.trans get_eq_some_iff.symm)

@[simp] theorem get_use_self (c : Cache K V) (k : K) (v : V) : (c.use k v).get k = some v :=
  get_eq_some_iff.mpr (List.mem_append_right _ (List.mem_singleton_self _))

theorem get_use_of_ne (h : k' ≠ k) : (c.use k v).get k' = c.get k' := by
  rw [← get_erase_of_ne (c := c) h]
  refine Option.ext fun v' => ?_
  have hmem : (k',v') ∈ (c.use k v).items ↔ (k',v') ∈ (c.erase k).items := by
    simp [items_use, h]
  exact get_eq_some_iff.trans (hmem.trans get_eq_some_iff.symm)

/-- A key that is used twice has the later value. -/
theorem use_use (c : Cache K V) (k : K) (v v' : V) : (c.use k v).use k v' = c.use k v' := by
  refine ext ?_
  have hdrop : ((c.use k v).erase k).items = (c.erase k).items ++ [] :=
    items_erase (items_use c k v)
  rw [items_use, items_use, hdrop, List.append_nil]

/-- A value that is erased may as well be replaced. -/
theorem erase_use (c : Cache K V) (k : K) (v : V) : (c.erase k).use k v = c.use k v := by
  refine ext ?_
  rw [items_use, items_use, erase_of_get_eq_none (get_erase_self c k)]

theorem keys_erase (c : Cache K V) (k : K) : (c.erase k).keys = c.keys.filter (· ≠ k) :=
  (List.filter_map (p := fun k' : K => decide (k' ≠ k)) (f := Prod.fst) (l := c.items)).symm

theorem keys_use (c : Cache K V) (k : K) (v : V) : (c.use k v).keys = c.keys.filter (· ≠ k) ++ [k] := by
  rw [keys, items_use, List.map_append, List.map_singleton]
  exact congrArg (· ++ [k]) (keys_erase c k)

end Items

section Size
variable {c : Cache K V} {k : K} {v : V} {capacity : ℕ}

omit [DecidableEq K] in
theorem size_dropOldest (c : Cache K V) : c.dropOldest.size = c.size - 1 := List.length_tail

theorem size_erase_le (c : Cache K V) (k : K) : (c.erase k).size ≤ c.size := List.length_filter_le _ _

theorem size_use (c : Cache K V) (k : K) (v : V) : (c.use k v).size = (c.erase k).size + 1 := by
  rw [size, items_use, List.length_append]
  rfl

theorem size_use_le (c : Cache K V) (k : K) (v : V) : (c.use k v).size ≤ c.size + 1 := by
  rw [size_use]
  exact Nat.succ_le_succ (size_erase_le c k)

theorem size_erase_of_get (h : c.get k ≠ none) : (c.erase k).size + 1 = c.size := by
  obtain ⟨v,hget⟩ := Option.ne_none_iff_exists'.mp h
  obtain ⟨before,after,hitems⟩ := exists_items hget
  rw [size, size, items_erase hitems, hitems]
  simp only [List.length_append, List.length_cons]
  omega

/-- A value that is used again takes no more room. -/
theorem size_use_of_get (h : c.get k ≠ none) (v : V) : (c.use k v).size = c.size := by
  rw [size_use, size_erase_of_get h]

omit [DecidableEq K] in
/-- Whatever there is room for, there is room for one value more. -/
theorem size_evict_lt (h : c.size ≤ capacity) (hpos : 0 < capacity) :
    (c.evict capacity).size < capacity := by
  unfold evict
  split
  · rw [size_dropOldest]
    omega
  · next hroom => exact Nat.lt_of_not_le hroom

theorem get_dropOldest_of_none (h : c.get k = none) : c.dropOldest.get k = none :=
  get_eq_none_iff.mpr fun hk => get_eq_none_iff.mp h (((List.tail_sublist c.items).map Prod.fst).subset hk)

theorem get_evict_of_none (h : c.get k = none) (capacity : ℕ) : (c.evict capacity).get k = none := by
  unfold evict
  split
  · exact get_dropOldest_of_none h
  · exact h

end Size

section Held
variable {c : Cache K V} {k k' new : K} {v : V} {later : Finset K} {capacity : ℕ}

/-- A key is held, and the keys that have been used after it are among these. -/
def HeldBefore (c : Cache K V) (k : K) (later : Finset K) : Prop :=
  ∃ before after, c.keys = before ++ k::after ∧ ∀ k' ∈ after, k' ∈ later

theorem HeldBefore.get (h : c.HeldBefore k later) : c.get k ≠ none := by
  obtain ⟨before,after,hkeys,-⟩ := h
  intro hnone
  refine get_eq_none_iff.mp hnone ?_
  rw [hkeys]
  exact List.mem_append_right _ (List.mem_cons_self ..)

omit [DecidableEq K] in
theorem HeldBefore.mono (h : c.HeldBefore k later) {later' : Finset K} (hsub : later ⊆ later') :
    c.HeldBefore k later' := by
  obtain ⟨before,after,hkeys,hafter⟩ := h
  exact ⟨before,after,hkeys,fun k' hk' => hsub (hafter k' hk')⟩

/-- A key that was used a moment ago. -/
theorem heldBefore_use (c : Cache K V) (k : K) (v : V) : (c.use k v).HeldBefore k ∅ :=
  ⟨_,[],keys_use c k v,fun _ h => absurd h List.not_mem_nil⟩

theorem HeldBefore.erase (h : c.HeldBefore k later) (hne : k' ≠ k) :
    (c.erase k').HeldBefore k later := by
  obtain ⟨before,after,hkeys,hafter⟩ := h
  refine ⟨before.filter (· ≠ k'),after.filter (· ≠ k'),?_,?_⟩
  · rw [keys_erase, hkeys, List.filter_append, List.filter_cons_of_pos (by simpa using hne.symm)]
  · exact fun q hq => hafter q (List.mem_of_mem_filter hq)

theorem HeldBefore.use (h : c.HeldBefore k later) (hne : k' ≠ k) (v : V) :
    (c.use k' v).HeldBefore k (insert k' later) := by
  obtain ⟨before,after,hkeys,hafter⟩ := h.erase hne
  refine ⟨before,after ++ [k'],?_,?_⟩
  · rw [keys_use, ← keys_erase, hkeys, List.append_assoc, List.cons_append]
  · intro q hq
    rcases List.mem_append.mp hq with hq | hq
    · exact Finset.mem_insert_of_mem (hafter q hq)
    · rw [List.mem_singleton.mp hq]
      exact Finset.mem_insert_self ..

/-- A full cache gives up another key, as long as fewer keys have been used since. -/
theorem HeldBefore.evict (h : c.HeldBefore k later) (hnew : c.get new = none)
    (hfew : (insert new later).card < capacity) : (c.evict capacity).HeldBefore k later := by
  unfold Cache.evict
  split
  · next hfull =>
    obtain ⟨before,after,hkeys,hafter⟩ := h
    cases before with
    | nil =>
      -- the keys behind k and the new one are too many to have been used since
      have hnodup : (new::after).Nodup := by
        have hall : c.keys.Nodup := c.nodup
        have hout := get_eq_none_iff.mp hnew
        rw [hkeys, List.nil_append] at hall hout
        exact List.nodup_cons.mpr ⟨fun hmem => hout (List.mem_cons_of_mem _ hmem),
          (List.nodup_cons.mp hall).2⟩
      have hsub : (new::after).toFinset ⊆ insert new later := by
        intro q hq
        rcases List.mem_cons.mp (List.mem_toFinset.mp hq) with rfl | hq
        · exact Finset.mem_insert_self ..
        · exact Finset.mem_insert_of_mem (hafter q hq)
      have hcard := Finset.card_le_card hsub
      rw [List.toFinset_card_of_nodup hnodup, List.length_cons] at hcard
      have hsize : c.size = after.length + 1 := by
        have hlen := congrArg List.length hkeys
        rw [keys, List.length_map, List.nil_append, List.length_cons] at hlen
        exact hlen
      omega
    | cons oldest before =>
      refine ⟨before,after,?_,hafter⟩
      have htail : c.dropOldest.keys = c.keys.tail := List.map_tail ..
      rw [htail, hkeys, List.cons_append, List.tail_cons]
  · exact h

end Held

section All
variable {P : V → Prop} {c : Cache K V} {k : K} {v : V} {capacity : ℕ}

/-- What holds of all values. -/
def All (P : V → Prop) (c : Cache K V) : Prop := ∀ item ∈ c.items, P item.2

omit [DecidableEq K] in
theorem all_empty : All P (empty : Cache K V) := fun _ h => absurd h List.not_mem_nil

theorem All.get (h : All P c) (hget : c.get k = some v) : P v := h _ (get_eq_some_iff.mp hget)

omit [DecidableEq K] in
theorem All.dropOldest (h : All P c) : All P c.dropOldest := fun item hitem =>
  h item (List.mem_of_mem_tail hitem)

omit [DecidableEq K] in
theorem All.evict (h : All P c) (capacity : ℕ) : All P (c.evict capacity) := by
  unfold Cache.evict
  split
  · exact h.dropOldest
  · exact h

theorem All.erase (h : All P c) (k : K) : All P (c.erase k) := fun item hitem =>
  h item (List.mem_of_mem_filter hitem)

theorem All.use (h : All P c) (k : K) (hv : P v) : All P (c.use k v) := by
  intro item hitem
  rw [items_use] at hitem
  rcases List.mem_append.mp hitem with hold | hnew
  · exact h.erase k item hold
  · rw [List.mem_singleton.mp hnew]
    exact hv

end All

section Related
variable {W : Type*} {R : V → W → Prop} {c : Cache K V} {d : Cache K W} {k : K} {v : V} {w : W}

/-- The same keys in the same order, with values that are related. -/
def Related (R : V → W → Prop) (c : Cache K V) (d : Cache K W) : Prop :=
  List.Forall₂ (fun i j => i.1 = j.1 ∧ R i.2 j.2) c.items d.items

omit [DecidableEq K] in
theorem related_empty : Related R (empty : Cache K V) (empty : Cache K W) := List.Forall₂.nil

omit [DecidableEq K] in
theorem Related.size (h : Related R c d) : c.size = d.size := h.length_eq

omit [DecidableEq K] in
theorem Related.dropOldest (h : Related R c d) : Related R c.dropOldest d.dropOldest := by
  unfold Related at h
  change List.Forall₂ _ c.items.tail d.items.tail
  generalize c.items = items, d.items = items' at h
  cases h with
  | nil => exact List.Forall₂.nil
  | cons _ hrest => exact hrest

omit [DecidableEq K] in
theorem Related.evict (h : Related R c d) (capacity : ℕ) :
    Related R (c.evict capacity) (d.evict capacity) := by
  unfold Cache.evict
  rw [h.size]
  split
  · exact h.dropOldest
  · exact h

omit [DecidableEq K] in
/-- The oldest values are related. -/
theorem Related.head (h : Related R c d) : Option.Rel (fun i j => i.1 = j.1 ∧ R i.2 j.2)
    c.items.head? d.items.head? := by
  unfold Related at h
  generalize c.items = items, d.items = items' at h
  cases h with
  | nil => exact Option.Rel.none
  | cons hfirst _ => exact Option.Rel.some hfirst

omit [DecidableEq K] in
theorem Related.exists_head (h : Related R c d) {item : K × V} (hhead : c.items.head? = some item) :
    ∃ item', d.items.head? = some item' ∧ item.1 = item'.1 ∧ R item.2 item'.2 := by
  have hrel := h.head
  rw [hhead] at hrel
  cases hd : d.items.head? with
  | none => rw [hd] at hrel; cases hrel
  | some item' =>
    rw [hd] at hrel
    cases hrel with
    | some hitem => exact ⟨item',rfl,hitem⟩

theorem Related.erase (h : Related R c d) (k : K) : Related R (c.erase k) (d.erase k) := by
  have hall : ∀ {items : List (K × V)} {items' : List (K × W)},
      List.Forall₂ (fun i j => i.1 = j.1 ∧ R i.2 j.2) items items' →
        List.Forall₂ (fun i j => i.1 = j.1 ∧ R i.2 j.2) (items.filter fun i => i.1 ≠ k)
          (items'.filter fun j => j.1 ≠ k) := by
    intro items items' hitems
    induction hitems with
    | nil => exact List.Forall₂.nil
    | cons hfirst _ ih =>
      rw [List.filter_cons, List.filter_cons, hfirst.1]
      split
      · exact List.Forall₂.cons hfirst ih
      · exact ih
  exact hall h

theorem Related.use (h : Related R c d) (k : K) (hvalues : R v w) :
    Related R (c.use k v) (d.use k w) := by
  unfold Related
  rw [items_use, items_use]
  exact List.rel_append (h.erase k) (List.Forall₂.cons ⟨rfl,hvalues⟩ List.Forall₂.nil)

/-- A key has related values, or none in both. -/
theorem Related.get (h : Related R c d) (k : K) : Option.Rel R (c.get k) (d.get k) := by
  have hall : ∀ {items : List (K × V)} {items' : List (K × W)},
      List.Forall₂ (fun i j => i.1 = j.1 ∧ R i.2 j.2) items items' →
        Option.Rel R ((items.find? fun i => i.1 = k).map Prod.snd)
          ((items'.find? fun j => j.1 = k).map Prod.snd) := by
    intro items items' hitems
    induction hitems with
    | nil => exact Option.Rel.none
    | cons hfirst _ ih =>
      rw [List.find?_cons, List.find?_cons, hfirst.1]
      split
      · exact Option.Rel.some hfirst.2
      · exact ih
  exact hall h

end Related

section Alike
variable {W : Type*} {R : V → W → Prop} {c : Cache K V} {d : Cache K W} {k : K} {v : V} {w : W}
  {capacity : ℕ}

/-- The same keys in whatever order, with values that are related. -/
def Alike (R : V → W → Prop) (c : Cache K V) (d : Cache K W) : Prop :=
  ∀ k, Option.Rel R (c.get k) (d.get k)

theorem Alike.get_eq_none_iff (h : Alike R c d) (k : K) : c.get k = none ↔ d.get k = none := by
  have hk := h k
  revert hk
  cases c.get k <;> cases d.get k <;> intro hk <;> cases hk <;> simp

theorem Alike.size (h : Alike R c d) : c.size = d.size := by
  have hkeys : c.keys.Perm d.keys := by
    refine (List.perm_ext_iff_of_nodup c.nodup d.nodup).mpr fun k => not_iff_not.mp ?_
    exact Cache.get_eq_none_iff.symm.trans ((h.get_eq_none_iff k).trans Cache.get_eq_none_iff)
  have hlen := hkeys.length_eq
  rw [keys, keys, List.length_map, List.length_map] at hlen
  exact hlen

theorem Alike.erase (h : Alike R c d) (k : K) : Alike R (c.erase k) (d.erase k) := by
  intro k'
  by_cases hk : k' = k
  · rw [hk, get_erase_self, get_erase_self]
    exact Option.Rel.none
  · rw [get_erase_of_ne hk, get_erase_of_ne hk]
    exact h k'

theorem Alike.use (h : Alike R c d) (k : K) (hvalues : R v w) : Alike R (c.use k v) (d.use k w) := by
  intro k'
  by_cases hk : k' = k
  · rw [hk, get_use_self, get_use_self]
    exact Option.Rel.some hvalues
  · rw [get_use_of_ne hk, get_use_of_ne hk]
    exact h k'

omit [DecidableEq K] in
theorem evict_of_lt (h : c.size < capacity) : c.evict capacity = c :=
  if_neg (Nat.not_le.mpr h)

end Alike

end Cache
end Lru
