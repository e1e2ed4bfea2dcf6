import Mathlib.Data.List.Nodup
import Mathlib.Data.List.Count

/-! Objects in a list that are found by their names, and that live as long as somebody holds them. An
object counts its holders; it is made for the first of them and goes with the last. -/
namespace Registry
variable {K T : Type*} [BEq K]

/-- The first object of a name. -/
def lookup (name : T → K) (ts : List T) (k : K) : Option T := ts.find? fun t => name t == k

/-- This object takes the place of the first one of a name. -/
def put (name : T → K) (k : K) (new : T) : List T → List T
  | [] => []
  | t::ts => if name t == k then new::ts else t::put name k new ts

def remove (name : T → K) (ts : List T) (k : K) : List T := ts.eraseP fun t => name t == k

section Lookup
variable [LawfulBEq K] {name : T → K} {ts : List T} {t new : T} {k k' : K}

theorem lookup_cons : lookup name (t::ts) k = if name t == k then some t else lookup name ts k := by
  by_cases h : name t = k <;> simp [lookup, h]

omit [LawfulBEq K] in
theorem mem_of_lookup (h : lookup name ts k = some t) : t ∈ ts := List.mem_of_find?_eq_some h

theorem name_of_lookup (h : lookup name ts k = some t) : name t = k := by
  simpa using List.find?_some h

theorem lookup_eq_none_iff : lookup name ts k = none ↔ k ∉ ts.map name := by
  simp [lookup]

theorem exists_lookup (h : k ∈ ts.map name) : ∃ t, lookup name ts k = some t := by
  cases hl : lookup name ts k with
  | none => exact absurd h (lookup_eq_none_iff.mp hl)
  | some t => exact ⟨t,rfl⟩

/-- Every object is found by its name, where no other one has it. -/
theorem lookup_of_mem (hnodup : (ts.map name).Nodup) (h : t ∈ ts) : lookup name ts (name t) = some t := by
  have hk : name t ∈ ts.map name := List.mem_map_of_mem h
  obtain ⟨t',ht'⟩ := exists_lookup hk
  rw [ht', List.inj_on_of_nodup_map hnodup (mem_of_lookup ht') h (name_of_lookup ht')]

theorem lookup_append_singleton :
    lookup name (ts ++ [t]) k = (lookup name ts k).or (if name t == k then some t else none) := by
  by_cases h : name t = k <;> simp [lookup, List.find?_append, h]

theorem map_put (hnew : name new = k) : (put name k new ts).map name = ts.map name := by
  induction ts with
  | nil => rfl
  | cons t ts ih =>
    by_cases h : name t = k
    · simp [put, h, hnew]
    · simp [put, h, ih]

theorem lookup_put_self (hnew : name new = k) (h : k ∈ ts.map name) :
    lookup name (put name k new ts) k = some new := by
  induction ts with
  | nil => simp at h
  | cons t ts ih =>
    by_cases ht : name t = k
    · simp [put, ht, lookup_cons, hnew]
    · have hrest : k ∈ ts.map name := by
        simpa [Ne.symm ht] using h
      simp [put, ht, lookup_cons, ih hrest]

theorem lookup_put_of_ne (hnew : name new = k) (hne : k' ≠ k) :
    lookup name (put name k new ts) k' = lookup name ts k' := by
  induction ts with
  | nil => rfl
  | cons t ts ih =>
    by_cases ht : name t = k
    · simp [put, ht, lookup_cons, hnew, Ne.symm hne]
    · simp [put, ht, lookup_cons, ih]

theorem map_remove : (remove name ts k).map name = (ts.map name).erase k := by
  induction ts with
  | nil => rfl
  | cons t ts ih =>
    unfold remove at ih ⊢
    by_cases h : name t = k
    · simp [h]
    · simp [h, ih]

theorem lookup_remove_self (hnodup : (ts.map name).Nodup) : lookup name (remove name ts k) k = none := by
  rw [lookup_eq_none_iff, map_remove]
  exact hnodup.not_mem_erase

theorem lookup_remove_of_ne (hne : k' ≠ k) : lookup name (remove name ts k) k' = lookup name ts k' := by
  induction ts with
  | nil => rfl
  | cons t ts ih =>
    unfold remove at ih ⊢
    by_cases h : name t = k
    · simp [h, lookup_cons, Ne.symm hne]
    · simp [h, lookup_cons, ih]

omit [LawfulBEq K] in
theorem mem_put {ts : List T} (h : t ∈ put name k new ts) : t ∈ ts ∨ t = new := by
  induction ts with
  | nil => exact absurd h List.not_mem_nil
  | cons t' ts ih =>
    unfold put at h
    split at h
    · rcases List.mem_cons.mp h with rfl | hrest
      · exact .inr rfl
      · exact .inl (List.mem_cons_of_mem _ hrest)
    · rcases List.mem_cons.mp h with rfl | hrest
      · exact .inl (List.mem_cons_self ..)
      · exact (ih hrest).imp_left (List.mem_cons_of_mem _)

end Lookup

/-- No two objects have one name, and each of them counts those who hold it; nobody holds a name
without an object, and no object is held by nobody. -/
structure Tallied (name : T → K) (count : T → ℕ) (ts : List T) (holders : List K) : Prop where
  nodup : (ts.map name).Nodup
  pos : ∀ t ∈ ts, 0 < count t
  tally : ∀ k, holders.count k = (lookup name ts k).elim 0 count

section Tallied
variable [LawfulBEq K] {name : T → K} {count : T → ℕ} {ts : List T} {holders : List K} {t new : T} {k : K}

omit [LawfulBEq K] in
theorem tallied_nil : Tallied name count [] [] where
  nodup := List.nodup_nil
  pos _ h := absurd h List.not_mem_nil
  tally _ := rfl

omit [LawfulBEq K] in
theorem Tallied.count_of_lookup (h : Tallied name count ts holders) (hl : lookup name ts k = some t) :
    holders.count k = count t := by
  rw [h.tally, hl, Option.elim_some]

omit [LawfulBEq K] in
theorem Tallied.perm (h : Tallied name count ts holders) {holders' : List K}
    (hp : holders.Perm holders') : Tallied name count ts holders' where
  nodup := h.nodup
  pos := h.pos
  tally k := by rw [← hp.count_eq, h.tally]

/-- Who holds a name finds an object. -/
theorem Tallied.exists_lookup (h : Tallied name count ts holders) (hk : k ∈ holders) :
    ∃ t, lookup name ts k = some t := by
  cases hl : lookup name ts k with
  | none =>
    have hcount := h.tally k
    rw [hl, Option.elim_none, List.count_eq_zero] at hcount
    exact absurd hk hcount
  | some t => exact ⟨t,rfl⟩

theorem Tallied.mem_holders (h : Tallied name count ts holders) (ht : t ∈ ts) : name t ∈ holders := by
  rw [← List.count_pos_iff, h.count_of_lookup (lookup_of_mem h.nodup ht)]
  exact h.pos t ht

/-- When nobody holds anything, nothing is left. -/
theorem Tallied.eq_nil (h : Tallied name count ts []) : ts = [] := by
  rw [List.eq_nil_iff_forall_not_mem]
  intro t ht
  exact absurd (h.mem_holders ht) List.not_mem_nil

/-- An object is replaced by one that counts as many holders as there are now. -/
theorem Tallied.put (h : Tallied name count ts holders) (hl : lookup name ts k = some t)
    (hnew : name new = k) {holders' : List K} (hcount : count new = holders'.count k)
    (hpos : 0 < count new) (hother : ∀ k' ≠ k, holders'.count k' = holders.count k') :
    Tallied name count (put name k new ts) holders' where
  nodup := by rw [map_put hnew]; exact h.nodup
  pos t' ht' := by
    have hnodup : ((Registry.put name k new ts).map name).Nodup := by rw [map_put hnew]; exact h.nodup
    have hl' := lookup_of_mem hnodup ht'
    by_cases heq : name t' = k
    · rw [heq, lookup_put_self hnew (List.mem_map.mpr ⟨t,mem_of_lookup hl,name_of_lookup hl⟩)] at hl'
      rw [← Option.some.inj hl']
      exact hpos
    · rw [lookup_put_of_ne hnew heq] at hl'
      exact h.pos t' (mem_of_lookup hl')
  tally k' := by
    by_cases heq : k' = k
    · subst heq
      rw [lookup_put_self hnew (List.mem_map.mpr ⟨t,mem_of_lookup hl,name_of_lookup hl⟩),
        Option.elim_some, hcount]
    · rw [lookup_put_of_ne hnew heq, hother k' heq, h.tally]

/-- A change that leaves the count alone. -/
theorem Tallied.change (h : Tallied name count ts holders) (hl : lookup name ts k = some t)
    (hnew : name new = k) (hcount : count new = count t) :
    Tallied name count (Registry.put name k new ts) holders :=
  h.put hl hnew (hcount.trans (h.count_of_lookup hl).symm)
    (by rw [hcount]; exact h.pos t (mem_of_lookup hl)) fun _ _ => rfl

/-- One more holder of an object. -/
theorem Tallied.join (h : Tallied name count ts holders) (hl : lookup name ts k = some t)
    (hnew : name new = k) (hcount : count new = count t + 1) :
    Tallied name count (Registry.put name k new ts) (k::holders) := by
  refine h.put hl hnew ?_ (by omega) fun k' hne => List.count_cons_of_ne (Ne.symm hne)
  rw [List.count_cons_self, h.count_of_lookup hl, hcount]

/-- The first holder of an object. -/
theorem Tallied.create (h : Tallied name count ts holders) (hl : lookup name ts (name t) = none)
    (hcount : count t = 1) : Tallied name count (ts ++ [t]) (name t::holders) where
  nodup := by
    rw [List.map_append, List.map_singleton]
    exact List.nodup_append.mpr ⟨h.nodup,List.nodup_singleton _,fun k hk k' hk' heq =>
      lookup_eq_none_iff.mp hl (by rw [← List.mem_singleton.mp hk', ← heq]; exact hk)⟩
  pos t' ht' := by
    rcases List.mem_append.mp ht' with hold | hnew
    · exact h.pos t' hold
    · rw [List.mem_singleton.mp hnew, hcount]
      exact Nat.one_pos
  tally k := by
    rw [lookup_append_singleton]
    by_cases heq : name t = k
    · subst heq
      rw [hl, List.count_cons_self, h.tally, hl]
      simp [hcount]
    · rw [List.count_cons_of_ne heq, h.tally]
      simp [heq]

/-- A holder leaves, and others stay. -/
theorem Tallied.leave (h : Tallied name count ts holders) (hl : lookup name ts k = some t)
    (hnew : name new = k) (hcount : count new = count t - 1) (hmore : 1 < count t) :
    Tallied name count (Registry.put name k new ts) (holders.erase k) := by
  refine h.put hl hnew ?_ (by omega) fun k' hne => List.count_erase_of_ne hne
  rw [List.count_erase_self, h.count_of_lookup hl, hcount]

/-- The last holder leaves. -/
theorem Tallied.last (h : Tallied name count ts holders) (hl : lookup name ts k = some t)
    (hcount : count t = 1) : Tallied name count (remove name ts k) (holders.erase k) where
  nodup := by rw [map_remove]; exact h.nodup.erase k
  pos t' ht' := h.pos t' (List.eraseP_subset ht')
  tally k' := by
    by_cases heq : k' = k
    · subst heq
      rw [lookup_remove_self h.nodup, List.count_erase_self, h.count_of_lookup hl, hcount]
      rfl
    · rw [lookup_remove_of_ne heq, List.count_erase_of_ne heq, h.tally]

end Tallied
end Registry
