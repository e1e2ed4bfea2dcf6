import Mathlib.Tactic.Common

/-! Facts about ordered tables that hold for every key type with a lawful order. -/
namespace Table
variable {K V : Type*} [Ord K] [Std.TransOrd K] [Std.LawfulEqOrd K]

/-- The second of two insertions at a key is the one that counts. -/
theorem insert_insert (m : Std.ExtTreeMap K V) (k : K) (v w : V) :
    (m.insert k v).insert k w = m.insert k w := by
  apply Std.ExtTreeMap.ext_getElem?
  intro k'
  simp only [Std.ExtTreeMap.getElem?_insert]
  split <;> rfl

/-- A read with a fallback after an insertion. -/
theorem getD_insert_eq (m : Std.ExtTreeMap K V) [DecidableEq K] (k k' : K) (v fallback : V) :
    (m.insert k v).getD k' fallback = if k = k' then v else m.getD k' fallback := by
  simp only [Std.ExtTreeMap.getD_insert, Std.LawfulEqCmp.compare_eq_iff_eq]

/-- The keys of a table, in its order, are different. -/
theorem nodup_keys (m : Std.ExtTreeMap K V) : m.keys.Nodup :=
  Std.ExtTreeMap.distinct_keys.imp fun hne heq => hne (Std.compare_eq_iff_eq.mpr heq)

theorem nodup_toList (m : Std.ExtTreeMap K V) : (m.toList.map Prod.fst).Nodup := by
  rw [Std.ExtTreeMap.map_fst_toList_eq_keys]
  exact nodup_keys m

omit [Std.LawfulEqOrd K] in
/-- What does not hold of the fallback is read from the table. -/
theorem getD_iff {P : V → Prop} {m : Std.ExtTreeMap K V} {k : K} {d : V} (hd : ¬P d) :
    P (m.getD k d) ↔ ∃ v, m[k]? = some v ∧ P v := by
  rw [Std.ExtTreeMap.getD_eq_getD_getElem?]
  cases m[k]? with
  | none => simp [hd]
  | some v => simp

omit [Std.LawfulEqOrd K] in
/-- A read with a fallback that is not needed. -/
theorem getD_of_getElem? {m : Std.ExtTreeMap K V} {k : K} {v d : V} (h : m[k]? = some v) :
    m.getD k d = v := by
  rw [Std.ExtTreeMap.getD_eq_getD_getElem?, h]
  rfl

/-- In a list in order, what is taken is what has only such elements up to it. -/
theorem mem_takeWhile_of_ordered {α : Type*} {r : α → α → Prop} (hasymm : ∀ a b, r a b → ¬r b a)
    {p : α → Bool} {l : List α} (h : l.Pairwise r) (a : α) :
    a ∈ l.takeWhile p ↔ a ∈ l ∧ p a = true ∧ ∀ b ∈ l, r b a → p b = true := by
  induction l with
  | nil => simp
  | cons b l ih =>
    obtain ⟨hfirst,hrest⟩ := List.pairwise_cons.mp h
    by_cases hb : p b = true
    · rw [List.takeWhile_cons_of_pos hb, List.mem_cons, List.mem_cons, ih hrest]
      constructor
      · rintro (rfl | ⟨hmem,hpa,hall⟩)
        · refine ⟨.inl rfl,hb,fun b hmem hlt => ?_⟩
          rcases List.mem_cons.mp hmem with rfl | hmem
          · exact hb
          · exact absurd hlt (hasymm _ _ (hfirst _ hmem))
        · refine ⟨.inr hmem,hpa,fun c hc hlt => ?_⟩
          rcases List.mem_cons.mp hc with rfl | hc
          · exact hb
          · exact hall c hc hlt
      · rintro ⟨rfl | hmem,hpa,hall⟩
        · exact .inl rfl
        · exact .inr ⟨hmem,hpa,fun c hc => hall c (List.mem_cons_of_mem _ hc)⟩
    · rw [List.takeWhile_cons_of_neg hb]
      refine iff_of_false List.not_mem_nil ?_
      rintro ⟨hmem,hpa,hall⟩
      rcases List.mem_cons.mp hmem with rfl | hmem
      · exact hb hpa
      · exact hb (hall b (List.mem_cons_self ..) (hfirst a hmem))

end Table
