import Mathlib.Data.List.Nodup
import Mathlib.Data.List.Perm.Basic
import Mathlib.Tactic.Common

/-! A list that is kept in chains, one for each value of a hash. What is done to the chains is done to
the list, and together they hold what the list holds. -/
namespace Buckets
variable {α : Type*} {h h' : α → ℕ} {size : ℕ} {xs : List α} {x : α} {i : ℕ}

/-- What has this hash, in the order of the list. -/
def chain (h : α → ℕ) (xs : List α) (i : ℕ) : List α := xs.filter fun x => h x = i

def split (h : α → ℕ) (size : ℕ) (xs : List α) : List (List α) := (List.range size).map (chain h xs)

@[simp] theorem length_split : (split h size xs).length = size := by
  simp [split]

theorem getElem?_split (hi : i < size) : (split h size xs)[i]? = some (chain h xs i) := by
  simp [split, hi]

theorem split_nil : split h size [] = List.replicate size [] := by
  have hchain : chain h [] = fun _ => ([] : List α) := rfl
  rw [split, hchain, List.map_const', List.length_range]

theorem mem_chain : x ∈ chain h xs i ↔ x ∈ xs ∧ h x = i := by
  simp [chain]

/-- What can only be in one chain is looked for there. -/
theorem find?_chain {p : α → Bool} (hp : ∀ x ∈ xs, p x = true → h x = i) :
    (chain h xs i).find? p = xs.find? p := by
  induction xs with
  | nil => rfl
  | cons x xs ih =>
    have hrest := ih fun y hy => hp y (List.mem_cons_of_mem _ hy)
    unfold chain at hrest ⊢
    by_cases hx : h x = i
    · simp only [List.filter_cons, hx, decide_true, if_true, List.find?_cons, hrest]
    · have hout : p x = false := by
        by_contra hpx
        exact hx (hp x (List.mem_cons_self ..) (by simpa using hpx))
      simp [hx, hout, hrest]

theorem split_congr (heq : ∀ x ∈ xs, h x = h' x) : split h size xs = split h' size xs := by
  unfold split
  refine List.map_congr_left fun i _ => List.filter_congr fun x hx => ?_
  rw [heq x hx]

/-- A new element goes to the end of its chain. -/
theorem split_append :
    split h size (xs ++ [x]) = (split h size xs).modify (h x) (· ++ [x]) := by
  refine List.ext_getElem (by simp) fun i hi hi' => ?_
  rw [List.getElem_modify]
  by_cases heq : h x = i
  · simp [split, chain, heq]
  · simp [split, chain, heq]

/-- An element goes from its chain, which need not be known. -/
theorem split_erase [BEq α] [LawfulBEq α] :
    split h size (xs.erase x) = (split h size xs).map fun chain => chain.erase x := by
  simp [split, chain, List.erase_filter]

theorem flatten_erase [BEq α] [LawfulBEq α] {chains : List (List α)} (hnodup : chains.flatten.Nodup) :
    (chains.map fun chain => chain.erase x).flatten = chains.flatten.erase x := by
  rw [hnodup.erase_eq_filter, List.filter_flatten]
  refine congrArg List.flatten (List.map_congr_left fun chain hchain => ?_)
  exact ((List.nodup_flatten.mp hnodup).1 chain hchain).erase_eq_filter x

theorem flatten_erase_sublist [BEq α] {chains : List (List α)} :
    (chains.map fun chain => chain.erase x).flatten.Sublist chains.flatten := by
  induction chains with
  | nil => exact .refl _
  | cons chain chains ih => exact List.erase_sublist.append ih

theorem sublist_flatten_modify {chains : List (List α)} :
    chains.flatten.Sublist (chains.modify i (· ++ [x])).flatten := by
  induction chains generalizing i with
  | nil => cases i <;> exact .refl _
  | cons chain chains ih =>
    cases i with
    | zero => exact (List.sublist_append_left chain [x]).append (.refl _)
    | succ i => exact (List.Sublist.refl chain).append ih

/-- One chain after the other. -/
theorem flatten_split_perm (hall : ∀ x ∈ xs, h x < size) : (split h size xs).flatten.Perm xs := by
  have hbelow : ∀ size, (split h size xs).flatten.Perm (xs.filter fun x => h x < size) := by
    intro size
    induction size with
    | zero => simp [split]
    | succ size ih =>
      have hnext : split h (size+1) xs = split h size xs ++ [chain h xs size] := by
        simp [split, List.range_succ]
      have hlow : (xs.filter fun x => h x < size+1).filter (fun x => h x < size) =
          xs.filter fun x => h x < size := by
        rw [List.filter_filter]
        refine List.filter_congr fun x _ => ?_
        by_cases hx : h x < size
        · simp [hx, Nat.lt_succ_of_lt hx]
        · simp [hx]
      have hhigh : (xs.filter fun x => h x < size+1).filter (fun x => !decide (h x < size)) =
          chain h xs size := by
        rw [List.filter_filter]
        refine List.filter_congr fun x _ => ?_
        rw [← decide_not, ← Bool.decide_and]
        exact decide_eq_decide.mpr (by omega)
      have hparts := List.filter_append_perm (fun x => decide (h x < size))
        (xs.filter fun x => h x < size+1)
      rw [hlow, hhigh] at hparts
      rw [hnext, List.flatten_append, List.flatten_singleton]
      exact (ih.append_right _).trans hparts
  have hxs : (xs.filter fun x => h x < size) = xs := by
    simpa [List.filter_eq_self] using hall
  have hperm := hbelow size
  rw [hxs] at hperm
  exact hperm

end Buckets
