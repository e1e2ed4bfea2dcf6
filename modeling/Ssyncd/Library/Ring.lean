import Mathlib.Data.List.Rotate
import Mathlib.Tactic.Common

/-! Rings that keep the latest values, as an array of cells, the position after the last write
and the number of cells in use; and the history that such a ring stands for. -/
namespace Ring
variable {α : Type*}

/-- The history of a ring, oldest first: at first the cells in use, and once all of them are, the
cells from the next one to be written on. -/
structure Holds (cells : List α) (next used : ℕ) (history : List α) : Prop where
  next_le : next ≤ cells.length
  used_le : used ≤ cells.length
  filling : used < cells.length → next = used
  eq_rotate : history = (cells.take used).rotate next

/-- The latest values, as many as the ring has cells. -/
def push (capacity : ℕ) (history : List α) (a : α) : List α :=
  if history.length < capacity then history ++ [a] else history.tail ++ [a]

def pushAll (capacity : ℕ) (history : List α) (as : List α) : List α := as.foldl (push capacity) history

variable {cells history : List α} {next used : ℕ}

theorem Holds.length (h : Holds cells next used history) : history.length = used := by
  rw [h.eq_rotate, List.length_rotate, List.length_take, Nat.min_eq_left h.used_le]

/-- The cells in use are the history in another order. -/
theorem Holds.perm (h : Holds cells next used history) : (cells.take used).Perm history := by
  rw [h.eq_rotate]
  exact (List.rotate_perm _ _).symm

/-- While the ring fills up, its cells are the history. -/
theorem Holds.take_eq (h : Holds cells next used history) (hfill : used < cells.length) :
    cells.take used = history := by
  rw [h.eq_rotate, h.filling hfill]
  have hlen : (cells.take used).length = used := by
    rw [List.length_take, Nat.min_eq_left h.used_le]
  exact (hlen ▸ List.rotate_length (cells.take used)).symm

theorem Holds.next_le_used (h : Holds cells next used history) : next ≤ used := by
  by_cases hfill : used < cells.length
  · exact Nat.le_of_eq (h.filling hfill)
  · exact h.next_le.trans (Nat.le_of_not_lt hfill)

/-- In a full ring the oldest value gives way. -/
theorem rotate_set_succ {i : ℕ} (hi : i < cells.length) (a : α) :
    (cells.set i a).rotate (i + 1) = (cells.rotate i).tail ++ [a] := by
  have hset : i + 1 ≤ (cells.set i a).length := by
    rw [List.length_set]
    exact hi
  rw [List.rotate_eq_drop_append_take hset, List.rotate_eq_drop_append_take (Nat.le_of_lt hi),
    List.drop_set_of_lt (Nat.lt_succ_self i), List.take_add_one, List.take_set_of_le (Nat.le_refl i),
    List.getElem?_set_self hi, List.drop_eq_getElem_cons hi, List.cons_append, List.tail_cons,
    List.append_assoc]
  rfl

/-- A write goes to the next cell, or to the first one after the last. -/
theorem Holds.write (h : Holds cells next used history) (hpos : 0 < cells.length) (a : α) :
    Holds (cells.set (next % cells.length) a) (next % cells.length + 1)
      (max used (next % cells.length + 1)) (push cells.length history a) := by
  have hmod : next % cells.length < cells.length := Nat.mod_lt _ hpos
  by_cases hfill : used < cells.length
  · have hnext := h.filling hfill
    have hmax : max used (used + 1) = used + 1 := Nat.max_eq_right (Nat.le_succ used)
    rw [hnext, Nat.mod_eq_of_lt hfill, hmax]
    have hle : used + 1 ≤ (cells.set used a).length := by
      rw [List.length_set]
      exact hfill
    refine ⟨hle,hle,fun _ => rfl,?_⟩
    rw [push, if_pos (h.length ▸ hfill), ← h.take_eq hfill, List.take_add_one,
      List.take_set_of_le (Nat.le_refl used), List.getElem?_set_self hfill]
    have hlen : (cells.take used ++ [a]).length = used + 1 := by
      rw [List.length_append, List.length_take, Nat.min_eq_left h.used_le]
      rfl
    exact (hlen ▸ List.rotate_length (cells.take used ++ [a])).symm
  · have hused : used = cells.length := Nat.le_antisymm h.used_le (Nat.le_of_not_lt hfill)
    have hmax : max used (next % cells.length + 1) = (cells.set (next % cells.length) a).length := by
      rw [List.length_set]
      omega
    have hhistory : history = cells.rotate (next % cells.length) := by
      rw [h.eq_rotate, hused, List.take_length, List.rotate_mod]
    rw [hmax]
    refine ⟨by rw [List.length_set]; exact hmod,Nat.le_refl _,fun hlt => absurd hlt (Nat.lt_irrefl _),?_⟩
    rw [push, if_neg (h.length ▸ hfill), List.take_length, rotate_set_succ hmod, hhistory]

theorem Holds.first (a : α) (rest : List α) : Holds (a::rest) 1 1 [a] where
  next_le := by simp
  used_le := by simp
  filling _ := rfl
  eq_rotate := by simp

/-- The last value of the history is in the cell before the next one. -/
theorem Holds.last {before : ℕ} (h : Holds cells (before + 1) used history) :
    history.getLast? = cells[before]? := by
  have hused : before + 1 ≤ (cells.take used).length := by
    rw [List.length_take, Nat.min_eq_left h.used_le]
    exact h.next_le_used
  have hlast : before < cells.length := h.next_le
  have htake : (cells.take used).take (before + 1) = cells.take before ++ [cells[before]] := by
    rw [List.take_take, Nat.min_eq_left h.next_le_used, List.take_add_one,
      List.getElem?_eq_getElem hlast]
    rfl
  rw [h.eq_rotate, List.rotate_eq_drop_append_take hused, htake, ← List.append_assoc,
    List.getLast?_concat, List.getElem?_eq_getElem hlast]

theorem length_push {capacity : ℕ} {history : List α} (h : history.length ≤ capacity)
    (hpos : 0 < capacity) (a : α) : (push capacity history a).length ≤ capacity := by
  rw [push]
  split
  · next hlt => rw [List.length_append]; exact hlt
  · simp; omega

theorem push_sublist (capacity : ℕ) (history : List α) (a : α) :
    (push capacity history a).Sublist (history ++ [a]) := by
  rw [push]
  split
  · exact List.Sublist.refl _
  · exact (List.tail_sublist history).append_right [a]

/-- A list that fits is kept whole. -/
theorem pushAll_of_le {capacity : ℕ} {history as : List α}
    (h : history.length + as.length ≤ capacity) : pushAll capacity history as = history ++ as := by
  induction as generalizing history with
  | nil => exact (List.append_nil history).symm
  | cons a as ih =>
    rw [List.length_cons] at h
    have hpush : push capacity history a = history ++ [a] := if_pos (by omega)
    have hfits : (history ++ [a]).length + as.length ≤ capacity := by
      rw [List.length_append, List.length_singleton]
      omega
    have hrest := ih hfits
    rw [List.append_assoc] at hrest
    rw [pushAll, List.foldl_cons, hpush]
    exact hrest

/-- What is kept of the values, one after another, are the last ones. -/
theorem pushAll_eq_drop {capacity : ℕ} (hpos : 0 < capacity) {history : List α}
    (h : history.length ≤ capacity) (as : List α) :
    pushAll capacity history as = (history ++ as).drop (history.length + as.length - capacity) := by
  induction as generalizing history with
  | nil =>
    have hzero : history.length + 0 - capacity = 0 := Nat.sub_eq_zero_of_le h
    rw [List.length_nil, hzero, List.append_nil]
    rfl
  | cons a as ih =>
    have hrest := ih (length_push h hpos a)
    rw [pushAll, List.foldl_cons]
    refine hrest.trans ?_
    rw [push, List.length_cons]
    split
    · rw [List.append_assoc, List.length_append, List.length_singleton, Nat.add_assoc,
        Nat.add_comm 1]
      rfl
    · next hfull =>
      have hlen : history.length = capacity := by omega
      obtain ⟨oldest,later,rfl⟩ : ∃ oldest later, history = oldest::later :=
        List.exists_cons_of_length_pos (by omega)
      rw [List.length_cons] at hlen
      have hdrop : (oldest::later).length + (as.length + 1) - capacity = as.length + 1 := by
        rw [List.length_cons]
        omega
      have hdrop' : ((oldest::later).tail ++ [a]).length + as.length - capacity = as.length := by
        rw [List.tail_cons, List.length_append, List.length_singleton]
        omega
      rw [hdrop, hdrop', List.tail_cons, List.cons_append, List.drop_succ_cons, List.append_assoc]
      rfl

/-- Whether enough of the values have a property that later ones do not lose can be told from the
last ones, as long as there are enough of these. -/
theorem le_countP_drop_iff {capacity n : ℕ} (hn : n ≤ capacity) {p : α → Bool} {values : List α}
    (hlater : values.Pairwise fun a b => p a = true → p b = true) :
    n ≤ (values.drop (values.length - capacity)).countP p ↔ n ≤ values.countP p := by
  have hcount : values.countP p = (values.take (values.length - capacity)).countP p +
      (values.drop (values.length - capacity)).countP p := by
    rw [← List.countP_append, List.take_append_drop]
  by_cases hold : ∃ a ∈ values.take (values.length - capacity), p a = true
  · obtain ⟨a,ha,hp⟩ := hold
    have hall : ∀ b ∈ values.drop (values.length - capacity), p b = true := by
      have hsplit := hlater
      rw [← List.take_append_drop (values.length - capacity) values] at hsplit
      exact fun b hb => (List.pairwise_append.mp hsplit).2.2 a ha b hb hp
    have hlength : (values.drop (values.length - capacity)).length = capacity := by
      have hpos := List.length_pos_of_mem ha
      rw [List.length_take] at hpos
      rw [List.length_drop]
      omega
    have hfull := List.countP_eq_length.mpr hall
    omega
  · have hzero : (values.take (values.length - capacity)).countP p = 0 :=
      List.countP_eq_zero.mpr fun a ha hp => hold ⟨a,ha,hp⟩
    omega

/-- Once all cells are in use the next write is to the oldest value. -/
theorem Holds.oldest (h : Holds cells next used history) (hpos : 0 < cells.length)
    (hfull : used = cells.length) : (cells.take used)[next % cells.length]? = history.head? := by
  have hmod : next % cells.length < cells.length := Nat.mod_lt _ hpos
  rw [h.eq_rotate, hfull, List.take_length, ← List.rotate_mod, List.head?_rotate hmod]

end Ring
