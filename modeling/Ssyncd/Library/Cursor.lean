import Mathlib.Data.List.Nodup
import Mathlib.Tactic.Common

/-! A list that is listed in rounds, each from the position where the one before it ended. Between two
rounds the list may become another one. -/
namespace Cursor
variable {α : Type*} {P : α → Prop} {xs xs' listed : List α} {pos : ℕ} {x : α}

/-- The next elements, at most so many. -/
def round (xs : List α) (pos k : ℕ) : List α := (xs.drop pos).take k

theorem drop_round (xs : List α) (pos k : ℕ) :
    xs.drop (pos + (round xs pos k).length) = (xs.drop pos).drop k := by
  rw [round, List.length_take, ← List.drop_drop]
  by_cases hk : k ≤ (xs.drop pos).length
  · rw [Nat.min_eq_left hk]
  · have hle : (xs.drop pos).length ≤ k := by omega
    rw [Nat.min_eq_right hle, List.drop_length, List.drop_of_length_le hle]

/-- A list that stays as it is is listed from its start. -/
theorem take_round (xs : List α) (pos k : ℕ) :
    xs.take (pos + (round xs pos k).length) = xs.take pos ++ round xs pos k := by
  rw [List.take_add, round, List.length_take, ← List.take_eq_take_min]

/-- All of these have been listed, or will be. -/
def Covers (P : α → Prop) (xs : List α) (pos : ℕ) (listed : List α) : Prop :=
  ∀ x, P x → x ∈ listed ∨ x ∈ xs.drop pos

theorem covers_start : Covers (· ∈ xs) xs 0 [] := fun _ hx => .inr hx

theorem Covers.round (h : Covers P xs pos listed) (k : ℕ) :
    Covers P xs (pos + (round xs pos k).length) (listed ++ round xs pos k) := by
  intro x hx
  rw [drop_round, List.mem_append]
  rcases h x hx with hlisted | hdrop
  · exact .inl (.inl hlisted)
  · rw [← List.take_append_drop k (xs.drop pos), List.mem_append] at hdrop
    exact hdrop.imp_left .inr

/-- Elements that come between others push none of them back. -/
theorem Covers.grow (h : Covers P xs pos listed) (hsub : xs.Sublist xs') : Covers P xs' pos listed :=
  fun x hx => (h x hx).imp_right fun hdrop => (hsub.drop pos).subset hdrop

theorem Covers.done (h : Covers P xs pos listed) (hend : xs.drop pos = []) (hx : P x) : x ∈ listed := by
  rcases h x hx with hlisted | hdrop
  · exact hlisted
  · rw [hend] at hdrop
    exact absurd hdrop List.not_mem_nil

/-- What has been listed has been listed once, and will not be again; nor will these be. -/
structure Spares (P : α → Prop) (xs : List α) (pos : ℕ) (listed : List α) : Prop where
  nodup : listed.Nodup
  behind : ∀ x ∈ listed, x ∉ xs.drop pos
  out : ∀ x, P x → x ∉ listed ∧ x ∉ xs.drop pos

theorem spares_start : Spares (fun _ => False) xs 0 [] where
  nodup := List.nodup_nil
  behind _ hx := absurd hx List.not_mem_nil
  out _ hx := hx.elim

theorem Spares.round (h : Spares P xs pos listed) (hxs : xs.Nodup) (k : ℕ) :
    Spares P xs (pos + (round xs pos k).length) (listed ++ round xs pos k) where
  nodup := by
    have hround : (Cursor.round xs pos k).Nodup := (hxs.drop).take
    refine List.nodup_append.mpr ⟨h.nodup,hround,?_⟩
    rintro x hx y hy rfl
    exact h.behind x hx (List.mem_of_mem_take hy)
  behind x hx := by
    rw [drop_round]
    rcases List.mem_append.mp hx with hlisted | hround
    · exact fun hdrop => h.behind x hlisted (List.mem_of_mem_drop hdrop)
    · have hparts : (xs.drop pos).Nodup := hxs.drop
      rw [← List.take_append_drop k (xs.drop pos)] at hparts
      exact fun hdrop => (List.nodup_append.mp hparts).2.2 x hround x hdrop rfl
  out x hx := by
    have hout := h.out x hx
    rw [drop_round, List.mem_append]
    exact ⟨not_or.mpr ⟨hout.1,fun hround => hout.2 (List.mem_of_mem_take hround)⟩,
      fun hdrop => hout.2 (List.mem_of_mem_drop hdrop)⟩

/-- Elements that go bring none of the others back. -/
theorem Spares.shrink (h : Spares P xs pos listed) (hsub : xs'.Sublist xs) : Spares P xs' pos listed where
  nodup := h.nodup
  behind x hx hdrop := h.behind x hx ((hsub.drop pos).subset hdrop)
  out x hx := ⟨(h.out x hx).1,fun hdrop => (h.out x hx).2 ((hsub.drop pos).subset hdrop)⟩

/-- Where an element goes that came before the position, the one at the position is passed over. -/
theorem drop_erase [BEq α] [LawfulBEq α] (hx : x ∈ xs.take pos) :
    (xs.erase x).drop pos = xs.drop (pos+1) := by
  induction xs generalizing pos with
  | nil => simp at hx
  | cons y xs ih =>
    cases pos with
    | zero => simp at hx
    | succ pos =>
      by_cases hxy : x = y
      · rw [hxy, List.erase_cons_head, List.drop_succ_cons]
      · have hrest : x ∈ xs.take pos := by simpa [hxy] using hx
        have hyx : (y == x) = false := beq_eq_false_iff_ne.mpr (Ne.symm hxy)
        rw [List.erase_cons_tail (by rw [hyx]; exact Bool.false_ne_true), List.drop_succ_cons, ih hrest,
          List.drop_succ_cons]

/-- That element is not listed any more. -/
theorem Spares.pass (h : Spares P xs pos listed) (hxs : xs.Nodup) [BEq α] [LawfulBEq α] {y : α}
    (hx : x ∈ listed) (hmem : x ∈ xs) (hy : xs[pos]? = some y) :
    Spares (· = y) (xs.erase x) pos listed := by
  have htake : x ∈ xs.take pos := by
    rw [← List.take_append_drop pos xs, List.mem_append] at hmem
    exact hmem.resolve_right (h.behind x hx)
  have hdrop : xs.drop pos = y::xs.drop (pos+1) := by
    obtain ⟨hlt,rfl⟩ := List.getElem?_eq_some_iff.mp hy
    exact List.drop_eq_getElem_cons hlt
  have hnodup : (y::xs.drop (pos+1)).Nodup := by
    rw [← hdrop]
    exact hxs.drop
  refine ⟨h.nodup,fun z hz => ?_,?_⟩
  · rw [drop_erase htake]
    have hbehind := h.behind z hz
    rw [hdrop] at hbehind
    exact fun hmem => hbehind (List.mem_cons_of_mem _ hmem)
  · rintro z rfl
    rw [drop_erase htake]
    refine ⟨fun hz => h.behind z hz ?_,(List.nodup_cons.mp hnodup).1⟩
    rw [hdrop]
    exact List.mem_cons_self ..

end Cursor
