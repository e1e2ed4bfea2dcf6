import Mathlib.Data.List.TakeWhile
import Mathlib.Tactic.Common

/-! Backtracking search for a pattern: a sequence of atoms, each a run of letters of one class
that is as long as possible, with one group to capture. The first way to match counts, from the
leftmost place on. -/
namespace Regex
variable {α β : Type*}

/-- At least `least` letters of a class and at most `most`, if there is a bound. -/
structure Atom (α : Type*) where
  mem : α → Bool
  least : ℕ := 1
  most : Option ℕ := some 1

/-- A word, letter by letter. -/
def word [BEq α] (w : List α) : List (Atom α) := w.map fun c => { mem := fun x => x == c }

/-- The number of letters that an atom can take at most. -/
def Atom.reach (a : Atom α) (s : List α) : ℕ :=
  match a.most with
  | none => (s.takeWhile a.mem).length
  | some n => min n (s.takeWhile a.mem).length

/-- The first success when a number counts down to its least value. -/
def countdown (least : ℕ) (k : ℕ → Option β) : ℕ → Option β
  | 0 => if least = 0 then k 0 else none
  | n+1 => if least ≤ n+1 then (k (n+1)).or (countdown least k n) else none

def matchAtoms : List (Atom α) → (List α → Option β) → List α → Option β
  | [], k, s => k s
  | a::as, k, s => countdown a.least (fun n => matchAtoms as k (s.drop n)) (a.reach s)

structure Pattern (α : Type*) where
  before : List (Atom α)
  group : List (Atom α)

/-- What the group captures when the pattern matches at the front. -/
def Pattern.matchAt (p : Pattern α) (s : List α) : Option (List α) :=
  matchAtoms p.before (fun t =>
    matchAtoms p.group (fun rest => some (t.take (t.length - rest.length))) t) s

def Pattern.search (p : Pattern α) : List α → Option (List α)
  | [] => p.matchAt []
  | c::s => (p.matchAt (c::s)).or (p.search s)

theorem Pattern.search_of_matchAt {p : Pattern α} {s v : List α} (h : p.matchAt s = some v) :
    p.search s = some v := by
  cases s with
  | nil => exact h
  | cons c s => simp [search, h]

/-- The success that counts: every larger number fails. -/
theorem countdown_eq {least n m : ℕ} {k : ℕ → Option β} {v : β} (h : k n = some v)
    (hleast : least ≤ n) (hn : n ≤ m) (hlater : ∀ i, n < i → i ≤ m → k i = none) :
    countdown least k m = some v := by
  induction m with
  | zero =>
    obtain rfl : n = 0 := Nat.le_zero.mp hn
    rw [countdown, if_pos (Nat.le_zero.mp hleast), h]
  | succ m ih =>
    rw [countdown, if_pos (hleast.trans hn)]
    rcases Nat.lt_or_ge m n with hlt | hge
    · obtain rfl : n = m+1 := by omega
      rw [h, Option.some_or]
    · rw [hlater (m+1) (by omega) (Nat.le_refl _), Option.none_or]
      exact ih hge fun i hi him => hlater i hi (by omega)

theorem countdown_some {least m : ℕ} {k : ℕ → Option β} {v : β}
    (h : countdown least k m = some v) : ∃ n ≤ m, least ≤ n ∧ k n = some v := by
  induction m with
  | zero =>
    simp only [countdown] at h
    split at h
    · next hleast => exact ⟨0,Nat.le_refl _,Nat.le_of_eq hleast,h⟩
    · contradiction
  | succ m ih =>
    simp only [countdown] at h
    split at h
    · next hleast =>
      rcases Option.or_eq_some_iff.mp h with h | ⟨-,h⟩
      · exact ⟨m+1,Nat.le_refl _,hleast,h⟩
      · obtain ⟨n,hn,hk⟩ := ih h
        exact ⟨n,Nat.le_succ_of_le hn,hk⟩
    · contradiction

/-- A run that can go on to the end of the letters of its class. -/
theorem matchAtoms_run {a : Atom α} {as : List (Atom α)} {k : List α → Option β} {w s : List α}
    {v : β} (hreach : a.reach (w ++ s) = w.length) (hleast : a.least ≤ w.length)
    (h : matchAtoms as k s = some v) : matchAtoms (a::as) k (w ++ s) = some v := by
  refine countdown_eq (n := w.length) ?_ hleast (Nat.le_of_eq hreach.symm) fun i hi hlt => ?_
  · simpa using h
  · omega

theorem reach_letter [BEq α] [LawfulBEq α] (c : α) (s : List α) :
    Atom.reach { mem := fun x => x == c } (c::s) = 1 := by
  simp [Atom.reach]

theorem matchAtoms_word [BEq α] [LawfulBEq α] (w : List α) (as : List (Atom α))
    (k : List α → Option β) (s : List α) :
    matchAtoms (word w ++ as) k (w ++ s) = matchAtoms as k s := by
  induction w with
  | nil => rfl
  | cons c w ih =>
    change countdown 1 _ (Atom.reach _ (c::(w ++ s))) = _
    rw [reach_letter, countdown, countdown, if_pos (Nat.le_refl _), if_neg (by omega), Option.or_none]
    exact ih

theorem reach_letter_ne [BEq α] [LawfulBEq α] {c d : α} (h : d ≠ c) (s : List α) :
    Atom.reach { mem := fun x => x == c } (d::s) = 0 := by
  simp [Atom.reach, h]

/-- A word that does not come next does not match. -/
theorem matchAtoms_word_none [BEq α] [LawfulBEq α] {w s : List α} (h : ¬ w <+: s)
    (as : List (Atom α)) (k : List α → Option β) : matchAtoms (word w ++ as) k s = none := by
  induction w generalizing s with
  | nil => exact absurd List.nil_prefix h
  | cons c w ih =>
    cases s with
    | nil =>
      change countdown 1 _ (Atom.reach _ []) = none
      simp [Atom.reach, countdown]
    | cons d s =>
      change countdown 1 _ (Atom.reach _ (d::s)) = none
      by_cases hd : d = c
      · subst hd
        have hrest : ¬ w <+: s := fun hw => h (List.cons_prefix_cons.mpr ⟨rfl,hw⟩)
        rw [reach_letter, countdown, countdown, if_pos (Nat.le_refl _), if_neg (by omega),
          Option.or_none]
        exact ih hrest
      · rw [reach_letter_ne hd, countdown, if_neg (by omega)]

/-- A word is somewhere in a text. -/
def occurs [BEq α] (w : List α) : List α → Bool
  | [] => w.isEmpty
  | c::s => w.isPrefixOf (c::s) || occurs w s

theorem not_prefix_of_occurs [BEq α] [LawfulBEq α] {w s : List α} (h : occurs w s = false) (n : ℕ) :
    ¬ w <+: s.drop n := by
  induction s generalizing n with
  | nil =>
    have hne : w ≠ [] := by simpa [occurs] using h
    simpa using hne
  | cons c s ih =>
    rw [occurs, Bool.or_eq_false_iff] at h
    cases n with
    | zero =>
      rw [List.drop_zero, ← List.isPrefixOf_iff_prefix, h.1]
      exact Bool.false_ne_true
    | succ n => exact ih h.2 n

/-- Letters that are not the first of the word can be passed over. -/
theorem occurs_append [BEq α] [LawfulBEq α] {c : α} {w t s : List α} (h : c ∉ t) :
    occurs (c::w) (t ++ s) = occurs (c::w) s := by
  induction t with
  | nil => rfl
  | cons d t ih =>
    have hd : c ≠ d := fun he => h (he ▸ List.mem_cons_self ..)
    rw [List.cons_append, occurs, ih fun hc => h (List.mem_cons_of_mem _ hc), List.isPrefixOf,
      beq_false_of_ne hd, Bool.false_and, Bool.false_or]

theorem occurs_eq_false [BEq α] [LawfulBEq α] {c : α} {w s : List α} (h : c ∉ s) :
    occurs (c::w) s = false := by
  rw [← List.append_nil s, occurs_append h]
  rfl

/-- Any letters, as many as possible, and then a word: the word's last place counts. -/
theorem matchAtoms_last [BEq α] [LawfulBEq α] {any : α → Bool} {x w y : List α}
    {as : List (Atom α)} {k : List α → Option β} {v : β} (hall : ∀ c ∈ x ++ (w ++ y), any c = true)
    (hlast : occurs w (w ++ y).tail = false) (h : matchAtoms as k y = some v) :
    matchAtoms ({ mem := any, least := 0, most := none }::(word w ++ as)) k (x ++ (w ++ y)) =
      some v := by
  refine countdown_eq (n := x.length) ?_ (Nat.zero_le _) ?_ fun i hi _ => ?_
  · simpa [matchAtoms_word] using h
  · have hreach : (x ++ (w ++ y)).takeWhile any = x ++ (w ++ y) :=
      List.takeWhile_eq_self_iff.mpr hall
    simp [Atom.reach, hreach]
  · obtain ⟨j,rfl⟩ := Nat.exists_eq_add_of_lt hi
    have hdrop : (x ++ (w ++ y)).drop (x.length + j + 1) = (w ++ y).tail.drop j := by
      rw [Nat.add_assoc, List.drop_length_add_append, List.drop_tail]
    rw [hdrop]
    exact matchAtoms_word_none (not_prefix_of_occurs hlast j) as k

/-- A run of letters to capture, which ends with the first letter of another class. -/
theorem capture_run {a : Atom α} {w s : List α} (hmost : a.most = none) (hleast : a.least ≤ w.length)
    (hw : ∀ c ∈ w, a.mem c = true) (hs : ∀ c ∈ s.head?, a.mem c = false) :
    matchAtoms [a] (fun rest => some ((w ++ s).take ((w ++ s).length - rest.length))) (w ++ s) =
      some w := by
  have hstop : s.takeWhile a.mem = [] := by
    cases s with
    | nil => rfl
    | cons c s => exact List.takeWhile_cons_of_neg (by simp [hs c rfl])
  refine matchAtoms_run ?_ hleast ?_
  · simp [Atom.reach, hmost, List.takeWhile_append_of_pos hw, hstop]
  · simp [matchAtoms]

theorem matchAtoms_some {as : List (Atom α)} {k : List α → Option β} {s : List α} {v : β}
    (h : matchAtoms as k s = some v) : ∃ n, k (s.drop n) = some v := by
  induction as generalizing s with
  | nil => exact ⟨0,h⟩
  | cons a as ih =>
    obtain ⟨i,-,-,hk⟩ := countdown_some h
    obtain ⟨j,hv⟩ := ih hk
    rw [List.drop_drop] at hv
    exact ⟨i+j,hv⟩

theorem reach_le_length (a : Atom α) (s : List α) : a.reach s ≤ s.length := by
  have hlen := (List.takeWhile_sublist a.mem (l := s)).length_le
  unfold Atom.reach
  split
  · exact hlen
  · exact (Nat.min_le_right ..).trans hlen

/-- The letters of the first run are taken. -/
theorem matchAtoms_cons_some {a : Atom α} {as : List (Atom α)} {k : List α → Option β} {s : List α}
    {v : β} (h : matchAtoms (a::as) k s = some v) :
    ∃ n, a.least ≤ n ∧ a.least ≤ s.length ∧ k (s.drop n) = some v := by
  obtain ⟨i,hi,hleast,hk⟩ := countdown_some h
  obtain ⟨j,hv⟩ := matchAtoms_some hk
  rw [List.drop_drop] at hv
  exact ⟨i+j,Nat.le_add_right_of_le hleast,hleast.trans (hi.trans (reach_le_length a s)),hv⟩

/-- The letters that bounded atoms can take. -/
def width : List (Atom α) → Option ℕ
  | [] => some 0
  | a::as => a.most.bind fun n => (width as).map (n + ·)

theorem matchAtoms_width {as : List (Atom α)} {k : List α → Option β} {s : List α} {v : β} {n : ℕ}
    (hwidth : width as = some n) (h : matchAtoms as k s = some v) :
    ∃ i ≤ n, k (s.drop i) = some v := by
  induction as generalizing s n with
  | nil => exact ⟨0,Nat.zero_le _,h⟩
  | cons a as ih =>
    obtain ⟨m,hm,hrest⟩ := Option.bind_eq_some_iff.mp hwidth
    obtain ⟨n',hn',rfl⟩ := Option.map_eq_some_iff.mp hrest
    obtain ⟨i,hi,-,hk⟩ := countdown_some h
    obtain ⟨j,hj,hv⟩ := ih hn' hk
    have him : i ≤ m := by
      simp only [Atom.reach, hm] at hi
      omega
    rw [List.drop_drop] at hv
    exact ⟨i+j,Nat.add_le_add him hj,hv⟩

/-- A group of bounded atoms captures no more than their letters. -/
theorem Pattern.length_search_le {p : Pattern α} {n : ℕ} (hwidth : width p.group = some n)
    {s v : List α} (h : p.search s = some v) : v.length ≤ n := by
  have hat : ∀ s, p.matchAt s = some v → v.length ≤ n := by
    intro s hs
    obtain ⟨m,hm⟩ := matchAtoms_some hs
    obtain ⟨i,hi,hv⟩ := matchAtoms_width hwidth hm
    rw [← Option.some.inj hv]
    simp only [List.length_take, List.length_drop]
    omega
  induction s with
  | nil => exact hat [] h
  | cons c s ih =>
    rcases Option.or_eq_some_iff.mp h with h | ⟨-,h⟩
    · exact hat _ h
    · exact ih h

/-- Runs of the atoms, one after another, are at the front of a text. -/
def Prefixed : List (Atom α) → List α → Prop
  | [], _ => True
  | a::as, s => ∃ n, a.least ≤ n ∧ n ≤ a.reach s ∧ Prefixed as (s.drop n)

theorem countdown_isSome_iff {least m : ℕ} {k : ℕ → Option β} :
    (countdown least k m).isSome ↔ ∃ n, least ≤ n ∧ n ≤ m ∧ (k n).isSome := by
  induction m with
  | zero =>
    rw [countdown]
    constructor
    · split
      · next h => exact fun hk => ⟨0,Nat.le_of_eq h,Nat.le_refl 0,hk⟩
      · exact fun hk => absurd hk (by simp)
    · rintro ⟨n,hleast,hn,hk⟩
      obtain rfl := Nat.le_zero.mp hn
      rwa [if_pos (Nat.le_zero.mp hleast)]
  | succ m ih =>
    rw [countdown]
    split
    · next hle =>
      rw [Option.isSome_or, Bool.or_eq_true, ih]
      constructor
      · rintro (hk | ⟨n,hleast,hn,hk⟩)
        · exact ⟨m+1,hle,Nat.le_refl _,hk⟩
        · exact ⟨n,hleast,Nat.le_succ_of_le hn,hk⟩
      · rintro ⟨n,hleast,hn,hk⟩
        rcases Nat.le_succ_iff.mp hn with hn | rfl
        · exact .inr ⟨n,hleast,hn,hk⟩
        · exact .inl hk
    · next hgt =>
      refine iff_of_false (by simp) ?_
      rintro ⟨n,hleast,hn,-⟩
      exact hgt (hleast.trans hn)

/-- Whatever the order in which the ways to match are tried, one is found if there is one. -/
theorem matchAtoms_isSome_iff {as : List (Atom α)} {k : List α → Option β}
    (hk : ∀ s, (k s).isSome) (s : List α) : (matchAtoms as k s).isSome ↔ Prefixed as s := by
  induction as generalizing s with
  | nil => exact iff_of_true (hk s) trivial
  | cons a as ih => simp only [matchAtoms, countdown_isSome_iff, Prefixed, ih]

/-- A run of at most so many letters: one letter, and then the rest of the pattern or a run that is
one shorter. -/
theorem prefixed_run_succ {mem : α → Bool} (m : ℕ) (as : List (Atom α)) (c : α) (s : List α) :
    Prefixed ({ mem, most := some (m+1) }::as) (c::s) ↔
      mem c = true ∧ (Prefixed as s ∨ Prefixed ({ mem, most := some m }::as) s) := by
  cases hc : mem c with
  | false =>
    refine iff_of_false ?_ (by simp)
    rintro ⟨n,hleast,hn,-⟩
    simp only [Atom.reach, List.takeWhile_cons, hc] at hn hleast
    simp at hn
    omega
  | true =>
    simp only [Prefixed, Atom.reach, List.takeWhile_cons, hc, if_true, List.length_cons, true_and]
    constructor
    · rintro ⟨n,hleast,hn,hrest⟩
      obtain ⟨n,rfl⟩ := Nat.exists_eq_add_of_le' hleast
      cases n with
      | zero => exact .inl hrest
      | succ n => exact .inr ⟨n+1,Nat.le_add_left _ _,by omega,hrest⟩
    · rintro (hrest | ⟨n,hleast,hn,hrest⟩)
      · exact ⟨1,Nat.le_refl 1,by omega,hrest⟩
      · exact ⟨n+1,Nat.le_succ_of_le hleast,by omega,hrest⟩

theorem not_prefixed_run_zero {mem : α → Bool} (as : List (Atom α)) (s : List α) :
    ¬Prefixed ({ mem, most := some 0 }::as) s := by
  rintro ⟨n,hleast,hn,-⟩
  simp only [Atom.reach, Nat.zero_min] at hn
  exact absurd (hleast.trans hn) (by simp)

/-- A pattern that starts with a word that is nowhere else matches at the front or not at all. -/
theorem Pattern.search_word [BEq α] [LawfulBEq α] {c : α} {w y : List α} {group : List (Atom α)}
    (hlater : occurs (c::w) (w ++ y) = false) :
    Pattern.search { before := word (c::w), group } (c::w ++ y) =
      matchAtoms group (fun rest => some (y.take (y.length - rest.length))) y := by
  have hat : ∀ s, Pattern.matchAt { before := word (c::w), group } s =
      matchAtoms (word (c::w) ++ []) (fun t => matchAtoms group
        (fun rest => some (t.take (t.length - rest.length))) t) s := by
    intro s
    rw [List.append_nil]
    rfl
  have hnone : ∀ s, occurs (c::w) s = false →
      Pattern.search { before := word (c::w), group } s = none := by
    intro s hs
    induction s with
    | nil =>
      rw [search, hat]
      exact matchAtoms_word_none (not_prefix_of_occurs hs 0) _ _
    | cons d s ih =>
      have hrest : occurs (c::w) s = false := by
        rw [occurs, Bool.or_eq_false_iff] at hs
        exact hs.2
      rw [search, ih hrest, Option.or_none, hat]
      exact matchAtoms_word_none (not_prefix_of_occurs hs 0) _ _
  rw [List.cons_append, search, hnone _ hlater, Option.or_none, hat, ← List.cons_append,
    matchAtoms_word]
  rfl

end Regex
