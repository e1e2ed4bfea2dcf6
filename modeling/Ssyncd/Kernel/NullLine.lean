import Ssyncd.Kernel.LineParts

/-! Which lines with stamps make the kernel module use a null pointer. -/
namespace Ssyncd
open Decimal
namespace Kernel

/-- A byte that does not separate tokens is in one of them. -/
theorem contains_splitOn {s : Bytes} {ct b : UInt8} (hne : b ≠ ct) :
    s.contains b = (s.splitOn ct).any (·.contains b) := by
  induction s with
  | nil => simp
  | cons c s ih =>
    rw [List.splitOn_cons_eq_if_modifyHead, List.contains_cons, ih]
    split
    · next heq =>
      have hc : c ≠ b := fun h => hne (h.symm.trans (beq_iff_eq.mp heq))
      simp [Ne.symm hc]
    · cases htokens : s.splitOn ct with
      | nil => exact absurd htokens (List.splitOn_ne_nil ct s)
      | cons token tokens =>
        simp only [List.modifyHead_cons, List.any_cons, List.contains_cons, Bool.or_assoc]

/-- The parts of a line that has a separator. -/
theorem lineParts_of_splitOn {in6Pton : Bytes → Option UInt8 → Option NfInetAddr} {c ipaddr ttl : Bytes}
    {tokens : List Bytes} (hsplit : c.splitOn 59 = ipaddr::ttl::tokens) {size : ℕ} (hsize : c.length < size) :
    lineParts in6Pton c size = some {
      addr := lineAddr in6Pton ipaddr ((ttl::tokens).any (·.contains 58))
      ttl := kstrtou8 ttl
      first := tokens.head?.bind kstrtoul
      later := tokens.tail.filterMap kstrtoul } := by
  have hmem : (59 : UInt8) ∈ c := by
    by_contra hnot
    rw [List.splitOn_eq_singleton hnot] at hsplit
    simp at hsplit
  obtain ⟨token,rest,rfl,hnot⟩ := List.eq_append_cons_of_mem hmem
  have htokens : token = ipaddr ∧ rest.splitOn 59 = ttl::tokens := by
    rw [List.splitOn_append_cons_self_of_not_mem hnot] at hsplit
    exact List.cons.inj hsplit
  obtain ⟨rfl,hrest⟩ := htokens
  have hall : strsepAll 59 (some rest) = ttl::tokens := hrest
  have htake : rest.take (size-1) = rest := by
    rw [List.length_append, List.length_cons] at hsize
    exact List.take_of_length_le (by omega)
  have hcolon : rest.contains 58 = (ttl::tokens).any (·.contains 58) := by
    rw [contains_splitOn (by decide : (58 : UInt8) ≠ 59), hrest]
  unfold lineParts
  rw [strsep_append hnot]
  simp only [strnchr, htake, hcolon, Option.map_some, strsep_fst, strsepAll_snd, hall, List.head?_cons,
    List.tail_cons, Option.elim_some, Option.bind_some]

/-- A line without a separator has no parts. -/
theorem splitOn_cases (c : Bytes) :
    (59 : UInt8) ∉ c ∨ ∃ ipaddr ttl tokens, c.splitOn 59 = ipaddr::ttl::tokens := by
  by_cases hmem : (59 : UInt8) ∈ c
  · obtain ⟨token,rest,rfl,hnot⟩ := List.eq_append_cons_of_mem hmem
    rw [List.splitOn_append_cons_self_of_not_mem hnot]
    obtain ⟨ttl,tokens,hrest⟩ := List.exists_cons_of_ne_nil (List.splitOn_ne_nil 59 rest)
    exact .inr ⟨token,ttl,tokens,by rw [hrest]⟩
  · exact .inl hmem

variable {nstampsMaxMask : UInt8}

namespace LiveTable

section Line
variable (t : LiveTable nstampsMaxMask) (in6Pton : Bytes → Option UInt8 → Option NfInetAddr)
  (ipListTot : ℕ) (jiffies : UInt64) (rest : Bytes) (kmalloc : Option Ptr)

/-- The write of a line never uses a null pointer, whatever is behind the NUL that ends it. -/
structure NullSafe : Prop where
  cursor : ∀ stack, (strsep 59 (some (cString (rest ++ 0::stack)))).2 ≠ none
  completes : ∀ stack, ∃ t' ret,
    t.recentMtProcWrite in6Pton ipListTot jiffies (42::rest) (0::stack) kmalloc = some (t',ret) ∧
      (ret = -EINVAL ∨ ret = (42::rest).length)

/-- A token is behind the address; and where the address is new and the ttl valid, either an entry is
made of the third token or no later one is a number. -/
structure NullFree : Prop where
  separated : 59 ∈ cString rest
  entry : ∀ (ipaddr ttl : Bytes) (tokens : List Bytes) (addr : NfInetAddr),
    (cString rest).splitOn 59 = ipaddr::ttl::tokens →
    lineAddr in6Pton ipaddr ((ttl::tokens).any (·.contains 58)) = some addr →
    t.recentEntryLookup addr 0 = none → kstrtou8 ttl ≠ none →
    tokens.head?.bind kstrtoul = none ∨ kmalloc = none → ∀ token ∈ tokens.tail, kstrtoul token = none

variable {t in6Pton ipListTot jiffies rest kmalloc}

theorem cString_nul (stack : Bytes) : cString (rest ++ 0::stack) = cString rest := by
  induction rest with
  | nil => rfl
  | cons b rest ih =>
    rw [List.cons_append, cString, cString, List.takeWhile_cons, List.takeWhile_cons]
    split
    · exact congrArg (b :: ·) ih
    · rfl

theorem length_cString_le (s : Bytes) : (cString s).length ≤ s.length :=
  (List.takeWhile_sublist _).length_le

/-- What a line does, in terms of its parts. -/
theorem recentMtProcWrite_parts (hsize : (42::rest).length ≤ 421) (stack : Bytes) :
    t.recentMtProcWrite in6Pton ipListTot jiffies (42::rest) stack kmalloc =
      (lineParts in6Pton (cString (rest ++ stack)) (42::rest).length).bind fun parts =>
        t.storeLine ipListTot parts (42::rest).length kmalloc := by
  unfold recentMtProcWrite
  dsimp only
  rw [if_neg (Nat.not_lt_of_le hsize)]
  exact writeLine_eq ..

theorem not_nullSafe_of_cursor (hnot : 59 ∉ cString rest) :
    ¬t.NullSafe in6Pton ipListTot jiffies rest kmalloc := by
  intro h
  have hcursor := h.cursor []
  rw [cString_nul] at hcursor
  exact hcursor ((strsep_snd_eq_none_iff _).mpr hnot)

theorem not_mem_of_splitOn_ne {c ipaddr ttl : Bytes} {tokens : List Bytes}
    (hsplit : c.splitOn 59 = ipaddr::ttl::tokens) : (59 : UInt8) ∈ c := by
  by_contra hnot
  rw [List.splitOn_eq_singleton hnot] at hsplit
  simp at hsplit

/-- A write is completed unless its parts reach an entry that is null. -/
theorem WellFormed.completes_iff (h : t.WellFormed) (hpos : 0 < ipListTot)
    (hfree : ∀ p ∈ kmalloc, t.heap p = none) (hsize : (42::rest).length ≤ 421) {parts : LineParts}
    {stack : Bytes} (hparts : lineParts in6Pton (cString (rest ++ stack)) (42::rest).length = some parts) :
    (∃ t' ret, t.recentMtProcWrite in6Pton ipListTot jiffies (42::rest) stack kmalloc = some (t',ret) ∧
      (ret = -EINVAL ∨ ret = (42::rest).length)) ↔ ¬t.NullEntry parts kmalloc := by
  rw [recentMtProcWrite_parts hsize, hparts, Option.bind_some,
    ← h.storeLine_eq_none_iff hpos hfree parts (42::rest).length]
  constructor
  · rintro ⟨t',ret,hs,-⟩ hnone
    rw [hnone] at hs
    exact Option.some_ne_none _ hs.symm
  · intro hsome
    obtain ⟨⟨t',ret⟩,hs⟩ := Option.ne_none_iff_exists'.mp hsome
    exact ⟨t',ret,hs,storeLine_ret hs⟩

theorem WellFormed.nullSafe_of_splitOn (h : t.WellFormed) (hpos : 0 < ipListTot)
    (hfree : ∀ p ∈ kmalloc, t.heap p = none) (hsize : (42::rest).length ≤ 421) {ipaddr ttl : Bytes}
    {tokens : List Bytes} (hsplit : (cString rest).splitOn 59 = ipaddr::ttl::tokens) :
    t.NullSafe in6Pton ipListTot jiffies rest kmalloc ↔ ∀ addr,
      lineAddr in6Pton ipaddr ((ttl::tokens).any (·.contains 58)) = some addr →
      t.recentEntryLookup addr 0 = none → kstrtou8 ttl ≠ none →
      tokens.head?.bind kstrtoul = none ∨ kmalloc = none →
        ∀ token ∈ tokens.tail, kstrtoul token = none := by
  have hlen : (cString rest).length < (42::rest).length :=
    Nat.lt_succ_of_le (length_cString_le rest)
  have hparts := fun stack => (@cString_nul rest stack).symm ▸
    @lineParts_of_splitOn in6Pton _ _ _ _ hsplit _ hlen
  have hdone := fun stack =>
    @completes_iff _ _ _ _ jiffies _ _ h hpos hfree hsize _ _ (hparts stack)
  have hnull : ∀ parts : LineParts, parts.later = tokens.tail.filterMap kstrtoul →
      (¬t.NullEntry parts kmalloc ↔ ∀ addr, parts.addr = some addr →
        t.recentEntryLookup addr 0 = none → parts.ttl ≠ none →
        parts.first = none ∨ kmalloc = none → ∀ token ∈ tokens.tail, kstrtoul token = none) := by
    intro parts hlater
    rw [NullEntry, hlater]
    simp only [not_exists, not_and, ne_eq, List.filterMap_eq_nil_iff, not_not]
  refine Iff.trans ?_ (hnull {
    addr := lineAddr in6Pton ipaddr ((ttl::tokens).any (·.contains 58))
    ttl := kstrtou8 ttl
    first := tokens.head?.bind kstrtoul
    later := tokens.tail.filterMap kstrtoul } rfl)
  constructor
  · exact fun hsafe => (hdone []).mp (hsafe.completes [])
  · refine fun hnot => ⟨fun stack => ?_,fun stack => (hdone stack).mpr hnot⟩
    rw [cString_nul, ne_eq, strsep_snd_eq_none_iff, not_not]
    exact not_mem_of_splitOn_ne hsplit

/-- A line is safe exactly where something is behind its address, and where no entry that could not be
made is given a later stamp. -/
theorem WellFormed.nullSafe_iff (h : t.WellFormed) (hpos : 0 < ipListTot)
    (hfree : ∀ p ∈ kmalloc, t.heap p = none) (hsize : (42::rest).length ≤ 421) :
    t.NullSafe in6Pton ipListTot jiffies rest kmalloc ↔ t.NullFree in6Pton rest kmalloc := by
  rcases splitOn_cases (cString rest) with hnot | ⟨ipaddr,ttl,tokens,hsplit⟩
  · exact iff_of_false (not_nullSafe_of_cursor hnot) fun hfree => hnot hfree.separated
  · rw [h.nullSafe_of_splitOn hpos hfree hsize hsplit]
    constructor
    · refine fun hall => ⟨not_mem_of_splitOn_ne hsplit,fun ipaddr' ttl' tokens' addr hsplit' => ?_⟩
      obtain ⟨rfl,rfl,rfl⟩ : ipaddr = ipaddr' ∧ ttl = ttl' ∧ tokens = tokens' := by
        simpa using hsplit.symm.trans hsplit'
      exact hall addr
    · exact fun hnull addr => hnull.entry ipaddr ttl tokens addr hsplit

end Line

/-- *1.2.3.4, and *1.2.3.4;0;x;5; for a table that does not have the address. -/
theorem not_nullSafe_empty :
    ¬({} : LiveTable 0).NullSafe (fun _ _ => none) 1 0 [49,46,50,46,51,46,52] (some 0) ∧
      ¬({} : LiveTable 0).NullSafe (fun _ _ => none) 1 0
        [49,46,50,46,51,46,52,59,48,59,120,59,53,59] (some 0) := by
  have hsize : (42::[49,46,50,46,51,46,52,59,48,59,120,59,53,59] : Bytes).length ≤ 421 := by decide
  have hfree : ∀ p ∈ some 0, ({} : LiveTable 0).heap p = none := fun _ _ => rfl
  refine ⟨not_nullSafe_of_cursor (by decide),fun h => ?_⟩
  have hnumber := (wellFormed_empty.nullSafe_of_splitOn Nat.one_pos hfree hsize
    (show (cString [49,46,50,46,51,46,52,59,48,59,120,59,53,59]).splitOn 59 =
      [[49,46,50,46,51,46,52],[48],[120],[53],[]] by decide)).mp h (.ip 1 2 3 4) (by decide) rfl
    (by decide) (.inl (by decide)) [53] (by decide)
  revert hnumber
  decide

/-- *1.2.3.4;0;5; is stored. -/
theorem nullSafe_one_stamp : ({} : LiveTable 0).NullSafe (fun _ _ => none) 1 0
    [49,46,50,46,51,46,52,59,48,59,53,59] (some 0) := by
  refine (wellFormed_empty.nullSafe_iff Nat.one_pos (fun _ _ => rfl) (by decide)).mpr ⟨by decide,?_⟩
  intro ipaddr ttl tokens addr hsplit _ _ _ hnull
  obtain ⟨rfl,rfl,rfl⟩ : [49,46,50,46,51,46,52] = ipaddr ∧ [48] = ttl ∧ [[53],[]] = tokens := by
    have hall : (cString [49,46,50,46,51,46,52,59,48,59,53,59]).splitOn 59 =
        [[49,46,50,46,51,46,52],[48],[53],[]] := by decide
    simpa using hall.symm.trans hsplit
  rcases hnull with hnull | hnull
  · revert hnull
    decide
  · contradiction

end LiveTable
end Kernel
end Ssyncd
