import Ssyncd.Proc.Table
import Ssyncd.Store.RecentWrite

/-! Which tables are read back from their proc file as they are. Rows are told apart by the address
alone, and enough digits at the front of an IPv6 address pass for an IPv4 address. -/
namespace Ssyncd
open Decimal Regex

namespace Kernel

/-- The digit in the place of this unit is below ten. -/
def DecimalAt (unit : ℕ) (s : UInt16) : Prop := s.toNat/unit%16 < 10

instance (unit : ℕ) (s : UInt16) : Decidable (DecimalAt unit s) := inferInstanceAs (Decidable (_ < 10))

/-- The first nine places hold four runs of digits with one place between each two: two of the runs
before the first colon and two behind it. -/
def NfInetAddr.PassesForIpv4 : NfInetAddr → Prop
  | ip .. => False
  | ip6 s₀ s₁ _ _ _ _ _ _ =>
    (DecimalAt 4096 s₀ ∧ (DecimalAt 256 s₀ ∨ DecimalAt 16 s₀) ∧ DecimalAt 1 s₀) ∧
      DecimalAt 4096 s₁ ∧ (DecimalAt 16 s₁ ∨ DecimalAt 256 s₁ ∧ DecimalAt 1 s₁)

theorem isDigit_hexDigit {n : ℕ} (h : n < 16) : isDigit (hexDigit n) = true ↔ n < 10 := by
  have hall : ∀ n < 16, isDigit (hexDigit n) = true ↔ n < 10 := by decide
  exact hall n h

theorem hexDigit_ne_newline {n : ℕ} (h : n < 16) : hexDigit n ≠ 10 := by
  have hall : ∀ n < 16, hexDigit n ≠ 10 := by decide
  exact hall n h

theorem dot_not_mem_text {addr : NfInetAddr} (h : ¬addr.IsIpv4) : (46 : UInt8) ∉ addr.text := by
  cases addr with
  | ip => exact absurd trivial h
  | ip6 s₀ s₁ s₂ s₃ s₄ s₅ s₆ s₇ =>
    intro hb
    rcases mem_intercalate hb with hb | ⟨t,ht,hb⟩
    · contradiction
    · obtain ⟨s,-,rfl⟩ := List.mem_map.mp ht
      rcases isHex_hexText s 46 hb with hb | hb <;> contradiction

theorem dot_mem_text {addr : NfInetAddr} (h : addr.IsIpv4) : (46 : UInt8) ∈ addr.text := by
  cases addr with
  | ip a b c d => simp [NfInetAddr.text, dottedQuad, addressText]
  | ip6 => exact absurd h id

end Kernel

namespace XtRecentProc
open Recent Kernel

section Pattern
variable {as : List (Atom UInt8)} {c d e : UInt8} {s : Bytes}

theorem prefixed_octet : Prefixed (octet::as) (c::d::e::s) ↔
    isDigit c = true ∧ (Prefixed as (d::e::s) ∨
      isDigit d = true ∧ (Prefixed as (e::s) ∨ isDigit e = true ∧ Prefixed as s)) := by
  have hnone := fun t : Bytes => @not_prefixed_run_zero UInt8 isDigit as t
  rw [octet, prefixed_run_succ, prefixed_run_succ, prefixed_run_succ]
  simp only [hnone, or_false]

theorem prefixed_dot : Prefixed (dot::as) (c::s) ↔ c ≠ 10 ∧ Prefixed as s := by
  have hnone := fun t : Bytes => @not_prefixed_run_zero UInt8 anyByte as t
  rw [dot, prefixed_run_succ]
  simp only [hnone, or_false, anyByte, bne_iff_ne]

end Pattern

/-- Two groups of four letters, each with a colon behind it: only two runs of digits fit into a group. -/
theorem prefixed_groups {c₀ c₁ c₂ c₃ c₅ c₆ c₇ c₈ x y : UInt8} (h₁ : c₁ ≠ 10) (h₂ : c₂ ≠ 10)
    (h₆ : c₆ ≠ 10) (h₇ : c₇ ≠ 10) :
    Prefixed srcPattern.group (c₀::c₁::c₂::c₃::58::c₅::c₆::c₇::c₈::58::x::y::s) ↔
      (isDigit c₀ = true ∧ (isDigit c₁ = true ∨ isDigit c₂ = true) ∧ isDigit c₃ = true) ∧
        isDigit c₅ = true ∧ (isDigit c₇ = true ∨ isDigit c₆ = true ∧ isDigit c₈ = true) := by
  have hcolon : isDigit 58 = false := by decide
  have hnewline : (58 : UInt8) ≠ 10 := by decide
  have hnil : ∀ s : Bytes, Prefixed [] s := fun _ => trivial
  simp only [srcPattern, prefixed_octet, prefixed_dot, hcolon, hnewline, hnil, h₁, h₂, h₆, h₇,
    Bool.false_eq_true, false_and, or_false, and_false, true_and, and_true, ne_eq, not_false_eq_true]
  tauto

theorem isDigit_place (n : ℕ) : isDigit (hexDigit (n%16)) = true ↔ n%16 < 10 :=
  isDigit_hexDigit (Nat.mod_lt n (by decide))

theorem isDigit_top (s : UInt16) : isDigit (hexDigit (s.toNat/4096)) = true ↔ s.toNat/4096%16 < 10 := by
  have hlt := s.toNat_lt
  have htop : s.toNat/4096%16 = s.toNat/4096 := by omega
  rw [← isDigit_place, htop]

/-- The pattern of the address, on the address of a row. -/
theorem prefixed_text_ip6 (s₀ s₁ s₂ s₃ s₄ s₅ s₆ s₇ : UInt16) (rest : Bytes) :
    Prefixed srcPattern.group ((NfInetAddr.ip6 s₀ s₁ s₂ s₃ s₄ s₅ s₆ s₇).text ++ rest) ↔
      (NfInetAddr.ip6 s₀ s₁ s₂ s₃ s₄ s₅ s₆ s₇).PassesForIpv4 := by
  have hlow : ∀ n, hexDigit (n%16) ≠ 10 := fun n => hexDigit_ne_newline (Nat.mod_lt n (by decide))
  have hgroups := @prefixed_groups
    ((hexText s₂).drop 2 ++ 58::(hexText s₃ ++ 58::(hexText s₄ ++ 58::(hexText s₅ ++
      58::(hexText s₆ ++ 58::(hexText s₇ ++ rest))))))
    (hexDigit (s₀.toNat/4096)) _ _ (hexDigit (s₀.toNat%16))
    (hexDigit (s₁.toNat/4096)) _ _ (hexDigit (s₁.toNat%16))
    (hexDigit (s₂.toNat/4096)) (hexDigit (s₂.toNat/256%16))
    (hlow (s₀.toNat/256)) (hlow (s₀.toNat/16)) (hlow (s₁.toNat/256)) (hlow (s₁.toNat/16))
  simp only [isDigit_place, isDigit_top] at hgroups
  simp only [NfInetAddr.PassesForIpv4, DecimalAt, Nat.div_one]
  rw [← hgroups]
  rfl

variable {mask : UInt8}

/-- The row of an entry behind its address. -/
def rowTail (e : RecentEntry mask) : Bytes := ascii " " ++ (ascii "ttl: " ++ (fields e).ttlOn)

theorem occurs_src (e : RecentEntry mask) :
    occurs (ascii "src=") (ascii "rc=" ++ (e.addr.text ++ rowTail e)) = false := by
  have htext : ∀ n, (115 : UInt8) ∉ text n := fun n => not_mem_text (by decide) n
  have haddr : (115 : UInt8) ∉ e.addr.text :=
    fun hb => absurd (mem_text hb) (by decide)
  have hplain : Plain (fields e).stamps := plain_showStamps (by simp [Plain]) e.visible
  have hrest : (115 : UInt8) ∉ (fields e).stamps := hplain.not_mem (by decide) (by decide) (by decide)
  simp [ascii, rowTail, Fields.ttlOn, Fields.lastSeenOn, Fields.oldestPkt, occurs, List.isPrefixOf,
    occurs_append haddr, occurs_append (htext _), occurs_eq_false hrest]

/-- An address is read from a row where the pattern fits at its front, and nowhere else. -/
theorem readSrc_eq (e : RecentEntry mask) :
    readSrc e = (matchAtoms srcPattern.group (fun rest => some ((e.addr.text ++ rowTail e).take
      ((e.addr.text ++ rowTail e).length - rest.length))) (e.addr.text ++ rowTail e)).getD [] := by
  have hrow : row e = ascii "src=" ++ (e.addr.text ++ rowTail e) := by
    rw [row_eq_ttl, rowTail, List.append_assoc, List.append_assoc]
  rw [readSrc, parseData, hrow]
  exact congrArg (Option.getD · []) (Pattern.search_word (occurs_src e))

theorem length_rowTail_pos (e : RecentEntry mask) : 0 < (rowTail e).length := by
  simp [rowTail, ascii]

/-- What is read of an IPv6 address is a front of it. -/
theorem readSrc_of_ip6 {e : RecentEntry mask} (h : ¬e.addr.IsIpv4) :
    ∃ n, readSrc e = e.addr.text.take n := by
  have hlen := length_readSrc e
  have haddr := NfInetAddr.length_text h
  have htail := length_rowTail_pos e
  rw [readSrc_eq] at hlen ⊢
  cases hm : matchAtoms srcPattern.group (fun rest => some ((e.addr.text ++ rowTail e).take
      ((e.addr.text ++ rowTail e).length - rest.length))) (e.addr.text ++ rowTail e) with
  | none => exact ⟨0,rfl⟩
  | some v =>
    rw [hm, Option.getD_some] at hlen
    obtain ⟨n,hn⟩ := matchAtoms_some hm
    have hv := Option.some.inj hn
    refine ⟨_,hv.symm.trans (List.take_append_of_le_length ?_)⟩
    rw [← hv, List.length_take, List.length_append] at hlen
    rw [List.length_append]
    omega

theorem readSrc_ne_nil_iff {e : RecentEntry mask} (h : ¬e.addr.IsIpv4) :
    readSrc e ≠ [] ↔ e.addr.PassesForIpv4 := by
  have hfound : (matchAtoms srcPattern.group (fun rest => some ((e.addr.text ++ rowTail e).take
      ((e.addr.text ++ rowTail e).length - rest.length))) (e.addr.text ++ rowTail e)).isSome ↔
        e.addr.PassesForIpv4 := by
    rw [matchAtoms_isSome_iff fun _ => rfl]
    cases haddr : e.addr with
    | ip => exact absurd (haddr ▸ trivial) h
    | ip6 => exact prefixed_text_ip6 ..
  rw [← hfound, readSrc_eq]
  cases hm : matchAtoms srcPattern.group (fun rest => some ((e.addr.text ++ rowTail e).take
      ((e.addr.text ++ rowTail e).length - rest.length))) (e.addr.text ++ rowTail e) with
  | none => simp
  | some v =>
    obtain ⟨n,hpos,hlen,hn⟩ := matchAtoms_cons_some hm
    have hcaptured : 0 < v.length := by
      rw [← Option.some.inj hn, List.length_take, List.length_drop]
      have hone : octet.least = 1 := rfl
      omega
    exact iff_of_true (List.length_pos_iff.mp hcaptured) rfl

/-- A dotted quad is not the front of an IPv6 address. -/
theorem readSrc_ne_text {e : RecentEntry mask} (h : ¬e.addr.IsIpv4) {addr : NfInetAddr}
    (haddr : addr.IsIpv4) : readSrc e ≠ addr.text := by
  intro heq
  obtain ⟨n,hn⟩ := readSrc_of_ip6 h
  have hdot := dot_mem_text haddr
  rw [← heq, hn] at hdot
  exact dot_not_mem_text h (List.mem_of_mem_take hdot)

/-- An entry as it should be read. -/
def faithfulEntry (e : RecentEntry mask) : XtRecentEntry where
  srcIp := e.addr.text
  ttl := e.ttl.toNat
  lastSeenIndex := e.index.toNat
  timestamps := e.visible
  ipFamily := .named .ipv4

def ipv4Entries (t : RecentTable) : List (RecentEntry t.nstampsMaxMask) :=
  t.entries.filter fun e => e.addr.IsIpv4

/-- The table that is read has the IPv4 entries, each under its address, and no others. -/
def Faithful (t : RecentTable) : Prop :=
  ∃ table, getTable t.name t.file = .ok table ∧ table.name = t.name ∧
    table.entries.toList.Perm ((ipv4Entries t).map fun e => (e.addr.text,faithfulEntry e))

/-- Without digits that pass for an IPv4 address, an IPv6 row gives no entry. -/
theorem isIpv4_of_readSrc {e : RecentEntry mask} (hpass : ¬e.addr.PassesForIpv4)
    (hne : readSrc e ≠ []) : e.addr.IsIpv4 := by
  by_contra h
  exact hpass ((readSrc_ne_nil_iff h).mp hne)

theorem readEntry_eq_faithful {e : RecentEntry mask} (h : e.addr.IsIpv4)
    (hstamps : ∀ stamp ∈ e.visible, stamp ≠ 0) : readEntry e = faithfulEntry e := by
  have hfilter : e.visible.filter (fun stamp => stamp != 0) = e.visible :=
    List.filter_eq_self.mpr fun stamp hs => by simp [hstamps stamp hs]
  rw [readEntry, faithfulEntry, readSrc_of_isIpv4 h, hfilter]

theorem mem_ipv4Entries {t : RecentTable} {e : RecentEntry t.nstampsMaxMask} :
    e ∈ ipv4Entries t ↔ e ∈ t.entries ∧ e.addr.IsIpv4 := by
  simp [ipv4Entries]

section Read
variable {t : RecentTable}

/-- Where addresses are all there is to tell rows apart, the entries that are read are those of the
IPv4 rows. -/
theorem mem_toList_readTable (hnodup : ((ipv4Entries t).map (·.addr)).Nodup)
    (hpass : ∀ e ∈ t.entries, ¬e.addr.PassesForIpv4)
    (hstamps : ∀ e ∈ ipv4Entries t, ∀ stamp ∈ e.visible, stamp ≠ 0) (p : Bytes × XtRecentEntry) :
    p ∈ (readTable t).entries.toList ↔
      p ∈ (ipv4Entries t).map fun e => (e.addr.text,faithfulEntry e) := by
  have hread : ∀ e ∈ t.entries, readSrc e ≠ [] →
      e ∈ ipv4Entries t ∧ readSrc e = e.addr.text ∧ readEntry e = faithfulEntry e := by
    intro e he hne
    have hv4 := isIpv4_of_readSrc (hpass e he) hne
    have hmem := mem_ipv4Entries.mpr ⟨he,hv4⟩
    exact ⟨hmem,readSrc_of_isIpv4 hv4,readEntry_eq_faithful hv4 (hstamps e hmem)⟩
  obtain ⟨ip,entry⟩ := p
  rw [Std.ExtTreeMap.mem_toList_iff_getElem?_eq_some, List.mem_map]
  constructor
  · intro h
    obtain ⟨hne,hip,e,he,rfl⟩ := getElem?_readTable h
    rw [srcIp_readEntry] at hip
    obtain ⟨hmem,hsrc,hentry⟩ := hread e he (hip ▸ hne)
    exact ⟨e,hmem,by rw [← hsrc, hip, hentry]⟩
  · rintro ⟨e,hmem,heq⟩
    obtain ⟨rfl,rfl⟩ := Prod.mk.inj heq
    obtain ⟨he,hv4⟩ := mem_ipv4Entries.mp hmem
    have hin : e.addr.text ∈ (readTable t).entries :=
      mem_readTable.mpr ⟨NfInetAddr.text_ne_nil _,e,he,readSrc_of_isIpv4 hv4⟩
    obtain ⟨entry,hentry⟩ :=
      Option.isSome_iff_exists.mp (Std.ExtTreeMap.isSome_getElem?_iff_mem.mpr hin)
    obtain ⟨hne,hip,e',he',rfl⟩ := getElem?_readTable hentry
    rw [srcIp_readEntry] at hip
    obtain ⟨hmem',hsrc,hread'⟩ := hread e' he' (hip ▸ hne)
    -- the row that was read last for this address is the row itself
    have haddr : e.addr = e'.addr := NfInetAddr.text_inj hv4 (hip.symm.trans hsrc)
    obtain rfl := List.inj_on_of_nodup_map hnodup hmem hmem' haddr
    rw [hentry, hread']

theorem faithful_of (hnodup : ((ipv4Entries t).map (·.addr)).Nodup)
    (hpass : ∀ e ∈ t.entries, ¬e.addr.PassesForIpv4)
    (hstamps : ∀ e ∈ ipv4Entries t, ∀ stamp ∈ e.visible, stamp ≠ 0) : Faithful t := by
  refine ⟨readTable t,getTable_file t,readTable_name t,?_⟩
  refine (List.perm_ext_iff_of_nodup (Table.nodup_toList _).of_map ?_).mpr
    (mem_toList_readTable hnodup hpass hstamps)
  refine List.Nodup.map_on ?_ hnodup.of_map
  intro e he e' he' heq
  have haddr : e.addr = e'.addr :=
    NfInetAddr.text_inj (mem_ipv4Entries.mp he).2 (congrArg Prod.fst heq)
  exact List.inj_on_of_nodup_map hnodup he he' haddr

variable (hperm : (readTable t).entries.toList.Perm
  ((ipv4Entries t).map fun e => (e.addr.text,faithfulEntry e)))
include hperm

theorem nodup_of_perm : ((ipv4Entries t).map (·.addr)).Nodup := by
  have hkeys := (hperm.map Prod.fst).nodup_iff.mp (Table.nodup_toList _)
  rw [List.map_map] at hkeys
  refine List.Nodup.of_map NfInetAddr.text ?_
  rwa [List.map_map]

theorem not_passes_of_perm {e : RecentEntry t.nstampsMaxMask} (he : e ∈ t.entries) :
    ¬e.addr.PassesForIpv4 := by
  intro hpass
  have hv6 : ¬e.addr.IsIpv4 := by
    intro hv4
    cases haddr : e.addr with
    | ip => rw [haddr] at hpass; exact hpass
    | ip6 => rw [haddr] at hv4; exact hv4
  have hin : readSrc e ∈ (readTable t).entries :=
    mem_readTable.mpr ⟨(readSrc_ne_nil_iff hv6).mpr hpass,e,he,rfl⟩
  obtain ⟨entry,hentry⟩ :=
    Option.isSome_iff_exists.mp (Std.ExtTreeMap.isSome_getElem?_iff_mem.mpr hin)
  have hmem := hperm.mem_iff.mp (Std.ExtTreeMap.mem_toList_iff_getElem?_eq_some.mpr hentry)
  obtain ⟨e',he',heq⟩ := List.mem_map.mp hmem
  exact readSrc_ne_text hv6 (mem_ipv4Entries.mp he').2 (Prod.mk.inj heq).1.symm

theorem stamps_of_perm {e : RecentEntry t.nstampsMaxMask} (he : e ∈ ipv4Entries t) :
    ∀ stamp ∈ e.visible, stamp ≠ 0 := by
  have hmem := hperm.mem_iff.mpr (List.mem_map.mpr ⟨e,he,rfl⟩)
  obtain ⟨-,-,e',-,hread⟩ :=
    getElem?_readTable (Std.ExtTreeMap.mem_toList_iff_getElem?_eq_some.mp hmem)
  have hstamps : e'.visible.filter (fun stamp => stamp != 0) = e.visible :=
    congrArg XtRecentEntry.timestamps hread
  intro stamp hs
  rw [← hstamps] at hs
  simpa using (List.mem_filter.mp hs).2

end Read

theorem Faithful.perm {t : RecentTable} (h : Faithful t) : (readTable t).entries.toList.Perm
    ((ipv4Entries t).map fun e => (e.addr.text,faithfulEntry e)) := by
  obtain ⟨table,hget,-,hperm⟩ := h
  rw [getTable_file] at hget
  obtain rfl := Except.ok.inj hget
  exact hperm

/-- A table is read as it is exactly where no two IPv4 entries share an address, no IPv6 address has
digits that pass for an IPv4 one, and no stamp is 0. -/
theorem faithful_iff (t : RecentTable) :
    Faithful t ↔ ((ipv4Entries t).map (·.addr)).Nodup ∧
      (∀ e ∈ t.entries, ¬e.addr.PassesForIpv4) ∧
      ∀ e ∈ ipv4Entries t, ∀ stamp ∈ e.visible, stamp ≠ 0 := by
  constructor
  · intro h
    have hperm := h.perm
    exact ⟨nodup_of_perm hperm,fun e => not_passes_of_perm hperm,fun e => stamps_of_perm hperm⟩
  · rintro ⟨hnodup,hpass,hstamps⟩
    exact faithful_of hnodup hpass hstamps

/-- An entry with one stamp. -/
def oneStamp (addr : NfInetAddr) (ttl : UInt8) : RecentEntry 0 where
  addr
  ttl
  index := 1
  nstamps := 1
  stamps := [7]
  stamps_length := rfl
  nstamps_pos := Nat.one_pos
  nstamps_le := Nat.le_refl 1

/-- Two entries for 10.0.0.1 which only their ttl tells apart; no rule and no line makes such a table. -/
def twoTtls : RecentTable where
  name := [116]
  nstampsMaxMask := 0
  entries := [oneStamp (.ip 10 0 0 1) 64,oneStamp (.ip 10 0 0 1) 63]

/-- An entry for 2001:470::1. -/
def oneIpv6 : RecentTable where
  name := [116]
  nstampsMaxMask := 0
  entries := [oneStamp (.ip6 8193 1136 0 0 0 0 0 1) 64]

theorem not_faithful_twoTtls : ¬Faithful twoTtls ∧ ¬Faithful oneIpv6 := by
  refine ⟨fun h => ?_,fun h => ?_⟩
  · have hnodup := nodup_of_perm h.perm
    revert hnodup
    decide
  · refine not_passes_of_perm h.perm (List.mem_singleton_self _) ?_
    exact ⟨⟨by decide,.inl (by decide),by decide⟩,by decide,.inl (by decide)⟩

end XtRecentProc
end Ssyncd
