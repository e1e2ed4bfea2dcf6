import Ssyncd.Proc.Show

/-! How the daemon reads a whole proc file. -/
namespace Ssyncd
namespace XtRecentProc
open Recent Kernel

/-- The lines that getline gives, one after another; the last one needs no end. -/
def lines : Bytes → List Bytes
  | [] => []
  | b::s =>
    if b = 10 then []::lines s
    else
      match lines s with
      | [] => [[b]]
      | line::rest => (b::line)::rest

def addEntry (table : XtRecentTable) (newEntry : XtRecentEntry) : XtRecentTable :=
  if newEntry.srcIp.isEmpty then table
  else { table with entries := table.entries.insert newEntry.srcIp newEntry }

/-- A file that cannot be opened has no lines. -/
def getTable (tableName content : Bytes) : Except Fault XtRecentTable :=
  (lines content).foldlM (fun table line => return addEntry table (← parseFileRow line))
    { name := tableName }

theorem lines_cons {line : Bytes} (h : (10 : UInt8) ∉ line) (s : Bytes) :
    lines (line ++ 10::s) = line::lines s := by
  induction line with
  | nil => rfl
  | cons b line ih =>
    have hb : b ≠ 10 := fun he => h (he ▸ List.mem_cons_self ..)
    rw [List.cons_append, lines, if_neg hb, ih fun hm => h (List.mem_cons_of_mem _ hm)]

variable {mask : UInt8}

theorem newline_not_mem_row (e : RecentEntry mask) : (10 : UInt8) ∉ row e := by
  intro hb
  have := anyByte_row e 10 hb
  contradiction

theorem lines_file (es : List (RecentEntry mask)) : lines (es.flatMap recentSeqShow) = es.map row := by
  induction es with
  | nil => rfl
  | cons e es ih =>
    rw [List.flatMap_cons, List.map_cons, ← ih, recentSeqShow, List.append_assoc]
    exact lines_cons (newline_not_mem_row e) _

/-- The address that is read from the row of an entry. -/
def readSrc (e : RecentEntry mask) : Bytes := parseData (row e) srcPattern

/-- What is read from the row of an entry. -/
def readEntry (e : RecentEntry mask) : XtRecentEntry where
  srcIp := readSrc e
  ttl := e.ttl.toNat
  lastSeenIndex := e.index.toNat
  timestamps := e.visible.filter fun stamp => stamp != 0
  ipFamily := .named .ipv4

@[simp] theorem srcIp_readEntry (e : RecentEntry mask) : (readEntry e).srcIp = readSrc e := by
  rw [readEntry]

/-- What is read from the file of a table. -/
def readTable (t : RecentTable) : XtRecentTable :=
  (t.entries.map readEntry).foldl addEntry { name := t.name }

theorem getTable_file (t : RecentTable) : getTable t.name t.file = .ok (readTable t) := by
  have hrow : ∀ (table : XtRecentTable) (e : RecentEntry t.nstampsMaxMask),
      (do return addEntry table (← parseFileRow (row e)) : Except Fault XtRecentTable) =
        pure (addEntry table (readEntry e)) := fun table e => by
    rw [parseFileRow_row]
    rfl
  have hall : ∀ (es : List (RecentEntry t.nstampsMaxMask)) (table : XtRecentTable),
      (es.map row).foldlM (fun table line => return addEntry table (← parseFileRow line)) table =
        (.ok ((es.map readEntry).foldl addEntry table) : Except Fault XtRecentTable) := by
    intro es
    induction es with
    | nil => exact fun _ => rfl
    | cons e es ih =>
      intro table
      rw [List.map_cons, List.foldlM_cons, hrow, pure_bind, ih, List.map_cons, List.foldl_cons]
  rw [getTable, RecentTable.file, lines_file, readTable, hall]

theorem name_foldl_addEntry (news : List XtRecentEntry) (table : XtRecentTable) :
    (news.foldl addEntry table).name = table.name := by
  induction news generalizing table with
  | nil => rfl
  | cons new news ih =>
    rw [List.foldl_cons, ih, addEntry]
    split <;> rfl

@[simp] theorem readTable_name (t : RecentTable) : (readTable t).name = t.name :=
  name_foldl_addEntry _ _

/-- Every entry that is read stands under its own address, and comes from some row. -/
theorem getElem?_foldl_addEntry {news : List XtRecentEntry} {table : XtRecentTable} {ip : Bytes}
    {e : XtRecentEntry} (h : (news.foldl addEntry table).entries[ip]? = some e) :
    table.entries[ip]? = some e ∨ e ∈ news ∧ e.srcIp = ip ∧ ip ≠ [] := by
  induction news generalizing table with
  | nil => exact .inl h
  | cons new news ih =>
    rcases ih h with hadd | ⟨hmem,hip,hne⟩
    · unfold addEntry at hadd
      split at hadd
      · exact .inl hadd
      · next hsrc =>
        rw [Std.ExtTreeMap.getElem?_insert] at hadd
        split at hadd
        · next heq =>
          obtain rfl := Option.some.inj hadd
          obtain rfl := Std.compare_eq_iff_eq.mp heq
          exact .inr ⟨List.mem_cons_self ..,rfl,by simpa using hsrc⟩
        · exact .inl hadd
    · exact .inr ⟨List.mem_cons_of_mem _ hmem,hip,hne⟩

theorem mem_foldl_addEntry {news : List XtRecentEntry} {table : XtRecentTable} {ip : Bytes} :
    ip ∈ (news.foldl addEntry table).entries ↔
      ip ∈ table.entries ∨ ip ≠ [] ∧ ∃ e ∈ news, e.srcIp = ip := by
  induction news generalizing table with
  | nil => simp
  | cons new news ih =>
    rw [List.foldl_cons, ih, addEntry]
    split
    · next hsrc =>
      have hnil : new.srcIp = [] := List.isEmpty_iff.mp hsrc
      constructor
      · rintro (h | ⟨hne,e,he,hip⟩)
        · exact .inl h
        · exact .inr ⟨hne,e,List.mem_cons_of_mem _ he,hip⟩
      · rintro (h | ⟨hne,e,he,hip⟩)
        · exact .inl h
        · rcases List.mem_cons.mp he with rfl | he
          · exact absurd (hip.symm.trans hnil) hne
          · exact .inr ⟨hne,e,he,hip⟩
    · next hsrc =>
      have hnew : new.srcIp ≠ [] := by simpa using hsrc
      rw [Std.ExtTreeMap.mem_insert, Std.compare_eq_iff_eq]
      constructor
      · rintro ((rfl | h) | ⟨hne,e,he,hip⟩)
        · exact .inr ⟨hnew,new,List.mem_cons_self ..,rfl⟩
        · exact .inl h
        · exact .inr ⟨hne,e,List.mem_cons_of_mem _ he,hip⟩
      · rintro (h | ⟨hne,e,he,hip⟩)
        · exact .inl (.inr h)
        · rcases List.mem_cons.mp he with rfl | he
          · exact .inl (.inl hip)
          · exact .inr ⟨hne,e,he,hip⟩

theorem mem_readTable {t : RecentTable} {ip : Bytes} :
    ip ∈ (readTable t).entries ↔ ip ≠ [] ∧ ∃ e ∈ t.entries, readSrc e = ip := by
  simp [readTable, mem_foldl_addEntry, readEntry]

theorem getElem?_readTable {t : RecentTable} {ip : Bytes} {e : XtRecentEntry}
    (h : (readTable t).entries[ip]? = some e) :
    ip ≠ [] ∧ e.srcIp = ip ∧ ∃ e' ∈ t.entries, readEntry e' = e := by
  rcases getElem?_foldl_addEntry h with h | ⟨hmem,hip,hne⟩
  · simp at h
  · exact ⟨hne,hip,List.mem_map.mp hmem⟩

theorem length_readSrc (e : RecentEntry mask) : (readSrc e).length ≤ 15 := length_parseData_src _

theorem readSrc_of_isIpv4 {e : RecentEntry mask} (h : e.addr.IsIpv4) : readSrc e = e.addr.text :=
  parseData_row h

end XtRecentProc

namespace Kernel

theorem NfInetAddr.text_ne_nil (addr : NfInetAddr) : addr.text ≠ [] := by
  cases addr with
  | ip a b c d => simp [text, dottedQuad, addressText, Decimal.text_ne_nil]
  | ip6 s₀ s₁ s₂ s₃ s₄ s₅ s₆ s₇ => simp [text, List.intercalate, hexText]

/-- An IPv6 address is printed in full. -/
theorem NfInetAddr.length_text {addr : NfInetAddr} (h : ¬ addr.IsIpv4) : addr.text.length = 39 := by
  cases addr with
  | ip a b c d => exact absurd trivial h
  | ip6 s₀ s₁ s₂ s₃ s₄ s₅ s₆ s₇ => simp [text, List.intercalate, hexText]

end Kernel
end Ssyncd
