import Ssyncd.Kernel.Strings
import Ssyncd.Proc.Row

/-! What the daemon reads of a row that the kernel printed. -/
namespace Ssyncd
open Decimal Regex

/-- Texts that are made of digits, commas and spaces. -/
def Plain (s : Bytes) : Prop := ∀ b ∈ s, isDigit b = true ∨ b = 44 ∨ b = 32

theorem plain_text (n : ℕ) : Plain (text n) := fun b hb => .inl (isDigit_text n b hb)

theorem Plain.not_mem {s : Bytes} (h : Plain s) {b : UInt8} (hd : isDigit b = false)
    (hc : b ≠ 44) (hs : b ≠ 32) : b ∉ s := by
  intro hb
  rcases h b hb with hb | rfl | rfl
  · rw [hd] at hb
    contradiction
  · exact hc rfl
  · exact hs rfl

theorem Plain.append {s t : Bytes} (hs : Plain s) (ht : Plain t) : Plain (s ++ t) := by
  intro b hb
  rcases List.mem_append.mp hb with hb | hb
  · exact hs b hb
  · exact ht b hb

namespace Kernel

theorem plain_showStamps {sep : Bytes} (hsep : Plain sep) (stamps : List UInt64) :
    Plain (showStamps sep stamps) := by
  induction stamps generalizing sep with
  | nil => simp [showStamps, Plain]
  | cons stamp stamps ih =>
    have hspace : Plain (ascii " ") := by simp [ascii, Plain]
    have hcomma : Plain (ascii ",") := by simp [ascii, Plain]
    exact ((hsep.append hspace).append (plain_text _)).append (ih hcomma)

/-- What stands in the row from the name of a field on, for the fields after the address. -/
structure Fields where
  ttl : ℕ
  lastSeen : ℕ
  index : ℕ
  stamps : Bytes

def Fields.oldestPkt (f : Fields) : Bytes := text f.index ++ f.stamps

def Fields.lastSeenOn (f : Fields) : Bytes :=
  text f.lastSeen ++ (ascii " oldest_pkt: " ++ f.oldestPkt)

def Fields.ttlOn (f : Fields) : Bytes := text f.ttl ++ (ascii " last_seen: " ++ f.lastSeenOn)

end Kernel

namespace XtRecentProc
open Kernel

section Fields
variable {f : Fields} {x : Bytes}

theorem occurs_ttl (hstamps : Plain f.stamps) :
    occurs (ascii "ttl: ") (ascii "ttl: " ++ f.ttlOn).tail = false := by
  have htext : ∀ n, (116 : UInt8) ∉ text n := fun n => not_mem_text (by decide) n
  have hrest : (116 : UInt8) ∉ f.stamps := hstamps.not_mem (by decide) (by decide) (by decide)
  simp [ascii, Fields.ttlOn, Fields.lastSeenOn, Fields.oldestPkt, occurs, List.isPrefixOf,
    occurs_append (htext _), occurs_eq_false hrest]

theorem occurs_lastSeen (hstamps : Plain f.stamps) :
    occurs (ascii "last_seen: ") (ascii "last_seen: " ++ f.lastSeenOn).tail = false := by
  have htext : ∀ n, (108 : UInt8) ∉ text n := fun n => not_mem_text (by decide) n
  have hrest : (108 : UInt8) ∉ f.stamps := hstamps.not_mem (by decide) (by decide) (by decide)
  simp [ascii, Fields.lastSeenOn, Fields.oldestPkt, occurs, List.isPrefixOf,
    occurs_append (htext _), occurs_eq_false hrest]

theorem occurs_oldestPkt (hstamps : Plain f.stamps) :
    occurs (ascii "oldest_pkt: ") (ascii "oldest_pkt: " ++ f.oldestPkt).tail = false := by
  have htext : ∀ n, (111 : UInt8) ∉ text n := fun n => not_mem_text (by decide) n
  have hrest : (111 : UInt8) ∉ f.stamps := hstamps.not_mem (by decide) (by decide) (by decide)
  simp [ascii, Fields.oldestPkt, occurs, List.isPrefixOf, occurs_append (htext _),
    occurs_eq_false hrest]

/-- A number behind the last place of its name. -/
theorem parseData_number {name x rest : Bytes} {n : ℕ}
    (hline : ∀ b ∈ x ++ (name ++ (text n ++ rest)), anyByte b = true)
    (hlast : occurs name (name ++ (text n ++ rest)).tail = false)
    (hrest : ∀ b ∈ rest.head?, isDigit b = false) :
    parseData (x ++ (name ++ (text n ++ rest)))
      { before := anything::word name, group := [digits] } = text n := by
  have hcapture : matchAtoms [digits] (fun t => some
      ((text n ++ rest).take ((text n ++ rest).length - t.length))) (text n ++ rest) =
        some (text n) :=
    capture_run rfl (List.length_pos_iff.mpr (text_ne_nil n)) (isDigit_text n) hrest
  have hmatch : Pattern.matchAt { before := anything::word name, group := [digits] }
      (x ++ (name ++ (text n ++ rest))) = some (text n) := by
    change matchAtoms (anything::word name) _ _ = _
    rw [← List.append_nil (word name)]
    exact matchAtoms_last hline hlast hcapture
  rw [parseData, Pattern.search_of_matchAt hmatch, Option.getD_some]

/-- Everything behind the space after the number of the last field. -/
theorem parseData_timestamps {x stamps : Bytes} {n : ℕ}
    (hline : ∀ b ∈ x ++ (ascii "oldest_pkt: " ++ (text n ++ (ascii " " ++ stamps))),
      anyByte b = true)
    (hlast : occurs (ascii "oldest_pkt: ")
      (ascii "oldest_pkt: " ++ (text n ++ (ascii " " ++ stamps))).tail = false) :
    parseData (x ++ (ascii "oldest_pkt: " ++ (text n ++ (ascii " " ++ stamps))))
      timestampsPattern = stamps := by
  have hstamps : ∀ b ∈ stamps, anyByte b = true := fun b hb => hline b (by simp [hb])
  have hcapture : matchAtoms [anything] (fun t => some
      (stamps.take (stamps.length - t.length))) stamps = some stamps := by
    have hrun := capture_run (a := anything) (s := []) rfl (Nat.zero_le _) hstamps (by simp)
    rwa [List.append_nil] at hrun
  have hspace : matchAtoms (word (ascii " ")) (fun t => matchAtoms [anything]
      (fun rest => some (t.take (t.length - rest.length))) t) (ascii " " ++ stamps) =
        some stamps := by
    rw [← List.append_nil (word (ascii " ")), matchAtoms_word]
    exact hcapture
  have hreach : digits.reach (text n ++ (ascii " " ++ stamps)) = (text n).length := by
    have hhead : ∀ b ∈ (ascii " " ++ stamps).head?, isDigit b = false := by
      intro b hb
      obtain rfl : 32 = b := Option.some.inj hb
      rfl
    exact congrArg List.length (takeWhile_text hhead)
  have hnumber := matchAtoms_run hreach (List.length_pos_iff.mpr (text_ne_nil n)) hspace
  have hmatch : timestampsPattern.matchAt
      (x ++ (ascii "oldest_pkt: " ++ (text n ++ (ascii " " ++ stamps)))) = some stamps :=
    matchAtoms_last hline hlast hnumber
  rw [parseData, Pattern.search_of_matchAt hmatch, Option.getD_some]

end Fields

section Address

theorem reach_octet {n : ℕ} (hn : n < 256) {s : Bytes} (hs : ∀ b ∈ s.head?, isDigit b = false) :
    octet.reach (text n ++ s) = (text n).length := by
  have hlen : (text n).length ≤ 3 := text_length_le (by omega) (Nat.lt_of_lt_of_le hn (by decide))
  simp only [Atom.reach, octet, takeWhile_text hs]
  omega

/-- An octet is taken whole. -/
theorem matchAtoms_octet {as : List (Atom UInt8)} {k : Bytes → Option Bytes} {n : ℕ} {s v : Bytes}
    (hn : n < 256) (hs : ∀ b ∈ s.head?, isDigit b = false) (h : matchAtoms as k s = some v) :
    matchAtoms (octet::as) k (text n ++ s) = some v :=
  matchAtoms_run (reach_octet hn hs) (List.length_pos_iff.mpr (text_ne_nil n)) h

theorem matchAtoms_dot {as : List (Atom UInt8)} {k : Bytes → Option Bytes} {s v : Bytes}
    (h : matchAtoms as k s = some v) : matchAtoms (dot::as) k ([46] ++ s) = some v := by
  refine matchAtoms_run ?_ (Nat.le_refl _) h
  have hmem : anyByte 46 = true := by decide
  simp [Atom.reach, dot, hmem]

/-- The address of a row for IPv4. -/
theorem parseData_src (a b c d : UInt8) {rest : Bytes} (hrest : ∀ b ∈ rest.head?, isDigit b = false) :
    parseData (ascii "src=" ++ (dottedQuad a b c d ++ rest)) srcPattern = dottedQuad a b c d := by
  have hdot : ∀ s : Bytes, ∀ b ∈ ([46] ++ s).head?, isDigit b = false := by
    intro s b hb
    obtain rfl : 46 = b := Option.some.inj hb
    rfl
  have hquad : dottedQuad a b c d ++ rest = text a.toNat ++ ([46] ++ (text b.toNat ++ ([46] ++
      (text c.toNat ++ ([46] ++ (text d.toNat ++ rest)))))) := by
    simp [dottedQuad, addressText]
  have hgroup : matchAtoms srcPattern.group (fun t => some ((dottedQuad a b c d ++ rest).take
      ((dottedQuad a b c d ++ rest).length - t.length))) (dottedQuad a b c d ++ rest) =
        some (dottedQuad a b c d) := by
    conv => lhs; rw [hquad]
    refine matchAtoms_octet a.toNat_lt (hdot _) (matchAtoms_dot ?_)
    refine matchAtoms_octet b.toNat_lt (hdot _) (matchAtoms_dot ?_)
    refine matchAtoms_octet c.toNat_lt (hdot _) (matchAtoms_dot ?_)
    refine matchAtoms_octet d.toNat_lt hrest ?_
    rw [← hquad]
    simp [matchAtoms]
  have hmatch : srcPattern.matchAt (ascii "src=" ++ (dottedQuad a b c d ++ rest)) =
      some (dottedQuad a b c d) := by
    change matchAtoms (word (ascii "src=")) _ _ = _
    rw [← List.append_nil (word (ascii "src=")), matchAtoms_word]
    exact hgroup
  rw [parseData, Pattern.search_of_matchAt hmatch, Option.getD_some]

/-- What is read as an address is never longer than a dotted quad. -/
theorem length_parseData_src (str : Bytes) : (parseData str srcPattern).length ≤ 15 := by
  unfold parseData
  cases h : srcPattern.search str with
  | none => simp
  | some v => exact srcPattern.length_search_le rfl h

end Address

section Row

/-- The stamps as they stand between commas. -/
def stampTokens : List UInt64 → List Bytes
  | [] => []
  | stamp::stamps => text stamp.toNat::stamps.map fun s => 32::text s.toNat

theorem showStamps_comma (stamps : List UInt64) :
    showStamps (ascii ",") stamps = stamps.flatMap fun s => 44::32::text s.toNat := by
  induction stamps with
  | nil => rfl
  | cons stamp stamps ih =>
    rw [showStamps, ih]
    rfl

theorem intercalate_stamps (t : Bytes) (stamps : List UInt64) :
    [44].intercalate (t::stamps.map fun s => 32::text s.toNat) =
      t ++ stamps.flatMap fun s => 44::32::text s.toNat := by
  induction stamps generalizing t with
  | nil => simp
  | cons s stamps ih =>
    rw [List.map_cons, List.intercalate_cons_cons, ih, List.flatMap_cons]
    simp

theorem showStamps_eq {stamps : List UInt64} (h : stamps ≠ []) :
    showStamps [] stamps = ascii " " ++ [44].intercalate (stampTokens stamps) := by
  cases stamps with
  | nil => contradiction
  | cons stamp stamps =>
    rw [showStamps, showStamps_comma, stampTokens, intercalate_stamps]
    simp

theorem stoul_space (n : ℕ) : stoul (32::text n) = stoul (text n) := by
  have hspace : signedDigits (32::text n) = signedDigits (text n) := by
    rw [signedDigits, List.dropWhile_cons_of_pos (by decide)]
    rfl
  rw [stoul, hspace]
  rfl

theorem stoul_stamp (stamp : UInt64) : stoul (text stamp.toNat) = .ok stamp := by
  have hlt := stamp.toNat_lt
  rw [stoul_text (by omega), UInt64.ofNat_toNat]

theorem mapM_stampTokens (stamps : List UInt64) : (stampTokens stamps).mapM stoul = .ok stamps := by
  cases stamps with
  | nil => rfl
  | cons stamp stamps =>
    have hrest : (stamps.map fun s => 32::text s.toNat).mapM stoul = .ok stamps := by
      have hall : stamps.mapM (fun s => stoul (32::text s.toNat)) = .ok (stamps.map id) :=
        mapM_ok fun s _ => by rw [stoul_space, stoul_stamp, id]
      rw [List.map_id] at hall
      rw [List.mapM_map]
      exact hall
    rw [stampTokens, List.mapM_cons, stoul_stamp, hrest]
    rfl

theorem plain_stampTokens {stamps : List UInt64} {t : Bytes} (ht : t ∈ stampTokens stamps) :
    ∀ b ∈ t, isDigit b = true ∨ b = 32 := by
  have hnumber : ∀ (n : ℕ), ∀ b ∈ text n, isDigit b = true ∨ b = 32 := fun n b hb =>
    .inl (isDigit_text n b hb)
  cases stamps with
  | nil => simp [stampTokens] at ht
  | cons stamp stamps =>
    rcases List.mem_cons.mp ht with rfl | ht
    · exact hnumber _
    · obtain ⟨s,-,rfl⟩ := List.mem_map.mp ht
      intro b hb
      rcases List.mem_cons.mp hb with rfl | hb
      · exact .inr rfl
      · exact hnumber _ b hb

theorem parseTimestamps_tokens {stamps : List UInt64} (h : stamps ≠ []) :
    parseTimestamps ([44].intercalate (stampTokens stamps)) =
      .ok (stamps.filter fun stamp => stamp != 0) := by
  have hcomma : ∀ t ∈ stampTokens stamps, (44 : UInt8) ∉ t := by
    intro t ht hb
    rcases plain_stampTokens ht 44 hb with hb | hb <;> contradiction
  have hnul : (0 : UInt8) ∉ [44].intercalate (stampTokens stamps) := by
    intro hb
    rcases mem_intercalate hb with hb | ⟨t,ht,hb⟩
    · contradiction
    · rcases plain_stampTokens ht 0 hb with hb | hb <;> contradiction
  have hne : stampTokens stamps ≠ [] := by
    cases stamps with
    | nil => contradiction
    | cons stamp stamps => simp [stampTokens]
  rw [parseTimestamps, cString_eq_self hnul, List.splitOn_intercalate 44 hcomma hne,
    mapM_stampTokens]
  rfl

variable {mask : UInt8}

/-- The row of an entry, from the name of a field on. -/
def fields (e : RecentEntry mask) : Fields where
  ttl := e.ttl.toNat
  lastSeen := (e.stamps.getD ((e.index - 1) &&& mask).toNat 0).toNat
  index := e.index.toNat
  stamps := showStamps [] e.visible

theorem row_eq_ttl (e : RecentEntry mask) :
    row e = ascii "src=" ++ e.addr.text ++ ascii " " ++ (ascii "ttl: " ++ (fields e).ttlOn) := by
  simp [row, fields, Fields.ttlOn, Fields.lastSeenOn, Fields.oldestPkt, ascii]

theorem row_eq_lastSeen (e : RecentEntry mask) :
    row e = ascii "src=" ++ e.addr.text ++ ascii " ttl: " ++ text e.ttl.toNat ++ ascii " " ++
      (ascii "last_seen: " ++ (fields e).lastSeenOn) := by
  simp [row, fields, Fields.lastSeenOn, Fields.oldestPkt, ascii]

theorem row_eq_oldestPkt (e : RecentEntry mask) :
    row e = ascii "src=" ++ e.addr.text ++ ascii " ttl: " ++ text e.ttl.toNat ++
      ascii " last_seen: " ++ text (fields e).lastSeen ++ ascii " " ++
      (ascii "oldest_pkt: " ++ (fields e).oldestPkt) := by
  simp [row, fields, Fields.oldestPkt, ascii]

theorem newline_not_mem_text (addr : NfInetAddr) : (10 : UInt8) ∉ addr.text := by
  intro h
  have := mem_text h
  revert this
  decide

theorem anyByte_row (e : RecentEntry mask) : ∀ b ∈ row e, anyByte b = true := by
  have haddr := newline_not_mem_text e.addr
  have hnot := fun n => not_mem_text (b := 10) (by decide) n
  have hstamps : (10 : UInt8) ∉ showStamps [] e.visible :=
    (plain_showStamps (by simp [Plain]) e.visible).not_mem (by decide) (by decide) (by decide)
  have hrow : (10 : UInt8) ∉ row e := by
    simp [row, ascii, haddr, hnot, hstamps]
  intro b hb
  rw [anyByte, bne_iff_ne]
  rintro rfl
  exact hrow hb

/-- A printed row is read back: the address as far as the pattern takes it, the ttl, the index
and the visible stamps without the zeros. -/
theorem parseFileRow_row (e : RecentEntry mask) :
    parseFileRow (row e) = .ok {
      srcIp := parseData (row e) srcPattern
      ttl := e.ttl.toNat
      lastSeenIndex := e.index.toNat
      timestamps := e.visible.filter fun stamp => stamp != 0
      ipFamily := .named .ipv4 } := by
  have hline := anyByte_row e
  have hplain : Plain (fields e).stamps := plain_showStamps (by simp [Plain]) e.visible
  have hstamps := showStamps_eq e.visible_ne_nil
  have hspace : ∀ s : Bytes, ∀ b ∈ (ascii " " ++ s).head?, isDigit b = false := by
    intro s b hb
    obtain rfl : 32 = b := Option.some.inj hb
    rfl
  have hindex : parseData (row e) oldestPktPattern = text e.index.toNat := by
    rw [row_eq_oldestPkt] at hline ⊢
    refine parseData_number hline (occurs_oldestPkt hplain) ?_
    change ∀ b ∈ (showStamps [] e.visible).head?, _
    rw [hstamps]
    exact hspace _
  have httl : parseData (row e) ttlPattern = text e.ttl.toNat := by
    rw [row_eq_ttl] at hline ⊢
    exact parseData_number hline (occurs_ttl hplain) (hspace _)
  have hlastSeen : parseData (row e) lastSeenPattern = text (fields e).lastSeen := by
    rw [row_eq_lastSeen] at hline ⊢
    exact parseData_number hline (occurs_lastSeen hplain) (hspace _)
  have htimestamps : parseData (row e) timestampsPattern =
      [44].intercalate (stampTokens e.visible) := by
    have hlast := occurs_oldestPkt hplain
    rw [row_eq_oldestPkt, Fields.oldestPkt, fields, hstamps] at hline ⊢
    rw [Fields.oldestPkt, fields, hstamps] at hlast
    exact parseData_timestamps hline hlast
  have hseen : stoul (text (fields e).lastSeen) = .ok (UInt64.ofNat (fields e).lastSeen) :=
    stoul_text (Nat.le_of_lt_succ (UInt64.toNat_lt _))
  have hbyte : ∀ b : UInt8, stoi (text b.toNat) = .ok b.toNat := fun b =>
    stoi_text (Nat.le_of_lt (Nat.lt_of_lt_of_le b.toNat_lt (by decide)))
  rw [parseFileRow, hindex, hlastSeen, httl, htimestamps, hbyte, hbyte, hseen,
    parseTimestamps_tokens e.visible_ne_nil]
  rfl

/-- For an IPv4 entry the address is read back in full. -/
theorem parseData_row {e : RecentEntry mask} (h : e.addr.IsIpv4) :
    parseData (row e) srcPattern = e.addr.text := by
  obtain ⟨a,b,c,d,haddr⟩ : ∃ a b c d, e.addr = .ip a b c d := by
    cases ht : e.addr with
    | ip a b c d => exact ⟨a,b,c,d,rfl⟩
    | ip6 => rw [ht] at h; exact absurd h id
  have hspace : ∀ b ∈ (ascii " " ++ (ascii "ttl: " ++ (fields e).ttlOn)).head?,
      isDigit b = false := by
    intro b hb
    obtain rfl : 32 = b := Option.some.inj hb
    rfl
  rw [row_eq_ttl, List.append_assoc, List.append_assoc, haddr]
  exact parseData_src a b c d hspace

end Row

end XtRecentProc
end Ssyncd
