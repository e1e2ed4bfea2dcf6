import Ssyncd.Codec.Extent
import Mathlib.Data.List.GetD

/-! When the packet of an HTTP action has the length that its header declares and its decoder
uses. -/
namespace Ssyncd
open Reader

theorem lowByte_mod (n : ℕ) : lowByte (n % 65536) = lowByte n := by
  rw [← UInt8.toNat_inj, lowByte, lowByte, UInt8.toNat_ofNat', UInt8.toNat_ofNat']
  omega

/-- The header keeps a length modulo 65536. -/
theorem headerLength_lowByte_mod (n : ℕ) :
    (headerLength (lowByte n) (lowByte (n >>> 8))).toNat = n % 65536 := by
  have hshift : lowByte ((n % 65536) >>> 8) = lowByte (n >>> 8) := by
    rw [← UInt8.toNat_inj, lowByte, lowByte, UInt8.toNat_ofNat', UInt8.toNat_ofNat',
      Nat.shiftRight_eq_div_pow, Nat.shiftRight_eq_div_pow]
    omega
  rw [← headerLength_lowByte (Nat.mod_lt n (by decide : 0 < 65536)), lowByte_mod, hshift]

theorem toNat_lowByte (n : ℕ) : (lowByte n).toNat = n % 256 := UInt8.toNat_ofNat'

/-- The memory after the header of a packet. -/
theorem memory_wire (pkt : ConnPacket) {body : Bytes} (rest : Bytes) (junk : Memory) {i : ℕ}
    (hi : i < body.length) : memory (wire pkt body ++ rest) junk (5 + i) = body[i] := by
  have hlt : 5 + i < (wire pkt body).length := by
    rw [wire_length]
    omega
  rw [memory_lt (by rw [List.length_append]; omega), List.getElem_append_left hlt]
  simp only [wire]
  rw [List.getElem_append_right (by simp)]
  simp

namespace HttpParser
open Http

/-- The stored length is the packet's, and the decoder uses just the packet, whatever follows it. -/
def SelfDelimiting (a : HttpAction) : Prop :=
  ∀ out sent, serialize a = some (out,sent) →
    (headerLength (out.getD 3 0) (out.getD 4 0)).toNat = out.length ∧
      ∀ (rest : Bytes) (junk : Memory), ∃ b,
        deserialize (memory (out ++ rest) junk) (out ++ rest).length = some (b,out.length)

/-- The strings that the packet carries fit their size bytes. -/
structure CarriedFit (a : HttpAction) : Prop where
  farmName : a.farmName.length ≤ 255
  key : a.action ≠ .named .syncRequest → a.session.key.length ≤ 255
  content : CarriesContent a.action → a.session.content.length ≤ 255

/-- What follows the size of the farm's name, up to the key. -/
def writeFarm (a : HttpAction) : Bytes :=
  a.farmName ++ writeId a.listener ++ writeId a.service ++ writeId a.backend ++
    writeString a.session.key

/-- The farm's name is too long by 256, and two bytes of it that are taken for the sizes of the
key and of the content make up for what the decoder leaves out. -/
def SizesMakeUp (a : HttpAction) : Prop :=
  let farm := a.farmName.length - 256
  let key := ((writeFarm a).getD (farm + 12) 0).toNat
  let content := ((writeFarm a).getD (farm + 13 + key) 0).toNat
  CarriesContent a.action ∧ 256 ≤ a.farmName.length ∧ a.farmName.length < 512 ∧
    key + content = 256 + a.session.key.length + a.session.content.length

theorem writeBody_eq (a : HttpAction) : writeBody a = a.action.toByte :: lowByte a.farmName.length ::
    if a.action = .named .syncRequest then a.farmName
    else if CarriesContent a.action then
      writeFarm a ++ (writeString a.session.content ++ leBytes a.session.lastAcc.toBitVec 8)
    else writeFarm a := by
  unfold writeBody writeFarm
  split
  · rw [writeString, List.append_nil]
  · split
    · simp only [writeString, List.cons_append, List.append_assoc]
    · simp only [writeString, List.cons_append, List.append_assoc, List.append_nil]

theorem writeFarm_length (a : HttpAction) :
    (writeFarm a).length = a.farmName.length + 13 + a.session.key.length := by
  simp only [writeFarm, List.length_append, writeId_length, writeString_length]
  omega

/-- The size of the key stands twelve bytes behind the farm's name. -/
theorem writeFarm_key (a : HttpAction) :
    (writeFarm a).getD (a.farmName.length + 12) 0 = lowByte a.session.key.length := by
  have hids : (a.farmName ++ writeId a.listener ++ writeId a.service ++ writeId a.backend).length =
      a.farmName.length + 12 := by
    simp only [List.length_append, writeId_length]
  rw [writeFarm, List.getD_append_right _ _ _ _ (Nat.le_of_eq hids), hids, Nat.sub_self]
  rfl

/-- What is written behind the farm's size. -/
def writeTail (a : HttpAction) : Bytes :=
  if a.action = .named .syncRequest then a.farmName
  else if CarriesContent a.action then
    writeFarm a ++ (writeString a.session.content ++ leBytes a.session.lastAcc.toBitVec 8)
  else writeFarm a

/-- The size that a decoder takes for the key's when it has read the farm's. -/
def keySize (a : HttpAction) : ℕ := ((writeFarm a).getD (a.farmName.length % 256 + 12) 0).toNat

theorem keySize_lt (a : HttpAction) : keySize a < 256 := UInt8.toNat_lt _

theorem keySize_eq {a : HttpAction} (h : a.farmName.length ≤ 255) :
    keySize a = a.session.key.length % 256 := by
  rw [keySize, Nat.mod_eq_of_lt (by omega), writeFarm_key, toNat_lowByte]

/-- Where the decoder ends, counted from the farm's name on. -/
def tailEnd (a : HttpAction) : ℕ :=
  let farm := a.farmName.length % 256
  let key := farm + 13 + keySize a
  if a.action = .named .syncRequest then farm
  else if CarriesContent a.action then key + 9 + ((writeTail a).getD key 0).toNat
  else key

section Sent
variable (a : HttpAction) (rest : Bytes) (junk : Memory)

/-- A sent packet in the memory, and what follows it. -/
def sentMemory : Memory := memory (wire a.toConnPacket (writeBody a) ++ rest) junk

theorem sentMemory_action : sentMemory a rest junk 5 = a.action.toByte := by
  have hlen : 0 < (writeBody a).length := by simp [writeBody]
  exact (memory_wire a.toConnPacket rest junk hlen).trans (by simp [writeBody])

theorem sentMemory_farm : sentMemory a rest junk 6 = lowByte a.farmName.length := by
  have hlen : 1 < (writeBody a).length := by simp [writeBody, writeString]
  exact (memory_wire a.toConnPacket rest junk hlen).trans (by simp [writeBody, writeString])

theorem writeBody_length : (writeBody a).length = 2 + (writeTail a).length := by
  rw [writeBody_eq, List.length_cons, List.length_cons, writeTail]
  omega

variable {a}

theorem sentMemory_tail {i : ℕ} (hi : i < (writeTail a).length) :
    sentMemory a rest junk (7 + i) = (writeTail a).getD i 0 := by
  have hlen : i + 2 < (writeBody a).length := by
    rw [writeBody_length]
    omega
  have h := memory_wire a.toConnPacket rest junk hlen
  rw [sentMemory, show 7 + i = 5 + (i + 2) by omega, h, List.getD_eq_getElem _ _ hi]
  simp only [writeBody_eq, List.getElem_cons_succ, writeTail]

/-- The size that is taken for the key's stands in the packet. -/
theorem sentMemory_key (hsync : a.action ≠ .named .syncRequest) :
    (sentMemory a rest junk (7 + (a.farmName.length % 256 + 12))).toNat = keySize a := by
  have hfarm := writeFarm_length a
  have hle := Nat.mod_le a.farmName.length 256
  have hlt : a.farmName.length % 256 + 12 < (writeFarm a).length := by omega
  have hget : a.farmName.length % 256 + 12 < (writeTail a).length ∧
      (writeTail a).getD (a.farmName.length % 256 + 12) 0 =
        (writeFarm a).getD (a.farmName.length % 256 + 12) 0 := by
    rw [writeTail, if_neg hsync]
    split
    · refine ⟨by rw [List.length_append]; omega,?_⟩
      exact List.getD_append _ _ _ _ hlt
    · exact ⟨hlt,rfl⟩
  rw [sentMemory_tail rest junk hget.1, hget.2, keySize]

theorem writeTail_content (hsync : a.action ≠ .named .syncRequest) (hc : CarriesContent a.action) :
    writeTail a =
      writeFarm a ++ (writeString a.session.content ++ leBytes a.session.lastAcc.toBitVec 8) := by
  rw [writeTail, if_neg hsync, if_pos hc]

/-- The size that is taken for the content's stands in the packet too. -/
theorem key_lt_writeTail (hsync : a.action ≠ .named .syncRequest) (hc : CarriesContent a.action) :
    a.farmName.length % 256 + 13 + keySize a < (writeTail a).length := by
  have hfarm := writeFarm_length a
  have hkey := keySize_lt a
  rw [writeTail_content hsync hc, List.length_append, List.length_append, writeString_length,
    leBytes_length, hfarm]
  by_cases hshort : a.farmName.length ≤ 255
  · have := Nat.mod_le a.session.key.length 256
    have := Nat.mod_le a.farmName.length 256
    rw [keySize_eq hshort]
    omega
  · omega

theorem extent_sentMemory : HttpParser.extent (sentMemory a rest junk) = 7 + tailEnd a := by
  rw [HttpParser.extent, tailEnd, sentMemory_action, sentMemory_farm, toNat_lowByte,
    ByteEnum.Value.ofByte_toByte]
  by_cases hsync : a.action = .named .syncRequest
  · simp only [hsync, if_true]
  · have hkey := sentMemory_key rest junk hsync
    simp only [hsync, if_false, Nat.add_assoc, hkey]
    split
    · next hc =>
      have hcontent := sentMemory_tail rest junk (key_lt_writeTail hsync hc)
      rw [Nat.add_assoc] at hcontent
      rw [hcontent]
    · rfl

end Sent

theorem header_sentMemory (a : HttpAction) (rest : Bytes) (junk : Memory) :
    BasePktParser.Accepts (sentMemory a rest junk)
        (wire a.toConnPacket (writeBody a) ++ rest).length ∧
      (BasePktParser.header (sentMemory a rest junk)).type = a.type := by
  have hlo : sentMemory a rest junk 3 = lowByte (5 + (writeBody a).length) := rfl
  have hhi : sentMemory a rest junk 4 = lowByte ((5 + (writeBody a).length) >>> 8) := rfl
  have htype : sentMemory a rest junk 2 = a.type.toByte := rfl
  refine ⟨⟨?_,?_⟩,?_⟩
  · rw [List.length_append, wire_length]
    omega
  · rw [hlo, hhi, headerLength_lowByte_mod, List.length_append, wire_length]
    have := Nat.mod_le (5 + (writeBody a).length) 65536
    omega
  · rw [BasePktParser.header, htype, ByteEnum.Value.ofByte_toByte]

/-- The packet is self-delimiting when its length fits the header and the decoder ends with it. -/
theorem selfDelimiting_iff {a : HttpAction} (htype : a.type = .named .httpSync) :
    SelfDelimiting a ↔ 7 + (writeTail a).length < 65536 ∧ tailEnd a = (writeTail a).length := by
  have hlen : 5 + (writeBody a).length = 7 + (writeTail a).length := by
    rw [writeBody_length]
    omega
  have hdecode : ∀ rest junk, deserialize (sentMemory a rest junk)
      (wire a.toConnPacket (writeBody a) ++ rest).length =
        some (readPacket (sentMemory a rest junk) 5) := by
    intro rest junk
    obtain ⟨hacc,hheader⟩ := header_sentMemory a rest junk
    rw [deserialize_eq_ite, if_pos ⟨hacc,hheader.trans htype⟩]
  have hused : ∀ rest junk, (readPacket (sentMemory a rest junk) 5).2 = 7 + tailEnd a := by
    intro rest junk
    rw [readPacket_used, extent_sentMemory]
  have hheader : (headerLength ((wire a.toConnPacket (writeBody a)).getD 3 0)
      ((wire a.toConnPacket (writeBody a)).getD 4 0)).toNat = (7 + (writeTail a).length) % 65536 := by
    rw [← hlen, ← headerLength_lowByte_mod]
    rfl
  rw [SelfDelimiting, serialize_eq htype]
  constructor
  · intro h
    obtain ⟨hstored,hrest⟩ := h _ _ rfl
    obtain ⟨b,hb⟩ := hrest [] fun _ => 0
    have hend := hused [] fun _ => 0
    rw [hheader, wire_length, hlen] at hstored
    rw [← sentMemory, hdecode, wire_length, hlen] at hb
    rw [Option.some.inj hb] at hend
    exact ⟨by omega,by omega⟩
  · rintro ⟨hfits,hend⟩ out sent hs
    obtain ⟨rfl,-⟩ := Prod.mk.inj (Option.some.inj hs)
    refine ⟨by rw [hheader, wire_length, hlen, Nat.mod_eq_of_lt hfits],fun rest junk => ?_⟩
    refine ⟨(readPacket (sentMemory a rest junk) 5).1,?_⟩
    rw [← sentMemory, hdecode, wire_length, hlen, ← hend, ← hused rest junk]

theorem tailEnd_sync {a : HttpAction} (hsync : a.action = .named .syncRequest) :
    (7 + (writeTail a).length < 65536 ∧ tailEnd a = (writeTail a).length) ↔
      a.farmName.length ≤ 255 := by
  rw [tailEnd, writeTail, if_pos hsync, if_pos hsync]
  omega

theorem tailEnd_ids {a : HttpAction} (hsync : a.action ≠ .named .syncRequest)
    (hc : ¬CarriesContent a.action) :
    (7 + (writeTail a).length < 65536 ∧ tailEnd a = (writeTail a).length) ↔
      a.farmName.length ≤ 255 ∧ a.session.key.length ≤ 255 := by
  have hkey := keySize_lt a
  rw [tailEnd, writeTail, if_neg hsync, if_neg hsync, if_neg hc, if_neg hc, writeFarm_length]
  by_cases hfarm : a.farmName.length ≤ 255
  · rw [keySize_eq hfarm]
    omega
  · omega

/-- The content's size is in its place when the other sizes fit. -/
theorem writeTail_contentSize {a : HttpAction} (hsync : a.action ≠ .named .syncRequest)
    (hc : CarriesContent a.action) :
    (writeTail a).getD (a.farmName.length + 13 + a.session.key.length) 0 =
      lowByte a.session.content.length := by
  have hfarm := writeFarm_length a
  rw [writeTail_content hsync hc, List.getD_append_right _ _ _ _ (Nat.le_of_eq hfarm), hfarm,
    Nat.sub_self]
  rfl

/-- With a farm's name that is too long, both sizes are read from what stands before the key. -/
theorem writeTail_eq_writeFarm {a : HttpAction} (hsync : a.action ≠ .named .syncRequest)
    (hc : CarriesContent a.action) (hfarm : 256 ≤ a.farmName.length) :
    (writeTail a).getD (a.farmName.length % 256 + 13 + keySize a) 0 =
      (writeFarm a).getD (a.farmName.length % 256 + 13 + keySize a) 0 := by
  have hkey := keySize_lt a
  rw [writeTail_content hsync hc]
  exact List.getD_append _ _ _ _ (by rw [writeFarm_length]; omega)

theorem tailEnd_content {a : HttpAction} (hsync : a.action ≠ .named .syncRequest)
    (hc : CarriesContent a.action) :
    (7 + (writeTail a).length < 65536 ∧ tailEnd a = (writeTail a).length) ↔
      (a.farmName.length ≤ 255 ∧ a.session.key.length ≤ 255 ∧ a.session.content.length ≤ 255) ∨
        SizesMakeUp a := by
  have hkey := keySize_lt a
  have hlen : (writeTail a).length =
      a.farmName.length + 13 + a.session.key.length + 9 + a.session.content.length := by
    rw [writeTail_content hsync hc, List.length_append, List.length_append, writeString_length,
      leBytes_length, writeFarm_length]
    omega
  have hcontent : ((writeTail a).getD (a.farmName.length % 256 + 13 + keySize a) 0).toNat < 256 :=
    UInt8.toNat_lt _
  rw [tailEnd, if_neg hsync, if_pos hc, hlen]
  by_cases hfarm : a.farmName.length ≤ 255
  · have hno : ¬SizesMakeUp a := fun h => absurd h.2.1 (by omega)
    rw [keySize_eq hfarm, Nat.mod_eq_of_lt (by omega : a.farmName.length < 256)] at hcontent ⊢
    by_cases hshort : a.session.key.length ≤ 255
    · rw [Nat.mod_eq_of_lt (by omega : a.session.key.length < 256),
        writeTail_contentSize hsync hc, toNat_lowByte]
      simp only [hno, or_false]
      omega
    · simp only [hno, or_false]
      omega
  · -- only here may two wrong sizes make up for the lost bytes
    rw [writeTail_eq_writeFarm hsync hc (by omega)] at hcontent ⊢
    have hmakeUp : SizesMakeUp a ↔ a.farmName.length < 512 ∧ keySize a +
        ((writeFarm a).getD (a.farmName.length % 256 + 13 + keySize a) 0).toNat =
          256 + a.session.key.length + a.session.content.length := by
      constructor
      · rintro ⟨-,-,hlt,hsum⟩
        rw [show a.farmName.length - 256 = a.farmName.length % 256 by omega] at hsum
        exact ⟨hlt,hsum⟩
      · rintro ⟨hlt,hsum⟩
        refine ⟨hc,by omega,hlt,?_⟩
        rw [show a.farmName.length - 256 = a.farmName.length % 256 by omega]
        exact hsum
    rw [hmakeUp]
    omega

/-- A packet of an HTTP action is self-delimiting exactly when the strings that it carries fit
their size bytes, or what the decoder takes for the sizes makes up for the loss. -/
theorem selfDelimiting_iff_fit {a : HttpAction} (htype : a.type = .named .httpSync) :
    SelfDelimiting a ↔ CarriedFit a ∨ SizesMakeUp a := by
  rw [selfDelimiting_iff htype]
  by_cases hsync : a.action = .named .syncRequest
  · have hc : ¬CarriesContent a.action := by
      rw [hsync]
      decide
    rw [tailEnd_sync hsync]
    exact ⟨fun h => .inl ⟨h,fun hne => absurd hsync hne,fun h => absurd h hc⟩,
      fun h => h.elim CarriedFit.farmName fun h => absurd h.1 hc⟩
  · by_cases hc : CarriesContent a.action
    · rw [tailEnd_content hsync hc]
      exact or_congr_left ⟨fun h => ⟨h.1,fun _ => h.2.1,fun _ => h.2.2⟩,
        fun h => ⟨h.farmName,h.key hsync,h.content hc⟩⟩
    · rw [tailEnd_ids hsync hc]
      exact ⟨fun h => .inl ⟨h.1,fun _ => h.2,fun h => absurd h hc⟩,
        fun h => h.elim (fun h => ⟨h.farmName,h.key hsync⟩) fun h => absurd h.1 hc⟩

/-- A session of one farm, with a content of this many bytes. -/
def contentOf (n : ℕ) : HttpAction where
  action := .named .sessAdd
  farmName := [102]
  listener := 1
  service := 1
  backend := 2
  session := { key := [107], backendId := 2, content := List.replicate n 99, lastAcc := 3 }

theorem length_contentOf (n : ℕ) : (contentOf n).session.content.length = n :=
  List.length_replicate

theorem selfDelimiting_contentOf : SelfDelimiting (contentOf 200) := by
  have hcontent := length_contentOf 200
  exact (selfDelimiting_iff_fit rfl).mpr (.inl ⟨by decide,fun _ => by decide,fun _ => by omega⟩)

/-- A content of 256 bytes is announced as an empty one. -/
theorem longContent_desynchronises :
    ¬ ∀ a : HttpAction, a.type = .named .httpSync → SelfDelimiting a := by
  intro h
  have hends := (selfDelimiting_iff rfl).mp (h (contentOf 256) rfl)
  have hsync : (contentOf 256).action ≠ .named .syncRequest := by decide
  have hlong := length_contentOf 256
  have hfarm : (contentOf 256).farmName.length = 1 := rfl
  rcases (tailEnd_content hsync (.inl rfl)).mp hends with ⟨-,-,hcontent⟩ | ⟨-,hlt,-⟩
  · omega
  · omega

end HttpParser
end Ssyncd
