import Mathlib.Tactic.Common

/-! Streams cut into arbitrary chunks. A decoder that answers only complete frames, and
takes exactly one frame however the stream goes on, recovers the frames from every cut. -/
namespace Framing
variable {B A : Type*}

/-- A decoder looks at a buffer and gives a value with the number of bytes it used, or nothing. -/
abbrev Decoder (B A : Type*) := List B → Option (A × ℕ)

variable (dec : Decoder B A)

/-- Decode and drop the used bytes until the decoder gives nothing. -/
inductive Drains : List B → List A → List B → Prop
  | stop {buffer} (h : dec buffer = none) : Drains buffer [] buffer
  | next {buffer a used values rest} (h : dec buffer = some (a,used))
      (tail : Drains (buffer.drop used) values rest) : Drains buffer (a::values) rest

/-- Append each chunk to what is left in the buffer and drain it. -/
inductive Feeds : List B → List (List B) → List A → List B → Prop
  | done {buffer} : Feeds buffer [] [] buffer
  | chunk {buffer chunk chunks values values' mid rest}
      (drain : Drains dec (buffer ++ chunk) values mid)
      (tail : Feeds mid chunks values' rest) :
      Feeds buffer (chunk::chunks) (values ++ values') rest

variable {dec}

/-- The loop has one outcome at most. -/
theorem Drains.unique {buffer : List B} {values values' : List A} {rest rest' : List B}
    (h : Drains dec buffer values rest) (h' : Drains dec buffer values' rest') :
    values = values' ∧ rest = rest' := by
  induction h generalizing values' with
  | stop h =>
    cases h' with
    | stop _ => exact ⟨rfl,rfl⟩
    | next hs _ => rw [h] at hs; contradiction
  | next h _ ih =>
    cases h' with
    | stop hs => rw [h] at hs; contradiction
    | next hs ht =>
      obtain ⟨rfl,rfl⟩ := Prod.mk.inj (Option.some.inj (h.symm.trans hs))
      obtain ⟨rfl,rfl⟩ := ih ht
      exact ⟨rfl,rfl⟩

theorem Feeds.unique {buffer : List B} {chunks : List (List B)} {values values' : List A}
    {rest rest' : List B} (h : Feeds dec buffer chunks values rest)
    (h' : Feeds dec buffer chunks values' rest') : values = values' ∧ rest = rest' := by
  induction h generalizing values' with
  | done => cases h'; exact ⟨rfl,rfl⟩
  | chunk hd _ ih =>
    cases h' with
    | chunk hd' ht' =>
      obtain ⟨rfl,rfl⟩ := hd.unique hd'
      obtain ⟨rfl,rfl⟩ := ih ht'
      exact ⟨rfl,rfl⟩

/-- A frame: its bytes give this value whatever follows, and no proper part of them gives any. -/
structure Frame (dec : Decoder B A) (bytes : List B) (a : A) : Prop where
  complete : ∀ rest, dec (bytes ++ rest) = some (a,bytes.length)
  incomplete : ∀ pre, pre <+: bytes → pre ≠ bytes → dec pre = none

/-- A frame whose bytes are all in gives its value and leaves what follows. -/
theorem Frame.drains {bytes : List B} {a : A} (h : Frame dec bytes a) {buffer : List B}
    {values : List A} {rest : List B} (tail : Drains dec buffer values rest) :
    Drains dec (bytes ++ buffer) (a::values) rest := by
  refine .next (h.complete buffer) ?_
  rwa [List.drop_left]

/-- What is still to come: the frames whose bytes have not all been seen. -/
inductive Pending (dec : Decoder B A) : List (List B) → List A → Prop
  | nil : Pending dec [] []
  | cons {bytes a frames values} (frame : Frame dec bytes a) (tail : Pending dec frames values) :
      Pending dec (bytes::frames) (a::values)

/-- One drain of a part of the stream takes out some of the frames and gets stuck inside
the next one. -/
theorem Pending.drain (hnil : dec [] = none) {frames : List (List B)} {values : List A}
    (h : Pending dec frames values) {buffer tail : List B} (heq : buffer ++ tail = frames.flatten) :
    ∃ out mid frames' values', Drains dec buffer out mid ∧ dec mid = none ∧
      Pending dec frames' values' ∧ mid ++ tail = frames'.flatten ∧ values = out ++ values' := by
  induction h generalizing buffer with
  | nil =>
    obtain ⟨rfl,rfl⟩ : buffer = [] ∧ tail = [] := by simpa using heq
    exact ⟨[],[],[],[],.stop hnil,hnil,.nil,rfl,rfl⟩
  | @cons bytes a frames values frame hp ih =>
    rw [List.flatten_cons] at heq
    rcases List.append_eq_append_iff.mp heq with ⟨c,hb,ht⟩ | ⟨c,hb,ht⟩
    · -- the buffer is a part of the first frame
      by_cases hc : c = []
      · subst hc
        rw [List.append_nil] at hb
        subst hb
        have hnext : ([] : List B) ++ tail = frames.flatten := by simpa using ht
        obtain ⟨out,mid,frames',values',hd,hm,hp',he,hv⟩ := ih hnext
        refine ⟨a::out,mid,frames',values',?_,hm,hp',he,by rw [hv]; rfl⟩
        simpa using frame.drains hd
      · have hne : buffer ≠ bytes := by
          rintro rfl
          exact hc (by simpa using hb)
        have hstuck := frame.incomplete buffer ⟨c,hb.symm⟩ hne
        exact ⟨[],buffer,bytes::frames,a::values,.stop hstuck,hstuck,.cons frame hp,
          by rw [List.flatten_cons, ← heq],rfl⟩
    · subst hb
      obtain ⟨out,mid,frames',values',hd,hm,hp',he,hv⟩ := ih ht.symm
      exact ⟨a::out,mid,frames',values',frame.drains hd,hm,hp',he,by rw [hv]; rfl⟩

/-- Every cut of the stream gives the frames' values, in order and once each, and leaves nothing. -/
theorem Pending.feeds (hnil : dec [] = none) {frames : List (List B)} {values : List A}
    (h : Pending dec frames values) {buffer : List B} {chunks : List (List B)}
    (hstuck : dec buffer = none) (heq : buffer ++ chunks.flatten = frames.flatten) :
    Feeds dec buffer chunks values [] := by
  induction chunks generalizing buffer frames values with
  | nil =>
    rw [List.flatten_nil, List.append_nil] at heq
    cases h with
    | nil =>
      obtain rfl : buffer = [] := heq
      exact .done
    | cons frame _ =>
      rw [heq, List.flatten_cons, frame.complete] at hstuck
      contradiction
  | cons chunk chunks ih =>
    rw [List.flatten_cons, ← List.append_assoc] at heq
    obtain ⟨out,mid,frames',values',hd,hm,hp',he,rfl⟩ := h.drain hnil heq
    exact .chunk hd (ih hp' hm he)

/-- A decoder that moves on inside the buffer, and whose answer stands when more bytes come. -/
structure Stable (dec : Decoder B A) : Prop where
  used : ∀ buffer a used, dec buffer = some (a,used) → 0 < used ∧ used ≤ buffer.length
  append : ∀ buffer a used more, dec buffer = some (a,used) → dec (buffer ++ more) = some (a,used)

/-- Every buffer is drained in the end. -/
theorem Stable.exists_drains (hs : Stable dec) (buffer : List B) :
    ∃ values rest, Drains dec buffer values rest := by
  induction hn : buffer.length using Nat.strongRecOn generalizing buffer with
  | ind n ih =>
    cases hdec : dec buffer with
    | none => exact ⟨[],buffer,.stop hdec⟩
    | some answer =>
      obtain ⟨a,used⟩ := answer
      have hused := hs.used _ _ _ hdec
      obtain ⟨values,rest,tail⟩ := ih (buffer.drop used).length (by
        rw [List.length_drop]
        omega) _ rfl
      exact ⟨a::values,rest,.next hdec tail⟩

/-- What a buffer gives does not depend on how much of it is there at the first drain. -/
theorem Stable.drains_append (hs : Stable dec) {buffer rest more rest' : List B}
    {values values' : List A} (h : Drains dec buffer values rest)
    (h' : Drains dec (rest ++ more) values' rest') :
    Drains dec (buffer ++ more) (values ++ values') rest' := by
  induction h with
  | stop _ => exact h'
  | next h _ ih =>
    refine .next (hs.append _ _ _ more h) ?_
    rw [List.drop_append_of_le_length (hs.used _ _ _ h).2]
    exact ih h'

/-- The beginning of a stream of frames gives the values of those that are all in it, and gets
stuck inside the next one. -/
theorem drains_of_part {X : Type*} {bytes : X → List B} {value : X → A} {xs : List X}
    (hnil : dec [] = none) (hframe : ∀ x ∈ xs, Frame dec (bytes x) (value x)) {buffer : List B}
    (hpart : buffer <+: xs.flatMap bytes) :
    ∃ arrived pending rest, xs = arrived ++ pending ∧ buffer = arrived.flatMap bytes ++ rest ∧
      Drains dec buffer (arrived.map value) rest ∧
      (rest = [] ∨ ∃ x ∈ pending.head?, rest <+: bytes x ∧ rest ≠ bytes x) := by
  induction xs generalizing buffer with
  | nil =>
    have hempty : buffer = [] := by simpa using hpart
    subst hempty
    exact ⟨[],[],[],rfl,rfl,.stop hnil,.inl rfl⟩
  | cons x xs ih =>
    rw [List.flatMap_cons] at hpart
    have hx := hframe x (List.mem_cons_self ..)
    by_cases hall : bytes x <+: buffer
    · obtain ⟨buffer,rfl⟩ := hall
      obtain ⟨arrived,pending,rest,hxs,hb,hd,hrest⟩ :=
        ih (fun y hy => hframe y (List.mem_cons_of_mem _ hy)) ((List.prefix_append_right_inj _).mp hpart)
      refine ⟨x::arrived,pending,rest,by rw [hxs]; rfl,?_,hx.drains hd,hrest⟩
      rw [List.flatMap_cons, List.append_assoc, ← hb]
    · -- the buffer ends inside the first frame
      have hpre : buffer <+: bytes x := by
        rcases List.prefix_or_prefix_of_prefix hpart (List.prefix_append (bytes x) _) with h | h
        · exact h
        · exact absurd h hall
      have hne : buffer ≠ bytes x := fun h => hall (h ▸ List.prefix_rfl)
      exact ⟨[],x::xs,buffer,rfl,rfl,.stop (hx.incomplete buffer hpre hne),.inr ⟨x,rfl,hpre,hne⟩⟩

theorem Drains.rest_le {buffer rest : List B} {values : List A}
    (h : Drains dec buffer values rest) : rest.length ≤ buffer.length := by
  induction h with
  | stop _ => exact Nat.le_refl _
  | next h _ ih =>
    rw [List.length_drop] at ih
    omega

end Framing
