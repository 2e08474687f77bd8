import MatchingEngine.Itch.Codec

/-! # Raw ITCH files

    `itch/raw_itch.hpp` and `message_size` of `itch/itch.hpp`: a file of messages,
    each behind its length in 16 bits. A file is the list of its bytes that are
    still unread.

    Four things can stand at the front of a file (`Front`): too few bytes for a
    length, a length of 0, a length with too few bytes behind it, or a message. The
    reader ends at the first three of them, and at a message whose length
    contradicts its type. It reports an error in the second case and in the last.
-/

namespace MatchingEngine

namespace Itch

open Framing
open Bytes (fread)

/-! ## Section 1: The reader -/

/-- The size of every message type of the format, also of those that are not
    decoded. -/
def messageSizes : List (UInt8 × Nat) :=
  kSizes ++ [(ch 'Y', 20), (ch 'L', 26), (ch 'V', 35), (ch 'W', 12), (ch 'K', 28), (ch 'J', 35),
    (ch 'h', 21), (ch 'Q', 40), (ch 'B', 19), (ch 'I', 50), (ch 'N', 20), (ch 'O', 48)]

/-- 0 for an unknown type. -/
def messageSize (type : UInt8) : Nat := (messageSizes.lookup type).getD 0

def appendRaw (out msg : List UInt8) : List UInt8 := out ++ putBe16 (UInt16.ofNat msg.length) ++ msg

structure RawItchReader where
  f : List UInt8
  offset : UInt64 := 0
  error : List UInt8 := []

namespace RawItchReader

def next (r : RawItchReader) : Option (List UInt8) × RawItchReader :=
  let (hdr, f) := fread 2 r.f
  if hdr.length ≠ 2 then (none, { r with f := f })
  else
    -- both bytes of the length are there
    let len := ((getBe16 hdr 0).getD 0).toNat
    if len = 0 then
      (none, { r with
        f := f
        error := text "zero-length message at offset " ++ toDecimal r.offset.toNat })
    else
      let (msg, f) := fread len f
      -- a truncated tail is tolerated silently
      if msg.length ≠ len then (none, { r with f := f })
      else
        let type := msg.headD 0
        let expect := messageSize type
        if expect ≠ 0 ∧ expect ≠ len then
          (none, { r with
            f := f
            error := text "message type '" ++ [type] ++ text "' with length " ++ toDecimal len ++
              text " (expected " ++ toDecimal expect ++ text ") at offset " ++
                toDecimal r.offset.toNat })
        else (some msg, { r with f := f, offset := r.offset + UInt64.ofNat (2 + len) })

/-- A reader at the start of a file. -/
def new (file : List UInt8) : RawItchReader := { f := file }

/-- Reading until the first `std::nullopt`. Every message takes bytes off the
    file. -/
def readAll (r : RawItchReader) : List (List UInt8) × RawItchReader := drain next (r.f.length + 1) r

end RawItchReader

/-- The length of a message agrees with its type, or the type is unknown. -/
def Agrees (msg : List UInt8) : Prop :=
  messageSize (msg.headD 0) = 0 ∨ messageSize (msg.headD 0) = msg.length

instance (msg : List UInt8) : Decidable (Agrees msg) := inferInstanceAs (Decidable (_ ∨ _))

/-- A message of 1 to 65535 bytes whose length agrees with its type. -/
def Framed (msg : List UInt8) : Prop := msg ≠ [] ∧ msg.length < 2 ^ 16 ∧ Agrees msg

/-- The next frame is an error: its length is 0, or it is there in full and its
    length contradicts its type. -/
def Faulty (xs : List UInt8) : Prop :=
  (∃ rest, xs = putBe16 0 ++ rest) ∨
    ∃ msg rest, msg ≠ [] ∧ msg.length < 2 ^ 16 ∧ ¬ Agrees msg ∧ xs = lengthPrefixed msg ++ rest

/-- The frames of a raw ITCH file. -/
def rawFraming : Framing UInt8 (List UInt8) :=
  lengthPrefixes (fun msg => decide (msg ≠ [] ∧ Agrees msg))

theorem rawFraming_encodes : rawFraming.Encodes Framed lengthPrefixed := by
  intro xs msg ys
  rw [rawFraming, lengthPrefixes_encodes]
  simp only [decide_eq_true_eq, Framed, and_left_comm]

theorem foldl_appendRaw (out : List UInt8) (msgs : List (List UInt8)) :
    msgs.foldl appendRaw out = out ++ msgs.flatMap lengthPrefixed := by
  induction msgs generalizing out with
  | nil => exact (List.append_nil out).symm
  | cons msg msgs ih =>
    rw [List.foldl_cons, ih, appendRaw, List.flatMap_cons, lengthPrefixed]
    simp only [List.append_assoc]

/-! ## Section 2: One call -/

/-- What can stand at the front of a file. -/
inductive Front : List UInt8 → Prop where
  | noLength {xs : List UInt8} (short : xs.length < 2) : Front xs
  | zero (rest : List UInt8) : Front (putBe16 0 ++ rest)
  | cut (len : UInt16) (rest : List UInt8) (ne : len ≠ 0) (short : rest.length < len.toNat) :
      Front (putBe16 len ++ rest)
  | message (msg rest : List UInt8) (ne : msg ≠ []) (fits : msg.length < 2 ^ 16) :
      Front (lengthPrefixed msg ++ rest)

theorem front (xs : List UInt8) : Front xs := by
  by_cases hshort : xs.length < 2
  · exact .noLength hshort
  · obtain ⟨k, hk⟩ : ∃ k, xs.length = k + 2 := ⟨xs.length - 2, by omega⟩
    obtain ⟨len, rest, -, rfl, -⟩ := covers_be16.front hk
    by_cases hzero : len = 0
    · exact hzero ▸ .zero rest
    by_cases hcut : rest.length < len.toNat
    · exact .cut len rest hzero hcut
    · obtain ⟨j, hj⟩ : ∃ j, rest.length = j + len.toNat := ⟨rest.length - len.toNat, by omega⟩
      obtain ⟨msg, rest, rfl, hlen, -⟩ := Bytes.exists_front len.toNat hj
      have hmessage : putBe16 len ++ (msg ++ rest) = lengthPrefixed msg ++ rest := by
        rw [lengthPrefixed, hlen, UInt16.ofNat_toNat, List.append_assoc]
      rw [hmessage]
      refine .message msg rest ?_ (hlen.trans_lt len.toNat_lt)
      rintro rfl
      exact hzero (UInt16.toNat_inj.mp hlen.symm)

namespace RawItchReader

variable {r : RawItchReader} {rest : List UInt8}

theorem next_noLength (h : r.f.length < 2) : r.next = (none, { r with f := [] }) := by
  have hdrop : r.f.drop 2 = [] := List.drop_eq_nil_of_le (Nat.le_of_lt h)
  simp only [next, fread, hdrop, List.length_take]
  rw [if_pos (by omega)]

/-- Behind a length, the call depends on it. -/
theorem next_length {len : UInt16} (h : r.f = putBe16 len ++ rest) :
    r.next =
      if len.toNat = 0 then
        (none, { r with
          f := rest
          error := text "zero-length message at offset " ++ toDecimal r.offset.toNat })
      else if (rest.take len.toNat).length ≠
        len.toNat then (none, { r with f := rest.drop len.toNat })
      else if messageSize ((rest.take len.toNat).headD 0) ≠ 0 ∧
          messageSize ((rest.take len.toNat).headD 0) ≠ len.toNat then
        (none, { r with
          f := rest.drop len.toNat
          error := text "message type '" ++ [(rest.take len.toNat).headD 0] ++
            text "' with length " ++ toDecimal len.toNat ++ text " (expected " ++
            toDecimal (messageSize ((rest.take len.toNat).headD 0)) ++ text ") at offset " ++
            toDecimal r.offset.toNat })
      else (some (rest.take len.toNat), { r with
        f := rest.drop len.toNat
        offset := r.offset + UInt64.ofNat (2 + len.toNat) }) := by
  have hhdr : fread 2 r.f = (putBe16 len, rest) := by
    rw [fread, h, List.take_left' (length_putBe16 len), List.drop_left' (length_putBe16 len)]
  have hlen : getBe16 (putBe16 len) 0 = some len := by
    simpa using getBe16_here (p := []) len
  unfold next
  rw [hhdr]
  dsimp only
  rw [if_neg (not_not_intro (length_putBe16 len)), hlen]
  rfl

theorem next_zero (h : r.f = putBe16 0 ++ rest) :
    r.next = (none, { r with
      f := rest
      error := text "zero-length message at offset " ++ toDecimal r.offset.toNat }) := by
  rw [next_length h]
  exact if_pos rfl

theorem next_cut {len : UInt16} (h : r.f = putBe16 len ++ rest) (hne : len ≠ 0)
    (hshort : rest.length < len.toNat) : r.next = (none, { r with f := [] }) := by
  have hzero : len.toNat ≠ 0 := fun hzero => hne (UInt16.toNat_inj.mp hzero)
  rw [next_length h, if_neg hzero, if_pos, List.drop_eq_nil_of_le (Nat.le_of_lt hshort)]
  rw [List.length_take]
  omega

/-- A message that is there in full. -/
theorem next_message {msg : List UInt8} (h : r.f = lengthPrefixed msg ++ rest) (hne : msg ≠ [])
    (hfits : msg.length < 2 ^ 16) :
    r.next =
      if Agrees msg then
        (some msg,
          { r with f := rest, offset := r.offset + UInt64.ofNat (lengthPrefixed msg).length })
      else
        (none, { r with
          f := rest
          error := text "message type '" ++ [msg.headD 0] ++ text "' with length " ++
            toDecimal msg.length ++ text " (expected " ++
            toDecimal (messageSize (msg.headD 0)) ++ text ") at offset " ++
            toDecimal r.offset.toNat }) := by
  have hlen : (UInt16.ofNat msg.length).toNat = msg.length := toNat_ofNat_length hfits
  have hzero : msg.length ≠ 0 := fun hzero => hne (List.length_eq_zero_iff.mp hzero)
  rw [lengthPrefixed, List.append_assoc] at h
  rw [next_length h, hlen, List.take_left, List.drop_left, if_neg hzero, if_neg (by simp)]
  by_cases hagrees : Agrees msg
  · rw [if_pos hagrees, if_neg (by rintro ⟨h₀, h₁⟩; exact hagrees.elim h₀ h₁), lengthPrefixed,
      List.length_append, length_putBe16]
  · rw [if_neg hagrees, if_pos ⟨fun h₀ => hagrees (.inl h₀), fun h₁ => hagrees (.inr h₁)⟩]

/-- The reader takes the frames off the file one by one. -/
theorem reads : rawFraming.Reads f next where
  of_some {r msg ys} hsplit := by
    obtain ⟨⟨hne, hfits, hagrees⟩, hf⟩ := (rawFraming_encodes _ _ _).mp hsplit
    rw [next_message hf hne hfits, if_pos hagrees]
    exact ⟨rfl, rfl⟩
  of_none {r} hsplit := by
    generalize hxs : r.f = xs at hsplit
    cases front xs with
    | noLength hshort => rw [next_noLength (hxs ▸ hshort)]
    | zero rest => rw [next_zero hxs]
    | cut len rest hne hshort => rw [next_cut hxs hne hshort]
    | message msg rest hne hfits =>
      have hagrees : ¬ Agrees msg := by
        intro hagrees
        cases hsplit.symm.trans ((rawFraming_encodes _ _ _).mpr ⟨⟨hne, hfits, hagrees⟩, rfl⟩)
      rw [next_message hxs hne hfits, if_neg hagrees]

/-- A message moves the offset behind it and leaves the error alone. -/
theorem next_some {msg : List UInt8} (h : r.next.1 = some msg) :
    r.next.2.offset = r.offset + UInt64.ofNat (lengthPrefixed msg).length ∧
      r.next.2.error = r.error := by
  cases hsplit : rawFraming.split r.f with
  | none => cases h.symm.trans (reads.of_none hsplit)
  | some s =>
    obtain ⟨⟨hne, hfits, hagrees⟩, hf⟩ := (rawFraming_encodes _ _ _).mp hsplit
    rw [next_message hf hne hfits, if_pos hagrees] at h ⊢
    cases h
    exact ⟨rfl, rfl⟩

/-- The end of the reading leaves the offset alone, and is an error exactly when
    the next frame is faulty. -/
theorem next_none (h : r.next.1 = none) :
    r.next.2.offset = r.offset ∧ (r.error = [] → (r.next.2.error ≠ [] ↔ Faulty r.f)) := by
  generalize hxs : r.f = xs
  cases front xs with
  | noLength hshort =>
    rw [next_noLength (hxs ▸ hshort)]
    refine ⟨rfl, ?_⟩
    intro herror
    apply iff_of_false (fun hne => hne herror)
    rintro (⟨rest, rfl⟩ | ⟨msg, rest, -, -, -, rfl⟩)
    · rw [List.length_append, length_putBe16] at hshort
      omega
    · rw [lengthPrefixed, List.append_assoc, List.length_append, length_putBe16] at hshort
      omega
  | zero rest =>
    rw [next_zero hxs]
    exact ⟨rfl, fun _ => iff_of_true (by simp [text]) (.inl ⟨rest, rfl⟩)⟩
  | cut len rest hne hshort =>
    rw [next_cut hxs hne hshort]
    refine ⟨rfl, ?_⟩
    intro herror
    apply iff_of_false (fun hne => hne herror)
    -- the length is not 0, and too few bytes stand behind it
    have hlen : ∀ (n : UInt16) ys, putBe16 len ++ rest = putBe16 n ++ ys → len = n ∧ rest = ys := by
      intro n ys heq
      have hn := congrArg (fun p => getBe16 p 0) heq
      simp only [getBe16_here, Option.some.injEq] at hn
      exact ⟨hn, (List.append_inj heq (by simp)).2⟩
    rintro (⟨ys, heq⟩ | ⟨msg, ys, -, hfits, -, heq⟩)
    · exact hne (hlen 0 ys heq).1
    · rw [lengthPrefixed, List.append_assoc] at heq
      obtain ⟨rfl, rfl⟩ := hlen _ _ heq
      rw [toNat_ofNat_length hfits, List.length_append] at hshort
      omega
  | message msg rest hne hfits =>
    have hagrees : ¬ Agrees msg := by
      intro hagrees
      rw [next_message hxs hne hfits, if_pos hagrees] at h
      cases h
    rw [next_message hxs hne hfits, if_neg hagrees]
    exact ⟨rfl, fun _ => iff_of_true (by simp [text]) (.inr ⟨msg, rest, hne, hfits, hagrees, rfl⟩)⟩

end RawItchReader

/-! ## Section 3: Whole files -/

namespace RawItchReader

/-- After any number of calls the offset is behind the messages that were given. -/
theorem drain_offset (n : Nat) (r : RawItchReader) :
    (drain next n r).2.offset =
      r.offset + UInt64.ofNat ((drain next n r).1.flatMap lengthPrefixed).length := by
  induction n generalizing r with
  | zero => simp [drain]
  | succ n ih =>
    cases hnext : r.next.1 with
    | none =>
      rw [drain_none hnext]
      simpa using (next_none hnext).1
    | some msg =>
      rw [drain_some hnext]
      dsimp only
      rw [ih, (next_some hnext).1, List.flatMap_cons, List.length_append, UInt64.ofNat_add,
        UInt64.add_assoc]

/-- Messages are no errors. -/
theorem drain_error {n : Nat} {r : RawItchReader} (hn : n ≤ (rawFraming.frames r.f).length) :
    (drain next n r).2.error = r.error := by
  induction n generalizing r with
  | zero => rfl
  | succ n ih =>
    cases hsplit : rawFraming.split r.f with
    | none =>
      rw [frames_of_none hsplit] at hn
      exact absurd hn (Nat.not_succ_le_zero n)
    | some s =>
      obtain ⟨hnext, hrest⟩ := reads.of_some hsplit
      rw [frames_of_some hsplit, ← hrest, List.length_cons] at hn
      rw [drain_some hnext]
      dsimp only
      rw [ih (Nat.le_of_succ_le_succ hn), (next_some hnext).2]

/-- Reading gives the frames of the file, and an error exactly when what is left
    starts with a faulty frame. -/
theorem readAll_spec (file : List UInt8) :
    ((new file).readAll).1 = rawFraming.frames file ∧
      (((new file).readAll).2.error ≠ [] ↔ Faulty (rawFraming.leftover file)) := by
  constructor
  · exact reads.drain_all (new file)
  · have hrest : (drain next (rawFraming.frames file).length (new file)).2.f =
        rawFraming.leftover file := reads.rest_drain (new file)
    have hlast : (new file).readAll.2 =
        (drain next (rawFraming.frames file).length (new file)).2.next.2 :=
      reads.drain_last (Nat.lt_succ_of_le (length_frames_le _))
    have hnone : (drain next (rawFraming.frames file).length (new file)).2.next.1 = none := by
      apply reads.of_none
      rw [hrest]
      exact split_leftover _
    have herror : (drain next (rawFraming.frames file).length (new file)).2.error = [] :=
      drain_error (Nat.le_refl _)
    rw [hlast, ← hrest]
    exact (next_none hnone).2 herror

end RawItchReader

/-- No error stands behind messages that are cut short. -/
theorem not_faulty_of_isPrefix {msgs : List (List UInt8)} (h : ∀ msg ∈ msgs, Framed msg)
    {xs : List UInt8}
    (hxs : xs <+: msgs.flatMap lengthPrefixed) : ¬ Faulty (rawFraming.leftover xs) := by
  -- when neither types nor lengths matter, there is no other frame behind the messages
  have hany := lengthPrefixes_encodes (fun _ => true)
  have hleft : (lengthPrefixes (fun _ => true)).frames (rawFraming.leftover xs) = [] := by
    obtain ⟨hframed, hparts⟩ := rawFraming_encodes.parts xs
    have hall := hany.frames_flatMap (fun msg hmsg => ⟨(hframed msg hmsg).2.1, rfl⟩)
      (rawFraming.leftover xs)
    rw [hparts, hany.frames_of_isPrefix (fun msg hmsg => ⟨(h msg hmsg).2.1, rfl⟩) hxs,
      ← rawFraming_encodes.frames_of_isPrefix h hxs] at hall
    exact List.self_eq_append_right.mp hall
  have hnone : ∀ msg rest, msg.length < 2 ^ 16 →
      rawFraming.leftover xs ≠ lengthPrefixed msg ++ rest := by
    intro msg rest hfits heq
    have hsplit := (hany (rawFraming.leftover xs) msg rest).mpr ⟨⟨hfits, rfl⟩, heq⟩
    rw [frames_of_some hsplit] at hleft
    cases hleft
  rintro (⟨rest, hrest⟩ | ⟨msg, rest, -, hfits, -, hrest⟩)
  · exact hnone [] rest (by decide) hrest
  · exact hnone msg rest hfits hrest

/-- **Raw ITCH files are read exactly.** For messages of 1 to 65535 bytes whose
    lengths agree with their types, and any front part of the file that holds them:
    reading gives the messages that are complete in it and ends without an error. For
    any file:

    - reading gives the longest run of such messages from the start;
    - an error is reported exactly when the next frame has length 0, or is complete
      and contradicts its type;
    - after any number of calls, the offset is the position behind the messages that
      were given. -/
theorem raw_itch_exact (msgs : List (List UInt8)) (file : List UInt8) :
    ((∀ msg ∈ msgs, Framed msg) → ∀ cut, cut <+: msgs.foldl appendRaw [] →
      (RawItchReader.new cut).readAll.1 = whole lengthPrefixed cut.length msgs ∧
      (RawItchReader.new cut).readAll.2.error = [] ∧
      (cut = msgs.foldl appendRaw [] → (RawItchReader.new cut).readAll.1 = msgs)) ∧
    ∃ given rest, (RawItchReader.new file).readAll.1 = given ∧
      file = given.foldl appendRaw [] ++ rest ∧ (∀ msg ∈ given, Framed msg) ∧
      (∀ given' rest', (∀ msg ∈ given', Framed msg) → file = given'.foldl appendRaw [] ++ rest' →
        given' <+: given) ∧
      ((RawItchReader.new file).readAll.2.error ≠ [] ↔ Faulty rest) ∧
      ∀ n, (drain RawItchReader.next n (RawItchReader.new file)).1 = given.take n ∧
        (drain RawItchReader.next n (RawItchReader.new file)).2.offset =
          UInt64.ofNat ((given.take n).foldl appendRaw []).length := by
  simp only [foldl_appendRaw, List.nil_append]
  constructor
  · intro hframed cut hcut
    obtain ⟨hgiven, herror⟩ := RawItchReader.readAll_spec cut
    rw [rawFraming_encodes.frames_of_isPrefix hframed hcut] at hgiven
    refine ⟨hgiven, ?_, ?_⟩
    · by_contra hne
      exact not_faulty_of_isPrefix hframed hcut (herror.mp hne)
    · rintro rfl
      rw [hgiven, whole_flatMap]
  · obtain ⟨hgiven, herror⟩ := RawItchReader.readAll_spec file
    obtain ⟨hframed, hparts⟩ := rawFraming_encodes.parts file
    refine ⟨rawFraming.frames file, rawFraming.leftover file, hgiven, hparts.symm, hframed,
      ?_, herror, ?_⟩
    · intro given' rest' hframed' hfile
      exact rawFraming_encodes.longest hframed' hfile.symm
    · intro n
      have hfirst : (drain RawItchReader.next n (RawItchReader.new file)).1 =
          (rawFraming.frames file).take n :=
            RawItchReader.reads.drain_fst n (RawItchReader.new file)
      refine ⟨hfirst, ?_⟩
      rw [RawItchReader.drain_offset, hfirst]
      exact UInt64.zero_add _

end Itch

end MatchingEngine
