import MatchingEngine.Lib.Decimal
import MatchingEngine.Soup.Session

/-! # Login requests

    The fields of a login are padded with spaces: names to the right, the sequence
    number, written in decimal digits, to the left. The receiver trims both ends
    of every field.

    * What `append_login_request` writes is read back (`login_comes_back`), and
      `accept_login` writes session and number in the same way.
    * The receiver adds up the digits modulo 2^64. A number that does not fit is
      accepted as another one (`requestedSeq_exact_iff`).
-/

namespace MatchingEngine

namespace Soup

open Decimal (IsDigit)

variable {s : List UInt8}

/-! ## Section 1: Padded fields -/

/-- `append_login_request`. -/
def appendLoginRequest (out username password requestedSession : List UInt8)
    (requestedSeq : UInt64) : List UInt8 :=
  out ++ packet kLoginRequest (appendAlpha username 6 ++ appendAlpha password 10 ++
    appendAlpha requestedSession 10 ++ appendSeq requestedSeq 20)

/-- A string that does not begin or end with a space. -/
def Trimmed (s : List UInt8) : Prop := s.head? ≠ some (ch ' ') ∧ s.getLast? ≠ some (ch ' ')

theorem dropWhile_spaces (k : Nat) (h : s.head? ≠ some (ch ' ')) :
    (List.replicate k (ch ' ') ++ s).dropWhile (fun c => c = ch ' ') = s := by
  rw [List.dropWhile_append_of_pos (by simp)]
  cases s with
  | nil => rfl
  | cons c s =>
    apply List.dropWhile_cons_of_neg
    simpa using h

/-- Trimming takes the spaces off both ends. -/
theorem trimField_spaces (h : Trimmed s) (j k : Nat) :
    trimField (List.replicate j (ch ' ') ++ (s ++ List.replicate k (ch ' '))) = s := by
  unfold trimField
  by_cases hs : s = []
  · -- nothing but spaces
    subst hs
    rw [List.nil_append, List.dropWhile_append_of_pos (by simp), List.dropWhile_replicate]
    simp [List.rdropWhile]
  · have hhead : (s ++ List.replicate k (ch ' ')).head? ≠ some (ch ' ') := by
      rw [List.head?_append_of_ne_nil _ hs]
      exact h.1
    have hlast : s.reverse.head? ≠ some (ch ' ') := by
      rw [List.head?_reverse]
      exact h.2
    rw [dropWhile_spaces j hhead, List.rdropWhile, List.reverse_append, List.reverse_replicate,
      dropWhile_spaces k hlast, List.reverse_reverse]

@[simp] theorem length_appendAlpha (s : List UInt8) (width : Nat) :
    (appendAlpha s width).length = width := by
  rw [appendAlpha, List.length_append, List.length_take, List.length_replicate]
  omega

/-- A name is read back from its field. -/
theorem trimField_appendAlpha {width : Nat} (hwidth : s.length ≤ width) (h : Trimmed s) :
    trimField (appendAlpha s width) = s := by
  rw [appendAlpha, List.take_of_length_le hwidth]
  exact trimField_spaces h 0 _

/-! ## Section 2: Decimal numbers -/

/-- The loop of `decode_login_request` adds up digits modulo 2^64. -/
theorem readSeq_of_digits (h : ∀ c ∈ s, IsDigit c) :
    readSeq s = some (UInt64.ofNat (Decimal.value s)) := by
  unfold readSeq Decimal.value
  -- the accumulator is the exact value so far, modulo 2^64
  suffices hacc : ∀ n : Nat, s.foldlM (fun (n : UInt64) c =>
      if c < ch '0' ∨ ch '9' < c then none else some (n * 10 + (c - ch '0').toUInt64))
        (UInt64.ofNat n) =
        some (UInt64.ofNat (s.foldl (fun n c => 10 * n + (c.toNat - 48)) n)) from hacc 0
  induction s with
  | nil =>
    intro n
    rfl
  | cons c s ih =>
    intro n
    obtain ⟨hlow, hhigh⟩ := h c List.mem_cons_self
    have hdigit : ¬ (c < ch '0' ∨ ch '9' < c) := by
      rintro (hlt | hlt)
      · exact absurd hlow (UInt8.not_le.mpr hlt)
      · exact absurd hhigh (UInt8.not_le.mpr hlt)
    have hvalue : (c - ch '0').toUInt64 = UInt64.ofNat (c.toNat - 48) := by
      apply UInt64.toNat_inj.mp
      rw [UInt8.toNat_toUInt64, UInt8.toNat_sub_of_le c (ch '0') hlow, UInt64.toNat_ofNat']
      have hc : c.toNat < 256 := c.toNat_lt
      show c.toNat - 48 = _
      omega
    have hstep : UInt64.ofNat n * 10 + UInt64.ofNat (c.toNat - 48) =
        UInt64.ofNat (10 * n + (c.toNat - 48)) := by
      rw [UInt64.ofNat_add, UInt64.ofNat_mul, UInt64.mul_comm]
      rfl
    rw [List.foldlM_cons, if_neg hdigit, hvalue, hstep]
    exact ih (fun d hd => h d (List.mem_cons_of_mem c hd)) _

/-- Any other character is refused. -/
theorem readSeq_of_not_digits (h : ∃ c ∈ s, ¬ IsDigit c) : readSeq s = none := by
  unfold readSeq
  generalize (0 : UInt64) = n
  induction s generalizing n with
  | nil =>
    obtain ⟨c, hc, -⟩ := h
    cases hc
  | cons d s ih =>
    rw [List.foldlM_cons]
    by_cases hd : d < ch '0' ∨ ch '9' < d
    · rw [if_pos hd]
      rfl
    · rw [if_neg hd]
      apply ih
      obtain ⟨c, hc, hnot⟩ := h
      rcases List.mem_cons.mp hc with rfl | hc
      · -- this character is a digit
        refine absurd ⟨?_, ?_⟩ hnot
        · exact UInt8.not_lt.mp (fun hlt => hd (.inl hlt))
        · exact UInt8.not_lt.mp (fun hlt => hd (.inr hlt))
      · exact ⟨c, hc, hnot⟩

/-- The 20 places are enough for every 64-bit number. -/
theorem length_digits_le (seq : UInt64) : (digits seq).length ≤ 20 := by
  have hlt : seq.toNat < 2 ^ 64 := seq.toNat_lt
  apply (Decimal.length_digits_le_iff (by decide)).mpr
  omega

theorem trimmed_of_digits (h : ∀ c ∈ s, IsDigit c) : Trimmed s := by
  have hspace : ¬ IsDigit (ch ' ') := by decide
  constructor
  · intro hhead
    exact hspace (h _ (List.mem_of_mem_head? hhead))
  · intro hlast
    exact hspace (h _ (List.mem_of_getLast? hlast))

@[simp] theorem length_appendSeq (seq : UInt64) : (appendSeq seq 20).length = 20 := by
  have hle := length_digits_le seq
  rw [appendSeq, List.length_append, List.length_replicate]
  omega

/-- A number is read back from its field. -/
theorem readSeq_appendSeq (seq : UInt64) : readSeq (trimField (appendSeq seq 20)) = some seq := by
  have hdigits : ∀ c ∈ digits seq, IsDigit c := fun _ => Decimal.isDigit_of_mem_digits
  have htrim := trimField_spaces (trimmed_of_digits hdigits) (20 - (digits seq).length) 0
  rw [List.replicate_zero, List.append_nil] at htrim
  have hvalue : Decimal.value (digits seq) = seq.toNat := Decimal.value_digits seq.toNat
  rw [appendSeq, htrim, readSeq_of_digits hdigits, hvalue, UInt64.ofNat_toNat]

/-! ## Section 3: Round trip -/

/-- **Login requests round-trip.** For names that fit their fields and have no
    space at their ends, and for every number: the payload has 46 bytes and is read
    back. A login that is accepted answers with the same session and number, in
    the last 30 of these bytes. -/
theorem login_comes_back (out username password session : List UInt8) (seq : UInt64)
    (husername : username.length ≤ 6) (hpassword : password.length ≤ 10)
    (hsession : session.length ≤ 10)
    (husername' : Trimmed username) (hpassword' : Trimmed password) (hsession' : Trimmed session) :
    ∃ payload,
      appendLoginRequest out username password session seq = out ++ packet kLoginRequest payload ∧
      payload.length = 46 ∧
      decodeLoginRequest payload = some ⟨username, password, session, seq⟩ ∧
      ∀ s : ServerSession,
        (s.acceptLogin session seq).out = s.out ++ packet kLoginAccepted (payload.drop 16) ∧
        trimField ((payload.drop 16).take 10) = session ∧
        readSeq (trimField ((payload.drop 16).drop 10)) = some seq := by
  have hseq := readSeq_appendSeq seq
  -- where each field stands
  have hlength : (appendAlpha username 6 ++ appendAlpha password 10 ++ appendAlpha session 10 ++
      appendSeq seq 20).length = 46 := by
    simp
  have hfirst : (appendAlpha username 6 ++ appendAlpha password 10 ++ appendAlpha session 10 ++
      appendSeq seq 20).take 6 = appendAlpha username 6 := by
    rw [List.append_assoc, List.append_assoc, List.take_left' (length_appendAlpha _ _)]
  have hsecond : (appendAlpha username 6 ++ appendAlpha password 10 ++ appendAlpha session 10 ++
      appendSeq seq 20).drop 6 = appendAlpha password 10 ++
        (appendAlpha session 10 ++ appendSeq seq 20) := by
    rw [List.append_assoc, List.append_assoc, List.drop_left' (length_appendAlpha _ _)]
  have hthird : (appendAlpha username 6 ++ appendAlpha password 10 ++ appendAlpha session 10 ++
      appendSeq seq 20).drop 16 = appendAlpha session 10 ++ appendSeq seq 20 := by
    rw [List.append_assoc, List.drop_left' (by simp)]
  have hlast : (appendAlpha username 6 ++ appendAlpha password 10 ++ appendAlpha session 10 ++
      appendSeq seq 20).drop 26 = appendSeq seq 20 := by
    rw [List.drop_left' (by simp)]
  refine ⟨_, rfl, hlength, ?_, ?_⟩
  · rw [decodeLoginRequest, if_neg (by rw [hlength]; decide), hfirst, hsecond, hthird, hlast,
      List.take_left' (length_appendAlpha _ _), List.take_left' (length_appendAlpha _ _),
      List.take_of_length_le (Nat.le_of_eq (length_appendSeq seq)), hseq,
      trimField_appendAlpha husername husername', trimField_appendAlpha hpassword hpassword',
      trimField_appendAlpha hsession hsession']
    rfl
  · intro s
    rw [hthird, List.take_left' (length_appendAlpha _ _), List.drop_left' (length_appendAlpha _ _)]
    exact ⟨rfl, trimField_appendAlpha hsession hsession', hseq⟩

/-- A login with an empty session and the greatest number. -/
theorem login_comes_back_max : ∃ payload, payload.length = 46 ∧
    decodeLoginRequest payload =
      some ⟨[ch 'u'], [ch 'p', ch ' ', ch 'w'], [], 18446744073709551615⟩ := by
  obtain ⟨payload, -, hlength, hdecode, -⟩ :=
    login_comes_back [] [ch 'u'] [ch 'p', ch ' ', ch 'w'] []
    18446744073709551615 (by decide) (by decide) (by decide) ⟨by decide, by decide⟩
      ⟨by decide, by decide⟩
    ⟨by decide, by decide⟩
  exact ⟨payload, hlength, hdecode⟩

/-! ## Section 4: Numbers that do not fit -/

/-- The field of the sequence number, without the spaces around it. -/
def seqField (p : List UInt8) : List UInt8 := trimField ((p.drop 26).take 20)

/-- **Which sequence numbers are understood.** A payload of 46 bytes is refused
    exactly when its last field, trimmed, has a character that is no digit. The
    number that is read is the exact value of the digits, and values of more than 64
    bits are refused, exactly when the value fits into 64 bits. In any case it is
    the value modulo 2^64. -/
theorem requestedSeq_exact_iff (p : List UInt8) (hp : p.length = 46) :
    (((∀ req, decodeLoginRequest p = some req → req.requestedSeq.toNat = Decimal.value
        (seqField p)) ∧ ((∃ c ∈ seqField p, ¬ IsDigit c) ∨ 2 ^ 64 ≤ Decimal.value (seqField p) →
          decodeLoginRequest p = none)) ↔
      ((∀ c ∈ seqField p, IsDigit c) → Decimal.value (seqField p) < 2 ^ 64)) ∧
    (decodeLoginRequest p = none ↔ ∃ c ∈ seqField p, ¬ IsDigit c) ∧
    (∀ req, decodeLoginRequest p = some req →
      req.requestedSeq.toNat = Decimal.value (seqField p) % 2 ^ 64) := by
  have hdecode : decodeLoginRequest p = (readSeq (seqField p)).map (fun seq =>
      ⟨trimField (p.take 6), trimField ((p.drop 6).take 10),
        trimField ((p.drop 16).take 10), seq⟩) := by
    rw [decodeLoginRequest, if_neg (by rw [hp]; decide)]
    show (readSeq (seqField p)).bind _ = _
    cases readSeq (seqField p) <;> rfl
  generalize seqField p = field at hdecode ⊢
  by_cases hdigits : ∀ c ∈ field, IsDigit c
  · -- the field is read, modulo 2^64
    have hall : ¬ ∃ c ∈ field, ¬ IsDigit c := by
      rintro ⟨c, hc, hnot⟩
      exact hnot (hdigits c hc)
    have hsome := hdecode
    rw [readSeq_of_digits hdigits, Option.map_some] at hsome
    have hmod : ∀ req, decodeLoginRequest p = some req →
        req.requestedSeq.toNat = Decimal.value field % 2 ^ 64 := by
      intro req hreq
      cases hsome.symm.trans hreq
      exact UInt64.toNat_ofNat'
    refine ⟨⟨?_, ?_⟩, ?_, hmod⟩
    · rintro ⟨hexact, -⟩ -
      have hvalue := (hmod _ hsome).symm.trans (hexact _ hsome)
      rw [← hvalue]
      exact Nat.mod_lt _ (by decide)
    · intro hfits
      refine ⟨?_, ?_⟩
      · intro req hreq
        rw [hmod req hreq, Nat.mod_eq_of_lt (hfits hdigits)]
      · rintro (hbad | hlarge)
        · exact absurd hbad hall
        · exact absurd (hfits hdigits) (Nat.not_lt.mpr hlarge)
    · rw [hsome]
      exact iff_of_false (by simp) hall
  · have hbad : ∃ c ∈ field, ¬ IsDigit c := by
      simpa using hdigits
    have hnone := hdecode
    rw [readSeq_of_not_digits hbad, Option.map_none] at hnone
    have hrefused : ∀ (P : LoginRequest → Prop) req, decodeLoginRequest p = some req → P req := by
      intro P req hreq
      cases hnone.symm.trans hreq
    refine ⟨⟨?_, ?_⟩, iff_of_true hnone hbad, hrefused _⟩
    · intro _ hall
      exact absurd hall hdigits
    · intro _
      exact ⟨hrefused _, fun _ => hnone⟩

/-- Digits between spaces. -/
theorem requestedSeq_exact_iff_digits : ∃ req,
    decodeLoginRequest (List.replicate 40 (ch ' ') ++ text " 1234 ") = some req ∧
      req.requestedSeq.toNat = 1234 := by
  obtain ⟨-, hrefused, hvalue⟩ :=
    requestedSeq_exact_iff (List.replicate 40 (ch ' ') ++ text " 1234 ") (by decide)
  have hfield : seqField (List.replicate 40 (ch ' ') ++ text " 1234 ") = text "1234" := by decide
  rw [hfield] at hrefused hvalue
  cases hdecode : decodeLoginRequest (List.replicate 40 (ch ' ') ++ text " 1234 ") with
  | none => exact absurd (hrefused.mp hdecode) (by decide)
  | some req => exact ⟨req, rfl, hvalue req hdecode⟩

/-- The digits of 2^64 are 20 digits, and are read as 0. -/
theorem requestedSeq_wraps :
    decodeLoginRequest (List.replicate 26 (ch ' ') ++
      (Nat.toDigits 10 18446744073709551616).map ch) = some ⟨[], [], [], 0⟩ ∧
    Decimal.value ((Nat.toDigits 10 18446744073709551616).map ch) = 2 ^ 64 := by
  decide

end Soup

end MatchingEngine
