import Mathlib.Data.Nat.Basic
import Mathlib.Algebra.Order.Group.Nat

/-! # Bytes

    Fixed-width big-endian numbers, and reads and writes at an offset of a
    buffer. A read or a write that would leave the buffer has no result (`slice`,
    `writeAt`), so that a program whose accesses all have results stays inside.

    A record whose fields are written one behind the other is the concatenation
    of its fields (`fill_tight`). The lemmas about `slice` find a field in such a
    concatenation by skipping the fields before it. When every string of the right
    length is written by a field (`Covers`), so it is by the record.
-/

namespace Bytes

variable {x p : List UInt8} {k n : Nat} {ws : List (Nat × List UInt8)}

/-! ### Big-endian numbers -/

/-- The low `k` bytes of `v`, high byte first. -/
def toBe : Nat → Nat → List UInt8
  | 0, _ => []
  | k + 1, v => UInt8.ofNat (v / 256 ^ k) :: toBe k v

/-- The number that bytes denote, high byte first. -/
def ofBe : List UInt8 → Nat
  | [] => 0
  | b :: bs => b.toNat * 256 ^ bs.length + ofBe bs

@[simp] theorem length_toBe (k v : Nat) : (toBe k v).length = k := by
  induction k with
  | zero => rfl
  | succ k ih => simp [toBe, ih]

/-- Reading a number back gives what fitted into its bytes. -/
@[simp] theorem ofBe_toBe (k v : Nat) : ofBe (toBe k v) = v % 256 ^ k := by
  induction k with
  | zero => simp [toBe, ofBe, Nat.mod_one]
  | succ k ih =>
    -- the high byte and the remainder make up the number
    have hbyte : (UInt8.ofNat (v / 256 ^ k)).toNat = v / 256 ^ k % 256 := UInt8.toNat_ofNat'
    rw [toBe, ofBe, length_toBe, ih, hbyte, Nat.pow_succ, Nat.mod_mul, Nat.mul_comm, Nat.add_comm]

/-- Bytes above the width do not show. -/
theorem toBe_mod (k v : Nat) : toBe k (v % 256 ^ k) = toBe k v := by
  have hlow : ∀ j, j ≤ k → toBe j (v % 256 ^ k) = toBe j v := by
    intro j hj
    induction j with
    | zero => rfl
    | succ j ih =>
      have hbyte : v % 256 ^ k / 256 ^ j % 256 = v / 256 ^ j % 256 := by
        obtain ⟨d, rfl⟩ := Nat.exists_eq_add_of_le hj
        rw [show j + 1 + d = j + (1 + d) by omega, Nat.pow_add, Nat.mod_mul_right_div_self,
          Nat.pow_add, Nat.pow_one, Nat.mod_mul_right_mod]
      rw [toBe, toBe, ih (by omega)]
      congr 1
      apply UInt8.toNat_inj.mp
      rw [UInt8.toNat_ofNat', UInt8.toNat_ofNat']
      exact hbyte
  exact hlow k (Nat.le_refl k)

theorem ofBe_lt (x : List UInt8) : ofBe x < 256 ^ x.length := by
  induction x with
  | nil => exact Nat.one_pos
  | cons b bs ih =>
    have hbyte : b.toNat + 1 ≤ 256 := b.toNat_lt
    calc ofBe (b :: bs) < b.toNat * 256 ^ bs.length + 256 ^ bs.length := Nat.add_lt_add_left ih _
      _ = (b.toNat + 1) * 256 ^ bs.length := (Nat.succ_mul _ _).symm
      _ ≤ 256 * 256 ^ bs.length := Nat.mul_le_mul_right _ hbyte
      _ = 256 ^ (b :: bs).length := by rw [List.length_cons, Nat.pow_succ, Nat.mul_comm]

/-- Every string of bytes is a number of its width. -/
theorem toBe_ofBe (x : List UInt8) : toBe x.length (ofBe x) = x := by
  induction x with
  | nil => rfl
  | cons b bs ih =>
    have hlt := ofBe_lt bs
    have hhigh : (b.toNat * 256 ^ bs.length + ofBe bs) / 256 ^ bs.length = b.toNat := by
      rw [Nat.mul_comm, Nat.mul_add_div (Nat.pow_pos (by decide)), Nat.div_eq_of_lt hlt,
        Nat.add_zero]
    have hlow : (b.toNat * 256 ^ bs.length + ofBe bs) % 256 ^ bs.length = ofBe bs := by
      rw [Nat.mul_comm, Nat.mul_add_mod, Nat.mod_eq_of_lt hlt]
    rw [List.length_cons, toBe, ofBe, hhigh, ← toBe_mod, hlow, ih]
    congr 1
    exact UInt8.ofNat_toNat

/-! ### Reading at an offset -/

/-- The `k` bytes at offset `i`, if they are all there. -/
def slice (p : List UInt8) (i k : Nat) : Option (List UInt8) :=
  if i + k ≤ p.length then some ((p.drop i).take k) else none

/-- A field is found behind what stands before it. -/
theorem slice_skip {i : Nat} (h : x.length ≤ i) :
    slice (x ++ p) i k = slice p (i - x.length) k := by
  unfold slice
  have hdrop : (x ++ p).drop i = p.drop (i - x.length) := by
    rw [List.drop_append, List.drop_eq_nil_of_le h, List.nil_append]
  have hfits : i + k ≤ (x ++ p).length ↔ i - x.length + k ≤ p.length := by
    rw [List.length_append]
    omega
  simp only [hdrop, hfits]

theorem slice_here (h : x.length = k) : slice (x ++ p) 0 k = some x := by
  subst h
  simp [slice]

/-! ### Reading a file -/

/-- The next `n` bytes of a file, or as many as there are, and what follows. -/
def fread (n : Nat) (f : List UInt8) : List UInt8 × List UInt8 := (f.take n, f.drop n)

/-! ### Writing at an offset -/

/-- The buffer `p` after `bs` was written at offset `i`. -/
def writeAt (p : List UInt8) (i : Nat) (bs : List UInt8) : Option (List UInt8) :=
  if i + bs.length ≤ p.length then some (p.take i ++ bs ++ p.drop (i + bs.length)) else none

/-- Writes, each with its offset, one after the other. -/
def writes (p : List UInt8) (ws : List (Nat × List UInt8)) : Option (List UInt8) :=
  ws.foldlM (fun p w => writeAt p w.1 w.2) p

/-- A new buffer of `n` bytes after some writes. -/
def fill (n : Nat) (ws : List (Nat × List UInt8)) : Option (List UInt8) :=
  writes (List.replicate n 0) ws

/-- Each write starts where the one before it ended. -/
def Tight : Nat → List (Nat × List UInt8) → Prop
  | _, [] => True
  | i, w :: ws => w.1 = i ∧ Tight (i + w.2.length) ws

theorem writeAt_next (x bs : List UInt8) (n : Nat) :
    writeAt (x ++ List.replicate (bs.length + n) 0) x.length bs =
      some ((x ++ bs) ++ List.replicate n 0) := by
  have hfits : x.length + bs.length ≤ (x ++ List.replicate (bs.length + n) (0 : UInt8)).length := by
    rw [List.length_append, List.length_replicate]
    omega
  rw [writeAt, if_pos hfits, List.take_left, List.drop_append, List.drop_eq_nil_of_le (by omega),
    List.nil_append, Nat.add_sub_cancel_left, List.drop_replicate, Nat.add_sub_cancel_left]

/-- Tight writes fill a buffer from the front. -/
theorem writes_tight (h : Tight x.length ws) (n : Nat) :
    writes (x ++ List.replicate ((ws.flatMap Prod.snd).length + n) 0) ws =
      some (x ++ ws.flatMap Prod.snd ++ List.replicate n 0) := by
  induction ws generalizing x with
  | nil => simp [writes]
  | cons w ws ih =>
    obtain ⟨hstart, htight⟩ := h
    have hlen : ((w :: ws).flatMap Prod.snd).length + n =
        w.2.length + ((ws.flatMap Prod.snd).length + n) := by
      rw [List.flatMap_cons, List.length_append, Nat.add_assoc]
    have hrest := ih (x := x ++ w.2) (by rwa [List.length_append])
    unfold writes at hrest ⊢
    rw [hlen, List.foldlM_cons, hstart, writeAt_next]
    show (ws.foldlM (fun p w => writeAt p w.1 w.2) _ : Option (List UInt8)) = _
    rw [hrest, List.flatMap_cons, List.append_assoc x]

theorem writes_append (p : List UInt8) (ws vs : List (Nat × List UInt8)) :
    writes p (ws ++ vs) = (writes p ws).bind (fun q => writes q vs) :=
  List.foldlM_append

theorem writeAt_front {y : List UInt8} (p : List UInt8) (h : y.length = x.length) :
    writeAt (x ++ p) 0 y = some (y ++ p) := by
  have hfits : 0 + y.length ≤ (x ++ p).length := by
    rw [List.length_append]
    omega
  have hdrop : (x ++ p).drop (0 + y.length) = p := by
    rw [Nat.zero_add, h, List.drop_left]
  rw [writeAt, if_pos hfits, hdrop, List.take_zero, List.nil_append]

theorem fill_tight (h : Tight 0 ws) (hn : (ws.flatMap Prod.snd).length = n) :
    fill n ws = some (ws.flatMap Prod.snd) := by
  have hall := writes_tight (x := []) h 0
  rw [List.nil_append, Nat.add_zero, hn] at hall
  simpa [fill] using hall

/-- The front of the first field may be overwritten before the buffer is full. -/
theorem fill_overwrite {y z : List UInt8} {vs : List (Nat × List UInt8)} (hy : y.length = x.length)
    (h : Tight (x ++ z).length ws) (h' : Tight ((x ++ z).length + (ws.flatMap Prod.snd).length) vs)
    (hn : (x ++ z).length + (ws.flatMap Prod.snd).length + (vs.flatMap Prod.snd).length = n) :
    fill n (((0, x ++ z) :: ws) ++ (0, y) :: vs) =
      some (y ++ z ++ ws.flatMap Prod.snd ++ vs.flatMap Prod.snd) := by
  -- the buffer with the first fields in front of room for the others
  have hfirst : fill n ((0, x ++ z) :: ws) =
      some (x ++ (z ++ ws.flatMap Prod.snd ++
        List.replicate ((vs.flatMap Prod.snd).length) 0)) := by
    have htight : Tight 0 ((0, x ++ z) :: ws) := ⟨rfl, by simpa using h⟩
    have hall := writes_tight (x := []) htight (vs.flatMap Prod.snd).length
    rw [List.nil_append, List.flatMap_cons, List.length_append, hn] at hall
    simpa [fill] using hall
  have hrest := writes_tight (x := y ++ z ++ ws.flatMap Prod.snd)
    (by simpa [hy, Nat.add_assoc] using h') 0
  have hsecond : writes
      (x ++ (z ++ ws.flatMap Prod.snd ++ List.replicate ((vs.flatMap Prod.snd).length) 0))
      ((0, y) :: vs) = some (y ++ z ++ ws.flatMap Prod.snd ++ vs.flatMap Prod.snd) := by
    unfold writes at hrest ⊢
    rw [List.foldlM_cons, writeAt_front _ hy]
    simpa using hrest
  unfold fill at hfirst ⊢
  rw [writes_append, hfirst]
  exact hsecond

/-! ### Characters -/

/-- The `k` characters at offset `i`. -/
def chars (k : Nat) (p : List UInt8) (i : Nat) : Option (Vector UInt8 k) :=
  if h : i + k ≤ p.length then some (Vector.ofFn (fun j => p.get ⟨i + j, by omega⟩)) else none

@[simp] theorem chars_skip {i : Nat} (h : x.length ≤ i) :
    chars k (x ++ p) i = chars k p (i - x.length) := by
  unfold chars
  by_cases hfits : i - x.length + k ≤ p.length
  · have hfits' : i + k ≤ (x ++ p).length := by
      rw [List.length_append]
      omega
    rw [dif_pos hfits, dif_pos hfits']
    congr 2
    funext j
    show (x ++ p)[i + j] = p[i - x.length + j]
    rw [List.getElem_append_right (by omega)]
    congr 1
    omega
  · have hfits' : ¬ i + k ≤ (x ++ p).length := by
      rw [List.length_append]
      omega
    rw [dif_neg hfits, dif_neg hfits']

@[simp] theorem chars_here (v : Vector UInt8 k) (p : List UInt8) :
    chars k (v.toList ++ p) 0 = some v := by
  have hfits : 0 + k ≤ (v.toList ++ p).length := by simp
  rw [chars, dif_pos hfits]
  congr 1
  apply Vector.ext
  intro j hj
  simp [List.getElem_append_left]

/-! ### Strings of a known length -/

/-- The first `k` bytes of a string that has as many. -/
theorem exists_front (k : Nat) (h : p.length = n + k) :
    ∃ x q, p = x ++ q ∧ x.length = k ∧ q.length = n := by
  refine ⟨p.take k, p.drop k, (List.take_append_drop k p).symm, ?_, ?_⟩
  · rw [List.length_take]
    omega
  · rw [List.length_drop]
    omega

/-- Every string of `k` bytes is what `put` writes for a good value. -/
def Covers {α : Type} (k : Nat) (Good : α → Prop) (put : α → List UInt8) : Prop :=
  ∀ p, p.length = k → ∃ a, Good a ∧ put a = p

section covers

variable {α β : Type} {Good : α → Prop} {Good' : β → Prop} {put : α → List UInt8}
  {put' : β → List UInt8} {j : Nat}

/-- One field behind another. -/
theorem Covers.append (h : Covers j Good put) (h' : Covers k Good' put') :
    Covers (j + k) (fun ab : α × β => Good ab.1 ∧ Good' ab.2)
      (fun ab => put ab.1 ++ put' ab.2) := by
  intro p hp
  obtain ⟨x, q, rfl, hx, hq⟩ := exists_front j (hp.trans (Nat.add_comm j k))
  obtain ⟨a, ha, rfl⟩ := h x hx
  obtain ⟨b, hb, rfl⟩ := h' q hq
  exact ⟨(a, b), ⟨ha, hb⟩, rfl⟩

/-- A field at the front of a longer string. -/
theorem Covers.front (h : Covers k Good put) (hp : p.length = n + k) :
    ∃ a q, Good a ∧ p = put a ++ q ∧ q.length = n := by
  obtain ⟨x, q, rfl, hx, hq⟩ := exists_front k hp
  obtain ⟨a, ha, rfl⟩ := h x hx
  exact ⟨a, q, ha, rfl, hq⟩

/-- Nothing behind the last field. -/
theorem covers_nil : Covers 0 (fun _ : Unit => True) (fun _ => []) := by
  intro p hp
  exact ⟨(), trivial, (List.eq_nil_of_length_eq_zero hp).symm⟩

theorem covers_chars (k : Nat) : Covers k (fun _ : Vector UInt8 k => True) Vector.toList := by
  intro p hp
  exact ⟨⟨p.toArray, hp⟩, trivial, by simp [Vector.toList]⟩

end covers

/-! ### Codecs -/

/-- A codec for records of one size and type. Every record in range is read back
    as it was written, exactly the strings of the size and the type are read, and
    what is read is written back as it was. -/
structure Exact {α : Type} (InRange : α → Prop) (size : Nat) (type : UInt8)
    (encode : α → Option (List UInt8)) (decode : List UInt8 → Option α) : Prop where
  forth : ∀ m, InRange m → ∃ p, encode m = some p ∧ p.length = size ∧ decode p = some m
  accepts : ∀ p, (decode p).isSome ↔ p.length = size ∧ p[0]? = some type
  back : ∀ p m, decode p = some m → InRange m ∧ encode m = some p

/-- It is enough that every string of the size and the type is a written record. -/
theorem exact_of_onto {α : Type} {InRange : α → Prop} {size : Nat} {type : UInt8}
    {encode : α → Option (List UInt8)} {decode : List UInt8 → Option α}
    (hforth : ∀ m, InRange m → ∃ p, encode m = some p ∧ p.length = size ∧ decode p = some m)
    (honto : ∀ p, p.length = size → p[0]? = some type → ∃ m, InRange m ∧ encode m = some p)
    (hrefuses : ∀ p, ¬ (p.length = size ∧ p[0]? = some type) → decode p = none) :
    Exact InRange size type encode decode := by
  have hread : ∀ p, p.length = size → p[0]? = some type →
      ∃ m, InRange m ∧ encode m = some p ∧ decode p = some m := by
    intro p hsize htype
    obtain ⟨m, hm, hencode⟩ := honto p hsize htype
    obtain ⟨p', hencode', -, hdecode⟩ := hforth m hm
    cases hencode.symm.trans hencode'
    exact ⟨m, hm, hencode, hdecode⟩
  have haccepts : ∀ p, (decode p).isSome ↔ p.length = size ∧ p[0]? = some type := by
    intro p
    constructor
    · intro hsome
      by_contra hnot
      rw [hrefuses p hnot] at hsome
      cases hsome
    · rintro ⟨hsize, htype⟩
      obtain ⟨m, -, -, hdecode⟩ := hread p hsize htype
      rw [hdecode]
      rfl
  refine ⟨hforth, haccepts, ?_⟩
  intro p m hdecode
  obtain ⟨hsize, htype⟩ := (haccepts p).mp (by rw [hdecode]; rfl)
  obtain ⟨m', hm', hencode, hdecode'⟩ := hread p hsize htype
  cases hdecode.symm.trans hdecode'
  exact ⟨hm', hencode⟩

end Bytes
