import Mathlib.Data.List.Basic

/-! # Frames of a stream

    A framing cuts the first frame off a stream, or says that no whole frame
    stands at its front. Two facts make it independent of how the stream arrives:
    a frame takes something off the stream, and bytes that arrive later do not
    change a frame that is already there. The frames of a stream that arrives in
    pieces can then be taken as they come in (`frames_append`).

    When the frames are what an encoder writes (`Encodes`), the frames of a stream
    of encoded values are those values, a stream that is cut short has the values
    that are `whole` in it, and any stream starts with a longest such run.

    Frames that announce the length of their body in a header are `headed`. A
    program that reads a stream call by call is connected to a framing by `Reads`.
-/

/-- How frames `α` are cut off a stream of `β`. -/
structure Framing (β α : Type*) where
  split : List β → Option (α × List β)
  shorter : ∀ {xs a ys}, split xs = some (a, ys) → ys.length < xs.length
  stable : ∀ {xs a ys} zs, split xs = some (a, ys) → split (xs ++ zs) = some (a, ys ++ zs)

namespace Framing

variable {β α : Type*} (F : Framing β α)

variable {xs ys : List β} {a : α}

/-- At most `n` frames of a stream, and what follows them. -/
def framesWithin : Nat → List β → List α × List β
  | 0, xs => ([], xs)
  | n + 1, xs =>
    match F.split xs with
    | none => ([], xs)
    | some (a, ys) => (a :: (framesWithin n ys).1, (framesWithin n ys).2)

/-- All the frames of a stream. -/
def frames (xs : List β) : List α := (F.framesWithin xs.length xs).1

/-- What follows the last whole frame. -/
def leftover (xs : List β) : List β := (F.framesWithin xs.length xs).2

variable {F}

/-- Induction along the frames of a stream. -/
theorem induct {motive : List β → Prop} (none : ∀ xs, F.split xs = none → motive xs)
    (some : ∀ xs a ys, F.split xs = some (a, ys) → motive ys → motive xs) (xs : List β) :
    motive xs := by
  induction h : xs.length using Nat.strongRecOn generalizing xs with
  | ind n ih =>
    cases hsplit : F.split xs with
    | none => exact none xs hsplit
    | some r =>
      have hshorter := F.shorter hsplit
      exact some xs r.1 r.2 hsplit (ih r.2.length (h ▸ hshorter) r.2 rfl)

theorem framesWithin_none (h : F.split xs = none) (n : Nat) : F.framesWithin n xs = ([], xs) := by
  cases n with
  | zero => rfl
  | succ n => rw [framesWithin, h]

/-- More room than the stream is long changes nothing. -/
theorem framesWithin_of_le {n : Nat} (h : xs.length ≤ n) :
    F.framesWithin n xs = (F.frames xs, F.leftover xs) := by
  suffices hsame : ∀ m, xs.length ≤ m → F.framesWithin n xs = F.framesWithin m xs from
    hsame xs.length (Nat.le_refl _)
  intro m hm
  induction n generalizing xs m with
  | zero =>
    have hnone : F.split xs = none := by
      cases hsplit : F.split xs with
      | none => rfl
      | some r => exact absurd (F.shorter hsplit) (by omega)
    rw [framesWithin_none hnone, framesWithin_none hnone]
  | succ n ih =>
    cases hsplit : F.split xs with
    | none => rw [framesWithin_none hsplit, framesWithin_none hsplit]
    | some r =>
      obtain ⟨a, ys⟩ := r
      have hshorter := F.shorter hsplit
      cases m with
      | zero => exact absurd hshorter (by omega)
      | succ m =>
        have hrest := @ih ys (by omega) m (by omega)
        simp only [framesWithin, hsplit, hrest]

/-! ### The first frame -/

theorem frames_of_none (h : F.split xs = none) : F.frames xs = [] := by
  rw [frames, framesWithin_none h]

theorem leftover_of_none (h : F.split xs = none) : F.leftover xs = xs := by
  rw [leftover, framesWithin_none h]

theorem cut_of_some (h : F.split xs = some (a, ys)) :
    F.frames xs = a :: F.frames ys ∧ F.leftover xs = F.leftover ys := by
  have hrest : F.framesWithin xs.length ys = (F.frames ys, F.leftover ys) :=
    framesWithin_of_le (Nat.le_of_lt (F.shorter h))
  have hall : F.framesWithin (xs.length + 1) xs = (F.frames xs, F.leftover xs) :=
    framesWithin_of_le (Nat.le_succ xs.length)
  simp only [framesWithin, h, hrest, Prod.mk.injEq] at hall
  exact ⟨hall.1.symm, hall.2.symm⟩

theorem frames_of_some (h : F.split xs = some (a, ys)) :
    F.frames xs = a :: F.frames ys := (cut_of_some h).1

theorem leftover_of_some (h : F.split xs = some (a, ys)) :
    F.leftover xs = F.leftover ys := (cut_of_some h).2

/-- Nothing whole is left over. -/
theorem split_leftover (xs : List β) : F.split (F.leftover xs) = none := by
  induction xs using induct with
  | none xs h => rwa [leftover_of_none h]
  | some xs a ys h ih => rwa [leftover_of_some h]

/-- Every frame takes something off the stream. -/
theorem length_frames_le (xs : List β) : (F.frames xs).length ≤ xs.length := by
  induction xs using induct with
  | none xs h =>
    rw [frames_of_none h]
    exact Nat.zero_le _
  | some xs a ys h ih =>
    rw [frames_of_some h]
    exact Nat.lt_of_le_of_lt ih (F.shorter h)

/-! ### Streams that arrive in pieces -/

/-- The frames of what has arrived, then those that the rest completes. -/
theorem frames_append (xs zs : List β) :
    F.frames (xs ++ zs) = F.frames xs ++ F.frames (F.leftover xs ++ zs) := by
  induction xs using induct with
  | none xs h => rw [frames_of_none h, leftover_of_none h, List.nil_append]
  | some xs a ys h ih =>
    rw [frames_of_some (F.stable zs h), frames_of_some h, leftover_of_some h, ih, List.cons_append]

theorem leftover_append (xs zs : List β) :
    F.leftover (xs ++ zs) = F.leftover (F.leftover xs ++ zs) := by
  induction xs using induct with
  | none xs h => rw [leftover_of_none h]
  | some xs a ys h ih => rw [leftover_of_some (F.stable zs h), leftover_of_some h, ih]

/-! ### Streams of encoded values -/

/-- The frames are what `encode` writes for the valid values. -/
def Encodes (F : Framing β α) (Valid : α → Prop) (encode : α → List β) : Prop :=
  ∀ xs a ys, F.split xs = some (a, ys) ↔ Valid a ∧ xs = encode a ++ ys

/-- The values, from the first one on, whose encodings end within the first `n`
    places. -/
def whole (encode : α → List β) : Nat → List α → List α
  | _, [] => []
  | n, a :: as => if (encode a).length ≤ n then a :: whole encode (n - (encode a).length) as else []

section encoded

variable {Valid : α → Prop} {encode : α → List β} {as : List α} {xs ys : List β}

variable {n : Nat}

theorem whole_cons_of_le {a : α} (h : (encode a).length ≤ n) :
    whole encode n (a :: as) = a :: whole encode (n - (encode a).length) as := if_pos h

theorem whole_cons_of_lt {a : α} (h : n < (encode a).length) :
    whole encode n (a :: as) = [] := if_neg (Nat.not_le_of_lt h)

theorem whole_isPrefix (n : Nat) (as : List α) : whole encode n as <+: as := by
  induction as generalizing n with
  | nil => exact List.nil_prefix
  | cons a as ih =>
    unfold whole
    split
    · exact (List.prefix_cons_inj a).mpr (ih _)
    · exact List.nil_prefix

/-- With all the bytes there, all the values are whole. -/
theorem whole_flatMap (as : List α) : whole encode (as.flatMap encode).length as = as := by
  induction as with
  | nil => rfl
  | cons a as ih =>
    rw [List.flatMap_cons, List.length_append, whole_cons_of_le (Nat.le_add_right _ _),
      Nat.add_sub_cancel_left, ih]

/-- A value is whole exactly when its last byte is there. -/
theorem lt_length_whole_iff {k : Nat} :
    k < (whole encode n as).length ↔ k < as.length ∧
      ((as.take (k + 1)).flatMap encode).length ≤ n := by
  induction as generalizing k n with
  | nil => simp [whole]
  | cons a as ih =>
    rw [List.take_succ_cons, List.flatMap_cons, List.length_append]
    by_cases hfits : (encode a).length ≤ n
    · rw [whole_cons_of_le hfits]
      cases k with
      | zero => simp [hfits]
      | succ k =>
        rw [List.length_cons, List.length_cons, Nat.add_lt_add_iff_right, Nat.add_lt_add_iff_right,
          ih, Nat.le_sub_iff_add_le' hfits]
    · rw [whole_cons_of_lt (Nat.lt_of_not_le hfits)]
      apply iff_of_false
      · exact Nat.not_lt_zero k
      · intro h
        exact hfits (Nat.le_trans (Nat.le_add_right _ _) h.2)

variable (h : F.Encodes Valid encode)

include h

/-- Encoded values in front of a stream are its first frames. -/
theorem Encodes.frames_flatMap (hvalid : ∀ a ∈ as, Valid a) (xs : List β) :
    F.frames (as.flatMap encode ++ xs) = as ++ F.frames xs := by
  induction as with
  | nil => rfl
  | cons a as ih =>
    have hsplit : F.split ((a :: as).flatMap encode ++ xs) = some (a, as.flatMap encode ++ xs) := by
      apply (h _ _ _).mpr
      exact ⟨hvalid a List.mem_cons_self, by rw [List.flatMap_cons, List.append_assoc]⟩
    rw [frames_of_some hsplit, ih (fun b hb => hvalid b (List.mem_cons_of_mem a hb)),
      List.cons_append]

/-- A stream is its frames and what is left over. -/
theorem Encodes.parts (xs : List β) :
    (∀ a ∈ F.frames xs, Valid a) ∧ (F.frames xs).flatMap encode ++ F.leftover xs = xs := by
  induction xs using induct with
  | none xs hsplit =>
    rw [frames_of_none hsplit, leftover_of_none hsplit]
    exact ⟨by simp, rfl⟩
  | some xs a ys hsplit ih =>
    obtain ⟨hvalid, heq⟩ := (h _ _ _).mp hsplit
    rw [frames_of_some hsplit, leftover_of_some hsplit]
    constructor
    · intro b hb
      rcases List.mem_cons.mp hb with rfl | hb
      · exact hvalid
      · exact ih.1 b hb
    · rw [List.flatMap_cons, List.append_assoc, ih.2, heq]

/-- No run of encoded values in front of a stream is longer than its frames. -/
theorem Encodes.longest (hvalid : ∀ a ∈ as, Valid a) (hxs : as.flatMap encode ++ ys = xs) :
    as <+: F.frames xs := by
  rw [← hxs, h.frames_flatMap hvalid]
  exact List.prefix_append as _

/-- A stream of encoded values that is cut short has the values that are whole. -/
theorem Encodes.frames_of_isPrefix (hvalid : ∀ a ∈ as, Valid a) (hxs : xs <+: as.flatMap encode) :
    F.frames xs = whole encode xs.length as := by
  induction as generalizing xs with
  | nil =>
    have hnil : F.split [] = none := by
      cases hsplit : F.split [] with
      | none => rfl
      | some r => exact absurd (F.shorter hsplit) (Nat.not_lt_zero _)
    rw [List.prefix_nil.mp hxs, frames_of_none hnil]
    rfl
  | cons a as ih =>
    obtain ⟨zs, hzs⟩ := hxs
    rw [List.flatMap_cons] at hzs
    have hsplit : F.split (xs ++ zs) = some (a, as.flatMap encode) :=
      (h _ _ _).mpr ⟨hvalid a List.mem_cons_self, hzs⟩
    by_cases hfits : (encode a).length ≤ xs.length
    · -- the first value is there, and the rest of the stream is cut short
      obtain ⟨ys, rfl⟩ := List.prefix_of_prefix_length_le (List.prefix_append _ _)
        ⟨zs, hzs⟩ hfits
      have hys : ys ++ zs = as.flatMap encode := by
        rw [List.append_assoc] at hzs
        exact List.append_cancel_left hzs
      have hfirst : F.split (encode a ++ ys) = some (a, ys) :=
        (h _ _ _).mpr ⟨hvalid a List.mem_cons_self, rfl⟩
      rw [frames_of_some hfirst, ih (fun b hb => hvalid b (List.mem_cons_of_mem a hb)) ⟨zs, hys⟩,
        whole_cons_of_le hfits, List.length_append, Nat.add_sub_cancel_left]
    · -- a frame that is already there would be the first value
      have hnone : F.split xs = none := by
        cases hfirst : F.split xs with
        | none => rfl
        | some r =>
          obtain ⟨b, ys⟩ := r
          obtain ⟨rfl, -⟩ := Prod.mk.inj (Option.some.inj ((F.stable zs hfirst).symm.trans hsplit))
          obtain ⟨-, rfl⟩ := (h _ _ _).mp hfirst
          rw [List.length_append] at hfits
          omega
      rw [frames_of_none hnone, whole_cons_of_lt (Nat.lt_of_not_le hfits)]

end encoded

/-! ### Headers -/

/-- Frames with a header of `h` places, in which `size` finds the length of the
    body. `read` makes a value of header and body, or refuses them. -/
def headed (h : Nat) (hpos : 0 < h) (size : List β → Nat) (read : List β → List β → Option α) :
    Framing β α where
  split xs :=
    if h + size (xs.take h) ≤ xs.length then
      (read (xs.take h) ((xs.drop h).take (size (xs.take h)))).map
        (fun a => (a, xs.drop (h + size (xs.take h))))
    else none
  shorter := by
    intro xs a ys hsplit
    split at hsplit
    · obtain ⟨b, -, heq⟩ := Option.map_eq_some_iff.mp hsplit
      cases heq
      rw [List.length_drop]
      omega
    · cases hsplit
  stable := by
    intro xs a ys zs hsplit
    split at hsplit
    · rename_i hfits
      have hheader : (xs ++ zs).take h = xs.take h := List.take_append_of_le_length (by omega)
      have hbody : ((xs ++ zs).drop h).take (size (xs.take h)) =
          (xs.drop h).take (size (xs.take h)) := by
        rw [List.drop_append_of_le_length (by omega), List.take_append_of_le_length]
        rw [List.length_drop]
        omega
      obtain ⟨b, hread, heq⟩ := Option.map_eq_some_iff.mp hsplit
      cases heq
      rw [hheader, hbody, hread, if_pos (by rw [List.length_append]; omega),
        List.drop_append_of_le_length hfits]
      rfl
    · cases hsplit

section headed

variable {h : Nat} {hpos : 0 < h} {size : List β → Nat} {read : List β → List β → Option α}

/-- A header and a body of its length, in front of a stream. -/
theorem headed_split {header body : List β} (hheader : header.length = h)
    (hbody : body.length = size header) (ys : List β) :
    (headed h hpos size read).split (header ++ (body ++ ys)) =
      (read header body).map (fun a => (a, ys)) := by
  have htake : (header ++ (body ++ ys)).take h = header := by rw [← hheader, List.take_left]
  have hdrop : (header ++ (body ++ ys)).drop h = body ++ ys := by rw [← hheader, List.drop_left]
  have hrest : (header ++ (body ++ ys)).drop (h + size header) = ys := by
    rw [← List.drop_drop, hdrop, ← hbody, List.drop_left]
  show (if h + size _ ≤ _ then _ else none) = _
  rw [htake, hdrop, hrest, ← hbody, List.take_left, if_pos]
  rw [List.length_append, List.length_append]
  omega

theorem headed_split_of_lt {xs : List β} (hshort : xs.length < h + size (xs.take h)) :
    (headed h hpos size read).split xs = none := if_neg (Nat.not_le_of_lt hshort)

/-- Headed frames encode values when `read` takes exactly their headers and
    bodies. -/
theorem headed_encodes {Valid : α → Prop} (header body : α → List β)
    (hheader : ∀ a, Valid a → (header a).length = h)
    (hbody : ∀ a, Valid a → (body a).length = size (header a))
    (hread : ∀ a, Valid a → read (header a) (body a) = some a)
    (honly : ∀ hd bd a, hd.length = h → bd.length = size hd → read hd bd = some a →
      Valid a ∧ hd = header a ∧ bd = body a) :
    (headed h hpos size read).Encodes Valid (fun a => header a ++ body a) := by
  intro xs a ys
  constructor
  · intro hsplit
    by_cases hfits : h + size (xs.take h) ≤ xs.length
    · -- the stream is a header, a body and what follows
      obtain ⟨hd, bd, zs, rfl, hhd, hbd⟩ : ∃ hd bd zs, xs = hd ++ (bd ++ zs) ∧ hd.length = h ∧
          bd.length = size hd := by
        refine ⟨xs.take h, (xs.drop h).take (size (xs.take h)),
          (xs.drop h).drop (size (xs.take h)), ?_, ?_, ?_⟩
        · rw [List.take_append_drop, List.take_append_drop]
        · rw [List.length_take]
          omega
        · rw [List.length_take, List.length_drop]
          omega
      rw [headed_split hhd hbd] at hsplit
      obtain ⟨b, hb, heq⟩ := Option.map_eq_some_iff.mp hsplit
      cases heq
      obtain ⟨hvalid, rfl, rfl⟩ := honly hd bd a hhd hbd hb
      exact ⟨hvalid, (List.append_assoc _ _ _).symm⟩
    · rw [headed_split_of_lt (Nat.lt_of_not_le hfits)] at hsplit
      cases hsplit
  · rintro ⟨hvalid, rfl⟩
    rw [List.append_assoc, headed_split (hheader a hvalid) (hbody a hvalid), hread a hvalid]
    rfl

end headed

/-! ### Reading call by call -/

/-- What calls of `next` give up to the first one that gives nothing, when there
    are `n` calls at most. -/
def drain {σ : Type*} (next : σ → Option α × σ) : Nat → σ → List α × σ
  | 0, s => ([], s)
  | n + 1, s =>
    match next s with
    | (none, s') => ([], s')
    | (some a, s') => (a :: (drain next n s').1, (drain next n s').2)

/-- Each call of `next` takes the first frame off what `rest` says is unread. -/
structure Reads {σ : Type*} (F : Framing β α) (rest : σ → List β) (next : σ → Option α × σ) :
    Prop where
  of_some : ∀ {s a ys}, F.split (rest s) = some (a, ys) → (next s).1 = some a ∧ rest (next s).2 = ys
  of_none : ∀ {s}, F.split (rest s) = none → (next s).1 = none

section reads

variable {σ : Type*} {rest : σ → List β} {next : σ → Option α × σ}

variable {s : σ}

theorem drain_none (hnext : (next s).1 = none) (n : Nat) :
    drain next (n + 1) s = ([], (next s).2) := by
  rw [drain]
  split
  · rename_i heq
    rw [heq]
  · rename_i heq
    rw [heq] at hnext
    cases hnext

theorem drain_some {a : α} (hnext : (next s).1 = some a) (n : Nat) :
    drain next (n + 1) s = (a :: (drain next n (next s).2).1, (drain next n (next s).2).2) := by
  rw [drain]
  split
  · rename_i heq
    rw [heq] at hnext
    cases hnext
  · rename_i heq
    rw [heq] at hnext ⊢
    cases hnext
    rfl

/-- The calls give the frames of the stream. -/
theorem Reads.drain_fst (h : F.Reads rest next) (n : Nat) (s : σ) :
    (drain next n s).1 = (F.frames (rest s)).take n := by
  induction n generalizing s with
  | zero => rfl
  | succ n ih =>
    cases hsplit : F.split (rest s) with
    | none => rw [drain_none (h.of_none hsplit), frames_of_none hsplit, List.take_nil]
    | some r =>
      obtain ⟨hnext, hrest⟩ := h.of_some hsplit
      rw [drain_some hnext, ih, hrest, frames_of_some hsplit, List.take_succ_cons]

/-- After the calls that give frames only the leftover is unread. -/
theorem Reads.rest_drain (h : F.Reads rest next) (s : σ) :
    rest (drain next (F.frames (rest s)).length s).2 = F.leftover (rest s) := by
  generalize hxs : rest s = xs
  induction xs using F.induct generalizing s with
  | none xs hsplit =>
    rw [frames_of_none hsplit, leftover_of_none hsplit]
    exact hxs
  | some xs a ys hsplit ih =>
    obtain ⟨hnext, hrest⟩ := h.of_some (hxs ▸ hsplit)
    rw [frames_of_some hsplit, leftover_of_some hsplit, List.length_cons, drain_some hnext]
    exact ih _ hrest

/-- With more calls than the stream is long, all its frames are given. -/
theorem Reads.drain_all (h : F.Reads rest next) (s : σ) :
    (drain next ((rest s).length + 1) s).1 = F.frames (rest s) := by
  rw [h.drain_fst]
  exact List.take_of_length_le (Nat.le_succ_of_le (length_frames_le _))

/-- The next call is the last one. -/
theorem Reads.drain_last (h : F.Reads rest next) {n : Nat} (hn : (F.frames (rest s)).length < n) :
    (drain next n s).2 = (next (drain next (F.frames (rest s)).length s).2).2 := by
  induction n generalizing s with
  | zero => exact absurd hn (Nat.not_lt_zero _)
  | succ n ih =>
    cases hsplit : F.split (rest s) with
    | none =>
      rw [drain_none (h.of_none hsplit), frames_of_none hsplit]
      rfl
    | some r =>
      obtain ⟨hnext, hrest⟩ := h.of_some hsplit
      rw [frames_of_some hsplit, ← hrest, List.length_cons, Nat.add_lt_add_iff_right] at hn
      rw [frames_of_some hsplit, ← hrest, List.length_cons, drain_some hnext, drain_some hnext]
      exact ih hn

end reads

end Framing
