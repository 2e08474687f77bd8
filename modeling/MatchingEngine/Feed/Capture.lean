import MatchingEngine.Common.Endian

/-! # Capture files

    `feed/capture.cpp`. A capture file is a magic string of eight bytes and a record
    for each datagram: the time, the length in 16 bits and the bytes. A file is the
    list of its bytes, for the writer those written so far and for the reader those
    still unread. `none` is a file that could not be opened.

    A file that is cut short holds the records that are complete in it
    (`CaptureReader.readAll_cut`).
-/

namespace MatchingEngine

namespace Feed

open Bytes (fread ofBe)

/-! ## Section 1: The writer and the reader -/

def kCaptureMagic : List UInt8 := text "NSQCAP01"

structure CaptureRecord where
  tsNs : UInt64
  bytes : List UInt8
  deriving DecidableEq, Repr

structure CaptureWriter where
  f : Option (List UInt8)

namespace CaptureWriter

/-- A new file, if it could be opened. -/
def new (opened : Bool) : CaptureWriter := ⟨if opened then some kCaptureMagic else none⟩

def write (w : CaptureWriter) (tsNs : UInt64) (data : List UInt8) : CaptureWriter :=
  match w.f with
  | none => w
  | some f => ⟨some (f ++ (putBe64 tsNs ++ putBe16 (UInt16.ofNat data.length)) ++ data)⟩

/-- Records one after the other. -/
def writeAll (w : CaptureWriter) (recs : List CaptureRecord) : CaptureWriter :=
  recs.foldl (fun w rec => w.write rec.tsNs rec.bytes) w

end CaptureWriter

structure CaptureReader where
  f : Option (List UInt8)

namespace CaptureReader

/-- The file is closed again when it does not start with the magic. -/
def new (file : Option (List UInt8)) : CaptureReader :=
  match file with
  | none => ⟨none⟩
  | some f =>
    let (magic, f) := fread 8 f
    if magic.length ≠ 8 ∨ magic ≠ kCaptureMagic then ⟨none⟩ else ⟨some f⟩

def ok (r : CaptureReader) : Bool := r.f.isSome

def next (r : CaptureReader) : Option CaptureRecord × CaptureReader :=
  match r.f with
  | none => (none, r)
  | some f =>
    let (hdr, f) := fread 10 f
    if hdr.length ≠ 10 then (none, ⟨some f⟩)
    else
      -- all ten bytes are there
      let tsNs := (getBe64 hdr 0).getD 0
      let len := ((getBe16 hdr 8).getD 0).toNat
      let (bytes, f) := fread len f
      if bytes.length ≠ len then (none, ⟨some f⟩) else (some ⟨tsNs, bytes⟩, ⟨some f⟩)

/-- The bytes still unread. -/
def rest (r : CaptureReader) : List UInt8 := r.f.getD []

/-- Reading until the first `std::nullopt`. Every record takes bytes off the
    file. -/
def readAll (r : CaptureReader) : List CaptureRecord × CaptureReader :=
  Framing.drain next (r.rest.length + 1) r

end CaptureReader

/-! ## Section 2: Records in a file -/

namespace CaptureRecord

/-- The length of the datagram fits into its 16 bits. -/
def Fits (rec : CaptureRecord) : Prop := rec.bytes.length < 2 ^ 16

def header (rec : CaptureRecord) : List UInt8 :=
  putBe64 rec.tsNs ++ putBe16 (UInt16.ofNat rec.bytes.length)

/-- The record as it is written. -/
def written (rec : CaptureRecord) : List UInt8 := rec.header ++ rec.bytes

@[simp] theorem length_header (rec : CaptureRecord) : rec.header.length = 10 := by
  simp [header]

end CaptureRecord

/-- The file of some records. -/
theorem CaptureWriter.writeAll_eq (recs : List CaptureRecord) :
    ((new true).writeAll recs).f = some (kCaptureMagic ++ recs.flatMap CaptureRecord.written) := by
  suffices hall : ∀ f, (writeAll ⟨some f⟩ recs).f =
    some (f ++ recs.flatMap CaptureRecord.written) from hall kCaptureMagic
  induction recs with
  | nil =>
    intro f
    exact congrArg some (List.append_nil f).symm
  | cons rec recs ih =>
    intro f
    rw [List.flatMap_cons, ← List.append_assoc, CaptureRecord.written, ← List.append_assoc]
    exact ih _

/-- The records of a file, behind its magic. -/
def records : Framing UInt8 CaptureRecord :=
  Framing.headed 10 (by decide) (fun hdr => ((getBe16 hdr 8).getD 0).toNat)
    (fun hdr body => some ⟨(getBe64 hdr 0).getD 0, body⟩)

theorem header_fields (tsNs : UInt64) (len : UInt16) :
    getBe64 (putBe64 tsNs ++ putBe16 len) 0 = some tsNs ∧
      getBe16 (putBe64 tsNs ++ putBe16 len) 8 = some len := by
  refine ⟨getBe64_here tsNs, ?_⟩
  rw [getBe16_skip (by simp), length_putBe64, Nat.sub_self]
  simpa using getBe16_here (p := []) len

theorem records_encodes : records.Encodes CaptureRecord.Fits CaptureRecord.written := by
  apply Framing.headed_encodes CaptureRecord.header CaptureRecord.bytes
  · intro rec _
    exact rec.length_header
  · intro rec hfits
    rw [CaptureRecord.header, (header_fields _ _).2]
    exact (toNat_ofNat_length hfits).symm
  · intro rec _
    rw [CaptureRecord.header, (header_fields _ _).1]
    rfl
  · intro hdr body rec hhdr hbody hread
    -- ten bytes are a time and a length
    obtain ⟨⟨tsNs, len⟩, -, rfl⟩ := (covers_be64.append covers_be16) hdr hhdr
    obtain ⟨hts, hlen⟩ := header_fields tsNs len
    rw [hlen] at hbody
    rw [hts] at hread
    cases hread
    have hlength : body.length = len.toNat := hbody
    refine ⟨hlength.trans_lt len.toNat_lt, ?_, rfl⟩
    show putBe64 tsNs ++ putBe16 len = putBe64 tsNs ++ putBe16 (UInt16.ofNat body.length)
    rw [hlength, UInt16.ofNat_toNat]

namespace CaptureReader

/-- A call on an open file is the framing of the file. -/
theorem next_open (f : List UInt8) :
    (next ⟨some f⟩).1 = (records.split f).map Prod.fst ∧
      (next ⟨some f⟩).2 = ⟨some (((records.split f).map Prod.snd).getD [])⟩ := by
  have hsplit : records.split f =
      if 10 + ((getBe16 (f.take 10) 8).getD 0).toNat ≤ f.length then
        some (⟨(getBe64 (f.take 10) 0).getD 0,
          (f.drop 10).take ((getBe16 (f.take 10) 8).getD 0).toNat⟩,
            f.drop (10 + ((getBe16 (f.take 10) 8).getD 0).toNat))
      else none := rfl
  unfold next fread
  dsimp only
  -- cut in the header, whole, or cut in the body
  by_cases hheader : f.length < 10
  · rw [if_pos (by rw [List.length_take]; omega), hsplit, if_neg (by omega),
      List.drop_eq_nil_of_le (Nat.le_of_lt hheader)]
    exact ⟨rfl, rfl⟩
  · rw [if_neg (by rw [List.length_take]; omega), List.drop_drop]
    generalize ((getBe16 (f.take 10) 8).getD 0).toNat = len at hsplit ⊢
    by_cases hbody : 10 + len ≤ f.length
    · rw [if_neg (by rw [List.length_take, List.length_drop]; omega), hsplit, if_pos hbody]
      exact ⟨rfl, rfl⟩
    · rw [if_pos (by rw [List.length_take, List.length_drop]; omega), hsplit, if_neg hbody,
        List.drop_eq_nil_of_le (by omega)]
      exact ⟨rfl, rfl⟩

theorem split_nil : records.split [] = none := by
  cases hsplit : records.split [] with
  | none => rfl
  | some s => exact absurd (records.shorter hsplit) (Nat.not_lt_zero _)

theorem reads : records.Reads rest next where
  of_some {r rec ys} hsplit := by
    obtain ⟨_ | f⟩ := r
    · cases hsplit.symm.trans split_nil
    · obtain ⟨hfst, hsnd⟩ := next_open f
      rw [show records.split f = some (rec, ys) from hsplit] at hfst hsnd
      rw [hfst, hsnd]
      exact ⟨rfl, rfl⟩
  of_none {r} hsplit := by
    obtain ⟨_ | f⟩ := r
    · rfl
    · rw [(next_open f).1, show records.split f = none from hsplit]
      rfl

/-- After a `std::nullopt` nothing is left, and there is no other result. -/
theorem next_again {r : CaptureReader} (h : r.next.1 = none) :
    r.next.2.next = (none, r.next.2) := by
  obtain ⟨_ | f⟩ := r
  · rfl
  · obtain ⟨hfst, hsnd⟩ := next_open f
    rw [hfst, Option.map_eq_none_iff] at h
    rw [hsnd, h]
    rfl

/-- What is read from an open file are its records, and then nothing. -/
theorem readAll_spec (r : CaptureReader) :
    r.readAll.1 = records.frames r.rest ∧ r.readAll.2.next = (none, r.readAll.2) := by
  refine ⟨reads.drain_all r, ?_⟩
  have hlast : r.readAll.2 = (Framing.drain next (records.frames r.rest).length r).2.next.2 :=
    reads.drain_last (Nat.lt_succ_of_le (Framing.length_frames_le _))
  -- the last call found no whole record
  rw [hlast]
  apply next_again
  apply reads.of_none
  rw [reads.rest_drain]
  exact Framing.split_leftover _

/-- A file that does not start with the magic is not opened. -/
theorem new_of_ne {file : List UInt8} (h : file.take 8 ≠ kCaptureMagic) :
    new (some file) = ⟨none⟩ := by
  unfold new fread
  dsimp only
  rw [if_pos (.inr h)]

theorem new_magic (f : List UInt8) : new (some (kCaptureMagic ++ f)) = ⟨some f⟩ := by
  have hlength : kCaptureMagic.length = 8 := rfl
  unfold new fread
  dsimp only
  rw [List.take_left' hlength, List.drop_left' hlength, if_neg]
  rintro (hne | hne)
  · exact hne hlength
  · exact hne rfl

/-- A capture that is cut behind its magic. -/
theorem readAll_cut {recs : List CaptureRecord} (h : ∀ rec ∈ recs, rec.Fits) (n : Nat) :
    (new (some (kCaptureMagic ++ (recs.flatMap CaptureRecord.written).take n))).readAll.1 =
      Framing.whole CaptureRecord.written ((recs.flatMap CaptureRecord.written).take n).length
        recs := by
  rw [new_magic, (readAll_spec _).1]
  exact records_encodes.frames_of_isPrefix h (List.take_prefix n _)

end CaptureReader

end Feed

end MatchingEngine
