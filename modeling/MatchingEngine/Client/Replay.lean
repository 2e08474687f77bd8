import MatchingEngine.Feed.Capture
import MatchingEngine.Client.ItchBook

/-! # Replaying a capture

    The publisher writes each datagram it sends to the capture file as well
    (`FeedPublisher::send_datagram`), with the time. A builder that reads the file
    hears what one on the wire heard.
-/

namespace MatchingEngine

namespace Client

open Feed (CaptureRecord CaptureReader CaptureWriter kCaptureMagic)

/-- The records of some datagrams, sent at the times of a clock. -/
def recorded (clock : Nat → UInt64) (sent : List Mold.Datagram) : List CaptureRecord :=
  sent.mapIdx (fun i d => ⟨clock i, d⟩)

theorem bytes_recorded (clock : Nat → UInt64) (sent : List Mold.Datagram) :
    (recorded clock sent).map CaptureRecord.bytes = sent := by
  apply List.ext_getElem
  · simp [recorded]
  · intro i _ _
    simp [recorded]

/-- A file that is cut within its magic. -/
theorem take_magic_ne (f : List UInt8) {n : Nat} (h : n < 8) :
    ((kCaptureMagic ++ f).take n).take 8 ≠ kCaptureMagic := by
  intro heq
  have hlength := congrArg List.length heq
  rw [List.length_take, List.length_take] at hlength
  have hmagic : kCaptureMagic.length = 8 := rfl
  omega

/-- All records of a complete file. -/
theorem readAll_complete {recs : List CaptureRecord} (h : ∀ rec ∈ recs, rec.Fits) :
    (CaptureReader.new (some (kCaptureMagic ++ recs.flatMap CaptureRecord.written))).readAll.1 =
      recs := by
  rw [CaptureReader.new_magic, (CaptureReader.readAll_spec _).1]
  exact (Feed.records_encodes.frames_of_isPrefix h List.prefix_rfl).trans (Framing.whole_flatMap _)

/-- **Captures replay exactly, even truncated.** Records with datagrams of at most
    65535 bytes are written to a file. Cut anywhere at or behind its magic the file
    is opened, gives the records that are complete in it and then nothing, however
    often it is asked. Cut within the magic, or with another start, it is not opened
    and gives nothing. The records of the complete file take a builder to where the
    datagrams take it. -/
theorem capture_replays (recs : List CaptureRecord)
    (hsize : ∀ rec ∈ recs, rec.bytes.length ≤ 65535) :
    ∃ file, ((CaptureWriter.new true).writeAll recs).f = some file ∧
      (∀ n, 8 ≤ n →
        (CaptureReader.new (some (file.take n))).ok = true ∧
        (CaptureReader.new (some (file.take n))).readAll.1 =
          Framing.whole CaptureRecord.written ((file.take n).length - 8) recs ∧
        (CaptureReader.new (some (file.take n))).readAll.2.next =
          (none, (CaptureReader.new (some (file.take n))).readAll.2)) ∧
      (∀ n < 8, (CaptureReader.new (some (file.take n))).ok = false ∧
        (CaptureReader.new (some (file.take n))).next =
          (none, CaptureReader.new (some (file.take n)))) ∧
      (∀ other : List UInt8, other.take 8 ≠ kCaptureMagic →
        (CaptureReader.new (some other)).ok = false ∧
        (CaptureReader.new (some other)).next = (none, CaptureReader.new (some other))) ∧
      (CaptureReader.new (some file)).readAll.1 = recs ∧
      ∀ b : ItchBookBuilder,
        b.onMoldPackets ((CaptureReader.new (some file)).readAll.1.map CaptureRecord.bytes) =
          b.onMoldPackets (recs.map CaptureRecord.bytes) := by
  have hfits : ∀ rec ∈ recs, rec.Fits := fun rec hrec => Nat.lt_succ_of_le (hsize rec hrec)
  have hclosed : ∀ other : List UInt8, other.take 8 ≠ kCaptureMagic →
      (CaptureReader.new (some other)).ok = false ∧
        (CaptureReader.new (some other)).next = (none, CaptureReader.new (some other)) := by
    intro other hother
    rw [CaptureReader.new_of_ne hother]
    exact ⟨rfl, rfl⟩
  refine ⟨_, CaptureWriter.writeAll_eq recs, ?_, ?_, hclosed, readAll_complete hfits, ?_⟩
  · intro n hn
    have hcut : (kCaptureMagic ++ recs.flatMap CaptureRecord.written).take n =
        kCaptureMagic ++ (recs.flatMap CaptureRecord.written).take (n - 8) := by
      rw [List.take_append, List.take_of_length_le (show kCaptureMagic.length ≤ n from hn)]
      rfl
    rw [hcut]
    refine ⟨?_, ?_, (CaptureReader.readAll_spec _).2⟩
    · rw [CaptureReader.new_magic]
      rfl
    · rw [CaptureReader.readAll_cut hfits, List.length_append, show kCaptureMagic.length =
        8 from rfl, Nat.add_sub_cancel_left]
  · intro n hn
    exact hclosed _ (take_magic_ne _ hn)
  · intro b
    rw [readAll_complete hfits]

theorem capture_replays_two :
    ∃ file, ((CaptureWriter.new true).writeAll [⟨7, [1, 2, 3]⟩, ⟨9, []⟩]).f = some file ∧
      (CaptureReader.new (some file)).readAll.1 = [⟨7, [1, 2, 3]⟩, ⟨9, []⟩] := by
  obtain ⟨file, hfile, -, -, -, hall, -⟩ := capture_replays [⟨7, [1, 2, 3]⟩, ⟨9, []⟩] (by decide)
  exact ⟨file, hfile, hall⟩

end Client

end MatchingEngine
