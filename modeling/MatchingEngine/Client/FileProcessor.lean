import MatchingEngine.Itch.RawItch
import MatchingEngine.Itch.Bijection
import MatchingEngine.Client.Restrict

/-! # Processing a raw ITCH file

    `client/itch_file_processor.hpp`. The messages of a file are given to a builder.
    With a list of symbols, orders for other symbols are dropped when they are added,
    and every later message about them finds no record.

    The builder with the filter is compared with the one without it, message by
    message: it stays the restriction of the other to the tracked symbols.

    A frame of the type and size of a trade is read outside its buffer. With or
    without the filter, there is no result then.
-/

namespace MatchingEngine

namespace Client

open Itch (RawItchReader rawFraming)

/-! ## Section 1: The processor -/

structure ItchFileStats where
  decoded : UInt8 → UInt64 := fun _ => 0
  skipped : UInt8 → UInt64 := fun _ => 0
  filtered : UInt64 := 0
  total : UInt64 := 0
  error : List UInt8 := []

/-- `++counters[type]`. -/
def bump (counters : UInt8 → UInt64) (type : UInt8) : UInt8 → UInt64 :=
  Function.update counters type (counters type + 1)

/-- All symbols are tracked when none is given. -/
def tracked (symbols : List Symbol) (s : Symbol) : Bool := symbols.isEmpty || symbols.contains s

/-- An add for a symbol that is not tracked. -/
def dropped (symbols : List Symbol) : Itch.Message → Bool
  | .addOrder m => !tracked symbols m.stock
  | .addOrderMpid m => !tracked symbols m.add.stock
  | _ => false

/-- The body of the loop, on a message that was read. -/
def processOne (symbols : List Symbol) (s : ItchBookBuilder × ItchFileStats) (bytes : List UInt8) :
    Option (ItchBookBuilder × ItchFileStats) :=
  let stats := { s.2 with total := s.2.total + 1 }
  let type := bytes.headD 0
  (Itch.decode bytes).map (fun msg =>
    match msg with
    | none => (s.1, { stats with skipped := bump stats.skipped type })
    | some msg =>
      let stats := { stats with decoded := bump stats.decoded type }
      if dropped symbols msg then (s.1, { stats with filtered := stats.filtered + 1 })
      else (s.1.onMessage msg, stats))

/-- The loop, over at most `n` messages. -/
def processLoop (symbols : List Symbol) (maxMessages : UInt64) :
    Nat → RawItchReader → ItchBookBuilder × ItchFileStats →
      Option (RawItchReader × ItchBookBuilder × ItchFileStats)
  | 0, reader, s => some (reader, s)
  | n + 1, reader, s =>
    if maxMessages = 0 ∨ s.2.total < maxMessages then
      match reader.next with
      | (none, reader) => some (reader, s)
      | (some bytes, reader) =>
          (processOne symbols s bytes).bind (processLoop symbols maxMessages n reader)
    else some (reader, s)

/-- Every message takes bytes off the file. -/
def processRawItch (file : List UInt8) (symbols : List Symbol) (maxMessages : UInt64)
    (builder : ItchBookBuilder)
    (stats : ItchFileStats) : Option (Bool × ItchBookBuilder × ItchFileStats) := do
  let (reader, builder, stats) ← processLoop symbols maxMessages (file.length + 1) (.new file)
    (builder, stats)
  let stats := { stats with error := reader.error }
  some (stats.error.isEmpty, builder, stats)

/-! ## Section 2: The loop -/

/-- How often the reader is called, at most. -/
def calls (maxMessages total : UInt64) (n : Nat) : Nat :=
  if maxMessages = 0 then n else min n (maxMessages.toNat - total.toNat)

theorem calls_succ {maxMessages total : UInt64} (h : maxMessages = 0 ∨ total < maxMessages)
    (n : Nat) : calls maxMessages total (n + 1) = calls maxMessages (total + 1) n + 1 := by
  unfold calls
  by_cases hmax : maxMessages = 0
  · rw [if_pos hmax, if_pos hmax]
  · have hlt := UInt64.lt_iff_toNat_lt.mp (h.resolve_left hmax)
    have hbound := maxMessages.toNat_lt
    have hsucc : (total + 1).toNat = total.toNat + 1 := by
      rw [UInt64.toNat_add]
      exact Nat.mod_eq_of_lt (by simp; omega)
    rw [if_neg hmax, if_neg hmax, hsucc]
    omega

theorem calls_eq_zero {maxMessages total : UInt64} (h : ¬ (maxMessages = 0 ∨ total < maxMessages))
    (n : Nat) : calls maxMessages total n = 0 := by
  obtain ⟨hmax, hle⟩ := not_or.mp h
  have hle := UInt64.lt_iff_toNat_lt.not.mp hle
  rw [calls, if_neg hmax]
  omega

theorem total_processOne {symbols : List Symbol} {s t : ItchBookBuilder × ItchFileStats}
    {bytes : List UInt8} (h : processOne symbols s bytes = some t) : t.2.total = s.2.total + 1 := by
  obtain ⟨msg, -, rfl⟩ := Option.map_eq_some_iff.mp h
  cases msg with
  | none => rfl
  | some msg =>
    dsimp only
    split <;> rfl

/-- The loop goes over the messages that the reader gives. -/
theorem processLoop_eq (symbols : List Symbol) (maxMessages : UInt64) (n : Nat)
    (reader : RawItchReader) (s : ItchBookBuilder × ItchFileStats) :
    processLoop symbols maxMessages n reader s =
      ((Framing.drain RawItchReader.next (calls maxMessages s.2.total n) reader).1.foldlM
        (processOne symbols) s).map
        (fun t => ((Framing.drain RawItchReader.next (calls maxMessages s.2.total n) reader).2,
          t)) := by
  -- each message takes one unit of fuel and one of the calls that are left
  induction n generalizing reader s with
  | zero =>
    have hzero : calls maxMessages s.2.total 0 = 0 := by
      unfold calls
      split
      · rfl
      · exact Nat.zero_min _
    rw [hzero]
    rfl
  | succ n ih =>
    rw [processLoop]
    by_cases hgo : maxMessages = 0 ∨ s.2.total < maxMessages
    · rw [if_pos hgo, calls_succ hgo]
      cases hnext : reader.next with
      | mk got reader' =>
        cases got with
        | none =>
          rw [Framing.drain_none (by rw [hnext]), hnext]
          rfl
        | some bytes =>
          rw [Framing.drain_some (a := bytes) (by rw [hnext]), hnext]
          dsimp only
          rw [List.foldlM_cons]
          cases hone : processOne symbols s bytes with
          | none => rfl
          | some t =>
            rw [← total_processOne hone]
            exact ih reader' t
    · rw [if_neg hgo, calls_eq_zero hgo]
      rfl

/-- The messages of a file that are processed. -/
def processed (maxMessages : UInt64) (file : List UInt8) : List (List UInt8) :=
  if maxMessages = 0 then rawFraming.frames file
    else (rawFraming.frames file).take maxMessages.toNat

/-- The result of the processor: it depends on the symbols only through the
    messages. -/
theorem processRawItch_eq (maxMessages : UInt64) (file : List UInt8) :
    ∃ error, ∀ symbols builder, processRawItch file symbols maxMessages builder {} =
      ((processed maxMessages file).foldlM (processOne symbols) (builder, {})).map
        (fun t => (error.isEmpty, t.1, { t.2 with error := error })) := by
  refine ⟨(Framing.drain RawItchReader.next (calls maxMessages 0 (file.length + 1))
    (.new file)).2.error, ?_⟩
  intro symbols builder
  have hread : (Framing.drain RawItchReader.next (calls maxMessages 0 (file.length + 1))
      (.new file)).1 = processed maxMessages file := by
    have hall := Framing.length_frames_le (F := rawFraming) file
    rw [RawItchReader.reads.drain_fst, calls, processed]
    show (rawFraming.frames file).take _ = _
    split
    · exact List.take_of_length_le (by omega)
    -- the fuel is no limit: a file has fewer frames than bytes
    · rw [← List.take_take, List.take_of_length_le (by rw [List.length_take]; simp; omega)]
      rfl
  unfold processRawItch
  rw [processLoop_eq]
  show Option.bind (Option.map _ (List.foldlM _ _ (Framing.drain _ (calls maxMessages 0 _) _).1))
    _ = _
  rw [hread]
  cases (processed maxMessages file).foldlM (processOne symbols) (builder, {}) with
  | none => rfl
  | some t => rfl

/-! ## Section 3: Messages -/

/-- The reference that an add or a replacement introduces. -/
def introduces : Itch.Message → Option UInt64
  | .addOrder m => some m.orderRef
  | .addOrderMpid m => some m.add.orderRef
  | .orderReplace m => some m.newRef
  | _ => none

theorem introduces_eq (msg : Itch.Message) : introduces msg = (effect msg).introduces := by
  cases msg <;> rfl

theorem dropped_eq (symbols : List Symbol) (msg : Itch.Message) :
    dropped symbols msg = (effect msg).dropped (tracked symbols) := by
  cases msg <;> rfl

namespace Restricts

variable {b b' : ItchBookBuilder}

/-- A message for the one builder, and with the filter for the other. -/
theorem onMessage {symbols : List Symbol} (h : Restricts (tracked symbols) b b')
    {msg : Itch.Message} (hfresh : ∀ ref, introduces msg = some ref → b.orders.lookup ref = none) :
    Restricts (tracked symbols) (b.onMessage msg) (if dropped symbols msg then b'
      else b'.onMessage msg) := by
  have horders := b.orders_noted msg
  have hbooks := b.books_noted msg
  rw [introduces_eq, ← horders] at hfresh
  rw [dropped_eq, ItchBookBuilder.onMessage_eq, ItchBookBuilder.onMessage_eq]
  cases hdrop : (effect msg).dropped (tracked symbols) with
  | true => exact (h.congr horders hbooks rfl rfl).perform_dropped hfresh hdrop
  | false =>
    have hnoted := h.congr horders hbooks (b'.orders_noted msg) (b'.books_noted msg)
    exact hnoted.perform hfresh hdrop

end Restricts

/-! ## Section 4: Two runs -/

/-- The reference that a frame introduces. -/
def introducedBy (bytes : List UInt8) : Option UInt64 :=
  match Itch.decode bytes with
  | some (some msg) => introduces msg
  | _ => none

/-- The run without the filter and the run with it, after frames that introduced
    the references `seen`. -/
structure Together (symbols : List Symbol) (seen : List UInt64)
    (s s' : ItchBookBuilder × ItchFileStats) : Prop where
  restricts : Restricts (tracked symbols) s.1 s'.1
  consistent : Consistent s.1
  known : ∀ ref, (s.1.orders.lookup ref).isSome → ref ∈ seen
  total : s'.2.total = s.2.total
  decoded : s'.2.decoded = s.2.decoded
  skipped : s'.2.skipped = s.2.skipped

section runs

variable {symbols : List Symbol} {seen : List UInt64} {s s' : ItchBookBuilder × ItchFileStats}

theorem together_new (symbols : List Symbol) : Together symbols [] ({}, {}) ({}, {}) where
  restricts := Restricts.new _
  consistent := consistent_new
  known ref href := by cases href
  total := rfl
  decoded := rfl
  skipped := rfl

/-- Without symbols nothing is dropped. -/
theorem dropped_nil (msg : Itch.Message) : dropped [] msg = false := by
  cases msg <;> rfl

/-- One frame. -/
theorem Together.step (h : Together symbols seen s s') {bytes : List UInt8}
    (hdecode : Itch.decode bytes ≠ none)
    (hnew : ∀ ref, introducedBy bytes = some ref → ref ∉ seen) :
    ∃ t t', processOne [] s bytes = some t ∧ processOne symbols s' bytes = some t' ∧
      Together symbols (seen ++ (introducedBy bytes).toList) t t' := by
  unfold processOne
  cases hmsg : Itch.decode bytes with
  | none => exact absurd hmsg hdecode
  | some msg =>
    refine ⟨_, _, rfl, rfl, ?_⟩
    cases msg with
    | none =>
      exact {
        restricts := h.restricts
        consistent := h.consistent
        known := fun ref href => List.mem_append_left _ (h.known ref href)
        total := congrArg (· + 1) h.total
        decoded := h.decoded
        skipped := congrArg (bump · (bytes.headD 0)) h.skipped }
    | some msg =>
      have hintroduced : introducedBy bytes = introduces msg := by rw [introducedBy, hmsg]
      rw [hintroduced] at hnew ⊢
      -- all records were introduced by frames seen before
      have hfresh : ∀ ref, introduces msg = some ref → s.1.orders.lookup ref = none := by
        intro ref href
        by_contra hsome
        exact hnew ref href (h.known ref (Option.isSome_iff_ne_none.mpr hsome))
      dsimp only
      rw [dropped_nil, if_neg Bool.false_ne_true]
      have hrestricts := h.restricts.onMessage hfresh
      have hconsistent : Consistent (s.1.onMessage msg) := by
        rw [h.consistent.onMessage_iff, collides_eq]
        rw [introduces_eq] at hfresh
        exact not_collides hfresh
      have hknown : ∀ ref, ((s.1.onMessage msg).orders.lookup ref).isSome →
          ref ∈ seen ++ (introduces msg).toList := by
        intro ref href
        obtain ⟨o, ho⟩ := Option.isSome_iff_exists.mp href
        rw [ItchBookBuilder.onMessage_eq] at ho
        rcases recorded_perform ho with ⟨o', hold, -⟩ | ⟨hintroduces, -⟩
        · rw [ItchBookBuilder.orders_noted] at hold
          exact List.mem_append_left _ (h.known ref (Option.isSome_of_eq_some hold))
        · rw [introduces_eq, hintroduces]
          exact List.mem_append_right _ (List.mem_singleton_self ref)
      -- the filter concerns the builder and its own counter only
      cases hdrop : dropped symbols msg with
      | true =>
        rw [hdrop] at hrestricts
        exact ⟨hrestricts, hconsistent, hknown, congrArg (· + 1) h.total,
          congrArg (bump · (bytes.headD 0)) h.decoded, h.skipped⟩
      | false =>
        rw [hdrop] at hrestricts
        exact ⟨hrestricts, hconsistent, hknown, congrArg (· + 1) h.total,
          congrArg (bump · (bytes.headD 0)) h.decoded, h.skipped⟩

/-- All frames of a run. -/
theorem Together.run (h : Together symbols seen s s') {frames : List (List UInt8)}
    (hdecode : ∀ bytes ∈ frames, Itch.decode bytes ≠ none)
    (hunique : (seen ++ frames.filterMap introducedBy).Nodup) :
    ∃ t t', frames.foldlM (processOne []) s = some t ∧ frames.foldlM (processOne symbols) s' =
      some t' ∧ Together symbols (seen ++ frames.filterMap introducedBy) t t' := by
  -- what the first frame introduces joins the references seen before the others
  induction frames generalizing seen s s' with
  | nil => exact ⟨s, s', rfl, rfl, by rwa [List.filterMap_nil, List.append_nil]⟩
  | cons bytes frames ih =>
    have hsplit : seen ++ (bytes :: frames).filterMap introducedBy =
        (seen ++ (introducedBy bytes).toList) ++ frames.filterMap introducedBy := by
      rw [List.filterMap_cons, List.append_assoc]
      cases introducedBy bytes with
      | none => rfl
      | some ref => rfl
    rw [hsplit] at hunique ⊢
    have hnew : ∀ ref, introducedBy bytes = some ref → ref ∉ seen := by
      intro ref href hmem
      have hfirst := (List.nodup_append.mp hunique).1
      rw [href] at hfirst
      exact (List.nodup_append.mp hfirst).2.2 ref hmem ref (List.mem_singleton_self ref) rfl
    obtain ⟨t, t', ht, ht', hone⟩ := h.step (hdecode bytes List.mem_cons_self) hnew
    obtain ⟨u, u', hu, hu', hall⟩ :=
      ih hone (fun b hb => hdecode b (List.mem_cons_of_mem _ hb)) hunique
    refine ⟨u, u', ?_, ?_, hall⟩
    · rw [List.foldlM_cons, ht]
      exact hu
    · rw [List.foldlM_cons, ht']
      exact hu'

end runs

/-! ## Section 5: The filter -/

/-- No add or replacement of a stream introduces a reference that an earlier one
    introduced. -/
def DayUnique (file : List UInt8) : Prop := ((rawFraming.frames file).filterMap introducedBy).Nodup

/-- The frame of a trade. -/
def IsTrade (bytes : List UInt8) : Prop := bytes[0]? = some (ch 'P') ∧ bytes.length = 44

/-- The processor, with and without the filter: both return, with the same result
    and the same counts, and the builders show the same for every tracked symbol.
    The builder with the filter has no book for any other symbol. -/
def FilterUnseen (file : List UInt8) (symbols : List Symbol) (maxMessages : UInt64) : Prop :=
  ∃ ok builder stats builder' stats',
    processRawItch file [] maxMessages {} {} = some (ok, builder, stats) ∧
    processRawItch file symbols maxMessages {} {} = some (ok, builder', stats') ∧
    stats'.total = stats.total ∧ stats'.decoded = stats.decoded ∧ stats'.skipped = stats.skipped ∧
    stats'.error = stats.error ∧
    (∀ symbol ∈ symbols, ∃ snap, builder.snapshot symbol = some snap ∧
      builder'.snapshot symbol = some snap) ∧
    ∀ symbol ∉ symbols, builder'.books.lookup symbol = none

theorem tracked_iff {symbols : List Symbol} (hsymbols : symbols ≠ []) (symbol : Symbol) :
    tracked symbols symbol = true ↔ symbol ∈ symbols := by
  simp [tracked, hsymbols]

theorem processed_sublist (maxMessages : UInt64) (file : List UInt8) :
    (processed maxMessages file).Sublist (rawFraming.frames file) := by
  unfold processed
  split
  · exact List.Sublist.refl _
  · exact List.take_sublist _ _

/-- **The filter does not change tracked books.** For every stream in which no
    reference is introduced twice, every list of symbols and every limit: the filter
    is unseen for the tracked symbols exactly when no message that is processed is a
    trade. A trade has no result, with or without the filter. -/
theorem filter_unseen_iff (file : List UInt8) (symbols : List Symbol) (maxMessages : UInt64)
    (hsymbols : symbols ≠ []) (hunique : DayUnique file) :
    FilterUnseen file symbols maxMessages ↔ ∀ bytes ∈ processed maxMessages file,
      ¬ IsTrade bytes := by
  obtain ⟨error, hresult⟩ := processRawItch_eq maxMessages file
  constructor
  · rintro ⟨ok, builder, stats, -, -, hplain, -⟩ bytes hbytes htrade
    -- the decoder leaves the buffer, whatever came before
    have hnone : ∀ s, processOne [] s bytes = none := by
      intro s
      rw [processOne, (Itch.decode_eq_none_iff bytes).mpr htrade]
      rfl
    rw [hresult, Machine.foldlM_eq_none hbytes hnone] at hplain
    cases hplain
  · intro htrades
    have hnodup : ([] ++ (processed maxMessages file).filterMap introducedBy).Nodup :=
      hunique.sublist ((processed_sublist maxMessages file).filterMap introducedBy)
    obtain ⟨t, t', ht, ht', h⟩ := (together_new symbols).run
      (fun bytes hbytes hnone => htrades bytes hbytes ((Itch.decode_eq_none_iff bytes).mp hnone))
      hnodup
    refine ⟨error.isEmpty, t.1, { t.2 with error := error }, t'.1, { t'.2 with error := error },
      ?_, ?_, h.total, h.decoded, h.skipped, rfl, ?_, ?_⟩
    · rw [hresult, ht]
      rfl
    · rw [hresult, ht']
      rfl
    · intro symbol hsymbol
      obtain ⟨snap, hsnap⟩ := h.consistent.snapshot symbol
      exact ⟨snap, hsnap, (h.restricts.snapshot h.consistent
        ((tracked_iff hsymbols symbol).mpr hsymbol)).trans hsnap⟩
    · intro symbol hsymbol
      rw [h.restricts.books, if_neg (fun hT => hsymbol ((tracked_iff hsymbols symbol).mp hT))]

/-- An add of 5 shares to buy at 100, for the symbol of eight letters `c`. -/
def addFrame (ref : UInt64) (c : UInt8) : List UInt8 :=
  ch 'A' :: List.replicate 10 0 ++ putBe64 ref ++ [ch 'B'] ++ putBe32 5 ++
    List.replicate 8 c ++ putBe32 100

theorem frames_flatMap {frames : List (List UInt8)} (h : ∀ bytes ∈ frames, Itch.Framed bytes) :
    rawFraming.frames (frames.flatMap lengthPrefixed) = frames :=
  (Itch.rawFraming_encodes.frames_of_isPrefix h List.prefix_rfl).trans (Framing.whole_flatMap _)

theorem frames_twoAdds :
    rawFraming.frames ([addFrame 1 65, addFrame 2 66].flatMap lengthPrefixed) =
      [addFrame 1 65, addFrame 2 66] := by
  apply frames_flatMap
  unfold Itch.Framed
  decide

/-- Two symbols, one of them tracked. -/
theorem filter_unseen_iff_two :
    FilterUnseen ([addFrame 1 65, addFrame 2 66].flatMap lengthPrefixed)
    [Vector.replicate 8 65] 0 := by
  rw [filter_unseen_iff _ _ _ (List.cons_ne_nil _ _) (by rw [DayUnique, frames_twoAdds]; decide)]
  rw [processed, if_pos rfl, frames_twoAdds]
  unfold IsTrade
  decide

/-- A stream of one trade, which has no result. -/
theorem filter_trade :
    DayUnique (lengthPrefixed (ch 'P' :: List.replicate 43 0)) ∧
      processRawItch (lengthPrefixed (ch 'P' :: List.replicate 43 0))
        [Vector.replicate 8 65] 0 {} {} = none ∧
      processRawItch (lengthPrefixed (ch 'P' :: List.replicate 43 0)) [] 0 {} {} = none ∧
      ¬ FilterUnseen (lengthPrefixed (ch 'P' :: List.replicate 43 0))
        [Vector.replicate 8 65] 0 := by
  have hframes : rawFraming.frames (lengthPrefixed (ch 'P' :: List.replicate 43 0)) =
      [ch 'P' :: List.replicate 43 0] := by
    decide
  have hplain : processRawItch (lengthPrefixed (ch 'P' :: List.replicate 43 0)) [] 0 {} {} =
      none := by
    rfl
  refine ⟨?_, by rfl, hplain, ?_⟩
  · rw [DayUnique, hframes]
    decide
  · rintro ⟨ok, builder, stats, -, -, hsome, -⟩
    cases hplain.symm.trans hsome

end Client

end MatchingEngine
