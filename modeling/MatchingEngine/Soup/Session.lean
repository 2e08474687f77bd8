import MatchingEngine.Common.Endian
import MatchingEngine.Common.Types
import MatchingEngine.Lib.Framing
import Mathlib.Data.List.DropRight

/-! # SoupBinTCP sessions

    `soup/soup.hpp` and `soup/soup.cpp`: packets, the frame parser and the server
    side of a session.

    The session calls its listener in the middle of `on_bytes` and `tick`, and
    the listener may call the session back before it returns. A call is therefore
    modelled up to the point where it returns or hands over to the listener: it
    gives the session at that point and the callback, if there is one. `resume`
    is what the session does when the listener's handler returns.

    Section 4 adds listeners that answer each callback with replies and return.
-/

namespace MatchingEngine

namespace Soup

/-! ## Section 1: Packets -/

def kLoginRequest : UInt8 := ch 'L'
def kLoginAccepted : UInt8 := ch 'A'
def kLoginRejected : UInt8 := ch 'J'
def kSequenced : UInt8 := ch 'S'
def kUnsequenced : UInt8 := ch 'U'
def kClientHeartbeat : UInt8 := ch 'R'
def kServerHeartbeat : UInt8 := ch 'H'
def kLogoutRequest : UInt8 := ch 'O'
def kEndOfSession : UInt8 := ch 'Z'

def kHeartbeatIntervalNs : UInt64 := 1000000000
def kSessionTimeoutNs : UInt64 := 15000000000

/-- The bytes of one packet. Its length field counts the type byte and the
    payload, modulo 2^16. -/
def packet (type : UInt8) (payload : List UInt8) : List UInt8 :=
  putBe16 (UInt16.ofNat (payload.length + 1)) ++ type :: payload

/-- Left-justified, padded with spaces, cut at `width`. -/
def appendAlpha (s : List UInt8) (width : Nat) : List UInt8 :=
  s.take width ++ List.replicate (width - s.length) (ch ' ')

/-- The decimal digits of a number. -/
def digits (n : UInt64) : List UInt8 := (Nat.toDigits 10 n.toNat).map ch

/-- Right-justified, filled with spaces. -/
def appendSeq (seq : UInt64) (width : Nat) : List UInt8 :=
  List.replicate (width - (digits seq).length) (ch ' ') ++ digits seq

/-- The field without the spaces around it. -/
def trimField (field : List UInt8) : List UInt8 :=
  (field.dropWhile (fun c => c = ch ' ')).rdropWhile (fun c => c = ch ' ')

structure LoginRequest where
  username : List UInt8
  password : List UInt8
  requestedSession : List UInt8
  requestedSeq : UInt64
  deriving DecidableEq, Repr

/-- The number that digits denote, modulo 2^64; nothing if a character is not a
    digit. -/
def readSeq (seq : List UInt8) : Option UInt64 :=
  seq.foldlM (fun n c =>
    if c < ch '0' ∨ ch '9' < c then none else some (n * 10 + (c - ch '0').toUInt64)) 0

def decodeLoginRequest (p : List UInt8) : Option LoginRequest :=
  if p.length ≠ 46 then none
  else do
    let seq ← readSeq (trimField ((p.drop 26).take 20))
    some {
      username := trimField (p.take 6)
      password := trimField ((p.drop 6).take 10)
      requestedSession := trimField ((p.drop 16).take 10)
      requestedSeq := seq }

/-! ## Section 2: The frame parser -/

structure Packet where
  type : UInt8
  payload : List UInt8
  deriving DecidableEq, Repr

/-- The bytes received and how many of them were taken out as packets. -/
structure FrameParser where
  buf : List UInt8 := []
  consumed : Nat := 0
  consumed_le : consumed ≤ buf.length := by simp

namespace FrameParser

/-- A parser that has received nothing. -/
def new : FrameParser := {}

def push (q : FrameParser) (data : List UInt8) : FrameParser where
  buf := q.buf ++ data
  consumed := q.consumed
  consumed_le := Nat.le_trans q.consumed_le (by simp)

/-- Drop the consumed bytes once they dominate the buffer. -/
def compact (q : FrameParser) : FrameParser :=
  if q.consumed > 4096 ∧ q.consumed * 2 > q.buf.length then { buf := q.buf.drop q.consumed }
  else q

def next (q : FrameParser) : Option Packet × FrameParser :=
  let avail := q.buf.length - q.consumed
  if avail < 2 then (none, q)
  else
    -- both bytes of the length are there
    let len := ((getBe16 q.buf q.consumed).getD 0).toNat
    if h : len < 1 ∨ avail < 2 + len then (none, q)
    else
      let pkt : Packet := {
        type := q.buf.get ⟨q.consumed + 2, by omega⟩
        payload := (q.buf.drop (q.consumed + 3)).take (len - 1) }
      (some pkt, compact ⟨q.buf, q.consumed + (2 + len), by omega⟩)

/-- The bytes not yet taken out. -/
def rest (q : FrameParser) : List UInt8 := q.buf.drop q.consumed

@[simp] theorem rest_push (q : FrameParser) (data : List UInt8) :
    (q.push data).rest = q.rest ++ data :=
  List.drop_append_of_le_length q.consumed_le

@[simp] theorem rest_compact (q : FrameParser) : q.compact.rest = q.rest := by
  unfold compact
  split
  · rfl
  · rfl

end FrameParser

/-- The packet at the front of a stream, if it is there in full. A length of 0
    is never completed. -/
def splitPacket : List UInt8 → Option (Packet × List UInt8)
  | high :: low :: type :: body =>
    let len := high.toNat * 256 + low.toNat
    if len < 1 ∨ body.length + 1 < len then none
    else some (⟨type, body.take (len - 1)⟩, body.drop (len - 1))
  | _ => none

/-- A packet at the front is its length, its type and its payload. -/
theorem splitPacket_eq_some {xs ys : List UInt8} {pkt : Packet} :
    splitPacket xs = some (pkt, ys) ↔
      ∃ high low : UInt8, xs = high :: low :: pkt.type :: (pkt.payload ++ ys) ∧
        high.toNat * 256 + low.toNat = pkt.payload.length + 1 := by
  constructor
  · intro h
    unfold splitPacket at h
    split at h
    · rename_i high low type body
      dsimp only at h
      split at h
      · cases h
      · rename_i hlen
        cases h
        refine ⟨high, low, by rw [List.take_append_drop], ?_⟩
        rw [List.length_take]
        omega
    · cases h
  · rintro ⟨high, low, rfl, hlen⟩
    have hfits : ¬ (pkt.payload.length + 1 < 1 ∨
        (pkt.payload ++ ys).length + 1 < pkt.payload.length + 1) := by
      rw [List.length_append]
      omega
    simp only [splitPacket, hlen, if_neg hfits, Nat.add_sub_cancel, List.take_left, List.drop_left]

/-- The packets of a SoupBinTCP stream. -/
def framing : Framing UInt8 Packet where
  split := splitPacket
  shorter := by
    intro xs pkt ys h
    obtain ⟨high, low, rfl, -⟩ := splitPacket_eq_some.mp h
    simp only [List.length_cons, List.length_append]
    omega
  stable := by
    intro xs pkt ys zs h
    obtain ⟨high, low, rfl, hlen⟩ := splitPacket_eq_some.mp h
    exact splitPacket_eq_some.mpr ⟨high, low, by simp, hlen⟩

namespace FrameParser

variable (q : FrameParser)

theorem length_rest : q.rest.length = q.buf.length - q.consumed := List.length_drop

/-- The length field that the parser reads. -/
theorem getBe16_rest {high low : UInt8} {t : List UInt8} (h : q.rest = high :: low :: t) :
    ((getBe16 q.buf q.consumed).getD 0).toNat = high.toNat * 256 + low.toNat := by
  have havail := q.length_rest
  have hfits : q.consumed + 2 ≤ q.buf.length := by
    rw [h, List.length_cons, List.length_cons] at havail
    omega
  have hslice : Bytes.slice q.buf q.consumed 2 = some [high, low] := by
    rw [Bytes.slice, if_pos hfits]
    show some (q.rest.take 2) = _
    rw [h]
    rfl
  have hhigh : high.toNat < 256 := high.toNat_lt
  have hlow : low.toNat < 256 := low.toNat_lt
  rw [getBe16, hslice]
  show (UInt16.ofNat (high.toNat * 256 ^ 1 + (low.toNat * 256 ^ 0 + 0))).toNat = _
  rw [UInt16.toNat_ofNat']
  omega

/-- The parser takes the packets out of its unread bytes one by one. -/
theorem next_of_none (h : framing.split q.rest = none) : q.next = (none, q) := by
  have havail := q.length_rest
  unfold next
  dsimp only
  split
  · rfl
  · -- two bytes are there, so the packet is incomplete or has length 0
    obtain ⟨high, low, t, ht⟩ : ∃ high low t, q.rest = high :: low :: t := by
      match hrest : q.rest with
      | [] | [_] =>
        rw [hrest] at havail
        simp only [List.length_nil, List.length_singleton] at havail
        omega
      | high :: low :: t => exact ⟨high, low, t, rfl⟩
    rw [dif_pos]
    rw [getBe16_rest q ht, ← havail, ht]
    by_contra hwhole
    match t with
    | [] =>
      simp only [List.length_cons, List.length_nil] at hwhole
      omega
    | type :: body =>
      have hnone : splitPacket (high :: low :: type :: body) = none := ht ▸ h
      simp only [splitPacket, ite_eq_left_iff, reduceCtorEq, imp_false, not_not] at hnone
      simp only [List.length_cons] at hwhole
      omega

theorem next_of_some {pkt : Packet} {ys : List UInt8} (h : framing.split q.rest = some (pkt, ys)) :
    ∃ q', q.next = (some pkt, q') ∧ q'.rest = ys := by
  obtain ⟨high, low, hrest, hlen⟩ := splitPacket_eq_some.mp h
  have havail := q.length_rest
  rw [hrest] at havail
  simp only [List.length_cons, List.length_append] at havail
  have hfield := getBe16_rest q hrest
  rw [hlen] at hfield
  -- the packet and what follows it, as parts of the buffer
  have hdrop : ∀ k, q.buf.drop (q.consumed + k) = q.rest.drop k := by
    intro k
    rw [rest, List.drop_drop]
  refine ⟨compact ⟨q.buf, q.consumed + (2 + (pkt.payload.length + 1)), by omega⟩, ?_, ?_⟩
  · have htype : q.buf[q.consumed + 2]? = some pkt.type := by
      rw [← List.getElem?_drop]
      show q.rest[2]? = _
      rw [hrest]
      rfl
    have hpayload : (q.buf.drop (q.consumed + 3)).take (pkt.payload.length + 1 - 1) =
        pkt.payload := by
      rw [hdrop, hrest]
      simp
    unfold next
    dsimp only
    rw [if_neg (by omega), dif_neg (by omega)]
    simp only [hfield, hpayload]
    congr 2
    obtain ⟨htypeLt, htype⟩ := List.getElem?_eq_some_iff.mp htype
    cases pkt
    exact congrArg (Packet.mk · _) htype
  · rw [rest_compact]
    show q.buf.drop (q.consumed + _) = ys
    rw [hdrop, hrest]
    simp [Nat.add_comm 2]

end FrameParser

/-! ## Section 3: The server session -/

inductive State where
  | awaitingLogin
  | loggedIn
  | closed
  deriving DecidableEq, Repr

/-- What a session tells its listener. -/
inductive Callback where
  | loginRequest (req : LoginRequest)
  | unsequenced (payload : List UInt8)
  | logout
  | timeout
  deriving DecidableEq, Repr

structure ServerSession where
  parser : FrameParser
  state : State
  out : List UInt8
  lastRecvNs : UInt64
  lastSendNs : UInt64

namespace ServerSession

/-- A session created at time `now`. -/
def new (now : UInt64) : ServerSession where
  parser := {}
  state := .awaitingLogin
  out := []
  lastRecvNs := now
  lastSendNs := now

variable (s : ServerSession)

def queue (type : UInt8) (payload : List UInt8) : ServerSession :=
  { s with out := s.out ++ packet type payload }

/-- Nothing here looks at the state the session is in. -/
def acceptLogin (session : List UInt8) (nextSeq : UInt64) : ServerSession :=
  { s.queue kLoginAccepted (appendAlpha session 10 ++ appendSeq nextSeq 20) with
    state := .loggedIn }

def rejectLogin (reason : UInt8) : ServerSession :=
  { s.queue kLoginRejected [reason] with state := .closed }

def sendSequenced (payload : List UInt8) : ServerSession := s.queue kSequenced payload

def sendEndOfSession : ServerSession := s.queue kEndOfSession []

def takeOutput : List UInt8 × ServerSession := (s.out, { s with out := [] })

/-- How the body of the loop in `on_bytes` ends on one packet. -/
inductive Flow where
  | fallThrough
  | leave
  | call (c : Callback)

/-- The body of the loop in `on_bytes`, up to its first callback. -/
def onPacket (pkt : Packet) : ServerSession × Flow :=
  match s.state with
  | .awaitingLogin =>
    if pkt.type = kLoginRequest then
      match decodeLoginRequest pkt.payload with
      | some req => (s, .call (.loginRequest req))
      | none => (s.rejectLogin (ch 'A'), .leave)
    else (s, .fallThrough)
  | .loggedIn =>
    if pkt.type = kUnsequenced then (s, .call (.unsequenced pkt.payload))
    else if pkt.type = kLogoutRequest then ({ s with state := .closed }, .call .logout)
    else (s, .fallThrough)
  | .closed => (s, .fallThrough)

/-- The loop of `on_bytes`, over at most `n` packets. -/
def pumpWithin : Nat → ServerSession → ServerSession × Option Callback
  | 0, s => (s, none)
  | n + 1, s =>
    match s.parser.next with
    | (none, q) => ({ s with parser := q }, none)
    | (some pkt, q) =>
      match onPacket { s with parser := q } pkt with
      | (s, .call c) => (s, some c)
      | (s, .leave) => (s, none)
      | (s, .fallThrough) => if s.state = .closed then (s, none) else pumpWithin n s

/-- The loop of `on_bytes`. Every packet takes bytes off the buffer. -/
def pump : ServerSession × Option Callback := pumpWithin s.parser.rest.length s

def onBytes (data : List UInt8) (now : UInt64) : ServerSession × Option Callback :=
  if s.state = .closed then (s, none)
  else pump { s with lastRecvNs := now, parser := s.parser.push data }

def tick (now : UInt64) : ServerSession × Option Callback :=
  if s.state = .closed then (s, none)
  else if now - s.lastRecvNs ≥ kSessionTimeoutNs then ({ s with state := .closed }, some .timeout)
  else if s.state = .loggedIn ∧ now - s.lastSendNs ≥ kHeartbeatIntervalNs then
    ({ s.queue kServerHeartbeat [] with lastSendNs := now }, none)
  else (s, none)

/-- What follows in `on_bytes` or `tick` when the handler of `c` returns. -/
def resume (c : Callback) : ServerSession × Option Callback :=
  match c with
  | .loginRequest _ | .unsequenced _ => if s.state = .closed then (s, none) else s.pump
  | .logout | .timeout => (s, none)

/-! ### The loop over packets -/

variable {s}

/-- A packet leaves the session as it is, or closes it. -/
theorem onPacket_cases (pkt : Packet) :
    (s.onPacket pkt).1 = s ∨ (s.onPacket pkt).1 = s.rejectLogin (ch 'A') ∨
      (s.onPacket pkt).1 = { s with state := .closed } := by
  unfold onPacket
  split
  · split
    · split
      · exact .inl rfl
      · exact .inr (.inl rfl)
    · exact .inl rfl
  · split
    · exact .inl rfl
    · split
      · exact .inr (.inr rfl)
      · exact .inl rfl
  · exact .inl rfl

@[simp] theorem parser_onPacket (pkt : Packet) : (s.onPacket pkt).1.parser = s.parser := by
  rcases s.onPacket_cases pkt with h | h | h
  · rw [h]
  · rw [h]
    rfl
  · rw [h]

/-- More room than there are bytes changes nothing. -/
theorem pumpWithin_of_le {n : Nat} (h : s.parser.rest.length ≤ n) : s.pumpWithin n = s.pump := by
  suffices hsame : ∀ m, s.parser.rest.length ≤ m → s.pumpWithin n = s.pumpWithin m from
    hsame _ (Nat.le_refl _)
  intro m hm
  induction n generalizing s m with
  | zero =>
    have hnone : framing.split s.parser.rest = none := by
      cases hsplit : framing.split s.parser.rest with
      | none => rfl
      | some r => exact absurd (framing.shorter hsplit) (by omega)
    cases m with
    | zero => rfl
    | succ m => rw [pumpWithin, pumpWithin, s.parser.next_of_none hnone]
  | succ n ih =>
    cases hsplit : framing.split s.parser.rest with
    | none =>
      cases m with
      | zero => rw [pumpWithin, pumpWithin, s.parser.next_of_none hsplit]
      | succ m => rw [pumpWithin, pumpWithin, s.parser.next_of_none hsplit]
    | some r =>
      obtain ⟨pkt, ys⟩ := r
      have hshorter := framing.shorter hsplit
      obtain ⟨q, hnext, hrest⟩ := s.parser.next_of_some hsplit
      cases m with
      | zero => exact absurd hshorter (by omega)
      | succ m =>
        have hparser := parser_onPacket (s := { s with parser := q }) pkt
        rw [pumpWithin, pumpWithin, hnext]
        dsimp only
        -- only a packet that falls through goes on to the next one
        cases hflow : onPacket { s with parser := q } pkt with
        | mk t flow =>
          rw [hflow] at hparser
          have hless : t.parser.rest.length < s.parser.rest.length := by
            rw [hparser, hrest]
            exact hshorter
          cases flow with
          | call c => rfl
          | leave => rfl
          | fallThrough => simp only [ih (s := t) (by omega) m (by omega)]

/-- The loop ends when no whole packet is left. -/
theorem pump_of_none (h : framing.split s.parser.rest = none) : s.pump = (s, none) := by
  rw [← pumpWithin_of_le (Nat.le_succ _), pumpWithin, s.parser.next_of_none h]

/-- How the loop goes on after a packet. -/
def afterPacket : ServerSession × Flow → ServerSession × Option Callback
  | (s, .call c) => (s, some c)
  | (s, .leave) => (s, none)
  | (s, .fallThrough) => if s.state = .closed then (s, none) else s.pump

theorem pump_of_some {pkt : Packet} {ys : List UInt8}
    (h : framing.split s.parser.rest = some (pkt, ys)) :
    ∃ q : FrameParser, q.rest = ys ∧
      s.pump = afterPacket (onPacket { s with parser := q } pkt) := by
  obtain ⟨q, hnext, hrest⟩ := s.parser.next_of_some h
  refine ⟨q, hrest, ?_⟩
  have hshorter := framing.shorter h
  have hparser := parser_onPacket (s := { s with parser := q }) pkt
  rw [← pumpWithin_of_le (Nat.le_succ _), pumpWithin, hnext]
  dsimp only
  cases hflow : onPacket { s with parser := q } pkt with
  | mk t flow =>
    rw [hflow] at hparser
    cases flow with
    | call c => rfl
    | leave => rfl
    | fallThrough =>
      have hfuel : t.parser.rest.length ≤ s.parser.rest.length := by
        rw [hparser, hrest]
        exact Nat.le_of_lt hshorter
      simp only [afterPacket, pumpWithin_of_le hfuel]

/-- What holds along the loop of `on_bytes`. -/
theorem pump_induct {P : ServerSession → Prop} (hparser : ∀ s q, P s → P { s with parser := q })
    (hpacket : ∀ s pkt, P s → P (s.onPacket pkt).1) {s : ServerSession} (h : P s) : P s.pump.1 := by
  unfold pump
  generalize s.parser.rest.length = n
  induction n generalizing s with
  | zero => exact h
  | succ n ih =>
    rw [pumpWithin]
    split
    · exact hparser s _ h
    · rename_i pkt q hnext
      have hkept := hpacket _ pkt (hparser s q h)
      split
      · rename_i t c hflow
        rw [hflow] at hkept
        exact hkept
      · rename_i t hflow
        rw [hflow] at hkept
        exact hkept
      · rename_i t hflow
        rw [hflow] at hkept
        split
        · exact hkept
        · exact ih hkept

end ServerSession

/-! ## Section 4: Listeners -/

/-- What a listener asks of its session. -/
inductive Reply where
  | acceptLogin (session : List UInt8) (nextSeq : UInt64)
  | rejectLogin (reason : UInt8)
  | sendSequenced (payload : List UInt8)
  | sendEndOfSession
  deriving DecidableEq, Repr

def ServerSession.reply (s : ServerSession) : Reply → ServerSession
  | .acceptLogin session nextSeq => s.acceptLogin session nextSeq
  | .rejectLogin reason => s.rejectLogin reason
  | .sendSequenced payload => s.sendSequenced payload
  | .sendEndOfSession => s.sendEndOfSession

/-- A listener with state `σ` answers a callback with replies and returns. Its
    answers may depend on whatever it keeps in its state, such as the readings of
    a clock. -/
abbrev Listener (σ : Type*) := σ → Callback → σ × List Reply

/-- A session with its listener, the callbacks made and the output taken out. -/
structure Served (σ : Type*) where
  session : ServerSession
  listener : σ
  calls : List Callback := []
  taken : List UInt8 := []

namespace Served

variable {σ : Type*} (L : Listener σ)

/-- The handler of `c` runs and returns. -/
def answer (w : Served σ) (c : Callback) : Served σ where
  session := (L w.listener c).2.foldl ServerSession.reply w.session
  listener := (L w.listener c).1
  calls := w.calls ++ [c]
  taken := w.taken

/-- A call that has come to a point, and how it goes on from there: the listener
    answers and the session resumes, at most `n` times. -/
def converse : Nat → Served σ → ServerSession × Option Callback → Served σ
  | 0, w, (s, _) => { w with session := s }
  | _ + 1, w, (s, none) => { w with session := s }
  | n + 1, w, (s, some c) =>
    let w' := answer L { w with session := s } c
    converse n w' (w'.session.resume c)

/-- Every callback of `on_bytes` takes a packet off the buffer. -/
def onBytes (w : Served σ) (data : List UInt8) (now : UInt64) : Served σ :=
  converse L ((w.session.parser.push data).rest.length + 1) w (w.session.onBytes data now)

def tick (w : Served σ) (now : UInt64) : Served σ := converse L 1 w (w.session.tick now)

/-- The output is taken out and kept. -/
def takeOutput (w : Served σ) : Served σ :=
  { w with session := w.session.takeOutput.2, taken := w.taken ++ w.session.takeOutput.1 }

variable {L}

theorem converse_session (n : Nat) (w : Served σ) (t : ServerSession)
    (r : ServerSession × Option Callback) :
    converse L n { w with session := t } r = converse L n w r := by
  cases n with
  | zero => rfl
  | succ n =>
    obtain ⟨s, c⟩ := r
    cases c with
    | none => rfl
    | some c => rfl

theorem converse_none (n : Nat) (w : Served σ) (s : ServerSession) :
    converse L n w (s, none) = { w with session := s } := by
  cases n with
  | zero => rfl
  | succ n => rfl

/-- Only the owner of a session takes its output. -/
theorem taken_converse (n : Nat) (w : Served σ) (r : ServerSession × Option Callback) :
    (converse L n w r).taken = w.taken := by
  induction n generalizing w r with
  | zero => rfl
  | succ n ih =>
    obtain ⟨s, c⟩ := r
    cases c with
    | none => rfl
    | some c => exact ih _ _

end Served

end Soup

end MatchingEngine
