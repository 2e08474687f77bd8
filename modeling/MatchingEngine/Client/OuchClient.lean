import MatchingEngine.Gateway.Risk
import MatchingEngine.Ouch.Wire
import MatchingEngine.Soup.Frames
import MatchingEngine.Soup.Login

/-! # The OUCH client

    `client/ouch_client.cpp`: the client side of a connection to the gateway. It
    logs in and waits for the answer, sends orders, and is polled for what the
    exchange has to say, which goes to a handler.

    * What `::recv` gives and what `::send` takes are inputs, and so are the
      readings of the clock. The result of `::send` is not looked at.
    * `wire` and `heard` are ghosts: the bytes that went over the socket in either
      direction. `notices` are the calls of the handler.

    After a login that was accepted, the bytes on the wire are those of a login
    request and of at most one packet for each call (`Spoken`), and the handler was
    told what the sequenced packets say that came after the answer (`Told`).
-/

namespace MatchingEngine

namespace Client

open Ouch.Wire
open Soup (FrameParser Packet framing packet)
open Ouch (makeToken)

/-! ## Section 1: The model -/

/-- What the handler is told. -/
inductive Notice where
  | accepted (m : Accepted)
  | executed (m : Executed)
  | canceled (m : Canceled)
  | replaced (m : Replaced)
  | rejected (m : Rejected)
  | systemEvent (m : SystemEvent)
  deriving DecidableEq, Repr

/-- `dispatch`. It is not called for an empty payload. -/
def dispatch (payload : List UInt8) : Option Notice :=
  match payload with
  | [] => none
  | type :: _ =>
    if type = ch 'A' then (decodeAccepted payload).map .accepted
    else if type = ch 'E' then (decodeExecuted payload).map .executed
    else if type = ch 'C' then (decodeCanceled payload).map .canceled
    else if type = ch 'U' then (decodeReplaced payload).map .replaced
    else if type = ch 'J' then (decodeRejected payload).map .rejected
    else if type = ch 'S' then (decodeSystemEvent payload).map .systemEvent
    else none

/-- What the loop of `poll` does with a packet. -/
def told (pkt : Packet) : Option Notice :=
  if pkt.type = Soup.kSequenced then dispatch pkt.payload else none

structure OuchClient where
  connected : Bool := false
  parser : FrameParser := .new
  lastSendNs : UInt64 := 0
  wire : List UInt8 := []
  heard : List UInt8 := []
  notices : List Notice := []

/-- What a call meets: its reading of the clock, the one that `send_raw` makes, and
    what the socket takes of the packet. -/
structure Meets where
  now : UInt64
  sentAt : UInt64
  send : SendResult

/-- The bytes that the socket takes. -/
def takenOf (data : List UInt8) : SendResult → List UInt8
  | .accepted n => data.take n
  | .wouldBlock => []
  | .error => []

/-! ### The messages of `enter`, `cancel` and `replace` -/

def enterOrder (token : List UInt8) (side : Side) (symbol : List UInt8) (price : Price)
    (shares : Qty) : Ouch.EnterOrder where
  token := makeToken token
  side := side.toByte
  shares := shares
  stock := makeSymbol symbol
  price := price
  tif := 99999
  firm := #v[ch 'S', ch 'I', ch 'M', ch ' ']
  display := ch 'Y'
  capacity := ch 'A'
  intermarketSweep := ch 'N'
  minQty := 0
  crossType := ch 'N'
  customerType := ch 'R'

def cancelOrder (token : List UInt8) (keepShares : Qty) : Ouch.CancelOrder where
  token := makeToken token
  shares := keepShares

def replaceOrder (existing replacement : List UInt8) (price : Price) (shares : Qty) :
    Ouch.ReplaceOrder where
  existingToken := makeToken existing
  replacementToken := makeToken replacement
  shares := shares
  price := price
  tif := 99999
  display := ch 'Y'
  intermarketSweep := ch 'N'
  minQty := 0

namespace OuchClient

def sendRaw (c : OuchClient) (data : List UInt8) (env : Meets) : OuchClient :=
  if c.connected then { c with wire := c.wire ++ takenOf data env.send, lastSendNs := env.sentAt }
    else c

def sendOuch (c : OuchClient) (msg : List UInt8) (env : Meets) : OuchClient :=
  c.sendRaw (packet Soup.kUnsequenced msg) env

/-- The packet goes past `send_raw`, so that the time is not noted. -/
def close (c : OuchClient) (env : Meets) : OuchClient :=
  if c.connected then
    { c with
      wire := c.wire ++ takenOf (packet Soup.kLogoutRequest []) env.send
      connected := false }
  else c

/-- The encoders always have a result. -/
def enter (c : OuchClient) (token : List UInt8) (side : Side) (symbol : List UInt8) (price : Price)
    (shares : Qty) (env : Meets) : OuchClient :=
  c.sendOuch ((enterOrder token side symbol price shares).encode.getD []) env

def cancel (c : OuchClient) (token : List UInt8) (keepShares : Qty) (env : Meets) : OuchClient :=
  c.sendOuch ((cancelOrder token keepShares).encode.getD []) env

def replace (c : OuchClient) (existing replacement : List UInt8) (price : Price) (shares : Qty)
    (env : Meets) : OuchClient :=
  c.sendOuch ((replaceOrder existing replacement price shares).encode.getD []) env

/-- What a `::recv` gave. -/
def push (c : OuchClient) (data : List UInt8) : OuchClient :=
  { c with parser := c.parser.push data, heard := c.heard ++ data }

/-- The two loops of `poll`: everything that can be read is pushed, and then all
    packets are taken out. -/
def receiveAll (c : OuchClient) (chunks : List (List UInt8)) : OuchClient :=
  let c := chunks.foldl push c
  let (pkts, parser) := Framing.drain FrameParser.next (c.parser.rest.length + 1) c.parser
  { c with parser := parser, notices := c.notices ++ pkts.filterMap told }

def poll (c : OuchClient) (chunks : List (List UInt8)) (env : Meets) : OuchClient :=
  if c.connected then
    let c := c.receiveAll chunks
    if env.now - c.lastSendNs > 1000000000 then c.sendRaw (packet Soup.kClientHeartbeat []) env
      else c
  else c

/-- The loop over packets in `connect`: the answer to the login, if there is one
    among the first `n` packets. -/
def loginAnswer : Nat → FrameParser → Option Bool × FrameParser
  | 0, q => (none, q)
  | n + 1, q =>
    match q.next with
    | (none, q) => (none, q)
    | (some pkt, q) =>
      if pkt.type = Soup.kLoginAccepted then (some true, q)
      else if pkt.type = Soup.kLoginRejected then (some false, q)
      else loginAnswer n q

/-- The loop over reads in `connect`. It ends when a read gives nothing. -/
def awaitLogin (env : Meets) : OuchClient → List (List UInt8) → OuchClient × Bool
  | c, [] => (c.close env, false)
  | c, data :: reads =>
    let c := c.push data
    match loginAnswer (c.parser.rest.length + 1) c.parser with
    | (some true, q) => ({ c with parser := q }, true)
    | (some false, q) => ({ c with parser := q }.close env, false)
    | (none, q) => awaitLogin env { c with parser := q } reads

/-- `connect` on a socket that is connected to the gateway. -/
def connect (c : OuchClient) (username password : List UInt8) (env logout : Meets)
    (reads : List (List UInt8)) : OuchClient × Bool :=
  let c := { c with connected := true }
  (c.sendRaw (Soup.appendLoginRequest [] username password [] 1) env).awaitLogin logout reads

end OuchClient

/-- The calls of a client. -/
inductive Call where
  | enter (token : List UInt8) (side : Side) (symbol : List UInt8) (price : Price) (shares : Qty)
  | cancel (token : List UInt8) (keepShares : Qty)
  | replace (existing replacement : List UInt8) (price : Price) (shares : Qty)
  | poll (chunks : List (List UInt8))
  | close

namespace OuchClient

def call (c : OuchClient) : Call × Meets → OuchClient
  | (.enter token side symbol price shares, env) => c.enter token side symbol price shares env
  | (.cancel token keepShares, env) => c.cancel token keepShares env
  | (.replace existing replacement price shares, env) =>
      c.replace existing replacement price shares env
  | (.poll chunks, env) => c.poll chunks env
  | (.close, env) => c.close env

def run (c : OuchClient) (calls : List (Call × Meets)) : OuchClient := calls.foldl call c

end OuchClient

/-! ## Section 2: What a client writes -/

/-- A price on the wire has 32 bits. -/
def wirePrice (price : Price) : Price := ((UInt32.ofInt price).toNat : Int)

theorem wirePrice_inRange (price : Price) : PriceInRange (wirePrice price) := by
  have hlt := (UInt32.ofInt price).toNat_lt
  unfold PriceInRange wirePrice
  lia

theorem putPrice_wirePrice (price : Price) :
    Ouch.putPrice (wirePrice price) = Ouch.putPrice price := by
  have hvalue := (wirePrice_inRange price).toNat_ofInt
  have hsame : UInt32.ofInt (wirePrice price) = UInt32.ofInt price :=
    UInt32.toNat_inj.mp (Int.ofNat_inj.mp hvalue)
  rw [Ouch.putPrice, hsame, Ouch.putPrice]

/-- The bytes of a message. -/
def encoded : CommandMsg → List UInt8
  | .enter m => m.encode.getD []
  | .cancel m => m.encode.getD []
  | .replace m => m.encode.getD []

/-- The message that a call sends, as the gateway reads it. -/
def Call.message : Call → Option CommandMsg
  | .enter token side symbol price shares =>
      some (.enter (enterOrder token side symbol (wirePrice price) shares))
  | .cancel token keepShares => some (.cancel (cancelOrder token keepShares))
  | .replace existing replacement price shares =>
    some (.replace (replaceOrder existing replacement (wirePrice price) shares))
  | .poll _ | .close => none

/-- What an exact codec writes is read back by a function that uses the codec for its
    type. -/
theorem read_back {α γ : Type} {InRange : α → Prop} {size : Nat} {type : UInt8}
    {encode : α → Option (List UInt8)}
    {decode : List UInt8 → Option α} (read : List UInt8 → Option γ) (f : α → γ)
    (h : Bytes.Exact InRange size type encode decode)
    (htype : ∀ rest, read (type :: rest) = (decode (type :: rest)).map f) {m m' : α}
    (hm : InRange m) (hsame : encode m' = encode m) :
    read ((encode m').getD []) = some (f m) ∧ ((encode m').getD []).length = size := by
  obtain ⟨p, hp, hlength, hdecode⟩ := h.forth m hm
  obtain ⟨-, hfirst⟩ := (h.accepts p).mp (by rw [hdecode]; rfl)
  cases p with
  | nil => cases hfirst
  | cons first rest =>
    obtain rfl : first = type := Option.some.inj hfirst
    rw [hsame, hp, Option.getD_some, htype, hdecode]
    exact ⟨rfl, hlength⟩

/-- The gateway reads the message back. -/
theorem decodeCommand_encoded {call : Call} {msg : CommandMsg} (h : call.message = some msg) :
    decodeCommand (encoded msg) = some msg ∧ (encoded msg).length ≤ 49 := by
  cases call with
  | enter token side symbol price shares =>
    cases h
    obtain ⟨hread, hlength⟩ := read_back decodeCommand .enter Ouch.enterOrder_exact (fun _ => rfl)
      (m := enterOrder token side symbol (wirePrice price) shares) (wirePrice_inRange price) rfl
    exact ⟨hread, Nat.le_of_eq hlength⟩
  | cancel token keepShares =>
    cases h
    obtain ⟨hread, hlength⟩ := read_back decodeCommand .cancel Ouch.cancelOrder_exact (fun _ => rfl)
      (m := cancelOrder token keepShares) trivial rfl
    exact ⟨hread, hlength.trans_le (by decide)⟩
  | replace existing replacement price shares =>
    cases h
    obtain ⟨hread, hlength⟩ :=
      read_back decodeCommand .replace Ouch.replaceOrder_exact (fun _ => rfl)
      (m := replaceOrder existing replacement (wirePrice price) shares)
      (wirePrice_inRange price) rfl
    exact ⟨hread, hlength.trans_le (by decide)⟩
  | poll | close => cases h

/-- The socket has room for a packet of any size that a client sends. -/
def Meets.Roomy (env : Meets) : Prop := ∃ n, env.send = .accepted n ∧ 52 ≤ n

theorem takenOf_roomy {env : Meets} (h : env.Roomy) (pkt : Packet)
    (hlength : pkt.payload.length ≤ 49) : takenOf pkt.bytes env.send = pkt.bytes := by
  obtain ⟨n, hsend, hn⟩ := h
  rw [hsend]
  apply List.take_of_length_le
  rw [Packet.bytes, packet]
  simp only [List.length_append, length_putBe16, List.length_cons]
  omega

namespace OuchClient

variable {c : OuchClient} {env : Meets} {call : Call}

theorem foldl_push (c : OuchClient) (chunks : List (List UInt8)) :
    chunks.foldl push c = { c with
      parser := chunks.foldl FrameParser.push c.parser
      heard := c.heard ++ chunks.flatten } := by
  induction chunks generalizing c with
  | nil => simp
  | cons data chunks ih => simp [ih, push]

/-- Reading sends nothing. -/
theorem receiveAll_frame (c : OuchClient) (chunks : List (List UInt8)) :
    (c.receiveAll chunks).connected = c.connected ∧ (c.receiveAll chunks).wire = c.wire ∧
      (c.receiveAll chunks).lastSendNs = c.lastSendNs := by
  unfold receiveAll
  rw [foldl_push]
  exact ⟨rfl, rfl, rfl⟩

theorem sendRaw_roomy (hc : c.connected = true) (henv : env.Roomy) (pkt : Packet)
    (hlength : pkt.payload.length ≤ 49) :
    c.sendRaw pkt.bytes env = { c with wire := c.wire ++ pkt.bytes, lastSendNs := env.sentAt } := by
  rw [sendRaw, if_pos hc, takenOf_roomy henv pkt hlength]

/-- A call that sends a message. -/
theorem call_message {msg : CommandMsg} (h : call.message = some msg) :
    c.call (call, env) = c.sendRaw (Packet.bytes ⟨Soup.kUnsequenced, encoded msg⟩) env := by
  cases call with
  | enter token side symbol price shares =>
    cases h
    have hfields : (enterOrder token side symbol price shares).fields =
        (enterOrder token side symbol (wirePrice price) shares).fields := by
      simp [Ouch.EnterOrder.fields, enterOrder, putPrice_wirePrice]
    rw [OuchClient.call, enter, sendOuch, Ouch.EnterOrder.encode, hfields, Packet.bytes, encoded,
      Ouch.EnterOrder.encode]
  | cancel token keepShares =>
    cases h
    rw [OuchClient.call, cancel, sendOuch, Packet.bytes, encoded]
  | replace existing replacement price shares =>
    cases h
    have hfields : (replaceOrder existing replacement price shares).fields =
        (replaceOrder existing replacement (wirePrice price) shares).fields := by
      simp [Ouch.ReplaceOrder.fields, replaceOrder, putPrice_wirePrice]
    rw [OuchClient.call, replace, sendOuch, Ouch.ReplaceOrder.encode, hfields, Packet.bytes,
      encoded, Ouch.ReplaceOrder.encode]
  | poll | close => cases h

end OuchClient

/-- The packets that a call makes, on a connection. -/
def Call.packets (c : OuchClient) (env : Meets) (call : Call) : List Packet :=
  match call with
  | .poll _ => if env.now - c.lastSendNs > 1000000000 then [⟨Soup.kClientHeartbeat, []⟩] else []
  | .close => [⟨Soup.kLogoutRequest, []⟩]
  | _ => call.message.toList.map (fun msg => ⟨Soup.kUnsequenced, encoded msg⟩)

namespace OuchClient

variable {c : OuchClient} {env : Meets} {call : Call}

/-- What a call writes. -/
theorem wire_call (call : Call) (hc : c.connected = true) (henv : env.Roomy) :
    (c.call (call, env)).wire = c.wire ++ (call.packets c env).flatMap Packet.bytes := by
  cases hmsg : call.message with
  | some msg =>
    rw [call_message hmsg, sendRaw_roomy hc henv _ (decodeCommand_encoded hmsg).2]
    cases call with
    | poll | close => cases hmsg
    | _ => simp [Call.packets, hmsg]
  | none =>
    cases call with
    | enter | cancel | replace => cases hmsg
    | close =>
      have htaken := takenOf_roomy henv ⟨Soup.kLogoutRequest, []⟩ (by decide)
      show (c.close env).wire = _
      rw [close, if_pos hc]
      show c.wire ++ takenOf (Packet.bytes ⟨Soup.kLogoutRequest, []⟩) env.send = _
      rw [htaken]
      simp [Call.packets]
    | poll chunks =>
      obtain ⟨hc', hwire, hlast⟩ := c.receiveAll_frame chunks
      have hbeat := sendRaw_roomy (hc'.trans hc) henv ⟨Soup.kClientHeartbeat, []⟩ (by decide)
      rw [OuchClient.call, poll, if_pos hc, Call.packets]
      dsimp only
      rw [hlast]
      split
      · rw [show packet Soup.kClientHeartbeat [] =
          Packet.bytes ⟨Soup.kClientHeartbeat, []⟩ from rfl, hbeat, hwire]
        simp
      · rw [hwire]
        simp

theorem connected_sendRaw (data : List UInt8) : (c.sendRaw data env).connected = c.connected := by
  unfold sendRaw
  split <;> rfl

/-- Only `close` ends a connection. -/
theorem connected_call (hcall : call ≠ .close) : (c.call (call, env)).connected = c.connected := by
  cases call with
  | close => exact absurd rfl hcall
  | poll chunks =>
    rw [OuchClient.call, poll]
    dsimp only
    split
    · split
      · rw [connected_sendRaw, (c.receiveAll_frame chunks).1]
      · rw [(c.receiveAll_frame chunks).1]
    · rfl
  | enter | cancel | replace => exact connected_sendRaw _

/-- Without a connection, calls do nothing. -/
theorem call_closed (hc : c.connected = false) : c.call (call, env) = c := by
  cases call <;>
    simp [OuchClient.call, enter, cancel, replace, poll, close, sendOuch, sendRaw, hc]

theorem run_closed (hc : c.connected = false) (calls : List (Call × Meets)) : c.run calls = c := by
  induction calls with
  | nil => rfl
  | cons s calls ih =>
    rw [run, List.foldl_cons, call_closed hc]
    exact ih

end OuchClient

/-- The messages of the calls before the connection is closed. -/
def said : List (Call × Meets) → List CommandMsg
  | [] => []
  | (.close, _) :: _ => []
  | (call, _) :: calls => call.message.toList ++ said calls

/-- The payload of an unsequenced packet. -/
def payload? (pkt : Packet) : Option (List UInt8) :=
  if pkt.type = Soup.kUnsequenced then some pkt.payload else none

/-- What a session writes behind its login: messages and heartbeats, and at its
    end perhaps a logout. -/
structure Spoken (msgs : List CommandMsg) (pkts : List Packet) : Prop where
  fits : ∀ pkt ∈ pkts, pkt.Fits
  parts : ∃ data last, pkts = data ++ last ∧ (∀ pkt ∈ data, pkt.type ≠ Soup.kLogoutRequest) ∧
    data.filterMap payload? = msgs.map encoded ∧ ∀ pkt ∈ last, pkt = ⟨Soup.kLogoutRequest, []⟩

theorem said_cons {call : Call} (hcall : call ≠ .close) (env : Meets)
    (calls : List (Call × Meets)) :
    said ((call, env) :: calls) = call.message.toList ++ said calls := by
  cases call with
  | close => exact absurd rfl hcall
  | _ => rfl

theorem packets_cases (c : OuchClient) (env : Meets) {call : Call} (hcall : call ≠ .close) :
    (∀ pkt ∈ call.packets c env, pkt.Fits ∧ pkt.type ≠ Soup.kLogoutRequest) ∧
      (call.packets c env).filterMap payload? = call.message.toList.map encoded := by
  cases hmsg : call.message with
  | some msg =>
    have hlength := (decodeCommand_encoded hmsg).2
    have hpackets : call.packets c env = [⟨Soup.kUnsequenced, encoded msg⟩] := by
      cases call with
      | poll | close => cases hmsg
      | _ => simp [Call.packets, hmsg]
    rw [hpackets]
    refine ⟨fun pkt hpkt => ?_, by simp [payload?]⟩
    rw [List.mem_singleton.mp hpkt]
    exact ⟨Nat.le_trans hlength (by decide), show Soup.kUnsequenced ≠ Soup.kLogoutRequest by decide⟩
  | none =>
    cases call with
    | enter | cancel | replace => cases hmsg
    | close => exact absurd rfl hcall
    | poll chunks =>
      rw [Call.packets]
      split
      · refine ⟨fun pkt hpkt => ?_, rfl⟩
        rw [List.mem_singleton.mp hpkt]
        exact ⟨Nat.zero_le _, by decide⟩
      · exact ⟨by simp, rfl⟩

/-- **Run lemma.** The packets of a run on an open connection. -/
theorem OuchClient.wire_run {c : OuchClient} (hc : c.connected = true) {calls : List (Call × Meets)}
    (hroomy : ∀ s ∈ calls, s.2.Roomy) :
    ∃ pkts, (c.run calls).wire = c.wire ++ pkts.flatMap Packet.bytes ∧
      Spoken (said calls) pkts := by
  induction calls generalizing c with
  | nil => exact ⟨[], by simp [run], by simp, [], [], by simp [said]⟩
  | cons s calls ih =>
    obtain ⟨call, env⟩ := s
    have henv : env.Roomy := hroomy _ List.mem_cons_self
    have hrun : c.run ((call, env) :: calls) = (c.call (call, env)).run calls := rfl
    have hwire := wire_call call hc henv
    by_cases hcall : call = .close
    · subst hcall
      have hclosed : (c.call (.close, env)).connected = false := by
        simp [OuchClient.call, close, hc]
      refine ⟨[⟨Soup.kLogoutRequest, []⟩], ?_, ?_, [], [⟨Soup.kLogoutRequest, []⟩], ?_⟩
      · rw [hrun, run_closed hclosed, hwire]
        rfl
      · intro pkt hpkt
        rw [List.mem_singleton.mp hpkt]
        exact Nat.zero_le _
      · simp [said]
    · obtain ⟨hpackets, hpayloads⟩ := packets_cases c env hcall
      have hopen : (c.call (call, env)).connected = true := (connected_call hcall).trans hc
      obtain ⟨pkts, hpkts, hspoken⟩ := ih hopen (fun s hs => hroomy s (List.mem_cons_of_mem _ hs))
      obtain ⟨data, last, rfl, hdata, hmsgs, hlast⟩ := hspoken.parts
      refine ⟨call.packets c env ++ (data ++ last), ?_, ?_, call.packets c env ++ data, last, ?_,
        ?_, ?_, hlast⟩
      · simp [hrun, hpkts, hwire]
      · intro pkt hpkt
        rcases List.mem_append.mp hpkt with hpkt | hpkt
        · exact (hpackets pkt hpkt).1
        · exact hspoken.fits pkt hpkt
      · rw [List.append_assoc]
      · intro pkt hpkt
        rcases List.mem_append.mp hpkt with hpkt | hpkt
        · exact (hpackets pkt hpkt).2
        · exact hdata pkt hpkt
      · rw [List.filterMap_append, hpayloads, hmsgs, said_cons hcall, List.map_append]

/-! ## Section 3: What a client is told -/

/-- The packets `before` were taken out while the client logged in, and the handler
    was told of those that were taken out since. -/
structure Told (before : List Packet) (c : OuchClient) : Prop where
  heard : ∃ taken, (∀ pkt ∈ before ++ taken, pkt.Fits) ∧
    c.heard = (before ++ taken).flatMap Packet.bytes ++ c.parser.rest ∧
    c.notices = taken.filterMap told

namespace OuchClient

variable {c : OuchClient}

variable {before : List Packet}

/-- All packets are taken out, and the bytes behind the last one stay. -/
theorem drain_frames (q : FrameParser) :
    (Framing.drain FrameParser.next (q.rest.length + 1) q).1 = framing.frames q.rest ∧
      (Framing.drain FrameParser.next (q.rest.length + 1) q).2.rest = framing.leftover q.rest := by
  refine ⟨FrameParser.reads.drain_all q, ?_⟩
  have hleft := FrameParser.reads.rest_drain q
  rw [FrameParser.reads.drain_last (Nat.lt_succ_of_le (Framing.length_frames_le _)),
    FrameParser.next_of_none _ (by rw [hleft]; exact Framing.split_leftover _)]
  exact hleft

theorem rest_foldl_push (q : FrameParser) (chunks : List (List UInt8)) :
    (chunks.foldl FrameParser.push q).rest = q.rest ++ chunks.flatten := by
  induction chunks generalizing q with
  | nil => simp
  | cons data chunks ih => simp [ih]

theorem receiveAll_spec (c : OuchClient) (chunks : List (List UInt8)) :
    (c.receiveAll chunks).parser.rest = framing.leftover (c.parser.rest ++ chunks.flatten) ∧
      (c.receiveAll chunks).heard = c.heard ++ chunks.flatten ∧
      (c.receiveAll chunks).notices =
        c.notices ++ (framing.frames (c.parser.rest ++ chunks.flatten)).filterMap told := by
  unfold receiveAll
  rw [foldl_push]
  dsimp only
  obtain ⟨hframes, hrest⟩ := drain_frames (chunks.foldl FrameParser.push c.parser)
  rw [hframes, hrest, rest_foldl_push]
  exact ⟨rfl, rfl, rfl⟩

theorem Told.receiveAll (h : Told before c) (chunks : List (List UInt8)) :
    Told before (c.receiveAll chunks) := by
  obtain ⟨taken, hfits, hheard, hnotices⟩ := h.heard
  obtain ⟨hrest, hheard', hnotices'⟩ := c.receiveAll_spec chunks
  obtain ⟨hfits', hparts⟩ := Soup.framing_encodes.parts (c.parser.rest ++ chunks.flatten)
  refine ⟨taken ++ framing.frames (c.parser.rest ++ chunks.flatten), ?_, ?_, ?_⟩
  · intro pkt hpkt
    rw [← List.append_assoc] at hpkt
    rcases List.mem_append.mp hpkt with hpkt | hpkt
    · exact hfits pkt hpkt
    · exact hfits' pkt hpkt
  · rw [hheard', hheard, hrest]
    simp only [List.flatMap_append, List.append_assoc, hparts]
  · rw [hnotices', hnotices, List.filterMap_append]

theorem Told.sendRaw (h : Told before c) (data : List UInt8) (env : Meets) :
    Told before (c.sendRaw data env) := by
  unfold OuchClient.sendRaw
  split
  · exact ⟨h.heard⟩
  · exact h

/-- **Step lemma.** -/
theorem Told.call (h : Told before c) (s : Call × Meets) : Told before (c.call s) := by
  obtain ⟨call, env⟩ := s
  cases call with
  | enter | cancel | replace => exact Told.sendRaw h _ env
  | close =>
    show Told before (c.close env)
    unfold close
    split
    · exact ⟨h.heard⟩
    · exact h
  | poll chunks =>
    show Told before (c.poll chunks env)
    unfold poll
    split
    · dsimp only
      split
      · exact Told.sendRaw (Told.receiveAll h chunks) _ env
      · exact Told.receiveAll h chunks
    · exact h

/-- **Run lemma.** -/
theorem Told.run (h : Told before c) (calls : List (Call × Meets)) : Told before (c.run calls) := by
  induction calls generalizing c with
  | nil => exact h
  | cons s calls ih => exact ih (Told.call h s)

/-! ### Logging in -/

/-- A packet that does not answer the login. -/
def Skipped (pkt : Packet) : Prop :=
  pkt.Fits ∧ pkt.type ≠ Soup.kLoginAccepted ∧ pkt.type ≠ Soup.kLoginRejected

/-- What the loop over packets has taken out when it comes to an end. -/
theorem loginAnswer_spec {n : Nat} {q q' : FrameParser} {answer : Option Bool}
    (h : loginAnswer n q = (answer, q')) :
    ∃ skipped, (∀ pkt ∈ skipped, Skipped pkt) ∧
      (answer = none → q.rest = skipped.flatMap Packet.bytes ++ q'.rest) ∧
      (answer = some true → ∃ pkt, pkt.Fits ∧ pkt.type = Soup.kLoginAccepted ∧
        q.rest = (skipped ++ [pkt]).flatMap Packet.bytes ++ q'.rest) := by
  induction n generalizing q with
  | zero =>
    cases h
    exact ⟨[], by simp, by simp, nofun⟩
  | succ n ih =>
    rw [loginAnswer] at h
    cases hsplit : framing.split q.rest with
    | none =>
      rw [q.next_of_none hsplit] at h
      cases h
      exact ⟨[], by simp, by simp, nofun⟩
    | some r =>
      obtain ⟨pkt, rest⟩ := r
      obtain ⟨q₁, hnext, hrest⟩ := q.next_of_some hsplit
      obtain ⟨hfits, hbytes⟩ := (Soup.framing_encodes _ _ _).mp hsplit
      rw [hnext] at h
      dsimp only at h
      split at h
      · rename_i haccepted
        cases h
        refine ⟨[], by simp, nofun, fun _ => ⟨pkt, hfits, haccepted, ?_⟩⟩
        rw [hbytes, hrest]
        simp
      · rename_i haccepted
        split at h
        · cases h
          exact ⟨[], by simp, nofun, nofun⟩
        · rename_i hrejected
          obtain ⟨skipped, hskipped, hnone, hsome⟩ := ih h
          refine ⟨pkt :: skipped, ?_, fun hanswer => ?_, fun hanswer => ?_⟩
          · rintro p (_ | ⟨_, hp⟩)
            · exact ⟨hfits, haccepted, hrejected⟩
            · exact hskipped p hp
          · rw [hbytes, ← hrest, hnone hanswer]
            simp
          · obtain ⟨answer, hfits', haccepted', hall⟩ := hsome hanswer
            refine ⟨answer, hfits', haccepted', ?_⟩
            rw [hbytes, ← hrest, hall]
            simp

/-- A login that was accepted has taken out the packets up to its answer. -/
theorem awaitLogin_spec {env : Meets} {reads : List (List UInt8)} {c' : OuchClient}
    (before : List Packet) (hbefore : ∀ pkt ∈ before, Skipped pkt)
    (hheard : c.heard = before.flatMap Packet.bytes ++ c.parser.rest)
    (h : c.awaitLogin env reads = (c', true)) :
    ∃ skipped pkt, (∀ p ∈ skipped, Skipped p) ∧ pkt.Fits ∧ pkt.type = Soup.kLoginAccepted ∧
      c'.heard = (skipped ++ [pkt]).flatMap Packet.bytes ++ c'.parser.rest ∧
      c'.connected = c.connected ∧ c'.wire = c.wire ∧ c'.notices = c.notices := by
  induction reads generalizing c before with
  | nil =>
    rw [awaitLogin] at h
    cases congrArg Prod.snd h
  | cons data reads ih =>
    rw [awaitLogin] at h
    have hpushed : (c.push data).heard = before.flatMap Packet.bytes ++
        (c.push data).parser.rest := by
      show c.heard ++ data = _ ++ (c.parser.push data).rest
      rw [hheard, FrameParser.rest_push, List.append_assoc]
    generalize hanswer : loginAnswer ((c.push data).parser.rest.length + 1) (c.push data).parser =
      r at h
    obtain ⟨answer, q⟩ := r
    obtain ⟨skipped, hskipped, hnone, hsome⟩ := loginAnswer_spec hanswer
    have hall : ∀ p ∈ before ++ skipped, Skipped p := by
      intro p hp
      rcases List.mem_append.mp hp with hp | hp
      · exact hbefore p hp
      · exact hskipped p hp
    match answer with
    | some true =>
      obtain ⟨pkt, hfits, haccepted, hrest⟩ := hsome rfl
      dsimp only at h
      cases h
      refine ⟨before ++ skipped, pkt, hall, hfits, haccepted, ?_, rfl, rfl, rfl⟩
      show (c.push data).heard = _
      rw [hpushed, hrest]
      simp
    | some false =>
      cases congrArg Prod.snd h
    | none =>
      dsimp only at h
      refine ih (c := { c.push data with parser := q }) (before ++ skipped) hall ?_ h
      show (c.push data).heard = _
      rw [hpushed, hnone rfl]
      simp

end OuchClient

/-- The login request of `connect`. -/
def loginPacket (username password : List UInt8) : Packet where
  type := Soup.kLoginRequest
  payload := Soup.appendAlpha username 6 ++ Soup.appendAlpha password 10 ++
    Soup.appendAlpha [] 10 ++ Soup.appendSeq 1 20

theorem loginPacket_accepted (username password : List UInt8) :
    (Soup.decodeLoginRequest (loginPacket username password).payload).isSome ∧
      (loginPacket username password).payload.length = 46 := by
  have hlength : (loginPacket username password).payload.length = 46 := by simp [loginPacket]
  have hseq : ((loginPacket username password).payload.drop 26).take 20 = Soup.appendSeq 1 20 := by
    rw [loginPacket, List.drop_left' (by simp), List.take_of_length_le (by simp)]
  refine ⟨?_, hlength⟩
  rw [Soup.decodeLoginRequest, if_neg (by rw [hlength]; decide), hseq, Soup.readSeq_appendSeq]
  rfl

/-- **A client that is logged in.** Its login request is on the wire, its first
    answer was the acceptance, and its handler was told nothing. -/
theorem connect_spec {username password : List UInt8} {env logout : Meets}
    {reads : List (List UInt8)} {c : OuchClient} (henv : env.Roomy)
    (h : OuchClient.connect {} username password env logout reads = (c, true)) :
    c.connected = true ∧ c.wire = (loginPacket username password).bytes ∧
      ∃ skipped pkt, (∀ p ∈ skipped, OuchClient.Skipped p) ∧ pkt.type = Soup.kLoginAccepted ∧
        Told (skipped ++ [pkt]) c := by
  have hsent := OuchClient.sendRaw_roomy (c := { ({} : OuchClient) with connected := true }) rfl
    henv
    (loginPacket username password) (by rw [(loginPacket_accepted username password).2]; decide)
  have hconnect : OuchClient.awaitLogin logout
      { ({} : OuchClient) with
        connected := true, wire := (loginPacket username password).bytes, lastSendNs :=
          env.sentAt } reads =
      (c, true) := by
    rw [← h, OuchClient.connect]
    exact congrArg (fun c => OuchClient.awaitLogin logout c reads) hsent.symm
  obtain ⟨skipped, pkt, hskipped, hfits, haccepted, hheard, hopen, hwire, hnotices⟩ :=
    OuchClient.awaitLogin_spec [] (by simp) rfl hconnect
  refine ⟨hopen, hwire, skipped, pkt, hskipped, haccepted, [], ?_, ?_, hnotices⟩
  · intro p hp
    rw [List.append_nil] at hp
    rcases List.mem_append.mp hp with hp | hp
    · exact (hskipped p hp).1
    · rw [List.mem_singleton.mp hp]
      exact hfits
  · rw [List.append_nil]
    exact hheard

/-! ## Section 4: The engine's responses -/

/-- What the handler is told of a response: its numbers have 64 bits on the wire,
    and its price 32. -/
def noticeOf : Ouch.Response → Notice
  | .accepted m => .accepted { m.toWire with price := wirePrice m.price }
  | .executed m => .executed { m.toWire with executionPrice := wirePrice m.executionPrice }
  | .canceled m => .canceled m.toWire
  | .replaced m => .replaced { m.toWire with price := wirePrice m.price }
  | .rejected m => .rejected m.toWire

/-- `dispatch` finds the decoder that belongs to the type. -/
theorem dispatch_encode (r : Ouch.Response) : dispatch (r.encode.getD []) = some (noticeOf r) := by
  unfold Ouch.Response.encode
  cases r with
  | accepted m =>
    refine (read_back dispatch .accepted accepted_exact (fun _ => rfl) ?_ ?_).1
    · exact wirePrice_inRange m.price
    · simp [Accepted.encode, Accepted.fields, putAcceptedBody,
        Ouch.Accepted.toWire, putPrice_wirePrice]
  | executed m =>
    refine (read_back dispatch .executed executed_exact (fun _ => rfl) ?_ ?_).1
    · exact wirePrice_inRange m.executionPrice
    · simp [Executed.encode, Executed.fields, Ouch.Executed.toWire,
        putPrice_wirePrice]
  | canceled m =>
    exact (read_back dispatch .canceled canceled_exact (fun _ => rfl) trivial rfl).1
  | replaced m =>
    refine (read_back dispatch .replaced replaced_exact (fun _ => rfl) ?_ ?_).1
    · exact wirePrice_inRange m.price
    · simp [Replaced.encode, Replaced.fields, putAcceptedBody,
        Replaced.body, Ouch.Replaced.toWire, putPrice_wirePrice]
  | rejected m =>
    exact (read_back dispatch .rejected rejected_exact (fun _ => rfl) trivial rfl).1

end Client

end MatchingEngine
