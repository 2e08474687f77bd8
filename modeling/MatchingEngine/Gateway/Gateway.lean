import MatchingEngine.Engine.Engine
import MatchingEngine.Ouch.Codec
import MatchingEngine.Soup.Session

/-! # The gateway

    `gateway/gateway.cpp`: the thread that owns the client sockets. It reads them,
    runs a SoupBinTCP session per connection, checks the decoded orders and
    queues them for the engine, and sends the engine's responses.

    * A `Conn*` is the id of its connection. Ids are never used again. Reading or
      writing through the pointer looks the id up in `conns`: it is undefined
      behaviour, hence `none`, once the connection was destroyed.
    * The results of `::read` and `::send`, the descriptors that `::accept` gives
      out and the order in which a hash map is traversed are inputs.
    * `clock k` is the `k`-th reading of `ns_since_midnight()`.
    * `received` and `sent` are ghosts: the bytes that went over each connection's
      socket. Nothing reads them.

    The poller decides which handler runs. Any handler may run at any time, so it
    is left out, and with it the calls that register descriptors.
-/

namespace MatchingEngine

open Soup (ServerSession Served Callback Listener)

/-! ## Section 1: Orders -/

def kMaxOrderShares : Qty := 1000000

def kMaxOrderPrice : Price := 1999999900

/-- Readings of `ns_since_midnight()`. -/
abbrev Clock := Nat → UInt64

/-- What the handlers of all connections share: how often the clock was read, and
    everything queued for the engine. -/
structure Backend where
  readings : Nat := 0
  toEngine : List Command := []

namespace Backend

def push (l : Backend) (cmd : Command) : Backend := { l with toEngine := l.toEngine ++ [cmd] }

/-- A rejection for risk, with the time it is made. -/
def reject (clock : Clock) (l : Backend) (token : Ouch.Token) : Backend × List Soup.Reply :=
  let r : Ouch.Response := .rejected ⟨(clock l.readings).toNat, token, ch 'R'⟩
  -- the encoder always has a result
  ({ l with readings := l.readings + 1 }, [.sendSequenced (r.encode.getD [])])

def handleOuch (clock : Clock) (id : Nat) (l : Backend) (data : List UInt8) :
    Backend × List Soup.Reply :=
  match data with
  | [] => (l, [])
  | type :: _ =>
    if type = ch 'O' then
      match Ouch.decodeEnterOrder data with
      | none => (l, [])
      | some m =>
        if m.shares > kMaxOrderShares ∨
          (m.price ≠ Ouch.kMarketPrice ∧ m.price > kMaxOrderPrice) then
          l.reject clock m.token
        else (l.push ⟨id, .enter m⟩, [])
    else if type = ch 'X' then
      match Ouch.decodeCancelOrder data with
      | none => (l, [])
      | some m => (l.push ⟨id, .cancel m⟩, [])
    else if type = ch 'U' then
      match Ouch.decodeReplaceOrder data with
      | none => (l, [])
      | some m =>
        if m.shares > kMaxOrderShares ∨ m.price > kMaxOrderPrice then
          l.reject clock m.replacementToken
        else (l.push ⟨id, .replace m⟩, [])
    else (l, [])

end Backend

/-- `Gateway::Conn` as the listener of its session. -/
def connListener (clock : Clock) (id : Nat) : Listener Backend
  | l, .loginRequest _ => (l, [.acceptLogin ("SIM01".toList.map ch) 1])
  | l, .unsequenced data => l.handleOuch clock id data
  | l, .logout => (l, [])
  | l, .timeout => (l, [])

/-! ## Section 2: Connections -/

structure Conn where
  fd : Nat
  session : ServerSession
  outbuf : List UInt8 := []
  writeEnabled : Bool := false

structure Gateway where
  conns : Finmap (fun _ : Nat => Conn) := ∅
  byFd : Finmap (fun _ : Nat => Nat) := ∅
  nextClientId : Nat := 1
  backend : Backend := {}
  received : Nat → List UInt8 := fun _ => []
  sent : Nat → List UInt8 := fun _ => []

/-- How `::send` returns. The socket takes some of the bytes, perhaps none. -/
inductive SendResult where
  | accepted (n : Nat)
  | wouldBlock
  | error
  deriving DecidableEq, Repr

/-- How a sequence of `::read`s ends. -/
inductive ReadEnd where
  | endOfFile
  | wouldBlock
  | error
  deriving DecidableEq, Repr

namespace Gateway

def setConn (g : Gateway) (id : Nat) (conn : Conn) : Gateway :=
  { g with conns := g.conns.insert id conn }

def closeConn (g : Gateway) (id : Nat) : Option Gateway := do
  let conn ← g.conns.lookup id
  some { g with byFd := g.byFd.erase conn.fd, conns := g.conns.erase id }

def updateWriteFilter (g : Gateway) (id : Nat) (enable : Bool) : Option Gateway := do
  let conn ← g.conns.lookup id
  if enable = conn.writeEnabled then some g
  else some (g.setConn id { conn with writeEnabled := enable })

/-- The bytes that the socket of `id` took. -/
def putOnWire (g : Gateway) (id : Nat) (bytes : List UInt8) : Gateway :=
  { g with sent := Function.update g.sent id (g.sent id ++ bytes) }

def flush (g : Gateway) (id : Nat) (send : SendResult) : Option Gateway := do
  let conn ← g.conns.lookup id
  let (fresh, session) := conn.session.takeOutput
  let conn := { conn with session := session, outbuf := conn.outbuf ++ fresh }
  let g := g.setConn id conn
  if conn.outbuf = [] then some g
  else
    match send with
    | .accepted n =>
      let g := (g.putOnWire id (conn.outbuf.take n)).setConn id
        { conn with outbuf := conn.outbuf.drop n }
      g.updateWriteFilter id (!(conn.outbuf.drop n).isEmpty)
    | .wouldBlock => g.updateWriteFilter id (!conn.outbuf.isEmpty)
    | .error => g.closeConn id

/-! ## Section 3: Handlers -/

variable (clock : Clock)

/-- One accepted descriptor in the loop of `handle_accept`. -/
def handleAccept (g : Gateway) (fd : Nat) : Gateway :=
  let id := g.nextClientId
  { g with
    nextClientId := id + 1
    backend := { g.backend with readings := g.backend.readings + 1 }
    byFd := g.byFd.insert fd id
    conns := g.conns.insert id { fd := fd, session := .new (clock g.backend.readings) } }

/-- One `::read` that gave bytes in the loop of `handle_readable`. -/
def receive (g : Gateway) (id : Nat) (data : List UInt8) : Option Gateway := do
  let conn ← g.conns.lookup id
  let backend := { g.backend with readings := g.backend.readings + 1 }
  let w : Served Backend := { session := conn.session, listener := backend }
  let w := w.onBytes (connListener clock id) data (clock g.backend.readings)
  some { g.setConn id { conn with session := w.session } with
    backend := w.listener
    received := Function.update g.received id (g.received id ++ data) }

def handleReadable (g : Gateway) (id : Nat) (chunks : List (List UInt8)) (stop : ReadEnd)
    (send : SendResult) : Option Gateway := do
  let g ← chunks.foldlM (fun g data => g.receive clock id data) g
  match stop with
  | .endOfFile => g.closeConn id
  | .error => g.closeConn id
  | .wouldBlock =>
    let g ← g.flush id send
    let conn ← g.conns.lookup id
    if conn.session.state = .closed ∧ conn.outbuf = [] then g.closeConn id else some g

def handleWritable (g : Gateway) (id : Nat) (send : SendResult) : Option Gateway := g.flush id send

/-- One response in the loop of `pump_responses`. -/
def pumpResponse (g : Gateway) (resp : ClientResponse) (send : SendResult) : Option Gateway :=
  match g.conns.lookup resp.clientId with
  | none => some g
  | some conn => do
    let bytes ← resp.msg.encode
    let g := g.setConn resp.clientId { conn with session := conn.session.sendSequenced bytes }
    g.flush resp.clientId send

def pumpResponses (g : Gateway) (resps : List (ClientResponse × SendResult)) : Option Gateway :=
  resps.foldlM (fun g r => g.pumpResponse r.1 r.2) g

/-- One entry in the first loop of `tick_sessions`. The iterator moves on from the
    entry of `id`, which must still be there. -/
def tickSession (now : UInt64) (acc : Gateway × List Nat) (entry : Nat × SendResult) :
    Option (Gateway × List Nat) := do
  let (g, toClose) := acc
  let (id, send) := entry
  let conn ← g.conns.lookup id
  let w : Served Backend := { session := conn.session, listener := g.backend }
  let w := w.tick (connListener clock id) now
  let g := { g.setConn id { conn with session := w.session } with backend := w.listener }
  let g ← g.flush id send
  let conn ← g.conns.lookup id
  if conn.session.state = .closed ∧ conn.outbuf = [] then some (g, toClose ++ [id])
  else some (g, toClose)

/-- `order` is the order in which the map is traversed, with a send result for
    each entry. -/
def tickSessions (g : Gateway) (order : List (Nat × SendResult)) : Option Gateway := do
  let now := clock g.backend.readings
  let g := { g with backend := { g.backend with readings := g.backend.readings + 1 } }
  let (g, toClose) ← order.foldlM (tickSession clock now) (g, [])
  toClose.foldlM (fun g id =>
    match g.conns.lookup id with
    | none => some g
    | some _ => g.closeConn id) g

/-! ## Section 4: The event loop -/

/-- What the loop of `run` does next. -/
inductive Event where
  | accept (fd : Nat)
  | readable (fd : Nat) (chunks : List (List UInt8)) (stop : ReadEnd) (send : SendResult)
  | writable (fd : Nat) (send : SendResult)
  | responses (resps : List (ClientResponse × SendResult))
  | tick (order : List (Nat × SendResult))

/-- The operating system gives out no descriptor that is open, and a map is
    traversed from end to end. -/
def Event.Possible (g : Gateway) : Event → Prop
  | .accept fd => ∀ id conn, g.conns.lookup id = some conn → conn.fd ≠ fd
  | .tick order => (order.map Prod.fst).Nodup ∧ ∀ id, id ∈ order.map Prod.fst ↔ id ∈ g.conns
  | .readable _ _ _ _ | .writable _ _ | .responses _ => True

def handle (g : Gateway) : Event → Option Gateway
  | .accept fd => some (g.handleAccept clock fd)
  | .readable fd chunks stop send =>
    match g.byFd.lookup fd with
    | none => some g
    | some id => g.handleReadable clock id chunks stop send
  | .writable fd send =>
    match g.byFd.lookup fd with
    | none => some g
    | some id => g.handleWritable id send
  | .responses resps => g.pumpResponses resps
  | .tick order => g.tickSessions clock order

/-- The states between handlers. -/
inductive Reachable : Gateway → Prop where
  | start : Reachable {}
  | step {g g' : Gateway} (reach : Reachable g) (ev : Event) (possible : ev.Possible g)
      (handled : g.handle clock ev = some g') : Reachable g'

end Gateway

end MatchingEngine
