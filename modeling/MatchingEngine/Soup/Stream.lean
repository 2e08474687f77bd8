import MatchingEngine.Soup.Session

/-! # A session depends on its byte stream only

    A session whose listener accepts logins in its callback is a function of the
    bytes that arrived, however they were cut into `on_bytes` calls. `View` is
    what can be seen of it from outside: its state, the callbacks it made and
    the bytes it sent. The abstract session `View.absorb` takes one frame after
    the other. The session keeps to it at every `on_bytes` (`onBytes_view`):

    * its view is that of absorbing all the frames received;
    * unless it is closed, its parser is left with the bytes after the last frame.

    A closed session absorbs nothing more, so the bytes that its parser has
    buffered do not matter.
-/

namespace MatchingEngine

namespace Soup

/-! ## Section 1: What can be seen of a session -/

structure View (σ : Type*) where
  state : State
  listener : σ
  calls : List Callback
  sent : List UInt8

namespace View

variable {σ : Type*} (L : Listener σ)

/-- Before any byte arrived. -/
def new (l : σ) : View σ := ⟨.awaitingLogin, l, [], []⟩

def reply (v : View σ) : Reply → View σ
  | .acceptLogin session nextSeq =>
    { v with
      sent := v.sent ++ packet kLoginAccepted (appendAlpha session 10 ++ appendSeq nextSeq 20)
      state := .loggedIn }
  | .rejectLogin reason =>
    { v with sent := v.sent ++ packet kLoginRejected [reason], state := .closed }
  | .sendSequenced payload => { v with sent := v.sent ++ packet kSequenced payload }
  | .sendEndOfSession => { v with sent := v.sent ++ packet kEndOfSession [] }

def answer (v : View σ) (c : Callback) : View σ :=
  (L v.listener c).2.foldl reply { v with listener := (L v.listener c).1, calls := v.calls ++ [c] }

/-- One frame. -/
def absorb (v : View σ) (pkt : Packet) : View σ :=
  match v.state with
  | .awaitingLogin =>
    if pkt.type = kLoginRequest then
      match decodeLoginRequest pkt.payload with
      | some req => v.answer L (.loginRequest req)
      | none => v.reply (.rejectLogin (ch 'A'))
    else v
  | .loggedIn =>
    if pkt.type = kUnsequenced then v.answer L (.unsequenced pkt.payload)
    else if pkt.type = kLogoutRequest then { v with state := .closed }.answer L .logout
    else v
  | .closed => v

variable {L}

theorem foldl_absorb_closed {v : View σ} (h : v.state = .closed) (fs : List Packet) :
    fs.foldl (absorb L) v = v := by
  induction fs with
  | nil => rfl
  | cons pkt fs ih =>
    have hpkt : absorb L v pkt = v := by rw [absorb, h]
    rw [List.foldl_cons, hpkt, ih]

end View

/-! ### Listeners that accept logins -/

/-- A reply that decides no login. -/
def Reply.Sends : Reply → Prop
  | .acceptLogin _ _ | .rejectLogin _ => False
  | .sendSequenced _ | .sendEndOfSession => True

/-- The listener accepts every login before its handler returns, and decides no
    login in its other handlers. -/
structure Listener.AcceptsLogins {σ : Type*} (L : Listener σ) : Prop where
  accepts : ∀ l req, ∃ session nextSeq, .acceptLogin session nextSeq ∈ (L l (.loginRequest req)).2
  keeps : ∀ l req reason, .rejectLogin reason ∉ (L l (.loginRequest req)).2
  sends : ∀ l c, (∀ req, c ≠ .loginRequest req) → ∀ r ∈ (L l c).2, r.Sends

namespace View

variable {σ : Type*} {L : Listener σ}

theorem foldl_reply_sends {rs : List Reply} (h : ∀ r ∈ rs, r.Sends) (v : View σ) :
    (rs.foldl reply v).state = v.state := by
  induction rs generalizing v with
  | nil => rfl
  | cons r rs ih =>
    have hr : (v.reply r).state = v.state := by
      cases r with
      | acceptLogin => exact (h _ List.mem_cons_self).elim
      | rejectLogin => exact (h _ List.mem_cons_self).elim
      | sendSequenced => rfl
      | sendEndOfSession => rfl
    rw [List.foldl_cons, ih (fun r hr => h r (List.mem_cons_of_mem _ hr)), hr]

/-- Replies concern the state and the output only. -/
theorem foldl_reply (rs : List Reply) (v : View σ) :
    (rs.foldl reply v).calls = v.calls ∧ (rs.foldl reply v).listener = v.listener := by
  induction rs generalizing v with
  | nil => exact ⟨rfl, rfl⟩
  | cons r rs ih =>
    have hr : (v.reply r).calls = v.calls ∧ (v.reply r).listener = v.listener := by
      cases r <;> exact ⟨rfl, rfl⟩
    rw [List.foldl_cons, (ih (v.reply r)).1, (ih (v.reply r)).2]
    exact hr

theorem answer_calls (v : View σ) (c : Callback) : (v.answer L c).calls = v.calls ++ [c] :=
  (foldl_reply _ _).1

theorem answer_listener (v : View σ) (c : Callback) :
    (v.answer L c).listener = (L v.listener c).1 :=
  (foldl_reply _ _).2

variable (hL : L.AcceptsLogins)

include hL

theorem answer_sends (v : View σ) {c : Callback} (hc : ∀ req, c ≠ .loginRequest req) :
    (v.answer L c).state = v.state :=
  foldl_reply_sends (hL.sends v.listener c hc) _

theorem answer_login (v : View σ) (req : LoginRequest) :
    (v.answer L (.loginRequest req)).state = .loggedIn := by
  obtain ⟨session, nextSeq, haccepts⟩ := hL.accepts v.listener req
  have hkeeps := hL.keeps v.listener req
  -- the session is logged in from the first acceptance on
  have hstays : ∀ rs : List Reply, (∀ reason, .rejectLogin reason ∉ rs) →
      ∀ v : View σ, v.state = .loggedIn ∨ .acceptLogin session nextSeq ∈ rs →
        (rs.foldl reply v).state = .loggedIn := by
    intro rs hrs
    induction rs with
    | nil => simp
    | cons r rs ih =>
      intro v hv
      rw [List.foldl_cons]
      apply ih (fun reason h => hrs reason (List.mem_cons_of_mem _ h))
      cases r with
      | acceptLogin => exact .inl rfl
      | rejectLogin reason => exact (hrs reason List.mem_cons_self).elim
      | sendSequenced => simpa [reply] using hv
      | sendEndOfSession => simpa [reply] using hv
  exact hstays _ hkeeps _ (.inr haccepts)

end View

/-! ## Section 2: The session keeps to its view -/

namespace Served

variable {σ : Type*} {L : Listener σ}

variable {xs : List UInt8} {w : Served σ} {v : View σ}

def view (w : Served σ) : View σ :=
  ⟨w.session.state, w.listener, w.calls, w.taken ++ w.session.out⟩

@[simp] theorem view_takeOutput (w : Served σ) : w.takeOutput.view = w.view := by
  simp [view, takeOutput, ServerSession.takeOutput]

theorem view_reply (w : Served σ) (r : Reply) :
    { w with session := w.session.reply r }.view = w.view.reply r := by
  cases r <;>
    simp [view, View.reply, ServerSession.reply, ServerSession.acceptLogin,
      ServerSession.rejectLogin, ServerSession.sendSequenced, ServerSession.sendEndOfSession,
        ServerSession.queue]

@[simp] theorem parser_reply (s : ServerSession) (r : Reply) : (s.reply r).parser = s.parser := by
  cases r <;> rfl

theorem view_replies (w : Served σ) (rs : List Reply) :
    { w with session := rs.foldl ServerSession.reply w.session }.view =
      rs.foldl View.reply w.view := by
  induction rs generalizing w with
  | nil => rfl
  | cons r rs ih =>
    rw [List.foldl_cons, List.foldl_cons, ← view_reply]
    exact ih { w with session := w.session.reply r }

theorem view_answer (w : Served σ) (c : Callback) : (w.answer L c).view = w.view.answer L c :=
  view_replies { w with listener := (L w.listener c).1, calls := w.calls ++ [c] } _

theorem parser_answer (w : Served σ) (c : Callback) :
    (w.answer L c).session.parser = w.session.parser := by
  unfold answer
  dsimp only
  generalize (L w.listener c).2 = rs
  induction rs using List.reverseRecOn with
  | nil => rfl
  | append_singleton rs r ih =>
      rw [List.foldl_append, List.foldl_cons, List.foldl_nil, parser_reply, ih]

/-- `w` has absorbed the bytes `xs`, starting from the view `v`. -/
structure Absorbed (L : Listener σ) (v : View σ) (xs : List UInt8) (w : Served σ) : Prop where
  view_eq : w.view = (framing.frames xs).foldl (View.absorb L) v
  rest_eq : w.session.state ≠ .closed → w.session.parser.rest = framing.leftover xs

theorem Absorbed.cons {w' : Served σ} {pkt : Packet} {ys : List UInt8}
    (hsplit : framing.split xs = some (pkt, ys)) (hview : w.view = v.absorb L pkt)
    (h : Absorbed L w.view ys w') : Absorbed L v xs w' where
  view_eq := by rw [Framing.frames_of_some hsplit, List.foldl_cons, ← hview, h.view_eq]
  rest_eq := fun hopen => by rw [Framing.leftover_of_some hsplit, h.rest_eq hopen]

/-- Once closed, the frames that follow do not matter. -/
theorem Absorbed.of_closed {pkt : Packet} {ys : List UInt8}
    (hsplit : framing.split xs = some (pkt, ys)) (hview : w.view = v.absorb L pkt)
    (hclosed : w.session.state = .closed) : Absorbed L v xs w where
  view_eq := by
    rw [Framing.frames_of_some hsplit, List.foldl_cons, ← hview, View.foldl_absorb_closed hclosed]
  rest_eq := fun h => absurd hclosed h

/-- One packet: what the session does up to its callback, the answer to it, and
    the abstract session. -/
theorem absorb_onPacket (w : Served σ) (pkt : Packet) :
    match w.session.onPacket pkt with
    | (s, .fallThrough) => s = w.session ∧ w.view.absorb L pkt = w.view
    | (s, .leave) => s.state = .closed ∧ { w with session := s }.view = w.view.absorb L pkt
    | (s, .call c) => (c = .logout → s.state = .closed) ∧ c ≠ .timeout ∧
        (answer L { w with session := s } c).view = w.view.absorb L pkt := by
  unfold ServerSession.onPacket View.absorb
  have hstate : w.view.state = w.session.state := rfl
  rw [hstate]
  cases w.session.state with
  | closed => exact ⟨rfl, rfl⟩
  | awaitingLogin =>
    by_cases htype : pkt.type = kLoginRequest
    · simp only [if_pos htype]
      cases decodeLoginRequest pkt.payload with
      | none => exact ⟨rfl, view_reply w (.rejectLogin (ch 'A'))⟩
      | some req => exact ⟨by simp, by simp, view_answer w _⟩
    · simp only [if_neg htype, and_self]
  | loggedIn =>
    by_cases htype : pkt.type = kUnsequenced
    · simp only [if_pos htype]
      exact ⟨by simp, by simp, view_answer w _⟩
    · by_cases hlogout : pkt.type = kLogoutRequest
      · simp only [if_neg htype, if_pos hlogout]
        exact ⟨by simp, by simp,
          view_answer { w with session := { w.session with state := .closed } } _⟩
      · simp only [if_neg htype, if_neg hlogout, and_self]

/-- The loop of `on_bytes` with its callbacks absorbs the buffered bytes. -/
theorem absorbed_pump (hL : L.AcceptsLogins) {n : Nat} (hxs : w.session.parser.rest = xs)
    (hopen : w.session.state ≠ .closed) (hn : xs.length < n) :
    Absorbed L w.view xs (converse L n w w.session.pump) := by
  induction xs using framing.induct generalizing w n with
  | none xs hsplit =>
    rw [ServerSession.pump_of_none (hxs ▸ hsplit), converse_none]
    exact ⟨by rw [Framing.frames_of_none hsplit]; rfl,
      fun _ => by rw [Framing.leftover_of_none hsplit]; exact hxs⟩
  | some xs pkt ys hsplit ih =>
    obtain ⟨q, hq, hpump⟩ := ServerSession.pump_of_some (hxs ▸ hsplit)
    have hshorter := framing.shorter hsplit
    obtain ⟨m, rfl⟩ : ∃ m, n = m + 1 := ⟨n - 1, by omega⟩
    -- `w₁` is the session after the parser has taken the packet out
    obtain ⟨w₁, hsession, hview, hconverse⟩ : ∃ w₁ : Served σ,
        w₁.session = { w.session with parser := q } ∧ w.view = w₁.view ∧
        ∀ r, converse L (m + 1) w r = converse L (m + 1) w₁ r :=
      ⟨{ w with session := { w.session with parser := q } }, rfl, rfl,
        fun r => (converse_session (m + 1) w _ r).symm⟩
    have hparser : w₁.session.parser = q := congrArg ServerSession.parser hsession
    have hopen₁ : w₁.session.state ≠ .closed := by rw [hsession]; exact hopen
    have hpacket := absorb_onPacket (L := L) w₁ pkt
    have hkept := ServerSession.parser_onPacket (s := w₁.session) pkt
    rw [hpump, ← hsession, hconverse, hview]
    cases hflow : w₁.session.onPacket pkt with
    | mk s flow =>
      rw [hflow] at hpacket hkept
      cases flow with
      | fallThrough =>
        obtain ⟨rfl, hsame⟩ := hpacket
        rw [ServerSession.afterPacket, if_neg hopen₁]
        exact .cons hsplit hsame.symm (ih (hparser ▸ hq) hopen₁ (by omega))
      | leave =>
        obtain ⟨hclosed, hpacket⟩ := hpacket
        rw [ServerSession.afterPacket, converse_none]
        exact .of_closed hsplit hpacket hclosed
      | call c =>
        obtain ⟨hlogout, htimeout, hpacket⟩ := hpacket
        show Absorbed L w₁.view xs (converse L m (answer L { w₁ with session := s } c) _)
        have hrest : (answer L { w₁ with session := s } c).session.parser.rest = ys := by
          rw [parser_answer]
          show s.parser.rest = ys
          rw [hkept, hparser, hq]
        generalize hw₂ : answer L { w₁ with session := s } c = w₂ at hpacket hrest ⊢
        by_cases hclosed : w₂.session.state = .closed
        · -- whichever callback it was, the session returns
          have hresume : w₂.session.resume c = (w₂.session, none) := by
            cases c <;> simp [ServerSession.resume, hclosed]
          rw [hresume, converse_none]
          exact .of_closed hsplit hpacket hclosed
        · have hresume : w₂.session.resume c = w₂.session.pump := by
            cases c with
            | loginRequest req => exact if_neg hclosed
            | unsequenced payload => exact if_neg hclosed
            | timeout => exact absurd rfl htimeout
            | logout =>
              -- the answer to a logout leaves the session closed
              refine absurd ?_ hclosed
              show w₂.view.state = .closed
              rw [← hw₂, view_answer, View.answer_sends hL _ (by simp)]
              exact hlogout rfl
          rw [hresume]
          exact .cons hsplit hpacket (ih hrest hclosed (by omega))

/-- The loop of `on_bytes`, from any point of the stream. -/
theorem Absorbed.onBytes (hL : L.AcceptsLogins) (h : Absorbed L v xs w) (data : List UInt8)
    (now : UInt64) : Absorbed L v (xs ++ data) (w.onBytes L data now) := by
  unfold Served.onBytes ServerSession.onBytes
  by_cases hclosed : w.session.state = .closed
  · rw [if_pos hclosed, converse_none]
    refine ⟨?_, fun hopen => absurd hclosed hopen⟩
    have hview : w.view.state = .closed := hclosed
    rw [Framing.frames_append, List.foldl_append, ← h.view_eq, View.foldl_absorb_closed hview]
  · rw [if_neg hclosed]
    let w₁ : Served σ := { w with
      session := { w.session with lastRecvNs := now, parser := w.session.parser.push data } }
    have hrest : w₁.session.parser.rest = framing.leftover xs ++ data := by
      rw [← h.rest_eq hclosed]
      exact FrameParser.rest_push _ _
    have hpump := absorbed_pump (n := w₁.session.parser.rest.length + 1) hL hrest hclosed
      (by rw [hrest]; exact Nat.lt_succ_self _)
    rw [converse_session (w := w)] at hpump
    have hview : w₁.view = w.view := rfl
    constructor
    · rw [Framing.frames_append, List.foldl_append, ← h.view_eq, ← hview]
      exact hpump.view_eq
    · intro hopen
      rw [Framing.leftover_append]
      exact hpump.rest_eq hopen

/-- A session created at time `now`, and its listener. -/
def new (now : UInt64) (l : σ) : Served σ := { session := .new now, listener := l }

theorem absorbed_new (now : UInt64) (l : σ) : Absorbed L (View.new l) [] (new now l) :=
  ⟨rfl, fun _ => rfl⟩

/-- One `on_bytes` call. The output may be taken after it. -/
structure Chunk where
  data : List UInt8
  now : UInt64
  take : Bool

def deliver (L : Listener σ) (w : Served σ) (k : Chunk) : Served σ :=
  if k.take then (w.onBytes L k.data k.now).takeOutput else w.onBytes L k.data k.now

theorem absorbed_deliver (hL : L.AcceptsLogins) (h : Absorbed L v xs w) (ks : List Chunk) :
    Absorbed L v (xs ++ ks.flatMap Chunk.data) (ks.foldl (deliver L) w) := by
  induction ks generalizing w xs with
  | nil => simpa using h
  | cons k ks ih =>
    have hstep : Absorbed L v (xs ++ k.data) (deliver L w k) := by
      have hbytes := h.onBytes hL k.data k.now
      unfold deliver
      split
      · exact ⟨by rw [view_takeOutput]; exact hbytes.view_eq, hbytes.rest_eq⟩
      · exact hbytes
    rw [List.foldl_cons, List.flatMap_cons, ← List.append_assoc]
    exact ih hstep

end Served

/-! ## Section 3: The frames of the stream -/

/-- The callback for a frame of unsequenced data. -/
def unsequenced? (pkt : Packet) : Option Callback :=
  if pkt.type = kUnsequenced then some (.unsequenced pkt.payload) else none

/-- What a session makes of the frames it received. -/
structure FollowsFrames (fs : List Packet) (calls : List Callback) (state : State)
    (sent : List UInt8) : Prop where
  /-- Frames before the login deliver nothing. -/
  noLogin : (∀ pkt ∈ fs, pkt.type ≠ kLoginRequest) → calls = [] ∧ state = .awaitingLogin ∧ sent = []
  /-- A malformed login closes the session with one Login Rejected. -/
  malformed : ∀ before login after, fs = before ++ login :: after →
    (∀ pkt ∈ before, pkt.type ≠ kLoginRequest) → login.type = kLoginRequest →
    decodeLoginRequest login.payload = none →
    calls = [] ∧ state = .closed ∧ sent = packet kLoginRejected [ch 'A']
  /-- After the login, the unsequenced frames are delivered. -/
  loggedIn : ∀ before login req after, fs = before ++ login :: after →
    (∀ pkt ∈ before, pkt.type ≠ kLoginRequest) → login.type = kLoginRequest →
    decodeLoginRequest login.payload = some req → (∀ pkt ∈ after, pkt.type ≠ kLogoutRequest) →
    calls = .loginRequest req :: after.filterMap unsequenced? ∧ state = .loggedIn
  /-- Nothing is delivered after the first logout. -/
  logout : ∀ before login req between out after, fs = before ++ login :: (between ++ out :: after) →
    (∀ pkt ∈ before, pkt.type ≠ kLoginRequest) → login.type = kLoginRequest →
    decodeLoginRequest login.payload = some req →
    (∀ pkt ∈ between, pkt.type ≠ kLogoutRequest) → out.type = kLogoutRequest →
    calls = .loginRequest req :: between.filterMap unsequenced? ++ [.logout] ∧ state = .closed

namespace View

variable {σ : Type*} {L : Listener σ}

variable {v : View σ}

/-- Before the login. -/
theorem foldl_absorb_before (h : v.state = .awaitingLogin) {fs : List Packet}
    (hfs : ∀ pkt ∈ fs, pkt.type ≠ kLoginRequest) : fs.foldl (absorb L) v = v := by
  induction fs with
  | nil => rfl
  | cons pkt fs ih =>
    have hpkt : absorb L v pkt = v := by
      rw [absorb, h]
      exact if_neg (hfs pkt List.mem_cons_self)
    rw [List.foldl_cons, hpkt]
    exact ih (fun p hp => hfs p (List.mem_cons_of_mem _ hp))

theorem absorb_malformed (h : v.state = .awaitingLogin) {login : Packet}
    (htype : login.type = kLoginRequest) (hdecode : decodeLoginRequest login.payload = none) :
    absorb L v login = v.reply (.rejectLogin (ch 'A')) := by
  simp only [absorb, h, if_pos htype, hdecode]

theorem absorb_login (h : v.state = .awaitingLogin) {login : Packet}
    (htype : login.type = kLoginRequest) {req : LoginRequest}
    (hdecode : decodeLoginRequest login.payload = some req) :
    absorb L v login = v.answer L (.loginRequest req) := by
  simp only [absorb, h, if_pos htype, hdecode]

variable (hL : L.AcceptsLogins)

include hL

/-- Between login and logout. -/
theorem foldl_absorb_loggedIn (h : v.state = .loggedIn) {fs : List Packet}
    (hfs : ∀ pkt ∈ fs, pkt.type ≠ kLogoutRequest) :
    (fs.foldl (absorb L) v).state = .loggedIn ∧
      (fs.foldl (absorb L) v).calls = v.calls ++ fs.filterMap unsequenced? := by
  induction fs generalizing v with
  | nil => simpa using h
  | cons pkt fs ih =>
    have hpkt : (absorb L v pkt).state = .loggedIn ∧
        (absorb L v pkt).calls = v.calls ++ (unsequenced? pkt).toList := by
      have hlogout := hfs pkt List.mem_cons_self
      by_cases htype : pkt.type = kUnsequenced
      · simp only [absorb, h, if_pos htype, unsequenced?]
        exact ⟨by rw [answer_sends hL v (by simp), h], answer_calls v _⟩
      · simp only [absorb, h, if_neg htype, if_neg hlogout, unsequenced?]
        simp
    obtain ⟨hstate, hcalls⟩ := ih hpkt.1 (fun p hp => hfs p (List.mem_cons_of_mem _ hp))
    rw [List.foldl_cons]
    refine ⟨hstate, ?_⟩
    rw [hcalls, hpkt.2, List.append_assoc]
    congr 1
    cases hunseq : unsequenced? pkt with
    | none => rw [List.filterMap_cons_none hunseq]; rfl
    | some c => rw [List.filterMap_cons_some hunseq]; rfl

theorem absorb_logout (h : v.state = .loggedIn) {out : Packet} (htype : out.type = kLogoutRequest) :
    (absorb L v out).state = .closed ∧ (absorb L v out).calls = v.calls ++ [.logout] := by
  have hunseq : out.type ≠ kUnsequenced := by
    rw [htype]
    decide
  simp only [absorb, h, if_neg hunseq, if_pos htype]
  exact ⟨answer_sends hL _ (by simp), answer_calls _ _⟩

theorem followsFrames (l : σ) (fs : List Packet) :
    FollowsFrames fs (fs.foldl (absorb L) (new l)).calls (fs.foldl (absorb L) (new l)).state
      (fs.foldl (absorb L) (new l)).sent where
  noLogin := by
    intro hfs
    rw [foldl_absorb_before rfl hfs]
    exact ⟨rfl, rfl, rfl⟩
  malformed := by
    rintro before login after rfl hbefore htype hdecode
    rw [List.foldl_append, List.foldl_cons, foldl_absorb_before rfl hbefore,
      absorb_malformed rfl htype hdecode, foldl_absorb_closed rfl]
    exact ⟨rfl, rfl, rfl⟩
  loggedIn := by
    rintro before login req after rfl hbefore htype hdecode hafter
    rw [List.foldl_append, List.foldl_cons, foldl_absorb_before rfl hbefore,
      absorb_login rfl htype hdecode]
    obtain ⟨hstate, hcalls⟩ := foldl_absorb_loggedIn hL (answer_login hL (new l) req) hafter
    rw [hcalls, answer_calls]
    exact ⟨rfl, hstate⟩
  logout := by
    rintro before login req between out after rfl hbefore htype hdecode hbetween hout
    rw [List.foldl_append, List.foldl_cons, foldl_absorb_before rfl hbefore,
      absorb_login rfl htype hdecode, List.foldl_append, List.foldl_cons]
    obtain ⟨hstate, hcalls⟩ := foldl_absorb_loggedIn hL (answer_login hL (new l) req) hbetween
    obtain ⟨hclosed, hlogout⟩ := absorb_logout hL hstate hout
    rw [foldl_absorb_closed hclosed, hlogout, hcalls, answer_calls]
    exact ⟨rfl, hclosed⟩

end View

/-! ### What is delivered -/

/-- The state after a frame, when every well-formed login is accepted. -/
def State.next : State → Packet → State
  | .awaitingLogin, pkt =>
    if pkt.type = kLoginRequest then
      if (decodeLoginRequest pkt.payload).isSome then .loggedIn else .closed
    else .awaitingLogin
  | .loggedIn, pkt => if pkt.type = kLogoutRequest then .closed else .loggedIn
  | .closed, _ => .closed

/-- The payloads of the unsequenced frames that arrive while logged in. -/
def deliverable : State → List Packet → List (List UInt8)
  | _, [] => []
  | st, pkt :: fs =>
    if st = .loggedIn ∧ pkt.type = kUnsequenced then pkt.payload :: deliverable (st.next pkt) fs
    else deliverable (st.next pkt) fs

theorem deliverable_append (st : State) (fs gs : List Packet) :
    deliverable st (fs ++ gs) = deliverable st fs ++ deliverable (fs.foldl State.next st) gs := by
  induction fs generalizing st with
  | nil => rfl
  | cons pkt fs ih =>
    rw [List.cons_append, deliverable, deliverable, List.foldl_cons, ih]
    split <;> rfl

theorem View.absorb_state {σ : Type*} {L : Listener σ} (hL : L.AcceptsLogins) (v : View σ)
    (pkt : Packet) : (v.absorb L pkt).state = v.state.next pkt := by
  unfold absorb State.next
  split
  · rename_i hstate
    rw [hstate]
    dsimp only
    split
    · cases decodeLoginRequest pkt.payload with
      | none => rfl
      | some req => exact answer_login hL v req
    · exact hstate
  · rename_i hstate
    rw [hstate]
    dsimp only
    by_cases htype : pkt.type = kUnsequenced
    · have hlogout : pkt.type ≠ kLogoutRequest := by
        rw [htype]
        decide
      rw [if_pos htype, if_neg hlogout, answer_sends hL v (by simp), hstate]
    · rw [if_neg htype]
      split
      · exact answer_sends hL _ (by simp)
      · exact hstate
  · rename_i hstate
    rw [hstate]

theorem View.foldl_absorb_state {σ : Type*} {L : Listener σ} (hL : L.AcceptsLogins) (v : View σ)
    (fs : List Packet) : (fs.foldl (View.absorb L) v).state = fs.foldl State.next v.state := by
  induction fs generalizing v with
  | nil => rfl
  | cons pkt fs ih => rw [List.foldl_cons, List.foldl_cons, ih, absorb_state hL]

/-- A login was accepted: the first login request is well formed. -/
def LoginAccepted (fs : List Packet) : Prop :=
  ∃ before login after req, fs = before ++ login :: after ∧
    (∀ pkt ∈ before, pkt.type ≠ kLoginRequest) ∧ login.type = kLoginRequest ∧
    decodeLoginRequest login.payload = some req

/-- Nothing is delivered before a login. -/
theorem loginAccepted_of_deliverable {fs : List Packet} (h : deliverable .awaitingLogin fs ≠ []) :
    LoginAccepted fs := by
  have hclosed : ∀ fs, deliverable .closed fs = [] := by
    intro fs
    induction fs with
    | nil => rfl
    | cons pkt fs ih => simpa [deliverable, State.next] using ih
  induction fs with
  | nil => exact absurd rfl h
  | cons pkt fs ih =>
    have hskip : deliverable .awaitingLogin (pkt :: fs) =
        deliverable (State.next .awaitingLogin pkt) fs := if_neg (by simp)
    by_cases htype : pkt.type = kLoginRequest
    · cases hdecode : decodeLoginRequest pkt.payload with
      | none => simp [hskip, State.next, htype, hdecode, hclosed] at h
      | some req => exact ⟨[], pkt, fs, req, rfl, by simp, htype, hdecode⟩
    · have hnext : State.next .awaitingLogin pkt = .awaitingLogin := if_neg htype
      rw [hskip, hnext] at h
      obtain ⟨before, login, after, req, rfl, hbefore, hlogin⟩ := ih h
      refine ⟨pkt :: before, login, after, req, rfl, ?_, hlogin⟩
      intro p hp
      rcases List.mem_cons.mp hp with rfl | hp
      · exact htype
      · exact hbefore p hp

/-! ## Section 4: Two ways to cut a stream -/

/-- However a byte stream is cut into `on_bytes` calls, whenever they come and
    whenever the output is taken: the callbacks, the final state and all the
    output are the same, and they are those of the stream's frames. -/
theorem stream_determines_session {σ : Type*} {L : Listener σ} (hL : L.AcceptsLogins) (l : σ)
    (bytes : List UInt8) (created created' : UInt64) (ks ks' : List Served.Chunk)
    (hks : ks.flatMap Served.Chunk.data = bytes) (hks' : ks'.flatMap Served.Chunk.data = bytes) :
    let w := ks.foldl (Served.deliver L) (Served.new created l)
    let w' := ks'.foldl (Served.deliver L) (Served.new created' l)
    w.calls = w'.calls ∧ w.session.state = w'.session.state ∧
      w.takeOutput.taken = w'.takeOutput.taken ∧
      FollowsFrames (framing.frames bytes) w.calls w.session.state w.takeOutput.taken := by
  intro w w'
  have hview : w.view = (framing.frames bytes).foldl (View.absorb L) (View.new l) :=
    hks ▸ (Served.absorbed_deliver hL (Served.absorbed_new created l) ks).view_eq
  have hview' : w'.view = (framing.frames bytes).foldl (View.absorb L) (View.new l) :=
    hks' ▸ (Served.absorbed_deliver hL (Served.absorbed_new created' l) ks').view_eq
  have hsame : w.view = w'.view := hview.trans hview'.symm
  refine ⟨congrArg View.calls hsame, congrArg View.state hsame, congrArg View.sent hsame, ?_⟩
  show FollowsFrames _ w.view.calls w.view.state w.view.sent
  rw [hview]
  exact View.followsFrames hL l _

/-- A listener that accepts every login and ignores everything else. -/
def acceptAll : Listener Unit
  | _, .loginRequest _ => ((), [.acceptLogin [] 1])
  | _, _ => ((), [])

theorem acceptAll_acceptsLogins : acceptAll.AcceptsLogins where
  accepts := fun _ _ => ⟨[], 1, List.mem_singleton_self _⟩
  keeps := by
    intro l req reason h
    simp [acceptAll] at h
  sends := by
    intro l c hc r hr
    cases c with
    | loginRequest req => exact absurd rfl (hc req)
    | unsequenced payload => cases hr
    | logout => cases hr
    | timeout => cases hr

/-- A login without credentials, then a byte of unsequenced data. -/
def loginAndOrder : List UInt8 :=
  packet kLoginRequest (List.replicate 46 (ch ' ')) ++ packet kUnsequenced [ch 'x']

theorem stream_determines_session_bytewise :
    let w := (loginAndOrder.map (fun b => ⟨[b], 7, true⟩)).foldl (Served.deliver acceptAll)
      (Served.new 0 ())
    w.session.state = .loggedIn ∧ w.calls.length = 2 := by
  have h := stream_determines_session acceptAll_acceptsLogins () loginAndOrder 0 0
    (loginAndOrder.map (fun b => ⟨[b], 7, true⟩)) [⟨loginAndOrder, 5, false⟩]
    (by decide) (by decide)
  refine ⟨h.2.1.trans (by decide), (congrArg List.length h.1).trans (by decide)⟩

end Soup

end MatchingEngine
