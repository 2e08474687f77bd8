import MatchingEngine.Gateway.Delivery

/-! # The conversation with a client

    What the gateway queues for a client follows a grammar: nothing before the
    login, then one answer to it, and heartbeats and sequenced data behind an
    accepted login only (`Said`). And of the Enter and Replace messages that were
    delivered on a connection, those beyond the caps are refused, one for one and
    in order, while all others go to the engine (`Conversed.answered`).

    The responses of the engine are an input of the gateway. That they go to
    clients that have logged in is an assumption here.
-/

namespace MatchingEngine

open Soup (ServerSession State framing deliverable)

variable {q : List Outgoing}

/-! ## Section 1: The grammar -/

/-- What may follow an accepted login. -/
def Outgoing.Later : Outgoing → Prop
  | .heartbeat | .riskReject _ _ | .response _ => True
  | .loginAccepted | .loginRejected => False

/-- The token of an order that the gateway refuses. -/
def Outgoing.refusal : Outgoing → Option Ouch.Token
  | .riskReject _ token => some token
  | .loginAccepted | .loginRejected | .heartbeat | .response _ => none

/-- A response of the engine. -/
def Outgoing.fromEngine : Outgoing → Option Ouch.Response
  | .response msg => some msg
  | .loginAccepted | .loginRejected | .heartbeat | .riskReject _ _ => none

/-- An accepted login, and what follows it. -/
def Welcomed (q : List Outgoing) : Prop := ∃ rest, q = .loginAccepted :: rest ∧ ∀ o ∈ rest, o.Later

/-- What may have been queued for a client whose session is in a state. -/
def Said : State → List Outgoing → Prop
  | .awaitingLogin, q => q = []
  | .loggedIn, q => Welcomed q
  | .closed, q => q = [] ∨ q = [.loginRejected] ∨ Welcomed q

theorem Welcomed.more {more : List Outgoing} (h : Welcomed q) (hmore : ∀ o ∈ more, o.Later) :
    Welcomed (q ++ more) := by
  obtain ⟨rest, rfl, hrest⟩ := h
  refine ⟨rest ++ more, rfl, fun o ho => ?_⟩
  rcases List.mem_append.mp ho with ho | ho
  · exact hrest o ho
  · exact hmore o ho

/-- A session may be closed at any time. -/
theorem Said.closed {st : State} (h : Said st q) : Said .closed q := by
  cases st with
  | awaitingLogin => exact .inl h
  | loggedIn => exact .inr (.inr h)
  | closed => exact h

theorem Said.more {st : State} {more : List Outgoing} (h : Said st q) (hmore : ∀ o ∈ more, o.Later)
    (hwelcome : more ≠ [] → Welcomed q) : Said st (q ++ more) := by
  by_cases hnil : more = []
  · rwa [hnil, List.append_nil]
  · have hwelcomed := (hwelcome hnil).more hmore
    cases st with
    | awaitingLogin =>
      -- nothing was queued yet, least of all a login
      obtain ⟨rest, hrest, -⟩ := hwelcome hnil
      rw [show q = [] from h] at hrest
      cases hrest
    | loggedIn => exact hwelcomed
    | closed => exact .inr (.inr hwelcomed)

/-! ## Section 2: Answers to frames -/

theorem Soup.State.foldl_next_closed (fs : List Soup.Packet) :
    fs.foldl State.next .closed = .closed := by
  induction fs with
  | nil => rfl
  | cons pkt fs ih => exact ih

theorem Soup.deliverable_closed (fs : List Soup.Packet) : deliverable .closed fs = [] := by
  induction fs with
  | nil => rfl
  | cons pkt fs ih =>
    rw [deliverable, if_neg (by simp)]
    exact ih

namespace Dialogue

variable {clock : Clock} {d : Dialogue} {before : List Outgoing}

/-- **Step lemma.** One frame. -/
theorem said_answer (h : Said d.state (before ++ d.queued)) (pkt : Soup.Packet) :
    Said (d.answer clock pkt).state (before ++ (d.answer clock pkt).queued) := by
  unfold answer
  cases hstate : d.state with
  | closed =>
    rw [hstate] at h
    dsimp only
    rwa [hstate]
  | awaitingLogin =>
    rw [hstate] at h
    have hnil : before ++ d.queued = [] := h
    dsimp only
    split
    · cases Soup.decodeLoginRequest pkt.payload with
      | some req =>
        refine ⟨[], ?_, by simp⟩
        show before ++ (d.queued ++ [.loginAccepted]) = _
        rw [← List.append_assoc, hnil]
        rfl
      | none =>
        refine .inr (.inl ?_)
        show before ++ (d.queued ++ [.loginRejected]) = _
        rw [← List.append_assoc, hnil]
        rfl
    · rwa [hstate]
  | loggedIn =>
    rw [hstate] at h
    have hwelcomed : Welcomed (before ++ d.queued) := h
    dsimp only
    split
    · cases refused pkt.payload with
      | some token =>
        dsimp only [say]
        rw [hstate, ← List.append_assoc]
        exact hwelcomed.more (by simp [Outgoing.Later])
      | none =>
        dsimp only
        rwa [hstate]
    · split
      · exact .inr (.inr hwelcomed)
      · rwa [hstate]

theorem state_answer (d : Dialogue) (pkt : Soup.Packet) :
    (d.answer clock pkt).state = d.state.next pkt := by
  unfold answer State.next
  cases hstate : d.state with
  | closed => exact hstate
  | awaitingLogin =>
    dsimp only
    split
    · cases Soup.decodeLoginRequest pkt.payload <;> rfl
    · exact hstate
  | loggedIn =>
    dsimp only
    by_cases htype : pkt.type = Soup.kUnsequenced
    · rw [if_pos htype, if_neg (by rw [htype]; decide)]
      cases refused pkt.payload <;> exact hstate
    · rw [if_neg htype]
      split
      · rfl
      · exact hstate

theorem state_answers (d : Dialogue) (fs : List Soup.Packet) :
    (fs.foldl (answer clock) d).state = fs.foldl State.next d.state := by
  induction fs generalizing d with
  | nil => rfl
  | cons pkt fs ih => rw [List.foldl_cons, List.foldl_cons, ih, state_answer]

/-- A delivered message beyond the caps is refused, and nothing else is. -/
theorem refusals_answer (d : Dialogue) (pkt : Soup.Packet) :
    (d.answer clock pkt).queued.filterMap Outgoing.refusal =
      d.queued.filterMap Outgoing.refusal ++ (deliverable d.state [pkt]).filterMap refused := by
  unfold answer
  cases hstate : d.state with
  | closed => simp [deliverable]
  | awaitingLogin =>
    dsimp only
    split
    · cases Soup.decodeLoginRequest pkt.payload with
      | some req => simp [deliverable, say, Outgoing.refusal]
      | none => simp [deliverable, say, Outgoing.refusal]
    · simp [deliverable]
  | loggedIn =>
    dsimp only
    by_cases htype : pkt.type = Soup.kUnsequenced
    · rw [if_pos htype]
      cases hrefused : refused pkt.payload with
      | some token => simp [deliverable, htype, hrefused, say, Outgoing.refusal]
      | none => simp [deliverable, htype, hrefused]
    · rw [if_neg htype]
      split <;> simp [deliverable, htype]

/-- The gateway does not speak for the engine. -/
theorem fromEngine_answer (d : Dialogue) (pkt : Soup.Packet) :
    (d.answer clock pkt).queued.filterMap Outgoing.fromEngine =
      d.queued.filterMap Outgoing.fromEngine := by
  unfold answer
  split
  · split
    · split <;> simp [say, Outgoing.fromEngine]
    · rfl
  · split
    · split
      · simp [say, Outgoing.fromEngine]
      · rfl
    · split <;> rfl
  · rfl

theorem fromEngine_reads (p : Dialogue × List UInt8) (chunks : List (List UInt8)) :
    (chunks.foldl (receive clock) p).1.queued.filterMap Outgoing.fromEngine =
      p.1.queued.filterMap Outgoing.fromEngine := by
  have hframes : ∀ (fs : List Soup.Packet) (d : Dialogue),
      (fs.foldl (answer clock) d).queued.filterMap Outgoing.fromEngine =
        d.queued.filterMap Outgoing.fromEngine := by
    intro fs
    induction fs with
    | nil => exact fun _ => rfl
    | cons pkt fs ih => exact fun d => (ih _).trans (fromEngine_answer d pkt)
  induction chunks generalizing p with
  | nil => rfl
  | cons data chunks ih => exact (ih _).trans (hframes _ _)

/-- A message is delivered only behind an accepted login. -/
theorem welcomed_answer (h : Said d.state (before ++ d.queued)) {pkt : Soup.Packet}
    (hdelivered : deliverable d.state [pkt] ≠ []) : Welcomed (before ++ d.queued) := by
  cases hstate : d.state with
  | loggedIn =>
    rw [hstate] at h
    exact h
  | awaitingLogin => simp [hstate, deliverable] at hdelivered
  | closed => simp [hstate, deliverable] at hdelivered

/-- What was welcomed stays so. -/
theorem welcomed_keeps (h : Said d.state (before ++ d.queued))
    (hwelcomed : Welcomed (before ++ d.queued))
    (pkt : Soup.Packet) : Welcomed (before ++ (d.answer clock pkt).queued) := by
  have hafter : Said (d.answer clock pkt).state (before ++ (d.answer clock pkt).queued) :=
    said_answer h pkt
  unfold answer at hafter ⊢
  cases hstate : d.state with
  | closed => exact hwelcomed
  | awaitingLogin =>
    rw [hstate] at h
    obtain ⟨rest, hrest, -⟩ := hwelcomed
    rw [show before ++ d.queued = [] from h] at hrest
    cases hrest
  | loggedIn =>
    rw [hstate] at hafter
    dsimp only at hafter ⊢
    split
    · rename_i htype
      rw [if_pos htype] at hafter
      cases hrefused : refused pkt.payload with
      | some token =>
        rw [hrefused] at hafter
        dsimp only [say] at hafter ⊢
        rwa [hstate] at hafter
      | none => exact hwelcomed
    · split <;> exact hwelcomed

/-- What some frames come to: the state, the refusals, and the grammar. -/
structure Answered (before : List Outgoing) (d : Dialogue) (fs : List Soup.Packet) (d' : Dialogue) :
    Prop where
  state : d'.state = fs.foldl State.next d.state
  refusals : d'.queued.filterMap Outgoing.refusal =
    d.queued.filterMap Outgoing.refusal ++ (deliverable d.state fs).filterMap refused
  said : Said d'.state (before ++ d'.queued)
  welcomed : (deliverable d.state fs ≠ [] ∨ Welcomed (before ++ d.queued)) →
    Welcomed (before ++ d'.queued)

theorem answered_nil (h : Said d.state (before ++ d.queued)) : Answered before d [] d where
  state := rfl
  refusals := by simp [deliverable]
  said := h
  welcomed := by
    intro hor
    rcases hor with hdelivered | hwelcomed
    · exact absurd rfl hdelivered
    · exact hwelcomed

theorem Answered.trans {d₁ d₂ : Dialogue} {fs fs' : List Soup.Packet} (h : Answered before d fs d₁)
    (h' : Answered before d₁ fs' d₂) : Answered before d (fs ++ fs') d₂ where
  state := by rw [h'.state, h.state, List.foldl_append]
  refusals := by
    rw [h'.refusals, h.refusals, Soup.deliverable_append, h.state, List.filterMap_append,
      List.append_assoc]
  said := h'.said
  welcomed := by
    intro hor
    apply h'.welcomed
    by_cases hlater : deliverable d₁.state fs' = []
    · refine .inr (h.welcomed ?_)
      rcases hor with hdelivered | hwelcomed
      · rw [Soup.deliverable_append, ← h.state, hlater, List.append_nil] at hdelivered
        exact .inl hdelivered
      · exact .inr hwelcomed
    · exact .inl hlater

theorem answered_one (h : Said d.state (before ++ d.queued)) (pkt : Soup.Packet) :
    Answered before d [pkt] (d.answer clock pkt) where
  state := state_answer d pkt
  refusals := refusals_answer d pkt
  said := said_answer h pkt
  welcomed := by
    intro hor
    rcases hor with hdelivered | hwelcomed
    · exact welcomed_keeps h (welcomed_answer h hdelivered) pkt
    · exact welcomed_keeps h hwelcomed pkt

/-- **Run lemma.** -/
theorem answered_all (h : Said d.state (before ++ d.queued)) (fs : List Soup.Packet) :
    Answered before d fs (fs.foldl (answer clock) d) := by
  induction fs generalizing d with
  | nil => exact answered_nil h
  | cons pkt fs ih => exact (answered_one h pkt).trans (ih (said_answer h pkt))

/-- A closed session answers nothing. -/
theorem answered_closed (hclosed : d.state = .closed) (h : Said d.state (before ++ d.queued))
    (fs : List Soup.Packet) : Answered before d fs d := by
  refine ⟨by rw [hclosed, State.foldl_next_closed], by rw [hclosed, Soup.deliverable_closed]; simp,
    h, ?_⟩
  intro hor
  rw [hclosed, Soup.deliverable_closed] at hor
  exact hor.resolve_left (fun hne => hne rfl)

/-- A connection is read, in whatever pieces. -/
theorem answered_reads {p : Dialogue × List UInt8} (h : Said p.1.state (before ++ p.1.queued))
    (hsplit : p.1.state ≠ .closed → framing.split p.2 = none) (chunks : List (List UInt8)) :
    Answered before p.1 (framing.frames (p.2 ++ chunks.flatten))
      (chunks.foldl (receive clock) p).1 := by
  induction chunks generalizing p with
  | nil =>
    rw [List.flatten_nil, List.append_nil]
    by_cases hclosed : p.1.state = .closed
    · exact answered_closed hclosed h _
    · rw [Framing.frames_of_none (hsplit hclosed)]
      exact answered_nil h
  | cons data chunks ih =>
    rw [List.flatten_cons, ← List.append_assoc, Framing.frames_append]
    -- the clock is read first, which the answers do not depend on
    have hfirst : Answered before p.1 (framing.frames (p.2 ++ data)) (receive clock p data).1 := by
      have hall : Answered before { p.1 with readings := p.1.readings + 1 }
          (framing.frames (p.2 ++ data)) (receive clock p data).1 :=
        answered_all (d := { p.1 with readings := p.1.readings + 1 }) h _
      exact ⟨hall.state, hall.refusals, hall.said, hall.welcomed⟩
    exact hfirst.trans (ih hfirst.said (fun _ => Framing.split_leftover _))

end Dialogue

namespace Gateway

variable {clock : Clock} {g g₁ g' : Gateway} {id : Nat} {conn : Conn}

variable {s : ServerSession} {chunks : List (List UInt8)} {ev : Event}

/-! ## Section 3: Commands -/

/-- The commands of a connection that is read, in whatever pieces. -/
theorem Heard.toEngine_receiveAll {p : Dialogue × List UInt8} (h : Heard conn p id s g)
    (hreceive : chunks.foldlM (fun g data => g.receive clock id data) g = some g') :
    g'.backend.toEngine = g.backend.toEngine ++
      ((deliverable p.1.state (framing.frames (p.2 ++ chunks.flatten))).filterMap admitted).map
        (Command.mk id) := by
  induction chunks generalizing g p s with
  | nil =>
    cases hreceive
    have hnone : deliverable p.1.state (framing.frames p.2) = [] := by
      by_cases hclosed : s.state = .closed
      · rw [← h.state, hclosed, Soup.deliverable_closed]
      · rw [Framing.frames_of_none (h.rest hclosed).2]
        rfl
    simp [hnone]
  | cons data chunks ih =>
    obtain ⟨g₁, hone, hrest⟩ := Option.bind_eq_some_iff.mp hreceive
    obtain ⟨⟨s₁, h₁, -, -⟩, htoEngine⟩ := h.receive hone
    have hsplit : deliverable p.1.state (framing.frames (p.2 ++ (data :: chunks).flatten)) =
        deliverable p.1.state (framing.frames (p.2 ++ data)) ++
          deliverable (Dialogue.receive clock p data).1.state
            (framing.frames ((Dialogue.receive clock p data).2 ++ chunks.flatten)) := by
      rw [List.flatten_cons, ← List.append_assoc, Framing.frames_append (p.2 ++ data),
        Soup.deliverable_append, Dialogue.receive, Dialogue.state_answers]
    rw [ih h₁ hrest, htoEngine, hsplit, List.filterMap_append, List.map_append,
      List.append_assoc]

/-! ## Section 4: Handlers -/

/-- Every connection, also those that are closed, with what was queued for it. -/
structure Conversed (g : Gateway) (queued : Nat → List Outgoing) : Prop where
  said : ∀ id, Said .closed (queued id)
  stands : ∀ id conn, g.conns.lookup id = some conn → Said conn.session.state (queued id)
  /-- Of the messages delivered on it, a connection has forwarded those within the
      caps and refused the others. -/
  answered : ∀ id, ∃ fs, fs <+: framing.frames (g.received id) ∧
    g.commandsOf id = (deliverable .awaitingLogin fs).filterMap admitted ∧
    (queued id).filterMap Outgoing.refusal = (deliverable .awaitingLogin fs).filterMap refused ∧
    (deliverable .awaitingLogin fs ≠ [] → Welcomed (queued id)) ∧
    ∀ conn, g.conns.lookup id = some conn → conn.session.state ≠ .closed →
      fs = framing.frames (g.received id)

variable {queued : Nat → List Outgoing}

theorem conversed_start : Conversed {} (fun _ => []) where
  said := fun _ => .inl rfl
  stands := by
    intro id conn hconn
    cases hconn
  answered := by
    intro id
    refine ⟨[], List.nil_prefix, rfl, rfl, fun h => absurd rfl h, ?_⟩
    intro conn hconn
    cases hconn

/-- A client whose commands were forwarded has logged in. -/
theorem Conversed.welcomed (h : Conversed g queued) (hcommands : g.commandsOf id ≠ []) :
    Welcomed (queued id) := by
  obtain ⟨fs, -, hadmitted, -, hwelcomed, -⟩ := h.answered id
  apply hwelcomed
  intro hnil
  rw [hadmitted, hnil] at hcommands
  exact hcommands rfl

/-- A handler that reads nothing: it may queue heartbeats and data for clients
    that have logged in. -/
theorem Conversed.keeps (h : Conversed g queued) (hkeeps : Keeps g g') {fresh : Nat → List Outgoing}
    (hlater : ∀ id, ∀ o ∈ fresh id, o.Later ∧ o.refusal = none)
    (hwelcome : ∀ id, fresh id ≠ [] → Welcomed (queued id)) :
    Conversed g' (fun id => queued id ++ fresh id) where
  said := fun id => (h.said id).more (fun o ho => (hlater id o ho).1) (hwelcome id)
  stands := by
    intro id conn' hconn'
    obtain ⟨conn, hconn, -, hstate⟩ := hkeeps.session id conn' hconn'
    rcases hstate with hstate | hstate
    · rw [hstate]
      exact (h.stands id conn hconn).more (fun o ho => (hlater id o ho).1) (hwelcome id)
    · rw [hstate]
      exact (h.said id).more (fun o ho => (hlater id o ho).1) (hwelcome id)
  answered := by
    intro id
    obtain ⟨fs, hpart, hcommands, hrefusals, hwelcomed, hopen⟩ := h.answered id
    have hfresh : (fresh id).filterMap Outgoing.refusal = [] :=
      List.filterMap_eq_nil_iff.mpr (fun o ho => (hlater id o ho).2)
    refine ⟨fs, by rwa [hkeeps.received], ?_, ?_, ?_, ?_⟩
    · unfold commandsOf
      rw [hkeeps.toEngine]
      exact hcommands
    · rw [List.filterMap_append, hfresh, List.append_nil]
      exact hrefusals
    · exact fun hne => (hwelcomed hne).more (fun o ho => (hlater id o ho).1)
    · intro conn' hconn' hstate'
      obtain ⟨conn, hconn, -, hstate⟩ := hkeeps.session id conn' hconn'
      rw [hkeeps.received]
      rcases hstate with hstate | hstate
      · exact hopen conn hconn (hstate ▸ hstate')
      · exact absurd hstate hstate'

/-- Nothing is queued. -/
theorem Conversed.quiet (h : Conversed g queued) (hkeeps : Keeps g g') : Conversed g' queued := by
  have hall : Conversed g' (fun id => queued id ++ []) :=
    h.keeps hkeeps (by simp) (fun id hne => absurd rfl hne)
  simpa only [List.append_nil] using hall

/-- The commands that were queued under one id. -/
theorem commandsOf_append {msgs : List CommandMsg} (hqueue : g'.backend.toEngine =
    g.backend.toEngine ++ msgs.map (Command.mk id)) (i : Nat) :
    g'.commandsOf i = g.commandsOf i ++ if i = id then msgs else [] := by
  unfold commandsOf
  rw [hqueue, List.filter_append, List.map_append, List.filter_map, List.map_map]
  congr 1
  by_cases hi : i = id
  · simp [hi, Function.comp_def]
  · simp [hi, Ne.symm hi, Function.comp_def]

/-- A connection is read. -/
theorem Conversed.reads (h : Conversed g queued) (hinOrder : InOrder g)
    (hconn : g.conns.lookup id = some conn)
    (hreceive : chunks.foldlM (fun g data => g.receive clock id data) g = some g') :
    Conversed g' (fun i => queued i ++
      if i = id then (chunks.foldl (Dialogue.receive clock) (g.dialogue conn)).1.queued
        else []) := by
  have hrest : conn.session.state ≠ .closed → framing.split conn.session.parser.rest = none :=
    hinOrder.split_rest hconn
  obtain ⟨s, hheard, -, hsame⟩ := (heard_start hconn hrest).receiveAll hreceive
  have hreceived := (receiveAll_frame hconn hreceive).2
  have hsaid : Said (g.dialogue conn).1.state (queued id ++ (g.dialogue conn).1.queued) := by
    show Said conn.session.state (queued id ++ [])
    rw [List.append_nil]
    exact h.stands id conn hconn
  have hanswered : Dialogue.Answered (queued id) _
      (framing.frames (conn.session.parser.rest ++ chunks.flatten))
      (chunks.foldl (Dialogue.receive clock) (g.dialogue conn)).1 :=
      Dialogue.answered_reads hsaid hrest chunks
  have hlookup := hheard.lookup
  have hstate := hheard.state
  generalize (chunks.foldl (Dialogue.receive clock) (g.dialogue conn)).1 = d at hstate hanswered ⊢
  -- the messages that are delivered now
  obtain ⟨msgs, hmsgs⟩ : ∃ msgs, msgs = deliverable conn.session.state
      (framing.frames (conn.session.parser.rest ++ chunks.flatten)) := ⟨_, rfl⟩
  have hqueue : g'.backend.toEngine = g.backend.toEngine ++
      (msgs.filterMap admitted).map (Command.mk id) :=
    hmsgs ▸ (heard_start hconn hrest).toEngine_receiveAll hreceive
  have hrefusals' : d.queued.filterMap Outgoing.refusal = msgs.filterMap refused :=
    hmsgs ▸ hanswered.refusals
  refine ⟨fun i => ?_, fun i conn' hconn' => ?_, fun i => ?_⟩
  · by_cases hi : i = id
    · rw [if_pos hi, hi]
      exact hanswered.said.closed
    · rw [if_neg hi, List.append_nil]
      exact h.said i
  · by_cases hi : i = id
    · subst hi
      cases hlookup.symm.trans hconn'
      rw [if_pos rfl, show _ = d.state from hstate]
      exact hanswered.said
    · rw [if_neg hi, List.append_nil]
      exact h.stands i conn' ((hsame i hi).1.symm.trans hconn')
  · rw [commandsOf_append hqueue i]
    by_cases hi : i = id
    · subst hi
      rw [if_pos rfl, if_pos rfl, List.filterMap_append, hrefusals']
      obtain ⟨fs, hpart, hcommands, hrefusals, hwelcomed, hopen⟩ := h.answered i
      have hframes : framing.frames (g'.received i) = framing.frames (g.received i) ++
          framing.frames (framing.leftover (g.received i) ++ chunks.flatten) := by
        rw [hreceived, Function.update_self, Framing.frames_append]
      have hbefore : deliverable .awaitingLogin fs ≠ [] → Welcomed (queued i ++ d.queued) :=
        fun hne => hanswered.welcomed (.inr (by simpa [dialogue] using hwelcomed hne))
      by_cases hclosed : conn.session.state = .closed
      · -- a closed session drops what it reads
        rw [hclosed, Soup.deliverable_closed] at hmsgs
        rw [hmsgs, List.filterMap_nil, List.append_nil, List.filterMap_nil, List.append_nil]
        refine ⟨fs, hpart.trans (hframes ▸ List.prefix_append _ _), hcommands, hrefusals,
          hbefore, ?_⟩
        intro conn' hconn' hlive
        cases hlookup.symm.trans hconn'
        refine absurd ?_ hlive
        show s.state = .closed
        rw [hstate, hanswered.state, show (g.dialogue conn).1.state = _ from hclosed,
          State.foldl_next_closed]
      · obtain rfl := hopen conn hconn hclosed
        obtain ⟨fs', -, -, hstands⟩ := hinOrder.follows i
        obtain ⟨rfl, hrest', hstate'⟩ := hstands conn hconn hclosed
        have hdelivered : deliverable .awaitingLogin (framing.frames (g'.received i)) =
            deliverable .awaitingLogin (framing.frames (g.received i)) ++ msgs := by
          rw [hframes, Soup.deliverable_append, hmsgs, hstate', hrest']
        refine ⟨framing.frames (g'.received i), List.prefix_rfl, ?_, ?_, ?_, fun _ _ _ => rfl⟩
        · rw [hdelivered, List.filterMap_append, hcommands]
        · rw [hdelivered, List.filterMap_append, hrefusals]
        · intro hne
          by_cases hnew : msgs = []
          · rw [hdelivered, hnew, List.append_nil] at hne
            exact hbefore hne
          · exact hanswered.welcomed (.inl (hmsgs ▸ hnew))
    · rw [if_neg hi, if_neg hi, List.append_nil, List.append_nil, hreceived,
        Function.update_of_ne hi]
      simp only [(hsame i hi).1]
      exact h.answered i

theorem Conversed.handleAccept (h : Conversed g queued) (hexact : Exact g queued) (fd : Nat) :
    Conversed (g.handleAccept clock fd) queued := by
  have hlookup : ∀ {i conn}, (g.handleAccept clock fd).conns.lookup i = some conn →
      (i = g.nextClientId ∧ conn.session.state = .awaitingLogin) ∨
        g.conns.lookup i = some conn := by
    intro i conn hconn
    have hconn' : (g.conns.insert g.nextClientId _).lookup i = some conn := hconn
    by_cases hi : i = g.nextClientId
    · rw [hi, Finmap.lookup_insert] at hconn'
      cases hconn'
      exact .inl ⟨hi, rfl⟩
    · rw [Finmap.lookup_insert_of_ne _ hi] at hconn'
      exact .inr hconn'
  refine ⟨h.said, fun i conn hconn => ?_, fun i => ?_⟩
  · rcases hlookup hconn with ⟨rfl, hstate⟩ | hconn
    · rw [hstate]
      exact hexact.unopened _ (Nat.le_refl _)
    · exact h.stands i conn hconn
  · obtain ⟨fs, hpart, hcommands, hrefusals, hwelcomed, hopen⟩ := h.answered i
    refine ⟨fs, hpart, hcommands, hrefusals, hwelcomed, fun conn hconn hlive => ?_⟩
    rcases hlookup hconn with ⟨rfl, -⟩ | hconn
    · -- the new connection has received nothing
      have hreceived := (hexact.inOrder.unopened _ (Nat.le_refl g.nextClientId)).1
      show fs = framing.frames (g.received g.nextClientId)
      rw [hreceived] at hpart ⊢
      exact List.prefix_nil.mp hpart
    · exact hopen conn hconn hlive

theorem heartbeats_later {now : UInt64} :
    (∀ o ∈ heartbeats s now, o.Later ∧ o.refusal = none) ∧
      (heartbeats s now ≠ [] → s.state = .loggedIn) := by
  unfold heartbeats
  split
  · rename_i hdue
    exact ⟨by simp [Outgoing.Later, Outgoing.refusal], fun _ => hdue.1⟩
  · exact ⟨by simp, fun hne => absurd rfl hne⟩

theorem Conversed.handleReadable (h : Conversed g queued) (hexact : Exact g queued) {fd : Nat}
    {stop : ReadEnd} {send : SendResult}
    (hhandle : g.handle clock (.readable fd chunks stop send) = some g') :
    Conversed g' (fun id => queued id ++
      (Event.readable fd chunks stop send).queued clock g id) := by
  have htracked := hexact.inOrder.tracked
  simp only [Gateway.handle] at hhandle
  cases hfd : g.byFd.lookup fd with
  | none =>
    rw [hfd] at hhandle
    cases hhandle
    have hquiet : ∀ i, (Event.readable fd chunks stop send).queued clock g i = [] := by
      intro i
      apply queued_readable_ne
      intro conn hconn heq
      cases hfd.symm.trans ((htracked.byFd_iff fd i).mpr ⟨conn, hconn, heq⟩)
    simpa only [hquiet, List.append_nil] using h
  | some id =>
    rw [hfd] at hhandle
    obtain ⟨conn, hconn, hconnFd⟩ := (htracked.byFd_iff fd id).mp hfd
    obtain ⟨g₁, hchunks, hkeeps⟩ := (handleReadable_spec clock hconn chunks stop send).2 g' hhandle
    have hqueued : ∀ i, (Event.readable fd chunks stop send).queued clock g i =
        if i = id then (chunks.foldl (Dialogue.receive clock) (g.dialogue conn)).1.queued
          else [] := by
      intro i
      by_cases hi : i = id
      · subst hi
        rw [if_pos rfl, Event.queued, hconn]
        exact if_pos hconnFd
      · rw [if_neg hi]
        apply queued_readable_ne
        intro c hc heq
        exact hi (htracked.fd_inj hc hconn (heq.trans hconnFd.symm))
    simp only [hqueued]
    exact (h.reads hexact.inOrder hconn hchunks).quiet hkeeps

theorem Conversed.handleWritable (h : Conversed g queued) (hexact : Exact g queued) {fd : Nat}
    {send : SendResult} (hhandle : g.handle clock (.writable fd send) = some g') :
    Conversed g' queued := by
  simp only [Gateway.handle] at hhandle
  cases hfd : g.byFd.lookup fd with
  | none =>
    rw [hfd] at hhandle
    cases hhandle
    exact h
  | some id =>
    rw [hfd] at hhandle
    obtain ⟨conn, hconn, -⟩ := (hexact.inOrder.tracked.byFd_iff fd id).mp hfd
    obtain ⟨g₁, hflush, hflushed, -⟩ := flush_spec hconn send
    cases hflush.symm.trans hhandle
    exact h.quiet hflushed.toKeeps

/-- A response is queued for its client, if that is still connected. -/
theorem mem_queued_responses {resps : List (ClientResponse × SendResult)} {o : Outgoing}
    (ho : o ∈ (Event.responses resps).queued clock g id) :
    ∃ r ∈ resps, r.1.clientId = id ∧ o = .response r.1.msg := by
  unfold Event.queued at ho
  cases hconn : g.conns.lookup id with
  | none => simp [hconn] at ho
  | some conn =>
    simp only [hconn, List.mem_map, List.mem_filter, decide_eq_true_eq] at ho
    obtain ⟨r, ⟨hr, hid⟩, rfl⟩ := ho
    exact ⟨r, hr, hid, rfl⟩

theorem Conversed.pumpResponses (h : Conversed g queued)
    {resps : List (ClientResponse × SendResult)} (hhandle : g.pumpResponses resps = some g')
    (hresponses : ∀ r ∈ resps, Welcomed (queued r.1.clientId)) :
    Conversed g' (fun id => queued id ++ (Event.responses resps).queued clock g id) := by
  obtain ⟨g₁, hall, hkeeps⟩ := g.pumpResponses_spec resps
  cases hall.symm.trans hhandle
  refine h.keeps hkeeps (fun i o ho => ?_) (fun i hne => ?_)
  · obtain ⟨r, -, -, rfl⟩ := mem_queued_responses ho
    exact ⟨trivial, rfl⟩
  · obtain ⟨o, ho⟩ := List.exists_mem_of_ne_nil _ hne
    obtain ⟨r, hr, rfl, -⟩ := mem_queued_responses ho
    exact hresponses r hr

theorem Conversed.tickSessions (h : Conversed g queued) {order : List (Nat × SendResult)}
    (hpossible : (Event.tick order).Possible g) (hhandle : g.tickSessions clock order = some g') :
    Conversed g' (fun id => queued id ++ (Event.tick order).queued clock g id) := by
  have hkeeps := (tickSessions_spec clock g hpossible).2 g' hhandle
  have hqueued : ∀ {i}, (Event.tick order).queued clock g i ≠ [] → ∃ conn, g.conns.lookup i =
      some conn := by
    intro i hne
    cases hconn : g.conns.lookup i with
    | none => exact absurd (queued_of_none hconn _) hne
    | some conn => exact ⟨conn, rfl⟩
  refine h.keeps hkeeps (fun i o ho => ?_) (fun i hne => ?_)
  · obtain ⟨conn, hconn⟩ := hqueued (List.ne_nil_of_mem ho)
    rw [Event.queued, hconn] at ho
    exact heartbeats_later.1 o ho
  · obtain ⟨conn, hconn⟩ := hqueued hne
    rw [Event.queued, hconn] at hne
    have hsaid := h.stands i conn hconn
    rwa [heartbeats_later.2 hne] at hsaid

/-- **Step lemma.** The engine responds to clients that have logged in. -/
theorem Conversed.handle (h : Conversed g queued) (hexact : Exact g queued)
    (hpossible : ev.Possible g) (hhandle : g.handle clock ev = some g')
    (hresponses : ∀ resps, ev = .responses resps → ∀ r ∈ resps, Welcomed (queued r.1.clientId)) :
    Conversed g' (fun id => queued id ++ ev.queued clock g id) := by
  cases ev with
  | accept fd =>
    cases hhandle
    have hquiet : ∀ i, (Event.accept fd).queued clock g i = [] :=
      fun i => queued_quiet (.inl ⟨fd, rfl⟩)
    simp only [hquiet, List.append_nil]
    exact h.handleAccept hexact fd
  | readable fd chunks stop send => exact h.handleReadable hexact hhandle
  | writable fd send =>
    have hquiet : ∀ i, (Event.writable fd send).queued clock g i = [] :=
      fun i => queued_quiet (.inr ⟨fd, send, rfl⟩)
    simp only [hquiet, List.append_nil]
    exact h.handleWritable hexact hhandle
  | responses resps => exact h.pumpResponses hhandle (hresponses resps rfl)
  | tick order => exact h.tickSessions hpossible hhandle

/-! ## Section 5: What a handler leaves to the engine -/

/-- Commands are only added to the queue. -/
theorem InOrder.toEngine_handle (h : InOrder g) (hpossible : ev.Possible g)
    (hhandle : g.handle clock ev = some g') : g.backend.toEngine <+: g'.backend.toEngine := by
  rcases h.tracked.handle_cases clock hpossible hhandle with
    ⟨fd, -, rfl⟩ | hkeeps | ⟨id, conn, chunks, g₁, hconn, hchunks, hkeeps⟩
  · exact List.prefix_rfl
  · rw [hkeeps.toEngine]
  · rw [hkeeps.toEngine, (heard_start hconn (h.split_rest hconn)).toEngine_receiveAll hchunks]
    exact List.prefix_append _ _

/-- Only `accept` opens a connection. -/
theorem InOrder.lookup_handle (h : InOrder g) (hpossible : ev.Possible g)
    (hhandle : g.handle clock ev = some g') (hconn : g'.conns.lookup id = some conn) :
    ((∃ fd, ev = .accept fd) ∧ id = g.nextClientId) ∨ ∃ conn', g.conns.lookup id = some conn' := by
  cases hlookup : g.conns.lookup id with
  | some conn' => exact .inr ⟨conn', rfl⟩
  | none =>
    left
    by_contra hno
    have hnew : ∀ fd, ev = .accept fd → id ≠ g.nextClientId :=
      fun fd hev hid => hno ⟨⟨fd, hev⟩, hid⟩
    have hsame := (h.progress hpossible hhandle hnew).closed hlookup
    cases (hsame.1.trans hlookup).symm.trans hconn

/-- Only `pump_responses` sends what the engine says. -/
theorem fromEngine_queued (hev : ∀ resps, ev ≠ .responses resps) (id : Nat) :
    (ev.queued clock g id).filterMap Outgoing.fromEngine = [] := by
  unfold Event.queued
  cases hconn : g.conns.lookup id with
  | none => rfl
  | some conn =>
    cases ev with
    | accept fd => rfl
    | writable fd send => rfl
    | responses resps => exact absurd rfl (hev resps)
    | tick order =>
      dsimp only
      unfold heartbeats
      split <;> rfl
    | readable fd chunks stop send =>
      dsimp only
      split
      · exact Dialogue.fromEngine_reads _ _
      · rfl

/-- Nothing is sent that was not queued. -/
theorem Settled.sent_part {packets : List Outgoing} (h : Settled g id packets) :
    g.sent id <+: packets.flatMap Outgoing.bytes := by
  cases hconn : g.conns.lookup id with
  | none => exact h.closed hconn
  | some conn => exact (h.opened conn hconn).1 ▸ List.prefix_append _ _

end Gateway

end MatchingEngine
