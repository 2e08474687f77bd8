import MatchingEngine.Soup.Lifecycle

/-! # Heartbeats

    `tick` sends a heartbeat one second after `last_send_ns_`, which is the time of
    the session's creation or of its last heartbeat. The other operations that queue
    a packet do not know the time and leave it alone. A heartbeat therefore marks a
    second without heartbeats, which need not be a second of silence.

    The time of a call without a time is that of the latest call that has one.
-/

namespace MatchingEngine

namespace Soup

/-! ## Section 1: What a run queues -/

/-- A packet that was queued. -/
structure Queued where
  time : UInt64
  heartbeat : Bool
  deriving DecidableEq, Repr

namespace Action

def time : Action → Option UInt64
  | .call (.onBytes _ now) => some now
  | .call (.tick now) => some now
  | .call (.reply _) | .call .takeOutput | .handlerReturns => none

def isTick : Action → Bool
  | .call (.tick _) => true
  | _ => false

end Action

/-- The time after some actions. -/
def clock (now : UInt64) (acts : List Action) : UInt64 :=
  acts.foldl (fun now a => a.time.getD now) now

theorem clock_mem (now : UInt64) (acts : List Action) :
    clock now acts ∈ now :: acts.filterMap Action.time := by
  induction acts generalizing now with
  | nil => exact List.mem_singleton_self now
  | cons a acts ih =>
    have hrest := ih (a.time.getD now)
    cases htime : a.time with
    | none =>
      rw [htime] at hrest
      rw [List.filterMap_cons_none htime, clock, List.foldl_cons, htime]
      exact hrest
    | some at' =>
      rw [htime] at hrest
      rw [List.filterMap_cons_some htime, clock, List.foldl_cons, htime]
      exact List.mem_cons_of_mem now hrest

namespace Running

/-- An action queues a packet when the output grows. All that a tick queues are
    heartbeats. -/
def queued (r r' : Running) (now : UInt64) (a : Action) : List Queued :=
  if r.session.out.length < r'.session.out.length then [⟨now, a.isTick⟩] else []

/-- The packets that some actions queue. -/
def sends (r : Running) (now : UInt64) : List Action → List Queued
  | [] => []
  | a :: acts =>
    match r.step a with
    | none => []
    | some (r', _) =>
      r.queued r' (a.time.getD now) a ++ r'.sends (a.time.getD now) acts

end Running

/-! ## Section 2: The time of the last heartbeat -/

namespace ServerSession

/-- The time of the last heartbeat is kept, and nobody is logged in. -/
def Keeps (s t : ServerSession) : Prop :=
  t.lastSendNs = s.lastSendNs ∧ (t.state = .loggedIn → s.state = .loggedIn)

theorem keeps_onPacket {s t : ServerSession} (h : s.Keeps t) (pkt : Packet) :
    s.Keeps (t.onPacket pkt).1 := by
  have hclosed : State.closed ≠ .loggedIn := by decide
  rcases t.onPacket_cases pkt with heq | heq | heq
  · rw [heq]
    exact h
  · rw [heq]
    exact ⟨h.1, fun hstate => absurd hstate hclosed⟩
  · rw [heq]
    exact ⟨h.1, fun hstate => absurd hstate hclosed⟩

theorem keeps_pump {s t : ServerSession} (h : s.Keeps t) : s.Keeps t.pump.1 := by
  apply pump_induct (P := s.Keeps) _ _ h
  · intro t q h
    exact h
  · intro t pkt h
    exact keeps_onPacket h pkt

theorem keeps_onBytes (s : ServerSession) (data : List UInt8) (now : UInt64) :
    s.Keeps (s.onBytes data now).1 := by
  unfold onBytes
  split
  · exact ⟨rfl, id⟩
  · exact keeps_pump ⟨rfl, id⟩

theorem keeps_resume (s : ServerSession) (c : Callback) : s.Keeps (s.resume c).1 := by
  have hgoes : s.Keeps (if s.state = .closed then (s, none) else s.pump).1 := by
    split
    · exact ⟨rfl, id⟩
    · exact keeps_pump ⟨rfl, id⟩
  cases c with
  | loginRequest req => exact hgoes
  | unsequenced payload => exact hgoes
  | logout => exact ⟨rfl, id⟩
  | timeout => exact ⟨rfl, id⟩

/-- A tick sends a heartbeat and keeps its time, or sends nothing. -/
theorem tick_cases (s : ServerSession) (now : UInt64) :
    (s.tick now).1 = { s.queue kServerHeartbeat [] with lastSendNs := now } ∨
      s.Keeps (s.tick now).1 ∧ (s.tick now).1.out = s.out := by
  unfold tick
  split
  · exact .inr ⟨⟨rfl, id⟩, rfl⟩
  · split
    · exact .inr ⟨⟨rfl, fun hclosed => absurd hclosed
        (show State.closed ≠ .loggedIn by decide)⟩, rfl⟩
    · split
      · exact .inl rfl
      · exact .inr ⟨⟨rfl, id⟩, rfl⟩

theorem length_queue (s : ServerSession) (type : UInt8) (payload : List UInt8) :
    s.out.length < (s.queue type payload).out.length := by
  simp [queue, packet]

theorem lastSendNs_reply (s : ServerSession) (rep : Reply) :
    (s.reply rep).lastSendNs = s.lastSendNs := by
  cases rep with
  | acceptLogin session nextSeq => rfl
  | rejectLogin reason => rfl
  | sendSequenced payload => rfl
  | sendEndOfSession => rfl

theorem length_reply (s : ServerSession) (rep : Reply) :
    s.out.length < (s.reply rep).out.length := by
  cases rep with
  | acceptLogin session nextSeq => exact s.length_queue _ _
  | rejectLogin reason => exact s.length_queue _ _
  | sendSequenced payload => exact s.length_queue _ _
  | sendEndOfSession => exact s.length_queue _ _

end ServerSession

namespace Running

/-- Between the times `now` and `till` a session queued the packets `qs`: what is
    then known of the time of the last heartbeat. -/
structure Tracks (r r' : Running) (now till : UInt64) (qs : List Queued) : Prop where
  le_last : r.session.lastSendNs ≤ r'.session.lastSendNs
  last_le : r'.session.lastSendNs ≤ till
  last : r'.session.lastSendNs = r.session.lastSendNs ∨ ⟨r'.session.lastSendNs, true⟩ ∈ qs
  since : ∀ q ∈ qs, now ≤ q.time
  beats : ∀ q ∈ qs, q.heartbeat = true → q.time ≤ r'.session.lastSendNs
  loggedIn : r'.session.state = .loggedIn → r.session.state = .loggedIn ∨ qs ≠ []

variable {r r' r'' : Running} {now now' till : UInt64}

theorem Tracks.trans {qs qs' : List Queued} (h : Tracks r r' now now' qs) (hnow : now ≤ now')
    (h' : Tracks r' r'' now' till qs') : Tracks r r'' now till (qs ++ qs') where
  le_last := UInt64.le_trans h.le_last h'.le_last
  last_le := h'.last_le
  last := by
    rcases h'.last with hsame | hlater
    · rw [hsame]
      exact h.last.imp_right (List.mem_append_left qs')
    · exact .inr (List.mem_append_right qs hlater)
  since q hq := by
    rcases List.mem_append.mp hq with hq | hq
    · exact h.since q hq
    · exact UInt64.le_trans hnow (h'.since q hq)
  beats q hq hbeat := by
    rcases List.mem_append.mp hq with hq | hq
    · exact UInt64.le_trans (h.beats q hq hbeat) h'.le_last
    · exact h'.beats q hq hbeat
  loggedIn hstate := by
    rcases h'.loggedIn hstate with hbefore | hsent
    · exact (h.loggedIn hbefore).imp_right (fun hne => List.append_ne_nil_of_left_ne_nil hne qs')
    · exact .inr (List.append_ne_nil_of_right_ne_nil qs hsent)

/-- An action that keeps the time. -/
theorem Tracks.of_kept {qs : List Queued} (hlast : r'.session.lastSendNs = r.session.lastSendNs)
    (hsent : r.session.lastSendNs ≤ now') (hqs : ∀ q ∈ qs, now ≤ q.time ∧ q.heartbeat = false)
    (hstate : r'.session.state = .loggedIn → r.session.state = .loggedIn ∨ qs ≠ []) :
    Tracks r r' now now' qs where
  le_last := by rw [hlast]; exact UInt64.le_refl _
  last_le := by rw [hlast]; exact hsent
  last := .inl hlast
  since q hq := (hqs q hq).1
  beats q hq hbeat := absurd hbeat (by rw [(hqs q hq).2]; decide)
  loggedIn := hstate

theorem mem_queued {a : Action} {q : Queued} (h : q ∈ r.queued r' now a) :
    q.time = now ∧ q.heartbeat = a.isTick := by
  unfold queued at h
  split at h
  · rw [List.mem_singleton.mp h]
    exact ⟨rfl, rfl⟩
  · cases h

theorem queued_of_lt {a : Action} (h : r.session.out.length < r'.session.out.length) :
    r.queued r' now a = [⟨now, a.isTick⟩] := if_pos h

/-- One action. -/
theorem tracks_step {a : Action} {o : Option Callback} (hstep : r.step a = some (r', o))
    (hsent : r.session.lastSendNs ≤ now) (hnow : now ≤ a.time.getD now) :
    Tracks r r' now (a.time.getD now) (r.queued r' (a.time.getD now) a) := by
  have htill := UInt64.le_trans hsent hnow
  have hqueued : a.isTick = false →
      ∀ q ∈ r.queued r' (a.time.getD now) a, now ≤ q.time ∧ q.heartbeat = false := by
    intro htick q hq
    obtain ⟨htime, hbeat⟩ := mem_queued hq
    exact ⟨htime ▸ hnow, hbeat.trans htick⟩
  cases a with
  | handlerReturns =>
    match hhandlers : r.handlers with
    | [] => simp [step, hhandlers] at hstep
    | c :: handlers =>
      simp only [step, hhandlers] at hstep
      cases hstep
      obtain ⟨hlast, hstate⟩ := r.session.keeps_resume c
      exact .of_kept hlast htill (hqueued rfl) (fun h => .inl (hstate h))
  | call c =>
    cases hstep
    cases c with
    | onBytes data at' =>
      obtain ⟨hlast, hstate⟩ := r.session.keeps_onBytes data at'
      exact .of_kept hlast htill (hqueued rfl) (fun h => .inl (hstate h))
    | takeOutput => exact .of_kept rfl htill (hqueued rfl) .inl
    | reply rep =>
      -- every reply queues a packet
      refine .of_kept (r.session.lastSendNs_reply rep) htill (hqueued rfl) (fun _ => .inr ?_)
      rw [queued_of_lt (r.session.length_reply rep)]
      exact List.cons_ne_nil _ _
    | tick at' =>
      rcases r.session.tick_cases at' with hbeat | ⟨⟨hlast, hstate⟩, hout⟩
      · -- the one action that moves the time of the last heartbeat
        have hlast : (r.session.tick at').1.lastSendNs = at' := by rw [hbeat]
        have hlength : r.session.out.length < (r.session.tick at').1.out.length := by
          rw [hbeat]
          exact r.session.length_queue _ _
        rw [queued_of_lt hlength]
        exact {
          le_last := hlast.symm ▸ htill
          last_le := hlast.symm ▸ UInt64.le_refl at'
          last := .inr (hlast.symm ▸ List.mem_singleton_self (Queued.mk at' true))
          since := fun q hq => by
            rw [List.mem_singleton.mp hq]
            exact hnow
          beats := fun q hq _ => by
            rw [List.mem_singleton.mp hq]
            exact hlast.symm ▸ UInt64.le_refl at'
          loggedIn := fun _ => .inr (List.cons_ne_nil _ _) }
      · refine .of_kept hlast htill ?_ (fun h => .inl (hstate h))
        intro q hq
        rw [queued, if_neg] at hq
        · cases hq
        · show ¬ r.session.out.length < (r.session.tick at').1.out.length
          rw [hout]
          exact Nat.lt_irrefl _

/-- The actions of a run whose times do not decrease. -/
theorem tracks_run {acts : List Action} {outs : List (Option Callback)}
    (hrun : Machine.run step r acts = some (r', outs)) (hsent : r.session.lastSendNs ≤ now)
    (htimes : (now :: acts.filterMap Action.time).Pairwise (· ≤ ·)) :
    Tracks r r' now (clock now acts) (r.sends now acts) := by
  induction acts generalizing r now outs with
  | nil =>
    cases hrun
    exact .of_kept rfl hsent (by simp [sends]) .inl
  | cons a acts ih =>
    obtain ⟨⟨r₁, o⟩, hstep, hrest⟩ := Option.bind_eq_some_iff.mp hrun
    obtain ⟨⟨r₂, os⟩, hrun₁, hlast⟩ := Option.bind_eq_some_iff.mp hrest
    cases hlast
    have hsends : r.sends now (a :: acts) =
        r.queued r₁ (a.time.getD now) a ++ r₁.sends (a.time.getD now) acts := by
      rw [sends, hstep]
    -- the times go on from the time of the action
    obtain ⟨hnow, hlater⟩ : now ≤ a.time.getD now ∧
        (a.time.getD now :: acts.filterMap Action.time).Pairwise (· ≤ ·) := by
      cases htime : a.time with
      | none =>
        rw [List.filterMap_cons_none htime] at htimes
        exact ⟨UInt64.le_refl now, htimes⟩
      | some at' =>
        rw [List.filterMap_cons_some htime] at htimes
        obtain ⟨hfirst, hpairs⟩ := List.pairwise_cons.mp htimes
        exact ⟨hfirst at' List.mem_cons_self, hpairs⟩
    have hone := tracks_step hstep hsent hnow
    rw [hsends]
    exact hone.trans hnow (ih hrun₁ hone.last_le hlater)

end Running

/-! ## Section 3: Heartbeats and silence -/

/-- A tick at `t` queues a heartbeat. -/
def Beats (s : ServerSession) (t : UInt64) : Prop :=
  (s.tick t).1.out = s.out ++ packet kServerHeartbeat []

/-- None of the packets was queued later than an interval before `t`. -/
def SilentAt (qs : List Queued) (t : UInt64) : Prop :=
  ∀ q ∈ qs, q.time.toNat + kHeartbeatIntervalNs.toNat ≤ t.toNat

/-- The packets of a session created at `created`. -/
def sent (created : UInt64) (acts : List Action) : List Queued :=
  Running.sends { session := .new created } created acts

theorem le_sub_iff {last t d : UInt64} (h : last ≤ t) :
    t - last ≥ d ↔ last.toNat + d.toNat ≤ t.toNat := by
  rw [ge_iff_le, UInt64.le_iff_toNat_le, UInt64.toNat_sub_of_le _ _ h]
  have hle := UInt64.le_iff_toNat_le.mp h
  omega

theorem beats_iff {s : ServerSession} {t : UInt64} (hstate : s.state = .loggedIn)
    (halive : (s.tick t).2 = none) : Beats s t ↔ t - s.lastSendNs ≥ kHeartbeatIntervalNs := by
  have hopen : s.state ≠ .closed := by rw [hstate]; decide
  have hintime : ¬ t - s.lastRecvNs ≥ kSessionTimeoutNs := by
    intro hlate
    rw [ServerSession.tick, if_neg hopen, if_pos hlate] at halive
    cases halive
  unfold Beats ServerSession.tick
  rw [if_neg hopen, if_neg hintime]
  by_cases hdue : t - s.lastSendNs ≥ kHeartbeatIntervalNs
  · rw [if_pos ⟨hstate, hdue⟩]
    exact iff_of_true rfl hdue
  · rw [if_neg (fun h => hdue h.2)]
    refine iff_of_false ?_ hdue
    intro hsame
    have hlength := congrArg List.length hsame
    simp [packet] at hlength

/-- **When heartbeats mark silence.** A session is used in any way, at times that do
    not decrease. A tick at `t` finds it logged in and not timed out.

    If no packet was queued later than one interval before `t`, the tick queues a
    heartbeat. The converse fails in one situation: the session and its last heartbeat
    are at least an interval old, and something else was queued less than an interval
    ago. -/
theorem heartbeat_marks_silence_iff (created t : UInt64) (acts : List Action) {r : Running}
    {outs : List (Option Callback)} (hrun : Running.run created acts = some (r, outs))
    (htimes : (created :: acts.filterMap Action.time ++ [t]).Pairwise (· ≤ ·))
    (hstate : r.session.state = .loggedIn) (halive : (r.session.tick t).2 = none) :
    (SilentAt (sent created acts) t → Beats r.session t) ∧
      ((Beats r.session t ↔ SilentAt (sent created acts) t) ↔
        ¬ (created.toNat + kHeartbeatIntervalNs.toNat ≤ t.toNat ∧
          SilentAt ((sent created acts).filter (·.heartbeat)) t ∧
          ∃ q ∈ sent created acts, q.heartbeat = false ∧
            t.toNat < q.time.toNat + kHeartbeatIntervalNs.toNat)) := by
  obtain ⟨hsorted, -, hbefore⟩ := List.pairwise_append.mp htimes
  have htracks := Running.tracks_run hrun (UInt64.le_refl created) hsorted
  -- the last heartbeat, or the creation, is in the past
  have hpast : r.session.lastSendNs ≤ t :=
    UInt64.le_trans htracks.last_le
      (hbefore _ (clock_mem created acts) t (List.mem_singleton_self t))
  -- the subtraction of the two times does not wrap
  have hbeats : Beats r.session t ↔
      r.session.lastSendNs.toNat + kHeartbeatIntervalNs.toNat ≤ t.toNat :=
    (beats_iff hstate halive).trans (le_sub_iff hpast)
  have hdue : r.session.lastSendNs.toNat + kHeartbeatIntervalNs.toNat ≤ t.toNat ↔
      created.toNat + kHeartbeatIntervalNs.toNat ≤ t.toNat ∧
        SilentAt ((sent created acts).filter (·.heartbeat)) t := by
    constructor
    · intro hold
      have hcreated := UInt64.le_iff_toNat_le.mp htracks.le_last
      refine ⟨Nat.le_trans (Nat.add_le_add_right hcreated _) hold, fun q hq => ?_⟩
      obtain ⟨hmem, hbeat⟩ := List.mem_filter.mp hq
      have hle := UInt64.le_iff_toNat_le.mp (htracks.beats q hmem hbeat)
      exact Nat.le_trans (Nat.add_le_add_right hle _) hold
    · rintro ⟨hcreated, hquiet⟩
      rcases htracks.last with hlast | hlast
      · rw [hlast]
        exact hcreated
      · exact hquiet _ (List.mem_filter.mpr ⟨hlast, rfl⟩)
  have hsilent : SilentAt (sent created acts) t → Beats r.session t := by
    intro hquiet
    rw [hbeats, hdue]
    refine ⟨?_, fun q hq => hquiet q (List.mem_of_mem_filter hq)⟩
    -- a session that is logged in has sent a packet since it was created
    rcases htracks.loggedIn hstate with hnew | hsome
    · cases hnew
    · obtain ⟨q, hq⟩ := List.exists_mem_of_ne_nil _ hsome
      have hsince := UInt64.le_iff_toNat_le.mp (htracks.since q hq)
      exact Nat.le_trans (Nat.add_le_add_right hsince _) (hquiet q hq)
  refine ⟨hsilent, ?_⟩
  rw [hbeats, hdue] at hsilent ⊢
  constructor
  · rintro hrule ⟨hcreated, hquiet, q, hq, -, hlate⟩
    exact Nat.not_lt_of_le (hrule.mp ⟨hcreated, hquiet⟩ q hq) hlate
  · intro hnone
    refine ⟨fun hboth q hq => ?_, hsilent⟩
    by_contra hlate
    -- a late packet is another heartbeat, or one that the timer has not seen
    cases hbeat : q.heartbeat with
    | true => exact hlate (hboth.2 q (List.mem_filter.mpr ⟨hq, hbeat⟩))
    | false => exact hnone ⟨hboth.1, hboth.2, q, hq, hbeat, Nat.lt_of_not_le hlate⟩

/-- A login that arrives one second after the session was created. -/
def lateLogin : List Action :=
  [.call (.onBytes (packet kLoginRequest (List.replicate 46 (ch ' '))) kHeartbeatIntervalNs),
    .call (.reply (.acceptLogin [] 1)), .handlerReturns]

theorem run_lateLogin :
    ∃ r outs, Running.run 0 lateLogin = some (r, outs) ∧ r.session.state = .loggedIn ∧
      r.session.lastSendNs = 0 ∧ r.session.lastRecvNs = kHeartbeatIntervalNs := by
  have hrun : (Running.run 0 lateLogin).map (fun r =>
      (r.1.session.state, r.1.session.lastSendNs, r.1.session.lastRecvNs)) =
        some (.loggedIn, 0, kHeartbeatIntervalNs) := by
    decide
  obtain ⟨⟨r, outs⟩, hr, hfields⟩ := Option.map_eq_some_iff.mp hrun
  simp only [Prod.mk.injEq] at hfields
  exact ⟨r, outs, hr, hfields⟩

theorem sent_lateLogin : sent 0 lateLogin = [⟨kHeartbeatIntervalNs, false⟩] := by decide

theorem tick_of_loggedIn {s : ServerSession} {t : UInt64} (hstate : s.state = .loggedIn)
    (h : ¬ t - s.lastRecvNs ≥ kSessionTimeoutNs) : (s.tick t).2 = none := by
  unfold ServerSession.tick
  rw [if_neg (by rw [hstate]; decide), if_neg h]
  split <;> rfl

/-- After one second of silence there is a heartbeat. -/
theorem heartbeat_marks_silence_iff_idle :
    ∃ r outs, Running.run 0 lateLogin = some (r, outs) ∧
      Beats r.session (2 * kHeartbeatIntervalNs) := by
  obtain ⟨r, outs, hrun, hstate, -, hrecv⟩ := run_lateLogin
  have halive : (r.session.tick (2 * kHeartbeatIntervalNs)).2 = none :=
    tick_of_loggedIn hstate (by rw [hrecv]; decide)
  refine ⟨r, outs, hrun, ?_⟩
  apply (heartbeat_marks_silence_iff 0 (2 * kHeartbeatIntervalNs) lateLogin hrun (by decide) hstate
    halive).1
  rw [sent_lateLogin]
  intro q hq
  rw [List.mem_singleton.mp hq]
  decide

/-- A login is accepted one second after the session was created. A tick one
    nanosecond later queues a heartbeat. -/
theorem heartbeat_after_login :
    ∃ r outs, Running.run 0 lateLogin = some (r, outs) ∧
      (0 :: lateLogin.filterMap Action.time ++ [kHeartbeatIntervalNs + 1]).Pairwise (· ≤ ·) ∧
      r.session.state = .loggedIn ∧ (r.session.tick (kHeartbeatIntervalNs + 1)).2 = none ∧
      Beats r.session (kHeartbeatIntervalNs + 1) ∧
      ¬ SilentAt (sent 0 lateLogin) (kHeartbeatIntervalNs + 1) := by
  obtain ⟨r, outs, hrun, hstate, hsend, hrecv⟩ := run_lateLogin
  have halive : (r.session.tick (kHeartbeatIntervalNs + 1)).2 = none :=
    tick_of_loggedIn hstate (by rw [hrecv]; decide)
  refine ⟨r, outs, hrun, by decide, hstate, halive, ?_, ?_⟩
  · rw [beats_iff hstate halive, hsend]
    decide
  · rw [sent_lateLogin]
    intro hsilent
    exact absurd (hsilent _ (List.mem_singleton_self _)) (by decide)

end Soup

end MatchingEngine
