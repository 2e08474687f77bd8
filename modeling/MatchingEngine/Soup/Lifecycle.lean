import MatchingEngine.Soup.Session
import MatchingEngine.Lib.Machine

/-! # How a session ends

    Two results about the end of a session.

    * Section 1: sessions under any sequence of public calls, made by the owner
      of the session or by its listener inside a callback. A closed session stays
      closed as long as nobody accepts a login on it: `accept_login` is the one
      call that does not look at the state.
    * Section 2: sessions over days. `ns_since_midnight` starts again at 0 every
      day, and `tick` subtracts two of its readings modulo 2^64. A tick on the
      next day finds any silence too long.
-/

namespace MatchingEngine

namespace Soup

/-! ## Section 1: Closed sessions -/

/-- A public call of `ServerSession`. -/
inductive Call where
  | onBytes (data : List UInt8) (now : UInt64)
  | tick (now : UInt64)
  | reply (r : Reply)
  | takeOutput
  deriving DecidableEq, Repr

def ServerSession.call (s : ServerSession) : Call → ServerSession × Option Callback
  | .onBytes data now => s.onBytes data now
  | .tick now => s.tick now
  | .reply r => (s.reply r, none)
  | .takeOutput => (s.takeOutput.2, none)

/-- A session and the callbacks whose handlers are running, the innermost first. -/
structure Running where
  session : ServerSession
  handlers : List Callback := []

/-- A call comes from the owner or from the handler that is running. -/
inductive Action where
  | call (c : Call)
  | handlerReturns
  deriving DecidableEq, Repr

/-- One action, and the callback it makes. -/
def Running.step (r : Running) : Action → Option (Running × Option Callback)
  | .call c => some (⟨(r.session.call c).1, (r.session.call c).2.toList ++ r.handlers⟩,
      (r.session.call c).2)
  | .handlerReturns =>
    match r.handlers with
    | [] => none
    | c :: handlers => some (⟨(r.session.resume c).1, (r.session.resume c).2.toList ++ handlers⟩,
        (r.session.resume c).2)

/-- The actions `acts` on a session created at `now`. -/
def Running.run (now : UInt64) (acts : List Action) : Option (Running × List (Option Callback)) :=
  Machine.run Running.step { session := .new now } acts

namespace ServerSession

variable {s : ServerSession}

theorem resume_closed (h : s.state = .closed) (c : Callback) : s.resume c = (s, none) := by
  cases c with
  | loginRequest req => exact if_pos h
  | unsequenced payload => exact if_pos h
  | logout => rfl
  | timeout => rfl

/-- Every call but `accept_login` leaves a closed session closed and silent. -/
theorem call_closed (h : s.state = .closed) {c : Call}
    (hc : ∀ session nextSeq, c ≠ .reply (.acceptLogin session nextSeq)) :
    (s.call c).1.state = .closed ∧ (s.call c).2 = none := by
  cases c with
  | onBytes data now =>
    have hcall : s.call (.onBytes data now) = (s, none) := if_pos h
    rw [hcall]
    exact ⟨h, rfl⟩
  | tick now =>
    have hcall : s.call (.tick now) = (s, none) := if_pos h
    rw [hcall]
    exact ⟨h, rfl⟩
  | takeOutput => exact ⟨h, rfl⟩
  | reply r =>
    cases r with
    | acceptLogin session nextSeq => exact absurd rfl (hc session nextSeq)
    | rejectLogin reason => exact ⟨rfl, rfl⟩
    | sendSequenced payload => exact ⟨h, rfl⟩
    | sendEndOfSession => exact ⟨h, rfl⟩

end ServerSession

theorem Running.step_closed {r r' : Running} {o : Option Callback} {a : Action}
    (hstep : r.step a = some (r', o)) (h : r.session.state = .closed)
    (ha : ∀ session nextSeq, a ≠ .call (.reply (.acceptLogin session nextSeq))) :
    r'.session.state = .closed ∧ o = none := by
  cases a with
  | call c =>
    cases hstep
    exact ServerSession.call_closed h (fun session nextSeq hc => ha session nextSeq (hc ▸ rfl))
  | handlerReturns =>
    match hhandlers : r.handlers with
    | [] => simp [step, hhandlers] at hstep
    | c :: handlers =>
      simp only [step, hhandlers, ServerSession.resume_closed h] at hstep
      cases hstep
      exact ⟨h, rfl⟩

/-- Whether a login is accepted on a closed session at some point of a run. -/
def AcceptsClosed (now : UInt64) (acts : List Action) : Prop :=
  ∃ before session nextSeq after r outs,
    acts = before ++ .call (.reply (.acceptLogin session nextSeq)) :: after ∧
    Running.run now before = some (r, outs) ∧ r.session.state = .closed

/-- From every point of a run where the session is closed, it is closed at every
    later point and no callback is made on the way. -/
def StaysClosed (now : UInt64) (acts : List Action) : Prop :=
  ∀ before later after r outs r' outs', acts = before ++ later ++ after →
    Running.run now before = some (r, outs) → r.session.state = .closed →
    Machine.run Running.step r later = some (r', outs') →
    r'.session.state = .closed ∧ ∀ o ∈ outs', o = none

/-- A closed session stays closed exactly in the runs that accept no login on
    it. -/
theorem closed_stays_closed_iff (now : UInt64) (acts : List Action) :
    StaysClosed now acts ↔ ¬ AcceptsClosed now acts := by
  constructor
  · rintro hstays ⟨before, session, nextSeq, after, r, outs, hacts, hrun, hclosed⟩
    have hacts' : acts = before ++ [.call (.reply (.acceptLogin session nextSeq))] ++ after := by
      rw [hacts, List.append_assoc, List.singleton_append]
    have hopen := (hstays before _ after r outs _ _ hacts' hrun hclosed rfl).1
    exact (show State.loggedIn ≠ .closed by decide) hopen
  · intro hnever before later after r outs r' outs' hacts hrun hclosed hlater
    induction later generalizing before r outs r' outs' with
    | nil =>
      cases hlater
      exact ⟨hclosed, by simp⟩
    | cons a later ih =>
      obtain ⟨⟨r₁, o⟩, hstep, hlater⟩ := Option.bind_eq_some_iff.mp hlater
      obtain ⟨⟨r₂, outs₂⟩, hrun₂, hlater⟩ := Option.bind_eq_some_iff.mp hlater
      cases hlater
      have ha : ∀ session nextSeq, a ≠ .call (.reply (.acceptLogin session nextSeq)) := by
        rintro session nextSeq rfl
        exact hnever ⟨before, session, nextSeq, later ++ after, r, outs, by simp [hacts],
          hrun, hclosed⟩
      obtain ⟨hclosed₁, rfl⟩ := Running.step_closed hstep hclosed ha
      have hone : Machine.run Running.step r [a] = some (r₁, [none]) := by
        simp [Machine.run, hstep]
      have hrun₁ : Running.run now (before ++ [a]) = some (r₁, outs ++ [none]) := by
        unfold Running.run at hrun ⊢
        rw [Machine.run_append, hrun, Option.bind_some, hone]
        rfl
      obtain ⟨hlast, hsilent⟩ := ih (before ++ [a]) r₁ _ _ _ (by simp [hacts]) hrun₁ hclosed₁ hrun₂
      exact ⟨hlast, by simpa using hsilent⟩

/-- A login, 15 seconds of silence, and then the decision to accept the login.
    The closed session is open again and delivers data. -/
def lateAccept : List Action :=
  [.call (.onBytes (packet kLoginRequest (List.replicate 46 (ch ' '))) 0), .handlerReturns,
    .call (.tick kSessionTimeoutNs), .handlerReturns,
    .call (.reply (.acceptLogin [] 1)),
    .call (.onBytes (packet kUnsequenced [ch 'x']) kSessionTimeoutNs)]

theorem closed_session_reopened :
    ¬ StaysClosed 0 lateAccept ∧
      (Running.run 0 lateAccept).map (fun r => r.2.getLast?) =
        some (some (some (.unsequenced [ch 'x']))) := by
  refine ⟨?_, by decide⟩
  intro hstays
  have hclosed : (Running.run 0 (lateAccept.take 4)).map (fun r => r.1.session.state) =
      some .closed := by
    decide
  have hopen : (Running.run 0 (lateAccept.take 4 ++ lateAccept.drop 4)).map
      (fun r => r.1.session.state) = some .loggedIn := by
    decide
  obtain ⟨⟨r, outs⟩, hrun, hstate⟩ := Option.map_eq_some_iff.mp hclosed
  obtain ⟨⟨r', outs'⟩, hrun', hstate'⟩ := Option.map_eq_some_iff.mp hopen
  unfold Running.run at hrun hrun'
  rw [Machine.run_append, hrun, Option.bind_some, Option.map_eq_some_iff] at hrun'
  obtain ⟨⟨r₂, outs₂⟩, hlater, heq⟩ := hrun'
  cases heq
  have hlast := (hstays _ _ [] r outs r₂ outs₂ rfl hrun hstate hlater).1
  exact absurd (hstate'.symm.trans hlast) (by decide)

/-! ## Section 2: Timeouts -/

def nsPerDay : Nat := 86400000000000

/-- `ns_since_midnight` at the real time `t`, in nanoseconds since some
    midnight. -/
def nsSinceMidnight (t : Nat) : UInt64 := UInt64.ofNat (t % nsPerDay)

/-- What a gateway does with a session at a real time. -/
inductive Event where
  | bytes (t : Nat) (data : List UInt8)
  | tick (t : Nat)

def Event.time : Event → Nat
  | .bytes t _ => t
  | .tick t => t

/-- A session with its listener, and the real time of the last `on_bytes`, or of
    its creation before the first one. -/
structure Timed (σ : Type*) where
  served : Served σ
  heard : Nat

namespace Timed

variable {σ : Type*} (L : Listener σ)

def new (created : Nat) (l : σ) : Timed σ :=
  ⟨{ session := .new (nsSinceMidnight created), listener := l }, created⟩

def step (w : Timed σ) : Event → Timed σ
  | .bytes t data => ⟨w.served.onBytes L data (nsSinceMidnight t), t⟩
  | .tick t => ⟨w.served.tick L (nsSinceMidnight t), w.heard⟩

/-- The tick at time `t` closes the session with `on_timeout`. -/
def TimesOut (w : Timed σ) (t : Nat) : Prop :=
  (w.served.session.tick (nsSinceMidnight t)).2 = some .timeout

end Timed

/-! ### The time of the last bytes -/

theorem ServerSession.onPacket_lastRecvNs (s : ServerSession) (pkt : Packet) :
    (s.onPacket pkt).1.lastRecvNs = s.lastRecvNs := by
  rcases s.onPacket_cases pkt with h | h | h
  · rw [h]
  · rw [h]
    rfl
  · rw [h]

theorem ServerSession.pump_lastRecvNs (s : ServerSession) : s.pump.1.lastRecvNs = s.lastRecvNs := by
  apply pump_induct (P := fun t => t.lastRecvNs = s.lastRecvNs) _ _ rfl
  · intro t q h
    exact h
  · intro t pkt h
    exact (onPacket_lastRecvNs t pkt).trans h

theorem ServerSession.resume_lastRecvNs (s : ServerSession) (c : Callback) :
    (s.resume c).1.lastRecvNs = s.lastRecvNs := by
  unfold resume
  split
  · split
    · rfl
    · exact s.pump_lastRecvNs
  · split
    · rfl
    · exact s.pump_lastRecvNs
  · rfl
  · rfl

theorem ServerSession.tick_lastRecvNs (s : ServerSession) (now : UInt64) :
    (s.tick now).1.lastRecvNs = s.lastRecvNs := by
  unfold tick
  split
  · rfl
  · split
    · rfl
    · split <;> rfl

section

variable {σ : Type*} {L : Listener σ}

theorem Served.answer_lastRecvNs (w : Served σ) (c : Callback) :
    (w.answer L c).session.lastRecvNs = w.session.lastRecvNs := by
  unfold answer
  dsimp only
  generalize (L w.listener c).2 = rs
  induction rs using List.reverseRecOn with
  | nil => rfl
  | append_singleton rs r ih =>
    rw [List.foldl_append, List.foldl_cons, List.foldl_nil, ← ih]
    cases r <;> rfl

/-- The rest of a call leaves the time alone. -/
theorem Served.converse_lastRecvNs (n : Nat) (w : Served σ) (r : ServerSession × Option Callback) :
    (converse L n w r).session.lastRecvNs = r.1.lastRecvNs := by
  induction n generalizing w r with
  | zero => rfl
  | succ n ih =>
    obtain ⟨s, c⟩ := r
    cases c with
    | none => rfl
    | some c =>
      rw [converse, ih, ServerSession.resume_lastRecvNs, answer_lastRecvNs]

/-- An open session remembers when it last received bytes. -/
def Timed.Remembers (w : Timed σ) : Prop :=
  w.served.session.state ≠ .closed → w.served.session.lastRecvNs = nsSinceMidnight w.heard

theorem Timed.remembers_step {w : Timed σ} (h : w.Remembers) (e : Event) :
    (w.step L e).Remembers := by
  cases e with
  | bytes t data =>
    intro hopen
    unfold step Served.onBytes ServerSession.onBytes at hopen ⊢
    dsimp only at hopen ⊢
    by_cases hclosed : w.served.session.state = .closed
    · -- a closed session drops the bytes, and stays closed
      rw [if_pos hclosed, Served.converse_none] at hopen
      exact absurd hclosed hopen
    · rw [if_neg hclosed, Served.converse_lastRecvNs, ServerSession.pump_lastRecvNs]
  | tick t =>
    intro hopen
    show (Served.converse L 1 w.served (w.served.session.tick _)).session.lastRecvNs =
      nsSinceMidnight w.heard
    rw [Served.converse_lastRecvNs, ServerSession.tick_lastRecvNs]
    apply h
    intro hclosed
    -- a closed session ignores the tick
    have hsame : w.served.session.tick (nsSinceMidnight t) = (w.served.session, none) :=
      if_pos hclosed
    apply hopen
    show (Served.converse L 1 w.served (w.served.session.tick _)).session.state = .closed
    rw [hsame, Served.converse_none]
    exact hclosed

theorem Timed.remembers_run (created : Nat) (l : σ) (evs : List Event) :
    (evs.foldl (step L) (new created l)).Remembers := by
  induction evs using List.reverseRecOn with
  | nil => exact fun _ => rfl
  | append_singleton evs e ih =>
    rw [List.foldl_append]
    exact remembers_step ih e

/-- What was heard was heard at the creation or at an event. -/
theorem Timed.heard_mem (created : Nat) (l : σ) (evs : List Event) :
    (evs.foldl (step L) (new created l)).heard ∈ created :: evs.map Event.time := by
  induction evs using List.reverseRecOn with
  | nil => exact List.mem_cons_self
  | append_singleton evs e ih =>
    rw [List.foldl_append, List.map_append, ← List.cons_append, List.mem_append]
    cases e with
    | bytes t data => exact .inr (List.mem_singleton_self t)
    | tick t => exact .inl ih

end

/-! ### Ticks on the next day -/

theorem toNat_nsSinceMidnight (t : Nat) : (nsSinceMidnight t).toNat = t % nsPerDay := by
  have hlt : t % nsPerDay < nsPerDay := Nat.mod_lt t (by decide)
  unfold nsSinceMidnight
  rw [UInt64.toNat_ofNat']
  exact Nat.mod_eq_of_lt (Nat.lt_trans hlt (by decide))

/-- The clock's difference reaches the limit early exactly when midnight lies
    between the two readings. -/
theorem early_iff {heard t : Nat} (h : heard ≤ t) (hearly : t - heard < kSessionTimeoutNs.toNat) :
    nsSinceMidnight t - nsSinceMidnight heard ≥ kSessionTimeoutNs ↔
      t / nsPerDay ≠ heard / nsPerDay := by
  have ht := toNat_nsSinceMidnight t
  have hheard := toNat_nsSinceMidnight heard
  have hlimit : kSessionTimeoutNs.toNat = 15000000000 := rfl
  rw [ge_iff_le, UInt64.le_iff_toNat_le, UInt64.toNat_sub, ht, hheard, hlimit]
  rw [hlimit] at hearly
  simp only [nsPerDay]
  -- within a day the difference is the silence itself, over midnight it wraps around
  omega

theorem Timed.timesOut_iff {σ : Type*} (w : Timed σ) (t : Nat) :
    w.TimesOut t ↔ w.served.session.state ≠ .closed ∧
      nsSinceMidnight t - w.served.session.lastRecvNs ≥ kSessionTimeoutNs := by
  unfold TimesOut ServerSession.tick
  by_cases hclosed : w.served.session.state = .closed
  · simp [hclosed]
  · rw [if_neg hclosed]
    split
    · rename_i hlimit
      exact ⟨fun _ => ⟨hclosed, hlimit⟩, fun _ => rfl⟩
    · rename_i hlimit
      constructor
      · intro h
        split at h <;> cases h
      · intro h
        exact absurd h.2 hlimit

/-- Over any number of days, the timeouts of a run are all real exactly when no
    tick reaches an open session that received bytes less than 15 seconds before,
    but on another day. -/
theorem timeouts_real_iff {σ : Type*} (L : Listener σ) (l : σ) (created : Nat) (evs : List Event)
    (hmono : (created :: evs.map Event.time).Pairwise (· ≤ ·)) :
    (∀ before t after, evs = before ++ .tick t :: after →
      (before.foldl (Timed.step L) (Timed.new created l)).TimesOut t →
      kSessionTimeoutNs.toNat ≤ t - (before.foldl (Timed.step L) (Timed.new created l)).heard) ↔
    (∀ before t after, evs = before ++ .tick t :: after →
      (before.foldl (Timed.step L) (Timed.new created l)).served.session.state ≠ .closed →
      t - (before.foldl (Timed.step L) (Timed.new created l)).heard < kSessionTimeoutNs.toNat →
      t / nsPerDay = (before.foldl (Timed.step L) (Timed.new created l)).heard / nsPerDay) := by
  apply forall_congr'
  intro before
  apply forall_congr'
  intro t
  apply forall_congr'
  intro after
  apply imp_congr_right
  intro hevs
  have hremembers := Timed.remembers_run (L := L) created l before
  have hmem := Timed.heard_mem (L := L) created l before
  generalize before.foldl (Timed.step L) (Timed.new created l) = w at hremembers hmem ⊢
  -- time has not gone back since the last bytes
  have hle : w.heard ≤ t := by
    rw [hevs, List.map_append, ← List.cons_append] at hmono
    exact (List.pairwise_append.mp hmono).2.2 _ hmem _ List.mem_cons_self
  rw [Timed.timesOut_iff]
  constructor
  · intro hreal hopen hearly
    by_contra hday
    rw [hremembers hopen, early_iff hle hearly] at hreal
    exact absurd (hreal ⟨hopen, hday⟩) (Nat.not_le_of_lt hearly)
  · rintro hsame ⟨hopen, hlimit⟩
    by_contra hearly
    rw [Nat.not_le] at hearly
    rw [hremembers hopen, early_iff hle hearly] at hlimit
    exact hlimit (hsame hopen hearly)

/-- A listener that does nothing. -/
def ignoreAll : Listener Unit := fun _ _ => ((), [])

/-- Bytes, and a tick sixteen seconds later on the same day. -/
theorem timeouts_real_iff_day :
    (Timed.step ignoreAll (Timed.new 0 ()) (.bytes 5 [])).TimesOut 16000000000 ∧
      kSessionTimeoutNs.toNat ≤
        16000000000 - (Timed.step ignoreAll (Timed.new 0 ()) (.bytes 5 [])).heard := by
  have hout : (Timed.step ignoreAll (Timed.new 0 ()) (.bytes 5 [])).TimesOut 16000000000 := by
    unfold Timed.TimesOut
    decide
  have h := timeouts_real_iff ignoreAll () 0 [.bytes 5 [], .tick 16000000000] (by decide)
  refine ⟨hout, h.mpr ?_ [.bytes 5 []] 16000000000 [] rfl hout⟩
  intro before t after hevs _ _
  match before, hevs with
  | [_], hevs =>
    cases hevs
    decide
  | [_, _], hevs => cases hevs
  | _ :: _ :: _ :: _, hevs => cases hevs

/-- Bytes one second before midnight, and a tick one second after it. -/
def overMidnight : List Event := [.bytes (nsPerDay - 1000000000) [], .tick (nsPerDay + 1000000000)]

/-- The session times out after two seconds of silence. -/
theorem timeout_after_midnight :
    ((nsPerDay - 2000000000) :: overMidnight.map Event.time).Pairwise (· ≤ ·) ∧
    ((overMidnight.take 1).foldl (Timed.step ignoreAll)
      (Timed.new (nsPerDay - 2000000000) ())).TimesOut (nsPerDay + 1000000000) ∧
    (nsPerDay + 1000000000) - ((overMidnight.take 1).foldl (Timed.step ignoreAll)
      (Timed.new (nsPerDay - 2000000000) ())).heard = 2000000000 := by
  unfold Timed.TimesOut
  decide

end Soup

end MatchingEngine
