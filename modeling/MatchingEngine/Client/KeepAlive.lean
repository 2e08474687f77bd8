import MatchingEngine.Client.OuchClient
import MatchingEngine.Soup.Lifecycle

/-! # Staying alive

    A session that is silent for 15 seconds is closed by the gateway. `poll` sends
    a heartbeat when nothing was sent for one second, so a client that is polled
    often enough is never silent for that long. Both sides measure time with
    `ns_since_midnight`, the client to see whether a heartbeat is due and the
    session to see how long it has heard nothing.

    * `P`: at most this much time lies between two polls.
    * `N`: within this time what the client sends is read by the gateway.
    * A client is silent for one second and `P` at most (`never_silent`), at any
      hour: over midnight its clock makes a heartbeat due early, never late.
    * If `P + N` is below 14 seconds, no tick times the session out, except for a
      tick right after midnight (`timeouts_real_iff`).
-/

namespace MatchingEngine

namespace Client

open Soup (nsPerDay nsSinceMidnight Event Timed Listener)

/-- `poll` sends a heartbeat after this silence. -/
def heartbeatNs : Nat := 1000000000

/-- A call at a real time, and what the socket takes of its packet. -/
structure TimedCall where
  time : Nat
  call : Call
  send : SendResult

/-- Both readings of the clock are made at the time of the call. -/
def TimedCall.meets (k : TimedCall) : Meets :=
  ⟨nsSinceMidnight k.time, nsSinceMidnight k.time, k.send⟩

/-- When the calls send something. -/
def sendTimes : OuchClient → List TimedCall → List Nat
  | _, [] => []
  | c, k :: calls =>
    (if k.call.packets c k.meets = [] then [] else [k.time]) ++
      sendTimes (c.call (k.call, k.meets)) calls

/-- The time of the last poll, where `p` is that of the one before. -/
def pollTime (p : Nat) (k : TimedCall) : Nat :=
  match k.call with
  | .poll _ => k.time
  | _ => p

/-- After a poll at `p`, the client stays connected and is polled every `P`. -/
def Polled (P : Nat) : Nat → List TimedCall → Prop
  | _, [] => True
  | p, k :: calls => p ≤ k.time ∧ k.time ≤ p + P ∧ k.call ≠ .close ∧ Polled P (pollTime p k) calls

/-! ## Section 1: The client's side -/

/-- A silence of more than a second shows on the clock, on whichever side of
    midnight it ends. -/
theorem due_of_silent {s t : Nat} (h : s + heartbeatNs < t) (hday : t < s + nsPerDay) :
    nsSinceMidnight t - nsSinceMidnight s > 1000000000 := by
  have ht := Soup.toNat_nsSinceMidnight t
  have hs := Soup.toNat_nsSinceMidnight s
  have hlimit : (1000000000 : UInt64).toNat = 1000000000 := rfl
  rw [gt_iff_lt, UInt64.lt_iff_toNat_lt, UInt64.toNat_sub, ht, hs, hlimit]
  simp only [nsPerDay, heartbeatNs] at *
  -- over midnight the later reading is the smaller one, and the difference wraps around
  omega

/-- A call that sends notes the time. -/
theorem lastSendNs_call {c : OuchClient} (hc : c.connected = true) {call : Call}
    (hcall : call ≠ .close) (env : Meets) :
    (c.call (call, env)).lastSendNs = if call.packets c env = [] then c.lastSendNs
      else env.sentAt := by
  cases call with
  | close => exact absurd rfl hcall
  | enter | cancel | replace =>
    simp [OuchClient.call, OuchClient.enter, OuchClient.cancel, OuchClient.replace,
      OuchClient.sendOuch, OuchClient.sendRaw, hc, Call.packets, Call.message]
  | poll chunks =>
    obtain ⟨hc', -, hlast⟩ := c.receiveAll_frame chunks
    rw [OuchClient.call, OuchClient.poll, if_pos hc, Call.packets]
    dsimp only
    rw [hlast]
    split
    · rw [OuchClient.sendRaw, if_pos (hc'.trans hc)]
      rfl
    · rw [hlast]
      rfl

/-- A call that sends nothing is a poll, and no heartbeat is due. -/
theorem silent_call {c : OuchClient} {call : Call} {env : Meets} (hcall : call ≠ .close)
    (h : call.packets c env = []) :
    (∃ chunks, call = .poll chunks) ∧ ¬ env.now - c.lastSendNs > 1000000000 := by
  cases call with
  | close => exact absurd rfl hcall
  | enter | cancel | replace => simp [Call.packets, Call.message] at h
  | poll chunks =>
    refine ⟨⟨chunks, rfl⟩, fun hdue => ?_⟩
    rw [Call.packets, if_pos hdue] at h
    cases h

theorem pollTime_le {p : Nat} {k : TimedCall} (h : p ≤ k.time) : pollTime p k ≤ k.time := by
  unfold pollTime
  split
  · exact Nat.le_refl _
  · exact h

/-- **Run lemma.** After something sent at `s`, and while the polls go on, every
    moment `u` has something sent in the second and the `P` before it. -/
theorem never_silent {P : Nat} (hP : heartbeatNs + P < nsPerDay) {c : OuchClient}
    (hc : c.connected = true)
    {calls : List TimedCall} {s p : Nat} (hlast : c.lastSendNs = nsSinceMidnight s)
    (hp : p ≤ s + heartbeatNs) (hmono : (s :: calls.map TimedCall.time).Pairwise (· ≤ ·))
    (hpolled : Polled P p calls) {u : Nat} (hsu : s ≤ u) (hu : u ≤ calls.foldl pollTime p + P) :
    ∃ s' ∈ s :: sendTimes c calls, s' ≤ u ∧ u ≤ s' + heartbeatNs + P := by
  induction calls generalizing c s p with
  | nil =>
    refine ⟨s, List.mem_cons_self, hsu, ?_⟩
    have hu' : u ≤ p + P := hu
    omega
  | cons k calls ih =>
    obtain ⟨hpk, hkP, hopen, hpolled⟩ := hpolled
    rw [List.map_cons, List.pairwise_cons] at hmono
    obtain ⟨hfirst, hmono⟩ := hmono
    have hsk : s ≤ k.time := hfirst _ List.mem_cons_self
    have hc' : (c.call (k.call, k.meets)).connected = true :=
      (OuchClient.connected_call hopen).trans hc
    have hlast' := lastSendNs_call hc hopen k.meets
    have hle := pollTime_le hpk
    by_cases hsilent : k.call.packets c k.meets = []
    · -- a poll that comes too early for a heartbeat: the next one is due within `P`
      obtain ⟨⟨chunks, hpoll⟩, hdue⟩ := silent_call hopen hsilent
      have hearly : k.time ≤ s + heartbeatNs := by
        by_contra hlate
        rw [hlast] at hdue
        exact hdue (due_of_silent (Nat.lt_of_not_le hlate) (by omega))
      rw [if_pos hsilent, hlast] at hlast'
      have hsorted : (s :: calls.map TimedCall.time).Pairwise (· ≤ ·) :=
        List.pairwise_cons.mpr ⟨fun t ht => hfirst t (List.mem_cons_of_mem _ ht),
          (List.pairwise_cons.mp hmono).2⟩
      obtain ⟨s', hs', hbounds⟩ := ih hc' hlast' (Nat.le_trans hle hearly) hsorted hpolled hsu hu
      exact ⟨s', by simpa [sendTimes, hsilent] using hs', hbounds⟩
    · rw [if_neg hsilent] at hlast'
      rcases Nat.lt_or_ge u k.time with huk | hku
      · exact ⟨s, List.mem_cons_self, hsu, by omega⟩
      · obtain ⟨s', hs', hbounds⟩ := ih hc' hlast' (by omega) hmono hpolled hku hu
        exact ⟨s', List.mem_cons_of_mem _ (by simpa [sendTimes, hsilent] using hs'), hbounds⟩

/-! ## Section 2: The gateway's side -/

/-- Before every tick the gateway has read what was sent `N` or longer ago. -/
def Prompt (N : Nat) (sent : List Nat) (evs : List Event) : Prop :=
  ∀ before t after, evs = before ++ .tick t :: after → ∀ s ∈ sent, s + N ≤ t →
    ∃ a data, .bytes a data ∈ before ∧ s ≤ a

/-- The bytes heard last are not older than any others. -/
theorem heard_latest {σ : Type*} (L : Listener σ) (created : Nat) (l : σ) {evs : List Event}
    (hmono : (evs.map Event.time).Pairwise (· ≤ ·)) {a : Nat} {data : List UInt8}
    (h : Event.bytes a data ∈ evs) : a ≤
      (evs.foldl (Timed.step L) (Timed.new created l)).heard := by
  induction evs using List.reverseRecOn with
  | nil => cases h
  | append_singleton evs e ih =>
    rw [List.map_append, List.pairwise_append] at hmono
    obtain ⟨hmono, -, hlast⟩ := hmono
    rw [List.foldl_append, List.foldl_cons, List.foldl_nil]
    rcases List.mem_append.mp h with hbefore | hnew
    · cases e with
      | bytes t data' => exact hlast a (List.mem_map_of_mem hbefore) t List.mem_cons_self
      | tick t => exact ih hmono hbefore
    · cases List.mem_singleton.mp hnew
      exact Nat.le_refl a

/-- A client that logged in at `login` and is then polled every `P`, over a
    network that takes `N`: as long as the polls go on, no tick finds its session
    silent for too long, unless midnight has passed since the last bytes. -/
theorem keep_alive {σ : Type*} (L : Listener σ) (l : σ) {P N created login : Nat}
    (hPN : P + N < 14000000000) {c : OuchClient} (hc : c.connected = true)
    (hlogin : c.lastSendNs = nsSinceMidnight login) {calls : List TimedCall}
    (hcalls : (login :: calls.map TimedCall.time).Pairwise (· ≤ ·)) (hpolled : Polled P login calls)
    {evs : List Event} (hevs : (created :: evs.map Event.time).Pairwise (· ≤ ·))
    (hnet : Prompt N (login :: sendTimes c calls) evs) {before : List Event} {t : Nat}
    {after : List Event} (hat : evs = before ++ .tick t :: after) (hstart : login + N ≤ t)
    (hpolls : t ≤ calls.foldl pollTime login + P + N)
    (hday : t / nsPerDay = (before.foldl (Timed.step L) (Timed.new created l)).heard / nsPerDay) :
    ¬ (before.foldl (Timed.step L) (Timed.new created l)).TimesOut t := by
  have hP : heartbeatNs + P < nsPerDay := by
    simp only [heartbeatNs, nsPerDay]
    omega
  -- something was sent in the second and the `P` before `t - N`, and was read
  obtain ⟨s, hs, hsu, hus⟩ := never_silent hP hc hlogin (Nat.le_add_right _ _) hcalls hpolled
    (u := t - N) (by omega) (by omega)
  obtain ⟨a, data, ha, hsa⟩ := hnet before t after hat s hs (by omega)
  rw [hat, List.map_append, ← List.cons_append, List.pairwise_append] at hevs
  obtain ⟨hbefore, -, hlast⟩ := hevs
  have hheard := heard_latest L created l (List.pairwise_cons.mp hbefore).2 ha
  have hle := hlast _ (Timed.heard_mem (L := L) created l before) t List.mem_cons_self
  have hremembers := Timed.remembers_run (L := L) created l before
  rw [Timed.timesOut_iff]
  rintro ⟨hopen, hlimit⟩
  rw [hremembers hopen] at hlimit
  generalize (before.foldl (Timed.step L) (Timed.new created l)).heard = heard at *
  have hearly : t - heard < Soup.kSessionTimeoutNs.toNat := by
    have htimeout : Soup.kSessionTimeoutNs.toNat = 15000000000 := rfl
    simp only [heartbeatNs] at hus
    omega
  exact (Soup.early_iff hle hearly).mp hlimit hday

/-- A client that logged in at midnight, and is polled after half a second and
    once more after 1.2 seconds, which sends a heartbeat. -/
def idleClient : OuchClient := { connected := true }

def idleCalls : List TimedCall :=
  [⟨500000000, .poll [], .accepted 100⟩, ⟨1200000000, .poll [], .accepted 100⟩]

/-- The gateway reads the login and the heartbeat, and ticks after 15.1 seconds. -/
def idleEvents : List Event := [.bytes 100 [], .bytes 1200000100 [], .tick 15100000000]

theorem keep_alive_idle :
    sendTimes idleClient idleCalls = [1200000000] ∧
      ¬ ((idleEvents.take 2).foldl (Timed.step Soup.ignoreAll) (Timed.new 0 ())).TimesOut
        15100000000 := by
  have hpolled : Polled 13900000000 0 idleCalls :=
    ⟨by decide, by decide, nofun, by decide, by decide, nofun, trivial⟩
  have hnet : Prompt 1000 (0 :: sendTimes idleClient idleCalls) idleEvents := by
    intro before t after hevs s hs hst
    match before, hevs with
    | [_, _], hevs =>
      cases hevs
      refine ⟨1200000100, [], by simp, ?_⟩
      have hsent : ∀ s ∈ 0 :: sendTimes idleClient idleCalls, s ≤ 1200000100 := by decide
      exact hsent s hs
    | [_, _, _], hevs => cases hevs
    | _ :: _ :: _ :: _ :: _, hevs => cases hevs
  have hat : idleEvents = idleEvents.take 2 ++ .tick 15100000000 :: [] := rfl
  exact ⟨by decide, keep_alive Soup.ignoreAll () (by decide) rfl rfl (by decide) hpolled (by decide)
    hnet hat (by decide) (by decide) (by decide)⟩

end Client

end MatchingEngine
