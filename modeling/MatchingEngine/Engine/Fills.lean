import MatchingEngine.Engine.Accounting

/-! # Executions as they are reported

    Each execution goes to the feed once and to both owners, and the match
    numbers of one symbol count its executions.
-/

namespace MatchingEngine

open Venue

/-! ## Section 1: Both sides are told -/

/-- An execution on the feed, or a report of one. -/
def IsExecution : Output → Prop
  | .market m => ∃ x, m.ev = .executed x
  | .response r => ∃ m, r.msg = .executed m

/-- A log in which every execution on the feed is followed by its report to the
    owner of the resting order and then by its report to the owner of the
    incoming one, and in which nothing else reports executions. The owner of an
    order is the client it was announced to. -/
inductive TwoSided : List Output → Prop where
  | nil : TwoSided []
  | other {log : List Output} (o : Output) (before : TwoSided log) (no : ¬ IsExecution o) :
      TwoSided (log ++ [o])
  | fill {log : List Output} (ts : Nat) (symbol : Symbol) (x : ExecutedEvent)
      (resting aggressor : Announcement) (before : TwoSided log)
      (restingOrder : resting ∈ announcements (responsesOf log) ∧ resting.ref = x.restingId)
      (aggressorOrder : aggressor ∈ announcements (responsesOf log) ∧
        aggressor.ref = x.aggressorId) :
      TwoSided (log ++ [.market ⟨ts, symbol, .executed x⟩,
        .response ⟨resting.clientId,
          .executed ⟨ts, resting.token, x.qty, x.price, ch 'A', x.matchId⟩⟩,
        .response ⟨aggressor.clientId,
          .executed ⟨ts, aggressor.token, x.qty, x.price, ch 'R', x.matchId⟩⟩])

theorem TwoSided.append {log outs : List Output} (h : TwoSided log)
    (hno : ∀ o ∈ outs, ¬ IsExecution o) : TwoSided (log ++ outs) := by
  induction outs using List.reverseRecOn with
  | nil => simpa using h
  | append_singleton outs o ih =>
    rw [← List.append_assoc]
    exact .other o (ih (fun o' ho' => hno o' (List.mem_append_left _ ho'))) (hno o (by simp))

/-- **Step lemma.** -/
theorem TwoSided.step {now client : Nat} {v v' : Venue} {f f' : Option Flight} (h : TwoSided v.log)
    (hl : Ledger v) (hs : Step now client (v, f) (v', f')) : TwoSided v'.log := by
  cases hs with
  | execute _ g o l resting aggressor best left cross hr ha =>
    obtain ⟨b, hb, hbid, hbc, hbt⟩ := hl.live hr
    obtain ⟨c, hc, hcid, hcc, hct⟩ := hl.live ha
    have hfill := TwoSided.fill now g.symbol (v.execution g o) b c h ⟨hb, hbid⟩ ⟨hc, hcid⟩
    rw [hbc, hbt, hcc, hct] at hfill
    rw [log_executed]
    exact hfill
  | reject | accept | kill => exact h.append (by simp [IsExecution])
  | rest => exact h.append (by simp [IsExecution])
  | land => exact h
  | cancel _ info o x =>
    simp only [Venue.canceled, log_setOrder, log_say, log_event, List.append_assoc]
    exact h.append (by simp [IsExecution])
  | replaceCross | replaceRest =>
    simp only [Venue.swapped, log_event, log_say, List.append_assoc]
    exact h.append (by simp [IsExecution])

/-- **Run lemma.** -/
theorem Run.twoSided {v : Venue} (hr : Run {} v) : Ledger v ∧ TwoSided v.log :=
  (hr.induct (P := fun u _ => Ledger u ∧ TwoSided u.log) inv_fresh ⟨ledger_fresh, .nil⟩
    (fun hu hP hs => ⟨hu.step_postings hP.1 Ledger.posting hs, hP.2.step hP.1 hs⟩)).2

/-! ## Section 2: Match numbers -/

/-- The executions of a log, with their symbols. -/
def executionsOf (log : List Output) : List (Symbol × ExecutedEvent) :=
  (marketEventsOf log).filterMap (fun m => match m.ev with
    | .executed x => some (m.symbol, x)
    | _ => none)

/-- The match numbers of one symbol. -/
def matchIds (symbol : Symbol) (fills : List (Symbol × ExecutedEvent)) : List Nat :=
  (fills.filter (fun f => f.1 = symbol)).map (fun f => f.2.matchId)

/-- The match numbers of a symbol so far are 1, 2, 3 up to the counter of its
    book. -/
def Numbered (v : Venue) : Prop :=
  ∀ symbol, ∃ n, (v.book symbol).nextMatchId = n + 1 ∧
    matchIds symbol (executionsOf v.log) = List.range' 1 n

@[simp] theorem executionsOf_append (log log' : List Output) :
    executionsOf (log ++ log') = executionsOf log ++ executionsOf log' := by
  simp [executionsOf]

theorem matchIds_append (symbol : Symbol) (fills fills' : List (Symbol × ExecutedEvent)) :
    matchIds symbol (fills ++ fills') = matchIds symbol fills ++ matchIds symbol fills' := by
  simp [matchIds]

section numbered

variable {v v' : Venue}

theorem numbered_fresh : Numbered {} := fun _ => ⟨0, rfl, rfl⟩

/-- Nothing is executed, and no counter moves. -/
theorem Numbered.idle (h : Numbered v) (hlog : executionsOf v'.log = executionsOf v.log)
    (hbook : ∀ symbol, (v'.book symbol).nextMatchId = (v.book symbol).nextMatchId) :
      Numbered v' := by
  intro symbol
  rw [hlog, hbook]
  exact h symbol

theorem nextMatchId_event (now : Nat) (s : Symbol) {ev : BookEvent} (hev : ∀ x, ev ≠ .executed x)
    (symbol : Symbol) :
    ((v.event now s ev).book symbol).nextMatchId = (v.book symbol).nextMatchId := by
  rw [book_event]
  by_cases hs : symbol = s
  · rw [hs, Function.update_self, PriorityBook.nextMatchId_applyEvent hev]
  · rw [Function.update_of_ne hs]

/-- **Step lemma.** -/
theorem Numbered.step {now client : Nat} {f f' : Option Flight} (h : Numbered v)
    (hs : Step now client (v, f) (v', f')) : Numbered v' := by
  cases hs with
  | execute _ g o l resting aggressor best left cross hr ha =>
    intro symbol
    obtain ⟨n, hn, hids⟩ := h symbol
    rw [log_executed, book_executed, executionsOf_append, matchIds_append, hids]
    by_cases hs : g.symbol = symbol
    · subst hs
      refine ⟨n + 1, ?_, ?_⟩
      · rw [Function.update_self, ← hn]
        rfl
      · rw [List.range'_concat]
        simp [executionsOf, matchIds, execution, PriorityBook.execution, hn, Nat.add_comm]
    · refine ⟨n, ?_, ?_⟩
      · rw [Function.update_of_ne (Ne.symm hs), hn]
      · simp [executionsOf, matchIds, hs]
  | reject | accept | kill | land =>
    exact h.idle (by simp [executionsOf, Venue.accepted, Venue.killed]) (fun _ => rfl)
  | rest _ g =>
    exact h.idle (by simp [executionsOf, rested]) (nextMatchId_event now _ (by simp))
  | cancel _ info o x =>
    exact h.idle (by simp [executionsOf, Venue.canceled]) (nextMatchId_event now _ (by simp))
  | replaceCross | replaceRest =>
    exact h.idle (by simp [executionsOf, Venue.swapped]) (nextMatchId_event now _ (by simp))

end numbered

/-- Numbers that are distinct within each class are distinct with it. -/
theorem nodup_of_matchIds {fills : List (Symbol × ExecutedEvent)}
    (h : ∀ symbol, (matchIds symbol fills).Nodup) :
    (fills.map (fun f => (f.1, f.2.matchId))).Nodup := by
  induction fills with
  | nil => exact List.nodup_nil
  | cons f fills ih =>
    have hsplit : ∀ symbol, matchIds symbol (f :: fills) =
        (if f.1 = symbol then [f.2.matchId] else []) ++ matchIds symbol fills := by
      intro symbol
      by_cases hs : f.1 = symbol <;> simp [matchIds, hs]
    rw [List.map_cons, List.nodup_cons]
    refine ⟨fun hmem => ?_, ih (fun symbol => ?_)⟩
    · obtain ⟨g, hg, heq⟩ := List.mem_map.mp hmem
      obtain ⟨hsym, hid⟩ := Prod.mk.inj heq
      have hnd := h f.1
      rw [hsplit, if_pos rfl, List.singleton_append, List.nodup_cons] at hnd
      refine hnd.1 (List.mem_map.mpr ⟨g, List.mem_filter.mpr ⟨hg, ?_⟩, hid⟩)
      simpa using hsym
    · have hnd := h symbol
      rw [hsplit] at hnd
      exact hnd.of_append_right

/-! ## Section 3: The engine -/

namespace Engine

/-- The executions on the feed. -/
def executions (e : Engine FastBook) : List (Symbol × ExecutedEvent) := executionsOf e.out

/-- **Executions are reported to both sides**, after any commands, and no
    reference is announced twice. -/
theorem executions_reported_to_both (cmds : List (Nat × Command)) :
    ∃ e, ({} : Engine FastBook).run cmds = some e ∧ TwoSided e.out ∧
      ((announcements e.responses).map Announcement.ref).Nodup := by
  obtain ⟨e, v, hrun, hv, hreal⟩ := realizes_fresh.run inv_fresh cmds
  have hout := hreal.records.out
  obtain ⟨hl, ht⟩ := hv.twoSided
  refine ⟨e, hrun, hout ▸ ht, ?_⟩
  rw [responses, hout]
  exact hl.refs

/-- **Match numbers identify the executions of a symbol**, and count them. -/
theorem match_numbers_by_symbol (cmds : List (Nat × Command)) :
    ∃ e, ({} : Engine FastBook).run cmds = some e ∧
      (e.executions.map (fun f => (f.1, f.2.matchId))).Nodup ∧
      ∀ symbol, ∃ n, matchIds symbol e.executions = List.range' 1 n := by
  obtain ⟨e, v, hrun, hv, hreal⟩ := realizes_fresh.run inv_fresh cmds
  have hnum := (hv.induct (P := fun u _ => Numbered u) inv_fresh numbered_fresh
    (fun _ hP hs => hP.step hs)).2
  have hex : e.executions = executionsOf v.log := congrArg executionsOf hreal.records.out
  have hids : ∀ symbol, ∃ n, matchIds symbol e.executions = List.range' 1 n := by
    intro symbol
    obtain ⟨n, -, hn⟩ := hnum symbol
    exact ⟨n, hex ▸ hn⟩
  refine ⟨e, hrun, nodup_of_matchIds (fun symbol => ?_), hids⟩
  obtain ⟨n, hn⟩ := hids symbol
  rw [hn]
  exact List.nodup_range'

/-! ### Two symbols

    A book counts its own executions, so two symbols repeat the numbers. -/

/-- An order for one share at price 1. -/
def dayOrder (token : UInt8) (side : Side) (stock : UInt8) : Ouch.EnterOrder where
  token := Vector.replicate 14 token
  side := side.toByte
  shares := 1
  stock := Vector.replicate 8 stock
  price := 1
  tif := 99999
  firm := Vector.replicate 4 32
  display := ch 'Y'
  capacity := ch 'O'
  intermarketSweep := ch 'N'
  minQty := 0
  crossType := ch 'N'
  customerType := ch 'R'

/-- A trade in each of two symbols. -/
def twoTrades : List (Nat × Command) :=
  [(0, ⟨1, .enter (dayOrder 65 .sell 65)⟩), (0, ⟨2, .enter (dayOrder 65 .buy 65)⟩),
    (0, ⟨1, .enter (dayOrder 66 .sell 66)⟩), (0, ⟨2, .enter (dayOrder 66 .buy 66)⟩)]

theorem match_numbers_repeat :
    ∃ e, ({} : Engine FastBook).run twoTrades = some e ∧
      e.executions.map (fun f => (f.1, f.2.matchId)) =
        [(Vector.replicate 8 65, 1), (Vector.replicate 8 66, 1)] ∧
      ¬ (e.executions.map (fun f => f.2.matchId)).Nodup := by
  obtain ⟨e, a, he, ha, hsim⟩ := sim_fresh.run twoTrades
  -- the run is evaluated over priority books
  have heval : (({} : Engine PriorityBook).run twoTrades).map (fun a =>
      (executionsOf a.out).map (fun f => (f.1, f.2.matchId))) =
        some [(Vector.replicate 8 65, 1), (Vector.replicate 8 66, 1)] := by decide +kernel
  rw [ha] at heval
  have hpairs : e.executions.map (fun f => (f.1, f.2.matchId)) =
      [(Vector.replicate 8 65, 1), (Vector.replicate 8 66, 1)] := by
    obtain ⟨books, rfl, -⟩ := hsim
    exact Option.some.inj heval
  refine ⟨e, he, hpairs, fun hnd => ?_⟩
  have hids := congrArg (List.map Prod.snd) hpairs
  rw [List.map_map] at hids
  have hids' : e.executions.map (fun f => f.2.matchId) = [1, 1] := hids
  rw [hids'] at hnd
  exact absurd hnd (by decide)

end Engine

end MatchingEngine
