import MatchingEngine.Engine.Refines

/-! # Accounting for shares

    What a client can work out from its responses. An order is announced by an
    Accepted or a Replaced; from then on every Executed and Canceled for its
    token takes shares off. The shares that are not taken off are the shares
    that rest.

    `Posting` says what a step of the venue does to these accounts, and
    `Ledger` is what the accounts satisfy. Each posting keeps the ledger.
-/

namespace MatchingEngine

open Function
open Ouch (Token Response)
open Venue

/-! ## Section 1: Reading responses -/

/-- What an Accepted or a Replaced announces. -/
structure Announcement where
  ref : OrderId
  clientId : Nat
  token : Token
  shares : Qty
  deriving DecidableEq

def Announcement.key (a : Announcement) : TokenKey := tokenKey a.clientId a.token

def announcement (r : ClientResponse) : Option Announcement :=
  match r.msg with
  | .accepted m => some ⟨m.orderRef, r.clientId, m.token, m.shares⟩
  | .replaced m => some ⟨m.orderRef, r.clientId, m.replacementToken, m.shares⟩
  | _ => none

def announcements (rs : List ClientResponse) : List Announcement := rs.filterMap announcement

/-- An Executed or a Canceled for a token. -/
def Concerns (key : TokenKey) (r : ClientResponse) : Prop :=
  match r.msg with
  | .executed m => tokenKey r.clientId m.token = key
  | .canceled m => tokenKey r.clientId m.token = key
  | _ => False

/-- The shares of the Executed responses for a token. -/
def executedShares (key : TokenKey) (rs : List ClientResponse) : Nat :=
  (rs.map (fun r => match r.msg with
    | .executed m => if tokenKey r.clientId m.token = key then m.executedShares.toNat else 0
    | _ => 0)).sum

/-- The shares of the Canceled responses for a token. -/
def decrementShares (key : TokenKey) (rs : List ClientResponse) : Nat :=
  (rs.map (fun r => match r.msg with
    | .canceled m => if tokenKey r.clientId m.token = key then m.decrementShares.toNat else 0
    | _ => 0)).sum

/-- A Replaced names the token as the previous one. -/
def Superseded (key : TokenKey) (rs : List ClientResponse) : Prop :=
  ∃ r ∈ rs, ∃ m, r.msg = .replaced m ∧ tokenKey r.clientId m.previousToken = key

/-- A token is announced before it is reported on. -/
def Heralded (rs : List ClientResponse) : Prop :=
  ∀ xs r ys key, rs = xs ++ r :: ys → Concerns key r → ∃ a ∈ announcements xs, a.key = key

/-- All shares reported for a token. -/
def reported (key : TokenKey) (rs : List ClientResponse) : Nat :=
  executedShares key rs + decrementShares key rs

section reading

variable {rs rs' : List ClientResponse} {key : TokenKey} {r : ClientResponse}

@[simp] theorem announcements_append :
    announcements (rs ++ rs') = announcements rs ++ announcements rs' :=
  List.filterMap_append

@[simp] theorem reported_append :
    reported key (rs ++ rs') = reported key rs + reported key rs' := by
  simp only [reported, executedShares, decrementShares, List.map_append, List.sum_append]
  omega

theorem reported_eq_zero (h : ∀ r ∈ rs, ¬ Concerns key r) : reported key rs = 0 := by
  induction rs with
  | nil => rfl
  | cons r rs ih =>
    have hr := h r List.mem_cons_self
    have hrs := ih (fun r' hr' => h r' (List.mem_cons_of_mem _ hr'))
    have hone : reported key [r] = 0 := by
      cases hm : r.msg <;> simp_all [reported, executedShares, decrementShares, Concerns]
    rw [← List.singleton_append, reported_append, hone, hrs]

theorem Superseded.append (h : Superseded key rs) (rs' : List ClientResponse) :
    Superseded key (rs ++ rs') := by
  obtain ⟨r, hr, hm⟩ := h
  exact ⟨r, List.mem_append_left _ hr, hm⟩

theorem heralded_nil : Heralded [] := by
  intro xs r ys key h
  simp at h

theorem Heralded.snoc (h : Heralded rs)
    (hr : ∀ key, Concerns key r → ∃ a ∈ announcements rs, a.key = key) : Heralded (rs ++ [r]) := by
  intro xs r' ys key heq hc
  rcases List.eq_nil_or_concat ys with rfl | ⟨ys', y, rfl⟩
  · obtain ⟨rfl, hlast⟩ := List.append_inj' heq rfl
    cases hlast
    exact hr key hc
  · rw [List.concat_eq_append, ← List.cons_append, ← List.append_assoc] at heq
    exact h xs r' ys' key (List.append_inj' heq rfl).1 hc

theorem Heralded.append (h : Heralded rs) (hr : ∀ key, ∀ r ∈ rs', ¬ Concerns key r) :
    Heralded (rs ++ rs') := by
  induction rs' using List.reverseRecOn with
  | nil => simpa using h
  | append_singleton rs' r ih =>
    rw [← List.append_assoc]
    refine Heralded.snoc (ih (fun key r' hr' => hr key r' (List.mem_append_left _ hr'))) ?_
    exact fun key hc => absurd hc (hr key r (by simp))

/-- A response that is heralded is about an announced token. -/
theorem Heralded.announced (h : Heralded rs) (hr : r ∈ rs) (hc : Concerns key r) :
    ∃ a ∈ announcements rs, a.key = key := by
  obtain ⟨xs, ys, rfl⟩ := List.append_of_mem hr
  obtain ⟨a, ha, hk⟩ := h xs r ys key rfl hc
  exact ⟨a, by rw [announcements_append]; exact List.mem_append_left _ ha, hk⟩

end reading

/-! ## Section 2: Postings -/

/-- A response that takes `qty` shares off an order. -/
def Reports (info : OrderInfo) (qty : Qty) (r : ClientResponse) : Prop :=
  r.clientId = info.clientId ∧
    ((∃ m, r.msg = .executed m ∧ m.token = info.token ∧ m.executedShares = qty) ∨
      ∃ m, r.msg = .canceled m ∧ m.token = info.token ∧ m.decrementShares = qty)

/-- What a step does to the accounts: nothing, take shares off a live order,
    open an account for a new order, or do so in place of an old one. -/
inductive Posting : Venue → Venue → Prop where
  | quiet {v v' : Venue} (outs : List Output) (orders : v'.orders = v.orders)
      (used : v'.used = v.used)
      (nextRef : v'.nextRef = v.nextRef) (log : v'.log = v.log ++ outs)
      (unannounced : announcements (responsesOf outs) = [])
      (unconcerned : ∀ key, ∀ r ∈ responsesOf outs, ¬ Concerns key r) : Posting v v'
  | spend {v v' : Venue} (id : OrderId) (info : OrderInfo) (qty : Qty) (r : ClientResponse)
      (live : v.orders id = some info) (le : qty ≤ info.openQty) (reports : Reports info qty r)
      (orders : v'.orders = update v.orders id (info.less qty)) (used : v'.used = v.used)
      (nextRef : v'.nextRef = v.nextRef) (log : v'.log = v.log ++ [.response r]) : Posting v v'
  | announce {v v' : Venue} (info : OrderInfo) (r : ClientResponse) (unused : info.key ∉ v.used)
      (announces : announcement r = some ⟨v.nextRef, info.clientId, info.token, info.openQty⟩)
      (orders : v'.orders = update v.orders v.nextRef (some info))
      (used : v'.used = insert info.key v.used) (nextRef : v'.nextRef = v.nextRef + 1)
      (log : v'.log = v.log ++ [.response r]) : Posting v v'
  | supersede {v v' : Venue} (oldRef : OrderId) (old info : OrderInfo) (r : ClientResponse)
      (live : v.orders oldRef = some old) (unused : info.key ∉ v.used)
      (announces : announcement r = some ⟨v.nextRef, info.clientId, info.token, info.openQty⟩)
      (supersedes : Superseded old.key [r])
      (orders : v'.orders =
        update (update v.orders oldRef none) v.nextRef (some info))
      (used : v'.used = insert info.key v.used) (nextRef : v'.nextRef = v.nextRef + 1)
      (log : v'.log = v.log ++ [.response r]) : Posting v v'

section posting

variable {now client : Nat} {v v' : Venue} {f f' : Option Flight} {info : OrderInfo} {qty : Qty}
  {r : ClientResponse} {key : TokenKey}

theorem Reports.concerns (h : Reports info qty r) : Concerns key r ↔ info.key = key := by
  obtain ⟨hc, ⟨m, hm, ht, -⟩ | ⟨m, hm, ht, -⟩⟩ := h <;>
    simp only [Concerns, hm, hc, ht, OrderInfo.key]

theorem Reports.announcement (h : Reports info qty r) : announcement r = none := by
  obtain ⟨-, ⟨m, hm, -⟩ | ⟨m, hm, -⟩⟩ := h <;> simp only [MatchingEngine.announcement, hm]

theorem Reports.reported (h : Reports info qty r) :
    reported key [r] = if info.key = key then qty.toNat else 0 := by
  obtain ⟨hc, ⟨m, hm, ht, rfl⟩ | ⟨m, hm, ht, rfl⟩⟩ := h
  · simp only [MatchingEngine.reported, executedShares, decrementShares, List.map_singleton,
      List.sum_singleton, hm, hc, ht, Nat.add_zero, OrderInfo.key]
    rfl
  · simp only [MatchingEngine.reported, executedShares, decrementShares, List.map_singleton,
      List.sum_singleton, hm, hc, ht, Nat.zero_add, OrderInfo.key]
    rfl

theorem not_concerns_of_announcement {a : Announcement} (h : announcement r = some a) :
    ¬ Concerns key r := by
  cases hm : r.msg <;> simp_all [announcement, Concerns]

theorem reports_executed (now : Nat) (info : OrderInfo) (x : ExecutedEvent) (liquidity : Char) :
    Reports info x.qty ⟨info.clientId, .executed (executedMsg now info x liquidity)⟩ :=
  ⟨rfl, Or.inl ⟨_, rfl, rfl, rfl⟩⟩

/-- **Every step is a few postings.** -/
theorem Inv.postings (h : Inv v f) (hs : Step now client (v, f) (v', f')) :
    Relation.ReflTransGen Posting v v' := by
  cases hs with
  | reject _ token reason =>
    exact .single (.quiet _ rfl rfl rfl rfl rfl (by simp [Concerns]))
  | accept _ m side limit unused shares =>
    exact .single (.announce ⟨client, m.token, m.stock, side, m.shares⟩ _ unused rfl rfl
      rfl rfl rfl)
  | execute _ g o l resting aggressor best left cross hr ha =>
    have ho : o ∈ (v.book g.symbol).side g.side.opposite := by simp [best]
    have hne : g.id ≠ o.id := (h.mirror.apart g rfl ho).symm
    obtain ⟨hqa, hqr⟩ := PriorityBook.execution_le (v.book g.symbol) g.id g.side o g.left
    have hopen := (h.mirror.record ho hr).2.2
    obtain ⟨info, hi, -, -, hleft⟩ := h.mirror.flight g rfl left
    cases ha.symm.trans hi
    -- the event, the report to the resting side, the report to the aggressor
    have h₁ : Posting v (v.event now g.symbol (.executed (v.execution g o))) :=
      .quiet _ rfl rfl rfl rfl rfl (by simp)
    have h₂ : Posting (v.event now g.symbol (.executed (v.execution g o)))
        (((v.event now g.symbol (.executed (v.execution g o))).say
        [.response ⟨resting.clientId,
          .executed (executedMsg now resting (v.execution g o) 'A')⟩]).setOrder o.id
            (resting.less (v.execution g o).qty)) :=
      .spend o.id resting (v.execution g o).qty _ hr (hopen ▸ hqr) (reports_executed ..)
        rfl rfl rfl rfl
    refine .tail (.tail (.single h₁) h₂) (.spend g.id aggressor (v.execution g o).qty
      ⟨aggressor.clientId, .executed (executedMsg now aggressor (v.execution g o) 'R')⟩
      ?_ ?_ (reports_executed ..) rfl rfl rfl ?_)
    · exact (update_of_ne hne _ _).trans ha
    · rw [hleft]
      exact hqa
    · simp [log_executed]
  | rest _ g left price done =>
    exact .single (.quiet _ rfl rfl rfl rfl rfl (by simp))
  | kill _ g info reason left live =>
    obtain ⟨info', hi', -, -, hopen⟩ := h.mirror.flight g rfl left
    cases live.symm.trans hi'
    have hless : info.less g.left = none :=
      by rw [OrderInfo.less, hopen, if_pos (UInt32.sub_self _)]
    refine .single (.spend g.id info g.left _ live (hopen ▸ UInt32.le_refl _)
      ⟨rfl, Or.inr ⟨_, rfl, rfl, rfl⟩⟩ ?_ rfl rfl rfl)
    rw [hless]
    rfl
  | land => exact .refl
  | cancel _ info o x live owner rests id qty le removed =>
    have hopen := (h.mirror.record rests (id ▸ live)).2.2
    have h₁ : Posting v (v.event now info.symbol (.canceled x)) :=
      .quiet _ rfl rfl rfl rfl rfl (by simp)
    exact .tail (.single h₁) (.spend x.id info x.canceledQty _ live (hopen ▸ le)
      ⟨rfl, Or.inr ⟨_, rfl, rfl, rfl⟩⟩ rfl rfl rfl rfl)
  | replaceCross _ m oldRef old o live owner rests id unused price shares =>
    have h₁ : Posting v (v.swapped now client m oldRef old) :=
      .supersede oldRef old ⟨client, m.replacementToken, old.symbol, old.side, m.shares⟩ _ live
        unused rfl ⟨_, List.mem_singleton_self _, _, rfl, by rw [← owner]; rfl⟩ rfl rfl rfl rfl
    exact .tail (.single h₁) (.quiet _ rfl rfl rfl rfl rfl (by simp))
  | replaceRest _ m oldRef old o live owner rests id unused price shares done =>
    have h₁ : Posting v (v.swapped now client m oldRef old) :=
      .supersede oldRef old ⟨client, m.replacementToken, old.symbol, old.side, m.shares⟩ _ live
        unused rfl ⟨_, List.mem_singleton_self _, _, rfl, by rw [← owner]; rfl⟩ rfl rfl rfl rfl
    exact .tail (.single h₁) (.quiet _ rfl rfl rfl rfl rfl (by simp))

end posting

/-! ## Section 3: The ledger -/

/-- What the responses say about the orders of the venue. -/
structure Ledger (v : Venue) : Prop where
  heralded : Heralded (responsesOf v.log)
  used : ∀ a ∈ announcements (responsesOf v.log), a.key ∈ v.used
  fresh : ∀ a ∈ announcements (responsesOf v.log), a.ref < v.nextRef
  /-- Neither a token nor a reference is announced twice. -/
  keys : ((announcements (responsesOf v.log)).map Announcement.key).Nodup
  refs : ((announcements (responsesOf v.log)).map Announcement.ref).Nodup
  live : ∀ {id info}, v.orders id = some info → ∃ a ∈ announcements (responsesOf v.log),
    a.ref = id ∧ a.clientId = info.clientId ∧ a.token = info.token
  /-- The shares of a live order are those reported and those open. -/
  balance : ∀ a ∈ announcements (responsesOf v.log), ∀ {info}, v.orders a.ref = some info →
    a.shares.toNat = reported a.key (responsesOf v.log) + info.openQty.toNat
  settled : ∀ a ∈ announcements (responsesOf v.log), v.orders a.ref = none →
    a.shares.toNat = reported a.key (responsesOf v.log) ∨ Superseded a.key (responsesOf v.log)

section ledger

variable {v v' : Venue} {a : Announcement} {id : OrderId} {info : OrderInfo} {key : TokenKey}

theorem ledger_fresh : Ledger {} :=
  ⟨heralded_nil, by simp [announcements], by simp [announcements], by simp [announcements],
    by simp [announcements], by simp, by simp [announcements], by simp [announcements]⟩

/-- An announcement is that of a live order exactly when it has its key. -/
theorem Ledger.key_iff (h : Ledger v) (ha : a ∈ announcements (responsesOf v.log))
    (hi : v.orders id = some info) : info.key = a.key ↔ a.ref = id := by
  obtain ⟨b, hb, rfl, hclient, htoken⟩ := h.live hi
  have hkey : b.key = info.key := by rw [Announcement.key, hclient, htoken]; rfl
  constructor
  · intro hk
    rw [List.inj_on_of_nodup_map h.keys ha hb (hk.symm.trans hkey.symm)]
  · intro hr
    rw [List.inj_on_of_nodup_map h.refs ha hb hr, hkey]

/-- Nothing was reported for a token that is not in use. -/
theorem Ledger.reported_unused (h : Ledger v) (hk : key ∉ v.used) :
    reported key (responsesOf v.log) = 0 := by
  refine reported_eq_zero (fun r hr hc => hk ?_)
  obtain ⟨a, ha, rfl⟩ := h.heralded.announced hr hc
  exact h.used a ha

/-- A new announcement, whatever else happens to the orders. -/
theorem Ledger.announced (h : Ledger v) {r : ClientResponse} (unused : info.key ∉ v.used)
    (announces : announcement r = some ⟨v.nextRef, info.clientId, info.token, info.openQty⟩)
    (hused : v'.used = insert info.key v.used) (hnext : v'.nextRef = v.nextRef + 1)
    (hlog : v'.log = v.log ++ [.response r]) (hnew : v'.orders v.nextRef = some info)
    (hlive : ∀ {id i}, id ≠ v.nextRef → v'.orders id = some i → v.orders id = some i)
    (hgone : ∀ a ∈ announcements (responsesOf v.log), v'.orders a.ref = none →
      v.orders a.ref = none ∨ Superseded a.key [r]) : Ledger v' := by
  have hR : responsesOf v'.log = responsesOf v.log ++ [r] := by simp [hlog]
  have hA : announcements (responsesOf v'.log) = announcements (responsesOf v.log) ++
      [⟨v.nextRef, info.clientId, info.token, info.openQty⟩] := by
    rw [hR, announcements_append]
    simp [announcements, announces]
  have hrep : ∀ key, reported key (responsesOf v'.log) = reported key (responsesOf v.log) := by
    intro key
    have hzero : reported key [r] = 0 :=
      reported_eq_zero (by simpa using not_concerns_of_announcement announces)
    rw [hR, reported_append, hzero, Nat.add_zero]
  have hne : ∀ a ∈ announcements (responsesOf v.log), a.ref ≠ v.nextRef :=
    fun a ha => Nat.ne_of_lt (h.fresh a ha)
  have hkey : ∀ a ∈ announcements (responsesOf v.log), a.key ≠
      Announcement.key ⟨v.nextRef, info.clientId, info.token, info.openQty⟩ := by
    intro a ha heq
    have hin := h.used a ha
    rw [heq] at hin
    exact unused hin
  refine ⟨?_, ?_, ?_, ?_, ?_, ?_, ?_, ?_⟩
  · exact hR ▸ h.heralded.snoc (fun key hc => absurd hc (not_concerns_of_announcement announces))
  · intro a ha
    rw [hA, List.mem_append, List.mem_singleton] at ha
    rw [hused]
    rcases ha with ha | rfl
    · exact Finset.mem_insert_of_mem (h.used a ha)
    · exact Finset.mem_insert_self _ _
  · intro a ha
    rw [hA, List.mem_append, List.mem_singleton] at ha
    rw [hnext]
    rcases ha with ha | rfl
    · exact Nat.lt_succ_of_lt (h.fresh a ha)
    · exact Nat.lt_succ_self _
  · rw [hA, List.map_append]
    exact List.nodup_append.mpr ⟨h.keys, List.nodup_singleton _, by simpa using hkey⟩
  · rw [hA, List.map_append]
    exact List.nodup_append.mpr ⟨h.refs, List.nodup_singleton _, by simpa using hne⟩
  · intro id i hi
    rw [hA]
    by_cases hid : id = v.nextRef
    · rw [hid, hnew] at hi
      cases hi
      exact ⟨_, List.mem_append_right _ (List.mem_singleton_self _), hid.symm, rfl, rfl⟩
    · obtain ⟨a, ha, hrest⟩ := h.live (hlive hid hi)
      exact ⟨a, List.mem_append_left _ ha, hrest⟩
  · intro a ha i hi
    rw [hA, List.mem_append, List.mem_singleton] at ha
    rw [hrep]
    rcases ha with ha | rfl
    · exact h.balance a ha (hlive (hne a ha) hi)
    · cases hnew.symm.trans hi
      have hzero : reported (Announcement.key ⟨v.nextRef, info.clientId, info.token, info.openQty⟩)
          (responsesOf v.log) = 0 := h.reported_unused unused
      rw [hzero, Nat.zero_add]
  · intro a ha hn
    rw [hA, List.mem_append, List.mem_singleton] at ha
    rw [hrep, hR]
    rcases ha with ha | rfl
    · rcases hgone a ha hn with hn' | ⟨r', hr', hs⟩
      · exact (h.settled a ha hn').imp_right (fun hs => hs.append _)
      · exact Or.inr ⟨r', List.mem_append_right _ hr', hs⟩
    · cases hnew.symm.trans hn

/-- Responses about no order leave the accounts as they are. -/
theorem Ledger.quiet (h : Ledger v) {outs : List Output} (orders : v'.orders = v.orders)
    (used : v'.used = v.used) (nextRef : v'.nextRef = v.nextRef) (log : v'.log = v.log ++ outs)
    (unannounced : announcements (responsesOf outs) = [])
    (unconcerned : ∀ key, ∀ r ∈ responsesOf outs, ¬ Concerns key r) : Ledger v' := by
  have hR : responsesOf v'.log = responsesOf v.log ++ responsesOf outs := by simp [log]
  have hA : announcements (responsesOf v'.log) = announcements (responsesOf v.log) := by
    rw [hR, announcements_append, unannounced, List.append_nil]
  have hrep : ∀ key, reported key (responsesOf v'.log) = reported key (responsesOf v.log) := by
    intro key
    rw [hR, reported_append, reported_eq_zero (unconcerned key), Nat.add_zero]
  refine ⟨hR ▸ h.heralded.append unconcerned, ?_, ?_, ?_, ?_, ?_, ?_, ?_⟩
  · rw [hA, used]
    exact h.used
  · rw [hA, nextRef]
    exact h.fresh
  · rw [hA]
    exact h.keys
  · rw [hA]
    exact h.refs
  · rw [hA, orders]
    exact h.live
  · simp only [hA, hrep, orders]
    exact h.balance
  · simp only [hA, hrep, orders]
    exact fun a ha hn => (h.settled a ha hn).imp_right (fun hs => hR ▸ hs.append _)

/-- Shares that a response takes off a live order. -/
theorem Ledger.spend (h : Ledger v) {qty : Qty} {r : ClientResponse}
    (live : v.orders id = some info) (le : qty ≤ info.openQty) (reports : Reports info qty r)
    (orders : v'.orders = update v.orders id (info.less qty)) (used : v'.used = v.used)
    (nextRef : v'.nextRef = v.nextRef) (log : v'.log = v.log ++ [.response r]) : Ledger v' := by
  have hR : responsesOf v'.log = responsesOf v.log ++ [r] := by simp [log]
  have hA : announcements (responsesOf v'.log) = announcements (responsesOf v.log) := by
    rw [hR, announcements_append]
    simp [announcements, reports.announcement]
  have hrep : ∀ key, reported key (responsesOf v'.log) =
      reported key (responsesOf v.log) + if info.key = key then qty.toNat else 0 := by
    intro key
    rw [hR, reported_append, reports.reported]
  have hsub : (info.openQty - qty).toNat = info.openQty.toNat - qty.toNat :=
    UInt32.toNat_sub_of_le _ _ le
  have hle : qty.toNat ≤ info.openQty.toNat := UInt32.le_iff_toNat_le.mp le
  refine ⟨hR ▸ h.heralded.snoc (fun key hc => ?_), ?_, ?_, ?_, ?_, ?_, ?_, ?_⟩
  · obtain ⟨a, ha, hr, -⟩ := h.live live
    exact ⟨a, ha, ((h.key_iff ha live).mpr hr).symm.trans (reports.concerns.mp hc)⟩
  · rw [hA, used]
    exact h.used
  · rw [hA, nextRef]
    exact h.fresh
  · rw [hA]
    exact h.keys
  · rw [hA]
    exact h.refs
  · intro id' info' hi'
    rw [hA]
    by_cases hid : id' = id
    · rw [hid, orders, update_self] at hi'
      obtain ⟨-, rfl⟩ := OrderInfo.less_some hi'
      obtain ⟨a, ha, hr, hown⟩ := h.live live
      exact ⟨a, ha, hr.trans hid.symm, hown⟩
    · rw [orders, update_of_ne hid] at hi'
      exact h.live hi'
  · intro a ha info' hi'
    rw [hA] at ha
    rw [hrep]
    by_cases hid : a.ref = id
    · have hbal := h.balance a ha (hid ▸ live)
      rw [hid, orders, update_self] at hi'
      obtain ⟨-, rfl⟩ := OrderInfo.less_some hi'
      rw [if_pos ((h.key_iff ha live).mpr hid), hsub]
      omega
    · rw [orders, update_of_ne hid] at hi'
      rw [if_neg (fun hk => hid ((h.key_iff ha live).mp hk)), Nat.add_zero]
      exact h.balance a ha hi'
  · intro a ha hn
    rw [hA] at ha
    rw [hrep]
    by_cases hid : a.ref = id
    · have hbal := h.balance a ha (hid ▸ live)
      rw [hid, orders, update_self] at hn
      have hzero := congrArg UInt32.toNat (OrderInfo.less_none hn)
      rw [hsub, UInt32.toNat_zero] at hzero
      rw [if_pos ((h.key_iff ha live).mpr hid)]
      exact Or.inl (by omega)
    · rw [orders, update_of_ne hid] at hn
      rw [if_neg (fun hk => hid ((h.key_iff ha live).mp hk)), Nat.add_zero, hR]
      exact (h.settled a ha hn).imp_right (fun hs => hs.append _)

/-- **Step lemma.** -/
theorem Ledger.posting (h : Ledger v) (hp : Posting v v') : Ledger v' := by
  cases hp with
  | quiet outs orders used nextRef log unannounced unconcerned =>
    exact h.quiet orders used nextRef log unannounced unconcerned
  | spend id info qty r live le reports orders used nextRef log =>
    exact h.spend live le reports orders used nextRef log
  | announce info r unused announces orders used nextRef log =>
    refine h.announced unused announces used nextRef log (by rw [orders, update_self]) ?_ ?_
    · intro id i hid hi
      rwa [orders, update_of_ne hid] at hi
    · intro a ha hn
      rw [orders, update_of_ne (Nat.ne_of_lt (h.fresh a ha))] at hn
      exact Or.inl hn
  | supersede oldRef old info r live unused announces supersedes orders used nextRef log =>
    refine h.announced unused announces used nextRef log (by rw [orders, update_self]) ?_ ?_
    · intro id i hid hi
      rw [orders, update_of_ne hid] at hi
      by_cases hold : id = oldRef
      · rw [hold, update_self] at hi
        cases hi
      · rwa [update_of_ne hold] at hi
    · intro a ha hn
      rw [orders, update_of_ne (Nat.ne_of_lt (h.fresh a ha))] at hn
      by_cases hold : a.ref = oldRef
      · exact Or.inr ((h.key_iff ha live).mpr hold ▸ supersedes)
      · rw [update_of_ne hold] at hn
        exact Or.inl hn

/-- A token whose order is gone, and for which nothing was sent since `rs`. -/
structure Silent (key : TokenKey) (rs : List ClientResponse) (v : Venue) : Prop where
  used : key ∈ v.used
  gone : ∀ {id info}, v.orders id = some info → info.key ≠ key
  log : ∃ new, responsesOf v.log = rs ++ new ∧ ∀ r ∈ new, ¬ Concerns key r

/-- **Step lemma.** A token stays silent: nothing revives it. -/
theorem Silent.posting {rs : List ClientResponse} (h : Silent key rs v) (hp : Posting v v') :
    Silent key rs v' := by
  obtain ⟨new, hnew, hquiet⟩ := h.log
  have hlog : ∀ {outs}, v'.log = v.log ++ outs → (∀ r ∈ responsesOf outs, ¬ Concerns key r) →
      ∃ new, responsesOf v'.log = rs ++ new ∧ ∀ r ∈ new, ¬ Concerns key r := by
    intro outs hl hq
    refine ⟨new ++ responsesOf outs, by simp [hl, hnew], fun r hr => ?_⟩
    exact (List.mem_append.mp hr).elim (hquiet r) (hq r)
  have hnext : ∀ {info : OrderInfo}, info.key ∉ v.used → info.key ≠ key :=
    fun hunused heq => hunused (heq ▸ h.used)
  cases hp with
  | quiet outs orders used nextRef log unannounced unconcerned =>
    exact ⟨used ▸ h.used, by rw [orders]; exact h.gone, hlog log (unconcerned key)⟩
  | spend id info qty r live le reports orders used nextRef log =>
    refine ⟨used ▸ h.used, fun {id' info'} hi' => ?_, hlog log ?_⟩
    · by_cases hid : id' = id
      · rw [hid, orders, update_self] at hi'
        obtain ⟨-, rfl⟩ := OrderInfo.less_some hi'
        have hne : info.key ≠ key := h.gone live
        exact hne
      · rw [orders, update_of_ne hid] at hi'
        exact h.gone hi'
    · simpa [reports.concerns] using h.gone live
  | announce info r unused announces orders used nextRef log =>
    refine ⟨used ▸ Finset.mem_insert_of_mem h.used, fun {id' info'} hi' => ?_, hlog log ?_⟩
    · by_cases hid : id' = v.nextRef
      · rw [hid, orders, update_self] at hi'
        cases hi'
        exact hnext unused
      · rw [orders, update_of_ne hid] at hi'
        exact h.gone hi'
    · simpa using not_concerns_of_announcement announces
  | supersede oldRef old info r live unused announces supersedes orders used nextRef log =>
    refine ⟨used ▸ Finset.mem_insert_of_mem h.used, fun {id' info'} hi' => ?_, hlog log ?_⟩
    · by_cases hid : id' = v.nextRef
      · rw [hid, orders, update_self] at hi'
        cases hi'
        exact hnext unused
      · rw [orders, update_of_ne hid] at hi'
        by_cases hold : id' = oldRef
        · rw [hold, update_self] at hi'
          cases hi'
        · rw [update_of_ne hold] at hi'
          exact h.gone hi'
    · simpa using not_concerns_of_announcement announces

/-- What postings keep, steps keep. -/
theorem Inv.step_postings {P : Venue → Prop} {now client : Nat} {f f' : Option Flight}
    (hinv : Inv v f) (hP : P v) (step : ∀ {u u'}, P u → Posting u u' → P u')
    (hs : Step now client (v, f) (v', f')) : P v' := by
  have hsteps := hinv.postings hs
  clear hs
  induction hsteps with
  | refl => exact hP
  | tail _ hp ih => exact step ih hp

/-- **Run lemma.** What postings keep, runs keep. -/
theorem Run.postings {P : Venue → Prop} (hr : Run v v') (hinv : Inv v none) (hP : P v)
    (step : ∀ {u u'}, P u → Posting u u' → P u') : P v' :=
  (hr.induct (P := fun u _ => P u) hinv hP (fun hu hPu hs => hu.step_postings hPu step hs)).2

end ledger

/-! ## Section 4: The engine -/

namespace Engine

/-- The order rests in one of the books. -/
def Rests (e : Engine FastBook) (ref : OrderId) : Prop :=
  ∃ symbol snap side, e.bookSnapshot symbol = some snap ∧
    ∃ o ∈ PriorityBook.entries snap side, o.id = ref

/-- What clients can work out from their responses. -/
structure Accounted (e : Engine FastBook) : Prop where
  /-- No token is reported on before it is announced. -/
  heralded : Heralded e.responses
  /-- No token is announced twice. -/
  once : ((announcements e.responses).map Announcement.key).Nodup
  resting : ∀ a ∈ announcements e.responses, ∀ {symbol snap side o},
    e.bookSnapshot symbol = some snap → o ∈ PriorityBook.entries snap side → o.id = a.ref →
      a.shares.toNat = executedShares a.key e.responses + decrementShares a.key e.responses +
        o.openQty.toNat
  settled : ∀ a ∈ announcements e.responses, ¬ e.Rests a.ref →
    a.shares.toNat = executedShares a.key e.responses + decrementShares a.key e.responses ∨
      Superseded a.key e.responses
  /-- Whatever comes next, nothing more is sent for an order that is gone. -/
  final : ∀ a ∈ announcements e.responses, ¬ e.Rests a.ref → ∀ cmds, ∃ e' new,
    e.run cmds = some e' ∧ e'.responses = e.responses ++ new ∧ ∀ r ∈ new, ¬ Concerns a.key r

theorem Realizes.rests {e : Engine FastBook} {v : Venue} (h : Realizes e v) (hinv : Inv v none)
    {ref : OrderId} : e.Rests ref ↔ ∃ info, v.orders ref = some info := by
  constructor
  · rintro ⟨symbol, snap, side, hs, o, ho, rfl⟩
    cases (h.bookSnapshot symbol).symm.trans hs
    rw [(hinv.mirror.wf symbol).entries_snapshot] at ho
    obtain ⟨info, hi, -⟩ := hinv.mirror.resting ho
    exact ⟨info, hi⟩
  · rintro ⟨info, hi⟩
    obtain ⟨o, ho, hid⟩ := hinv.rests hi
    refine ⟨info.symbol, _, info.side, h.bookSnapshot _, o, ?_, hid⟩
    rwa [(hinv.mirror.wf _).entries_snapshot]

theorem Realizes.accounted {e : Engine FastBook} {v : Venue} (h : Realizes e v) (hinv : Inv v none)
    (hl : Ledger v) : Accounted e := by
  have hR : e.responses = responsesOf v.log := congrArg responsesOf h.records.out
  have hnone : ∀ {ref}, ¬ e.Rests ref → v.orders ref = none := by
    intro ref hr
    cases ho : v.orders ref with
    | none => rfl
    | some info => exact absurd ((h.rests hinv).mpr ⟨info, ho⟩) hr
  refine ⟨hR ▸ hl.heralded, hR ▸ hl.keys, ?_, ?_, ?_⟩
  · intro a ha symbol snap side o hs ho hid
    cases (h.bookSnapshot symbol).symm.trans hs
    rw [(hinv.mirror.wf symbol).entries_snapshot] at ho
    obtain ⟨info, hi, -, -, hopen⟩ := hinv.mirror.resting ho
    rw [hR] at ha ⊢
    rw [← hopen]
    exact hl.balance a ha (hid ▸ hi)
  · intro a ha hr
    rw [hR] at ha ⊢
    exact hl.settled a ha (hnone hr)
  · intro a ha hr cmds
    rw [hR] at ha
    have hsilent : Silent a.key (responsesOf v.log) v := by
      refine ⟨hl.used a ha, fun hi hk => ?_, [], by simp, by simp⟩
      rw [← (hl.key_iff ha hi).mp hk, hnone hr] at hi
      cases hi
    obtain ⟨e', v', hrun, hv, h'⟩ := h.run hinv cmds
    obtain ⟨new, hnew, hquiet⟩ := (hv.postings hinv hsilent Silent.posting).log
    exact ⟨e', new, hrun, by rw [hR, responses, h'.records.out, hnew], hquiet⟩

/-- **Clients can account for every share**, after any commands. -/
theorem clients_account_for_shares (cmds : List (Nat × Command)) :
    ∃ e, ({} : Engine FastBook).run cmds = some e ∧ Accounted e := by
  obtain ⟨e, v, hrun, hv, hreal⟩ := realizes_fresh.run inv_fresh cmds
  have hl : Ledger v := hv.postings inv_fresh ledger_fresh Ledger.posting
  exact ⟨e, hrun, hreal.accounted (hv.inv inv_fresh) hl⟩

end Engine

end MatchingEngine
