import MatchingEngine.Engine.Origins

/-! # The mail of a client

    Two facts about the responses to a client. Every token that they name is a
    token that the client brought in with a command of its own. And each of its
    Enter Order messages has exactly one answer, Accepted or Rejected, and the
    answers come in the order of the messages (`run_replies`).

    What a command does to the mail is said once, by `Replies`; callbacks add
    letters about recorded orders and no answers.
-/

namespace MatchingEngine

open Ouch (Token Response)

/-! ## Section 1: Letters and answers -/

/-- The tokens that a response names. -/
def Ouch.Response.tokens : Response → List Token
  | .accepted m => [m.token]
  | .executed m => [m.token]
  | .canceled m => [m.token]
  | .replaced m => [m.replacementToken, m.previousToken]
  | .rejected m => [m.token]

/-- The token of the Enter Order message that a response answers. -/
def Ouch.Response.answers : Response → Option Token
  | .accepted m => some m.token
  | .rejected m => some m.token
  | .executed _ | .canceled _ | .replaced _ => none

/-- The token that a command brings in. -/
def CommandMsg.brings : CommandMsg → Option Token
  | .enter m => some m.token
  | .replace m => some m.replacementToken
  | .cancel _ => none

/-- The token of an Enter Order message. -/
def CommandMsg.enters : CommandMsg → Option Token
  | .enter m => some m.token
  | .replace _ | .cancel _ => none

/-- The answers among some responses, each with its client. -/
def answersIn (rs : List ClientResponse) : List (Nat × Token) :=
  rs.filterMap (fun r => r.msg.answers.map (Prod.mk r.clientId))

/-- The Enter Order messages among some commands, each with its client. -/
def entriesIn (cmds : List Command) : List (Nat × Token) :=
  cmds.filterMap (fun c => c.msg.enters.map (Prod.mk c.clientId))

namespace Engine

/-! ## Section 2: One command -/

section replies

variable {B : Type} {Own : Nat → Token → Prop} {e e₁ e₂ : Engine B} {as as' : List (Nat × Token)}

/-- Every recorded order has an owner and a token that belong together. -/
def Owned (Own : Nat → Token → Prop) (e : Engine B) : Prop :=
  ∀ id info, e.orders.lookup id = some info → Own info.clientId info.token

/-- From `e` to `e'` the engine keeps to orders that are owned, names to each
    client tokens of its own only, and gives the answers `as`. -/
def Replies (Own : Nat → Token → Prop) (as : List (Nat × Token)) (e e' : Engine B) : Prop :=
  Owned Own e → Owned Own e' ∧ ∃ rs, e'.responses = e.responses ++ rs ∧
    (∀ r ∈ rs, ∀ t ∈ r.msg.tokens, Own r.clientId t) ∧ answersIn rs = as

theorem Replies.trans (h : Replies Own as e e₁) (h' : Replies Own as' e₁ e₂) :
    Replies Own (as ++ as') e e₂ := by
  intro howned
  obtain ⟨howned₁, rs, hrs, hown, hanswers⟩ := h howned
  obtain ⟨howned₂, rs', hrs', hown', hanswers'⟩ := h' howned₁
  refine ⟨howned₂, rs ++ rs', by rw [hrs', hrs, List.append_assoc], fun r hr => ?_, ?_⟩
  · rcases List.mem_append.mp hr with hr | hr
    · exact hown r hr
    · exact hown' r hr
  · rw [answersIn, List.filterMap_append]
    exact congrArg₂ (· ++ ·) hanswers hanswers'

/-- Stages that give no answers, one after the other. -/
theorem Replies.seq (h : Replies Own [] e e₁) (h' : Replies Own [] e₁ e₂) : Replies Own [] e e₂ :=
  h.trans h'

theorem replies_quiet (horders : Owned Own e → Owned Own e₁)
    (hresponses : e₁.responses = e.responses) : Replies Own [] e e₁ :=
  fun howned => ⟨horders howned, [], by rw [hresponses, List.append_nil], by simp, rfl⟩

theorem replies_respond (e : Engine B) (client : Nat) (msg : Response)
    (h : Owned Own e → ∀ t ∈ msg.tokens, Own client t) :
    Replies Own (msg.answers.map (Prod.mk client)).toList e (e.respond client msg) := by
  intro howned
  refine ⟨howned, [⟨client, msg⟩], by simp [respond, push, responses], ?_, ?_⟩
  · intro r hr
    rw [List.mem_singleton.mp hr]
    exact h howned
  · cases hanswers : msg.answers <;> simp [answersIn, hanswers]

/-! ### Callbacks -/

theorem replies_audit (e : Engine B) (bad : Bool) (fault : Fault) :
    Replies Own [] e (e.audit bad fault) := by
  unfold audit
  split
  · exact replies_quiet id rfl
  · exact replies_quiet id rfl

theorem replies_publish (e : Engine B) (ev : BookEvent) : Replies Own [] e (e.publish ev) :=
  replies_quiet id (by simp [publish, push, responses])

theorem Owned.erase (h : Owned Own e) (id : OrderId) :
    Owned Own { e with orders := e.orders.erase id } := by
  intro id' info hinfo
  have hinfo' : (e.orders.erase id).lookup id' = some info := hinfo
  by_cases hid : id' = id
  · rw [hid, Finmap.lookup_erase] at hinfo'
    cases hinfo'
  · rw [Finmap.lookup_erase_ne hid] at hinfo'
    exact h id' info hinfo'

theorem Owned.insert (h : Owned Own e) (id : OrderId) {info : OrderInfo}
    (hinfo : Own info.clientId info.token) :
    Owned Own { e with orders := e.orders.insert id info } := by
  intro id' info' hinfo'
  have hlookup : (e.orders.insert id info).lookup id' = some info' := hinfo'
  by_cases hid : id' = id
  · rw [hid, Finmap.lookup_insert] at hlookup
    cases hlookup
    exact hinfo
  · rw [Finmap.lookup_insert_of_ne _ hid] at hlookup
    exact h id' info' hlookup

theorem replies_reduceOpen (e : Engine B) (id : OrderId) (qty : Qty) :
    Replies Own [] e (e.reduceOpen id qty) := by
  unfold reduceOpen
  cases hinfo : e.orders.lookup id with
  | none => exact replies_quiet (fun h => h) rfl
  | some info =>
    intro howned
    obtain ⟨haudit, -⟩ := replies_audit e (info.openQty < qty) (.underflow id) howned
    have hquiet : ∀ bad fault, (e.audit bad fault).responses = e.responses := by
      intro bad fault
      unfold audit
      split <;> rfl
    dsimp only
    split
    · exact ⟨haudit.erase id, [], by rw [List.append_nil]; exact hquiet _ _, by simp, rfl⟩
    · exact ⟨haudit.insert id (howned id info hinfo), [], by rw [List.append_nil]; exact hquiet _ _,
        by simp, rfl⟩

theorem replies_notify (e : Engine B) (x : ExecutedEvent) (id : OrderId) (liquidity : Char) :
    Replies Own [] e (e.notify x id liquidity) := by
  unfold notify
  cases hinfo : e.orders.lookup id with
  | none => exact replies_quiet (fun h => h) rfl
  | some info =>
    refine replies_respond e info.clientId (.executed (executedMsg e.now info x liquidity)) ?_
    intro howned t ht
    rw [List.mem_singleton.mp ht]
    exact howned id info hinfo

theorem replies_tellCanceled (e : Engine B) (x : CanceledEvent) :
    Replies Own [] e (e.tellCanceled x) := by
  unfold tellCanceled
  split
  · exact replies_quiet (fun h => h) rfl
  · cases hinfo : e.orders.lookup x.id with
    | none => exact replies_quiet (fun h => h) rfl
    | some info =>
      refine replies_respond e info.clientId
        (.canceled ⟨e.now, info.token, x.canceledQty, ch 'U'⟩) ?_
      intro howned t ht
      rw [List.mem_singleton.mp ht]
      exact howned x.id info hinfo

theorem replies_onEvent (e : Engine B) (ev : BookEvent) : Replies Own [] e (e.onEvent ev) := by
  cases ev with
  | added x => exact replies_publish e _
  | replaced x => exact replies_publish e _
  | executed x =>
    have hpublish : Replies Own [] e (e.publish (.executed x)) := replies_publish e _
    have hresting := hpublish.seq (replies_notify _ x x.restingId 'A')
    have haggressor := hresting.seq (replies_notify _ x x.aggressorId 'R')
    exact (haggressor.seq (replies_reduceOpen _ x.restingId x.qty)).seq
      (replies_reduceOpen _ x.aggressorId x.qty)
  | canceled x =>
    have hpublish : Replies Own [] e (e.publish (.canceled x)) := replies_publish e _
    have htold := hpublish.seq (replies_tellCanceled _ x)
    unfold onEvent onCanceled
    dsimp only
    split
    · exact htold.seq (replies_reduceOpen _ _ _)
    · cases hinfo : ((e.publish (.canceled x)).tellCanceled x).orders.lookup x.id with
      | none => exact htold
      | some info =>
        -- the order stays, with fewer shares
        refine (htold.seq (replies_audit _ (info.openQty < x.canceledQty) (.underflow x.id))).seq
          (replies_quiet (fun howned => howned.insert x.id ?_) rfl)
        refine howned x.id info ?_
        unfold audit
        split <;> exact hinfo

theorem replies_onEvents (e : Engine B) (evs : List BookEvent) :
    Replies Own [] e (e.onEvents evs) := by
  induction evs generalizing e with
  | nil => exact replies_quiet (fun h => h) rfl
  | cons ev evs ih => exact (replies_onEvent e ev).seq (ih (e.onEvent ev))

/-! ### Handlers -/

theorem replies_cancelUnrested (e : Engine B) {client : Nat} (ref : OrderId) {token : Token}
    (qty : Qty) (reason : Char) (h : Own client token) :
    Replies Own [] e (e.cancelUnrested client ref token qty reason) := by
  have hletter : Replies Own []
      e (e.respond client (.canceled ⟨e.now, token, qty, ch reason⟩)) := by
    refine replies_respond e client (.canceled ⟨e.now, token, qty, ch reason⟩) ?_
    intro _ t ht
    rw [List.mem_singleton.mp ht]
    exact h
  exact hletter.seq (replies_quiet (fun howned => howned.erase ref) rfl)

theorem replies_setBook (e : Engine B) (symbol : Symbol) (book : B) :
    Replies Own [] e (e.setBook symbol book) :=
  replies_quiet (fun h => h) rfl

variable [Book B]

theorem replies_bookFor (e : Engine B) (symbol : Symbol) :
    Replies Own [] e (e.bookFor symbol).1 := by
  unfold bookFor
  cases e.books.lookup symbol <;> exact replies_quiet (fun h => h) rfl

variable {client : Nat}

theorem replies_execute {m : Ouch.EnterOrder} {side : Side} {ref : OrderId}
    (hown : Own client m.token)
    (h : e.execute client m side ref = some e₁) : Replies Own [] e e₁ := by
  obtain ⟨e₂, book, book₁, unmet, e₃, hfor, -, rfl, h⟩ := execute_cases h
  have hbook : Replies Own [] e (e.bookFor m.stock).1 := replies_bookFor e m.stock
  rw [hfor] at hbook
  have hset := hbook.seq (replies_setBook _ m.stock book₁)
  have hall := fun book₂ events =>
    (hset.seq (replies_setBook _ m.stock book₂)).seq (replies_onEvents _ events)
  obtain rfl | ⟨book₂, filled, events, e₄, -, -, rfl, h⟩ | ⟨book₂, result, events, -, -, rfl⟩ := h
  · exact hset.seq (replies_cancelUnrested _ _ _ _ hown)
  · obtain rfl | rfl := h
    · exact (hall book₂ events).seq (replies_cancelUnrested _ _ _ _ hown)
    · exact hall book₂ events
  · exact (hall book₂ events).seq (replies_audit _ _ _)

/-- An Enter Order message has one answer. -/
theorem replies_handleEnter {m : Ouch.EnterOrder} (hown : Own client m.token)
    (h : e.handleEnter client m = some e₁) : Replies Own [(client, m.token)] e e₁ := by
  obtain ⟨reason, rfl⟩ | ⟨side, -, -, -, hexec⟩ := handleEnter_cases h
  · refine replies_respond e client (.rejected ⟨e.now, m.token, ch reason⟩) ?_
    intro _ t ht
    rw [List.mem_singleton.mp ht]
    exact hown
  · -- the order is recorded and acknowledged, then executed
    have haccept : Replies Own [(client, m.token)] e (e.accept client m side) := by
      intro howned
      refine ⟨howned.insert e.nextRef hown,
        [⟨client, .accepted (acceptedMsg e.now e.nextRef side m)⟩], responsesOf_append _ _, ?_, rfl⟩
      intro r hr t ht
      rw [List.mem_singleton.mp hr] at ht ⊢
      rw [List.mem_singleton.mp ht]
      exact hown
    exact haccept.trans (replies_execute hown hexec)

theorem replies_handleCancel {m : Ouch.CancelOrder} (h : e.handleCancel client m = some e₁) :
    Replies Own [] e e₁ := by
  obtain rfl | ⟨id, info, e₂, book, book₁, ok, events, -, -, hfor, -, rfl⟩ := handleCancel_cases h
  · exact replies_quiet (fun h => h) rfl
  · have hsymbol : Replies Own [] e (e.setSymbol info.symbol) := replies_quiet (fun h => h) rfl
    have hbook := hsymbol.seq (replies_bookFor _ info.symbol)
    rw [hfor] at hbook
    exact (hbook.seq (replies_setBook _ _ _)).seq (replies_onEvents _ _)

/-- The owner of the order that a live token stands for. -/
def LiveOwner (e : Engine B) : Prop :=
  ∀ key id info, e.liveTokens.lookup key = some id → e.orders.lookup id = some info →
    info.clientId = key.1

theorem replies_handleReplace {m : Ouch.ReplaceOrder} (hown : Own client m.replacementToken)
    (hlive : LiveOwner e) (h : e.handleReplace client m = some e₁) : Replies Own [] e e₁ := by
  obtain rfl | ⟨oldRef, old, e₂, book, book₁, ok, events, htoken, -, -, -, hold, hfor, -, rfl⟩ :=
    handleReplace_cases h
  · exact replies_quiet (fun h => h) rfl
  · have hswap : Replies Own [] e ((e.swap client m oldRef old).setSuppress true) := by
      intro howned
      refine ⟨(howned.erase oldRef).insert e.nextRef hown,
        [⟨client, .replaced (replacedMsg e.now e.nextRef old m)⟩], responsesOf_append _ _, ?_, rfl⟩
      intro r hr t ht
      rw [List.mem_singleton.mp hr] at ht ⊢
      -- the previous token is that of the client's own order
      have hprevious : Own client old.token := by
        have hclient : old.clientId = client := hlive _ oldRef old htoken hold
        exact hclient ▸ howned oldRef old hold
      rcases List.mem_cons.mp ht with rfl | ht
      · exact hown
      · rw [List.mem_singleton.mp ht]
        exact hprevious
    have hbook := hswap.seq (replies_bookFor _ old.symbol)
    rw [hfor] at hbook
    have hall := (hbook.seq (replies_setBook _ old.symbol book₁)).seq (replies_onEvents _ events)
    exact (hall.seq (replies_audit _ _ _)).seq (replies_quiet (fun h => h) rfl)

/-- **Step lemma.** -/
theorem replies_process {now : Nat} {cmd : Command}
    (hown : ∀ t, cmd.msg.brings = some t → Own cmd.clientId t) (hlive : LiveOwner e)
    (h : e.process now cmd = some e₁) :
    Replies Own (entriesIn [cmd]) e e₁ := by
  have hnow : Replies Own [] e (e.setNow now) := replies_quiet (fun h => h) rfl
  unfold process at h
  have hentries : entriesIn [cmd] = [] ++ cmd.msg.enters.toList.map (Prod.mk cmd.clientId) := by
    cases hmsg : cmd.msg <;> simp [entriesIn, hmsg, CommandMsg.enters]
  rw [hentries]
  cases hmsg : cmd.msg with
  | enter m =>
    rw [hmsg] at h hown
    exact hnow.trans (replies_handleEnter (hown _ rfl) h)
  | cancel m =>
    rw [hmsg] at h
    exact hnow.trans (replies_handleCancel h)
  | replace m =>
    rw [hmsg] at h hown
    exact hnow.trans (replies_handleReplace (hown _ rfl) hlive h)

end replies

/-! ## Section 3: Runs -/

theorem Realizes.liveOwner {e : Engine FastBook} {v : Venue} (h : Realizes e v) : LiveOwner e := by
  intro key id info hlive hinfo
  obtain ⟨info', hinfo', rfl⟩ := h.records.live.mp hlive
  cases hinfo.symm.trans ((h.records.orders id).trans hinfo')
  rfl

/-- The tokens that a client brings in with some commands. -/
def Brought (cmds : List Command) (client : Nat) (t : Token) : Prop :=
  ∃ c ∈ cmds, c.clientId = client ∧ c.msg.brings = some t

/-- **Own mail only, and one answer for each entry.** -/
theorem run_replies (cmds : List (Nat × Command)) {e : Engine FastBook}
    (h : Engine.run ({} : Engine FastBook) cmds = some e) :
    Owned (Brought (cmds.map Prod.snd)) e ∧
      (∀ r ∈ e.responses, ∀ t ∈ r.msg.tokens, Brought (cmds.map Prod.snd) r.clientId t) ∧
      answersIn e.responses = entriesIn (cmds.map Prod.snd) := by
  induction cmds using List.reverseRecOn generalizing e with
  | nil =>
    cases h
    exact ⟨fun id info hinfo => by simp at hinfo, by simp [responses], rfl⟩
  | append_singleton cmds c ih =>
    rw [run_snoc, Option.bind_eq_some_iff] at h
    obtain ⟨e₀, hrun, hprocess⟩ := h
    obtain ⟨howned, htokens, hanswers⟩ := ih hrun
    obtain ⟨e₀', v, hrun', hv, hreal⟩ := realizes_fresh.run inv_fresh cmds
    cases hrun.symm.trans hrun'
    -- what was brought in stays so
    have hmore : ∀ {client t}, Brought (cmds.map Prod.snd) client t →
        Brought ((cmds ++ [c]).map Prod.snd) client t := by
      intro client t hbrought
      obtain ⟨c', hc', hrest⟩ := hbrought
      exact ⟨c', by rw [List.map_append]; exact List.mem_append_left _ hc', hrest⟩
    have hnew : ∀ t, c.2.msg.brings = some t →
        Brought ((cmds ++ [c]).map Prod.snd) c.2.clientId t :=
      fun t ht => ⟨c.2, by simp, rfl, ht⟩
    obtain ⟨howned', rs, hrs, hown, hnewAnswers⟩ :=
      replies_process hnew hreal.liveOwner hprocess
        (fun id info hinfo => hmore (howned id info hinfo))
    refine ⟨howned', ?_, ?_⟩
    · intro r hr t ht
      rw [hrs] at hr
      rcases List.mem_append.mp hr with hr | hr
      · exact hmore (htokens r hr t ht)
      · exact hown r hr t ht
    · rw [hrs, answersIn, List.filterMap_append, List.map_append, entriesIn, List.filterMap_append]
      exact congrArg₂ (· ++ ·) hanswers hnewAnswers

end Engine

end MatchingEngine
