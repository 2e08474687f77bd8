import MatchingEngine.Engine.Fills
import MatchingEngine.Engine.Spares
import MatchingEngine.Engine.Tape

/-! # Symbols are independent

    The engine that processes all commands and one that processes only those of
    a symbol `S` are twins all along. A command of `S` is processed by both. One
    of another symbol spares everything of `S`, but it may take a reference from
    the counter that all symbols share. The references that `S` is still to get
    then move up by one, and the renaming with them (`Twin.spare`).
-/

namespace MatchingEngine

open Ouch (Token Response)

/-! ## Section 1: References -/

section refs

open Venue

variable {v v' : Venue} {f f' : Option Flight} {now client : Nat}

/-- Every reference that was sent has been given out. -/
def Venue.Dated (v : Venue) : Prop := ∀ o ∈ v.log, ∀ r ∈ o.refs, r < v.nextRef

theorem Venue.Dated.send (h : v.Dated) {outs : List Output} (hlog : v'.log = v.log ++ outs)
    (hnext : v.nextRef ≤ v'.nextRef)
    (houts : ∀ o ∈ outs, ∀ r ∈ o.refs, r < v'.nextRef) : v'.Dated := by
  intro o ho r hr
  rw [hlog] at ho
  rcases List.mem_append.mp ho with ho | ho
  · exact Nat.lt_of_lt_of_le (h o ho r hr) hnext
  · exact houts o ho r hr

/-- **Step lemma.** -/
theorem Inv.dated (hinv : Inv v f) (h : v.Dated) (hs : Step now client (v, f) (v', f')) :
    v'.Dated := by
  have hrests : ∀ {symbol side o}, o ∈ (v.book symbol).side side → o.id < v.nextRef := by
    intro symbol side o ho
    obtain ⟨info, hinfo, -⟩ := hinv.mirror.resting ho
    exact hinv.keys.fresh hinfo
  cases hs with
  | reject _ token reason => exact h.send rfl (Nat.le_refl _) (by simp [Output.refs])
  | accept _ m side =>
    exact h.send rfl (Nat.le_succ _) (by
      simp [Output.refs, accepted, Venue.enroll, Venue.say, acceptedMsg])
  | execute _ g o l resting aggressor best left cross hr ha =>
    refine h.send (log_executed v now g o resting aggressor) (Nat.le_refl _) ?_
    have ho : o.id < v.nextRef := hrests (by rw [best]; exact List.mem_cons_self)
    have hg : g.id < v.nextRef := hinv.keys.fresh ha
    simpa [Output.refs, BookEvent.ids, execution, PriorityBook.execution] using ⟨ho, hg⟩
  | rest _ g left =>
    obtain ⟨info, hinfo, -⟩ := hinv.mirror.flight g rfl left
    have hg : g.id < (v.rested now g).nextRef := hinv.keys.fresh hinfo
    exact h.send rfl (Nat.le_refl _) (by simpa [Output.refs, BookEvent.ids] using hg)
  | kill _ g info reason => exact h.send rfl (Nat.le_refl _) (by simp [Output.refs])
  | land => exact h
  | cancel _ info o x live =>
    have hx : x.id < (v.canceled now info x).nextRef := hinv.keys.fresh live
    exact h.send (log_canceled v now info x) (Nat.le_refl _) (by
      simpa [Output.refs, BookEvent.ids] using hx)
  | replaceCross _ m oldRef old o live =>
    refine h.send (log_swapped v oldRef now client m old _) (Nat.le_succ _) ?_
    have hold : oldRef < v.nextRef := hinv.keys.fresh live
    have hnext : ((v.swapped now client m oldRef old).event now old.symbol
        (.canceled ⟨oldRef, o.openQty, true⟩)).nextRef = v.nextRef + 1 := rfl
    rw [hnext]
    simp [Output.refs, BookEvent.ids, replacedMsg]
    lia
  | replaceRest _ m oldRef old o live =>
    refine h.send (log_swapped v oldRef now client m old _) (Nat.le_succ _) ?_
    have hold : oldRef < v.nextRef := hinv.keys.fresh live
    have hnext : ((v.swapped now client m oldRef old).event now old.symbol
        (.replaced ⟨oldRef, v.nextRef, old.side, m.price, m.shares⟩)).nextRef = v.nextRef + 1 := rfl
    rw [hnext]
    simp [Output.refs, BookEvent.ids, replacedMsg]
    lia

theorem Run.dated (h : Run {} v) : v.Dated := by
  have hfresh : Venue.Dated {} := by
    intro o ho
    cases ho
  exact (h.induct (P := fun u _ => u.Dated) inv_fresh hfresh (fun hu hd hs => hu.dated hd hs)).2

end refs

namespace Engine

/-- Everything the engine has or has sent was given out by its counter. -/
structure Past (a : Engine PriorityBook) : Prop where
  orders : ∀ {id}, a.nextRef ≤ id → a.orders.lookup id = none
  live : ∀ {key id}, a.liveTokens.lookup key = some id → id < a.nextRef
  book : ∀ {symbol side o}, o ∈ (a.bookOf symbol).side side → o.id < a.nextRef
  out : ∀ o ∈ a.out, ∀ r ∈ o.refs, r < a.nextRef

section refines

variable {sym : TokenKey → Symbol} {S : Symbol} {e : Engine PriorityBook} {v : Venue}

theorem Refines.bookOf (h : Refines e v) (symbol : Symbol) : e.bookOf symbol = v.book symbol :=
  h.books symbol

theorem Refines.past (h : Refines e v) (hv : Run {} v) : Past e := by
  have hinv := hv.inv inv_fresh
  have hfresh : ∀ {id info}, v.orders id = some info → id < e.nextRef := by
    intro id info hinfo
    rw [h.records.nextRef]
    exact hinv.keys.fresh hinfo
  refine ⟨?_, ?_, ?_, ?_⟩
  · intro id hid
    cases hinfo : e.orders.lookup id with
    | none => rfl
    | some info =>
      exact absurd (hfresh ((h.records.orders id).symm.trans hinfo))
        (Nat.not_lt.mpr hid)
  · intro key id hlive
    obtain ⟨info, hinfo, -⟩ := h.records.live.mp hlive
    exact hfresh hinfo
  · intro symbol side o ho
    rw [h.bookOf] at ho
    obtain ⟨info, hinfo, -⟩ := hinv.mirror.resting ho
    exact hfresh hinfo
  · rw [h.records.out, h.records.nextRef]
    exact hv.dated

theorem Refines.atRest (h : Refines e v) (hinv : Inv v none)
    (hfiled : Holds (fun _ info => sym info.key = info.symbol) e.orders) : AtRest sym e where
  filed := hfiled
  resting := by
    intro T id info hid hinfo
    obtain ⟨side, o, ho, rfl⟩ := PriorityBook.mem_ids.mp hid
    rw [h.bookOf] at ho
    obtain ⟨info', hinfo', hsymbol, -⟩ := hinv.mirror.resting ho
    cases hinfo'.symm.trans ((h.records.orders o.id).symm.trans hinfo)
    exact hsymbol
  live := by
    intro key id info hlive hinfo
    obtain ⟨info', hinfo', hkey⟩ := h.records.live.mp hlive
    cases hinfo'.symm.trans ((h.records.orders id).symm.trans hinfo)
    exact hkey
  fresh := by
    cases hinfo : e.orders.lookup e.nextRef with
    | none => rfl
    | some info =>
      rw [h.records.orders, h.records.nextRef] at hinfo
      exact absurd (hinv.keys.fresh hinfo) (Nat.lt_irrefl _)

end refines

/-! ## Section 2: Two runs -/

section twins

variable {sym : TokenKey → Symbol} {S : Symbol} {ρ : OrderId → OrderId}
  {e e' a : Engine PriorityBook}

/-- **Step lemma.** A command of another symbol, for the first engine only. The
    references to come move up by those it took. -/
theorem Twin.spare (h : Twin sym S ρ e a) (hmono : StrictMono ρ) (hspares : Spares sym S e e')
    (hpast : Past a) (hpast' : Past e') (hnext : e.nextRef ≤ e'.nextRef)
    (hgone : ∀ {id}, id < e.nextRef → e.orders.lookup id = none → e'.orders.lookup id = none)
    (hsuppress : e'.suppressOuchCancel = e.suppressOuchCancel) :
    ∃ ρ', StrictMono ρ' ∧ Twin sym S ρ' e' a := by
  obtain ⟨d, hd⟩ := Nat.exists_eq_add_of_le hnext
  obtain ⟨ρ', hbelow, habove⟩ : ∃ ρ' : OrderId → OrderId, (∀ i, i < a.nextRef → ρ' i = ρ i) ∧
      ∀ i, a.nextRef ≤ i → ρ' i = ρ i + d :=
    ⟨fun i => if i < a.nextRef then ρ i else ρ i + d, fun i hi => if_pos hi,
      fun i hi => if_neg (Nat.not_lt.mpr hi)⟩
  -- what the second engine has was given out before, where the renaming stays
  have hold : ∀ {i}, i < a.nextRef → ρ i = ρ' i := fun hi => (hbelow _ hi).symm
  refine ⟨ρ', ?_, ?_⟩
  · intro i j hij
    have hρ := hmono hij
    by_cases hi : i < a.nextRef
    · by_cases hj : j < a.nextRef
      · rw [hbelow i hi, hbelow j hj]
        exact hρ
      · rw [hbelow i hi, habove j (Nat.not_lt.mp hj)]
        exact Nat.lt_of_lt_of_le hρ (Nat.le_add_right _ _)
    · rw [habove i (Nat.not_lt.mp hi),
        habove j (Nat.le_trans (Nat.not_lt.mp hi) (Nat.le_of_lt hij))]
      exact Nat.add_lt_add_right hρ d
  · have hfuture : ∀ k, ρ' (a.nextRef + k) = e'.nextRef + k := by
      intro k
      rw [habove _ (Nat.le_add_right _ _), h.next, hd]
      exact Nat.add_right_comm _ _ _
    refine ⟨?_, h.only, ?_, ?_, ?_, hfuture, hsuppress.trans h.suppress, ?_⟩
    · intro id
      by_cases hid : id < a.nextRef
      · rw [hbelow id hid, ← h.orders id]
        cases hinfo : a.orders.lookup id with
        | some info =>
          have hlookup := (h.orders id).trans hinfo
          rw [hspares.orders (h.only hinfo) hlookup, hlookup]
        | none =>
          have hnone := (h.orders id).trans hinfo
          have hlt : ρ id < e.nextRef := by
            rw [h.nextRef]
            exact hmono hid
          rw [hgone hlt hnone, hnone]
      · -- neither engine has an order under a reference to come
        obtain ⟨k, rfl⟩ := Nat.exists_eq_add_of_le (Nat.not_lt.mp hid)
        rw [hfuture, hpast'.orders (Nat.le_add_right _ _), hpast.orders (Nat.le_add_right _ _)]
    · intro key hkey
      rw [hspares.live hkey, h.live hkey]
      cases hlive : a.liveTokens.lookup key with
      | none => rfl
      | some id => exact congrArg some (hold (hpast.live hlive))
    · intro key hkey
      rw [hspares.used hkey, h.used hkey]
    · rw [hspares.book, h.book]
      exact PriorityBook.rename_congr (fun side o ho => hold (hpast.book ho))
    · have hseen : seen sym S id e'.out = seen sym S id e.out := by
        unfold seen
        rw [hspares.out]
      rw [hseen, h.out]
      exact seen_congr (fun o ho r hr => hold (hpast.out o ho r hr))

theorem twin_fresh (sym : TokenKey → Symbol) (S : Symbol) : Twin sym S id {} {} where
  orders := fun _ => rfl
  only := by
    intro id info hinfo
    cases hinfo
  live := by
    intro key _
    rfl
  used := fun _ => Iff.rfl
  book := rfl
  next := fun _ => rfl
  suppress := rfl
  out := rfl

/-- What is known of the two engines between commands. Each has a venue behind it,
    and every order is filed under the symbol of its token. -/
structure Abreast (sym : TokenKey → Symbol) (S : Symbol) (ρ : OrderId → OrderId)
    (e a : Engine PriorityBook) : Prop where
  mono : StrictMono ρ
  twin : Twin sym S ρ e a
  full : ∃ v, Run {} v ∧ Refines e v
  part : ∃ u, Run {} u ∧ Refines a u
  filed : Holds (fun _ info => sym info.key = info.symbol) e.orders

theorem abreast_fresh (sym : TokenKey → Symbol) (S : Symbol) : Abreast sym S id {} {} where
  mono := strictMono_id
  twin := twin_fresh sym S
  full := ⟨{}, .nil _, refines_fresh⟩
  part := ⟨{}, .nil _, refines_fresh⟩
  filed := by
    intro id info hinfo
    cases hinfo

variable {cmd : Command}

/-- A command of any symbol, for an engine with a venue behind it. -/
theorem process_filed {v : Venue} (hv : Run {} v) (hr : Refines e v)
    (hfiled : Holds (fun _ info => sym info.key = info.symbol) e.orders)
    (hkeeps : cmd.KeepsTo (fun client token => sym (tokenKey client token))) {now : Nat}
    (hprocess : e.process now cmd = some e') :
    Holds (fun _ info => sym info.key = info.symbol) e'.orders := by
  -- any symbol other than the command's will do
  obtain ⟨S', hS'⟩ : ∃ S' : Symbol, sym (tokenKey cmd.clientId cmd.token) ≠ S' := by
    by_cases hzero : sym (tokenKey cmd.clientId cmd.token) = Vector.replicate 8 0
    · exact ⟨Vector.replicate 8 1, by rw [hzero]; decide⟩
    · exact ⟨_, hzero⟩
  exact ((hr.atRest (hv.inv inv_fresh) hfiled).process hkeeps hS' hprocess).filed

/-- **Step lemma.** A command of `S`, for both engines. -/
theorem Abreast.both (h : Abreast sym S ρ e a)
    (hkeeps : cmd.KeepsTo (fun client token => sym (tokenKey client token)))
    (hS : sym (tokenKey cmd.clientId cmd.token) = S) (now now' : Nat) :
    ∃ e' a', e.process now cmd = some e' ∧ a.process now' cmd = some a' ∧
      Abreast sym S ρ e' a' := by
  obtain ⟨v, hv, hr⟩ := h.full
  obtain ⟨u, hu, hr'⟩ := h.part
  obtain ⟨e', v', he, hsteps, hrefines⟩ := hr.process (hv.inv inv_fresh) now cmd
  obtain ⟨a', u', ha, hsteps', hrefines'⟩ := hr'.process (hu.inv inv_fresh) now' cmd
  obtain ⟨e₁, a₁, he₁, ha₁, htwin⟩ := h.twin.process h.mono.injective hkeeps hS now now'
  cases he.symm.trans he₁
  cases ha.symm.trans ha₁
  exact ⟨e', a', he, ha,
    { mono := h.mono
      twin := htwin
      full := ⟨v', .snoc now cmd.clientId hv hsteps, hrefines⟩
      part := ⟨u', .snoc now' cmd.clientId hu hsteps', hrefines'⟩
      filed := process_filed hv hr h.filed hkeeps he }⟩

/-- **Step lemma.** A command of another symbol, for the first engine only. -/
theorem Abreast.other (h : Abreast sym S ρ e a)
    (hkeeps : cmd.KeepsTo (fun client token => sym (tokenKey client token)))
    (hS : sym (tokenKey cmd.clientId cmd.token) ≠ S) (now : Nat) :
    ∃ e' ρ', e.process now cmd = some e' ∧ Abreast sym S ρ' e' a := by
  obtain ⟨v, hv, hr⟩ := h.full
  obtain ⟨u, hu, hr'⟩ := h.part
  obtain ⟨e', v', he, hsteps, hrefines⟩ := hr.process (hv.inv inv_fresh) now cmd
  have hv' : Run {} v' := .snoc now cmd.clientId hv hsteps
  have hspares := (hr.atRest (hv.inv inv_fresh) h.filed).process hkeeps hS he
  have hkept := ((hv.inv inv_fresh).steps_kept hsteps).2
  have hnext : e.nextRef ≤ e'.nextRef := by
    rw [hr.records.nextRef, hrefines.records.nextRef]
    exact hkept.nextRef
  -- a reference given out before is not given out again
  have hgone : ∀ {id}, id < e.nextRef → e.orders.lookup id = none → e'.orders.lookup id = none := by
    intro id hid hnone
    cases hinfo : e'.orders.lookup id with
    | none => rfl
    | some info' =>
      rw [hr.records.nextRef] at hid
      obtain ⟨info, hbefore, -⟩ := hkept.record hid ((hrefines.records.orders id).symm.trans hinfo)
      rw [hr.records.orders, hbefore] at hnone
      cases hnone
  obtain ⟨ρ', hmono, htwin⟩ := h.twin.spare h.mono hspares (hr'.past hu) (hrefines.past hv') hnext
    hgone (hrefines.records.suppress.trans hr.records.suppress.symm)
  exact ⟨e', ρ', he,
    { mono := hmono
      twin := htwin
      full := ⟨v', hv', hrefines⟩
      part := ⟨u, hu, hr'⟩
      filed := hspares.filed }⟩

/-- **Run lemma.** -/
theorem twins_run (sym : TokenKey → Symbol) (S : Symbol) {cmds alone : List (Nat × Command)}
    (hkeeps : ∀ c ∈ cmds, c.2.KeepsTo (fun client token => sym (tokenKey client token)))
    (halone : alone.map Prod.snd =
      (cmds.map Prod.snd).filter (fun cmd => sym (tokenKey cmd.clientId cmd.token) = S)) :
    ∃ e a ρ, Engine.run ({} : Engine PriorityBook) cmds = some e ∧
      Engine.run ({} : Engine PriorityBook) alone = some a ∧ Abreast sym S ρ e a := by
  induction cmds using List.reverseRecOn generalizing alone with
  | nil =>
    obtain rfl : alone = [] := List.map_eq_nil_iff.mp halone
    exact ⟨{}, {}, id, rfl, rfl, abreast_fresh sym S⟩
  | append_singleton cmds c ih =>
    have hcmd := hkeeps c (by simp)
    have hbefore := fun c' hc' => hkeeps c' (List.mem_append_left _ hc')
    rw [List.map_append, List.filter_append, List.map_singleton] at halone
    by_cases hS : sym (tokenKey c.2.clientId c.2.token) = S
    · rw [List.filter_cons_of_pos (by simpa using hS), List.filter_nil] at halone
      -- the second engine gets the command too, at a time of its own
      obtain ⟨alone₀, last, rfl, hbefore₀, hlast⟩ := List.map_eq_append_iff.mp halone
      obtain ⟨c', rfl, hc'⟩ := List.map_eq_singleton_iff.mp hlast
      obtain ⟨e, a, ρ, he, ha, habreast⟩ := ih hbefore hbefore₀
      obtain ⟨e', a', hp, hp', habreast'⟩ := habreast.both hcmd hS c.1 c'.1
      refine ⟨e', a', ρ, ?_, ?_, habreast'⟩
      · rw [run_snoc, he]
        exact hp
      · rw [run_snoc, ha, Option.bind_some, hc']
        exact hp'
    · rw [List.filter_cons_of_neg (by simpa using hS), List.filter_nil, List.append_nil] at halone
      obtain ⟨e, a, ρ, he, ha, habreast⟩ := ih hbefore halone
      obtain ⟨e', ρ', hp, habreast'⟩ := habreast.other hcmd hS c.1
      refine ⟨e', a, ρ', ?_, ha, habreast'⟩
      rw [run_snoc, he]
      exact hp

end twins

/-! ## Section 3: The engine of the source -/

section seen

variable (sym : TokenKey → Symbol) (S : Symbol) (ρ : OrderId → OrderId) (log : List Output)

/-- One of the two queues, as `f` picks it from the log. -/
theorem filterMap_seen {β : Type} {f : Output → Option β} {keep : β → Prop} [DecidablePred keep]
    {g : β → β} (hrelabel : ∀ o, f (o.relabel ρ) = (f o).map g)
    (hkeep : ∀ {o x}, f o = some x → (o.symbol sym = S ↔ keep x)) :
    (seen sym S ρ log).filterMap f = ((log.filterMap f).filter (fun x => keep x)).map g := by
  induction log with
  | nil => rfl
  | cons o log ih =>
    unfold seen at ih ⊢
    cases hf : f o with
    | none =>
      by_cases hS : o.symbol sym = S
      · simpa [hS, hrelabel, hf] using ih
      · simpa [hS, hf] using ih
    | some x =>
      by_cases hS : o.symbol sym = S
      · simpa [hS, hrelabel, hf, (hkeep hf).mp hS] using ih
      · simpa [hS, hf, mt (hkeep hf).mpr hS] using ih

theorem marketEventsOf_seen : marketEventsOf (seen sym S ρ log) =
    ((marketEventsOf log).filter (fun m => m.symbol = S)).map (MarketEvent.relabel ρ) := by
  apply filterMap_seen
  · rintro (r | m) <;> rfl
  · rintro (r | m) x ⟨⟩
    exact Iff.rfl

theorem responsesOf_seen : responsesOf (seen sym S ρ log) =
    ((responsesOf log).filter (fun r => sym (tokenKey r.clientId r.msg.token) = S)).map
      (ClientResponse.relabel ρ) := by
  apply filterMap_seen
  · rintro (r | m) <;> rfl
  · rintro (r | m) x ⟨⟩
    exact Iff.rfl

end seen

/-- The market events for a symbol, without times and with references renamed. -/
def eventsFor (S : Symbol) (ρ : OrderId → OrderId) (e : Engine FastBook) : List MarketEvent :=
  (e.marketEvents.filter (fun m => m.symbol = S)).map (MarketEvent.relabel ρ)

/-- The responses for the tokens of a symbol, without times and with references
    renamed. -/
def responsesFor (sym : Nat → Token → Symbol) (S : Symbol) (ρ : OrderId → OrderId)
    (e : Engine FastBook) : List ClientResponse :=
  (e.responses.filter (fun r => sym r.clientId r.msg.token = S)).map (ClientResponse.relabel ρ)

theorem bookSnapshot_eq (e : Engine PriorityBook) (symbol : Symbol) :
    e.bookSnapshot symbol = some (e.bookOf symbol).snapshot := by
  unfold bookSnapshot bookOf
  cases e.books.lookup symbol <;> rfl

/-- **Symbols are independent.** Every token of a client belongs to a symbol. The
    engine that processes all commands, and the one that processes those of `S`
    only, at any times: up to times and a strictly increasing renaming of the
    references, they have the same book of `S`, publish the same events for `S`
    and send the same responses for the tokens of `S`. -/
theorem symbols_independent (sym : Nat → Token → Symbol) (S : Symbol)
    {cmds alone : List (Nat × Command)} (hkeeps : ∀ c ∈ cmds, c.2.KeepsTo sym)
    (halone : alone.map Prod.snd =
      (cmds.map Prod.snd).filter (fun cmd => sym cmd.clientId cmd.token = S)) :
    ∃ e a ρ, Engine.run ({} : Engine FastBook) cmds = some e ∧
      Engine.run ({} : Engine FastBook) alone = some a ∧ StrictMono ρ ∧
      (∃ snap, a.bookSnapshot S = some snap ∧ e.bookSnapshot S = some (snap.rename ρ)) ∧
      eventsFor S id e = eventsFor S ρ a ∧ responsesFor sym S id e = responsesFor sym S ρ a := by
  -- the engine keeps tokens without their padding, which loses nothing
  obtain ⟨symKey, hsym⟩ : ∃ symKey : TokenKey → Symbol,
      sym = fun client token => symKey (tokenKey client token) := by
    have hinj : Function.Injective (fun p : Nat × Token => tokenKey p.1 p.2) := by
      rintro ⟨client, token⟩ ⟨client', token'⟩ h
      obtain ⟨hclient, hview⟩ := Prod.mk.inj h
      exact Prod.ext hclient (Ouch.tokenView_injective hview)
    refine ⟨Function.extend (fun p : Nat × Token => tokenKey p.1 p.2) (fun p => sym p.1 p.2)
      (fun _ => S), ?_⟩
    funext client token
    exact (hinj.extend_apply (fun p => sym p.1 p.2) _ (client, token)).symm
  subst hsym
  obtain ⟨e, a, ρ, he, ha, habreast⟩ := twins_run symKey S hkeeps halone
  have htwin := habreast.twin
  obtain ⟨e₁, e₂, he₁, he₂, hsim⟩ := sim_fresh.run cmds
  obtain ⟨a₁, a₂, ha₁, ha₂, hsim'⟩ := sim_fresh.run alone
  cases he.symm.trans he₂
  cases ha.symm.trans ha₂
  have hout : e₁.out = e.out ∧ a₁.out = a.out := by
    obtain ⟨books, rfl, -⟩ := hsim
    obtain ⟨books', rfl, -⟩ := hsim'
    exact ⟨rfl, rfl⟩
  refine ⟨e₁, a₁, ρ, he₁, ha₁, habreast.mono, ⟨(a.bookOf S).snapshot, ?_, ?_⟩, ?_, ?_⟩
  · rw [hsim'.bookSnapshot, bookSnapshot_eq]
  · rw [hsim.bookSnapshot, bookSnapshot_eq, htwin.book, PriorityBook.snapshot_rename]
  · have hevents := congrArg marketEventsOf htwin.out
    rw [marketEventsOf_seen, marketEventsOf_seen] at hevents
    rw [eventsFor, eventsFor, marketEvents, marketEvents, hout.1, hout.2]
    exact hevents
  · have hresponses := congrArg responsesOf htwin.out
    rw [responsesOf_seen, responsesOf_seen] at hresponses
    rw [responsesFor, responsesFor, responses, responses, hout.1, hout.2]
    exact hresponses

/-! ### Two clients, each with a symbol of its own -/

def stockOf (client : Nat) (_ : Token) : Symbol := Vector.replicate 8 (UInt8.ofNat client)

def buyFor (client : Nat) : Command := ⟨client, .enter (dayOrder 65 .buy (UInt8.ofNat client))⟩

/-- The order of the second client has reference 2, and 1 when it is alone. -/
theorem symbols_independent_two : ∃ e a ρ,
    Engine.run ({} : Engine FastBook) [(0, buyFor 1), (3, buyFor 2)] = some e ∧
    Engine.run ({} : Engine FastBook) [(9, buyFor 2)] = some a ∧ StrictMono ρ ∧
    ∃ snap, a.bookSnapshot (Vector.replicate 8 2) = some snap ∧
      e.bookSnapshot (Vector.replicate 8 2) = some (snap.rename ρ) := by
  have hkeeps : ∀ c ∈ [(0, buyFor 1), (3, buyFor 2)], c.2.KeepsTo stockOf := by
    intro c hc
    rcases List.mem_pair.mp hc with rfl | rfl <;> rfl
  have halone : [(9, buyFor 2)].map Prod.snd =
      ([(0, buyFor 1), (3, buyFor 2)].map Prod.snd).filter
        (fun cmd => stockOf cmd.clientId cmd.token = Vector.replicate 8 2) := by decide
  obtain ⟨e, a, ρ, he, ha, hmono, hsnap, -⟩ := symbols_independent stockOf _ hkeeps halone
  exact ⟨e, a, ρ, he, ha, hmono, hsnap⟩

end Engine

end MatchingEngine
