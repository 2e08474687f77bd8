import MatchingEngine.Book.FastBookQueries
import MatchingEngine.Engine.Engine
import Mathlib.Data.Option.Basic

/-! # The engine over abstract books

    The engine of the source runs over fast books. The same engine over
    priority books takes every command in the same way: it sends the same
    outputs and keeps the same records. Properties of the engine are therefore
    shown over priority books and hold over fast books.
-/

namespace MatchingEngine

namespace Engine

/-! ## Section 1: Exchanging the books -/

/-- The same engine with other books. -/
def withBooks {B C : Type} (e : Engine B) (books : Finmap (fun _ : Symbol => C)) : Engine C where
  books := books
  orders := e.orders
  liveTokens := e.liveTokens
  usedTokens := e.usedTokens
  nextRef := e.nextRef
  currentSymbol := e.currentSymbol
  now := e.now
  suppressOuchCancel := e.suppressOuchCancel
  out := e.out
  faults := e.faults

section callbacks

variable {B C : Type} (e : Engine B) (books : Finmap (fun _ : Symbol => C))

theorem reduceOpen_withBooks (id : OrderId) (qty : Qty) :
    (e.withBooks books).reduceOpen id qty = (e.reduceOpen id qty).withBooks books ∧
      (e.reduceOpen id qty).books = e.books := by
  simp only [reduceOpen, withBooks, audit]
  cases e.orders.lookup id with
  | none => exact ⟨rfl, rfl⟩
  | some info =>
    dsimp only
    split <;> split <;> exact ⟨rfl, rfl⟩

theorem notify_withBooks (x : ExecutedEvent) (id : OrderId) (liquidity : Char) :
    (e.withBooks books).notify x id liquidity = (e.notify x id liquidity).withBooks books ∧
      (e.notify x id liquidity).books = e.books := by
  simp only [notify, withBooks]
  cases e.orders.lookup id <;> exact ⟨rfl, rfl⟩

theorem tellCanceled_withBooks (x : CanceledEvent) :
    (e.withBooks books).tellCanceled x = (e.tellCanceled x).withBooks books ∧
      (e.tellCanceled x).books = e.books := by
  have hfields : (e.withBooks books).suppressOuchCancel = e.suppressOuchCancel ∧
      (e.withBooks books).orders = e.orders := ⟨rfl, rfl⟩
  simp only [tellCanceled, hfields]
  by_cases hs : e.suppressOuchCancel = true
  · simp only [hs, if_true, and_self]
  · simp only [if_neg hs]
    cases e.orders.lookup x.id <;> exact ⟨rfl, rfl⟩

theorem onCanceled_withBooks (x : CanceledEvent) :
    (e.withBooks books).onCanceled x = (e.onCanceled x).withBooks books ∧
      (e.onCanceled x).books = e.books := by
  obtain ⟨h₁, h₂⟩ := tellCanceled_withBooks (e.publish (.canceled x)) books x
  simp only [onCanceled]
  rw [show (e.withBooks books).publish (.canceled x) = (e.publish (.canceled x)).withBooks books
    from rfl, h₁]
  generalize (e.publish (.canceled x)).tellCanceled x = e₁ at h₂
  by_cases hr : x.removed = true
  · simp only [hr, if_true]
    exact ⟨(reduceOpen_withBooks e₁ books _ _).1, (reduceOpen_withBooks e₁ books _ _).2.trans h₂⟩
  · simp only [hr, Bool.false_eq_true, if_false]
    rw [show (e₁.withBooks books).orders = e₁.orders from rfl]
    cases e₁.orders.lookup x.id with
    | none => exact ⟨rfl, h₂⟩
    | some info =>
      simp only [audit]
      split <;> exact ⟨rfl, h₂⟩

theorem onEvent_withBooks (ev : BookEvent) :
    (e.withBooks books).onEvent ev = (e.onEvent ev).withBooks books ∧
      (e.onEvent ev).books = e.books := by
  cases ev with
  | added x => exact ⟨rfl, rfl⟩
  | executed x =>
    simp only [onEvent, onExecuted]
    rw [show (e.withBooks books).publish (.executed x) = (e.publish (.executed x)).withBooks books
      from rfl]
    simp only [(notify_withBooks _ _ _ _ _).1, (reduceOpen_withBooks _ _ _ _).1,
      (notify_withBooks _ books _ _ _).2, (reduceOpen_withBooks _ books _ _).2, true_and]
    rfl
  | canceled x => exact onCanceled_withBooks e books x
  | replaced x => exact ⟨rfl, rfl⟩

/-- The callbacks do not look at the books. -/
theorem onEvents_withBooks (events : List BookEvent) :
    (e.withBooks books).onEvents events = (e.onEvents events).withBooks books ∧
      (e.onEvents events).books = e.books := by
  induction events generalizing e with
  | nil => exact ⟨rfl, rfl⟩
  | cons ev events ih =>
    obtain ⟨h₁, h₂⟩ := onEvent_withBooks e books ev
    obtain ⟨ih₁, ih₂⟩ := ih (e.onEvent ev)
    exact ⟨by simpa only [onEvents, List.foldl_cons, h₁] using ih₁, ih₂.trans h₂⟩

end callbacks

/-! ## Section 2: Simulation -/

/-- Corresponding books implement each other. -/
def BooksRel (books : Finmap (fun _ : Symbol => FastBook))
    (books' : Finmap (fun _ : Symbol => PriorityBook)) : Prop :=
  ∀ symbol, Option.Rel FastBook.Models (books.lookup symbol) (books'.lookup symbol)

theorem BooksRel.lookup {books : Finmap (fun _ : Symbol => FastBook)}
    {books' : Finmap (fun _ : Symbol => PriorityBook)} (h : BooksRel books books')
    (symbol : Symbol) : (books.lookup symbol = none ∧ books'.lookup symbol = none) ∨
      ∃ fb b, books.lookup symbol = some fb ∧ books'.lookup symbol = some b ∧ fb.Models b := by
  have hrel := h symbol
  cases hl : books.lookup symbol <;> cases hl' : books'.lookup symbol <;> rw [hl, hl'] at hrel <;>
    cases hrel
  · exact Or.inl ⟨rfl, rfl⟩
  · next hm => exact Or.inr ⟨_, _, rfl, rfl, hm⟩

/-- The engine of the source and the one over priority books. -/
def Sim (e : Engine FastBook) (a : Engine PriorityBook) : Prop :=
  ∃ books, e = a.withBooks books ∧ BooksRel books a.books

theorem fresh_models : FastBook.Models (Book.fresh : FastBook) (Book.fresh : PriorityBook) :=
  FastBook.models_create ⟨by decide, by decide, by decide⟩

theorem sim_fresh : Sim {} {} :=
  ⟨∅, rfl, fun symbol => by simp⟩

section sim

variable {e : Engine FastBook} {a : Engine PriorityBook}

theorem Sim.setBook (h : Sim e a) {fb : FastBook} {b : PriorityBook} (hm : fb.Models b)
    (symbol : Symbol) : Sim (e.setBook symbol fb) (a.setBook symbol b) := by
  obtain ⟨books, rfl, hb⟩ := h
  refine ⟨books.insert symbol fb, rfl, fun sym => ?_⟩
  by_cases hs : sym = symbol
  · subst hs
    simpa [Engine.setBook] using Option.Rel.some hm
  · simpa [Engine.setBook, Finmap.lookup_insert_of_ne _ hs] using hb sym

theorem Sim.bookFor (h : Sim e a) (symbol : Symbol) :
    Sim (e.bookFor symbol).1 (a.bookFor symbol).1 ∧
      (e.bookFor symbol).2.Models (a.bookFor symbol).2 := by
  obtain ⟨books, rfl, hb⟩ := h
  have hfields : (a.withBooks books).books = books := rfl
  rcases hb.lookup symbol with ⟨hl, hl'⟩ | ⟨fb, b, hl, hl', hm⟩
  · simp only [Engine.bookFor, hfields, hl, hl']
    exact ⟨Sim.setBook ⟨books, rfl, hb⟩ fresh_models symbol, fresh_models⟩
  · simp only [Engine.bookFor, hfields, hl, hl']
    exact ⟨⟨books, rfl, hb⟩, hm⟩

theorem Sim.onEvents (h : Sim e a) (events : List BookEvent) :
    Sim (e.onEvents events) (a.onEvents events) := by
  obtain ⟨books, rfl, hb⟩ := h
  obtain ⟨h₁, h₂⟩ := onEvents_withBooks a books events
  exact ⟨books, h₁, h₂ ▸ hb⟩

theorem Sim.audit (h : Sim e a) (bad : Bool) (fault : Fault) :
    Sim (e.audit bad fault) (a.audit bad fault) := by
  obtain ⟨books, rfl, hb⟩ := h
  cases bad <;> exact ⟨books, rfl, hb⟩

theorem Sim.cancelUnrested (h : Sim e a) (client : Nat) (ref : OrderId) (token : Ouch.Token)
    (qty : Qty) (reason : Char) :
    Sim (e.cancelUnrested client ref token qty reason)
      (a.cancelUnrested client ref token qty reason) := by
  obtain ⟨books, rfl, hb⟩ := h
  exact ⟨books, rfl, hb⟩

theorem minQtyUnmet_sim {fb : FastBook} {b : PriorityBook} (hm : fb.Models b) (side : Side)
    (limit : Price) (minQty : Qty) :
    ∃ fb' unmet, minQtyUnmet fb side limit minQty = some (fb', unmet) ∧
      minQtyUnmet b side limit minQty = some (b, unmet) ∧ fb'.Models b := by
  unfold minQtyUnmet
  split
  · obtain ⟨fb', heq, hm'⟩ := hm.matchable side limit
    refine ⟨fb', decide (b.matchable side limit < minQty), ?_, rfl, hm'⟩
    rw [show Book.matchable fb side limit = _ from heq]
    rfl
  · exact ⟨fb, false, rfl, rfl, hm⟩

/-- Both engines do the same with an accepted order. -/
theorem Sim.execute (h : Sim e a) (client : Nat) (m : Ouch.EnterOrder) (side : Side)
    (ref : OrderId) :
    ∃ e' a', e.execute client m side ref = some e' ∧ a.execute client m side ref = some a' ∧
      Sim e' a' := by
  obtain ⟨h₁, hm₁⟩ := h.bookFor m.stock
  simp only [Engine.execute]
  generalize limitFor m side = limit
  obtain ⟨fb₂, unmet, hf₂, hb₂, hm₂⟩ := minQtyUnmet_sim hm₁ side limit m.minQty
  have h₂ := h₁.setBook hm₂ m.stock
  simp only [hf₂, hb₂, Option.bind_eq_bind, Option.bind_some]
  split
  · exact ⟨_, _, rfl, rfl, h₂.cancelUnrested client ref m.token m.shares 'D'⟩
  split
  · obtain ⟨fb₃, hf₃, hm₃⟩ := hm₂.matchOrder ref side limit m.shares
    have h₃ := (h₂.setBook hm₃ m.stock).onEvents
      ((a.bookFor m.stock).2.executeIoc ref side limit m.shares).2.2
    rw [show Book.executeIoc fb₂ ref side limit m.shares = _ from hf₃,
      PriorityBook.book_executeIoc]
    simp only [Option.bind_some]
    split
    · exact ⟨_, _, rfl, rfl, h₃.cancelUnrested client ref m.token _ 'I'⟩
    · exact ⟨_, _, rfl, rfl, h₃⟩
  · obtain ⟨fb₃, hf₃, hm₃⟩ := hm₂.add ref side m.price m.shares
    have h₃ := (h₂.setBook hm₃ m.stock).onEvents
      ((a.bookFor m.stock).2.add ref side m.price m.shares).2.2
    rw [show Book.add fb₂ ref side m.price m.shares = _ from hf₃,
      PriorityBook.book_add]
    simp only [Option.bind_some]
    exact ⟨_, _, rfl, rfl, h₃.audit _ _⟩

theorem Sim.handleEnter (h : Sim e a) (client : Nat) (m : Ouch.EnterOrder) :
    ∃ e' a', e.handleEnter client m = some e' ∧ a.handleEnter client m = some a' ∧ Sim e' a' := by
  obtain ⟨books, rfl, hb⟩ := h
  have hused : (a.withBooks books).tokenUsed client m.token = a.tokenUsed client m.token := rfl
  have hreject : ∀ reason, Sim ((a.withBooks books).reject client m.token reason)
      (a.reject client m.token reason) := fun _ => ⟨books, rfl, hb⟩
  simp only [Engine.handleEnter, hused]
  split
  · exact ⟨_, _, rfl, rfl, hreject 'T'⟩
  split
  · exact ⟨_, _, rfl, rfl, hreject 'X'⟩
  split
  · exact ⟨_, _, rfl, rfl, hreject 'Z'⟩
  split
  · exact ⟨_, _, rfl, rfl, hreject 'S'⟩
  · next side _ =>
    have h₁ : Sim ((a.withBooks books).accept client m side) (a.accept client m side) :=
      ⟨books, rfl, hb⟩
    exact h₁.execute client m side a.nextRef

theorem Sim.handleCancel (h : Sim e a) (client : Nat) (m : Ouch.CancelOrder) :
    ∃ e' a', e.handleCancel client m = some e' ∧ a.handleCancel client m = some a' ∧ Sim e' a' := by
  obtain ⟨books, rfl, hb⟩ := h
  have hfields : (a.withBooks books).liveTokens = a.liveTokens ∧
      (a.withBooks books).orders = a.orders := ⟨rfl, rfl⟩
  simp only [Engine.handleCancel, hfields]
  split
  · exact ⟨_, _, rfl, rfl, books, rfl, hb⟩
  next id _ =>
  split
  · exact ⟨_, _, rfl, rfl, books, rfl, hb⟩
  next info _ =>
  have h₁ : Sim ((a.withBooks books).setSymbol info.symbol) (a.setSymbol info.symbol) :=
    ⟨books, rfl, hb⟩
  obtain ⟨h₂, hm₂⟩ := h₁.bookFor info.symbol
  obtain ⟨fb₃, hf₃, hm₃⟩ := hm₂.cancel id m.shares
  refine ⟨_, _, ?_, rfl, (h₂.setBook hm₃ info.symbol).onEvents _⟩
  simp only [Book.cancel, Option.bind_eq_bind, hf₃, Option.bind_some]

theorem Sim.handleReplace (h : Sim e a) (client : Nat) (m : Ouch.ReplaceOrder) :
    ∃ e' a', e.handleReplace client m = some e' ∧ a.handleReplace client m = some a' ∧
      Sim e' a' := by
  obtain ⟨books, rfl, hb⟩ := h
  have hfields : (a.withBooks books).liveTokens = a.liveTokens ∧
      (a.withBooks books).orders = a.orders ∧
      (a.withBooks books).tokenUsed client m.replacementToken =
        a.tokenUsed client m.replacementToken := ⟨rfl, rfl, rfl⟩
  simp only [Engine.handleReplace, hfields]
  split
  · exact ⟨_, _, rfl, rfl, books, rfl, hb⟩
  next oldRef _ =>
  split
  · exact ⟨_, _, rfl, rfl, books, rfl, hb⟩
  split
  · exact ⟨_, _, rfl, rfl, books, rfl, hb⟩
  split
  · exact ⟨_, _, rfl, rfl, books, rfl, hb⟩
  next old _ =>
  have h₁ : Sim (((a.withBooks books).swap client m oldRef old).setSuppress true)
      ((a.swap client m oldRef old).setSuppress true) := ⟨books, rfl, hb⟩
  obtain ⟨h₂, hm₂⟩ := h₁.bookFor old.symbol
  obtain ⟨fb₃, hf₃, hm₃⟩ := hm₂.replace oldRef a.nextRef m.price m.shares
  have hnext : (a.withBooks books).nextRef = a.nextRef := rfl
  obtain ⟨books', heq, hb'⟩ := ((h₂.setBook hm₃ old.symbol).onEvents
    ((((a.swap client m oldRef old).setSuppress true).bookFor old.symbol).2.replace
      oldRef a.nextRef m.price m.shares).2.2).audit
    (!((((a.swap client m oldRef old).setSuppress true).bookFor old.symbol).2.replace
      oldRef a.nextRef m.price m.shares).2.1) .replaceFailed
  refine ⟨_, _, ?_, rfl, books', congrArg (Engine.setSuppress · false) heq, hb'⟩
  simp only [Book.replace, hnext, hf₃, Option.bind_eq_bind, Option.bind_some]

/-- **Both engines process a command alike.** -/
theorem Sim.process (h : Sim e a) (now : Nat) (cmd : Command) :
    ∃ e' a', e.process now cmd = some e' ∧ a.process now cmd = some a' ∧ Sim e' a' := by
  have h₁ : Sim (e.setNow now) (a.setNow now) := by
    obtain ⟨books, rfl, hb⟩ := h
    exact ⟨books, rfl, hb⟩
  unfold Engine.process
  cases cmd.msg with
  | enter m => exact h₁.handleEnter cmd.clientId m
  | cancel m => exact h₁.handleCancel cmd.clientId m
  | replace m => exact h₁.handleReplace cmd.clientId m

/-- **Run lemma.** Both engines take the same commands to related states. -/
theorem Sim.run (h : Sim e a) (cmds : List (Nat × Command)) :
    ∃ e' a', e.run cmds = some e' ∧ a.run cmds = some a' ∧ Sim e' a' := by
  induction cmds generalizing e a with
  | nil => exact ⟨e, a, rfl, rfl, h⟩
  | cons c cmds ih =>
    obtain ⟨e₁, a₁, he, ha, h₁⟩ := h.process c.1 c.2
    obtain ⟨e', a', he', ha', h'⟩ := ih h₁
    refine ⟨e', a', ?_, ?_, h'⟩
    · simpa only [Engine.run, List.foldlM_cons, he, Option.bind_eq_bind, Option.bind_some] using he'
    · simpa only [Engine.run, List.foldlM_cons, ha, Option.bind_eq_bind, Option.bind_some] using ha'

theorem Sim.bookSnapshot (h : Sim e a) (symbol : Symbol) :
    e.bookSnapshot symbol = a.bookSnapshot symbol := by
  obtain ⟨books, rfl, hb⟩ := h
  have hfields : (a.withBooks books).books = books := rfl
  rcases hb.lookup symbol with ⟨hl, hl'⟩ | ⟨fb, b, hl, hl', hm⟩
  · simp only [Engine.bookSnapshot, hfields, hl, hl']
  · simp only [Engine.bookSnapshot, hfields, hl, hl']
    exact hm.snapshot

end sim

end Engine

end MatchingEngine
