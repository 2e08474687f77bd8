import MatchingEngine.Engine.Refines

/-! # The engine's records mirror its books

    The engine keeps a second copy of every resting order and updates it in the
    callbacks of the books. In every state it reaches, the two copies agree and
    nothing it ignores has gone wrong.
-/

namespace MatchingEngine

namespace Engine

/-- What holds of the engine between commands. -/
structure Mirrored (e : Engine FastBook) : Prop where
  /-- Every book can be read. -/
  readable : ∀ symbol, ∃ snap, e.bookSnapshot symbol = some snap
  /-- The orders of a book are the recorded orders of its symbol, with their
      sides and open quantities. -/
  resting : ∀ {symbol snap}, e.bookSnapshot symbol = some snap → ∀ {side id qty},
    (∃ o ∈ PriorityBook.entries snap side, o.id = id ∧ o.openQty = qty) ↔
      ∃ info, e.orders.lookup id = some info ∧ info.symbol = symbol ∧ info.side = side ∧
        info.openQty = qty
  /-- An order stands once in its book. -/
  once : ∀ {symbol snap}, e.bookSnapshot symbol = some snap →
    ((PriorityBook.entries snap .buy ++ PriorityBook.entries snap .sell).map Resting.id).Nodup
  /-- The book knows the ids of these orders and no others. -/
  known : ∀ {symbol fb}, e.books.lookup symbol = some fb → ∀ {id},
    fb.contains id = some true ↔ ∃ info, e.orders.lookup id = some info ∧ info.symbol = symbol
  /-- Live tokens and recorded orders correspond one to one. -/
  tokens : ∀ {key id}, e.liveTokens.lookup key = some id ↔
    ∃ info, e.orders.lookup id = some info ∧ info.key = key
  used : ∀ {key id}, e.liveTokens.lookup key = some id → key ∈ e.usedTokens
  fresh : ∀ {id info}, e.orders.lookup id = some info → id < e.nextRef
  suppress : e.suppressOuchCancel = false
  /-- No `add` or `replace` failed, and no open quantity wrapped. -/
  faults : e.faults = []

theorem Realizes.mirrored {e : Engine FastBook} {v : Venue} (h : Realizes e v) (hinv : Inv v none) :
    Mirrored e := by
  have hrec := h.records
  have hwf := hinv.mirror.wf
  have hmem : ∀ {symbol side id}, (∃ o ∈ (v.book symbol).side side, o.id = id) ↔
      ∃ info, v.orders id = some info ∧ info.symbol = symbol ∧ info.side = side := by
    intro symbol side id
    constructor
    · rintro ⟨o, ho, rfl⟩
      obtain ⟨info, hi, hsym, hside, -⟩ := hinv.mirror.resting ho
      exact ⟨info, hi, hsym, hside⟩
    · rintro ⟨info, hi, rfl, rfl⟩
      exact hinv.rests hi
  refine ⟨fun symbol => ⟨_, h.bookSnapshot symbol⟩, ?_, ?_, ?_, ?_, ?_, ?_, hrec.suppress,
    hrec.faults⟩
  · intro symbol snap hs side id qty
    cases (h.bookSnapshot symbol).symm.trans hs
    rw [(hwf symbol).entries_snapshot, hrec.orders]
    constructor
    · rintro ⟨o, ho, rfl, rfl⟩
      exact hinv.mirror.resting ho
    · rintro ⟨info, hi, rfl, rfl, rfl⟩
      obtain ⟨o, ho, rfl⟩ := hinv.rests hi
      exact ⟨o, ho, rfl, (hinv.mirror.record ho hi).2.2.symm⟩
  · intro symbol snap hs
    cases (h.bookSnapshot symbol).symm.trans hs
    rw [(hwf symbol).entries_snapshot, (hwf symbol).entries_snapshot, List.map_append]
    refine List.Nodup.append ((hwf symbol).sides .buy).nodup ((hwf symbol).sides .sell).nodup ?_
    intro id hbuy hsell
    obtain ⟨x, hx, rfl⟩ := List.mem_map.mp hbuy
    obtain ⟨y, hy, hxy⟩ := List.mem_map.mp hsell
    exact ((hwf symbol).apart .buy x hx y hy).1 hxy.symm
  · intro symbol fb hl id
    rw [(h.models hl).contains, hrec.orders, Option.some.injEq, PriorityBook.contains_iff]
    simp only [hmem]
    exact ⟨fun ⟨_, info, hi, hsym, _⟩ => ⟨info, hi, hsym⟩,
      fun ⟨info, hi, hsym⟩ => ⟨info.side, info, hi, hsym, rfl⟩⟩
  · intro key id
    rw [hrec.live, hrec.orders]
  · intro key id hl
    obtain ⟨info, hi, rfl⟩ := hrec.live.mp hl
    exact hrec.used ▸ hinv.keys.used hi
  · intro id info hi
    exact hrec.nextRef ▸ hinv.keys.fresh ((hrec.orders id).symm.trans hi)

/-- **The engine's bookkeeping mirrors its books**, after any commands. -/
theorem engine_mirrors_books (cmds : List (Nat × Command)) :
    ∃ e, ({} : Engine FastBook).run cmds = some e ∧ Mirrored e := by
  obtain ⟨e, v, hrun, hv, hreal⟩ := realizes_fresh.run inv_fresh cmds
  exact ⟨e, hrun, hreal.mirrored (hv.inv inv_fresh)⟩

end Engine

end MatchingEngine
