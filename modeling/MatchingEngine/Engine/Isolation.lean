import MatchingEngine.Engine.Accounting

/-! # Clients do not touch each other's orders

    A command of one client leaves the orders of the others where they are. They
    lose shares to executions only, and each share lost is reported to its owner.

    `foreign` selects the orders of others, by the records before the command.
    `Untouched` is kept by every step of the command.
-/

namespace MatchingEngine

open Venue PriorityBook

variable {o : Resting} {n : Nat}

/-! ## Section 1: Orders that lose shares -/

/-- What is left of a resting order when `n` shares are gone. -/
def Resting.less (o : Resting) (n : Nat) : Option Resting :=
  if o.openQty.toNat ≤ n then none else some { o with openQty := o.openQty - UInt32.ofNat n }

theorem Resting.less_zero (h : o.openQty ≠ 0) : o.less 0 = some o := by
  have hpos : ¬ o.openQty.toNat ≤ 0 := by simpa [← UInt32.toNat_inj] using h
  simp [less, hpos]

theorem Resting.less_stamp {o' : Resting} (h : o.less n = some o') :
    stamp o' = stamp o := by
  unfold less at h
  split at h
  · cases h
  · cases h
    rfl

theorem Resting.less_id {o' : Resting} (h : o.less n = some o') : o'.id = o.id :=
  congrArg Prod.fst (less_stamp h)

/-- Reduce the order with a given id. -/
def reduceAt (id : OrderId) (n : Nat) (y : Resting) : Option Resting :=
  if y.id = id then y.less n else some y

theorem reduceAt_stamp {id : OrderId} {y z : Resting} (h : reduceAt id n y = some z) :
    stamp z = stamp y := by
  unfold reduceAt at h
  split at h
  · exact Resting.less_stamp h
  · cases h
    rfl

theorem reduceAt_of_ne {id : OrderId} {y : Resting} (h : y.id ≠ id) (n : Nat) :
    reduceAt id n y = some y :=
  if_neg h

/-- Shares may go in two lots. -/
theorem Resting.less_add (o : Resting) (m n : Nat) :
    o.less (m + n) = (o.less m).bind (fun o' => o'.less n) := by
  unfold less
  by_cases hm : o.openQty.toNat ≤ m
  · simp [hm, Nat.le_trans hm (Nat.le_add_right m n)]
  · have hlt := o.openQty.toNat_lt
    have hm' : (UInt32.ofNat m).toNat = m :=
      UInt32.toNat_ofNat_of_lt' (Nat.lt_trans (Nat.lt_of_not_le hm) hlt)
    have hle : UInt32.ofNat m ≤ o.openQty := UInt32.le_iff_toNat_le.mpr (by omega)
    have hsub : (o.openQty - UInt32.ofNat m).toNat = o.openQty.toNat - m := by
      rw [UInt32.toNat_sub_of_le _ _ hle, hm']
    simp only [hm, if_false, Option.bind_some, hsub]
    by_cases hn : o.openQty.toNat ≤ m + n
    · rw [if_pos hn, if_pos (by omega)]
    · rw [if_neg hn, if_neg (by omega), UInt32.ofNat_add]
      congr 2
      grind

namespace PriorityBook

variable {b : PriorityBook}

/-- A reduction, seen from the list. -/
theorem WF.side_reduce (h : b.WF) {s t : Side} {o : Resting} {qty : Qty} (ho : o ∈ b.side s)
    (hle : qty ≤ o.openQty) :
    (b.reduce o.id qty).side t =
      (b.side t).filterMap (reduceAt o.id qty.toNat) := by
  have hself : ∀ y ∈ b.side t, y.id = o.id → y = o := fun y hy hid => (h.unique hy ho hid).2
  have hzero : o.openQty - qty = 0 ↔ o.openQty.toNat ≤ qty.toNat := by
    rw [← UInt32.toNat_inj, UInt32.toNat_sub_of_le _ _ hle]
    simp [Nat.sub_eq_zero_iff_le]
  rw [h.reduce_of_mem ho]
  split
  · next hz =>
    rw [side_remove, ← List.filterMap_eq_filter]
    refine List.filterMap_congr (fun y hy => ?_)
    by_cases hid : y.id = o.id
    · simp [reduceAt, hself y hy hid, Resting.less, hzero.mp hz]
    · simp [reduceAt, hid]
  · next hz =>
    rw [side_setOpen, ← List.filterMap_eq_map]
    refine List.filterMap_congr (fun y hy => ?_)
    by_cases hid : y.id = o.id
    · have hnot : ¬ o.openQty.toNat ≤ qty.toNat := fun hn => hz (hzero.mpr hn)
      simp [reduceAt, hself y hy hid, Resting.less, hnot]
    · simp [reduceAt, hid]

/-- An order that comes to rest is one more order. -/
theorem filter_rest {p : OrderId → Bool} {id : OrderId} (hp : p id = false) (s t : Side)
    (price : Price) (qty : Qty) :
    ((b.rest id s price qty).side t).filter (fun o => p o.id) =
      (b.side t).filter (fun o => p o.id) := by
  by_cases hst : t = s
  · subst hst
    rw [rest, side_setSide_self]
    exact PriorityList.filter_enqueue (p := fun o : Resting => p o.id)
      (a := (⟨id, price, qty⟩ : Resting)) hp _
  · rw [rest, side_setSide_ne _ _ hst]

theorem filter_remove {p : OrderId → Bool} {id : OrderId} (hp : p id = false) (t : Side) :
    ((b.remove id).side t).filter (fun o => p o.id) = (b.side t).filter (fun o => p o.id) := by
  rw [side_remove, List.filter_filter]
  refine List.filter_congr (fun o _ => ?_)
  by_cases hid : o.id = id
  · simp [hid, hp]
  · simp [hid]

end PriorityBook

/-- A filter by id does not mind a reduction. -/
theorem filter_reduceAt (p : OrderId → Bool) (id : OrderId) (n : Nat) (l : List Resting) :
    (l.filterMap (reduceAt id n)).filter (fun o => p o.id) =
      (l.filter (fun o => p o.id)).filterMap (reduceAt id n) := by
  induction l with
  | nil => rfl
  | cons y l ih =>
    cases hy : reduceAt id n y with
    | none =>
      rw [List.filterMap_cons_none hy, ih, List.filter_cons]
      split
      · rw [List.filterMap_cons_none hy]
      · rfl
    | some z =>
      have hid : z.id = y.id := congrArg Prod.fst (reduceAt_stamp hy)
      rw [List.filterMap_cons_some hy, List.filter_cons, List.filter_cons, hid, ih]
      split
      · rw [List.filterMap_cons_some hy]
      · rfl

/-! ## Section 2: The orders of others -/

/-- The order belongs to another client than `c`. -/
def isForeign (c : Nat) (orders : OrderId → Option OrderInfo) (id : OrderId) : Bool :=
  (orders id).any (fun info => info.clientId ≠ c)

/-- The executions reported to the owner of an order. -/
def taken (orders : OrderId → Option OrderInfo) (rs : List ClientResponse) (o : Resting) : Nat :=
  match orders o.id with
  | none => 0
  | some info => executedShares info.key rs

/-- A response to `c`, or the report of an execution to the owner of an order. -/
def Addressed (c : Nat) (orders : OrderId → Option OrderInfo) (r : ClientResponse) : Prop :=
  r.clientId = c ∨ ∃ m id info, r.msg = .executed m ∧ orders id = some info ∧
    info.clientId = r.clientId ∧ info.token = m.token

/-- What the command of `c` has left of the venue `v₀`. -/
structure Untouched (c : Nat) (v₀ u : Venue) (g : Option Flight) : Prop where
  kept : Kept v₀ u
  own : ∀ {id info}, u.orders id = some info → isForeign c v₀.orders id = false → info.clientId = c
  flight : ∀ f ∈ g, isForeign c v₀.orders f.id = false
  sent : ∃ new, u.log = v₀.log ++ new ∧ (∀ r ∈ responsesOf new, Addressed c v₀.orders r) ∧
    ∀ symbol side, ((u.book symbol).side side).filter (fun o => isForeign c v₀.orders o.id) =
      (((v₀.book symbol).side side).filter (fun o => isForeign c v₀.orders o.id)).filterMap
        (fun o => o.less (taken v₀.orders (responsesOf new) o))

section untouched

variable {c : Nat} {v₀ v v' u u' : Venue} {f f' g g' : Option Flight} {id : OrderId}
  {info : OrderInfo}

variable {orders : OrderId → Option OrderInfo} {client now : Nat} {b : PriorityBook}
  {symbol : Symbol}

theorem isForeign_eq_true (h : isForeign c orders id = true) :
    ∃ info, orders id = some info ∧ info.clientId ≠ c := by
  unfold isForeign at h
  cases ho : orders id with
  | none => simp [ho] at h
  | some info => exact ⟨info, rfl, by simpa [ho] using h⟩

theorem executedShares_append (key : TokenKey) (rs rs' : List ClientResponse) :
    executedShares key (rs ++ rs') = executedShares key rs + executedShares key rs' := by
  simp [executedShares]

theorem executedShares_eq_zero {key : TokenKey} {rs : List ClientResponse}
    (h : ∀ r ∈ rs, r.clientId ≠ key.1) : executedShares key rs = 0 := by
  refine List.sum_eq_zero (fun n hn => ?_)
  obtain ⟨r, hr, rfl⟩ := List.mem_map.mp hn
  cases r.msg with
  | executed m => exact if_neg (fun heq => h r hr (congrArg Prod.fst heq))
  | _ => rfl

/-- Responses to `c` take nothing from others. -/
theorem taken_append {o : Resting} (ho : isForeign c orders o.id = true) (rs : List ClientResponse)
    {rs' : List ClientResponse} (h : ∀ r ∈ rs', r.clientId = c) :
    taken orders (rs ++ rs') o = taken orders rs o := by
  obtain ⟨info, hi, hne⟩ := isForeign_eq_true ho
  have hzero : executedShares info.key rs' = 0 :=
    executedShares_eq_zero (fun r hr => by rw [h r hr]; exact hne.symm)
  simp [taken, hi, executedShares_append, hzero]

/-- What the reports of an execution take from an order of another client. -/
theorem taken_fill {y : Resting} (hi : orders y.id = some info) (hne : info.clientId ≠ c)
    (rs : List ClientResponse) (now : Nat) (resting : OrderInfo) {aggressor : OrderInfo}
    (ha : aggressor.clientId = c) (x : ExecutedEvent) :
    taken orders (rs ++ [⟨resting.clientId, .executed (executedMsg now resting x 'A')⟩,
        ⟨aggressor.clientId, .executed (executedMsg now aggressor x 'R')⟩]) y =
      taken orders rs y + if resting.key = info.key then x.qty.toNat else 0 := by
  have hA : executedShares info.key
      [⟨resting.clientId, .executed (executedMsg now resting x 'A')⟩] =
      if resting.key = info.key then x.qty.toNat else 0 := by
    simp only [executedShares, List.map_singleton, List.sum_singleton, executedMsg]
    rfl
  have hR : executedShares info.key
      [⟨aggressor.clientId, .executed (executedMsg now aggressor x 'R')⟩] = 0 := by
    refine executedShares_eq_zero (fun r hr heq => hne ?_)
    rw [List.mem_singleton.mp hr] at heq
    exact heq.symm.trans ha
  rw [← List.singleton_append, ← List.append_assoc]
  simp only [taken, hi, executedShares_append, hA, hR, Nat.add_zero]

/-- The orders a step brings are those of its client. -/
theorem Inv.enrolled (h : Inv v f) (hs : Step now client (v, f) (v', f')) (hid : v.nextRef ≤ id)
    (hi : v'.orders id = some info) : info.clientId = client := by
  have hfresh := (h.step hs).keys.fresh hi
  cases hs with
  | reject | execute | rest | kill | land | cancel =>
    exact absurd hfresh (Nat.not_lt.mpr hid)
  | accept _ m side =>
    have heq : id = v.nextRef := Nat.le_antisymm (Nat.le_of_lt_succ hfresh) hid
    rw [heq, orders_accepted, Function.update_self] at hi
    cases hi
    rfl
  | replaceCross _ m oldRef old | replaceRest _ m oldRef old =>
    have heq : id = v.nextRef := Nat.le_antisymm (Nat.le_of_lt_succ hfresh) hid
    rw [heq, orders_event, orders_swapped, Function.update_self] at hi
    cases hi
    rfl

/-- An order of `c` is not foreign. -/
theorem Untouched.not_foreign (h : Untouched c v₀ u g) (h₀ : Inv v₀ none)
    (hi : u.orders id = some info) (hc : info.clientId = c) : isForeign c v₀.orders id = false := by
  cases hf : isForeign c v₀.orders id with
  | false => rfl
  | true =>
    obtain ⟨info₀, hi₀, hne⟩ := isForeign_eq_true hf
    obtain ⟨info₁, hi₁, heq⟩ := h.kept.record (h₀.keys.fresh hi₀) hi
    cases hi₀.symm.trans hi₁
    rw [heq] at hc
    exact absurd hc hne

/-- A new reference is not foreign. -/
theorem Untouched.new_not_foreign (h : Untouched c v₀ u g) (h₀ : Inv v₀ none) :
    isForeign c v₀.orders u.nextRef = false := by
  cases hf : isForeign c v₀.orders u.nextRef with
  | false => rfl
  | true =>
    obtain ⟨info₀, hi₀, -⟩ := isForeign_eq_true hf
    exact absurd (h₀.keys.fresh hi₀) (Nat.not_lt.mpr h.kept.nextRef)

/-- Steps that only concern orders of `c`. -/
theorem Untouched.idle (h : Untouched c v₀ u g) (hkept : Kept v₀ u')
    (hown : ∀ {id info}, u'.orders id = some info → isForeign c v₀.orders id = false →
      info.clientId = c)
    (hflight : ∀ f ∈ g', isForeign c v₀.orders f.id = false) {outs : List Output}
    (hlog : u'.log = u.log ++ outs) (hto : ∀ r ∈ responsesOf outs, r.clientId = c)
    (hbook : ∀ symbol side,
      ((u'.book symbol).side side).filter (fun o => isForeign c v₀.orders o.id) =
      ((u.book symbol).side side).filter (fun o => isForeign c v₀.orders o.id)) :
    Untouched c v₀ u' g' := by
  obtain ⟨new, hnew, haddr, hold⟩ := h.sent
  refine ⟨hkept, hown, hflight, new ++ outs, by rw [hlog, hnew, List.append_assoc], ?_, ?_⟩
  · intro r hr
    rw [responsesOf_append, List.mem_append] at hr
    exact hr.elim (haddr r) (fun hr => Or.inl (hto r hr))
  · intro symbol side
    rw [hbook, hold]
    refine List.filterMap_congr (fun o ho => ?_)
    rw [responsesOf_append, taken_append (List.mem_filter.mp ho).2 _ hto]

theorem filter_update {p : OrderId → Bool} (hbook : u'.book = Function.update u.book symbol b)
    (hb : ∀ side, (b.side side).filter (fun o => p o.id) =
      ((u.book symbol).side side).filter (fun o => p o.id)) (symbol' : Symbol) (side : Side) :
    ((u'.book symbol').side side).filter (fun o => p o.id) =
      ((u.book symbol').side side).filter (fun o => p o.id) := by
  rw [hbook]
  by_cases hs : symbol' = symbol
  · subst hs
    rw [Function.update_self, hb]
  · rw [Function.update_of_ne hs]

/-- A reduction of a resting order, seen from all books. -/
theorem Mirror.side_reduce (h : Mirror u g) {s : Side} {o : Resting} {qty : Qty}
    (ho : o ∈ (u.book symbol).side s) (hle : qty ≤ o.openQty)
    (hbook : u'.book = Function.update u.book symbol b)
    (hb : ∀ t, b.side t = ((u.book symbol).reduce o.id qty).side t) (symbol' : Symbol)
    (side : Side) : (u'.book symbol').side side =
      ((u.book symbol').side side).filterMap (reduceAt o.id qty.toNat) := by
  rw [hbook]
  by_cases hs : symbol' = symbol
  · subst hs
    rw [Function.update_self, hb, (h.wf symbol').side_reduce ho hle]
  · rw [Function.update_of_ne hs]
    refine ((List.filterMap_congr (fun y hy => ?_)).trans (List.filterMap_some)).symm
    exact reduceAt_of_ne (h.ne_of_symbol ho hy hs) _

/-- The reduction of an order of `c` is not seen by others. -/
theorem filter_reduce_own {p : OrderId → Bool} (hp : p id = false) (n : Nat) (l : List Resting) :
    (l.filterMap (reduceAt id n)).filter (fun o => p o.id) = l.filter (fun o => p o.id) := by
  rw [filter_reduceAt]
  refine (List.filterMap_congr (fun y hy => ?_)).trans List.filterMap_some
  exact reduceAt_of_ne (fun heq => by simp [heq, hp] at hy) n

/-- An execution against the order of another client. -/
theorem Untouched.executed_foreign {f : Flight} (h : Untouched client v₀ u (some f))
    (h₀ : Inv v₀ none) (hu : Inv u (some f)) {o : Resting} {l : List Resting}
    {resting aggressor : OrderInfo} (best : (u.book f.symbol).side f.side.opposite = o :: l)
    (hr : u.orders o.id = some resting) (ha : u.orders f.id = some aggressor)
    (hf : isForeign client v₀.orders o.id = true) : ∃ new,
      (u.executed now f o resting aggressor).log = v₀.log ++ new ∧
      (∀ r ∈ responsesOf new, Addressed client v₀.orders r) ∧
      ∀ symbol side, (((u.executed now f o resting aggressor).book symbol).side side).filter
          (fun o => isForeign client v₀.orders o.id) =
        (((v₀.book symbol).side side).filter (fun o => isForeign client v₀.orders o.id)).filterMap
          (fun o => o.less (taken v₀.orders (responsesOf new) o)) := by
  obtain ⟨new, hnew, haddr, hold⟩ := h.sent
  have ho : o ∈ (u.book f.symbol).side f.side.opposite := by simp [best]
  obtain ⟨-, hqr⟩ := execution_le (u.book f.symbol) f.id f.side o f.left
  obtain ⟨info₀, hi₀, hne⟩ := isForeign_eq_true hf
  obtain ⟨info₁, hi₁, hrec⟩ := h.kept.record (h₀.keys.fresh hi₀) hr
  cases hi₀.symm.trans hi₁
  have hkey : resting.key = info₀.key := by rw [hrec]; rfl
  have hac : aggressor.clientId = client := h.own ha (h.flight f rfl)
  refine ⟨_, by rw [log_executed, hnew, List.append_assoc], ?_, ?_⟩
  · intro r hr'
    simp only [responsesOf_append, responsesOf_market, responsesOf_response, responsesOf_nil,
      List.mem_append, List.mem_cons, List.not_mem_nil, or_false] at hr'
    rcases hr' with hr' | rfl | rfl
    · exact haddr r hr'
    · exact Or.inr ⟨_, o.id, info₀, rfl, hi₀, by rw [hrec], by rw [hrec]; rfl⟩
    · exact Or.inl hac
  · intro symbol side
    rw [hu.mirror.side_reduce ho hqr (book_executed ..) (fun t => by cases t <;> rfl),
      filter_reduceAt, hold, List.filterMap_filterMap]
    refine List.filterMap_congr (fun y hy => ?_)
    obtain ⟨info, hi, hne'⟩ := isForeign_eq_true (List.mem_filter.mp hy).2
    rw [responsesOf_append, responsesOf_market, responsesOf_response, responsesOf_response,
      responsesOf_nil, taken_fill hi hne' _ now resting hac (u.execution f o), hkey]
    by_cases hid : y.id = o.id
    · have heq : info = info₀ := Option.some.inj (hi.symm.trans (hid ▸ hi₀))
      rw [if_pos (by rw [heq]), Resting.less_add]
      refine Option.bind_congr (fun z hz => ?_)
      exact if_pos ((Resting.less_id hz).trans hid)
    · have hkey' : info₀.key ≠ info.key := fun heq => hid (h₀.keys.unique hi hi₀ heq.symm)
      rw [if_neg hkey', Nat.add_zero]
      refine (Option.bind_congr (fun z hz => ?_)).trans (Option.bind_fun_some _)
      exact reduceAt_of_ne (by rw [Resting.less_id hz]; exact hid) _

/-- **Step lemma.** -/
theorem Untouched.step (h : Untouched client v₀ u g) (h₀ : Inv v₀ none) (hu : Inv u g)
    (hs : Step now client (u, g) (u', g')) : Untouched client v₀ u' g' := by
  have hkept := h.kept.trans (hu.kept hs)
  have hown : ∀ {id info}, u'.orders id = some info → isForeign client v₀.orders id = false →
      info.clientId = client := by
    intro id info hi hf
    by_cases hid : id < u.nextRef
    · obtain ⟨info₀, hi₀, heq⟩ := (hu.kept hs).record hid hi
      have hc : info₀.clientId = client := h.own hi₀ hf
      rw [heq]
      exact hc
    · exact hu.enrolled hs (Nat.not_lt.mp hid) hi
  cases hs with
  | reject => exact h.idle hkept hown (by simp) rfl (by simp) (fun _ _ => rfl)
  | accept _ m side limit unused shares =>
    refine h.idle hkept hown ?_ rfl (by simp) (fun _ _ => rfl)
    rintro f ⟨⟩
    exact h.new_not_foreign h₀
  | execute _ f o l resting aggressor best left cross hr ha =>
    have ho : o ∈ (u.book f.symbol).side f.side.opposite := by simp [best]
    have hflight := h.flight f rfl
    obtain ⟨-, hqr⟩ := execution_le (u.book f.symbol) f.id f.side o f.left
    cases hf : isForeign client v₀.orders o.id with
    | false =>
      refine h.idle hkept hown (by rintro f' ⟨⟩; exact hflight) (log_executed ..) ?_ ?_
      · simp [h.own hr hf, h.own ha hflight]
      · intro symbol side
        rw [hu.mirror.side_reduce ho hqr (book_executed ..) (fun t => by cases t <;> rfl)]
        exact filter_reduce_own hf _ _
    | true =>
      exact ⟨hkept, hown, by rintro f' ⟨⟩; exact hflight,
        h.executed_foreign h₀ hu best hr ha hf⟩
  | rest _ f left price done =>
    refine h.idle hkept hown (by simp) rfl (by simp) (filter_update (book_rested ..) ?_)
    exact fun side => filter_rest (h.flight f rfl) _ _ _ _
  | kill _ f info reason left live =>
    exact h.idle hkept hown (by simp) rfl (by simp [h.own live (h.flight f rfl)]) (fun _ _ => rfl)
  | land _ f =>
    exact h.idle hkept hown (by simp) (List.append_nil _).symm (by simp)
      (fun _ _ => rfl)
  | cancel _ info o x live owner rests id qty le removed =>
    have hf := h.not_foreign h₀ live owner
    refine h.idle hkept hown (by simp) (log_canceled ..) (by simp [owner]) ?_
    intro symbol side
    have hwf := hu.mirror.wf info.symbol
    rw [hu.mirror.side_reduce rests le (book_canceled ..)
      (fun t => by rw [hwf.applyEvent_canceled rests id removed]), id]
    exact filter_reduce_own hf _ _
  | replaceCross _ m oldRef old o live owner rests id unused price shares =>
    have hf := h.not_foreign h₀ live owner
    refine h.idle hkept hown ?_ (log_swapped ..) (by simp) (filter_update (book_swapped ..) ?_)
    · rintro f ⟨⟩
      exact h.new_not_foreign h₀
    · exact fun side => filter_remove hf side
  | replaceRest _ m oldRef old o live owner rests id unused price shares done =>
    have hf := h.not_foreign h₀ live owner
    refine h.idle hkept hown (by simp) (log_swapped ..) (by simp)
      (filter_update (book_swapped ..) ?_)
    intro side
    exact (filter_rest (h.new_not_foreign h₀) _ _ _ _).trans
      (filter_remove hf side)

theorem untouched_refl (h : Inv v none) (c : Nat) : Untouched c v v none := by
  refine ⟨.refl v, fun {id info} hi hf => ?_, by simp, [], by simp, by simp, fun symbol side => ?_⟩
  · simpa [isForeign, hi] using hf
  · refine ((List.filterMap_congr (fun o ho => ?_)).trans List.filterMap_some).symm
    have hzero : taken v.orders (responsesOf []) o = 0 := by
      unfold taken
      split <;> rfl
    rw [hzero]
    exact Resting.less_zero (((h.mirror.wf symbol).sides side).pos o (List.mem_filter.mp ho).1)

/-! ### Queue positions -/

/-- The orders of `v₀` that still rest in `u` have kept their prices and their
    places. -/
structure InOrder (v₀ u : Venue) (g : Option Flight) : Prop where
  next : v₀.nextRef ≤ u.nextRef
  flight : ∀ f ∈ g, v₀.nextRef ≤ f.id
  order : ∀ symbol side,
    ((((u.book symbol).side side).filter (fun o => o.id < v₀.nextRef)).map stamp).Sublist
      (((v₀.book symbol).side side).map stamp)

theorem sublist_reduceAt (id : OrderId) (n : Nat) (l : List Resting) :
    ((l.filterMap (reduceAt id n)).map stamp).Sublist (l.map stamp) := by
  induction l with
  | nil => exact List.Sublist.slnil
  | cons y l ih =>
    cases hy : reduceAt id n y with
    | none =>
      rw [List.filterMap_cons_none hy, List.map_cons]
      exact ih.cons _
    | some z =>
      rw [List.filterMap_cons_some hy, List.map_cons, List.map_cons, reduceAt_stamp hy]
      exact ih.cons_cons _

theorem sublist_update {books : Symbol → PriorityBook} {p : Resting → Bool}
    (hb : ∀ side, (((b.side side).filter p).map stamp).Sublist
      ((((books symbol).side side).filter p).map stamp)) (symbol' : Symbol)
    (side : Side) :
    ((((Function.update books symbol b symbol').side side).filter p).map stamp).Sublist
      ((((books symbol').side side).filter p).map stamp) := by
  by_cases hs : symbol' = symbol
  · subst hs
    rw [Function.update_self]
    exact hb side
  · rw [Function.update_of_ne hs]

/-- **Step lemma.** -/
theorem InOrder.step (h : InOrder v₀ u g) (hu : Inv u g) (hs : Step now client (u, g) (u', g')) :
    InOrder v₀ u' g' := by
  have hnext := Nat.le_trans h.next (hu.kept hs).nextRef
  -- old orders are only ever dropped or reduced
  have horder : ∀ {g'}, (∀ f ∈ g', v₀.nextRef ≤ f.id) →
      (∀ symbol side, ((((u'.book symbol).side side).filter
          (fun o => decide (o.id < v₀.nextRef))).map stamp).Sublist
        ((((u.book symbol).side side).filter (fun o => decide (o.id < v₀.nextRef))).map
          stamp)) → InOrder v₀ u' g' :=
    fun hf hsub => ⟨hnext, hf, fun symbol side => (hsub symbol side).trans (h.order symbol side)⟩
  have hnew : ∀ {id}, v₀.nextRef ≤ id → decide (id < v₀.nextRef) = false :=
    fun hid => decide_eq_false (Nat.not_lt.mpr hid)
  have hremove : ∀ symbol id side, (((((u.book symbol).remove id).side side).filter
      (fun o => decide (o.id < v₀.nextRef))).map stamp).Sublist
        ((((u.book symbol).side side).filter (fun o => decide (o.id < v₀.nextRef))).map
          stamp) := by
    intro symbol id side
    rw [side_remove]
    exact (List.filter_sublist.filter _).map _
  cases hs with
  | reject | kill | land => exact horder (by simp) (fun _ _ => .refl _)
  | accept => exact horder (by rintro f ⟨⟩; exact h.next) (fun _ _ => .refl _)
  | execute _ f o l resting aggressor best left cross hr ha =>
    have ho : o ∈ (u.book f.symbol).side f.side.opposite := by simp [best]
    obtain ⟨-, hqr⟩ := execution_le (u.book f.symbol) f.id f.side o f.left
    refine horder (by rintro f' ⟨⟩; exact h.flight f rfl) (fun symbol side => ?_)
    rw [hu.mirror.side_reduce ho hqr (book_executed ..) (fun t => by cases t <;> rfl),
      filter_reduceAt (fun id => decide (id < v₀.nextRef))]
    exact sublist_reduceAt _ _ _
  | rest _ f left price done =>
    refine horder (by simp) (fun symbol side => ?_)
    rw [filter_update (p := fun id => decide (id < v₀.nextRef)) (book_rested ..)
      (fun side => filter_rest (p := fun id => decide (id < v₀.nextRef))
        (hnew (h.flight f rfl)) _ _ _ _)]
  | cancel _ info o x live owner rests id qty le removed =>
    refine horder (by simp) (fun symbol side => ?_)
    rw [hu.mirror.side_reduce rests le (book_canceled ..)
      (fun t => by rw [(hu.mirror.wf info.symbol).applyEvent_canceled rests id removed]),
      filter_reduceAt (fun id => decide (id < v₀.nextRef))]
    exact sublist_reduceAt _ _ _
  | replaceCross _ m oldRef old o live owner rests id unused price shares =>
    refine horder (by rintro f ⟨⟩; exact h.next) (fun symbol side => ?_)
    rw [book_swapped]
    exact sublist_update (fun side => hremove old.symbol oldRef side) symbol side
  | replaceRest _ m oldRef old o live owner rests id unused price shares done =>
    refine horder (by simp) (fun symbol side => ?_)
    rw [book_swapped]
    refine sublist_update (fun side => ?_) symbol side
    have hrest := filter_rest (b := (u.book old.symbol).remove oldRef)
      (p := fun id => decide (id < v₀.nextRef)) (hnew h.next) old.side side m.price m.shares
    rw [applyEvent, hrest]
    exact hremove old.symbol oldRef side

end untouched

/-! ## Section 3: The engine -/

/-- The token of the order a command is about. -/
def CommandMsg.names : CommandMsg → Option Ouch.Token
  | .enter _ => none
  | .cancel m => some m.token
  | .replace m => some m.existingToken

namespace Engine

/-- What a command of `c` does to others. Here `e` is the engine before the
    command, `e'` the engine after it, and `new` is what was sent meanwhile. -/
structure Isolated (c : Nat) (e e' : Engine FastBook) (new : List Output) : Prop where
  readable : ∀ symbol, (∃ snap, e.bookSnapshot symbol = some snap) ∧
    ∃ snap, e'.bookSnapshot symbol = some snap
  /-- The orders of others rest as they did, less the shares of the executions
      that were reported to their owners. -/
  others : ∀ {symbol snap snap'}, e.bookSnapshot symbol = some snap →
    e'.bookSnapshot symbol = some snap' → ∀ side,
    (entries snap' side).filter (fun o => isForeign c e.orders.lookup o.id) =
      ((entries snap side).filter (fun o => isForeign c e.orders.lookup o.id)).filterMap
        (fun o => o.less (taken e.orders.lookup (responsesOf new) o))
  /-- Orders that rested before and still do have kept their prices and places. -/
  places : ∀ {symbol snap snap'}, e.bookSnapshot symbol = some snap →
    e'.bookSnapshot symbol = some snap' → ∀ side,
    (((entries snap' side).filter (fun o => o.id < e.nextRef)).map
      stamp).Sublist ((entries snap side).map stamp)
  /-- Nothing in the record of an order changes but its open quantity. -/
  records : ∀ {id info info'}, e.orders.lookup id = some info → e'.orders.lookup id = some info' →
    info' = { info with openQty := info'.openQty }
  responses : ∀ r ∈ responsesOf new, Addressed c e.orders.lookup r

theorem Realizes.isolated {e e' : Engine FastBook} {v v' : Venue} {now client : Nat}
    (h : Realizes e v) (hinv : Inv v none) (h' : Realizes e' v') (hcmd : Commands now client v v') :
    ∃ new, e'.out = e.out ++ new ∧ Isolated client e e' new := by
  obtain ⟨hinv', hun, hord⟩ := hinv.steps
    (P := fun u g => Untouched client v u g ∧ InOrder v u g)
    ⟨untouched_refl hinv client, Nat.le_refl _, by simp,
      fun symbol side => List.filter_sublist.map stamp⟩
    (fun hu hP hs => ⟨hP.1.step hinv hu hs, hP.2.step hu hs⟩) hcmd
  obtain ⟨new, hlog, haddr, hbooks⟩ := hun.sent
  have horders : e.orders.lookup = v.orders := funext h.records.orders
  refine ⟨new, by rw [h.records.out, h'.records.out, hlog], ?_, ?_, ?_, ?_, ?_⟩
  · exact fun symbol => ⟨⟨_, h.bookSnapshot symbol⟩, _, h'.bookSnapshot symbol⟩
  · intro symbol snap snap' hs hs' side
    cases (h.bookSnapshot symbol).symm.trans hs
    cases (h'.bookSnapshot symbol).symm.trans hs'
    rw [(hinv.mirror.wf symbol).entries_snapshot, (hinv'.mirror.wf symbol).entries_snapshot,
      horders]
    exact hbooks symbol side
  · intro symbol snap snap' hs hs' side
    cases (h.bookSnapshot symbol).symm.trans hs
    cases (h'.bookSnapshot symbol).symm.trans hs'
    rw [(hinv.mirror.wf symbol).entries_snapshot, (hinv'.mirror.wf symbol).entries_snapshot,
      h.records.nextRef]
    exact hord.order symbol side
  · intro id info info' hi hi'
    rw [h.records.orders] at hi
    obtain ⟨info₀, hi₀, heq⟩ :=
      hun.kept.record (hinv.keys.fresh hi) ((h'.records.orders id).symm.trans hi')
    cases hi.symm.trans hi₀
    exact heq
  · rw [horders]
    exact haddr

/-- A command about no live order of its client does nothing. -/
theorem process_ignored {e : Engine FastBook} {cmd : Command} {token : Ouch.Token}
    (hn : cmd.msg.names = some token)
    (hl : e.liveTokens.lookup (tokenKey cmd.clientId token) = none) (now : Nat) :
    e.process now cmd = some (e.setNow now) := by
  have hl' : (e.setNow now).liveTokens.lookup (tokenKey cmd.clientId token) = none := hl
  unfold process
  cases hm : cmd.msg with
  | enter m => simp [hm, CommandMsg.names] at hn
  | cancel m =>
    rw [hm, CommandMsg.names, Option.some.injEq] at hn
    subst hn
    simp only [handleCancel, hl']
  | replace m =>
    rw [hm, CommandMsg.names, Option.some.injEq] at hn
    subst hn
    simp only [handleReplace, hl']

/-- **Clients cannot touch each other's orders**, after any commands. A cancel
    or replace whose token is not that of a live order of the client does nothing
    at all. -/
theorem clients_isolated (cmds : List (Nat × Command)) (now : Nat) (cmd : Command) :
    ∃ e e' new, ({} : Engine FastBook).run cmds = some e ∧ e.process now cmd = some e' ∧
      e'.out = e.out ++ new ∧ Isolated cmd.clientId e e' new ∧
      ∀ token, cmd.msg.names = some token →
        (∀ id info, e.orders.lookup id = some info → info.key ≠ tokenKey cmd.clientId token) →
        new = [] ∧ e'.books = e.books := by
  obtain ⟨e, v, hrun, hv, hreal⟩ := realizes_fresh.run inv_fresh cmds
  have hinv := hv.inv inv_fresh
  obtain ⟨e', v', hproc, hcmd, hreal'⟩ := hreal.process hinv now cmd
  obtain ⟨new, hout, hiso⟩ := hreal.isolated hinv hreal' hcmd
  refine ⟨e, e', new, hrun, hproc, hout, hiso, fun token hn hdead => ?_⟩
  have hl : e.liveTokens.lookup (tokenKey cmd.clientId token) = none := by
    cases hl : e.liveTokens.lookup (tokenKey cmd.clientId token) with
    | none => rfl
    | some id =>
      obtain ⟨info, hi, hkey⟩ := hreal.records.live.mp hl
      exact absurd hkey (hdead id info ((hreal.records.orders id).trans hi))
  cases (process_ignored hn hl now).symm.trans hproc
  exact ⟨List.self_eq_append_right.mp hout, rfl⟩

end Engine

end MatchingEngine
