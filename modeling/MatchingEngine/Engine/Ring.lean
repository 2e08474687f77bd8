import MatchingEngine.Engine.Channel

/-! # The ring, one access at a time

    `common/spsc_ring.hpp` again, without the assumption that a call is atomic.
    The producer calls `try_push` and the consumer calls `try_pop`, each over and
    over. A call loads its own index, loads the index of the other side, accesses
    a slot and stores its own index; the accesses of the two threads interleave in
    any way. Each side works with a view of the other index that may be old.

    The ring stays a FIFO channel (`fifo_interleaved`). The indices are the numbers
    of values pushed and popped so far, modulo the size. A claimed slot keeps them
    less than one turn apart, so that no slot has two meanings (`slot_ne`).
-/

namespace MatchingEngine

namespace SpscRing

variable {α : Type}

variable {ring : SpscRing α} {k : Nat}

/-! ## Section 1: Calls in steps -/

/-- Where a call of `try_push` stands, with its variables. -/
inductive Pushing (α : Type) where
  | idle
  | loadedTail (v : α) (tail : Nat)
  | loadedHead (v : α) (tail next : Nat)
  | wrote (v : α) (tail next : Nat)

/-- Where a call of `try_pop` stands, with its variables. -/
inductive Popping (α : Type) where
  | idle
  | loadedHead (head : Nat)
  | loadedTail (head : Nat)
  | read (head : Nat) (v : α)

/-- The shared ring, the two threads, and what they have pushed and popped. -/
structure Threaded (α : Type) where
  ring : SpscRing α
  push : Pushing α := .idle
  pop : Popping α := .idle
  pushed : List α := []
  popped : List α := []

namespace Threaded

/-- The next access of the producer, and the result when its call returns. The
    value is that of the next call. -/
def producer (k : Nat) (s : Threaded α) (v : α) : Threaded α × Option Bool :=
  match s.push with
  | .idle =>
    -- only the producer stores the tail, so this load is never old
    ({ s with push := .loadedTail v s.ring.tail }, none)
  | .loadedTail v tail =>
    -- full, as far as the consumer has come by now
    let next := (tail + 1) &&& (2 ^ k - 1)
    if next = s.ring.head then ({ s with push := .idle }, some false)
    else ({ s with push := .loadedHead v tail next }, none)
  | .loadedHead v tail next =>
    -- the slot is filled before the new tail can be seen
    ({ s with
      ring := { s.ring with buf := Function.update s.ring.buf tail v }
      push := .wrote v tail next }, none)
  | .wrote v _ next =>
    -- from here on the consumer can find the value
    ({ s with
      ring := { s.ring with tail := next }
      push := .idle
      pushed := s.pushed ++ [v] }, some true)

/-- The next access of the consumer, and the result when its call returns. A
    value is moved out of its slot, which leaves any value behind. -/
def consumer (k : Nat) (s : Threaded α) (left : α) : Threaded α × Option (Option α) :=
  match s.pop with
  | .idle => ({ s with pop := .loadedHead s.ring.head }, none)
  | .loadedHead head =>
    -- empty, as far as the producer has come by now
    if head = s.ring.tail then ({ s with pop := .idle }, some none)
    else ({ s with pop := .loadedTail head }, none)
  | .loadedTail head =>
    ({ s with
      ring := { s.ring with buf := Function.update s.ring.buf head left }
      pop := .read head (s.ring.buf head) }, none)
  | .read head v =>
    -- the slot is given back when the value is out of it
    ({ s with
      ring := { s.ring with head := (head + 1) &&& (2 ^ k - 1) }
      pop := .idle
      popped := s.popped ++ [v] }, some (some v))

/-- Whose access is next. -/
inductive Turn (α : Type) where
  | producer (v : α)
  | consumer (left : α)

def step (k : Nat) (s : Threaded α) : Turn α → Threaded α
  | .producer v => (s.producer k v).1
  | .consumer left => (s.consumer k left).1

def run (k : Nat) (s : Threaded α) (turns : List (Turn α)) : Threaded α := turns.foldl (step k) s

def start (buf : Nat → α) : Threaded α := { ring := ⟨0, 0, buf⟩ }

/-- The values that are published and not yet popped. -/
def held (s : Threaded α) : List α := s.pushed.drop s.popped.length

end Threaded

/-! ### Slots -/

/-- The slot of a call that has loaded its tail. -/
def Pushing.slot : Pushing α → Option Nat
  | .idle => none
  | .loadedTail _ tail => some tail
  | .loadedHead _ tail _ => some tail
  | .wrote _ tail _ => some tail

/-- The slot that a call writes, from the time it has found room. -/
def Pushing.writes : Pushing α → Option Nat
  | .idle => none
  | .loadedTail _ _ => none
  | .loadedHead _ tail _ => some tail
  | .wrote _ tail _ => some tail

/-- The slot of a call that has loaded its head. -/
def Popping.slot : Popping α → Option Nat
  | .idle => none
  | .loadedHead head => some head
  | .loadedTail head => some head
  | .read head _ => some head

/-- The slot that a call reads, from the time it has found a value. -/
def Popping.reads : Popping α → Option Nat
  | .idle => none
  | .loadedHead _ => none
  | .loadedTail head => some head
  | .read head _ => some head

/-! ### A call without interruption

    Nothing comes between the accesses of a call when each call is one step. -/

theorem Threaded.push_alone {s : Threaded α} {v : α} (hidle : s.push = .idle)
    (h : s.ring.tryPush k v = some ring) (w : α) :
    s.run k [.producer v, .producer w, .producer w, .producer w] =
      { s with ring := ring, pushed := s.pushed ++ [v] } := by
  unfold SpscRing.tryPush at h
  dsimp only at h
  by_cases hfull : (s.ring.tail + 1) &&& (2 ^ k - 1) = s.ring.head
  · rw [if_pos hfull] at h
    cases h
  · rw [if_neg hfull] at h
    cases h
    simp only [run, List.foldl_cons, List.foldl_nil, step, producer, hidle, if_neg hfull]

theorem Threaded.pop_alone {s : Threaded α} {v : α} (hidle : s.pop = .idle)
    (h : s.ring.tryPop k = some (v, ring)) :
    s.run k [.consumer v, .consumer v, .consumer v, .consumer v] =
      { s with ring := ring, popped := s.popped ++ [v] } := by
  unfold SpscRing.tryPop at h
  by_cases hempty : s.ring.head = s.ring.tail
  · rw [if_pos hempty] at h
    cases h
  · rw [if_neg hempty] at h
    cases h
    simp only [run, List.foldl_cons, List.foldl_nil, step, consumer, hidle, if_neg hempty,
      Function.update_eq_self]

/-! ## Section 2: The invariant -/

/-- A producer that has found room claims one more slot. -/
def Pushing.claims : Pushing α → Nat
  | .idle => 0
  | .loadedTail _ _ => 0
  | .loadedHead _ _ _ => 1
  | .wrote _ _ _ => 1

/-- What a call of `try_push` knows of the ring. -/
def Pushing.Knows (k : Nat) (ring : SpscRing α) : Pushing α → Prop
  | .idle => True
  | .loadedTail _ tail => tail = ring.tail
  | .loadedHead _ tail next => tail = ring.tail ∧ next = (tail + 1) % 2 ^ k
  | .wrote v tail next => tail = ring.tail ∧ next = (tail + 1) % 2 ^ k ∧ ring.buf tail = v

/-- What a call of `try_pop` knows of the ring, in which `held` is published. -/
def Popping.Knows (ring : SpscRing α) (held : List α) : Popping α → Prop
  | .idle => True
  | .loadedHead head => head = ring.head
  | .loadedTail head => head = ring.head ∧ held ≠ []
  | .read head v => head = ring.head ∧ held.head? = some v

theorem Popping.Knows.congr {ring' : SpscRing α} {held : List α} {pop : Popping α}
    (h : pop.Knows ring held) (hhead : ring'.head = ring.head) : pop.Knows ring' held := by
  cases pop with
  | idle => trivial
  | loadedHead head => exact Eq.trans h hhead.symm
  | loadedTail head => exact ⟨h.1.trans hhead.symm, h.2⟩
  | read head v => exact ⟨h.1.trans hhead.symm, h.2⟩

/-- What is published later comes behind. -/
theorem Popping.Knows.append {held : List α} {pop : Popping α} (h : pop.Knows ring held) (v : α) :
    pop.Knows ring (held ++ [v]) := by
  cases pop with
  | idle => trivial
  | loadedHead head => exact h
  | loadedTail head => exact ⟨h.1, by simp⟩
  | read head w =>
    refine ⟨h.1, ?_⟩
    rw [List.head?_append, h.2]
    rfl

theorem Pushing.Knows.congr {ring' : SpscRing α} {push : Pushing α} (h : push.Knows k ring)
    (htail : ring'.tail = ring.tail)
    (hbuf : 0 < push.claims → ring'.buf ring.tail = ring.buf ring.tail) : push.Knows k ring' := by
  cases push with
  | idle => trivial
  | loadedTail v tail => exact Eq.trans h htail.symm
  | loadedHead v tail next => exact ⟨h.1.trans htail.symm, h.2⟩
  | wrote v tail next =>
    obtain ⟨hown, hnext, hslot⟩ := h
    refine ⟨hown.trans htail.symm, hnext, ?_⟩
    rw [hown] at hslot ⊢
    exact (hbuf Nat.one_pos).trans hslot

/-- The values that are out of their slots and not yet popped. -/
def Popping.moved : Popping α → Nat
  | .idle => 0
  | .loadedHead _ => 0
  | .loadedTail _ => 0
  | .read _ _ => 1

/-- The indices count the values, and the values that are published are in their
    slots. -/
structure Turning (k : Nat) (s : Threaded α) (held : List α) : Prop where
  split : s.pushed = s.popped ++ held
  head : s.ring.head = s.popped.length % 2 ^ k
  tail : s.ring.tail = s.pushed.length % 2 ^ k
  room : held.length + s.push.claims < 2 ^ k
  slots : ∀ i v, s.pop.moved ≤ i → held[i]? = some v →
    s.ring.buf ((s.popped.length + i) % 2 ^ k) = v
  push : s.push.Knows k s.ring
  pop : s.pop.Knows s.ring held

section turning

variable {k : Nat} {s : Threaded α} {held : List α}

theorem Turning.length (h : Turning k s held) :
    s.pushed.length = s.popped.length + held.length := by
  rw [h.split, List.length_append]

theorem Turning.held_eq (h : Turning k s held) : s.held = held := by
  rw [Threaded.held, h.split, List.drop_left]

theorem Turning.tail_eq (h : Turning k s held) :
    s.ring.tail = (s.popped.length + held.length) % 2 ^ k := by
  rw [h.tail, h.length]

/-- The indices meet when nothing is published. -/
theorem Turning.empty_iff (h : Turning k s held) : s.ring.head = s.ring.tail ↔ held = [] := by
  have hroom := h.room
  constructor
  · intro heq
    by_contra hne
    have hpos := List.length_pos_iff.mpr hne
    rw [h.head, h.tail_eq] at heq
    exact slot_ne s.popped.length hpos (by omega) heq
  · intro hnil
    rw [h.head, h.tail_eq, hnil]
    rfl

/-- The next tail meets the head when one slot is left. -/
theorem Turning.full_iff (h : Turning k s held) :
    (s.ring.tail + 1) % 2 ^ k = s.ring.head ↔ held.length = 2 ^ k - 1 := by
  have hroom := h.room
  have hnext : (s.ring.tail + 1) % 2 ^ k = (s.popped.length + (held.length + 1)) % 2 ^ k := by
    rw [h.tail_eq, Nat.mod_add_mod, Nat.add_assoc]
  rw [hnext, h.head]
  constructor
  · intro heq
    by_contra hne
    exact slot_ne s.popped.length (Nat.succ_pos held.length) (by omega) heq.symm
  · intro hlen
    rw [show held.length + 1 = 2 ^ k by omega, Nat.add_mod_right]

theorem turning_start (k : Nat) (buf : Nat → α) : Turning k (Threaded.start buf) [] :=
  ⟨rfl, rfl, rfl, Nat.two_pow_pos k, by simp, trivial, trivial⟩

/-! ### The producer -/

theorem Turning.producer (h : Turning k s held) (v : α) :
    ∃ held', Turning k (s.producer k v).1 held' := by
  have hroom := h.room
  have hpush := h.push
  unfold Threaded.producer
  cases hp : s.push with
  | idle =>
    rw [hp] at hroom
    exact ⟨held, { h with room := hroom, push := rfl }⟩
  | loadedTail v tail =>
    rw [hp] at hroom hpush
    dsimp only [Pushing.Knows] at hpush
    simp only [Nat.and_two_pow_sub_one_eq_mod]
    split
    · exact ⟨held, { h with room := hroom, push := trivial }⟩
    · next hnext =>
      refine ⟨held, { h with room := ?_, push := ⟨hpush, rfl⟩ }⟩
      -- not full, so that another slot can be claimed
      rw [hpush, h.full_iff] at hnext
      simp only [Pushing.claims] at hroom ⊢
      omega
  | loadedHead v tail next =>
    rw [hp] at hroom hpush
    obtain ⟨htail, hnext⟩ := hpush
    refine ⟨held, { h with room := hroom, slots := ?_, push := ⟨htail, hnext, ?_⟩, pop := ?_ }⟩
    · intro i w hmoved hw
      -- the claimed slot holds no value
      have hi := (List.getElem?_eq_some_iff.mp hw).1
      have hne : (s.popped.length + i) % 2 ^ k ≠ tail := by
        rw [htail, h.tail_eq]
        exact slot_ne s.popped.length hi (by omega)
      exact (Function.update_of_ne hne _ _).trans (h.slots i w hmoved hw)
    · exact Function.update_self _ _ _
    · exact h.pop.congr rfl
  | wrote v tail next =>
    rw [hp] at hroom hpush
    obtain ⟨htail, hnext, hslot⟩ := hpush
    refine ⟨held ++ [v], ?_, h.head, ?_, ?_, ?_, trivial, ?_⟩
    · simp only [h.split, List.append_assoc]
    · simp only [hnext, htail, h.tail, Nat.mod_add_mod, List.length_append, List.length_singleton]
    · simpa [Pushing.claims] using hroom
    · intro i w hmoved hw
      by_cases hi : i < held.length
      · rw [List.getElem?_append_left hi] at hw
        exact h.slots i w hmoved hw
      · -- the new value is in the claimed slot
        have hbound := (List.getElem?_eq_some_iff.mp hw).1
        rw [List.length_append, List.length_singleton] at hbound
        obtain rfl : i = held.length := by omega
        rw [List.getElem?_concat_length] at hw
        cases hw
        rw [htail, h.tail_eq] at hslot
        exact hslot
    · exact (h.pop.append v).congr rfl

/-! ### The consumer -/

theorem Turning.consumer (h : Turning k s held) (left : α) :
    ∃ held', Turning k (s.consumer k left).1 held' := by
  have hroom := h.room
  have hpop := h.pop
  have hslots := h.slots
  unfold Threaded.consumer
  cases hp : s.pop with
  | idle =>
    rw [hp] at hslots
    exact ⟨held, { h with slots := hslots, pop := rfl }⟩
  | loadedHead head =>
    rw [hp] at hslots hpop
    dsimp only [Popping.Knows] at hpop
    dsimp only
    split
    · exact ⟨held, { h with slots := hslots, pop := trivial }⟩
    · next hne =>
      rw [hpop, h.empty_iff] at hne
      exact ⟨held, { h with slots := hslots, pop := ⟨hpop, hne⟩ }⟩
  | loadedTail head =>
    rw [hp] at hslots hpop
    obtain ⟨hhead, hne⟩ := hpop
    have hlen := List.length_pos_iff.mpr hne
    obtain ⟨v, l, rfl⟩ := List.exists_cons_of_ne_nil hne
    have hown : head = s.popped.length % 2 ^ k := hhead.trans h.head
    refine ⟨v :: l, { h with slots := ?_, push := h.push.congr rfl ?_, pop := ⟨hhead, ?_⟩ }⟩
    · intro i w hmoved hw
      -- the other values are in other slots
      have hi := (List.getElem?_eq_some_iff.mp hw).1
      have hother : head ≠ (s.popped.length + i) % 2 ^ k := by
        rw [hown]
        exact slot_ne s.popped.length (Nat.lt_of_lt_of_le Nat.zero_lt_one hmoved) (by omega)
      exact (Function.update_of_ne hother.symm _ _).trans (hslots i w (Nat.zero_le i) hw)
    · -- the producer writes behind the values that are held
      intro _
      apply Function.update_of_ne
      rw [hown, h.tail_eq]
      exact (slot_ne s.popped.length hlen (by omega)).symm
    · have hfirst := hslots 0 v (Nat.le_refl 0) rfl
      rw [Nat.add_zero, ← hown] at hfirst
      rw [hfirst]
      rfl
  | read head v =>
    rw [hp] at hslots hpop
    obtain ⟨hhead, hfirst⟩ := hpop
    obtain ⟨l, rfl⟩ := List.head?_eq_some_iff.mp hfirst
    -- the first value leaves, and the others move up by one
    refine ⟨l, ?_, ?_, h.tail, ?_, ?_, h.push.congr rfl (fun _ => rfl), trivial⟩
    · simp only [h.split, List.append_assoc, List.singleton_append]
    · simp only [Nat.and_two_pow_sub_one_eq_mod, hhead, h.head, Nat.mod_add_mod, List.length_append,
        List.length_singleton]
    · rw [List.length_cons] at hroom
      dsimp only
      omega
    · intro i w _ hw
      have hslot := hslots (i + 1) w (Nat.le_add_left 1 i) (by simpa using hw)
      simp only [List.length_append, List.length_singleton]
      rwa [show s.popped.length + 1 + i = s.popped.length + (i + 1) by omega]

/-- **Run lemma.** -/
theorem turning_run (k : Nat) (buf : Nat → α) (turns : List (Threaded.Turn α)) :
    ∃ held, Turning k (Threaded.run k (Threaded.start buf) turns) held := by
  induction turns using List.reverseRecOn with
  | nil => exact ⟨[], turning_start k buf⟩
  | append_singleton turns turn ih =>
    obtain ⟨held, h⟩ := ih
    rw [Threaded.run, List.foldl_append]
    cases turn with
    | producer v => exact h.producer v
    | consumer left => exact h.consumer left

end turning

/-! ## Section 3: The channel -/

/-- What the ring promises in every state of the two threads. -/
structure Channels (k : Nat) (s : Threaded α) : Prop where
  /-- The values popped are the first ones pushed, in order. -/
  fifo : s.popped <+: s.pushed
  bounded : s.held.length ≤ 2 ^ k - 1
  /-- A slot is not written while it holds a value. -/
  fresh : ∀ tail, s.push.writes = some tail →
    ∀ i, i < s.held.length → (s.popped.length + i) % 2 ^ k ≠ tail
  /-- From its first load to its store, a producer has not the slot that is read. -/
  apart : ∀ tail head, s.push.slot = some tail → s.pop.reads = some head → tail ≠ head
  /-- A consumer that has loaded the slot that is written returns without it. -/
  unseen : ∀ slot, s.push.writes = some slot → s.pop.slot = some slot →
    ∀ left, (s.consumer k left).2 = some none
  pushFails : ∀ v, (s.producer k v).2 = some false → s.held.length = 2 ^ k - 1
  popFails : ∀ left, (s.consumer k left).2 = some none → s.held = []

section channel

variable {k : Nat} {s : Threaded α} {held : List α}

variable {tail : Nat}

theorem Turning.slot_push (h : Turning k s held) (hs : s.push.slot = some tail) :
    tail = s.ring.tail := by
  have hpush := h.push
  cases hp : s.push with
  | idle => rw [hp] at hs; cases hs
  | loadedTail v t => rw [hp] at hs hpush; cases hs; exact hpush
  | loadedHead v t next => rw [hp] at hs hpush; cases hs; exact hpush.1
  | wrote v t next => rw [hp] at hs hpush; cases hs; exact hpush.1

theorem Turning.reads_pop (h : Turning k s held) {head : Nat} (hs : s.pop.reads = some head) :
    head = s.ring.head ∧ held ≠ [] := by
  have hpop := h.pop
  cases hp : s.pop with
  | idle => rw [hp] at hs; cases hs
  | loadedHead t => rw [hp] at hs; cases hs
  | loadedTail t => rw [hp] at hs hpop; cases hs; exact hpop
  | read t v =>
    rw [hp] at hs hpop
    cases hs
    refine ⟨hpop.1, fun hnil => ?_⟩
    rw [hnil] at hpop
    cases hpop.2

theorem Pushing.slot_of_writes {push : Pushing α} (h : push.writes = some tail) :
    push.slot = some tail ∧ push.claims = 1 := by
  cases push with
  | idle => cases h
  | loadedTail v t => cases h
  | loadedHead v t next => exact ⟨h, rfl⟩
  | wrote v t next => exact ⟨h, rfl⟩

theorem Turning.push_fails (h : Turning k s held) {v : α}
    (hfail : (s.producer k v).2 = some false) : held.length = 2 ^ k - 1 := by
  have hpush := h.push
  unfold Threaded.producer at hfail
  cases hp : s.push with
  | idle => rw [hp] at hfail; cases hfail
  | loadedTail w tail =>
    rw [hp] at hfail hpush
    dsimp only [Pushing.Knows] at hpush
    simp only [Nat.and_two_pow_sub_one_eq_mod] at hfail
    split at hfail
    · next hfull =>
      rw [hpush] at hfull
      exact h.full_iff.mp hfull
    · cases hfail
  | loadedHead w tail next => rw [hp] at hfail; cases hfail
  | wrote w tail next => rw [hp] at hfail; cases hfail

theorem Turning.pop_fails (h : Turning k s held) {left : α}
    (hfail : (s.consumer k left).2 = some none) : held = [] := by
  have hpop := h.pop
  unfold Threaded.consumer at hfail
  cases hp : s.pop with
  | idle => rw [hp] at hfail; cases hfail
  | loadedHead head =>
    rw [hp] at hfail hpop
    dsimp only [Popping.Knows] at hpop
    dsimp only at hfail
    split at hfail
    · next hempty =>
      rw [hpop] at hempty
      exact h.empty_iff.mp hempty
    · cases hfail
  | loadedTail head => rw [hp] at hfail; cases hfail
  | read head v => rw [hp] at hfail; cases hfail

theorem Turning.apart (h : Turning k s held) {head : Nat} (hpush : s.push.slot = some tail)
    (hpop : s.pop.reads = some head) : tail ≠ head := by
  obtain ⟨hhead, hne⟩ := h.reads_pop hpop
  rw [h.slot_push hpush, hhead]
  exact fun heq => hne (h.empty_iff.mp heq.symm)

/-- What is being written is not published yet. -/
theorem Turning.unseen (h : Turning k s held) {slot : Nat} (hpush : s.push.writes = some slot)
    (hpop : s.pop.slot = some slot) (left : α) : (s.consumer k left).2 = some none := by
  have hown := (Pushing.slot_of_writes hpush).1
  unfold Threaded.consumer
  cases hp : s.pop with
  | idle => rw [hp] at hpop; cases hpop
  | loadedHead head =>
    rw [hp] at hpop
    cases hpop
    dsimp only
    rw [if_pos (h.slot_push hown)]
  | loadedTail head => exact absurd rfl (h.apart hown (by rw [hp] at hpop ⊢; exact hpop))
  | read head v => exact absurd rfl (h.apart hown (by rw [hp] at hpop ⊢; exact hpop))

theorem Turning.channels (h : Turning k s held) : Channels k s := by
  have hroom := h.room
  refine ⟨?_, ?_, ?_, fun _ _ => h.apart, fun _ => h.unseen, ?_, ?_⟩
  · rw [h.split]
    exact List.prefix_append _ _
  · rw [h.held_eq]
    omega
  · intro tail hw i hi
    obtain ⟨hslot, hclaims⟩ := Pushing.slot_of_writes hw
    rw [h.held_eq] at hi
    rw [h.slot_push hslot, h.tail_eq]
    exact slot_ne s.popped.length hi (by omega)
  · intro v hfail
    rw [h.held_eq]
    exact h.push_fails hfail
  · intro left hfail
    rw [h.held_eq]
    exact h.pop_fails hfail

end channel

/-- **The ring is a FIFO channel** under every interleaving of the accesses of one
    producer and one consumer. -/
theorem fifo_interleaved (k : Nat) (buf : Nat → α) (turns : List (Threaded.Turn α)) :
    Channels k (Threaded.run k (Threaded.start buf) turns) := by
  obtain ⟨held, h⟩ := turning_run k buf turns
  exact h.channels

end SpscRing

end MatchingEngine
