import Mathlib.Data.List.Basic
import Mathlib.Data.Nat.ModEq
import Mathlib.Order.Nat

/-! # Linear probing with backward-shift deletion

    A table is a circular array of slots, each empty or holding an entry. The
    entry of a key `k` is searched from `home k` onwards, up to the first
    empty slot. The invariant `Table` says that a key occurs once and that
    every slot from its home to its place is occupied, so the search finds it.

    Deletion leaves no tombstone: the occupied slots behind the hole are
    scanned, and an entry whose search path passes through the hole is moved
    into it. `Shift` is the invariant of that scan. Positions are counted from
    the deleted slot, which makes the circular argument a linear one: the scan
    stops at the first empty slot, and no search path crosses an empty slot
    (`path_visit`).
-/

namespace Probing

variable {K V : Type*}

/-- Slot `j` holds an entry. -/
def Used (slots : List (Option (K × V))) (j : Nat) : Prop :=
  ∃ entry, slots[j]? = some (some entry)

/-- The `e` slots from `i` onwards are occupied. -/
def Path (slots : List (Option (K × V))) (i e : Nat) : Prop :=
  ∀ d < e, Used slots ((i + d) % slots.length)

/-- The invariant of a linear-probing table. -/
structure Table (home : K → Nat) (slots : List (Option (K × V))) : Prop where
  home_lt : ∀ k, home k < slots.length
  unique : ∀ {i j : Nat} {k : K} {v w : V}, slots[i]? = some (some (k, v)) →
    slots[j]? = some (some (k, w)) → i = j
  reach : ∀ {i : Nat} {k : K} {v : V}, slots[i]? = some (some (k, v)) →
    ∃ e < slots.length, i = (home k + e) % slots.length ∧ Path slots (home k) e
  empty : ∃ u < slots.length, slots[u]? = some none

/-! ### Circular arithmetic -/

theorem add_mod_cases {L h d : Nat} (hh : h < L) (hd : d < L) :
    (h + d) % L = if h + d < L then h + d else h + d - L := by
  split
  · next hlt => exact Nat.mod_eq_of_lt hlt
  · next hge =>
    rw [Nat.mod_eq_sub_mod (by omega)]
    exact Nat.mod_eq_of_lt (by omega)

/-- Two offsets below the length that name the same slot are equal. -/
theorem offset_inj {L i c d : Nat} (hc : c < L) (hd : d < L)
    (h : (i + c) % L = (i + d) % L) : c = d := by
  have hmod : c ≡ d [MOD L] := Nat.ModEq.add_left_cancel' i h
  rwa [Nat.ModEq, Nat.mod_eq_of_lt hc, Nat.mod_eq_of_lt hd] at hmod

/-- Every slot is at some offset from `i`. -/
theorem exists_offset {L i x : Nat} (hi : i < L) (hx : x < L) :
    ∃ c < L, x = (i + c) % L := by
  by_cases h : i ≤ x
  · refine ⟨x - i, by omega, ?_⟩
    rw [show i + (x - i) = x from by omega, Nat.mod_eq_of_lt hx]
  · refine ⟨x + L - i, by omega, ?_⟩
    rw [show i + (x + L - i) = x + L from by omega, Nat.add_mod_right, Nat.mod_eq_of_lt hx]

/-- The test made for an entry at `J` with home `h` while the hole is at `H`:
    it holds exactly when the search path of the entry passes through the
    hole. The two cases of the test are the two ways `(H, J]` can lie on the
    circle. -/
theorem shift_test {L h H J e : Nat} (hh : h < L) (hH : H < L) (hne : H ≠ J)
    (he : e < L) (hJ : J = (h + e) % L) :
    (if H ≤ J then h ≤ H ∨ J < h else h ≤ H ∧ J < h) ↔ ∃ d < e, (h + d) % L = H := by
  rw [add_mod_cases hh he] at hJ
  constructor
  · intro htest
    by_cases hle : h ≤ H
    · refine ⟨H - h, ?_, ?_⟩
      · split at hJ <;> split at htest <;> omega
      · rw [show h + (H - h) = H from by omega, Nat.mod_eq_of_lt hH]
    · refine ⟨H + L - h, ?_, ?_⟩
      · split at hJ <;> split at htest <;> omega
      · rw [show h + (H + L - h) = H + L from by omega, Nat.add_mod_right,
          Nat.mod_eq_of_lt hH]
  · rintro ⟨d, hd, hdH⟩
    rw [add_mod_cases hh (by omega)] at hdH
    split at hJ <;> split at hdH <;> split <;> omega

/-! ### Searching -/

section search

variable {home : K → Nat} {slots : List (Option (K × V))}

/-- A slot that is not occupied is empty. -/
theorem not_used {j : Nat} (hj : j < slots.length) :
    ¬ Used slots j ↔ slots[j]? = some none := by
  rw [List.getElem?_eq_getElem hj]
  cases h : slots[j] with
  | none => simp [Used, List.getElem?_eq_getElem hj, h]
  | some e => simp [Used, List.getElem?_eq_getElem hj, h]

/-- From every slot the table runs into an empty one. -/
theorem first_empty (hempty : ∃ u < slots.length, slots[u]? = some none) {i : Nat}
    (hi : i < slots.length) :
    ∃ u < slots.length, slots[(i + u) % slots.length]? = some none ∧ Path slots i u := by
  have hex : ∃ u, u < slots.length ∧ slots[(i + u) % slots.length]? = some none := by
    obtain ⟨u, hu, hnone⟩ := hempty
    obtain ⟨c, hc, rfl⟩ := exists_offset hi hu
    exact ⟨c, hc, hnone⟩
  classical
  obtain ⟨hlt, hnone⟩ := Nat.find_spec hex
  refine ⟨Nat.find hex, hlt, hnone, fun d hd => ?_⟩
  have hmin := Nat.find_min hex hd
  by_contra hnot
  refine hmin ⟨by omega, (not_used ?_).mp hnot⟩
  exact Nat.mod_lt _ (by omega)

/-- The search for a key meets it before any empty slot. -/
theorem search_found [DecidableEq K] (ht : Table home slots) {j : Nat} {k : K} {v : V}
    (hj : slots[j]? = some (some (k, v))) :
    ∃ e < slots.length, j = (home k + e) % slots.length ∧
      ∀ d < e, ∃ k' v', slots[(home k + d) % slots.length]? = some (some (k', v')) ∧ k' ≠ k := by
  obtain ⟨e, he, rfl, hpath⟩ := ht.reach hj
  refine ⟨e, he, rfl, fun d hd => ?_⟩
  obtain ⟨⟨k', v'⟩, hget⟩ := hpath d hd
  refine ⟨k', v', hget, fun hk => ?_⟩
  subst hk
  have := offset_inj (by omega) he (ht.unique hget hj)
  omega

/-- The search for an absent key ends at an empty slot. -/
theorem search_absent (ht : Table home slots) {k : K} (hk : ∀ v, some (k, v) ∉ slots) :
    ∃ e < slots.length, slots[(home k + e) % slots.length]? = some none ∧
      ∀ d < e, ∃ k' v', slots[(home k + d) % slots.length]? = some (some (k', v')) ∧ k' ≠ k := by
  obtain ⟨e, he, hnone, hpath⟩ := first_empty ht.empty (ht.home_lt k)
  refine ⟨e, he, hnone, fun d hd => ?_⟩
  obtain ⟨⟨k', v'⟩, hget⟩ := hpath d hd
  refine ⟨k', v', hget, fun hkk => ?_⟩
  subst hkk
  exact hk v' (List.mem_of_getElem? hget)

/-- A loop over the slots, with its fuel and the next slot, that goes on at every
    slot with another key. -/
def Skips {R : Type*} (slots : List (Option (K × V))) (key : K) (loop : Nat → Nat → R) : Prop :=
  ∀ (fuel i : Nat) (k : K) (v : V), slots[i]? = some (some (k, v)) → k ≠ key →
    loop (fuel + 1) i = loop fuel ((i + 1) % slots.length)

/-- With one unit of fuel for each slot, the loop gets over all slots with other keys. -/
theorem Skips.reaches {R : Type*} {key : K} {loop : Nat → Nat → R} (h : Skips slots key loop)
    {i e : Nat} (hi : i < slots.length) (he : e < slots.length)
    (hskip : ∀ d < e, ∃ k v, slots[(i + d) % slots.length]? = some (some (k, v)) ∧ k ≠ key) :
    ∃ fuel, loop slots.length i = loop (fuel + 1) ((i + e) % slots.length) := by
  have hrun : ∀ d ≤ e, loop slots.length i = loop (slots.length - d) ((i + d) % slots.length) := by
    intro d
    induction d with
    | zero =>
      intro _
      rw [Nat.sub_zero, Nat.add_zero, Nat.mod_eq_of_lt hi]
    | succ d ih =>
      intro hd
      obtain ⟨k, v, hget, hne⟩ := hskip d hd
      have hfuel : slots.length - d = slots.length - (d + 1) + 1 := by omega
      rw [ih (by omega), hfuel, h _ _ k v hget hne, Nat.mod_add_mod, Nat.add_assoc]
  refine ⟨slots.length - e - 1, ?_⟩
  rw [Nat.sub_add_cancel (by omega)]
  exact hrun e (Nat.le_refl e)

end search

/-! ### Writing an entry -/

section write

variable {home : K → Nat} {slots : List (Option (K × V))}

theorem used_set {j : Nat} {entry : K × V} (hj : j < slots.length) {x : Nat} :
    Used (slots.set j (some entry)) x ↔ x = j ∨ Used slots x := by
  by_cases hx : x = j
  · subst hx
    simp [Used, hj]
  · simp [Used, Ne.symm hx, hx]

theorem path_set {j i e : Nat} {entry : K × V} (hj : j < slots.length)
    (h : Path slots i e) : Path (slots.set j (some entry)) i e := by
  intro d hd
  rw [List.length_set, used_set hj]
  exact Or.inr (h d hd)

theorem get_set_cases {j x : Nat} {o : Option (K × V)} {r : Option (K × V)}
    (h : (slots.set j o)[x]? = some r) : (x = j ∧ r = o) ∨ (x ≠ j ∧ slots[x]? = some r) := by
  rw [List.getElem?_set] at h
  split at h
  · next heq =>
    split at h
    · exact Or.inl ⟨heq.symm, (Option.some.inj h).symm⟩
    · simp at h
  · next hne => exact Or.inr ⟨fun he => hne he.symm, h⟩

/-- The entries after writing `k` to a slot that no other key occupies and
    outside which `k` does not occur. -/
theorem mem_write {j : Nat} {k : K} {v : V} (hj : j < slots.length)
    (hold : ∀ {k' w}, slots[j]? = some (some (k', w)) → k' = k)
    (hother : ∀ {x : Nat} {w : V}, slots[x]? = some (some (k, w)) → x = j) (k' : K) (v' : V) :
    some (k', v') ∈ slots.set j (some (k, v)) ↔
      (k' = k ∧ v' = v) ∨ (k' ≠ k ∧ some (k', v') ∈ slots) := by
  rw [List.mem_iff_getElem?]
  constructor
  · rintro ⟨x, hx⟩
    rcases get_set_cases hx with ⟨-, h1⟩ | ⟨hne, h1⟩
    · cases h1; exact Or.inl ⟨rfl, rfl⟩
    · refine Or.inr ⟨fun hk => ?_, List.mem_of_getElem? h1⟩
      subst hk
      exact hne (hother h1)
  · rintro (⟨rfl, rfl⟩ | ⟨hk, hmem⟩)
    · exact ⟨j, List.getElem?_set_self hj⟩
    · obtain ⟨x, hx⟩ := List.mem_iff_getElem?.mp hmem
      refine ⟨x, ?_⟩
      rw [List.getElem?_set_ne]
      · exact hx
      · intro he; subst he; exact hk (hold hx)

/-- A new entry may be put into the empty slot where its search ends. -/
theorem table_insert (ht : Table home slots) {k : K} {v : V}
    (hk : ∀ w, some (k, w) ∉ slots) {e : Nat} (he : e < slots.length)
    (hpath : Path slots (home k) e)
    (hspare : ∃ u < slots.length, u ≠ (home k + e) % slots.length ∧ slots[u]? = some none) :
    Table home (slots.set ((home k + e) % slots.length) (some (k, v))) := by
  have hj : (home k + e) % slots.length < slots.length := Nat.mod_lt _ (by omega)
  have habs : ∀ {x : Nat} {w : V}, slots[x]? ≠ some (some (k, w)) :=
    fun hx => hk _ (List.mem_of_getElem? hx)
  constructor
  · intro k'; rw [List.length_set]; exact ht.home_lt k'
  · intro x y k' v' w' hx hy
    rcases get_set_cases hx with ⟨rfl, h1⟩ | ⟨-, h1⟩ <;>
      rcases get_set_cases hy with ⟨rfl, h2⟩ | ⟨-, h2⟩
    · rfl
    · cases h1; exact absurd h2 habs
    · cases h2; exact absurd h1 habs
    · exact ht.unique h1 h2
  · intro x k' v' hx
    rw [List.length_set]
    rcases get_set_cases hx with ⟨rfl, h1⟩ | ⟨-, h1⟩
    · cases h1
      exact ⟨e, he, rfl, path_set hj hpath⟩
    · obtain ⟨e', he', rfl, hp⟩ := ht.reach h1
      exact ⟨e', he', rfl, path_set hj hp⟩
  · obtain ⟨u, hu, hne, hnone⟩ := hspare
    refine ⟨u, by rw [List.length_set]; exact hu, ?_⟩
    rw [List.getElem?_set, if_neg (Ne.symm hne)]
    exact hnone

/-- Overwriting the value of a key keeps the table. -/
theorem table_overwrite (ht : Table home slots) {j : Nat} {k : K} {v w : V}
    (hj : slots[j]? = some (some (k, w))) : Table home (slots.set j (some (k, v))) := by
  have hlt : j < slots.length := (List.getElem?_eq_some_iff.mp hj).1
  have hkey : ∀ {x : Nat} {k' : K} {v' : V},
      (slots.set j (some (k, v)))[x]? = some (some (k', v')) →
        ∃ w', slots[x]? = some (some (k', w')) := by
    intro x k' v' hx
    rcases get_set_cases hx with ⟨rfl, h1⟩ | ⟨-, h1⟩
    · cases h1; exact ⟨w, hj⟩
    · exact ⟨v', h1⟩
  constructor
  · intro k'; rw [List.length_set]; exact ht.home_lt k'
  · intro x y k' v' w' hx hy
    obtain ⟨_, hx'⟩ := hkey hx
    obtain ⟨_, hy'⟩ := hkey hy
    exact ht.unique hx' hy'
  · intro x k' v' hx
    obtain ⟨_, hx'⟩ := hkey hx
    obtain ⟨e, he, rfl, hp⟩ := ht.reach hx'
    rw [List.length_set]
    exact ⟨e, he, rfl, path_set hlt hp⟩
  · obtain ⟨u, hu, hnone⟩ := ht.empty
    refine ⟨u, by rw [List.length_set]; exact hu, ?_⟩
    rw [List.getElem?_set, if_neg]
    · exact hnone
    · intro he; subst he; rw [hj] at hnone; simp at hnone

end write

/-! ### Backward shift -/

/-- The scan after deleting the key at slot `i`: the hole is at offset `a`,
    the slots up to offset `b` have been examined, and `u` is the offset of
    the first empty slot. An entry whose search path still passes through the
    hole lies beyond `b`. The hole counts as occupied, by stale content. -/
structure Shift (home : K → Nat) (slots : List (Option (K × V))) (key : K) (i u a b : Nat)
    (cur : List (Option (K × V))) : Prop where
  len : cur.length = slots.length
  le : a ≤ b
  lt : b < u
  used : ∀ x, Used cur x ↔ Used slots x
  holds : ∀ k v, (∃ x : Nat, x ≠ (i + a) % slots.length ∧ cur[x]? = some (some (k, v))) ↔
    k ≠ key ∧ some (k, v) ∈ slots
  unique : ∀ {x y : Nat} {k : K} {v w : V}, x ≠ (i + a) % slots.length →
    y ≠ (i + a) % slots.length → cur[x]? = some (some (k, v)) → cur[y]? = some (some (k, w)) → x = y
  reach : ∀ {x : Nat} {k : K} {v : V}, x ≠ (i + a) % slots.length → cur[x]? = some (some (k, v)) →
    ∃ e < slots.length, x = (home k + e) % slots.length ∧ Path slots (home k) e ∧
      ((∀ d < e, (home k + d) % slots.length ≠ (i + a) % slots.length) ∨
        ∃ c, b < c ∧ c < slots.length ∧ x = (i + c) % slots.length)

section shift

variable {home : K → Nat} {slots cur : List (Option (K × V))} {key : K} {i u a b : Nat}

/-- A search path that visits a slot before the first empty one ends before
    the empty one. -/
theorem path_visit (hu : u < slots.length)
    (hnone : slots[(i + u) % slots.length]? = some none) {h e d c : Nat}
    (hpath : Path slots h e) (hend : Used slots ((h + e) % slots.length)) (hd : d < e)
    (hc : c < u) (hvisit : (h + d) % slots.length = (i + c) % slots.length) :
    c + (e - d) < u ∧ (h + e) % slots.length = (i + (c + (e - d))) % slots.length := by
  have hmove : ∀ t, (h + (d + t)) % slots.length = (i + (c + t)) % slots.length := by
    intro t
    have := Nat.ModEq.add_right t (show h + d ≡ i + c [MOD slots.length] from hvisit)
    rwa [Nat.ModEq, Nat.add_assoc, Nat.add_assoc] at this
  have hempty : ¬ Used slots ((i + u) % slots.length) :=
    (not_used (Nat.mod_lt _ (by omega))).mpr hnone
  refine ⟨?_, ?_⟩
  · by_contra hge
    -- the path would step on the empty slot after `u - c` more slots
    have hstep := hmove (u - c)
    rw [show c + (u - c) = u from by omega] at hstep
    rcases Nat.lt_or_ge (d + (u - c)) e with hlt | hle
    · exact hempty (hstep ▸ hpath _ hlt)
    · have heq : d + (u - c) = e := by omega
      rw [heq] at hstep
      exact hempty (hstep ▸ hend)
  · have hstep := hmove (e - d)
    rwa [show d + (e - d) = e from by omega] at hstep

/-- Deleting the key at slot `i` starts the scan. -/
theorem shift_start (ht : Table home slots) {v : V} (hi : slots[i]? = some (some (key, v)))
    (hu : 0 < u) : Shift home slots key i u 0 0 slots := by
  have hlt : i < slots.length := (List.getElem?_eq_some_iff.mp hi).1
  have hi0 : (i + 0) % slots.length = i := by rw [Nat.add_zero, Nat.mod_eq_of_lt hlt]
  constructor
  · rfl
  · exact Nat.le_refl 0
  · exact hu
  · exact fun _ => Iff.rfl
  · intro k w
    rw [hi0]
    constructor
    · rintro ⟨x, hx, hget⟩
      exact ⟨fun hk => hx (ht.unique (hk ▸ hget) hi), List.mem_of_getElem? hget⟩
    · rintro ⟨hk, hmem⟩
      obtain ⟨x, hget⟩ := List.mem_iff_getElem?.mp hmem
      refine ⟨x, fun hx => hk ?_, hget⟩
      rw [hx, hi] at hget
      simp only [Option.some.injEq, Prod.mk.injEq] at hget
      exact hget.1.symm
  · intro x y k v w _ _ h1 h2; exact ht.unique h1 h2
  · intro x k w hx hget
    rw [hi0] at hx
    obtain ⟨e, he, hxe, hp⟩ := ht.reach hget
    have hxlt : x < slots.length := (List.getElem?_eq_some_iff.mp hget).1
    obtain ⟨c, hc, hxc⟩ := exists_offset hlt hxlt
    refine ⟨e, he, hxe, hp, Or.inr ⟨c, ?_, hc, hxc⟩⟩
    rcases Nat.eq_zero_or_pos c with rfl | hpos
    · rw [hi0] at hxc; exact absurd hxc hx
    · exact hpos

theorem hole_ne_next (hu : u < slots.length) (hs : Shift home slots key i u a b cur) :
    (i + a) % slots.length ≠ (i + (b + 1)) % slots.length := by
  intro heq
  have h1 := hs.le
  have h2 := hs.lt
  have := offset_inj (by omega) (by omega) heq
  omega

/-- The next slot holds an entry whose search path avoids the hole: leave it. -/
theorem shift_skip (hs : Shift home slots key i u a b cur) (hb : b + 1 < u) {k : K} {v : V}
    (hget : cur[(i + (b + 1)) % slots.length]? = some (some (k, v)))
    (havoid : ∀ {e}, e < slots.length →
      (i + (b + 1)) % slots.length = (home k + e) % slots.length →
      ∀ d < e, (home k + d) % slots.length ≠ (i + a) % slots.length) :
    Shift home slots key i u a (b + 1) cur := by
  refine ⟨hs.len, Nat.le_succ_of_le hs.le, hb, hs.used, hs.holds, hs.unique, ?_⟩
  intro x k' v' hx hgetx
  obtain ⟨e, he, hxe, hp, hor⟩ := hs.reach hx hgetx
  refine ⟨e, he, hxe, hp, ?_⟩
  rcases hor with hav | ⟨c, hc, hcl, hxc⟩
  · exact Or.inl hav
  · by_cases hcb : c = b + 1
    · subst hcb
      rw [hxc] at hgetx
      rw [hget] at hgetx
      cases hgetx
      exact Or.inl (havoid he (hxc.symm.trans hxe))
    · exact Or.inr ⟨c, by omega, hcl, hxc⟩

/-- The next slot holds an entry whose search path passes through the hole:
    move it there, which makes its slot the hole. -/
theorem shift_move (hu : u < slots.length)
    (hnone : slots[(i + u) % slots.length]? = some none)
    (hs : Shift home slots key i u a b cur) (hb : b + 1 < u) {k : K} {v : V}
    (hget : cur[(i + (b + 1)) % slots.length]? = some (some (k, v))) {e d : Nat}
    (he : e < slots.length) (hje : (i + (b + 1)) % slots.length = (home k + e) % slots.length)
    (hpath : Path slots (home k) e) (hd : d < e)
    (hvisit : (home k + d) % slots.length = (i + a) % slots.length) :
    Shift home slots key i u (b + 1) (b + 1)
      (cur.set ((i + a) % slots.length) (some (k, v))) := by
  have hpos : 0 < slots.length := by omega
  have hholelt : (i + a) % slots.length < cur.length := by
    rw [hs.len]; exact Nat.mod_lt _ hpos
  have hne := hole_ne_next hu hs
  have hge : a ≤ b := hs.le
  constructor
  · rw [List.length_set]; exact hs.len
  · exact Nat.le_refl _
  · exact hb
  · intro x
    rw [used_set hholelt]
    constructor
    · rintro (rfl | hx)
      · rw [← hvisit]; exact hpath d hd
      · exact (hs.used x).mp hx
    · exact fun hx => Or.inr ((hs.used x).mpr hx)
  · intro k' v'
    rw [← hs.holds]
    constructor
    · rintro ⟨x, hx, hgetx⟩
      rcases get_set_cases hgetx with ⟨rfl, h1⟩ | ⟨hxne, h1⟩
      · cases h1; exact ⟨_, Ne.symm hne, hget⟩
      · exact ⟨x, hxne, h1⟩
    · rintro ⟨x, hx, hgetx⟩
      by_cases hxj : x = (i + (b + 1)) % slots.length
      · subst hxj
        rw [hget] at hgetx; cases hgetx
        exact ⟨_, hne, by rw [List.getElem?_set_self hholelt]⟩
      · exact ⟨x, hxj, by rw [List.getElem?_set_ne (Ne.symm hx)]; exact hgetx⟩
  · intro x y k' v' w' hx hy hgx hgy
    rcases get_set_cases hgx with ⟨rfl, h1⟩ | ⟨hxne, h1⟩ <;>
      rcases get_set_cases hgy with ⟨rfl, h2⟩ | ⟨hyne, h2⟩
    · rfl
    · cases h1; exact absurd (hs.unique (Ne.symm hne) hyne hget h2) (Ne.symm hy)
    · cases h2; exact absurd (hs.unique (Ne.symm hne) hxne hget h1) (Ne.symm hx)
    · exact hs.unique hxne hyne h1 h2
  · intro x k' v' hx hgetx
    rcases get_set_cases hgetx with ⟨rfl, h1⟩ | ⟨hxne, h1⟩
    · -- the moved entry: its path is the part of its old path before the hole
      cases h1
      refine ⟨d, by omega, hvisit.symm, fun d' hd' => hpath d' (by omega), Or.inl ?_⟩
      intro d' hd' heq
      rw [hje] at heq
      have := offset_inj (by omega) he heq
      omega
    · obtain ⟨e', he', hxe, hp, -⟩ := hs.reach hxne h1
      refine ⟨e', he', hxe, hp, ?_⟩
      by_cases hav : ∀ d' < e', (home k' + d') % slots.length ≠ (i + (b + 1)) % slots.length
      · exact Or.inl hav
      · -- its path passes the new hole, so it ends beyond it
        simp only [not_forall, not_not] at hav
        obtain ⟨d', hd', hv'⟩ := hav
        have hend : Used slots ((home k' + e') % slots.length) := by
          rw [← hxe]; exact (hs.used x).mp ⟨_, h1⟩
        obtain ⟨hlt, heq⟩ := path_visit hu hnone hp hend hd' hb hv'
        exact Or.inr ⟨_, by omega, by omega, hxe.trans heq⟩

/-- The scan has reached the first empty slot: emptying the hole gives a table
    without the key. -/
theorem shift_finish (ht : Table home slots) (hu : u < slots.length)
    (hnone : slots[(i + u) % slots.length]? = some none)
    (hs : Shift home slots key i u a b cur) (hb : b + 1 = u) :
    Table home (cur.set ((i + a) % slots.length) none) ∧
      ∀ k v, some (k, v) ∈ cur.set ((i + a) % slots.length) none ↔
        k ≠ key ∧ some (k, v) ∈ slots := by
  have hpos : 0 < slots.length := by omega
  have hau : a < u := Nat.lt_of_le_of_lt hs.le hs.lt
  have hholelt : (i + a) % slots.length < cur.length := by
    rw [hs.len]; exact Nat.mod_lt _ hpos
  have hentry : ∀ {x : Nat} {k : K} {v : V},
      (cur.set ((i + a) % slots.length) none)[x]? = some (some (k, v)) ↔
        x ≠ (i + a) % slots.length ∧ cur[x]? = some (some (k, v)) := by
    intro x k v
    constructor
    · intro h
      rcases get_set_cases h with ⟨-, h1⟩ | h1
      · cases h1
      · exact h1
    · rintro ⟨hx, h⟩
      rw [List.getElem?_set_ne (Ne.symm hx)]; exact h
  refine ⟨⟨?_, ?_, ?_, ?_⟩, ?_⟩
  · intro k; rw [List.length_set, hs.len]; exact ht.home_lt k
  · intro x y k v w hx hy
    obtain ⟨hx1, hx2⟩ := hentry.mp hx
    obtain ⟨hy1, hy2⟩ := hentry.mp hy
    exact hs.unique hx1 hy1 hx2 hy2
  · intro x k v hx
    obtain ⟨hx1, hx2⟩ := hentry.mp hx
    obtain ⟨e, he, hxe, hp, hor⟩ := hs.reach hx1 hx2
    rw [List.length_set, hs.len]
    refine ⟨e, he, hxe, fun d hd => ?_⟩
    -- the path avoids the hole: past it, it could not get beyond the empty slot
    have hav : (home k + d) % slots.length ≠ (i + a) % slots.length := by
      rcases hor with hav | ⟨c, hc, hcl, hxc⟩
      · exact hav d hd
      · intro hv
        have hend : Used slots ((home k + e) % slots.length) := by
          rw [← hxe]; exact (hs.used x).mp ⟨_, hx2⟩
        obtain ⟨hlt, heq⟩ := path_visit hu hnone hp hend hd hau hv
        have hcc : c = a + (e - d) := offset_inj hcl (by omega) (hxc.symm.trans (hxe.trans heq))
        omega
    obtain ⟨entry, hent⟩ := (hs.used _).mpr (hp d hd)
    refine ⟨entry, ?_⟩
    rw [List.length_set, hs.len, List.getElem?_set_ne (Ne.symm hav)]
    exact hent
  · refine ⟨(i + a) % slots.length, by rw [List.length_set]; exact hholelt, ?_⟩
    rw [List.getElem?_set_self hholelt]
  · intro k v
    rw [← hs.holds, List.mem_iff_getElem?]
    constructor
    · rintro ⟨x, hx⟩; exact ⟨x, hentry.mp hx⟩
    · rintro ⟨x, hx⟩; exact ⟨x, hentry.mpr hx⟩

end shift

end Probing
