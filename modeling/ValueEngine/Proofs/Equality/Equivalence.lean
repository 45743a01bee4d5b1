/-
  Value engine — being the same as values.

  * `Same.refl`, `Same.symm`, `Same.trans`: it is an equivalence between objects of the
    kinds that have equality.
  * `Contents.Match`: lists that are the same, place by place.
  * `match_of_same`, `same_of_match`: two different lists are the same just if they
    match.
  * `Match.append`, `Match.select?`: what is made of matching lists matches.
  * `Same.grow`: more objects do not matter.
-/
import Mathlib.Data.List.Forall2
import ValueEngine.Collection.Position
import ValueEngine.Proofs.Equality.Difference

namespace ValueEngine

namespace Payload

variable {a b d : Payload}

/-- Payloads that are alike are one and the same, but for the elements of lists. -/
theorem alike_cases (h : a.Alike b) :
    a = b ∨ ∃ ls rs, a = list ls ∧ b = list rs ∧ ls.length = rs.length := by
  unfold Alike at h
  split at h
  · exact .inl (congrArg _ h)
  · exact .inl (congrArg _ h)
  · exact .inr ⟨_, _, rfl, rfl, h⟩
  · exact h.elim

theorem alike_list_left {ls : List Ref} (h : (list ls).Alike b) :
    ∃ rs, b = list rs ∧ ls.length = rs.length := by
  obtain rfl | ⟨_, rs, ⟨⟩, rfl, hlen⟩ := alike_cases h
  · exact ⟨ls, rfl, rfl⟩
  · exact ⟨rs, rfl, hlen⟩

theorem Alike.symm (h : a.Alike b) : b.Alike a := by
  obtain rfl | ⟨ls, rs, rfl, rfl, hlen⟩ := alike_cases h
  · exact h
  · exact Eq.symm hlen

theorem Alike.trans (hab : a.Alike b) (hbd : b.Alike d) : a.Alike d := by
  obtain rfl | ⟨ls, rs, rfl, rfl, hlen⟩ := alike_cases hab
  · exact hbd
  obtain ⟨ts, rfl, hlen'⟩ := alike_list_left hbd
  exact hlen.trans hlen'

end Payload

namespace Contents

variable {c : Contents} {i j k l m : ObjId}

theorem Agrees.symm (h : c.Agrees (i, j)) : c.Agrees (j, i) := by
  obtain ⟨a, b, ha, hb, hkind, heq, hs⟩ := h
  exact ⟨b, a, hb, ha, hkind.symm, hkind ▸ heq, hs.imp Eq.symm Payload.Alike.symm⟩

theorem Agrees.trans (hij : c.Agrees (i, j)) (hjk : c.Agrees (j, k)) : c.Agrees (i, k) := by
  obtain ⟨a, b, ha, hb, hkind, heq, hs⟩ := hij
  obtain ⟨b', d, hb', hd, hkind', -, hs'⟩ := hjk
  rw [hb] at hb'
  cases hb'
  refine ⟨a, d, ha, hd, hkind.trans hkind', heq, ?_⟩
  -- where two of the three are one object, they hold one payload
  dsimp only at ha hb hd hs hs' ⊢
  rcases hs with hij | hs
  · subst hij
    rw [ha] at hb
    cases hb
    exact hs'
  rcases hs' with hjk | hs'
  · subst hjk
    rw [hb] at hd
    cases hd
    exact .inr hs
  · exact .inr (hs.trans hs')

/-- What agrees with a list and is another object is a list of the same length. -/
theorem Agrees.list {ls : List Ref} (h : c.Agrees (i, j)) (hij : i ≠ j)
    (hi : c i = some (.list ls)) : ∃ rs, c j = some (.list rs) ∧ ls.length = rs.length := by
  obtain ⟨a, b, ha, hb, -, -, hs⟩ := h
  rw [hi] at ha
  cases ha
  obtain ⟨rs, rfl, hlen⟩ := Payload.alike_list_left (hs.resolve_left hij)
  exact ⟨rs, hb, hlen⟩

theorem Child.symm (h : c.Child (i, j) (k, l)) : c.Child (j, i) (l, k) := by
  obtain ⟨n, hij, ha, hb, hlen, hl, hr⟩ := h
  exact .element n hij.symm hb ha hlen.symm hr hl

/-! ## An equivalence -/

theorem Same.refl {a : Payload} (ha : c i = some a) (hk : a.kind.hasEquality = true) :
    c.Same i i := by
  intro q hq
  rw [← reachesAround_nil] at hq
  rw [eq_of_not_child (fun _ => not_child_self) hq]
  exact ⟨a, a, ha, ha, rfl, hk, .inl rfl⟩

theorem Same.symm (h : c.Same i j) : c.Same j i := by
  refine same_iff.2 ⟨fun x y => c.Same y x, ⟨fun hR => ?_, fun hR hc => ?_⟩, h⟩
  · exact ((closed_same c).agrees hR).symm
  · exact same_child hR hc.symm

/-- **Being the same is transitive.** An object in the middle may be one of those at the
    sides, and then its elements need not be comparable at all. -/
theorem Same.trans (hc : c.Filled) (hij : c.Same i j) (hjk : c.Same j k) : c.Same i k := by
  refine same_iff.2 ⟨fun x z => c.Same x z ∨ ∃ y, c.Same x y ∧ c.Same y z, ⟨?_, ?_⟩,
    .inr ⟨j, hij, hjk⟩⟩
  · rintro x z (hxz | ⟨y, hxy, hyz⟩)
    · exact (closed_same c).agrees hxz
    · exact ((closed_same c).agrees hxy).trans ((closed_same c).agrees hyz)
  · rintro x z u v (hxz | ⟨y, hxy, hyz⟩) hchild
    · exact .inl (same_child hxz hchild)
    by_cases hxy' : x = y
    · subst hxy'
      exact .inl (same_child hyz hchild)
    by_cases hyz' : y = z
    · subst hyz'
      exact .inl (same_child hxy hchild)
    -- all three are different lists, and the one in the middle has an element there
    obtain ⟨n, hxz, hx, hz, hlen, hu, hv⟩ := hchild
    obtain ⟨ms, hy, hlen'⟩ := ((closed_same c).agrees hxy).list hxy' hx
    have hn : n < ms.length := hlen' ▸ (List.getElem?_eq_some_iff.1 hu).1
    obtain ⟨t, -, ht, -⟩ := hc.slot hy (List.getElem_mem hn)
    have ht' : ms[n]? = some (some t) := by rw [List.getElem?_eq_getElem hn, ht]
    have hleft : c.Child (x, y) (u, t) := .element n hxy' hx hy hlen' hu ht'
    have hright : c.Child (y, z) (t, v) :=
      .element n hyz' hy hz (hlen'.symm.trans hlen) ht' hv
    exact .inr ⟨t, same_child hxy hleft, same_child hyz hright⟩

/-! ## Lists -/

/-- Lists of references to objects that are the same, place by place. -/
def Match (c : Contents) : List Ref → List Ref → Prop :=
  List.Forall₂ fun l r => ∃ k m, l = some k ∧ r = some m ∧ c.Same k m

theorem match_of_same {ls : List Ref} (hc : c.Filled) (h : c.Same i j) (hij : i ≠ j)
    (hi : c i = some (.list ls)) : ∃ rs, c j = some (.list rs) ∧ c.Match ls rs := by
  obtain ⟨rs, hj, hlen⟩ := ((closed_same c).agrees h).list hij hi
  refine ⟨rs, hj, List.forall₂_iff_get.2 ⟨hlen, fun n hl hr => ?_⟩⟩
  obtain ⟨k, -, hk, -⟩ := hc.slot hi (List.get_mem ls ⟨n, hl⟩)
  obtain ⟨m, -, hm, -⟩ := hc.slot hj (List.get_mem rs ⟨n, hr⟩)
  refine ⟨k, m, hk, hm, same_child h (.element n hij hi hj hlen ?_ ?_)⟩
  · rw [← hk]
    exact List.getElem?_eq_getElem hl
  · rw [← hm]
    exact List.getElem?_eq_getElem hr

/-- At every place there are two objects that are the same. -/
theorem Match.place {ls rs : List Ref} (h : c.Match ls rs) {n : Nat} (hn : n < ls.length) :
    ∃ k m, ls[n]? = some (some k) ∧ rs[n]? = some (some m) ∧ c.Same k m := by
  obtain ⟨hlen, hall⟩ := List.forall₂_iff_get.1 h
  obtain ⟨k, m, hk, hm, hs⟩ := hall n hn (hlen ▸ hn)
  refine ⟨k, m, ?_, ?_, hs⟩
  · rw [← hk]
    exact List.getElem?_eq_getElem hn
  · rw [← hm]
    exact List.getElem?_eq_getElem (hlen ▸ hn)

/-- What matches is there. -/
theorem Match.live {ls rs : List Ref} (h : c.Match ls rs) :
    (∀ r ∈ ls, (r.bind c).isSome) ∧ ∀ r ∈ rs, (r.bind c).isSome := by
  induction h with
  | nil => exact ⟨nofun, nofun⟩
  | cons hlr _ ih =>
    obtain ⟨k, m, rfl, rfl, hs⟩ := hlr
    obtain ⟨a, b, ha, hb, -⟩ := (closed_same c).agrees hs
    dsimp only at ha hb
    exact ⟨by simpa [ha] using ih.1, by simpa [hb] using ih.2⟩

theorem same_of_match {ls rs : List Ref} (hi : c i = some (.list ls)) (hj : c j = some (.list rs))
    (h : c.Match ls rs) : c.Same i j := by
  refine same_iff.2 ⟨fun x y => c.Same x y ∨ (x = i ∧ y = j), ⟨?_, ?_⟩, .inr ⟨rfl, rfl⟩⟩
  · rintro x y (hxy | ⟨rfl, rfl⟩)
    · exact (closed_same c).agrees hxy
    · exact ⟨_, _, hi, hj, rfl, rfl, .inr h.length_eq⟩
  · rintro x y k l (hxy | ⟨rfl, rfl⟩) hchild
    · exact .inl (same_child hxy hchild)
    · obtain ⟨n, -, hx, hy, -, hk, hl⟩ := hchild
      rw [hi] at hx
      rw [hj] at hy
      cases hx
      cases hy
      obtain ⟨k', l', hk', hl', hs⟩ := h.place (List.getElem?_eq_some_iff.1 hk).1
      rw [hk] at hk'
      rw [hl] at hl'
      cases hk'
      cases hl'
      exact .inl hs

theorem Match.append {ls rs ls' rs' : List Ref} (h : c.Match ls rs) (h' : c.Match ls' rs') :
    c.Match (ls ++ ls') (rs ++ rs') := List.rel_append h h'

/-- The elements at given places match. -/
theorem Match.places {ls rs : List Ref} (h : c.Match ls rs) (places : List Nat) :
    c.Match (places.filterMap (ls[·]?)) (places.filterMap (rs[·]?)) := by
  induction places with
  | nil => exact .nil
  | cons n places ih =>
    by_cases hn : n < ls.length
    · have hn' : n < rs.length := h.length_eq ▸ hn
      rw [List.filterMap_cons_some (List.getElem?_eq_getElem hn),
        List.filterMap_cons_some (List.getElem?_eq_getElem hn')]
      exact .cons ((List.forall₂_iff_get.1 h).2 n hn hn') ih
    · have hn' : ¬n < rs.length := h.length_eq ▸ hn
      rw [List.filterMap_cons_none (List.getElem?_eq_none (Nat.not_lt.1 hn)),
        List.filterMap_cons_none (List.getElem?_eq_none (Nat.not_lt.1 hn'))]
      exact ih

/-- Two lists that match have the same selections. -/
theorem Match.select? {ls rs : List Ref} (h : c.Match ls rs) (bounds : SliceBounds) :
    (bounds.step = some 0 ∧ bounds.select? ls = none ∧ bounds.select? rs = none) ∨
      ∃ ls' rs', bounds.select? ls = some ls' ∧ bounds.select? rs = some rs' ∧ c.Match ls' rs' := by
  have hlen : ls.length = rs.length := h.length_eq
  cases hp : bounds.positions? ls.length with
  | none =>
    refine .inl ⟨SliceBounds.positions?_eq_none_iff.1 hp, ?_, ?_⟩
    · simp [SliceBounds.select?, hp]
    · simp [SliceBounds.select?, ← hlen, hp]
  | some places =>
    refine .inr ⟨_, _, ?_, ?_, h.places places⟩
    · simp [SliceBounds.select?, hp]
    · simp [SliceBounds.select?, ← hlen, hp]

/-! ## More objects -/

/-- What objects hold once there is one more. -/
structure Grows (c d : Contents) (t : ObjId) (payload : Payload) : Prop where
  old : ∀ {i a}, c i = some a → d i = some a
  new : d t = some payload
  only : ∀ {i a}, d i = some a → c i = some a ∨ a = payload

variable {d : Contents} {t : ObjId} {payload : Payload}

theorem Filled.grow (hc : c.Filled) (hd : c.Grows d t payload)
    (hp : ∀ r ∈ payload.slots, (r.bind c).isSome) : d.Filled := by
  intro i a ha r hr
  have hlive : (r.bind c).isSome := by
    rcases hd.only ha with ha' | rfl
    · exact hc i a ha' r hr
    · exact hp r hr
  obtain ⟨b, hb⟩ := Option.isSome_iff_exists.1 hlive
  obtain ⟨k, rfl, hk⟩ := Option.bind_eq_some_iff.1 hb
  simp [hd.old hk]

theorem Agrees.grow (hd : c.Grows d t payload) (h : c.Agrees (i, j)) : d.Agrees (i, j) := by
  obtain ⟨a, b, ha, hb, hs⟩ := h
  exact ⟨a, b, hd.old ha, hd.old hb, hs⟩

/-- **What objects there are besides does not matter.** -/
theorem Same.grow (hd : c.Grows d t payload) (h : c.Same i j) : d.Same i j := by
  refine same_iff.2 ⟨c.Same, ⟨fun hs => ((closed_same c).agrees hs).grow hd, ?_⟩, h⟩
  intro i j k l hs hchild
  obtain ⟨n, hij, hi, hj, hlen, hk, hl⟩ := hchild
  obtain ⟨a, b, ha, hb, -⟩ := (closed_same c).agrees hs
  -- the objects of the pair were there before, so they hold what they held
  rw [hd.old ha] at hi
  rw [hd.old hb] at hj
  cases hi
  cases hj
  exact same_child hs (.element n hij ha hb hlen hk hl)

theorem Match.grow (hd : c.Grows d t payload) {ls rs : List Ref} (h : c.Match ls rs) :
    d.Match ls rs :=
  h.imp fun _ _ ⟨k, m, hk, hm, hs⟩ => ⟨k, m, hk, hm, hs.grow hd⟩

end Contents

end ValueEngine
