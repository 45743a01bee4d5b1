/-
  Value engine — differences between objects.

  Two objects are the same as values if no difference can be reached from them. From
  two different lists of one length their elements are reached, in step; lists may hold
  themselves, so what is reached is no tree.

  * `Contents.Child`, `Contents.Reaches`: the pairs that are reached from a pair.
  * `Contents.Agrees`, `Contents.Differs`, `Contents.Clashes`: what a pair can be by
    itself.
  * `Contents.Same`: no difference can be reached.
  * `reachesAround_cases`: a path goes through its first pair once.
  * `same_iff`: two objects are the same just if something closed relates them.
-/
import ValueEngine.Proofs.Reading.Around
import ValueEngine.Proofs.Reading.Contents

namespace ValueEngine

/-- Two objects, on the left and on the right. -/
abbrev Pair := ObjId × ObjId

/-- Two payloads without a difference between them, but for the elements of lists. -/
def Payload.Alike : Payload → Payload → Prop
  | integer x, integer y => x = y
  | string s, string t => s = t
  | list ls, list rs => ls.length = rs.length
  | _, _ => False

/-- Two unequal integers, two unequal strings or two lists of different lengths. -/
def Payload.Unlike : Payload → Payload → Prop
  | integer x, integer y => x ≠ y
  | string s, string t => s ≠ t
  | list ls, list rs => ls.length ≠ rs.length
  | _, _ => False

namespace Payload

/-- The payloads that have equality. -/
theorem cases_of_hasEquality {a b : Payload} (hkind : a.kind = b.kind)
    (heq : a.kind.hasEquality = true) :
    (∃ x y, a = integer x ∧ b = integer y) ∨ (∃ s t, a = string s ∧ b = string t) ∨
      ∃ ls rs, a = list ls ∧ b = list rs := by
  cases a with
  | integer x => cases b <;> cases hkind; exact .inl ⟨_, _, rfl, rfl⟩
  | string s => cases b <;> cases hkind; exact .inr (.inl ⟨_, _, rfl, rfl⟩)
  | list ls => cases b <;> cases hkind; exact .inr (.inr ⟨_, _, rfl, rfl⟩)
  | _ => cases heq

@[simp] theorem alike_integer {x y : Int32} : (integer x).Alike (integer y) ↔ x = y := .rfl

@[simp] theorem alike_string {s t : Bytes} : (string s).Alike (string t) ↔ s = t := .rfl

@[simp] theorem alike_list {ls rs : List Ref} :
    (list ls).Alike (list rs) ↔ ls.length = rs.length := .rfl

@[simp] theorem unlike_integer {x y : Int32} : (integer x).Unlike (integer y) ↔ x ≠ y := .rfl

@[simp] theorem unlike_string {s t : Bytes} : (string s).Unlike (string t) ↔ s ≠ t := .rfl

@[simp] theorem unlike_list {ls rs : List Ref} :
    (list ls).Unlike (list rs) ↔ ls.length ≠ rs.length := .rfl

end Payload

namespace Contents

variable {c : Contents} {p q : Pair}

/-- The elements that stand at one place of two different lists of one length. -/
inductive Child (c : Contents) : Pair → Pair → Prop
  | element {i j k l : ObjId} {ls rs : List Ref} (n : Nat) :
      i ≠ j → c i = some (.list ls) → c j = some (.list rs) → ls.length = rs.length →
      ls[n]? = some (some k) → rs[n]? = some (some l) → Child c (i, j) (k, l)

/-- What can be reached from a pair. -/
def Reaches (c : Contents) : Pair → Pair → Prop := Relation.ReflTransGen c.Child

/-- What can be reached from a pair without going on from some others. -/
def ReachesAround (c : Contents) (pairs : List Pair) : Pair → Pair → Prop :=
  Relation.ReflTransGen fun p q => p ∉ pairs ∧ c.Child p q

/-- Two objects of one kind that has equality, which are one object or hold what is
    alike. -/
def Agrees (c : Contents) (p : Pair) : Prop :=
  ∃ a b, c p.1 = some a ∧ c p.2 = some b ∧ a.kind = b.kind ∧ a.kind.hasEquality = true ∧
    (p.1 = p.2 ∨ a.Alike b)

/-- Two objects of one kind that has equality, with a difference between them. -/
def Differs (c : Contents) (p : Pair) : Prop :=
  ∃ a b, c p.1 = some a ∧ c p.2 = some b ∧ a.Unlike b

/-- Two objects of given kinds that cannot be compared. -/
def Clashes (c : Contents) (p : Pair) (left right : Kind) : Prop :=
  ∃ a b, c p.1 = some a ∧ c p.2 = some b ∧ a.kind = left ∧ b.kind = right ∧
    (left ≠ right ∨ left.hasEquality = false)

/-- Two objects that are the same as values: no difference can be reached. -/
def Same (c : Contents) (i j : ObjId) : Prop := ∀ q, c.Reaches (i, j) q → c.Agrees q

/-! ## Pairs by themselves -/

theorem not_agrees_of_differs (h : c.Differs p) : ¬c.Agrees p := by
  obtain ⟨a, b, ha, hb, hu⟩ := h
  rintro ⟨a', b', ha', hb', -, -, hs⟩
  rw [ha] at ha'
  rw [hb] at hb'
  cases ha'
  cases hb'
  rcases hs with hs | hs
  · rw [hs, hb] at ha
    cases ha
    cases a <;> simp [Payload.Unlike] at hu
  · cases a <;> cases b <;> simp [Payload.Unlike, Payload.Alike] at hu hs
    all_goals exact hu hs

theorem not_agrees_of_clashes {left right : Kind} (h : c.Clashes p left right) :
    ¬c.Agrees p := by
  obtain ⟨a, b, ha, hb, rfl, rfl, hk⟩ := h
  rintro ⟨a', b', ha', hb', hkind, heq, -⟩
  rw [ha] at ha'
  rw [hb] at hb'
  cases ha'
  cases hb'
  rcases hk with hk | hk
  · exact hk hkind
  · rw [hk] at heq
    cases heq

/-! ## Reaching -/

/-- Nothing is reached from one object on both sides. -/
theorem not_child_self {i : ObjId} : ¬c.Child (i, i) q := by
  rintro ⟨⟩
  contradiction

/-- Nothing is reached from what is no list. -/
theorem not_child_of_kind {i j : ObjId} {a : Payload} (ha : c i = some a) (hk : a.kind ≠ .list) :
    ¬c.Child (i, j) q := by
  rintro ⟨n, -, hl, -⟩
  rw [ha] at hl
  cases hl
  exact hk rfl

theorem Filled.child (hc : c.Filled) (h : c.Child p q) :
    (∃ a, c q.1 = some a) ∧ ∃ b, c q.2 = some b := by
  obtain ⟨n, -, ha, hb, -, hl, hr⟩ := h
  obtain ⟨k, a, hk, hka⟩ := hc.slot ha (List.mem_of_getElem? hl)
  obtain ⟨m, b, hm, hmb⟩ := hc.slot hb (List.mem_of_getElem? hr)
  cases hk
  cases hm
  exact ⟨⟨a, hka⟩, b, hmb⟩

theorem same_child {i j k l : ObjId} (h : c.Same i j) (hc : c.Child (i, j) (k, l)) :
    c.Same k l := fun q hq => h q (.head hc hq)

/-- **A path goes through its first pair once**: what is reached from a pair is that
    pair, or is reached from one of its children without going on from the pair. -/
theorem reachesAround_cases {pairs : List Pair} (h : c.ReachesAround pairs p q) :
    q = p ∨ ∃ r, c.Child p r ∧ c.ReachesAround (p :: pairs) r q := Around.cases h

/-- From a pair that must not be gone on from, only itself is reached. -/
theorem eq_of_reachesAround {pairs : List Pair} (hp : p ∈ pairs)
    (h : c.ReachesAround pairs p q) : q = p := Around.eq_of_mem hp h

/-- From a pair without children only itself is reached. -/
theorem eq_of_not_child {pairs : List Pair} (hp : ∀ r, ¬c.Child p r)
    (h : c.ReachesAround pairs p q) : q = p := by
  obtain hq | ⟨r, hr, -⟩ := reachesAround_cases h
  · exact hq
  · exact absurd hr (hp r)

theorem reachesAround_nil : c.ReachesAround [] = c.Reaches := by
  simp [ReachesAround, Reaches]

/-! ## Closed relations -/

/-- A relation between objects that is closed: where it holds, the objects agree, and
    it holds between their elements. -/
structure Closed (c : Contents) (R : ObjId → ObjId → Prop) : Prop where
  agrees : ∀ {i j}, R i j → c.Agrees (i, j)
  child : ∀ {i j k l}, R i j → c.Child (i, j) (k, l) → R k l

theorem closed_same (c : Contents) : c.Closed c.Same where
  agrees h := h _ .refl
  child := same_child

theorem Closed.reaches {R : ObjId → ObjId → Prop} (hR : c.Closed R) {i j : ObjId} (h : R i j)
    (hq : c.Reaches (i, j) q) : R q.1 q.2 := by
  induction hq with
  | refl => exact h
  | tail _ hc ih => exact hR.child ih hc

/-- **Two objects are the same** just if something closed relates them. -/
theorem same_iff {i j : ObjId} : c.Same i j ↔ ∃ R, c.Closed R ∧ R i j := by
  constructor
  · exact fun h => ⟨c.Same, closed_same c, h⟩
  · rintro ⟨R, hR, h⟩ q hq
    exact hR.agrees (hR.reaches h hq)

end Contents

end ValueEngine
