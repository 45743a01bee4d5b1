/-
  Value engine — how objects are depicted.

  The text of an object is told by recursion on what it holds, with the ancestors of
  each occurrence handed down by value. An object that is one of its own ancestors is
  depicted by an ellipsis; any other occurrence is depicted in full, whatever was met on
  other branches.

  * `Payload.layout`: the format of each kind, over the texts of what it holds.
  * `Heap.depict`: the text of an occurrence below some ancestors.
  * `depict_agree`: what a depiction depends on.
  * `Contents.Met`: the occurrences that a depiction comes to.
  * `kind_of_met`: what is met inside itself is a list, a tuple, a dictionary or an
    iterator.
  * `Contents.Plain`: texts without ellipses.
  * `plain_depict`: where nothing lies on a circle, the depiction is plain.
-/
import Mathlib.Logic.Relation
import ValueEngine.Numeral
import ValueEngine.Proofs.Reading.Contents

namespace ValueEngine

/-! ## Formats -/

/-- The ellipsis of the kinds that can hold themselves. -/
def Kind.inner : Kind → Bytes
  | .list => .ofString "[...]"
  | .iterator => .ofString "<iter ...>"
  | .tuple | .dict => .ofString "\x7b...\x7d"
  | _ => []

/-- The entries of a dictionary by ascending key. -/
def Table.byKey {α : Type} (t : Table α) : Table α := t.mergeSort fun a b => decide (a.1 ≤ b.1)

theorem Table.byKey_eq_self {α : Type} {t : Table α} (h : t.Ascending) : t.byKey = t := by
  refine List.mergeSort_of_pairwise ((List.pairwise_map.1 h).imp fun hlt => ?_)
  exact decide_eq_true (List.le_of_lt hlt)

@[simp] theorem Table.mem_byKey {α : Type} {t : Table α} {e : Bytes × α} : e ∈ t.byKey ↔ e ∈ t :=
  List.mem_mergeSort

namespace Payload

open Bytes

/-- The text of a bound of a slice. -/
def bound : Option Int32 → Bytes
  | some v => Numeral.ofInt v.toInt
  | none => ofString "None"

/-- The text of a payload, where `part` is the text of each reference in it. -/
def layout (part : Ref → Bytes) : Payload → Bytes
  | string text => text
  | integer value => Numeral.ofInt value.toInt
  | boolean true => ofString "true"
  | boolean false => ofString "false"
  | list elements => ofString "[" ++ joinWith (ofString ", ") (elements.map part) ++ ofString "]"
  | tuple elements =>
    ofString "\x7b" ++ joinWith (ofString ", ") (elements.map part) ++ ofString "\x7d"
  | dict entries =>
    ofString "\x7b" ++
      joinWith (ofString ", ")
        (entries.byKey.map fun e => ofString "'" ++ e.1 ++ ofString "': " ++ part e.2) ++
      ofString "\x7d"
  | iterator cursor =>
    ofString "<iter pos " ++ Numeral.ofNat cursor.position ++ ofString " in " ++
      part cursor.target ++ ofString ">"
  | slice b =>
    ofString "<slice '" ++ bound b.start ++ ofString ":" ++ bound b.stop ++ ofString ":" ++
      bound b.step ++ ofString "'>"
  | nameError name => ofString "<NameError '" ++ name ++ ofString "'>"
  | code _ => ofString "<code>"
  | function _ => ofString "<func>"
  | moduleObject name => ofString "<module '" ++ name ++ ofString "'>"
  | noneObject => ofString "None"
  | classObject name => ofString "<class '" ++ name ++ ofString "'>"
  | nativeFunction _ => ofString "<native function>"

/-- A payload's text is made of the texts of what it holds, and of no others. -/
theorem layout_congr {p : Payload} {f g : Ref → Bytes} (h : ∀ r ∈ p.slots, f r = g r) :
    p.layout f = p.layout g := by
  cases p with
  | list elements | tuple elements =>
    have hmap : elements.map f = elements.map g := List.map_congr_left h
    simp only [layout, hmap]
  | dict entries =>
    simp only [layout]
    congr 3
    refine List.map_congr_left fun e he => ?_
    rw [h e.2 (List.mem_map_of_mem (Table.mem_byKey.1 he))]
  | iterator cursor => simp only [layout, h cursor.target (by simp [slots])]
  | boolean value => cases value <;> rfl
  | _ => rfl

/-- The kinds that hold objects. -/
theorem kind_of_slot {p : Payload} {r : Ref} (h : r ∈ p.slots) :
    p.kind = .list ∨ p.kind = .tuple ∨ p.kind = .dict ∨ p.kind = .iterator := by
  cases p with
  | list | tuple | dict | iterator => simp [kind]
  | _ => cases h

end Payload

/-! ## Depictions -/

/-- One object holds another in one of its slots. -/
def Contents.Holds (c : Contents) (i j : ObjId) : Prop := ∃ a, c i = some a ∧ some j ∈ a.slots

namespace Heap

variable {h : Heap} {i j : ObjId} {a : Payload} {ancestors : List ObjId}

/-- Below one more ancestor there are fewer objects left. -/
theorem length_ids_lt (ha : h.contents i = some a) (hi : i ∉ ancestors) :
    (h.ids.filter (· ∉ i :: ancestors)).length < (h.ids.filter (· ∉ ancestors)).length := by
  obtain ⟨o, ho, -⟩ := Option.map_eq_some_iff.1 ha
  have hmem : i ∈ h.ids.filter (· ∉ ancestors) := by simp [mem_ids, ho, hi]
  have hsplit : h.ids.filter (· ∉ i :: ancestors) =
      (h.ids.filter (· ∉ ancestors)).filter (· ≠ i) := by
    rw [List.filter_filter]
    exact List.filter_congr fun k _ => by simp [not_or]
  rw [hsplit]
  exact List.length_filter_lt_length_iff_exists.2 ⟨i, hmem, by simp⟩

/-- The text of an object below some ancestors. -/
def depict (h : Heap) (ancestors : List ObjId) (i : ObjId) : Bytes :=
  match _ha : h.contents i with
  | none => []
  | some a =>
    if _hi : i ∈ ancestors then a.kind.inner
    else a.layout fun r => r.elim [] fun j => depict h (i :: ancestors) j
termination_by (h.ids.filter (· ∉ ancestors)).length
decreasing_by exact length_ids_lt _ha _hi

/-- The text of what a reference refers to. -/
def depictRef (h : Heap) (ancestors : List ObjId) (r : Ref) : Bytes :=
  r.elim [] (h.depict ancestors)

theorem depict_of_mem (ha : h.contents i = some a) (hi : i ∈ ancestors) :
    h.depict ancestors i = a.kind.inner := by
  rw [depict]
  split <;> simp_all

theorem depict_of_not_mem (ha : h.contents i = some a) (hi : i ∉ ancestors) :
    h.depict ancestors i = a.layout (h.depictRef (i :: ancestors)) := by
  rw [depict]
  split
  · simp_all
  · rename_i b hb
    rw [ha] at hb
    cases hb
    exact dif_neg hi

theorem depict_of_none (ha : h.contents i = none) : h.depict ancestors i = [] := by
  rw [depict]
  split <;> simp_all

/-- A depiction shows what is held by the objects that are reached, and which of them are
    ancestors, and nothing else. -/
theorem depict_agree {h' : Heap} {ancestors ancestors' : List ObjId} {i : ObjId}
    (hagree : ∀ k, Relation.ReflTransGen h.contents.Holds i k →
      h'.contents k = h.contents k ∧ (k ∈ ancestors ↔ k ∈ ancestors')) :
    h.depict ancestors i = h'.depict ancestors' i := by
  obtain ⟨hsame, hmem⟩ := hagree i .refl
  cases ha : h.contents i with
  | none => rw [depict_of_none ha, depict_of_none (hsame.trans ha)]
  | some a =>
    have ha' : h'.contents i = some a := hsame.trans ha
    by_cases hi : i ∈ ancestors
    · rw [depict_of_mem ha hi, depict_of_mem ha' (hmem.1 hi)]
    · rw [depict_of_not_mem ha hi, depict_of_not_mem ha' (mt hmem.2 hi)]
      refine Payload.layout_congr fun r hr => ?_
      cases r with
      | none => rfl
      | some j =>
        have hinner : h.depict (i :: ancestors) j = h'.depict (i :: ancestors') j :=
          depict_agree fun k hk => by
            obtain ⟨hsame', hmem'⟩ := hagree k (.head ⟨a, ha, hr⟩ hk)
            exact ⟨hsame', by simp [hmem']⟩
        exact hinner
termination_by (h.ids.filter (· ∉ ancestors)).length
decreasing_by exact length_ids_lt ha hi

theorem depict_congr {h' : Heap} (hc : h.contents = h'.contents) (ancestors : List ObjId)
    (i : ObjId) : h.depict ancestors i = h'.depict ancestors i :=
  depict_agree fun k _ => ⟨congrFun hc.symm k, .rfl⟩

end Heap

/-! ## Occurrences -/

namespace Contents

variable {c : Contents} {i j : ObjId} {a : Payload} {ancestors : List ObjId}

/-- The occurrences of objects, each with its ancestors, the next one first, that are
    met from an object on. Nothing is met below an object that is its own ancestor. -/
inductive Met (c : Contents) (root : ObjId) : List ObjId → ObjId → Prop
  | root : Met c root [] root
  | slot {ancestors : List ObjId} {i j : ObjId} :
      Met c root ancestors i → i ∉ ancestors → c.Holds i j → Met c root (i :: ancestors) j

/-- Every ancestor of an occurrence leads to it. -/
theorem Met.leads {root : ObjId} (h : c.Met root ancestors i) :
    ∀ k ∈ ancestors, Relation.TransGen c.Holds k i := by
  induction h with
  | root => simp
  | slot _ _ hj ih =>
    intro k hk
    obtain rfl | hk := List.mem_cons.1 hk
    · exact .single hj
    · exact (ih k hk).tail hj

theorem Met.reachable {root : ObjId} (h : c.Met root ancestors i) :
    Relation.ReflTransGen c.Holds root i := by
  induction h with
  | root => exact .refl
  | slot _ _ hj ih => exact ih.tail hj

/-- **What is met inside itself** is of a kind that holds objects. -/
theorem kind_of_met {root : ObjId} (h : c.Met root ancestors i) (hi : i ∈ ancestors)
    (ha : c i = some a) :
    a.kind = .list ∨ a.kind = .tuple ∨ a.kind = .dict ∨ a.kind = .iterator := by
  obtain ⟨j, ⟨b, hb, hj⟩, -⟩ := Relation.TransGen.head'_iff.1 (h.leads i hi)
  rw [ha] at hb
  cases hb
  exact Payload.kind_of_slot hj

/-! ## Plain texts -/

/-- The text that an object has by its structure alone: there is one only if the
    structure comes to an end everywhere. -/
inductive Plain (c : Contents) : ObjId → Bytes → Prop
  | full {i : ObjId} {a : Payload} (part : Ref → Bytes) :
      c i = some a → none ∉ a.slots → (∀ j, some j ∈ a.slots → Plain c j (part (some j))) →
      Plain c i (a.layout part)

/-- There is no more than one. -/
theorem Plain.unique {s t : Bytes} (hs : c.Plain i s) (ht : c.Plain i t) : s = t := by
  induction hs generalizing t with
  | full part ha hnull _ ih =>
    obtain ⟨part', ha', -, hparts⟩ := ht
    rw [ha] at ha'
    cases ha'
    refine Payload.layout_congr fun r hr => ?_
    cases r with
    | none => exact absurd hr hnull
    | some j => exact ih j hr (hparts j hr)

end Contents

/-- **Where nothing lies on a circle** the depiction is plain. -/
theorem Heap.plain_depict {h : Heap} (hc : h.contents.Filled) {root : ObjId}
    (hacyclic : ∀ j, Relation.ReflTransGen h.contents.Holds root j →
      ¬Relation.TransGen h.contents.Holds j j)
    {ancestors : List ObjId} {i : ObjId} (hmet : h.contents.Met root ancestors i)
    (hlive : (h.contents i).isSome) : h.contents.Plain i (h.depict ancestors i) := by
  obtain ⟨a, ha⟩ := Option.isSome_iff_exists.1 hlive
  have hi : i ∉ ancestors := fun hi => hacyclic i hmet.reachable (hmet.leads i hi)
  rw [depict_of_not_mem ha hi]
  refine .full _ ha (fun hnull => ?_) fun j hj => ?_
  · obtain ⟨_, _, h, -⟩ := hc.slot ha hnull
    cases h
  · obtain ⟨k, b, hk, hkb⟩ := hc.slot ha hj
    cases hk
    exact plain_depict hc hacyclic (.slot hmet hi ⟨a, ha, hj⟩) (by simp [hkb])
termination_by (h.ids.filter (· ∉ ancestors)).length
decreasing_by exact length_ids_lt ha hi

end ValueEngine
