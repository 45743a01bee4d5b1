/-
  Value engine — texts that can be read back.

  A numeral is a minus sign, if the number is negative, and digits, the first of which is
  zero only for the number zero. There is one such numeral for a number, and it has the
  number for its value. Neither it nor the word for a bound that is absent holds a colon
  or a quote, so the text of a slice falls into its bounds at the colons.

  * `Numeral.read?`: the value of a numeral, digit by digit.
  * `Numeral.Canonical`: what the numeral of a number is made of.
  * `eq_ofInt_iff`: the numeral of a number is the only such text of that value.
  * `SliceBounds.read?`: the bounds that the text of a slice tells (`read?_rendered`).
  * `text_of_no_slots`: the text of an object that holds no others, whatever else is lent.
  * `renderings_read_back`: the texts of integers and slices tell what they are of.
-/
import Mathlib.Tactic.IntervalCases
import ValueEngine.Checked
import ValueEngine.Proofs.Rendering.Text

namespace ValueEngine

variable {σ : Type} {w : World σ} {i : ObjId}

/-! ## Digits -/

namespace Numeral

/-- The digit of a number less than ten. -/
def digit (d : Nat) : UInt8 := UInt8.ofNat (48 + d)

/-- The value of a digit. -/
def digit? (b : UInt8) : Option Nat :=
  if 48 ≤ b.toNat ∧ b.toNat < 58 then some (b.toNat - 48) else none

theorem toNat_digit {d : Nat} (hd : d < 10) : (digit d).toNat = 48 + d := by
  rw [digit, UInt8.toNat_ofNat']
  omega

theorem digit?_eq_some_iff {b : UInt8} {d : Nat} : digit? b = some d ↔ d < 10 ∧ b = digit d := by
  unfold digit?
  split
  · rename_i hb
    rw [Option.some.injEq]
    constructor
    · rintro rfl
      refine ⟨by omega, UInt8.toNat_inj.1 ?_⟩
      rw [toNat_digit (by omega)]
      omega
    · rintro ⟨hd, rfl⟩
      rw [toNat_digit hd]
      omega
  · rename_i hb
    refine iff_of_false nofun ?_
    rintro ⟨hd, rfl⟩
    rw [toNat_digit hd] at hb
    omega

/-- The value of a sequence of digits. -/
def value? (text : Bytes) : Option Nat := text.foldlM (fun n b => (digit? b).map (10 * n + ·)) 0

theorem value?_append (text : Bytes) (b : UInt8) :
    value? (text ++ [b]) = (value? text).bind fun n => (digit? b).map (10 * n + ·) := by
  simp [value?, List.foldlM_append]

/-- The last digit of a numeral is the remainder by ten, the others are the numeral of the
    quotient. -/
theorem ofNat_eq (n : Nat) :
    ofNat n = (if n < 10 then [] else ofNat (n / 10)) ++ [digit (n % 10)] := by
  have hdigit : ∀ d, d < 10 → (Nat.digitChar d).toNat.toUInt8 = digit d := by
    intro d hd
    rw [Nat.toNat_digitChar_of_lt_ten hd]
    rfl
  rw [ofNat, Nat.toDigits_eq_if (by decide)]
  split
  · rename_i hn
    simp [hdigit n hn, Nat.mod_eq_of_lt hn]
  · simp [ofNat, hdigit (n % 10) (Nat.mod_lt n (by decide))]

theorem ofNat_ne_nil (n : Nat) : ofNat n ≠ [] := by
  rw [ofNat_eq]
  simp

/-- **A numeral has its number for its value.** -/
theorem value?_ofNat (n : Nat) : value? (ofNat n) = some n := by
  induction n using Nat.strongRecOn with
  | ind n ih =>
    have hlast : digit? (digit (n % 10)) = some (n % 10) :=
      digit?_eq_some_iff.2 ⟨Nat.mod_lt n (by decide), rfl⟩
    rw [ofNat_eq, value?_append, hlast]
    split
    · rename_i hn
      simp [value?, Nat.mod_eq_of_lt hn]
    · rename_i hn
      rw [ih (n / 10) (by omega)]
      simp only [Option.bind_some, Option.map_some]
      congr 1
      omega

/-- Every byte of a numeral is a digit. -/
theorem isSome_digit?_of_mem {n : Nat} {b : UInt8} (h : b ∈ ofNat n) : (digit? b).isSome := by
  induction n using Nat.strongRecOn with
  | ind n ih =>
    rw [ofNat_eq, List.mem_append, List.mem_singleton] at h
    obtain h | rfl := h
    · split at h
      · cases h
      · exact ih (n / 10) (by omega) h
    · rw [digit?_eq_some_iff.2 ⟨Nat.mod_lt n (by decide), rfl⟩]
      rfl

/-- The numeral of a positive number does not begin with zero. -/
theorem head?_ofNat_ne {n : Nat} (hn : 0 < n) : (ofNat n).head? ≠ some (digit 0) := by
  induction n using Nat.strongRecOn with
  | ind n ih =>
    rw [ofNat_eq]
    split
    · rename_i hlt
      intro h
      have hzero := congrArg UInt8.toNat (Option.some.inj h)
      rw [toNat_digit (Nat.mod_lt n (by decide)), toNat_digit (by decide)] at hzero
      omega
    · rename_i hlt
      rw [List.head?_append_of_ne_nil _ (ofNat_ne_nil _)]
      exact ih (n / 10) (by omega) (by omega)

/-- **There is no other numeral of a number**: digits that do not begin with zero, unless it is
    the only one, are the numeral of their value. -/
theorem eq_ofNat_of_value? {text : Bytes} {n : Nat} (hne : text ≠ [])
    (hlead : text.head? = some (digit 0) → text = [digit 0]) (h : value? text = some n) :
    text = ofNat n := by
  -- digits are read from the front, but it is the last one that the value tells
  induction text using List.reverseRecOn generalizing n with
  | nil => exact absurd rfl hne
  | append_singleton front b ih =>
    rw [value?_append] at h
    obtain ⟨m, hm, hb⟩ := Option.bind_eq_some_iff.1 h
    obtain ⟨d, hd, rfl⟩ := Option.map_eq_some_iff.1 hb
    obtain ⟨hlt, rfl⟩ := digit?_eq_some_iff.1 hd
    rw [ofNat_eq, show (10 * m + d) % 10 = d by omega, show (10 * m + d) / 10 = m by omega]
    congr 1
    by_cases hfront : front = []
    · subst hfront
      cases hm
      rw [if_pos (by omega)]
    · -- another digit follows, so the first one is not zero
      have hhead : front.head? ≠ some (digit 0) := by
        intro hzero
        have hall := hlead (by rw [List.head?_append_of_ne_nil _ hfront, hzero])
        have hlength := congrArg List.length hall
        rw [List.length_append] at hlength
        exact hfront (List.eq_nil_of_length_eq_zero (by simpa using hlength))
      have hsame := ih hfront (fun hzero => absurd hzero hhead) hm
      have hpos : m ≠ 0 := by
        rintro rfl
        exact hhead (by rw [hsame]; rfl)
      rw [if_neg (by omega), hsame]

/-! ## Signs -/

/-- What a negative number begins with. -/
def minus : UInt8 := 45

/-- The value of a numeral: digits, at least one of them, with a minus sign in front or
    without. -/
def read? : Bytes → Option Int
  | [] => none
  | b :: text =>
    if b ≠ minus then (value? (b :: text)).map fun n : Nat => (n : Int)
    else if text = [] then none
    else (value? text).map fun n : Nat => -(n : Int)

/-- What the numeral of a number is made of: a minus sign just if the number is negative, and
    digits, the first of which is zero only if the number is, and then it is the only one. -/
structure Canonical (v : Int) (text digits : Bytes) : Prop where
  sign : text = if v < 0 then minus :: digits else digits
  ne_nil : digits ≠ []
  isSome_digit? : ∀ b ∈ digits, (digit? b).isSome
  lead : digits.head? = some (digit 0) → v = 0 ∧ digits = [digit 0]

theorem read?_of_digits {text : Bytes} (hne : text ≠ []) (h : ∀ b ∈ text, (digit? b).isSome) :
    read? text = (value? text).map fun n : Nat => (n : Int) := by
  obtain ⟨b, rest, rfl⟩ := List.exists_cons_of_ne_nil hne
  have hb : b ≠ minus := by
    rintro rfl
    have hsign := h minus List.mem_cons_self
    revert hsign
    decide
  exact if_pos hb

theorem read?_minus {text : Bytes} (hne : text ≠ []) :
    read? (minus :: text) = (value? text).map fun n : Nat => -(n : Int) := by
  rw [read?, if_neg (not_not.2 rfl), if_neg hne]

theorem ofInt_neg {n : Nat} (hn : 0 < n) : ofInt (-(n : Int)) = minus :: ofNat n := by
  obtain ⟨m, rfl⟩ := Nat.exists_eq_add_of_lt hn
  rw [Nat.zero_add]
  exact ofInt_neg_succ m

/-- The numeral of a number is made of what it should be made of. -/
theorem canonical_ofInt (v : Int) : Canonical v (ofInt v) (ofNat v.natAbs) where
  sign := by
    split
    · rename_i hv
      obtain ⟨n, rfl⟩ := Int.exists_eq_neg_ofNat (Int.le_of_lt hv)
      rw [ofInt_neg (by omega), Int.natAbs_neg, Int.natAbs_natCast]
    · rename_i hv
      obtain ⟨n, rfl⟩ := Int.eq_ofNat_of_zero_le (Int.not_lt.1 hv)
      rfl
  ne_nil := ofNat_ne_nil _
  isSome_digit? _ := isSome_digit?_of_mem
  lead h := by
    have hzero : v.natAbs = 0 := Nat.eq_zero_of_not_pos fun hpos => head?_ofNat_ne hpos h
    exact ⟨Int.natAbs_eq_zero.1 hzero, by rw [hzero]; rfl⟩

/-- **It has the number for its value.** -/
theorem read?_ofInt (v : Int) : read? (ofInt v) = some v := by
  have hcanonical := canonical_ofInt v
  rw [hcanonical.sign]
  split
  · rw [read?_minus hcanonical.ne_nil, value?_ofNat, Option.map_some]
    congr 1
    omega
  · rw [read?_of_digits hcanonical.ne_nil hcanonical.isSome_digit?, value?_ofNat, Option.map_some]
    congr 1
    omega

/-- **The numeral of a number is the only text of that value** that is made of what it should be
    made of. -/
theorem eq_ofInt_iff {v : Int} {text : Bytes} :
    text = ofInt v ↔ (∃ digits, Canonical v text digits) ∧ read? text = some v := by
  constructor
  · rintro rfl
    exact ⟨⟨_, canonical_ofInt v⟩, read?_ofInt v⟩
  · rintro ⟨⟨digits, hcanonical⟩, hread⟩
    have hlead := fun h => (hcanonical.lead h).2
    have hsign := hcanonical.sign
    split at hsign
    · rename_i hv
      rw [hsign, read?_minus hcanonical.ne_nil] at hread
      obtain ⟨n, hn, rfl⟩ := Option.map_eq_some_iff.1 hread
      rw [hsign, ofInt_neg (by omega), eq_ofNat_of_value? hcanonical.ne_nil hlead hn]
    · rw [hsign, read?_of_digits hcanonical.ne_nil hcanonical.isSome_digit?] at hread
      obtain ⟨n, hn, rfl⟩ := Option.map_eq_some_iff.1 hread
      rw [hsign, ofInt_natCast, eq_ofNat_of_value? hcanonical.ne_nil hlead hn]

/-- There is nothing in it but digits and a minus sign. -/
theorem mem_ofInt {v : Int} {b : UInt8} (h : b ∈ ofInt v) : b = minus ∨ (digit? b).isSome := by
  have hcanonical := canonical_ofInt v
  rw [hcanonical.sign] at h
  split at h
  · exact (List.mem_cons.1 h).imp_right (hcanonical.isSome_digit? b)
  · exact .inr (hcanonical.isSome_digit? b h)

end Numeral

/-! ## Slices -/

theorem Bytes.joinWith_eq_intercalate (separator : Bytes) (pieces : List Bytes) :
    joinWith separator pieces = separator.intercalate pieces := by
  induction pieces with
  | nil => rfl
  | cons piece rest ih =>
    cases rest with
    | nil => rw [joinWith_singleton, List.intercalate_singleton]
    | cons next rest => rw [joinWith_cons_cons, List.intercalate_cons_cons, ih]

namespace SliceBounds

open Bytes

/-- What separates the bounds of a slice. -/
def colon : UInt8 := 58

/-- What encloses them. -/
def quote : UInt8 := 39

/-- The bound that a text tells, if it tells one, which may be that there is none. -/
def readBound? (text : Bytes) : Option (Option Int32) :=
  if text = ofString "None" then some none
  else ((Numeral.read? text).bind Checked.ofInt?).map some

/-- The bounds that a text tells with colons in between. -/
def readBounds? (text : Bytes) : Option SliceBounds :=
  match text.splitOn colon with
  | [start, stop, step] => do
    return { start := ← readBound? start, stop := ← readBound? stop, step := ← readBound? step }
  | _ => none

/-- The bounds that the text of a slice tells. -/
def read? (text : Bytes) : Option SliceBounds :=
  match text.splitOn quote with
  | [front, bounds, back] =>
    if front = ofString "<slice " ∧ back = ofString ">" then readBounds? bounds else none
  | _ => none

/-- **A bound is told by its text**, and so is that there is none. -/
theorem readBound?_boundText (bound : Option Int32) : readBound? (boundText bound) = some bound := by
  cases bound with
  | none => exact if_pos rfl
  | some v =>
    have hread : Numeral.read? (boundText (some v)) = some v.toInt := Numeral.read?_ofInt _
    have hnone : Numeral.read? (ofString "None") = none := by decide
    have hne : boundText (some v) ≠ ofString "None" := by
      intro h
      rw [h, hnone] at hread
      cases hread
    rw [readBound?, if_neg hne, hread, Option.bind_some, Checked.ofInt?_toInt, Option.map_some]

/-- What is not in a numeral nor in the word for an absent bound is not in the text of a
    bound. -/
theorem not_mem_boundText {b : UInt8} (hsign : b ≠ Numeral.minus)
    (hdigit : Numeral.digit? b = none) (hnone : b ∉ ofString "None") (bound : Option Int32) :
    b ∉ boundText bound := by
  cases bound with
  | none => exact hnone
  | some v =>
    intro h
    obtain h | h := Numeral.mem_ofInt h
    · exact hsign h
    · rw [hdigit] at h
      cases h

theorem splitOn_text (b : SliceBounds) :
    b.text.splitOn colon = [boundText b.start, boundText b.stop, boundText b.step] := by
  have hcolon : ∀ bound, colon ∉ boundText bound :=
    not_mem_boundText (by decide) (by decide) (by decide)
  rw [text, joinWith_eq_intercalate]
  exact List.splitOn_intercalate colon (by simp [hcolon]) (by simp)

/-- The text of a slice: its bounds with colons in between. -/
def rendered (b : SliceBounds) : Bytes :=
  ofString "<slice '" ++ boundText b.start ++ ofString ":" ++ boundText b.stop ++ ofString ":" ++
    boundText b.step ++ ofString "'>"

theorem rendered_eq (b : SliceBounds) :
    b.rendered = ofString "<slice " ++ quoted b.text ++ ofString ">" := by
  simp [rendered, text, quoted, ofString]

theorem splitOn_rendered (b : SliceBounds) :
    b.rendered.splitOn quote = [ofString "<slice ", b.text, ofString ">"] := by
  have hquote : ∀ bound, quote ∉ boundText bound :=
    not_mem_boundText (by decide) (by decide) (by decide)
  have htext : quote ∉ b.text := by
    have hseparator : quote ∉ ofString ":" := by decide
    simp [text, hquote, hseparator]
  -- the quotes are the ones around the bounds, since there is none in a bound
  have hrendered : b.rendered = [quote].intercalate [ofString "<slice ", b.text, ofString ">"] := by
    have hsingle : ofString "'" = [quote] := rfl
    simp only [rendered_eq, quoted, hsingle, List.intercalate_cons_cons,
      List.intercalate_singleton, List.append_assoc]
  rw [hrendered]
  refine List.splitOn_intercalate quote ?_ (by simp)
  rintro piece hpiece
  simp only [List.mem_cons, List.not_mem_nil, or_false] at hpiece
  obtain rfl | rfl | rfl := hpiece
  · decide
  · exact htext
  · decide

/-- **The bounds of a slice are told by its text.** -/
theorem read?_rendered (b : SliceBounds) : read? b.rendered = some b := by
  simp [read?, splitOn_rendered, readBounds?, splitOn_text, readBound?_boundText]

/-- Slices with one text have the same bounds. -/
theorem rendered_inj {b c : SliceBounds} :
    b.rendered = c.rendered ↔ b.start = c.start ∧ b.stop = c.stop ∧ b.step = c.step := by
  constructor
  · intro h
    have hread := read?_rendered b
    rw [h, read?_rendered] at hread
    cases hread
    exact ⟨rfl, rfl, rfl⟩
  · rintro ⟨hstart, hstop, hstep⟩
    rw [rendered, rendered, hstart, hstop, hstep]

end SliceBounds

/-! ## Objects -/

/-- An object that holds no others has the text of what it holds, and nothing is changed. -/
theorem text_of_no_slots {a : Payload} (hi : w.heap.contents i = some a) (hopen : w.Open i)
    (hslots : a.slots = []) (f : Ref → Bytes) : Ref.text (some i) w = .ok (a.layout f) w := by
  obtain ⟨o, v, rfl, -, hread⟩ := w.looks.withRead_still hi hopen.not_shut
  have hrender : Renders (render (v.heap.size + 1) i o) [] v (o.payload.layout f) := by
    have hpart : ∀ r ∈ o.payload.slots, Renders
        (fun path => withRead r fun j p => render v.heap.size j p path) [i] v (f r) := by
      rw [hslots]
      exact nofun
    have hordered : ∀ entries, o.payload = .dict entries → entries.Ascending := by
      intro entries hentries
      rw [hentries] at hslots
      rw [List.map_eq_nil_iff.1 hslots]
      exact .nil
    exact Action.bind_of_ok (Payload.renders hpart hordered) _
  have hheap : (Action.heap : Action σ Heap) v = .ok v.heap v := rfl
  have htext : textOf i o v = .ok (o.payload.layout f) v := by
    rw [textOf, Action.bind_of_ok hheap]
    exact Action.bind_of_ok hrender _
  exact (hread textOf).1 _ htext

/-- The text of an integer is its numeral. -/
theorem text_of_integer {v : Int32} (hi : w.heap.contents i = some (.integer v))
    (hopen : w.Open i) : Ref.text (some i) w = .ok (Numeral.ofInt v.toInt) w :=
  text_of_no_slots hi hopen rfl fun _ => []

/-- The text of a slice has its bounds in it. -/
theorem text_of_slice {b : SliceBounds} (hi : w.heap.contents i = some (.slice b))
    (hopen : w.Open i) : Ref.text (some i) w = .ok b.rendered w := by
  rw [text_of_no_slots hi hopen rfl fun _ => [], ← Payload.slice_text, SliceBounds.rendered_eq]

/-! ## The main result -/

/-- **Texts of integers and slices can be read back.** The numeral of an integer is the one text
    that is a numeral, with a minus sign just if it is negative and without a leading zero unless
    it is zero, and has it for its value. It is the text of an object that is the integer. The
    text of a slice is made of the texts of its bounds, which can be read off it, so two slices
    have one text just if their bounds are the same, those included that are absent. Nothing is
    changed by asking for a text, and there is one for every object that readers can have. -/
theorem renderings_read_back (σ : Type) :
    (∀ (v : Int32) text, text = Numeral.ofInt v.toInt ↔
      (∃ digits, Numeral.Canonical v.toInt text digits) ∧
        (Numeral.read? text).bind Checked.ofInt? = some v) ∧
    (∀ (w : World σ) i v, w.Open i → w.heap.contents i = some (.integer v) →
      Ref.text (some i) w = .ok (Numeral.ofInt v.toInt) w) ∧
    (∀ (w : World σ) i b, w.Open i → w.heap.contents i = some (.slice b) →
      Ref.text (some i) w = .ok b.rendered w ∧ SliceBounds.read? b.rendered = some b) ∧
    ∀ (w w' : World σ) i j b c, w.Open i → w.heap.contents i = some (.slice b) →
      w'.Open j → w'.heap.contents j = some (.slice c) →
      ∃ s t, Ref.text (some i) w = .ok s w ∧ Ref.text (some j) w' = .ok t w' ∧
        (s = t ↔ b.start = c.start ∧ b.stop = c.stop ∧ b.step = c.step) := by
  refine ⟨fun v text => ?_, fun w i v hopen hi => text_of_integer hi hopen,
    fun w i b hopen hi => ⟨text_of_slice hi hopen, b.read?_rendered⟩,
    fun w w' i j b c hopen hi hopen' hj => ?_⟩
  · have hread : (Numeral.read? text).bind Checked.ofInt? = some v ↔
        Numeral.read? text = some v.toInt := by
      simp [Option.bind_eq_some_iff, Checked.ofInt?_eq_some_iff]
    rw [hread]
    exact Numeral.eq_ofInt_iff
  · exact ⟨_, _, text_of_slice hi hopen, text_of_slice hj hopen', SliceBounds.rendered_inj⟩

/-- The least integer, a slice that begins there and goes backwards, and one without bounds. -/
def farthest : World Unit where
  heap := ⟨#[some { payload := .integer Int32.minValue, type := none },
    some { payload := .slice { start := some Int32.minValue, stop := none, step := some (-1) },
           type := none },
    some { payload := .slice { start := none, stop := none, step := none }, type := none }]⟩
  host := ()

/-- The texts of the least integer and of the slice that begins there; the slice without bounds
    has another one. -/
theorem renderings_read_back_farthest :
    Ref.text (some ⟨0⟩) farthest = .ok (.ofString "-2147483648") farthest ∧
    Ref.text (some ⟨1⟩) farthest = .ok (.ofString "<slice '-2147483648:None:-1'>") farthest ∧
    ∃ s t, Ref.text (some ⟨1⟩) farthest = .ok s farthest ∧
      Ref.text (some ⟨2⟩) farthest = .ok t farthest ∧ s ≠ t := by
  obtain ⟨hnumeral, hinteger, hslice, hpair⟩ := renderings_read_back Unit
  have hopen : ∀ i : ObjId, i.index < 3 → farthest.Open i := by
    rintro ⟨n⟩ hn
    dsimp only at hn
    interval_cases n <;> exact ⟨_, rfl, by decide⟩
  have hleast : Bytes.ofString "-2147483648" = Numeral.ofInt Int32.minValue.toInt :=
    (hnumeral Int32.minValue _).2 ⟨⟨Bytes.ofString "2147483648", by decide, by decide,
      List.all_eq_true.1 (by decide), by decide⟩, by decide⟩
  have hone : Bytes.ofString "-1" = Numeral.ofInt (-1 : Int32).toInt :=
    (hnumeral (-1) _).2 ⟨⟨Bytes.ofString "1", by decide, by decide,
      List.all_eq_true.1 (by decide), by decide⟩, by decide⟩
  obtain ⟨s, t, hs, ht, hsame⟩ :=
    hpair farthest farthest ⟨1⟩ ⟨2⟩ _ _ (hopen _ (by decide)) rfl (hopen _ (by decide)) rfl
  refine ⟨?_, ?_, s, t, hs, ht, fun h => ?_⟩
  · rw [hinteger farthest ⟨0⟩ _ (hopen _ (by decide)) rfl, ← hleast]
  · rw [(hslice farthest ⟨1⟩ _ (hopen _ (by decide)) rfl).1]
    simp only [SliceBounds.rendered, SliceBounds.boundText, ← hleast, ← hone]
    rfl
  · cases (hsame.1 h).1

end ValueEngine
