/-
  Value engine — byte strings.

  Every text of the engine (values, names, messages, renderings) is a finite
  sequence of bytes without any assumption on their encoding.

  * `Bytes.ofString`: the byte string of a text whose characters are bytes.
  * `Bytes.occursIn`: substring search; the empty needle occurs everywhere.
  * `Bytes.joinWith`: pieces of text with a separator between neighbours.

  Byte strings are ordered by `<` on lists, the lexicographic order of
  unsigned bytes.
-/
namespace ValueEngine

/-- A byte string. -/
abbrev Bytes := List UInt8

namespace Bytes

/-- The byte string of a text, one byte per character. -/
def ofString (s : String) : Bytes :=
  s.toList.map fun c => c.toNat.toUInt8

/-- Whether `needle` occurs as a contiguous part of a text. -/
def occursIn (needle : Bytes) : Bytes → Bool
  | [] => needle.isEmpty
  | b :: rest => needle.isPrefixOf (b :: rest) || occursIn needle rest

/-- The pieces in order, with `separator` between neighbours. -/
def joinWith (separator : Bytes) : List Bytes → Bytes
  | [] => []
  | [piece] => piece
  | piece :: rest => piece ++ separator ++ joinWith separator rest

/-- A text in single quotes. -/
def quoted (text : Bytes) : Bytes :=
  ofString "'" ++ text ++ ofString "'"

@[simp] theorem length_ofString (s : String) : (ofString s).length = s.length := by
  simp [ofString, String.length_toList]

@[simp] theorem occursIn_nil_left (text : Bytes) : occursIn [] text = true := by
  cases text <;> simp [occursIn]

theorem occursIn_self (text : Bytes) : occursIn text text = true := by
  cases text with
  | nil => rfl
  | cons b rest => simp [occursIn]

/-- A byte string occurs in a text just if the text is something before it, it, and
    something after it. -/
theorem occursIn_iff {needle text : Bytes} :
    occursIn needle text = true ↔ ∃ before after, text = before ++ needle ++ after := by
  have hstands : occursIn needle text = true ↔ needle <:+: text := by
    induction text with
    | nil => simp [occursIn]
    | cons b rest ih =>
      rw [occursIn, Bool.or_eq_true, List.isPrefixOf_iff_prefix, ih, List.infix_cons_iff]
  rw [hstands]
  exact exists_congr fun _ => exists_congr fun _ => eq_comm

@[simp] theorem joinWith_singleton (separator piece : Bytes) :
    joinWith separator [piece] = piece := rfl

@[simp] theorem joinWith_cons_cons (separator piece next : Bytes) (rest : List Bytes) :
    joinWith separator (piece :: next :: rest) =
      piece ++ separator ++ joinWith separator (next :: rest) := rfl

end Bytes

end ValueEngine
