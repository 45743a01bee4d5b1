/-
  Value engine — sums and multiples of strings under a limit.

  The limit on the length of strings does not break the laws of joining and repeating:
  what is too long on the way is part of what is too long in the end, so both sides of a
  law come to one string, or both overflow, wherever the limit lies.

  * `World.born`: what readers find of a new object.
  * `Spells`: an action that comes to a string, or to an overflow if it is too long.
  * `add_spells`, `multiply_spells`: sums and multiples do.
  * `Action.andThen`, `Spells.andThen`: one operation after another.
  * `wordSum`, `wordProduct`: the lengths as they are worked out, in words of 64 bits.
  * `strings_add_and_repeat`: when they succeed, with what, and the laws.
-/
import ValueEngine.Proofs.Dictionary.History
import ValueEngine.Proofs.Effects.Retention
import ValueEngine.Proofs.Operator.Dispatch

namespace ValueEngine

variable {σ : Type} {hooks : Hooks σ} {w v : World σ} {a b c s k : ObjId} {m n : Int32}
  {text whole ta tb tc ts : Bytes}

/-- An integer that readers can have. -/
structure World.Numbered (w : World σ) (k : ObjId) (n : Int32) : Prop where
  readable : w.Open k
  contents : w.heap.contents k = some (.integer n)

theorem World.Open.retains (h : w.Open k) (hr : Retains w v) : v.Open k := by
  obtain ⟨o, ho, hopen⟩ := h
  exact ⟨o, hr k o ho, hopen⟩

theorem Retains.contents {p : Payload} (hr : Retains w v) (h : w.heap.contents k = some p) :
    v.heap.contents k = some p := by
  obtain ⟨o, ho, rfl⟩ := Option.map_eq_some_iff.1 h
  exact Heap.contents_of_get? (hr k o ho)

theorem World.Named.retains (h : w.Named s text) (hr : Retains w v) : v.Named s text :=
  ⟨h.readable.retains hr, hr.contents h.contents⟩

theorem World.Numbered.retains (h : w.Numbered k n) (hr : Retains w v) : v.Numbered k n :=
  ⟨h.readable.retains hr, hr.contents h.contents⟩

/-- What an operator makes is there for readers, holds its payload, and all else stays. -/
theorem World.born (w : World σ) (level : Int) (line : Bytes) (p : Payload) :
    ((w.traced level line).added p.newborn).Open w.nextId ∧
      ((w.traced level line).added p.newborn).heap.contents w.nextId = some p ∧
      Retains w ((w.traced level line).added p.newborn) := by
  have hget : ((w.traced level line).added p.newborn).heap.get? w.nextId = some p.newborn := by
    rw [← World.nextId_traced w level line]
    exact World.get?_added_nextId ..
  refine ⟨⟨_, hget, nofun⟩, Heap.contents_of_get? hget, ?_⟩
  exact (Retains.of_still (World.heap_traced ..)).trans (Retains.allocate _ _)

/-! ## Coming to a string -/

/-- An action that comes to a new string, and nothing else, if it is within the limit, and
    otherwise fails for an overflow, unless the host does not come back from hearing of
    it. -/
structure Spells (hooks : Hooks σ) (x : Action σ Outcome) (w : World σ) (text : Bytes) : Prop where
  success : text.length ≤ w.settings.textLimit → ∃ r w', x w = .ok (.success r) w' ∧
    w'.Named r text ∧ Retains w w' ∧ w'.settings = w.settings
  overflow : w.settings.textLimit < text.length →
    x.Arrives w (fun outcome _ => ∃ cause, outcome = .failure cause ∧
      cause.kind? = some .overflow) fun _ => ¬hooks.Returns

namespace Spells

variable {x : Action σ Outcome}

/-- What succeeds has come to the string, which is within the limit. -/
theorem of_run (h : Spells hooks x w text) {r : ObjId} {w' : World σ}
    (hrun : x w = .ok (.success r) w') :
    text.length ≤ w.settings.textLimit ∧ w'.Named r text := by
  rcases Nat.lt_or_ge w.settings.textLimit text.length with hlong | hfits
  · obtain ⟨cause, hcause, -⟩ := (h.overflow hlong).of_run hrun
    cases hcause
  · obtain ⟨r', w'', hrun', hnamed, -⟩ := h.success hfits
    cases hrun.symm.trans hrun'
    exact ⟨hfits, hnamed⟩

theorem success_iff (h : Spells hooks x w text) :
    (∃ r w', x w = .ok (.success r) w') ↔ text.length ≤ w.settings.textLimit := by
  constructor
  · rintro ⟨r, w', hrun⟩
    exact (h.of_run hrun).1
  · intro hfits
    obtain ⟨r, w', hrun, -⟩ := h.success hfits
    exact ⟨r, w', hrun⟩

end Spells

/-- Goes on with the value of an action. A failure is the end. -/
def Action.andThen (x : Action σ Outcome) (f : ObjId → Action σ Outcome) : Action σ Outcome := do
  match ← x with
  | .success r => f r
  | outcome => return outcome

/-- **What is too long on the way is too long in the end.** An action comes to a string by
    way of another one, if that is no longer. -/
theorem Spells.andThen {x : Action σ Outcome} {f : ObjId → Action σ Outcome}
    (hx : Spells hooks x w text) (hle : text.length ≤ whole.length)
    (hf : ∀ r v, Retains w v → v.Named r text → Spells hooks (f r) v whole) :
    Spells hooks (x.andThen f) w whole := by
  rcases Nat.lt_or_ge w.settings.textLimit text.length with hlong | hfits
  · refine ⟨fun hwhole => absurd (hle.trans hwhole) (by omega), fun _ => ?_⟩
    refine .bind ((hx.overflow hlong).mono (fun outcome v h => ?_) fun _ h => h)
    obtain ⟨cause, rfl, hkind⟩ := h
    exact .of_ok rfl ⟨cause, rfl, hkind⟩
  · obtain ⟨r, v, hrun, hnamed, hretains, hsettings⟩ := hx.success hfits
    have hthen : x.andThen f w = f r v := Action.bind_of_ok hrun _
    obtain ⟨hsuccess, hoverflow⟩ := hf r v hretains hnamed
    rw [hsettings] at hsuccess hoverflow
    constructor
    · intro hwhole
      obtain ⟨r', w', hrun', hnamed', hretains', hsettings'⟩ := hsuccess hwhole
      exact ⟨r', w', hthen.trans hrun', hnamed', hretains.trans hretains', hsettings'⟩
    · exact fun hlong => .of_eq (hoverflow hlong) hthen

/-! ## Sums and multiples -/

/-- What the table makes a limited string of. -/
theorem spells_of_tabled {op : Operator} {p q : Payload} {cause : Failure} (ha : w.Open a)
    (hb : w.Open b) (hp : w.heap.contents a = some p) (hq : w.heap.contents b = some q)
    (hentry : (op, p.kind, q.kind) ∈ Operator.entries)
    (htabled : op.tabled w.settings.textLimit p q =
      some (Operator.limited w.settings.textLimit text cause))
    (hcause : cause.kind? = some .overflow) :
    Spells hooks (op.apply hooks (some a) (some b)) w text := by
  obtain ⟨x, hx, hux⟩ := ha
  obtain ⟨y, hy, huy⟩ := hb
  obtain rfl := Heap.payload_of_contents hx hp
  obtain rfl := Heap.payload_of_contents hy hq
  obtain ⟨result, hresult, happly⟩ := apply_arrives hooks hx hy hux huy hentry
  cases htabled.symm.trans hresult
  unfold Operator.limited at happly
  constructor
  · intro hfits
    rw [if_pos hfits] at happly
    have hrun := (happly.mono (fun _ _ h => h) fun _ h => h rfl).eq_ok
    obtain ⟨hopen, hcontents, hretains⟩ := w.born operatorLevel (op.tracedAs x.kind y.kind)
      (.string text)
    exact ⟨_, _, hrun, ⟨hopen, hcontents⟩, hretains, World.settings_traced ..⟩
  · intro hlong
    rw [if_neg (by omega)] at happly
    exact happly.mono (fun _ _ h => ⟨cause, h, hcause⟩) fun _ h => h

theorem add_spells (ha : w.Named a ta) (hb : w.Named b tb) :
    Spells hooks (Ref.add hooks (some a) (some b)) w (ta ++ tb) :=
  spells_of_tabled ha.readable hb.readable ha.contents hb.contents
    (Operator.supports_iff_mem_entries.1 rfl) rfl rfl

/-- A string so many times over. -/
def Bytes.times (text : Bytes) (count : Nat) : Bytes := (List.replicate count text).flatten

theorem Bytes.length_times (text : Bytes) (count : Nat) :
    (text.times count).length = text.length * count := by
  rw [times, List.length_flatten, List.map_replicate, List.sum_replicate_nat, Nat.mul_comm]

theorem Bytes.times_add (text : Bytes) (count more : Nat) :
    text.times (count + more) = text.times count ++ text.times more := by
  simp only [times, List.replicate_add, List.flatten_append]

theorem Bytes.times_mul (text : Bytes) (count more : Nat) :
    text.times (count * more) = (text.times count).times more := by
  induction more with
  | zero => rfl
  | succ more ih =>
    rw [Nat.mul_succ, times_add, ih, times_add (text.times count)]
    simp [times]

theorem multiply_spells (hs : w.Named s ts) (hk : w.Numbered k n) :
    Spells hooks (Ref.multiply hooks (some s) (some k)) w (ts.times n.toInt.toNat) :=
  spells_of_tabled hs.readable hk.readable hs.contents hk.contents
    (Operator.supports_iff_mem_entries.1 rfl) rfl rfl

/-! ## Lengths in words -/

/-- The length of a sum as it is worked out. -/
def wordSum (head tail : Bytes) : UInt64 := .ofNat head.length + .ofNat tail.length

/-- The length of a multiple as it is worked out. -/
def wordProduct (text : Bytes) (count : Int32) : UInt64 := .ofNat text.length * .ofInt count.toInt

theorem toNat_wordSum (h : (ta ++ tb).length < 2 ^ 64) :
    (wordSum ta tb).toNat = (ta ++ tb).length := by
  rw [List.length_append] at h ⊢
  rw [wordSum, ← UInt64.ofNat_add, UInt64.toNat_ofNat_of_lt' h]

theorem toNat_wordProduct (hn : 0 ≤ n.toInt) (h : ts.length * n.toInt.toNat < 2 ^ 64) :
    (wordProduct ts n).toNat = ts.length * n.toInt.toNat := by
  have hcount : UInt64.ofInt n.toInt = .ofNat n.toInt.toNat := by
    have hlt := Int32.toInt_lt n
    rw [UInt64.ofInt, Int.emod_eq_of_lt hn (by omega)]
  rw [wordProduct, hcount, ← UInt64.ofNat_mul, UInt64.toNat_ofNat_of_lt' h]

/-! ## The laws -/

variable (hooks)

/-- Three strings make one, whichever two are put together first. -/
theorem add_assoc_spells (ha : w.Named a ta) (hb : w.Named b tb) (hc : w.Named c tc) :
    Spells hooks ((Ref.add hooks (some a) (some b)).andThen fun ab =>
      Ref.add hooks (some ab) (some c)) w (ta ++ tb ++ tc) ∧
    Spells hooks ((Ref.add hooks (some b) (some c)).andThen fun bc =>
      Ref.add hooks (some a) (some bc)) w (ta ++ tb ++ tc) := by
  constructor
  · refine (add_spells ha hb).andThen (by simp) fun ab v hv hab => ?_
    exact add_spells hab (hc.retains hv)
  · refine (add_spells hb hc).andThen (by simp) fun bc v hv hbc => ?_
    rw [List.append_assoc]
    exact add_spells (ha.retains hv) hbc

/-- A string so many times and then some more. -/
theorem add_multiples_spells {km kn : ObjId} (hs : w.Named s ts) (hm : w.Numbered km m)
    (hn : w.Numbered kn n) :
    Spells hooks ((Ref.multiply hooks (some s) (some km)).andThen fun x =>
      (Ref.multiply hooks (some s) (some kn)).andThen fun y =>
        Ref.add hooks (some x) (some y)) w (ts.times (m.toInt.toNat + n.toInt.toNat)) := by
  have hlength : (ts.times (m.toInt.toNat + n.toInt.toNat)).length =
      (ts.times m.toInt.toNat).length + (ts.times n.toInt.toNat).length := by
    rw [Bytes.times_add, List.length_append]
  refine (multiply_spells hs hm).andThen (by omega) fun x v hv hx => ?_
  refine (multiply_spells (hs.retains hv) (hn.retains hv)).andThen (by omega) fun y u hu hy => ?_
  rw [Bytes.times_add]
  exact add_spells (hx.retains hu) hy

/-- A string so many times, and that so many times, at least once. -/
theorem multiply_multiple_spells {km kn : ObjId} (hs : w.Named s ts) (hm : w.Numbered km m)
    (hn : w.Numbered kn n) (hpos : 1 ≤ n.toInt) :
    Spells hooks ((Ref.multiply hooks (some s) (some km)).andThen fun x =>
      Ref.multiply hooks (some x) (some kn)) w (ts.times (m.toInt.toNat * n.toInt.toNat)) := by
  rw [Bytes.times_mul]
  refine (multiply_spells hs hm).andThen ?_ fun x v hv hx => multiply_spells hx (hn.retains hv)
  rw [Bytes.length_times _ n.toInt.toNat]
  exact Nat.le_mul_of_pos_right _ (by omega)

/-- Strings of less than `2 ^ 31` bytes, so many times over, are far from `2 ^ 64`. -/
theorem Bytes.length_times_lt (hts : ts.length < 2 ^ 31) (n : Int32) :
    (ts.times n.toInt.toNat).length < 2 ^ 62 := by
  have hlt := Int32.toInt_lt n
  calc (ts.times n.toInt.toNat).length = ts.length * n.toInt.toNat := length_times ..
    _ < 2 ^ 31 * 2 ^ 31 := Nat.mul_lt_mul'' hts (by omega)
    _ = 2 ^ 62 := rfl

variable (w) in
/-- **Joining and repeating strings under a limit.** Let strings of less than `2 ^ 31` bytes
    and integers be such that nobody writes them, and let the limit be any. The sum of two
    strings succeeds, with the bytes of the one and then those of the other, just if they
    are within the limit together. A string no times, or a negative number of times, is the
    empty string, and so is the empty string any number of times; any other multiple
    succeeds, with the bytes so many times over, just if these are within the limit. What
    does not succeed is an overflow; what does is never longer than the limit; and no length
    leaves the range of 64 bits while it is worked out. So three strings come to one string
    or to an overflow whichever two are put together first; a string `m` times, put before
    the same `n` times, comes to what it does `m + n` times; and a string `m` times over,
    that `n` times over, to what it does `m * n` times over, if neither is zero. -/
theorem strings_add_and_repeat :
    (∀ a b ta tb, w.Named a ta → w.Named b tb → ta.length < 2 ^ 31 → tb.length < 2 ^ 31 →
      Spells hooks (Ref.add hooks (some a) (some b)) w (ta ++ tb) ∧
      ((∃ r w', Ref.add hooks (some a) (some b) w = .ok (.success r) w') ↔
        ta.length + tb.length ≤ w.settings.textLimit) ∧
      (∀ r w', Ref.add hooks (some a) (some b) w = .ok (.success r) w' →
        (ta ++ tb).length ≤ w.settings.textLimit ∧ w'.Named r (ta ++ tb)) ∧
      (wordSum ta tb).toNat = ta.length + tb.length) ∧
    (∀ s k ts n, w.Named s ts → w.Numbered k n → ts.length < 2 ^ 31 →
      (n.toInt ≤ 0 ∨ ts = [] → ∃ r w',
        Ref.multiply hooks (some s) (some k) w = .ok (.success r) w' ∧ w'.Named r []) ∧
      (0 < n.toInt → ts ≠ [] →
        Spells hooks (Ref.multiply hooks (some s) (some k)) w (ts.times n.toInt.toNat) ∧
        ((∃ r w', Ref.multiply hooks (some s) (some k) w = .ok (.success r) w') ↔
          ts.length * n.toInt ≤ w.settings.textLimit) ∧
        (wordProduct ts n).toNat = ts.length * n.toInt) ∧
      ∀ r w', Ref.multiply hooks (some s) (some k) w = .ok (.success r) w' →
        (ts.times n.toInt.toNat).length ≤ w.settings.textLimit ∧
        w'.Named r (ts.times n.toInt.toNat)) ∧
    (∀ a b c ta tb tc, w.Named a ta → w.Named b tb → w.Named c tc →
      ta.length < 2 ^ 31 → tb.length < 2 ^ 31 → tc.length < 2 ^ 31 →
      Spells hooks ((Ref.add hooks (some a) (some b)).andThen fun ab =>
        Ref.add hooks (some ab) (some c)) w (ta ++ tb ++ tc) ∧
      Spells hooks ((Ref.add hooks (some b) (some c)).andThen fun bc =>
        Ref.add hooks (some a) (some bc)) w (ta ++ tb ++ tc) ∧
      (wordSum (ta ++ tb) tc).toNat = (ta ++ tb ++ tc).length ∧
      (wordSum ta (tb ++ tc)).toNat = (ta ++ tb ++ tc).length) ∧
    (∀ s km kn ks ts (m n sum : Int32), w.Named s ts → w.Numbered km m → w.Numbered kn n →
      w.Numbered ks sum → ts.length < 2 ^ 31 → 0 ≤ m.toInt → 0 ≤ n.toInt →
      sum.toInt = m.toInt + n.toInt →
      Spells hooks ((Ref.multiply hooks (some s) (some km)).andThen fun x =>
        (Ref.multiply hooks (some s) (some kn)).andThen fun y =>
          Ref.add hooks (some x) (some y)) w (ts.times sum.toInt.toNat) ∧
      Spells hooks (Ref.multiply hooks (some s) (some ks)) w (ts.times sum.toInt.toNat) ∧
      (wordSum (ts.times m.toInt.toNat) (ts.times n.toInt.toNat)).toNat =
        (ts.times sum.toInt.toNat).length) ∧
    ∀ s km kn kp ts (m n product : Int32), w.Named s ts → w.Numbered km m → w.Numbered kn n →
      w.Numbered kp product → ts.length < 2 ^ 31 → 1 ≤ m.toInt → 1 ≤ n.toInt →
      product.toInt = m.toInt * n.toInt →
      Spells hooks ((Ref.multiply hooks (some s) (some km)).andThen fun x =>
        Ref.multiply hooks (some x) (some kn)) w (ts.times product.toInt.toNat) ∧
      Spells hooks (Ref.multiply hooks (some s) (some kp)) w (ts.times product.toInt.toNat) ∧
      (wordProduct (ts.times m.toInt.toNat) n).toNat = (ts.times product.toInt.toNat).length := by
  refine ⟨?_, ?_, ?_, ?_, ?_⟩
  · intro a b ta tb ha hb hta htb
    have hadd : Spells hooks (Ref.add hooks (some a) (some b)) w (ta ++ tb) := add_spells ha hb
    have hiff := hadd.success_iff
    have hlt : (ta ++ tb).length < 2 ^ 64 := by
      rw [List.length_append]
      omega
    have hword := toNat_wordSum hlt
    rw [List.length_append] at hiff hword
    exact ⟨hadd, hiff, fun r w' => hadd.of_run, hword⟩
  · intro s k ts n hs hk hts
    have hmultiply : Spells hooks (Ref.multiply hooks (some s) (some k)) w
        (ts.times n.toInt.toNat) := multiply_spells hs hk
    refine ⟨fun hempty => ?_, fun hpos hne => ⟨hmultiply, ?_, ?_⟩, fun r w' => hmultiply.of_run⟩
    · have htimes : ts.times n.toInt.toNat = [] := by
        rcases hempty with hn | rfl
        · rw [Int.toNat_of_nonpos hn]
          rfl
        · simp [Bytes.times]
      rw [htimes] at hmultiply
      obtain ⟨r, w', hrun, hnamed, -⟩ := hmultiply.success (Nat.zero_le _)
      exact ⟨r, w', hrun, hnamed⟩
    · have hcast : ((ts.length * n.toInt.toNat : Nat) : Int) = ts.length * n.toInt := by
        rw [Nat.cast_mul, Int.toNat_of_nonneg hpos.le]
      rw [hmultiply.success_iff, Bytes.length_times, ← hcast, Nat.cast_le]
    · have hlt := Bytes.length_times_lt hts n
      rw [Bytes.length_times] at hlt
      rw [toNat_wordProduct hpos.le (by omega), Nat.cast_mul, Int.toNat_of_nonneg hpos.le]
  · intro a b c ta tb tc ha hb hc hta htb htc
    obtain ⟨hleft, hright⟩ := add_assoc_spells hooks ha hb hc
    have hlt : (ta ++ tb ++ tc).length < 2 ^ 64 := by
      simp only [List.length_append]
      omega
    refine ⟨hleft, hright, toNat_wordSum hlt, ?_⟩
    rw [List.append_assoc] at hlt ⊢
    exact toNat_wordSum hlt
  · intro s km kn ks ts m n sum hs hm hn hsum hts hmpos hnpos heq
    have hcount : sum.toInt.toNat = m.toInt.toNat + n.toInt.toNat := by omega
    have htwice := add_multiples_spells hooks hs hm hn
    have hlt := Bytes.length_times_lt hts sum
    rw [← hcount] at htwice
    refine ⟨htwice, multiply_spells hs hsum, ?_⟩
    rw [hcount, Bytes.times_add] at hlt ⊢
    exact toNat_wordSum (by omega)
  · intro s km kn kp ts m n product hs hm hn hproduct hts hmpos hnpos heq
    have hcount : product.toInt.toNat = m.toInt.toNat * n.toInt.toNat := by
      rw [heq, Int.toNat_mul (by omega) (by omega)]
    have hmultiple := multiply_multiple_spells hooks hs hm hn hnpos
    have hlt := Bytes.length_times_lt hts product
    rw [← hcount] at hmultiple
    refine ⟨hmultiple, multiply_spells hs hproduct, ?_⟩
    rw [hcount, Bytes.times_mul, Bytes.length_times] at hlt ⊢
    exact toNat_wordProduct (by omega) (by omega)

/-! ### A limit of eight bytes -/

/-- An engine with two strings and three integers, in which no string is longer than eight
    bytes. -/
def narrow : World Unit :=
  { (((((World.initial ()).added (Payload.string (.ofString "abc")).newborn).added
    (Payload.string (.ofString "de")).newborn).added (Payload.integer 1).newborn).added
      (Payload.integer 2).newborn).added (Payload.integer 3).newborn with
    settings := { textLimit := 8 } }

/-- Three strings of eight bytes together come to one either way; a string of three bytes
    three times overflows, and so does the sum of it twice and once. -/
theorem strings_add_and_repeat_narrow :
    let abc : ObjId := ⟨Heap.initial.size⟩
    let de : ObjId := ⟨Heap.initial.size + 1⟩
    let one : ObjId := ⟨Heap.initial.size + 2⟩
    let two : ObjId := ⟨Heap.initial.size + 3⟩
    let three : ObjId := ⟨Heap.initial.size + 4⟩
    (∃ r w', ((Ref.add {} (some abc) (some de)).andThen fun x => Ref.add {} (some x) (some abc))
        narrow = .ok (.success r) w' ∧ w'.Named r (.ofString "abcdeabc")) ∧
    (∃ r w', ((Ref.add {} (some de) (some abc)).andThen fun x => Ref.add {} (some abc) (some x))
        narrow = .ok (.success r) w' ∧ w'.Named r (.ofString "abcdeabc")) ∧
    (¬∃ r w', ((Ref.multiply {} (some abc) (some two)).andThen fun x =>
      (Ref.multiply {} (some abc) (some one)).andThen fun y => Ref.add {} (some x) (some y))
        narrow = .ok (.success r) w') ∧
    ¬∃ r w', Ref.multiply {} (some abc) (some three) narrow = .ok (.success r) w' := by
  intro abc de one two three
  obtain ⟨-, -, hassoc, hsum, -⟩ := strings_add_and_repeat {} narrow
  have habc : narrow.Named abc (.ofString "abc") := ⟨⟨_, rfl, nofun⟩, rfl⟩
  have hde : narrow.Named de (.ofString "de") := ⟨⟨_, rfl, nofun⟩, rfl⟩
  obtain ⟨hleft, hright, -⟩ := hassoc abc de abc _ _ _ habc hde habc (by decide) (by decide)
    (by decide)
  obtain ⟨r, w', hrun, hnamed, -⟩ := hleft.success (by decide)
  obtain ⟨r', w'', hrun', hnamed', -⟩ := hright.success (by decide)
  obtain ⟨htwice, hthrice, -⟩ := hsum abc two one three _ 2 1 3 habc ⟨⟨_, rfl, nofun⟩, rfl⟩
    ⟨⟨_, rfl, nofun⟩, rfl⟩ ⟨⟨_, rfl, nofun⟩, rfl⟩ (by decide) (by decide) (by decide) rfl
  refine ⟨⟨r, w', hrun, hnamed⟩, ⟨r', w'', hrun', hnamed'⟩, ?_, ?_⟩
  · rw [htwice.success_iff]
    decide
  · rw [hthrice.success_iff]
    decide

end ValueEngine
