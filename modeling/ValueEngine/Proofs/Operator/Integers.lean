/-
  Value engine — exact arithmetic on integers.

  Integers have 32 bits and are worked on in words of 64, which is always enough: no word
  overflows on the way, and what is narrowed in the end is the mathematical result. So an
  operator on two integers comes to the integer that it should, or to an overflow just if
  there is none.

  * `Checked.ofWord?`: a word of 64 bits, narrowed (`ofWord?_eq_ofInt?`).
  * `Checked.Exact`: a result of 32 bits that was worked out exactly.
  * `Checked.divide_exact`: the quotient, its remainder, and its only overflow.
  * `Reckons`: an operator that comes to an exact value, or overflows.
  * `integers_exact`: all of this, and the laws.
-/
import ValueEngine.Proofs.Operator.Strings

namespace ValueEngine

/-! ## Integers of 32 bits -/

namespace Checked

variable {x y v : Int32} {result : Option Int32} {wide : Int64} {value : Int}

/-- A value that an integer of 32 bits can have. -/
def Fits (value : Int) : Prop := -2 ^ 31 ≤ value ∧ value ≤ 2 ^ 31 - 1

instance : DecidablePred Fits := fun _ => inferInstanceAs (Decidable (_ ∧ _))

theorem fits_toInt (v : Int32) : Fits v.toInt := by
  have hle := Int32.le_toInt v
  have hlt := Int32.toInt_lt v
  unfold Fits
  omega

theorem isSome_ofInt?_iff : (ofInt? value).isSome ↔ Fits value := by
  unfold ofInt? Fits
  split
  · rename_i h
    simp only [Int32.toInt_minValue, Int32.toInt_maxValue] at h
    simp only [Option.isSome_some, true_iff]
    omega
  · rename_i h
    simp only [Int32.toInt_minValue, Int32.toInt_maxValue] at h
    simp only [Option.isSome_none, Bool.false_eq_true, false_iff]
    omega

/-- A word of 64 bits as an integer of 32, if it fits. -/
def ofWord? (wide : Int64) : Option Int32 :=
  if wide < Int32.minValue.toInt64 ∨ Int32.maxValue.toInt64 < wide then none
  else some wide.toInt32

/-- To narrow a word is to narrow its value. -/
theorem ofWord?_eq_ofInt? (wide : Int64) : ofWord? wide = ofInt? wide.toInt := by
  unfold ofWord? ofInt?
  simp only [Int64.lt_iff_toInt_lt, Int32.toInt_toInt64]
  by_cases h : Int32.minValue.toInt ≤ wide.toInt ∧ wide.toInt ≤ Int32.maxValue.toInt
  · rw [if_pos h, if_neg (by omega)]
    rw [Int32.ofInt_int64ToInt]
  · rw [if_neg h, if_pos (by omega)]

/-- A result of 32 bits that was worked out exactly: the word that is narrowed has the
    mathematical value, and there is a result just if that value fits. -/
structure Exact (result : Option Int32) (wide : Int64) (value : Int) : Prop where
  word : wide.toInt = value
  narrowed : result = ofWord? wide
  eq_some_iff : ∀ v, result = some v ↔ v.toInt = value
  isSome_iff : result.isSome ↔ Fits value

/-- Far from `2 ^ 63` no word overflows, so what is narrowed is exact. -/
theorem Exact.of_bmod (h : wide.toInt = value.bmod (2 ^ 64)) (hle : value.natAbs ≤ 2 ^ 62) :
    Exact (ofInt? value) wide value := by
  have hword : wide.toInt = value := h.trans (Int.bmod_eq_of_le_mul_two (by omega) (by omega))
  refine ⟨hword, ?_, fun _ => ofInt?_eq_some_iff, isSome_ofInt?_iff⟩
  rw [ofWord?_eq_ofInt?, hword]

theorem Exact.eq_none_iff (h : Exact result wide value) : result = none ↔ ¬Fits value := by
  rw [← h.isSome_iff, Option.not_isSome_iff_eq_none]

theorem natAbs_toInt_le (v : Int32) : v.toInt.natAbs ≤ 2 ^ 31 := by
  have hfits := fits_toInt v
  unfold Fits at hfits
  omega

theorem add_exact (x y : Int32) :
    Exact (add x y) (x.toInt64 + y.toInt64) (x.toInt + y.toInt) := by
  have hx := natAbs_toInt_le x
  have hy := natAbs_toInt_le y
  refine .of_bmod ?_ (by omega)
  rw [Int64.toInt_add, Int32.toInt_toInt64, Int32.toInt_toInt64]

theorem subtract_exact (x y : Int32) :
    Exact (subtract x y) (x.toInt64 - y.toInt64) (x.toInt - y.toInt) := by
  have hx := natAbs_toInt_le x
  have hy := natAbs_toInt_le y
  refine .of_bmod ?_ (by omega)
  rw [Int64.toInt_sub, Int32.toInt_toInt64, Int32.toInt_toInt64]

theorem multiply_exact (x y : Int32) :
    Exact (multiply x y) (x.toInt64 * y.toInt64) (x.toInt * y.toInt) := by
  have hle : (x.toInt * y.toInt).natAbs ≤ 2 ^ 31 * 2 ^ 31 := by
    rw [Int.natAbs_mul]
    exact Nat.mul_le_mul (natAbs_toInt_le x) (natAbs_toInt_le y)
  refine .of_bmod ?_ (by omega)
  rw [Int64.toInt_mul, Int32.toInt_toInt64, Int32.toInt_toInt64]

/-- The only quotient of two integers that does not fit. -/
theorem fits_tdiv_iff (hy : y ≠ 0) :
    Fits (x.toInt.tdiv y.toInt) ↔ ¬(x = Int32.minValue ∧ y = -1) := by
  have hx := fits_toInt x
  have hquotient := Int.natAbs_tdiv x.toInt y.toInt
  have hmin : x = Int32.minValue ↔ x.toInt = -2 ^ 31 := Int32.toInt_inj.symm
  have hone : y = -1 ↔ y.toInt = -1 := Int32.toInt_inj.symm
  have hzero : y.toInt ≠ 0 := fun h => hy (Int32.toInt_inj.1 h)
  rw [hmin, hone]
  unfold Fits at *
  constructor
  · rintro hfits ⟨h, h'⟩
    rw [h, h'] at hfits
    exact absurd hfits (by decide)
  · intro hne
    -- by one or its opposite nothing gets smaller, by anything else it halves at least
    by_cases hunit : y.toInt.natAbs = 1
    · rcases (by omega : y.toInt = 1 ∨ y.toInt = -1) with h | h
      · rw [h, Int.tdiv_one]
        exact hx
      · rw [h, Int.tdiv_neg, Int.tdiv_one]
        omega
    · have hhalf : x.toInt.natAbs / y.toInt.natAbs ≤ x.toInt.natAbs / 2 :=
        Nat.div_le_div_left (by omega) (by decide)
      have hle : (x.toInt.tdiv y.toInt).natAbs ≤ x.toInt.natAbs / 2 := hquotient.trans_le hhalf
      omega

/-- **The quotient** is truncated towards zero: what remains is smaller than the divisor and
    has the sign of the dividend. -/
theorem divide_exact (hy : y ≠ 0) (x : Int32) : ∃ result, divide x y = .ok result ∧
    Exact result (x.toInt64 / y.toInt64) (x.toInt.tdiv y.toInt) ∧
    (result = none ↔ x = Int32.minValue ∧ y = -1) ∧
    ∀ q, result = some q → ∃ r : Int, q.toInt * y.toInt + r = x.toInt ∧
      r.natAbs < y.toInt.natAbs ∧ (r = 0 ∨ r.sign = x.toInt.sign) := by
  have hzero : y.toInt ≠ 0 := fun h => hy (Int32.toInt_inj.1 h)
  have hexact : Exact (ofInt? (x.toInt.tdiv y.toInt)) (x.toInt64 / y.toInt64)
      (x.toInt.tdiv y.toInt) := by
    have hx := natAbs_toInt_le x
    have hle : (x.toInt.tdiv y.toInt).natAbs ≤ x.toInt.natAbs := by
      rw [Int.natAbs_tdiv]
      exact Nat.div_le_self ..
    refine .of_bmod ?_ (by omega)
    rw [Int64.toInt_div, Int32.toInt_toInt64, Int32.toInt_toInt64]
  refine ⟨_, divide_of_ne_zero hy x, hexact, ?_, fun q hq => ?_⟩
  · rw [hexact.eq_none_iff, fits_tdiv_iff hy, not_not]
  · rw [(hexact.eq_some_iff q).1 hq]
    refine ⟨x.toInt.tmod y.toInt, Int.tdiv_mul_add_tmod .., ?_, ?_⟩
    · rw [Int.natAbs_tmod]
      exact Nat.mod_lt _ (by omega)
    · by_cases hdvd : y.toInt ∣ x.toInt
      · exact .inl (Int.tmod_eq_zero_of_dvd hdvd)
      · exact .inr (by rw [Int.sign_tmod, if_neg hdvd])

end Checked

variable {σ : Type} {hooks : Hooks σ} {w : World σ} {op : Operator} {a b : ObjId}
  {x y : Int32} {value : Int}

/-! ## Operators on integers -/

theorem World.Numbered.get {k : ObjId} {n : Int32} (h : w.Numbered k n) :
    ∃ o, w.heap.get? k = some o ∧ o.loan ≠ .exclusive ∧ o.payload = .integer n ∧
      o.kind = .integer := by
  obtain ⟨⟨o, ho, hu⟩, hn⟩ := h
  have hp := Heap.payload_of_contents ho hn
  exact ⟨o, ho, hu, hp, congrArg Payload.kind hp⟩

/-- An action that comes to a new integer, of an exact value, if this fits in 32 bits, and
    otherwise ends in the overflow of an operator, unless the host does not come back from
    hearing of it. -/
structure Reckons (hooks : Hooks σ) (op : Operator) (x : Action σ Outcome) (w : World σ)
    (value : Int) : Prop where
  success : Checked.Fits value → ∃ v : Int32, v.toInt = value ∧ x w = .ok (.success w.nextId)
    ((w.traced operatorLevel (op.tracedAs .integer .integer)).added (Payload.integer v).newborn)
  overflow : ¬Checked.Fits value →
    x.Arrives w (fun outcome _ => outcome = .failure (.arithmeticOverflow op)) fun _ =>
      ¬hooks.Returns

namespace Reckons

variable {x : Action σ Outcome} {w' : World σ}

/-- What succeeds has come to an integer of the exact value, and leaves all others. -/
theorem of_run (h : Reckons hooks op x w value) {r : ObjId} (hrun : x w = .ok (.success r) w') :
    ∃ v : Int32, v.toInt = value ∧ w'.Numbered r v ∧ Retains w w' := by
  by_cases hfits : Checked.Fits value
  · obtain ⟨v, hv, hrun'⟩ := h.success hfits
    cases hrun.symm.trans hrun'
    obtain ⟨hopen, hcontents, hretains⟩ := w.born operatorLevel (op.tracedAs .integer .integer)
      (.integer v)
    exact ⟨v, hv, ⟨hopen, hcontents⟩, hretains⟩
  · cases (h.overflow hfits).of_run hrun

/-- What fails has overflowed. -/
theorem of_run_failure (h : Reckons hooks op x w value) {cause : Failure}
    (hrun : x w = .ok (.failure cause) w') :
    cause = .arithmeticOverflow op ∧ ¬Checked.Fits value := by
  by_cases hfits : Checked.Fits value
  · obtain ⟨v, -, hrun'⟩ := h.success hfits
    cases hrun.symm.trans hrun'
  · cases (h.overflow hfits).of_run hrun
    exact ⟨rfl, hfits⟩

end Reckons

section Operators

variable (ha : w.Numbered a x) (hb : w.Numbered b y)
include ha hb

/-- Two integers come to what the table makes of them. -/
theorem integers_arrive (hooks : Hooks σ)
    (hentry : (op, Kind.integer, Kind.integer) ∈ Operator.entries) :
    ∃ result, op.tabled w.settings.textLimit (.integer x) (.integer y) = some result ∧
      (op.apply hooks (some a) (some b)).Arrives w
        (fun outcome v => match result with
          | .ok p => outcome = .success w.nextId ∧
            v = (w.traced operatorLevel (op.tracedAs .integer .integer)).added p.newborn
          | .error cause => outcome = .failure cause)
        fun _ => match result with
          | .ok p => p.missingPart? ≠ none
          | .error _ => ¬hooks.Returns := by
  obtain ⟨o, ho, huo, hx, hok⟩ := ha.get
  obtain ⟨p, hp, hup, hy, hpk⟩ := hb.get
  have happly := apply_arrives hooks ho hp huo hup (by rwa [hok, hpk])
  rwa [hx, hy, hok, hpk] at happly

/-- Two integers come to the exact value that the table has for them. -/
theorem reckons_of_tabled (hentry : (op, Kind.integer, Kind.integer) ∈ Operator.entries)
    (htabled : op.tabled w.settings.textLimit (.integer x) (.integer y) =
      some (op.integral value)) :
    Reckons hooks op (op.apply hooks (some a) (some b)) w value := by
  obtain ⟨result, hresult, happly⟩ := integers_arrive ha hb hooks hentry
  cases htabled.symm.trans hresult
  have hrange : Checked.Fits value ↔ -2147483648 ≤ value ∧ value < 2147483648 := by
    unfold Checked.Fits
    omega
  unfold Operator.integral at happly
  constructor
  · intro hfits
    rw [if_pos (hrange.1 hfits)] at happly
    refine ⟨Int32.ofInt value, ?_, (happly.mono (fun _ _ h => h) fun _ h => h rfl).eq_ok⟩
    exact Int32.toInt_ofInt_of_le (hrange.1 hfits).1 (hrange.1 hfits).2
  · intro hbeyond
    rwa [if_neg fun h => hbeyond (hrange.2 h)] at happly

theorem add_reckons : Reckons hooks .add (Ref.add hooks (some a) (some b)) w
    (x.toInt + y.toInt) := reckons_of_tabled ha hb (Operator.supports_iff_mem_entries.1 rfl) rfl

theorem subtract_reckons : Reckons hooks .subtract (Ref.subtract hooks (some a) (some b)) w
    (x.toInt - y.toInt) := reckons_of_tabled ha hb (Operator.supports_iff_mem_entries.1 rfl) rfl

theorem multiply_reckons : Reckons hooks .multiply (Ref.multiply hooks (some a) (some b)) w
    (x.toInt * y.toInt) := reckons_of_tabled ha hb (Operator.supports_iff_mem_entries.1 rfl) rfl

theorem divide_reckons (hy : y ≠ 0) : Reckons hooks .divide (Ref.divide hooks (some a) (some b)) w
    (x.toInt.tdiv y.toInt) :=
  reckons_of_tabled ha hb (Operator.supports_iff_mem_entries.1 rfl)
    (congrArg some (if_neg hy))

/-- To divide by zero is a failure of its own. -/
theorem divide_by_zero (hy : y = 0) : (Ref.divide hooks (some a) (some b)).Arrives w
    (fun outcome _ => outcome = .failure .divisionByZero) fun _ => ¬hooks.Returns := by
  have hentry : (Operator.divide, Kind.integer, Kind.integer) ∈ Operator.entries :=
    Operator.supports_iff_mem_entries.1 rfl
  obtain ⟨result, hresult, happly⟩ := integers_arrive ha hb hooks hentry
  cases (congrArg some (if_pos hy)).symm.trans hresult
  exact happly

/-- What does not depend on the order of the operands in the table does not at all. -/
theorem apply_comm_of_tabled (hentry : (op, Kind.integer, Kind.integer) ∈ Operator.entries)
    (htabled : op.tabled w.settings.textLimit (.integer x) (.integer y) =
      op.tabled w.settings.textLimit (.integer y) (.integer x)) :
    op.apply hooks (some a) (some b) w = op.apply hooks (some b) (some a) w := by
  obtain ⟨o, ho, huo, hx, hok⟩ := ha.get
  obtain ⟨p, hp, hup, hy, hpk⟩ := hb.get
  obtain ⟨result, hresult, hrun⟩ := apply_of_mem_entries hooks ho hp hup (by rwa [hok, hpk])
  obtain ⟨result', hresult', hrun'⟩ := apply_of_mem_entries hooks hp ho huo (by rwa [hok, hpk])
  rw [hx, hy] at hresult hresult'
  cases hresult.symm.trans (htabled.trans hresult')
  rw [hok, hpk] at hrun hrun'
  exact (hrun hooks.onUnsupported).trans
    ((withRead_comm ho hp huo hup _).trans (hrun' hooks.onUnsupported).symm)

theorem add_comm_integers :
    Ref.add hooks (some a) (some b) w = Ref.add hooks (some b) (some a) w := by
  refine apply_comm_of_tabled ha hb (Operator.supports_iff_mem_entries.1 rfl) ?_
  simp only [Operator.tabled, Int.add_comm]

theorem multiply_comm_integers :
    Ref.multiply hooks (some a) (some b) w = Ref.multiply hooks (some b) (some a) w := by
  refine apply_comm_of_tabled ha hb (Operator.supports_iff_mem_entries.1 rfl) ?_
  simp only [Operator.tabled, Int.mul_comm]

/-- A sum without one of its summands is the other one. -/
theorem subtract_from_sum {r : ObjId} {w' : World σ}
    (hsum : Ref.add hooks (some a) (some b) w = .ok (.success r) w') :
    ∃ d w'', Ref.subtract hooks (some r) (some b) w' = .ok (.success d) w'' ∧
      w''.Numbered d x := by
  obtain ⟨v, hv, hr, hretains⟩ := (add_reckons ha hb).of_run hsum
  have hdifference : Reckons hooks .subtract (Ref.subtract hooks (some r) (some b)) w'
      (v.toInt - y.toInt) := subtract_reckons hr (hb.retains hretains)
  rw [hv, Int.add_sub_cancel] at hdifference
  obtain ⟨v₁, -, hrun⟩ := hdifference.success (Checked.fits_toInt x)
  obtain ⟨v', hv', hd, -⟩ := hdifference.of_run hrun
  cases Int32.toInt_inj.1 hv'
  exact ⟨_, _, hrun, hd⟩

end Operators

/-! ## The main result -/

/-- **Arithmetic on integers is exact.** Of any two integers of 32 bits the sum, the
    difference and the product are the mathematical ones just if these fit in 32 bits; and
    so is the quotient, truncated towards zero, by anything but zero, which does not fit
    only for the least integer and `-1`. The words of 64 bits in which they are worked out
    never overflow. Operators on two integers that nobody writes come to a new object with
    this value, or to their overflow; to divide by zero is a failure of its own, and only
    that is. Sums and products do not depend on the order, overflows and all that the host
    hears of them included; and a sum less its second summand is always the first. -/
theorem integers_exact (hooks : Hooks σ) (w : World σ) :
    (∀ x y : Int32,
      Checked.Exact (Checked.add x y) (x.toInt64 + y.toInt64) (x.toInt + y.toInt) ∧
      Checked.Exact (Checked.subtract x y) (x.toInt64 - y.toInt64) (x.toInt - y.toInt) ∧
      Checked.Exact (Checked.multiply x y) (x.toInt64 * y.toInt64) (x.toInt * y.toInt) ∧
      (y = 0 → Checked.divide x y = .error .zeroDivisor) ∧
      (y ≠ 0 → ∃ result, Checked.divide x y = .ok result ∧
        Checked.Exact result (x.toInt64 / y.toInt64) (x.toInt.tdiv y.toInt) ∧
        (result = none ↔ x = Int32.minValue ∧ y = -1) ∧
        ∀ q, result = some q → ∃ r : Int, q.toInt * y.toInt + r = x.toInt ∧
          r.natAbs < y.toInt.natAbs ∧ (r = 0 ∨ r.sign = x.toInt.sign))) ∧
    (∀ a b x y, w.Numbered a x → w.Numbered b y →
      Reckons hooks .add (Ref.add hooks (some a) (some b)) w (x.toInt + y.toInt) ∧
      Reckons hooks .subtract (Ref.subtract hooks (some a) (some b)) w (x.toInt - y.toInt) ∧
      Reckons hooks .multiply (Ref.multiply hooks (some a) (some b)) w (x.toInt * y.toInt) ∧
      (y ≠ 0 → Reckons hooks .divide (Ref.divide hooks (some a) (some b)) w
        (x.toInt.tdiv y.toInt)) ∧
      (y = 0 → (Ref.divide hooks (some a) (some b)).Arrives w
        (fun outcome _ => outcome = .failure .divisionByZero) fun _ => ¬hooks.Returns) ∧
      (∀ cause w', Ref.divide hooks (some a) (some b) w = .ok (.failure cause) w' →
        (cause = .divisionByZero ↔ y = 0) ∧
        (cause = .arithmeticOverflow .divide ↔ x = Int32.minValue ∧ y = -1)) ∧
      Ref.add hooks (some a) (some b) w = Ref.add hooks (some b) (some a) w ∧
      Ref.multiply hooks (some a) (some b) w = Ref.multiply hooks (some b) (some a) w ∧
      ∀ r w', Ref.add hooks (some a) (some b) w = .ok (.success r) w' →
        ∃ d w'', Ref.subtract hooks (some r) (some b) w' = .ok (.success d) w'' ∧
          w''.Numbered d x) ∧
    Failure.divisionByZero.kind? = some .divisionByZero ∧
    ∀ op, (Failure.arithmeticOverflow op).kind? = some .overflow := by
  refine ⟨fun x y => ?_, fun a b x y ha hb => ?_, rfl, fun _ => rfl⟩
  · exact ⟨Checked.add_exact x y, Checked.subtract_exact x y, Checked.multiply_exact x y,
      fun h => if_pos h, fun h => Checked.divide_exact h x⟩
  · refine ⟨add_reckons ha hb, subtract_reckons ha hb, multiply_reckons ha hb,
      divide_reckons ha hb, divide_by_zero ha hb, fun cause w' hrun => ?_,
      add_comm_integers ha hb, multiply_comm_integers ha hb,
      fun r w' => subtract_from_sum ha hb⟩
    by_cases hy : y = 0
    · cases (divide_by_zero ha hb hy).of_run hrun
      subst hy
      exact ⟨by simp, by simp⟩
    · obtain ⟨rfl, hbeyond⟩ := (divide_reckons ha hb hy).of_run_failure hrun
      rw [Checked.fits_tdiv_iff hy, not_not] at hbeyond
      exact ⟨by simp [hy], by simp [hbeyond]⟩

/-- An engine with the least integer, the one before zero, and zero. -/
def edges : World Unit :=
  (((World.initial ()).added (Payload.integer Int32.minValue).newborn).added
    (Payload.integer (-1)).newborn).added (Payload.integer 0).newborn

/-- The least integer divided by `-1` overflows, and divided by zero is a failure of its own;
    its sum with `-1` overflows both ways round, and its sum with zero is itself, and is
    again when zero is taken from it. -/
theorem integers_exact_edges :
    let least : ObjId := ⟨Heap.initial.size⟩
    let minusOne : ObjId := ⟨Heap.initial.size + 1⟩
    let zero : ObjId := ⟨Heap.initial.size + 2⟩
    Checked.divide Int32.minValue (-1) = .ok none ∧
    (∃ w', Ref.divide {} (some least) (some minusOne) edges =
      .ok (.failure (.arithmeticOverflow .divide)) w') ∧
    (∃ w', Ref.divide {} (some least) (some zero) edges = .ok (.failure .divisionByZero) w') ∧
    (∃ w', Ref.add {} (some minusOne) (some least) edges =
      .ok (.failure (.arithmeticOverflow .add)) w') ∧
    ∃ r w' d w'', Ref.add {} (some least) (some zero) edges = .ok (.success r) w' ∧
      Ref.subtract {} (some r) (some zero) w' = .ok (.success d) w'' ∧
      w''.Numbered d Int32.minValue := by
  intro least minusOne zero
  obtain ⟨hwords, hoperators, -, -⟩ := integers_exact {} edges
  have hleast : edges.Numbered least Int32.minValue := ⟨⟨_, rfl, nofun⟩, rfl⟩
  have hone : edges.Numbered minusOne (-1) := ⟨⟨_, rfl, nofun⟩, rfl⟩
  have hzero : edges.Numbered zero 0 := ⟨⟨_, rfl, nofun⟩, rfl⟩
  obtain ⟨hadd, -, -, hdivide, -, -, hcomm, -⟩ := hoperators least minusOne _ _ hleast hone
  obtain ⟨hsum, -, -, -, hbyZero, -, -, -, hback⟩ := hoperators least zero _ _ hleast hzero
  refine ⟨?_, ?_, (hbyZero rfl).failure nofun, ?_, ?_⟩
  · obtain ⟨-, -, -, -, hquotient⟩ := hwords Int32.minValue (-1)
    obtain ⟨result, hresult, -, hnone, -⟩ := hquotient (by decide)
    rw [hresult, hnone.2 ⟨rfl, rfl⟩]
  · exact ((hdivide (by decide)).overflow (by decide)).failure nofun
  · rw [← hcomm]
    exact (hadd.overflow (by decide)).failure nofun
  · obtain ⟨v, -, hrun⟩ := hsum.success (by decide)
    obtain ⟨d, w'', hrun', hd⟩ := hback _ _ hrun
    exact ⟨_, _, d, w'', hrun, hrun', hd⟩

end ValueEngine
