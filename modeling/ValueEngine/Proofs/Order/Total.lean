/-
  Value engine — one total order.

  Five operations ask for the order of two objects, each in its own way. They all read one
  order off the objects: where one of them succeeds all do, where one fails all fail alike,
  and what they answer fits together, with equality and with differences as well.

  * `Checked.order_eq_compare`: the order of integers is that of their values, and total.
  * `Checked.sign_order`: as a number it is the sign of the difference.
  * `Binary.orders`: the operations that ask for the order.
  * `Creates`: an operation that comes to a new object, and nothing else.
  * `orderOutcome_of_unordered`, `orderOutcome_creates`: when they fail and when not.
  * `order_total`: all five, on any two objects.
-/
import ValueEngine.Proofs.Operator.Integers
import ValueEngine.Request

namespace ValueEngine

/-! ## The order of integers -/

namespace Checked

theorem order_eq_compare (x y : Int32) : order x y = compare x.toInt y.toInt := by
  unfold order
  rcases Int.lt_trichotomy x.toInt y.toInt with h | h | h
  · rw [if_pos h, Std.compare_eq_lt.2 h]
  · rw [if_neg (by omega), if_neg (by omega), Std.compare_eq_iff_eq.2 h]
  · rw [if_neg (by omega), if_pos h, Std.compare_eq_gt.2 h]

instance : Std.TransCmp order where
  eq_swap := by
    intro x y
    rw [order_eq_compare, order_eq_compare]
    exact Std.OrientedCmp.eq_swap
  isLE_trans := by
    intro x y z
    rw [order_eq_compare, order_eq_compare, order_eq_compare]
    exact Std.TransCmp.isLE_trans

instance : Std.LawfulEqCmp order where
  eq_of_compare := by
    intro x y h
    rw [order_eq_compare] at h
    exact Int32.toInt_inj.1 (Std.compare_eq_iff_eq.1 h)

theorem order_swap (x y : Int32) : order x y = (order y x).swap := Std.OrientedCmp.eq_swap

theorem sign_swap (o : Ordering) : sign o.swap = -sign o := by cases o <;> rfl

theorem toInt_sign_order (x y : Int32) : (sign (order x y)).toInt = (x.toInt - y.toInt).sign := by
  unfold order
  rcases Int.lt_trichotomy x.toInt y.toInt with h | h | h
  · rw [if_pos h, Int.sign_eq_neg_one_iff_neg.2 (by omega)]
    rfl
  · rw [if_neg (by omega), if_neg (by omega), h, Int.sub_self]
    rfl
  · rw [if_neg (by omega), if_pos h, Int.sign_eq_one_iff_pos.2 (by omega)]
    rfl

end Checked

variable {σ : Type} {hooks : Hooks σ} {w : World σ} {a b c : ObjId} {o p : Object}
  {x y z : Int32} {answer : Ordering → Payload}

/-- The operations that ask for the order of two objects. -/
def Binary.orders : List Binary := [.rank, .below, .atMost, .above, .atLeast]

/-- What each of them makes of the order. -/
theorem Binary.run_eq_orderOutcome {verb : Binary} (h : verb ∈ orders) :
    ∃ answer : Ordering → Payload, (∀ order, (answer order).missingPart? = none) ∧
      ∀ (hooks : Hooks σ) (a b : Ref), verb.run hooks a b = orderOutcome hooks answer a b := by
  simp only [orders, List.mem_cons, List.not_mem_nil, or_false] at h
  rcases h with rfl | rfl | rfl | rfl | rfl
  all_goals exact ⟨_, fun _ => rfl, fun _ _ _ => rfl⟩

/-! ## No order -/

theorem orderOf_of_not_integers (h : ¬(o.kind = .integer ∧ p.kind = .integer)) :
    orderOf hooks o p = (do
      report hooks (.unordered o.kind p.kind)
      return .error (.unordered o.kind p.kind) : Action σ (Except Failure Ordering)) := by
  unfold orderOf
  split
  · rename_i hx hy
    exact absurd ⟨congrArg Payload.kind hx, congrArg Payload.kind hy⟩ h
  · rfl

/-- **Where there is no order all questions about it fail alike**, while both objects are
    lent. -/
theorem orderOutcome_of_unordered (ho : w.heap.get? a = some o) (hp : w.heap.get? b = some p)
    (huo : o.loan ≠ .exclusive) (hup : p.loan ≠ .exclusive)
    (h : ¬(o.kind = .integer ∧ p.kind = .integer)) :
    orderOutcome hooks answer (some a) (some b) w =
      (withRead (some a) fun _ _ => withRead (some b) fun _ _ =>
        fail hooks (.unordered o.kind p.kind)) w := by
  obtain ⟨l, hl⟩ := Access.acquire_read_eq_ok_iff.2 huo
  obtain ⟨n, hp', hn⟩ := get?_lent_readable ho hp hl hup
  obtain ⟨m, hm⟩ := Access.acquire_read_eq_ok_iff.2 hn
  have horder : orderOf hooks { o with loan := l } { { p with loan := n } with loan := m } =
      (do
        report hooks (.unordered o.kind p.kind)
        return .error (.unordered o.kind p.kind)) := orderOf_of_not_integers h
  cases hr : report hooks (.unordered o.kind p.kind)
      ((w.lent a o l).lent b { p with loan := n } m) with
  | ok _ v =>
    have hread : (withRead (some a) fun _ x => withRead (some b) fun _ y => orderOf hooks x y) w =
        .ok (.error (.unordered o.kind p.kind)) ((v.endLoan .read b).endLoan .read a) := by
      refine lend_of_ok ho hl (lend_of_ok hp' hm ?_)
      exact (congrFun horder _).trans (Action.bind_of_ok hr _)
    refine (Action.bind_of_ok hread _).trans (Eq.symm ?_)
    exact lend_of_ok ho hl (lend_of_ok hp' hm (Action.bind_of_ok hr _))
  | error e v =>
    have hread : (withRead (some a) fun _ x => withRead (some b) fun _ y => orderOf hooks x y) w =
        .error e ((v.endLoan .read b).endLoan .read a) := by
      refine lend_of_error ho hl (lend_of_error hp' hm ?_)
      exact (congrFun horder _).trans (Action.bind_of_error hr _)
    refine (Action.bind_of_error hread _).trans (Eq.symm ?_)
    exact lend_of_error ho hl (lend_of_error hp' hm (Action.bind_of_error hr _))

/-! ## The order of two objects -/

theorem orderOf_of_integers (hx : o.payload = .integer x) (hy : p.payload = .integer y) :
    orderOf hooks o p = (pure (.ok (Checked.order x y)) : Action σ (Except Failure Ordering)) := by
  simp only [orderOf, hx, hy]

/-- The test of two integers is that of their values, and does nothing. An object is not
    looked into to be compared with itself. -/
theorem judge_of_integers (hx : o.payload = .integer x) (hy : p.payload = .integer y)
    (hsame : a = b → x = y) (v : World σ) :
    judge hooks a o b p v = .ok (.ofBool (x == y)) v := by
  have hkinds : ¬(o.kind ≠ p.kind ∨ o.kind.hasEquality = false) := by
    have hok : o.kind = .integer := congrArg Payload.kind hx
    have hpk : p.kind = .integer := congrArg Payload.kind hy
    rw [hok, hpk]
    decide
  have hequality : ∀ depth, equality hooks (depth + 1) a o b p [] v =
      .ok (.ofBool (x == y), []) v := by
    intro depth
    simp only [equality, if_neg hkinds]
    by_cases hab : a = b
    · rw [if_pos hab, hsame hab, beq_self_eq_true]
      rfl
    · rw [if_neg hab, hx, hy]
      rfl
  have hheap : (Action.heap : Action σ Heap) v = .ok v.heap v := rfl
  exact (Action.bind_of_ok hheap _).trans (Action.bind_of_ok (hequality _) _)

/-- An operation that comes to a new object which holds a payload, and does nothing else. -/
def Creates (x : Action σ Outcome) (w : World σ) (p : Payload) : Prop :=
  x w = .ok (.success w.nextId) (w.added p.newborn)

theorem Creates.unique {x : Action σ Outcome} {p q : Payload} (hp : Creates x w p)
    (hq : Creates x w q) : p = q := by
  have hrun : EStateM.Result.ok (.success w.nextId) (w.added p.newborn) =
      (.ok (.success w.nextId) (w.added q.newborn) : EStateM.Result Abort (World σ) Outcome) :=
    hp.symm.trans hq
  have hworld : w.added p.newborn = w.added q.newborn := by
    injection hrun
  have hget := World.get?_added_nextId p.newborn w
  rw [hworld, World.get?_added_nextId] at hget
  exact (congrArg Object.payload (Option.some.inj hget)).symm

section Integers

variable (ha : w.Numbered a x) (hb : w.Numbered b y)
include ha hb

/-- **Questions about the order of integers succeed**, with the answer to their order. -/
theorem orderOutcome_creates (hooks : Hooks σ)
    (hanswer : (answer (Checked.order x y)).missingPart? = none) :
    Creates (orderOutcome hooks answer (some a) (some b)) w (answer (Checked.order x y)) := by
  obtain ⟨o, ho, huo, hx, -⟩ := ha.get
  obtain ⟨p, hp, hup, hy, -⟩ := hb.get
  have hread : (withRead (some a) fun _ x => withRead (some b) fun _ y => orderOf hooks x y) w =
      .ok (.ok (Checked.order x y)) w := by
    refine (Action.Arrives.withOperands ho hp huo hup (fun _ _ _ _ => rfl)
      fun l m p' _ hl hm hp' => ?_).eq_ok
    refine .of_ok (congrFun (orderOf_of_integers hx hy) _) ⟨rfl, ?_⟩
    rw [World.endLoan_lent hp' hm, World.endLoan_lent ho hl]
  exact (Action.bind_of_ok hread _).trans (freshValue_eq hanswer w)

/-- Two integers are equal just if the order says so. -/
theorem equal_creates (hooks : Hooks σ) : Creates (Ref.equal hooks (some a) (some b)) w
    (.boolean (Checked.order x y).isEq) := by
  have hsame : a = b → x = y := by
    rintro rfl
    simpa using ha.contents.symm.trans hb.contents
  have hanswer : (x == y) = (Checked.order x y).isEq := by
    rw [Bool.eq_iff_iff, beq_iff_eq, Ordering.isEq_iff_eq_eq, Std.LawfulEqCmp.compare_eq_iff_eq]
  obtain ⟨o, ho, huo, hx, -⟩ := ha.get
  obtain ⟨p, hp, hup, hy, -⟩ := hb.get
  refine Action.Arrives.eq_ok (.withRead ho huo fun l hl => ?_)
  obtain ⟨n, hp', hn⟩ := get?_lent_readable ho hp hl hup
  refine .withRead hp' hn fun m hm => ?_
  refine .bind (.of_ok (judge_of_integers hx hy hsame _) ?_)
  rw [hanswer]
  have houtcome : Verdict.outcome (σ := σ) id (.ofBool (Checked.order x y).isEq) =
      freshValue (.boolean (Checked.order x y).isEq) := by
    cases (Checked.order x y).isEq <;> rfl
  rw [houtcome]
  refine .of_ok (freshValue_eq rfl _) ⟨by simp, ?_⟩
  rw [World.endLoan_added hp' hm, World.endLoan_added ho hl]

theorem below_creates (hooks : Hooks σ) : Creates (Ref.below hooks (some a) (some b)) w
    (.boolean (Checked.order x y).isLT) := orderOutcome_creates ha hb hooks rfl

theorem atMost_creates (hooks : Hooks σ) : Creates (Ref.atMost hooks (some a) (some b)) w
    (.boolean (Checked.order x y).isLE) := orderOutcome_creates ha hb hooks rfl

theorem above_creates (hooks : Hooks σ) : Creates (Ref.above hooks (some a) (some b)) w
    (.boolean (Checked.order x y).isGT) := orderOutcome_creates ha hb hooks rfl

theorem atLeast_creates (hooks : Hooks σ) : Creates (Ref.atLeast hooks (some a) (some b)) w
    (.boolean (Checked.order x y).isGE) := orderOutcome_creates ha hb hooks rfl

theorem rank_creates (hooks : Hooks σ) : Creates (Ref.rank hooks (some a) (some b)) w
    (.integer (Checked.sign (Checked.order x y))) := orderOutcome_creates ha hb hooks rfl

/-- An integer is at most another one, as far as programs can tell, just if it is. -/
theorem atMost_creates_true_iff (hooks : Hooks σ) :
    Creates (Ref.atMost hooks (some a) (some b)) w (.boolean true) ↔
      (Checked.order x y).isLE = true := by
  constructor
  · intro h
    simpa using (atMost_creates ha hb hooks).unique h
  · intro h
    rw [← h]
    exact atMost_creates ha hb hooks

/-- The order is the sign of the difference, where there is one. -/
theorem sign_order_of_subtract {r : ObjId} {w' : World σ}
    (hrun : Ref.subtract hooks (some a) (some b) w = .ok (.success r) w') :
    ∃ d, w'.Numbered r d ∧ (Checked.sign (Checked.order x y)).toInt = d.toInt.sign := by
  obtain ⟨d, hd, hr, -⟩ := (subtract_reckons ha hb).of_run hrun
  refine ⟨d, hr, ?_⟩
  rw [hd, Checked.toInt_sign_order]

end Integers

/-! ## All together -/

/-- The five operations succeed together, on integers, and fail alike on anything else. -/
theorem orders_agree {verb : Binary} (hverb : verb ∈ Binary.orders) (hooks : Hooks σ)
    {p q : Payload} (ha : w.Open a) (hb : w.Open b) (hp : w.heap.contents a = some p)
    (hq : w.heap.contents b = some q) :
    (p.kind = .integer ∧ q.kind = .integer →
      ∃ w', verb.run hooks (some a) (some b) w = .ok (.success w.nextId) w') ∧
    (¬(p.kind = .integer ∧ q.kind = .integer) →
      verb.run hooks (some a) (some b) w =
        (withRead (some a) fun _ _ => withRead (some b) fun _ _ =>
          fail hooks (.unordered p.kind q.kind)) w ∧
      (verb.run hooks (some a) (some b)).Arrives w
        (fun outcome _ => outcome = .failure (.unordered p.kind q.kind)) fun _ =>
          ¬hooks.Returns) := by
  obtain ⟨answer, hanswer, hrun⟩ := Binary.run_eq_orderOutcome hverb
  rw [hrun]
  constructor
  · rintro ⟨hpk, hqk⟩
    cases p <;> cases hpk
    cases q <;> cases hqk
    exact ⟨_, orderOutcome_creates ⟨ha, hp⟩ ⟨hb, hq⟩ hooks (hanswer _)⟩
  · intro h
    obtain ⟨o, ho, huo⟩ := ha
    obtain ⟨u, hu, huu⟩ := hb
    obtain rfl := Heap.payload_of_contents ho hp
    obtain rfl := Heap.payload_of_contents hu hq
    have hsame : orderOutcome hooks answer (some a) (some b) w =
        (withRead (some a) fun _ _ => withRead (some b) fun _ _ =>
          fail hooks (.unordered o.kind u.kind)) w := orderOutcome_of_unordered ho hu huo huu h
    refine ⟨hsame, .of_eq ?_ hsame⟩
    exact .withOperands ho hu huo huu (fun _ _ _ _ => rfl) fun _ _ _ _ _ _ _ =>
      .fail_or_throws hooks _ _

/-- On integers to be at most something either way round is to be equal. -/
theorem atMost_antisymm_iff (ha : w.Numbered a x) (hb : w.Numbered b y) (hooks : Hooks σ) :
    Creates (Ref.atMost hooks (some a) (some b)) w (.boolean true) ∧
      Creates (Ref.atMost hooks (some b) (some a)) w (.boolean true) ↔
    Creates (Ref.equal hooks (some a) (some b)) w (.boolean true) := by
  have hequal := equal_creates ha hb hooks
  rw [atMost_creates_true_iff ha hb, atMost_creates_true_iff hb ha]
  constructor
  · rintro ⟨hle, hge⟩
    rwa [Std.OrientedCmp.isLE_antisymm hle hge] at hequal
  · intro h
    have heq : Checked.order x y = .eq := by simpa using hequal.unique h
    rw [Checked.order_swap y x, heq]
    exact ⟨rfl, rfl⟩

/-! ## The main result -/

/-- **The operations on order are one total order.** Let nobody write two objects. The five
    operations succeed just if both are integers, and otherwise all of them come to the same,
    a wrong type that names the kinds in order. Of two integers either one is below the
    other, or they are equal, or one is above the other, and never two of these. To be at
    most is not to be above, and to be at least not to be below; the number is `-1`, `0` or
    `1` by which of the three it is, and its opposite the other way round. To be at most
    something is transitive, and either way round it is to be equal. Where the difference of
    two integers is one, its sign is their order. -/
theorem order_total (hooks : Hooks σ) (w : World σ) :
    (∀ a b p q, w.Open a → w.Open b → w.heap.contents a = some p → w.heap.contents b = some q →
      ∀ cause, cause = Failure.unordered p.kind q.kind → ∀ verb ∈ Binary.orders,
        ((∃ r w', verb.run hooks (some a) (some b) w = .ok (.success r) w') ↔
          p.kind = .integer ∧ q.kind = .integer) ∧
        (p.kind = .integer ∧ q.kind = .integer →
          ∃ w', verb.run hooks (some a) (some b) w = .ok (.success w.nextId) w') ∧
        (¬(p.kind = .integer ∧ q.kind = .integer) →
          verb.run hooks (some a) (some b) w =
            (withRead (some a) fun _ _ => withRead (some b) fun _ _ => fail hooks cause) w ∧
          (verb.run hooks (some a) (some b)).Arrives w
            (fun outcome _ => outcome = .failure cause) fun _ => ¬hooks.Returns) ∧
        cause.kind? = some .wrongType ∧
        cause.message = Bytes.ofString "ordering not supported between instances of " ++
          Bytes.quoted p.kind.name ++ Bytes.ofString " and " ++ Bytes.quoted q.kind.name) ∧
    (∀ a b x y, w.Numbered a x → w.Numbered b y → ∃ lt eq gt : Bool, ∃ rank : Int32,
      lt.toNat + eq.toNat + gt.toNat = 1 ∧
      Creates (Ref.below hooks (some a) (some b)) w (.boolean lt) ∧
      Creates (Ref.equal hooks (some a) (some b)) w (.boolean eq) ∧
      Creates (Ref.above hooks (some a) (some b)) w (.boolean gt) ∧
      Creates (Ref.atMost hooks (some a) (some b)) w (.boolean !gt) ∧
      Creates (Ref.atLeast hooks (some a) (some b)) w (.boolean !lt) ∧
      Creates (Ref.rank hooks (some a) (some b)) w (.integer rank) ∧
      rank = (if lt then -1 else if eq then 0 else 1) ∧
      Creates (Ref.rank hooks (some b) (some a)) w (.integer (-rank)) ∧
      ∀ r w', Ref.subtract hooks (some a) (some b) w = .ok (.success r) w' →
        ∃ d, w'.Numbered r d ∧ rank.toInt = d.toInt.sign) ∧
    (∀ a b c x y z, w.Numbered a x → w.Numbered b y → w.Numbered c z →
      Creates (Ref.atMost hooks (some a) (some b)) w (.boolean true) →
      Creates (Ref.atMost hooks (some b) (some c)) w (.boolean true) →
      Creates (Ref.atMost hooks (some a) (some c)) w (.boolean true)) ∧
    ∀ a b x y, w.Numbered a x → w.Numbered b y →
      (Creates (Ref.atMost hooks (some a) (some b)) w (.boolean true) ∧
        Creates (Ref.atMost hooks (some b) (some a)) w (.boolean true) ↔
      Creates (Ref.equal hooks (some a) (some b)) w (.boolean true)) := by
  refine ⟨?_, ?_, ?_, fun a b x y ha hb => atMost_antisymm_iff ha hb hooks⟩
  · rintro a b p q ha hb hp hq cause rfl verb hverb
    obtain ⟨hsuccess, hfailure⟩ := orders_agree hverb hooks ha hb hp hq
    refine ⟨⟨?_, ?_⟩, hsuccess, hfailure, rfl, rfl⟩
    · rintro ⟨r, w', hrun⟩
      by_contra h
      cases (hfailure h).2.of_run hrun
    · intro h
      obtain ⟨w', hrun⟩ := hsuccess h
      exact ⟨_, w', hrun⟩
  · intro a b x y ha hb
    have hback := rank_creates hb ha hooks
    rw [Checked.order_swap y x, Checked.sign_swap] at hback
    refine ⟨_, _, _, _, ?_, below_creates ha hb hooks, equal_creates ha hb hooks,
      above_creates ha hb hooks, ?_, ?_, rank_creates ha hb hooks, ?_, hback,
      fun r w' => sign_order_of_subtract ha hb⟩
    · cases Checked.order x y <;> rfl
    · have h := atMost_creates ha hb hooks
      cases horder : Checked.order x y <;> rwa [horder] at h
    · have h := atLeast_creates ha hb hooks
      cases horder : Checked.order x y <;> rwa [horder] at h
    · cases Checked.order x y <;> rfl
  · intro a b c x y z ha hb hc hab hbc
    rw [atMost_creates_true_iff ha hb] at hab
    rw [atMost_creates_true_iff hb hc] at hbc
    rw [atMost_creates_true_iff ha hc]
    exact Std.TransCmp.isLE_trans hab hbc

/-- The least integer is at most `-1` and that at most zero, so the least is at most zero;
    its difference to `-1` is one that their order has the sign of; and None is in no order
    with zero, whichever way it is asked. -/
theorem order_total_edges :
    let least : ObjId := ⟨Heap.initial.size⟩
    let minusOne : ObjId := ⟨Heap.initial.size + 1⟩
    let zero : ObjId := ⟨Heap.initial.size + 2⟩
    Creates (Ref.atMost {} (some least) (some zero)) edges (.boolean true) ∧
    (∃ rank d : Int32, Creates (Ref.rank {} (some minusOne) (some least)) edges (.integer rank) ∧
      d.toInt = -1 - Int32.minValue.toInt ∧ rank.toInt = d.toInt.sign) ∧
    ∀ verb ∈ Binary.orders, ∃ w', verb.run {} (some noneId) (some zero) edges =
      .ok (.failure (.unordered .noneObject .integer)) w' := by
  intro least minusOne zero
  obtain ⟨hsuccess, htotal, htrans, -⟩ := order_total {} edges
  have hleast : edges.Numbered least Int32.minValue := ⟨⟨_, rfl, nofun⟩, rfl⟩
  have hone : edges.Numbered minusOne (-1) := ⟨⟨_, rfl, nofun⟩, rfl⟩
  have hzero : edges.Numbered zero 0 := ⟨⟨_, rfl, nofun⟩, rfl⟩
  refine ⟨htrans least minusOne zero _ _ _ hleast hone hzero rfl rfl, ?_, ?_⟩
  · obtain ⟨lt, eq, gt, rank, -, -, -, -, -, -, hrank, -, -, hsign⟩ := htotal minusOne least _ _
      hone hleast
    have hdifference : Reckons {} .subtract (Ref.subtract {} (some minusOne) (some least)) edges
        (-1 - Int32.minValue.toInt) := subtract_reckons hone hleast
    obtain ⟨d, hd, hrun⟩ := hdifference.success (by decide)
    obtain ⟨d', hd', hrank'⟩ := hsign _ _ hrun
    obtain ⟨d'', hd'', hnumbered, -⟩ := hdifference.of_run hrun
    have hsame : d' = d'' := by simpa using hd'.contents.symm.trans hnumbered.contents
    exact ⟨rank, d', hrank, hsame ▸ hd'', hrank'⟩
  · intro verb hverb
    obtain ⟨-, -, hfailure, -, -⟩ := hsuccess noneId zero .noneObject (.integer 0)
      ⟨_, rfl, nofun⟩ hzero.readable rfl rfl _ rfl verb hverb
    exact (hfailure (by decide)).2.failure nofun

end ValueEngine
