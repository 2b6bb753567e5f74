import Formula.Identifiers
import Formula.Proofs.Evaluation.Occurrence

/-!
# `Formula.Proofs.Evaluation.Extent`: how deep the walk over names goes

The walk over names keeps to the limit of depth of evaluation, but it goes over
the tree in its own way. It visits what an evaluation may leave out, and it
counts a member that is called as a level of its own, while an evaluation
counts it with the call. So a tree that no evaluation finds too deep may be too
deep for the walk over names.

* `Expr.Visits`: the parts of a tree that the walk over names visits. For the
  walk, a part is as deep as its path is long.
* `identifiersAt_neverOverflows`: if all of them are within the limit, and no
  argument of a lookup overflows, the walk does not overflow.
* `identifiersAt_alwaysFails`: if one of them is beyond the limit, no names are
  listed in any context.
* `readIdentifiers_overflows_deadOperand_methodChain_deadLookup`: the walk may be too
  deep on trees that no evaluation finds too deep, by a part that is never evaluated, by
  members that are called, and by a lookup that is never evaluated.
* `Expr.Overreaches`: beyond the limit the walk comes to a part that no
  evaluation of the tree evaluates, or to one that called members put there, or it
  evaluates an argument of a lookup that overflows by parts that are dead in the tree.
* `Expr.Overreaches.fails_or_lookedUp`: none of these exceptions is idle.
* `readIdentifiers_neverOverflows_of_evaluate`: apart from that, a tree that can be
  evaluated in every context has its names listed.
* `readIdentifiers_fails_negated`: not to overreach is not enough; what keeps the
  walk within its limit is that no evaluation overflows.
-/

set_option autoImplicit false

namespace Formula

variable {σ α β : Type} {h : Host σ}

/-! ### The parts that are visited -/

namespace Expr

/-- Whether the walk over names visits the part in a slot of a node. It leaves out
the test of a conditional, a property that is not computed, and a name that is
called. -/
def isVisited : Expr → Slot → Bool
  | .conditional _ _ _, .test => false
  | .member _ _ computed, .property => computed
  | .call callee _, .callee => !isName callee
  | _, _ => true

/-- The walk over the names of a tree visits the part at a path. -/
inductive Visits : Expr → List Slot → Expr → Prop where
  | here (e : Expr) : e.Visits [] e
  | part {e next target : Expr} {slot : Slot} {path : List Slot}
      (hnext : e.part? slot = some next) (hvisited : e.isVisited slot = true)
      (htarget : next.Visits path target) : e.Visits (slot :: path) target

/-- What the walk visits is a part of the tree. As an evaluation counts it is no
deeper than its path is long. -/
theorem Visits.occurs {e target : Expr} {path : List Slot} (hvisits : e.Visits path target) :
    ∃ depth ≤ path.length, e.Occurs path target depth := by
  induction hvisits with
  | here e => exact ⟨0, Nat.le_refl 0, .here e⟩
  | @part e next target slot path hnext _ _ ih =>
      obtain ⟨depth, hdepth, hoccurs⟩ := ih
      have hdeeper : depth + 1 ≤ (slot :: path).length := Nat.succ_le_succ hdepth
      rcases part?_cases hnext with hplain | ⟨object, property, computed, arguments, rfl, rfl, rfl⟩
      · exact ⟨depth + 1, hdeeper, hoccurs.part hnext hplain⟩
      · -- The member of a method call is no level of its own for an evaluation.
        exact ⟨depth, Nat.le_of_succ_le hdeeper, hoccurs.method⟩

/-- The walk over names stays within a limit in a tree that it meets at a depth: no
part that it visits is beyond the limit, and no argument of a lookup overflows, which
is evaluated as a tree of its own. -/
structure StaysWithin (e : Expr) (h : Host σ) (ctx : Context) (limit depth : Nat) : Prop where
  visited : ∀ ⦃path target⦄, e.Visits path target → depth + path.length < limit
  lookedUp : ∀ ⦃path first rest⦄,
    e.Visits path (.call (.identifier lookupFunction) (first :: rest)) →
    (evaluate h ctx defaultEvalDepth first).NeverOverflows

namespace StaysWithin

variable {e next : Expr} {ctx : Context} {limit depth : Nat}

/-- The tree itself is within the limit. -/
theorem depth_lt (he : e.StaysWithin h ctx limit depth) : depth < limit := he.visited (.here e)

/-- The walk meets the parts of a node one level deeper. -/
theorem part (he : e.StaysWithin h ctx limit depth) (slot : Slot)
    (hnext : e.part? slot = some next) (hvisited : e.isVisited slot = true) :
    next.StaysWithin h ctx limit (depth + 1) where
  visited path target htarget := by
    have hlt := he.visited (.part hnext hvisited htarget)
    rw [List.length_cons] at hlt
    omega
  lookedUp _ _ _ htarget := he.lookedUp (.part hnext hvisited htarget)

/-- The same of all parts in a list. -/
theorem each {es : List Expr} (he : e.StaysWithin h ctx limit depth)
    (hnext : ∀ i, e.part? (.element i) = es[i]?)
    (hvisited : ∀ i, e.isVisited (.element i) = true) :
    ∀ next ∈ es, next.StaysWithin h ctx limit (depth + 1) := by
  intro next hmem
  obtain ⟨i, hi⟩ := List.mem_iff_getElem?.1 hmem
  exact he.part (.element i) ((hnext i).trans hi) (hvisited i)

end StaysWithin

end Expr

/-! ### Walks within the limit -/

namespace Immediate.NeverOverflows

/-- A value by itself does not overflow. -/
theorem pure (a : α) : (Pure.pure a : Immediate h α).NeverOverflows := fun _ => id

/-- Two walks in a row do not overflow if neither does. -/
theorem bind {p : Immediate h α} {k : α → Immediate h β} (hp : p.NeverOverflows)
    (hk : ∀ a, (k a).NeverOverflows) : (p >>= k).NeverOverflows := by
  intro w
  have hfirst := hp w
  show ¬ Overflows (Immediate.andThen p k w).1
  unfold Immediate.andThen
  rcases hrun : p w with ⟨error | a, w₁⟩
  · rw [hrun] at hfirst
    exact hfirst
  · exact hk a w₁

/-- A level below the limit is entered. -/
theorem whileWithin {limit depth : Nat} {body : Immediate h (List String)} (hdepth : depth < limit)
    (hbody : body.NeverOverflows) : (whileWithin limit depth body).NeverOverflows := by
  intro w
  simpa only [Formula.whileWithin, hdepth, if_true] using hbody w

/-- Names listed one after the other. -/
theorem append {p q : Immediate h (List String)} (hp : p.NeverOverflows) (hq : q.NeverOverflows) :
    (do return (← p) ++ (← q) : Immediate h (List String)).NeverOverflows :=
  hp.bind fun _ => hq.bind fun _ => pure _

end Immediate.NeverOverflows

section

variable {ctx : Context} {limit : Nat}

/-- The name that makes a call a lookup. -/
theorem isLookup_iff {callee : Expr} :
    isLookup callee = true ↔ callee = .identifier lookupFunction := by
  cases callee <;> simp [isLookup]

mutual

/-- The walk over names does not overflow in a tree in which it stays within the
limit. -/
theorem identifiersAt_neverOverflows : (e : Expr) → {depth : Nat} →
    e.StaysWithin h ctx limit depth → (identifiersAt (h := h) ctx limit depth e).NeverOverflows
  | .literal _, _, he | .identifier _, _, he | .this, _, he | .unknown, _, he =>
      .whileWithin he.depth_lt (.pure _)
  | .array elements, _, he =>
      .whileWithin he.depth_lt
        (identifiersOfEach_neverOverflows elements (he.each (fun _ => rfl) fun _ => rfl))
  | .unary _ argument, _, he =>
      .whileWithin he.depth_lt
        (identifiersAt_neverOverflows argument (he.part .argument rfl rfl))
  | .binary _ left right, _, he | .logical _ left right, _, he => by
      have hleft := identifiersAt_neverOverflows left (he.part .left rfl rfl)
      have hright := identifiersAt_neverOverflows right (he.part .right rfl rfl)
      exact .whileWithin he.depth_lt (.append hleft hright)
  | .conditional _ consequent alternate, _, he => by
      have hconsequent := identifiersAt_neverOverflows consequent
        (he.part .consequent rfl rfl)
      have halternate := identifiersAt_neverOverflows alternate
        (he.part .alternate rfl rfl)
      exact .whileWithin he.depth_lt (.append hconsequent halternate)
  | .member object property computed, _, he => by
      have hobject := identifiersAt_neverOverflows object (he.part .object rfl rfl)
      cases computed with
      | false => exact .whileWithin he.depth_lt (hobject.bind fun _ => .pure _)
      | true =>
          have hproperty := identifiersAt_neverOverflows property
            (he.part .property (by cases property <;> rfl) rfl)
          exact .whileWithin he.depth_lt (.append hobject hproperty)
  | .call callee arguments, _, he => by
      have hnames := identifiersOfEach_neverOverflows arguments
        (he.each (fun _ => rfl) fun _ => rfl)
      rw [identifiersAt]
      refine .whileWithin he.depth_lt (hnames.bind fun names => ?_)
      -- What is called is visited last, and not at all if it is a name.
      split
      · rename_i hlookup
        obtain rfl := isLookup_iff.1 hlookup
        cases arguments with
        | nil => exact (Immediate.NeverOverflows.pure []).bind fun _ => .pure _
        | cons first rest =>
            have hfirst := he.lookedUp (.here _)
            exact (hfirst.bind fun _ => .pure _).bind fun _ => .pure _
      · split
        · exact .pure _
        · rename_i hname
          have hcallee := identifiersAt_neverOverflows callee
            (he.part .callee rfl (Bool.not_eq_true' _ ▸ Bool.eq_false_iff.2 hname))
          exact hcallee.bind fun _ => .pure _

/-- The trees of a list are all within the limit. -/
theorem identifiersOfEach_neverOverflows : (es : List Expr) → {depth : Nat} →
    (∀ e ∈ es, e.StaysWithin h ctx limit depth) →
    (identifiersOfEach (h := h) ctx limit depth es).NeverOverflows
  | [], _, _ => .pure []
  | e :: es, _, hes => by
      obtain ⟨he, hes⟩ := List.forall_mem_cons.1 hes
      exact .append (identifiersAt_neverOverflows e he) (identifiersOfEach_neverOverflows es hes)

end

end

/-! ### What a part beyond the limit does -/

/-- From no world does the evaluation have a value. -/
def Immediate.AlwaysFails (p : Immediate h α) : Prop := ∀ w a, (p w).1 ≠ .ok a

namespace Immediate.AlwaysFails

/-- A walk that fails at once fails with whatever follows. -/
theorem bind {p : Immediate h α} (hp : p.AlwaysFails) (k : α → Immediate h β) :
    (p >>= k).AlwaysFails := by
  intro w b
  have hfirst := hp w
  show (Immediate.andThen p k w).1 ≠ _
  unfold Immediate.andThen
  rcases hrun : p w with ⟨error | a, w₁⟩
  · exact nofun
  · rw [hrun] at hfirst
    exact absurd rfl (hfirst a)

/-- A walk that fails later fails as well. -/
theorem andThen (p : Immediate h α) {k : α → Immediate h β} (hk : ∀ a, (k a).AlwaysFails) :
    (p >>= k).AlwaysFails := by
  intro w b
  show (Immediate.andThen p k w).1 ≠ _
  unfold Immediate.andThen
  rcases p w with ⟨error | a, w₁⟩
  · exact nofun
  · exact hk a w₁ b

/-- A level is refused, or it fails inside. -/
theorem whileWithin {limit depth : Nat} {body : Immediate h (List String)}
    (hbody : depth < limit → body.AlwaysFails) : (whileWithin limit depth body).AlwaysFails := by
  intro w names
  unfold Formula.whileWithin
  split
  · exact hbody ‹_› w names
  · exact nofun

end Immediate.AlwaysFails

section

variable {ctx : Context} {limit depth : Nat}

/-- One of several trees has no names to list. -/
theorem identifiersOfEach_alwaysFails {e : Expr}
    (he : (identifiersAt (h := h) ctx limit depth e).AlwaysFails) {es : List Expr}
    (hmem : e ∈ es) : (identifiersOfEach (h := h) ctx limit depth es).AlwaysFails := by
  induction es with
  | nil => cases hmem
  | cons first es ih =>
      rw [identifiersOfEach]
      rcases List.mem_cons.1 hmem with rfl | hmem
      · exact he.bind _
      · exact .andThen _ fun _ => (ih hmem).bind _

/-- A call has no names to list if what is called has none, unless that is a name. -/
theorem identifiersAt_call_alwaysFails {callee : Expr} (arguments : List Expr)
    (hname : isName callee = false)
    (hcallee : (identifiersAt (h := h) ctx limit (depth + 1) callee).AlwaysFails) :
    (identifiersAt (h := h) ctx limit depth (.call callee arguments)).AlwaysFails := by
  have hlookup : isLookup callee = false := by
    cases callee <;> first | rfl | cases hname
  rw [identifiersAt]
  refine .whileWithin fun _ => .andThen _ fun names => ?_
  rw [if_neg (by rw [hlookup]; decide), if_neg (by rw [hname]; decide)]
  exact hcallee.bind _

/-- A node lists the names of a part that is visited with those of its other parts, or
fails before. So it has no names to list if the part has none. -/
theorem identifiersAt_part_alwaysFails {e next : Expr} {slot : Expr.Slot}
    (hnext : e.part? slot = some next) (hvisited : e.isVisited slot = true)
    (hpart : (identifiersAt (h := h) ctx limit (depth + 1) next).AlwaysFails) :
    (identifiersAt (h := h) ctx limit depth e).AlwaysFails := by
  -- Where a node has several parts, the walk comes to them in the order of the slots.
  cases e with
  | array elements =>
      cases slot with
      | element i =>
          exact .whileWithin fun _ =>
            identifiersOfEach_alwaysFails hpart (List.mem_of_getElem? hnext)
      | _ => cases hnext
  | unary operator argument =>
      cases slot <;> cases hnext
      exact .whileWithin fun _ => hpart
  | binary operator left right | logical operator left right =>
      cases slot <;> cases hnext
      · exact .whileWithin fun _ => hpart.bind _
      · exact .whileWithin fun _ => .andThen _ fun _ => hpart.bind _
  | conditional test consequent alternate =>
      cases slot <;> cases hnext
      · cases hvisited
      · exact .whileWithin fun _ => hpart.bind _
      · exact .whileWithin fun _ => .andThen _ fun _ => hpart.bind _
  | member object property computed =>
      cases slot with
      | object =>
          obtain rfl : object = next := Option.some.inj hnext
          exact .whileWithin fun _ => hpart.bind _
      | property =>
          obtain rfl : computed = true := hvisited
          simp only [Expr.part?, Option.ite_none_left_eq_some, Option.some.injEq] at hnext
          rw [hnext.2]
          exact .whileWithin fun _ => .andThen _ fun _ => hpart.bind _
      | _ => cases hnext
  | call callee arguments =>
      cases slot with
      | element i =>
          have hnames := identifiersOfEach_alwaysFails hpart (List.mem_of_getElem? hnext)
          exact .whileWithin fun _ => hnames.bind _
      | callee =>
          obtain rfl : callee = next := Option.some.inj hnext
          have hname : isName callee = false := by simpa [Expr.isVisited] using hvisited
          exact identifiersAt_call_alwaysFails arguments hname hpart
      | _ => cases hnext
  | literal value => cases hnext
  | identifier name => cases hnext
  | this => cases hnext
  | unknown => cases hnext

/-- A walk over names that visits a part beyond the limit lists no names, whatever the
context is. -/
theorem identifiersAt_alwaysFails {e target : Expr} {path : List Expr.Slot}
    (hvisits : e.Visits path target) (hbeyond : limit ≤ depth + path.length) :
    (identifiersAt (h := h) ctx limit depth e).AlwaysFails := by
  -- Down the path the depth goes up to the limit, where the part is refused.
  induction hvisits generalizing depth with
  | here e =>
      have hrefused : ¬ depth < limit := Nat.not_lt.2 hbeyond
      cases e <;> exact .whileWithin fun hdepth => absurd hdepth hrefused
  | part hnext hvisited _ ih =>
      rw [List.length_cons] at hbeyond
      exact identifiersAt_part_alwaysFails hnext hvisited (ih (by omega))

end

/-! ### Where the two differ -/

/-- A sum of sums, as many levels above its first operand as a number says. -/
def Expr.sums : Nat → Expr
  | 0 => .identifier "a"
  | n + 1 => .binary "+" (Expr.sums n) (.identifier "a")

/-- A sum that no evaluation comes to. -/
def Expr.deadOperand (n : Nat) : Expr := .logical "&&" (.literal (.bool false)) (.sums n)

/-- Methods called on the results of each other. -/
def Expr.methodChain : Nat → Expr
  | 0 => .identifier "a"
  | n + 1 => .call (.field (Expr.methodChain n) "f") []

/-- A choice by a sum. The walk over names leaves the sum out, as the test of a
conditional. -/
def Expr.sumTest (n : Nat) : Expr :=
  .conditional (.sums n) (.literal (.string "x")) (.literal (.string "y"))

/-- A lookup of such a choice, which no evaluation comes to. -/
def Expr.deadLookup (n : Nat) : Expr :=
  .logical "&&" (.literal (.bool false)) (.call (.identifier lookupFunction) [.sumTest n])

/-- From every world the evaluation overflows. -/
def Immediate.AlwaysOverflows (p : Immediate h α) : Prop := ∀ w, Overflows (p w).1

namespace Immediate.AlwaysOverflows

/-- What overflows at once overflows with whatever follows. -/
theorem bind {p : Immediate h α} (hp : p.AlwaysOverflows) (k : α → Immediate h β) :
    (p >>= k).AlwaysOverflows := by
  intro w
  have hfirst := hp w
  show Overflows (Immediate.andThen p k w).1
  unfold Immediate.andThen
  rcases hrun : p w with ⟨error | a, w₁⟩
  · rw [hrun] at hfirst
    exact hfirst
  · rw [hrun] at hfirst
    exact hfirst.elim

/-- Either the level is refused, or its body overflows. -/
theorem whileWithin {limit depth : Nat} {body : Immediate h (List String)}
    (hbody : depth < limit → body.AlwaysOverflows) :
    (whileWithin limit depth body).AlwaysOverflows := by
  intro w
  unfold Formula.whileWithin
  split
  · exact hbody ‹_› w
  · exact trivial

end Immediate.AlwaysOverflows

namespace Evaluator

variable {ctx : Context} {limit depth : Nat} {w : World σ} {halt : Halt}

/-- What fails one level deeper fails here. -/
theorem within_fails {p : Evaluator h α} (hdepth : depth < limit)
    (hp : (p ⟨depth + 1, w⟩).1 = .error halt) : (p.within limit ⟨depth, w⟩).1 = .error halt := by
  have hwithin : (p.within limit ⟨depth, w⟩).1 = (p ⟨depth + 1, w⟩).1 := by
    simp only [within, hdepth, if_true]
  rw [hwithin, hp]

/-- What fails at first fails with whatever follows. -/
theorem andThen_fails {p : Evaluator h α} {k : α → Evaluator h β} {s : Evaluator.State σ}
    (hp : (p s).1 = .error halt) : (andThen p k s).1 = .error halt := by
  unfold andThen
  rcases hrun : p s with ⟨halt' | a, s'⟩
  · rw [hrun] at hp
    exact congrArg Except.error (Except.error.inj hp)
  · rw [hrun] at hp
    cases hp

/-- An evaluation goes down to the first operand of a sum of sums. -/
theorem eval_sums_overflows (ctx : Context) (limit : Nat) (w : World σ) :
    (n depth : Nat) → limit ≤ depth + n →
      ∃ refused, (eval (h := h) ctx limit (.sums n) ⟨depth, w⟩).1
        = .error (.failed (.stackOverflow refused limit))
  | 0, depth, hlimit =>
      have hrefused : ¬ depth < limit := Nat.not_lt.2 hlimit
      ⟨depth, congrArg Prod.fst (if_neg hrefused)⟩
  | n + 1, depth, hlimit => by
      by_cases hdepth : depth < limit
      · obtain ⟨refused, hsums⟩ := eval_sums_overflows ctx limit w n (depth + 1) (by omega)
        exact ⟨refused, within_fails hdepth (andThen_fails hsums)⟩
      · exact ⟨depth, congrArg Prod.fst (if_neg hdepth)⟩

end Evaluator

section

variable (ctx : Context) (limit : Nat)

/-- A choice is evaluated from its test on. -/
theorem evaluate_sumTest_overflows {n : Nat} (hlimit : limit ≤ 1 + n) :
    (evaluate h ctx limit (.sumTest n)).AlwaysOverflows := by
  intro w
  have hchoice : ∃ refused, (Evaluator.eval (h := h) ctx limit (.sumTest n) ⟨0, w⟩).1
      = .error (.failed (.stackOverflow refused limit)) := by
    by_cases hnone : limit = 0
    · subst hnone
      exact ⟨0, rfl⟩
    · obtain ⟨refused, htest⟩ := Evaluator.eval_sums_overflows (h := h) ctx limit w n 1 hlimit
      exact ⟨refused, Evaluator.within_fails (by omega) (Evaluator.andThen_fails htest)⟩
  obtain ⟨refused, hchoice⟩ := hchoice
  unfold evaluate Evaluator.start
  simp only [hchoice]
  exact trivial

/-- The walk over names goes down to the first operand. -/
theorem identifiersAt_sums_overflows : (n depth : Nat) → limit ≤ depth + n →
    (identifiersAt (h := h) ctx limit depth (.sums n)).AlwaysOverflows
  | 0, _, hlimit => .whileWithin fun hdepth => absurd hdepth (Nat.not_lt.2 hlimit)
  | n + 1, depth, hlimit => .whileWithin fun _ =>
      (identifiersAt_sums_overflows n (depth + 1) (by omega)).bind _

/-- A constant has no names. -/
theorem identifiersAt_literal {depth : Nat} (hdepth : depth < limit) (value : Literal) :
    identifiersAt (h := h) ctx limit depth (.literal value) = pure [] :=
  funext fun _ => if_pos hdepth

/-- The walk over names visits an operand that no evaluation comes to. -/
theorem identifiersAt_deadOperand_overflows (n depth : Nat) (hlimit : limit ≤ depth + 1 + n) :
    (identifiersAt (h := h) ctx limit depth (.deadOperand n)).AlwaysOverflows := by
  have hright := identifiersAt_sums_overflows (h := h) ctx limit n (depth + 1) hlimit
  rw [Expr.deadOperand, identifiersAt]
  refine .whileWithin fun _ => ?_
  -- The left operand is a level of its own, and has no names.
  by_cases hdepth : depth + 1 < limit
  · rw [identifiersAt_literal ctx limit hdepth]
    exact hright.bind fun more => pure ([] ++ more)
  · exact .bind (.whileWithin fun hlt => absurd hlt hdepth) _

/-- The walk over names counts each call and each member that is called. -/
theorem identifiersAt_methodChain_overflows : (n depth : Nat) → limit ≤ depth + 2 * n →
    (identifiersAt (h := h) ctx limit depth (.methodChain n)).AlwaysOverflows
  | 0, _, hlimit => .whileWithin fun hdepth => absurd hdepth (Nat.not_lt.2 hlimit)
  | n + 1, depth, hlimit => by
      have hobject := identifiersAt_methodChain_overflows n (depth + 2) (by omega)
      have hcallee : (identifiersAt (h := h) ctx limit (depth + 1)
          (.field (.methodChain n) "f")).AlwaysOverflows := .whileWithin fun _ => hobject.bind _
      -- There are no arguments, so that the walk begins with what is called.
      have hcall : (pure [] >>= fun names => identifiersAt (h := h) ctx limit (depth + 1)
          (.field (.methodChain n) "f") >>= fun more => pure (names ++ more)).AlwaysOverflows :=
        hcallee.bind fun more => pure ([] ++ more)
      exact .whileWithin fun _ => hcall

/-- The walk over names evaluates the argument of a lookup that no evaluation comes to. -/
theorem identifiersAt_deadLookup_overflows {n depth : Nat} (hdepth : depth + 3 < limit)
    (hn : defaultEvalDepth ≤ 1 + n) :
    (identifiersAt (h := h) ctx limit depth (.deadLookup n)).AlwaysOverflows := by
  have hlookedUp : (lookedUp (h := h) ctx [.sumTest n]).AlwaysOverflows :=
    (evaluate_sumTest_overflows ctx defaultEvalDepth hn).bind _
  -- Both sides of the choice are constants, and its test is not visited.
  have hnames : identifiersOfEach (h := h) ctx limit (depth + 2) [.sumTest n] = pure [] := by
    have hchoice : identifiersAt (h := h) ctx limit (depth + 2) (.sumTest n) = pure [] := by
      rw [Expr.sumTest, identifiersAt, identifiersAt_literal ctx limit hdepth,
        identifiersAt_literal ctx limit hdepth]
      exact funext fun _ => if_pos (by omega)
    rw [identifiersOfEach, hchoice]
    rfl
  rw [Expr.deadLookup, identifiersAt, identifiersAt_literal ctx limit (by omega), identifiersAt,
    hnames]
  have hcall : (pure [] >>= fun names => lookedUp (h := h) ctx [.sumTest n] >>= fun more =>
      pure (names ++ more)).AlwaysOverflows := hlookedUp.bind fun more => pure ([] ++ more)
  have hright : (whileWithin limit (depth + 1) (pure [] >>= fun names =>
      lookedUp (h := h) ctx [.sumTest n] >>= fun more => pure (names ++ more))).AlwaysOverflows :=
    .whileWithin fun _ => hcall
  exact .whileWithin fun _ => hright.bind fun more => pure ([] ++ more)

end

/-- A called member is no level of its own. -/
theorem Expr.height_methodChain : (n : Nat) → (Expr.methodChain n).height = n + 1
  | 0 => rfl
  | n + 1 => by
      have ih := Expr.height_methodChain n
      simp only [Expr.methodChain, Expr.field, Expr.height, Expr.heightOfEach, ih]
      omega

/-- A tree that no evaluation finds too deep, but the walk over its names does, in every
context. -/
structure Expr.WalksTooDeep (e : Expr) : Prop where
  evaluated : ∀ {σ : Type} (h : Host σ) (ctx : Context), h.NeverOverflows →
    (evaluate h ctx defaultEvalDepth e).NeverOverflows
  listed : ∀ {σ : Type} (h : Host σ) (ctx : Context), (readIdentifiers h ctx e).AlwaysOverflows

namespace Expr.WalksTooDeep

/-- No evaluation comes to the operand. -/
theorem deadOperand {n : Nat} (hn : defaultEvalDepth ≤ 1 + n) :
    (Expr.deadOperand n).WalksTooDeep where
  evaluated _ _ _ _ := id
  listed _ ctx := identifiersAt_deadOperand_overflows ctx defaultEvalDepth n 0 (by omega)

/-- No evaluation counts the members that are called. -/
theorem methodChain {n : Nat} (hn : n < defaultEvalDepth) (hn' : defaultEvalDepth ≤ 2 * n) :
    (Expr.methodChain n).WalksTooDeep where
  evaluated _ ctx hh w := by
    have hheight : (Expr.methodChain n).height ≤ defaultEvalDepth :=
      Expr.height_methodChain n ▸ hn
    exact (Expr.not_overflows_of_height_le hh ctx hheight w).1
  listed _ ctx := identifiersAt_methodChain_overflows ctx defaultEvalDepth n 0 (by omega)

/-- No evaluation comes to the lookup. -/
theorem deadLookup {n : Nat} (hn : defaultEvalDepth ≤ 1 + n) :
    (Expr.deadLookup n).WalksTooDeep where
  evaluated _ _ _ _ := id
  listed _ ctx := identifiersAt_deadLookup_overflows ctx defaultEvalDepth (by decide) hn

end Expr.WalksTooDeep

/-- A sum of 128 names that no evaluation comes to, 64 methods called one after the
other, and a lookup that no evaluation comes to, by a choice with such a sum for its
test: in no context do they overflow, and already in an empty one their names cannot be
listed. -/
theorem readIdentifiers_overflows_deadOperand_methodChain_deadLookup :
    (Registry.host #[]).NeverOverflows ∧
    ∀ e ∈ [Expr.deadOperand 127, .methodChain 64, .deadLookup 127],
      (∀ {σ : Type} (h : Host σ) (ctx : Context), h.NeverOverflows →
        (evaluate h ctx defaultEvalDepth e).NeverOverflows) ∧
      (readIdentifiers (Registry.host #[]) ⟨⟨0, []⟩, none⟩ e).AlwaysOverflows := by
  -- The walk over names is not run on these trees: it is known from the general statements.
  have htrees : ∀ e ∈ [Expr.deadOperand 127, .methodChain 64, .deadLookup 127], e.WalksTooDeep :=
    List.forall_mem_cons.2 ⟨.deadOperand (by decide), List.forall_mem_cons.2
      ⟨.methodChain (by decide) (by decide), List.forall_mem_singleton.2 (.deadLookup (by decide))⟩⟩
  exact ⟨Registry.neverOverflows #[], fun e he =>
    ⟨(htrees e he).evaluated, (htrees e he).listed (Registry.host #[]) ⟨⟨0, []⟩, none⟩⟩⟩

/-! ### Where the walk overreaches -/

/-- Beyond the limit the walk over names comes to what no evaluation comes to there. -/
inductive Expr.Overreaches (root : Expr) (limit : Nat) : Prop where
  /-- it visits a part that is dead: no evaluation of the tree evaluates it -/
  | dead {target : Expr} {path : List Slot} (hvisits : root.Visits path target)
      (hbeyond : limit ≤ path.length) (hdead : ¬ root.IsLive path)
  /-- it visits a part that is beyond the limit only because a called member is a level
  to the walk -/
  | called {target : Expr} {path : List Slot} {depth : Nat} (hvisits : root.Visits path target)
      (hbeyond : limit ≤ path.length) (hoccurs : root.Occurs path target depth)
      (hwithin : depth < limit)
  /-- it evaluates the argument of a lookup, which overflows as a tree of its own, while
  all parts of it that are so deep are dead in the tree -/
  | lookedUp {first : Expr} {rest : List Expr} {path : List Slot} {σ : Type} {h : Host σ}
      {ctx : Context} {w : World σ}
      (hvisits : root.Visits path (.call (.identifier lookupFunction) (first :: rest)))
      (hh : h.NeverOverflows) (hover : Overflows (evaluate h ctx limit first w).1)
      (hdead : ∀ {path' target depth}, first.Occurs path' target depth → limit ≤ depth →
        ¬ root.IsLive (path ++ .element 0 :: path'))

namespace Expr

/-- A list is as high as its highest tree. -/
theorem height_le_heightOfEach {e : Expr} {es : List Expr} (he : e ∈ es) :
    e.height ≤ heightOfEach es := by
  induction he with
  | head es => exact Nat.le_max_left _ _
  | tail _ _ ih => exact Nat.le_trans ih (Nat.le_max_right _ _)

/-- A call is higher than its arguments. -/
theorem heightOfEach_lt_call (callee : Expr) (arguments : List Expr) :
    heightOfEach arguments < (call callee arguments).height := by
  cases callee <;> simp only [height] <;> omega

/-- A part is less high than its node, but for a member that is called. -/
theorem height_lt_of_part? {e next : Expr} {slot : Slot} (hnext : e.part? slot = some next)
    (hplain : slot = .callee → next.isMember = false) : next.height < e.height := by
  have harguments : ∀ {callee : Expr} {arguments : List Expr}, next ∈ arguments →
      next.height < (call callee arguments).height := fun hmem =>
    Nat.lt_of_le_of_lt (height_le_heightOfEach hmem) (heightOfEach_lt_call _ _)
  -- Slot by slot. A member that is called has no level of its own, and is the exception in the
  -- statement.
  cases e with
  | array elements =>
      cases slot with
      | element i =>
          have hle := height_le_heightOfEach (List.mem_of_getElem? hnext)
          rw [height]
          omega
      | _ => cases hnext
  | call callee arguments =>
      cases slot with
      | element i => exact harguments (List.mem_of_getElem? hnext)
      | callee =>
          obtain rfl : callee = next := Option.some.inj hnext
          cases callee with
          | member object property computed => cases hplain rfl
          | _ =>
              simp only [height]
              omega
      | _ => cases hnext
  | member object property computed =>
      cases slot with
      | object =>
          obtain rfl : object = next := Option.some.inj hnext
          rw [height]
          omega
      | property =>
          simp only [part?, Option.ite_none_left_eq_some, Option.some.injEq] at hnext
          rw [height, hnext.2]
          omega
      | _ => cases hnext
  | unary operator argument | binary operator left right | logical operator left right
  | conditional test consequent alternate =>
      cases slot <;> cases hnext <;> rw [height] <;> omega
  | literal value => cases hnext
  | identifier name => cases hnext
  | this => cases hnext
  | unknown => cases hnext

/-- Every tree has a level. -/
theorem height_pos (e : Expr) : 0 < e.height := by
  cases e with
  | call callee arguments => exact Nat.zero_lt_of_lt (heightOfEach_lt_call callee arguments)
  | _ =>
      rw [height]
      omega

/-- At a depth there is no more than what is left of the height. -/
theorem Occurs.height_le {e target : Expr} {path : List Slot} {depth : Nat}
    (hoccurs : e.Occurs path target depth) : depth + target.height ≤ e.height := by
  induction hoccurs with
  | here e => exact Nat.le_of_eq (Nat.zero_add _)
  | part hnext hplain _ ih =>
      have hlt := height_lt_of_part? hnext hplain
      omega
  | method _ ih =>
      simp only [height] at ih ⊢
      omega

/-- The walk goes at most twice as deep: of the two levels that it may count for one of
an evaluation, the second is a member. -/
theorem Visits.length_lt {e target : Expr} {path : List Slot} (hvisits : e.Visits path target) :
    path.length + e.belowCallee < 2 * e.height := by
  have hbelow : ∀ e : Expr, e.belowCallee ≤ 1 := by
    intro e
    unfold belowCallee
    split <;> omega
  -- Along a path, two steps at a callee that is a member make up for the one level they share.
  induction hvisits with
  | here e =>
      have hpos := e.height_pos
      have hone := hbelow e
      rw [List.length_nil]
      omega
  | @part e next target slot path hnext _ _ ih =>
      have hone := hbelow e
      rw [List.length_cons]
      rcases part?_cases hnext with hplain | ⟨object, property, computed, arguments, rfl, rfl, rfl⟩
      · have hlt := height_lt_of_part? hnext hplain
        omega
      · simp only [height, belowCallee, isMember, if_true] at ih ⊢
        simp only [Bool.false_eq_true, if_false]
        omega

/-- The walk over the names of a tree that is half as high as the limit does not
overreach. -/
theorem not_overreaches_of_height_le {e : Expr} {limit : Nat} (hheight : 2 * e.height ≤ limit) :
    ¬ e.Overreaches limit := by
  -- No path is as long as the limit, so no part lies beyond it.
  have hlength : ∀ {path : List Slot} {target : Expr}, e.Visits path target →
      path.length < limit := by
    intro path target hvisits
    have hlt := hvisits.length_lt
    omega
  rintro (⟨hvisits, hbeyond, -⟩ | ⟨hvisits, hbeyond, -, -⟩ | @⟨first, rest, path, σ, h, ctx, w,
    hvisits, hh, hover, -⟩)
  · exact absurd (hlength hvisits) (Nat.not_lt.2 hbeyond)
  · exact absurd (hlength hvisits) (Nat.not_lt.2 hbeyond)
  · -- The argument is less high than the tree, and so its evaluation does not overflow.
    obtain ⟨depth, -, hoccurs⟩ := hvisits.occurs
    have hheight' := hoccurs.height_le
    have hpart : (call (.identifier lookupFunction) (first :: rest)).part? (.element 0)
        = some first := rfl
    have hfirst := height_lt_of_part? hpart nofun
    exact (not_overflows_of_height_le hh ctx (by omega) w).1 hover

end Expr

/-- None of the exceptions is idle. Beyond the limit the walk lists no names in any
context, and where it overreaches by a lookup it evaluates an argument that overflows. -/
theorem Expr.Overreaches.fails_or_lookedUp {e : Expr} (hreach : e.Overreaches defaultEvalDepth) :
    (∀ {σ : Type} (h : Host σ) (ctx : Context), (readIdentifiers h ctx e).AlwaysFails) ∨
    ∃ (path : List Slot) (first : Expr) (rest : List Expr) (σ : Type) (h : Host σ) (ctx : Context)
      (w : World σ), e.Visits path (.call (.identifier lookupFunction) (first :: rest)) ∧
        h.NeverOverflows ∧ Overflows (evaluate h ctx defaultEvalDepth first w).1 := by
  have hfails : ∀ {path : List Slot} {target : Expr}, e.Visits path target →
      defaultEvalDepth ≤ path.length →
      ∀ {σ : Type} (h : Host σ) (ctx : Context), (readIdentifiers h ctx e).AlwaysFails :=
    fun hvisits hbeyond _ _ _ => identifiersAt_alwaysFails hvisits (by omega)
  cases hreach with
  | dead hvisits hbeyond _ => exact .inl (hfails hvisits hbeyond)
  | called hvisits hbeyond _ _ => exact .inl (hfails hvisits hbeyond)
  | lookedUp hvisits hh hover _ => exact .inr ⟨_, _, _, _, _, _, _, hvisits, hh, hover⟩

/-! ### Where the two agree -/

/-- If no evaluation of a tree overflows, the walk over its names stays within the
limit unless it overreaches. -/
theorem Expr.staysWithin_of_evaluate {e : Expr}
    (hnever : ∀ {σ : Type} (h : Host σ) (ctx : Context), h.NeverOverflows →
      (evaluate h ctx defaultEvalDepth e).NeverOverflows)
    (hreach : ¬ e.Overreaches defaultEvalDepth) (hh : h.NeverOverflows) (ctx : Context) :
    e.StaysWithin h ctx defaultEvalDepth 0 := by
  constructor
  · intro path target hvisits
    by_contra hbeyond
    obtain ⟨depth, -, hoccurs⟩ := hvisits.occurs
    -- The part is live, and so an evaluation meets it within the limit.
    have hlive : e.IsLive path := by
      by_contra hdead
      exact hreach (.dead hvisits (by omega) hdead)
    exact hreach (.called hvisits (by omega) hoccurs (hlive.depth_lt hoccurs hnever))
  · intro path first rest hvisits w hover
    refine hreach (.lookedUp hvisits hh hover fun htarget hbeyond hlive => ?_)
    -- In the tree the parts of the argument are deeper still than in the argument.
    obtain ⟨depth, -, hoccurs⟩ := hvisits.occurs
    have hfirst : (Expr.call (.identifier lookupFunction) (first :: rest)).part? (.element 0)
        = some first := rfl
    have hlt := hlive.depth_lt (hoccurs.append (.part hfirst nofun htarget)) hnever
    omega

/-- If no evaluation of a tree overflows, its names can be listed in every context
without an overflow, unless the walk over them comes, beyond the limit, to a part that
is dead or that only called members put there, or evaluates for a lookup what is dead. -/
theorem readIdentifiers_neverOverflows_of_evaluate {e : Expr}
    (hnever : ∀ {σ : Type} (h : Host σ) (ctx : Context), h.NeverOverflows →
      (evaluate h ctx defaultEvalDepth e).NeverOverflows)
    (hreach : ¬ e.Overreaches defaultEvalDepth)
    {σ : Type} {h : Host σ} (hh : h.NeverOverflows) (ctx : Context) :
    (readIdentifiers h ctx e).NeverOverflows :=
  identifiersAt_neverOverflows e (Expr.staysWithin_of_evaluate hnever hreach hh ctx)

/-- A method is called on a value that is looked up. -/
theorem readIdentifiers_neverOverflows_of_evaluate_lookedUp :
    let e : Expr :=
      .call (.field (.call (.identifier lookupFunction) [.literal (.string "x")]) "f") []
    e.height = 3 ∧ ¬ e.Overreaches defaultEvalDepth ∧
    ∀ (r : Registry) (ctx : Context), (readIdentifiers r.host ctx e).NeverOverflows := by
  intro e
  have hheight : e.height = 3 := by rfl
  have hreach : ¬ e.Overreaches defaultEvalDepth :=
    Expr.not_overreaches_of_height_le (hheight ▸ by decide)
  refine ⟨hheight, hreach, fun r ctx => ?_⟩
  refine readIdentifiers_neverOverflows_of_evaluate (fun h ctx hh w => ?_) hreach
    (Registry.neverOverflows r) ctx
  exact (e.not_overflows_of_height_le hh ctx (hheight ▸ by decide) w).1

/-! ### A tree that is too deep for both -/

/-- A value with minus signs before it. -/
def Expr.negated : Nat → Expr
  | 0 => .this
  | n + 1 => .unary "-" (Expr.negated n)

namespace Evaluator

variable {ctx : Context} {limit depth : Nat} {w : World σ} {halt : Halt}

/-- A trap fails wherever it is not refused. -/
theorem eval_trap {operator : String}
    (hoperator : unaryOperator operator = .error (.unknownOperator operator))
    (hdepth : depth < limit) :
    (eval (h := h) ctx limit (.trap operator) ⟨depth, w⟩).1
      = .error (.failed (.unknownOperator operator)) := by
  refine within_fails hdepth ?_
  rw [hoperator]
  rfl

/-- A minus sign fails with what its operand fails with. -/
theorem eval_negated_fails {e : Expr} (hdepth : depth < limit)
    (he : (eval (h := h) ctx limit e ⟨depth + 1, w⟩).1 = .error halt) :
    (eval (h := h) ctx limit (.unary "-" e) ⟨depth, w⟩).1 = .error halt :=
  within_fails hdepth
    (show (andThen (eval ctx limit e) _ ⟨depth + 1, w⟩).1 = _ from andThen_fails he)

end Evaluator

namespace Expr

variable {limit depth n : Nat} {target : Expr} {path : List Slot}

/-- Each part of a value with minus signs before it is evaluated. -/
theorem eval_negated_replace {operator : String}
    (hoperator : unaryOperator operator = .error (.unknownOperator operator)) (ctx : Context)
    (hvisits : (negated n).Visits path target) (hlimit : depth + n < limit) (w : World σ) :
    (Evaluator.eval (h := h) ctx limit ((negated n).replace path (trap operator)) ⟨depth, w⟩).1
      = .error (.failed (.unknownOperator operator)) := by
  have hlt : depth < limit := by omega
  -- Sign by sign: the trap stands at the end of the path, and a sign over it fails as it does.
  induction n generalizing depth path with
  | zero =>
      cases path with
      | nil => exact Evaluator.eval_trap hoperator hlt
      | cons slot path =>
          cases hvisits with
          | part hnext => cases hnext
  | succ n ih =>
      cases path with
      | nil => exact Evaluator.eval_trap hoperator hlt
      | cons slot path =>
          cases hvisits with
          | part hnext _ htarget =>
              cases slot <;> cases hnext
              exact Evaluator.eval_negated_fails hlt (ih htarget (by omega) (by omega))

/-- As an evaluation counts, such a part is as deep as its path is long. -/
theorem Occurs.eq_length_of_negated {depth : Nat} (hoccurs : (negated n).Occurs path target depth) :
    depth = path.length := by
  -- A sign has one part, and that is one level deeper.
  induction n generalizing depth path with
  | zero =>
      cases hoccurs with
      | here => rfl
      | part hnext => cases hnext
  | succ n ih =>
      cases path with
      | nil =>
          cases hoccurs
          rfl
      | cons slot path =>
          cases hoccurs with
          | part hnext _ htarget =>
              cases slot <;> cases hnext
              rw [ih htarget, List.length_cons]

/-- Below signs there is no call. -/
theorem Visits.ne_call_of_negated (hvisits : (negated n).Visits path target) (callee : Expr)
    (arguments : List Expr) : target ≠ .call callee arguments := by
  -- The path leads down the signs to the literal.
  induction n generalizing path with
  | zero =>
      cases hvisits with
      | here => exact nofun
      | part hnext => cases hnext
  | succ n ih =>
      cases path with
      | nil =>
          cases hvisits
          exact nofun
      | cons slot path =>
          cases hvisits with
          | part hnext _ htarget =>
              cases slot <;> cases hnext
              exact ih htarget

/-- Signs over a literal do not overreach any limit: each part is evaluated,
on the level that the walk has for it. -/
theorem not_overreaches_negated (n limit : Nat) : ¬ (negated n).Overreaches limit := by
  rintro (⟨hvisits, -, hdead⟩ | ⟨-, hbeyond, hoccurs, hwithin⟩ | ⟨hvisits, -, -, -⟩)
  -- Under a limit high enough the evaluation fails at the trap, so the part is alive.
  · refine hdead ⟨_, Registry.host #[], ⟨⟨0, []⟩, none⟩, n + 1, ⟨⟨1, []⟩, #[]⟩,
      Registry.neverOverflows _, fun operator hoperator => ?_⟩
    have hlimit : 0 + n < n + 1 := by omega
    have hfails := eval_negated_replace (h := Registry.host #[]) hoperator ⟨⟨0, []⟩, none⟩ hvisits
      hlimit ⟨⟨1, []⟩, #[]⟩
    show Except.mapError Halt.error _ = _
    rw [hfails]
    rfl
  · rw [hoccurs.eq_length_of_negated] at hwithin
    omega
  · exact hvisits.ne_call_of_negated _ _ rfl

end Expr

/-- A value with as many minus signs before it as there are levels is too deep for the
walk over its names, and the walk does not overreach: each part is live, and no member
is called. So it takes the evaluations of the tree to keep the walk within its limit. -/
theorem readIdentifiers_fails_negated {n : Nat} (hn : defaultEvalDepth ≤ n) :
    ¬ (Expr.negated n).Overreaches defaultEvalDepth ∧
    ∀ {σ : Type} (h : Host σ) (ctx : Context),
      (readIdentifiers h ctx (.negated n)).AlwaysFails := by
  have hvisits : ∀ n, ∃ path target, path.length = n ∧ (Expr.negated n).Visits path target := by
    intro n
    induction n with
    | zero => exact ⟨[], _, rfl, .here _⟩
    | succ n ih =>
        obtain ⟨path, target, hlength, htarget⟩ := ih
        exact ⟨.argument :: path, target, congrArg (· + 1) hlength, .part rfl rfl htarget⟩
  obtain ⟨path, target, hlength, htarget⟩ := hvisits n
  exact ⟨Expr.not_overreaches_negated n _, fun h ctx =>
    identifiersAt_alwaysFails htarget (by omega)⟩

end Formula
