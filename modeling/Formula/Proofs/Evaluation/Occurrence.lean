import Mathlib.Tactic.ByContra
import Formula.Proofs.Evaluation.Limit

/-!
# `Formula.Proofs.Evaluation.Occurrence`: the parts that are evaluated

A part of a tree is known by the path of slots that leads to it: the same
subtree in two places is two parts. Whether an evaluation evaluates a part is
seen by putting something in its place that fails as soon as it is evaluated.

* `Expr.Occurs`: a part at a path, with its depth as an evaluation counts it. A
  member that is called is as deep as its call.
* `Expr.replace`: a tree with something else in the place of a part.
* `Expr.IsLive`: some evaluation of the tree evaluates the part.
* `Evaluator.eval_replace`: under a limit that is not above the depth of a part
  it does not matter what stands there. This is shown slot by slot.
* `Expr.IsLive.depth_lt`: in a tree of which no evaluation overflows all live
  parts are within the limit.
-/

set_option autoImplicit false

namespace Formula

variable {σ α β : Type} {h : Host σ}

/-! ### Parts and their places -/

namespace Expr

/-- Where a part stands right below its node. -/
inductive Slot where
  /-- an element of an array, or an argument of a call -/
  | element (index : Nat)
  | argument
  | left
  | right
  | test
  | consequent
  | alternate
  | object
  | property
  | callee
deriving DecidableEq

/-- Whether a tree is a member expression. -/
def isMember : Expr → Bool
  | .member _ _ _ => true
  | _ => false

/-- How much deeper than a callee it is met what it begins with: a member that is called
is as deep as its call, and so its object is one level below it. -/
def belowCallee (e : Expr) : Nat := if e.isMember then 1 else 0

/-- The part of a tree in a slot. The name of a static member is no part: it is
never evaluated. -/
def part? : Expr → Slot → Option Expr
  | .array elements, .element i => elements[i]?
  | .unary _ argument, .argument => some argument
  | .binary _ left _, .left => some left
  | .binary _ _ right, .right => some right
  | .logical _ left _, .left => some left
  | .logical _ _ right, .right => some right
  | .conditional test _ _, .test => some test
  | .conditional _ consequent _, .consequent => some consequent
  | .conditional _ _ alternate, .alternate => some alternate
  | .member object _ _, .object => some object
  | .member _ property computed, .property =>
    if (property.staticName? computed).isSome then none else some property
  | .call callee _, .callee => some callee
  | .call _ arguments, .element i => arguments[i]?
  | _, _ => none

/-- The tree with another part in a slot. -/
def put : Expr → Slot → Expr → Expr
  | .array elements, .element i, part => .array (elements.set i part)
  | .unary operator _, .argument, part => .unary operator part
  | .binary operator _ right, .left, part => .binary operator part right
  | .binary operator left _, .right, part => .binary operator left part
  | .logical operator _ right, .left, part => .logical operator part right
  | .logical operator left _, .right, part => .logical operator left part
  | .conditional _ consequent alternate, .test, part => .conditional part consequent alternate
  | .conditional test _ alternate, .consequent, part => .conditional test part alternate
  | .conditional test consequent _, .alternate, part => .conditional test consequent part
  | .member _ property computed, .object, part => .member part property computed
  | .member object _ computed, .property, part => .member object part computed
  | .call _ arguments, .callee, part => .call part arguments
  | .call callee arguments, .element i, part => .call callee (arguments.set i part)
  | e, _, _ => e

/-- The tree with something else in the place that a path leads to. -/
def replace : Expr → List Slot → Expr → Expr
  | _, [], other => other
  | e, slot :: path, other =>
    match e.part? slot with
    | some part => e.put slot (part.replace path other)
    | none => e

/-- A tree has a part at a path, at a depth below its root as an evaluation
counts it. -/
inductive Occurs : Expr → List Slot → Expr → Nat → Prop where
  | here (e : Expr) : e.Occurs [] e 0
  | part {e next target : Expr} {slot : Slot} {path : List Slot} {depth : Nat}
      (hnext : e.part? slot = some next) (hplain : slot = .callee → next.isMember = false)
      (htarget : next.Occurs path target depth) : e.Occurs (slot :: path) target (depth + 1)
  /-- a member that is called is no level of its own -/
  | method {object property target : Expr} {computed : Bool} {arguments : List Expr}
      {path : List Slot} {depth : Nat}
      (htarget : (Expr.member object property computed).Occurs path target depth) :
      (Expr.call (.member object property computed) arguments).Occurs (.callee :: path) target depth

/-- A part is one level below its node, unless it is the member of a method call. -/
theorem part?_cases {e next : Expr} {slot : Slot} (hnext : e.part? slot = some next) :
    (slot = .callee → next.isMember = false) ∨
    ∃ object property computed arguments, e = .call (.member object property computed) arguments ∧
      slot = .callee ∧ next = .member object property computed := by
  by_cases hmethod : slot = .callee ∧ next.isMember = true
  · obtain ⟨rfl, hmember⟩ := hmethod
    cases e with
    | call callee arguments =>
        obtain rfl : callee = next := Option.some.inj hnext
        cases callee with
        | member object property computed => exact .inr ⟨_, _, _, _, rfl, rfl, rfl⟩
        | _ => cases hmember
    | _ => cases hnext
  · exact .inl fun hslot => Bool.eq_false_iff.2 fun hmember => hmethod ⟨hslot, hmember⟩

/-- A part of a part. -/
theorem Occurs.append {e middle target : Expr} {path path' : List Slot} {depth depth' : Nat}
    (hmiddle : e.Occurs path middle depth) (htarget : middle.Occurs path' target depth') :
    e.Occurs (path ++ path') target (depth + depth') := by
  induction hmiddle with
  | here e => rwa [Nat.zero_add]
  | part hnext hplain _ ih =>
      rw [Nat.add_right_comm]
      exact .part hnext hplain (ih htarget)
  | method _ ih => exact .method (ih htarget)

/-- Another part in a slot does not make another kind of node. -/
@[simp] theorem isMember_put (e : Expr) (slot : Slot) (other : Expr) :
    (e.put slot other).isMember = e.isMember := by
  cases e <;> cases slot <;> rfl

/-- A part that is put elsewhere does not change the name of the tree. -/
@[simp] theorem staticName?_put (e : Expr) (slot : Slot) (other : Expr) (computed : Bool) :
    (e.put slot other).staticName? computed = e.staticName? computed := by
  cases e <;> cases slot <;> rfl

/-- A property that is evaluated to a key is none after a replacement that makes no
name of it. -/
theorem staticName?_replace {other e : Expr} {computed : Bool} {path : List Slot}
    (hother : other.staticName? computed = none) (he : e.staticName? computed = none) :
    (e.replace path other).staticName? computed = none := by
  cases path with
  | nil => exact hother
  | cons slot path =>
      rw [replace]
      split
      · rw [staticName?_put, he]
      · exact he

end Expr

/-! ### Evaluations from a depth -/

/-- From any world at a depth the two evaluators do the same, and come back to that
depth. -/
def Evaluator.SameAt (depth : Nat) (p q : Evaluator h α) : Prop :=
  ∀ w, ∃ outcome w₁,
    p ⟨depth, w⟩ = (outcome, ⟨depth, w₁⟩) ∧ q ⟨depth, w⟩ = (outcome, ⟨depth, w₁⟩)

namespace Evaluator

variable {depth limit : Nat}

/-- Two evaluators in a row. -/
theorem SameAt.bind {p q : Evaluator h α} {k l : α → Evaluator h β} (hpq : p.SameAt depth q)
    (hkl : ∀ a, (k a).SameAt depth (l a)) : (p >>= k).SameAt depth (q >>= l) := by
  intro w
  obtain ⟨outcome, w₁, hp, hq⟩ := hpq w
  show ∃ outcome w₁, andThen p k _ = _ ∧ andThen q l _ = _
  simp only [andThen, hp, hq]
  cases outcome with
  | ok a => exact hkl a w₁
  | error halt => exact ⟨_, _, rfl, rfl⟩

/-- A level. -/
theorem SameAt.within {p q : Evaluator h α} (hpq : p.SameAt (depth + 1) q) :
    (p.within limit).SameAt depth (q.within limit) := by
  intro w
  obtain ⟨outcome, w₁, hp, hq⟩ := hpq w
  unfold Evaluator.within
  split
  · exact ⟨outcome, w₁, by simp only [hp, Nat.add_sub_cancel],
      by simp only [hq, Nat.add_sub_cancel]⟩
  · exact ⟨_, _, rfl, rfl⟩

/-- A call, which does not look at the depth. -/
theorem SameAt.invoke (f : HostFunction) (receiver : Value) (arguments : List Value) :
    (Evaluator.invoke f receiver arguments : Evaluator h Value).SameAt depth
      (.invoke f receiver arguments) := by
  intro w
  unfold Evaluator.invoke
  split
  · exact ⟨_, _, rfl, rfl⟩
  · exact ⟨_, _, rfl, rfl⟩

/-- Each way of putting evaluations together keeps them the same, and comes back to
its depth. -/
theorem sameAt (limit : Nat) : (Evaluator.walk h).Relates (Evaluator.walk h) limit limit
    (fun _ => True) (fun depth p q => p.SameAt depth q) where
  pure _ _ := ⟨_, _, rfl, rfl⟩
  bind := .bind
  ofExcept _ _ _ := ⟨_, _, rfl, rfl⟩
  fresh _ := ⟨_, _, rfl, rfl⟩
  invoke := .invoke
  both hp hq := hp.bind fun _ => hq.bind fun _ _ => ⟨_, _, rfl, rfl⟩
  within := .within
  nullish _ _ := trivial

end Evaluator

/-! ### What stands beyond the limit -/

namespace Evaluator

variable {ctx : Context} {limit depth : Nat} {e part part' : Expr} {slot : Expr.Slot}

/-- An evaluator is back at its depth after a tree. -/
theorem SameAt.eval_refl (ctx : Context) (limit depth : Nat) (e : Expr) :
    SameAt depth ((walk h).eval ctx limit depth e) ((walk h).eval ctx limit depth e) :=
  (sameAt limit).eval ctx e depth fun n _ => n.operatorFails fun _ => trivial

/-- The trees of a list. -/
theorem SameAt.evalEach_refl (ctx : Context) (limit depth : Nat) (es : List Expr) :
    SameAt depth ((walk h).evalEach ctx limit depth es) ((walk h).evalEach ctx limit depth es) :=
  (sameAt limit).evalEach ctx es depth fun n _ => n.operatorFails fun _ => trivial

/-- The target of a call. -/
theorem SameAt.target_refl (ctx : Context) (limit depth : Nat) (e : Expr) :
    SameAt depth ((walk h).target ctx limit depth e) ((walk h).target ctx limit depth e) := by
  have heval := SameAt.eval_refl (h := h) ctx limit depth
  cases e with
  | member object property computed =>
      exact (sameAt limit).memberOf property computed (heval object) fun _ => heval property
  | _ => exact (heval _).bind fun _ => (sameAt limit).pure _

/-- From the limit on every tree is refused. -/
theorem eval_of_le (hdepth : limit ≤ depth) (ctx : Context) (e : Expr) (w : World σ) :
    (walk h).eval ctx limit depth e ⟨depth, w⟩
      = (.error (.failed (.stackOverflow depth limit)), ⟨depth, w⟩) := by
  obtain ⟨body, hbody⟩ := (walk h).eval_eq_within ctx limit depth e
  rw [hbody]
  exact if_neg (Nat.not_lt.2 hdepth)

/-- What is called is refused like any other tree: a member begins with its object. -/
theorem target_of_le (hdepth : limit ≤ depth) (ctx : Context) (e : Expr) (w : World σ) :
    (walk h).target ctx limit depth e ⟨depth, w⟩
      = (.error (.failed (.stackOverflow depth limit)), ⟨depth, w⟩) := by
  cases e <;>
    simp only [Walk.target, Walk.memberOf, bind, andThen, eval_of_le hdepth]

/-- One of several trees is another one. -/
theorem SameAt.evalEach_set {es : List Expr} {i : Nat} (hpart : es[i]? = some part)
    (hsame : SameAt depth ((walk h).eval ctx limit depth part')
      ((walk h).eval ctx limit depth part)) :
    SameAt depth ((walk h).evalEach ctx limit depth (es.set i part'))
      ((walk h).evalEach ctx limit depth es) := by
  induction es generalizing i with
  | nil => cases hpart
  | cons e es ih =>
      cases i with
      | zero =>
          obtain rfl : e = part := Option.some.inj hpart
          have hrest := SameAt.evalEach_refl (h := h) ctx limit depth es
          exact ((sameAt limit).both hsame hrest).bind fun _ => (sameAt limit).pure _
      | succ i =>
          have hfirst := SameAt.eval_refl (h := h) ctx limit depth e
          exact ((sameAt limit).both hfirst (ih hpart)).bind fun _ => (sameAt limit).pure _

/-- The object of a member is another one, or its property, as long as it stays one
that is evaluated. -/
theorem SameAt.target_put (he : e.isMember = true) (hpart : e.part? slot = some part)
    (hname : ∀ computed, part.staticName? computed = none → part'.staticName? computed = none)
    (hsame : SameAt depth ((walk h).eval ctx limit depth part')
      ((walk h).eval ctx limit depth part)) :
    SameAt depth ((walk h).target ctx limit depth (e.put slot part'))
      ((walk h).target ctx limit depth e) := by
  have heval := SameAt.eval_refl (h := h) ctx limit depth
  cases e with
  | member object property computed =>
      -- The object is evaluated in any case, and the property only where it has no name.
      cases slot with
      | object =>
          obtain rfl : object = part := Option.some.inj hpart
          exact (sameAt limit).memberOf property computed hsame fun _ => heval property
      | property =>
          simp only [Expr.part?, Option.ite_none_left_eq_some, Option.not_isSome_iff_eq_none,
            Option.some.injEq] at hpart
          obtain ⟨hstatic, rfl⟩ := hpart
          show SameAt depth ((walk h).memberOf _ part' computed _)
            ((walk h).memberOf _ property computed _)
          rw [(walk h).memberOf_congr ((hname computed hstatic).trans hstatic.symm)]
          exact (sameAt limit).memberOf property computed (heval object) fun _ => hsame
      | _ => cases hpart
  | _ => cases he

/-- A part that is one level below its node is another one. The cases are the slots
of each kind of node. -/
theorem SameAt.eval_put (hpart : e.part? slot = some part) (hslot : slot ≠ .callee)
    (hname : ∀ computed, part.staticName? computed = none → part'.staticName? computed = none)
    (hsame : SameAt (depth + 1) ((walk h).eval ctx limit (depth + 1) part')
      ((walk h).eval ctx limit (depth + 1) part)) :
    SameAt depth ((walk h).eval ctx limit depth (e.put slot part'))
      ((walk h).eval ctx limit depth e) := by
  have heval := SameAt.eval_refl (h := h) ctx limit (depth + 1)
  cases e with
  | array elements =>
      cases slot with
      | element i => exact .within ((sameAt limit).array (.evalEach_set hpart hsame))
      | _ => cases hpart
  -- Where a node has several slots they come in the order of its evaluation.
  | unary operator argument =>
      cases slot <;> cases hpart
      exact .within ((sameAt limit).unary (fun _ _ => trivial) hsame)
  | binary operator left right =>
      cases slot <;> cases hpart
      · exact .within ((sameAt limit).operation (fun _ _ => trivial) hsame (heval right))
      · exact .within ((sameAt limit).operation (fun _ _ => trivial) (heval left) hsame)
  | logical operator left right =>
      cases slot <;> cases hpart
      · exact .within ((sameAt limit).logical (fun _ _ _ _ => trivial) hsame (heval right))
      · exact .within ((sameAt limit).logical (fun _ _ _ _ => trivial) (heval left) hsame)
  | conditional test consequent alternate =>
      cases slot <;> cases hpart
      · exact .within ((sameAt limit).conditional hsame (heval consequent) (heval alternate))
      · exact .within ((sameAt limit).conditional (heval test) hsame (heval alternate))
      · exact .within ((sameAt limit).conditional (heval test) (heval consequent) hsame)
  | member object property computed =>
      have htarget := SameAt.target_put (e := .member object property computed) rfl hpart hname
        hsame
      cases slot with
      | object => exact .within (htarget.bind fun _ => (sameAt limit).pure _)
      | property => exact .within (htarget.bind fun _ => (sameAt limit).pure _)
      | _ => cases hpart
  | call callee arguments =>
      cases slot with
      | element i =>
          have htarget := SameAt.target_refl (h := h) ctx limit (depth + 1) callee
          show SameAt depth ((walk h).eval ctx limit depth (.call callee (arguments.set i part'))) _
          rw [(walk h).eval_call_target, (walk h).eval_call_target]
          exact .within ((sameAt limit).callWith htarget (.evalEach_set hpart hsame))
      | callee => exact absurd rfl hslot
      | _ => cases hpart
  | literal value => cases hpart
  | identifier name => cases hpart
  | this => cases hpart
  | unknown => cases hpart

/-- What is called is another tree. -/
theorem SameAt.eval_call {callee callee' : Expr} (arguments : List Expr)
    (htarget : SameAt (depth + 1) ((walk h).target ctx limit (depth + 1) callee')
      ((walk h).target ctx limit (depth + 1) callee)) :
    SameAt depth ((walk h).eval ctx limit depth (.call callee' arguments))
      ((walk h).eval ctx limit depth (.call callee arguments)) := by
  have harguments := SameAt.evalEach_refl (h := h) ctx limit (depth + 1) arguments
  rw [(walk h).eval_call_target, (walk h).eval_call_target]
  exact .within ((sameAt limit).callWith htarget harguments)

/-- A callee that is no member is called by its value. -/
theorem SameAt.target_of_eval {e' : Expr} (he : e.isMember = false) (he' : e'.isMember = false)
    (heval : SameAt depth ((walk h).eval ctx limit depth e') ((walk h).eval ctx limit depth e)) :
    SameAt depth ((walk h).target ctx limit depth e') ((walk h).target ctx limit depth e) := by
  have htarget : ∀ {e : Expr}, e.isMember = false → (walk h).target ctx limit depth e
      = ((walk h).eval ctx limit depth e >>= fun value => pure (.undefined, value)) := by
    intro e he
    cases e <;> first | rfl | cases he
  rw [htarget he, htarget he']
  exact heval.bind fun _ => (sameAt limit).pure _

/-- Under a limit that is not above the depth of a part it does not matter what stands
there, whether the value of the tree is asked for or the tree is called. -/
theorem SameAt.replace {target other : Expr} {path : List Expr.Slot} {below : Nat}
    (hoccurs : e.Occurs path target below)
    (hother : ∀ computed, other.staticName? computed = none) (hlimit : limit ≤ depth + below) :
    SameAt depth ((walk h).eval ctx limit depth (e.replace path other))
        ((walk h).eval ctx limit depth e) ∧
      SameAt (depth + e.belowCallee)
        ((walk h).target ctx limit (depth + e.belowCallee) (e.replace path other))
        ((walk h).target ctx limit (depth + e.belowCallee) e) := by
  -- The induction goes down the path, and with it the depth goes up to the limit.
  induction hoccurs generalizing depth with
  | here e =>
      have hle : limit ≤ depth + e.belowCallee := by omega
      exact ⟨fun w => ⟨_, _, eval_of_le hlimit ctx _ w, eval_of_le hlimit ctx _ w⟩,
        fun w => ⟨_, _, target_of_le hle ctx _ w, target_of_le hle ctx _ w⟩⟩
  | @part e next target slot path below hnext hplain _ ih =>
      have hlimit' : limit ≤ depth + 1 + below := by omega
      obtain ⟨hvalue, hcalled⟩ := ih hlimit'
      have hreplace : e.replace (slot :: path) other = e.put slot (next.replace path other) := by
        simp only [Expr.replace, hnext]
      have hname : ∀ computed, next.staticName? computed = none →
          (next.replace path other).staticName? computed = none :=
        fun computed => Expr.staticName?_replace (hother computed)
      have heval : SameAt depth
          ((walk h).eval ctx limit depth (e.put slot (next.replace path other)))
          ((walk h).eval ctx limit depth e) := by
        by_cases hslot : slot = .callee
        · subst hslot
          rw [Expr.belowCallee, hplain rfl] at hcalled
          cases e with
          | call callee arguments =>
              obtain rfl : callee = next := Option.some.inj hnext
              exact .eval_call arguments hcalled
          | _ => cases hnext
        · exact .eval_put hnext hslot hname hvalue
      rw [hreplace]
      refine ⟨heval, ?_⟩
      cases hmember : e.isMember with
      | true =>
          rw [Expr.belowCallee, hmember]
          exact .target_put hmember hnext hname hvalue
      | false =>
          rw [Expr.belowCallee, hmember]
          exact .target_of_eval hmember ((e.isMember_put slot _).trans hmember) heval
  | @method object property target computed arguments path below _ ih =>
      obtain ⟨-, hcalled⟩ := ih hlimit
      have heval := SameAt.eval_call arguments hcalled
      exact ⟨heval, .target_of_eval rfl rfl heval⟩

end Evaluator

/-! ### Parts that are live -/

namespace Expr

/-- A node that fails as soon as it is evaluated, if the operator has no meaning. -/
def trap (operator : String) : Expr := .unary operator .this

/-- An evaluation of the tree evaluates the part at a path: with a trap in the place of
that part it fails with the error of the trap. As this is asked of every operator
without a meaning, no error that the tree or the host has itself is taken for that of
the trap. -/
def EvaluatesAt (e : Expr) (path : List Slot) (h : Host σ) (ctx : Context) (limit : Nat)
    (w : World σ) : Prop :=
  ∀ operator, unaryOperator operator = .error (.unknownOperator operator) →
    (evaluate h ctx limit (e.replace path (trap operator)) w).1
      = .error (.unknownOperator operator)

/-- Some evaluation of the tree evaluates the part at a path, in some context and under
some limit. -/
def IsLive (e : Expr) (path : List Slot) : Prop :=
  ∃ (σ : Type) (h : Host σ) (ctx : Context) (limit : Nat) (w : World σ),
    h.NeverOverflows ∧ e.EvaluatesAt path h ctx limit w

end Expr

/-- Under a limit that is not above the depth of a part the evaluation is the same
whatever stands there. -/
theorem evaluate_replace {e target other : Expr} {path : List Expr.Slot} {depth limit : Nat}
    (hoccurs : e.Occurs path target depth)
    (hother : ∀ computed, other.staticName? computed = none) (hlimit : limit ≤ depth)
    (h : Host σ) (ctx : Context) (w : World σ) :
    evaluate h ctx limit (e.replace path other) w = evaluate h ctx limit e w := by
  have hlimit : limit ≤ 0 + depth := by omega
  have hsame : Evaluator.SameAt 0 ((Evaluator.walk h).eval ctx limit 0 (e.replace path other))
      ((Evaluator.walk h).eval ctx limit 0 e) :=
    (Evaluator.SameAt.replace hoccurs hother hlimit).1
  obtain ⟨outcome, w₁, hother, he⟩ := hsame w
  unfold evaluate
  rw [Evaluator.eval_eq_walk ctx limit _ 0, Evaluator.eval_eq_walk ctx limit e 0]
  simp only [Evaluator.start, hother, he]

/-- From no world does the evaluation overflow. -/
def Immediate.NeverOverflows (p : Immediate h α) : Prop := ∀ w, ¬ Overflows (p w).1

/-- If no evaluation of a tree overflows at a limit, each part that some evaluation
evaluates is at a depth below that limit. -/
theorem Expr.IsLive.depth_lt {e target : Expr} {path : List Slot} {depth limit : Nat}
    (hlive : e.IsLive path) (hoccurs : e.Occurs path target depth)
    (hnever : ∀ {σ : Type} (h : Host σ) (ctx : Context), h.NeverOverflows →
      (evaluate h ctx limit e).NeverOverflows) : depth < limit := by
  by_contra hdepth
  obtain ⟨σ, h, ctx, limit', w, hh, htraps⟩ := hlive
  -- With any trap the evaluation is the same: under the lower one of the two limits it does not
  -- come to the part, and if that is `limit` the higher one changes nothing.
  have hsame : ∃ run, ∀ operator,
      evaluate h ctx limit' (e.replace path (trap operator)) w = run := by
    have hreplace : ∀ {limit : Nat}, limit ≤ depth → ∀ operator,
        evaluate h ctx limit (e.replace path (trap operator)) w = evaluate h ctx limit e w :=
      fun hlimit operator => evaluate_replace hoccurs (fun _ => rfl) hlimit h ctx w
    rcases Nat.le_total limit' limit with hle | hle
    · exact ⟨_, hreplace (by omega)⟩
    · refine ⟨evaluate h ctx limit e w, fun operator => ?_⟩
      have hrun := hreplace (Nat.le_of_not_lt hdepth) operator
      have hcut := (evaluations_isCut hh ctx (e.replace path (trap operator)) w hle).1
      rw [hcut.same (by rw [hrun]; exact hnever h ctx hh w), hrun]
  obtain ⟨run, hrun⟩ := hsame
  have hfirst := htraps "?" rfl
  have hsecond := htraps "??" rfl
  rw [hrun] at hfirst hsecond
  have hname : "?" = "??" :=
    EvalError.unknownOperator.inj (Except.error.inj (hfirst.symm.trans hsecond))
  exact absurd hname (by decide)

end Formula
