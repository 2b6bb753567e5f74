import Formula.Host.Registry
import Formula.Proofs.Evaluation.Walk

/-!
# `Formula.Proofs.Evaluation.Reuse`: an evaluator that is used again

An evaluator keeps the count of its levels from one request to the next. A
level is left however its body ends, so that no failure can be noticed later:
an evaluator that has served any requests is as good as new.

* `Request`, `serve`, `serveAnew`: requests served by one evaluator, or each
  by one that was just made.
* `Metered`: the evaluator with a meter that reads the counter at every step.
* `Metered.relates`: the meter changes nothing, the counter is where it was
  after every part of a walk, and it is never read above the limit.
* `serve_eq_serveAnew`: the same for any sequence of requests.
-/

set_option autoImplicit false

namespace Formula

variable {σ α β : Type} {h : Host σ}

/-! ### Requests -/

/-- What an evaluator is asked for. -/
inductive Request where
  /-- the value of a tree -/
  | value (e : Expr)
  /-- the receiver and the value of a member expression -/
  | member (e : Expr)

/-- What a request is answered with. -/
inductive Response where
  | value (v : Value)
  | member (receiver v : Value)

namespace Request

variable (h : Host σ) (ctx : Context) (limit : Nat)

/-- The request to an evaluator at work. -/
def ask : Request → Evaluator h Response
  | .value e => Response.value <$> Evaluator.eval ctx limit e
  | .member e => (fun x => Response.member x.1 x.2) <$> Evaluator.evalMember ctx limit e

/-- The request to an evaluator that has just been made. -/
def askNew : Request → Immediate h Response
  | .value e => Response.value <$> evaluate h ctx limit e
  | .member e => (fun x => Response.member x.1 x.2) <$> evaluateMember h ctx limit e

end Request

/-- A request, and what happens in the world before it is made. -/
structure Use (σ : Type) where
  meanwhile : World σ → World σ
  request : Request

section

variable (h : Host σ) (ctx : Context) (limit : Nat)

/-- The requests to one evaluator: the outcome of each, and the evaluator after
it. -/
def serve : List (Use σ) → Evaluator.State σ →
    List (Except EvalError Response × Evaluator.State σ)
  | [], _ => []
  | use :: uses, s =>
    let (outcome, s) := use.request.ask h ctx limit ⟨s.depth, use.meanwhile s.world⟩
    (outcome.mapError Halt.error, s) :: serve uses s

/-- Each request to an evaluator of its own: the outcome of each, and the world
after it. -/
def serveAnew : List (Use σ) → World σ → List (Except EvalError Response × World σ)
  | [], _ => []
  | use :: uses, w =>
    let (outcome, w) := use.request.askNew h ctx limit (use.meanwhile w)
    (outcome, w) :: serveAnew uses w

end

/-! ### A meter on the counter -/

/-- An evaluation by an evaluator at work, with the readings of its counter. -/
def Metered {σ : Type} (_ : Host σ) (α : Type) : Type :=
  Evaluator.State σ → List Nat × Except Halt α × Evaluator.State σ

namespace Metered

/-- A single step, after which the counter is read. -/
def step (p : Evaluator h α) : Metered h α := fun s => ([(p s).2.depth], p s)

/-- One evaluation, then another that may use the value of the first. -/
def andThen (p : Metered h α) (q : α → Metered h β) : Metered h β := fun s =>
  match p s with
  | (readings, .ok a, s) => (readings ++ (q a s).1, (q a s).2)
  | (readings, .error halt, s) => (readings, .error halt, s)

instance : Monad (Metered h) where
  pure a := step (pure a)
  bind := andThen

/-- The body one level deeper, unless the depth has reached the limit. The
counter is read when the level is entered and when it has been left. -/
def within (limit : Nat) (body : Metered h α) : Metered h α := fun s =>
  if s.depth < limit then
    let (readings, outcome, s') := body ⟨s.depth + 1, s.world⟩
    ((s.depth + 1) :: readings ++ [s'.depth - 1], outcome, ⟨s'.depth - 1, s'.world⟩)
  else
    ([s.depth], .error (.failed (.stackOverflow s.depth limit)), s)

/-- The walk of an evaluator with a meter. -/
def walk (h : Host σ) : Walk (Metered h) where
  ofExcept outcome := step (.ofExcept outcome)
  fresh := step .fresh
  invoke f receiver arguments := step (.invoke f receiver arguments)
  both p q := do
    let a ← p
    let b ← q
    return (a, b)
  within limit _ := within limit

/-- The request to an evaluator with a meter. -/
def ask (h : Host σ) (ctx : Context) (limit : Nat) : Request → Metered h Response
  | .value e => Response.value <$> (walk h).eval ctx limit 0 e
  | .member e => (fun x => Response.member x.1 x.2) <$> (walk h).evalMember ctx limit e

/-- The requests to one evaluator, with all readings of its counter. -/
def serve (h : Host σ) (ctx : Context) (limit : Nat) : List (Use σ) → Evaluator.State σ →
    List (List Nat × Except EvalError Response × Evaluator.State σ)
  | [], _ => []
  | use :: uses, s =>
    let (readings, outcome, s) := ask h ctx limit use.request ⟨s.depth, use.meanwhile s.world⟩
    (readings, outcome.mapError Halt.error, s) :: serve h ctx limit uses s

/-- Two runs that began at a depth, with the meter and without: the meter changes
nothing, the counter is back where it was, and on its way it was never above the
limit. -/
structure Matches (limit depth : Nat) (run : List Nat × Except Halt α × Evaluator.State σ)
    (run' : Except Halt α × Evaluator.State σ) : Prop where
  same : run.2 = run'
  restored : run'.2.depth = depth
  bounded : depth ≤ limit → ∀ d ∈ run.1, d ≤ limit

/-- The two runs match, in whatever world they begin. -/
def Reads (limit depth : Nat) (m : Metered h α) (p : Evaluator h α) : Prop :=
  ∀ w, Matches limit depth (m ⟨depth, w⟩) (p ⟨depth, w⟩)

namespace Reads

variable {limit depth : Nat}

/-- A step that leaves the counter alone. -/
theorem step {p : Evaluator h α} (hp : ∀ s, (p s).2.depth = s.depth) :
    Reads limit depth (.step p) p := by
  intro w
  refine ⟨rfl, hp _, ?_⟩
  intro hdepth d hd
  obtain rfl := List.mem_singleton.1 hd
  rw [hp]
  exact hdepth

/-- A value by itself reads nothing. -/
theorem pure (a : α) : Reads (h := h) limit depth (Pure.pure a) (Pure.pure a) := step fun _ => rfl

/-- The second part begins where the first one did. -/
theorem bind {m : Metered h α} {p : Evaluator h α} {k : α → Metered h β} {l : α → Evaluator h β}
    (hp : Reads limit depth m p) (hk : ∀ a, Reads limit depth (k a) (l a)) :
    Reads limit depth (m >>= k) (p >>= l) := by
  intro w
  have hfirst := hp w
  show Matches limit depth (andThen m k _) (Evaluator.andThen p l _)
  unfold andThen Evaluator.andThen
  rw [← hfirst.same]
  rcases hm : m ⟨depth, w⟩ with ⟨readings, outcome, d, w'⟩
  rw [hm] at hfirst
  obtain rfl : d = depth := (congrArg (·.2.depth) hfirst.same).trans hfirst.restored
  -- The readings of both parts are within the bound, and the second part begins at the depth
  -- that the first one has restored.
  cases outcome with
  | error halt => exact ⟨rfl, rfl, hfirst.bounded⟩
  | ok a =>
      have hsecond := hk a w'
      refine ⟨hsecond.same, hsecond.restored, ?_⟩
      intro hdepth d hd
      obtain hd | hd := List.mem_append.1 hd
      · exact hfirst.bounded hdepth d hd
      · exact hsecond.bounded hdepth d hd

/-- What is made of a value reads nothing. -/
theorem map {m : Metered h α} {p : Evaluator h α} (f : α → β) (hp : Reads limit depth m p) :
    Reads limit depth (f <$> m) (f <$> p) :=
  hp.bind fun a => pure (f a)

/-- A level is entered only below the limit, and left again. -/
theorem within {m : Metered h α} {p : Evaluator h α} (hp : Reads limit (depth + 1) m p) :
    Reads limit depth (.within limit m) (.within limit p) := by
  intro w
  have hbody := hp w
  -- A level that is entered reads the counter at its beginning and at its end; one that is
  -- refused reads it once.
  by_cases hlt : depth < limit
  · have hback : (p ⟨depth + 1, w⟩).2.depth - 1 = depth := by
      rw [hbody.restored, Nat.add_sub_cancel]
    simp only [Metered.within, Evaluator.within, hlt, if_true, hbody.same, hback]
    refine ⟨rfl, rfl, ?_⟩
    intro _ d hd
    simp only [List.mem_append, List.mem_cons, List.not_mem_nil, or_false] at hd
    obtain (rfl | hd) | rfl := hd
    · exact hlt
    · exact hbody.bounded hlt d hd
    · exact Nat.le_of_lt hlt
  · simp only [Metered.within, Evaluator.within, hlt, if_false]
    refine ⟨rfl, rfl, ?_⟩
    intro hdepth d hd
    obtain rfl := List.mem_singleton.1 hd
    exact hdepth

end Reads

/-- Calling a function leaves the counter alone. -/
theorem depth_invoke (f : HostFunction) (receiver : Value) (arguments : List Value)
    (s : Evaluator.State σ) :
    (Evaluator.invoke (h := h) f receiver arguments s).2.depth = s.depth := by
  unfold Evaluator.invoke
  split <;> rfl

/-- Every way of the walk with a meter keeps to that of the walk without. -/
theorem relates (h : Host σ) (limit : Nat) :
    (walk h).Relates (Evaluator.walk h) limit limit (fun _ => True) (Reads limit) where
  pure := .pure
  bind := .bind
  ofExcept _ _ := .step fun _ => rfl
  fresh := .step fun _ => rfl
  invoke f receiver arguments := .step (depth_invoke f receiver arguments)
  both hp hq := hp.bind fun _ => hq.bind fun _ => .pure _
  within := .within
  nullish _ _ := trivial

/-- A request of either kind reads as its evaluation does. -/
theorem reads_ask (ctx : Context) (limit : Nat) (request : Request) :
    Reads limit 0 (ask h ctx limit request) (request.ask h ctx limit) := by
  cases request with
  | value e =>
      have he := (relates h limit).eval ctx e 0 fun n _ => n.operatorFails fun _ => trivial
      rw [← Evaluator.eval_eq_walk] at he
      exact he.map _
  | member e =>
      have he := (relates h limit).evalMember ctx e fun n _ => n.operatorFails fun _ => trivial
      rw [← Evaluator.evalMember_eq_walk] at he
      exact he.map _

end Metered

/-! ### Serving requests -/

/-- What is made of a result may be made before the start. -/
theorem Evaluator.map_start (f : α → β) (p : Evaluator h α) : f <$> p.start = (f <$> p).start := by
  funext w
  show Immediate.andThen p.start _ w = Evaluator.start (Evaluator.andThen p _) w
  unfold Immediate.andThen Evaluator.start Evaluator.andThen
  rcases p ⟨0, w⟩ with ⟨halt | a, s⟩ <;> rfl

/-- A new evaluator is one at depth zero. -/
theorem Request.askNew_eq_start (ctx : Context) (limit : Nat) (request : Request) :
    request.askNew h ctx limit = (request.ask h ctx limit).start := by
  cases request with
  | value e => exact Evaluator.map_start _ _
  | member e => exact Evaluator.map_start _ _

/-- An evaluator can be used again, whatever it was used for before and whatever
has happened since. After each request its counter is at zero, and the outcome
and the world are those of an evaluator that was made for the request. In
between, no reading of the counter is above the limit. -/
theorem serve_eq_serveAnew (h : Host σ) (ctx : Context) (limit : Nat) (uses : List (Use σ))
    (w : World σ) :
    serve h ctx limit uses ⟨0, w⟩
      = (serveAnew h ctx limit uses w).map (fun r => (r.1, ⟨0, r.2⟩)) ∧
    (Metered.serve h ctx limit uses ⟨0, w⟩).map Prod.snd = serve h ctx limit uses ⟨0, w⟩ ∧
    ∀ r ∈ Metered.serve h ctx limit uses ⟨0, w⟩, ∀ d ∈ r.1, d ≤ limit := by
  induction uses generalizing w with
  | nil => exact ⟨rfl, rfl, fun r hr => absurd hr List.not_mem_nil⟩
  | cons use uses ih =>
      -- What the first request does, and then the others from depth zero again.
      obtain ⟨hsame, hrestored, hbounded⟩ :=
        Metered.reads_ask (h := h) ctx limit use.request (use.meanwhile w)
      rcases hm : Metered.ask h ctx limit use.request ⟨0, use.meanwhile w⟩ with
        ⟨readings, outcome, d, w'⟩
      rw [hm] at hsame hbounded
      rw [← hsame] at hrestored
      obtain rfl : d = 0 := hrestored
      obtain ⟨hserve, hmetered, hall⟩ := ih w'
      have hnew : use.request.askNew h ctx limit (use.meanwhile w)
          = (outcome.mapError Halt.error, w') := by
        rw [Request.askNew_eq_start, Evaluator.start, ← hsame]
      refine ⟨?_, ?_, ?_⟩
      · simp only [serve, serveAnew, ← hsame, hnew, List.map_cons, hserve]
      · simp only [serve, Metered.serve, hm, ← hsame, List.map_cons, hmetered]
      · simp only [Metered.serve, hm, List.mem_cons]
        rintro r (rfl | hr)
        · exact hbounded (Nat.zero_le limit)
        · exact hall r hr

/-- A tree that nests too deeply, and then one that does not. -/
example :
    let deep : Expr := .unary "!" (.unary "-" .this)
    (Metered.serve (Registry.host #[]) ⟨⟨0, []⟩, none⟩ 2
      [⟨id, .value deep⟩, ⟨id, .value (.unary "!" .this)⟩] ⟨0, ⟨⟨1, []⟩, #[]⟩⟩).map
        (fun r => (r.1, r.2.2.depth))
      = [([1, 1, 2, 2, 2, 1, 0], 0), ([1, 1, 2, 2, 1, 1, 0, 0], 0)] := by
  rfl

end Formula
