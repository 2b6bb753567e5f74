import Formula.Proofs.Syntax.Threshold
import Formula.Syntax.Tally

/-!
# `Formula.Proofs.Syntax.Bookkeeping`: the books of the scan agree

Every frame but the outermost one belongs to an open bracket, and the depth
is the number of open brackets together with all that is open in the
frames. Each character keeps it that way, on whatever text: what it takes
from the depth is open in a frame that it changes. So there is always
enough to take, there is always an innermost frame, and the scan with its
books ends as the scan does that needs none.

* `State.Balanced`: the depth is what the frames say.
* `StepsTo.balanced`: a character keeps the balance.
* `step_tally`: from a balanced state on, the books are kept without a
  lapse.
* `tally_balanced`: all of this along the scan of any text, under any limit.
-/

set_option autoImplicit false

namespace Formula.Nesting

variable {s s' : State} {c : Char} {opened : Bool}

/-! ### The balance -/

/-- The depth is the number of open brackets and all that is open in the frames. -/
def State.Balanced (s : State) : Prop :=
  s.depth = s.outer.length + levelsOf (s.inner :: s.outer)

/-- Before any text nothing is open. -/
theorem balanced_initial : State.initial.Balanced := rfl

/-- What is open in the innermost frame is counted in the depth. -/
theorem State.Balanced.levels_le (h : s.Balanced) : s.inner.levels ≤ s.depth := by
  rw [Balanced, levelsOf] at h
  omega

/-- So are the open signs of the innermost frame, as a part of its levels. -/
theorem State.Balanced.unary_le (h : s.Balanced) : s.inner.unary ≤ s.depth :=
  (Nat.le_add_right _ _).trans h.levels_le

/-- Closing the signs takes as much from the depth as from the frame. -/
theorem State.Balanced.closeUnary (h : s.Balanced) : s.closeUnary.Balanced := by
  simp only [Balanced, levelsOf, Frame.levels, State.closeUnary] at h ⊢
  omega

/-- Closing a bracket takes the innermost frame and one level more, which
was its own. -/
theorem State.Balanced.closeBracket (h : s.Balanced) : s.closeBracket.Balanced := by
  obtain ⟨inner, outer, depth, quote, escaped, afterOperand⟩ := s
  cases outer with
  | nil => exact h
  | cons f outer =>
      simp only [Balanced, levelsOf, List.length_cons, State.closeBracket] at h ⊢
      omega

/-- A character keeps the balance. -/
theorem StepsTo.balanced (h : StepsTo s c s' opened) (hs : s.Balanced) : s'.Balanced := by
  cases h with
  | closeBracket => exact hs.closeBracket
  | operator => exact hs.closeUnary
  | openConditional _ =>
      have hclosed := hs.closeUnary
      simp only [State.Balanced, levelsOf, Frame.levels, State.openConditional] at hclosed ⊢
      omega
  | openBracket _ =>
      simp only [State.Balanced, levelsOf, Frame.levels, Frame.empty, List.length_cons,
        State.openBracket] at hs ⊢
      omega
  | comma =>
      simp only [State.Balanced, levelsOf, Frame.levels, Frame.empty, State.comma] at hs ⊢
      omega
  | openPrefix _ =>
      simp only [State.Balanced, levelsOf, Frame.levels, State.openPrefix] at hs ⊢
      omega
  | pass => exact hs
  | quote _ => exact hs
  | operand => exact hs

/-- Inside a string nothing is counted. -/
theorem State.Balanced.inString (h : s.Balanced) (quote c : Char) :
    (s.inString quote c).Balanced := by
  unfold State.inString
  split_ifs <;> exact h

/-- A character keeps the balance, inside a string or outside. -/
theorem State.Balanced.step (h : s.Balanced) (c : Char) (next : Option Char) :
    (Nesting.step s c next).1.Balanced := by
  unfold Nesting.step
  split
  · exact h.inString _ c
  · exact (stepsTo_stepCode s c next).balanced h

/-! ### The books -/

/-- The books that show a state. -/
def State.tally (s : State) : Tally :=
  ⟨(s.outer.reverse ++ [s.inner]).toArray, s.depth, s.quote, s.escaped, s.afterOperand⟩

/-- The stack holds the innermost frame above the outer ones. -/
theorem size_tally (s : State) : s.tally.frames.size = s.outer.length + 1 := by
  simp [State.tally]

/-- What is open in two stacks adds up. -/
theorem levelsOf_append (fs gs : List Frame) :
    levelsOf (fs ++ gs) = levelsOf fs + levelsOf gs := by
  induction fs with
  | nil => exact (Nat.zero_add _).symm
  | cons f fs ih => rw [List.cons_append, levelsOf, levelsOf, ih, Nat.add_assoc]

/-- The order of the frames does not matter to what is open. -/
theorem levelsOf_reverse (fs : List Frame) : levelsOf fs.reverse = levelsOf fs := by
  induction fs with
  | nil => rfl
  | cons f fs ih =>
      rw [List.reverse_cons, levelsOf_append, ih, levelsOf, levelsOf, levelsOf, Nat.add_zero,
        Nat.add_comm]

/-- On the books the balance is one of the count with the whole stack. -/
theorem depth_tally (h : s.Balanced) :
    s.tally.depth = s.tally.frames.size - 1 + levelsOf s.tally.frames.toList := by
  rw [size_tally, Nat.add_sub_cancel]
  show s.depth = s.outer.length + levelsOf (s.outer.reverse ++ [s.inner])
  rw [levelsOf_append, levelsOf_reverse, h, levelsOf, levelsOf, levelsOf, Nat.add_zero,
    Nat.add_comm s.inner.levels]

/-! Each entry, where the frames account for what it takes. -/

/-- The last entry of the stack is the innermost frame, and the index is
within it. -/
theorem frameAt_tally (s : State) : s.tally.frameAt s.outer.length = .ok s.inner := by
  simp [Tally.frameAt, State.tally]

/-- Writing to the last entry changes the innermost frame. -/
theorem setFrame_tally (s : State) (f : Frame) :
    s.tally.setFrame s.outer.length f = .ok { s with inner := f }.tally := by
  rw [Tally.setFrame, if_pos (by rw [size_tally]; exact Nat.lt_succ_self _)]
  simp [State.tally, List.set_append_right]

/-- A subtraction that the depth allows. -/
theorem lower_tally {n : Nat} (h : n ≤ s.depth) :
    s.tally.lower n = .ok { s with depth := s.depth - n }.tally := by
  unfold Tally.lower Tally.take
  rw [if_pos (show n ≤ s.tally.depth from h)]
  rfl

/-- The signs that are closed were counted. -/
theorem closeUnary_tally (h : s.Balanced) :
    s.tally.closeUnary s.outer.length = .ok s.closeUnary.tally := by
  unfold Tally.closeUnary
  rw [frameAt_tally]
  show (s.tally.lower s.inner.unary >>= _) = _
  rw [lower_tally h.unary_le]
  exact setFrame_tally { s with depth := s.depth - s.inner.unary } _

/-- A bracket puts an empty frame on the stack. -/
theorem openBracket_tally (s : State) : s.tally.openBracket.count true = s.openBracket.tally := by
  simp [Tally.openBracket, Tally.count, State.tally, State.openBracket]

/-- A closing bracket takes a frame away only if another one is left. -/
theorem closeBracket_tally (h : s.Balanced) : s.tally.closeBracket = .ok s.closeBracket.tally := by
  obtain ⟨inner, outer, depth, quote, escaped, afterOperand⟩ := s
  unfold Tally.closeBracket
  rw [size_tally]
  cases outer with
  | nil => rfl
  | cons f outer =>
      -- Besides the levels of the frame there is the one of its bracket, which is counted
      -- as long as there is a frame below.
      have henough : inner.levels + 1 ≤ depth := by
        simp only [State.Balanced, levelsOf, List.length_cons] at h
        omega
      rw [if_pos (by simp)]
      simp [State.tally, State.closeBracket, Tally.lower, Tally.take, henough, bind, Except.bind,
        pure, Except.pure]

/-- A question mark closes the signs, and then writes to the frame it has
read. -/
theorem openConditional_tally (h : s.Balanced) :
    ∃ t, s.tally.openConditional s.outer.length = .ok t ∧
      t.count true = s.openConditional.tally := by
  unfold Tally.openConditional
  rw [closeUnary_tally h]
  show ∃ t, (s.closeUnary.tally.frameAt s.closeUnary.outer.length >>= _) = _ ∧ _
  rw [frameAt_tally]
  show ∃ t, (s.closeUnary.tally.setFrame s.closeUnary.outer.length _ >>= _) = _ ∧ _
  rw [setFrame_tally]
  exact ⟨_, rfl, rfl⟩

/-- A comma empties the frame, whose levels were counted. -/
theorem comma_tally (h : s.Balanced) : s.tally.comma s.outer.length = .ok s.comma.tally := by
  unfold Tally.comma
  rw [frameAt_tally]
  show (s.tally.lower s.inner.levels >>= _) = _
  rw [lower_tally h.levels_le]
  have hset := setFrame_tally { s with depth := s.depth - s.inner.levels } .empty
  dsimp only at hset
  dsimp only [bind, Except.bind]
  rw [hset]
  rfl

/-- A sign takes nothing from the depth. -/
theorem openPrefix_tally (s : State) :
    ∃ t, s.tally.openPrefix s.outer.length = .ok t ∧
      t.count true = s.openPrefix.tally := by
  unfold Tally.openPrefix
  rw [frameAt_tally]
  exact ⟨_, setFrame_tally s _, rfl⟩

/-- An operator closes the signs and asks for an operand. -/
theorem operator_tally (h : s.Balanced) :
    s.tally.operator s.outer.length = .ok s.operator.tally := by
  unfold Tally.operator
  rw [closeUnary_tally h]
  rfl

/-- Inside a string the books only follow the quote and the escape. -/
theorem inString_tally (s : State) (quote c : Char) :
    s.tally.inString quote c = (s.inString quote c).tally := by
  unfold Tally.inString State.inString
  show (if s.escaped then _ else _) = _
  split_ifs <;> rfl

/-- An entry comes to the books of a state, but for the level that it opens, which is counted
afterwards. -/
def Enters (entry : Except Lapse (Tally × Bool)) (r : State × Bool) : Prop :=
  ∃ t, entry = .ok (t, r.2) ∧ t.count r.2 = r.1.tally

/-- A question that the books and the state ask alike. -/
theorem Enters.ite {p : Prop} [Decidable p] {yes no : Except Lapse (Tally × Bool)}
    {r r' : State × Bool} (hyes : Enters yes r) (hno : Enters no r') :
    Enters (if p then yes else no) (if p then r else r') := by
  split_ifs
  · exact hyes
  · exact hno

/-- An entry that does not fail comes to what it leaves. -/
theorem enters_of_eq {entry : Except Lapse Tally} {t : Tally} (hentry : entry = .ok t)
    (hcount : t.count opened = s.tally) :
    Enters (do return (← entry, opened)) (s, opened) := by
  rw [hentry]
  exact ⟨t, rfl, hcount⟩

/-- What a character does to the books is what it does to the state. -/
theorem arm_tally (h : s.Balanced) (c : Char) (next : Option Char) :
    Enters (s.tally.arm s.outer.length c next) (stepCode s c next) := by
  -- The two entries that also open a level.
  obtain ⟨_, hconditional, hopened⟩ := openConditional_tally h
  obtain ⟨_, hprefix, hsigned⟩ := openPrefix_tally s
  unfold Tally.arm stepCode
  -- Both ask the same questions about the character, one after the other.
  refine .ite ⟨_, rfl, rfl⟩ ?_
  refine .ite ⟨_, rfl, rfl⟩ ?_
  refine .ite ⟨_, rfl, openBracket_tally s⟩ ?_
  refine .ite (enters_of_eq (closeBracket_tally h) rfl) ?_
  refine .ite (enters_of_eq hconditional hopened) ?_
  refine .ite (enters_of_eq (comma_tally h) rfl) ?_
  refine .ite (enters_of_eq hprefix hsigned) ?_
  refine .ite (enters_of_eq (operator_tally h) rfl) ?_
  exact .ite ⟨_, rfl, rfl⟩ ⟨_, rfl, rfl⟩

/-- From a balanced state on, a character is entered in the books without a lapse. -/
theorem step_tally (h : s.Balanced) (c : Char) (next : Option Char) :
    s.tally.step c next = .ok ((step s c next).1.tally, (step s c next).2) := by
  have hquote : s.tally.quote = s.quote := rfl
  unfold Tally.step step
  rw [hquote]
  cases s.quote with
  | some quote =>
      dsimp only
      rw [inString_tally]
  | none =>
      obtain ⟨t, harm, hcount⟩ := arm_tally h c next
      -- The index of the last entry is the size less one, and there is an entry.
      have hlast : Tally.take s.tally.frames.size 1 = .ok s.outer.length := by
        rw [size_tally]
        exact if_pos (Nat.le_add_left 1 _)
      dsimp only
      rw [hlast]
      show (s.tally.arm s.outer.length c next >>= _) = _
      rw [harm, ← hcount]
      rfl

/-! ### The scan -/

variable {limit offset : Nat} {t : Tally}

/-- The books are kept along a text, by induction on it from every balanced
state. -/
theorem scan_tally (h : s.Balanced) (cs : List Char) :
    s.tally.scan limit offset cs = .ok (scan limit s offset cs) := by
  induction cs generalizing s offset with
  | nil => rfl
  | cons c cs ih =>
      have hstep := step_tally h c cs.head?
      have hnext := h.step c cs.head?
      unfold Tally.scan scan
      rw [hstep]
      dsimp only [bind, Except.bind]
      -- The limit is compared to the same depth on both sides.
      have hdepth : (step s c cs.head?).1.tally.depth = (step s c cs.head?).1.depth := rfl
      rw [hdepth]
      split
      · rfl
      · exact ih hnext

/-- The scan with its books ends without a lapse, and as the scan without them. -/
theorem check_tally (source : String) (limit : Nat) :
    Tally.check source limit = .ok (check source limit) := by
  have hscan : Tally.initial.scan limit 0 source.toList = .ok (firstExcess source limit) :=
    scan_tally balanced_initial source.toList
  unfold Tally.check check
  rw [hscan]
  cases firstExcess source limit <;> rfl

/-- Under a limit, the scan of a text comes to a state with a rest of the text before it. -/
inductive Tally.Reaches (limit : Nat) (text : List Char) : Tally → List Char → Prop
  | start : Reaches limit text .initial text
  | next {t t' : Tally} {c : Char} {cs : List Char} {opened : Bool}
      (h : Reaches limit text t (c :: cs)) (hstep : t.step c cs.head? = .ok (t', opened))
      (hwithin : ¬(opened ∧ limit < t'.depth)) : Reaches limit text t' cs

/-- Whatever the scan comes to, its books show a balanced state. -/
theorem Tally.Reaches.balanced {text rest : List Char} (h : t.Reaches limit text rest) :
    ∃ s : State, s.Balanced ∧ t = s.tally := by
  induction h with
  | start => exact ⟨.initial, balanced_initial, rfl⟩
  | @next _ _ c cs _ _ hstep _ ih =>
      obtain ⟨s, hs, rfl⟩ := ih
      rw [step_tally hs] at hstep
      obtain ⟨rfl, -⟩ := Prod.mk.inj (Except.ok.inj hstep)
      exact ⟨_, hs.step c cs.head?, rfl⟩

/-- A bracket that closes nothing changes no level. -/
theorem step_surplus (next : Option Char) (hc : c = ')' ∨ c = ']') (hquote : s.quote = none)
    (houter : s.outer = []) : step s c next = ({ s with afterOperand := true }, false) := by
  have hstep : step s c next = (s.closeBracket, false) := by
    unfold step
    rw [hquote]
    rcases hc with rfl | rfl <;> rfl
  rw [hstep, State.closeBracket, houter]

/-- Along the scan of any text, under any limit, the books agree: there is a frame, and the
depth is the number of frames above the outermost one and all that is open in the frames. So no
character leads to a lapse, a bracket that closes nothing changes neither the depth nor the
frames, and the scan ends as the scan without books. -/
theorem tally_balanced (source : String) (limit : Nat) :
    Tally.check source limit = .ok (check source limit) ∧
    ∀ (t : Tally) (rest : List Char), t.Reaches limit source.toList rest →
      t.frames ≠ #[] ∧
      t.depth = t.frames.size - 1 + levelsOf t.frames.toList ∧
      (∀ c next, ∃ t' opened, t.step c next = .ok (t', opened)) ∧
      ∀ c next, c = ')' ∨ c = ']' → t.quote = none → t.frames.size = 1 →
        t.step c next = .ok ({ t with afterOperand := true }, false) := by
  refine ⟨check_tally source limit, fun t rest ht => ?_⟩
  -- All four parts are read off the balanced state that the books show.
  obtain ⟨s, hs, rfl⟩ := ht.balanced
  refine ⟨?_, depth_tally hs, fun c next => ⟨_, _, step_tally hs c next⟩,
    fun c next hc hquote hsize => ?_⟩
  · have hpos : 0 < s.tally.frames.size := by
      rw [size_tally]
      exact Nat.succ_pos _
    exact Array.ne_empty_of_size_pos hpos
  · rw [size_tally] at hsize
    have houter : s.outer = [] := List.eq_nil_of_length_eq_zero (Nat.succ.inj hsize)
    rw [step_tally hs, step_surplus next hc hquote houter]
    rfl

/-- Books that do not agree can come to a lapse: a sign is open that was never counted. -/
example : Tally.step ⟨#[⟨1, 0⟩], 0, none, false, true⟩ ',' none = .error .underflow := rfl

end Formula.Nesting
