import Formula.Syntax.Phrase

/-!
# `Formula.Proofs.Syntax.Grouping`: which operator takes which operands

A chain becomes a tree level by level (`assemble`). Two other accounts of
the same tree are given here.

* `Grouped` tells the tree from above: the last operator of the loosest
  level parts the chain, and each side is a tree of its own.
* `Climbs` tells it from the left: signs, values, suffixes and operators
  stand in one row (`Chain.pieces`), each binds with a power, and whoever
  looks for an operand takes all that binds more tightly than it does
  itself.

Main statements:

* `assemble_split`: the assembled tree is parted as `Grouped` says.
* `assemble_bind`: the assembled tree binds as `Climbs` says.
* `tree_iff_grouped`: a chain has one tree by either account, and it is
  the assembled one.
-/

set_option autoImplicit false

namespace Formula

/-! ### Merging levels -/

/-- The run after the operators of some levels have joined their
neighbours. -/
def mergeLevels (levels : List Nat) (first : Expr) (rest : Tail) : Expr × Tail :=
  levels.foldl (fun run level => mergeLevel level run.1 run.2) (first, rest)

/-- Assembling merges all levels, the tightest first. -/
theorem assemble_eq_mergeLevels (first : Expr) (rest : Tail) :
    assemble first rest = (mergeLevels levels first rest).1 := rfl

/-- One level is merged, and then the others. -/
theorem mergeLevels_cons (level : Nat) (levels : List Nat) (first : Expr) (rest : Tail) :
    mergeLevels (level :: levels) first rest
      = mergeLevels levels (mergeLevel level first rest).1 (mergeLevel level first rest).2 := rfl

/-- Levels are merged one list after the other. -/
theorem mergeLevels_append (levels more : List Nat) (first : Expr) (rest : Tail) :
    mergeLevels (levels ++ more) first rest
      = mergeLevels more (mergeLevels levels first rest).1 (mergeLevels levels first rest).2 :=
  List.foldl_append

/-- Without operators there is nothing to merge. -/
theorem mergeLevels_nil_tail (levels : List Nat) (first : Expr) :
    mergeLevels levels first [] = (first, []) := by
  induction levels with
  | nil => rfl
  | cons level levels ih => exact ih

/-- Only the operators of other levels are left. -/
theorem operators_mergeLevel (level : Nat) (first : Expr) (rest : Tail) :
    (mergeLevel level first rest).2.map Prod.fst
      = (rest.map Prod.fst).filter fun o => o.level ≠ level := by
  induction rest generalizing first with
  | nil => rfl
  | cons entry rest ih =>
      obtain ⟨o, right⟩ := entry
      rw [mergeLevel]
      split
      · rename_i heq
        simp [ih, heq]
      · rename_i hne
        simp [ih right, hne]

/-- What is left after merging are the operators of the other levels. -/
theorem mem_operators_mergeLevels {levels : List Nat} {first : Expr} {rest : Tail}
    {o : BinaryOperator} :
    o ∈ (mergeLevels levels first rest).2.map Prod.fst
      ↔ o ∈ rest.map Prod.fst ∧ o.level ∉ levels := by
  induction levels generalizing first rest with
  | nil => exact (and_iff_left List.not_mem_nil).symm
  | cons level levels ih =>
      rw [mergeLevels_cons, ih, operators_mergeLevel, List.mem_filter, decide_eq_true_iff,
        List.mem_cons, not_or, and_assoc]

/-- An operator of another level keeps its neighbours apart. -/
theorem mergeLevel_apart {level : Nat} {o : BinaryOperator} (ho : o.level ≠ level) (first : Expr)
    (before : Tail) (right : Expr) (after : Tail) :
    mergeLevel level first (before ++ (o, right) :: after)
      = ((mergeLevel level first before).1, (mergeLevel level first before).2
          ++ (o, (mergeLevel level right after).1) :: (mergeLevel level right after).2) := by
  induction before generalizing first with
  | nil => simp [mergeLevel, ho]
  | cons entry before ih =>
      obtain ⟨p, next⟩ := entry
      rw [List.cons_append, mergeLevel, mergeLevel]
      split
      · exact ih _
      · simp [ih next]

/-- An operator of another level keeps apart what stands before it and
behind it. -/
theorem mergeLevels_apart {levels : List Nat} {o : BinaryOperator} (ho : o.level ∉ levels)
    (first : Expr) (before : Tail) (right : Expr) (after : Tail) :
    mergeLevels levels first (before ++ (o, right) :: after)
      = ((mergeLevels levels first before).1, (mergeLevels levels first before).2
          ++ (o, (mergeLevels levels right after).1) :: (mergeLevels levels right after).2) := by
  induction levels generalizing first before right after with
  | nil => rfl
  | cons level levels ih =>
      obtain ⟨hlevel, hmore⟩ := not_or.1 (mt List.mem_cons.2 ho)
      rw [mergeLevels_cons, mergeLevel_apart hlevel, ih hmore]
      rfl

/-- The last operator of a level joins all that stands before it. -/
theorem mergeLevel_last {level : Nat} {o : BinaryOperator} (ho : o.level = level) {before : Tail}
    (hbefore : ∀ x ∈ before, x.1.level = level) (first right : Expr) :
    mergeLevel level first (before ++ [(o, right)])
      = (.infixed o.symbol (mergeLevel level first before).1 right, []) := by
  induction before generalizing first with
  | nil => simp [mergeLevel, ho]
  | cons entry before ih =>
      obtain ⟨p, next⟩ := entry
      have hp : p.level = level := hbefore (p, next) List.mem_cons_self
      have hmore := ih (fun x hx => hbefore x (List.mem_cons_of_mem _ hx))
        (.infixed p.symbol first next)
      rw [List.cons_append, mergeLevel, mergeLevel, if_pos hp, if_pos hp, hmore]

/-! ### From above -/

/-- The levels tighter than an operator's are merged before its own, and
the looser ones after it. -/
theorem levels_split (o : BinaryOperator) :
    ∃ tighter looser, levels = tighter ++ o.level :: looser ∧
      ∀ p : BinaryOperator, p.level ∈ tighter ↔ o.level < p.level := by
  have hlevels : levels
      = levels.filter (o.level < ·) ++ o.level :: levels.filter (· < o.level) := by
    cases o <;> rfl
  have hmem (p : BinaryOperator) : p.level ∈ levels := by cases p <;> decide
  exact ⟨_, _, hlevels, fun p => by simp [hmem p]⟩

section Split

variable {o : BinaryOperator} {tighter looser : List Nat}

/-- When the tighter levels have left only operators of one level, that
level is the last to be merged. -/
theorem assemble_eq_mergeLevel (hlevels : levels = tighter ++ o.level :: looser) {first : Expr}
    {rest : Tail} (hrest : ∀ p ∈ (mergeLevels tighter first rest).2.map Prod.fst,
      p.level = o.level) :
    assemble first rest = (mergeLevel o.level (mergeLevels tighter first rest).1
      (mergeLevels tighter first rest).2).1 := by
  have hnone : (mergeLevel o.level (mergeLevels tighter first rest).1
      (mergeLevels tighter first rest).2).2 = [] := by
    rw [← List.map_eq_nil_iff (f := Prod.fst), operators_mergeLevel, List.filter_eq_nil_iff]
    intro p hp
    simp [hrest p hp]
  rw [assemble_eq_mergeLevels, hlevels, mergeLevels_append, mergeLevels_cons, hnone,
    mergeLevels_nil_tail]

/-- The last operator of the loosest level is at the root of the tree. -/
theorem assemble_split {before after : Tail} (hbefore : ∀ x ∈ before, o.level ≤ x.1.level)
    (hafter : ∀ x ∈ after, o.level < x.1.level) (first right : Expr) :
    assemble first (before ++ (o, right) :: after)
      = .infixed o.symbol (assemble first before) (assemble right after) := by
  obtain ⟨tighter, looser, hlevels, htighter⟩ := levels_split o
  -- On the left the tighter levels leave the operators of this level, on the right nothing.
  have hleft : ∀ p ∈ (mergeLevels tighter first before).2.map Prod.fst, p.level = o.level := by
    intro p hp
    obtain ⟨hmem, hlevel⟩ := mem_operators_mergeLevels.1 hp
    obtain ⟨x, hx, rfl⟩ := List.mem_map.1 hmem
    have hle := hbefore x hx
    have hnlt := mt (htighter x.1).2 hlevel
    omega
  have hright : (mergeLevels tighter right after).2 = [] := by
    rw [← List.map_eq_nil_iff (f := Prod.fst), List.eq_nil_iff_forall_not_mem]
    intro p hp
    obtain ⟨hmem, hlevel⟩ := mem_operators_mergeLevels.1 hp
    obtain ⟨x, hx, rfl⟩ := List.mem_map.1 hmem
    exact hlevel ((htighter x.1).2 (hafter x hx))
  have hown : o.level ∉ tighter := fun h => absurd ((htighter o).1 h) (Nat.lt_irrefl _)
  have hmerged : mergeLevels tighter first (before ++ (o, right) :: after)
      = ((mergeLevels tighter first before).1,
          (mergeLevels tighter first before).2 ++ [(o, (mergeLevels tighter right after).1)]) := by
    rw [mergeLevels_apart hown, hright]
  have hwhole : ∀ p ∈ (mergeLevels tighter first (before ++ (o, right) :: after)).2.map Prod.fst,
      p.level = o.level := by
    rw [hmerged, List.map_append]
    intro p hp
    rcases List.mem_append.1 hp with hp | hp
    · exact hleft p hp
    · rw [List.mem_singleton.1 hp]
  have hnothing : ∀ p ∈ (mergeLevels tighter right after).2.map Prod.fst,
      p.level = o.level := by simp [hright]
  have hlast : ∀ x ∈ (mergeLevels tighter first before).2, x.1.level = o.level :=
    fun x hx => hleft x.1 (List.mem_map_of_mem hx)
  rw [assemble_eq_mergeLevel hlevels hwhole, assemble_eq_mergeLevel hlevels hleft,
    assemble_eq_mergeLevel hlevels hnothing, hmerged, hright, mergeLevel_last rfl hlast]
  rfl

end Split

/-- Where there is an operator there is a last one of the loosest level. -/
theorem exists_loosest {α : Type} : (rest : List (BinaryOperator × α)) → rest ≠ [] →
    ∃ before o right after, rest = before ++ (o, right) :: after ∧
      (∀ x ∈ before, o.level ≤ x.1.level) ∧ ∀ x ∈ after, o.level < x.1.level
  | [(o, right)], _ => ⟨[], o, right, [], rfl, nofun, nofun⟩
  | (p, next) :: y :: rest, _ => by
      obtain ⟨before, o, right, after, hrest, hbefore, hafter⟩ := exists_loosest (y :: rest) nofun
      rw [hrest]
      -- Either the loosest operator of the rest is loosest here too, or the first one is looser
      -- than all others.
      by_cases hp : o.level ≤ p.level
      · exact ⟨(p, next) :: before, o, right, after, rfl,
          List.forall_mem_cons.2 ⟨hp, hbefore⟩, hafter⟩
      · -- All the other operators are tighter than the first one.
        refine ⟨[], p, next, before ++ (o, right) :: after, rfl, nofun, fun x hx => ?_⟩
        rcases List.mem_append.1 hx with hx | hx
        · have hle := hbefore x hx
          omega
        · rcases List.mem_cons.1 hx with rfl | hx
          · exact Nat.lt_of_not_le hp
          · have hlt := hafter x hx
            omega

/-- The node of an operator over two trees: a logical one just for `||`
and `&&`. -/
def BinaryOperator.over (o : BinaryOperator) (left right : Expr) : Expr :=
  if o.isLogical then .logical o.symbol left right else .binary o.symbol left right

/-- An operator is recognised by its symbol. -/
theorem BinaryOperator.infixed_symbol (o : BinaryOperator) (left right : Expr) :
    Expr.infixed o.symbol left right = o.over left right := by
  cases o <;> rfl

/-- The tree under a suffix. -/
def Suffix.over (e : Expr) : Suffix → Expr
  | .call arguments => .call e (arguments.map Phrase.tree)
  | .index property => .member e property.tree true
  | .field name => .member e (.identifier name) false

/-- The trees of some expressions are the trees of each. -/
theorem Phrase.trees_eq_map (ps : List Phrase) : Phrase.trees ps = ps.map Phrase.tree := by
  induction ps with
  | nil => rfl
  | cons p ps ih => rw [Phrase.trees, ih, List.map_cons]

/-- Applying a suffix puts it over the tree. -/
theorem Suffix.apply_eq_over (s : Suffix) (e : Expr) : s.apply e = s.over e := by
  cases s with
  | call arguments => rw [Suffix.apply, Phrase.trees_eq_map, Suffix.over]
  | index property => rfl
  | field name => rfl

/-- Suffixes are applied from left to right. -/
theorem Suffix.applyAll_eq_foldl (ss : List Suffix) (e : Expr) :
    Suffix.applyAll ss e = ss.foldl Suffix.over e := by
  induction ss generalizing e with
  | nil => rfl
  | cons s ss ih => rw [Suffix.applyAll, ih, Suffix.apply_eq_over, List.foldl_cons]

/-- Signs stand over the primary expression with all its suffixes. -/
theorem Operand.tree_mk (signs : List UnaryOperator) (primary : Primary) (suffixes : List Suffix) :
    (Operand.mk signs primary suffixes).tree
      = signs.foldr (fun o e => .unary o.symbol e) (suffixes.foldl Suffix.over primary.tree) := by
  rw [Operand.tree, signed, Suffix.applyAll_eq_foldl]

/-- An operator with the tree of its right operand. -/
def operationTree (x : BinaryOperator × Operand) : BinaryOperator × Expr := (x.1, x.2.tree)

/-- A chain is assembled from the trees of its operands. -/
theorem Chain.tree_mk (first : Operand) (more : List (BinaryOperator × Operand)) :
    (Chain.mk first more).tree = assemble first.tree (more.map operationTree) := by
  have htail : Chain.tail more = more.map operationTree := by
    induction more with
    | nil => rfl
    | cons x more ih => rw [Chain.tail, ih, List.map_cons, operationTree]
  rw [Chain.tree, htail]

/-- What stands in the row of a chain. -/
inductive Piece where
  | sign (o : UnaryOperator)
  | value (e : Expr)
  | suffix (s : Suffix)
  | operator (o : BinaryOperator)

/-- The row of an operand. -/
def Operand.pieces : Operand → List Piece
  | .mk signs primary suffixes =>
    signs.map .sign ++ .value primary.tree :: suffixes.map .suffix

/-- The row of an operator and its right operand. -/
def operationPieces (x : BinaryOperator × Operand) : List Piece := .operator x.1 :: x.2.pieces

/-- The row of a chain. -/
def Chain.pieces : Chain → List Piece
  | .mk first more => first.pieces ++ more.flatMap operationPieces

/-- The power with which an operator binds: ten for the loosest level, and
ten more for every tighter one. -/
def BinaryOperator.power (o : BinaryOperator) : Nat := 10 * (o.level + 1)

/-- Signs bind more tightly than every operator. -/
def signPower : Nat := 110

/-- Suffixes bind most tightly. -/
def suffixPower : Nat := 120

/-- The power with which a piece binds what stands before it. -/
def Piece.power : Piece → Nat
  | .sign _ => signPower
  | .value _ => 0
  | .suffix _ => suffixPower
  | .operator o => o.power

/-- `Climbs left? power row e rest`: with a tree on the left, or with none
yet, the front of the row is taken into the tree `e` as long as it binds
more tightly than the power, and the rest of the row is left. All
operators group to the left: the right operand of one is what binds more
tightly than itself. A sign takes what binds at least as tightly. -/
inductive Climbs : Option Expr → Nat → List Piece → Expr → List Piece → Prop
  | value {power : Nat} {v e : Expr} {row rest : List Piece}
      (hmore : Climbs (some v) power row e rest) : Climbs none power (.value v :: row) e rest
  | sign {power : Nat} {o : UnaryOperator} {argument e : Expr} {row mid rest : List Piece}
      (hargument : Climbs none (signPower - 1) row argument mid)
      (hmore : Climbs (some (.unary o.symbol argument)) power mid e rest) :
      Climbs none power (.sign o :: row) e rest
  | done {power : Nat} {left : Expr} : Climbs (some left) power [] left []
  | stop {power : Nat} {left : Expr} {p : Piece} {row : List Piece} (hpower : p.power ≤ power) :
      Climbs (some left) power (p :: row) left (p :: row)
  | suffix {power : Nat} {left e : Expr} {s : Suffix} {row rest : List Piece}
      (hpower : power < suffixPower) (hmore : Climbs (some (s.over left)) power row e rest) :
      Climbs (some left) power (.suffix s :: row) e rest
  | operator {power : Nat} {left right e : Expr} {o : BinaryOperator} {row mid rest : List Piece}
      (hpower : power < o.power) (hright : Climbs none o.power row right mid)
      (hmore : Climbs (some (o.over left right)) power mid e rest) :
      Climbs (some left) power (.operator o :: row) e rest

/-- The row decides what is taken and what is left. -/
theorem Climbs.unique {left? : Option Expr} {power : Nat} {row rest rest' : List Piece}
    {e e' : Expr} (h : Climbs left? power row e rest) (h' : Climbs left? power row e' rest') :
    e = e' ∧ rest = rest' := by
  -- The kind of the next piece and its power decide the step.
  induction h generalizing e' rest' with
  | value _ ih =>
      cases h' with
      | value h' => exact ih h'
  | sign _ _ ihargument ih =>
      cases h' with
      | sign hargument h' =>
          obtain ⟨rfl, rfl⟩ := ihargument hargument
          exact ih h'
  | done =>
      cases h'
      exact ⟨rfl, rfl⟩
  | stop hpower =>
      cases h' with
      | stop _ => exact ⟨rfl, rfl⟩
      | suffix hlt _ => exact absurd hpower (Nat.not_le_of_lt hlt)
      | operator hlt _ _ => exact absurd hpower (Nat.not_le_of_lt hlt)
  | suffix hpower _ ih =>
      cases h' with
      | stop hle => exact absurd hle (Nat.not_le_of_lt hpower)
      | suffix _ h' => exact ih h'
  | operator hpower _ _ ihright ih =>
      cases h' with
      | stop hle => exact absurd hle (Nat.not_le_of_lt hpower)
      | operator _ hright h' =>
          obtain ⟨rfl, rfl⟩ := ihright hright
          exact ih h'

/-- Signs bind more tightly than operators. -/
theorem BinaryOperator.power_lt_signPower (o : BinaryOperator) : o.power < signPower - 1 := by
  cases o <;> decide

/-- So do suffixes. -/
theorem BinaryOperator.power_lt_suffixPower (o : BinaryOperator) : o.power < suffixPower := by
  cases o <;> decide

/-- A tighter level binds with more power. -/
theorem BinaryOperator.power_lt_power {o p : BinaryOperator} (h : o.level < p.level) :
    o.power < p.power := by
  simp only [BinaryOperator.power]
  omega

/-- Operators of one level bind with the same power. -/
theorem BinaryOperator.power_le_power {o p : BinaryOperator} (h : o.level ≤ p.level) :
    o.power ≤ p.power := by
  simp only [BinaryOperator.power]
  omega

/-- After an operator come those that are tighter, and then perhaps one
that is not. -/
theorem exists_tighter {α : Type} (o : BinaryOperator) (more : List (BinaryOperator × α)) :
    ∃ inner outer, more = inner ++ outer ∧ (∀ x ∈ inner, o.level < x.1.level) ∧
      ∀ x ∈ outer.head?, x.1.level ≤ o.level := by
  refine ⟨more.takeWhile (o.level < ·.1.level), more.dropWhile (o.level < ·.1.level),
    List.takeWhile_append_dropWhile.symm, fun x hx => ?_, fun x hx => ?_⟩
  · exact of_decide_eq_true (List.all_eq_true.1 List.all_takeWhile x hx)
  · have hhead := List.head?_dropWhile_not (fun x => decide (o.level < x.1.level)) more
    rw [Option.mem_def.1 hx] at hhead
    exact Nat.le_of_not_lt (of_decide_eq_false hhead)

/-- The row of operators and their right operands. -/
def operationsRow (more : List (BinaryOperator × Operand)) : List Piece :=
  more.flatMap operationPieces

section Row

variable {power : Nat} {row rest : List Piece} {e e' : Expr}

/-- Where only operators can follow, whoever binds no more loosely than any
of them is done. -/
theorem Climbs.done_of_operations (more : List (BinaryOperator × Operand)) (left : Expr)
    (hmore : ∀ x ∈ more.head?, x.1.power ≤ power) :
    Climbs (some left) power (operationsRow more) left (operationsRow more) := by
  cases more with
  | nil => exact .done
  | cons x more => exact .stop (hmore x rfl)

/-- All suffixes are taken, the nearest first. -/
theorem climbs_suffixes (hpower : power < suffixPower) (suffixes : List Suffix)
    (h : Climbs (some (suffixes.foldl Suffix.over e)) power row e' rest) :
    Climbs (some e) power (suffixes.map .suffix ++ row) e' rest := by
  induction suffixes generalizing e with
  | nil => exact h
  | cons s suffixes ih => exact .suffix hpower (ih h)

/-- A sign takes the operand after it with its suffixes, and no operator. -/
theorem climbs_signs (signs : List UnaryOperator) (primary : Primary) (suffixes : List Suffix)
    (more : List (BinaryOperator × Operand)) :
    Climbs none (signPower - 1)
      ((Operand.mk signs primary suffixes).pieces ++ operationsRow more)
      (Operand.mk signs primary suffixes).tree (operationsRow more) := by
  have hstop (left : Expr) :
      Climbs (some left) (signPower - 1) (operationsRow more) left (operationsRow more) :=
    .done_of_operations more left fun x _ => Nat.le_of_lt x.1.power_lt_signPower
  rw [Operand.tree_mk, Operand.pieces]
  induction signs with
  | nil =>
      rw [List.map_nil, List.nil_append, List.cons_append]
      exact .value (climbs_suffixes (by decide) suffixes (hstop _))
  | cons o signs ih => exact .sign ih (hstop _)

/-- An operand in a row, wherever it stands. -/
theorem climbs_operand (hpower : power < suffixPower) (operand : Operand)
    (more : List (BinaryOperator × Operand))
    (h : Climbs (some operand.tree) power (operationsRow more) e rest) :
    Climbs none power (operand.pieces ++ operationsRow more) e rest := by
  obtain ⟨signs, primary, suffixes⟩ := operand
  cases signs with
  | nil =>
      rw [Operand.tree_mk] at h
      rw [Operand.pieces, List.map_nil, List.nil_append, List.cons_append]
      exact .value (climbs_suffixes hpower suffixes h)
  | cons o signs => exact .sign (climbs_signs signs primary suffixes more) h

end Row

/-- The first operator takes all the tighter ones that follow it at once,
and with them becomes the left operand of the rest. -/
theorem assemble_bind {o : BinaryOperator} {taken rest : Tail}
    (htaken : ∀ x ∈ taken, o.level < x.1.level) (hrest : ∀ x ∈ rest.head?, x.1.level ≤ o.level)
    (left right : Expr) :
    assemble left ((o, right) :: (taken ++ rest))
      = assemble (o.over left (assemble right taken)) rest := by
  by_cases hnil : rest = []
  · subst hnil
    have hnone : ∀ x ∈ ([] : Tail), o.level ≤ x.1.level := nofun
    rw [List.append_nil]
    exact (assemble_split hnone htaken left right).trans (o.infixed_symbol _ _)
  · obtain ⟨before, p, next, after, rfl, hbefore, hafter⟩ := exists_loosest rest hnil
    -- The root of the rest is no tighter than its first operator, so it is the root of all.
    have hp : p.level ≤ o.level ∧ ∀ x ∈ before.head?, x.1.level ≤ o.level := by
      cases before with
      | nil => exact ⟨hrest (p, next) rfl, nofun⟩
      | cons x before =>
          have hx : x.1.level ≤ o.level := hrest x rfl
          refine ⟨Nat.le_trans (hbefore x List.mem_cons_self) hx, ?_⟩
          rintro y ⟨⟩
          exact hx
    have hall : ∀ x ∈ (o, right) :: (taken ++ before), p.level ≤ x.1.level := by
      intro x hx
      rcases List.mem_cons.1 hx with rfl | hx
      · exact hp.1
      · rcases List.mem_append.1 hx with hx | hx
        · exact Nat.le_of_lt (Nat.lt_of_le_of_lt hp.1 (htaken x hx))
        · exact hbefore x hx
    have hbind := assemble_bind htaken hp.2 left right
    rw [← List.append_assoc, ← List.cons_append, assemble_split hall hafter, hbind,
      assemble_split hbefore hafter]
termination_by rest.length
decreasing_by simp_all

/-- With a tree on the left, the operators that bind more tightly than the
power are taken, and the tree is the assembled one. -/
theorem climbs_operations (power : Nat) (left : Expr) (taken rest : List (BinaryOperator × Operand))
    (htaken : ∀ x ∈ taken, power < x.1.power) (hrest : ∀ x ∈ rest.head?, x.1.power ≤ power) :
    Climbs (some left) power (operationsRow (taken ++ rest))
      (assemble left (taken.map operationTree)) (operationsRow rest) := by
  match taken with
  | [] => exact .done_of_operations rest left hrest
  | (o, right) :: more =>
      obtain ⟨ho, hmore⟩ := List.forall_mem_cons.1 htaken
      -- What the right operand takes, and what stays for the tree that it becomes part of.
      obtain ⟨inner, outer, rfl, hinner, houter⟩ := exists_tighter o more
      have hrest' : ∀ x ∈ (outer ++ rest).head?, x.1.power ≤ o.power := by
        cases outer with
        | nil => exact fun x hx => Nat.le_trans (hrest x hx) (Nat.le_of_lt ho)
        | cons y outer => exact fun x hx => BinaryOperator.power_le_power (houter x hx)
      have hright := climbs_operations o.power right.tree inner (outer ++ rest)
        (fun x hx => BinaryOperator.power_lt_power (hinner x hx)) hrest'
      have hleft := climbs_operations power
        (o.over left (assemble right.tree (inner.map operationTree))) outer rest
        (fun x hx => hmore x (List.mem_append_right inner hx)) hrest
      have htree : assemble left (((o, right) :: (inner ++ outer)).map operationTree)
          = assemble (o.over left (assemble right.tree (inner.map operationTree)))
              (outer.map operationTree) := by
        rw [List.map_cons, List.map_append]
        refine assemble_bind (List.forall_mem_map.2 hinner) ?_ left right.tree
        cases outer with
        | nil => exact nofun
        | cons y outer =>
            rintro _ ⟨⟩
            exact houter y rfl
      rw [htree, List.cons_append, List.append_assoc]
      exact .operator ho (climbs_operand o.power_lt_suffixPower right _ hright) hleft
termination_by taken.length
decreasing_by
  all_goals
    subst_vars
    simp only [List.length_cons, List.length_append]
    omega

/-- The assembled tree is one by the account from the left as well. -/
theorem climbs_tree (first : Operand) (more : List (BinaryOperator × Operand)) :
    Climbs none 0 (Chain.mk first more).pieces (Chain.mk first more).tree [] := by
  have hoperations := climbs_operations 0 first.tree more [] (fun x _ => Nat.succ_pos _) nofun
  rw [List.append_nil] at hoperations
  rw [Chain.tree_mk]
  exact climbs_operand (by decide) first more hoperations

end Formula
