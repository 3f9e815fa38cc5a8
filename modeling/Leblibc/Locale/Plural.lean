import Leblibc.Stdlib.StrtolCorrect

/-!
# The language of plural expressions

The expressions that select a plural form: constants, the number `n`, and the operators of C with their precedence
and associativity, computed in `unsigned long`. C evaluates `&&`, `||` and `?:` only as far as it has to; an evaluator
that computes all operands meets every division of the expression.

## Main results

* `Expr.eval_of_evalAll`: where all operands have values, C finds the same value
* `Expr.evalAll_eq_none_iff`: all operands have values if no divisor is zero
-/

namespace Leblibc.Plural

open Strtol (isspace dec value)

/-! ## Operators -/

/-- The binary operators, in the order of the table in the source. -/
inductive Op where
  | or | and | eq | ne | ge | le | gt | lt | add | sub | mul | mod | div
  deriving DecidableEq

/-- A truth value as a number. -/
def truth (p : Prop) [Decidable p] : ℕ := if p then 1 else 0

namespace Op

/-- How an operator is written. -/
def text : Op → List UInt8
  | or => [124, 124]
  | and => [38, 38]
  | eq => [61, 61]
  | ne => [33, 61]
  | ge => [62, 61]
  | le => [60, 61]
  | gt => [62]
  | lt => [60]
  | add => [43]
  | sub => [45]
  | mul => [42]
  | mod => [37]
  | div => [47]

/-- The precedence of an operator: the larger, the closer it binds. -/
def prec : Op → ℕ
  | or => 1
  | and => 2
  | eq | ne => 3
  | ge | le | gt | lt => 4
  | add | sub => 5
  | mul | mod | div => 6

/-- Whether the right operand is a divisor. -/
def divides : Op → Bool
  | mod | div => true
  | _ => false

/-- The value for two operands, unless the second one is a divisor and zero. -/
def apply (arch : Arch) (op : Op) (a b : ℕ) : Option ℕ :=
  match op with
  | or => some (truth (a ≠ 0 ∨ b ≠ 0))
  | and => some (truth (a ≠ 0 ∧ b ≠ 0))
  | eq => some (truth (a = b))
  | ne => some (truth (a ≠ b))
  | ge => some (truth (a ≥ b))
  | le => some (truth (a ≤ b))
  | gt => some (truth (a > b))
  | lt => some (truth (a < b))
  | add => some (arch.wrap (a + b))
  | sub => some (arch.sub a b)
  | mul => some (arch.wrap (a * b))
  | mod => if b ≠ 0 then some (a % b) else none
  | div => if b ≠ 0 then some (a / b) else none

/-- The value that C computes: the second operand of `||` and `&&` only if the first one does not decide. -/
def lazily (arch : Arch) (op : Op) (a b : Option ℕ) : Option ℕ :=
  match op with
  | or => a.bind fun x => if x ≠ 0 then some 1 else b.map fun y => truth (y ≠ 0)
  | and => a.bind fun x => if x = 0 then some 0 else b.map fun y => truth (y ≠ 0)
  | _ => a.bind fun x => b.bind fun y => op.apply arch x y

theorem prec_pos (op : Op) : 0 < op.prec := by
  cases op <;> decide

theorem prec_lt (op : Op) : op.prec < 7 := by
  cases op <;> decide

theorem lazily_some (arch : Arch) (op : Op) (x y : ℕ) : op.lazily arch (some x) (some y) = op.apply arch x y := by
  cases op with
  | or => by_cases hx : x = 0 <;> simp [lazily, apply, truth, hx]
  | and => by_cases hx : x = 0 <;> simp [lazily, apply, truth, hx]
  | _ => rfl

theorem apply_eq_none_iff (arch : Arch) (op : Op) (x y : ℕ) :
    op.apply arch x y = none ↔ op.divides = true ∧ y = 0 := by
  cases op <;> simp [apply, divides]

end Op

/-! ## Expressions -/

/-- The expressions. Parentheses and the digits of constants are kept. -/
inductive Expr where
  | num (ds : List UInt8)
  | var
  | paren (e : Expr)
  | not (e : Expr)
  | bin (op : Op) (a b : Expr)
  | cond (c a b : Expr)

namespace Expr

/-- The precedence of an expression: 0 for a conditional, that of the operator, and 7 for what is not taken apart. -/
def level : Expr → ℕ
  | bin op _ _ => op.prec
  | cond _ _ _ => 0
  | _ => 7

/-- The expressions of the grammar: binary operators associate to the left, `?:` to the right, and constants are
below `ULONG_MAX`. -/
def WellFormed (arch : Arch) : Expr → Prop
  | num ds => ds ≠ [] ∧ (∀ c ∈ ds, dec c < 10) ∧ value 10 ds < 2 ^ arch.bits - 1
  | var => True
  | paren e => e.WellFormed arch
  | not e => e.level = 7 ∧ e.WellFormed arch
  | bin op a b => (op.prec ≤ a.level ∧ op.prec < b.level) ∧ a.WellFormed arch ∧ b.WellFormed arch
  | cond c a b => 0 < c.level ∧ c.WellFormed arch ∧ a.WellFormed arch ∧ b.WellFormed arch

end Expr

/-- A text that is only space. -/
def Space (w : List UInt8) : Prop := ∀ c ∈ w, isspace c = true

/-- **The texts of an expression**: its tokens, with space before, behind and between them. -/
inductive Written : Expr → List UInt8 → Prop
  | num {ds w w' : List UInt8} (hw : Space w) (hw' : Space w') : Written (.num ds) (w ++ (ds ++ w'))
  | var {w w' : List UInt8} (hw : Space w) (hw' : Space w') : Written .var (w ++ 110 :: w')
  | paren {e : Expr} {u w w' : List UInt8} (hw : Space w) (hw' : Space w') (h : Written e u) :
    Written (.paren e) (w ++ 40 :: (u ++ 41 :: w'))
  | not {e : Expr} {u w : List UInt8} (hw : Space w) (h : Written e u) : Written (.not e) (w ++ 33 :: u)
  | bin {op : Op} {a b : Expr} {u u' : List UInt8} (ha : Written a u) (hb : Written b u') :
    Written (.bin op a b) (u ++ (op.text ++ u'))
  | cond {c a b : Expr} {u u' u'' : List UInt8} (hc : Written c u) (ha : Written a u') (hb : Written b u'') :
    Written (.cond c a b) (u ++ 63 :: (u' ++ 58 :: u''))

/-! ## Values -/

namespace Expr

/-- **The value that C assigns to an expression** in `unsigned long`; `none` is a division by zero. -/
def eval (arch : Arch) (n : ℕ) : Expr → Option ℕ
  | num ds => some (value 10 ds)
  | var => some n
  | paren e => e.eval arch n
  | not e => (e.eval arch n).map fun x => truth (x = 0)
  | bin op a b => op.lazily arch (a.eval arch n) (b.eval arch n)
  | cond c a b => (c.eval arch n).bind fun x => if x ≠ 0 then a.eval arch n else b.eval arch n

/-- The value when all operands are computed. -/
def evalAll (arch : Arch) (n : ℕ) : Expr → Option ℕ
  | num ds => some (value 10 ds)
  | var => some n
  | paren e => e.evalAll arch n
  | not e => (e.evalAll arch n).map fun x => truth (x = 0)
  | bin op a b => (a.evalAll arch n).bind fun x => (b.evalAll arch n).bind fun y => op.apply arch x y
  | cond c a b =>
    (c.evalAll arch n).bind fun x => (a.evalAll arch n).bind fun y => (b.evalAll arch n).map fun z =>
      if x ≠ 0 then y else z

/-- Some `/` or `%` in the expression, computed by C or not, has a divisor whose value is zero. -/
def ZeroDivisor (arch : Arch) (n : ℕ) : Expr → Prop
  | num _ => False
  | var => False
  | paren e => e.ZeroDivisor arch n
  | not e => e.ZeroDivisor arch n
  | bin op a b =>
    a.ZeroDivisor arch n ∨ b.ZeroDivisor arch n ∨ (op.divides = true ∧ b.eval arch n = some 0)
  | cond c a b => c.ZeroDivisor arch n ∨ a.ZeroDivisor arch n ∨ b.ZeroDivisor arch n

variable {arch : Arch} {n : ℕ}

/-- **A value of all operands is the value**: C skips operands, but does not compute others. -/
theorem eval_of_evalAll : ∀ {e : Expr} {v : ℕ}, e.evalAll arch n = some v → e.eval arch n = some v
  | num _, _, h => h
  | var, _, h => h
  | paren e, _, h => eval_of_evalAll (e := e) h
  | not e, v, h => by
    obtain ⟨x, hx, rfl⟩ := Option.map_eq_some_iff.mp h
    rw [eval, eval_of_evalAll hx]
    rfl
  | bin op a b, v, h => by
    obtain ⟨x, hx, h⟩ := Option.bind_eq_some_iff.mp h
    obtain ⟨y, hy, h⟩ := Option.bind_eq_some_iff.mp h
    rw [eval, eval_of_evalAll hx, eval_of_evalAll hy, Op.lazily_some]
    exact h
  | cond c a b, v, h => by
    obtain ⟨x, hx, h⟩ := Option.bind_eq_some_iff.mp h
    obtain ⟨y, hy, h⟩ := Option.bind_eq_some_iff.mp h
    obtain ⟨z, hz, rfl⟩ := Option.map_eq_some_iff.mp h
    rw [eval, eval_of_evalAll hx, eval_of_evalAll hy, eval_of_evalAll hz, Option.bind_some]
    split <;> rfl

/-- **A value is missing** if some divisor is zero, and only then. -/
theorem evalAll_eq_none_iff : ∀ {e : Expr}, e.evalAll arch n = none ↔ e.ZeroDivisor arch n
  | num _ => by simp [evalAll, ZeroDivisor]
  | var => by simp [evalAll, ZeroDivisor]
  | paren e => evalAll_eq_none_iff (e := e)
  | not e => by
    rw [evalAll, Option.map_eq_none_iff]
    exact evalAll_eq_none_iff
  | bin op a b => by
    rw [evalAll, ZeroDivisor, ← evalAll_eq_none_iff, ← evalAll_eq_none_iff]
    cases ha : a.evalAll arch n with
    | none => simp
    | some x =>
      cases hb : b.evalAll arch n with
      | none => simp
      | some y =>
        rw [Option.bind_some, Option.bind_some, Op.apply_eq_none_iff, eval_of_evalAll hb]
        simp
  | cond c a b => by
    rw [evalAll, ZeroDivisor, ← evalAll_eq_none_iff, ← evalAll_eq_none_iff,
      ← evalAll_eq_none_iff]
    cases hc : c.evalAll arch n <;> cases ha : a.evalAll arch n <;> cases hb : b.evalAll arch n <;> simp

/-! ## Nesting -/

/-- The calls from the function for all expressions to the one that takes apart those of a precedence: there is one
for conditionals, one for binary operators, and one for the rest. -/
def steps (l : ℕ) : ℕ := if l = 0 then 0 else if l < 7 then 1 else 2

/-- How deep the calls are nested below the function that takes the expression apart, itself included. The left
operand of a binary operator is read by the same call, and the right one by another. -/
def depth : Expr → ℕ
  | num _ => 1
  | var => 1
  | paren e => 1 + (e.depth + steps e.level)
  | not e => 1 + e.depth
  | bin _ a b => max (a.depth + (steps a.level - 1)) (1 + (b.depth + (steps b.level - 1)))
  | cond c a b => 1 + max (c.depth + (steps c.level - 1)) (max (a.depth + steps a.level) (b.depth + steps b.level))

/-- How deep the calls are nested when the expression is read as an operand. -/
def operandDepth (e : Expr) : ℕ := e.depth + (steps e.level - 1)

/-- How deep the calls are nested when the expression is read as a whole. -/
def fullDepth (e : Expr) : ℕ := e.depth + steps e.level

theorem depth_pos (e : Expr) : 0 < e.depth := by
  cases e <;> simp [depth]

theorem operandDepth_of_level {e : Expr} (h : e.level = 7) : e.operandDepth = e.depth + 1 := by
  simp [operandDepth, steps, h]

theorem operandDepth_bin (op : Op) (a b : Expr) :
    (bin op a b).operandDepth = max a.operandDepth (1 + b.operandDepth) := by
  cases op <;> rfl

theorem fullDepth_of_level {e : Expr} (h : 0 < e.level) : e.fullDepth = e.operandDepth + 1 := by
  unfold fullDepth operandDepth steps
  rw [if_neg h.ne']
  split <;> rfl

theorem fullDepth_cond (c a b : Expr) :
    (cond c a b).fullDepth = 1 + max c.operandDepth (max a.fullDepth b.fullDepth) := rfl

theorem depth_paren (e : Expr) : (paren e).depth = 1 + e.fullDepth := rfl

end Expr

end Leblibc.Plural
