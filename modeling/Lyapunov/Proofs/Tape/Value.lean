/-
The value of an expression, by recursion over its operations and without a tape: a symbol has the
value that is bound to it, and an operation is given by the entries of its result. Nothing is assumed
of the scalars, so sums are taken in the order in which they are written, and over the places of a
matrix column by column.
-/
import Lyapunov.Tape

namespace Lyapunov

variable {α : Type} [Scalar α]

/-- The solution of a linear system. A right-hand side without columns has the solution without
columns; otherwise a singular matrix has none, and neither has the one without rows. -/
def solution (m b : Dense α) : Except Error (Dense α) :=
  if b.cols = 0 then .ok (.ofFn m.cols 0 fun _ _ => 0)
  else if m.rows = 0 then .error .emptySystem
  else match m.solve? b with
    | some x => .ok x
    | none => .error (.singularMatrix m.rows)

namespace Expr

/-- The value of an expression when the symbol with number `i` has the value `env i`. -/
def value (env : Nat → Dense α) : Expr α → Except Error (Dense α)
  | .symbol i _ _ => .ok (env i)
  | .constant _ m => .ok m
  | .unary _ op x => do
    let a ← x.value env
    match op with
    | .neg => .ok (.ofFn a.rows a.cols fun i j => -a.get i j)
    | .scale c => .ok (.ofFn a.rows a.cols fun i j => a.get i j * c)
    | .transpose => .ok (.ofFn a.cols a.rows fun i j => a.get j i)
    | .reshape s =>
      -- entry (i, j) is the one in place i + j * rows of the column order
      .ok (.ofFn s.rows s.cols fun i j =>
        a.get ((i + j * s.rows) % a.rows) ((i + j * s.rows) / a.rows))
  | .binary _ op x y => do
    let a ← x.value env
    let b ← y.value env
    match op with
    | .add => .ok (.ofFn a.rows a.cols fun i j => a.get i j + b.get i j)
    | .matmul => .ok (.ofFn a.rows b.cols fun i j => sumBelow a.cols fun k => a.get i k * b.get k j)
    | .kron =>
      .ok (.ofFn (a.rows * b.rows) (a.cols * b.cols) fun i j =>
        a.get (i / b.rows) (j / b.cols) * b.get (i % b.rows) (j % b.cols))
    | .kronContractLeft =>
      .ok (.ofFn (a.rows / b.rows) (a.cols / b.cols) fun i j =>
        Dense.sumPlaces b.shape fun k l => a.get (i * b.rows + k) (j * b.cols + l) * b.get k l)
    | .kronContractRight =>
      .ok (.ofFn (a.rows / b.rows) (a.cols / b.cols) fun k l =>
        Dense.sumPlaces b.shape fun i j =>
          a.get (i * (a.rows / b.rows) + k) (j * (a.cols / b.cols) + l) * b.get i j)
    | .solve => solution a b
    | .assertion message => if b.get 0 0 == 1 then .ok a else .error (.assertionFailed message)

variable (env : Nat → Dense α)

@[simp] theorem value_symbol (i : Nat) (name : String) (s : Shape) :
    (symbol i name s : Expr α).value env = .ok (env i) := rfl

@[simp] theorem value_constant (i : Nat) (m : Dense α) : (constant i m).value env = .ok m := rfl

theorem value_of_isSymbol {e : Expr α} (h : e.isSymbol = true) : e.value env = .ok (env e.id) := by
  cases e with
  | symbol => rfl
  | _ => cases h

/-- The value of an operation on one matrix is that of the tape's instruction. -/
theorem value_unary (i : Nat) (op : UnaryOp α) (x : Expr α) :
    (unary i op x).value env = op.eval <$> x.value env := by
  rw [value]
  cases x.value env with
  | error e => rfl
  | ok a =>
    cases op with
    | reshape s =>
      simp only [bind, Except.bind, ← Dense.entry_eq_get]
      rfl
    | _ => rfl

/-- The value of an operation on two matrices is that of the tape's instruction. -/
theorem value_binary (i : Nat) (op : BinaryOp) (x y : Expr α) :
    (binary i op x y).value env = (do op.eval (← x.value env) (← y.value env)) := by
  rw [value]
  cases op <;> rfl

/-- The value of an expression that has one; without one, the matrix without entries. -/
def valueD (e : Expr α) : Dense α :=
  match e.value env with
  | .ok v => v
  | .error _ => Tape.noValue

theorem valueD_eq {e : Expr α} {v : Dense α} (h : e.value env = .ok v) : e.valueD env = v := by
  unfold valueD; rw [h]

end Expr

end Lyapunov
