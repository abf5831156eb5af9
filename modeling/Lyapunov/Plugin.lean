/-
Plugins: named methods that build the solution of a class of equations as an expression in the
data, with the options that they understand.
-/
import Lyapunov.Expr.Basic
import Lyapunov.Options.Schema

namespace Lyapunov

/-- A method for equations whose data are given as `Inputs`. -/
structure Plugin (Inputs : Type) (α : Type) where
  name : String
  doc : String
  version : Nat
  /-- The options of the method, without those that all methods share. -/
  options : List OptionSpec
  build : Inputs → Options → TryBuild (Expr α)

namespace Plugin

variable {Inputs α : Type}

/-- The version of the interface that the methods are written for. -/
def interfaceVersion : Nat := 23

/-- The method of a given name. -/
def lookup? (plugins : List (Plugin Inputs α)) (name : String) : Option (Plugin Inputs α) :=
  plugins.find? (·.name == name)

/-- The schemas that the options of the method are resolved against. -/
def schemas (p : Plugin Inputs α) : List (List OptionSpec) := [OptionSpec.generic, p.options]

/-- A short text for the plugin. -/
def debug (p : Plugin Inputs α) : String :=
  "Plugin \x7b name: \"" ++ p.name ++ s!"\", version: {p.version}, .. \x7d"

end Plugin

/-- Refuses the assumption of a positive definite solution, which no method makes use of. -/
def Options.rejectPositiveDefinite (o : Options) : Except Error Unit :=
  if o.boolOr "pos_def" false then throw .positiveDefinite else pure ()

end Lyapunov
