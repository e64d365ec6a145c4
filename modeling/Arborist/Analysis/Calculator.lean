import Arborist.Query.Document
import Arborist.Query.Print

/-!
# Scores of fields

A **calculator** scores a single field, given the score of its selections. Scores are unsigned
64-bit words, and sums and products stop at the largest of them.
-/

namespace Arborist.Analysis

open Query

/-- The largest score. -/
def maxScore : Nat := 18446744073709551615

/-- A sum of scores. -/
def addScores (a b : Nat) : Nat :=
  min (a + b) maxScore

/-- The sum of a list of scores, from left to right. -/
def sumScores (scores : List Nat) : Nat :=
  scores.foldl addScores 0

/-- A product of scores. -/
def mulScores (a b : Nat) : Nat :=
  min (a * b) maxScore

/-- What a calculator knows about a field. -/
structure Environment where
  field : Field
  /-- The selections of the field, as they were written. -/
  selections : Block Selection
  /-- The sum of the scores of the field's selections. -/
  inner : Nat
  vars : Option Variables

/-- The value of an argument, with variables resolved. -/
def Environment.argument? (env : Environment) (name : String) : Option Value :=
  (Query.argument? env.field.arguments name).map (·.resolve env.vars)

/-- The integer that an argument stands for. -/
def Environment.intArgument? (env : Environment) (name : String) : Option Int :=
  (Query.argument? env.field.arguments name).bind (·.asInt env.vars)

/-- Scores a field. -/
abbrev Calculator := Environment → Nat

namespace Calculator

/-- A field counts one more than its selections. -/
def standard : Calculator :=
  fun env => addScores env.inner 1

/-- Every field counts the same. -/
def const (score : Nat) : Calculator :=
  fun _ => score

/-- A field counts its weight, or one if it has none, on top of its selections. -/
def weights (weight : Dict Nat) : Calculator :=
  fun env => addScores env.inner ((weight.find? env.field.answerName).getD 1)

/-- The selections count as often as an argument says, once without it, and never if it is negative;
the field counts one more. -/
def multiply (name : String) : Calculator :=
  fun env =>
    let factor := match env.intArgument? name with
      | some i => i.toNat
      | none => 1
    addScores (mulScores env.inner factor) 1

/-- The weight of an argument by the length of its text. -/
def lengthScore : Option Value → Nat
  | none => 1
  | some .null => 2
  | some (.list []) => 3
  | some (.object []) => 5
  | some value => 10 + value.print.utf8ByteSize

/-- A field counts more the longer an argument is. -/
def argumentLength (name : String) : Calculator :=
  fun env => addScores env.inner (lengthScore (env.argument? name))

end Calculator

end Arborist.Analysis
