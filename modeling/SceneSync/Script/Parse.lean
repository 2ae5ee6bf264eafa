import SceneSync.Script.Grammar.Expression
import SceneSync.Script.Grammar.Module

/-!
# Parsing scripts

The rules of the grammar are closed over themselves here. Each goal that a goal
opens is one level deeper, and no source nests deeper than its length allows.
-/

namespace SceneSync.Script

open Script.Parser

namespace Grammar

/-- A statement of any kind, told by its first token. -/
def anyStatement (rules : Rules) : Parser Tree := do
  match ← token with
  | .punct "\x7b" => rules .block
  | .punct ";" => emptyStatement
  | .punct "@" => decorated rules (exportStatement rules)
  | .name "export" => exportStatement rules
  | .name "import" =>
    let next := (← ahead).1
    if next == .punct "(" || next == .punct "." then expressionStatement rules
    else importStatement rules
  | .name w => wordStatement rules w
  | _ => expressionStatement rules

def reading (rules : Rules) : Rules
  | .statement => anyStatement rules
  | .block => block rules
  | .expression noIn => sequence rules noIn
  | .assignment mode => assignmentExpression rules mode
  | .operation level noIn => operation rules level noIn
  | .unary => unary rules
  | .chain => chain rules
  | .construction => construction rules
  | .pattern => pattern rules
  | .type => type rules
  | .plainType => plainType rules
  | .typeOperand => typeOperand rules
  | .markup => markupElement rules

/-- The parser of the goals, with at most the given number of them inside each
other. -/
def rulesTo : Nat → Rules
  | 0 => fun _ => failure
  | depth + 1 => fun goal => reading (rulesTo depth) goal

end Grammar

/-- A whole source: statements to its end. -/
def program : Parser Tree := do
  if (← token) == .hashbang then advance
  let c ← here
  let depth := 16 * (c.size + 2)
  let ss ← repeated do
    if (← token) == .done then return none
    return some (← Grammar.rulesTo depth .statement)
  return .node .plain .program 0 (← here).start ss

/-- The tree of a source, or `none` when it is no script of the dialect. -/
def parse? (dialect : Dialect) (source : List Char) : Option Tree :=
  match program (Cursor.ofText dialect source) with
  | some (t, _) => if Grammar.holdsDefault t then none else some t
  | none => none

end SceneSync.Script
