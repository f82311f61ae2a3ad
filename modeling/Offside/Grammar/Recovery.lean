import Offside.Grammar.Parser

/-!
# Recovery

A malformed statement is given up and the tokens up to the next statement are skipped, so that one
pass reports several independent faults. The offending token is dropped, and then everything up to a
line end, which goes too, or up to a word that starts a statement or the end of the enclosing block,
which stay. An indented region that belongs to no statement is skipped as a whole, and so is the
body of a header line that failed.
-/

namespace Offside.Grammar

/-- Skip an indented region, from its indent token on, with `depth` regions already open. -/
def skipBlock (depth : Nat) : List Token → List Token
  | [] => []
  | t :: ts =>
    match t.kind with
    | .indent => skipBlock (depth + 1) ts
    | .dedent => if depth ≤ 1 then ts else skipBlock (depth - 1) ts
    | _ => skipBlock depth ts

/-- Skip an indented region if one starts here. -/
def skipOrphan : List Token → List Token
  | [] => []
  | t :: ts => if t.kind = .indent then skipBlock 0 (t :: ts) else t :: ts

/-- Skip the rest of a malformed statement. -/
def skipStatement : List Token → List Token
  | [] => []
  | t :: ts =>
    match t.kind with
    | .dedent => t :: ts
    | .indent => skipBlock 0 (t :: ts)
    | .newline => skipOrphan ts
    | kind => if kind.startsStatement then t :: ts else skipStatement ts

/-- Skip from the offending token of a malformed statement to the next statement. -/
def synchronize : List Token → List Token
  | [] => []
  | t :: ts =>
    match t.kind with
    | .dedent => t :: ts
    | .indent => skipBlock 0 (t :: ts)
    | .newline => skipOrphan ts
    | _ => skipStatement ts

/-- Run a parser; if it stops, record why and skip to the next statement. -/
def recovering {α : Type} (p : Parser α) : Parser (Option α) := fun last tokens =>
  match p last tokens with
  | ⟨.ok a, notes, rest⟩ => ⟨.ok (some a), notes, rest⟩
  | ⟨.error e, notes, rest⟩ => ⟨.ok none, notes ++ [e], synchronize rest⟩

end Offside.Grammar
