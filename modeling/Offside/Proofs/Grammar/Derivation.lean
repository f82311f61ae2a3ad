import Mathlib.Data.List.Forall2
import Mathlib.Data.List.Infix
import Offside.Grammar

/-!
# The grammar as derivations

The grammar of the language, as rules that derive a tree from tokens. The rules know nothing of how
programs are parsed. Operators of one rank associate to the left, operators before an operand nest to
the right, and calls nest to the left, so the rules for these are recursive on that side.

* `Rank`, `Operator`, `Sign`, `Denotes`: the ranks of expressions, and what single tokens stand for;
* `Phrase`, `Derives`: the things that the grammar is about, and its rules;
* `Terminal`, `exprTerminals`, `stmtTerminals`: the tokens of a tree, as far as the tree tells;
* `Balanced`: token lists whose indents and dedents match up.
-/

namespace Offside.Grammar

/-! ### Tokens -/

/-- How tightly the parts of an expression hold together, from loosest to tightest. -/
inductive Rank
  | disjunction | conjunction | comparison | sum | product | prefixed | applied | primary
  deriving DecidableEq, Repr

/-- The next tighter rank. -/
def Rank.next : Rank → Rank
  | .disjunction => .conjunction
  | .conjunction => .comparison
  | .comparison => .sum
  | .sum => .product
  | .product => .prefixed
  | .prefixed => .applied
  | .applied | .primary => .primary

/-- The operators between operands, by rank. -/
inductive Operator : Rank → Kind → Connective → Prop
  | or : Operator .disjunction .orWord (.logical .or)
  | and : Operator .conjunction .andWord (.logical .and)
  | equals : Operator .comparison .equalsWord (.binary .equal)
  | unequals : Operator .comparison .unequalsWord (.binary .notEqual)
  | less : Operator .comparison .less (.binary .less)
  | lessEqual : Operator .comparison .lessEqual (.binary .lessEqual)
  | greater : Operator .comparison .greater (.binary .greater)
  | greaterEqual : Operator .comparison .greaterEqual (.binary .greaterEqual)
  | plus : Operator .sum .plus (.binary .add)
  | minus : Operator .sum .minus (.binary .subtract)
  | asterisk : Operator .product .asterisk (.binary .multiply)
  | slash : Operator .product .slash (.binary .divide)

/-- The operators before an operand. -/
inductive Sign : Kind → UnaryOp → Prop
  | not : Sign .notWord .not
  | minus : Sign .minus .negate

/-- The constants that tokens denote. A number or a text has to carry its literal. -/
inductive Denotes (t : Token) : Constant → Prop
  | true : t.kind = .trueWord → Denotes t (.bool true)
  | false : t.kind = .falseWord → Denotes t (.bool false)
  | empty : t.kind = .emptyWord → Denotes t .empty
  | number {x : Number} : t.kind = .number ∨ t.kind = .text → t.literal = some (.number x) →
    Denotes t (.number x)
  | text {s : String} : t.kind = .number ∨ t.kind = .text → t.literal = some (.text s) →
    Denotes t (.text s)

/-! ### Rules -/

/-- What the grammar derives from tokens. -/
inductive Phrase
  | expression (rank : Rank) (e : Expr)
  /-- One or more arguments of a call. -/
  | arguments (es : List Expr)
  /-- One or more parameters of a function. -/
  | parameters (ps : List Token)
  | statement (s : Stmt)
  | statements (ss : List Stmt)
  | block (ss : List Stmt)
  /-- The further branches of a conditional. -/
  | alternatives (r : Else)
  | program (ss : List Stmt)

/-- The rules of the grammar. -/
inductive Derives : Phrase → List Token → Prop
  | constant {t : Token} {c : Constant} : Denotes t c →
    Derives (.expression .primary (.constant c)) [t]
  | variable {t : Token} : t.kind = .identifier →
    Derives (.expression .primary (.variable t)) [t]
  | group {l r : Token} {e : Expr} {ts : List Token} : l.kind = .leftParen →
    Derives (.expression .disjunction e) ts → r.kind = .rightParen →
    Derives (.expression .primary (.group e)) (l :: (ts ++ [r]))
  | tighter {rank : Rank} {e : Expr} {ts : List Token} : Derives (.expression rank.next e) ts →
    Derives (.expression rank e) ts
  | call {f : Expr} {l r : Token} {ts : List Token} : Derives (.expression .applied f) ts →
    l.kind = .leftParen → r.kind = .rightParen →
    Derives (.expression .applied (.call f [] r)) (ts ++ [l, r])
  | callWith {f : Expr} {es : List Expr} {l r : Token} {ts us : List Token} :
    Derives (.expression .applied f) ts → l.kind = .leftParen → Derives (.arguments es) us →
    es.length ≤ 255 → r.kind = .rightParen →
    Derives (.expression .applied (.call f es r)) (ts ++ l :: (us ++ [r]))
  | unary {t : Token} {op : UnaryOp} {e : Expr} {ts : List Token} : Sign t.kind op →
    Derives (.expression .prefixed e) ts →
    Derives (.expression .prefixed (.unary op t e)) (t :: ts)
  | binary {rank : Rank} {t : Token} {c : Connective} {l r : Expr} {ts us : List Token} :
    Derives (.expression rank l) ts → Operator rank t.kind c →
    Derives (.expression rank.next r) us →
    Derives (.expression rank (c.apply t l r)) (ts ++ t :: us)
  | argument {e : Expr} {ts : List Token} : Derives (.expression .disjunction e) ts →
    Derives (.arguments [e]) ts
  | moreArguments {e : Expr} {es : List Expr} {c : Token} {ts us : List Token} :
    Derives (.expression .disjunction e) ts → c.kind = .comma → Derives (.arguments es) us →
    Derives (.arguments (e :: es)) (ts ++ c :: us)
  | parameter {p : Token} : p.kind = .identifier → Derives (.parameters [p]) [p]
  | moreParameters {p c : Token} {ps ts : List Token} : p.kind = .identifier → c.kind = .comma →
    Derives (.parameters ps) ts → Derives (.parameters (p :: ps)) (p :: c :: ts)
  | change {w name q n : Token} {e : Expr} {ts us : List Token} : w.kind = .changeWord →
    Derives (.expression .disjunction (.variable name)) ts → q.kind = .equal →
    Derives (.expression .disjunction e) us → n.kind = .newline →
    Derives (.statement (.change name e)) (w :: (ts ++ q :: (us ++ [n])))
  | create {w name q n : Token} {e : Expr} {ts : List Token} : w.kind = .createWord →
    name.kind = .identifier → q.kind = .equal → Derives (.expression .disjunction e) ts →
    n.kind = .newline →
    Derives (.statement (.create name e)) (w :: name :: q :: (ts ++ [n]))
  | define {w name l r : Token} {ss : List Stmt} {ts : List Token} : w.kind = .defineWord →
    name.kind = .identifier → l.kind = .leftParen → r.kind = .rightParen →
    Derives (.block ss) ts →
    Derives (.statement (.define name [] ss)) (w :: name :: l :: r :: ts)
  | defineWith {w name l a r : Token} {ps us ts : List Token} {ss : List Stmt} :
    w.kind = .defineWord → name.kind = .identifier → l.kind = .leftParen →
    a.kind = .acceptWord → Derives (.parameters ps) us → ps.length ≤ 255 →
    r.kind = .rightParen → Derives (.block ss) ts →
    Derives (.statement (.define name ps ss)) (w :: name :: l :: a :: (us ++ r :: ts))
  | expressionStatement {e : Expr} {n : Token} {ts : List Token} :
    Derives (.expression .disjunction e) ts → n.kind = .newline →
    Derives (.statement (.expression e)) (ts ++ [n])
  | conditional {w : Token} {e : Expr} {ss : List Stmt} {r : Else} {ts us vs : List Token} :
    w.kind = .ifWord → Derives (.expression .disjunction e) ts → Derives (.block ss) us →
    Derives (.alternatives r) vs →
    Derives (.statement (.branch w e ss r)) (w :: (ts ++ (us ++ vs)))
  | repeatTimes {w m : Token} {e : Expr} {ss : List Stmt} {ts us : List Token} :
    w.kind = .repeatWord → Derives (.expression .disjunction e) ts → m.kind = .timesWord →
    Derives (.block ss) us →
    Derives (.statement (.repeatTimes w e ss)) (w :: (ts ++ m :: us))
  | repeatWhile {w m : Token} {e : Expr} {ss : List Stmt} {ts us : List Token} :
    w.kind = .repeatWord → m.kind = .whileWord → Derives (.expression .disjunction e) ts →
    Derives (.block ss) us →
    Derives (.statement (.repeatWhile w e ss)) (w :: m :: (ts ++ us))
  | returnEmpty {w n : Token} : w.kind = .returnWord → n.kind = .newline →
    Derives (.statement (.returnEmpty w)) [w, n]
  | returnWith {w m n : Token} {e : Expr} {ts : List Token} : w.kind = .returnWord →
    m.kind = .withWord → Derives (.expression .disjunction e) ts → n.kind = .newline →
    Derives (.statement (.returnWith w e)) (w :: m :: (ts ++ [n]))
  | noStatements : Derives (.statements []) []
  | moreStatements {s : Stmt} {ss : List Stmt} {ts us : List Token} :
    Derives (.statement s) ts → Derives (.statements ss) us →
    Derives (.statements (s :: ss)) (ts ++ us)
  | block {n i d : Token} {ss : List Stmt} {ts : List Token} : n.kind = .newline →
    i.kind = .indent → Derives (.statements ss) ts → ss ≠ [] → d.kind = .dedent →
    Derives (.block ss) (n :: i :: (ts ++ [d]))
  | nothing : Derives (.alternatives .nothing) []
  | otherwise {w : Token} {ss : List Stmt} {ts : List Token} : w.kind = .otherwiseWord →
    Derives (.block ss) ts → Derives (.alternatives (.block ss)) (w :: ts)
  | otherwiseIf {w m : Token} {e : Expr} {ss : List Stmt} {r : Else} {ts us vs : List Token} :
    w.kind = .otherwiseWord → m.kind = .ifWord → Derives (.expression .disjunction e) ts →
    Derives (.block ss) us → Derives (.alternatives r) vs →
    Derives (.alternatives (.branch m e ss r)) (w :: m :: (ts ++ (us ++ vs)))
  | program {e : Token} {ss : List Stmt} {ts : List Token} : Derives (.statements ss) ts →
    e.kind = .endOfFile → Derives (.program ss) (ts ++ [e])

/-! ### First tokens -/

/-- The kinds of tokens that expressions start with. -/
def opensExpression : Kind → Bool
  | .trueWord | .falseWord | .emptyWord | .number | .text | .identifier | .leftParen | .notWord
  | .minus => true
  | _ => false

/-- The kinds of tokens that statements start with. -/
def opensStatement (kind : Kind) : Bool := opensExpression kind || kind.startsStatement

/-- What is known of the first token of a phrase. -/
def Phrase.Opens : Phrase → List Token → Prop
  | .expression _ _, ts | .arguments _, ts => ∃ t us, ts = t :: us ∧ opensExpression t.kind
  | .statement _, ts => ∃ t us, ts = t :: us ∧ opensStatement t.kind
  | .block _, ts => ∃ t us, ts = t :: us ∧ t.kind = .newline
  | .alternatives _, ts => ts = [] ∨ ∃ t us, ts = t :: us ∧ t.kind = .otherwiseWord
  | _, _ => True

theorem Denotes.opens {t : Token} {c : Constant} (h : Denotes t c) : opensExpression t.kind := by
  cases h with
  | true hk | false hk | empty hk => rw [hk]; rfl
  | number hk _ | text hk _ => rcases hk with hk | hk <;> rw [hk] <;> rfl

theorem Sign.opens {kind : Kind} {op : UnaryOp} (h : Sign kind op) : opensExpression kind := by
  cases h <;> rfl

theorem Derives.opens {ph : Phrase} {ts : List Token} (h : Derives ph ts) : ph.Opens ts := by
  induction h with
  | constant hc => exact ⟨_, _, rfl, hc.opens⟩
  | «variable» hk => exact ⟨_, _, rfl, by rw [hk]; rfl⟩
  | group hl _ _ _ => exact ⟨_, _, rfl, by rw [hl]; rfl⟩
  | tighter _ ih => exact ih
  | unary hop _ _ => exact ⟨_, _, rfl, hop.opens⟩
  | call _ _ _ ih | callWith _ _ _ _ _ ih _ | binary _ _ _ ih _ | moreArguments _ _ _ ih _ =>
    obtain ⟨t, us, rfl, ht⟩ := ih
    exact ⟨t, _, rfl, ht⟩
  | argument _ ih => exact ih
  | parameter _ | moreParameters _ _ _ _ => trivial
  | change hw _ _ _ _ _ _ | create hw _ _ _ _ _ | define hw _ _ _ _ _
  | defineWith hw _ _ _ _ _ _ _ _ _ | conditional hw _ _ _ _ _ _ | repeatTimes hw _ _ _ _ _
  | repeatWhile hw _ _ _ _ _ | returnEmpty hw _ | returnWith hw _ _ _ _ =>
    exact ⟨_, _, rfl, by rw [hw]; rfl⟩
  | expressionStatement _ _ ih =>
    obtain ⟨t, us, rfl, ht⟩ := ih
    exact ⟨t, _, rfl, by simp [opensStatement, ht]⟩
  | noStatements | moreStatements _ _ _ _ | program _ _ _ => trivial
  | block hn _ _ _ _ _ => exact ⟨_, _, rfl, hn⟩
  | nothing => exact .inl rfl
  | otherwise hw _ _ | otherwiseIf hw _ _ _ _ _ _ _ => exact .inr ⟨_, _, rfl, hw⟩

/-! ### Statements in a row -/

theorem Derives.append_statements {ss ss' : List Stmt} {ts us : List Token}
    (h : Derives (.statements ss) ts) (h' : Derives (.statements ss') us) :
    Derives (.statements (ss ++ ss')) (ts ++ us) := by
  generalize hphrase : Phrase.statements ss = ph at h
  induction h generalizing ss with
  | noStatements =>
    cases hphrase
    exact h'
  | moreStatements hs _ _ ih =>
    cases hphrase
    rw [List.append_assoc]
    exact .moreStatements hs (ih rfl)
  | _ => cases hphrase

/-! ### Indents and dedents -/

/-- The number of indents in a token list. -/
def indents (ts : List Token) : Nat := ts.countP fun t => t.kind = .indent

/-- The number of dedents in a token list. -/
def dedents (ts : List Token) : Nat := ts.countP fun t => t.kind = .dedent

/-- Every dedent closes an indent before it, and every indent is closed. -/
def Balanced (ts : List Token) : Prop :=
  (∀ us ∈ ts.inits, dedents us ≤ indents us) ∧ indents ts = dedents ts

instance (ts : List Token) : Decidable (Balanced ts) := inferInstanceAs (Decidable (_ ∧ _))

@[simp] theorem indents_nil : indents [] = 0 := rfl

@[simp] theorem dedents_nil : dedents [] = 0 := rfl

@[simp] theorem indents_append (ts us : List Token) :
    indents (ts ++ us) = indents ts + indents us := List.countP_append

@[simp] theorem dedents_append (ts us : List Token) :
    dedents (ts ++ us) = dedents ts + dedents us := List.countP_append

theorem indents_cons (t : Token) (ts : List Token) :
    indents (t :: ts) = indents ts + if t.kind = .indent then 1 else 0 := by
  simp [indents, List.countP_cons]

theorem dedents_cons (t : Token) (ts : List Token) :
    dedents (t :: ts) = dedents ts + if t.kind = .dedent then 1 else 0 := by
  simp [dedents, List.countP_cons]

theorem Operator.kind_ne {rank : Rank} {kind : Kind} {c : Connective} (h : Operator rank kind c) :
    kind ≠ .indent ∧ kind ≠ .dedent := by
  cases h <;> exact ⟨nofun, nofun⟩

theorem opensExpression_ne {kind : Kind} (h : opensExpression kind) :
    kind ≠ .indent ∧ kind ≠ .dedent := by
  constructor <;> rintro rfl <;> cases h

/-- What is derived closes as many levels as it opens. -/
theorem Derives.even {ph : Phrase} {ts : List Token} (h : Derives ph ts) :
    indents ts = dedents ts := by
  induction h with
  | constant hc =>
    obtain ⟨hi, hd⟩ := opensExpression_ne hc.opens
    simp [indents_cons, dedents_cons, hi, hd]
  | unary hop _ ih =>
    obtain ⟨hi, hd⟩ := opensExpression_ne hop.opens
    simp [indents_cons, dedents_cons, hi, hd, ih]
  | binary _ hop _ ih ih' =>
    obtain ⟨hi, hd⟩ := hop.kind_ne
    simp [indents_cons, dedents_cons, hi, hd, ih, ih']
  | noStatements | nothing => rfl
  | _ => simp_all [indents_cons, dedents_cons]

/-! ### From trees back to tokens -/

/-- A token as far as a tree tells: the token itself, or its kind, or the constant it denotes. -/
inductive Terminal
  | token (t : Token)
  | word (kind : Kind)
  | constant (c : Constant)

/-- A token that is as a tree tells. -/
def Terminal.Is : Terminal → Token → Prop
  | .token t, u => t = u
  | .word kind, u => u.kind = kind
  | .constant c, u => Denotes u c

/-- Lists with commas between them. -/
def separated : List (List Terminal) → List Terminal
  | [] => []
  | [ts] => ts
  | ts :: us :: rest => ts ++ .word .comma :: separated (us :: rest)

mutual

/-- The tokens of an expression. -/
def exprTerminals : Expr → List Terminal
  | .constant c => [.constant c]
  | .variable name => [.token name]
  | .group inner => .word .leftParen :: (exprTerminals inner ++ [.word .rightParen])
  | .unary _ token operand => .token token :: exprTerminals operand
  | .binary _ token left right => exprTerminals left ++ .token token :: exprTerminals right
  | .logical _ token left right => exprTerminals left ++ .token token :: exprTerminals right
  | .call callee args paren =>
    exprTerminals callee ++
      .word .leftParen :: (separated (exprsTerminals args) ++ [.token paren])

/-- The tokens of each of several expressions. -/
def exprsTerminals : List Expr → List (List Terminal)
  | [] => []
  | e :: es => exprTerminals e :: exprsTerminals es

end

/-- The tokens of a list of parameters, with the word before it. -/
def paramsTerminals : List Token → List Terminal
  | [] => []
  | ps => .word .acceptWord :: separated (ps.map fun p => [.token p])

/-- The tokens of a block around those of its statements. -/
def blockTerminals (body : List Terminal) : List Terminal :=
  .word .newline :: .word .indent :: (body ++ [.word .dedent])

mutual

/-- The tokens of a statement. -/
def stmtTerminals : Stmt → List Terminal
  | .block body => blockTerminals (stmtsTerminals body)
  | .change target value =>
    .word .changeWord :: .token target :: .word .equal ::
      (exprTerminals value ++ [.word .newline])
  | .create name value =>
    .word .createWord :: .token name :: .word .equal :: (exprTerminals value ++ [.word .newline])
  | .define name params body =>
    .word .defineWord :: .token name :: .word .leftParen ::
      (paramsTerminals params ++ .word .rightParen :: blockTerminals (stmtsTerminals body))
  | .expression value => exprTerminals value ++ [.word .newline]
  | .branch token cond body rest =>
    .token token :: (exprTerminals cond ++
      (blockTerminals (stmtsTerminals body) ++ elseTerminals rest))
  | .repeatTimes token count body =>
    .token token :: (exprTerminals count ++
      .word .timesWord :: blockTerminals (stmtsTerminals body))
  | .repeatWhile token cond body =>
    .token token :: .word .whileWord :: (exprTerminals cond ++
      blockTerminals (stmtsTerminals body))
  | .returnEmpty token => [.token token, .word .newline]
  | .returnWith token value =>
    .token token :: .word .withWord :: (exprTerminals value ++ [.word .newline])

/-- The tokens of statements in order. -/
def stmtsTerminals : List Stmt → List Terminal
  | [] => []
  | s :: ss => stmtTerminals s ++ stmtsTerminals ss

/-- The tokens of the further branches of a conditional. -/
def elseTerminals : Else → List Terminal
  | .nothing => []
  | .block body => .word .otherwiseWord :: blockTerminals (stmtsTerminals body)
  | .branch token cond body rest =>
    .word .otherwiseWord :: .token token :: (exprTerminals cond ++
      (blockTerminals (stmtsTerminals body) ++ elseTerminals rest))

end

/-- The tokens of a phrase. -/
def Phrase.terminals : Phrase → List Terminal
  | .expression _ e => exprTerminals e
  | .arguments es => separated (exprsTerminals es)
  | .parameters ps => separated (ps.map fun p => [.token p])
  | .statement s => stmtTerminals s
  | .statements ss => stmtsTerminals ss
  | .block ss => blockTerminals (stmtsTerminals ss)
  | .alternatives r => elseTerminals r
  | .program ss => stmtsTerminals ss ++ [.word .endOfFile]

/-- Only a variable on its own is derived as a variable. -/
theorem Derives.of_variable {rank : Rank} {name : Token} {ts : List Token}
    (h : Derives (.expression rank (.variable name)) ts) : ts = [name] := by
  generalize hph : Phrase.expression rank (.variable name) = ph at h
  induction h generalizing rank with
  | «variable» _ => cases hph; rfl
  | tighter _ ih => cases hph; exact ih rfl
  | @binary _ _ c _ _ _ _ _ _ _ _ _ => cases c <;> cases hph
  | _ => cases hph

theorem Derives.arguments_ne_nil {es : List Expr} {ts : List Token}
    (h : Derives (.arguments es) ts) : es ≠ [] := by
  cases h <;> exact List.cons_ne_nil _ _

theorem Derives.parameters_ne_nil {ps ts : List Token} (h : Derives (.parameters ps) ts) :
    ps ≠ [] := by
  cases h <;> exact List.cons_ne_nil _ _

theorem separated_cons (ts : List Terminal) {rest : List (List Terminal)} (h : rest ≠ []) :
    separated (ts :: rest) = ts ++ .word .comma :: separated rest := by
  cases rest with
  | nil => exact absurd rfl h
  | cons us rest => rfl

theorem forall₂_append {as bs : List Terminal} {ts us : List Token}
    (h : List.Forall₂ Terminal.Is as ts) (h' : List.Forall₂ Terminal.Is bs us) :
    List.Forall₂ Terminal.Is (as ++ bs) (ts ++ us) := List.rel_append h h'

/-- What is related to two lists in a row is two lists in a row. -/
theorem split_forall₂_append {α β : Type} {R : α → β → Prop} {as bs : List α} {cs : List β}
    (h : List.Forall₂ R (as ++ bs) cs) :
    ∃ as' bs', cs = as' ++ bs' ∧ List.Forall₂ R as as' ∧ List.Forall₂ R bs bs' := by
  induction as generalizing cs with
  | nil => exact ⟨[], cs, rfl, .nil, h⟩
  | cons a as ih =>
    cases h with
    | cons ha h =>
      obtain ⟨as', bs', rfl, has, hbs⟩ := ih h
      exact ⟨_ :: as', bs', rfl, .cons ha has, hbs⟩

theorem split_forall₂_singleton {α β : Type} {R : α → β → Prop} {a : α} {bs : List β}
    (h : List.Forall₂ R [a] bs) : ∃ b, bs = [b] ∧ R a b := by
  cases h with
  | cons hab h =>
    cases h
    exact ⟨_, rfl, hab⟩

theorem forall₂_replicate {α β : Type} {R : α → β → Prop} {a : α} {b : β} (h : R a b) (n : Nat) :
    List.Forall₂ R (List.replicate n a) (List.replicate n b) := by
  induction n with
  | zero => exact .nil
  | succ n ih => exact .cons h ih

/-- The tokens that a tree is derived from are those of the tree. -/
theorem Derives.terminals {ph : Phrase} {ts : List Token} (h : Derives ph ts) :
    List.Forall₂ Terminal.Is ph.terminals ts := by
  induction h with
  | constant hc => exact .cons hc .nil
  | «variable» _ => exact .cons rfl .nil
  | group hl _ hr ih => exact .cons hl (forall₂_append ih (.cons hr .nil))
  | tighter _ ih => exact ih
  | call _ hl hr ih => exact forall₂_append ih (.cons hl (.cons rfl .nil))
  | callWith _ hl _ _ hr ih ih' =>
    exact forall₂_append ih (.cons hl (forall₂_append ih' (.cons rfl .nil)))
  | unary _ _ ih => exact .cons rfl ih
  | @binary _ t c l r _ _ _ _ _ ih ih' =>
    have hterminals : exprTerminals (c.apply t l r) =
        exprTerminals l ++ .token t :: exprTerminals r := by cases c <;> rfl
    rw [Phrase.terminals, hterminals]
    exact forall₂_append ih (.cons rfl ih')
  | argument _ ih => exact ih
  | @moreArguments _ es _ _ _ _ hc hes ih ih' =>
    have hne : exprsTerminals es ≠ [] := by
      cases es with
      | nil => exact absurd rfl hes.arguments_ne_nil
      | cons e es => exact List.cons_ne_nil _ _
    rw [Phrase.terminals, exprsTerminals, separated_cons _ hne]
    exact forall₂_append ih (.cons hc ih')
  | parameter _ => exact .cons rfl .nil
  | moreParameters _ hc hps ih' =>
    rw [Phrase.terminals, List.map_cons, separated_cons _ (by simpa using hps.parameters_ne_nil)]
    exact .cons rfl (.cons hc ih')
  | change hw htarget hq _ hn _ ih =>
    rw [htarget.of_variable]
    exact .cons hw (.cons rfl (.cons hq (forall₂_append ih (.cons hn .nil))))
  | create hw _ hq _ hn ih =>
    exact .cons hw (.cons rfl (.cons hq (forall₂_append ih (.cons hn .nil))))
  | define hw _ hl hr _ ih => exact .cons hw (.cons rfl (.cons hl (.cons hr ih)))
  | @defineWith _ _ _ _ _ ps _ _ _ hw _ hl ha hps _ hr _ ih ih' =>
    have hparams : paramsTerminals ps =
        .word .acceptWord :: separated (ps.map fun p => [.token p]) := by
      cases ps with
      | nil => exact absurd rfl hps.parameters_ne_nil
      | cons p ps => rfl
    rw [Phrase.terminals, stmtTerminals, hparams]
    exact .cons hw (.cons rfl (.cons hl (.cons ha (forall₂_append ih (.cons hr ih')))))
  | expressionStatement _ hn ih => exact forall₂_append ih (.cons hn .nil)
  | conditional _ _ _ _ ih ih' ih'' =>
    exact .cons rfl (forall₂_append ih (forall₂_append ih' ih''))
  | repeatTimes _ _ hm _ ih ih' => exact .cons rfl (forall₂_append ih (.cons hm ih'))
  | repeatWhile _ hm _ _ ih ih' => exact .cons rfl (.cons hm (forall₂_append ih ih'))
  | returnEmpty _ hn => exact .cons rfl (.cons hn .nil)
  | returnWith _ hm _ hn ih => exact .cons rfl (.cons hm (forall₂_append ih (.cons hn .nil)))
  | noStatements => exact .nil
  | moreStatements _ _ ih ih' => exact forall₂_append ih ih'
  | block hn hi _ _ hd ih => exact .cons hn (.cons hi (forall₂_append ih (.cons hd .nil)))
  | nothing => exact .nil
  | otherwise hw _ ih => exact .cons hw ih
  | otherwiseIf hw _ _ _ _ ih ih' ih'' =>
    exact .cons hw (.cons rfl (forall₂_append ih (forall₂_append ih' ih'')))
  | program _ he ih => exact forall₂_append ih (.cons he .nil)

end Offside.Grammar
