import Offside.Proofs.Tracking

/-!
# Parsing within a line

A statement that cannot be read is noticed on its own line in most cases. What the parser does up to
there depends neither on what comes after the line nor on the end of the text, and nothing is recorded
on the way unless a list is too long.

Two parsers are followed side by side: one that has only the line ahead of it, and one that has more
tokens behind the line, with bounds of their own.

* `IsLine`, `ShortLists`: the lines that are considered;
* `At`: a position on a line, with the commas ahead of it;
* `Reads`: parsers that do the same on a line, and record nothing;
* `StopsAlike`: parsers that stop in the same way, if they stop on the line;
* `stopsAlike_statement`: statements.
-/

namespace Offside.Grammar

open Offside.Parser

variable {α β : Type}

/-! ### Lines -/

/-- Text and the newline that ends it. -/
structure IsLine (line : List Token) : Prop where
  ending : ∃ ts n, line = ts ++ [n] ∧ n.kind = .newline ∧ ∀ t ∈ ts, t.kind.isStructural = false

/-- Whether an expression can end with a token of this kind. -/
def closesExpression : Kind → Bool
  | .trueWord | .falseWord | .emptyWord | .number | .text | .identifier | .rightParen => true
  | _ => false

/-- The number of commas up to the parenthesis that closes the innermost open one, without those
inside further parentheses, `depth` of which are open. -/
def commas (depth : Nat) : List Token → Nat
  | [] => 0
  | t :: ts =>
    match t.kind with
    | .leftParen => commas (depth + 1) ts
    | .rightParen => if depth = 0 then 0 else commas (depth - 1) ts
    | .comma => (if depth = 0 then 1 else 0) + commas depth ts
    | _ => commas depth ts

/-- No list in parentheses, of arguments or of parameters, has more entries than are allowed. A list
follows an expression or a name. -/
def ShortLists (line : List Token) : Prop :=
  ∀ before t l after, line = before ++ t :: l :: after → closesExpression t.kind →
    l.kind = .leftParen → commas 0 after < maxArguments

/-- Tokens that neither open or close a list, nor stand between its entries, nor end the line. -/
def isPlain : Kind → Bool
  | .leftParen | .rightParen | .comma | .newline => false
  | _ => true

theorem commas_plain {t : Token} (h : isPlain t.kind = true) (depth : Nat) (ts : List Token) :
    commas depth (t :: ts) = commas depth ts := by
  rw [commas]
  split <;> simp_all [isPlain]

/-- A position on a line, `c d` being the number of commas ahead at depth `d`, and `k` a bound for
the number of tokens ahead. -/
structure At (line : List Token) (c : Nat → Nat) (k : Nat) (past ahead : List Token) : Prop where
  whole : past ++ ahead = line
  commas : ∀ d, commas d ahead = c d
  length : ahead.length ≤ k

namespace At

variable {line : List Token} {c : Nat → Nat} {k : Nat} {past ahead us : List Token} {t : Token}

theorem mono {k' : Nat} (h : At line c k past ahead) (hk : k ≤ k') : At line c k' past ahead :=
  { h with length := Nat.le_trans h.length hk }

theorem pos (h : At line c k past ahead) (hne : ahead ≠ []) : 0 < k :=
  Nat.lt_of_lt_of_le (List.length_pos_iff.2 hne) h.length

/-- Something comes after every token but the newline. -/
theorem ne_nil (hline : IsLine line) (h : At line c k past (t :: us)) (ht : t.kind ≠ .newline) :
    us ≠ [] := by
  rintro rfl
  obtain ⟨ts, n, rfl, hn, -⟩ := hline.ending
  obtain ⟨-, htail⟩ := List.append_inj' h.whole rfl
  obtain rfl : t = n := List.head_eq_of_cons_eq htail
  exact ht hn

theorem next (h : At line c k past (t :: us)) : past ++ [t] ++ us = line ∧ us.length ≤ k - 1 := by
  have hlength := h.length
  rw [List.length_cons] at hlength
  refine ⟨?_, by omega⟩
  rw [List.append_assoc]
  exact h.whole

/-- A plain token can be taken. -/
theorem plain (hline : IsLine line) (h : At line c k past (t :: us)) (ht : isPlain t.kind = true) :
    us ≠ [] ∧ At line c (k - 1) (past ++ [t]) us := by
  refine ⟨h.ne_nil hline ?_, h.next.1, fun d => ?_, h.next.2⟩
  · intro hk
    rw [hk] at ht
    cases ht
  · rw [← commas_plain ht d us, h.commas d]

/-- After an opening parenthesis, what was ahead is one level further out. -/
theorem opened (h : At line c k past (t :: us)) (ht : t.kind = .leftParen) :
    ∃ g, At line g (k - 1) (past ++ [t]) us ∧ ∀ d, g (d + 1) = c d := by
  refine ⟨fun d => Grammar.commas d us, ⟨h.next.1, fun d => rfl, h.next.2⟩, fun d => ?_⟩
  rw [← h.commas d, Grammar.commas, ht]

theorem closed (h : At line c k past (t :: us)) (ht : t.kind = .rightParen) :
    At line (fun d => c (d + 1)) (k - 1) (past ++ [t]) us := by
  refine ⟨h.next.1, fun d => ?_, h.next.2⟩
  rw [← h.commas (d + 1), Grammar.commas, ht]
  rfl

/-- A comma counts where it stands and nowhere else. -/
theorem separated (h : At line c k past (t :: us)) (ht : t.kind = .comma) :
    ∃ g, At line g (k - 1) (past ++ [t]) us ∧ c 0 = g 0 + 1 ∧ ∀ d, g (d + 1) = c (d + 1) := by
  refine ⟨fun d => Grammar.commas d us, ⟨h.next.1, fun d => rfl, h.next.2⟩, ?_, fun d => ?_⟩
  · rw [← h.commas 0, Grammar.commas, ht]
    simp [Nat.add_comm]
  · rw [← h.commas (d + 1), Grammar.commas, ht]
    simp

end At

/-! ### Parsers on a line -/

/-- From a position with `P` on, two parsers do the same, and stay on the line; the second has the
tokens `more` behind the line. They record nothing, and a value leads to a position with `Q`. -/
def Reads (last last' : Token) (more : List Token) (P : Position) (p p' : Parser α)
    (Q : α → Position) : Prop :=
  ∀ past ahead, ahead ≠ [] → P past ahead → ∃ used rest outcome,
    ahead = used ++ rest ∧ rest ≠ [] ∧ p last ahead = ⟨outcome, [], rest⟩ ∧
      p' last' (ahead ++ more) = ⟨outcome, [], rest ++ more⟩ ∧
      ∀ a, outcome = .ok a → Q a (past ++ used) rest

/-- Parsers that stop in the same way, if the first stops on the line. -/
def StopsAlike (last last' : Token) (more : List Token) (P : Position) (p p' : Parser α) : Prop :=
  ∀ past ahead, ahead ≠ [] → P past ahead → ∀ e notes rest,
    p last ahead = ⟨.error e, notes, rest⟩ → rest ≠ [] →
      notes = [] ∧ rest <:+ ahead ∧ p' last' (ahead ++ more) = ⟨.error e, [], rest ++ more⟩

section

variable {last last' : Token} {more : List Token} {P : Position} {Q : α → Position}

namespace Reads

theorem weaken {P' : Position} {Q' : α → Position} {p p' : Parser α}
    (h : Reads last last' more P p p' Q) (hP : ∀ past ahead, P' past ahead → P past ahead)
    (hQ : ∀ a past ahead, Q a past ahead → Q' a past ahead) : Reads last last' more P' p p' Q' := by
  intro past ahead hne hpos
  obtain ⟨used, rest, outcome, hused, hrest, hp, hp', hout⟩ := h past ahead hne (hP _ _ hpos)
  exact ⟨used, rest, outcome, hused, hrest, hp, hp', fun a ha => hQ _ _ _ (hout a ha)⟩

/-- What is known about where the parsers start can be named. -/
theorem of_exists {γ : Type} {R : γ → Position} {p p' : Parser α}
    (h : ∀ g, Reads last last' more (R g) p p' Q) :
    Reads last last' more (fun past ahead => ∃ g, R g past ahead) p p' Q := by
  rintro past ahead hne ⟨g, hg⟩
  exact h g past ahead hne hg

theorem of_and {R : Prop} {p p' : Parser α} (h : R → Reads last last' more P p p' Q) :
    Reads last last' more (fun past ahead => P past ahead ∧ R) p p' Q := by
  rintro past ahead hne ⟨hpos, hR⟩
  exact h hR past ahead hne hpos

theorem pure {a : α} (h : ∀ past ahead, P past ahead → Q a past ahead) :
    Reads last last' more P (Pure.pure a : Parser α) (Pure.pure a) Q := by
  intro past ahead hne hpos
  refine ⟨[], ahead, .ok a, rfl, hne, rfl, rfl, ?_⟩
  rintro _ ⟨⟩
  rw [List.append_nil]
  exact h past ahead hpos

theorem bind {p p' : Parser α} {f f' : α → Parser β} {R : β → Position}
    (hp : Reads last last' more P p p' Q) (hf : ∀ a, Reads last last' more (Q a) (f a) (f' a) R) :
    Reads last last' more P (p >>= f) (p' >>= f') R := by
  intro past ahead hne hpos
  obtain ⟨used, rest, outcome, hused, hrest, hp, hp', hout⟩ := hp past ahead hne hpos
  cases outcome with
  | error e =>
    rw [bind_of_error hp, bind_of_error hp']
    exact ⟨used, rest, .error e, hused, hrest, rfl, rfl, nofun⟩
  | ok a =>
    obtain ⟨used', rest', outcome', hused', hrest', hf, hf', hout'⟩ :=
      hf a _ rest hrest (hout a rfl)
    rw [bind_of_ok hp, bind_of_ok hp', hf, hf']
    refine ⟨used ++ used', rest', outcome', ?_, hrest', rfl, rfl, fun b hb => ?_⟩
    · rw [hused, hused', List.append_assoc]
    · rw [← List.append_assoc]
      exact hout' b hb

theorem fail (e : GrammarError) : Reads last last' more P (fail e : Parser α) (fail e) Q := by
  intro past ahead hne _
  cases ahead with
  | nil => exact absurd rfl hne
  | cons t us => exact ⟨[], _, _, rfl, hne, rfl, rfl, nofun⟩

theorem failAt (t : Token) (e : GrammarError) :
    Reads last last' more P (failAt t e : Parser α) (failAt t e) Q :=
  fun _ ahead hne _ => ⟨[], ahead, _, rfl, hne, rfl, rfl, nofun⟩

theorem peek : Reads last last' more P peek peek
    fun t past ahead => P past ahead ∧ ahead.head? = some t := by
  intro past ahead hne hpos
  cases ahead with
  | nil => exact absurd rfl hne
  | cons t us =>
    refine ⟨[], t :: us, .ok t, rfl, hne, rfl, rfl, ?_⟩
    rintro _ ⟨⟩
    rw [List.append_nil]
    exact ⟨hpos, rfl⟩

/-- A token that is there to be taken. -/
theorem advance {t : Token} {Q : Token → Position}
    (h : ∀ past us, P past (t :: us) → us ≠ [] ∧ Q t (past ++ [t]) us) :
    Reads last last' more (fun past ahead => P past ahead ∧ ahead.head? = some t) advance advance
      Q := by
  rintro past ahead hne ⟨hpos, hhead⟩
  obtain ⟨us, rfl⟩ := List.head?_eq_some_iff.1 hhead
  obtain ⟨hus, hnext⟩ := h past us hpos
  refine ⟨[t], us, .ok t, rfl, hus, rfl, rfl, ?_⟩
  rintro _ ⟨⟩
  exact hnext

theorem accept {kind : Kind} {Q : Bool → Position}
    (htrue : ∀ past t us, P past (t :: us) → t.kind = kind → us ≠ [] ∧ Q true (past ++ [t]) us)
    (hfalse : ∀ past ahead, P past ahead → Q false past ahead) :
    Reads last last' more P (accept kind) (accept kind) Q := by
  intro past ahead hne hpos
  cases ahead with
  | nil => exact absurd rfl hne
  | cons t us =>
    unfold Parser.accept
    rw [List.cons_append, List.headD_cons, List.headD_cons]
    by_cases ht : t.kind = kind
    · obtain ⟨hus, hnext⟩ := htrue past t us hpos ht
      rw [if_pos ht, if_pos ht]
      refine ⟨[t], us, .ok true, rfl, hus, rfl, rfl, ?_⟩
      rintro _ ⟨⟩
      exact hnext
    · rw [if_neg ht, if_neg ht]
      refine ⟨[], t :: us, .ok false, rfl, hne, rfl, rfl, ?_⟩
      rintro _ ⟨⟩
      rw [List.append_nil]
      exact hfalse past _ hpos

theorem expect {kind : Kind} {what : String} {Q : Token → Position}
    (h : ∀ past t us, P past (t :: us) → t.kind = kind → us ≠ [] ∧ Q t (past ++ [t]) us) :
    Reads last last' more P (expect kind what) (expect kind what) Q := by
  intro past ahead hne hpos
  cases ahead with
  | nil => exact absurd rfl hne
  | cons t us =>
    unfold Parser.expect
    rw [List.cons_append, List.headD_cons, List.headD_cons]
    by_cases ht : t.kind = kind
    · obtain ⟨hus, hnext⟩ := h past t us hpos ht
      rw [if_pos ht, if_pos ht]
      refine ⟨[t], us, .ok t, rfl, hus, rfl, rfl, ?_⟩
      rintro _ ⟨⟩
      exact hnext
    · rw [if_neg ht, if_neg ht]
      exact ⟨[], t :: us, _, rfl, hne, rfl, rfl, nofun⟩

theorem check (kind : Kind) : Reads last last' more P (check kind) (check kind) fun _ => P := by
  intro past ahead hne hpos
  cases ahead with
  | nil => exact absurd rfl hne
  | cons t us =>
    refine ⟨[], t :: us, _, rfl, hne, rfl, rfl, ?_⟩
    intro b _
    rw [List.append_nil]
    exact hpos

theorem ite {c : Prop} [Decidable c] {p p' q q' : Parser α}
    (hp : c → Reads last last' more P p p' Q) (hq : ¬ c → Reads last last' more P q q' Q) :
    Reads last last' more P (if c then p else q) (if c then p' else q') Q := by
  split
  · exact hp ‹_›
  · exact hq ‹_›

end Reads

namespace StopsAlike

theorem of_reads {p p' : Parser α} (h : Reads last last' more P p p' fun _ _ _ => True) :
    StopsAlike last last' more P p p' := by
  intro past ahead hne hpos e notes rest hp hrest
  obtain ⟨used, rest', outcome, hused, -, hread, hread', -⟩ := h past ahead hne hpos
  obtain ⟨rfl, rfl, rfl⟩ := Reply.mk.inj (hread.symm.trans hp)
  exact ⟨rfl, ⟨used, hused.symm⟩, hread'⟩

theorem bind {p p' : Parser α} {f f' : α → Parser β} (hp : Reads last last' more P p p' Q)
    (hf : ∀ a, StopsAlike last last' more (Q a) (f a) (f' a)) :
    StopsAlike last last' more P (p >>= f) (p' >>= f') := by
  intro past ahead hne hpos e notes rest hstops hrest
  obtain ⟨used, us, outcome, hused, hus, hread, hread', hout⟩ := hp past ahead hne hpos
  cases outcome with
  | error e' =>
    rw [bind_of_error hread] at hstops
    rw [bind_of_error hread']
    cases hstops
    exact ⟨rfl, ⟨used, hused.symm⟩, rfl⟩
  | ok a =>
    rw [bind_of_ok hread] at hstops
    rw [bind_of_ok hread']
    obtain ⟨houtcome, hnotes, hrest'⟩ := Reply.mk.inj hstops
    have hf' : f a last us = ⟨.error e, notes, rest⟩ := by
      rw [← houtcome, ← hrest']
      rw [List.nil_append] at hnotes
      rw [← hnotes]
    obtain ⟨rfl, hsuffix, hmore⟩ := hf a _ us hus (hout a rfl) e notes rest hf' hrest
    rw [hmore]
    refine ⟨rfl, hsuffix.trans ⟨used, hused.symm⟩, rfl⟩

theorem ite {c : Prop} [Decidable c] {p p' q q' : Parser α}
    (hp : c → StopsAlike last last' more P p p') (hq : ¬ c → StopsAlike last last' more P q q') :
    StopsAlike last last' more P (if c then p else q) (if c then p' else q') := by
  split
  · exact hp ‹_›
  · exact hq ‹_›

end StopsAlike

end

/-! ### Expressions on a line -/

section

variable {line : List Token} (hline : IsLine line) (hshort : ShortLists line) {last last' : Token}
  {more : List Token} {c : Nat → Nat} {k : Nat}

/-- The position after an expression: it ended with the token just taken. -/
def After (line : List Token) (c : Nat → Nat) (k : Nat) (past ahead : List Token) : Prop :=
  At line c k past ahead ∧ ∃ t ∈ past.getLast?, closesExpression t.kind = true

theorem After.mono {k' : Nat} {past ahead : List Token} (h : After line c k past ahead)
    (hk : k ≤ k') : After line c k' past ahead :=
  ⟨h.1.mono hk, h.2⟩

/-- A parser that has bounds for `n` tokens of the line, next to one that has bounds for `m` tokens. -/
def ReadsUpTo (line : List Token) (last last' : Token) (more : List Token) (n m : Nat)
    (p p' : Parser α) : Prop :=
  ∀ c k, k ≤ n → k + more.length ≤ m →
    Reads last last' more (At line c k) p p' fun _ => At line c k

/-- Something is ahead wherever the parsers start. -/
theorem reads_of_pos {Q : α → Position} {p p' : Parser α}
    (h : 0 < k → Reads last last' more (At line c k) p p' Q) :
    Reads last last' more (At line c k) p p' Q :=
  fun past ahead hne hat => h (hat.pos hne) past ahead hne hat

include hline

/-- A plain token that is there to be taken. -/
theorem reads_advance {t : Token} (ht : isPlain t.kind = true) :
    Reads last last' more (fun past ahead => At line c k past ahead ∧ ahead.head? = some t) advance
      advance fun _ => At line c (k - 1) :=
  Reads.advance fun _ _ h => h.plain hline ht

theorem reads_expect {kind : Kind} (hkind : isPlain kind = true) (what : String) :
    Reads last last' more (At line c k) (expect kind what) (expect kind what)
      fun _ => At line c (k - 1) :=
  Reads.expect fun _ _ _ h ht => h.plain hline (ht ▸ hkind)

theorem reads_accept {kind : Kind} (hkind : isPlain kind = true) :
    Reads last last' more (At line c k) (accept kind) (accept kind) fun _ => At line c k := by
  refine Reads.accept (fun past t us h ht => ?_) fun _ _ h => h
  obtain ⟨hus, hnext⟩ := h.plain hline (ht ▸ hkind)
  exact ⟨hus, hnext.mono (by omega)⟩

/-- A comma between entries of a list. -/
theorem reads_comma :
    Reads last last' more (At line c k) (accept .comma) (accept .comma) fun taken past ahead =>
      if taken then ∃ g, At line g (k - 1) past ahead ∧ c 0 = g 0 + 1 ∧ ∀ d, g (d + 1) = c (d + 1)
      else At line c k past ahead := by
  refine Reads.accept (fun past t us h ht => ?_) fun _ _ h => by simpa using h
  exact ⟨h.ne_nil hline (by simp [ht]), by simpa using h.separated ht⟩

/-- The parenthesis at the end of a list or a group leads back to the level outside. -/
theorem reads_rightParen {g : Nat → Nat} (hg : ∀ d, g (d + 1) = c d) {what : String} :
    Reads last last' more (At line g k) (expect .rightParen what) (expect .rightParen what)
      fun _ => After line c (k - 1) := by
  refine Reads.expect fun past t us h ht => ⟨h.ne_nil hline (by simp [ht]), ?_, t, by simp, ?_⟩
  · simpa [hg] using h.closed ht
  · rw [ht]
    rfl

/-- A token that is an expression by itself. -/
theorem After.of_plain {past us : List Token} {t : Token} (h : At line c k past (t :: us))
    (hplain : isPlain t.kind = true) (hcloses : closesExpression t.kind = true) :
    us ≠ [] ∧ After line c (k - 1) (past ++ [t]) us := by
  obtain ⟨hus, hnext⟩ := h.plain hline hplain
  exact ⟨hus, hnext, t, by simp, hcloses⟩

theorem reads_operands {connective? : Kind → Option Connective} {operand operand' : Parser Expr}
    {n m : Nat} (hplain : ∀ kind op, connective? kind = some op → isPlain kind = true)
    (hoperand : ReadsUpTo line last last' more n m operand operand') {bound bound' : Nat}
    (left : Expr) (hn : k ≤ n) (hm : k + more.length ≤ m) (hbound : k ≤ bound)
    (hbound' : k + more.length ≤ bound') :
    Reads last last' more (At line c k) (operands connective? operand bound left)
      (operands connective? operand' bound' left) fun _ => At line c k := by
  induction bound generalizing bound' k left with
  | zero => exact reads_of_pos fun hk => by omega
  | succ bound ih =>
    cases bound' with
    | zero => exact reads_of_pos fun hk => by omega
    | succ bound' =>
      refine Reads.bind Reads.peek fun t => ?_
      cases hop : connective? t.kind with
      | none => exact Reads.pure fun past ahead h => h.1
      | some op =>
        refine Reads.bind (reads_advance hline (hplain _ _ hop)) fun _ => ?_
        refine Reads.bind (hoperand c (k - 1) (by omega) (by omega)) fun right => ?_
        refine reads_of_pos fun hk => ?_
        exact (ih _ (by omega) (by omega) (by omega) (by omega)).weaken (fun _ _ h => h)
          fun _ _ _ h => h.mono (by omega)

omit hline in
theorem isPlain_of_mem_levels {connective? : Kind → Option Connective} (h : connective? ∈ levels)
    {kind : Kind} {op : Connective} (hop : connective? kind = some op) : isPlain kind = true := by
  simp only [levels, List.mem_cons, List.not_mem_nil, or_false] at h
  rcases h with rfl | rfl | rfl | rfl | rfl <;> cases kind <;> first | rfl | cases hop

theorem readsUpTo_levels {operand operand' : Parser Expr} {n m : Nat}
    (hoperand : ReadsUpTo line last last' more n m operand operand')
    {tables : List (Kind → Option Connective)} (htables : ∀ t ∈ tables, t ∈ levels) :
    ReadsUpTo line last last' more n m (tables.foldr (level n) operand)
      (tables.foldr (level m) operand') := by
  induction tables with
  | nil => exact hoperand
  | cons table tables ih =>
    obtain ⟨htable, htables⟩ := List.forall_mem_cons.1 htables
    intro c k hn hm
    refine Reads.bind (ih htables c k hn hm) fun left => ?_
    exact reads_operands hline (fun kind op hop => isPlain_of_mem_levels htable hop) (ih htables) left
      hn hm hn hm

theorem reads_unary {operand operand' : Parser Expr} {n m : Nat}
    (hoperand : ReadsUpTo line last last' more n m operand operand') {bound bound' : Nat}
    (hn : k ≤ n) (hm : k + more.length ≤ m) (hbound : k ≤ bound)
    (hbound' : k + more.length ≤ bound') :
    Reads last last' more (At line c k) (unary operand bound) (unary operand' bound')
      fun _ => At line c k := by
  induction bound generalizing bound' k with
  | zero => exact reads_of_pos fun hk => by omega
  | succ bound ih =>
    cases bound' with
    | zero => exact reads_of_pos fun hk => by omega
    | succ bound' =>
      refine Reads.bind Reads.peek fun t => ?_
      cases hop : unary? t.kind with
      | none => exact (hoperand c k hn hm).weaken (fun _ _ h => h.1) fun _ _ _ h => h
      | some op =>
        have hkind : isPlain t.kind = true := by
          cases hk : t.kind <;> rw [hk] at hop <;> first | rfl | cases hop
        refine Reads.bind (reads_advance hline hkind) fun _ => reads_of_pos fun hk => ?_
        refine Reads.bind (ih (by omega) (by omega) (by omega) (by omega)) fun e => ?_
        exact Reads.pure fun _ _ h => h.mono (by omega)

/-- The entries of a list take the commas at their own level. -/
theorem reads_arguments {inner inner' : Parser Expr} {n m : Nat}
    (hinner : ReadsUpTo line last last' more n m inner inner') {bound bound' : Nat} {count : Nat}
    (hcount : c 0 + count < maxArguments) (hn : k ≤ n) (hm : k + more.length ≤ m)
    (hbound : k ≤ bound) (hbound' : k + more.length ≤ bound') :
    Reads last last' more (At line c k) (arguments inner bound count) (arguments inner' bound' count)
      fun _ past ahead => ∃ g, At line g k past ahead ∧ ∀ d, g (d + 1) = c (d + 1) := by
  induction bound generalizing bound' k c count with
  | zero => exact reads_of_pos fun hk => by omega
  | succ bound ih =>
    cases bound' with
    | zero => exact reads_of_pos fun hk => by omega
    | succ bound' =>
      have hne : count ≠ maxArguments := by omega
      rw [arguments, arguments, if_neg hne, if_neg hne]
      refine Reads.bind (hinner c k hn hm) fun arg => ?_
      refine Reads.bind (reads_comma hline) fun comma => ?_
      cases comma with
      | false =>
        simp only [Bool.false_eq_true, if_false]
        exact Reads.pure fun _ _ h => ⟨c, h, fun _ => rfl⟩
      | true =>
        simp only [if_true]
        refine Reads.of_exists fun g => Reads.of_and fun hg => ?_
        obtain ⟨hzero, hsucc⟩ := hg
        refine reads_of_pos fun hk => ?_
        refine Reads.bind (ih (by omega) (by omega) (by omega) (by omega) (by omega)) fun es => ?_
        refine Reads.pure fun past ahead h => ?_
        obtain ⟨g', hat, hg'⟩ := h
        refine ⟨g', hat.mono (by omega), fun d => ?_⟩
        rw [hg', hsucc]

theorem reads_argumentList {inner inner' : Parser Expr} {n m : Nat}
    (hinner : ReadsUpTo line last last' more n m inner inner') (hcount : c 0 < maxArguments)
    {bound bound' : Nat} (hn : k ≤ n) (hm : k + more.length ≤ m) (hbound : k ≤ bound)
    (hbound' : k + more.length ≤ bound') :
    Reads last last' more (At line c k) (argumentList inner bound) (argumentList inner' bound')
      fun _ past ahead => ∃ g, At line g k past ahead ∧ ∀ d, g (d + 1) = c (d + 1) := by
  refine Reads.bind (Reads.check .rightParen) fun empty => ?_
  refine Reads.ite (fun _ => ?_) fun _ => ?_
  · exact Reads.pure fun _ _ h => ⟨c, h, fun _ => rfl⟩
  · exact reads_arguments hline hinner hcount hn hm hbound hbound'

theorem reads_primary {inner inner' : Parser Expr} {n m : Nat}
    (hinner : ReadsUpTo line last last' more n m inner inner') (hn : k ≤ n + 1)
    (hm : k + more.length ≤ m + 1) :
    Reads last last' more (At line c k) (primary inner) (primary inner')
      fun _ => After line c (k - 1) := by
  have hsingle : ∀ {t : Token}, isPlain t.kind = true → closesExpression t.kind = true →
      Reads last last' more (fun past ahead => At line c k past ahead ∧ ahead.head? = some t) advance
        advance fun _ => After line c (k - 1) :=
    fun hplain hcloses => Reads.advance fun _ _ h => After.of_plain hline h hplain hcloses
  refine Reads.bind Reads.peek fun t => ?_
  split
  case h_1 hk | h_2 hk | h_3 hk | h_6 hk =>
    exact Reads.bind (hsingle (by rw [hk]; rfl) (by rw [hk]; rfl)) fun _ => Reads.pure fun _ _ h => h
  case h_4 hk | h_5 hk =>
    refine Reads.bind (hsingle (by rw [hk]; rfl) (by rw [hk]; rfl)) fun _ => ?_
    split
    · exact Reads.pure fun _ _ h => h
    · exact Reads.failAt _ _
  case h_7 hk =>
    refine Reads.bind (Q := fun _ past ahead => ∃ g, At line g (k - 1) past ahead ∧
      ∀ d, g (d + 1) = c d) (Reads.advance fun past us h => ?_) fun _ => ?_
    · exact ⟨h.ne_nil hline (by simp [hk]), h.opened hk⟩
    · refine Reads.of_exists fun g => Reads.of_and fun hg => reads_of_pos fun hpos => ?_
      refine Reads.bind (hinner g (k - 1) (by omega) (by omega)) fun e => ?_
      refine Reads.bind (reads_rightParen hline hg) fun _ => ?_
      exact Reads.pure fun _ _ h => h.mono (by omega)
  case h_8 => exact Reads.fail _

theorem reads_parameters {bound bound' : Nat} {count : Nat} (hcount : c 0 + count < maxArguments)
    (hbound : k ≤ bound) (hbound' : k + more.length ≤ bound') :
    Reads last last' more (At line c k) (parameters bound count) (parameters bound' count)
      fun _ past ahead => ∃ g, At line g k past ahead ∧ ∀ d, g (d + 1) = c (d + 1) := by
  induction bound generalizing bound' k c count with
  | zero => exact reads_of_pos fun hk => by omega
  | succ bound ih =>
    cases bound' with
    | zero => exact reads_of_pos fun hk => by omega
    | succ bound' =>
      have hne : count ≠ maxArguments := by omega
      rw [parameters, parameters, if_neg hne, if_neg hne]
      refine Reads.bind (reads_expect hline rfl _) fun name => ?_
      refine Reads.bind (reads_comma hline) fun comma => ?_
      cases comma with
      | false =>
        simp only [Bool.false_eq_true, if_false]
        exact Reads.pure fun _ _ h => ⟨c, h.mono (by omega), fun _ => rfl⟩
      | true =>
        simp only [if_true]
        refine Reads.of_exists fun g => Reads.of_and fun hg => ?_
        obtain ⟨hzero, hsucc⟩ := hg
        refine reads_of_pos fun hk => ?_
        refine Reads.bind (ih (by omega) (by omega) (by omega)) fun ps => ?_
        refine Reads.pure fun past ahead h => ?_
        obtain ⟨g', hat, hg'⟩ := h
        refine ⟨g', hat.mono (by omega), fun d => ?_⟩
        rw [hg', hsucc]

theorem reads_parameterList {bound bound' : Nat} (hcount : c 0 < maxArguments) (hbound : k ≤ bound)
    (hbound' : k + more.length ≤ bound') :
    Reads last last' more (At line c k) (parameterList bound) (parameterList bound')
      fun _ past ahead => ∃ g, At line g k past ahead ∧ ∀ d, g (d + 1) = c (d + 1) := by
  refine Reads.bind (reads_accept hline rfl) fun accepts => ?_
  refine Reads.ite (fun _ => ?_) fun _ => ?_
  · exact reads_parameters hline hcount hbound hbound'
  · exact Reads.pure fun _ _ h => ⟨c, h, fun _ => rfl⟩

/-- Nothing comes after the newline. -/
theorem At.eq_nil {past us : List Token} {t : Token} (h : At line c k past (t :: us))
    (ht : t.kind = .newline) : us = [] := by
  obtain ⟨ts, n, hwhole, -, htext⟩ := hline.ending
  cases hus : us.reverse with
  | nil => simpa using hus
  | cons x xs =>
    rw [List.reverse_eq_cons_iff] at hus
    subst hus
    have hsplit : past ++ t :: xs.reverse ++ [x] = ts ++ [n] := by
      rw [← hwhole, ← h.whole]
      simp
    obtain ⟨hts, -⟩ := List.append_inj' hsplit rfl
    have hmem : t ∈ ts := by simp [← hts]
    have hkind := htext t hmem
    rw [ht] at hkind
    cases hkind

omit hline in
theorem endOfLine_of_ne {t : Token} (ht : t.kind ≠ .newline) (us : List Token) :
    endOfLine last (t :: us) =
      ⟨.error (t.diagnose (.grammar (.expected "the end of the line"))), [], t :: us⟩ := by
  refine bind_of_error ?_
  show (if t.kind = .newline then _ else _) = _
  rw [if_neg ht]
  rfl

omit hline in
theorem endOfLine_of_newline {t : Token} (ht : t.kind = .newline) (us : List Token) :
    endOfLine last (t :: us) = ⟨.ok (), [], us⟩ := by
  have hexpect : expect .newline "the end of the line" last (t :: us) = ⟨.ok t, [], us⟩ := by
    show (if t.kind = .newline then _ else _) = _
    rw [if_pos ht]
    rfl
  exact bind_of_ok hexpect

/-- Past the end of the line there is nothing to be said. -/
theorem stopsAlike_endOfLine {f f' : Unit → Parser α} (hf : (f () last []).rest = []) :
    StopsAlike last last' more (At line c k) (endOfLine >>= f) (endOfLine >>= f') := by
  intro past ahead hne hat e notes rest hstops hrest
  cases ahead with
  | nil => exact absurd rfl hne
  | cons t us =>
    by_cases ht : t.kind = .newline
    · obtain rfl := hat.eq_nil hline ht
      rw [bind_of_ok (endOfLine_of_newline ht [])] at hstops
      exact absurd ((congrArg Reply.rest hstops).symm.trans hf) hrest
    · rw [bind_of_error (endOfLine_of_ne ht us)] at hstops
      cases hstops
      exact ⟨rfl, List.suffix_rfl, bind_of_error (endOfLine_of_ne ht (us ++ more))⟩

/-- A block cannot be read on a line, so what would come after it does not matter. -/
theorem stopsAlike_block (hlast : last.kind = .endOfFile) {statement statement' : Parser Stmt}
    {bound bound' : Nat} {f f' : List Stmt → Parser α} :
    StopsAlike last last' more (At line c k) (block statement bound >>= f)
      (block statement' bound' >>= f') := by
  intro past ahead hne hat e notes rest hstops hrest
  cases ahead with
  | nil => exact absurd rfl hne
  | cons t us =>
    by_cases ht : t.kind = .newline
    · obtain rfl := hat.eq_nil hline ht
      have hblock : block statement bound last [t] =
          ⟨.error (last.diagnose (.grammar .expectedBlock)), [], []⟩ := by
        have haccept : accept .indent last [] = ⟨.ok false, [], []⟩ := by
          show (if last.kind = .indent then _ else _) = _
          rw [hlast]
          rfl
        rw [block, bind_of_ok (endOfLine_of_newline ht []), bind_of_ok haccept]
        rfl
      rw [bind_of_error hblock] at hstops
      cases hstops
      exact absurd rfl hrest
    · have hblock : ∀ (statement : Parser Stmt) bound last us, block statement bound last (t :: us) =
          ⟨.error (t.diagnose (.grammar (.expected "the end of the line"))), [], t :: us⟩ :=
        fun _ _ _ us => bind_of_error (endOfLine_of_ne ht us)
      rw [bind_of_error (hblock _ _ _ _)] at hstops
      cases hstops
      exact ⟨rfl, List.suffix_rfl, bind_of_error (hblock _ _ _ _)⟩

include hshort

/-- A parenthesis after an expression or a name opens a list that is not too long. -/
theorem After.opened {past us : List Token} {t : Token} (h : After line c k past (t :: us))
    (ht : t.kind = .leftParen) :
    us ≠ [] ∧ ∃ g, At line g (k - 1) (past ++ [t]) us ∧ g 0 < maxArguments ∧
      ∀ d, g (d + 1) = c d := by
  obtain ⟨hat, x, hx, hcloses⟩ := h
  obtain ⟨g, hg, hsucc⟩ := hat.opened ht
  refine ⟨hat.ne_nil hline (by simp [ht]), g, hg, ?_, hsucc⟩
  obtain ⟨before, rfl⟩ := List.getLast?_eq_some_iff.1 hx
  rw [← hg.commas 0]
  refine hshort before x t us ?_ hcloses ht
  rw [← hat.whole, List.append_assoc, List.singleton_append]

theorem reads_calls {inner inner' : Parser Expr} {n m : Nat}
    (hinner : ReadsUpTo line last last' more n m inner inner') {bound bound' : Nat}
    {rounds rounds' : Nat} (callee : Expr) (hn : k ≤ n + 1) (hm : k + more.length ≤ m + 1)
    (hbound : k ≤ bound) (hbound' : k + more.length ≤ bound') (hrounds : k ≤ rounds)
    (hrounds' : k + more.length ≤ rounds') :
    Reads last last' more (After line c k) (calls inner bound rounds callee)
      (calls inner' bound' rounds' callee) fun _ => After line c k := by
  induction rounds generalizing rounds' k callee with
  | zero => exact fun past ahead hne h => absurd (h.1.pos hne) (by omega)
  | succ rounds ih =>
    cases rounds' with
    | zero => exact fun past ahead hne h => absurd (h.1.pos hne) (by omega)
    | succ rounds' =>
      refine Reads.bind (Q := fun more past ahead => if more then ∃ g, At line g (k - 1) past ahead ∧
        g 0 < maxArguments ∧ ∀ d, g (d + 1) = c d else After line c k past ahead)
        (Reads.accept (fun past t us h ht => ?_) fun _ _ h => by simpa using h) fun paren => ?_
      · simpa using h.opened hline hshort ht
      · cases paren with
        | false =>
          simp only [Bool.false_eq_true, if_false]
          exact Reads.pure fun _ _ h => h
        | true =>
          simp only [if_true]
          refine Reads.of_exists fun g => Reads.of_and fun hg => ?_
          obtain ⟨hzero, hsucc⟩ := hg
          refine reads_of_pos fun hk => ?_
          refine Reads.bind (reads_argumentList hline hinner hzero (by omega) (by omega) (by omega)
            (by omega)) fun args => ?_
          refine Reads.of_exists fun g' => Reads.of_and fun hg' => ?_
          refine Reads.bind (reads_rightParen hline fun d => (hg' d).trans (hsucc d)) fun paren => ?_
          exact (ih _ (by omega) (by omega) (by omega) (by omega) (by omega) (by omega)).weaken
            (fun _ _ h => h) fun _ _ _ h => h.mono (by omega)

theorem readsUpTo_call {inner inner' : Parser Expr} {n m : Nat}
    (hinner : ReadsUpTo line last last' more n m inner inner') :
    ReadsUpTo line last last' more (n + 1) (m + 1) (call inner (n + 1)) (call inner' (m + 1)) := by
  intro c k hn hm
  refine Reads.bind (reads_primary hline hinner hn hm) fun callee => ?_
  refine (reads_calls hline hshort hinner callee (by omega) (by omega) (by omega) (by omega)
    (by omega) (by omega)).weaken (fun _ _ h => h) fun _ _ _ h => h.1.mono (by omega)

theorem readsUpTo_expression (n m : Nat) :
    ReadsUpTo line last last' more n m (expression (n + 1)) (expression (m + 1)) := by
  induction n generalizing m with
  | zero => exact fun c k hn _ => reads_of_pos fun hk => by omega
  | succ n ih =>
    cases m with
    | zero => exact fun c k _ hm => reads_of_pos fun hk => by omega
    | succ m =>
      have hcall := readsUpTo_call hline hshort (ih m)
      exact readsUpTo_levels hline
        (fun c k hn hm => reads_unary hline hcall hn hm hn hm) fun t ht => ht

/-! ### Statements on a line -/

/-- What is needed of the expressions in a statement. -/
theorem reads_expression {n m k' : Nat} (hn : k ≤ n) (hm : k + more.length ≤ m) (hk : k' ≤ k) :
    Reads last last' more (At line c k') (expression (n + 1)) (expression (m + 1))
      fun _ => At line c k' :=
  readsUpTo_expression hline hshort n m c k' (by omega) (by omega)

variable {n m : Nat} (hn : k ≤ n) (hm : k + more.length ≤ m)
include hn hm

theorem stopsAlike_change {t : Token} (ht : isPlain t.kind = true) :
    StopsAlike last last' more (fun past ahead => At line c k past ahead ∧ ahead.head? = some t)
      (change (expression (n + 1))) (change (expression (m + 1))) := by
  refine StopsAlike.bind (reads_advance hline ht) fun _ => ?_
  refine StopsAlike.bind (reads_expression hline hshort hn hm (by omega)) fun target => ?_
  refine StopsAlike.bind (reads_expect hline rfl _) fun equal => ?_
  refine StopsAlike.bind (reads_expression hline hshort hn hm (by omega)) fun value => ?_
  split
  · exact stopsAlike_endOfLine hline rfl
  · exact StopsAlike.of_reads (Reads.failAt _ _)

theorem stopsAlike_create {t : Token} (ht : isPlain t.kind = true) :
    StopsAlike last last' more (fun past ahead => At line c k past ahead ∧ ahead.head? = some t)
      (create (expression (n + 1))) (create (expression (m + 1))) := by
  refine StopsAlike.bind (reads_advance hline ht) fun _ => ?_
  refine StopsAlike.bind (reads_expect hline rfl _) fun name => ?_
  refine StopsAlike.bind (reads_expect hline rfl _) fun equal => ?_
  refine StopsAlike.bind (reads_expression hline hshort hn hm (by omega)) fun value => ?_
  exact stopsAlike_endOfLine hline rfl

theorem stopsAlike_giveBack {t : Token} (ht : isPlain t.kind = true) :
    StopsAlike last last' more (fun past ahead => At line c k past ahead ∧ ahead.head? = some t)
      (giveBack (expression (n + 1))) (giveBack (expression (m + 1))) := by
  refine StopsAlike.bind (reads_advance hline ht) fun _ => ?_
  refine StopsAlike.bind (reads_accept hline rfl) fun withValue => ?_
  refine StopsAlike.ite (fun _ => ?_) fun _ => stopsAlike_endOfLine hline rfl
  refine StopsAlike.bind (reads_expression hline hshort hn hm (by omega)) fun value => ?_
  exact stopsAlike_endOfLine hline rfl

theorem stopsAlike_expressionStatement :
    StopsAlike last last' more (At line c k) (expressionStatement (expression (n + 1)))
      (expressionStatement (expression (m + 1))) := by
  refine StopsAlike.bind (reads_expression hline hshort hn hm (by omega)) fun value => ?_
  split
  · refine StopsAlike.bind (Reads.check .equal) fun assigned => ?_
    refine StopsAlike.ite (fun _ => ?_) fun _ => stopsAlike_endOfLine hline rfl
    exact StopsAlike.of_reads (Reads.fail _)
  · exact stopsAlike_endOfLine hline rfl

theorem stopsAlike_define {t : Token} (ht : isPlain t.kind = true) (hlast : last.kind = .endOfFile)
    {inner inner' : Parser Stmt} :
    StopsAlike last last' more (fun past ahead => At line c k past ahead ∧ ahead.head? = some t)
      (define inner n) (define inner' m) := by
  refine StopsAlike.bind (reads_advance hline ht) fun _ => ?_
  refine StopsAlike.bind (Q := fun _ => After line c (k - 1 - 1))
    (Reads.expect fun past t us h ht => ?_) fun name => ?_
  · exact After.of_plain hline h (by rw [ht]; rfl) (by rw [ht]; rfl)
  refine StopsAlike.bind (Q := fun _ past ahead => ∃ g, At line g (k - 1 - 1 - 1) past ahead ∧
    g 0 < maxArguments ∧ ∀ d, g (d + 1) = c d)
    (Reads.expect fun past t us h ht => h.opened hline hshort ht) fun paren => ?_
  refine StopsAlike.bind (Q := fun _ past ahead => ∃ g, At line g (k - 1 - 1 - 1) past ahead ∧
    ∀ d, g (d + 1) = c d) ?_ fun params => ?_
  · refine Reads.of_exists fun g => Reads.of_and fun hg => ?_
    obtain ⟨hzero, hsucc⟩ := hg
    refine (reads_parameterList hline hzero (by omega) (by omega)).weaken (fun _ _ h => h) ?_
    rintro params past ahead ⟨g', hat, hg'⟩
    exact ⟨g', hat, fun d => (hg' d).trans (hsucc d)⟩
  · refine StopsAlike.bind (Q := fun _ past ahead => At line c (k - 1 - 1 - 1 - 1) past ahead)
      (Reads.of_exists fun g => Reads.of_and fun hg => ?_) fun _ => ?_
    · exact (reads_rightParen hline hg).weaken (fun _ _ h => h) fun _ _ _ h => h.1
    · exact stopsAlike_block hline hlast

theorem stopsAlike_conditional {t : Token} (ht : isPlain t.kind = true)
    (hlast : last.kind = .endOfFile) {inner inner' : Parser Stmt} :
    StopsAlike last last' more (fun past ahead => At line c k past ahead ∧ ahead.head? = some t)
      (conditional (expression (n + 1)) inner n) (conditional (expression (m + 1)) inner' m) := by
  refine StopsAlike.bind (reads_advance hline ht) fun _ => ?_
  refine StopsAlike.bind (reads_expression hline hshort hn hm (by omega)) fun cond => ?_
  exact stopsAlike_block hline hlast

theorem stopsAlike_repetition {t : Token} (ht : isPlain t.kind = true)
    (hlast : last.kind = .endOfFile) {inner inner' : Parser Stmt} :
    StopsAlike last last' more (fun past ahead => At line c k past ahead ∧ ahead.head? = some t)
      (repetition (expression (n + 1)) inner n) (repetition (expression (m + 1)) inner' m) := by
  refine StopsAlike.bind (reads_advance hline ht) fun _ => ?_
  refine StopsAlike.bind (reads_accept hline rfl) fun isWhile => ?_
  refine StopsAlike.ite (fun _ => ?_) fun _ => ?_
  · refine StopsAlike.bind (reads_expression hline hshort hn hm (by omega)) fun cond => ?_
    exact stopsAlike_block hline hlast
  · refine StopsAlike.bind (reads_expression hline hshort hn hm (by omega)) fun count => ?_
    refine StopsAlike.bind (reads_expect hline rfl _) fun _ => ?_
    exact stopsAlike_block hline hlast

/-- A statement that stops on a line stops there whatever comes after the line. -/
theorem stopsAlike_statement (hlast : last.kind = .endOfFile) :
    StopsAlike last last' more (At line c k) (statement (n + 1)) (statement (m + 1)) := by
  refine StopsAlike.bind Reads.peek fun t => ?_
  split
  case h_1 hk => exact stopsAlike_change hline hshort hn hm (by rw [hk]; rfl)
  case h_2 hk => exact stopsAlike_create hline hshort hn hm (by rw [hk]; rfl)
  case h_3 hk => exact stopsAlike_define hline hshort hn hm (by rw [hk]; rfl) hlast
  case h_4 hk => exact stopsAlike_conditional hline hshort hn hm (by rw [hk]; rfl) hlast
  case h_5 => exact StopsAlike.of_reads (Reads.fail _)
  case h_6 hk => exact stopsAlike_repetition hline hshort hn hm (by rw [hk]; rfl) hlast
  case h_7 hk => exact stopsAlike_giveBack hline hshort hn hm (by rw [hk]; rfl)
  case h_8 =>
    rintro past ahead hne ⟨hat, -⟩
    exact stopsAlike_expressionStatement hline hshort hn hm past ahead hne hat

end

end Offside.Grammar
