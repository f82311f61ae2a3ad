import Offside.Proofs.Grammar.Completeness
import Offside.Proofs.Grammar.Skipping

/-!
# What a malformed statement costs

What is given up between two statements costs one diagnostic, and the statements around it are read as
if it were not there. This holds in the body of any block, at any depth, as long as every block keeps
a statement. The induction is on where the body stands, and goes along with that for reading what is
derived.

* `Parser.Records`: answers with a value and with diagnostics;
* `Inside`: statements in the body of a block, and the tokens around them;
* `Phrase.ReadAround`, `Inside.readAround`: the phrase around such a body is read;
* `Inside.parse`: a program around such a body is read;
* `recovery_isolated`: the statements around what is given up are kept.
-/

namespace Offside

/-! ### Parsing with diagnostics -/

namespace Parser

variable {α β : Type} {last : Token} {ds : List Diagnostic} {ts us rest : List Token}

/-- A parser answers with a value, records the diagnostics `ds`, and leaves the tokens `rest`. -/
def Records (ds : List Diagnostic) (p : Parser α) (last : Token) (ts : List Token) (a : α)
    (rest : List Token) : Prop :=
  p last ts = ⟨.ok a, ds, rest⟩

theorem bind_eq_ok {p : Parser α} {f : α → Parser β} {b : β} {notes : List Diagnostic}
    (h : (p >>= f) last ts = ⟨.ok b, notes, rest⟩) : ∃ a first us second,
      p last ts = ⟨.ok a, first, us⟩ ∧ f a last us = ⟨.ok b, second, rest⟩ ∧
        notes = first ++ second := by
  cases hp : p last ts with
  | mk outcome first us =>
    cases outcome with
    | error e =>
      rw [bind_of_error hp] at h
      cases h
    | ok a =>
      rw [bind_of_ok hp] at h
      obtain ⟨houtcome, hnotes, hrest⟩ := Reply.mk.inj h
      refine ⟨a, first, us, (f a last us).notes, rfl, ?_, hnotes.symm⟩
      rw [← houtcome, ← hrest]

/-- Diagnostics are recorded by what comes later. -/
theorem Yields.bind_records {p : Parser α} {f : α → Parser β} {a : α} {b : β}
    (hp : p.Yields last ts a us) (hf : (f a).Records ds last us b rest) :
    (p >>= f).Records ds last ts b rest := by
  rw [Records, bind_of_ok hp, hf]
  rfl

/-- Diagnostics are recorded by what comes first, and by what comes later. -/
theorem Records.bind {p : Parser α} {f : α → Parser β} {a : α} {b : β} {es : List Diagnostic}
    (hp : p.Records ds last ts a us) (hf : (f a).Records es last us b rest) :
    (p >>= f).Records (ds ++ es) last ts b rest := by
  rw [Records, bind_of_ok hp, hf]

/-- Diagnostics are recorded by what comes first. -/
theorem Records.bind_yields {p : Parser α} {f : α → Parser β} {a : α} {b : β}
    (hp : p.Records ds last ts a us) (hf : (f a).Yields last us b rest) :
    (p >>= f).Records ds last ts b rest := by
  have hnone : (f a).Records [] last us b rest := hf
  simpa using hp.bind hnone

theorem Records.bind_pure {p : Parser α} {a : α} (hp : p.Records ds last ts a rest) (f : α → β) :
    (p >>= fun a => pure (f a)).Records ds last ts (f a) rest :=
  hp.bind_yields (yields_pure.2 ⟨rfl, rfl⟩)

theorem Yields.bind_pure {p : Parser α} {a : α} (hp : p.Yields last ts a rest) (f : α → β) :
    (p >>= fun a => pure (f a)).Yields last ts (f a) rest :=
  yields_bind.2 ⟨a, rest, hp, yields_pure.2 ⟨rfl, rfl⟩⟩

/-! Nothing is recorded where a token is looked at or taken. -/

theorem peek_bind (f : Token → Parser β) : (peek >>= f) last ts = f (ts.headD last) last ts := rfl

theorem records_peek {f : Token → Parser β} {b : β}
    (hf : (f (ts.headD last)).Records ds last ts b rest) :
    (peek >>= f).Records ds last ts b rest :=
  (peek_bind f).trans hf

theorem records_advance {f : Token → Parser β} {b : β} {t : Token}
    (hf : (f t).Records ds last ts b rest) : (advance >>= f).Records ds last (t :: ts) b rest :=
  (yields_advance.2 ⟨rfl, rfl⟩).bind_records hf

theorem records_accept {f : Bool → Parser β} {b : β} {t : Token} {kind : Kind} (ht : t.kind = kind)
    (hf : (f true).Records ds last ts b rest) :
    (accept kind >>= f).Records ds last (t :: ts) b rest :=
  Yields.bind_records (if_pos ht) hf

theorem records_refuse {f : Bool → Parser β} {b : β} {kind : Kind}
    (hne : (ts.headD last).kind ≠ kind) (hf : (f false).Records ds last ts b rest) :
    (accept kind >>= f).Records ds last ts b rest :=
  Yields.bind_records (if_neg hne) hf

theorem records_expect {f : Token → Parser β} {b : β} {t : Token} {kind : Kind} {what : String}
    (ht : t.kind = kind) (hf : (f t).Records ds last ts b rest) :
    (expect kind what >>= f).Records ds last (t :: ts) b rest :=
  Yields.bind_records (if_pos ht) hf

end Parser

namespace Grammar

open Offside.Parser

variable {last : Token} {d : Diagnostic} {ds : List Diagnostic}

/-! ### Statements in the body of a block -/

/-- Statements `inner` as the body of a block, or as all there is: what comes before and after them in
a phrase. Every block around them has statements. -/
inductive Inside (inner : List Stmt) : Phrase → List Token → List Token → Prop
  | whole : Inside inner (.statements inner) [] []
  | among {s : Stmt} {ss ss' : List Stmt} {ts us vs ws : List Token} :
    Derives (.statements ss) ts → Inside inner (.statement s) us vs →
    Derives (.statements ss') ws →
    Inside inner (.statements (ss ++ s :: ss')) (ts ++ us) (vs ++ ws)
  | block {n i d : Token} {ss : List Stmt} {ts us : List Token} : n.kind = .newline →
    i.kind = .indent → Inside inner (.statements ss) ts us → ss ≠ [] → d.kind = .dedent →
    Inside inner (.block ss) (n :: i :: ts) (us ++ [d])
  | define {w name l r : Token} {ss : List Stmt} {ts us : List Token} : w.kind = .defineWord →
    name.kind = .identifier → l.kind = .leftParen → r.kind = .rightParen →
    Inside inner (.block ss) ts us →
    Inside inner (.statement (.define name [] ss)) (w :: name :: l :: r :: ts) us
  | defineWith {w name l a r : Token} {ps vs ts us : List Token} {ss : List Stmt} :
    w.kind = .defineWord → name.kind = .identifier → l.kind = .leftParen →
    a.kind = .acceptWord → Derives (.parameters ps) vs → ps.length ≤ 255 →
    r.kind = .rightParen → Inside inner (.block ss) ts us →
    Inside inner (.statement (.define name ps ss)) (w :: name :: l :: a :: (vs ++ r :: ts)) us
  | conditional {w : Token} {e : Expr} {ss : List Stmt} {r : Else} {ts us vs ws : List Token} :
    w.kind = .ifWord → Derives (.expression .disjunction e) ts → Inside inner (.block ss) us vs →
    Derives (.alternatives r) ws →
    Inside inner (.statement (.branch w e ss r)) (w :: (ts ++ us)) (vs ++ ws)
  | alternative {w : Token} {e : Expr} {ss : List Stmt} {r : Else} {ts us vs ws : List Token} :
    w.kind = .ifWord → Derives (.expression .disjunction e) ts → Derives (.block ss) us →
    Inside inner (.alternatives r) vs ws →
    Inside inner (.statement (.branch w e ss r)) (w :: (ts ++ (us ++ vs))) ws
  | repeatTimes {w m : Token} {e : Expr} {ss : List Stmt} {ts us vs : List Token} :
    w.kind = .repeatWord → Derives (.expression .disjunction e) ts → m.kind = .timesWord →
    Inside inner (.block ss) us vs →
    Inside inner (.statement (.repeatTimes w e ss)) (w :: (ts ++ m :: us)) vs
  | repeatWhile {w m : Token} {e : Expr} {ss : List Stmt} {ts us vs : List Token} :
    w.kind = .repeatWord → m.kind = .whileWord → Derives (.expression .disjunction e) ts →
    Inside inner (.block ss) us vs →
    Inside inner (.statement (.repeatWhile w e ss)) (w :: m :: (ts ++ us)) vs
  | otherwise {w : Token} {ss : List Stmt} {ts us : List Token} : w.kind = .otherwiseWord →
    Inside inner (.block ss) ts us → Inside inner (.alternatives (.block ss)) (w :: ts) us
  | otherwiseIf {w m : Token} {e : Expr} {ss : List Stmt} {r : Else} {ts us vs ws : List Token} :
    w.kind = .otherwiseWord → m.kind = .ifWord → Derives (.expression .disjunction e) ts →
    Inside inner (.block ss) us vs → Derives (.alternatives r) ws →
    Inside inner (.alternatives (.branch m e ss r)) (w :: m :: (ts ++ us)) (vs ++ ws)
  | further {w m : Token} {e : Expr} {ss : List Stmt} {r : Else} {ts us vs ws : List Token} :
    w.kind = .otherwiseWord → m.kind = .ifWord → Derives (.expression .disjunction e) ts →
    Derives (.block ss) us → Inside inner (.alternatives r) vs ws →
    Inside inner (.alternatives (.branch m e ss r)) (w :: m :: (ts ++ (us ++ vs))) ws

/-- With the statements in their place, the whole is derived. -/
theorem Inside.derives {inner : List Stmt} {ph : Phrase} {before after : List Token}
    (h : Inside inner ph before after) {ts : List Token} (hts : Derives (.statements inner) ts) :
    Derives ph (before ++ (ts ++ after)) := by
  induction h with
  | whole => simpa using hts
  | among hss _ hss' ih =>
    simpa using hss.append_statements (.moreStatements ih hss')
  | block hn hi _ hne hd ih =>
    simpa using Derives.block hn hi ih hne hd
  | define hw hname hl hr _ ih => exact .define hw hname hl hr ih
  | defineWith hw hname hl ha hps hlength hr _ ih =>
    simpa using Derives.defineWith hw hname hl ha hps hlength hr ih
  | conditional hw he _ hr ih =>
    simpa using Derives.conditional hw he ih hr
  | alternative hw he hss _ ih =>
    simpa using Derives.conditional hw he hss ih
  | repeatTimes hw he hm _ ih =>
    simpa using Derives.repeatTimes hw he hm ih
  | repeatWhile hw hm he _ ih =>
    simpa using Derives.repeatWhile hw hm he ih
  | otherwise hw _ ih => exact .otherwise hw ih
  | otherwiseIf hw hm he _ hr ih =>
    simpa using Derives.otherwiseIf hw hm he ih hr
  | further hw hm he hss _ ih =>
    simpa using Derives.otherwiseIf hw hm he hss ih

theorem Inside.opens_statement {inner : List Stmt} {s : Stmt} {before after : List Token}
    (h : Inside inner (.statement s) before after) : (Phrase.statement s).Opens before := by
  cases h with
  | define hw _ _ _ _ | defineWith hw _ _ _ _ _ _ _ | conditional hw _ _ _ | alternative hw _ _ _
  | repeatTimes hw _ _ _ | repeatWhile hw _ _ _ => exact ⟨_, _, rfl, by rw [hw]; rfl⟩

theorem Inside.opens_block {inner ss : List Stmt} {before after : List Token}
    (h : Inside inner (.block ss) before after) : ∃ n us, before = n :: us ∧ n.kind = .newline := by
  cases h with
  | block hn _ _ _ _ => exact ⟨_, _, rfl, hn⟩

/-! ### Reading around what is given up -/

section

variable {st : Parser Stmt} {bound : Nat} {s : Stmt} {ss : List Stmt} {ts us rest : List Token}

/-- One round of the loop over the statements of a block. -/
theorem statements_round (hdedent : (ts.headD last).kind ≠ .dedent)
    (hend : (ts.headD last).kind ≠ .endOfFile) :
    statements st (bound + 1) last ts =
      (do
        match ← recovering st with
        | some s => return s :: (← statements st bound)
        | none => statements st bound : Parser (List Stmt)) last ts := by
  have hgo : ¬ (decide ((ts.headD last).kind = .dedent) ||
      decide ((ts.headD last).kind = .endOfFile)) = true := by
    simp only [hdedent, hend, decide_false, Bool.or_self, Bool.false_eq_true, not_false_eq_true]
  rw [statements, peek_bind]
  exact congrFun (congrFun (if_neg hgo) last) ts

theorem records_statements_skip {es : List Diagnostic} (hdedent : (ts.headD last).kind ≠ .dedent)
    (hend : (ts.headD last).kind ≠ .endOfFile) (hskip : (recovering st).Records ds last ts none us)
    (hmore : (statements st bound).Records es last us ss rest) :
    (statements st (bound + 1)).Records (ds ++ es) last ts ss rest :=
  (statements_round hdedent hend).trans (hskip.bind hmore)

theorem records_statements_first (hdedent : (ts.headD last).kind ≠ .dedent)
    (hend : (ts.headD last).kind ≠ .endOfFile) (hfirst : st.Records ds last ts s us)
    (hmore : (statements st bound).Yields last us ss rest) :
    (statements st (bound + 1)).Records ds last ts (s :: ss) rest := by
  have hrecovering : (recovering st).Records ds last ts (some s) us := by
    rw [Records, recovering, hfirst]
  exact (statements_round hdedent hend).trans
    (hrecovering.bind_yields (hmore.bind_pure (s :: ·)))

theorem records_statements_later (hdedent : (ts.headD last).kind ≠ .dedent)
    (hend : (ts.headD last).kind ≠ .endOfFile) (hfirst : st.Yields last ts s us)
    (hmore : (statements st bound).Records ds last us ss rest) :
    (statements st (bound + 1)).Records ds last ts (s :: ss) rest := by
  have hrecovering := yields_recovering.2 ⟨s, rfl, hfirst⟩
  exact (statements_round hdedent hend).trans
    (hrecovering.bind_records (hmore.bind_pure (s :: ·)))

end

section

variable (hlast : last.kind = .endOfFile)
include hlast

/-- Statements before the place where diagnostics are recorded. -/
theorem Derives.records_append {ss ss' : List Stmt} {ts rest after : List Token} {n : Nat}
    (h : Derives (.statements ss) ts) (hrest : (rest.headD last).kind ≠ .otherwiseWord)
    (hmore : ∀ bound, rest.length < bound →
      (statements (statement n) bound).Records ds last rest ss' after)
    (bound : Nat) (hlen : (ts ++ rest).length < n) (hbound : (ts ++ rest).length < bound) :
    (statements (statement n) bound).Records ds last (ts ++ rest) (ss ++ ss') after := by
  generalize hph : Phrase.statements ss = ph at h
  induction h generalizing ss bound with
  | noStatements =>
    cases hph
    exact hmore bound hbound
  | @moreStatements s ss ts us hs hss _ ih =>
    cases hph
    rw [List.append_assoc] at hlen hbound ⊢
    have hfirst := hs.read hlast n (us ++ rest) hlen (hss.after_statement rfl rest hrest)
    obtain ⟨t, vs, rfl, ht⟩ := hs.opens
    obtain ⟨hdedent, hend, -⟩ := opensStatement_ne ht
    rw [List.cons_append, List.length_cons, List.length_append] at hlen hbound
    cases bound with
    | zero => omega
    | succ bound =>
      exact records_statements_later hdedent hend hfirst (ih bound (by omega) (by omega) rfl)
  | _ => cases hph

omit hlast in
/-- What is given up at the start is recorded before the rest of the statements. -/
theorem Skips.records_append {tokens after rest : List Token} {ss : List Stmt} {n : Nat}
    (h : Skips last d tokens) (hafter : (after.headD last).kind ≠ .indent)
    (hmore : ∀ bound, after.length < bound →
      (statements (statement n) bound).Records ds last after ss rest)
    (bound : Nat) (hlen : (tokens ++ after).length < n) (hbound : (tokens ++ after).length < bound) :
    (statements (statement n) bound).Records (d :: ds) last (tokens ++ after) ss rest := by
  have hskip : (recovering (statement n)).Records [d] last (tokens ++ after) none after :=
    h.recovers n after hlen hafter
  obtain ⟨t, us, rfl, hdedent, hend, -⟩ := h.opens
  cases bound with
  | zero => omega
  | succ bound =>
    simp only [List.cons_append, List.length_cons, List.length_append] at hbound
    refine records_statements_skip ?_ ?_ hskip (hmore bound (by omega))
    · exact hdedent
    · exact hend

/-- What is given up between statements of a block leaves the statements of the block. -/
theorem Skips.records {tokens p q : List Token} {first second : List Stmt} (h : Skips last d tokens)
    (hp : Derives (.statements first) p) (hq : Derives (.statements second) q) (n bound : Nat)
    (rest : List Token) (hlen : (p ++ tokens ++ q ++ rest).length < n)
    (hbound : (p ++ tokens ++ q ++ rest).length < bound)
    (hrest : (rest.headD last).kind = .dedent ∨ (rest.headD last).kind = .endOfFile) :
    (statements (statement n) bound).Records [d] last (p ++ tokens ++ q ++ rest) (first ++ second)
      rest := by
  have hassoc : p ++ tokens ++ q ++ rest = p ++ (tokens ++ (q ++ rest)) := by simp
  rw [hassoc] at hlen hbound ⊢
  obtain ⟨t, us, htokens, -, -, hotherwise⟩ := h.opens
  refine hp.records_append hlast (by simpa [htokens] using hotherwise) (fun bound hbound => ?_) bound
    hlen hbound
  have hnext := hq.after_statement rfl rest (ne_of_endsBlock hrest).2
  have hlen' : (tokens ++ (q ++ rest)).length < n := by
    rw [List.length_append] at hlen
    omega
  refine h.records_append hnext (fun bound hbound => ?_) bound hlen' hbound
  exact hq.read hlast n bound rest (by rw [List.length_append] at hlen'; omega) hbound hrest

/-! ### Everything around -/

/-- A phrase is parsed with diagnostics, from `before`, the tokens that they are recorded for, and
`after`, whatever follows that does not go on with the phrase. -/
def Phrase.ReadAround (last : Token) (ds : List Diagnostic) (middle : List Token) :
    Phrase → List Token → List Token → Prop
  | .statement s, before, after => ∀ n rest, (before ++ (middle ++ (after ++ rest))).length < n →
    (rest.headD last).kind ≠ .otherwiseWord →
    (Grammar.statement n).Records ds last (before ++ (middle ++ (after ++ rest))) s rest
  | .statements ss, before, after => ∀ n bound rest,
    (before ++ (middle ++ (after ++ rest))).length < n →
    (before ++ (middle ++ (after ++ rest))).length < bound →
    (rest.headD last).kind = .dedent ∨ (rest.headD last).kind = .endOfFile →
    (Grammar.statements (Grammar.statement n) bound).Records ds last
      (before ++ (middle ++ (after ++ rest))) ss rest
  | .block ss, before, after => ∀ n rest, (before ++ (middle ++ (after ++ rest))).length ≤ n →
    (Grammar.block (Grammar.statement n) n).Records ds last
      (before ++ (middle ++ (after ++ rest))) ss rest
  | .alternatives r, before, after => ∀ n bound rest,
    (before ++ (middle ++ (after ++ rest))).length ≤ n →
    (before ++ (middle ++ (after ++ rest))).length < bound →
    (rest.headD last).kind ≠ .otherwiseWord →
    (Grammar.alternatives (Grammar.expression (n + 1)) (Grammar.block (Grammar.statement n) n)
      bound).Records ds last (before ++ (middle ++ (after ++ rest))) r rest
  | _, _, _ => True

omit hlast in
/-- A compound statement is read if its rule reads it. -/
theorem readAround_statement {s : Stmt} {middle before after : List Token}
    (h : ∀ n rest, (before ++ (middle ++ (after ++ rest))).length ≤ n →
      (rest.headD last).kind ≠ .otherwiseWord →
      (statementOf (expression (n + 1)) (statement n) n).Records ds last
        (before ++ (middle ++ (after ++ rest))) s rest) :
    (Phrase.statement s).ReadAround last ds middle before after := by
  intro n rest hlen hrest
  cases n with
  | zero => omega
  | succ n => exact h n rest (Nat.le_of_lt_succ hlen) hrest

section

variable {inner ss ss' : List Stmt} {s : Stmt} {e : Expr} {r : Else} {w m : Token}
  {middle ts us vs ws : List Token}

theorem readAround_among (hss : Derives (.statements ss) ts) (hopens : (Phrase.statement s).Opens us)
    (hs : (Phrase.statement s).ReadAround last ds middle us vs)
    (hss' : Derives (.statements ss') ws) :
    (Phrase.statements (ss ++ s :: ss')).ReadAround last ds middle (ts ++ us) (vs ++ ws) := by
  intro n bound rest hlen hbound hrest
  simp only [List.append_assoc] at hlen hbound ⊢
  obtain ⟨t, xs, rfl, ht⟩ := hopens
  obtain ⟨hdedent, hend, hotherwise⟩ := opensStatement_ne ht
  refine hss.records_append hlast ?_ (fun bound hbound => ?_) bound hlen hbound
  · exact hotherwise
  simp only [List.cons_append, List.length_cons, List.length_append] at hlen hbound
  have hnext := hss'.after_statement rfl rest (ne_of_endsBlock hrest).1
  have hfirst := hs n (ws ++ rest) (by simp; omega) hnext
  cases bound with
  | zero => omega
  | succ bound =>
    have hmore := hss'.read hlast n bound rest (by simp; omega) (by simp; omega) hrest
    exact records_statements_first hdedent hend hfirst hmore

omit hlast in
theorem readAround_block {l i c : Token} (hl : l.kind = .newline) (hi : i.kind = .indent)
    (h : (Phrase.statements ss).ReadAround last ds middle ts us) (hne : ss ≠ [])
    (hc : c.kind = .dedent) :
    (Phrase.block ss).ReadAround last ds middle (l :: i :: ts) (us ++ [c]) := by
  intro n rest hlen
  simp only [List.cons_append, List.append_assoc, List.nil_append, List.length_cons] at hlen ⊢
  have hbody := h n n (c :: rest) (by omega) (by omega) (.inl hc)
  have hclose : (expect .dedent "the end of the block").Yields last (c :: rest) c rest := if_pos hc
  refine Yields.bind_records (endOfLine_of_newline hl _) (records_accept hi (hbody.bind_yields ?_))
  rw [if_neg (by simpa using hne)]
  exact hclose.bind_pure fun _ => ss

omit hlast in
/-- A function, with or without parameters. -/
theorem readAround_define {name l c : Token} {ps : List Token} (xs : List Token)
    (hw : w.kind = .defineWord) (hname : name.kind = .identifier) (hl : l.kind = .leftParen)
    (hps : ∀ n rest, (xs ++ c :: rest).length < n →
      (parameterList n).Yields last (xs ++ c :: rest) ps (c :: rest))
    (hc : c.kind = .rightParen) (hss : (Phrase.block ss).ReadAround last ds middle ts us) :
    (Phrase.statement (.define name ps ss)).ReadAround last ds middle
      (w :: name :: l :: (xs ++ c :: ts)) us := by
  refine readAround_statement fun n rest hlen _ => ?_
  simp only [List.cons_append, List.append_assoc, List.length_cons, List.length_append] at hlen ⊢
  have hparams := hps n (ts ++ (middle ++ (us ++ rest))) (by simp; omega)
  have hbody := hss n rest (by simp; omega)
  refine records_peek ?_
  rw [List.headD_cons, hw]
  refine records_advance (records_expect hname (records_expect hl ?_))
  exact hparams.bind_records (records_expect hc (hbody.bind_pure _))

/-- The condition before a block that diagnostics are recorded in. -/
theorem Inside.condition (he : Derives (.expression .disjunction e) ts)
    (hss : Inside inner (.block ss) us vs) (n : Nat) (rest : List Token)
    (hlen : (ts ++ (us ++ rest)).length < n) :
    (expression n).Yields last (ts ++ (us ++ rest)) e (us ++ rest) := by
  obtain ⟨t, xs, rfl, ht⟩ := hss.opens_block
  exact (he.read hlast).before hlast ht rfl n (xs ++ rest) hlen

theorem readAround_conditional (hw : w.kind = .ifWord) (he : Derives (.expression .disjunction e) ts)
    (hinside : Inside inner (.block ss) us vs)
    (hss : (Phrase.block ss).ReadAround last ds middle us vs) (hr : Derives (.alternatives r) ws) :
    (Phrase.statement (.branch w e ss r)).ReadAround last ds middle (w :: (ts ++ us))
      (vs ++ ws) := by
  refine readAround_statement fun n rest hlen hrest => ?_
  simp only [List.cons_append, List.append_assoc, List.length_cons, List.length_append] at hlen ⊢
  have hcond := hinside.condition hlast he (n + 1) (middle ++ (vs ++ (ws ++ rest))) (by simp; omega)
  have hbody := hss n (ws ++ rest) (by simp; omega)
  have hmore := hr.read hlast n n rest (by simp; omega) (by simp; omega) hrest
  refine records_peek ?_
  rw [List.headD_cons, hw]
  exact records_advance (hcond.bind_records (hbody.bind_yields (hmore.bind_pure _)))

theorem readAround_alternative (hw : w.kind = .ifWord) (he : Derives (.expression .disjunction e) ts)
    (hss : Derives (.block ss) us) (hr : (Phrase.alternatives r).ReadAround last ds middle vs ws) :
    (Phrase.statement (.branch w e ss r)).ReadAround last ds middle (w :: (ts ++ (us ++ vs))) ws := by
  refine readAround_statement fun n rest hlen hrest => ?_
  simp only [List.cons_append, List.append_assoc, List.length_cons, List.length_append] at hlen ⊢
  have hcond := (he.read hlast).beforeBlock hlast hss (n + 1) (vs ++ (middle ++ (ws ++ rest)))
    (by simp; omega)
  have hbody := hss.read hlast n (vs ++ (middle ++ (ws ++ rest))) (by simp; omega)
  have hmore := hr n n rest (by simp; omega) (by simp; omega) hrest
  refine records_peek ?_
  rw [List.headD_cons, hw]
  exact records_advance (hcond.bind_records (hbody.bind_records (hmore.bind_pure _)))

theorem readAround_repeatTimes (hw : w.kind = .repeatWord)
    (he : Derives (.expression .disjunction e) ts) (hm : m.kind = .timesWord)
    (hss : (Phrase.block ss).ReadAround last ds middle us vs) :
    (Phrase.statement (.repeatTimes w e ss)).ReadAround last ds middle (w :: (ts ++ m :: us)) vs := by
  refine readAround_statement fun n rest hlen _ => ?_
  simp only [List.cons_append, List.append_assoc, List.length_cons, List.length_append] at hlen ⊢
  have hcount := (he.read hlast).before hlast hm rfl (n + 1) (us ++ (middle ++ (vs ++ rest)))
    (by simp; omega)
  have hbody := hss n rest (by simp; omega)
  have hne : ((ts ++ m :: (us ++ (middle ++ (vs ++ rest)))).headD last).kind ≠ .whileWord := by
    obtain ⟨t, xs, rfl, ht⟩ := he.opens
    rintro hk
    rw [List.cons_append, List.headD_cons] at hk
    rw [hk] at ht
    cases ht
  refine records_peek ?_
  rw [List.headD_cons, hw]
  refine records_advance (records_refuse hne (hcount.bind_records ?_))
  exact records_expect hm (hbody.bind_pure _)

theorem readAround_repeatWhile (hw : w.kind = .repeatWord) (hm : m.kind = .whileWord)
    (he : Derives (.expression .disjunction e) ts) (hinside : Inside inner (.block ss) us vs)
    (hss : (Phrase.block ss).ReadAround last ds middle us vs) :
    (Phrase.statement (.repeatWhile w e ss)).ReadAround last ds middle (w :: m :: (ts ++ us)) vs := by
  refine readAround_statement fun n rest hlen _ => ?_
  simp only [List.cons_append, List.append_assoc, List.length_cons, List.length_append] at hlen ⊢
  have hcond := hinside.condition hlast he (n + 1) (middle ++ (vs ++ rest)) (by simp; omega)
  have hbody := hss n rest (by simp; omega)
  refine records_peek ?_
  rw [List.headD_cons, hw]
  exact records_advance (records_accept hm (hcond.bind_records (hbody.bind_pure _)))

omit hlast in
theorem readAround_otherwise (hw : w.kind = .otherwiseWord)
    (hinside : Inside inner (.block ss) ts us)
    (hss : (Phrase.block ss).ReadAround last ds middle ts us) :
    (Phrase.alternatives (.block ss)).ReadAround last ds middle (w :: ts) us := by
  intro n bound rest hlen hbound _
  simp only [List.cons_append, List.length_cons] at hlen hbound ⊢
  have hbody := hss n rest (by omega)
  obtain ⟨t, xs, rfl, ht⟩ := hinside.opens_block
  cases bound with
  | zero => omega
  | succ bound =>
    exact records_accept hw (records_peek (records_refuse (by simp [ht]) (hbody.bind_pure _)))

theorem readAround_otherwiseIf (hw : w.kind = .otherwiseWord) (hm : m.kind = .ifWord)
    (he : Derives (.expression .disjunction e) ts) (hinside : Inside inner (.block ss) us vs)
    (hss : (Phrase.block ss).ReadAround last ds middle us vs) (hr : Derives (.alternatives r) ws) :
    (Phrase.alternatives (.branch m e ss r)).ReadAround last ds middle (w :: m :: (ts ++ us))
      (vs ++ ws) := by
  intro n bound rest hlen hbound hrest
  simp only [List.cons_append, List.append_assoc, List.length_cons, List.length_append]
    at hlen hbound ⊢
  cases bound with
  | zero => omega
  | succ bound =>
    have hcond := hinside.condition hlast he (n + 1) (middle ++ (vs ++ (ws ++ rest)))
      (by simp; omega)
    have hbody := hss n (ws ++ rest) (by simp; omega)
    have hmore := hr.read hlast n bound rest (by simp; omega) (by simp; omega) hrest
    refine records_accept hw (records_peek (records_accept hm (hcond.bind_records ?_)))
    exact hbody.bind_yields (hmore.bind_pure _)

theorem readAround_further (hw : w.kind = .otherwiseWord) (hm : m.kind = .ifWord)
    (he : Derives (.expression .disjunction e) ts) (hss : Derives (.block ss) us)
    (hr : (Phrase.alternatives r).ReadAround last ds middle vs ws) :
    (Phrase.alternatives (.branch m e ss r)).ReadAround last ds middle (w :: m :: (ts ++ (us ++ vs)))
      ws := by
  intro n bound rest hlen hbound hrest
  simp only [List.cons_append, List.append_assoc, List.length_cons, List.length_append]
    at hlen hbound ⊢
  cases bound with
  | zero => omega
  | succ bound =>
    have hcond := (he.read hlast).beforeBlock hlast hss (n + 1) (vs ++ (middle ++ (ws ++ rest)))
      (by simp; omega)
    have hbody := hss.read hlast n (vs ++ (middle ++ (ws ++ rest))) (by simp; omega)
    have hmore := hr n bound rest (by simp; omega) (by simp; omega) hrest
    refine records_accept hw (records_peek (records_accept hm (hcond.bind_records ?_)))
    exact hbody.bind_records (hmore.bind_pure _)

end

/-- What is recorded inside a block is all that is recorded for the phrase around it. -/
theorem Inside.readAround {inner : List Stmt} {middle : List Token}
    (hmiddle : (Phrase.statements inner).ReadAround last ds middle [] []) {ph : Phrase}
    {before after : List Token} (h : Inside inner ph before after) :
    ph.ReadAround last ds middle before after := by
  induction h with
  | whole => exact hmiddle
  | among hss hs hss' ih => exact readAround_among hlast hss hs.opens_statement ih hss'
  | block hn hi _ hne hc ih => exact readAround_block hn hi ih hne hc
  | define hw hname hl hr _ ih =>
    exact readAround_define [] hw hname hl (fun n rest _ => read_noParameters hlast hr n rest) hr ih
  | defineWith hw hname hl ha hps hlength hr _ ih =>
    exact readAround_define _ hw hname hl
      (read_parameterList hlast ha (hps.read hlast) hlength hr) hr ih
  | conditional hw he hss hr ih => exact readAround_conditional hlast hw he hss ih hr
  | alternative hw he hss _ ih => exact readAround_alternative hlast hw he hss ih
  | repeatTimes hw he hm _ ih => exact readAround_repeatTimes hlast hw he hm ih
  | repeatWhile hw hm he hss ih => exact readAround_repeatWhile hlast hw hm he hss ih
  | otherwise hw hss ih => exact readAround_otherwise hw hss ih
  | otherwiseIf hw hm he hss hr ih => exact readAround_otherwiseIf hlast hw hm he hss ih hr
  | further hw hm he hss _ ih => exact readAround_further hlast hw hm he hss ih

end

/-! ### Programs -/

/-- Only a program reaches to the end of the text. -/
theorem Derives.kind_ne_end {ph : Phrase} {ts : List Token} (h : Derives ph ts)
    (hph : ∀ ss, ph ≠ .program ss) : ∀ t ∈ ts, t.kind ≠ .endOfFile := by
  induction h with
  | program _ _ => exact absurd rfl (hph _)
  | @constant t _ hc =>
    have hne : t.kind ≠ .endOfFile := fun hk => by cases hk ▸ hc.opens
    simpa using hne
  | @unary t _ _ _ hop _ ih =>
    have hne : t.kind ≠ .endOfFile := fun hk => by cases hk ▸ hop
    simpa [hne] using ih nofun
  | @binary _ t _ _ _ _ _ _ hop _ ih ih' =>
    have hne : t.kind ≠ .endOfFile := fun hk => by cases hk ▸ hop
    simp_all [or_imp]
  | _ => simp_all [or_imp]

/-- One round of the loop over the statements of a program. -/
theorem program_round {st : Parser Stmt} {bound : Nat} {ts : List Token}
    (hdedent : (ts.headD last).kind ≠ .dedent) (hend : (ts.headD last).kind ≠ .endOfFile) :
    program st (bound + 1) last ts =
      (do
        match ← recovering st with
        | some s => return s :: (← program st bound)
        | none => program st bound : Parser (List Stmt)) last ts := by
  rw [program, peek_bind, if_neg hend]
  exact congrFun (congrFun (if_neg hdedent) last) ts

/-- At the top, statements are read as in a block, unless a dedent stands in the way. -/
theorem program_of_statements {st : Parser Stmt} (hlast : last.kind = .endOfFile) {bound : Nat}
    {ts : List Token} {ss : List Stmt} {notes : List Diagnostic}
    (h : statements st bound last ts = ⟨.ok ss, notes, []⟩) :
    program st bound last ts = ⟨.ok ss, notes, []⟩ := by
  induction bound generalizing ts ss notes with
  | zero => exact h
  | succ bound ih =>
    by_cases hend : (ts.headD last).kind = .endOfFile
    · rw [statements, peek_bind, if_pos (by simp only [hend, decide_true, Bool.or_true])] at h
      rw [program, peek_bind, if_pos hend]
      exact h
    · by_cases hdedent : (ts.headD last).kind = .dedent
      · -- statements stop here, and leave the dedent
        rw [statements, peek_bind, if_pos (by simp only [hdedent, decide_true, Bool.true_or])] at h
        obtain rfl : ts = [] := congrArg Reply.rest h
        exact absurd hlast hend
      · rw [statements_round hdedent hend] at h
        rw [program_round hdedent hend]
        obtain ⟨o, notes₁, us, notes₂, ho, hmore, rfl⟩ := bind_eq_ok h
        rw [bind_of_ok ho]
        cases o with
        | none => simp only [ih hmore]
        | some s =>
          obtain ⟨ss', notes₃, vs, notes₄, hss, hpure, rfl⟩ := bind_eq_ok hmore
          cases hpure
          simp only [bind_of_ok (ih hss)]
          rfl

/-- Parsing keeps the statements around a body, and records what is recorded there. -/
theorem Inside.parse {e : Token} {inner stmts : List Stmt} {ts middle before after : List Token}
    (hinside : Inside inner (.statements stmts) before after) (he : e.kind = .endOfFile)
    (hts : Derives (.statements inner) ts) (hends : ∀ t ∈ middle, t.kind ≠ .endOfFile)
    (hmiddle : (Phrase.statements inner).ReadAround e ds middle [] []) :
    parse (before ++ middle ++ after ++ [e]) = ⟨stmts, ds⟩ := by
  have hends : ∀ t ∈ before ++ middle ++ after, t.kind ≠ .endOfFile := by
    have hkinds := (hinside.derives hts).kind_ne_end nofun
    simp only [List.forall_mem_append] at hkinds ⊢
    exact ⟨⟨hkinds.1, hends⟩, hkinds.2.2⟩
  have hread := hinside.readAround he hmiddle _ _ [] (Nat.lt_succ_self _) (Nat.lt_succ_self _)
    (.inr he)
  rw [List.append_nil, ← List.append_assoc] at hread
  unfold Grammar.parse
  rw [ahead_append_end he hends, endToken_append_end he hends]
  simp only [program_of_statements he hread]

/-- Parsing keeps all statements around what is given up, and records nothing else. -/
theorem Skips.parse {e : Token} {tokens p q before after : List Token}
    {first second stmts : List Stmt} (h : Skips e d tokens) (he : e.kind = .endOfFile)
    (hp : Derives (.statements first) p) (hq : Derives (.statements second) q)
    (hinside : Inside (first ++ second) (.statements stmts) before after) :
    parse (before ++ (p ++ tokens ++ q) ++ after ++ [e]) = ⟨stmts, [d]⟩ := by
  have hends : ∀ t ∈ p ++ tokens ++ q, t.kind ≠ .endOfFile := by
    have hp := hp.kind_ne_end nofun
    have hq := hq.kind_ne_end nofun
    exact List.forall_mem_append.2 ⟨List.forall_mem_append.2 ⟨hp, h.inside⟩, hq⟩
  exact hinside.parse he (hp.append_statements hq) hends
    fun n bound rest hlen hbound hrest => h.records he hp hq n bound rest hlen hbound hrest

/-- Recovery is isolated. A malformed line between statements, with the indented region after it if
there is one, costs one diagnostic, pinned to the line, and none of the statements; an indented region
between statements costs one diagnostic, pinned to its indent. So it is at the top of a program, and in
the body of any block that keeps a statement. -/
theorem recovery_isolated {first second : List Stmt} {p q line region : List Token} {e : Token}
    (hp : Derives (.statements first) p) (hq : Derives (.statements second) q)
    (he : e.kind = .endOfFile) :
    (Malformed line → (region = [] ∨ ∃ i, Region i region) → ∃ t ∈ line, ∃ g,
      parse (p ++ (line ++ region) ++ q ++ [e]) = ⟨first ++ second, [t.diagnose (.grammar g)]⟩ ∧
        ∀ stmts before after, Inside (first ++ second) (.statements stmts) before after →
          parse (before ++ (p ++ (line ++ region) ++ q) ++ after ++ [e]) =
            ⟨stmts, [t.diagnose (.grammar g)]⟩) ∧
      ∀ i, Region i region →
        parse (p ++ region ++ q ++ [e]) =
            ⟨first ++ second, [i.diagnose (.grammar .unexpectedIndent)]⟩ ∧
          ∀ stmts before after, Inside (first ++ second) (.statements stmts) before after →
            parse (before ++ (p ++ region ++ q) ++ after ++ [e]) =
              ⟨stmts, [i.diagnose (.grammar .unexpectedIndent)]⟩ := by
  have htop : ∀ {d tokens}, Skips e d tokens →
      parse (p ++ tokens ++ q ++ [e]) = ⟨first ++ second, [d]⟩ := fun hskips => by
    simpa using hskips.parse he hp hq .whole
  refine ⟨fun hline hregion => ?_, fun i hregion => ?_⟩
  · obtain ⟨t, ht, g, hskips⟩ := hline.skips hregion
    exact ⟨t, ht, g, htop (hskips e), fun stmts before after hinside =>
      (hskips e).parse he hp hq hinside⟩
  · exact ⟨htop hregion.skips, fun stmts before after hinside => hregion.skips.parse he hp hq hinside⟩

/-- The body of a conditional, with a failed header and its body, or a block alone, between two
returns. -/
theorem recovery_isolated_header :
    let token (kind : Kind) : Token :=
      { kind := kind, lexeme := "", line := 1, span := Span.empty 0 }
    let giveBack := [Kind.returnWord, .newline].map token
    let line := [Kind.ifWord, .identifier, .identifier, .newline].map token
    let region := [Kind.indent, .createWord, .newline, .dedent].map token
    let before := [Kind.ifWord, .trueWord, .newline, .indent].map token
    let after := [token .dedent]
    let stmt := Stmt.returnEmpty (token .returnWord)
    let stmts := [Stmt.branch (token .ifWord) (.constant (.bool true)) [stmt, stmt] .nothing]
    Malformed line ∧ Region (token .indent) region ∧
      Inside [stmt, stmt] (.statements stmts) before after ∧
      (∃ t ∈ line, ∃ g, parse (before ++ (giveBack ++ (line ++ region) ++ giveBack) ++ after ++
        [token .endOfFile]) = ⟨stmts, [t.diagnose (.grammar g)]⟩) ∧
      parse (before ++ (giveBack ++ region ++ giveBack) ++ after ++ [token .endOfFile]) =
        ⟨stmts, [(token .indent).diagnose (.grammar .unexpectedIndent)]⟩ := by
  intro token giveBack line region before after stmt stmts
  have hderives : Derives (.statements [stmt]) giveBack :=
    .moreStatements (.returnEmpty rfl rfl) .noStatements
  have hline : Malformed line := by
    refine ⟨⟨token .ifWord, [token .identifier, token .identifier], token .newline, rfl, by decide,
      by decide, rfl⟩, ?_, ?_⟩
    · have hnone : ∀ t ∈ line, t.kind ≠ .leftParen := by decide
      exact fun before t l after h _ hl => absurd hl (hnone l (by simp [h]))
    · exact ⟨(token .identifier).diagnose (.grammar (.expected "the end of the line")), [],
        [token .identifier, token .newline], rfl, by decide⟩
  have hregion : Region (token .indent) region :=
    ⟨rfl, ⟨[token .createWord, token .newline], token .dedent, rfl, by decide, rfl⟩, by decide⟩
  have hinside : Inside [stmt, stmt] (.statements stmts) before after := by
    have hcond : Derives (.expression .disjunction (.constant (.bool true))) [token .trueWord] :=
      .tighter (.tighter (.tighter (.tighter (.tighter (.tighter (.tighter
        (.constant (.true rfl))))))))
    exact .among .noStatements
      (.conditional rfl hcond (.block rfl rfl .whole (by simp) rfl) .nothing) .noStatements
  have hisolated := @recovery_isolated [stmt] [stmt] giveBack giveBack line region
    (token .endOfFile) hderives hderives rfl
  refine ⟨hline, hregion, hinside, ?_, (hisolated.2 _ hregion).2 _ _ _ hinside⟩
  obtain ⟨t, ht, g, -, hparse⟩ := hisolated.1 hline (.inr ⟨_, hregion⟩)
  exact ⟨t, ht, g, hparse _ _ _ hinside⟩

end Grammar

end Offside
