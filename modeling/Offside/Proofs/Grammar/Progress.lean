import Mathlib.Data.List.TakeWhile
import Offside.Proofs.Grammar.Bounds

/-!
# Parsing makes progress

Parsing any stream that ends with an end token comes to its end, at the first end token. The loops
over statements start one neither at a dedent nor at the end of the text, and each statement that they
start leaves at least a token behind.

* `Grammar.Consults`: the places where a loop over statements starts one;
* `Grammar.Progresses`, `Grammar.parse_progresses`: the facts about whole streams.
-/

namespace Offside.Grammar

open Offside.Parser

variable {last : Token}

/-! ### Calls of the loops -/

/-- A parser that is built from another one consults it on the tokens `us`: with another answer to
these, and to nothing else, it would not answer `ts` as it does. -/
def Consults {β : Type} (loop : Parser Stmt → Parser β) (p : Parser Stmt) (last : Token)
    (ts us : List Token) : Prop :=
  ∃ q : Parser Stmt, (∀ vs, vs ≠ us → q last vs = p last vs) ∧ loop q last ts ≠ loop p last ts

section

variable {p q : Parser Stmt}

theorem statements_congr (hlast : last.kind = .endOfFile)
    (h : ∀ t us, StartsStatement t → q last (t :: us) = p last (t :: us)) (bound : Nat)
    (ts : List Token) : statements q bound last ts = statements p bound last ts := by
  induction bound generalizing ts with
  | zero => rfl
  | succ bound ih =>
    cases ts with
    | nil => rw [statements_nil hlast, statements_nil hlast]
    | cons t us =>
      by_cases ht : StartsStatement t
      · rw [statements_cons ht, statements_cons ht]
        exact round_congr (h t us ht) (ih _)
      · rw [statements_stop ht, statements_stop ht]

theorem block_congr (hlast : last.kind = .endOfFile)
    (h : ∀ t us, StartsStatement t → q last (t :: us) = p last (t :: us)) (bound : Nat)
    (ts : List Token) : block q bound last ts = block p bound last ts := by
  refine bind_congr rfl fun _ _ => bind_congr rfl fun indented _ => ?_
  cases indented with
  | false => rfl
  | true => exact bind_congr (statements_congr hlast h bound _) fun _ _ => rfl

theorem program_congr (hlast : last.kind = .endOfFile)
    (h : ∀ t us, StartsStatement t → q last (t :: us) = p last (t :: us)) (bound : Nat)
    (ts : List Token) : program q bound last ts = program p bound last ts := by
  induction bound generalizing ts with
  | zero => rfl
  | succ bound ih =>
    cases ts with
    | nil => rw [program_nil hlast, program_nil hlast]
    | cons t us =>
      by_cases hend : t.kind = .endOfFile
      · rw [program_stop hend, program_stop hend]
      · by_cases hdedent : t.kind = .dedent
        · rw [program_dedent hdedent, program_dedent hdedent, ih]
        · rw [program_cons ⟨hdedent, hend⟩, program_cons ⟨hdedent, hend⟩]
          exact round_congr (h t us ⟨hdedent, hend⟩) (ih _)

/-- A loop that depends only on the answers to tokens where statements start consults its parser
there only. -/
theorem Consults.starts {β : Type} {loop : Parser Stmt → Parser β} {ts us : List Token}
    (h : Consults loop p last ts us)
    (hloop : ∀ q : Parser Stmt, (∀ t us, StartsStatement t → q last (t :: us) = p last (t :: us)) →
      loop q last ts = loop p last ts) :
    ∃ t rest, us = t :: rest ∧ StartsStatement t := by
  obtain ⟨q, hq, hne⟩ := h
  by_contra hnot
  refine hne (hloop q fun t rest ht => hq _ ?_)
  rintro rfl
  exact hnot ⟨t, rest, rfl, ht⟩

/-- The loop of a program consults its parser wherever a statement starts: it records all that the
parser records there. -/
theorem consults_program {t : Token} (ht : StartsStatement t) (bound : Nat) (us : List Token) :
    Consults (program · (bound + 1)) p last (t :: us) (t :: us) := by
  let recorded := (program p (bound + 1) last (t :: us)).notes
  let d := t.diagnose (.grammar .emptyBlock)
  -- a parser that records more than the whole loop does now
  let q : Parser Stmt := fun e vs =>
    if vs = t :: us then ⟨.error d, List.replicate recorded.length d, []⟩ else p e vs
  refine ⟨q, fun vs hvs => if_neg hvs, fun hsame => ?_⟩
  have hq : q last (t :: us) = ⟨.error d, List.replicate recorded.length d, []⟩ := if_pos rfl
  have hreply : recovering q last (t :: us) =
      ⟨.ok none, List.replicate recorded.length d ++ [d], []⟩ := by
    unfold recovering
    rw [hq]
    rfl
  have hnotes : (program q (bound + 1) last (t :: us)).notes =
      List.replicate recorded.length d ++ [d] ++ (program q bound last []).notes := by
    rw [program_cons ht, round, bind_of_ok hreply]
  have hlength := congrArg (fun reply => reply.notes.length) hsame
  dsimp only at hlength
  rw [hnotes, List.length_append, List.length_append, List.length_replicate,
    List.length_singleton] at hlength
  have hmore : recorded.length + 1 + (program q bound last []).notes.length = recorded.length :=
    hlength
  omega

end

/-! ### Token streams -/

/-- What parsing a stream of tokens comes to, whatever the tokens are. -/
structure Progresses (tokens : List Token) : Prop where
  /-- The tokens ahead are those before the first end token. -/
  first : (∃ more, tokens = ahead tokens ++ endToken tokens :: more) ∧
    (endToken tokens).kind = .endOfFile ∧ ∀ t ∈ ahead tokens, t.kind ≠ .endOfFile
  /-- Parsing ends at the first end token. It does so with any bound greater than the number of tokens
  ahead, and always with the same answer. -/
  ends : ∀ bound, (ahead tokens).length < bound →
    program (statement bound) bound (endToken tokens) (ahead tokens) =
      ⟨.ok (parse tokens).stmts, (parse tokens).errors, []⟩
  /-- A statement that the loop of a program or of a block starts, kept or given up, starts before
  the end of the block and of the text, and leaves at least a token behind. -/
  advances : ∀ bound n ts us,
    Consults (program · n) (statement bound) (endToken tokens) ts us ∨
      Consults (block · n) (statement bound) (endToken tokens) ts us →
    ∃ t rest, us = t :: rest ∧ StartsStatement t ∧
      (recovering (statement bound) (endToken tokens) us).rest <:+ rest
  /-- A program starts a statement wherever one can start. -/
  starts : ∀ bound n t us, StartsStatement t →
    Consults (program · (n + 1)) (statement bound) (endToken tokens) (t :: us) (t :: us)
  /-- The tokens of the tree, in the order of the tree, are some of the tokens ahead, in order. -/
  ordered : ((Stmt.allMarks (parse tokens).stmts).map (·.2)).Sublist (ahead tokens)

theorem ahead_append_endToken {tokens : List Token} (h : ∃ t ∈ tokens, isEnd t = true) :
    ∃ more, tokens = ahead tokens ++ endToken tokens :: more := by
  induction tokens with
  | nil => simp at h
  | cons t tokens ih =>
    by_cases ht : isEnd t = true
    · exact ⟨tokens, by simp [ahead, endToken, ht]⟩
    · have hlater : ∃ u ∈ tokens, isEnd u = true := by simpa [ht] using h
      obtain ⟨more, hmore⟩ := ih hlater
      refine ⟨more, ?_⟩
      have hahead : ahead (t :: tokens) = t :: ahead tokens := by simp [ahead, ht]
      have hend : endToken (t :: tokens) = endToken tokens := by simp [endToken, ht]
      rw [hahead, hend, List.cons_append, ← hmore]

theorem kind_ne_of_mem_ahead {tokens : List Token} {t : Token} (h : t ∈ ahead tokens) :
    t.kind ≠ .endOfFile := by
  have := List.mem_takeWhile_imp h
  simpa [isEnd] using this

theorem parse_of_program {tokens : List Token} {ss : List Stmt} {notes : List Diagnostic}
    {rest : List Token}
    (h : program (statement ((ahead tokens).length + 1)) ((ahead tokens).length + 1)
      (endToken tokens) (ahead tokens) = ⟨.ok ss, notes, rest⟩) :
    parse tokens = ⟨ss, notes⟩ := by
  unfold parse
  simp only [h]

/-- Parsing makes progress on every stream that ends with an end token. It comes to its end at the
first end token, without ever using up its bounds; every statement that a loop over statements starts
leaves at least a token behind, and starts neither at a dedent nor at the end; and the tree keeps its
tokens in the order of the stream, each position at most once. -/
theorem parse_progresses (before : List Token) (e : Token) (he : e.kind = .endOfFile) :
    Progresses (before ++ [e]) := by
  generalize htokens : before ++ [e] = tokens
  have hlast := endToken_kind tokens
  have hends : ∃ t ∈ tokens, isEnd t = true := ⟨e, by simp [← htokens], by simp [isEnd, he]⟩
  refine
    { first := ⟨ahead_append_endToken hends, hlast, fun t => kind_ne_of_mem_ahead⟩
      ends := fun bound hbound => ?_
      advances := ?_
      starts := fun bound n t us ht => consults_program ht n us
      ordered := (parse_tracks tokens).1.1 }
  · obtain ⟨ss, notes, hprogram⟩ := program_ends hlast
      (takes_statement hlast ((ahead tokens).length + 1)) (Nat.le_succ (ahead tokens).length)
      fun t => kind_ne_of_mem_ahead
    have hsame : program (statement bound) bound (endToken tokens) (ahead tokens) =
        program (statement ((ahead tokens).length + 1)) ((ahead tokens).length + 1)
          (endToken tokens) (ahead tokens) :=
      agree_program hlast (agree_statement hlast hbound (Nat.le_refl _))
        (takes_statement hlast bound) (Nat.le_succ_of_le hbound) (Nat.le_succ _) _
        (Nat.lt_succ_self _)
    rw [hsame, hprogram, parse_of_program hprogram]
  · intro bound n ts us hcalls
    obtain ⟨t, rest, rfl, ht⟩ : ∃ t rest, us = t :: rest ∧ StartsStatement t := by
      rcases hcalls with hcalls | hcalls
      · exact hcalls.starts fun q hq => program_congr hlast hq n ts
      · exact hcalls.starts fun q hq => block_congr hlast hq n ts
    exact ⟨t, rest, rfl, ht, rest_recovering (takes_statement hlast bound _) ht.1⟩

/-- An indent that nothing closes, an unreadable token after a word, and a further end token. -/
theorem parse_progresses_unclosed :
    (⟨.endOfFile, "", none, 2, ⟨6, 6⟩⟩ : Token).kind = .endOfFile ∧
      Progresses ([⟨.dedent, "", none, 1, ⟨0, 0⟩⟩, ⟨.ifWord, "if", none, 1, ⟨0, 2⟩⟩,
        ⟨.invalid, "?", none, 1, ⟨3, 4⟩⟩, ⟨.newline, "\n", none, 1, ⟨4, 5⟩⟩,
        ⟨.indent, " ", none, 2, ⟨5, 6⟩⟩, ⟨.endOfFile, "", none, 2, ⟨6, 6⟩⟩,
        ⟨.number, "1", none, 2, ⟨6, 6⟩⟩] ++ [⟨.endOfFile, "", none, 2, ⟨6, 6⟩⟩]) :=
  ⟨rfl, parse_progresses _ _ rfl⟩

end Offside.Grammar
