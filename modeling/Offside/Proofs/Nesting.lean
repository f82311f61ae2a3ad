import Offside.Proofs.Grammar.Completeness
import Offside.Proofs.Scanning

/-!
# Indents and dedents of a text

Scanning opens a level before it closes one, and closes them all in the end, so the indents and
dedents of a text match up. Texts are therefore read as the grammar says, without a condition.

* `Layout.depthAfter`: the number of levels that tokens leave open;
* `Layout.scanLines`: the lines of a text before its end;
* `Layout.balanced_scan`: indents and dedents match up;
* `Grammar.read_eq_ok_iff`: a text is read exactly if it is scanned without a fault and derived.
-/

namespace Offside

/-! ### Tokens of a line -/

theorem Kind.not_isStructural_ofWord (word : String) : (Kind.ofWord word).isStructural = false := by
  unfold Kind.ofWord
  cases hlookup : Kind.reservedWords.lookup word with
  | none => rfl
  | some kind =>
    obtain ⟨before, after, hsplit, -⟩ := List.lookup_eq_some_iff.1 hlookup
    have hmem : (word, kind) ∈ Kind.reservedWords := by simp [hsplit]
    have hall : ∀ p ∈ Kind.reservedWords, p.2.isStructural = false := by decide
    exact hall _ hmem

namespace Piece

theorem not_isStructural_mark? {c : Char} {kind : Kind} (h : mark? c = some kind) :
    kind.isStructural = false := by
  unfold mark? at h
  split at h <;> cases h <;> rfl

theorem not_isStructural_doubleMark? {c d : Char} {kind : Kind} (h : doubleMark? c d = some kind) :
    kind.isStructural = false := by
  unfold doubleMark? at h
  split at h <;> cases h <;> rfl

theorem not_isStructural_classify {c : Char} {rest : List Char} {kind : Kind}
    (h : (classify c rest).1 = .token kind) : kind.isStructural = false := by
  unfold classify at h
  split at h
  · cases h
  · split at h
    · cases h
    · split at h
      · dsimp only at h
        split at h <;> cases h
        rfl
      · split at h
        · cases h
          rfl
        · split at h
          · cases h
            exact Kind.not_isStructural_ofWord _
          · split at h
            · rename_i kind' hmark
              cases h
              obtain ⟨d, -, hd⟩ := Option.bind_eq_some_iff.1 hmark
              exact not_isStructural_doubleMark? hd
            · split at h
              · rename_i kind' hmark
                cases h
                exact not_isStructural_mark? hmark
              · cases h

theorem not_isStructural_of_mem_cut (body : List Char) :
    ∀ p ∈ cut body, ∀ kind, p.cls = .token kind → kind.isStructural = false := by
  suffices h : ∀ skip, ∀ p ∈ cutAfter skip body, ∀ kind, p.cls = .token kind →
      kind.isStructural = false from h 0
  intro skip
  induction body generalizing skip with
  | nil => simp [cutAfter]
  | cons c body ih =>
    cases skip with
    | succ skip => exact ih skip
    | zero =>
      intro p hp kind hkind
      rcases List.mem_cons.1 hp with rfl | hp
      · exact not_isStructural_classify hkind
      · exact ih _ p hp kind hkind

end Piece

namespace Layout

open Grammar (indents dedents Balanced)

theorem not_isStructural_scanPieces {pieces : List Piece}
    (hpieces : ∀ p ∈ pieces, ∀ kind, p.cls = .token kind → kind.isStructural = false)
    (number offset : Nat) :
    ∀ t ∈ (scanPieces number offset pieces).tokens, t.kind.isStructural = false := by
  induction pieces generalizing offset with
  | nil => simp [scanPieces]
  | cons p pieces ih =>
    have hrest := ih (fun q hq => hpieces q (List.mem_cons_of_mem p hq))
      (offset + Text.size p.chars)
    unfold scanPieces
    rcases hcls : p.cls with _ | _ | kind | _ | _
    · exact hrest
    · exact hrest
    · intro t ht
      rcases List.mem_cons.1 ht with rfl | ht
      · exact hpieces p List.mem_cons_self kind hcls
      · exact hrest t ht
    · exact hrest
    · exact hrest

/-! ### Open levels -/

/-- The number of levels open after tokens, if none of them closes a level that is not open. -/
def depthAfter (depth : Nat) : List Token → Option Nat
  | [] => some depth
  | t :: ts =>
    if t.kind = .indent then depthAfter (depth + 1) ts
    else if t.kind = .dedent then
      if depth = 0 then none else depthAfter (depth - 1) ts
    else depthAfter depth ts

theorem depthAfter_append (depth : Nat) (ts us : List Token) :
    depthAfter depth (ts ++ us) = (depthAfter depth ts).bind (depthAfter · us) := by
  induction ts generalizing depth with
  | nil => rfl
  | cons t ts ih =>
    rw [List.cons_append, depthAfter, depthAfter]
    split
    · exact ih _
    · split
      · split
        · rfl
        · exact ih _
      · exact ih _

theorem depthAfter_plain {ts : List Token} (h : ∀ t ∈ ts, t.kind ≠ .indent ∧ t.kind ≠ .dedent)
    (depth : Nat) : depthAfter depth ts = some depth := by
  induction ts with
  | nil => rfl
  | cons t ts ih =>
    obtain ⟨⟨hindent, hdedent⟩, hrest⟩ := List.forall_mem_cons.1 h
    rw [depthAfter, if_neg hindent, if_neg hdedent, ih hrest]

theorem depthAfter_replicate {t : Token} (ht : t.kind = .dedent) (n depth : Nat) :
    depthAfter (n + depth) (List.replicate n t) = some depth := by
  induction n with
  | zero => simp [depthAfter]
  | succ n ih =>
    rw [List.replicate_succ, depthAfter, if_neg (by simp [ht]), if_pos ht, if_neg (by omega),
      show n + 1 + depth - 1 = n + depth by omega, ih]

theorem add_indents_of_depthAfter {depth depth' : Nat} {ts : List Token}
    (h : depthAfter depth ts = some depth') : depth + indents ts = depth' + dedents ts := by
  induction ts generalizing depth with
  | nil =>
    cases h
    rfl
  | cons t ts ih =>
    rw [Grammar.indents_cons, Grammar.dedents_cons]
    rw [depthAfter] at h
    split at h
    · rename_i hindent
      have := ih h
      simp only [hindent, if_true, reduceCtorEq, if_false]
      omega
    · rename_i hindent
      split at h
      · rename_i hdedent
        split at h
        · cases h
        · have := ih h
          simp only [hdedent, if_true, reduceCtorEq, if_false]
          omega
      · rename_i hdedent
        have := ih h
        simp only [hindent, hdedent, if_false]
        omega

theorem balanced_of_depthAfter {ts : List Token} (h : depthAfter 0 ts = some 0) : Balanced ts := by
  refine ⟨fun us hus => ?_, ?_⟩
  · obtain ⟨vs, rfl⟩ := (List.mem_inits us ts).1 hus
    rw [depthAfter_append] at h
    obtain ⟨depth, hdepth, -⟩ := Option.bind_eq_some_iff.1 h
    have := add_indents_of_depthAfter hdepth
    omega
  · have := add_indents_of_depthAfter h
    omega

/-! ### Lines -/

/-- The levels open after some lines, and the tokens and faults of the lines. -/
def scanLines (levels : List Indent) (number offset : Nat) :
    List Text.Line → List Indent × Scan
  | [] => (levels, ⟨[], []⟩)
  | line :: lines =>
    let (levels, scan) := scanLine levels (number + 1) offset line
    let (levels, more) := scanLines levels (number + 1) (offset + line.size) lines
    (levels, scan ++ more)

theorem scanLines_cons (levels : List Indent) (number offset : Nat) (line : Text.Line)
    (lines : List Text.Line) :
    scanLines levels number offset (line :: lines) =
      ((scanLines (scanLine levels (number + 1) offset line).1 (number + 1) (offset + line.size)
          lines).1,
        (scanLine levels (number + 1) offset line).2 ++
          (scanLines (scanLine levels (number + 1) offset line).1 (number + 1)
            (offset + line.size) lines).2) := rfl

/-- The number of bytes of lines. -/
def linesSize : List Text.Line → Nat
  | [] => 0
  | line :: lines => line.size + linesSize lines

@[simp] theorem Scan.tokens_append (a b : Scan) : (a ++ b).tokens = a.tokens ++ b.tokens := rfl

@[simp] theorem Scan.errors_append (a b : Scan) : (a ++ b).errors = a.errors ++ b.errors := rfl

theorem Scan.append_assoc (a b c : Scan) : a ++ b ++ c = a ++ (b ++ c) := by
  show Scan.mk _ _ = Scan.mk _ _
  simp

theorem depthAfter_shift (levels : List Indent) (current : Indent) {mark : Token}
    (hmark : mark.kind = .indent) :
    depthAfter levels.length (shift levels current mark).2.tokens =
      some (shift levels current mark).1.length := by
  unfold shift
  split
  · rfl
  · split
    · simp [deepen, depthAfter, hmark]
    · have hle : (keep levels current.column).length ≤ levels.length :=
        (List.dropWhile_sublist _).length_le
      have hclose := depthAfter_replicate
        (t := { kind := .dedent, lexeme := "", line := mark.line, span := Span.empty mark.span.stop })
        rfl (levels.length - (keep levels current.column).length) (keep levels current.column).length
      rwa [Nat.sub_add_cancel hle] at hclose

theorem depthAfter_scanLine (levels : List Indent) (number offset : Nat) (line : Text.Line) :
    depthAfter levels.length (scanLine levels number offset line).2.tokens =
      some (scanLine levels number offset line).1.length := by
  unfold scanLine
  dsimp only
  split
  · rfl
  · rw [Scan.tokens_append, Scan.tokens_append, depthAfter_append, depthAfter_append,
      depthAfter_shift _ _ rfl, Option.bind_some, depthAfter_plain, Option.bind_some]
    · rfl
    · intro t ht
      have hstructural := not_isStructural_scanPieces (Piece.not_isStructural_of_mem_cut _) _ _ t ht
      constructor <;>
      · intro hkind
        rw [hkind] at hstructural
        cases hstructural

theorem depthAfter_scanFrom (levels : List Indent) (number offset : Nat) (ended : Bool)
    (lines : List Text.Line) :
    depthAfter levels.length (scanFrom levels number offset ended lines).tokens = some 0 := by
  induction lines generalizing levels number offset ended with
  | nil =>
    have hclose := depthAfter_replicate
      (t := { kind := .dedent, lexeme := "", line := max number 1, span := Span.empty offset })
      rfl levels.length 0
    rw [Nat.add_zero] at hclose
    rw [scanFrom, close, depthAfter_append]
    dsimp only
    rw [hclose]
    rfl
  | cons line lines ih =>
    rw [scanFrom]
    dsimp only
    rw [Scan.tokens_append, depthAfter_append, depthAfter_scanLine, Option.bind_some, ih]

/-- The indents and dedents of a text match up. -/
theorem balanced_scan (text : List Char) : Balanced (scan text).tokens :=
  balanced_of_depthAfter (depthAfter_scanFrom [] 0 0 true _)

/-! ### The end of a text -/

theorem kind_shift_ne (levels : List Indent) (current : Indent) {mark : Token}
    (hmark : mark.kind = .indent) :
    ∀ t ∈ (shift levels current mark).2.tokens, t.kind ≠ .endOfFile := by
  unfold shift
  split
  · simp
  · split
    · simp [deepen, hmark]
    · intro t ht
      rw [(List.mem_replicate.1 ht).2]
      nofun

theorem kind_scanLine_ne (levels : List Indent) (number offset : Nat) (line : Text.Line) :
    ∀ t ∈ (scanLine levels number offset line).2.tokens, t.kind ≠ .endOfFile := by
  unfold scanLine
  dsimp only
  split
  · simp
  · intro t ht
    rcases List.mem_append.1 ht with ht | ht
    · rcases List.mem_append.1 ht with ht | ht
      · exact kind_shift_ne _ _ rfl t ht
      · intro hkind
        have hstructural :=
          not_isStructural_scanPieces (Piece.not_isStructural_of_mem_cut _) _ _ t ht
        rw [hkind] at hstructural
        cases hstructural
    · rw [List.mem_singleton.1 ht]
      nofun

/-- The end token comes last and only there. -/
theorem exists_tokens_scanFrom (levels : List Indent) (number offset : Nat) (ended : Bool)
    (lines : List Text.Line) :
    ∃ ts e, (scanFrom levels number offset ended lines).tokens = ts ++ [e] ∧
      e.kind = .endOfFile ∧ ∀ t ∈ ts, t.kind ≠ .endOfFile := by
  induction lines generalizing levels number offset ended with
  | nil =>
    refine ⟨_, _, rfl, rfl, fun t ht => ?_⟩
    rw [(List.mem_replicate.1 ht).2]
    nofun
  | cons line lines ih =>
    obtain ⟨ts, e, htokens, he, hts⟩ := ih (scanLine levels (number + 1) offset line).1 (number + 1)
      (offset + line.size) line.ended
    refine ⟨(scanLine levels (number + 1) offset line).2.tokens ++ ts, e, ?_, he, fun t ht => ?_⟩
    · rw [scanFrom]
      dsimp only
      rw [Scan.tokens_append, htokens, List.append_assoc]
    · exact (List.mem_append.1 ht).elim (kind_scanLine_ne _ _ _ _ t) (hts t)

end Layout

namespace Grammar

/-- A text is read as a program exactly if it is scanned without a fault and the grammar derives the
program from its tokens. -/
theorem read_eq_ok_iff {text : List Char} {program : List Stmt} :
    read text = .ok program ↔
      (Layout.scan text).errors = [] ∧ Derives (.program program) (Layout.scan text).tokens := by
  obtain ⟨ts, e, htokens, he, hts⟩ := Layout.exists_tokens_scanFrom [] 0 0 true (Text.lines text)
  have hbalanced := Layout.balanced_scan text
  have htokens : (Layout.scan text).tokens = ts ++ [e] := htokens
  unfold read
  simp only [List.isEmpty_iff]
  rw [htokens] at hbalanced ⊢
  constructor
  · intro h
    split at h
    · rename_i herrors
      split at h
      · rename_i hparse
        obtain rfl := Except.ok.inj h
        exact ⟨herrors, derives_parse he hts hbalanced hparse⟩
      · cases h
    · cases h
  · rintro ⟨herrors, hderives⟩
    obtain ⟨hparse, hstmts⟩ := parse_of_derives he hts hderives
    rw [if_pos herrors, if_pos hparse, hstmts]

end Grammar

end Offside
