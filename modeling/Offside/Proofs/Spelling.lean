import Offside.Proofs.Grammar.Derivation
import Offside.Proofs.Lines
import Offside.Proofs.Pieces

/-!
# Words and their tokens

How the tokens of a tree are written, and that they are read back. Marks and reserved words are
written in one way each, a name as it is called, a text between quotes, and a number with digits. A
word that a space or nothing follows is cut off as one piece, so a line of words with single spaces
between them has their tokens.

* `Kind.words`: the kinds whose tokens are written in one way;
* `Piece.IsWord`: a word that is read as one token;
* `Grammar.Terminal.Spells`: the words that a token of a tree is written as;
* `Grammar.Terminal.Reads`: a token that is as a tree tells, up to its place in the text;
* `Layout.scanPieces_words`: the tokens of a line of words.
-/

namespace Offside

/-! ### Kinds -/

/-- The marks with their kinds. -/
def Kind.marks : List (String × Kind) :=
  [("(", leftParen), (")", rightParen), (",", comma), ("-", minus), ("+", plus), ("/", slash),
   ("*", asterisk), ("=", equal), (">", greater), (">=", greaterEqual), ("<", less),
   ("<=", lessEqual)]

/-- The words that stand for a kind. -/
def Kind.words : List (String × Kind) := Kind.marks ++ Kind.reservedWords

/-! ### Words -/

namespace Piece

/-- A row of decimal digits. -/
def IsDigits (cs : List Char) : Prop := cs ≠ [] ∧ ∀ c ∈ cs, isDigit c = true

/-- The texts of numbers: digits, or digits, a dot and digits. -/
def IsDecimal (cs : List Char) : Prop :=
  IsDigits cs ∨
    ∃ whole fraction, IsDigits whole ∧ IsDigits fraction ∧ cs = whole ++ '.' :: fraction

/-- The names: a letter or an underscore, then letters, digits and underscores, and no reserved
word. -/
def IsName (s : String) : Prop :=
  s.toList.head?.any isWordStart = true ∧ s.toList.all isWordPart = true ∧
    ∀ p ∈ Kind.reservedWords, p.1 ≠ s

instance (s : String) : Decidable (IsName s) := inferInstanceAs (Decidable (_ ∧ _ ∧ _))

/-- What a word can stand before: a space, or nothing. -/
def Ends (rest : List Char) : Prop := rest = [] ∨ ∃ more, rest = ' ' :: more

/-- A word that is read as one token of a kind. -/
structure IsWord (w : List Char) (kind : Kind) : Prop where
  newline : '\n' ∉ w
  classified : ∃ c cs, w = c :: cs ∧
    ∀ rest, Ends rest → classify c (cs ++ rest) = (.token kind, cs.length)

section Classes

variable {p : Char → Bool} {c : Char} {cs rest : List Char}

/-- A row of characters of a class goes up to a character of another. -/
theorem run_append (hcs : ∀ d ∈ cs, p d = true) (hrest : Ends rest) (hp : p ' ' = false) :
    run p (cs ++ rest) = cs.length := by
  unfold run
  rw [List.takeWhile_append_of_pos hcs]
  rcases hrest with rfl | ⟨more, rfl⟩
  · simp
  · simp [hp]

theorem not_isDigit_of_isWordStart (h : isWordStart c = true) : isDigit c = false := by
  rw [← Bool.not_eq_true]
  simp only [isWordStart, isDigit, Bool.or_eq_true, Bool.and_eq_true, decide_eq_true_eq,
    Char.le_def, UInt32.le_iff_toNat_le] at h ⊢
  rintro ⟨hlow, hhigh⟩
  rcases h with (⟨h, -⟩ | ⟨h, -⟩) | rfl
  · exact absurd (Nat.le_trans h hhigh) (by decide)
  · exact absurd (Nat.le_trans h hhigh) (by decide)
  · exact absurd hhigh (by decide)

theorem classify_word (h : isWordStart c = true) :
    classify c rest = (.token (Kind.ofWord (String.ofList (c :: rest.take (run isWordPart rest)))),
      run isWordPart rest) := by
  have hsolid : Solid c := solid_of_isWordPart (by rw [isWordPart, h, Bool.true_or])
  unfold classify
  rw [hsolid.isGap, if_neg Bool.false_ne_true, if_neg (by simp [hsolid.ne_slash]),
    if_neg hsolid.ne_quote, not_isDigit_of_isWordStart h, if_neg Bool.false_ne_true, if_pos h]

theorem classify_digit (h : isDigit c = true) :
    classify c rest = (.token .number,
      run isDigit rest + fractionLength (rest.drop (run isDigit rest))) := by
  have hsolid : Solid c := solid_of_isDigit h
  unfold classify
  rw [hsolid.isGap, if_neg Bool.false_ne_true, if_neg (by simp [hsolid.ne_slash]),
    if_neg hsolid.ne_quote, if_pos h]

theorem classify_quote (rest : List Char) :
    classify '"' rest =
      if (rest.drop (run isTextPart rest)).head? = some '"' then
        (.token .text, run isTextPart rest + 1)
      else (.openText, run isTextPart rest) := rfl

end Classes

/-- Letters, digits and underscores are read as one word. -/
theorem isWord_ofWord {s : String} (hstart : s.toList.head?.any isWordStart = true)
    (hparts : s.toList.all isWordPart = true) : IsWord s.toList (Kind.ofWord s) where
  newline hmem := absurd (List.all_eq_true.1 hparts _ hmem) (by decide)
  classified := by
    cases hs : s.toList with
    | nil => simp [hs] at hstart
    | cons c cs =>
      rw [hs] at hstart hparts
      refine ⟨c, cs, rfl, fun rest hrest => ?_⟩
      have hcs : ∀ d ∈ cs, isWordPart d = true :=
        fun d hd => List.all_eq_true.1 hparts d (List.mem_cons_of_mem c hd)
      rw [classify_word (by simpa using hstart), run_append hcs hrest (by decide), List.take_left,
        ← hs, String.ofList_toList]

theorem isWord_name {s : String} (h : IsName s) : IsWord s.toList .identifier := by
  obtain ⟨hstart, hparts, hreserved⟩ := h
  have hnone : Kind.reservedWords.lookup s = none := by
    rw [List.lookup_eq_none_iff]
    intro p hp
    exact bne_iff_ne.2 (Ne.symm (hreserved p hp))
  have hword := isWord_ofWord hstart hparts
  rwa [Kind.ofWord, hnone] at hword

theorem isWord_reserved {s : String} {kind : Kind} (h : (s, kind) ∈ Kind.reservedWords) :
    IsWord s.toList kind := by
  have hall : ∀ p ∈ Kind.reservedWords, Kind.ofWord p.1 = p.2 ∧
      p.1.toList.head?.any isWordStart = true ∧ p.1.toList.all isWordPart = true := by decide
  obtain ⟨hkind, hstart, hparts⟩ := hall _ h
  have hword := isWord_ofWord hstart hparts
  rwa [hkind] at hword

theorem isWord_mark {s : String} {kind : Kind} (h : (s, kind) ∈ Kind.marks) :
    IsWord s.toList kind := by
  have hnewline : ∀ p ∈ Kind.marks, '\n' ∉ p.1.toList := by decide
  refine ⟨hnewline _ h, ?_⟩
  simp only [Kind.marks, List.mem_cons, Prod.mk.injEq, List.not_mem_nil, or_false] at h
  rcases h with ⟨rfl, rfl⟩ | ⟨rfl, rfl⟩ | ⟨rfl, rfl⟩ | ⟨rfl, rfl⟩ | ⟨rfl, rfl⟩ | ⟨rfl, rfl⟩ |
      ⟨rfl, rfl⟩ | ⟨rfl, rfl⟩ | ⟨rfl, rfl⟩ | ⟨rfl, rfl⟩ | ⟨rfl, rfl⟩ | ⟨rfl, rfl⟩ <;>
    refine ⟨_, _, rfl, ?_⟩ <;> rintro rest (rfl | ⟨more, rfl⟩) <;> rfl

theorem isWord_of_mem_words {s : String} {kind : Kind} (h : (s, kind) ∈ Kind.words) :
    IsWord s.toList kind :=
  (List.mem_append.1 h).elim isWord_mark isWord_reserved

theorem isWord_text {cs : List Char} (h : ∀ c ∈ cs, isTextPart c = true) :
    IsWord ('"' :: (cs ++ ['"'])) .text where
  newline := by
    intro hmem
    rcases List.mem_cons.1 hmem with hmem | hmem
    · cases hmem
    · rcases List.mem_append.1 hmem with hmem | hmem
      · exact absurd (h _ hmem) (by decide)
      · cases List.mem_singleton.1 hmem
  classified := by
    refine ⟨'"', _, rfl, fun rest _ => ?_⟩
    have hrun : run isTextPart (cs ++ ['"'] ++ rest) = cs.length := by
      rw [run, List.append_assoc, List.takeWhile_append_of_pos h]
      simp [isTextPart]
    have hdrop : (cs ++ ['"'] ++ rest).drop cs.length = '"' :: rest := by
      rw [List.append_assoc, List.drop_left]
      rfl
    rw [classify_quote, hrun, hdrop, List.head?_cons, if_pos rfl, List.length_append,
      List.length_singleton]

theorem isWord_decimal {cs : List Char} (h : IsDecimal cs) : IsWord cs .number := by
  have hdigit : ∀ {cs}, IsDigits cs → ∃ c ds, cs = c :: ds ∧ isDigit c = true ∧
      ∀ d ∈ ds, isDigit d = true := by
    rintro cs ⟨hne, hall⟩
    cases cs with
    | nil => exact absurd rfl hne
    | cons c ds => exact ⟨c, ds, rfl, List.forall_mem_cons.1 hall⟩
  have hnewline : ∀ {cs}, IsDigits cs → '\n' ∉ cs :=
    fun hcs hmem => absurd (hcs.2 _ hmem) (by decide)
  rcases h with h | ⟨whole, fraction, hwhole, hfraction, rfl⟩
  · refine ⟨hnewline h, ?_⟩
    obtain ⟨c, ds, rfl, hc, hds⟩ := hdigit h
    refine ⟨c, ds, rfl, fun rest hrest => ?_⟩
    rw [classify_digit hc, run_append hds hrest (by decide), List.drop_left]
    rcases hrest with rfl | ⟨more, rfl⟩ <;> rfl
  · refine ⟨?_, ?_⟩
    · intro hmem
      rcases List.mem_append.1 hmem with hmem | hmem
      · exact hnewline hwhole hmem
      · rcases List.mem_cons.1 hmem with hmem | hmem
        · cases hmem
        · exact hnewline hfraction hmem
    · obtain ⟨c, ds, rfl, hc, hds⟩ := hdigit hwhole
      refine ⟨c, ds ++ '.' :: fraction, rfl, fun rest hrest => ?_⟩
      have hrun : run isDigit (ds ++ '.' :: fraction ++ rest) = ds.length := by
        rw [run, List.append_assoc, List.takeWhile_append_of_pos hds]
        simp [isDigit]
      have hdrop : (ds ++ '.' :: fraction ++ rest).drop ds.length = '.' :: (fraction ++ rest) := by
        rw [List.append_assoc, List.drop_left]
        rfl
      have hlength : fractionLength ('.' :: (fraction ++ rest)) = fraction.length + 1 := by
        rw [fractionLength, run_append hfraction.2 hrest (by decide), if_neg]
        exact fun hzero => hfraction.1 (List.length_eq_zero_iff.1 hzero)
      rw [classify_digit hc, hrun, hdrop, hlength, List.length_append, List.length_cons]

/-! ### Lines of words -/

/-- What starts a token is no white space. -/
theorem not_isWhiteSpace_of_classify {c : Char} {rest : List Char} {kind : Kind}
    (h : (classify c rest).1 = .token kind) : Text.isWhiteSpace c = false := by
  have hrange : 32 < c.toNat → c.toNat < 128 → Text.isWhiteSpace c = false := by
    intro hlow hhigh
    simp only [Text.isWhiteSpace, Text.inRanges, Text.whiteSpaceRanges, List.any_cons, List.any_nil,
      Bool.or_false, Bool.or_eq_false_iff, Bool.and_eq_false_iff, decide_eq_false_iff_not]
    omega
  unfold classify at h
  split at h
  · cases h
  · split at h
    · cases h
    · split at h
      · next hquote =>
        subst hquote
        decide
      · split at h
        · next hdigit =>
          simp only [isDigit, Bool.and_eq_true, decide_eq_true_eq, Char.le_def,
            UInt32.le_iff_toNat_le] at hdigit
          exact hrange (Nat.lt_of_lt_of_le (by decide) hdigit.1)
            (Nat.lt_of_le_of_lt hdigit.2 (by decide))
        · split at h
          · next hword =>
            simp only [isWordStart, Bool.or_eq_true, Bool.and_eq_true, decide_eq_true_eq,
              Char.le_def, UInt32.le_iff_toNat_le] at hword
            rcases hword with (hword | hword) | rfl
            · exact hrange (Nat.lt_of_lt_of_le (by decide) hword.1)
                (Nat.lt_of_le_of_lt hword.2 (by decide))
            · exact hrange (Nat.lt_of_lt_of_le (by decide) hword.1)
                (Nat.lt_of_le_of_lt hword.2 (by decide))
            · decide
          · split at h
            · next hmark =>
              obtain ⟨d, -, hd⟩ := Option.bind_eq_some_iff.1 hmark
              unfold doubleMark? at hd
              split at hd
              · decide
              · decide
              · cases hd
            · split at h
              · next hmark =>
                unfold mark? at hmark
                split at hmark <;> first | decide | cases hmark
              · cases h

theorem IsWord.not_isGap {w : List Char} {kind : Kind} (h : IsWord w kind) (rest : List Char) :
    ∃ c more, w ++ rest = c :: more ∧ isGap c = false := by
  obtain ⟨c, cs, rfl, hclassify⟩ := h.classified
  refine ⟨c, cs ++ rest, rfl, ?_⟩
  by_contra hgap
  have := hclassify [] (.inl rfl)
  rw [classify, if_pos ((Bool.not_eq_false _).mp hgap)] at this
  cases this

/-- A line of words is its first word and what follows it. -/
theorem exists_intercalate (w : List Char) (ws : List (List Char)) :
    ∃ rest, Ends rest ∧ [' '].intercalate (w :: ws) = w ++ rest := by
  cases ws with
  | nil => exact ⟨[], .inl rfl, by rw [List.intercalate_singleton, List.append_nil]⟩
  | cons v ws =>
    refine ⟨' ' :: [' '].intercalate (v :: ws), .inr ⟨_, rfl⟩, ?_⟩
    rw [List.intercalate_cons_cons, List.append_assoc]
    rfl

end Piece

/-- A line with a token right after its indentation is visible. -/
theorem Text.Line.visible_of_body {l : Line} {c : Char} {rest : List Char} {kind : Kind}
    (hbody : l.body = c :: rest) (h : (Piece.classify c rest).1 = .token kind) : l.Visible := by
  rw [visible_iff, hbody, Layout.isInvisible, Bool.or_eq_false_iff]
  constructor
  · rw [isBlank, List.all_cons, Piece.not_isWhiteSpace_of_classify h, Bool.false_and]
  · by_contra hcomment
    obtain ⟨more, hmore⟩ := List.isPrefixOf_iff_prefix.1 ((Bool.not_eq_false _).mp hcomment)
    obtain ⟨rfl, rfl⟩ := List.cons.inj hmore
    cases h

/-! ### Tokens of a tree -/

/-- A token without its place in the text. -/
def Token.erase (t : Token) : Token := { t with line := 0, span := Span.empty 0 }

/-- A token with the word that stands for its kind. -/
structure Token.IsWord (t : Token) (kind : Kind) : Prop where
  kind_eq : t.kind = kind
  lexeme : (t.lexeme, kind) ∈ Kind.words
  literal : t.literal = none

/-- A token with a name. -/
structure Token.IsName (t : Token) : Prop where
  kind_eq : t.kind = .identifier
  lexeme : Piece.IsName t.lexeme
  literal : t.literal = none

theorem Token.erase_eq {t u : Token} (hkind : t.kind = u.kind) (hlexeme : t.lexeme = u.lexeme)
    (hliteral : t.literal = u.literal) : t.erase = u.erase := by
  unfold Token.erase
  rw [hkind, hlexeme, hliteral]

/-- The ways to write a constant. -/
def Constant.Spells : Constant → List Char → Prop
  | .bool value, w => w = (if value then "true" else "false").toList
  | .empty, w => w = "empty".toList
  | .number x, w => Piece.IsDecimal w ∧ Number.ofDecimalText w = x
  | .text s, w => w = '"' :: (s.toList ++ ['"'])

/-- A constant that can be written: a number needs a decimal text, and a text has neither quotes nor
line feeds. -/
def Constant.Writable : Constant → Prop
  | .bool _ | .empty => True
  | .number x => ∃ w, Piece.IsDecimal w ∧ Number.ofDecimalText w = x
  | .text s => '"' ∉ s.toList ∧ '\n' ∉ s.toList

theorem Layout.literal?_of_mem_words {s : String} {kind : Kind} (h : (s, kind) ∈ Kind.words)
    (w : List Char) : literal? kind w = none := by
  have hall : ∀ p ∈ Kind.words, p.2 ≠ .number ∧ p.2 ≠ .text := by decide
  obtain ⟨hnumber, htext⟩ := hall _ h
  unfold literal?
  split
  · exact absurd rfl hnumber
  · exact absurd rfl htext
  · rfl

namespace Grammar.Terminal

/-- The ways to write a token of a tree. -/
def Spells : Terminal → List Char → Prop
  | .token t, w => w = t.lexeme.toList
  | .word kind, w => (String.ofList w, kind) ∈ Kind.words
  | .constant c, w => c.Spells w

/-- A token of a tree that can be written. -/
def Writable : Terminal → Prop
  | .token t => t.IsName ∨ ∃ kind, t.IsWord kind
  | .word kind => ∃ s, (s, kind) ∈ Kind.words
  | .constant c => c.Writable

/-- A token that is as a tree tells, up to its place in the text. -/
def Reads : Terminal → Token → Prop
  | .token t, u => u.erase = t.erase
  | .word kind, u => u.kind = kind
  | .constant c, u => Denotes u c

theorem exists_spells {τ : Terminal} (h : τ.Writable) : ∃ w, τ.Spells w := by
  cases τ with
  | token t => exact ⟨_, rfl⟩
  | word kind =>
    obtain ⟨s, hs⟩ := h
    exact ⟨s.toList, by rwa [Spells, String.ofList_toList]⟩
  | constant c =>
    cases c with
    | number x => exact h
    | _ => exact ⟨_, rfl⟩

/-- A token of a tree, written, is a word, and the token of this word is as the tree tells. -/
theorem isWord_of_spells {τ : Terminal} {w : List Char} (h : τ.Writable) (hw : τ.Spells w) :
    ∃ kind, Piece.IsWord w kind ∧ ∀ t : Token, t.kind = kind → t.lexeme = String.ofList w →
      t.literal = Layout.literal? kind w → τ.Reads t := by
  cases τ with
  | token u =>
    obtain rfl : w = u.lexeme.toList := hw
    rcases h with hname | ⟨kind, hword⟩
    · refine ⟨.identifier, Piece.isWord_name hname.lexeme, fun t hk hl hlit => ?_⟩
      rw [String.ofList_toList] at hl
      exact Token.erase_eq (hk.trans hname.kind_eq.symm) hl (hlit.trans hname.literal.symm)
    · refine ⟨kind, Piece.isWord_of_mem_words hword.lexeme, fun t hk hl hlit => ?_⟩
      rw [String.ofList_toList] at hl
      rw [Layout.literal?_of_mem_words hword.lexeme] at hlit
      exact Token.erase_eq (hk.trans hword.kind_eq.symm) hl (hlit.trans hword.literal.symm)
  | word kind =>
    have hword := Piece.isWord_of_mem_words hw
    rw [String.toList_ofList] at hword
    exact ⟨kind, hword, fun t hk _ _ => hk⟩
  | constant c =>
    cases c with
    | bool value =>
      obtain rfl : w = _ := hw
      cases value with
      | true =>
        exact ⟨.trueWord, Piece.isWord_of_mem_words (by decide), fun t hk _ _ => .true hk⟩
      | false =>
        exact ⟨.falseWord, Piece.isWord_of_mem_words (by decide), fun t hk _ _ => .false hk⟩
    | empty =>
      obtain rfl : w = _ := hw
      exact ⟨.emptyWord, Piece.isWord_of_mem_words (by decide), fun t hk _ _ => .empty hk⟩
    | number x =>
      obtain ⟨hdecimal, rfl⟩ := hw
      exact ⟨.number, Piece.isWord_decimal hdecimal, fun t hk _ hlit => .number (.inl hk) hlit⟩
    | text s =>
      obtain rfl : w = _ := hw
      refine ⟨.text, Piece.isWord_text fun c hc => ?_, fun t hk _ hlit => .text (.inr hk) ?_⟩
      · have hquote : c ≠ '"' := fun heq => h.1 (heq ▸ hc)
        have hfeed : c ≠ '\n' := fun heq => h.2 (heq ▸ hc)
        simp [Piece.isTextPart, hquote, hfeed]
      · rw [hlit]
        simp [Layout.literal?, String.ofList_toList]

end Grammar.Terminal

namespace Layout

open Grammar (Terminal)

theorem scanPieces_word {w rest : List Char} {kind : Kind} (hw : Piece.IsWord w kind)
    (hrest : Piece.Ends rest) (number offset : Nat) :
    scanPieces number offset (Piece.cut (w ++ rest)) =
      ⟨[{ kind := kind, lexeme := String.ofList w, literal := literal? kind w, line := number,
          span := ⟨offset, offset + Text.size w⟩ }], []⟩ ++
        scanPieces number (offset + Text.size w) (Piece.cut rest) := by
  obtain ⟨c, cs, rfl, hclassify⟩ := hw.classified
  rw [List.cons_append, Piece.cut_cons, hclassify rest hrest, List.take_left, List.drop_left,
    scanPieces_cons]
  rfl

theorem scanPieces_space {c : Char} (hc : Piece.isGap c = false) (rest : List Char)
    (number offset : Nat) :
    scanPieces number offset (Piece.cut (' ' :: c :: rest)) =
      scanPieces number (offset + 1) (Piece.cut (c :: rest)) := by
  have hgap : Piece.classify ' ' (c :: rest) = (.gap, 0) := by
    show (PieceClass.gap, Piece.run Piece.isGap (c :: rest)) = _
    rw [Piece.run, List.takeWhile_cons, hc]
    rfl
  rw [Piece.cut_cons, hgap]
  rfl

/-- A line of words with single spaces between them has their tokens. The induction is on the words;
each is cut off at the space after it. -/
theorem scanPieces_words {τs : List Terminal} {ws : List (List Char)}
    (hwritable : ∀ τ ∈ τs, τ.Writable) (hspells : List.Forall₂ Terminal.Spells τs ws)
    (number offset : Nat) :
    (scanPieces number offset (Piece.cut ([' '].intercalate ws))).errors = [] ∧
      List.Forall₂ Terminal.Reads τs
        (scanPieces number offset (Piece.cut ([' '].intercalate ws))).tokens := by
  induction hspells generalizing offset with
  | nil =>
    rw [List.intercalate_nil]
    exact ⟨rfl, .nil⟩
  | @cons τ w τs ws hτ hτs ih =>
    obtain ⟨hfirst, hlater⟩ := List.forall_mem_cons.1 hwritable
    obtain ⟨kind, hword, hreads⟩ := Terminal.isWord_of_spells hfirst hτ
    cases hτs with
    | nil =>
      have hscan := scanPieces_word hword (.inl rfl) number offset
      rw [List.append_nil] at hscan
      rw [List.intercalate_singleton, hscan]
      exact ⟨rfl, .cons (hreads _ rfl rfl rfl) .nil⟩
    | @cons σ v _ vs hσ hσs =>
      obtain ⟨kind', hnext, -⟩ := Terminal.isWord_of_spells (hlater σ List.mem_cons_self) hσ
      obtain ⟨rest, -, hrest⟩ := Piece.exists_intercalate v vs
      obtain ⟨c, more, hmore, hc⟩ := hnext.not_isGap rest
      have hsplit : [' '].intercalate (v :: vs) = c :: more := hrest.trans hmore
      obtain ⟨herrors, htokens⟩ := ih hlater (offset + Text.size w + 1)
      rw [List.intercalate_cons_cons, List.append_assoc, List.singleton_append,
        scanPieces_word hword (.inr ⟨_, rfl⟩), hsplit, scanPieces_space hc, ← hsplit]
      exact ⟨herrors, .cons (hreads _ rfl rfl rfl) htokens⟩

end Layout

end Offside
