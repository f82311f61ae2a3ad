import Offside.Entry
import Offside.Proofs.Coverage
import Offside.Proofs.Spelling

/-!
# Tokens of an entry in colours

An entry is coloured in one pass over the whole of its text, in which a line feed is a character like
any other, while layout reads it line by line, leaves out indentation and passes over blank lines and
comments. Both see the same tokens at the same bytes: a line feed stands alone, no piece reaches over
it, and what layout leaves out holds no token.

* `Piece.cut_append_feed`: a text is cut line by line;
* `Entry.tokens`: the tokens of the pass that colours an entry;
* `Entry.tokens_cut_line`: those of a line, with its indentation, are those of its layout;
* `Entry.tokens_eq_scan`: those of a text are the tokens of its layout, and each of them is a part of
  the entry in colours.
-/

namespace Offside

/-! ### Pieces and line feeds -/

namespace Piece

theorem run_append_feed {p : Char → Bool} (hp : p '\n' = false) (rest b : List Char) :
    run p (rest ++ '\n' :: b) = run p rest := by
  unfold run
  induction rest with
  | nil => simp [hp]
  | cons c rest ih =>
    by_cases hc : p c = true
    · simp [hc, ih]
    · simp [hc]

theorem run_le_length (p : Char → Bool) (rest : List Char) : run p rest ≤ rest.length :=
  (List.takeWhile_prefix p).length_le

theorem head?_append_feed {d : Char} (hd : d ≠ '\n') (rest b : List Char) :
    (rest ++ '\n' :: b).head? = some d ↔ rest.head? = some d := by
  cases rest with
  | nil => simp [Ne.symm hd]
  | cons c rest => rfl

theorem fractionLength_append_feed (rest b : List Char) :
    fractionLength (rest ++ '\n' :: b) = fractionLength rest := by
  unfold fractionLength
  cases rest with
  | nil => rfl
  | cons c rest =>
    by_cases hc : c = '.'
    · subst hc
      simp only [List.cons_append, run_append_feed (show isDigit '\n' = false by decide)]
    · simp [hc]

theorem doubleMark?_append_feed (c : Char) (rest b : List Char) :
    (rest ++ '\n' :: b).head?.bind (doubleMark? c) = rest.head?.bind (doubleMark? c) := by
  cases rest with
  | nil =>
    show doubleMark? c '\n' = none
    unfold doubleMark?
    split <;> simp_all
  | cons d rest => rfl

/-- What starts before a line feed does not depend on what stands after it. -/
theorem classify_append_feed (c : Char) (rest b : List Char) :
    classify c (rest ++ '\n' :: b) = classify c rest := by
  have hword : (rest ++ '\n' :: b).take (run isWordPart rest) = rest.take (run isWordPart rest) :=
    List.take_append_of_le_length (run_le_length _ _)
  unfold classify
  simp only [run_append_feed (show isGap '\n' = false by decide),
    run_append_feed (p := (· ≠ '\n')) (by decide),
    run_append_feed (show isTextPart '\n' = false by decide),
    run_append_feed (show isDigit '\n' = false by decide),
    run_append_feed (show isWordPart '\n' = false by decide),
    head?_append_feed (show '/' ≠ '\n' by decide),
    List.drop_append_of_le_length (run_le_length _ _),
    head?_append_feed (show '"' ≠ '\n' by decide), fractionLength_append_feed, hword,
    doubleMark?_append_feed]

theorem fractionLength_le_length (rest : List Char) : fractionLength rest ≤ rest.length := by
  unfold fractionLength
  split
  · next cs =>
    have := run_le_length isDigit cs
    rw [List.length_cons]
    split <;> omega
  · exact Nat.zero_le _

/-- A piece takes no more than there is. -/
theorem classify_le_length (c : Char) (rest : List Char) : (classify c rest).2 ≤ rest.length := by
  unfold classify
  split
  · exact run_le_length _ _
  split
  · exact run_le_length _ _
  split
  · dsimp only
    split
    · next hclosed =>
      have hne : rest.drop (run isTextPart rest) ≠ [] := by
        intro hnil
        rw [hnil] at hclosed
        cases hclosed
      have := List.length_pos_of_ne_nil hne
      rw [List.length_drop] at this
      show run isTextPart rest + 1 ≤ rest.length
      omega
    · exact run_le_length _ _
  split
  · have := fractionLength_le_length (rest.drop (run isDigit rest))
    rw [List.length_drop] at this
    have := run_le_length isDigit rest
    show run isDigit rest + fractionLength (rest.drop (run isDigit rest)) ≤ rest.length
    omega
  split
  · exact run_le_length _ _
  split
  · next hmark =>
    obtain ⟨d, hd, -⟩ := Option.bind_eq_some_iff.1 hmark
    obtain ⟨tail, rfl⟩ := List.head?_eq_some_iff.1 hd
    exact Nat.le_add_left _ _
  split <;> exact Nat.zero_le _

theorem classify_feed (rest : List Char) : classify '\n' rest = (.stray, 0) := by
  have hmark : rest.head?.bind (doubleMark? '\n') = none := by
    cases rest <;> rfl
  unfold classify
  rw [hmark]
  rfl

/-- A text is cut line by line, and a line feed is a piece of its own. -/
theorem cut_append_feed (a b : List Char) :
    cut (a ++ '\n' :: b) = cut a ++ ⟨.stray, ['\n']⟩ :: cut b := by
  induction a using cut_induction with
  | nil =>
    rw [List.nil_append, cut_cons, classify_feed]
    rfl
  | cons c rest ih =>
    have hle := classify_le_length c rest
    rw [List.cons_append, cut_cons, cut_cons, classify_append_feed,
      List.take_append_of_le_length hle, List.drop_append_of_le_length hle, ih, List.cons_append]

end Piece

namespace Entry

/-! ### The pass over an entry -/

/-- The tokens among pieces that start at byte `offset`, with the bytes they cover. -/
def tokensFrom (offset : Nat) : List Piece → List (Kind × Span)
  | [] => []
  | p :: ps =>
    let span : Span := ⟨offset, offset + Text.size p.chars⟩
    match p.cls with
    | .token kind => (kind, span) :: tokensFrom span.stop ps
    | _ => tokensFrom span.stop ps

/-- The tokens of the pass that colours an entry. -/
def tokens (cs : List Char) : List (Kind × Span) := tokensFrom 0 (Piece.cut cs)

theorem tokensFrom_append (offset : Nat) (ps qs : List Piece) :
    tokensFrom offset (ps ++ qs) =
      tokensFrom offset ps ++ tokensFrom (offset + Text.size (ps.flatMap Piece.chars)) qs := by
  induction ps generalizing offset with
  | nil => rfl
  | cons p ps ih =>
    rw [List.flatMap_cons, Text.size_append, ← Nat.add_assoc]
    rcases hcls : p.cls with _ | _ | kind | _ | _ <;>
      simp only [List.cons_append, tokensFrom, hcls, ih]

theorem tokensFrom_cons_of_not_token (cls : PieceClass) (h : ∀ kind, cls ≠ .token kind)
    (offset : Nat) (chars : List Char) (ps : List Piece) :
    tokensFrom offset (⟨cls, chars⟩ :: ps) = tokensFrom (offset + Text.size chars) ps := by
  cases cls with
  | token kind => exact absurd rfl (h kind)
  | _ => rfl

/-- Layout takes the tokens of a line as they come. -/
theorem tokens_scanPieces (number offset : Nat) (ps : List Piece) :
    (Layout.scanPieces number offset ps).tokens.map (fun t => (t.kind, t.span)) =
      tokensFrom offset ps := by
  induction ps generalizing offset with
  | nil => rfl
  | cons p ps ih =>
    rcases hcls : p.cls with _ | _ | kind | _ | _ <;>
      simp only [Layout.scanPieces, tokensFrom, hcls, List.map_cons, ih]

/-! ### What layout leaves out -/

/-- A blank goes with the blanks after it, or stands alone. -/
theorem tokensFrom_cut_gap {c : Char} (hc : Piece.isGap c = true) (offset : Nat) (cs : List Char) :
    tokensFrom offset (Piece.cut (c :: cs)) =
      tokensFrom (offset + c.utf8Size) (Piece.cut cs) := by
  have hgap : ∀ {d : Char} (rest : List Char), Piece.isGap d = true →
      Piece.classify d rest = (.gap, Piece.run Piece.isGap rest) := fun _ hd => if_pos hd
  rw [Piece.cut_cons, hgap cs hc, tokensFrom_cons_of_not_token .gap (by simp)]
  cases cs with
  | nil => rfl
  | cons d ds =>
    by_cases hd : Piece.isGap d = true
    · have hrun : Piece.run Piece.isGap (d :: ds) = Piece.run Piece.isGap ds + 1 := by
        simp [Piece.run, hd]
      rw [Piece.cut_cons d, hgap ds hd, tokensFrom_cons_of_not_token .gap (by simp), hrun]
      simp only [List.take_succ_cons, List.drop_succ_cons, Text.size_cons, Nat.add_assoc]
    · have hrun : Piece.run Piece.isGap (d :: ds) = 0 := by simp [Piece.run, hd]
      rw [hrun]
      simp only [List.take_zero, List.drop_zero, Text.size_cons, Text.size_nil, Nat.add_zero]

theorem tokensFrom_cut_gaps {blanks : List Char} (h : ∀ c ∈ blanks, Piece.isGap c = true)
    (offset : Nat) (cs : List Char) :
    tokensFrom offset (Piece.cut (blanks ++ cs)) =
      tokensFrom (offset + Text.size blanks) (Piece.cut cs) := by
  induction blanks generalizing offset with
  | nil => rfl
  | cons c blanks ih =>
    obtain ⟨hc, hblanks⟩ := List.forall_mem_cons.1 h
    rw [List.cons_append, tokensFrom_cut_gap hc, ih hblanks, Text.size_cons, Nat.add_assoc]

theorem isGap_of_isPart {c : Char} (h : Indent.isPart c = true) : Piece.isGap c = true := by
  simp only [Indent.isPart, Piece.isGap, Bool.or_eq_true] at h ⊢
  tauto

/-- Nothing starts with white space but gaps and strays. -/
theorem tokensFrom_cut_blank {cs : List Char} (h : Text.isBlank cs = true) (offset : Nat) :
    tokensFrom offset (Piece.cut cs) = [] := by
  induction cs using Piece.cut_induction generalizing offset with
  | nil => rfl
  | cons c rest ih =>
    have hall : ∀ d ∈ c :: rest, Text.isWhiteSpace d = true := List.all_eq_true.1 h
    have hclass : ∀ kind, (Piece.classify c rest).1 ≠ .token kind := by
      intro kind hkind
      have hspace := hall c List.mem_cons_self
      rw [Piece.not_isWhiteSpace_of_classify hkind] at hspace
      cases hspace
    rw [Piece.cut_cons, tokensFrom_cons_of_not_token _ hclass]
    apply ih
    exact List.all_eq_true.2 fun d hd => hall d (List.mem_cons_of_mem c (List.mem_of_mem_drop hd))

theorem tokensFrom_cut_comment {rest : List Char} (h : '\n' ∉ rest) (offset : Nat) :
    tokensFrom offset (Piece.cut ('/' :: '/' :: rest)) = [] := by
  have hclass : Piece.classify '/' ('/' :: rest) = (.comment, Piece.run (· ≠ '\n') ('/' :: rest)) := rfl
  have hdrop : ('/' :: rest).drop (Piece.run (· ≠ '\n') ('/' :: rest)) = [] := by
    rw [Piece.drop_run, List.dropWhile_eq_nil_iff]
    intro d hd
    rcases List.mem_cons.1 hd with rfl | hd
    · decide
    · exact decide_eq_true fun heq => h (heq ▸ hd)
  rw [Piece.cut_cons, hclass, tokensFrom_cons_of_not_token .comment (by simp), hdrop]
  rfl

/-! ### Lines -/

section Lines

open Text (Line)

/-- The tokens of a stretch of text that stand for text on a line, with the bytes they cover. -/
def ofScan (s : Scan) : List (Kind × Span) :=
  (s.tokens.filter fun t => !t.kind.isStructural).map fun t => (t.kind, t.span)

theorem ofScan_append (s s' : Scan) : ofScan (s ++ s') = ofScan s ++ ofScan s' := by
  simp [ofScan]

theorem ofScan_of_structural {s : Scan} (h : ∀ t ∈ s.tokens, t.kind.isStructural = true) :
    ofScan s = [] := by
  have hnone : s.tokens.filter (fun t => !t.kind.isStructural) = [] :=
    List.filter_eq_nil_iff.2 fun t ht => by simp [h t ht]
  rw [ofScan, hnone]
  rfl

theorem ofScan_scanBody (number offset : Nat) (l : Line) :
    ofScan (Layout.scanBody number offset l) =
      tokensFrom (offset + Text.size l.blanks) (Piece.cut l.body) := by
  have hall : (Layout.scanBody number offset l).tokens.filter (fun t => !t.kind.isStructural) =
      (Layout.scanBody number offset l).tokens :=
    List.filter_eq_self.2 fun t ht => by
      simp [Layout.not_isStructural_scanBody number offset l t ht]
  rw [ofScan, hall]
  exact tokens_scanPieces number _ _

theorem isStructural_shift (levels : List Indent) (number offset : Nat) (l : Line) :
    ∀ t ∈ (Layout.shift levels l.indent (Layout.mark number offset l)).2.tokens,
      t.kind.isStructural = true := by
  intro t ht
  rcases Layout.mem_shift_tokens ht with rfl | ⟨hdedent, -⟩
  · rfl
  · rw [hdedent]
    rfl

/-- A line that layout does not see holds no token. -/
theorem tokensFrom_cut_invisible {l : Line} (hl : ¬l.Visible) (hline : '\n' ∉ l.text)
    (offset : Nat) : tokensFrom offset (Piece.cut l.body) = [] := by
  rw [Line.visible_iff, Bool.not_eq_false, Layout.isInvisible, Bool.or_eq_true] at hl
  rcases hl with hblank | hcomment
  · exact tokensFrom_cut_blank hblank offset
  · obtain ⟨rest, hrest⟩ := List.isPrefixOf_iff_prefix.1 hcomment
    have hmem : '\n' ∉ rest := by
      intro hmem
      apply hline
      rw [← l.blanks_append_body, ← hrest]
      simp [hmem]
    rw [← hrest]
    exact tokensFrom_cut_comment hmem offset

/-- The tokens of a line are those of its layout, wherever it stands. -/
theorem tokens_cut_line {l : Line} (hline : '\n' ∉ l.text) (levels : List Indent)
    (number offset : Nat) :
    tokensFrom offset (Piece.cut l.text) = ofScan (Layout.scanLine levels number offset l).2 := by
  have hblanks : ∀ c ∈ l.blanks, Piece.isGap c = true :=
    fun c hc => isGap_of_isPart (Line.isPart_of_mem_blanks hc)
  have htext : tokensFrom offset (Piece.cut l.text) =
      tokensFrom (offset + Text.size l.blanks) (Piece.cut l.body) := by
    rw [← tokensFrom_cut_gaps hblanks, l.blanks_append_body]
  rw [htext]
  by_cases hl : l.Visible
  · have hending : ∀ t ∈ [Layout.ending number offset l], t.kind.isStructural = true :=
      List.forall_mem_singleton.2 rfl
    rw [Layout.scanLine_of_visible hl, ofScan_append, ofScan_append, ofScan_scanBody,
      ofScan_of_structural (isStructural_shift levels number offset l),
      ofScan_of_structural hending, List.nil_append, List.append_nil]
  · rw [Layout.scanLine_of_invisible hl, tokensFrom_cut_invisible hl hline]
    rfl

/-- The tokens of lines, whatever levels are open before them. The induction takes the lines one at a
time: a line feed cuts the text in two. -/
theorem tokens_cut_lines {ls : List Line} (hls : Text.Regular ls) (levels : List Indent)
    (number offset : Nat) :
    tokensFrom offset (Piece.cut (ls.flatMap Line.chars)) =
      ofScan (Layout.scanLines levels number offset ls).2 := by
  induction ls generalizing levels number offset with
  | nil => rfl
  | cons l ls ih =>
    obtain ⟨hline, hlast, hrest⟩ := hls
    have hl := tokens_cut_line hline levels (number + 1) offset
    rw [Layout.scanLines_cons, ofScan_append, List.flatMap_cons]
    cases hended : l.ended with
    | false =>
      obtain ⟨rfl, -⟩ := hlast hended
      have hchars : l.chars = l.text := by simp [Line.chars, hended]
      rw [hchars, List.flatMap_nil, List.append_nil, hl]
      exact (List.append_nil _).symm
    | true =>
      have hchars : l.chars = l.text ++ ['\n'] := by simp [Line.chars, hended]
      have hsize : offset + Text.size l.text + Text.size ['\n'] = offset + l.size := by
        rw [← l.size_chars, hchars, Text.size_append, Nat.add_assoc]
      rw [hchars, List.append_assoc, List.singleton_append, Piece.cut_append_feed, tokensFrom_append,
        tokensFrom_cons_of_not_token .stray (by simp), Piece.flatMap_chars_cut, hsize, hl, ih hrest]

end Lines

/-- The pass over a text finds the tokens that layout finds. -/
theorem tokens_eq_ofScan (cs : List Char) : tokens cs = ofScan (Layout.scan cs) := by
  have hlines := tokens_cut_lines (Text.regular_lines cs) [] 0 0
  rw [Text.flatMap_chars_lines] at hlines
  have hclose : ∀ t ∈ (Layout.close (Layout.scanLines [] 0 0 (Text.lines cs)).1
      (Text.lines cs).length (Layout.linesSize (Text.lines cs))
      (Layout.lastEnded true (Text.lines cs))).tokens, t.kind.isStructural = true := by
    intro t ht
    rcases List.mem_append.1 ht with ht | ht
    · rw [(List.mem_replicate.1 ht).2]
      rfl
    · rw [List.mem_singleton.1 ht]
      rfl
  rw [Layout.scan_eq_close, ofScan_append, ofScan_of_structural hclose, List.append_nil]
  exact hlines

/-! ### Colours -/

/-- The parts of an entry in colours from byte `offset` on: each colour, with the bytes it covers. -/
def partsFrom (offset : Nat) : List Styled → List (Color × Span)
  | [] => []
  | s :: ss => (s.color, ⟨offset, offset + Text.size s.chars⟩) ::
    partsFrom (offset + Text.size s.chars) ss

theorem partsFrom_append (offset : Nat) (as bs : List Styled) :
    partsFrom offset (as ++ bs) =
      partsFrom offset as ++ partsFrom (offset + Text.size (as.flatMap Styled.chars)) bs := by
  induction as generalizing offset with
  | nil => rfl
  | cons s as ih =>
    rw [List.cons_append, partsFrom, ih, List.flatMap_cons, Text.size_append, ← Nat.add_assoc]
    rfl

theorem splitAtSlashes_append (cs : List Char) :
    (splitAtSlashes cs).1 ++ (splitAtSlashes cs).2 = cs := by
  induction cs with
  | nil => rfl
  | cons c cs ih =>
    unfold splitAtSlashes
    split
    · rfl
    · rw [List.cons_append, ih]

theorem flatMap_chars_paintBetween (cs : List Char) :
    (paintBetween cs).flatMap Styled.chars = cs := by
  have hsplit := splitAtSlashes_append cs
  unfold paintBetween
  split
  · next hempty => rw [List.isEmpty_iff.1 hempty]; rfl
  · split
    · next before hbefore =>
      rw [hbefore, List.append_nil] at hsplit
      simpa using hsplit
    · next before comment hboth =>
      rw [hboth] at hsplit
      simpa using hsplit

/-- Each token among pieces is a part of its own, in its colour and at its bytes, after whatever text
has been read before it. -/
theorem sublist_partsFrom_paint (offset : Nat) (between : List Char) (ps : List Piece) :
    ((tokensFrom (offset + Text.size between) ps).map fun t => (colorOf t.1, t.2)).Sublist
      (partsFrom offset (paint between ps)) := by
  induction ps generalizing offset between with
  | nil => exact List.nil_sublist _
  | cons p ps ih =>
    obtain ⟨cls, chars⟩ := p
    -- a part that is painted by itself ends what stands between tokens
    have hpainted : ∀ color, ((tokensFrom (offset + Text.size between + Text.size chars) ps).map
        fun t => (colorOf t.1, t.2)).Sublist
          (partsFrom (offset + Text.size between + Text.size chars) (paint [] ps)) ∧
        partsFrom offset (paintBetween between ++ ⟨color, chars⟩ :: paint [] ps) =
          partsFrom offset (paintBetween between) ++
            (color, ⟨offset + Text.size between, offset + Text.size between + Text.size chars⟩) ::
              partsFrom (offset + Text.size between + Text.size chars) (paint [] ps) := by
      intro color
      refine ⟨by simpa using ih (offset + Text.size between + Text.size chars) [], ?_⟩
      rw [partsFrom_append, flatMap_chars_paintBetween]
      rfl
    have hjoined := ih offset (between ++ chars)
    rw [Text.size_append, ← Nat.add_assoc] at hjoined
    cases cls with
    | gap => exact hjoined
    | comment => exact hjoined
    | token kind =>
      obtain ⟨hrest, hparts⟩ := hpainted (colorOf kind)
      show List.Sublist _ (partsFrom offset (paintBetween between ++ ⟨colorOf kind, chars⟩ ::
        paint [] ps))
      rw [hparts]
      exact (hrest.cons_cons _).trans (List.sublist_append_right _ _)
    | openText =>
      obtain ⟨hrest, hparts⟩ := hpainted plain
      show List.Sublist _ (partsFrom offset (paintBetween between ++ ⟨plain, chars⟩ :: paint [] ps))
      rw [hparts]
      exact (hrest.cons _).trans (List.sublist_append_right _ _)
    | stray =>
      obtain ⟨hrest, hparts⟩ := hpainted plain
      show List.Sublist _ (partsFrom offset (paintBetween between ++ ⟨plain, chars⟩ :: paint [] ps))
      rw [hparts]
      exact (hrest.cons _).trans (List.sublist_append_right _ _)

/-- Colouring and layout see the same tokens. The pass over a whole text, in which line feeds and
indentation are like any other character, finds exactly the tokens that layout puts on its lines, in
the same order, of the same kinds and at the same bytes; and the entry in colours has each of them as
a part of its own, at these bytes and in the colour of its kind. -/
theorem tokens_eq_scan (cs : List Char) :
    tokens cs = ((Layout.scan cs).tokens.filter fun t => !t.kind.isStructural).map
        (fun t => (t.kind, t.span)) ∧
      ((tokens cs).map fun t => (colorOf t.1, t.2)).Sublist (partsFrom 0 (highlight cs)) :=
  ⟨tokens_eq_ofScan cs, sublist_partsFrom_paint 0 [] (Piece.cut cs)⟩

end Entry

end Offside
