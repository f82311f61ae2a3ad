import Offside.Proofs.Grammar.Derivation
import Offside.Proofs.Marks

/-!
# Derivations from other tokens

A derivation looks at the kinds of tokens and at the literals of constants, and its tree keeps only
tokens that stand for text on a line. Tokens can therefore be replaced by others of their kind, the
structural ones by any: the same derivation leads to the tree with the tokens replaced.

* `Stands`: a token in the place of another;
* `Derives.relabel`: derivations from such tokens.
-/

namespace Offside.Grammar

/-- A token in the place of another: of the same kind and, if it stands for text, its image. -/
structure Stands (f : Token → Token) (t t' : Token) : Prop where
  kind : t'.kind = t.kind
  eq : t.kind.isStructural = false → t' = f t

/-- A phrase with its tokens replaced. -/
def Phrase.mapTokens (f : Token → Token) : Phrase → Phrase
  | .expression rank e => .expression rank (e.mapTokens f)
  | .arguments es => .arguments (Expr.mapAllTokens f es)
  | .parameters ps => .parameters (ps.map f)
  | .statement s => .statement (s.mapTokens f)
  | .statements ss => .statements (Stmt.mapAllTokens f ss)
  | .block ss => .block (Stmt.mapAllTokens f ss)
  | .alternatives r => .alternatives (r.mapTokens f)
  | .program ss => .program (Stmt.mapAllTokens f ss)

variable {f : Token → Token}

namespace Stands

variable {t t' : Token} {kind : Kind}

theorem kind_eq (h : Stands f t t') (hk : t.kind = kind) : t'.kind = kind := h.kind.trans hk

theorem eq_of_kind (h : Stands f t t') (hk : t.kind = kind) (htext : kind.isStructural = false) :
    t' = f t := h.eq (hk ▸ htext)

theorem append {as bs cs : List Token} (h : List.Forall₂ (Stands f) (as ++ bs) cs) :
    ∃ as' bs', cs = as' ++ bs' ∧ List.Forall₂ (Stands f) as as' ∧
      List.Forall₂ (Stands f) bs bs' := split_forall₂_append h

theorem singleton {ts : List Token} (h : List.Forall₂ (Stands f) [t] ts) :
    ∃ t', ts = [t'] ∧ Stands f t t' := split_forall₂_singleton h

theorem of_isStructural (hkind : t'.kind = t.kind) (h : t.kind.isStructural = true) :
    Stands f t t' :=
  ⟨hkind, fun htext => absurd (h.symm.trans htext) (by simp)⟩

theorem replicate (h : Stands f t t') (n : Nat) :
    List.Forall₂ (Stands f) (List.replicate n t) (List.replicate n t') := forall₂_replicate h n

theorem map (hkind : ∀ t, (f t).kind = t.kind) (ts : List Token) :
    List.Forall₂ (Stands f) ts (ts.map f) :=
  List.forall₂_map_right_iff.2 (List.forall₂_same.2 fun t _ => ⟨hkind t, fun _ => rfl⟩)

end Stands

theorem Operator.not_isStructural {rank : Rank} {kind : Kind} {c : Connective}
    (h : Operator rank kind c) : kind.isStructural = false := by
  cases h <;> rfl

theorem Sign.not_isStructural {kind : Kind} {op : UnaryOp} (h : Sign kind op) :
    kind.isStructural = false := by
  cases h <;> rfl

theorem not_isStructural_of_denotes {t : Token} {c : Constant} (h : Denotes t c) :
    t.kind.isStructural = false := by
  cases h with
  | true hk | false hk | empty hk => rw [hk]; rfl
  | number hk _ | text hk _ => rcases hk with hk | hk <;> rw [hk] <;> rfl

theorem Denotes.of_eq {t t' : Token} {c : Constant} (h : Denotes t c) (hkind : t'.kind = t.kind)
    (hliteral : t'.literal = t.literal) : Denotes t' c := by
  cases h with
  | true hk => exact .true (hkind.trans hk)
  | false hk => exact .false (hkind.trans hk)
  | empty hk => exact .empty (hkind.trans hk)
  | number hk hx => exact .number (hkind ▸ hk) (hliteral.trans hx)
  | text hk hs => exact .text (hkind ▸ hk) (hliteral.trans hs)

theorem mapTokens_apply (c : Connective) (t : Token) (l r : Expr) :
    (c.apply t l r).mapTokens f = c.apply (f t) (l.mapTokens f) (r.mapTokens f) := by
  cases c <;> rfl

@[simp] theorem length_mapAllTokens (es : List Expr) :
    (Expr.mapAllTokens f es).length = es.length := by
  induction es with
  | nil => rfl
  | cons e es ih => simp [Expr.mapAllTokens, ih]

theorem mapAllTokens_ne_nil {ss : List Stmt} (h : ss ≠ []) : Stmt.mapAllTokens f ss ≠ [] := by
  cases ss with
  | nil => exact absurd rfl h
  | cons s ss => exact List.cons_ne_nil _ _

/-- A phrase is derived from tokens in the place of its own. -/
theorem Derives.relabel (hkind : ∀ t, (f t).kind = t.kind) (hliteral : ∀ t, (f t).literal = t.literal)
    {ph : Phrase} {ts ts' : List Token} (h : Derives ph ts)
    (hstands : List.Forall₂ (Stands f) ts ts') : Derives (ph.mapTokens f) ts' := by
  induction h generalizing ts' with
  | constant hc =>
    obtain ⟨t', rfl, ht⟩ := Stands.singleton hstands
    refine .constant (hc.of_eq ht.kind ?_)
    rw [ht.eq (not_isStructural_of_denotes hc), hliteral]
  | «variable» hk =>
    obtain ⟨t', rfl, ht⟩ := Stands.singleton hstands
    rw [ht.eq_of_kind hk rfl]
    exact .variable ((hkind _).trans hk)
  | group hl _ hr ih =>
    obtain _ | ⟨hl', hstands⟩ := hstands
    obtain ⟨ts', rs, rfl, hts, hrs⟩ := Stands.append hstands
    obtain ⟨r', rfl, hr'⟩ := Stands.singleton hrs
    exact .group (hl'.kind_eq hl) (ih hts) (hr'.kind_eq hr)
  | tighter _ ih => exact .tighter (ih hstands)
  | call _ hl hr ih =>
    obtain ⟨ts', rs, rfl, hts, hrs⟩ := Stands.append hstands
    obtain _ | ⟨hl', hrs⟩ := hrs
    obtain ⟨r', rfl, hr'⟩ := Stands.singleton hrs
    rw [hr'.eq_of_kind hr rfl]
    exact .call (ih hts) (hl'.kind_eq hl) ((hkind _).trans hr)
  | callWith _ hl _ hlength hr ih ih' =>
    obtain ⟨ts', rs, rfl, hts, hrs⟩ := Stands.append hstands
    obtain _ | ⟨hl', hrs⟩ := hrs
    obtain ⟨us', rs, rfl, hus, hrs⟩ := Stands.append hrs
    obtain ⟨r', rfl, hr'⟩ := Stands.singleton hrs
    rw [hr'.eq_of_kind hr rfl]
    exact .callWith (ih hts) (hl'.kind_eq hl) (ih' hus) (by simpa using hlength)
      ((hkind _).trans hr)
  | unary hop _ ih =>
    obtain _ | ⟨ht, hts⟩ := hstands
    rw [ht.eq hop.not_isStructural]
    exact .unary ((hkind _).symm ▸ hop) (ih hts)
  | binary _ hop _ ih ih' =>
    obtain ⟨ts', rs, rfl, hts, hrs⟩ := Stands.append hstands
    obtain _ | ⟨ht, hus⟩ := hrs
    rw [ht.eq hop.not_isStructural, Phrase.mapTokens, mapTokens_apply]
    exact .binary (ih hts) ((hkind _).symm ▸ hop) (ih' hus)
  | argument _ ih => exact .argument (ih hstands)
  | moreArguments _ hc _ ih ih' =>
    obtain ⟨ts', rs, rfl, hts, hrs⟩ := Stands.append hstands
    obtain _ | ⟨hc', hus⟩ := hrs
    exact .moreArguments (ih hts) (hc'.kind_eq hc) (ih' hus)
  | parameter hk =>
    obtain ⟨t', rfl, ht⟩ := Stands.singleton hstands
    rw [ht.eq_of_kind hk rfl]
    exact .parameter ((hkind _).trans hk)
  | moreParameters hk hc _ ih =>
    obtain _ | ⟨ht, _ | ⟨hc', hts⟩⟩ := hstands
    rw [ht.eq_of_kind hk rfl]
    exact .moreParameters ((hkind _).trans hk) (hc'.kind_eq hc) (ih hts)
  | change hw _ hq _ hn ih ih' =>
    obtain _ | ⟨hw', hstands⟩ := hstands
    obtain ⟨ts', rs, rfl, hts, hrs⟩ := Stands.append hstands
    obtain _ | ⟨hq', hrs⟩ := hrs
    obtain ⟨us', rs, rfl, hus, hrs⟩ := Stands.append hrs
    obtain ⟨n', rfl, hn'⟩ := Stands.singleton hrs
    exact .change (hw'.kind_eq hw) (ih hts) (hq'.kind_eq hq) (ih' hus) (hn'.kind_eq hn)
  | create hw hname hq _ hn ih =>
    obtain _ | ⟨hw', _ | ⟨hname', _ | ⟨hq', hstands⟩⟩⟩ := hstands
    obtain ⟨ts', rs, rfl, hts, hrs⟩ := Stands.append hstands
    obtain ⟨n', rfl, hn'⟩ := Stands.singleton hrs
    rw [hname'.eq_of_kind hname rfl]
    exact .create (hw'.kind_eq hw) ((hkind _).trans hname) (hq'.kind_eq hq) (ih hts)
      (hn'.kind_eq hn)
  | define hw hname hl hr _ ih =>
    obtain _ | ⟨hw', _ | ⟨hname', _ | ⟨hl', _ | ⟨hr', hts⟩⟩⟩⟩ := hstands
    rw [hname'.eq_of_kind hname rfl]
    exact .define (hw'.kind_eq hw) ((hkind _).trans hname) (hl'.kind_eq hl) (hr'.kind_eq hr)
      (ih hts)
  | defineWith hw hname hl ha _ hlength hr _ ih ih' =>
    obtain _ | ⟨hw', _ | ⟨hname', _ | ⟨hl', _ | ⟨ha', hstands⟩⟩⟩⟩ := hstands
    obtain ⟨us', rs, rfl, hus, hrs⟩ := Stands.append hstands
    obtain _ | ⟨hr', hts⟩ := hrs
    rw [hname'.eq_of_kind hname rfl]
    exact .defineWith (hw'.kind_eq hw) ((hkind _).trans hname) (hl'.kind_eq hl) (ha'.kind_eq ha)
      (ih hus) (by simpa using hlength) (hr'.kind_eq hr) (ih' hts)
  | expressionStatement _ hn ih =>
    obtain ⟨ts', rs, rfl, hts, hrs⟩ := Stands.append hstands
    obtain ⟨n', rfl, hn'⟩ := Stands.singleton hrs
    exact .expressionStatement (ih hts) (hn'.kind_eq hn)
  | conditional hw _ _ _ ih ih' ih'' =>
    obtain _ | ⟨hw', hstands⟩ := hstands
    obtain ⟨ts', rs, rfl, hts, hrs⟩ := Stands.append hstands
    obtain ⟨us', vs', rfl, hus, hvs⟩ := Stands.append hrs
    rw [hw'.eq_of_kind hw rfl]
    exact .conditional ((hkind _).trans hw) (ih hts) (ih' hus) (ih'' hvs)
  | repeatTimes hw _ hm _ ih ih' =>
    obtain _ | ⟨hw', hstands⟩ := hstands
    obtain ⟨ts', rs, rfl, hts, hrs⟩ := Stands.append hstands
    obtain _ | ⟨hm', hus⟩ := hrs
    rw [hw'.eq_of_kind hw rfl]
    exact .repeatTimes ((hkind _).trans hw) (ih hts) (hm'.kind_eq hm) (ih' hus)
  | repeatWhile hw hm _ _ ih ih' =>
    obtain _ | ⟨hw', _ | ⟨hm', hstands⟩⟩ := hstands
    obtain ⟨ts', us', rfl, hts, hus⟩ := Stands.append hstands
    rw [hw'.eq_of_kind hw rfl]
    exact .repeatWhile ((hkind _).trans hw) (hm'.kind_eq hm) (ih hts) (ih' hus)
  | returnEmpty hw hn =>
    obtain _ | ⟨hw', hstands⟩ := hstands
    obtain ⟨n', rfl, hn'⟩ := Stands.singleton hstands
    rw [hw'.eq_of_kind hw rfl]
    exact .returnEmpty ((hkind _).trans hw) (hn'.kind_eq hn)
  | returnWith hw hm _ hn ih =>
    obtain _ | ⟨hw', _ | ⟨hm', hstands⟩⟩ := hstands
    obtain ⟨ts', rs, rfl, hts, hrs⟩ := Stands.append hstands
    obtain ⟨n', rfl, hn'⟩ := Stands.singleton hrs
    rw [hw'.eq_of_kind hw rfl]
    exact .returnWith ((hkind _).trans hw) (hm'.kind_eq hm) (ih hts) (hn'.kind_eq hn)
  | noStatements =>
    obtain _ | _ := hstands
    exact .noStatements
  | moreStatements _ _ ih ih' =>
    obtain ⟨ts', us', rfl, hts, hus⟩ := Stands.append hstands
    exact .moreStatements (ih hts) (ih' hus)
  | block hn hi _ hss hd ih =>
    obtain _ | ⟨hn', _ | ⟨hi', hstands⟩⟩ := hstands
    obtain ⟨ts', rs, rfl, hts, hrs⟩ := Stands.append hstands
    obtain ⟨d', rfl, hd'⟩ := Stands.singleton hrs
    exact .block (hn'.kind_eq hn) (hi'.kind_eq hi) (ih hts) (mapAllTokens_ne_nil hss)
      (hd'.kind_eq hd)
  | nothing =>
    obtain _ | _ := hstands
    exact .nothing
  | otherwise hw _ ih =>
    obtain _ | ⟨hw', hts⟩ := hstands
    exact .otherwise (hw'.kind_eq hw) (ih hts)
  | otherwiseIf hw hm _ _ _ ih ih' ih'' =>
    obtain _ | ⟨hw', _ | ⟨hm', hstands⟩⟩ := hstands
    obtain ⟨ts', rs, rfl, hts, hrs⟩ := Stands.append hstands
    obtain ⟨us', vs', rfl, hus, hvs⟩ := Stands.append hrs
    rw [hm'.eq_of_kind hm rfl]
    exact .otherwiseIf (hw'.kind_eq hw) ((hkind _).trans hm) (ih hts) (ih' hus) (ih'' hvs)
  | program _ he ih =>
    obtain ⟨ts', rs, rfl, hts, hrs⟩ := Stands.append hstands
    obtain ⟨e', rfl, he'⟩ := Stands.singleton hrs
    exact .program (ih hts) (he'.kind_eq he)

end Offside.Grammar
