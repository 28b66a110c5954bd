import AccessLayer.Proofs.Surql.LexemeText
import AccessLayer.Proofs.Surql.TokenStream

/-!
# Nothing of a source is lost

The tokens of a source cover it: their texts, with gaps of white space and comments between them,
are the whole source from its first byte to its last, and the literal of every token can be read off
its text.

* `tiling_tokensFrom`: reading tokens tiles the text.
* `Covered`: the same between the offsets of a source.
* `tokenize_covers`: the tokens of a source cover it.
-/

namespace AccessLayer.Surql

open Bytes
open Lexeme

/-! ## Tilings -/

/-- The code points are a gap, the text of the first token, a gap, and so on up to the end of input.
The first of them stands at the given offset. -/
inductive Tiling : Nat → List Rune → List Token → Prop
  | stop {offset : Nat} {gap : List Rune} {t : Token} (hgap : Skipped (gap.map (·.char)) [])
      (hkind : t.kind = .endOfInput) (hstart : t.start.offset = offset + (ofRunes gap).length)
      (hstop : t.stop = t.start.offset) : Tiling offset gap [t]
  | token {offset : Nat} {gap text rest : List Rune} {t : Token} {ts : List Token}
      (hgap : Skipped (gap.map (·.char)) ((text ++ rest).map (·.char)))
      (hkind : t.kind ≠ .endOfInput) (hstart : t.start.offset = offset + (ofRunes gap).length)
      (hstop : t.stop = t.start.offset + (ofRunes text).length) (hlt : t.start.offset < t.stop)
      (hspells : Spells t.kind (ofRunes text) t.literal) (h : Tiling t.stop rest ts) :
      Tiling offset (gap ++ (text ++ rest)) (t :: ts)

/-- A piece of a gap may be put in front. -/
theorem Tiling.gap {offset : Nat} {rs taken rest : List Rune} {tokens : List Token}
    (hg : Lexeme.gap rs = .ok (some (taken, rest)))
    (h : Tiling (offset + (ofRunes taken).length) rest tokens) :
    Tiling offset (taken ++ rest) tokens := by
  cases h with
  | stop hgap hkind hstart hstop =>
    refine .stop ?_ hkind ?_ hstop
    · rw [List.map_append]
      exact skipped_gap hg (List.append_nil _).symm hgap
    · rw [hstart, ofRunes_append, List.length_append, Nat.add_assoc]
  | token hgap hkind hstart hstop hlt hspells h =>
    rw [← List.append_assoc]
    refine .token ?_ hkind ?_ hstop hlt hspells h
    · rw [List.map_append]
      exact skipped_gap hg List.map_append hgap
    · rw [hstart, ofRunes_append, List.length_append, Nat.add_assoc]

theorem tiling_tokensFrom {p : Position} {rs : List Rune} {tokens : List Token}
    (hread : Readable rs) (h : tokensFrom p rs = .ok tokens) : Tiling p.offset rs tokens := by
  revert hread
  refine tokensFrom_induction ?_ ?_ ?_ h
  · intro p _
    exact .stop .nil rfl rfl rfl
  · intro p r rs taken rest tokens hg ih hread
    have hsplit := (gap_split hg).1
    rw [← hsplit] at hread ⊢
    have htiling := ih hread.right
    rw [Position.after_offset] at htiling
    exact htiling.gap hg
  · intro p r rs l tokens _ hl ih hread
    have hspells := (faithful_lexeme hread hl).spells
    have hsplit := lexeme_split hl
    rw [← hsplit.1] at hread ⊢
    have hlt : p.offset < (p.after l.taken).offset :=
      offset_lt_after hsplit.2 fun _ hx => hread.left.bytes_ne_nil hx
    rw [← List.nil_append (l.taken ++ l.rest)]
    exact .token .nil (lexeme_kind_ne hl) rfl (Position.after_offset p l.taken) hlt hspells
      (ih hread.right)

/-! ## Offsets of a source -/

/-- The tokens cover the source from an offset on: what stands before the first token and between
one token and the next is a gap, every token but the last has a text that is not empty and spells
its literal, and the last one marks the end of the source. -/
structure Covered (src : Bytes) (offset : Nat) (tokens : List Token) : Prop where
  first : ∀ t ∈ tokens.head?, offset ≤ t.start.offset ∧
    Skipped (src.slice offset t.start.offset).chars (chars (src.drop t.start.offset))
  next : ∀ before t u after, tokens = before ++ t :: u :: after →
    t.kind ≠ .endOfInput ∧ t.start.offset < t.stop ∧ t.stop ≤ u.start.offset ∧
      Skipped (src.slice t.stop u.start.offset).chars (chars (src.drop u.start.offset)) ∧
      Spells t.kind (src.slice t.start.offset t.stop) t.literal
  last : ∃ t, tokens.getLast? = some t ∧ t.kind = .endOfInput ∧ t.start.offset = src.length ∧
    t.stop = src.length

/-- The bytes between two offsets, and those after them, are read as the code points that stand
there. -/
theorem slice_of_runes {src : Bytes} {xs ys zs : List Rune} {m n : Nat}
    (h : runes src = xs ++ (ys ++ zs)) (hm : m = (ofRunes xs).length)
    (hn : n = m + (ofRunes ys).length) :
    src.slice m n = ofRunes ys ∧ (src.slice m n).chars = ys.map (·.char) ∧
      chars (src.drop n) = zs.map (·.char) := by
  have hread : Readable (xs ++ (ys ++ zs)) := h ▸ readable_runes src
  have hsrc : src = ofRunes xs ++ (ofRunes ys ++ ofRunes zs) := by
    rw [← ofRunes_append, ← ofRunes_append, ← h, ofRunes_runes]
  have hdrop : src.drop m = ofRunes ys ++ ofRunes zs := by
    rw [hm, hsrc, List.drop_left]
  have hslice : src.slice m n = ofRunes ys := by
    rw [slice, hdrop, hn, Nat.add_sub_cancel_left, List.take_left]
  refine ⟨hslice, ?_, ?_⟩
  · rw [hslice, hread.right.left.chars_ofRunes]
  · rw [hn, ← List.drop_drop, hdrop, List.drop_left, hread.right.right.chars_ofRunes]

/-- Tokens that tile the code points of a source from an offset on cover it. -/
theorem Tiling.covered {src : Bytes} {offset : Nat} {xs rs : List Rune} {tokens : List Token}
    (h : Tiling offset rs tokens) (hsrc : runes src = xs ++ rs)
    (hoffset : offset = (ofRunes xs).length) : Covered src offset tokens := by
  induction h generalizing xs with
  | @stop offset gap t hgap hkind hstart hstop =>
    have hend : t.start.offset = src.length := by
      rw [hstart, hoffset, ← List.length_append, ← ofRunes_append, ← hsrc, ofRunes_runes]
    obtain ⟨-, hchars, hrest⟩ :=
      slice_of_runes (hsrc.trans (by rw [List.append_nil])) hoffset hstart
    refine ⟨?_, ?_, t, rfl, hkind, hend, hstop.trans hend⟩
    · intro u hu
      cases hu
      rw [hchars, hrest]
      exact ⟨by omega, hgap⟩
    · intro before u v after heq
      have hlen := congrArg List.length heq
      simp only [List.length_append, List.length_cons, List.length_nil] at hlen
      omega
  | @token offset gap text rest t ts hgap hkind hstart hstop hlt hspells h ih =>
    obtain ⟨-, hchars, hrest⟩ := slice_of_runes hsrc hoffset hstart
    -- the text of the token starts where the gap ends, and the other tokens start where it ends
    rw [← List.append_assoc] at hsrc
    have hgapEnd : t.start.offset = (ofRunes (xs ++ gap)).length := by
      rw [hstart, hoffset, ofRunes_append, List.length_append]
    obtain ⟨htext, -, -⟩ := slice_of_runes hsrc hgapEnd hstop
    rw [← List.append_assoc] at hsrc
    have hcovered : Covered src t.stop ts := by
      refine ih hsrc ?_
      rw [hstop, hgapEnd, ofRunes_append (xs ++ gap), List.length_append]
    refine ⟨?_, ?_, ?_⟩
    · intro u hu
      cases hu
      rw [hchars, hrest]
      exact ⟨by omega, hgap⟩
    · intro before u v after heq
      cases before with
      | nil =>
        obtain ⟨rfl, rfl⟩ := List.cons.inj heq
        obtain ⟨hle, hskipped⟩ := hcovered.first v rfl
        exact ⟨hkind, hlt, hle, hskipped, htext ▸ hspells⟩
      | cons w before => exact hcovered.next before u v after (List.cons.inj heq).2
    · obtain ⟨u, hu, hlast⟩ := hcovered.last
      exact ⟨u, by rw [List.getLast?_cons, hu]; rfl, hlast⟩

/-- Nothing of a source is lost. The last token, and no other one, is the end of input, and it
stands at the end of the source. The gaps before the first token and between the tokens are made of
white space and whole comments. The tokens are not empty and do not overlap, and the literal of each
is the one, and the only one, that its text spells. -/
theorem tokenize_covers {src : Bytes} {tokens : List Token} (h : tokenize src = .ok tokens) :
    (∃ t, tokens.getLast? = some t ∧ t.kind = .endOfInput ∧ t.start.offset = src.length ∧
        t.stop = src.length) ∧
      (∀ t ∈ tokens.head?,
        Skipped (src.slice 0 t.start.offset).chars (chars (src.drop t.start.offset))) ∧
      ∀ before t u after, tokens = before ++ t :: u :: after →
        t.kind ≠ .endOfInput ∧ t.start.offset < t.stop ∧ t.stop ≤ u.start.offset ∧
          Skipped (src.slice t.stop u.start.offset).chars (chars (src.drop u.start.offset)) ∧
          Spells t.kind (src.slice t.start.offset t.stop) t.literal ∧
          ∀ kind literal, Spells kind (src.slice t.start.offset t.stop) literal →
            literal = t.literal := by
  have hcovered := (tiling_tokensFrom (readable_runes src) h).covered (List.nil_append _).symm rfl
  refine ⟨hcovered.last, fun t ht => (hcovered.first t ht).2, ?_⟩
  intro before t u after htokens
  obtain ⟨hkind, hlt, hle, hskipped, hspells⟩ := hcovered.next before t u after htokens
  exact ⟨hkind, hlt, hle, hskipped, hspells, fun _ _ h => h.unique hspells⟩

/-- A source with a comment of each kind, a parameter, a quoted identifier and a marked string. -/
def mixedSource : Bytes := "-- a\nx/*b*/$y ⟨z⟩ d\"\\t\" #"

/-- The tokens of `mixedSource`. -/
def mixedTokens : List Token :=
  [⟨.ident, "x", ⟨5, 2, 1⟩, 6⟩, ⟨.param, "y", ⟨11, 2, 7⟩, 13⟩, ⟨.ident, "z", ⟨14, 2, 10⟩, 21⟩,
    ⟨.datetime, "\t", ⟨22, 2, 14⟩, 27⟩, ⟨.endOfInput, [], ⟨29, 2, 21⟩, 29⟩]

theorem tokenize_covers_mixed :
    tokenize mixedSource = .ok mixedTokens ∧
      Skipped (chars "-- a\n") (chars "x/*b*/$y ⟨z⟩ d\"\\t\" #") ∧
      Skipped (chars "/*b*/") (chars "$y ⟨z⟩ d\"\\t\" #") ∧
      Spells .ident "⟨z⟩" "z" ∧ Spells .datetime "d\"\\t\"" "\t" ∧ Skipped (chars " #") [] := by
  have h : tokenize mixedSource = .ok mixedTokens := by decide +kernel
  obtain ⟨-, hfirst, hnext⟩ := tokenize_covers h
  have hcomment := hnext [] _ _ _ rfl
  have hquoted := hnext (mixedTokens.take 2) _ _ _ rfl
  have hstring := hnext (mixedTokens.take 3) _ _ _ rfl
  exact ⟨h, hfirst _ rfl, hcomment.2.2.2.1, hquoted.2.2.2.2.1, hstring.2.2.2.2.1, hstring.2.2.2.1⟩

end AccessLayer.Surql
