import AccessLayer.Proofs.Surql.ParseSafety
import Mathlib.Data.List.DropRight

/-!
# Places are exact

A place says three times where in a source something stands: by bytes, by lines and by code points
of the line. The three are counted along while the source is read, across strings and comments of
several lines and across broken bytes, and they agree with what the source holds before that place.

* `Position.Exact`: a place as it is counted out in the source.
* `Position.exact_after`: the place after any code points of the source is exact.
* `places_exact`: the places of tokens and of all errors.
-/

namespace AccessLayer

open Bytes

variable {rs : List Rune}

/-- The text since its last line break, all of it if there is none. -/
def Bytes.lastLine (s : Bytes) : Bytes := s.rtakeWhile (· != 0x0A)

namespace Surql

/-- The place lies in the source. Its line counts the line breaks before it, and its column the code
points between the last of them and the place, where a broken byte is a code point. Both start from
one. -/
structure Position.Exact (src : Bytes) (p : Position) : Prop where
  offset_le : p.offset ≤ src.length
  line_eq : p.line = 1 + (src.take p.offset).count 0x0A
  col_eq : p.col = 1 + (runes (Bytes.lastLine (src.take p.offset))).length

end Surql

/-! ## Lines of a run -/

/-- A line break is one byte, and no other code point holds that byte. -/
theorem Readable.bytes_newline (h : Readable rs) {r : Rune} (hr : r ∈ rs) :
    if r.char = '\n' then r.bytes = [0x0A] else 0x0A ∉ r.bytes := by
  obtain ⟨xs, ys, rfl⟩ := List.append_of_mem hr
  obtain ⟨a, w, -, hfirst⟩ := h.right.first
  have hreads : Utf8.Reads a r := by
    have := Utf8.reads_first a (w ++ ofRunes ys)
    rwa [hfirst] at this
  split_ifs with hc
  · rw [hreads.eq_ofChar (by rw [hc]; decide), hc]
    rfl
  · rw [← List.count_eq_zero, hreads.count_newline, if_neg (by simpa using hc)]

/-- The last line of a text ends with what is put behind it, unless that breaks the line. -/
theorem Bytes.lastLine_append {s t : Bytes} (h : 0x0A ∉ t) :
    lastLine (s ++ t) = lastLine s ++ t := by
  have hall : ∀ b ∈ t.reverse, (b != 0x0A) = true := by
    intro b hb
    rw [bne_iff_ne]
    rintro rfl
    exact h (List.mem_reverse.1 hb)
  rw [lastLine, lastLine, List.rtakeWhile, List.rtakeWhile, List.reverse_append,
    List.takeWhile_append_of_pos hall, List.reverse_append, List.reverse_reverse]

theorem Readable.lastLine_ofRunes (h : Readable rs) :
    Bytes.lastLine (ofRunes rs) = ofRunes (rs.rtakeWhile (·.char != '\n')) := by
  induction rs using List.reverseRecOn with
  | nil => rfl
  | append_singleton rs r ih =>
    have hr := h.bytes_newline (List.mem_append_right rs (List.mem_singleton_self r))
    have hbytes : ofRunes (rs ++ [r]) = ofRunes rs ++ r.bytes := by simp
    rw [hbytes]
    split_ifs at hr with hc
    · rw [hr, List.rtakeWhile_concat_neg _ _ _ (by simp [hc])]
      exact List.rtakeWhile_concat_neg _ _ _ (by decide)
    · rw [lastLine_append hr, ih h.left, List.rtakeWhile_concat_pos _ _ _ (by simp [hc])]
      simp

namespace Surql

variable {tokens : List Token} {e : ParseError}

/-! ## The place after a part of the source -/

/-- The column is one more than the length of the last line. -/
theorem Position.after_col {p : Position} (hp : p.col = 1) (rs : List Rune) :
    (p.after rs).col = 1 + (rs.rtakeWhile (·.char != '\n')).length := by
  induction rs using List.reverseRecOn with
  | nil => exact hp
  | append_singleton rs r ih =>
    rw [after_append]
    show ((p.after rs).next r).col = _
    by_cases hc : r.char = '\n'
    · rw [List.rtakeWhile_concat_neg _ _ _ (by simp [hc])]
      simp [next, hc]
    · rw [List.rtakeWhile_concat_pos _ _ _ (by simp [hc])]
      simp only [next, beq_eq_false_iff_ne.2 hc, Bool.false_eq_true, if_false, ih,
        List.length_append, List.length_singleton]
      omega

theorem Position.exact_after {src : Bytes} {front back : List Rune}
    (h : runes src = front ++ back) : (Position.start.after front).Exact src := by
  have hread : Readable (front ++ back) := h ▸ readable_runes src
  have hsrc : src = ofRunes front ++ ofRunes back := by
    rw [← ofRunes_append, ← h, ofRunes_runes]
  have hoffset : (Position.start.after front).offset = (ofRunes front).length := by
    rw [after_offset]
    exact Nat.zero_add _
  have htake : src.take (Position.start.after front).offset = ofRunes front := by
    rw [hoffset, hsrc, List.take_left]
  have hlast : Readable (front.rtakeWhile (·.char != '\n')) := by
    obtain ⟨before, hbefore⟩ := List.rtakeWhile_suffix (·.char != '\n') front
    have hfront := hread.left
    rw [← hbefore] at hfront
    exact hfront.right
  refine ⟨?_, ?_, ?_⟩
  · rw [hoffset, hsrc, List.length_append]
    omega
  · rw [htake, after_line, ← countP_newline, hread.left]
    rfl
  · rw [htake, after_col rfl, hread.left.lastLine_ofRunes, hlast]

/-! ## Tokens and errors -/

/-- A token starts after code points at the front of what is read. -/
theorem start_of_mem_tokensFrom {p : Position} (h : tokensFrom p rs = .ok tokens) :
    ∀ t ∈ tokens, ∃ front back, rs = front ++ back ∧ t.start = p.after front := by
  intro t ht
  obtain rfl | ⟨front, l, hrs, -, -, -, rfl⟩ := mem_tokensFrom h t ht
  · exact ⟨rs, [], (List.append_nil rs).symm, rfl⟩
  · exact ⟨front, _, hrs, rfl⟩

variable {src : Bytes}

theorem exact_of_mem_tokenize (h : tokenize src = .ok tokens) {t : Token} (ht : t ∈ tokens) :
    t.start.Exact src := by
  obtain ⟨front, back, hsplit, hstart⟩ := start_of_mem_tokensFrom h t ht
  rw [hstart]
  exact Position.exact_after hsplit

theorem exact_of_tokenize_error (h : tokenize src = .error e) : e.place.Exact src := by
  obtain ⟨front, back, -, hsplit, -, rfl⟩ := tokensFrom_eq_error h
  exact Position.exact_after hsplit

/-- The fault of brackets lies at a token. -/
theorem NestingFault.exists_token {own : List Token} (h : NestingFault own e) :
    ∃ t ∈ own, e.place = t.start := by
  cases h with
  | @closer before after t hown _ _ => exact ⟨t, by simp [hown], rfl⟩
  | @opener o _ ho =>
    obtain ⟨-, outer, inner, hown, -⟩ := ho
    exact ⟨o, by simp [hown], rfl⟩

/-- A span is made of tokens of the stream and closed where a token of the stream starts. -/
theorem token_of_mem_spans {spans : List Span} (hs : spansOf src = .ok spans) {span : Span}
    (hspan : span ∈ spans) (i : Nat) : ∃ tokens, tokenize src = .ok tokens ∧
    ∃ t ∈ tokens, (Passage.token ⟨src, span⟩ i).start = t.start := by
  obtain ⟨own, e, pieces, piece, ht, -, -, hpieces, hpiece, -, rfl⟩ := exists_piece_of_mem hs hspan
  have hmem : ∀ t ∈ piece.run ++ [piece.stop], t ∈ own ++ [e] := by
    intro t ht
    rw [← hpieces.joined]
    exact List.mem_flatMap.2 ⟨piece, hpiece, ht⟩
  refine ⟨_, ht, ?_⟩
  unfold Passage.token
  cases hi : piece.run[i]? with
  | none => exact ⟨piece.stop, hmem _ (by simp), rfl⟩
  | some t => exact ⟨t, hmem _ (List.mem_append_left _ (List.mem_of_getElem? hi)), rfl⟩

theorem exact_of_parse_error (h : parse src = .error e) : e.place.Exact src := by
  obtain h | ⟨spans, span, hs, hmem, hsound, -, fault, i, -, -, rfl, -⟩ := fails_of_parse h
  · obtain h | ⟨tokens, ht, h⟩ := bind_eq_error.1 h
    · exact exact_of_tokenize_error h
    obtain ⟨own, rfl, hkinds, -⟩ := tokenize_inOrder ht
    have hfault : NestingFault own e := Span.nestingFault_of_cut rfl hkinds (.nil .nil) (by simp) h
    obtain ⟨t, hown, hplace⟩ := hfault.exists_token
    rw [hplace]
    exact exact_of_mem_tokenize ht (List.mem_append_left _ hown)
  · obtain ⟨tokens, ht, t, htokens, hstart⟩ := token_of_mem_spans hs hmem i
    show (Passage.token ⟨src, span⟩ i).start.Exact src
    rw [hstart]
    exact exact_of_mem_tokenize ht htokens

/-- The place of every token, and of every error of reading tokens or statements, is exact. -/
theorem places_exact (src : Bytes) :
    (∀ tokens, tokenize src = .ok tokens → ∀ t ∈ tokens, t.start.Exact src) ∧
      (∀ e, tokenize src = .error e → e.place.Exact src) ∧
      ∀ e, parse src = .error e → e.place.Exact src :=
  ⟨fun _ h _ ht => exact_of_mem_tokenize h ht, fun _ h => exact_of_tokenize_error h,
    fun _ h => exact_of_parse_error h⟩

/-- A string over two lines that holds a broken byte, and a bracket after it. -/
def brokenSource : Bytes := ofString "'\n" ++ 0xFF :: ofString "é' )"

def brokenTokens : List Token :=
  [⟨.string, "\n�é", ⟨0, 1, 1⟩, 6⟩, ⟨.rparen, ")", ⟨7, 2, 5⟩, 8⟩, Token.endAt ⟨8, 2, 6⟩]

theorem places_exact_broken :
    tokenize brokenSource = .ok brokenTokens ∧ (⟨8, 2, 6⟩ : Position).Exact brokenSource ∧
      parse brokenSource = .error ⟨.unexpectedCloser .rparen, ⟨7, 2, 5⟩⟩ ∧
      (⟨7, 2, 5⟩ : Position).Exact brokenSource := by
  have htokens : tokenize brokenSource = .ok brokenTokens := by decide +kernel
  have hparse : parse brokenSource = .error ⟨.unexpectedCloser .rparen, ⟨7, 2, 5⟩⟩ :=
    bind_eq_error.2 (.inr ⟨_, htokens, bind_eq_error.2 (.inl (by decide +kernel))⟩)
  exact ⟨htokens, (places_exact _).1 _ htokens _ (List.mem_of_getLast? rfl), hparse,
    (places_exact _).2.2 _ hparse⟩

end Surql

end AccessLayer
