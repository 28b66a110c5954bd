import AccessLayer.Naming.Case
import AccessLayer.Proofs.Text.Utf8
import Mathlib.Data.List.TakeWhile

/-!
# Names made of words

A name in snake case is written in lower case with underscores between its words, and each word
starts with a letter that has an upper-case form. Such names are the regular ones: joined words show
where each word starts, so that two of them never become one identifier.

* `split_intercalate`: they are split into their words.
* `flatMap_capitalize_inj`: capitalized words can be told apart.
* `pascal_inj`: joined words tell names in snake case apart.
-/

namespace AccessLayer.Naming

variable {words : List (List Char)} {w cs : List Char} {c : Char}

/-- Whether a character can stand in a word: it is in lower case or has no case, and does not divide
words. -/
def isPlain (c : Char) : Bool := isIdentChar c && c != '_' && !isUpper c && toLower c == c

/-- Whether a character can start a word: it comes back from its upper-case form. -/
def startsWord (c : Char) : Bool := isUpper (toUpper c) && toLower (toUpper c) == c

def isWord (w : List Char) : Bool := w.head?.any startsWord && w.all isPlain

def IsSnake (name : Bytes) : Prop :=
  ∃ words : List (List Char), words ≠ [] ∧ words.all isWord = true ∧
    name = Bytes.ofChars (['_'].intercalate words)

/-! ## Words -/

theorem isPlain_iff : isPlain c ↔ isIdentChar c ∧ c ≠ '_' ∧ isUpper c = false ∧ toLower c = c := by
  simp [isPlain, and_assoc]

theorem isWord_cons :
    isWord (c :: cs) ↔
      (isUpper (toUpper c) ∧ toLower (toUpper c) = c) ∧ isPlain c ∧ ∀ d ∈ cs, isPlain d := by
  simp [isWord, startsWord]

theorem exists_cons_of_isWord (h : isWord w) : ∃ c cs, w = c :: cs := by
  cases w with
  | nil => cases h
  | cons c cs => exact ⟨c, cs, rfl⟩

theorem isPlain_of_mem (h : isWord w) : ∀ c ∈ w, isPlain c :=
  List.all_eq_true.1 (Bool.and_eq_true_iff.1 h).2

theorem split_underscore (rest : List Char) : split ('_' :: rest) = [] :: split rest := by
  cases rest <;> rfl

/-- A plain character is put in front of the word after it, unless an upper-case letter starts that
word. -/
theorem split_cons_of_isPlain {ws : List (List Char)} (hc : isPlain c)
    (hhead : cs.head?.all (fun d => !isUpper d)) (hsplit : split cs = w :: ws) :
    split (c :: cs) = (c :: w) :: ws := by
  have hbar : (c == '_') = false := beq_eq_false_iff_ne.2 (isPlain_iff.1 hc).2.1
  cases cs with
  | nil =>
    rw [split, List.cons.injEq] at hsplit
    rw [split, hbar, if_neg Bool.false_ne_true, ← hsplit.1, ← hsplit.2]
  | cons d cs =>
    have hd : isUpper d = false := by simpa using hhead
    rw [split, hbar, if_neg Bool.false_ne_true]
    simp only [hd, Bool.false_eq_true, if_false, hsplit]

/-- Plain characters up to an underscore, or to the end, are one word. -/
theorem split_plain (h : ∀ c ∈ w, isPlain c) :
    split w = [w] ∧ ∀ rest, split (w ++ '_' :: rest) = w :: split rest := by
  induction w with
  | nil => exact ⟨rfl, split_underscore⟩
  | cons c w ih =>
    obtain ⟨hc, hw⟩ := List.forall_mem_cons.1 h
    obtain ⟨hend, hbefore⟩ := ih hw
    have hhead : ∀ t : List Char, t.head?.all (fun d => !isUpper d) = true →
        (w ++ t).head?.all (fun d => !isUpper d) = true := by
      intro t ht
      cases w with
      | nil => exact ht
      | cons d w => simp [(isPlain_iff.1 (hw d (List.mem_cons_self ..))).2.2.1]
    refine ⟨split_cons_of_isPlain hc ?_ hend, fun rest =>
      split_cons_of_isPlain hc (hhead _ rfl) (hbefore rest)⟩
    simpa using hhead [] rfl

theorem intercalate_cons_cons (w v : List Char) (words : List (List Char)) :
    ['_'].intercalate (w :: v :: words) = w ++ '_' :: ['_'].intercalate (v :: words) := by
  simp [List.intercalate]

theorem split_intercalate (hne : words ≠ []) (h : words.all isWord) :
    split (['_'].intercalate words) = words := by
  induction words with
  | nil => exact absurd rfl hne
  | cons w words ih =>
    rw [List.all_cons, Bool.and_eq_true] at h
    have hsplit := split_plain (isPlain_of_mem h.1)
    cases words with
    | nil => simpa using hsplit.1
    | cons v words => rw [intercalate_cons_cons, hsplit.2, ih (by simp) h.2]

/-- A capitalized word has its only upper-case letter in front. -/
theorem capitalize_of_isWord (h : isWord (c :: cs)) : capitalize (c :: cs) = toUpper c :: cs := by
  have hsame : cs.map toLower = cs.map id :=
    List.map_congr_left fun d hd => (isPlain_iff.1 ((isWord_cons.1 h).2.2 d hd)).2.2.2
  rw [capitalize, hsame, List.map_id]

/-- Joined words are empty or start with an upper-case letter. -/
theorem head?_flatMap_capitalize (h : words.all isWord) :
    (words.flatMap capitalize).head?.all isUpper := by
  cases words with
  | nil => rfl
  | cons w words =>
    rw [List.all_cons, Bool.and_eq_true] at h
    obtain ⟨c, cs, rfl⟩ := exists_cons_of_isWord h.1
    rw [List.flatMap_cons, capitalize_of_isWord h.1]
    exact (isWord_cons.1 h.1).1.1

theorem takeWhile_append_upper {rest : List Char} (hcs : ∀ c ∈ cs, isPlain c)
    (hrest : rest.head?.all isUpper) : (cs ++ rest).takeWhile (fun c => !isUpper c) = cs := by
  rw [List.takeWhile_append_of_pos fun c hc => by simp [(isPlain_iff.1 (hcs c hc)).2.2.1]]
  cases rest with
  | nil => simp
  | cons c rest => simp [show isUpper c = true from hrest]

/-- Where plain characters end is seen from the upper-case letter after them. -/
theorem append_inj_of_upper {ds rest rest' : List Char} (hcs : ∀ c ∈ cs, isPlain c)
    (hds : ∀ d ∈ ds, isPlain d) (hrest : rest.head?.all isUpper)
    (hrest' : rest'.head?.all isUpper) (h : cs ++ rest = ds ++ rest') : cs = ds ∧ rest = rest' := by
  have hsame : cs = ds := by
    rw [← takeWhile_append_upper hcs hrest, h, takeWhile_append_upper hds hrest']
  subst hsame
  exact ⟨rfl, List.append_cancel_left h⟩

theorem flatMap_capitalize_inj {words' : List (List Char)} (h : words.all isWord)
    (h' : words'.all isWord) (heq : words.flatMap capitalize = words'.flatMap capitalize) :
    words = words' := by
  induction words generalizing words' with
  | nil =>
    cases words' with
    | nil => rfl
    | cons v words' =>
      rw [List.all_cons, Bool.and_eq_true] at h'
      obtain ⟨d, ds, rfl⟩ := exists_cons_of_isWord h'.1
      simp [capitalize] at heq
  | cons w words ih =>
    rw [List.all_cons, Bool.and_eq_true] at h
    obtain ⟨c, cs, rfl⟩ := exists_cons_of_isWord h.1
    cases words' with
    | nil => simp [capitalize] at heq
    | cons v words' =>
      rw [List.all_cons, Bool.and_eq_true] at h'
      obtain ⟨d, ds, rfl⟩ := exists_cons_of_isWord h'.1
      obtain ⟨hc, -, hcs⟩ := isWord_cons.1 h.1
      obtain ⟨hd, -, hds⟩ := isWord_cons.1 h'.1
      rw [List.flatMap_cons, List.flatMap_cons, capitalize_of_isWord h.1, capitalize_of_isWord h'.1,
        List.cons_append, List.cons_append, List.cons.injEq] at heq
      have hletter : c = d := by rw [← hc.2, heq.1, hd.2]
      obtain ⟨hrest, hwords⟩ := append_inj_of_upper hcs hds (head?_flatMap_capitalize h.2)
        (head?_flatMap_capitalize h'.2) heq.2
      rw [hletter, hrest, ih h.2 h'.2 hwords]

/-! ## Names -/

/-- A name in snake case has no characters to replace. -/
theorem identChars_intercalate (h : words.all isWord) :
    identChars (Bytes.ofChars (['_'].intercalate words)) = ['_'].intercalate words := by
  have hident : ∀ c ∈ ['_'].intercalate words, isIdentChar c = true := by
    induction words with
    | nil => simp [List.intercalate]
    | cons w words ih =>
      rw [List.all_cons, Bool.and_eq_true] at h
      have hw : ∀ c ∈ w, isIdentChar c = true := fun c hc =>
        (isPlain_iff.1 (isPlain_of_mem h.1 c hc)).1
      cases words with
      | nil => simpa [List.intercalate] using hw
      | cons v words =>
        rw [intercalate_cons_cons, List.forall_mem_append, List.forall_mem_cons]
        exact ⟨hw, rfl, ih h.2⟩
  rw [identChars, Bytes.chars_ofChars]
  exact (List.map_congr_left fun c hc => if_pos (hident c hc)).trans (List.map_id _)

theorem pascal_intercalate (hne : words ≠ []) (h : words.all isWord) :
    pascal (Bytes.ofChars (['_'].intercalate words)) =
      Bytes.ofChars (words.flatMap capitalize) := by
  rw [pascal, identChars_intercalate h, split_intercalate hne h]

theorem pascal_inj {m n : Bytes} (hm : IsSnake m) (hn : IsSnake n) (h : pascal m = pascal n) :
    m = n := by
  obtain ⟨words, hne, hwords, rfl⟩ := hm
  obtain ⟨words', hne', hwords', rfl⟩ := hn
  rw [pascal_intercalate hne hwords, pascal_intercalate hne' hwords'] at h
  rw [flatMap_capitalize_inj hwords hwords' (Bytes.ofChars_inj h)]

end AccessLayer.Naming
