import AccessLayer.Proofs.Text.Parts
import AccessLayer.Query.Annotation
import Mathlib.Data.List.Forall2

/-!
# The form of annotations

What a line has to look like to declare a parameter, said by its parts: white space, a comment mark,
a dollar sign and a name, a colon and a type, with white space between them. A line can be put
together from such parts in one way at most, so its name and its type are well defined, and the
reader finds them.

* `Annotation.Form.text_injective`: the parts are determined by the line.
* `annotation?_eq_some_iff`: what is read from a line.
* `annotations_exact`: what is read from a text.
-/

namespace AccessLayer.Query

open Bytes

variable {line : Bytes} {v : Variable}

namespace Annotation

variable {p : UInt8 → Bool} {s t x : Bytes}

/-! ## Parts of a line -/

/-- A comment mark: two or more slashes, or one or more number signs. -/
def IsMark (s : Bytes) : Prop :=
  (∃ n, 2 ≤ n ∧ s = List.replicate n (byte '/')) ∨ ∃ n, 1 ≤ n ∧ s = List.replicate n (byte '#')

/-- White space, which may be missing. -/
abbrev Blanks := { s : Bytes // ∀ b ∈ s, isBlank b = true }

/-- A line that declares a parameter, by its parts. -/
@[ext] structure Form where
  indent : Blanks
  mark : { s : Bytes // IsMark s }
  beforeName : Blanks
  name : { s : Bytes // s ≠ [] ∧ ∀ b ∈ s, isNameByte b = true }
  beforeColon : Blanks
  beforeType : Blanks
  type : { s : Bytes // s ≠ [] ∧ ∀ b ∈ s, (!isBlank b) = true }
  trailing : Blanks

namespace Form

def fromType (f : Form) : Bytes := f.type.1 ++ f.trailing.1

def afterName (f : Form) : Bytes := f.beforeColon.1 ++ byte ':' :: (f.beforeType.1 ++ f.fromType)

def afterMark (f : Form) : Bytes := f.beforeName.1 ++ byte '$' :: (f.name.1 ++ f.afterName)

def text (f : Form) : Bytes := f.indent.1 ++ (f.mark.1 ++ f.afterMark)

/-- The parameter that the line declares. -/
def declared (f : Form) : Variable := ⟨f.name.1, f.type.1⟩

end Form

/-! ## Where a part ends -/

/-- Bytes that a comment mark is made of. -/
def isMarkByte (b : UInt8) : Bool := b == byte '/' || b == byte '#'

theorem IsMark.run {s : Bytes} (h : IsMark s) : ∀ b ∈ s, isMarkByte b := by
  obtain ⟨n, -, rfl⟩ | ⟨n, -, rfl⟩ := h <;> intro b hb <;> rw [List.eq_of_mem_replicate hb] <;> rfl

theorem IsMark.ne_nil (h : IsMark s) : s ≠ [] := by
  obtain ⟨n, hn, rfl⟩ | ⟨n, hn, rfl⟩ := h <;> rw [Ne, List.replicate_eq_nil_iff] <;> omega

/-- The classes of bytes do not overlap where one part follows another. -/
theorem classes_apart (b : UInt8) : (isBlank b → isMarkByte b = false ∧ isNameByte b = false) ∧
    (isMarkByte b → isBlank b = false) := by
  have hall : ∀ i : Fin 256, (isBlank (UInt8.ofFin i) = true →
      isMarkByte (UInt8.ofFin i) = false ∧ isNameByte (UInt8.ofFin i) = false) ∧
      (isMarkByte (UInt8.ofFin i) = true → isBlank (UInt8.ofFin i) = false) := by
    decide +kernel
  exact hall b.toFin

theorem head?_byte {c : UInt8} (hc : p c = false) (s : Bytes) :
    ∀ b ∈ (c :: s).head?, p b = false := by
  simpa using hc

/-- What white space and one more byte start with. -/
theorem head?_blanks (hp : ∀ b, isBlank b → p b = false) {c : UInt8} (hc : p c = false) (w : Blanks)
    (s : Bytes) : ∀ b ∈ (w.1 ++ c :: s).head?, p b = false := by
  obtain ⟨w, hw⟩ := w
  cases w with
  | nil => simpa using hc
  | cons b w => simpa using hp b (hw b List.mem_cons_self)

/-- What a part that is not empty starts with. -/
theorem head?_run {q : UInt8 → Bool} (hpq : ∀ b, p b → q b = false) (hne : x ≠ [])
    (hx : ∀ b ∈ x, p b) (s : Bytes) : ∀ b ∈ (x ++ s).head?, q b = false := by
  cases x with
  | nil => exact absurd rfl hne
  | cons b x => simpa using hpq b (hx b List.mem_cons_self)

namespace Form

variable (f : Form)

theorem head?_fromMark : ∀ b ∈ (f.mark.1 ++ f.afterMark).head?, isBlank b = false :=
  head?_run (fun b => (classes_apart b).2) f.mark.2.ne_nil f.mark.2.run _

theorem head?_afterMark : ∀ b ∈ f.afterMark.head?, isMarkByte b = false :=
  head?_blanks (fun b hb => ((classes_apart b).1 hb).1) (by decide) _ _

theorem head?_afterName : ∀ b ∈ f.afterName.head?, isNameByte b = false :=
  head?_blanks (fun b hb => ((classes_apart b).1 hb).2) (by decide) _ _

theorem head?_fromType : ∀ b ∈ f.fromType.head?, isBlank b = false :=
  head?_run (fun _ hb => by simpa using hb) f.type.2.1 f.type.2.2 _

theorem head?_trailing : ∀ b ∈ f.trailing.1.head?, (!isBlank b) = false := by
  intro b hb
  simpa using f.trailing.2 b (List.mem_of_mem_head? hb)

theorem text_injective : Function.Injective text := by
  intro f g h
  obtain ⟨hindent, h⟩ := run_unique f.indent.2 g.indent.2 f.head?_fromMark g.head?_fromMark h
  obtain ⟨hmark, h⟩ := run_unique f.mark.2.run g.mark.2.run f.head?_afterMark g.head?_afterMark h
  obtain ⟨hbeforeName, h⟩ := run_unique f.beforeName.2 g.beforeName.2 (head?_byte (by decide) _)
    (head?_byte (by decide) _) h
  obtain ⟨hname, h⟩ := run_unique f.name.2.2 g.name.2.2 f.head?_afterName g.head?_afterName
    (List.cons.inj h).2
  obtain ⟨hbeforeColon, h⟩ := run_unique f.beforeColon.2 g.beforeColon.2 (head?_byte (by decide) _)
    (head?_byte (by decide) _) h
  obtain ⟨hbeforeType, h⟩ :=
    run_unique f.beforeType.2 g.beforeType.2 f.head?_fromType g.head?_fromType
    (List.cons.inj h).2
  obtain ⟨htype, htrailing⟩ := run_unique f.type.2.2 g.type.2.2 f.head?_trailing g.head?_trailing h
  ext1 <;> exact Subtype.ext (by assumption)

end Form

/-! ## Readers of the parts -/

theorem skipBlanks_append {w : Bytes} (hw : ∀ b ∈ w, isBlank b)
    (hs : ∀ b ∈ s.head?, isBlank b = false) : skipBlanks (w ++ s) = s :=
  (takeWhile_run hw hs).2

theorem exists_blanks (s : Bytes) : ∃ w : Blanks, s = w.1 ++ skipBlanks s :=
  ⟨⟨s.takeWhile isBlank, fun _ => List.mem_takeWhile_imp⟩, List.takeWhile_append_dropWhile.symm⟩

theorem after?_eq_some_iff {b : UInt8} : after? b s = some t ↔ s = b :: t := by
  cases s with
  | nil => simp [after?]
  | cons c s => by_cases h : c = b <;> simp [after?, h]

theorem run?_append (hne : x ≠ []) (hx : ∀ b ∈ x, p b) (hs : ∀ b ∈ s.head?, p b = false) :
    run? p (x ++ s) = some (x, s) := by
  obtain ⟨htake, hdrop⟩ := takeWhile_run hx hs
  obtain ⟨b, x, rfl⟩ := List.exists_cons_of_ne_nil hne
  rw [run?, htake, hdrop]

theorem run?_eq_some (h : run? p s = some (x, t)) : s = x ++ t ∧ x ≠ [] ∧ ∀ b ∈ x, p b := by
  unfold run? at h
  split at h
  · cases h
  · next hne =>
    cases h
    exact ⟨List.takeWhile_append_dropWhile.symm, hne, fun _ => List.mem_takeWhile_imp⟩

theorem afterMark?_append {m : Bytes} (hm : IsMark m) (hs : ∀ b ∈ s.head?, isMarkByte b = false) :
    afterMark? (m ++ s) = some s := by
  have hrun : ∀ (n : Nat) (c : UInt8), isMarkByte c = true →
      (List.replicate n c ++ s).dropWhile (· == c) = s := by
    intro n c hc
    refine (takeWhile_run (fun b hb => ?_) fun b hb => ?_).2
    · rw [List.eq_of_mem_replicate hb, beq_self_eq_true]
    · rw [beq_eq_false_iff_ne]
      rintro rfl
      rw [hs b hb] at hc
      cases hc
  obtain ⟨n, hn, rfl⟩ | ⟨n, hn, rfl⟩ := hm
  · obtain ⟨n, rfl⟩ := Nat.exists_eq_add_of_le' hn
    exact congrArg some (hrun n (byte '/') rfl)
  · obtain ⟨n, rfl⟩ := Nat.exists_eq_add_of_le' hn
    exact congrArg some (hrun n (byte '#') rfl)

theorem exists_mark (h : afterMark? s = some t) : ∃ m, IsMark m ∧ s = m ++ t := by
  have hrun : ∀ (c : UInt8) (rest : Bytes), ∃ n,
      rest = List.replicate n c ++ rest.dropWhile (· == c) := by
    intro c rest
    refine ⟨(rest.takeWhile (· == c)).length, ?_⟩
    rw [← List.eq_replicate_of_mem fun b hb =>
      beq_iff_eq.1 (List.mem_takeWhile_imp (p := (· == c)) hb), List.takeWhile_append_dropWhile]
  unfold afterMark? at h
  split at h
  · next rest =>
    cases h
    obtain ⟨n, hn⟩ := hrun 47 rest
    exact ⟨List.replicate (n + 2) (byte '/'), .inl ⟨n + 2, by omega, rfl⟩,
      congrArg (47 :: 47 :: ·) hn⟩
  · next rest =>
    cases h
    obtain ⟨n, hn⟩ := hrun 35 rest
    exact ⟨List.replicate (n + 1) (byte '#'), .inr ⟨n + 1, by omega, rfl⟩, congrArg (35 :: ·) hn⟩
  · cases h

end Annotation

/-! ## Reading a line -/

open Annotation

/-- A line of the form declares the parameter with its name and its type. -/
theorem annotation?_text (f : Form) : annotation? f.text = some f.declared := by
  have hmark : afterMark? (skipBlanks f.text) = some f.afterMark := by
    rw [Form.text, skipBlanks_append f.indent.2 f.head?_fromMark,
      afterMark?_append f.mark.2 f.head?_afterMark]
  have hdollar : after? (byte '$') (skipBlanks f.afterMark) = some (f.name.1 ++ f.afterName) := by
    rw [Form.afterMark, skipBlanks_append f.beforeName.2 (head?_byte (by decide) _),
      after?_eq_some_iff]
  have hname := run?_append f.name.2.1 f.name.2.2 f.head?_afterName
  have hcolon : after? (byte ':') (skipBlanks f.afterName) =
      some (f.beforeType.1 ++ f.fromType) := by
    rw [Form.afterName, skipBlanks_append f.beforeColon.2 (head?_byte (by decide) _),
      after?_eq_some_iff]
  have htype : run? (!isBlank ·) (skipBlanks (f.beforeType.1 ++ f.fromType)) =
      some (f.type.1, f.trailing.1) := by
    rw [skipBlanks_append f.beforeType.2 f.head?_fromType]
    exact run?_append f.type.2.1 f.type.2.2 f.head?_trailing
  have hend : skipBlanks f.trailing.1 = [] := List.dropWhile_eq_nil_iff.2 f.trailing.2
  simp [annotation?, hmark, hdollar, hname, hcolon, htype, hend, Form.declared]

theorem exists_form (h : annotation? line = some v) :
    ∃ f : Form, f.text = line ∧ f.declared = v := by
  simp only [annotation?, Option.bind_eq_bind, Option.bind_eq_some_iff] at h
  obtain ⟨s, hmark, s', hdollar, ⟨name, s''⟩, hname, t, hcolon, ⟨type, t'⟩, htype, hend⟩ := h
  obtain ⟨indent, hindent⟩ := exists_blanks line
  obtain ⟨mark, hisMark, hmark⟩ := exists_mark hmark
  obtain ⟨beforeName, hbeforeName⟩ := exists_blanks s
  obtain ⟨hname, hne, hbytes⟩ := run?_eq_some hname
  obtain ⟨beforeColon, hbeforeColon⟩ := exists_blanks s''
  obtain ⟨beforeType, hbeforeType⟩ := exists_blanks t
  obtain ⟨htype, hne', hbytes'⟩ := run?_eq_some htype
  rw [after?_eq_some_iff] at hdollar hcolon
  dsimp only at hcolon hend
  split_ifs at hend with hempty
  have htrailing := List.dropWhile_eq_nil_iff.1 (List.isEmpty_iff.1 hempty)
  refine ⟨⟨indent, ⟨mark, hisMark⟩, beforeName, ⟨name, hne, hbytes⟩, beforeColon, beforeType,
    ⟨type, hne', hbytes'⟩, ⟨t', htrailing⟩⟩, ?_, Option.some.inj hend⟩
  rw [hindent, hmark, hbeforeName, hdollar, hname, hbeforeColon, hcolon, hbeforeType, htype]
  rfl

theorem annotation?_eq_some_iff :
    annotation? line = some v ↔ ∃ f : Form, f.text = line ∧ f.declared = v := by
  refine ⟨exists_form, ?_⟩
  rintro ⟨f, rfl, rfl⟩
  exact annotation?_text f

/-! ## Reading a text -/

/-- What is left of a line without the carriage returns at its end. -/
theorem stripReturns_eq_iff {body : Bytes} :
    stripReturns line = body ↔
      ∃ n, line = body ++ List.replicate n (byte '\r') ∧ body.getLast? ≠ some (byte '\r') := by
  constructor
  · rintro rfl
    have htake : line.reverse.takeWhile (· == byte '\r') = List.replicate _ (byte '\r') :=
      List.eq_replicate_of_mem fun b hb =>
        beq_iff_eq.1 (List.mem_takeWhile_imp (p := (· == byte '\r')) hb)
    refine ⟨(line.reverse.takeWhile (· == byte '\r')).length, ?_, ?_⟩
    · rw [stripReturns, ← List.reverse_replicate, ← htake, ← List.reverse_append,
        List.takeWhile_append_dropWhile, List.reverse_reverse]
    · rw [stripReturns, List.getLast?_reverse]
      intro hhead
      have := List.head?_dropWhile_not (· == byte '\r') line.reverse
      rw [hhead] at this
      simp at this
  · rintro ⟨n, rfl, hlast⟩
    have hdrop : (List.replicate n (byte '\r') ++ body.reverse).dropWhile (· == byte '\r') =
        body.reverse := by
      refine (takeWhile_run (fun b hb => ?_) fun b hb => ?_).2
      · rw [List.eq_of_mem_replicate hb, beq_self_eq_true]
      · rw [List.head?_reverse] at hb
        rw [beq_eq_false_iff_ne]
        rintro rfl
        exact hlast hb
    rw [stripReturns, List.reverse_append, List.reverse_replicate, hdrop, List.reverse_reverse]

/-- A line declares a parameter if it is of the form without the carriage returns at its end. -/
def Declares (line : Bytes) (v : Variable) : Prop :=
  ∃ (f : Form) (n : Nat), line = f.text ++ List.replicate n (byte '\r') ∧
    f.text.getLast? ≠ some (byte '\r') ∧ f.declared = v

theorem annotation?_stripReturns : annotation? (stripReturns line) = some v ↔ Declares line v := by
  rw [annotation?_eq_some_iff]
  constructor
  · rintro ⟨f, htext, hv⟩
    obtain ⟨n, hline, hlast⟩ := stripReturns_eq_iff.1 htext.symm
    exact ⟨f, n, hline, hlast, hv⟩
  · rintro ⟨f, n, hline, hlast, hv⟩
    exact ⟨f, (stripReturns_eq_iff.2 ⟨n, hline, hlast⟩).symm, hv⟩

theorem annotations_append (a b : Bytes) :
    annotations (a ++ byte '\n' :: b) = annotations a ++ annotations b := by
  rw [annotations, splitOn_append_sep, List.filterMap_append]
  rfl

/-- The parameters of a text are those of its lines, one after the other. A line declares at most
one, by its form, and a line is of the form in one way at most. -/
theorem annotations_exact :
    (∀ text, ∃ (lines : List Bytes) (declared : List (Option Variable)),
      lines ≠ [] ∧ join [byte '\n'] lines = text ∧ (∀ line ∈ lines, byte '\n' ∉ line) ∧
      List.Forall₂ (fun line o => ∀ v, o = some v ↔ Declares line v) lines declared ∧
      annotations text = declared.flatMap Option.toList) ∧
    Function.Injective Form.text ∧
    ∀ a b, annotations (a ++ byte '\n' :: b) = annotations a ++ annotations b := by
  refine ⟨fun text => ?_, Form.text_injective, annotations_append⟩
  refine ⟨splitOn (byte '\n') text,
    (splitOn (byte '\n') text).map fun line => annotation? (stripReturns line),
    splitOn_ne_nil _ _, join_splitOn _ _, fun _ => notMem_of_mem_splitOn, ?_, ?_⟩
  · rw [List.forall₂_map_right_iff, List.forall₂_same]
    exact fun line _ v => annotation?_stripReturns
  · rw [List.flatMap_map, annotations, List.filterMap_eq_flatMap_toList]

end AccessLayer.Query
