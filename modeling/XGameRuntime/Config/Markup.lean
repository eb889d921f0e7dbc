import XGameRuntime.Bytes.Slices

/-! # XML documents

A document as the row of its tags, texts, comments and instructions, how it is written down, and
what it says of an element. Of well-formedness there is what says where a `<` may stand, and that
tags are nested.
-/

namespace XGameRuntime.Config
open Bytes
set_option autoImplicit false

/-- A character of a text as it stands there, or a reference `&name;` to other characters. -/
inductive Piece where
  | char (c : Char)
  | ref (name value : List Char)
  deriving DecidableEq, Repr

namespace Piece

def render : Piece → List Char
  | .char c => [c]
  | .ref name _ => '&' :: name ++ [';']

def value : Piece → List Char
  | .char c => [c]
  | .ref _ value => value

def WellFormed : Piece → Prop
  | .char c => c ≠ '<' ∧ c ≠ '&'
  | .ref name _ => '<' ∉ name

end Piece

/-- An attribute, with the blanks before it and around its equals sign. -/
structure Attribute where
  blanks : List Char
  name : List Char
  equals : List Char
  quote : Char
  value : List Char
  deriving DecidableEq, Repr

namespace Attribute

def render (a : Attribute) : List Char :=
  a.blanks ++ a.name ++ a.equals ++ a.quote :: a.value ++ [a.quote]

end Attribute

/-- A character that may stand in a name. -/
def isNameChar (c : Char) : Bool :=
  !isWhitespace c && !(['<', '>', '/', '=', '&', '"', '\'', '!', '?'].contains c)

structure Attribute.WellFormed (a : Attribute) : Prop where
  blank : a.blanks ≠ [] ∧ ∀ c ∈ a.blanks, isWhitespace c
  name : a.name ≠ [] ∧ ∀ c ∈ a.name, isNameChar c
  equals : ∀ c ∈ a.equals, isWhitespace c ∨ c = '='
  quote : a.quote = '"' ∨ a.quote = '\''
  value : '<' ∉ a.value ∧ a.quote ∉ a.value

/-- What a document is a row of. -/
inductive Markup where
  | text (pieces : List Piece)
  | comment (content : List Char)
  | cdata (content : List Char)
  | instruction (content : List Char)
  | doctype (content : List Char)
  | opening (name : List Char) (attributes : List Attribute) (blanks : List Char)
  | empty (name : List Char) (attributes : List Attribute) (blanks : List Char)
  | closing (name blanks : List Char)
  deriving DecidableEq, Repr

namespace Markup

/-- A start tag without its end: `<name a="b" `. -/
def tagStart (name : List Char) (attributes : List Attribute) (blanks : List Char) : List Char :=
  '<' :: name ++ attributes.flatMap Attribute.render ++ blanks

def render : Markup → List Char
  | .text pieces => pieces.flatMap Piece.render
  | .comment content => ['<', '!', '-', '-'] ++ content ++ ['-', '-', '>']
  | .cdata content => ['<', '!', '[', 'C', 'D', 'A', 'T', 'A', '['] ++ content ++ [']', ']', '>']
  | .instruction content => ['<', '?'] ++ content ++ ['?', '>']
  | .doctype content => ['<', '!', 'D', 'O', 'C', 'T', 'Y', 'P', 'E'] ++ content ++ ['>']
  | .opening name attributes blanks => tagStart name attributes blanks ++ ['>']
  | .empty name attributes blanks => tagStart name attributes blanks ++ ['/', '>']
  | .closing name blanks => ['<', '/'] ++ name ++ blanks ++ ['>']

def IsName (name : List Char) : Prop := name ≠ [] ∧ ∀ c ∈ name, isNameChar c

def WellFormed : Markup → Prop
  | .text pieces => ∀ p ∈ pieces, p.WellFormed
  | .comment content => ¬['-', '-'] <:+: content ++ ['-']
  | .cdata content => ¬[']', ']', '>'] <:+: content
  | .instruction content => ¬['?', '>'] <:+: content
  | .doctype content => content.head?.any isWhitespace
  | .opening name attributes blanks =>
      IsName name ∧ (∀ a ∈ attributes, a.WellFormed) ∧ ∀ c ∈ blanks, isWhitespace c
  | .empty name attributes blanks =>
      IsName name ∧ (∀ a ∈ attributes, a.WellFormed) ∧ ∀ c ∈ blanks, isWhitespace c
  | .closing name blanks => IsName name ∧ ∀ c ∈ blanks, isWhitespace c

instance : (p : Piece) → Decidable p.WellFormed
  | .char c => inferInstanceAs (Decidable (c ≠ '<' ∧ c ≠ '&'))
  | .ref name _ => inferInstanceAs (Decidable ('<' ∉ name))

instance (name : List Char) : Decidable (IsName name) :=
  inferInstanceAs (Decidable (name ≠ [] ∧ ∀ c ∈ name, isNameChar c))

instance (a : Attribute) : Decidable a.WellFormed :=
  decidable_of_iff ((a.blanks ≠ [] ∧ ∀ c ∈ a.blanks, isWhitespace c) ∧
      (a.name ≠ [] ∧ ∀ c ∈ a.name, isNameChar c) ∧ (∀ c ∈ a.equals, isWhitespace c ∨ c = '=') ∧
      (a.quote = '"' ∨ a.quote = '\'') ∧ '<' ∉ a.value ∧ a.quote ∉ a.value)
    ⟨fun ⟨blank, name, equals, quote, value⟩ => ⟨blank, name, equals, quote, value⟩,
      fun ⟨blank, name, equals, quote, value⟩ => ⟨blank, name, equals, quote, value⟩⟩

instance : (t : Markup) → Decidable t.WellFormed
  | .text pieces => inferInstanceAs (Decidable (∀ p ∈ pieces, p.WellFormed))
  | .comment content => inferInstanceAs (Decidable ¬['-', '-'] <:+: content ++ ['-'])
  | .cdata content => inferInstanceAs (Decidable ¬[']', ']', '>'] <:+: content)
  | .instruction content => inferInstanceAs (Decidable ¬['?', '>'] <:+: content)
  | .doctype content => inferInstanceAs (Decidable (content.head?.any isWhitespace = true))
  | .opening name attributes blanks =>
      inferInstanceAs (Decidable (IsName name ∧ (∀ a ∈ attributes, a.WellFormed) ∧
        ∀ c ∈ blanks, isWhitespace c))
  | .empty name attributes blanks =>
      inferInstanceAs (Decidable (IsName name ∧ (∀ a ∈ attributes, a.WellFormed) ∧
        ∀ c ∈ blanks, isWhitespace c))
  | .closing name blanks => inferInstanceAs (Decidable (IsName name ∧ ∀ c ∈ blanks, isWhitespace c))

/-- The characters that a piece of markup adds to the text around it. -/
def chars : Markup → List Char
  | .text pieces => pieces.flatMap Piece.value
  | .cdata content => content
  | _ => []

end Markup

open Markup

/-- Every tag that is opened is closed, in the opposite order; `tags` are those still open. -/
def Nested : List (List Char) → List Markup → Prop
  | tags, [] => tags = []
  | tags, .opening name _ _ :: rest => Nested (name :: tags) rest
  | tags, .closing name _ :: rest => ∃ outer, tags = name :: outer ∧ Nested outer rest
  | tags, _ :: rest => Nested tags rest

structure Document where
  markup : List Markup
  wellFormed : ∀ t ∈ markup, t.WellFormed
  nested : Nested [] markup

def Document.render (doc : Document) : String :=
  String.ofList (doc.markup.flatMap Markup.render)

/-! ## Elements -/

/-- What stands in front of the end tag, with `depth` tags opened in between. -/
def contentOf : ℕ → List Markup → List Markup
  | _, [] => []
  | 0, .closing _ _ :: _ => []
  | depth + 1, .closing name blanks :: rest => .closing name blanks :: contentOf depth rest
  | depth, .opening name attributes blanks :: rest =>
      .opening name attributes blanks :: contentOf (depth + 1) rest
  | depth, t :: rest => t :: contentOf depth rest

/-- The text of the first element of that name. -/
def elementText (tag : List Char) : List Markup → Option (List Char)
  | [] => none
  | .opening name _ _ :: rest =>
      if name = tag then some ((contentOf 0 rest).flatMap Markup.chars) else elementText tag rest
  | .empty name _ _ :: rest => if name = tag then some [] else elementText tag rest
  | _ :: rest => elementText tag rest

/-! ## Where a tag can be found -/

section Places
variable {name tag : List Char} {attributes : List Attribute} {blanks : List Char} {c : Char}

/-- A character that neither a name nor the syntax of an attribute has. -/
structure Foreign (c : Char) : Prop where
  name : isNameChar c = false
  blank : isWhitespace c = false
  syntax_ : c ≠ '=' ∧ c ≠ '"' ∧ c ≠ '\''

theorem foreign_lt : Foreign '<' := ⟨by decide, by decide, by decide⟩

theorem foreign_gt : Foreign '>' := ⟨by decide, by decide, by decide⟩

theorem Foreign.notMem_name (hc : Foreign c) (h : IsName name) : c ∉ name := by
  intro hin
  have hname := h.2 c hin
  rw [hc.name] at hname
  cases hname

theorem Foreign.notMem_blanks (hc : Foreign c) (h : ∀ d ∈ blanks, isWhitespace d) : c ∉ blanks := by
  intro hin
  have hblank := h c hin
  rw [hc.blank] at hblank
  cases hblank

theorem Foreign.notMem_attribute (hc : Foreign c) {a : Attribute} (h : a.WellFormed)
    (hvalue : c ∉ a.value) : c ∉ a.render := by
  have hblanks := hc.notMem_blanks h.blank.2
  have hname := hc.notMem_name h.name
  have hequals : c ∉ a.equals := by
    intro hin
    obtain hblank | heq := h.equals c hin
    · rw [hc.blank] at hblank
      cases hblank
    · exact hc.syntax_.1 heq
  have hquote : c ≠ a.quote := by
    obtain hq | hq := h.quote
    · rw [hq]
      exact hc.syntax_.2.1
    · rw [hq]
      exact hc.syntax_.2.2
  simp only [Attribute.render, List.mem_append, List.mem_cons, List.not_mem_nil, or_false, not_or]
  exact ⟨⟨⟨⟨hblanks, hname⟩, hequals⟩, hquote, hvalue⟩, hquote⟩

theorem Foreign.notMem_tag (hc : Foreign c) (hname : IsName name)
    (hattributes : ∀ a ∈ attributes, a.WellFormed) (hvalues : ∀ a ∈ attributes, c ∉ a.value)
    (hblanks : ∀ d ∈ blanks, isWhitespace d) :
    c ∉ name ++ attributes.flatMap Attribute.render ++ blanks := by
  intro hin
  rw [List.mem_append, List.mem_append, List.mem_flatMap] at hin
  obtain (hin | ⟨a, ha, hin⟩) | hin := hin
  · exact hc.notMem_name hname hin
  · exact hc.notMem_attribute (hattributes a ha) (hvalues a ha) hin
  · exact hc.notMem_blanks hblanks hin

theorem lt_notMem_text {pieces : List Piece} (h : ∀ p ∈ pieces, p.WellFormed) :
    '<' ∉ pieces.flatMap Piece.render := by
  rw [List.mem_flatMap]
  rintro ⟨p, hp, hin⟩
  have hwf := h p hp
  cases p with
  | char c =>
    obtain rfl := List.mem_singleton.mp hin
    exact hwf.1 rfl
  | ref name value =>
    simp only [Piece.render, List.mem_append, List.mem_cons, List.not_mem_nil, or_false] at hin
    obtain (hin | hin) | hin := hin
    · exact absurd hin (by decide)
    · exact hwf hin
    · exact absurd hin (by decide)

/-- All markup but text ends with a `>`. -/
theorem render_cases {t : Markup} (h : t.WellFormed) :
    '<' ∉ t.render ∨ ∃ front, t.render = front ++ ['>'] := by
  cases t with
  | text pieces => exact .inl (lt_notMem_text h)
  | comment content => exact .inr ⟨_, (List.append_assoc _ ['-', '-'] ['>']).symm⟩
  | cdata content => exact .inr ⟨_, (List.append_assoc _ [']', ']'] ['>']).symm⟩
  | instruction content => exact .inr ⟨_, (List.append_assoc _ ['?'] ['>']).symm⟩
  | doctype content => exact .inr ⟨_, rfl⟩
  | opening name attributes blanks => exact .inr ⟨tagStart name attributes blanks, rfl⟩
  | empty name attributes blanks => exact .inr ⟨_, (List.append_assoc _ ['/'] ['>']).symm⟩
  | closing name blanks => exact .inr ⟨['<', '/'] ++ name ++ blanks, rfl⟩

/-- What no piece of markup has in itself does not begin in it. -/
theorem absent_markup {pat : List Char} (hpat : '>' ∉ ('<' :: pat).dropLast) {ts : List Markup}
    (hwf : ∀ t ∈ ts, t.WellFormed) (h : ∀ t ∈ ts, ¬ '<' :: pat <:+: t.render) (rest : List Char) :
    Absent ('<' :: pat) (ts.flatMap Markup.render) rest := by
  induction ts with
  | nil => exact absent_nil
  | cons t ts ih =>
    obtain ⟨htwf, htswf⟩ := List.forall_mem_cons.mp hwf
    obtain ⟨ht, hts⟩ := List.forall_mem_cons.mp h
    rw [List.flatMap_cons]
    refine Absent.append ?_ (ih htswf hts)
    obtain hlt | ⟨front, hfront⟩ := render_cases htwf
    · exact absent_of_notMem hlt
    · rw [hfront] at ht ⊢
      exact absent_of_last hpat ht

/-- The tags of an element have its name in them. -/
theorem tag_infix (rest : List Char) : '<' :: tag <:+: tagStart tag attributes blanks ++ rest := by
  refine List.IsPrefix.isInfix ⟨attributes.flatMap Attribute.render ++ blanks ++ rest, ?_⟩
  simp [tagStart]

/-- Markup that does not have the tag in it is passed over. -/
theorem elementText_append {ts rest : List Markup} (h : ∀ t ∈ ts, ¬ '<' :: tag <:+: t.render) :
    elementText tag (ts ++ rest) = elementText tag rest := by
  induction ts with
  | nil => rfl
  | cons t ts ih =>
    obtain ⟨ht, hts⟩ := List.forall_mem_cons.mp h
    rw [List.cons_append]
    cases t with
    | opening name attributes blanks =>
      have hne : name ≠ tag := fun he => ht (he ▸ tag_infix _)
      rw [elementText, if_neg hne, ih hts]
    | empty name attributes blanks =>
      have hne : name ≠ tag := fun he => ht (he ▸ tag_infix _)
      rw [elementText, if_neg hne, ih hts]
    | text pieces => exact ih hts
    | comment content => exact ih hts
    | cdata content => exact ih hts
    | instruction content => exact ih hts
    | doctype content => exact ih hts
    | closing name blanks => exact ih hts

end Places

end XGameRuntime.Config
