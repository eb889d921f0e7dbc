import XGameRuntime.Config.Markup

/-! # The title's configuration

How the title id and the application id are read out of `MicrosoftGame.Config`
(`src/com/xgame.rs`, `src/ipc.rs`): by searching its text.
-/

namespace XGameRuntime.Config
open Bytes Markup
set_option autoImplicit false

def TitleId : List Char := ['T', 'i', 't', 'l', 'e', 'I', 'd']
def MSAAppId : List Char := ['M', 'S', 'A', 'A', 'p', 'p', 'I', 'd']

/-- `</tag>`. -/
def endTag (tag : List Char) : List Char := ['<', '/'] ++ tag ++ ['>']

/-- The search that both parsers begin with: from the first `<tag` to the next `>`, and from there
to the next `</tag>`. Offsets are in characters. -/
def scanElement (tag contents : List Char) : Option (List Char) := do
  let start ← find ('<' :: tag) contents
  let openEnd := (← find ['>'] (contents.drop start)) + start + 1
  let close := (← find (endTag tag) (contents.drop openEnd)) + openEnd
  some (trim ((contents.take close).drop openEnd))

def parseTitleIdFromConfig (contents : String) : Option ℕ := do
  let text ← scanElement TitleId contents.toList
  if (String.ofList text).utf8ByteSize ≠ 8 then none
  else fromStrRadix16 (2 ^ 32) (String.ofList text)

def parseMsaAppIdFromConfig (contents : String) : Option String := do
  let text ← scanElement MSAAppId contents.toList
  if text = [] then none else some (String.ofList text)

/-! ## What the document says -/

/-- Eight hexadecimal digits as a number. -/
def eightDigits (text : List Char) : Option ℕ :=
  if text.length = 8 ∧ ∀ c ∈ text, (toDigit16 c).isSome then
    some (text.foldl (fun n c => n * 16 + (toDigit16 c).getD 0) 0)
  else none

def titleIdOf (doc : Document) : Option ℕ :=
  (elementText TitleId doc.markup).bind fun text => eightDigits (trim text)

def msaAppIdOf (doc : Document) : Option String :=
  (elementText MSAAppId doc.markup).bind fun text =>
    if trim text = [] then none else some (String.ofList (trim text))

/-! ## Documents that the search reads as they are -/

def plainText (cs : List Char) : Markup := .text (cs.map Piece.char)

/-- The tag is nowhere in the document; or what first has it in it is the start tag of an element
of plain text, or an empty element that no end tag follows; or there is neither an element of that
name nor an end tag. -/
inductive Readable (tag : List Char) : List Markup → Prop where
  | absent {ts : List Markup} (h : ∀ t ∈ ts, ¬ '<' :: tag <:+: t.render) : Readable tag ts
  | element {before rest : List Markup} {attributes : List Attribute} {blanks : List Char}
      (texts : List (List Char)) (h : ∀ t ∈ before, ¬ '<' :: tag <:+: t.render)
      (hvalues : ∀ a ∈ attributes, '>' ∉ a.value) :
      Readable tag (before ++ .opening tag attributes blanks ::
        (texts.map plainText ++ .closing tag [] :: rest))
  | empty {before rest : List Markup} {attributes : List Attribute} {blanks : List Char}
      (h : ∀ t ∈ before, ¬ '<' :: tag <:+: t.render)
      (hrest : ∀ t ∈ rest, ¬endTag tag <:+: t.render) :
      Readable tag (before ++ .empty tag attributes blanks :: rest)
  | other {ts : List Markup} (h : elementText tag ts = none)
      (hend : ∀ t ∈ ts, ¬endTag tag <:+: t.render) : Readable tag ts

section Scan
variable {tag : List Char}

theorem scanElement_eq {before start content rest : List Char}
    (hbefore : Absent ('<' :: tag) before (start ++ '>' :: (content ++ (endTag tag ++ rest))))
    (hstart : '<' :: tag <+: start) (hgt : '>' ∉ start)
    (hcontent : Absent (endTag tag) content (endTag tag ++ rest)) :
    scanElement tag (before ++ (start ++ '>' :: (content ++ (endTag tag ++ rest)))) =
      some (trim content) := by
  have hfirst : find ('<' :: tag) (before ++ (start ++ '>' :: (content ++ (endTag tag ++ rest)))) =
      some before.length := by
    rw [find_append hbefore, find_of_prefix (hstart.trans (List.prefix_append _ _)),
      Option.map_some, Nat.zero_add]
  have hend : ['>'] <+: '>' :: (content ++ (endTag tag ++ rest)) := ⟨_, rfl⟩
  have hsecond : find ['>'] (start ++ '>' :: (content ++ (endTag tag ++ rest))) =
      some start.length := by
    rw [find_append (absent_of_notMem hgt), find_of_prefix hend,
      Option.map_some, Nat.zero_add]
  have hthird : find (endTag tag) (content ++ (endTag tag ++ rest)) = some content.length := by
    rw [find_append hcontent, find_of_prefix (List.prefix_append _ _), Option.map_some,
      Nat.zero_add]
  have hafter : ∀ tail : List Char,
      (before ++ (start ++ '>' :: tail)).drop (start.length + before.length + 1) = tail := by
    intro tail
    have hlen : (before ++ start ++ ['>']).length = start.length + before.length + 1 := by
      simp only [List.length_append, List.length_singleton]
      omega
    have hsplit : before ++ (start ++ '>' :: tail) = (before ++ start ++ ['>']) ++ tail := by
      simp only [List.append_assoc, List.cons_append, List.nil_append]
    rw [hsplit, List.drop_left' hlen]
  have htext : ((before ++ (start ++ '>' :: (content ++ (endTag tag ++ rest)))).take
      (content.length + (start.length + before.length + 1))).drop
        (start.length + before.length + 1) = content := by
    rw [List.drop_take, hafter, Nat.add_sub_cancel, List.take_left' rfl]
  rw [scanElement, hfirst]
  simp only [Option.bind_eq_bind, Option.bind_some]
  rw [List.drop_left' rfl, hsecond, Option.bind_some, hafter, hthird, Option.bind_some, htext]

/-- Where no end tag begins behind the place that the search starts from. -/
theorem scanElement_none {front tail : List Char} {p : ℕ}
    (hfirst : find ('<' :: tag) (front ++ tail) = some p) (hp : front.length ≤ p + 1)
    (h : Absent (endTag tag) tail []) : scanElement tag (front ++ tail) = none := by
  have hne : endTag tag ≠ [] := List.cons_ne_nil _ _
  rw [scanElement, hfirst]
  simp only [Option.bind_eq_bind, Option.bind_some]
  cases find ['>'] ((front ++ tail).drop p) with
  | none => rfl
  | some q =>
    have hdrop : (front ++ tail).drop (q + p + 1) = tail.drop (q + p + 1 - front.length) := by
      rw [List.drop_append, List.drop_eq_nil_of_le (by omega), List.nil_append]
    have hsuffix : Absent (endTag tag) (tail.drop (q + p + 1 - front.length)) [] := by
      have hsplit : Absent (endTag tag) (tail.take (q + p + 1 - front.length) ++
          tail.drop (q + p + 1 - front.length)) [] := by
        rwa [List.take_append_drop]
      exact hsplit.suffix
    rw [Option.bind_some, hdrop, find_none hne hsuffix]
    rfl

theorem plainText_chars (cs : List Char) : (plainText cs).chars = cs := by
  induction cs with
  | nil => rfl
  | cons c cs ih =>
    show c :: (plainText cs).chars = c :: cs
    rw [ih]

theorem plainText_render (cs : List Char) : (plainText cs).render = cs := by
  induction cs with
  | nil => rfl
  | cons c cs ih =>
    show c :: (plainText cs).render = c :: cs
    rw [ih]

theorem flatMap_plainText {f : Markup → List Char} (hf : ∀ cs, f (plainText cs) = cs)
    (texts : List (List Char)) : (texts.map plainText).flatMap f = texts.flatten := by
  induction texts with
  | nil => rfl
  | cons cs texts ih => rw [List.map_cons, List.flatMap_cons, hf, ih, List.flatten_cons]

theorem contentOf_texts (texts : List (List Char)) (name blanks : List Char) (rest : List Markup) :
    contentOf 0 (texts.map plainText ++ .closing name blanks :: rest) = texts.map plainText := by
  induction texts with
  | nil => rfl
  | cons cs texts ih =>
    show plainText cs :: contentOf 0 (texts.map plainText ++ .closing name blanks :: rest) =
      plainText cs :: texts.map plainText
    rw [ih]

/-- The search finds the trimmed text of the first element, or nothing where that is empty. -/
theorem scanElement_render {ts : List Markup} (htag : IsName tag) (hwf : ∀ t ∈ ts, t.WellFormed)
    (h : Readable tag ts) :
    scanElement tag (ts.flatMap Markup.render) = (elementText tag ts).map trim ∨
      scanElement tag (ts.flatMap Markup.render) = none ∧ elementText tag ts = some [] := by
  have hgt : '>' ∉ ('<' :: tag).dropLast := by
    intro hin
    obtain heq | hin := List.mem_cons.mp (List.dropLast_subset _ hin)
    · exact absurd heq (by decide)
    · exact foreign_gt.notMem_name htag hin
  have hlast : '>' ∉ (endTag tag).dropLast := by
    rw [endTag, List.dropLast_append_of_ne_nil (List.cons_ne_nil _ _)]
    intro hin
    rw [List.dropLast_singleton, List.append_nil] at hin
    obtain hin | hin := List.mem_append.mp hin
    · exact absurd hin (by decide)
    · exact foreign_gt.notMem_name htag hin
  cases h with
  | absent hnone =>
    have htext : elementText tag ts = none := by
      have happend : elementText tag (ts ++ []) = elementText tag [] := elementText_append hnone
      rwa [List.append_nil] at happend
    have habsent := absent_markup hgt hwf hnone []
    refine .inl ?_
    rw [scanElement, find_none (List.cons_ne_nil _ _) habsent, htext]
    rfl
  | @element before rest attributes blanks texts hnone hvalues =>
    obtain ⟨hbefore, hthis⟩ := List.forall_mem_append.mp hwf
    obtain ⟨⟨-, hattributes, hblanks⟩, hlater⟩ := List.forall_mem_cons.mp hthis
    have hcontent : '<' ∉ texts.flatten := by
      rw [← flatMap_plainText plainText_render, List.mem_flatMap]
      rintro ⟨t, ht, hin⟩
      have htwf := hlater t (List.mem_append_left _ ht)
      obtain ⟨cs, -, rfl⟩ := List.mem_map.mp ht
      exact lt_notMem_text htwf hin
    have hrender : (before ++ .opening tag attributes blanks ::
        (texts.map plainText ++ .closing tag [] :: rest)).flatMap Markup.render =
          before.flatMap Markup.render ++ (tagStart tag attributes blanks ++ '>' ::
            (texts.flatten ++ (endTag tag ++ rest.flatMap Markup.render))) := by
      rw [List.flatMap_append, List.flatMap_cons, List.flatMap_append, List.flatMap_cons,
        flatMap_plainText plainText_render]
      simp only [Markup.render, endTag, List.append_assoc, List.cons_append, List.nil_append]
    have htext : elementText tag (before ++ .opening tag attributes blanks ::
        (texts.map plainText ++ .closing tag [] :: rest)) = some texts.flatten := by
      rw [elementText_append hnone, elementText, if_pos rfl, contentOf_texts,
        flatMap_plainText plainText_chars]
    have hstart : '<' :: tag <+: tagStart tag attributes blanks :=
      ⟨attributes.flatMap Attribute.render ++ blanks, by simp [tagStart]⟩
    refine .inl ?_
    rw [hrender, htext]
    have hopen : '>' ∉ tagStart tag attributes blanks := by
      have htail := foreign_gt.notMem_tag htag hattributes hvalues hblanks
      exact List.not_mem_cons_of_ne_of_not_mem (by decide) htail
    exact scanElement_eq (absent_markup hgt hbefore hnone _) hstart hopen
      (absent_of_notMem hcontent)
  | @empty before rest attributes blanks hnone hrest =>
    obtain ⟨hbefore, hthis⟩ := List.forall_mem_append.mp hwf
    obtain ⟨⟨-, hattributes, hblanks⟩, hlater⟩ := List.forall_mem_cons.mp hthis
    have htext : elementText tag (before ++ .empty tag attributes blanks :: rest) = some [] := by
      rw [elementText_append hnone, elementText, if_pos rfl]
    -- behind its first character the empty tag has no place where an end tag could begin
    have hvalues : ∀ a ∈ attributes, '<' ∉ a.value := fun a ha => (hattributes a ha).value.1
    have htail := foreign_lt.notMem_tag htag hattributes hvalues hblanks
    have habsent : Absent (endTag tag) (tag ++ attributes.flatMap Attribute.render ++ blanks ++
        ['/', '>'] ++ rest.flatMap Markup.render) [] := by
      refine Absent.append (absent_of_notMem fun hin => ?_) (absent_markup hlast hlater hrest [])
      obtain hin | hin := List.mem_append.mp hin
      · exact htail hin
      · exact absurd hin (by decide)
    have hrender : (before ++ .empty tag attributes blanks :: rest).flatMap Markup.render =
        (before.flatMap Markup.render ++ ['<']) ++ (tag ++ attributes.flatMap Attribute.render ++
          blanks ++ ['/', '>'] ++ rest.flatMap Markup.render) := by
      rw [List.flatMap_append, List.flatMap_cons]
      simp only [Markup.render, tagStart, List.append_assoc, List.cons_append, List.nil_append]
    have hfirst : find ('<' :: tag) ((before.flatMap Markup.render ++ ['<']) ++
        (tag ++ attributes.flatMap Attribute.render ++ blanks ++ ['/', '>'] ++
          rest.flatMap Markup.render)) = some (before.flatMap Markup.render).length := by
      have hstart : '<' :: tag <+: ['<'] ++ (tag ++ attributes.flatMap Attribute.render ++ blanks ++
          ['/', '>'] ++ rest.flatMap Markup.render) :=
        ⟨attributes.flatMap Attribute.render ++ (blanks ++ '/' :: '>' ::
          rest.flatMap Markup.render), by simp⟩
      rw [List.append_assoc, find_append (absent_markup hgt hbefore hnone _), find_of_prefix hstart,
        Option.map_some, Nat.zero_add]
    refine .inr ⟨?_, htext⟩
    rw [hrender]
    exact scanElement_none hfirst (by simp) habsent
  | other htext hend =>
    refine .inl ?_
    rw [htext]
    cases hfirst : find ('<' :: tag) (ts.flatMap Markup.render) with
    | none =>
      rw [scanElement, hfirst]
      rfl
    | some p =>
      have hnone : scanElement tag ([] ++ ts.flatMap Markup.render) = none :=
        scanElement_none hfirst (Nat.zero_le _) (absent_markup hlast hwf hend [])
      exact hnone

end Scan

/-! ## The numbers -/

/-- A sign and seven digits, which are eight bytes that `from_str_radix` reads. -/
def Signed (text : List Char) : Prop :=
  ∃ digits, text = '+' :: digits ∧ digits.length = 7 ∧ ∀ c ∈ digits, (toDigit16 c).isSome

theorem digits16_eight {limit : ℕ} {cs : List Char} (hplain : ∀ c ∈ cs, c.utf8Size = 1)
    (hlen : cs.length ≤ 8) (hlimit : limit = 2 ^ 32) :
    digits16 limit (cs.flatMap String.utf8EncodeChar) =
      if ∀ c ∈ cs, (toDigit16 c).isSome then
        some (cs.foldl (fun n c => n * 16 + (toDigit16 c).getD 0) 0)
      else none := by
  refine digits16_plain hplain ?_
  have hpow : 16 ^ cs.length ≤ 16 ^ 8 := Nat.pow_le_pow_right (by decide) hlen
  rw [Nat.zero_add, Nat.one_mul, hlimit]
  exact hpow.trans (by decide)

/-- Eight plain characters are read as their digits, but for a sign. -/
theorem fromStrRadix16_eight {text : List Char} (hplain : ∀ c ∈ text, c.utf8Size = 1)
    (hlen : text.length = 8) :
    fromStrRadix16 (2 ^ 32) (String.ofList text) = eightDigits text ↔ ¬Signed text := by
  cases text with
  | nil => cases hlen
  | cons a rest =>
    obtain ⟨ha, hrest⟩ := List.forall_mem_cons.mp hplain
    have hseven : rest.length = 7 := Nat.succ.inj hlen
    obtain ⟨b, bytes, hbytes⟩ : ∃ b bytes, rest.flatMap String.utf8EncodeChar = b :: bytes := by
      cases rest with
      | nil => cases hseven
      | cons d rest =>
        rw [List.flatMap_cons, utf8EncodeChar_plain (hrest d List.mem_cons_self)]
        exact ⟨_, _, rfl⟩
    have hall : utf8Bytes (String.ofList (a :: rest)) = UInt8.ofNat a.toNat :: b :: bytes := by
      rw [utf8Bytes_ofList, List.flatMap_cons, utf8EncodeChar_plain ha, hbytes]
      rfl
    have htail := digits16_eight hrest (by omega) (rfl : 2 ^ 32 = 2 ^ 32)
    have hwhole := digits16_eight hplain (Nat.le_of_eq hlen) (rfl : 2 ^ 32 = 2 ^ 32)
    rw [List.flatMap_cons, utf8EncodeChar_plain ha] at hwhole
    rw [hbytes] at htail hwhole
    rw [fromStrRadix16, hall]
    dsimp only
    by_cases hsign : a = '+'
    · have hdigits : ¬∀ c ∈ a :: rest, (toDigit16 c).isSome := by
        intro hall
        have hplus := hall a List.mem_cons_self
        rw [hsign] at hplus
        exact absurd hplus (by decide)
      have hsigned : Signed (a :: rest) ↔ ∀ c ∈ rest, (toDigit16 c).isSome := by
        constructor
        · rintro ⟨digits, hsplit, -, hdigits⟩
          rwa [List.tail_eq_of_cons_eq hsplit]
        · exact fun hdigits => ⟨rest, by rw [hsign], hseven, hdigits⟩
      have height : eightDigits (a :: rest) = none := if_neg (fun h => hdigits h.2)
      rw [if_pos ((sign_iff ha).mpr hsign), htail, height, hsigned]
      by_cases hrestDigits : ∀ c ∈ rest, (toDigit16 c).isSome
      · rw [if_pos hrestDigits]
        exact ⟨nofun, fun h => absurd hrestDigits h⟩
      · rw [if_neg hrestDigits]
        exact ⟨fun _ => hrestDigits, fun _ => rfl⟩
    · have hsigned : ¬Signed (a :: rest) := by
        rintro ⟨digits, hsplit, -⟩
        exact hsign (List.head_eq_of_cons_eq hsplit)
      rw [if_neg (fun hb => hsign ((sign_iff ha).mp hb))]
      refine ⟨fun _ => hsigned, fun _ => ?_⟩
      rw [eightDigits]
      simp only [hlen, true_and]
      exact hwhole

theorem utf8ByteSize_plain {cs : List Char} (h : ∀ c ∈ cs, c.utf8Size = 1) :
    (String.ofList cs).utf8ByteSize = cs.length := by
  rw [← length_utf8Bytes, utf8Bytes_ofList]
  induction cs with
  | nil => rfl
  | cons c cs ih =>
    obtain ⟨hc, hcs⟩ := List.forall_mem_cons.mp h
    rw [List.flatMap_cons, List.length_append, ih hcs, String.length_utf8EncodeChar, hc,
      List.length_cons, Nat.add_comm]

theorem Signed.plain {text : List Char} (h : Signed text) : ∀ c ∈ text, c.utf8Size = 1 := by
  obtain ⟨digits, rfl, -, hdigits⟩ := h
  refine List.forall_mem_cons.mpr ⟨rfl, fun c hc => ?_⟩
  obtain ⟨d, hd⟩ := Option.isSome_iff_exists.mp (hdigits c hc)
  exact utf8Size_of_toDigit16 hd

/-- The check of the length and `from_str_radix` come to eight digits, but for a sign. -/
theorem titleIdText_iff (text : List Char) :
    (if (String.ofList text).utf8ByteSize ≠ 8 then none
      else fromStrRadix16 (2 ^ 32) (String.ofList text)) = eightDigits text ↔ ¬Signed text := by
  by_cases hplain : ∀ c ∈ text, c.utf8Size = 1
  · rw [utf8ByteSize_plain hplain]
    by_cases hlen : text.length = 8
    · rw [if_neg (not_not.mpr hlen)]
      exact fromStrRadix16_eight hplain hlen
    · have hnone : eightDigits text = none := if_neg (fun h => hlen h.1)
      have hsigned : ¬Signed text := by
        rintro ⟨digits, rfl, hseven, -⟩
        exact hlen (congrArg Nat.succ hseven)
      rw [if_pos hlen, hnone]
      exact iff_of_true rfl hsigned
  · have hsigned : ¬Signed text := fun h => hplain h.plain
    push Not at hplain
    obtain ⟨c, hc, hlong⟩ := hplain
    have hnone : eightDigits text = none := by
      refine if_neg (fun h => hlong ?_)
      obtain ⟨d, hd⟩ := Option.isSome_iff_exists.mp (h.2 c hc)
      exact utf8Size_of_toDigit16 hd
    rw [fromStrRadix16_long hc hlong, ite_self, hnone]
    exact iff_of_true rfl hsigned

/-- Documents that the search reads as they are: the application id is that of the document, and
so is the title id unless it has a sign. -/
theorem config_scanners (doc : Document) :
    (Readable TitleId doc.markup →
      (parseTitleIdFromConfig doc.render = titleIdOf doc ↔
        ∀ text ∈ elementText TitleId doc.markup, ¬Signed (trim text))) ∧
      (Readable MSAAppId doc.markup → parseMsaAppIdFromConfig doc.render = msaAppIdOf doc) := by
  have hchars : doc.render.toList = doc.markup.flatMap Markup.render := String.toList_ofList
  constructor
  · intro h
    have hname : IsName TitleId := ⟨by decide, by decide⟩
    rw [parseTitleIdFromConfig, titleIdOf, hchars]
    obtain hscan | ⟨hscan, htext⟩ := scanElement_render hname doc.wellFormed h
    · rw [hscan]
      cases elementText TitleId doc.markup with
      | none => exact iff_of_true rfl nofun
      | some text =>
        have hread := titleIdText_iff (trim text)
        simp only [Option.map_some, Option.bind_eq_bind, Option.bind_some, Option.mem_def,
          Option.some.injEq, forall_eq']
        exact hread
    · rw [hscan, htext]
      refine iff_of_true (by decide) ?_
      intro text hin
      obtain rfl := Option.some.inj hin
      rintro ⟨digits, hempty, -⟩
      cases hempty
  · intro h
    have hname : IsName MSAAppId := ⟨by decide, by decide⟩
    rw [parseMsaAppIdFromConfig, msaAppIdOf, hchars]
    obtain hscan | ⟨hscan, htext⟩ := scanElement_render hname doc.wellFormed h
    · rw [hscan]
      cases elementText MSAAppId doc.markup <;> rfl
    · rw [hscan, htext]
      rfl

/-- `<Game><TitleId a="1">2222222A</TitleId></Game>`. -/
def plainConfig : Document where
  markup :=
    [.opening ['G', 'a', 'm', 'e'] [] [],
      .opening TitleId [⟨[' '], ['a'], ['='], '"', ['1']⟩] [],
      plainText ['2', '2', '2', '2', '2', '2', '2', 'A'], .closing TitleId [],
      .closing ['G', 'a', 'm', 'e'] []]
  wellFormed := by decide +kernel
  nested := ⟨_, rfl, _, rfl, rfl⟩

theorem config_scanners_plain :
    parseTitleIdFromConfig plainConfig.render = titleIdOf plainConfig ∧
      parseMsaAppIdFromConfig plainConfig.render = msaAppIdOf plainConfig := by
  have hscan := config_scanners plainConfig
  have htitle : Readable TitleId ([.opening ['G', 'a', 'm', 'e'] [] []] ++
      .opening TitleId [⟨[' '], ['a'], ['='], '"', ['1']⟩] [] ::
        ([['2', '2', '2', '2', '2', '2', '2', 'A']].map plainText ++ .closing TitleId [] ::
          [.closing ['G', 'a', 'm', 'e'] []])) :=
    .element _ (by decide +kernel) (by decide)
  have hmsa : Readable MSAAppId plainConfig.markup := .absent (by decide +kernel)
  refine ⟨(hscan.1 htitle).mpr ?_, hscan.2 hmsa⟩
  intro text hin
  obtain rfl : ['2', '2', '2', '2', '2', '2', '2', 'A'] = text := Option.some.inj hin
  rintro ⟨digits, hsplit, -⟩
  exact absurd (List.head_eq_of_cons_eq hsplit) (by decide)

/-- `<Game><!--<TitleId>11111111</TitleId>--><TitleId>2222222A</TitleId></Game>`. -/
def commentedConfig : Document where
  markup :=
    [.opening ['G', 'a', 'm', 'e'] [] [],
      .comment ('<' :: TitleId ++ '>' :: List.replicate 8 '1' ++ endTag TitleId),
      .opening TitleId [] [], plainText ['2', '2', '2', '2', '2', '2', '2', 'A'],
      .closing TitleId [], .closing ['G', 'a', 'm', 'e'] []]
  wellFormed := by decide +kernel
  nested := ⟨_, rfl, _, rfl, rfl⟩

/-- A copy in a comment is read in place of the element. -/
theorem commented_title_id :
    (parseTitleIdFromConfig commentedConfig.render = some 0x11111111 ∧
      titleIdOf commentedConfig = some 0x2222222A) ∧
      ¬∀ doc : Document, parseTitleIdFromConfig doc.render = titleIdOf doc ∧
        parseMsaAppIdFromConfig doc.render = msaAppIdOf doc := by
  have hruns : parseTitleIdFromConfig commentedConfig.render = some 0x11111111 ∧
      titleIdOf commentedConfig = some 0x2222222A := by decide +kernel
  refine ⟨hruns, fun hall => ?_⟩
  have hsame := (hall commentedConfig).1
  rw [hruns.1, hruns.2] at hsame
  exact absurd hsame (by decide)

end XGameRuntime.Config
