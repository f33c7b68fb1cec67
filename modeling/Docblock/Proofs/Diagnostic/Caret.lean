import Docblock.Proofs.DocComment.Margin
import Docblock.Proofs.Source.Places
import Docblock.Proofs.Source.Splice

/-!
# The caret of a warning

A warning shows the line in which its comment stands, and a caret below that line. Here the two
lines are read as a terminal shows them, without the sequences that set a style (`Terminal.plain`).
The caret stands as many bytes into its line as the comment stands into the line of the file, so it
points at the comment exactly if these bytes, and the margin of the numbered line, are as many
characters (`Report.ofSource_caret`).

The file may hold escape characters of its own, and a sequence that the file begins could swallow
what the report adds. It cannot reach beyond the slash of the comment or a line feed, since neither
is a character of a sequence (`Terminal.plain_append_cons`), and that is all that is asked of the
file: the law holds of every source.

Characters are counted, not the columns they take on a screen: a tab before the comment is one
character of its line, and one space before the caret. The exact condition shows two ways to be off,
characters of several bytes and line numbers of four digits, which may make up for each other.
-/

namespace Docblock

open Text

namespace Terminal

/-- Begins a style sequence. -/
def escape : Char := '\x1b'

/-- A character of the code of a style. -/
def isCodeChar (c : Char) : Bool := c.isDigit || c == ';'

/-- What follows the code of a style and the letter that ends it. -/
def afterCode? : Text → Option Text
  | [] => none
  | c :: r => if c = 'm' then some r else if isCodeChar c then afterCode? r else none

/-- What follows the style sequence at the front of a text, if there is one. -/
def afterStyle? : Text → Option Text
  | c :: d :: r => if c = escape ∧ d = '[' then afterCode? r else none
  | _ => none

/-- What follows a code is a rear part of the text. -/
theorem suffix_of_afterCode? {t rest : Text} (h : afterCode? t = some rest) : rest <:+ t := by
  induction t with
  | nil => exact nomatch h
  | cons c r ih =>
    rw [afterCode?] at h
    split at h
    · rw [← Option.some.inj h]
      exact List.suffix_cons c r
    · split at h
      · exact (ih h).trans (List.suffix_cons c r)
      · exact nomatch h

/-- A style sequence is not empty. -/
theorem suffix_of_afterStyle? {c : Char} {r rest : Text} (h : afterStyle? (c :: r) = some rest) :
    rest <:+ r := by
  cases r with
  | nil => exact nomatch h
  | cons d r =>
    rw [afterStyle?] at h
    split at h
    · exact (suffix_of_afterCode? h).trans (List.suffix_cons d r)
    · exact nomatch h

/-- A text as a terminal shows it: without the sequences that set a style. One that is not ended is
text. -/
def plain : Text → Text
  | [] => []
  | c :: r =>
    match _h : afterStyle? (c :: r) with
    | some rest => plain rest
    | none => c :: plain r
termination_by t => t.length
decreasing_by
  · exact Nat.lt_succ_of_le (suffix_of_afterStyle? _h).length_le
  · exact Nat.lt_succ_self _

/-- A style sequence in front is not shown. -/
theorem plain_of_afterStyle? {c : Char} {r rest : Text} (h : afterStyle? (c :: r) = some rest) :
    plain (c :: r) = plain rest := by
  rw [plain]
  split
  · next heq =>
    rw [h] at heq
    rw [Option.some.inj heq]
  · next heq =>
    rw [h] at heq
    exact nomatch heq

/-- A character that begins no style sequence is shown. -/
theorem plain_cons {c : Char} {r : Text} (h : afterStyle? (c :: r) = none) :
    plain (c :: r) = c :: plain r := by
  rw [plain]
  split
  · next heq =>
    rw [h] at heq
    exact nomatch heq
  · rfl

/-- Nothing is shown that is not in the text, so a character that the text lacks is not shown. -/
theorem plain_sublist (t : Text) : (plain t).Sublist t := by
  fun_induction plain t with
  | case1 => exact .slnil
  | case2 c r rest hrest ih => exact ih.trans ((suffix_of_afterStyle? hrest).sublist.cons c)
  | case3 c r _ ih => exact ih.cons_cons c

/-- A style is not shown. -/
theorem plain_style_append {code : String}
    (hcode : ∀ c ∈ code.toList, c ≠ 'm' ∧ isCodeChar c = true) (t : Text) :
    plain (style code ++ t) = plain t := by
  have hafter {digits : Text} (h : ∀ c ∈ digits, c ≠ 'm' ∧ isCodeChar c = true) :
      afterCode? (digits ++ 'm' :: t) = some t := by
    induction digits with
    | nil => rfl
    | cons c digits ih =>
      rw [List.forall_mem_cons] at h
      rw [List.cons_append, afterCode?, if_neg h.1.1, if_pos h.1.2, ih h.2]
  have hstyle : style code ++ t = escape :: '[' :: (code.toList ++ 'm' :: t) := by
    simp [style, escape]
  rw [hstyle]
  apply plain_of_afterStyle?
  rw [afterStyle?, if_pos ⟨rfl, rfl⟩, hafter hcode]

section Append

variable {a b : Text}

/-- Text without escape characters is shown as it is. -/
theorem plain_append_of_escape_not_mem (ha : escape ∉ a) : plain (a ++ b) = a ++ plain b := by
  induction a with
  | nil => rfl
  | cons c a ih =>
    obtain ⟨hc, ha⟩ := List.ne_and_not_mem_of_not_mem_cons ha
    have hnone : afterStyle? (c :: (a ++ b)) = none := by
      unfold afterStyle?
      split
      · next heq => exact if_neg fun h => hc (h.1 ▸ (List.cons.inj heq).1).symm
      · rfl
    rw [List.cons_append, plain_cons hnone, ih ha, List.cons_append]

/-- A text without escape characters is shown as it is. -/
theorem plain_of_escape_not_mem (ha : escape ∉ a) : plain a = a := by
  have happend := plain_append_of_escape_not_mem (b := []) ha
  rwa [plain, List.append_nil] at happend

/-- Whether a text goes on with no style sequence that was begun before it. -/
def Apart (t : Text) : Prop := ∀ c ∈ t.head?, c ≠ '[' ∧ c ≠ 'm' ∧ isCodeChar c = false

variable (hb : Apart b)

include hb

/-- Where the second text goes on with no sequence, a code ends in the first one or not at all. -/
theorem afterCode?_append : afterCode? (a ++ b) = (afterCode? a).map (· ++ b) := by
  induction a with
  | nil =>
    cases b with
    | nil => rfl
    | cons c r =>
      obtain ⟨-, hend, hcode⟩ := hb c rfl
      show (if c = 'm' then some r else if isCodeChar c then afterCode? r else none) = none
      rw [if_neg hend, hcode]
      rfl
  | cons c a ih =>
    rw [List.cons_append, afterCode?, afterCode?, ih]
    split_ifs <;> rfl

/-- Where the second text goes on with no sequence, a style sequence ends in the first one or not at
all. -/
theorem afterStyle?_append {c : Char} :
    afterStyle? (c :: a ++ b) = (afterStyle? (c :: a)).map (· ++ b) := by
  cases a with
  | nil =>
    cases b with
    | nil => rfl
    | cons d r =>
      obtain ⟨hbracket, -⟩ := hb d rfl
      exact if_neg fun h => hbracket h.2
  | cons d a =>
    rw [List.cons_append, List.cons_append, afterStyle?, afterStyle?, afterCode?_append hb]
    split_ifs <;> rfl

/-- Where the second text goes on with no sequence, the two are shown one after the other. -/
theorem plain_append : plain (a ++ b) = plain a ++ plain b := by
  fun_induction plain a with
  | case1 => rfl
  | case2 c r rest hrest ih =>
    have hstyle := afterStyle?_append (c := c) (a := r) hb
    rw [hrest] at hstyle
    rw [← ih]
    exact plain_of_afterStyle? hstyle
  | case3 c r hnone ih =>
    have hstyle := afterStyle?_append (c := c) (a := r) hb
    rw [hnone] at hstyle
    rw [List.cons_append, List.cons_append, ← ih]
    exact plain_cons hstyle

end Append

/-- A character that is in no style sequence is shown as it is, whatever stands before it. -/
theorem plain_append_cons {c : Char} (hescape : c ≠ escape)
    (hc : c ≠ '[' ∧ c ≠ 'm' ∧ isCodeChar c = false) (a t : Text) :
    plain (a ++ c :: t) = plain a ++ c :: plain t := by
  have hshown : plain (c :: t) = c :: plain t :=
    plain_append_of_escape_not_mem (a := [c]) (by simpa using hescape.symm)
  rw [plain_append fun d hd => by rwa [← Option.some.inj hd], hshown]

end Terminal

open Terminal

namespace Diagnostic

/-- What is shown in front of a line with the given number, or with none. -/
def margin (number : Text) : Text := padStart 3 number ++ " | ".toList

/-- A margin is three columns for the number, or more, and three for the bar. -/
theorem length_margin (number : Text) : (margin number).length = max 3 number.length + 3 := by
  rw [margin, padStart, List.length_append, List.length_append, List.length_replicate]
  show 3 - number.length + number.length + 3 = _
  omega

/-- A margin holds a number, spaces and a bar. -/
theorem not_mem_margin {number : Text} {c : Char} (hnumber : c ∉ number)
    (hc : c ≠ ' ' ∧ c ≠ '|') : c ∉ margin number := by
  have hspaces (n : Nat) : c ∉ List.replicate n ' ' := fun hmem =>
    hc.1 (List.eq_of_mem_replicate hmem)
  have hbar : c ∉ [' ', '|', ' '] := by simp [hc]
  rw [margin, padStart, List.mem_append, List.mem_append, not_or, not_or]
  exact ⟨⟨hspaces _, hnumber⟩, hbar⟩

/-- The gutter of a line is shown as its margin. -/
theorem plain_gutter_append {number : Text} (h : escape ∉ number) (t : Text) :
    plain (gutter number ++ ' ' :: t) = margin number ++ plain t := by
  have hgutter : gutter number ++ ' ' :: t =
      style "34" ++ (padStart 3 number ++ " |".toList ++ (style "0" ++ ([' '] ++ t))) := by
    simp [gutter, reset]
  have hfront : escape ∉ padStart 3 number ++ " |".toList := by
    rw [padStart, List.mem_append, List.mem_append, not_or, not_or]
    exact ⟨⟨by simp [escape], h⟩, by decide⟩
  rw [hgutter, plain_style_append (by decide), plain_append_of_escape_not_mem hfront,
    plain_style_append (by decide), plain_append_of_escape_not_mem (by decide)]
  simp [margin]

/-- The style of a severity is not shown. -/
theorem plain_severity_style_append (severity : Severity) (t : Text) :
    plain (severity.style ++ t) = plain t := by
  cases severity with
  | warning => exact plain_style_append (by decide) t
  | error => exact plain_style_append (by decide) t

/-- A number is written with digits only. -/
theorem not_mem_ofNat {c : Char} (hc : c.isDigit = false) (n : Nat) : c ∉ ofNat n := by
  intro hmem
  rw [Nat.isDigit_of_mem_toDigits (by decide) (by decide) hmem] at hc
  exact nomatch hc

/-- The line of a place and the caret below it end the written form, as a terminal shows it. -/
theorem exists_plain_text_eq {d : Diagnostic} {place : Place} {line : Text}
    (hplace : d.place = some place) (hline : place.line = some line) :
    ∃ above, plain d.text = above ++ '\n' :: (margin (ofNat (place.row + 1)) ++ plain line ++
      '\n' :: (margin [] ++ List.replicate place.column ' ' ++ ['^', '\n'])) := by
  obtain ⟨title, position, hlines⟩ :
      ∃ title position, d.lines = [title, position] ++ snippet d.severity place line := by
    rw [lines, hplace]
    dsimp only
    rw [hline]
    exact ⟨_, _, rfl⟩
  have htext : d.text = (title ++ '\n' :: (position ++ '\n' :: gutter [])) ++
      '\n' :: (gutter (ofNat (place.row + 1)) ++ ' ' :: (line ++ '\n' :: (gutter [] ++
        ' ' :: (List.replicate place.column ' ' ++
          (d.severity.style ++ (['^'] ++ (style "0" ++ ['\n']))))))) := by
    rw [text, hlines]
    simp [snippet, reset]
  have hend : plain ['\n'] = ['\n'] := plain_of_escape_not_mem (by decide)
  -- what is above the shown line may hold anything: the line feed keeps it apart
  generalize title ++ '\n' :: (position ++ '\n' :: gutter []) = above at htext
  refine ⟨plain above, ?_⟩
  rw [htext, plain_append_cons (by decide) (by decide),
    plain_gutter_append (not_mem_ofNat (by decide) _), plain_append_cons (by decide) (by decide),
    plain_gutter_append (by decide),
    plain_append_of_escape_not_mem (by simp [escape]), plain_severity_style_append,
    plain_append_of_escape_not_mem (by decide), plain_style_append (by decide), hend]
  simp

end Diagnostic

namespace Report

open Diagnostic

/-- A file has a warning for each type that could not be read in a doc comment that is written
anew. -/
theorem mem_warningsOf_iff {o : Options} {path source : Text} {d : Diagnostic} :
    d ∈ warningsOf o path source ↔
      ∃ c ∈ Source.docComments source, ¬ Ignore.comment source c.text = true ∧
        (∃ formatted, DocComment.format o c.indent c.text = some formatted) ∧
        ∃ te ∈ DocComment.typeErrors (Comment.parse c.text),
          d = warning path source c te.1 te.2 := by
  have herrors {c : DocComment} {formatted : DocComment.Formatted}
      (h : DocComment.format o c.indent c.text = some formatted) :
      formatted.typeErrors = DocComment.typeErrors (Comment.parse c.text) := by
    obtain ⟨-, hformatted⟩ := DocComment.format_eq_some_iff.1 h
    rw [hformatted]
  rw [warningsOf, reformatted_eq_filterMap]
  constructor
  · intro h
    obtain ⟨⟨c, formatted⟩, hpair, hd⟩ := List.mem_flatMap.1 h
    obtain ⟨te, hte, rfl⟩ := List.mem_map.1 hd
    obtain ⟨c', hc, hrewritten⟩ := List.mem_filterMap.1 hpair
    obtain ⟨rfl, hkept, hformat⟩ := of_rewritten?_eq_some hrewritten
    exact ⟨c, hc, hkept, ⟨formatted, hformat⟩, te, herrors hformat ▸ hte, rfl⟩
  · rintro ⟨c, hc, hkept, ⟨formatted, hformat⟩, te, hte, rfl⟩
    have hrewritten : rewritten? o source c = some (c, formatted) := by
      rw [rewritten?, if_neg hkept, hformat]
      rfl
    exact List.mem_flatMap.2 ⟨(c, formatted), List.mem_filterMap.2 ⟨c, hc, hrewritten⟩,
      List.mem_map.2 ⟨te, (herrors hformat).symm ▸ hte, rfl⟩⟩

/-- How a warning about a doc comment is shown: at the end there are the line of the comment, with
`front` before the comment, and a line with `lead` before the caret. -/
structure ShowsCaret (c : DocComment) (shown front lead : Text) : Prop where
  lines : ∃ above rest, '\n' ∉ rest ∧
    shown = above ++ '\n' :: (front ++ '/' :: rest ++ '\n' :: (lead ++ ['^', '\n']))
  front_eq : front = margin (ofNat (c.row + 1)) ++ plain c.linePrefix
  front_lf : '\n' ∉ front
  lead_eq : lead = margin [] ++ List.replicate c.column ' '
  lead_lf : '\n' ∉ lead
  lead_caret : '^' ∉ lead

namespace ShowsCaret

variable {source : Text} {c : DocComment}

/-- A warning about a doc comment is shown with the line of the comment and a caret below it. -/
theorem of_warning (path tag : Text) (hc : c ∈ Source.docComments source) (e : ParseError) :
    ∃ front lead, ShowsCaret c (plain (warning path source c tag e).text) front lead := by
  obtain ⟨rest, hline⟩ := DocComment.exists_line_eq hc
  obtain ⟨above, htext⟩ := exists_plain_text_eq (d := warning path source c tag e) rfl hline
  -- no style sequence of the file reaches over the slash that begins the comment
  have hshown : plain (c.linePrefix ++ '/' :: rest) = plain c.linePrefix ++ '/' :: plain rest :=
    plain_append_cons (by decide) (by decide) _ _
  have hlf : '\n' ∉ plain (c.linePrefix ++ '/' :: rest) := fun hmem =>
    lf_not_mem_fileLine (List.mem_of_getElem? hline) ((plain_sublist _).subset hmem)
  rw [hshown, List.mem_append, List.mem_cons, not_or, not_or] at hlf
  obtain ⟨hfront, -, hrest⟩ := hlf
  have hlead {a : Char} (ha : a ≠ ' ' ∧ a ≠ '|') :
      a ∉ margin [] ++ List.replicate c.column ' ' := by
    rw [List.mem_append, not_or]
    exact ⟨not_mem_margin List.not_mem_nil ha, fun hmem => ha.1 (List.eq_of_mem_replicate hmem)⟩
  refine ⟨_, _, ⟨above, plain rest, hrest, ?_⟩, rfl, ?_, rfl, hlead (by decide), hlead (by decide)⟩
  · rw [htext, hshown, ← List.append_assoc]
  · rw [List.mem_append, not_or]
    exact ⟨not_mem_margin (not_mem_ofNat (by decide) _) (by decide), hfront⟩

variable {shown front lead : Text} (h : ShowsCaret c shown front lead)

include h

/-- The caret is behind as many bytes as the comment, and the comment behind what is shown of the
characters and behind the digits of the line's number. -/
theorem length_eq_iff : lead.length = front.length ↔
    (ofNat (c.row + 1)).length - 3 = byteSize c.linePrefix - (plain c.linePrefix).length := by
  have hshown := (plain_sublist c.linePrefix).length_le
  have hbytes := length_le_byteSize c.linePrefix
  rw [h.lead_eq, h.front_eq, List.length_append, List.length_append, length_margin, length_margin,
    List.length_replicate, DocComment.column, List.length_nil]
  omega

/-- The caret is in its place in the first 999 lines, behind characters that are one byte each and
begin no style. -/
theorem length_eq_of_ascii (hrow : c.row < 999)
    (hascii : ∀ p ∈ c.linePrefix, p.utf8Size = 1 ∧ p ≠ escape) : lead.length = front.length := by
  have hdigits : (ofNat (c.row + 1)).length ≤ 3 :=
    (Nat.length_toDigits_le_iff (by decide) (by decide)).2 (by omega)
  have hplain : plain c.linePrefix = c.linePrefix :=
    plain_of_escape_not_mem fun hmem => (hascii _ hmem).2 rfl
  rw [h.length_eq_iff, hplain, byteSize_eq_length fun p hp => (hascii p hp).1]
  omega

end ShowsCaret

/-- Formatting a file never fails. Each of its warnings ends, as a terminal shows it, with the line
of a doc comment and a caret below it. The caret stands below the first character of the comment
exactly if the number of the line takes as many digits more than three as the text before the
comment has bytes more than characters that are shown; so it does in the first 999 lines where these
characters are ASCII. -/
theorem ofSource_caret (o : Options) (path source : Text) :
    ∃ report, ofSource o path source = .ok report ∧ ∀ d ∈ report.diagnostics,
      ∃ c ∈ Source.docComments source, ∃ te ∈ DocComment.typeErrors (Comment.parse c.text),
        d = warning path source c te.1 te.2 ∧
        ∃ front lead, ShowsCaret c (plain d.text) front lead ∧
          (lead.length = front.length ↔ (ofNat (c.row + 1)).length - 3 =
            byteSize c.linePrefix - (plain c.linePrefix).length) ∧
          (c.row < 999 → (∀ p ∈ c.linePrefix, p.utf8Size = 1 ∧ p ≠ escape) →
            lead.length = front.length) := by
  refine ⟨_, by rw [ofSource, apply_editsOf]; rfl, fun d hd => ?_⟩
  obtain ⟨c, hc, -, -, te, hte, rfl⟩ := mem_warningsOf_iff.1 hd
  obtain ⟨front, lead, hshown⟩ := ShowsCaret.of_warning path te.1 hc te.2
  exact ⟨c, hc, te, hte, rfl, front, lead, hshown, hshown.length_eq_iff,
    hshown.length_eq_of_ascii⟩

/-- Behind an accented letter, which is two bytes, the caret stands one column too far. -/
theorem ofSource_caret_accented :
    let source := "<?php $é = 1; /** @var a< */".toList
    let front := "  1 | <?php $é = 1; ".toList
    let lead := "    | ".toList ++ List.replicate 15 ' '
    lead.length = front.length + 1 ∧
      ∃ report, ofSource {} [] source = .ok report ∧ ∃ d ∈ report.diagnostics, ∃ above,
        plain d.text =
          above ++ '\n' :: (front ++ "/** @var a< */".toList ++ '\n' :: (lead ++ ['^', '\n'])) := by
  intro source front lead
  let c : DocComment := ⟨"<?php $é = 1; ".toList, "/** @var a< */".toList⟩
  let e : ParseError := ⟨.unexpected, 2, "@var.generic".toList, "<eol>".toList⟩
  have hsegments : Source.segments source = [.code c.before, .doc c.text] := by
    with_unfolding_all rfl
  have hparse : Comment.parse c.text = [.tag ⟨"@var".toList, "a<".toList, .failed e⟩] := by
    with_unfolding_all rfl
  have hformat : ∃ formatted, DocComment.format {} c.indent c.text = some formatted := by
    refine ⟨_, DocComment.format_eq_some_iff.2 ⟨?_, rfl⟩⟩
    rw [hparse]
    decide
  have hwarned : warning [] source c "@var".toList e ∈ warningsOf {} [] source :=
    mem_warningsOf_iff.2 ⟨c, Source.mem_docComments_of_segments hsegments, by decide, hformat,
      ("@var".toList, e), by rw [hparse]; exact List.mem_singleton_self _, rfl⟩
  have hline : (Text.lines source)[c.row]? = some source := rfl
  obtain ⟨above, htext⟩ := exists_plain_text_eq (d := warning [] source c "@var".toList e) rfl hline
  have hfront : margin (ofNat (c.row + 1)) ++ source = front ++ "/** @var a< */".toList := by
    decide +kernel
  have hlead : margin [] ++ List.replicate c.column ' ' = lead := by decide +kernel
  rw [plain_of_escape_not_mem (a := source) (by decide)] at htext
  dsimp only at htext
  rw [hfront, hlead] at htext
  exact ⟨rfl, _, by rw [ofSource, apply_editsOf]; rfl, _, hwarned, above, htext⟩

end Report

end Docblock
