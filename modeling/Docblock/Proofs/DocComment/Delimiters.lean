import Docblock.Proofs.Comment.Closing
import Docblock.Proofs.Source.Splice

/-!
# One doc comment stays one doc comment

In a file a doc comment runs from its opening mark to the first closing mark that begins at its
third byte or later, so `/*/` does not close itself. `Delimited` says this by byte offsets, and a
text is so delimited if it is closed at its end and nowhere before (`isDocComment_iff`). A delimited
comment is written anew as a delimited one (`format_delimited`).

Two descriptions of a comment meet here. The lexer and the printer know a comment by its characters:
an opening mark, a text that is closed at its end and nowhere before. What is promised of the result
is told by offsets in bytes, as a reader of the file would check it. The two are equivalent
(`isDocComment_iff`), and the only place where offsets matter is the short comment: `/**/` is
delimited, with its closing mark at the third byte, while `/*/` is not.

What is written is a comment of this kind whatever the text of the old one is, and for every
indentation and indent unit of blanks. That it is read as saying the same is another matter
(`Docblock.Proofs.DocComment.Rereading`).
-/

namespace Docblock

namespace Text

/-- `part` begins in the text after `n` bytes. -/
def OccursAt (part : Text) (n : Nat) (t : Text) : Prop :=
  ∃ before after, t = before ++ (part ++ after) ∧ byteSize before = n

/-- Of two texts that begin the same text the shorter has fewer bytes. -/
theorem byteSize_lt_of_length_lt {a b t : Text} (ha : a <+: t) (hb : b <+: t)
    (h : a.length < b.length) : byteSize a < byteSize b := by
  obtain ⟨k, rfl⟩ := List.prefix_of_prefix_length_le ha hb h.le
  have hk : byteSize k ≠ 0 := by
    rw [ne_eq, byteSize_eq_zero_iff]
    rintro rfl
    simp at h
  rw [byteSize_append]
  omega

end Text

open Text Source

namespace DocComment

/-- The text begins as a doc comment does, and the first closing mark that begins at its third byte
or later is its end. -/
structure Delimited (t : Text) : Prop where
  begins : "/**".toList <+: t
  ends : ∃ n, 2 ≤ n ∧ OccursAt "*/".toList n t ∧ n + 2 = byteSize t ∧
    ∀ m, 2 ≤ m → OccursAt "*/".toList m t → n ≤ m

/-- What begins a comment and has two bytes or more begins with the comment's first two
characters. -/
theorem exists_eq_of_prefix {before r : Text} (h : before <+: '/' :: '*' :: r)
    (hsize : 2 ≤ byteSize before) : ∃ b, before = '/' :: '*' :: b ∧ b <+: r := by
  have hslash : '/'.utf8Size = 1 := by decide
  cases before with
  | nil => simp at hsize
  | cons c before =>
    obtain ⟨rfl, hstar⟩ := List.cons_prefix_cons.1 h
    cases before with
    | nil => simp [byteSize_cons, hslash] at hsize
    | cons d before =>
      obtain ⟨rfl, hrest⟩ := List.cons_prefix_cons.1 hstar
      exact ⟨before, rfl, hrest⟩

/-- The first two characters of a comment are one byte each. -/
theorem byteSize_slash_star (b : Text) : byteSize ('/' :: '*' :: b) = 2 + byteSize b := by
  have hsizes : '/'.utf8Size = 1 ∧ '*'.utf8Size = 1 := by decide
  rw [byteSize_cons, byteSize_cons, hsizes.1, hsizes.2]
  omega

/-- No closing mark stands in a comment before the one at its end: said of its characters, and of
its bytes. -/
theorem noClose_iff_le {b : Text} :
    NoClose (b ++ ['*']) ↔
      ∀ m, 2 ≤ m → OccursAt ['*', '/'] m ('/' :: '*' :: (b ++ ['*', '/'])) →
        2 + byteSize b ≤ m := by
  constructor
  · rintro hclose m hm ⟨before, after, heq, rfl⟩
    obtain ⟨x, rfl, hx⟩ := exists_eq_of_prefix ⟨_, heq.symm⟩ hm
    replace heq : b ++ ['*', '/'] = x ++ (['*', '/'] ++ after) := by simpa using heq
    rw [byteSize_slash_star]
    by_contra hlt
    -- the mark would stand before the last character
    have hlength : x.length < b.length := by
      by_contra hge
      obtain ⟨k, rfl⟩ := List.prefix_of_prefix_length_le ⟨_, rfl⟩ hx (not_lt.1 hge)
      rw [byteSize_append] at hlt
      omega
    have hmark : x ++ ['*', '/'] <+: b ++ ['*'] := by
      have hfront : x ++ ['*', '/'] <+: b ++ ['*', '/'] := ⟨after, by simp [heq]⟩
      refine List.prefix_of_prefix_length_le hfront ⟨['/'], by simp⟩ ?_
      simp only [List.length_append, List.length_cons, List.length_nil]
      omega
    obtain ⟨k, hk⟩ := hmark
    exact hclose ⟨x, k, hk⟩
  · rintro hfirst ⟨x, y, hxy⟩
    have heq : '/' :: '*' :: (b ++ ['*', '/']) =
        ('/' :: '*' :: x) ++ (['*', '/'] ++ (y ++ ['/'])) := by
      have hwhole := congrArg (· ++ ['/']) hxy
      simpa using hwhole.symm
    have hle := hfirst (byteSize ('/' :: '*' :: x)) (by rw [byteSize_slash_star]; omega)
      ⟨_, _, heq, rfl⟩
    rw [byteSize_slash_star] at hle
    have hlength : x.length < b.length := by
      have hsum := congrArg List.length hxy
      simp only [List.length_append, List.length_cons, List.length_nil] at hsum
      omega
    have hlt := byteSize_lt_of_length_lt (t := b ++ ['*']) ⟨_, by rw [← hxy, List.append_assoc]⟩
      ⟨_, rfl⟩ hlength
    omega

/-- A text is delimited if it is a doc comment that is closed at its end and nowhere before. -/
theorem isDocComment_iff {t : Text} : IsDocComment t ↔ Delimited t := by
  have hmark : "*/".toList = ['*', '/'] := by decide
  have hmarkSize : byteSize ['*', '/'] = 2 := by decide
  constructor
  · rintro ⟨m, rfl, b, hb, hclose⟩
    have heq : docStart m = '/' :: '*' :: (b ++ ['*', '/']) := by rw [docStart, ← hb]
    refine ⟨⟨m, rfl⟩, 2 + byteSize b, by omega, ?_, ?_, ?_⟩
    · exact ⟨'/' :: '*' :: b, [], by simp [heq, hmark], byteSize_slash_star b⟩
    · rw [heq, byteSize_slash_star, byteSize_append, hmarkSize]
      omega
    · rw [heq, hmark]
      exact noClose_iff_le.1 hclose
  · rintro ⟨⟨m, rfl⟩, n, hn, ⟨before, after, heq, rfl⟩, hsize, hfirst⟩
    rw [hmark] at heq hfirst
    have hnil : after = [] := by
      rw [heq, byteSize_append, byteSize_append, hmarkSize] at hsize
      rw [← byteSize_eq_zero_iff]
      omega
    subst hnil
    obtain ⟨b, rfl, -⟩ := exists_eq_of_prefix (r := '*' :: m) ⟨_, heq.symm⟩ hn
    have hb : '*' :: m = b ++ ['*', '/'] := by simpa using heq
    rw [heq, byteSize_slash_star] at hfirst
    exact ⟨m, rfl, b, hb, noClose_iff_le.2 hfirst⟩

/-- A doc comment that is written anew is still exactly one doc comment. -/
theorem format_delimited {o : Options} (hunit : ∀ c ∈ o.indentUnit, isBlank c = true)
    {indent text : Text} (hindent : ∀ c ∈ indent, isBlank c = true) (htext : Delimited text)
    {formatted : Formatted} (h : format o indent text = some formatted) :
    Delimited formatted.text :=
  isDocComment_iff.1 (format_isDocComment hunit hindent (isDocComment_iff.2 htext) h)

/-- The marks overlap in `/**/`; in the other comment a `null` moves away between a star and a
slash. -/
theorem format_delimited_stars :
    let overlap := "/**/".toList
    let stars := "/** @var a*|null /x **/".toList
    (Delimited overlap ∧ Delimited stars) ∧
      ∃ formatted formatted', format {} [] overlap = some formatted ∧
        format {} [] stars = some formatted' ∧ formatted.text = "/** / */".toList ∧
        formatted'.text = "/** @var null | a* /x * */".toList ∧
        Delimited formatted.text ∧ Delimited formatted'.text := by
  intro overlap stars
  have hoverlap : Delimited overlap :=
    isDocComment_iff.1 ⟨['/'], rfl, [], rfl, by unfold NoClose NoPair; decide⟩
  have hstars : Delimited stars :=
    isDocComment_iff.1 ⟨" @var a*|null /x **/".toList, rfl, "* @var a*|null /x *".toList, rfl,
      by unfold NoClose NoPair; decide⟩
  have hparse : Comment.parse stars = [.tag ⟨"@var".toList, "/x *".toList,
      .typed (.union [.named "a*".toList, .named "null".toList])⟩] := by
    with_unfolding_all rfl
  have hslash : Comment.parse overlap = [.prose ['/']] := by with_unfolding_all rfl
  have hfirst : format {} [] overlap = some ⟨"/** / */".toList, []⟩ := by
    refine format_eq_some_iff.2 ?_
    simp only [hslash]
    exact ⟨by decide, by with_unfolding_all rfl⟩
  have hsecond : format {} [] stars = some ⟨"/** @var null | a* /x * */".toList, []⟩ := by
    refine format_eq_some_iff.2 ?_
    simp only [hparse]
    exact ⟨by decide, by with_unfolding_all rfl⟩
  exact ⟨⟨hoverlap, hstars⟩, _, _, hfirst, hsecond, rfl, rfl,
    format_delimited (o := {}) (by decide) (by simp) hoverlap hfirst,
    format_delimited (o := {}) (by decide) (by simp) hstars hsecond⟩

end DocComment

end Docblock
