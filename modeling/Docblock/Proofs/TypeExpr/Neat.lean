import Docblock.Proofs.TypeExpr.Leaves
import Docblock.Proofs.Text.Words

/-!
# The lines of a written type

A type is broken only behind something and before something: no line of it is blank, ends with white
space, or could be taken for a tag. The text of the type as a whole is `Text.Neat`, which passes
along the tree from the parts of a type to the type; the lines follow from the text.

Literals are the exception. Their bodies are kept as they are, so a line of a type is in one piece
only if its literals are, and what is asked of them is stated where it is used. That no line is
taken for a tag needs nothing of the kind, for a literal stands behind its quote.
-/

namespace Docblock

namespace Text

/-- A text that begins and ends with something, and is broken only behind something. -/
structure Neat (t : Text) : Prop where
  first : ∃ c ∈ t.head?, isBlank c = false
  last : ∃ c ∈ t.getLast?, isBlank c = false
  breaks : ∀ c, isBlank c = true → NoPair c '\n' t

/-- What may stand between two neat texts. -/
def Joins (g : Text) : Prop := ∀ a b, Neat a → Neat b → Neat (a ++ (g ++ b))

/-- On one line it is enough to begin and to end with something. -/
theorem neat_of_lf_not_mem {t : Text} (hlf : '\n' ∉ t)
    (hfirst : ∃ c ∈ t.head?, isBlank c = false) (hlast : ∃ c ∈ t.getLast?, isBlank c = false) :
    Neat t :=
  ⟨hfirst, hlast, fun _ _ hpair => hlf (hpair.subset (by simp))⟩

/-- A word is neat. -/
theorem Unbroken.neat {w : Text} (h : Unbroken w) : Neat w := by
  refine neat_of_lf_not_mem h.lf_not_mem ?_ ?_
  · obtain ⟨c, r, rfl⟩ := List.exists_cons_of_ne_nil h.ne_nil
    exact ⟨c, rfl, h.not_isBlank c List.mem_cons_self⟩
  · have hlast := List.getLast?_eq_some_getLast h.ne_nil
    exact ⟨_, hlast, h.not_isBlank _ (List.mem_of_mem_getLast? hlast)⟩

/-- A character that is no white space is neat. -/
theorem neat_singleton {c : Char} (hc : isBlank c = false) : Neat [c] :=
  Unbroken.neat ⟨by simp, by simpa using hc⟩

/-- White space joins if it has no line feed but at its front. -/
theorem joins_of_allBlank {g : Text} (hg : ∀ c ∈ g, isBlank c = true) (hlf : '\n' ∉ g.tail) :
    Joins g := by
  intro a b ha hb
  have hpair (c : Char) : NoPair c '\n' g := by
    cases g with
    | nil => exact noPair_nil
    | cons d g =>
      refine noPair_cons.2 ⟨fun h => hlf (List.mem_of_mem_head? h.2), fun h => hlf ?_⟩
      exact h.subset (by simp)
  obtain ⟨x, hx, hxb⟩ := ha.first
  obtain ⟨y, hy, hyb⟩ := hb.last
  refine ⟨⟨x, ?_, hxb⟩, ⟨y, ?_, hyb⟩, fun c hc => ?_⟩
  · rw [List.head?_append, Option.mem_def.1 hx]
    rfl
  · rw [List.getLast?_append, List.getLast?_append, Option.mem_def.1 hy]
    rfl
  · obtain ⟨z, hz, hzb⟩ := ha.last
    obtain ⟨u, hu, hub⟩ := hb.first
    refine noPair_append.2 ⟨ha.breaks c hc, noPair_append.2 ⟨hpair c, hb.breaks c hc, ?_⟩, ?_⟩
    · rintro ⟨-, hlf⟩
      obtain rfl : u = '\n' := by simpa [Option.mem_def.1 hu] using hlf
      exact absurd hub (by decide)
    · rintro ⟨hcz, -⟩
      obtain rfl : z = c := by simpa [Option.mem_def.1 hz] using hcz
      rw [hc] at hzb
      cases hzb

/-- Neat texts are neat one behind the other. -/
theorem Neat.append {a b : Text} (ha : Neat a) (hb : Neat b) : Neat (a ++ b) :=
  joins_of_allBlank (g := []) (by simp) (by simp) a b ha hb

/-- A space may stand between neat texts. -/
theorem joins_space : Joins [' '] := joins_of_allBlank (by decide) (by simp)

/-- Something joins between two joints. -/
theorem Joins.around {g h m : Text} (hg : Joins g) (hm : Neat m) (hh : Joins h) :
    Joins (g ++ (m ++ h)) := by
  intro a b ha hb
  have hinner := hg a _ ha (hh m b hm hb)
  simpa using hinner

/-- A joint stands behind a character that is no white space. -/
theorem Joins.cons {c : Char} {g : Text} (hg : Joins g) (hc : isBlank c = false) :
    Joins (c :: g) := by
  intro a b ha hb
  simpa using ha.append (hg [c] b (neat_singleton hc) hb)

/-- Neat texts are neat with what may stand between them as separators. -/
theorem Joins.intercalate {g : Text} (hg : Joins g) {rows : List Text} (hne : rows ≠ [])
    (h : ∀ row ∈ rows, Neat row) : Neat (g.intercalate rows) := by
  induction rows with
  | nil => exact absurd rfl hne
  | cons row rows ih =>
    obtain ⟨hrow, hrows⟩ := List.forall_mem_cons.1 h
    cases rows with
    | nil => simpa using hrow
    | cons next rows =>
      rw [List.intercalate_cons_cons, List.append_assoc]
      exact hg row _ hrow (ih (by simp) hrows)

/-- The first line of a neat text begins with something. -/
theorem Neat.head?_unpieces {l : Text} {ls : List Text} (h : Neat (unpieces (l :: ls))) :
    ∃ c ∈ l.head?, isBlank c = false := by
  obtain ⟨c, hc, hblank⟩ := h.first
  rw [unpieces_cons] at hc
  cases l with
  | cons d l => exact ⟨c, hc, hblank⟩
  | nil =>
    cases ls with
    | nil => cases hc
    | cons next ls =>
      obtain rfl : '\n' = c := by simpa using hc
      exact absurd hblank (by decide)

/-- No line of a neat text is blank, or ends with white space. -/
theorem Neat.of_mem {ls : List Text} (h : Neat (unpieces ls)) :
    ∀ l ∈ ls, trimEnd l = l ∧ allBlank l = false := by
  suffices hlines : ∀ l ∈ ls, trimEnd l = l ∧ l ≠ [] from
    fun l hl => ⟨(hlines l hl).1, allBlank_eq_false_of_trimEnd (hlines l hl).1 (hlines l hl).2⟩
  obtain ⟨c, hc, hcb⟩ := h.first
  have hfirst : (unpieces ls).head? ≠ some '\n' := by
    rw [Option.mem_def.1 hc]
    rintro ⟨⟩
    exact absurd hcb (by decide)
  have hlast := h.last
  have hbreaks := h.breaks
  clear h hc hcb
  -- a line may begin with white space, but not with a line feed
  induction ls with
  | nil => simp
  | cons l ls ih =>
    cases ls with
    | nil =>
      rw [List.forall_mem_singleton]
      simp only [unpieces, List.intercalate_singleton] at hfirst hlast
      obtain ⟨d, hd, hdb⟩ := hlast
      refine ⟨trimEnd_eq_self_iff.2 fun e he => ?_, ?_⟩
      · cases Option.mem_unique he hd
        exact hdb
      · rintro rfl
        cases hd
    | cons m ls =>
      rw [unpieces_cons_cons] at hfirst hlast hbreaks
      have hrest (e : Char) (he : isBlank e = true) :
          NoPair e '\n' l ∧ NoPair e '\n' ('\n' :: unpieces (m :: ls)) ∧
            ¬ (l.getLast? = some e ∧ ('\n' :: unpieces (m :: ls)).head? = some '\n') :=
        noPair_append.1 (hbreaks e he)
      refine List.forall_mem_cons.2 ⟨⟨?_, ?_⟩, ih ?_ ?_ ?_⟩
      · refine trimEnd_eq_self_iff.2 fun e he => ?_
        by_contra hblank
        exact (hrest e (by simpa using hblank)).2.2 ⟨he, rfl⟩
      · rintro rfl
        exact hfirst rfl
      · intro hhead
        exact (noPair_cons.1 (hrest '\n' (by decide)).2.1).1 ⟨rfl, hhead⟩
      · obtain ⟨d, hd, hdb⟩ := hlast
        refine ⟨d, ?_, hdb⟩
        rw [List.getLast?_append, List.getLast?_cons] at hd
        cases hlast : (unpieces (m :: ls)).getLast? with
        | some e => simpa [hlast] using hd
        | none =>
          obtain rfl : '\n' = d := by simpa [hlast] using hd
          exact absurd hdb (by decide)
      · exact fun e he => (noPair_cons.1 (hrest e he).2.1).2

end Text

open Text

namespace TypeExpr

variable {level : WrapLevel} {unit : Text}

/-- What is written in a gap may stand between neat texts: a break comes first in it, and the
indentation then. -/
theorem joins_gapText (hunit : ∀ c ∈ unit, c = ' ' ∨ c = '\t') (threshold : WrapLevel)
    (depth : Nat) {inline : Text} (hinline : inline = [] ∨ inline = [' ']) :
    Joins (Piece.gapText level unit threshold depth inline) := by
  have hindent : ∀ c ∈ (List.replicate depth unit).flatten, c = ' ' ∨ c = '\t' := by
    intro c hc
    obtain ⟨u, hu, hc⟩ := List.mem_flatten.1 hc
    exact hunit c (List.eq_of_mem_replicate hu ▸ hc)
  unfold Piece.gapText
  split
  · refine joins_of_allBlank (List.forall_mem_cons.2 ⟨by decide, fun c hc => ?_⟩) fun hlf => ?_
    · rcases hindent c hc with rfl | rfl <;> decide
    · rcases hindent _ hlf with h | h <;> cases h
  · rcases hinline with rfl | rfl
    · exact joins_of_allBlank (by simp) (by simp)
    · exact joins_space

/-- Rows between two marks, parted by commas. -/
theorem neat_block {before between after : Text} (hbefore : Joins before)
    (hbetween : Joins between) (hafter : Joins after) {rows : List Text} (hne : rows ≠ [])
    (hrows : ∀ row ∈ rows, Neat row) {left right : Char} (hleft : isBlank left = false)
    (hright : isBlank right = false) :
    Neat (left :: (before ++ ((',' :: between).intercalate rows ++ (after ++ [right])))) := by
  have hinner := (hbetween.cons (by decide : isBlank ',' = false)).intercalate hne hrows
  have hclose := hafter _ [right] hinner (neat_singleton hright)
  exact hbefore [left] _ (neat_singleton hleft) hclose

/-- The words of sequences are neat. -/
theorem neat_word (kind : SequenceKind) : Neat kind.word :=
  Unbroken.neat ⟨by cases kind <;> decide, by cases kind <;> decide⟩

end TypeExpr

open TypeExpr

/-- A tree whose leaves are in one piece has a neat text. -/
theorem WellFormed.neat {level : WrapLevel} {unit : Text} (hunit : ∀ c ∈ unit, c = ' ' ∨ c = '\t')
    {place : TypePlace} {t : TypeExpr} (h : WellFormed place t)
    (hleaves : t.Leaves Unbroken ('\n' ∉ ·)) (depth : Nat) :
    Neat (t.written level unit depth) := by
  have hgap (threshold : WrapLevel) (depth : Nat) :
      Joins (Piece.gapText level unit threshold depth []) :=
    joins_gapText hunit threshold depth (.inl rfl)
  have hspace (threshold : WrapLevel) (depth : Nat) :
      Joins (Piece.gapText level unit threshold depth [' ']) :=
    joins_gapText hunit threshold depth (.inr rfl)
  have hchar {c : Char} (hc : isBlank c = false) : Neat [c] := neat_singleton hc
  induction h generalizing depth with
  | nullable _ ih =>
    cases hleaves with
    | nullable hinner =>
      rw [written_nullable]
      exact (hchar (by decide)).append (ih hinner depth)
  | named =>
    cases hleaves with
    | named hname =>
      rw [written_named]
      exact hname.neat
  | @generic place name args _ _ _ hne hwf hqualifies ih =>
    cases hleaves with
    | generic hbase hargs =>
      cases hbase with
      | named hname =>
        have hrows : ∀ row ∈ args.map (written level unit (depth + 1)), Neat row := by
          intro row hrow
          obtain ⟨a, ha, rfl⟩ := List.mem_map.1 hrow
          have hneat := ih a ha
          have hqualified := hqualifies a ha
          have hleaf := hargs a ha
          cases a with
          | qualified modifier target =>
            obtain ⟨⟨name, rfl, -⟩, -⟩ := hqualified
            cases hleaf with
            | qualified hmodifier htarget =>
              cases hmodifier with
              | named hmodifier =>
                rw [written_qualified, written_named]
                exact joins_space name _ hmodifier.neat (hneat htarget (depth + 1))
          | _ => exact hneat hleaf (depth + 1)
        rw [written_generic, written_named]
        exact hname.neat.append (neat_block (hgap _ _) (hspace _ _) (hgap _ _) (by simpa using hne)
          hrows (by decide) (by decide))
  | constant _ _ _ ih₁ ih₂ =>
    cases hleaves with
    | constant howner hmember =>
      rw [written_constant]
      have hcolon := hchar (by decide : isBlank ':' = false)
      exact (ih₁ howner depth).append (hcolon.append (hcolon.append (ih₂ hmember depth)))
  | @shape place es _ _ ih₁ ih₂ =>
    cases hleaves with
    | shape hvalues hkeys =>
      cases es with
      | nil =>
        rw [written_shape_nil]
        exact (neat_word .array).append ((hchar (by decide)).append (hchar (by decide)))
      | cons e es =>
        have hrows : ∀ row ∈ (e :: es).map (writtenEntry level unit (depth + 1)), Neat row := by
          intro row hrow
          obtain ⟨e, he, rfl⟩ := List.mem_map.1 hrow
          have hvalue := ih₁ e he (hvalues e he) (depth + 1)
          have hkey := fun key h => ih₂ e he key h (hkeys e he key h) (depth + 1)
          cases e with
          | positional value => exact hvalue
          | keyed key isOptional value =>
            have hcolon := joins_space [':'] _ (hchar (by decide)) hvalue
            rw [writtenEntry_keyed]
            cases isOptional with
            | false => exact (hkey key rfl).append hcolon
            | true => exact (hkey key rfl).append ((hchar (by decide)).append hcolon)
        rw [written_shape_cons]
        exact (neat_word .array).append (neat_block (hgap _ _) (hspace _ _) (hgap _ _) (by simp)
          hrows (by decide) (by decide))
  | record _ _ ih₁ ih₂ =>
    cases hleaves with
    | record hkey hvalue =>
      rw [written_record]
      have hclose := (ih₂ hvalue depth).append (hchar (by decide : isBlank '>' = false))
      have hcomma := joins_space [','] _ (hchar (by decide)) hclose
      exact (neat_word .array).append
        ((hchar (by decide)).append ((ih₁ hkey depth).append hcomma))
  | sequence _ ih =>
    cases hleaves with
    | sequence hitem =>
      rw [written_sequence]
      have hclose := (ih hitem depth).append (hchar (by decide : isBlank '>' = false))
      exact (neat_word _).append ((hchar (by decide)).append hclose)
  | arrayOf _ _ ih =>
    cases hleaves with
    | arrayOf hitem =>
      rw [written_arrayOf]
      exact (ih hitem depth).append ((hchar (by decide)).append (hchar (by decide)))
  | @union place branches _ hlength _ _ ih =>
    cases hleaves with
    | union hbranches =>
      rw [written_union]
      have hjoins := joins_space.around (hchar (by decide : isBlank '|' = false)) joins_space
      refine Joins.intercalate hjoins (fun h => ?_) fun row hrow => ?_
      · simp [List.map_eq_nil_iff.1 h] at hlength
      · obtain ⟨b, hb, rfl⟩ := List.mem_map.1 hrow
        exact ih b hb (hbranches b hb) depth
  | @callable place callee ps result _ _ _ _ hnames _ ih₁ ih₂ ih₃ =>
    cases hleaves with
    | callable hcallee hps hnamed hresult =>
      have hcolon := joins_space [':'] _ (hchar (by decide)) (ih₃ hresult depth)
      have hclose := (hchar (by decide : isBlank ')' = false)).append hcolon
      have hrows : ∀ row ∈ ps.map (writtenParameter level unit depth), Neat row := by
        intro row hrow
        obtain ⟨p, hp, rfl⟩ := List.mem_map.1 hrow
        have htype := ih₂ p hp (hps p hp) depth
        have hname := hnamed p hp
        cases p with
        | unnamed type => exact htype
        | named type name =>
          rw [writtenParameter_named]
          split
          · exact htype.append (hname name rfl).neat
          · exact joins_space _ name htype (hname name rfl).neat
      have hinner : Neat ([',', ' '].intercalate (ps.map (writtenParameter level unit depth)) ++
          ')' :: ':' :: ' ' :: result.written level unit depth) := by
        cases ps with
        | nil => exact hclose
        | cons p ps =>
          have hjoins := joins_space.cons (by decide : isBlank ',' = false)
          exact (hjoins.intercalate (by simp) hrows).append hclose
      rw [written_callable]
      exact (ih₁ hcallee depth).append ((hchar (by decide)).append hinner)
  | @literal place quote body =>
    cases hleaves with
    | literal hbody =>
      have hquote : isBlank quote.char = false := by cases quote <;> decide
      have hne : quote.char ≠ '\n' := by cases quote <;> decide
      rw [written_literal]
      refine neat_of_lf_not_mem ?_ ⟨_, rfl, hquote⟩ ⟨quote.char, ?_, hquote⟩
      · simp [hbody, Ne.symm hne]
      · simp [List.getLast?_cons]
  | group _ ih =>
    cases hleaves with
    | group hinner =>
      rw [written_group]
      exact (hchar (by decide)).append ((ih hinner depth).append (hchar (by decide)))
  | conditional _ _ _ _ _ _ ih₁ ih₂ ih₃ ih₄ =>
    cases hleaves with
    | conditional hsubject hbound hconsequent halternative =>
      have his : Neat ['i', 's'] := Unbroken.neat ⟨by simp, by decide⟩
      have hclause (mark rest : Text) (hmark : Neat mark) (hrest : Neat rest) :
          Neat (mark ++ ' ' :: rest) := joins_space mark rest hmark hrest
      have h₄ := hclause [':'] _ (hchar (by decide)) (ih₄ halternative (depth + 1))
      have h₃ := hspace .clauses (depth + 1) _ _ (ih₃ hconsequent (depth + 1)) h₄
      have h₂ := hspace .clauses (depth + 1) _ _ (ih₂ hbound (depth + 1))
        (hclause ['?'] _ (hchar (by decide)) h₃)
      rw [written_conditional]
      exact hspace .clauses (depth + 1) _ _ (ih₁ hsubject depth) (hclause _ _ his h₂)
  | ellipsis =>
    rw [written_ellipsis]
    exact Unbroken.neat ⟨by simp, by decide⟩

/-! ## Lines -/

/-- The white space of a text is spaces, tabs and line feeds. -/
def Text.PlainBlanks (t : Text) : Prop :=
  ∀ c ∈ t, isBlank c = true → c = ' ' ∨ c = '\t' ∨ c = '\n'

/-- In a text of plain white space a name is a word, for characters beyond ASCII that are white
space could be in it elsewhere. -/
theorem Token.IsName.unbroken {w text : Text} (h : Token.IsName w) (hw : w <:+: text)
    (htext : PlainBlanks text) : Unbroken w := by
  refine ⟨List.ne_nil_of_length_pos h.length_pos, fun c hc => ?_⟩
  by_contra hblank
  rcases htext c (hw.subset hc) (by simpa using hblank) with rfl | rfl | rfl
  all_goals exact h.not_mem (by decide) (by decide) hc

/-- In a text of plain white space the name of a parameter is a word. -/
theorem Token.IsParameterName.unbroken {w text : Text} (h : Token.IsParameterName w)
    (hw : w <:+: text) (htext : PlainBlanks text) : Unbroken w := by
  refine ⟨?_, fun c hc => ?_⟩
  · obtain ⟨start, -, hword⟩ := h
    exact List.ne_nil_of_length_pos hword.length_pos
  · by_contra hblank
    rcases htext c (hw.subset hc) (by simpa using hblank) with rfl | rfl | rfl
    all_goals exact h.not_mem (by decide) (by decide) hc

/-- The text begins with no `@`, whatever white space stands in front. -/
def BeginsNoTag (t : Text) : Prop := (trimStart t).head? ≠ some '@'

/-- Of two texts that begin no tag none is made. -/
theorem BeginsNoTag.append {a b : Text} (ha : BeginsNoTag a) (hb : BeginsNoTag b) :
    BeginsNoTag (a ++ b) := by
  unfold BeginsNoTag trimStart at *
  rw [List.dropWhile_append]
  split
  · exact hb
  · next hne =>
    rw [List.isEmpty_iff] at hne
    obtain ⟨c, r, hr⟩ := List.exists_cons_of_ne_nil hne
    rw [hr] at ha ⊢
    exact ha

/-- What stands behind a text that is more than white space makes no tag of it. -/
theorem BeginsNoTag.append_of_full {a : Text} (ha : BeginsNoTag a) (hfull : allBlank a = false)
    (b : Text) : BeginsNoTag (a ++ b) := by
  obtain ⟨c, r, hr⟩ := List.exists_cons_of_ne_nil (trimStart_ne_nil hfull)
  rw [BeginsNoTag, hr] at ha
  rw [BeginsNoTag, trimStart_append hfull, hr]
  exact ha

/-- Without an `@` no tag begins. -/
theorem beginsNoTag_of_not_mem {t : Text} (h : '@' ∉ t) : BeginsNoTag t :=
  fun hhead => h ((trimStart_suffix t).subset (List.mem_of_mem_head? hhead))

/-- A line of a written type. -/
structure TypeLine (l : Text) : Prop where
  trimmed : trimEnd l = l
  allBlank : allBlank l = false
  lf_not_mem : '\n' ∉ l
  noTag : BeginsNoTag l

section Lines

variable {location text : Text} {parsed : Parsed}

/-- A type that was read has names in one piece, and so have its literals by assumption. -/
theorem leaves_arrange (hparsed : parse location text = .ok parsed) (htext : PlainBlanks text)
    (hliterals : parsed.type.Leaves (fun _ => True) ('\n' ∉ ·)) (expand : Bool) :
    (arrange expand parsed.type).Leaves Unbroken ('\n' ∉ ·) := by
  obtain ⟨r, hreads, -⟩ := parse_eq_ok_iff.1 hparsed
  have hwords : parsed.type.Leaves Unbroken (· <:+: text) :=
    (hreads.leaves (fun _ hw hpart => hw.unbroken hpart htext)
      (fun _ hw hpart => hw.unbroken hpart htext) (List.suffix_refl text)).2
  have hnull : Unbroken "null".toList := ⟨by decide, by decide⟩
  exact (hwords.combine hliterals).arrange hnull

/-- The text of a type that was read. -/
theorem neat_unpieces_lines (hparsed : parse location text = .ok parsed)
    (htext : PlainBlanks text) (hliterals : parsed.type.Leaves (fun _ => True) ('\n' ∉ ·))
    {o : Options} (hexpand : o.expandNull = false)
    (hunit : ∀ c ∈ o.indentUnit, c = ' ' ∨ c = '\t') (level : WrapLevel) :
    Neat (unpieces (parsed.type.lines o level)) := by
  obtain ⟨r, hreads, -⟩ := parse_eq_ok_iff.1 hparsed
  rw [unpieces_lines, hexpand]
  exact hreads.shaped.1.arrange.neat hunit (leaves_arrange hparsed htext hliterals false) 0

/-- The literals of a type that was read off one line are in one piece. -/
theorem leaves_of_lf_not_mem (hparsed : parse location text = .ok parsed) (htext : '\n' ∉ text) :
    parsed.type.Leaves (fun _ => True) ('\n' ∉ ·) := by
  obtain ⟨r, hreads, -⟩ := parse_eq_ok_iff.1 hparsed
  have hleaves : parsed.type.Leaves (fun _ => True) (· <:+: text) :=
    (hreads.leaves (fun _ _ _ => trivial) (fun _ _ _ => trivial) (List.suffix_refl text)).2
  refine hleaves.mono (fun _ => id) fun body hbody => ?_
  exact fun hmem => htext (hbody.subset hmem)

/-- No line of a type that was read is broken again, if its literals are in one piece. -/
theorem lf_not_mem_of_mem_lines (hparsed : parse location text = .ok parsed)
    (hliterals : parsed.type.Leaves (fun _ => True) ('\n' ∉ ·)) {o : Options}
    (hunit : '\n' ∉ o.indentUnit) (level : WrapLevel) :
    ∀ l ∈ parsed.type.lines o level, '\n' ∉ l := by
  obtain ⟨r, hreads, -⟩ := parse_eq_ok_iff.1 hparsed
  have hnames : parsed.type.Leaves ('\n' ∉ ·) (· <:+: text) :=
    (hreads.leaves (fun _ hw _ => hw.not_mem (by decide) (by decide))
      (fun _ hw _ => hw.not_mem (by decide) (by decide)) (List.suffix_refl text)).2
  have hleaves : (arrange o.expandNull parsed.type).Leaves ('\n' ∉ ·) ('\n' ∉ ·) :=
    (hnames.combine hliterals).arrange (by decide)
  have hquote (quote : Quote) : '\n' ≠ quote.char := by cases quote <;> decide
  refine List.forall_mem_cons.2 (Piece.each_render (P := ('\n' ∉ ·)) List.not_mem_nil ?_ hunit ?_)
  · exact fun _ _ ha hb => by simp [ha, hb]
  · exact hleaves.pieces (fun _ _ _ h => h) (fun _ h => by simpa using h)
      (fun quote body h => by simp [h, hquote]) 0

/-- No line of a type that was read could be taken for a tag: a name holds no `@`, and a literal
begins with its quote. -/
theorem beginsNoTag_of_mem_lines (hparsed : parse location text = .ok parsed) {o : Options}
    (hunit : '@' ∉ o.indentUnit) (level : WrapLevel) :
    ∀ l ∈ parsed.type.lines o level, BeginsNoTag l := by
  obtain ⟨r, hreads, -⟩ := parse_eq_ok_iff.1 hparsed
  have hnames : parsed.type.Leaves ('@' ∉ ·) (· <:+: text) :=
    (hreads.leaves (fun _ hw _ => hw.not_mem (by decide) (by decide))
      (fun _ hw _ => hw.not_mem (by decide) (by decide)) (List.suffix_refl text)).2
  have hfree : (arrange o.expandNull parsed.type).Leaves ('@' ∉ ·) (· <:+: text) :=
    hnames.arrange (by decide)
  have hquote (quote : Quote) : quote.char ≠ '@' ∧ isBlank quote.char = false := by
    cases quote <;> decide
  refine List.forall_mem_cons.2 (Piece.each_render (P := BeginsNoTag) ?_ ?_ ?_ ?_)
  · exact beginsNoTag_of_not_mem (by simp)
  · exact fun _ _ => BeginsNoTag.append
  · exact beginsNoTag_of_not_mem hunit
  · exact hfree.pieces (fun _ _ h _ => beginsNoTag_of_not_mem h)
      (fun _ h => ⟨beginsNoTag_of_not_mem h, beginsNoTag_of_not_mem (by simpa using h)⟩)
      (fun quote body _ => by simp [BeginsNoTag, trimStart, hquote]) 0

/-- The lines of a type that was read, if its literals are in one piece. -/
theorem typeLine_of_mem_lines (hparsed : parse location text = .ok parsed)
    (htext : PlainBlanks text) (hliterals : parsed.type.Leaves (fun _ => True) ('\n' ∉ ·))
    {o : Options} (hexpand : o.expandNull = false)
    (hunit : ∀ c ∈ o.indentUnit, c = ' ' ∨ c = '\t') (level : WrapLevel) :
    ∀ l ∈ parsed.type.lines o level, TypeLine l := by
  -- the three facts about lines come from the text, from its line feeds and from its words
  have hneat := neat_unpieces_lines hparsed htext hliterals hexpand hunit level
  have hlf := lf_not_mem_of_mem_lines hparsed hliterals
    (fun hmem => by simpa using hunit _ hmem) level
  have htag := beginsNoTag_of_mem_lines hparsed (o := o)
    (fun hmem => by simpa using hunit _ hmem) level
  intro l hl
  obtain ⟨htrim, hfull⟩ := hneat.of_mem l hl
  exact ⟨htrim, hfull, hlf l hl, htag l hl⟩

end Lines

end Docblock
