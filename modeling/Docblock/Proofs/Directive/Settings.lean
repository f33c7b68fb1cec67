import Mathlib.Data.List.Basic
import Docblock.Directive.Settings

/-!
# The last setting of a key

The six fields of the settings are set alike: a word of a directive gives a value to one key, and
the value is read as the values of that key are. What a word does to a field is one lemma
(`Key.get_setWord`), and after several words each field is what the last value of its key reads as
(`Key.get_foldl_setWord`).

That is also so where the last value cannot be read. So a word that gives no value to a key counts
for nothing, but a value that cannot be read counts: it hides those that stand in front of it. The
last value that can be read is the one in the field just if none is hidden (`ofSource_fields`).

The keys are a type of their own only here (`Key`). The program has a record with six fields and a
chain of comparisons, and the one place where the two are held against each other is `Key.get_set`;
everything after it is about any key. What a text reads as (`Key.read?`) is the program's own
reading of numbers and of truth values, and its limits are not the subject.
-/

namespace Docblock.Settings

/-- An option that a file can set for itself. -/
inductive Key where
  | printWidth
  | docPrintWidth
  | tabWidth
  | useTabs
  | wrapText
  | expandNull

/-- What stands on the two sides of the first `=` in a word. -/
def sides? (word : Text) : Option (Text × Text) :=
  match word.dropWhile (· != '=') with
  | _ :: value => some (word.takeWhile (· != '='), value)
  | [] => none

/-- A word is a setting if it has an equals sign, and the first one divides it. -/
theorem setWord_eq (s : Settings) (word : Text) :
    s.setWord word = match sides? word with
      | some (key, value) => s.set key value
      | none => s := by
  unfold setWord sides?
  cases word.dropWhile (· != '=') <;> rfl

namespace Key

/-- The keys of all options. -/
def all : List Key := [.printWidth, .docPrintWidth, .tabWidth, .useTabs, .wrapText, .expandNull]

/-- There are six keys. -/
theorem mem_all (k : Key) : k ∈ all := by
  cases k <;> simp [all]

/-- What stands in front of the `=` to set the option. -/
def name : Key → Text
  | .printWidth => "print_width".toList
  | .docPrintWidth => "phpdoc_print_width".toList
  | .tabWidth => "tab_width".toList
  | .useTabs => "use_tabs".toList
  | .wrapText => "wrap_text".toList
  | .expandNull => "expand_null".toList

/-- No two keys have the same name. -/
theorem name_inj {j k : Key} : j.name = k.name ↔ j = k := by
  refine ⟨fun h => ?_, congrArg name⟩
  cases j <;> cases k <;> first | rfl | exact absurd h (by decide)

/-- Widths are words, flags are truth values. -/
def Value : Key → Type
  | .printWidth | .docPrintWidth | .tabWidth => UInt64
  | .useTabs | .wrapText | .expandNull => Bool

/-- The value that a text denotes. -/
def read? : (k : Key) → Text → Option k.Value
  | .printWidth | .docPrintWidth | .tabWidth => Text.readWord?
  | .useTabs | .wrapText | .expandNull => readBool?

/-- The field of the key. -/
def get : (k : Key) → Settings → Option k.Value
  | .printWidth => Settings.printWidth
  | .docPrintWidth => Settings.docPrintWidth
  | .tabWidth => Settings.tabWidth
  | .useTabs => Settings.useTabs
  | .wrapText => Settings.wrapText
  | .expandNull => Settings.expandNull

/-- The text that a word of a directive gives to a key. -/
def value? (k : Key) (word : Text) : Option Text :=
  (sides? word).bind fun (key, value) => if key = k.name then some value else none

/-- The texts that words give to a key, in order. -/
def values (k : Key) (words : List Text) : List Text := words.filterMap k.value?

/-- The last value cannot be read, and one in front of it can. -/
def Hidden (k : Key) (words : List Text) : Prop :=
  (∃ v ∈ (k.values words).getLast?, k.read? v = none) ∧ ∃ v ∈ k.values words, k.read? v ≠ none

variable {k : Key} {words : List Text} {word v : Text}

/-- A word gives a value to a key if the key's name stands before its first equals sign, and the
value is what stands behind. -/
theorem value?_eq_some_iff : k.value? word = some v ↔ sides? word = some (k.name, v) := by
  rw [value?, Option.bind_eq_some_iff]
  constructor
  · rintro ⟨⟨key, value⟩, hsides, hvalue⟩
    dsimp only at hvalue
    split at hvalue
    next hkey => rw [hsides, hkey, Option.some.inj hvalue]
    next => cases hvalue
  · intro hsides
    exact ⟨(k.name, v), hsides, if_pos rfl⟩

/-! ## What words do to a field -/

/-- Nothing is set before the first word. -/
theorem get_empty (k : Key) : k.get {} = none := by
  cases k <;> rfl

/-- A key that is none of the six sets nothing. -/
theorem get_set (k : Key) (s : Settings) (key value : Text) :
    k.get (s.set key value) = if key = k.name then k.read? value else k.get s := by
  by_cases hkey : ∃ j : Key, key = j.name
  · obtain ⟨j, rfl⟩ := hkey
    cases j <;> cases k <;> rfl
  -- no field is set, since every comparison of the chain fails
  · have hne (j : Key) : key ≠ j.name := fun h => hkey ⟨j, h⟩
    have hset : s.set key value = s :=
      (if_neg (hne .printWidth)).trans <| (if_neg (hne .docPrintWidth)).trans <|
        (if_neg (hne .tabWidth)).trans <| (if_neg (hne .useTabs)).trans <|
          (if_neg (hne .wrapText)).trans (if_neg (hne .expandNull))
    rw [hset, if_neg (hne k)]

/-- What one word does to a field. -/
theorem get_setWord (k : Key) (s : Settings) (word : Text) :
    k.get (s.setWord word) = match k.value? word with
      | some v => k.read? v
      | none => k.get s := by
  rw [setWord_eq, value?]
  cases sides? word with
  | none => rfl
  | some sides =>
    obtain ⟨key, value⟩ := sides
    dsimp only [Option.bind_some]
    rw [get_set]
    split <;> rfl

/-- What several words do to a field: the last value that they give to the key counts. -/
theorem get_foldl_setWord (k : Key) (s : Settings) (words : List Text) :
    k.get (words.foldl setWord s) = match (k.values words).getLast? with
      | some v => k.read? v
      | none => k.get s := by
  induction words generalizing s with
  | nil => rfl
  | cons word words ih =>
    rw [List.foldl_cons, ih, get_setWord, values, values, List.filterMap_cons]
    cases k.value? word with
    | none => rfl
    | some v =>
      dsimp only
      rw [List.getLast?_cons]
      cases (words.filterMap k.value?).getLast? <;> rfl

end Key

/-- Settings that agree on the six keys are the same. -/
theorem ext_get {s t : Settings} (h : ∀ k : Key, k.get s = k.get t) : s = t := by
  have h₁ : s.printWidth = t.printWidth := h .printWidth
  have h₂ : s.docPrintWidth = t.docPrintWidth := h .docPrintWidth
  have h₃ : s.tabWidth = t.tabWidth := h .tabWidth
  have h₄ : s.useTabs = t.useTabs := h .useTabs
  have h₅ : s.wrapText = t.wrapText := h .wrapText
  have h₆ : s.expandNull = t.expandNull := h .expandNull
  cases s
  cases t
  simp_all

/-! ## Words that are left out -/

/-- The word gives a value to a key. -/
def isSetting (word : Text) : Bool := Key.all.any fun k => (k.value? word).isSome

/-- The word gives a key a value that can be read. -/
def isReadable (word : Text) : Bool := Key.all.any fun k => ((k.value? word).bind k.read?).isSome

namespace Key

variable {k : Key} {words : List Text} {word v : Text}

/-- A word that gives a value to some key is a setting. -/
theorem isSetting_of_value? (h : k.value? word = some v) : isSetting word = true :=
  List.any_eq_true.2 ⟨k, k.mem_all, by rw [h]; rfl⟩

/-- A word gives a value to one key only, so it is readable if that value is. -/
theorem isReadable_of_value? (h : k.value? word = some v) :
    isReadable word = (k.read? v).isSome := by
  rw [Bool.eq_iff_iff, isReadable, List.any_eq_true]
  constructor
  · rintro ⟨j, -, hread⟩
    obtain ⟨w, hw⟩ := Option.isSome_iff_exists.1 (Option.isSome_of_isSome_bind hread)
    have hsides := (value?_eq_some_iff.1 hw).symm.trans (value?_eq_some_iff.1 h)
    obtain ⟨hname, rfl⟩ := Prod.mk.inj (Option.some.inj hsides)
    obtain rfl := name_inj.1 hname
    rwa [h] at hread
  · intro hread
    exact ⟨k, k.mem_all, by rwa [h]⟩

/-- Words that set nothing give no values. -/
theorem values_filter_isSetting : k.values (words.filter isSetting) = k.values words := by
  rw [values, values, List.filterMap_filter]
  refine List.filterMap_congr fun word _ => ?_
  cases h : k.value? word with
  | none => exact ite_self none
  | some v => exact if_pos (isSetting_of_value? h)

/-- Words that can be read give the values that can be read. -/
theorem values_filter_isReadable :
    k.values (words.filter isReadable) = (k.values words).filter fun v => (k.read? v).isSome := by
  rw [values, values, List.filterMap_filter, List.filter_filterMap]
  refine List.filterMap_congr fun word _ => ?_
  cases h : k.value? word with
  | none => exact ite_self none
  | some v =>
    rw [isReadable_of_value? h]
    rfl

end Key

/-! ## The settings of a file -/

/-- What the last element gives is the last that any element gives, unless the last one gives
nothing and another one does. -/
theorem bind_getLast?_eq_iff {α β : Type} (f : α → Option β) (xs : List α) :
    xs.getLast?.bind f = (xs.filterMap f).getLast? ↔
      ¬ ((∃ v ∈ xs.getLast?, f v = none) ∧ ∃ v ∈ xs, f v ≠ none) := by
  rcases List.eq_nil_or_concat' xs with rfl | ⟨front, last, rfl⟩
  · simp
  · rw [List.getLast?_concat, List.filterMap_append, Option.bind_some]
    cases hlast : f last with
    | some b => simp [hlast]
    | none => simp [hlast, @eq_comm _ none]

/-- The field of a key after all words. -/
theorem Key.get_words (k : Key) (words : List Text) :
    k.get (words.foldl setWord {}) = (k.values words).getLast?.bind k.read? := by
  rw [k.get_foldl_setWord, k.get_empty]
  cases (k.values words).getLast? <;> rfl

/-- Among words with values that can be read, the last value is the last that can be read. -/
theorem Key.get_readable (k : Key) (words : List Text) :
    k.get ((words.filter isReadable).foldl setWord {}) =
      ((k.values words).filterMap k.read?).getLast? := by
  rw [k.get_words, k.values_filter_isReadable]
  refine ((bind_getLast?_eq_iff k.read? _).2 ?_).trans ?_
  · rintro ⟨⟨v, hv, hnone⟩, -⟩
    have hread := (List.mem_filter.1 (List.mem_of_getLast? hv)).2
    rw [hnone] at hread
    cases hread
  · rw [List.filterMap_filter]
    congr 2
    funext v
    cases hv : k.read? v <;> rfl

/-- Each field of the settings of a file is what the last value of its key reads as. So it is the
last value that can be read just if that one is not hidden. Words that give no value can be left
out, and those with a value that cannot be read just if no key has a hidden one. -/
theorem ofSource_fields (source : Text) :
    let words := directiveWords source
    (∀ k : Key, k.get (ofSource source) = (k.values words).getLast?.bind k.read?) ∧
      (∀ k : Key, k.get (ofSource source) = ((k.values words).filterMap k.read?).getLast? ↔
        ¬ k.Hidden words) ∧
      (words.filter isSetting).foldl setWord {} = ofSource source ∧
      ((words.filter isReadable).foldl setWord {} = ofSource source ↔
        ∀ k : Key, ¬ k.Hidden words) := by
  intro words
  have hfield (k : Key) : k.get (ofSource source) = (k.values words).getLast?.bind k.read? :=
    k.get_words words
  have hlast (k : Key) : k.get (ofSource source) = ((k.values words).filterMap k.read?).getLast? ↔
      ¬ k.Hidden words := by
    rw [hfield]
    exact bind_getLast?_eq_iff k.read? _
  refine ⟨hfield, hlast, ext_get fun k => ?_, fun h k => ?_, fun h => ext_get fun k => ?_⟩
  · rw [k.get_words, k.values_filter_isSetting, hfield]
  · rw [← hlast, ← h, k.get_readable]
  · rw [k.get_readable, (hlast k).2 (h k)]

/-- A width that cannot be read stands behind one that can. -/
theorem ofSource_unreadable :
    let source := "<?php\n// phpdoc-fmt-test: print_width=40 print_width=wide\n".toList
    let words := directiveWords source
    ((Key.printWidth.values words).filterMap Text.readWord?).getLast? = some 40 ∧
      (ofSource source).printWidth = none ∧
      (words.filter isReadable).foldl setWord {} ≠ ofSource source := by
  decide +kernel

end Docblock.Settings
