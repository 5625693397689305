import ClientBindings.Proofs.Shown
import ClientBindings.Proofs.Text
import ClientBindings.Proofs.TypeTree
import ClientBindings.Source.Module

/-! Annotations whose names are all known. Texts are read off the grammar that the writer follows: names,
literals, applications to arguments, unions, and annotations in quotes. Infinite floats and the one that is no number
are shown as words, which are names like any others. -/

namespace ClientBindings

open TypeText

/-- The name that the literal of a scalar mentions. -/
def Literal.word? : Scalar → Option String
  | .float .nan => some "nan"
  | .float (.infinite _) => some "inf"
  | _ => none

/-- A text that is an annotation and names nothing unknown. -/
inductive Annotation (Known : String → Prop) : String → Prop
  | name {n : String} : Known n → Annotation Known n
  | null : Annotation Known "None"
  | literals {texts : List String} : Known "Literal" →
      (∀ text ∈ texts, ∃ v : Scalar, v.isPlain = true ∧ (∀ n ∈ Literal.word? v, Known n) ∧ text = Literal.spelling v) →
      Annotation Known (TypeText.literals texts)
  | apply {head : String} {arguments : List String} : Known head →
      (∀ a ∈ arguments, Annotation Known a) →
      Annotation Known (head ++ "[" ++ String.intercalate ", " arguments ++ "]")
  | union {parts : List String} : parts ≠ [] → (∀ p ∈ parts, Annotation Known p) →
      Annotation Known (String.intercalate " | " parts)
  | quoted {text : String} : Annotation Known text → Annotation Known (Literal.quoted text)

/-- A name that is known or one of some words. -/
def Beside (Known : String → Prop) (words : List String) (n : String) : Prop := Known n ∨ n ∈ words

/-- The texts of a declaration that are annotations. -/
def RecordDeclaration.annotations (d : RecordDeclaration) : List String := d.fields.map FieldDeclaration.type

def Declaration.annotations : Declaration → List String
  | .record d => d.annotations
  | .enumeration _ => []
  | .synonym d => [d.type]

/-- A declaration that names nothing unknown, beside some words in literals. -/
structure Declaration.Closed (Known : String → Prop) (words : List String) (d : Declaration) : Prop where
  annotations : ∀ text ∈ d.annotations, Annotation (Beside Known words) text
  bases : ∀ base ∈ d.bases, Known base

theorem Beside.mono {Known More : String → Prop} {words : List String} (hmore : ∀ n, Known n → More n) (n : String)
    (h : Beside Known words n) : Beside More words n := h.imp_left (hmore n)

theorem Beside.known {Known : String → Prop} {n : String} (h : Beside Known [] n) : Known n :=
  h.resolve_right List.not_mem_nil

namespace Annotation
variable {Known More : String → Prop} {text : String}

theorem mono (hmore : ∀ n, Known n → More n) (h : Annotation Known text) : Annotation More text := by
  induction h with
  | name h => exact .name (hmore _ h)
  | null => exact .null
  | literals h htexts =>
    refine .literals (hmore _ h) fun text htext => ?_
    obtain ⟨v, hplain, hword, rfl⟩ := htexts text htext
    exact ⟨v, hplain, fun n hn => hmore n (hword n hn), rfl⟩
  | apply h _ ih => exact .apply (hmore _ h) ih
  | union hne _ ih => exact .union hne ih
  | quoted _ ih => exact .quoted ih

/-! ## What the writer writes -/

section
variable (himports : ∀ n ∈ Module.importedNames, Known n)
include himports

theorem primitive (p : Primitive) : Annotation Known (TypeText.primitive p) := by
  cases p <;> exact .name (himports _ (by decide))

theorem literal {v : Scalar} (h : v.isPlain = true) (hword : ∀ n ∈ Literal.word? v, Known n) :
    Annotation Known (TypeText.literal v) := by
  have hliterals : Annotation Known (TypeText.literals [Literal.spelling v]) := by
    refine .literals (himports _ (by decide)) ?_
    intro text htext
    exact ⟨v, h, hword, List.mem_singleton.mp htext⟩
  cases v with
  | null => exact .null
  | _ => exact hliterals

theorem listOf (h : Annotation Known text) : Annotation Known (TypeText.listOf text) := by
  have happly : Annotation Known ("list" ++ "[" ++ String.intercalate ", " [text] ++ "]") :=
    .apply (himports _ (by decide)) (by simpa using h)
  rwa [String.intercalate_singleton] at happly

theorem mappingTo (h : Annotation Known text) : Annotation Known (TypeText.mappingTo text) := by
  have happly : Annotation Known ("dict" ++ "[" ++ String.intercalate ", " ["str", text] ++ "]") := by
    refine .apply (himports _ (by decide)) ?_
    intro a ha
    rcases List.mem_cons.mp ha with rfl | ha
    · exact .name (himports _ (by decide))
    · rwa [List.mem_singleton.mp ha]
  rw [String.intercalate_cons_cons, String.intercalate_singleton] at happly
  have htext : "dict" ++ "[" ++ ("str" ++ ", " ++ text) ++ "]" = TypeText.mappingTo text := by
    rw [TypeText.mappingTo, ← String.append_assoc, ← String.append_assoc]
    rfl
  rwa [htext] at happly

theorem mapping : Annotation Known TypeText.mapping := by
  have htext : TypeText.mapping = TypeText.mappingTo "Any" := by decide
  rw [htext]
  exact mappingTo himports (.name (himports _ (by decide)))

theorem optional (h : Annotation Known text) (required : Bool) :
    Annotation Known (TypeText.optional text required) := by
  rw [TypeText.optional]
  split
  · exact h
  · have happly : Annotation Known ("NotRequired" ++ "[" ++ String.intercalate ", " [text] ++ "]") :=
      .apply (himports _ (by decide)) (by simpa using h)
    rwa [String.intercalate_singleton] at happly

theorem unionOf {parts : List String} (h : ∀ p ∈ parts, Annotation Known p) :
    Annotation Known (if parts.isEmpty then "NoReturn" else String.intercalate " | " parts) := by
  split
  · exact .name (himports _ (by decide))
  · rename_i hne
    exact .union (by simpa using hne) h

end

/-! ## The words of an annotation -/

section
open Text

/-- What stands between names. -/
def isBreak (c : Char) : Bool := ['[', ']', ',', '|', ' '].contains c

/-- The pieces of an annotation between brackets, commas and bars. -/
def words (cs : List Char) : List (List Char) := splitOn ' ' (cs.map fun c => if isBreak c then ' ' else c)

variable {c : Char} {cs before after separator word : List Char}

theorem words_append_cons (hc : isBreak c = true) (before after : List Char) :
    words (before ++ c :: after) = words before ++ words after := by
  rw [words, List.map_append, List.map_cons, if_pos hc, splitOn_append_cons]
  rfl

theorem words_of_forall (h : ∀ c ∈ cs, isBreak c = false) : words cs = [cs] := by
  have hmap : (cs.map fun c => if isBreak c then ' ' else c) = cs :=
    map_eq_self fun c hc => if_neg (h c hc ▸ Bool.false_ne_true)
  rw [words, hmap]
  exact splitOn_of_not_mem fun hblank => absurd (h ' ' hblank) (by decide)

/-- Breaks separate words, but for empty ones between them. -/
theorem mem_words_append (hne : separator ≠ []) (hseparator : ∀ c ∈ separator, isBreak c = true) (hword : word ≠ [])
    (h : word ∈ words (before ++ separator ++ after)) : word ∈ words before ∨ word ∈ words after := by
  induction separator generalizing before with
  | nil => exact absurd rfl hne
  | cons c separator ih =>
    obtain ⟨hc, hseparator⟩ := List.forall_mem_cons.mp hseparator
    rw [List.append_assoc, List.cons_append, words_append_cons hc] at h
    rcases List.mem_append.mp h with h | h
    · exact .inl h
    · cases separator with
      | nil => exact .inr h
      | cons d separator =>
        have hrest : word ∈ words [] ∨ word ∈ words after := ih (List.cons_ne_nil d separator) hseparator h
        rcases hrest with hnil | h
        · exact absurd (List.mem_singleton.mp hnil) hword
        · exact .inr h

theorem mem_words_join (hne : separator ≠ []) (hseparator : ∀ c ∈ separator, isBreak c = true) (hword : word ≠ [])
    {pieces : List (List Char)} (h : word ∈ words (join separator pieces)) : ∃ piece ∈ pieces, word ∈ words piece := by
  induction pieces with
  | nil => exact absurd (List.mem_singleton.mp h) hword
  | cons piece pieces ih =>
    cases pieces with
    | nil =>
      rw [join, List.intercalate_singleton] at h
      exact ⟨piece, List.mem_singleton_self piece, h⟩
    | cons next pieces =>
      rw [join_cons_cons] at h
      rcases mem_words_append hne hseparator hword h with h | h
      · exact ⟨piece, List.mem_cons_self, h⟩
      · obtain ⟨other, hother, h⟩ := ih h
        exact ⟨other, List.mem_cons_of_mem piece hother, h⟩

/-- A word of a head with arguments is one of the head or of an argument, which stands there as it is. -/
theorem mem_words_application {head text : String} {arguments : List String}
    (htext : text = head ++ "[" ++ String.intercalate ", " arguments ++ "]") (h : word ∈ words text.toList)
    (hword : word ≠ []) :
    word ∈ words head.toList ∨ ∃ a ∈ arguments, word ∈ words a.toList ∧ a.toList ⊆ text.toList := by
  have hchars : text.toList = head.toList ++ '[' :: (join ", ".toList (arguments.map String.toList) ++ [']']) := by
    simp [htext, String.toList_intercalate, join]
  rw [hchars] at h ⊢
  rw [words_append_cons (by decide), List.mem_append] at h
  refine h.imp_right fun h => ?_
  rw [words_append_cons (by decide), List.mem_append] at h
  have hjoined := h.resolve_right fun hnil => hword (List.mem_singleton.mp hnil)
  obtain ⟨piece, hpiece, hmem⟩ := mem_words_join (by decide) (by simp [isBreak]) hword hjoined
  obtain ⟨a, ha, rfl⟩ := List.mem_map.mp hpiece
  refine ⟨a, ha, hmem, fun c hc => List.mem_append_right _ (List.mem_cons_of_mem '[' (List.mem_append_left _ ?_))⟩
  exact (infix_join hpiece).subset hc

theorem isBreak_of_isTight (h : isTight c = true) : isBreak c = false := by
  have hbreaks : ∀ d ∈ ['[', ']', ',', '|', ' '], isTight d = false := by simp [isTight]
  rw [← Bool.not_eq_true]
  intro hbreak
  exact Bool.false_ne_true ((hbreaks c (List.contains_iff_mem.mp hbreak)).symm.trans h)

/-- Whether a word can be a name as far as its first character tells; that of a number cannot. -/
def isNameLike (word : List Char) : Bool := word.head?.any fun c => c != '-' && !c.isDigit

/-- The names of literals that are no names of types. -/
def constants : List String := ["None", "True", "False"]

variable {n : String}

theorem mem_word?_of_shown {v : Scalar} (hv : v.isNumber = true) (hname : isNameLike n.toList = true)
    (hn : n = v.shown) : n ∈ Literal.word? v := by
  rcases v.exists_head_number hv with ⟨c, rest, hchars, hc⟩ | rfl | rfl
  · have hhead : n.toList = c :: rest := by rw [hn, Scalar.shown, String.toList_ofList, hchars]
    rw [isNameLike, hhead] at hname
    rcases hc with rfl | hdigit
    · cases hname
    · simp [hdigit] at hname
  · rw [hn]
    rfl
  · rw [hn]
    rfl

/-- A name in a literal that is no text is that of a constant or of a float that is shown as a word. -/
theorem mem_words_spelling {v : Scalar} (hplain : v.isPlain = true) (hquote : '"' ∉ (Literal.spelling v).toList)
    (hn : n.toList ∈ words (Literal.spelling v).toList) (hname : isNameLike n.toList = true) :
    n ∈ Literal.word? v ∨ n ∈ constants := by
  have hwhole : ∀ text : String, (∀ c ∈ text.toList, isBreak c = false) → n.toList ∈ words text.toList → n = text := by
    intro text htext hmem
    rw [words_of_forall htext] at hmem
    exact String.toList_injective (List.mem_singleton.mp hmem)
  have hnumber : ∀ {v : Scalar}, v.isNumber = true → n.toList ∈ words v.shown.toList → n ∈ Literal.word? v := by
    intro v hv hmem
    refine mem_word?_of_shown hv hname (hwhole v.shown ?_ hmem)
    rw [Scalar.shown, String.toList_ofList]
    exact fun c hc => isBreak_of_isTight (v.tight_number hv c hc)
  cases v with
  | null =>
    rw [hwhole "None" (by simp [isBreak]) hn]
    exact .inr (by decide)
  | bool b =>
    cases b with
    | true =>
      rw [hwhole "True" (by simp [isBreak]) hn]
      exact .inr (by decide)
    | false =>
      rw [hwhole "False" (by simp [isBreak]) hn]
      exact .inr (by decide)
  | int i => exact .inl (hnumber (v := .int i) rfl hn)
  | float x => exact .inl (hnumber (v := .float x) rfl hn)
  | str s =>
    refine absurd ?_ hquote
    show '"' ∈ (String.ofList _).toList
    rw [String.toList_ofList]
    exact List.mem_cons_self
  | bytes bs | moment m => cases hplain

/-- Every name in an annotation without texts is known. -/
theorem known_of_mem_words (hnames : ∀ n, Known n → ∀ c ∈ n.toList, isBreak c = false) (h : Annotation Known text)
    (hquote : '"' ∉ text.toList) (hn : n.toList ∈ words text.toList) (hname : isNameLike n.toList = true) :
    Known n ∨ n ∈ constants := by
  have hne : n.toList ≠ [] := by
    intro hnil
    rw [hnil] at hname
    cases hname
  induction h with
  | name hknown =>
    rw [words_of_forall (hnames _ hknown)] at hn
    rw [String.toList_injective (List.mem_singleton.mp hn)]
    exact .inl hknown
  | null =>
    rw [words_of_forall (by simp [isBreak])] at hn
    rw [String.toList_injective (List.mem_singleton.mp hn)]
    exact .inr (by decide)
  | @literals texts hmark htexts =>
    have htext : TypeText.literals texts = "Literal" ++ "[" ++ String.intercalate ", " texts ++ "]" := rfl
    rcases mem_words_application htext hn hne with hn | ⟨text, hmem, hn, hsub⟩
    · rw [words_of_forall (by simp [isBreak])] at hn
      rw [String.toList_injective (List.mem_singleton.mp hn)]
      exact .inl hmark
    · obtain ⟨v, hplain, hword, rfl⟩ := htexts text hmem
      exact (mem_words_spelling hplain (fun hmem => hquote (hsub hmem)) hn hname).imp_left (hword n)
  | apply hhead _ ih =>
    rcases mem_words_application rfl hn hne with hn | ⟨argument, hargument, hn, hsub⟩
    · rw [words_of_forall (hnames _ hhead)] at hn
      rw [String.toList_injective (List.mem_singleton.mp hn)]
      exact .inl hhead
    · exact ih argument hargument (fun hmem => hquote (hsub hmem)) hn
  | @union parts _ _ ih =>
    rw [String.toList_intercalate] at hquote hn
    obtain ⟨piece, hpiece, hn⟩ := mem_words_join (by decide) (by simp [isBreak]) hne hn
    obtain ⟨part, hpart, rfl⟩ := List.mem_map.mp hpiece
    exact ih part hpart (fun hmem => hquote ((infix_join hpiece).subset hmem)) hn
  | quoted =>
    refine absurd ?_ hquote
    rw [Literal.quoted, onChars, String.toList_ofList]
    exact List.mem_cons_self

end

end Annotation

theorem Declaration.Closed.mono {Known More : String → Prop} {words : List String} {d : Declaration}
    (hmore : ∀ n, Known n → More n) (h : d.Closed Known words) : d.Closed More words where
  annotations text htext := (h.annotations text htext).mono (Beside.mono hmore)
  bases base hbase := hmore base (h.bases base hbase)

/-! ## Unions -/

namespace TypeText.Union
variable {Known More : String → Prop} {u : Union}

/-- A union that is being read: its parts are annotations, but for the mark that stands for literals. -/
structure Closed (Known : String → Prop) (u : Union) : Prop where
  parts : ∀ p ∈ u.parts, p = literalMark ∨ Annotation Known p
  literals : ∀ text ∈ u.literals, ∃ v : Scalar,
    v.isPlain = true ∧ (∀ n ∈ Literal.word? v, Known n) ∧ text = Literal.spelling v

theorem mem_insert {texts : List String} {text other : String} (h : other ∈ insert texts text) :
    other ∈ texts ∨ other = text := by
  rw [insert] at h
  split at h
  · exact Or.inl h
  · simpa using h

theorem Closed.mono (hmore : ∀ n, Known n → More n) (h : u.Closed Known) : u.Closed More where
  parts p hp := (h.parts p hp).imp_right fun hp => hp.mono hmore
  literals text htext := by
    obtain ⟨v, hplain, hword, rfl⟩ := h.literals text htext
    exact ⟨v, hplain, fun n hn => hmore n (hword n hn), rfl⟩

theorem Closed.addPart (h : u.Closed Known) {part : String} (hpart : Annotation Known part) :
    (u.addPart part).Closed Known where
  parts p hp := by
    rcases mem_insert hp with hp | rfl
    · exact h.parts p hp
    · exact Or.inr hpart
  literals := h.literals

theorem Closed.withLiteral (h : u.Closed Known) {v : Scalar} (hv : v.isPlain = true)
    (hword : ∀ n ∈ Literal.word? v, Known n) : (u.withLiteral v).Closed Known := by
  have hadded : Closed Known { u with
      literals := insert u.literals (Literal.spelling v), parts := insert u.parts literalMark } := by
    constructor
    · intro p hp
      rcases mem_insert hp with hp | rfl
      · exact h.parts p hp
      · exact Or.inl rfl
    · intro text htext
      rcases mem_insert htext with htext | rfl
      · exact h.literals text htext
      · exact ⟨v, hv, hword, rfl⟩
  cases v with
  | null => exact ⟨h.parts, h.literals⟩
  | _ => exact hadded

theorem Closed.text (himports : ∀ n ∈ Module.importedNames, Known n) (h : u.Closed Known) :
    Annotation Known u.text := by
  have hparts : ∀ p ∈ u.parts.map (fun p => if p == literalMark then TypeText.literals u.literals else p),
      Annotation Known p := by
    intro p hp
    obtain ⟨q, hq, rfl⟩ := List.mem_map.mp hp
    by_cases hmark : q = literalMark
    · rw [if_pos (beq_iff_eq.mpr hmark)]
      exact .literals (himports _ (by decide)) h.literals
    · rw [if_neg (by simpa using hmark)]
      exact (h.parts q hq).resolve_left hmark
  refine Annotation.unionOf himports ?_
  intro p hp
  split at hp
  · rcases List.mem_append.mp hp with hp | hp
    · exact hparts p hp
    · rw [List.mem_singleton.mp hp]
      exact .null
  · exact hparts p hp

end TypeText.Union
end ClientBindings
