import ClientBindings.Proofs.Identifier
import Mathlib.Data.List.Chain

/-! Names that are made of any texts. A text is cut into words, words are spelled small or with capitals, runs of
low lines are squeezed, a digit in front and the words of the language are guarded by a low line. What comes out
is free to be used, and the same steps leave it alone: a guard puts no two low lines together, but for the low
line that is a name itself. -/

namespace ClientBindings.Identifier

open Text

/-! ## Words -/

/-- A text with low lines put in. -/
inductive Widened : List Char → List Char → Prop where
  | nil : Widened [] []
  | keep {cs ds : List Char} (c : Char) : Widened cs ds → Widened (c :: cs) (c :: ds)
  | mark {cs ds : List Char} : Widened cs ds → Widened cs ('_' :: ds)

namespace Widened
variable {cs ds es : List Char}

theorem refl (cs : List Char) : Widened cs cs := by
  induction cs with
  | nil => exact .nil
  | cons c cs ih => exact .keep c ih

theorem sublist (h : Widened cs ds) : cs.Sublist ds := by
  induction h with
  | nil => exact .slnil
  | keep c _ ih => exact ih.cons_cons c
  | mark _ ih => exact ih.cons '_'

theorem mem (h : Widened cs ds) {c : Char} (hc : c ∈ ds) : c ∈ cs ∨ c = '_' := by
  induction h with
  | nil => exact .inl hc
  | keep d _ ih =>
    rcases List.mem_cons.mp hc with rfl | hc
    · exact .inl List.mem_cons_self
    · exact (ih hc).imp_left (List.mem_cons_of_mem d)
  | mark _ ih =>
    rcases List.mem_cons.mp hc with rfl | hc
    · exact .inr rfl
    · exact ih hc

theorem trans (h : Widened cs ds) (hrest : Widened ds es) : Widened cs es := by
  induction hrest generalizing cs with
  | nil => exact h
  | keep c _ ih =>
    cases h with
    | keep _ h => exact .keep c (ih h)
    | mark h => exact .mark (ih h)
  | mark _ ih => exact .mark (ih h)

end Widened

theorem cutAcronyms_widened (cs : List Char) : Widened cs (cutAcronyms cs) := by
  fun_induction cutAcronyms cs with
  | case1 a b c cs _ ih => exact .keep a (.mark (.keep b (.keep c ih)))
  | case2 a b c cs _ ih => exact .keep a ih
  | case3 cs _ => exact .refl cs

theorem cutCapitals_widened (cs : List Char) : Widened cs (cutCapitals cs) := by
  fun_induction cutCapitals cs with
  | case1 a b cs _ ih => exact .keep a (.mark ih)
  | case2 a b cs _ ih => exact .keep a ih
  | case3 cs _ => exact .refl cs

theorem cutAcronyms_eq_self {cs : List Char} (h : ∀ c ∈ cs, c.isUpper = false) : cutAcronyms cs = cs := by
  fun_induction cutAcronyms cs with
  | case1 a b c cs hcut ih =>
    rw [h a List.mem_cons_self] at hcut
    cases hcut
  | case2 a b c cs _ ih => rw [ih fun d hd => h d (List.mem_cons_of_mem a hd)]
  | case3 cs _ => rfl

theorem cutCapitals_eq_self {cs : List Char} (h : ∀ c ∈ cs, c.isUpper = false) : cutCapitals cs = cs := by
  fun_induction cutCapitals cs with
  | case1 a b cs hcut ih =>
    rw [h b (by simp), Bool.and_false] at hcut
    cases hcut
  | case2 a b cs _ ih => rw [ih fun d hd => h d (List.mem_cons_of_mem a hd)]
  | case3 cs _ => rfl

theorem lowerFrom_eq_map {cs : List Char} (h : ∀ c ∈ cs, isWordChar c = true) (before : List Char) :
    Unicode.lowerFrom before cs = cs.map Char.toLower := by
  induction cs generalizing before with
  | nil => rfl
  | cons c cs ih =>
    have hascii := isAscii_of_isWordChar (h c List.mem_cons_self)
    rw [Unicode.lowerFrom, ih fun d hd => h d (List.mem_cons_of_mem c hd), Unicode.lowerChar, if_pos hascii, if_neg]
    · rfl
    · omega

theorem lt_of_isWordChar {c : Char} (h : isWordChar c = true) : 47 < c.toNat := by
  rcases Bool.or_eq_true_iff.mp h with h | h
  · exact (bounds_of_isAlphanum h).1
  · rw [eq_of_beq h]
    decide

theorem isDelimiter_eq_false {c : Char} (h : isWordChar c = true) : isDelimiter c = false := by
  have hlow := lt_of_isWordChar h
  have hhigh := isAscii_of_isWordChar h
  have hhyphen : c ≠ '-' := fun heq => absurd (heq ▸ hlow) (by decide)
  have hdot : c ≠ '.' := fun heq => absurd (heq ▸ hlow) (by decide)
  have hblank : Unicode.isBlank c = false := by
    simp only [Unicode.isBlank, Bool.or_eq_false_iff, Bool.and_eq_false_iff, beq_eq_false_iff_ne,
      decide_eq_false_iff_not]
    omega
  rw [isDelimiter, hblank, beq_eq_false_iff_ne.mpr hhyphen, beq_eq_false_iff_ne.mpr hdot]
  rfl

theorem cuts_widened (cs : List Char) : Widened cs (cutCapitals (cutAcronyms cs)) :=
  (cutAcronyms_widened cs).trans (cutCapitals_widened _)

theorem snakeCase_eq {cs : List Char} (h : ∀ c ∈ cs, isWordChar c = true) :
    snakeCase cs = (cutCapitals (cutAcronyms cs)).map Char.toLower := by
  have hplain : (cs.map fun c => if isDelimiter c then '_' else c) = cs :=
    map_eq_self fun c hc => if_neg (Bool.eq_false_iff.mp (isDelimiter_eq_false (h c hc)))
  rw [snakeCase, hplain]
  apply lowerFrom_eq_map
  intro c hc
  rcases (cuts_widened cs).mem hc with hc | rfl
  · exact h c hc
  · rfl

/-- The characters of function names: all that names are made of but for the capitals. -/
def isSmallChar (c : Char) : Bool := isWordChar c && !c.isUpper

theorem isSmallChar_iff {c : Char} : isSmallChar c = true ↔ isWordChar c = true ∧ c.isUpper = false := by
  rw [isSmallChar, Bool.and_eq_true, Bool.not_eq_true']

/-- What holds of all ASCII characters holds of those that words are made of. -/
theorem of_isWordChar (P : Char → Prop) (hall : ∀ n : Fin 128, P (Char.ofNat n)) {c : Char}
    (h : isWordChar c = true) : P c := by
  have hc := hall ⟨c.toNat, isAscii_of_isWordChar h⟩
  rwa [Char.ofNat_toNat] at hc

theorem isSmallChar_toLower {c : Char} (h : isWordChar c = true) : isSmallChar c.toLower = true :=
  of_isWordChar (fun c => isWordChar c = true → isSmallChar c.toLower = true) (by decide +kernel) h h

theorem toLower_eq_self {c : Char} (h : c.isUpper = false) : c.toLower = c := dif_neg (of_decide_eq_false h)

theorem isSmallChar_of_mem_snakeCase {cs : List Char} (h : ∀ c ∈ cs, isWordChar c = true) {c : Char}
    (hc : c ∈ snakeCase cs) : isSmallChar c = true := by
  rw [snakeCase_eq h] at hc
  obtain ⟨d, hd, rfl⟩ := List.mem_map.mp hc
  apply isSmallChar_toLower
  rcases (cuts_widened cs).mem hd with hd | rfl
  · exact h d hd
  · rfl

theorem snakeCase_eq_self {cs : List Char} (h : ∀ c ∈ cs, isSmallChar c = true) : snakeCase cs = cs := by
  have hword : ∀ c ∈ cs, isWordChar c = true := fun c hc => (isSmallChar_iff.mp (h c hc)).1
  have hupper : ∀ c ∈ cs, c.isUpper = false := fun c hc => (isSmallChar_iff.mp (h c hc)).2
  rw [snakeCase_eq hword, cutAcronyms_eq_self hupper, cutCapitals_eq_self hupper]
  exact map_eq_self fun c hc => toLower_eq_self (hupper c hc)

/-! ## Runs of low lines -/

/-- No two low lines meet. -/
def IsSqueezed (cs : List Char) : Prop := cs.IsChain fun a b => ¬ (a = '_' ∧ b = '_')

theorem mem_of_mem_squeeze {cs : List Char} {c : Char} (h : c ∈ squeeze cs) : c ∈ cs := by
  fun_induction squeeze cs with
  | case1 a b cs _ ih => exact List.mem_cons_of_mem a (ih h)
  | case2 a b cs _ ih =>
    rcases List.mem_cons.mp h with rfl | h
    · exact List.mem_cons_self
    · exact List.mem_cons_of_mem a (ih h)
  | case3 cs _ => exact h

theorem head?_squeeze (cs : List Char) : (squeeze cs).head? = cs.head? := by
  fun_induction squeeze cs with
  | case1 a b cs hboth ih =>
    rw [Bool.and_eq_true, beq_iff_eq, beq_iff_eq] at hboth
    rw [ih, List.head?_cons, List.head?_cons, hboth.1, hboth.2]
  | case2 a b cs _ _ => rfl
  | case3 cs _ => rfl

theorem isSqueezed_squeeze (cs : List Char) : IsSqueezed (squeeze cs) := by
  unfold IsSqueezed
  fun_induction squeeze cs with
  | case1 a b cs _ ih => exact ih
  | case2 a b cs hnot ih =>
    refine List.isChain_cons.mpr ⟨fun c hc => ?_, ih⟩
    rw [head?_squeeze, List.head?_cons] at hc
    obtain rfl := Option.some.inj hc
    simpa using hnot
  | case3 cs hshort =>
    match cs, hshort with
    | [], _ => exact .nil
    | [a], _ => exact .singleton a
    | a :: b :: cs, hshort => exact absurd rfl (hshort a b cs)

theorem squeeze_eq_self {cs : List Char} (h : IsSqueezed cs) : squeeze cs = cs := by
  unfold IsSqueezed at h
  fun_induction squeeze cs with
  | case1 a b cs hboth _ =>
    refine absurd ?_ (List.isChain_cons_cons.mp h).1
    simpa using hboth
  | case2 a b cs _ ih => rw [ih (List.isChain_cons_cons.mp h).2]
  | case3 cs _ => rfl

theorem isSqueezed_concat {cs : List Char} (h : '_' ∉ cs) : IsSqueezed (cs ++ ['_']) := by
  induction cs with
  | nil => exact .singleton '_'
  | cons c cs ih =>
    obtain ⟨hc, hcs⟩ := not_or.mp (mt List.mem_cons.mpr h)
    exact List.isChain_cons.mpr ⟨fun _ _ hboth => hc hboth.1.symm, ih hcs⟩

theorem isSqueezed_guardDigit {cs : List Char} (h : IsSqueezed cs) : IsSqueezed (guardDigit cs) := by
  cases cs with
  | nil => exact h
  | cons c cs =>
    rw [guardDigit]
    split
    case isTrue hdigit =>
      refine List.isChain_cons_cons.mpr ⟨?_, h⟩
      rintro ⟨-, rfl⟩
      exact absurd hdigit (by decide)
    case isFalse => exact h

/-! ## Names that stay -/

/-- A text that is a name as it stands. -/
structure Settled (name : String) : Prop where
  chars : ∀ c ∈ name.toList, isWordChar c = true
  guarded : guardDigit name.toList = name.toList
  free : isReserved name = false

theorem simplify_eq_self {cs : List Char} (h : ∀ c ∈ cs, isWordChar c = true) : simplify cs = cs :=
  map_eq_self fun c hc => if_pos (h c hc)

theorem guardDigit_guardDigit (cs : List Char) : guardDigit (guardDigit cs) = guardDigit cs := by
  cases cs with
  | nil => rfl
  | cons c cs =>
    by_cases hdigit : c.isDigit = true
    · rw [guardDigit, if_pos hdigit]
      rfl
    · rw [guardDigit, if_neg hdigit, guardDigit, if_neg hdigit]

theorem mem_guardDigit {cs : List Char} {c : Char} (h : c ∈ guardDigit cs) : c ∈ cs ∨ c = '_' := by
  cases cs with
  | nil => exact .inl h
  | cons d cs =>
    rw [guardDigit] at h
    split at h
    · exact (List.mem_cons.mp h).symm
    · exact .inl h

theorem Settled.normalize_eq {name : String} (h : Settled name) : normalize name = name := by
  rw [normalize, onChars, simplify_eq_self h.chars, h.guarded, String.ofList_toList, escape, h.free]
  rfl

theorem isWordChar_of_isKeywordChar {c : Char} (h : isKeywordChar c = true) : isWordChar c = true := by
  rcases Bool.or_eq_true_iff.mp h with h | h
  · have halpha : c.isAlpha = true := Bool.or_eq_true_iff.mpr (.inr h)
    rw [isWordChar, Char.isAlphanum, halpha]
    rfl
  · have hcapitals : ['F', 'N', 'T'].all isWordChar = true := by decide
    exact List.all_eq_true.mp hcapitals c (List.contains_iff_mem.mp h)

theorem eq_low_line_or_of_isReserved {word : String} (h : isReserved word = true) :
    word = "_" ∨ ∀ c ∈ word.toList, isKeywordChar c = true := by
  rw [isReserved, isKeyword, Bool.or_eq_true, List.contains_iff_mem, List.contains_iff_mem] at h
  rcases h with h | h
  · exact .inr fun c hc => isKeywordChar_of_mem h hc
  · have hsoft : softKeywords.all (fun word => word == "_" || word.toList.all isKeywordChar) = true := by decide
    have hword := List.all_eq_true.mp hsoft word h
    rwa [Bool.or_eq_true, beq_iff_eq, List.all_eq_true] at hword

/-- A low line behind a reserved word makes a name of it. -/
theorem settled_escaped {word : String} (h : isReserved word = true) : Settled (word ++ "_") := by
  rcases eq_low_line_or_of_isReserved h with rfl | hchars
  · exact ⟨List.all_eq_true.mp (by decide), by decide, by decide⟩
  have hnone : word ≠ "" := by
    rintro rfl
    exact absurd h (by decide)
  refine ⟨fun c hc => ?_, ?_, ?_⟩
  · rw [String.toList_append, List.mem_append] at hc
    rcases hc with hc | hc
    · exact isWordChar_of_isKeywordChar (hchars c hc)
    · obtain rfl := List.mem_singleton.mp hc
      rfl
  · obtain ⟨c, cs, hword⟩ := List.exists_cons_of_ne_nil (mt String.toList_eq_nil_iff.mp hnone)
    have hdigit : ¬ c.isDigit = true := by
      intro hdigit
      have hc := hchars c (hword ▸ List.mem_cons_self)
      rw [not_isKeywordChar_of_isDigit hdigit] at hc
      cases hc
    rw [String.toList_append, hword, List.cons_append, guardDigit, if_neg hdigit]
  · rw [← Bool.not_eq_true]
    intro hreserved
    rcases eq_low_line_or_of_isReserved hreserved with heq | hall
    · exact hnone (by simpa using heq)
    · exact absurd (hall '_' (by simp)) (by decide)

/-- What the low line behind a reserved word adds is left alone; of two low lines one is squeezed away and put
there again. -/
theorem normalize_squeeze_escaped {word : String} (h : isReserved word = true) :
    normalize (String.ofList (squeeze (word ++ "_").toList)) = word ++ "_" := by
  rcases eq_low_line_or_of_isReserved h with rfl | hchars
  · decide +kernel
  have hline : '_' ∉ word.toList := fun hmem => absurd (hchars '_' hmem) (by decide)
  rw [squeeze_eq_self, String.ofList_toList, (settled_escaped h).normalize_eq]
  rw [String.toList_append]
  exact isSqueezed_concat hline

theorem normalize_settled (name : String) : Settled (normalize name) := by
  rw [normalize, escape]
  split
  case isTrue hreserved => exact settled_escaped hreserved
  case isFalse hfree =>
    refine ⟨fun c hc => ?_, ?_, Bool.eq_false_iff.mpr hfree⟩
    · rw [onChars, String.toList_ofList] at hc
      rcases mem_guardDigit hc with hc | rfl
      · exact isWordChar_of_mem_simplify hc
      · rfl
    · rw [onChars, String.toList_ofList, guardDigit_guardDigit]

theorem guardDigit_eq_nil_iff {cs : List Char} : guardDigit cs = [] ↔ cs = [] := by
  cases cs with
  | nil => rfl
  | cons c cs =>
    rw [guardDigit]
    split <;> simp

theorem normalize_eq_empty_iff {name : String} : normalize name = "" ↔ name = "" := by
  constructor
  · intro h
    rw [normalize, escape] at h
    split at h
    case isTrue => simp at h
    case isFalse =>
      rw [onChars, String.ofList_eq_empty_iff, guardDigit_eq_nil_iff, simplify, List.map_eq_nil_iff] at h
      exact String.toList_eq_nil_iff.mp h
  · rintro rfl
    decide

/-! ## Function names -/

/-- A function name before reserved words are told apart. -/
theorem exists_functionName (name : String) : ∃ cs : List Char, functionName name = escape (String.ofList cs) ∧
    (∀ c ∈ cs, isSmallChar c = true) ∧ IsSqueezed cs ∧ guardDigit cs = cs := by
  have hsmall : ∀ c ∈ squeeze (snakeCase (simplify name.toList)), isSmallChar c = true := fun c hc =>
    isSmallChar_of_mem_snakeCase (fun _ hd => isWordChar_of_mem_simplify hd) (mem_of_mem_squeeze hc)
  have hword : ∀ c ∈ squeeze (snakeCase (simplify name.toList)), isWordChar c = true := fun c hc =>
    (isSmallChar_iff.mp (hsmall c hc)).1
  refine ⟨guardDigit (squeeze (snakeCase (simplify name.toList))), ?_, ?_,
    isSqueezed_guardDigit (isSqueezed_squeeze _), guardDigit_guardDigit _⟩
  · rw [functionName, normalize, onChars, onChars, String.toList_ofList, simplify_eq_self hword]
  · intro c hc
    rcases mem_guardDigit hc with hc | rfl
    · exact hsmall c hc
    · rfl

theorem isSmallChar_of_mem_functionName {name : String} {c : Char} (h : c ∈ (functionName name).toList) :
    isSmallChar c = true := by
  obtain ⟨cs, heq, hsmall, -, -⟩ := exists_functionName name
  rw [heq, escape] at h
  split at h
  case isTrue =>
    rw [String.toList_append, String.toList_ofList, List.mem_append] at h
    rcases h with h | h
    · exact hsmall c h
    · obtain rfl := List.mem_singleton.mp h
      rfl
  case isFalse =>
    rw [String.toList_ofList] at h
    exact hsmall c h

/-- Where no capitals are left, all that is done is to squeeze. -/
theorem functionName_of_small {name : String} (h : ∀ c ∈ name.toList, isSmallChar c = true) :
    functionName name = normalize (String.ofList (squeeze name.toList)) := by
  rw [functionName, onChars, simplify_eq_self fun c hc => (isSmallChar_iff.mp (h c hc)).1, snakeCase_eq_self h]

theorem functionName_functionName (name : String) : functionName (functionName name) = functionName name := by
  -- The name has no capitals, so the second time nothing is left to do but to squeeze and to escape.
  rw [functionName_of_small fun c hc => isSmallChar_of_mem_functionName hc]
  obtain ⟨cs, heq, hsmall, hsqueezed, hguarded⟩ := exists_functionName name
  rw [heq, escape]
  split
  case isTrue hreserved => exact normalize_squeeze_escaped hreserved
  case isFalse hfree =>
    have hsettled : Settled (String.ofList cs) := by
      refine ⟨?_, ?_, Bool.eq_false_iff.mpr hfree⟩
      · rw [String.toList_ofList]
        exact fun c hc => (isSmallChar_iff.mp (hsmall c hc)).1
      · rw [String.toList_ofList, hguarded]
    rw [String.toList_ofList, squeeze_eq_self hsqueezed, hsettled.normalize_eq]

theorem squeeze_eq_nil_iff {cs : List Char} : squeeze cs = [] ↔ cs = [] := by
  rw [← List.head?_eq_none_iff, head?_squeeze, List.head?_eq_none_iff]

theorem snakeCase_eq_nil_iff {cs : List Char} (h : ∀ c ∈ cs, isWordChar c = true) : snakeCase cs = [] ↔ cs = [] := by
  constructor
  · intro hnil
    rw [snakeCase_eq h, List.map_eq_nil_iff] at hnil
    exact List.sublist_nil.mp (hnil ▸ (cuts_widened cs).sublist)
  · rintro rfl
    rfl

theorem functionName_eq_empty_iff {name : String} : functionName name = "" ↔ name = "" := by
  rw [functionName, normalize_eq_empty_iff, onChars, String.ofList_eq_empty_iff, squeeze_eq_nil_iff,
    snakeCase_eq_nil_iff fun c hc => isWordChar_of_mem_simplify hc, simplify, List.map_eq_nil_iff,
    String.toList_eq_nil_iff]

/-! ## Class names -/

theorem capitalize_eq_nil_iff {cs : List Char} (h : ∀ c ∈ cs, isWordChar c = true) :
    Unicode.capitalize cs = [] ↔ cs = [] := by
  cases cs with
  | nil => rfl
  | cons c cs =>
    rw [Unicode.capitalize, Unicode.titleChar, if_pos (isAscii_of_isWordChar (h c List.mem_cons_self))]
    simp

theorem toLower_eq_low_line_iff {c : Char} (h : isWordChar c = true) : c.toLower = '_' ↔ c = '_' :=
  of_isWordChar (fun c => c.toLower = '_' ↔ c = '_') (by decide +kernel) h

theorem snakeCase_all_low_lines_iff {cs : List Char} (h : ∀ c ∈ cs, isWordChar c = true) :
    (∀ c ∈ snakeCase cs, c = '_') ↔ ∀ c ∈ cs, c = '_' := by
  rw [snakeCase_eq h, List.forall_mem_map]
  constructor
  · intro hall c hc
    exact (toLower_eq_low_line_iff (h c hc)).mp (hall c ((cuts_widened cs).sublist.subset hc))
  · intro hall c hc
    obtain rfl : c = '_' := ((cuts_widened cs).mem hc).elim (hall c) id
    decide

/-- Low lines leave nothing behind, and anything else does. -/
theorem pascalCase_eq_nil_iff {cs : List Char} (h : ∀ c ∈ cs, isWordChar c = true) :
    pascalCase cs = [] ↔ ∀ c ∈ cs, c = '_' := by
  have hword : ∀ piece ∈ splitOn '_' (snakeCase cs), ∀ c ∈ piece, isWordChar c = true := by
    intro piece hpiece c hc
    have hmem := mem_of_mem_splitOn hpiece hc
    exact (isSmallChar_iff.mp (isSmallChar_of_mem_snakeCase h hmem)).1
  rw [← snakeCase_all_low_lines_iff h, ← forall_mem_splitOn_eq_nil_iff, pascalCase, List.flatMap_eq_nil_iff]
  exact forall₂_congr fun piece hpiece => capitalize_eq_nil_iff (hword piece hpiece)

theorem simplified_eq_low_line_iff {c : Char} : (if isWordChar c then c else '_') = '_' ↔ c.isAlphanum = false := by
  by_cases hline : c = '_'
  · rw [hline]
    decide
  · have hword : isWordChar c = c.isAlphanum := by
      rw [isWordChar, beq_eq_false_iff_ne.mpr hline, Bool.or_false]
    rw [hword]
    cases c.isAlphanum with
    | true => simp [hline]
    | false => simp

theorem className_eq_empty_iff {name : String} :
    className name = "" ↔ ∀ c ∈ name.toList, c.isAlphanum = false := by
  rw [className, normalize_eq_empty_iff, onChars, String.ofList_eq_empty_iff,
    pascalCase_eq_nil_iff fun c hc => isWordChar_of_mem_simplify hc, simplify, List.forall_mem_map]
  exact forall₂_congr fun c _ => simplified_eq_low_line_iff

/-! ## Names from texts -/

/-- Nothing, or an identifier that is no word of the language. -/
def IsFreeOrEmpty (name : String) : Prop := IsNameOrEmpty name ∧ isReserved name = false

theorem normalize_isFreeOrEmpty (name : String) : IsFreeOrEmpty (normalize name) :=
  ⟨normalize_isNameOrEmpty name, (normalize_settled name).free⟩

/-- Names made of texts are free, made once and for all, and missing only where there is nothing to name;
function names have no capitals. -/
theorem names_of_texts (text : String) :
    IsFreeOrEmpty (normalize text) ∧ IsFreeOrEmpty (functionName text) ∧ IsFreeOrEmpty (className text) ∧
    normalize (normalize text) = normalize text ∧
    functionName (functionName text) = functionName text ∧
    (∀ c ∈ (functionName text).toList, isWordChar c = true ∧ c.isUpper = false) ∧
    (normalize text = "" ↔ text = "") ∧ (functionName text = "" ↔ text = "") ∧
    (className text = "" ↔ ∀ c ∈ text.toList, c.isAlphanum = false) := by
  refine ⟨normalize_isFreeOrEmpty text, normalize_isFreeOrEmpty _, normalize_isFreeOrEmpty _,
    (normalize_settled text).normalize_eq, functionName_functionName text, fun c hc => ?_,
    normalize_eq_empty_iff, functionName_eq_empty_iff, className_eq_empty_iff⟩
  exact isSmallChar_iff.mp (isSmallChar_of_mem_functionName hc)

/-- A low line is squeezed and escaped once more, and no class can be named after it. -/
theorem names_of_texts_low_line : functionName "_" = "__" ∧ functionName (functionName "_") = functionName "_" ∧
    className "_" = "" ∧ '_' ∈ (functionName "_").toList ∧ isWordChar '_' = true ∧ Char.isUpper '_' = false := by
  obtain ⟨-, -, -, -, hagain, hchars, -, -, hclass⟩ := names_of_texts "_"
  have hname : functionName "_" = "__" := by decide +kernel
  have hmem : '_' ∈ (functionName "_").toList := by
    rw [hname]
    decide
  have hnone : className "_" = "" := by
    refine hclass.mpr fun c hc => ?_
    obtain rfl := List.mem_singleton.mp hc
    rfl
  exact ⟨hname, hagain, hnone, hmem, hchars '_' hmem⟩

end ClientBindings.Identifier
