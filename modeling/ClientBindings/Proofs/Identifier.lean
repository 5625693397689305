import ClientBindings.Proofs.FreshName
import ClientBindings.Proofs.Text
import ClientBindings.Text.Identifier

/-! Names made from any texts are identifiers, and stay identifiers when endings and numbers are added:
no keyword holds a digit, a low line or one of the capitals that the endings bring in. -/

namespace ClientBindings.Identifier

open Text

/-! ## Shapes -/

theorem isAscii_of_isWordChar {c : Char} (h : isWordChar c = true) : c.toNat < 128 := by
  rcases Bool.or_eq_true_iff.mp h with h | h
  · exact toNat_lt_of_isAlphanum h
  · rw [eq_of_beq h]
    decide

theorem isPart_of_isWordChar {c : Char} (h : isWordChar c = true) : Unicode.isIdentifierPart c = true := by
  rw [Unicode.isIdentifierPart, if_pos (isAscii_of_isWordChar h)]
  exact h

theorem isStart_of_isWordChar {c : Char} (h : isWordChar c = true) (hdigit : ¬ c.isDigit = true) :
    Unicode.isIdentifierStart c = true := by
  rw [Unicode.isIdentifierStart, if_pos (isAscii_of_isWordChar h)]
  rw [isWordChar, Char.isAlphanum, Bool.eq_false_iff.mpr hdigit, Bool.or_false] at h
  exact h

theorem isPart_of_isStart {c : Char} (h : Unicode.isIdentifierStart c = true) :
    Unicode.isIdentifierPart c = true := by
  rw [Unicode.isIdentifierStart] at h
  rw [Unicode.isIdentifierPart]
  split at h
  · rename_i hascii
    rw [if_pos hascii, Char.isAlphanum]
    rw [Bool.or_eq_true] at h ⊢
    rcases h with h | h
    · exact Or.inl (by rw [h, Bool.true_or])
    · exact Or.inr h
  · rename_i hascii
    rw [if_neg hascii, h, Bool.true_or]

theorem hasShape_append {cs parts : List Char} (h : hasShape cs = true)
    (hparts : parts.all Unicode.isIdentifierPart = true) : hasShape (cs ++ parts) = true := by
  cases cs with
  | nil => cases h
  | cons c cs =>
    rw [hasShape, Bool.and_eq_true] at h
    rw [List.cons_append, hasShape, h.1, Bool.true_and, List.all_append, h.2, hparts]
    rfl

theorem all_isPart_of_hasShape {cs : List Char} (h : hasShape cs = true) :
    cs.all Unicode.isIdentifierPart = true := by
  cases cs with
  | nil => cases h
  | cons c cs =>
    rw [hasShape, Bool.and_eq_true] at h
    rw [List.all_cons, isPart_of_isStart h.1, h.2]
    rfl

theorem hasShape_guardDigit {cs : List Char} (hne : cs ≠ []) (h : ∀ c ∈ cs, isWordChar c = true) :
    hasShape (guardDigit cs) = true := by
  cases cs with
  | nil => exact absurd rfl hne
  | cons c cs =>
    have hparts : ∀ ds ⊆ c :: cs, List.all ds Unicode.isIdentifierPart = true := by
      intro ds hds
      rw [List.all_eq_true]
      exact fun d hd => isPart_of_isWordChar (h d (hds hd))
    rw [guardDigit]
    by_cases hdigit : c.isDigit = true
    · rw [if_pos hdigit, hasShape, hparts _ (List.Subset.refl _)]
      decide
    · rw [if_neg hdigit, hasShape, hparts cs (List.subset_cons_self c cs),
        isStart_of_isWordChar (h c List.mem_cons_self) hdigit]
      rfl

theorem isWordChar_of_mem_simplify {cs : List Char} {c : Char} (h : c ∈ simplify cs) : isWordChar c = true := by
  obtain ⟨d, _, rfl⟩ := List.mem_map.mp h
  by_cases hd : isWordChar d = true
  · rwa [if_pos hd]
  · rw [if_neg hd]
    decide

/-! ## Keywords -/

/-- Whether a character occurs in keywords: they are lower case but for three capitals. -/
def isKeywordChar (c : Char) : Bool := c.isLower || ['F', 'N', 'T'].contains c

theorem isKeywordChar_of_mem {k : String} (hk : k ∈ keywords) {c : Char} (h : c ∈ k.toList) :
    isKeywordChar c = true := by
  have hkeywords : keywords.all (fun k => k.toList.all isKeywordChar) = true := by decide
  exact List.all_eq_true.mp (List.all_eq_true.mp hkeywords k hk) c h

theorem isValid_of_marked {name : String} (hshape : hasShape name.toList = true) {c : Char}
    (hmem : c ∈ name.toList) (hmark : isKeywordChar c = false) : isValid name = true := by
  have hkeyword : isKeyword name = false := by
    rw [isKeyword, List.contains_eq_mem, decide_eq_false_iff_not]
    intro hname
    rw [isKeywordChar_of_mem hname hmem] at hmark
    cases hmark
  rw [isValid, hshape, hkeyword]
  rfl

theorem hasShape_of_isValid {name : String} (h : isValid name = true) : hasShape name.toList = true := by
  rw [isValid, Bool.and_eq_true] at h
  exact h.1

theorem not_mem_of_isValid {name : String} (h : isValid name = true) {c : Char}
    (hc : Unicode.isIdentifierPart c = false) : c ∉ name.toList := by
  intro hmem
  rw [List.all_eq_true.mp (all_isPart_of_hasShape (hasShape_of_isValid h)) c hmem] at hc
  cases hc

/-! ## Names from texts -/

/-- A name that is an identifier unless it is empty. -/
def IsNameOrEmpty (name : String) : Prop := name = "" ∨ isValid name = true

theorem normalize_isNameOrEmpty (name : String) : IsNameOrEmpty (normalize name) := by
  by_cases hempty : name.toList = []
  · left
    rw [normalize, onChars, hempty]
    decide
  right
  have hshape : hasShape (guardDigit (simplify name.toList)) = true :=
    hasShape_guardDigit (by simpa [simplify] using hempty) fun c hc => isWordChar_of_mem_simplify hc
  rw [normalize, escape]
  split
  · refine isValid_of_marked ?_ (c := '_') ?_ (by decide)
    · rw [String.toList_append, onChars, String.toList_ofList]
      exact hasShape_append hshape (by decide)
    · simp
  · rename_i hreserved
    rw [isReserved, Bool.not_eq_true, Bool.or_eq_false_iff] at hreserved
    rw [isValid, hreserved.1, onChars, String.toList_ofList, hshape]
    rfl

theorem isValid_nonEmpty {name other : String} (h : IsNameOrEmpty name) (hother : isValid other = true) :
    isValid (if name.isEmpty then other else name) = true := by
  rcases h with rfl | h
  · exact hother
  · split
    · exact hother
    · exact h

/-- A word in front of an ending that no keyword has. -/
theorem isValid_append {name ending : String} (hname : IsNameOrEmpty name)
    (hending : hasShape ending.toList = true) {c : Char} (hmem : c ∈ ending.toList) (hmark : isKeywordChar c = false) :
    isValid (name ++ ending) = true := by
  refine isValid_of_marked ?_ (c := c) (by simp [hmem]) hmark
  rw [String.toList_append]
  rcases hname with rfl | hname
  · exact hending
  · exact hasShape_append (hasShape_of_isValid hname) (all_isPart_of_hasShape hending)

/-! ## Numbers -/

theorem toString_toList (n : Nat) : (toString n).toList = Nat.toDigits 10 n := by
  rw [show toString n = n.repr from rfl, Nat.repr_eq_ofList_toDigits, String.toList_ofList]

theorem isDigit_of_mem_toString {n : Nat} {c : Char} (h : c ∈ (toString n).toList) : c.isDigit = true := by
  rw [toString_toList] at h
  exact Nat.isDigit_of_mem_toDigits (by decide) (by decide) h

theorem all_isPart_toString (n : Nat) : (toString n).toList.all Unicode.isIdentifierPart = true := by
  rw [List.all_eq_true]
  intro c hc
  apply isPart_of_isWordChar
  rw [isWordChar, Char.isAlphanum, isDigit_of_mem_toString hc, Bool.or_true]
  rfl

theorem not_isKeywordChar_of_isDigit {c : Char} (h : c.isDigit = true) : isKeywordChar c = false := by
  have hlower : c.isLower = false := by
    unfold Char.isLower
    simp only [Char.isDigit, Bool.and_eq_true, Bool.and_eq_false_iff, decide_eq_true_eq,
      decide_eq_false_iff_not, ge_iff_le, UInt32.le_iff_toNat_le] at h ⊢
    have hnine : '9'.val.toNat = 57 := rfl
    have hletter : 'a'.val.toNat = 97 := rfl
    omega
  have hcapital : ['F', 'N', 'T'].contains c = false := by
    rw [List.contains_eq_mem, decide_eq_false_iff_not]
    intro hmem
    simp only [List.mem_cons, List.not_mem_nil, or_false] at hmem
    rcases hmem with rfl | rfl | rfl <;> cases h
  rw [isKeywordChar, hlower, hcapital]
  rfl

theorem isValid_numbered {name : String} (h : isValid name = true) (n : Nat) :
    isValid (numbered name n) = true := by
  obtain ⟨c, hc⟩ := List.exists_mem_of_ne_nil (toString (n + 2)).toList (by
    rw [toString_toList]
    exact Nat.toDigits_ne_nil)
  refine isValid_of_marked ?_ (c := c) ?_ (not_isKeywordChar_of_isDigit (isDigit_of_mem_toString hc))
  · rw [numbered, String.toList_append]
    exact hasShape_append (hasShape_of_isValid h) (all_isPart_toString (n + 2))
  · rw [numbered, String.toList_append]
    exact List.mem_append_right _ hc

theorem isValid_freshName {name : String} (h : isValid name = true) (taken : List String) :
    isValid (freshName taken name) = true := by
  rcases freshName_cases taken name with ⟨_, heq⟩ | ⟨_, n, heq, _⟩
  · rwa [heq]
  · rw [heq]
    exact isValid_numbered h n

end ClientBindings.Identifier
