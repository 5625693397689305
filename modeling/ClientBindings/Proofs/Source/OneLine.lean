import ClientBindings.Proofs.Shown
import ClientBindings.Proofs.Source.TextLiteral

/-! Texts on one line, where more than line feeds and carriage returns ends a line. Whatever is shown is on one line.
Literals of texts are, unless the text has one of the line ends that are no control characters: those stay as they
are. -/

namespace ClientBindings

open Text

namespace Unicode

variable {c : Char}

def lineEnds : List Char := (List.range' 10 4 ++ List.range' 28 3 ++ [0x85, 0x2028, 0x2029]).map Char.ofNat

theorem mem_lineEnds_of_isLineEnd (h : isLineEnd c = true) : c ∈ lineEnds := by
  refine List.mem_map.mpr ⟨c.toNat, ?_, Char.ofNat_toNat c⟩
  simp only [isLineEnd, Bool.or_eq_true, Bool.and_eq_true, beq_iff_eq, decide_eq_true_eq] at h
  simp only [List.mem_append, List.mem_range'_1, List.mem_cons, List.not_mem_nil]
  omega

/-- A property that no line end has is one of characters inside of lines. -/
theorem isLineEnd_eq_false {p : Char → Bool} (hends : lineEnds.any p = false) (h : p c = true) :
    isLineEnd c = false := by
  by_contra hend
  have hmem := mem_lineEnds_of_isLineEnd (Bool.eq_true_of_not_eq_false hend)
  exact List.any_eq_false.mp hends c hmem h

theorem isLineEnd_of_isPrintable (h : isPrintable c = true) : isLineEnd c = false :=
  isLineEnd_eq_false (by decide +kernel) h

end Unicode

namespace Text

variable {c : Char} {cs ds : List Char}

/-- Whether a text has no line end. -/
def OneLine (cs : List Char) : Prop := ∀ c ∈ cs, Unicode.isLineEnd c = false

instance : DecidablePred OneLine := List.decidableBAll _

@[simp] theorem oneLine_nil : OneLine [] := List.forall_mem_nil _

@[simp] theorem oneLine_cons : OneLine (c :: cs) ↔ Unicode.isLineEnd c = false ∧ OneLine cs := List.forall_mem_cons

@[simp] theorem oneLine_append : OneLine (cs ++ ds) ↔ OneLine cs ∧ OneLine ds := List.forall_mem_append

theorem oneLine_replicate (n : Nat) (h : Unicode.isLineEnd c = false) : OneLine (List.replicate n c) := by
  intro d hd
  rwa [List.eq_of_mem_replicate hd]

theorem Plain.oneLine (h : Plain cs) : OneLine cs :=
  fun c hc => Unicode.isLineEnd_eq_false (by decide) (h c hc)

/-- Joined texts are on one line with their separator if and only if all of them are. -/
theorem oneLine_join {separator : List Char} (hseparator : OneLine separator) {pieces : List (List Char)} :
    OneLine (join separator pieces) ↔ ∀ piece ∈ pieces, OneLine piece := by
  induction pieces with
  | nil => exact iff_of_true oneLine_nil (List.forall_mem_nil _)
  | cons piece pieces ih =>
    cases pieces with
    | nil => rw [join, List.intercalate_singleton, List.forall_mem_singleton]
    | cons next pieces =>
      rw [join_cons_cons, oneLine_append, oneLine_append, ih]
      exact (and_congr_left' (and_iff_left hseparator)).trans List.forall_mem_cons.symm

theorem oneLine_intercalate {separator : String} (hseparator : OneLine separator.toList) {pieces : List String} :
    OneLine (separator.intercalate pieces).toList ↔ ∀ piece ∈ pieces, OneLine piece.toList := by
  rw [String.toList_intercalate]
  exact (oneLine_join hseparator).trans List.forall_mem_map

/-! ## Lines of a text -/

theorem oneLine_of_mem_lines {line : List Char} (h : line ∈ lines cs) : OneLine line := by
  fun_induction lines cs generalizing line with
  | case1 => exact absurd h List.not_mem_nil
  | case2 cs ih =>
    rcases List.mem_cons.mp h with rfl | h
    · exact oneLine_nil
    · exact ih h
  | case3 c cs _ _ ih =>
    rcases List.mem_cons.mp h with rfl | h
    · exact oneLine_nil
    · exact ih h
  | case4 c hc first rest next tail _ hlines ih =>
    rw [hlines] at h ih
    rcases List.mem_cons.mp h with rfl | h
    · exact oneLine_cons.mpr ⟨Bool.eq_false_iff.mpr hc, ih List.mem_cons_self⟩
    · exact ih (List.mem_cons_of_mem first h)
  | case5 c cs _ hc hlast ih =>
    have hlines : line ∈ [c] :: lines cs := by
      split at h
      case h_1 hlines => exact (hlast _ _ _ _ hlines rfl).elim
      case h_2 => exact h
    rcases List.mem_cons.mp hlines with rfl | h
    · exact oneLine_cons.mpr ⟨Bool.eq_false_iff.mpr hc, oneLine_nil⟩
    · exact ih h

theorem lines_cons {line : List Char} {rest : List (List Char)} (hc : Unicode.isLineEnd c = false) (hcs : cs ≠ [])
    (h : lines cs = line :: rest) : lines (c :: cs) = (c :: line) :: rest := by
  obtain ⟨next, tail, rfl⟩ := List.exists_cons_of_ne_nil hcs
  rw [lines.eq_3 c line rest next tail ?_ h, if_neg (Bool.eq_false_iff.mp hc)]
  rintro _ rfl _
  exact absurd hc (by decide)

/-- A line ends at its line feed. -/
theorem lines_append_newline (h : OneLine cs) (rest : List Char) : lines (cs ++ '\n' :: rest) = cs :: lines rest := by
  induction cs with
  | nil => rfl
  | cons c cs ih =>
    obtain ⟨hc, hcs⟩ := oneLine_cons.mp h
    exact lines_cons hc (List.append_ne_nil_of_right_ne_nil cs (List.cons_ne_nil _ _)) (ih hcs)

theorem lines_join {pieces : List (List Char)} (hne : pieces ≠ []) (h : ∀ piece ∈ pieces, OneLine piece) :
    lines (join ['\n'] pieces ++ ['\n']) = pieces := by
  induction pieces with
  | nil => exact absurd rfl hne
  | cons piece pieces ih =>
    obtain ⟨hpiece, hpieces⟩ := List.forall_mem_cons.mp h
    cases pieces with
    | nil =>
      rw [join, List.intercalate_singleton, lines_append_newline hpiece]
      rfl
    | cons next pieces =>
      rw [join_cons_cons, List.append_assoc, List.append_assoc, List.singleton_append, lines_append_newline hpiece,
        ih (List.cons_ne_nil _ _) hpieces]

end Text

/-! ## What is shown -/

namespace Quoted

variable {c : Char}

theorem oneLine_hex (width n : Nat) : OneLine (hex width n) := forall_mem_hex (by decide) width n

theorem oneLine_escaped {quote : Char} {printable : Bool} (hquote : Unicode.isLineEnd quote = false)
    (hprintable : printable = true → Unicode.isLineEnd c = false) : OneLine (escaped quote printable c) := by
  have hescape : ∀ mark width n, Unicode.isLineEnd mark = false → OneLine ('\\' :: mark :: hex width n) :=
    fun _ width n hmark => oneLine_cons.mpr ⟨by decide, oneLine_cons.mpr ⟨hmark, oneLine_hex width n⟩⟩
  unfold escaped
  split_ifs with hmark _ _ _ hplain
  · have hc : Unicode.isLineEnd c = false := by
      rcases hmark with rfl | rfl
      · exact hquote
      · decide
    exact oneLine_cons.mpr ⟨by decide, oneLine_cons.mpr ⟨hc, oneLine_nil⟩⟩
  · decide
  · decide
  · decide
  · exact oneLine_cons.mpr ⟨hprintable hplain, oneLine_nil⟩
  · exact hescape 'x' 2 _ (by decide)
  · exact hescape 'u' 4 _ (by decide)
  · exact hescape 'U' 8 _ (by decide)

theorem isLineEnd_quoteFor (hasSingle hasDouble : Bool) : Unicode.isLineEnd (quoteFor hasSingle hasDouble) = false := by
  revert hasSingle hasDouble
  decide

theorem oneLine_quote {quote : Char} {printable : Char → Bool} (hquote : Unicode.isLineEnd quote = false)
    (hprintable : ∀ c, printable c = true → Unicode.isLineEnd c = false) (cs : List Char) :
    OneLine (quote :: (cs.flatMap (fun c => escaped quote (printable c) c) ++ [quote])) := by
  rw [oneLine_cons, oneLine_append, oneLine_cons]
  refine ⟨hquote, fun d hd => ?_, hquote, oneLine_nil⟩
  obtain ⟨c, -, hd⟩ := List.mem_flatMap.mp hd
  exact oneLine_escaped hquote (hprintable c) d hd

theorem oneLine_shown (cs : List Char) : OneLine (shown cs) :=
  oneLine_quote (isLineEnd_quoteFor _ _) (fun _ => Unicode.isLineEnd_of_isPrintable) cs

theorem oneLine_shownBytes (bs : List UInt8) : OneLine (shownBytes bs) := by
  have hplain : ∀ c : Char, (32 ≤ c.toNat && c.toNat < 127) = true → Unicode.isLineEnd c = false :=
    fun _ hc => Unicode.isLineEnd_eq_false (p := fun c => 32 ≤ c.toNat && c.toNat < 127) (by decide) hc
  exact oneLine_cons.mpr ⟨by decide, oneLine_quote (isLineEnd_quoteFor _ _) hplain _⟩

end Quoted

theorem Scalar.oneLine_shownChars (s : Scalar) : OneLine s.shownChars := by
  rcases s.shownChars_cases with ⟨text, -, hshown⟩ | ⟨bytes, -, hshown⟩ | hplain
  · rw [hshown]
    exact Quoted.oneLine_shown text.toList
  · rw [hshown]
    exact Quoted.oneLine_shownBytes bytes
  · exact hplain.oneLine

namespace Data

theorem oneLine_commaJoin {parts : List (List Char)} (h : ∀ part ∈ parts, OneLine part) : OneLine (commaJoin parts) :=
  (oneLine_join (by decide)).mpr h

theorem oneLine_brackets {first last : Char} {cs : List Char} (hfirst : Unicode.isLineEnd first = false)
    (hlast : Unicode.isLineEnd last = false) (h : OneLine cs) : OneLine (first :: (cs ++ [last])) :=
  oneLine_cons.mpr ⟨hfirst, oneLine_append.mpr ⟨h, oneLine_cons.mpr ⟨hlast, oneLine_nil⟩⟩⟩

mutual

theorem oneLine_shownChars : ∀ d : Data, OneLine d.shownChars
  | .scalar s => s.oneLine_shownChars
  | .list items => oneLine_brackets (by decide) (by decide) (oneLine_commaJoin (oneLine_shownItems items))
  | .tuple [] => by decide
  | .tuple [x] => by
    rw [shownChars]
    exact oneLine_cons.mpr ⟨by decide, oneLine_append.mpr ⟨oneLine_shownChars x, by decide⟩⟩
  | .tuple (x :: y :: items) =>
    oneLine_brackets (by decide) (by decide) (oneLine_commaJoin (oneLine_shownItems (x :: y :: items)))
  | .map entries => oneLine_brackets (by decide) (by decide) (oneLine_commaJoin (oneLine_shownEntries entries))

theorem oneLine_shownItems : ∀ items : List Data, ∀ part ∈ shownItems items, OneLine part
  | [] => List.forall_mem_nil _
  | x :: items => List.forall_mem_cons.mpr ⟨oneLine_shownChars x, oneLine_shownItems items⟩

theorem oneLine_shownEntries : ∀ entries : List (Scalar × Data), ∀ part ∈ shownEntries entries, OneLine part
  | [] => List.forall_mem_nil _
  | (k, v) :: entries =>
    have hvalue : OneLine (':' :: ' ' :: v.shownChars) :=
      oneLine_cons.mpr ⟨by decide, oneLine_cons.mpr ⟨by decide, oneLine_shownChars v⟩⟩
    List.forall_mem_cons.mpr ⟨oneLine_append.mpr ⟨k.oneLine_shownChars, hvalue⟩, oneLine_shownEntries entries⟩

end

end Data

/-! ## Literals -/

namespace Literal

/-- The line ends that literals keep as they are. -/
def keptEnds : List Char := ['\u0085', '\u2028', '\u2029']

/-- A text without line ends that literals keep. -/
def Unbroken (s : String) : Prop := ∀ c ∈ s.toList, c ∉ keptEnds

instance : DecidablePred Unbroken := fun s => List.decidableBAll _ s.toList

theorem mem_keptEnds_iff {c : Char} (h : 32 ≤ c.toNat) : c ∈ keptEnds ↔ Unicode.isLineEnd c = true := by
  have hkept : (keptEnds.all Unicode.isLineEnd) = true := by decide
  have hends : (Unicode.lineEnds.all fun c => decide (32 ≤ c.toNat → c ∈ keptEnds)) = true := by decide
  constructor
  · exact List.all_eq_true.mp hkept c
  · intro hend
    exact of_decide_eq_true (List.all_eq_true.mp hends c (Unicode.mem_lineEnds_of_isLineEnd hend)) h

theorem oneLine_jsonChar (c : Char) : OneLine (Quoted.jsonChar c) ↔ c ∉ keptEnds := by
  unfold Quoted.jsonChar
  -- the characters that have a short escape
  iterate 7
    split
    · rename_i h
      subst h
      exact iff_of_true (by decide) (by decide)
  split
  · rename_i hcontrol
    have hkept : (keptEnds.any fun c => c.toNat < 32) = false := by decide
    refine iff_of_true ?_ fun hmem => List.any_eq_false.mp hkept c hmem (decide_eq_true hcontrol)
    exact oneLine_cons.mpr ⟨by decide, oneLine_cons.mpr ⟨by decide, Quoted.oneLine_hex 4 c.toNat⟩⟩
  · rename_i hcontrol
    rw [mem_keptEnds_iff (Nat.not_lt.mp hcontrol), oneLine_cons, Bool.not_eq_true]
    exact and_iff_left oneLine_nil

theorem oneLine_quoted (s : String) : OneLine (quoted s).toList ↔ Unbroken s := by
  have hquote : Unicode.isLineEnd '"' = false := by decide
  rw [toList_quoted, Quoted.json, oneLine_cons, oneLine_append, and_iff_right hquote, and_iff_left (by decide)]
  have hchars : OneLine (s.toList.flatMap Quoted.jsonChar) ↔ ∀ c ∈ s.toList, OneLine (Quoted.jsonChar c) :=
    List.forall_mem_flatMap
  exact hchars.trans (forall₂_congr fun c _ => oneLine_jsonChar c)

end Literal

/-- A value that is no text with a line end that literals keep. -/
def Data.Unbroken : Data → Prop
  | .str s => Literal.Unbroken s
  | _ => True

instance : DecidablePred Data.Unbroken
  | .str s => inferInstanceAs (Decidable (Literal.Unbroken s))
  | .scalar .null | .scalar (.bool _) | .scalar (.int _) | .scalar (.float _) | .scalar (.bytes _)
  | .scalar (.moment _) | .list _ | .tuple _ | .map _ => isTrue trivial

theorem Literal.oneLine_spellingOf (d : Data) : OneLine (spellingOf d).toList ↔ d.Unbroken := by
  unfold spellingOf
  split
  case h_1 s => exact oneLine_quoted s
  case h_2 hother =>
    have hunbroken : d.Unbroken := by
      unfold Data.Unbroken
      split
      · exact absurd rfl (hother _)
      · trivial
    rw [Data.shown, String.toList_ofList]
    exact iff_of_true d.oneLine_shownChars hunbroken

theorem Literal.oneLine_spelling (s : Scalar) : OneLine (spelling s).toList ↔ (Data.scalar s).Unbroken := by
  have hscalar : spelling s = spellingOf (.scalar s) := by cases s <;> rfl
  rw [hscalar, oneLine_spellingOf]

end ClientBindings
