import ClientBindings.Proofs.Source.Docstring

/-! Remarks written as comment. A comment marks every line of its text, lines being told apart by line feeds. So a
carriage return inside of a line ends the comment there, and what follows it is code, unless it is a comment on its
own. -/

namespace ClientBindings

open Text Remark

/-! ## Declarations and their remarks -/

namespace Declaration

/-- Whether a declaration is written as a class. -/
def hasClassForm : Declaration → Bool
  | .record d => !d.functional
  | .enumeration d => !d.functional
  | .synonym _ => false

def withRemark (doc : Data) : Declaration → Declaration
  | .record d => .record { d with doc }
  | .enumeration d => .enumeration { d with doc }
  | .synonym d => .synonym { d with doc }

/-- What is no class shows its remark above the rest, and the rest does not depend on it. -/
theorem exists_code {d : Declaration} (h : d.hasClassForm = false) : ∃ code, (d.withRemark .null).lines = .ok code ∧
    ∀ doc, (d.withRemark doc).lines = commentLines doc >>= fun above => pure (above ++ code) := by
  rcases d with ⟨name, fields, bases, old, functional⟩ | ⟨name, members, isText, old, functional⟩ | ⟨name, type, old⟩
  case record =>
    obtain rfl : functional = true := by simpa [hasClassForm] using h
    refine ⟨_, rfl, fun doc => ?_⟩
    simp only [withRemark, lines, RecordDeclaration.lines, if_true, List.append_assoc]
    rfl
  case enumeration =>
    obtain rfl : functional = true := by simpa [hasClassForm] using h
    refine ⟨_, rfl, fun doc => ?_⟩
    simp only [withRemark, lines, EnumDeclaration.lines, if_true, List.append_assoc]
    rfl
  case synonym => exact ⟨_, rfl, fun _ => rfl⟩

end Declaration

namespace Comment

variable {cs : List Char}

/-- A line without code: an empty one, or blanks and a comment. -/
def IsRemark (line : List Char) : Prop := line = [] ∨ (line.dropWhile (· == ' ')).head? = some '#'

instance : DecidablePred IsRemark := fun _ => inferInstanceAs (Decidable (_ ∨ _))

/-- Whether a text has nothing but comments behind the carriage returns inside of its lines. -/
def IsCovered (cs : List Char) : Prop :=
  ∀ line ∈ splitOn '\n' (strip cs), ∀ piece ∈ (splitOn '\r' (trimEnd Unicode.isBlank line)).tail, IsRemark piece

instance : Decidable (IsCovered cs) := inferInstanceAs (Decidable (∀ line ∈ _, ∀ piece ∈ _, _))

/-- A line of a comment, given the line of the text. -/
def marked (indent : Nat) (line : List Char) : List Char :=
  trimEnd Unicode.isBlank (spaces indent ++ '#' :: ' ' :: line)

theorem marked_eq (indent : Nat) (line : List Char) :
    marked indent line = spaces indent ++ '#' :: trimEnd Unicode.isBlank (' ' :: line) :=
  trimEnd_append_cons (by decide) (spaces indent) (' ' :: line)

theorem getLast?_marked (indent : Nat) (line : List Char) : (marked indent line).getLast? ≠ some '\r' := by
  obtain ⟨_, _, _, hlast⟩ := exists_trimEnd Unicode.isBlank (spaces indent ++ '#' :: ' ' :: line)
  intro hreturn
  exact absurd (hlast '\r' hreturn) (by decide)

/-- The blank in front of a line is no part of what follows its carriage returns. -/
theorem tail_splitOn_blank (line : List Char) :
    (splitOn '\r' (trimEnd Unicode.isBlank (' ' :: line))).tail =
      (splitOn '\r' (trimEnd Unicode.isBlank line)).tail := by
  by_cases hline : trimEnd Unicode.isBlank line = []
  · obtain ⟨blanks, hsplit, hblanks, -⟩ := exists_trimEnd Unicode.isBlank line
    rw [hline, List.nil_append] at hsplit
    have hall : ∀ c ∈ ' ' :: line, Unicode.isBlank c = true := by
      rw [hsplit]
      exact List.forall_mem_cons.mpr ⟨by decide, hblanks⟩
    have htrim := trimEnd_append hall []
    rw [List.nil_append] at htrim
    rw [hline, htrim]
    rfl
  · have htrim := trimEnd_append_of_ne_nil hline [' ']
    rw [List.singleton_append] at htrim
    rw [htrim, splitOn_append_of_not_mem (by decide), List.tail_modifyHead]

theorem isRemark_append (indent : Nat) (cs : List Char) : IsRemark (spaces indent ++ '#' :: cs) := by
  right
  rw [List.dropWhile_append_of_pos fun c hc => beq_iff_eq.mpr (List.eq_of_mem_replicate hc)]
  rfl

/-- The first line that is read of a marked one is a comment, so what counts is what follows carriage returns. -/
theorem isRemark_marked_iff (indent : Nat) {line : List Char} (h : '\n' ∉ line) :
    (∀ piece ∈ Lines.read (marked indent line), IsRemark piece) ↔
      ∀ piece ∈ (splitOn '\r' (trimEnd Unicode.isBlank line)).tail, IsRemark piece := by
  have hfeed : '\n' ∉ marked indent line := by
    intro hmem
    have hchars := mem_of_mem_trimEnd hmem
    simp only [List.mem_append, List.mem_cons] at hchars
    rcases hchars with hspace | hmark | hblank | hmem
    · exact absurd (List.eq_of_mem_replicate hspace) (by decide)
    · exact absurd hmark (by decide)
    · exact absurd hblank (by decide)
    · exact h hmem
  have hreturn : '\r' ∉ spaces indent ++ ['#'] := by
    intro hmem
    rcases List.mem_append.mp hmem with hspace | hmark
    · exact absurd (List.eq_of_mem_replicate hspace) (by decide)
    · exact absurd hmark (by decide)
  rw [Lines.read_of_not_mem hfeed, marked_eq, ← tail_splitOn_blank, List.append_cons, splitOn_append_of_not_mem hreturn]
  obtain ⟨piece, pieces, hpieces⟩ := List.exists_cons_of_ne_nil
    (splitOn_ne_nil '\r' (trimEnd Unicode.isBlank (' ' :: line)))
  rw [hpieces, List.modifyHead_cons, List.tail_cons, List.forall_mem_cons, List.append_assoc, List.singleton_append]
  exact and_iff_right (isRemark_append indent piece)

/-- Marked lines, and possibly an empty one behind them, are comments if and only if what they have behind carriage
returns are. -/
theorem isRemark_join_iff (indent : Nat) (cs : List Char) {ending : List (List Char)} (h : ∀ line ∈ ending, line = []) :
    (∀ line ∈ Lines.read (join ['\n'] ((splitOn '\n' (strip cs)).map (marked indent) ++ ending)), IsRemark line) ↔
      IsCovered cs := by
  have hlast : ∀ line ∈ (splitOn '\n' (strip cs)).map (marked indent) ++ ending, line.getLast? ≠ some '\r' := by
    intro line hline
    rcases List.mem_append.mp hline with hline | hline
    · obtain ⟨raw, -, rfl⟩ := List.mem_map.mp hline
      exact getLast?_marked indent raw
    · rw [h line hline]
      exact (Option.some_ne_none '\r').symm
  rw [Lines.read_join (by simp) hlast, List.flatMap_append, List.flatMap_map, List.forall_mem_append, IsCovered]
  simp only [List.mem_flatMap, forall_exists_index, and_imp]
  constructor
  · rintro ⟨hread, -⟩ line hline
    exact (isRemark_marked_iff indent (not_mem_of_mem_splitOn hline)).mp fun piece hpiece =>
      hread piece line hline hpiece
  · refine fun hcovered => ⟨?_, ?_⟩
    · intro piece line hline hpiece
      exact (isRemark_marked_iff indent (not_mem_of_mem_splitOn hline)).mpr (hcovered line hline) piece hpiece
    · intro piece line hline hpiece
      rw [h line hline] at hpiece
      exact .inl (List.mem_singleton.mp hpiece)

theorem isRemark_commentChars_iff (indent : Nat) (cs : List Char) :
    (∀ line ∈ Lines.read (commentChars indent cs), IsRemark line) ↔ IsCovered cs := by
  have hiff := isRemark_join_iff indent cs (List.forall_mem_nil (· = []))
  rwa [List.append_nil] at hiff

theorem isRemark_ended_iff (indent : Nat) (cs : List Char) :
    (∀ line ∈ Lines.read (commentChars indent cs ++ ['\n']), IsRemark line) ↔ IsCovered cs := by
  have hiff := isRemark_join_iff indent cs (List.forall_mem_singleton.mpr (rfl : ([] : List Char) = []))
  rwa [join_concat (by simp), List.append_nil] at hiff

theorem comment_of_ne {text : String} (h : text ≠ "") (indent : Nat) :
    Remark.comment (.str text) indent = .ok (String.ofList (commentChars indent text.toList)) := by
  rw [Remark.comment, Docstring.truthy_str h]
  rfl

theorem commentLines_of_ne {text : String} (h : text ≠ "") :
    commentLines (.str text) = .ok [String.ofList (commentChars 0 text.toList)] := by
  rw [commentLines, if_pos (Docstring.truthy_str h), comment_of_ne h]
  rfl

/-- A comment has no code in it if and only if what its text has behind carriage returns are comments. That is also
when a declaration that is no class keeps its remark out of the code, which is the same without the remark. -/
theorem remark_covered_iff {d : Declaration} (h : d.hasClassForm = false) (text : String) :
    (∀ indent, ∃ comment, Remark.comment (.str text) indent = .ok comment ∧
      ((∀ line ∈ Lines.read comment.toList, IsRemark line) ↔ IsCovered text.toList)) ∧
    ∃ above code, (d.withRemark (.str text)).lines = .ok (above ++ code) ∧ (d.withRemark .null).lines = .ok code ∧
      ((∀ line ∈ Lines.read (Lines.text above).toList, IsRemark line) ↔ IsCovered text.toList) := by
  obtain ⟨code, hcode, hlines⟩ := d.exists_code h
  by_cases htext : text = ""
  · have hcovered : IsCovered "".toList := by decide
    subst htext
    refine ⟨fun indent => ⟨"", rfl, iff_of_true (by decide) hcovered⟩, [], code, hlines _, hcode, ?_⟩
    exact iff_of_true (by decide) hcovered
  · constructor
    · intro indent
      refine ⟨_, comment_of_ne htext indent, ?_⟩
      rw [String.toList_ofList]
      exact isRemark_commentChars_iff indent text.toList
    · refine ⟨[String.ofList (commentChars 0 text.toList)], code, ?_, hcode, ?_⟩
      · rw [hlines, commentLines_of_ne htext]
        rfl
      · rw [Lines.toList_text, List.flatMap_singleton, String.toList_ofList]
        exact isRemark_ended_iff 0 text.toList

/-- A description with both line ends that a text can have, of an alias. -/
theorem remark_covered_alias :
    (Declaration.synonym { name := "Tag", type := "str" }).hasClassForm = false ∧
    ∃ above code, ((Declaration.synonym { name := "Tag", type := "str" }).withRemark (.str " a\r\n\n\tb \r")).lines =
        .ok (above ++ code) ∧
      ((Declaration.synonym { name := "Tag", type := "str" }).withRemark .null).lines = .ok code ∧
      ∀ line ∈ Lines.read (Lines.text above).toList, IsRemark line := by
  have hcovered : IsCovered " a\r\n\n\tb \r".toList := by decide +kernel
  obtain ⟨-, above, code, hlines, hcode, hiff⟩ :=
    remark_covered_iff (d := .synonym { name := "Tag", type := "str" }) rfl " a\r\n\n\tb \r"
  exact ⟨rfl, above, code, hlines, hcode, hiff.mpr hcovered⟩

/-- What follows a carriage return in a description becomes code, also above an alias. -/
theorem exists_comment_uncovered :
    Remark.comment (.str "a\rimport os") 0 = .ok "# a\rimport os" ∧
    ((Declaration.synonym { name := "Tag", type := "str" }).withRemark (.str "a\rimport os")).lines =
      .ok ["# a\rimport os", "Tag: TypeAlias = \"str\""] ∧
    Lines.read "# a\rimport os".toList = ["# a".toList, "import os".toList] ∧ ¬ IsRemark "import os".toList := by
  have hcomment : Remark.comment (.str "a\rimport os") 0 = .ok "# a\rimport os" := by
    rw [comment_of_ne (by decide)]
    exact congrArg Except.ok (by decide +kernel)
  refine ⟨hcomment, ?_, by decide +kernel, by decide +kernel⟩
  show commentLines (.str "a\rimport os") >>= (fun above => pure (above ++ [SynonymDeclaration.line "Tag" "str"])) = _
  rw [commentLines, if_pos (Docstring.truthy_str (by decide)), hcomment]
  exact congrArg Except.ok (by decide +kernel)

end Comment
end ClientBindings
