import ClientBindings.Proofs.Source.Comment
import ClientBindings.Proofs.Source.Composition
import ClientBindings.Proofs.Source.Finishing

/-! Declarations that are written as classes. A class needs a statement below its first line: a docstring, an
attribute, or what stands in for them where there is no remark and no attribute. A remark of nothing but white space
is none of these, and nothing stands in for it. -/

namespace ClientBindings

open Text Remark

/-! ## Where a statement begins -/

namespace Unicode

def blanks : List Char :=
  (List.range' 9 5 ++ List.range' 28 5 ++ List.range' 0x2000 11 ++
    [0x85, 0xa0, 0x1680, 0x2028, 0x2029, 0x202f, 0x205f, 0x3000]).map Char.ofNat

theorem mem_blanks_of_isBlank {c : Char} (h : isBlank c = true) : c ∈ blanks := by
  refine List.mem_map.mpr ⟨c.toNat, ?_, Char.ofNat_toNat c⟩
  simp only [isBlank, Bool.or_eq_true, Bool.and_eq_true, beq_iff_eq, decide_eq_true_eq] at h
  simp only [List.mem_append, List.mem_range'_1, List.mem_cons, List.not_mem_nil]
  omega

theorem isBlank_of_isIdentifierPart {c : Char} (h : isIdentifierPart c = true) : isBlank c = false := by
  have hblanks : blanks.any isIdentifierPart = false := by decide +kernel
  by_contra hblank
  have hmem := mem_blanks_of_isBlank (Bool.eq_true_of_not_eq_false hblank)
  exact List.any_eq_false.mp hblanks c hmem h

end Unicode

namespace Identifier

variable {name : String}

theorem isBlank_of_mem {c : Char} (h : isValid name = true) (hc : c ∈ name.toList) : Unicode.isBlank c = false :=
  Unicode.isBlank_of_isIdentifierPart (List.all_eq_true.mp (all_isPart_of_hasShape (hasShape_of_isValid h)) c hc)

theorem toList_ne_nil (h : isValid name = true) : name.toList ≠ [] := by
  intro hnil
  have hshape := hasShape_of_isValid h
  rw [hnil] at hshape
  cases hshape

end Identifier

namespace Lines

variable {front : List Char} {line : String} {lines : Lines}

/-- How a statement of a class opens: a docstring, a name with a type or a name with a value. -/
def OpensStatement (front : List Char) : Prop :=
  front = quotes ∨
    ∃ name sign, Identifier.isValid name = true ∧ (sign = ": " ∨ sign = " = ") ∧ front = (name ++ sign).toList

/-- A line of a class that is a statement or opens one. -/
def IsStatement (line : List Char) : Prop :=
  line = "    pass".toList ∨ ∃ front, OpensStatement front ∧ spaces 4 ++ front <+: line

/-- Whether the first line that is not blank is a statement or opens one. -/
def HasStatement (lines : Lines) : Prop :=
  ∃ line, (read (text lines).toList).find? (·.any fun c => !Unicode.isBlank c) = some line ∧ IsStatement line

theorem not_hasStatement_nil : ¬ HasStatement [] := by
  rintro ⟨line, hfind, -⟩
  exact absurd hfind (Option.some_ne_none line).symm

theorem hasStatement_pass : HasStatement ["    pass"] := ⟨"    pass".toList, by decide +kernel, .inl rfl⟩

theorem hasStatement_blank : HasStatement ("" :: lines) ↔ HasStatement lines := by
  have hnone : ([] : List Char).getLast? ≠ some '\r' := (Option.some_ne_none '\r').symm
  have hread : read (text ("" :: lines)).toList = [] :: read (text lines).toList := by
    rw [toList_text_cons]
    exact read_append_newline hnone (text lines).toList
  rw [HasStatement, hread]
  rfl

theorem OpensStatement.exists_mem (h : OpensStatement front) : ∃ c ∈ front, Unicode.isBlank c = false := by
  rcases h with rfl | ⟨name, sign, hname, -, rfl⟩
  · exact ⟨'"', List.mem_cons_self, by decide⟩
  · obtain ⟨c, cs, hcs⟩ := List.exists_cons_of_ne_nil (Identifier.toList_ne_nil hname)
    have hc : c ∈ name.toList := hcs ▸ List.mem_cons_self
    exact ⟨c, String.toList_append ▸ List.mem_append_left sign.toList hc, Identifier.isBlank_of_mem hname hc⟩

theorem OpensStatement.not_mem (h : OpensStatement front) {c : Char}
    (hc : Unicode.isBlank c = true) (hspace : c ≠ ' ') :
    c ∉ spaces 4 ++ front := by
  intro hmem
  rcases List.mem_append.mp hmem with hmem | hmem
  · exact hspace (List.eq_of_mem_replicate hmem)
  rcases h with rfl | ⟨name, sign, hname, hsign, rfl⟩
  · rw [List.eq_of_mem_replicate (n := 3) hmem] at hc
    exact absurd hc (by decide)
  rw [String.toList_append] at hmem
  rcases List.mem_append.mp hmem with hmem | hmem
  · exact Bool.eq_false_iff.mp (Identifier.isBlank_of_mem hname hmem) hc
  · have hplain : sign.toList.all (fun d => !Unicode.isBlank d || d == ' ') = true := by
      rcases hsign with rfl | rfl <;> decide
    have hd := List.all_eq_true.mp hplain c hmem
    rw [hc] at hd
    exact hspace (eq_of_beq hd)

theorem hasStatement_cons (h : OpensStatement front) (hline : spaces 4 ++ front <+: line.toList) (lines : Lines) :
    HasStatement (line :: lines) := by
  obtain ⟨rest, hrest⟩ := hline
  obtain ⟨piece, pieces, hpieces⟩ := List.exists_cons_of_ne_nil
    (splitOn_ne_nil '\n' (FileTree.unifyLineEnds (rest ++ '\n' :: (text lines).toList)))
  have hread := read_append (h.not_mem (by decide) (by decide)) (h.not_mem (by decide) (by decide))
    (rest ++ '\n' :: (text lines).toList)
  rw [← List.append_assoc, hrest, ← toList_text_cons] at hread
  refine ⟨spaces 4 ++ front ++ piece, ?_, .inr ⟨front, h, List.prefix_append _ piece⟩⟩
  rw [hread, read, hpieces, List.modifyHead_cons]
  obtain ⟨c, hc, hblank⟩ := h.exists_mem
  refine List.find?_cons_of_pos (List.any_eq_true.mpr ⟨c, ?_, by rw [hblank]; rfl⟩)
  exact List.mem_append_left piece (List.mem_append_right (spaces 4) hc)

end Lines

/-! ## Classes -/

namespace Declaration

/-- The names that a declaration binds in its class, or would if it were one. -/
def attributes : Declaration → List String
  | .record d => d.fields.map fun f => f.name.text
  | .enumeration d => d.members.map Prod.fst
  | .synonym _ => []

def remark : Declaration → Data
  | .record d => d.doc
  | .enumeration d => d.doc
  | .synonym d => d.doc

/-- The remarks on a declaration and its parts. -/
def remarks : Declaration → List Data
  | .record d => d.doc :: d.fields.map FieldDeclaration.doc
  | d => [d.remark]

end Declaration

/-- Enumerations that are written as classes have identifiers as members. -/
theorem EnumDeclaration.isValid_of_class {className : String} {members : List EnumMember} {doc : Data}
    (hclass : (Declaration.enumeration (.ofMembers className members doc)).hasClassForm = true) :
    ∀ name ∈ (Declaration.enumeration (.ofMembers className members doc)).attributes,
      Identifier.isValid name = true := by
  intro name hname
  obtain ⟨member, hmember, rfl⟩ := List.mem_map.mp hname
  have hall : (namedMembers className (distinct members)).all (fun m => Identifier.isValid m.1) = true := by
    simpa only [Declaration.hasClassForm, ofMembers, Bool.not_not] using hclass
  exact List.all_eq_true.mp hall member hmember

theorem Field.isValid_of_isAttribute {f : Field} (h : f.isAttribute = .ok true) :
    Identifier.isValid f.name.text = true := by
  unfold isAttribute at h
  split at h
  case h_1 text hname =>
    rw [hname]
    exact Except.ok.inj h
  case h_2 => cases h

/-- Records that are written as classes have identifiers as keys. -/
theorem TypeWriter.isValid_of_class {w : TypeWriter} {s t : Draft} {className : String} {fields : List Field}
    {doc : Data} {bases : List String} {d : RecordDeclaration}
    (hrun : Runs (w.record className fields doc bases) s d t) (hclass : (Declaration.record d).hasClassForm = true) :
    ∀ name ∈ (Declaration.record d).attributes, Identifier.isValid name = true := by
  have hkeys := names_of_runs_record hrun
  simp only [TypeWriter.record, Runs.bind_iff, Runs.pure_iff, Runs.lift_iff] at hrun
  obtain ⟨attributes, _, ⟨hall, rfl⟩, declared, _, -, rfl, rfl⟩ := hrun
  obtain rfl : attributes = true := by simpa [Declaration.hasClassForm] using hclass
  intro name hname
  obtain ⟨written, hwritten, rfl⟩ := List.mem_map.mp hname
  obtain ⟨f, hf, hkey⟩ := List.mem_map.mp (hkeys ▸ List.mem_map_of_mem hwritten)
  rw [← hkey]
  exact Field.isValid_of_isAttribute (Field.allAttributes_eq_ok_true_iff.mp hall f hf)

namespace ClassBody

variable {doc : Data}

/-- No remark, or a text. -/
def IsRemark (doc : Data) : Prop := doc = .null ∨ ∃ text, doc = .str text

/-- A remark of white space only. -/
def IsBlank (doc : Data) : Prop := ∃ text, doc = .str text ∧ text ≠ "" ∧ strip text.toList = []

theorem docLines_of_ne {text : String} (h : text ≠ "") :
    docLines (.str text) = .ok [String.ofList (docstringChars 4 text.toList)] := by
  rw [docLines, if_pos (Docstring.truthy_str h), Docstring.docstring_of_ne h]
  rfl

/-- A remark is missing, blank, or written as a statement. -/
theorem docLines_cases (h : IsRemark doc) :
    (docLines doc = .ok [] ∧ doc.truthy = false ∧ ¬ IsBlank doc) ∨
    (docLines doc = .ok [""] ∧ doc.truthy = true ∧ IsBlank doc) ∨
    ∃ line, docLines doc = .ok [line] ∧ doc.truthy = true ∧ ¬ IsBlank doc ∧
      spaces 4 ++ quotes <+: line.toList := by
  rcases h with rfl | ⟨text, rfl⟩
  · refine .inl ⟨rfl, rfl, ?_⟩
    rintro ⟨text, htext, -⟩
    cases htext
  by_cases hempty : text = ""
  · subst hempty
    refine .inl ⟨rfl, rfl, ?_⟩
    rintro ⟨text, htext, hne, -⟩
    cases htext
    exact hne rfl
  have htruthy := Docstring.truthy_str hempty
  by_cases hstrip : strip text.toList = []
  · have hnothing : docstringChars 4 text.toList = [] := by
      rw [docstringChars, hstrip]
      rfl
    refine .inr (.inl ⟨?_, htruthy, text, rfl, hempty, hstrip⟩)
    rw [docLines_of_ne hempty, hnothing]
  · refine .inr (.inr ⟨_, docLines_of_ne hempty, htruthy, ?_, ?_⟩)
    · rintro ⟨text, htext, -, hblank⟩
      cases htext
      exact hstrip hblank
    · rw [String.toList_ofList, Docstring.docstringChars_eq 4 hstrip, ← List.append_assoc]
      exact List.prefix_append _ _

theorem exists_docLines (h : IsRemark doc) : ∃ docs, docLines doc = .ok docs := by
  rcases docLines_cases h with ⟨hdocs, -⟩ | ⟨hdocs, -⟩ | ⟨line, hdocs, -⟩ <;> exact ⟨_, hdocs⟩

/-- What is written for attributes: nothing if there are none, else lines of which the first opens a statement. -/
def Written (attributes : List String) (lines : Lines) : Prop :=
  (attributes = [] ∧ lines = []) ∨ attributes ≠ [] ∧ ∃ line more front, lines = line :: more ∧
    Lines.OpensStatement front ∧ spaces 4 ++ front <+: line.toList

theorem written_cons {name sign : String} (hname : Identifier.isValid name = true)
    (hsign : sign = ": " ∨ sign = " = ")
    (names : List String) (rest : String) (lines : Lines) :
    Written (name :: names) (("    " ++ name ++ sign ++ rest) :: lines) := by
  refine .inr ⟨List.cons_ne_nil _ _, _, lines, _, rfl, .inr ⟨name, sign, hname, hsign, rfl⟩, rest.toList, ?_⟩
  simp only [String.toList_append, List.append_assoc]
  rfl

/-- What stands below the class line has a statement unless it is for a blank remark only. -/
theorem hasStatement_iff {attributes : List String} {docs lines : Lines} {empty : Bool} (hremark : IsRemark doc)
    (hdocs : docLines doc = .ok docs) (hlines : Written attributes lines) (hempty : empty = true ↔ attributes = []) :
    Lines.HasStatement (docs ++ lines ++ if empty && !doc.truthy then ["    pass"] else []) ↔
      (IsBlank doc → attributes ≠ []) := by
  rcases hlines with ⟨hnone, rfl⟩ | ⟨hsome, first, more, front, rfl, hfront, hfirst⟩
  · rw [hempty.mpr hnone]
    rcases docLines_cases hremark with ⟨hnothing, htruthy, hblank⟩ | ⟨hline, htruthy, hblank⟩ |
      ⟨line, hline, htruthy, hblank, hstatement⟩
    · obtain rfl := Except.ok.inj (hdocs.symm.trans hnothing)
      rw [htruthy]
      exact iff_of_true Lines.hasStatement_pass fun h => absurd h hblank
    · obtain rfl := Except.ok.inj (hdocs.symm.trans hline)
      rw [htruthy]
      refine iff_of_false ?_ fun h => h hblank hnone
      exact fun h => Lines.not_hasStatement_nil (Lines.hasStatement_blank.mp h)
    · obtain rfl := Except.ok.inj (hdocs.symm.trans hline)
      exact iff_of_true (Lines.hasStatement_cons (.inl rfl) hstatement _) fun h => absurd h hblank
  · refine iff_of_true ?_ fun _ => hsome
    rcases docLines_cases hremark with ⟨hnothing, -⟩ | ⟨hline, -⟩ | ⟨line, hline, -, -, hstatement⟩
    · obtain rfl := Except.ok.inj (hdocs.symm.trans hnothing)
      exact Lines.hasStatement_cons hfront hfirst _
    · obtain rfl := Except.ok.inj (hdocs.symm.trans hline)
      exact Lines.hasStatement_blank.mpr (Lines.hasStatement_cons hfront hfirst _)
    · obtain rfl := Except.ok.inj (hdocs.symm.trans hline)
      exact Lines.hasStatement_cons (.inl rfl) hstatement _

theorem written_fields (fields : List FieldDeclaration)
    (hnames : ∀ f ∈ fields, Identifier.isValid f.name.text = true)
    (hremarks : ∀ f ∈ fields, IsRemark f.doc) : ∃ written, fields.mapM RecordDeclaration.fieldLines = .ok written ∧
      Written (fields.map fun f => f.name.text) written.flatten := by
  induction fields with
  | nil => exact ⟨[], rfl, .inl ⟨rfl, rfl⟩⟩
  | cons f fields ih =>
    obtain ⟨hname, hnames⟩ := List.forall_mem_cons.mp hnames
    obtain ⟨hremark, hremarks⟩ := List.forall_mem_cons.mp hremarks
    obtain ⟨written, hwritten, -⟩ := ih hnames hremarks
    obtain ⟨docs, hdocs⟩ := exists_docLines hremark
    have hfield : RecordDeclaration.fieldLines f = .ok (("    " ++ f.name.text ++ ": " ++ f.type) :: docs) := by
      rw [RecordDeclaration.fieldLines, hdocs]
      rfl
    exact ⟨_, Result.mapM_cons_eq_ok_iff.mpr ⟨_, _, hfield, hwritten, rfl⟩, written_cons hname (.inl rfl) _ _ _⟩

theorem written_members {d : EnumDeclaration}
    (hnames : ∀ name ∈ (Declaration.enumeration d).attributes, Identifier.isValid name = true) :
    Written (Declaration.enumeration d).attributes
      (d.members.map fun (name, value) => "    " ++ name ++ " = " ++ value) := by
  rw [Declaration.attributes] at hnames ⊢
  generalize d.members = members at hnames ⊢
  cases members with
  | nil => exact .inl ⟨rfl, rfl⟩
  | cons member members => exact written_cons (hnames _ List.mem_cons_self) (.inr rfl) _ _ _

/-- A class is written with a statement below its first line if and only if it has attributes or its remark is
missing or has something in it. -/
theorem class_body_iff {d : Declaration} (hclass : d.hasClassForm = true)
    (hnames : ∀ name ∈ d.attributes, Identifier.isValid name = true)
    (hremarks : ∀ doc ∈ d.remarks, IsRemark doc) : ∃ bases body,
    d.lines = .ok (("class " ++ d.name ++ "(" ++ bases ++ "):") :: body) ∧
    (Lines.HasStatement body ↔ (IsBlank d.remark → d.attributes ≠ [])) := by
  rcases d with d | d | d
  case record =>
    obtain ⟨hremark, hremarks⟩ := List.forall_mem_cons.mp hremarks
    have hform : d.functional = false := by simpa [Declaration.hasClassForm] using hclass
    obtain ⟨docs, hdocs⟩ := exists_docLines hremark
    obtain ⟨written, hwritten, hattributes⟩ := written_fields d.fields
      (fun f hf => hnames _ (List.mem_map_of_mem hf)) fun f hf => hremarks _ (List.mem_map_of_mem hf)
    have hempty : d.fields.isEmpty = true ↔ (Declaration.record d).attributes = [] := by
      rw [List.isEmpty_iff, Declaration.attributes, List.map_eq_nil_iff]
    refine ⟨if d.bases.isEmpty then "TypedDict" else String.intercalate ", " d.bases, _, ?_,
      hasStatement_iff hremark hdocs hattributes hempty⟩
    rw [Declaration.lines, RecordDeclaration.lines, hform, hwritten, hdocs]
    rfl
  case enumeration =>
    have hremark := hremarks d.doc List.mem_cons_self
    have hform : d.functional = false := by simpa [Declaration.hasClassForm] using hclass
    obtain ⟨docs, hdocs⟩ := exists_docLines hremark
    have hempty : d.members.isEmpty = true ↔ (Declaration.enumeration d).attributes = [] := by
      rw [List.isEmpty_iff, Declaration.attributes, List.map_eq_nil_iff]
    refine ⟨if d.isText then "str, Enum" else "Enum", _, ?_,
      hasStatement_iff hremark hdocs (written_members hnames) hempty⟩
    rw [Declaration.lines, EnumDeclaration.lines, hform, hdocs]
    rfl
  case synonym => cases hclass

def dog : RecordDeclaration :=
  { name := "Dog", fields := [⟨.str "name", "str", .str "\t"⟩], bases := ["Animal"], doc := .str " \n" }

theorem class_body_dog : (Declaration.record dog).hasClassForm = true ∧
    (∀ name ∈ (Declaration.record dog).attributes, Identifier.isValid name = true) ∧
    (∀ doc ∈ (Declaration.record dog).remarks, IsRemark doc) ∧ ∃ bases body,
    (Declaration.record dog).lines = .ok (("class Dog(" ++ bases ++ "):") :: body) ∧ Lines.HasStatement body := by
  have hnames : ∀ name ∈ (Declaration.record dog).attributes, Identifier.isValid name = true := by decide +kernel
  have hremarks : ∀ doc ∈ (Declaration.record dog).remarks, IsRemark doc :=
    List.forall_mem_cons.mpr ⟨.inr ⟨_, rfl⟩, List.forall_mem_singleton.mpr (.inr ⟨_, rfl⟩)⟩
  obtain ⟨bases, body, hlines, hstatement⟩ := class_body_iff (d := .record dog) rfl hnames hremarks
  exact ⟨rfl, hnames, hremarks, bases, body, hlines, hstatement.mpr fun _ => List.cons_ne_nil _ _⟩

/-- A record that adds nothing to its base but a blank remark is written without a statement. -/
theorem exists_class_without_statement :
    Runs ((Scope.writer default).record "B" [] (.str " ") ["A"]) {}
      { name := "B", bases := ["A"], doc := .str " " } {} ∧
    (Declaration.record { name := "B", bases := ["A"], doc := .str " " }).lines = .ok ["class B(A):", ""] ∧
    ¬ Lines.HasStatement [""] := by
  refine ⟨rfl, ?_, fun h => Lines.not_hasStatement_nil (Lines.hasStatement_blank.mp h)⟩
  have hdocs : docLines (.str " ") = .ok [""] :=
    (docLines_of_ne (by decide)).trans (congrArg (fun line => Except.ok [line]) (by decide +kernel))
  rw [Declaration.lines, RecordDeclaration.lines, hdocs]
  rfl

end ClassBody
end ClientBindings
