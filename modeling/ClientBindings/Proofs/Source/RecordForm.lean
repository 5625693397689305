import ClientBindings.Proofs.Source.ClassBody
import ClientBindings.Proofs.Source.TextLiteral

/-! Keys of records as they are read. In a call a key is a text. In the body of a class it is a name: it is read in a
normal form, and a private name gets the name of the class in front. A record becomes a class where all keys can be
written as names, so the keys that a class keeps are those in normal form that are not private. -/

namespace ClientBindings

/-! ## Names in the body of a class -/

/-- The normal form in which names are read. A name in normal form stays as it is, and a low line combines with nothing
next to it. -/
structure NormalForm where
  form : List Char → List Char
  form_form : ∀ cs, form (form cs) = form cs
  form_append : ∀ front behind, form (front ++ '_' :: behind) = form front ++ '_' :: form behind

namespace Identifier

/-- Private names have two low lines in front and not two at the end. -/
def isPrivate (cs : List Char) : Bool := ['_', '_'].isPrefixOf cs && !(['_', '_'].isSuffixOf cs)

/-- What a name in the body of a class is bound as. A private name gets the name of the class in front, without the low
lines that this begins with; a class that is named by low lines alone leaves it as it is. -/
def bound (owner name : List Char) : List Char :=
  let owner := owner.dropWhile (· == '_')
  if isPrivate name && !owner.isEmpty then '_' :: owner ++ name else name

/-- Names that stand for themselves in the body of a class. -/
def Kept (nf : NormalForm) (owner name : List Char) : Prop :=
  nf.form name = name ∧ ¬ (isPrivate name = true ∧ (nf.form owner).dropWhile (· == '_') ≠ [])

variable {nf : NormalForm} {owner name : List Char}

/-- A name does not become its own normal form by what is put in front of that. -/
theorem form_ne (h : isPrivate (nf.form name) = true) : '_' :: owner ++ nf.form name ≠ name := by
  intro heq
  obtain ⟨rest, hrest⟩ : ∃ rest, nf.form name = '_' :: rest := by
    obtain ⟨more, hmore⟩ := List.isPrefixOf_iff_prefix.mp (Bool.and_eq_true_iff.mp h).1
    exact ⟨'_' :: more, hmore.symm⟩
  have hshort : nf.form ('_' :: rest) = nf.form [] ++ '_' :: nf.form rest := nf.form_append [] rest
  have hlong : nf.form ('_' :: owner ++ '_' :: rest) = nf.form ('_' :: owner) ++ '_' :: nf.form rest :=
    nf.form_append ('_' :: owner) rest
  have hfront : nf.form ('_' :: owner) = nf.form [] ++ '_' :: nf.form owner := nf.form_append [] owner
  have hsame : nf.form ('_' :: rest) = nf.form ('_' :: owner ++ '_' :: rest) := by
    rw [← hrest, heq, nf.form_form]
  have hlength := congrArg List.length hsame
  rw [hlong, hshort, hfront] at hlength
  simp only [List.length_append, List.length_cons] at hlength
  omega

theorem bound_form_iff : bound (nf.form owner) (nf.form name) = name ↔ Kept nf owner name := by
  unfold bound Kept
  simp only [Bool.and_eq_true, Bool.not_eq_true', List.isEmpty_eq_false_iff]
  constructor
  · intro h
    split at h
    case isTrue hprivate => exact absurd h (form_ne hprivate.1)
    case isFalse hkept =>
      rw [h] at hkept
      exact ⟨h, hkept⟩
  · rintro ⟨hform, hkept⟩
    rw [hform, if_neg hkept]

end Identifier

/-! ## Lines of fields -/

namespace RecordDeclaration

variable {d : RecordDeclaration} {f : FieldDeclaration} {key : String}

/-- The line that is written for a field. -/
def entry (d : RecordDeclaration) (f : FieldDeclaration) : String :=
  if d.functional then "        " ++ Literal.spellingOf f.name ++ ": " ++ f.type ++ ","
  else "    " ++ f.name.text ++ ": " ++ f.type

/-- The key that is read in the line of a field. -/
def keyRead? (nf : NormalForm) (named? : List Char → Option Char) (d : RecordDeclaration) (line : List Char) :
    Option (List Char) :=
  if d.functional then
    match Literal.token? named? (line.drop 8) with
    | some (key, ':' :: _) => some key
    | _ => none
  else
    let written := line.drop 4
    match written.dropWhile Unicode.isIdentifierPart with
    | ':' :: _ => some (Identifier.bound (nf.form d.name.toList) (nf.form (written.takeWhile Unicode.isIdentifierPart)))
    | _ => none

theorem entries_sublist_fieldLines (hclass : d.functional = false) {fields : List FieldDeclaration}
    {written : List Lines} (h : fields.mapM fieldLines = .ok written) : (fields.map d.entry).Sublist written.flatten := by
  induction fields generalizing written with
  | nil => exact List.nil_sublist _
  | cons f fields ih =>
    obtain ⟨first, rest, hfirst, hrest, rfl⟩ := Result.mapM_cons_eq_ok_iff.mp h
    obtain ⟨docs, -, hlines⟩ := Result.bind_eq_ok_iff.mp hfirst
    rw [← Result.pure_eq_ok_iff.mp hlines, List.map_cons, entry, hclass]
    exact .cons_cons _ ((ih hrest).trans (List.sublist_append_right _ _))

/-- Every field has its line in what is printed, in the same order. -/
theorem entries_sublist {printed : Lines} (h : d.lines = .ok printed) : (d.fields.map d.entry).Sublist printed := by
  rw [lines] at h
  split at h
  case isTrue hcall =>
    obtain ⟨above, -, hprinted⟩ := Result.bind_eq_ok_iff.mp h
    have hentries : d.fields.map d.entry =
        d.fields.map fun f => "        " ++ Literal.spellingOf f.name ++ ": " ++ f.type ++ "," := by
      refine List.map_congr_left fun f _ => ?_
      rw [entry, if_pos hcall]
    rw [← Result.pure_eq_ok_iff.mp hprinted, hentries]
    exact (List.sublist_append_right _ _).trans (List.sublist_append_left _ _)
  case isFalse hclass =>
    obtain ⟨written, hwritten, h⟩ := Result.bind_eq_ok_iff.mp h
    obtain ⟨docs, -, hprinted⟩ := Result.bind_eq_ok_iff.mp h
    rw [← Result.pure_eq_ok_iff.mp hprinted]
    have hentries := entries_sublist_fieldLines (Bool.eq_false_iff.mpr hclass) hwritten
    exact .cons _ ((hentries.trans (List.sublist_append_right docs _)).trans (List.sublist_append_left _ _))

theorem keyRead?_call (nf : NormalForm) (named? : List Char → Option Char) (hcall : d.functional = true)
    (hkey : f.name = .str key) : d.keyRead? nf named? (d.entry f).toList = some key.toList := by
  have hline : (d.entry f).toList.drop 8 = (Literal.quoted key).toList ++ (": " ++ f.type ++ ",").toList := by
    rw [entry, if_pos hcall, hkey]
    simp only [String.toList_append, Literal.spellingOf, List.append_assoc]
    rfl
  rw [keyRead?, if_pos hcall, hline, Literal.token?_quoted key (by simp [String.toList_append])]
  simp only [String.toList_append]
  rfl

theorem keyRead?_class (nf : NormalForm) (named? : List Char → Option Char) (hclass : d.functional = false)
    (hvalid : Identifier.isValid f.name.text = true) : d.keyRead? nf named? (d.entry f).toList =
      some (Identifier.bound (nf.form d.name.toList) (nf.form f.name.text.toList)) := by
  have hparts : ∀ c ∈ f.name.text.toList, Unicode.isIdentifierPart c = true :=
    List.all_eq_true.mp (Identifier.all_isPart_of_hasShape (Identifier.hasShape_of_isValid hvalid))
  have hline : (d.entry f).toList.drop 4 = f.name.text.toList ++ (':' :: ' ' :: f.type.toList) := by
    rw [entry, hclass]
    simp only [String.toList_append, Bool.false_eq_true, if_false, List.append_assoc]
    rfl
  have hcolon : Unicode.isIdentifierPart ':' = false := by decide +kernel
  rw [keyRead?, hclass, hline]
  simp only [Bool.false_eq_true, if_false]
  rw [List.takeWhile_append_of_pos hparts, List.dropWhile_append_of_pos hparts,
    List.takeWhile_cons_of_neg (Bool.eq_false_iff.mp hcolon), List.dropWhile_cons_of_neg (Bool.eq_false_iff.mp hcolon),
    List.append_nil]
  rfl

/-- The keys that are read in the lines of the fields. -/
def keysRead (nf : NormalForm) (named? : List Char → Option Char) (d : RecordDeclaration) : List (Option (List Char)) :=
  d.fields.map fun f => d.keyRead? nf named? (d.entry f).toList

/-- A call keeps all texts. -/
theorem keysRead_call (nf : NormalForm) (named? : List Char → Option Char) (hcall : d.functional = true)
    (htexts : ∀ f ∈ d.fields, ∃ key, f.name = .str key) :
    d.keysRead nf named? = d.fields.map fun f => some f.name.text.toList := by
  refine List.map_congr_left fun f hf => ?_
  obtain ⟨key, hkey⟩ := htexts f hf
  rw [keyRead?_call nf named? hcall hkey, hkey]
  rfl

/-- A class keeps the names that stand for themselves. -/
theorem keysRead_class_iff (nf : NormalForm) (named? : List Char → Option Char) (hclass : d.functional = false)
    (hvalid : ∀ f ∈ d.fields, Identifier.isValid f.name.text = true) :
    (d.keysRead nf named? = d.fields.map fun f => some f.name.text.toList) ↔
      ∀ f ∈ d.fields, Identifier.Kept nf d.name.toList f.name.text.toList := by
  rw [keysRead, List.map_inj_left]
  refine forall₂_congr fun f hf => ?_
  rw [keyRead?_class nf named? hclass (hvalid f hf), Option.some.injEq, Identifier.bound_form_iff]

end RecordDeclaration

/-! ## The form of a record -/

theorem Field.allAttributes_isValid_iff {fields : List Field} (htexts : ∀ f ∈ fields, ∃ key, f.name = .str key) :
    allAttributes fields = .ok true ↔ ∀ f ∈ fields, Identifier.isValid f.name.text = true := by
  rw [allAttributes_eq_ok_true_iff]
  refine forall₂_congr fun f hf => ?_
  obtain ⟨key, hkey⟩ := htexts f hf
  rw [isAttribute, hkey]
  exact Result.pure_eq_ok_iff

namespace TypeWriter

variable {w : TypeWriter} {scope : Scope} {s t u : Draft} {name : String} {fields : List Field} {doc : Data}
  {bases : List String} {d : RecordDeclaration}

section
variable {given : String} {target : Option String} {index : Option TypeNode} {comment : Data}

/-- What stands in for a record that is being declared has the form of the record. -/
theorem runs_placeholder_form (hfields : fields ≠ []) (hform : Field.allAttributes fields = .ok (!d.functional)) :
    ∃ r : RecordDeclaration, r.functional = d.functional ∧
      Runs (placeholder name (.synonym given target (.object fields index) comment)) u (.record r) u := by
  obtain ⟨f, more, rfl⟩ := List.exists_cons_of_ne_nil hfields
  refine ⟨{ name, functional := !(!d.functional) }, Bool.not_not _, ?_⟩
  exact Runs.bind_iff.mpr ⟨_, u, Runs.lift_iff.mpr ⟨hform, rfl⟩, Runs.pure_iff.mpr ⟨rfl, rfl⟩⟩

/-- An alias of a record that is declared or being declared is taken for a base if the record is a class. -/
theorem runs_isBase {key : String} {pointer : Option String}
    (hlookup : scope.aliases.lookup key = some (.synonym given target (.object fields index) comment))
    (hfields : fields ≠ []) (hform : Field.allAttributes fields = .ok (!d.functional))
    (h : u.declared.lookup given = some (.record d) ∨ u.declared.lookup given = none ∧ given ∈ u.declaring)
    (depth : Nat) :
    Runs ((atDepth scope (depth + 1)).isBase scope (.reference key pointer)) u (!d.functional) u := by
  obtain ⟨r, hr, hdeclare⟩ : ∃ r : RecordDeclaration, r.functional = d.functional ∧
      Runs ((atDepth scope depth).declare scope (.synonym given target (.object fields index) comment)) u (.record r) u := by
    rcases h with hdeclared | ⟨hnew, hdeclaring⟩
    · refine ⟨d, rfl, Runs.bind_iff.mpr ⟨u, u, Runs.get_iff.mpr ⟨rfl, rfl⟩, ?_⟩⟩
      simp only [Alias.name, hdeclared, Runs.pure_iff, and_self]
    · obtain ⟨r, hr, hplaceholder⟩ : ∃ r : RecordDeclaration, r.functional = d.functional ∧ Runs (placeholder
          (scope.nameOf given) (.synonym given target (.object fields index) comment)) u (.record r) u :=
        runs_placeholder_form hfields hform
      refine ⟨r, hr, Runs.bind_iff.mpr ⟨u, u, Runs.get_iff.mpr ⟨rfl, rfl⟩, ?_⟩⟩
      have hcontains : u.declaring.contains given = true := List.contains_iff_mem.mpr hdeclaring
      simpa only [Alias.name, hnew, hcontains, if_true] using hplaceholder
  unfold isBase
  simp only [hlookup]
  exact Runs.bind_iff.mpr ⟨_, u, hdeclare, Runs.pure_iff.mpr ⟨congrArg (!·) hr.symm, rfl⟩⟩

end

/-- A record is a class if and only if all keys can be written as names, and wherever its alias is asked for as a base
the same is found. Its lines stand in what is printed, and what is read in them are the keys of the fields unless it
is a class and one of them is private or not in normal form. -/
theorem keys_read_iff (nf : NormalForm) (named? : List Char → Option Char)
    (hrun : Runs (w.record name fields doc bases) s d t) (htexts : ∀ f ∈ fields, ∃ key, f.name = .str key) :
    (d.functional = false ↔ ∀ f ∈ fields, Identifier.isValid f.name.text = true) ∧
    (∀ (scope : Scope) (depth : Nat) (u : Draft) (key given : String) (pointer target : Option String)
      (index : Option TypeNode) (comment : Data),
      scope.aliases.lookup key = some (.synonym given target (.object fields index) comment) → fields ≠ [] →
      u.declared.lookup given = some (.record d) ∨ u.declared.lookup given = none ∧ given ∈ u.declaring →
      Runs ((atDepth scope (depth + 1)).isBase scope (.reference key pointer)) u (!d.functional) u) ∧
    (∀ printed, d.lines = .ok printed → (d.fields.map d.entry).Sublist printed) ∧
    (d.keysRead nf named? = fields.map (fun f => some f.name.text.toList) ↔
      d.functional = true ∨ ∀ f ∈ fields, Identifier.Kept nf name.toList f.name.text.toList) := by
  have hform := allAttributes_of_runs_record hrun
  have hnames := names_of_runs_record hrun
  have hforall : ∀ P : Data → Prop, (∀ f ∈ d.fields, P f.name) ↔ ∀ f ∈ fields, P f.name := by
    intro P
    rw [← List.forall_mem_map (f := FieldDeclaration.name), hnames, List.forall_mem_map]
  have hclass : d.functional = false ↔ ∀ f ∈ fields, Identifier.isValid f.name.text = true := by
    rw [← Field.allAttributes_isValid_iff htexts, hform, Except.ok.injEq, Bool.not_eq_true']
  have hkeys : fields.map (fun f => some f.name.text.toList) = d.fields.map fun f => some f.name.text.toList := by
    have hmap := congrArg (List.map fun key : Data => some key.text.toList) hnames
    rw [List.map_map, List.map_map] at hmap
    exact hmap.symm
  refine ⟨hclass, fun scope depth u key given pointer target index comment hlookup hfields h =>
    runs_isBase hlookup hfields hform h depth, fun printed => RecordDeclaration.entries_sublist, ?_⟩
  rw [hkeys]
  cases hfunctional : d.functional with
  | true =>
    refine iff_of_true (RecordDeclaration.keysRead_call nf named? hfunctional ?_) (.inl rfl)
    exact (hforall fun key => ∃ text, key = .str text).mpr htexts
  | false =>
    have hvalid := (hforall fun key => Identifier.isValid key.text = true).mpr (hclass.mp hfunctional)
    rw [RecordDeclaration.keysRead_class_iff nf named? hfunctional hvalid, name_of_runs_record hrun,
      hforall fun key => Identifier.Kept nf name.toList key.text.toList]
    exact (or_iff_right Bool.noConfusion).symm

/-- The normal form of texts in ASCII. -/
def asciiForm : NormalForm where
  form cs := cs
  form_form _ := rfl
  form_append _ _ := rfl

def petFields : List Field :=
  [{ name := .str "_id", type := .primitive .number, required := true }, { name := .str "__tag__", type := .any }]

theorem keys_read_pet : ∃ d : RecordDeclaration,
    Runs ((Scope.writer default).record "Pet" petFields .null []) {} d {} ∧
    (∀ f ∈ petFields, ∃ key, f.name = .str key) ∧ d.functional = false ∧
    d.keysRead asciiForm (fun _ => none) = [some "_id".toList, some "__tag__".toList] := by
  have hrun : Runs ((Scope.writer default).record "Pet" petFields .null []) {}
      { name := "Pet", fields := [⟨.str "_id", "float", .null⟩, ⟨.str "__tag__", "NotRequired[Any]", .null⟩] } {} := rfl
  have htexts : ∀ f ∈ petFields, ∃ key, f.name = .str key :=
    List.forall_mem_cons.mpr ⟨⟨_, rfl⟩, List.forall_mem_singleton.mpr ⟨_, rfl⟩⟩
  obtain ⟨-, -, -, hread⟩ := keys_read_iff asciiForm (fun _ => none) hrun htexts
  refine ⟨_, hrun, htexts, rfl, hread.mpr (.inr ?_)⟩
  exact List.forall_mem_cons.mpr ⟨⟨rfl, by decide +kernel⟩, List.forall_mem_singleton.mpr ⟨rfl, by decide +kernel⟩⟩

/-- The key `__secret` of a record is read as another one. -/
theorem exists_key_rewritten : ∃ d : RecordDeclaration,
    Runs ((Scope.writer default).record "Order" [{ name := .str "__secret", type := .primitive .string, required := true }]
      .null []) {} d {} ∧
    d.functional = false ∧ d.keysRead asciiForm (fun _ => none) = [some "_Order__secret".toList] :=
  ⟨{ name := "Order", fields := [⟨.str "__secret", "str", .null⟩] }, rfl, rfl, by decide +kernel⟩

end TypeWriter
end ClientBindings
