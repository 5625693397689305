import ClientBindings.Proofs.Runs
import ClientBindings.Proofs.Source.LineEnds
import ClientBindings.Proofs.Source.OneLine
import ClientBindings.Source.Module

/-! The bodies of the functions that return a URL and a request configuration. Statements are joined by line feeds and
taken apart wherever a line ends. So they are printed as they are only if nothing they are made of has a line end:
no literal has one that literals keep, and no text that is written as it is has any. -/

namespace ClientBindings

open Text Remark

/-! ## Statements and lines -/

namespace Lines

variable {statements : List String}

/-- Whether the body of a function is read as its statements, each on a line of its own and indented. -/
def IsPrinted (statements : List String) : Prop :=
  read (text (body statements)).toList = statements.map (fun s => spaces 4 ++ s.toList) ++ [[]]

instance : DecidablePred IsPrinted := fun _ => inferInstanceAs (Decidable (_ = _))

theorem read_text {lines : Lines} (h : ∀ line ∈ lines, OneLine line.toList) :
    read (text lines).toList = lines.map String.toList ++ [[]] := by
  induction lines with
  | nil => rfl
  | cons line lines ih =>
    obtain ⟨hline, hlines⟩ := List.forall_mem_cons.mp h
    have hfeed : '\n' ∉ line.toList := fun hmem => absurd (hline _ hmem) (by decide)
    have hreturn : '\r' ∉ line.toList := fun hmem => absurd (hline _ hmem) (by decide)
    rw [toList_text_cons, read_append_newline fun hlast => hreturn (List.mem_of_getLast? hlast), ih hlines,
      read_of_not_mem hfeed, splitOn_of_not_mem hreturn]
    rfl

theorem oneLine_spaces (indent : Nat) : OneLine (spaces indent) := oneLine_replicate indent (by decide)

theorem oneLine_body {line : String} (h : line ∈ body statements) : OneLine line.toList := by
  unfold body at h
  split at h
  · exact absurd h List.not_mem_nil
  · rename_i first rest hlines
    obtain ⟨cs, hcs, rfl⟩ := List.mem_map.mp h
    rw [String.toList_ofList]
    rcases List.mem_cons.mp hcs with rfl | hcs
    · exact oneLine_append.mpr ⟨oneLine_spaces 4, oneLine_of_mem_lines (hlines ▸ List.mem_cons_self)⟩
    · obtain ⟨line, hline, rfl⟩ := List.mem_map.mp hcs
      have honeLine := oneLine_of_mem_lines (hlines ▸ List.mem_cons_of_mem first hline)
      rw [indentLine]
      split
      · exact honeLine
      · exact oneLine_append.mpr ⟨oneLine_spaces 4, honeLine⟩

theorem lines_statements (hne : statements ≠ []) (h : ∀ s ∈ statements, OneLine s.toList) :
    Text.lines (String.intercalate "\n" statements ++ "\n").toList = statements.map String.toList := by
  rw [String.toList_append, String.toList_intercalate]
  exact lines_join (by simpa using hne) (List.forall_mem_map.mpr h)

theorem toList_body (hne : statements ≠ []) (hfull : ∀ s ∈ statements, s ≠ "")
    (h : ∀ s ∈ statements, OneLine s.toList) :
    (body statements).map String.toList = statements.map fun s => spaces 4 ++ s.toList := by
  obtain ⟨first, rest, rfl⟩ := List.exists_cons_of_ne_nil hne
  obtain ⟨-, hrest⟩ := List.forall_mem_cons.mp hfull
  have hindent : (rest.map String.toList).map (indentLine 4) = rest.map fun s => spaces 4 ++ s.toList := by
    rw [List.map_map]
    refine List.map_congr_left fun s hs => if_neg ?_
    simpa using hrest s hs
  rw [body, lines_statements hne h, List.map_cons]
  simp only [hindent, List.map_cons, List.map_map, Function.comp_def, String.toList_ofList]

/-- Statements are printed as they are if and only if each of them is on one line. -/
theorem isPrinted_iff (hne : statements ≠ []) (hfull : ∀ s ∈ statements, s ≠ "") :
    IsPrinted statements ↔ ∀ s ∈ statements, OneLine s.toList := by
  rw [IsPrinted, read_text fun _ => oneLine_body, List.append_left_inj]
  refine ⟨fun hbody s hs => ?_, toList_body hne hfull⟩
  have hmem : spaces 4 ++ s.toList ∈ (body statements).map String.toList :=
    hbody ▸ List.mem_map.mpr ⟨s, hs, rfl⟩
  obtain ⟨line, hline, heq⟩ := List.mem_map.mp hmem
  exact (oneLine_append.mp (heq ▸ oneLine_body hline)).2

end Lines

/-! ## Expressions -/

namespace Expression

/-- What expressions are made of: values that are written as literals, and texts that are written as they are. -/
inductive Part where
  | literal (d : Data)
  | code (text : String)

/-- Whether a part is written on one line. -/
def Part.Unbroken : Part → Prop
  | .literal d => d.Unbroken
  | .code text => OneLine text.toList

instance : DecidablePred Part.Unbroken
  | .literal d => inferInstanceAs (Decidable d.Unbroken)
  | .code text => inferInstanceAs (Decidable (OneLine text.toList))

end Expression

open Expression

def StyledMember.parts (naming : Naming) (m : StyledMember) : List Part :=
  [.code naming.stylerVar, .code m.style.text, .literal m.name, .code m.source]

def TokenCall.parts (naming : Naming) (t : TokenCall) : List Part :=
  [.code naming.securityVar, .literal (.scalar t.security)] ++
    match t.style with
    | none => []
    | some style => [.code naming.stylerVar, .code style, .literal t.parameter]

def Call.parts (naming : Naming) : Call → List Part
  | .member m => m.parts naming
  | .token t => t.parts naming

def UrlCall.parts (naming : Naming) : UrlCall → List Part
  | .member m => m.parts naming
  | .query calls => .code naming.stylerVar :: calls.flatMap (Call.parts naming)

/-- What the URL is made of. -/
def UrlTemplate.parts (naming : Naming) (url : UrlTemplate) : List Part :=
  .literal (.str url.head) :: url.spans.flatMap fun s => s.call.parts naming ++ [.literal (.str s.literal)]

/-- What the entries for headers are made of. -/
def headerParts (naming : Naming) (headers : List HeaderCall) : List Part :=
  if headers.isEmpty then []
  else .literal (.str naming.headerKey) :: headers.flatMap fun h => .literal h.key :: h.call.parts naming

namespace OperationBinding

/-- The groups of some keys. -/
def select (b : OperationBinding) (keys : List GroupKey) : List Group :=
  keys.filterMap fun key => b.groups.find? fun g => g.key == key

/-- What the function that returns the URL is made of. Arguments that may be missing are named in it. -/
def urlParts (naming : Naming) (b : OperationBinding) : List Part :=
  ((b.select urlKeys).filter fun g => !g.required).map (fun g => .code g.identifier) ++ b.url.parts naming

/-- What the function that returns the request configuration is made of. -/
def configParts (naming : Naming) (b : OperationBinding) : List Part :=
  (((b.select [.header]).filter fun g => !g.required) ++ b.select [.config]).map (fun g => .code g.identifier) ++
    ([.code naming.configKey, .literal (.str naming.methodKey), .literal (.str (onChars Unicode.upper b.method))] ++
      (if b.groups.any fun g => g.key == .body then [.literal (.str naming.bodyKey), .code naming.bodyKey] else []) ++
      headerParts naming b.headers ++ if b.bodyFormat.isSome then [.code naming.formatterVar] else [])

end OperationBinding

namespace Expression

variable {naming : Naming} {lines : List String}

theorem oneLine_call {function : String} {arguments : List String} : OneLine (call function arguments).toList ↔
    OneLine function.toList ∧ ∀ argument ∈ arguments, OneLine argument.toList := by
  have hseparator : OneLine ", ".toList := by decide
  simp +decide only [call, String.toList_append, oneLine_append, oneLine_intercalate hseparator, and_true]

theorem oneLine_access (m : StyledMember) :
    OneLine (access m).toList ↔ OneLine m.source.toList ∧ m.name.Unbroken := by
  rw [access]
  split <;> simp +decide only [String.toList_append, oneLine_append, Literal.oneLine_spellingOf, and_true]

theorem oneLine_styled (style : String) (arguments : List String) : OneLine (styled naming style arguments).toList ↔
    (OneLine naming.stylerVar.toList ∧ OneLine style.toList) ∧ ∀ argument ∈ arguments, OneLine argument.toList := by
  simp +decide only [styled, oneLine_call, String.toList_append, oneLine_append, and_true]

theorem oneLine_ofMember (m : StyledMember) :
    OneLine (ofMember naming m).toList ↔ ∀ part ∈ m.parts naming, part.Unbroken := by
  have hname : (∀ argument ∈ if m.isNamed then [Literal.spellingOf m.name] else [], OneLine argument.toList) ↔
      (m.isNamed = true → m.name.Unbroken) := by
    split <;> simp_all [Literal.oneLine_spellingOf]
  have hexplode : ∀ argument ∈ if m.passesExplode then ["True"] else [], OneLine argument.toList := by
    split <;> decide
  rw [ofMember, oneLine_styled, List.forall_mem_append, List.forall_mem_append, List.forall_mem_singleton, hname,
    oneLine_access]
  simp only [StyledMember.parts, List.forall_mem_cons, Part.Unbroken]
  tauto

theorem oneLine_ofToken (t : TokenCall) :
    OneLine (ofToken naming t).toList ↔ ∀ part ∈ t.parts naming, part.Unbroken := by
  have htoken : OneLine ("await " ++ call (naming.securityVar ++ ".token") [Literal.spelling t.security]).toList ↔
      OneLine naming.securityVar.toList ∧ (Data.scalar t.security).Unbroken := by
    simp +decide only [String.toList_append, oneLine_append, oneLine_call, List.forall_mem_singleton,
      Literal.oneLine_spelling, true_and, and_true]
  rw [ofToken, TokenCall.parts, List.forall_mem_append]
  simp only [List.forall_mem_cons, Part.Unbroken]
  cases t.style with
  | none =>
    rw [htoken]
    simp
  | some style =>
    simp only [oneLine_styled, List.forall_mem_cons]
    split
    case isTrue hnull =>
      have hparameter : t.parameter.Unbroken := by
        unfold Data.isNull at hnull
        split at hnull
        case h_1 heq => rw [heq]; trivial
        case h_2 => cases hnull
      rw [List.forall_mem_singleton, htoken]
      tauto
    case isFalse =>
      rw [List.forall_mem_cons, List.forall_mem_singleton, htoken, Literal.oneLine_spellingOf]
      tauto

theorem oneLine_ofCall (call : Call) :
    OneLine (ofCall naming call).toList ↔ ∀ part ∈ call.parts naming, part.Unbroken := by
  cases call with
  | member m => exact oneLine_ofMember m
  | token t => exact oneLine_ofToken t

/-! ## Lines of expressions -/

theorem oneLine_indent :
    (∀ line ∈ indent lines, OneLine line.toList) ↔ ∀ line ∈ lines, OneLine line.toList := by
  simp +decide only [indent, List.forall_mem_map, String.toList_append, oneLine_append, true_and]

theorem oneLine_enclosed {first last : String} : (∀ line ∈ enclosed first lines last, OneLine line.toList) ↔
    OneLine first.toList ∧ (∀ line ∈ lines, OneLine line.toList) ∧ OneLine last.toList := by
  rw [enclosed, List.forall_mem_append, List.forall_mem_cons, List.forall_mem_singleton, oneLine_indent, and_assoc]

theorem oneLine_withComma :
    (∀ line ∈ withComma lines, OneLine line.toList) ↔ ∀ line ∈ lines, OneLine line.toList := by
  induction lines with
  | nil => rfl
  | cons first lines ih =>
    cases lines with
    | nil => simp +decide only [withComma, List.forall_mem_singleton, String.toList_append, oneLine_append, and_true]
    | cons next lines =>
      show (∀ line ∈ first :: withComma (next :: lines), OneLine line.toList) ↔ _
      rw [List.forall_mem_cons, List.forall_mem_cons]
      exact and_congr_right' ih

theorem oneLine_ofQuery (calls : List Call) : (∀ line ∈ ofQuery naming calls, OneLine line.toList) ↔
    OneLine naming.stylerVar.toList ∧ ∀ call ∈ calls, ∀ part ∈ call.parts naming, part.Unbroken := by
  simp +decide only [ofQuery, oneLine_enclosed, String.toList_append, oneLine_append, List.forall_mem_map,
    oneLine_ofCall, and_true]

theorem oneLine_ofUrlCall (call : UrlCall) : (∀ line ∈ ofUrlCall naming call, OneLine line.toList) ↔
    ∀ part ∈ call.parts naming, part.Unbroken := by
  cases call with
  | member m =>
    simp +decide only [ofUrlCall, UrlCall.parts, List.forall_mem_singleton, String.toList_append, oneLine_append,
      oneLine_ofMember, and_true]
  | query calls =>
    rw [ofUrlCall, UrlCall.parts, oneLine_ofQuery, List.forall_mem_cons, List.forall_mem_flatMap]
    rfl

theorem oneLine_ofText (text : String) :
    (∀ piece ∈ ofText text, ∀ line ∈ piece, OneLine line.toList) ↔ (Data.str text).Unbroken := by
  rw [ofText]
  split
  case isTrue hempty =>
    rw [String.isEmpty_iff.mp hempty]
    exact iff_of_true (List.forall_mem_nil _) (List.forall_mem_nil _)
  case isFalse =>
    rw [List.forall_mem_singleton, List.forall_mem_singleton]
    exact Literal.oneLine_quoted text

theorem oneLine_returnUrl (url : UrlTemplate) :
    (∀ line ∈ returnUrl naming url, OneLine line.toList) ↔ ∀ part ∈ url.parts naming, part.Unbroken := by
  have hspan : ∀ span : UrlSpan,
      (∀ piece ∈ ofUrlCall naming span.call :: ofText span.literal, ∀ line ∈ piece, OneLine line.toList) ↔
        ∀ part ∈ span.call.parts naming ++ [.literal (.str span.literal)], part.Unbroken := by
    intro span
    rw [List.forall_mem_cons, oneLine_ofUrlCall, oneLine_ofText, List.forall_mem_append, List.forall_mem_singleton]
    rfl
  have hpieces : (∀ piece ∈ urlPieces naming url, ∀ line ∈ piece, OneLine line.toList) ↔
      ∀ part ∈ url.parts naming, part.Unbroken := by
    rw [urlPieces, UrlTemplate.parts, List.forall_mem_append, oneLine_ofText, List.forall_mem_flatMap,
      List.forall_mem_cons, List.forall_mem_flatMap]
    exact and_congr_right' (forall₂_congr fun span _ => hspan span)
  rw [returnUrl]
  split
  case isTrue hliteral =>
    have hreturn : OneLine "return ".toList := by decide
    rw [List.forall_mem_singleton, UrlTemplate.parts, List.isEmpty_iff.mp hliteral, List.flatMap_nil,
      List.forall_mem_singleton, String.toList_append, oneLine_append, Literal.oneLine_quoted]
    exact and_iff_right hreturn
  case isFalse =>
    simp +decide only [oneLine_enclosed, List.forall_mem_flatMap, oneLine_withComma, hpieces, true_and, and_true]

theorem oneLine_headerEntries (hgiven : OneLine naming.configKey.toList) (headers : List HeaderCall) :
    (∀ line ∈ if headers.isEmpty then [] else enclosed (Literal.quoted naming.headerKey ++ ": \x7b")
        (("**(" ++ naming.configKey ++ ".get(" ++ Literal.quoted naming.headerKey ++ ") or \x7b\x7d),") ::
          headers.map fun h => Literal.spellingOf h.key ++ ": " ++ ofCall naming h.call ++ ",") "\x7d,",
      OneLine line.toList) ↔ ∀ part ∈ headerParts naming headers, part.Unbroken := by
  rw [headerParts]
  split
  case isTrue => exact iff_of_true (List.forall_mem_nil _) (List.forall_mem_nil _)
  case isFalse =>
    simp +decide only [oneLine_enclosed, List.forall_mem_cons, List.forall_mem_map, List.forall_mem_flatMap,
      String.toList_append, oneLine_append, Literal.oneLine_quoted, Literal.oneLine_spellingOf, oneLine_ofCall,
      Part.Unbroken, Data.Unbroken, hgiven, true_and, and_true]
    tauto

theorem oneLine_configEntries (method : String) (hasBody : Bool) (headers : List HeaderCall) :
    (∀ line ∈ configEntries naming method hasBody headers, OneLine line.toList) ↔
      ∀ part ∈ [.code naming.configKey, .literal (.str naming.methodKey),
          .literal (.str (onChars Unicode.upper method))] ++
        (if hasBody then [.literal (.str naming.bodyKey), .code naming.bodyKey] else []) ++
        headerParts naming headers, part.Unbroken := by
  have hentry : ∀ key value : String, OneLine (Literal.quoted key ++ ": " ++ value ++ ",").toList ↔
      (Part.literal (.str key)).Unbroken ∧ OneLine value.toList := by
    intro key value
    simp +decide only [String.toList_append, oneLine_append, Literal.oneLine_quoted, and_true]
    rfl
  have hgiven : OneLine ("**" ++ naming.configKey ++ ",").toList ↔ (Part.code naming.configKey).Unbroken := by
    simp +decide only [String.toList_append, oneLine_append, true_and, and_true]
    rfl
  have hbody :
      (∀ line ∈ if hasBody then [Literal.quoted naming.bodyKey ++ ": " ++ naming.bodyKey ++ ","] else [],
        OneLine line.toList) ↔
      ∀ part ∈ if hasBody then [Part.literal (.str naming.bodyKey), .code naming.bodyKey] else [],
        part.Unbroken := by
    split
    · rw [List.forall_mem_singleton, hentry, List.forall_mem_cons, List.forall_mem_singleton]
      rfl
    · exact iff_of_true (List.forall_mem_nil _) (List.forall_mem_nil _)
  have hupper : OneLine (Literal.quoted (onChars Unicode.upper method)).toList ↔
      (Part.literal (.str (onChars Unicode.upper method))).Unbroken := Literal.oneLine_quoted _
  simp only [configEntries, List.forall_mem_append, List.forall_mem_cons, hgiven, hentry, hupper, hbody,
    List.not_mem_nil, false_implies, implies_true, and_true]
  exact and_congr_right fun h => oneLine_headerEntries h.1.1 headers

theorem oneLine_returnConfig (method : String) (hasBody : Bool) (headers : List HeaderCall)
    (format : Option Wire.BodyFormat) :
    (∀ line ∈ returnConfig naming method hasBody headers format, OneLine line.toList) ↔
      (∀ line ∈ configEntries naming method hasBody headers, OneLine line.toList) ∧
        ∀ part ∈ if format.isSome then [Part.code naming.formatterVar] else [], part.Unbroken := by
  cases format with
  | none =>
    simp +decide only [returnConfig, oneLine_enclosed, true_and, and_true]
    exact (and_iff_left (List.forall_mem_nil _)).symm
  | some f =>
    have hname : OneLine f.name.toList := by cases f <;> decide
    simp +decide only [returnConfig, oneLine_enclosed, String.toList_append, oneLine_append, hname, true_and, and_true]
    rw [Option.isSome_some, if_pos rfl, List.forall_mem_singleton]
    exact and_comm

/-! ## No statement is empty -/

theorem append_ne_empty {s : String} (h : s ≠ "") (rest : String) : s ++ rest ≠ "" := by
  rw [Ne, String.append_eq_empty_iff]
  exact fun hempty => h hempty.1

theorem enclosed_ne_empty {first last : String} (hfirst : first ≠ "") (hlast : last ≠ "") :
    ∀ line ∈ enclosed first lines last, line ≠ "" := by
  rw [enclosed, List.forall_mem_append, List.forall_mem_cons, List.forall_mem_singleton, indent, List.forall_mem_map]
  exact ⟨⟨hfirst, fun line _ => append_ne_empty (by decide) line⟩, hlast⟩

theorem returnUrl_ne_empty (url : UrlTemplate) : ∀ line ∈ returnUrl naming url, line ≠ "" := by
  rw [returnUrl]
  split
  · exact List.forall_mem_singleton.mpr (append_ne_empty (by decide) _)
  · exact enclosed_ne_empty (by decide) (by decide)

theorem returnConfig_ne_empty (method : String) (hasBody : Bool) (headers : List HeaderCall)
    (format : Option Wire.BodyFormat) : ∀ line ∈ returnConfig naming method hasBody headers format, line ≠ "" := by
  cases format with
  | none => exact enclosed_ne_empty (by decide) (by decide)
  | some f =>
    refine enclosed_ne_empty ?_ (by decide)
    simp only [String.append_assoc]
    exact append_ne_empty (by decide) _

theorem returnUrl_ne_nil (url : UrlTemplate) : returnUrl naming url ≠ [] := by
  rw [returnUrl]
  split
  · exact List.cons_ne_nil _ _
  · exact List.cons_ne_nil _ _

theorem returnConfig_ne_nil (method : String) (hasBody : Bool) (headers : List HeaderCall)
    (format : Option Wire.BodyFormat) : returnConfig naming method hasBody headers format ≠ [] := by
  cases format <;> exact List.cons_ne_nil _ _

end Expression

/-! ## Operations -/

namespace Module

open Draft OperationFunctions

variable {w : TypeWriter} {s t : Draft} {naming : Naming}

/-- An argument stands for its group. -/
def StandsFor (g : Group) (a : Argument × Option RecordDeclaration) : Prop :=
  a.1.name = g.identifier ∧ a.1.required = g.required

theorem standsFor_argument {operation : String} {g : Group} {a : Argument × Option RecordDeclaration}
    (hrun : Runs (argument w operation g) s a t) : StandsFor g a := by
  unfold argument at hrun
  dsimp only at hrun
  split at hrun
  · simp only [Runs.bind_iff, Runs.pure_iff] at hrun
    obtain ⟨_, _, _, _, _, _, rfl, -⟩ := hrun
    exact ⟨rfl, rfl⟩
  · simp only [Runs.bind_iff, Runs.pure_iff] at hrun
    obtain ⟨_, _, _, rfl, -⟩ := hrun
    exact ⟨rfl, rfl⟩

section
variable {groups : List Group} {arguments : List (Argument × Option RecordDeclaration)}

theorem lookup_keyed (h : List.Forall₂ StandsFor groups arguments) (key : GroupKey) :
    (((groups.zip arguments).map fun (g, a) => (g.key, a.1)).lookup key).map (fun a => (a.name, a.required)) =
      (groups.find? fun g => g.key == key).map fun g => (g.identifier, g.required) := by
  induction h with
  | nil => rfl
  | @cons g a groups arguments hstands _ ih =>
    obtain ⟨hname, hrequired⟩ := hstands
    rw [List.zip_cons_cons, List.map_cons, List.lookup_cons, List.find?_cons, BEq.comm]
    cases g.key == key with
    | true => exact congrArg some (Prod.ext hname hrequired)
    | false => exact ih

/-- The arguments that are picked are those of the groups with the keys. -/
theorem pick_keyed (h : List.Forall₂ StandsFor groups arguments) (keys : List GroupKey) :
    (pick ((groups.zip arguments).map fun (g, a) => (g.key, a.1)) keys).map (fun a => (a.name, a.required)) =
      (keys.filterMap fun key => groups.find? fun g => g.key == key).map fun g => (g.identifier, g.required) := by
  rw [pick, List.map_filterMap, List.map_filterMap]
  exact congrArg (keys.filterMap ·) (funext (lookup_keyed h))

end

section
variable {groups : List Group} {arguments : List Argument}
  (h : arguments.map (fun a => (a.name, a.required)) = groups.map fun g => (g.identifier, g.required))
include h

theorem forall_mem_arguments (P : String × Bool → Prop) :
    (∀ a ∈ arguments, P (a.name, a.required)) ↔ ∀ g ∈ groups, P (g.identifier, g.required) := by
  rw [← List.forall_mem_map, h, List.forall_mem_map]

theorem filter_arguments : (arguments.filter fun a => !a.required).map (fun a => (a.name, a.required)) =
    (groups.filter fun g => !g.required).map fun g => (g.identifier, g.required) := by
  have hfilter := congrArg (List.filter fun pair => !pair.2) h
  rwa [List.filter_map, List.filter_map] at hfilter

theorem oneLine_orEmpty : (∀ line ∈ arguments.map orEmpty, OneLine line.toList) ↔
    ∀ part ∈ groups.map fun g => Part.code g.identifier, part.Unbroken := by
  rw [List.forall_mem_map, List.forall_mem_map]
  simp +decide only [orEmpty, String.toList_append, oneLine_append, and_true, and_self]
  exact forall_mem_arguments h fun a => OneLine a.1.toList

end

theorem orEmpty_ne_empty (arguments : List Argument) : ∀ line ∈ arguments.map orEmpty, line ≠ "" := by
  refine List.forall_mem_map.mpr fun a _ hempty => ?_
  rw [orEmpty, String.append_eq_empty_iff] at hempty
  exact absurd hempty.2 (by decide)

/-- Statements behind those that replace missing arguments. -/
theorem isPrinted_orEmpty {arguments : List Argument} {statements : List String} (hne : statements ≠ [])
    (hfull : ∀ line ∈ statements, line ≠ "") : Lines.IsPrinted (arguments.map orEmpty ++ statements) ↔
      (∀ line ∈ arguments.map orEmpty, OneLine line.toList) ∧ ∀ line ∈ statements, OneLine line.toList := by
  rw [Lines.isPrinted_iff (List.append_ne_nil_of_right_ne_nil _ hne)
    (List.forall_mem_append.mpr ⟨orEmpty_ne_empty arguments, hfull⟩), List.forall_mem_append]

/-- The bodies of an operation's functions are printed statement by statement if and only if no literal in them is
of a text with a line end that literals keep, and no other text they are made of has a line end. -/
theorem isPrinted_bodies_iff {b : OperationBinding} {f : OperationFunctions}
    (hrun : Runs (operationFunctions naming w b) s f t) :
    (Lines.IsPrinted f.urlBody ↔ ∀ part ∈ b.urlParts naming, part.Unbroken) ∧
    (Lines.IsPrinted f.configBody ↔ ∀ part ∈ b.configParts naming, part.Unbroken) ∧
    ∀ lines, f.lines naming = .ok lines → ∃ before after, lines = before ++
      Lines.apart (headLines f.urlName f.urlArguments "str" ++ Lines.body f.urlBody) ++
      Lines.apart (headLines f.configName f.configArguments naming.requestConfigType ++ Lines.body f.configBody) ++
      after := by
  simp only [operationFunctions, Runs.bind_iff, Runs.lift_iff, Runs.pure_iff] at hrun
  obtain ⟨_, _, _, name, _, _, urlName, _, _, configName, _, _, _, _, _, arguments, _, harguments, result, _, _, doc, _,
    _, rfl, -⟩ := hrun
  have hstands := Runs.mapM_forall₂ (fun _ _ _ _ => standsFor_argument) harguments
  have hpick := pick_keyed hstands
  refine ⟨?_, ?_, fun lines hlines => ?_⟩
  · rw [isPrinted_orEmpty (Expression.returnUrl_ne_nil b.url) (Expression.returnUrl_ne_empty b.url),
      oneLine_orEmpty (filter_arguments (hpick OperationBinding.urlKeys)), Expression.oneLine_returnUrl,
      OperationBinding.urlParts, List.forall_mem_append]
    rfl
  · rw [isPrinted_orEmpty (Expression.returnConfig_ne_nil _ _ _ _) (Expression.returnConfig_ne_empty _ _ _ _),
      Expression.oneLine_returnConfig, Expression.oneLine_configEntries, ← List.forall_mem_append,
      OperationBinding.configParts]
    refine (and_congr_left' (oneLine_orEmpty ?_)).trans List.forall_mem_append.symm
    rw [List.map_append, List.map_append, filter_arguments (hpick [.header]), hpick [.config]]
    rfl
  · simp only [OperationFunctions.lines, Result.bind_eq_ok_iff, Result.pure_eq_ok_iff] at hlines
    obtain ⟨declarations, -, docs, -, rfl⟩ := hlines
    exact ⟨declarations.flatten, _, (List.append_assoc _ _ _).trans (List.append_assoc _ _ _)⟩

/-- An operation that writes every kind of part. -/
def order : OperationBinding where
  id := .str "order"
  method := "put"
  path := "/shops/\x7bshop\x7d"
  groups := [
    ⟨.path, "paths", true, .object [{ name := .str "shop", type := .primitive .string, required := true }] none, []⟩,
    ⟨.query, "query", false, .object [{ name := .str "q", type := .any, required := false }] none, []⟩,
    ⟨.header, "headers", false, .object [{ name := .str "X-\n\"é\"", type := .any, required := false }] none, []⟩,
    ⟨.body, "body", true, .primitive .binary, []⟩, ⟨.config, "config", false, .any, []⟩]
  url := ⟨"/shops/", [
    ⟨.member { style := .str "simple", name := .str "shop", source := "paths", required := true }, "/\\\r"⟩,
    ⟨.query [.member { style := .str "deep", name := .str "q", source := "query", explode := true },
      .token { security := .str "key\x0c", style := some "form", parameter := .int 1 }], ""⟩]⟩
  headers := [⟨.str "X-\n\"é\"", .member { style := .str "simple", name := .str "X-\n\"é\"", source := "headers" }⟩,
    ⟨.str "Authorization", .token { security := .str "user" }⟩]
  responseKind := .json
  responseType := .any
  bodyFormat := some .raw
  security := []
  doc := .null
  deprecated := false
  tags := []

theorem isPrinted_bodies_order : ∃ f t, Runs (operationFunctions {} (.atDepth default 2) order) {} f t ∧
    Lines.IsPrinted f.urlBody ∧ Lines.IsPrinted f.configBody := by
  obtain ⟨f, t, hrun⟩ : ∃ f t, Runs (operationFunctions {} (.atDepth default 2) order) {} f t :=
    Runs.exists_of_isOk (by decide +kernel)
  obtain ⟨hurl, hconfig, -⟩ := isPrinted_bodies_iff hrun
  exact ⟨f, t, hrun, hurl.mpr (by decide +kernel), hconfig.mpr (by decide +kernel)⟩

/-- A path with a line separator is torn, though its literal is whole. -/
theorem exists_body_torn : ∃ f t,
    Runs (operationFunctions {} (.atDepth default 2) { order with url := ⟨"/a\u2028b", []⟩ }) {} f t ∧
    f.urlBody = ["query = query or \x7b\x7d", "return \"/a\u2028b\""] ∧
    Lines.body f.urlBody = ["    query = query or \x7b\x7d", "    return \"/a", "    b\""] ∧
    ¬ Lines.IsPrinted f.urlBody := by
  obtain ⟨f, t, hrun, hbody⟩ : ∃ f t,
      Runs (operationFunctions {} (.atDepth default 2) { order with url := ⟨"/a\u2028b", []⟩ }) {} f t ∧
      f.urlBody = ["query = query or \x7b\x7d", "return \"/a\u2028b\""] :=
    Runs.exists_of_toOption (by decide +kernel)
  refine ⟨f, t, hrun, hbody, ?_, ?_⟩
  · rw [hbody]
    decide +kernel
  · rw [hbody]
    decide +kernel

end Module
end ClientBindings
