import ClientBindings.Proofs.Json.Grammar
import ClientBindings.Proofs.Json.Spelling
import ClientBindings.Proofs.Schema.Steps
import ClientBindings.Proofs.Source.Drafting
import ClientBindings.Proofs.Source.MemberNames
import ClientBindings.Proofs.Source.TextLiteral

/-! Values of members. A text names its member itself and a number does so with a low line in front, so the text `_1`
and the number 1 ask for one name. Members of one name are taken for one, and the later value gets lost; nothing else
is lost, and the order stays. -/

namespace ClientBindings

/-! ## Literals of numbers -/

theorem head_shown_number {number : Scalar} (h : number.isNumber = true) : number.shownChars.head? ≠ some '"' := by
  rcases number.exists_head_number h with ⟨c, rest, hchars, hc⟩ | rfl | rfl
  · rw [hchars]
    intro hhead
    rw [Option.some.inj hhead] at hc
    exact absurd hc (by decide)
  · decide
  · decide

/-- No literal is both that of a text and that of a number. -/
theorem Literal.quoted_ne_shown {number : Scalar} (h : number.isNumber = true) (text : String) :
    quoted text ≠ number.shown := by
  intro heq
  have hhead : number.shownChars.head? = some '"' := by
    rw [← String.toList_ofList (l := number.shownChars), ← Scalar.shown, ← heq, toList_quoted]
    rfl
  exact head_shown_number h hhead

namespace EnumDeclaration

/-! ## Names and literals -/

/-- What texts and numbers are. -/
def Enumerable (v : Scalar) : Prop := v.isStr = true ∨ v.isNumber = true

instance (v : Scalar) : Decidable (Enumerable v) := inferInstanceAs (Decidable (_ ∨ _))

/-- A number asks for a name that is itself one of the values. -/
def Clash (values : List Scalar) : Prop :=
  ∃ number ∈ values, number.isNumber = true ∧ .str (Schema.memberSpelling number) ∈ values

instance (values : List Scalar) : Decidable (Clash values) := List.decidableBEx _ _

/-- The member that is asked for a value. -/
def member (v : Scalar) : EnumMember := ⟨Schema.memberSpelling v, v⟩

variable {v w : Scalar} {values : List Scalar}

theorem memberSpelling_number (h : v.isNumber = true) : Schema.memberSpelling v = "_" ++ v.shown := by
  cases v with
  | int n => rfl
  | float x => rfl
  | null | bool b | str s | bytes bs | moment m => cases h

theorem spelling_number (h : v.isNumber = true) : Literal.spelling v = v.shown := by
  cases v with
  | int n => rfl
  | float x => rfl
  | null | bool b | str s | bytes bs | moment m => cases h

theorem exists_str (h : v.isStr = true) : ∃ text, v = .str text := by
  cases v with
  | str text => exact ⟨text, rfl⟩
  | null | bool b | int n | float x | bytes bs | moment m => cases h

/-- Values with one literal ask for one name. -/
theorem memberSpelling_eq (hv : Enumerable v) (hw : Enumerable w) (h : Literal.spelling v = Literal.spelling w) :
    Schema.memberSpelling v = Schema.memberSpelling w := by
  rcases hv with hv | hv <;> rcases hw with hw | hw
  · obtain ⟨text, rfl⟩ := exists_str hv
    obtain ⟨other, rfl⟩ := exists_str hw
    exact Literal.quoted_injective h
  · obtain ⟨text, rfl⟩ := exists_str hv
    rw [spelling_number hw] at h
    exact absurd h (Literal.quoted_ne_shown hw text)
  · obtain ⟨text, rfl⟩ := exists_str hw
    rw [spelling_number hv] at h
    exact absurd h.symm (Literal.quoted_ne_shown hv text)
  · rw [spelling_number hv, spelling_number hw] at h
    rw [memberSpelling_number hv, memberSpelling_number hw, h]

/-- Where no number asks for one of the values as its name, values that ask for one name have one literal. -/
theorem spelling_eq (hvalues : ∀ v ∈ values, Enumerable v) (hclash : ¬ Clash values) (hv : v ∈ values)
    (hw : w ∈ values) (h : Schema.memberSpelling v = Schema.memberSpelling w) : Literal.spelling v = Literal.spelling w := by
  rcases hvalues v hv with hv' | hv' <;> rcases hvalues w hw with hw' | hw'
  · obtain ⟨text, rfl⟩ := exists_str hv'
    obtain ⟨other, rfl⟩ := exists_str hw'
    exact congrArg Literal.quoted h
  · obtain ⟨text, rfl⟩ := exists_str hv'
    exact absurd ⟨w, hw, hw', h ▸ hv⟩ hclash
  · obtain ⟨text, rfl⟩ := exists_str hw'
    exact absurd ⟨v, hv, hv', h.symm ▸ hw⟩ hclash
  · rw [memberSpelling_number hv', memberSpelling_number hw'] at h
    rw [spelling_number hv', spelling_number hw']
    exact String.toList_injective (List.append_cancel_left (by rw [← String.toList_append, h, String.toList_append]))

/-! ## Values that stay -/

/-- The literals of the members that are kept for some values. -/
def keptLiterals (values : List Scalar) : List String :=
  (distinct (values.map member)).map fun m => Literal.spelling m.value

theorem map_snd_namedMembers (className : String) (members : List EnumMember) :
    (namedMembers className members).map Prod.snd = members.map fun m => Literal.spelling m.value := by
  induction members using List.reverseRecOn with
  | nil => rfl
  | append_singleton members m ih =>
    rw [namedMembers_concat, List.map_append, List.map_append, ih]
    rfl

/-- Whether a value adds a member depends on the names asked for before. -/
theorem keptLiterals_concat (values : List Scalar) (v : Scalar) : keptLiterals (values ++ [v]) =
    if (values.map Schema.memberSpelling).contains (Schema.memberSpelling v) then keptLiterals values
    else keptLiterals values ++ [Literal.spelling v] := by
  have hany : (distinct (values.map member)).any (fun k => k.name == (member v).name) =
      (values.map Schema.memberSpelling).contains (Schema.memberSpelling v) := by
    have hnames : (distinct (values.map member)).map EnumMember.name = (values.map Schema.memberSpelling).eraseDups := by
      rw [map_name_distinct, List.map_map]
      rfl
    rw [Bool.eq_iff_iff, List.contains_iff_mem, ← List.mem_eraseDups, ← hnames, List.mem_map, List.any_eq_true]
    simp only [beq_iff_eq]
    rfl
  rw [keptLiterals, List.map_append, List.map_singleton, distinct_concat, hany]
  split
  · rfl
  · rw [List.map_append]
    rfl

/-- What stays is in the order in which the literals occur first. -/
theorem keptLiterals_sublist (hvalues : ∀ v ∈ values, Enumerable v) :
    (keptLiterals values).Sublist (values.map Literal.spelling).eraseDups := by
  induction values using List.reverseRecOn with
  | nil => exact .slnil
  | append_singleton values v ih =>
    have ih := ih fun w hw => hvalues w (List.mem_append_left _ hw)
    rw [keptLiterals_concat, List.map_append, List.map_singleton, eraseDups_concat]
    split
    case isTrue hname =>
      split
      · exact ih
      · exact ih.trans (List.sublist_append_left _ _)
    case isFalse hname =>
      split
      case isTrue hliteral =>
        obtain ⟨w, hw, hwv⟩ := List.mem_map.mp (List.contains_iff_mem.mp hliteral)
        refine absurd (List.contains_iff_mem.mpr (List.mem_map.mpr ⟨w, hw, ?_⟩)) hname
        exact memberSpelling_eq (hvalues w (List.mem_append_left _ hw)) (hvalues v (List.mem_concat_self)) hwv
      case isFalse => exact ih.append_right _

/-- Without a clash all literals stay. -/
theorem keptLiterals_eq (hvalues : ∀ v ∈ values, Enumerable v) (hclash : ¬ Clash values) :
    keptLiterals values = (values.map Literal.spelling).eraseDups := by
  suffices h : ∀ front, front <+: values → keptLiterals front = (front.map Literal.spelling).eraseDups from
    h values (List.prefix_refl values)
  intro front
  induction front using List.reverseRecOn with
  | nil => exact fun _ => rfl
  | append_singleton front v ih =>
    intro hfront
    have hmem : ∀ w ∈ front ++ [v], w ∈ values := fun w hw => hfront.subset hw
    have hcontains : (front.map Schema.memberSpelling).contains (Schema.memberSpelling v) =
        (front.map Literal.spelling).contains (Literal.spelling v) := by
      rw [Bool.eq_iff_iff, List.contains_iff_mem, List.contains_iff_mem, List.mem_map, List.mem_map]
      refine exists_congr fun w => and_congr_right fun hw => ?_
      have hw : w ∈ values := hmem w (List.mem_append_left _ hw)
      have hv : v ∈ values := hmem v List.mem_concat_self
      exact ⟨spelling_eq hvalues hclash hw hv, memberSpelling_eq (hvalues w hw) (hvalues v hv)⟩
    rw [keptLiterals_concat, List.map_append, List.map_singleton, eraseDups_concat, hcontains,
      ih ((List.prefix_append front [v]).trans hfront)]

theorem distinct_sublist (members : List EnumMember) : (distinct members).Sublist members := by
  induction members using List.reverseRecOn with
  | nil => exact .slnil
  | append_singleton members m ih =>
    rw [distinct_concat]
    split
    · exact ih.trans (List.sublist_append_left members [m])
    · exact ih.append_right [m]

/-- A kept member with the literal of a value has the name that the value asks for. -/
theorem exists_kept (hvalues : ∀ v ∈ values, Enumerable v) (hv : v ∈ values)
    (h : Literal.spelling v ∈ keptLiterals values) : ∃ m ∈ distinct (values.map member),
      m.name = Schema.memberSpelling v ∧ Literal.spelling m.value = Literal.spelling v := by
  obtain ⟨m, hm, hliteral⟩ := List.mem_map.mp h
  obtain ⟨w, hw, rfl⟩ := List.mem_map.mp ((distinct_sublist _).subset hm)
  exact ⟨member w, hm, memberSpelling_eq (hvalues w hw) (hvalues v hv) hliteral, hliteral⟩

/-- All values stay if and only if there is no clash: of a text and a number with one name only one is kept. -/
theorem keptLiterals_iff (hvalues : ∀ v ∈ values, Enumerable v) :
    (∀ v ∈ values, Literal.spelling v ∈ keptLiterals values) ↔ ¬ Clash values := by
  constructor
  · rintro hall ⟨number, hnumber, hisNumber, htext⟩
    obtain ⟨m, hm, hmname, hmliteral⟩ := exists_kept hvalues htext (hall _ htext)
    obtain ⟨k, hk, hkname, hkliteral⟩ := exists_kept hvalues hnumber (hall _ hnumber)
    have hnodup : ((distinct (values.map member)).map EnumMember.name).Nodup := by
      rw [map_name_distinct]
      exact nodup_eraseDups _
    have hsame : m = k := List.inj_on_of_nodup_map hnodup hm hk (hmname.trans hkname.symm)
    rw [← hsame, hmliteral, spelling_number hisNumber] at hkliteral
    exact Literal.quoted_ne_shown hisNumber _ hkliteral
  · intro hclash v hv
    rw [keptLiterals_eq hvalues hclash, List.mem_eraseDups]
    exact List.mem_map_of_mem hv

/-! ## Declared enumerations -/

theorem mapM_memberOf (values : List Scalar) : (values.map Data.scalar).mapM Schema.memberOf =
    Result.guarded (values.all Scalar.isSpellable) (values.map member) := by
  have hround : ∀ v : Scalar, Schema.memberOf (.scalar v) = Result.guarded v.isSpellable (member v) :=
    fun v => Result.guarded_pure fun name => (⟨name, v⟩ : EnumMember)
  rw [← Result.mapM_guarded, List.mapM_map]
  exact congrArg (values.mapM ·) (funext hround)

theorem exists_map_of_find? {d v : Data} {key : String} (h : d.find? key = some v) : ∃ fields, d = .map fields := by
  cases d with
  | map fields => exact ⟨fields, rfl⟩
  | scalar s | list items | tuple items => cases h

/-- A list of texts and numbers is an enumeration, and is refused if one of them has no text. -/
theorem enumeration?_of_find? {target : Data} (henum : target.find? "enum" = some (.list (values.map .scalar)))
    (hvalues : ∀ v ∈ values, Enumerable v) :
    Schema.enumeration? target = Result.guarded (values.all Scalar.isSpellable) (some (values.map member)) := by
  have hall : (values.map Data.scalar).all Schema.isEnumerable = true := by
    rw [List.all_map, List.all_eq_true]
    intro v hv
    exact Bool.or_eq_true_iff.mpr (hvalues v hv)
  obtain ⟨fields, rfl⟩ := exists_map_of_find? henum
  have hget : (Data.map fields).get "enum" = .ok (.list (values.map .scalar)) := by
    rw [Data.get, show Entries.find? Scalar.same fields (.str "enum") = _ from henum]
    rfl
  rw [Schema.enumeration?, hget, ← Result.guarded_pure, ← mapM_memberOf]
  show (if _ then _ else _) = _
  rw [if_pos hall]

theorem exists_entry {document target : Data} {pointer : String}
    (htarget : Reference.lookup document pointer = .ok target)
    (henum : target.find? "enum" = some (.list (values.map .scalar))) (hvalues : ∀ v ∈ values, Enumerable v)
    (hspelled : values.all Scalar.isSpellable = true) :
    ∃ e, Schema.entryOf document pointer = .ok e ∧ e.members = some (values.map member) := by
  obtain ⟨base, hbase⟩ := Reference.exists_name htarget
  obtain ⟨fields, rfl⟩ := exists_map_of_find? henum
  have hget : ∀ key, ∃ d, (Data.map fields).get key = .ok d := fun key => ⟨_, rfl⟩
  obtain ⟨title, htitle⟩ := hget "title"
  obtain ⟨description, hdescription⟩ := hget "description"
  have hremark : ∃ comment, Schema.remark (.map fields) = .ok comment := by
    simp only [Schema.remark, Result.bind_eq_ok_iff, htitle, hdescription, Except.ok.injEq, exists_eq_left']
    split
    · exact ⟨title, rfl⟩
    · exact ⟨description, rfl⟩
  obtain ⟨comment, hcomment⟩ := hremark
  exact ⟨⟨_, .map fields, comment, _⟩, Schema.entryOf_eq_ok_iff.mpr
    ⟨_, base, htarget, hbase, rfl, rfl, hcomment,
      (enumeration?_of_find? henum hvalues).trans (Result.guarded_of_true hspelled)⟩, rfl⟩

/-- A reference to an enumeration with a value that has no text is refused. -/
theorem not_runs_refWith {document ref target : Data} {pointer : String} {s t : Schema.State} {type : TypeNode}
    (href : ref.find? "$ref" = some (.str pointer)) (hnew : s.refs.lookup pointer = none)
    (htarget : Reference.lookup document pointer = .ok target)
    (henum : target.find? "enum" = some (.list (values.map .scalar))) (hvalues : ∀ v ∈ values, Enumerable v)
    (hspelled : values.all Scalar.isSpellable = false) (typeOf : Data → Schema.M TypeNode) :
    ¬ Runs (Schema.refWith document typeOf ref) s type t := by
  intro hrun
  obtain ⟨p, name, hp, -, hstep⟩ := Schema.runs_refWith_iff.mp hrun
  obtain rfl : pointer = p := by simpa using href.symm.trans hp
  have hnone : ∀ e, Schema.entryOf document pointer ≠ .ok e := by
    intro e he
    obtain ⟨d, -, hd, -, -, htarget', -, hmembers⟩ := Schema.entryOf_eq_ok_iff.mp he
    obtain rfl : d = target := Except.ok.inj (hd.symm.trans htarget)
    obtain ⟨fields, rfl⟩ := exists_map_of_find? henum
    have hmap : (Data.map fields).isMap = true := rfl
    rw [htarget', if_pos hmap, enumeration?_of_find? henum hvalues, hspelled] at hmembers
    cases hmembers
  cases hstep with
  | known hname => exact absurd (hnew.symm.trans hname) (Option.some_ne_none _).symm
  | enumeration _ hentry _ => exact hnone _ hentry
  | synonym _ hentry _ _ => exact hnone _ hentry

/-- An alias that is asked for first is declared as its enumeration, and is known as that from then on. -/
theorem runs_declare (w : TypeWriter) (scope : Scope) {u : Draft} {name : String} (pointer : Option String)
    {members : List EnumMember} (hspelled : ∀ m ∈ members, m.value.isSpellable = true) (comment : Data)
    (hnew : u.declared.lookup name = none) (hidle : name ∉ u.declaring) :
    ∃ e, e = ofMembers (scope.nameOf name) members comment ∧
      Runs (w.declare scope (.enumeration name pointer members comment)) u (.enumeration e)
        { u with declared := (name, .enumeration e) :: u.declared } := by
  refine ⟨_, rfl, ?_⟩
  have hmade : EnumDeclaration.declared (scope.nameOf name) members comment =
      .ok (ofMembers (scope.nameOf name) members comment) := by
    refine Result.guarded_of_true (List.all_eq_true.mpr fun m hm => ?_)
    exact hspelled m ((distinct_sublist members).subset hm)
  have hrestored : (name :: u.declaring).filter (· != name) = u.declaring := by
    rw [List.filter_cons_of_neg (by simp)]
    refine List.filter_eq_self.mpr fun other hother => bne_iff_ne.mpr ?_
    rintro rfl
    exact hidle hother
  have hdeclaring : ¬ u.declaring.contains (Alias.enumeration name pointer members comment).name = true := by
    rw [List.contains_iff_mem]
    exact hidle
  have hdeclared : u.declared.lookup (Alias.enumeration name pointer members comment).name = none := hnew
  refine Runs.bind_iff.mpr ⟨u, u, Runs.get_iff.mpr ⟨rfl, rfl⟩, ?_⟩
  simp only [hdeclared, if_neg hdeclaring, Runs.bind_iff, Draft.runs_whileDeclaring_iff, Runs.modify_iff, Runs.pure_iff]
  have hmake : Runs (w.make scope (scope.nameOf name) (.enumeration name pointer members comment))
      { u with declaring := name :: u.declaring } (.enumeration (ofMembers (scope.nameOf name) members comment))
      { u with declaring := name :: u.declaring } :=
    Runs.bind_iff.mpr ⟨_, _, Runs.lift_iff.mpr ⟨hmade, rfl⟩, Runs.pure_iff.mpr ⟨rfl, rfl⟩⟩
  exact ⟨_, u, ⟨{ u with declaring := name :: u.declaring }, hmake, by rw [Alias.name, hrestored]⟩, ⟨⟩, _, rfl, rfl, rfl⟩

/-- A reference to an enumeration of texts and numbers emits its alias, and wherever that is declared the literals of
its members are those of the values in the order in which they occur first. All values are among them if and only if
no number asks for a name that is itself one of the values. A value that has no text makes the reference fail. -/
theorem values_stay_iff {document ref target : Data} {pointer : String} {s : Schema.State}
    (href : ref.find? "$ref" = some (.str pointer)) (hnew : s.refs.lookup pointer = none)
    (htarget : Reference.lookup document pointer = .ok target)
    (henum : target.find? "enum" = some (.list (values.map .scalar))) (hvalues : ∀ v ∈ values, Enumerable v)
    (typeOf : Data → Schema.M TypeNode) :
    (values.all Scalar.isSpellable = true → ∃ name a t,
      Runs (Schema.refWith document typeOf ref) s (.reference name (some pointer)) t ∧
      t.aliases = s.aliases ++ [a] ∧ a.name = name ∧
      ∀ (scope : Scope) (depth : Nat) (u : Draft), u.declared.lookup name = none → name ∉ u.declaring →
        ∃ e : EnumDeclaration, Runs ((TypeWriter.atDepth scope (depth + 1)).declaration a) u (.enumeration e)
            { u with declared := (name, .enumeration e) :: u.declared } ∧
          (e.members.map Prod.snd).Sublist (values.map Literal.spelling).eraseDups ∧
          (¬ Clash values → e.members.map Prod.snd = (values.map Literal.spelling).eraseDups) ∧
          ((∀ v ∈ values, Literal.spelling v ∈ e.members.map Prod.snd) ↔ ¬ Clash values)) ∧
    (values.all Scalar.isSpellable = false → ∀ type t, ¬ Runs (Schema.refWith document typeOf ref) s type t) := by
  refine ⟨fun hspelled => ?_, fun hlong _ _ => not_runs_refWith href hnew htarget henum hvalues hlong typeOf⟩
  obtain ⟨entry, hentry, hmembers⟩ := exists_entry htarget henum hvalues hspelled
  refine ⟨freshName s.names entry.base, .enumeration _ (some pointer) (values.map member) entry.comment, _,
    Schema.runs_refWith_iff.mpr ⟨pointer, _, href, rfl, .enumeration hnew hentry hmembers⟩, rfl, rfl, ?_⟩
  intro scope depth u hdeclared hdeclaring
  have hmembers : ∀ m ∈ values.map member, m.value.isSpellable = true :=
    List.forall_mem_map.mpr (List.all_eq_true.mp hspelled)
  obtain ⟨e, rfl, hrun⟩ := runs_declare (.atDepth scope depth) scope (some pointer) hmembers entry.comment hdeclared
    hdeclaring
  refine ⟨_, hrun, ?_⟩
  have hkept : (ofMembers (scope.nameOf (freshName s.names entry.base)) (values.map member)
      entry.comment).members.map Prod.snd = keptLiterals values := map_snd_namedMembers _ _
  rw [hkept]
  exact ⟨keptLiterals_sublist hvalues, keptLiterals_eq hvalues, keptLiterals_iff hvalues⟩

/-- The values of an enumeration and a document that holds it. -/
def ratings : List Scalar := [.str "_1", .int 2, .str "mro", .str "_1", .int (-3)]

def ratingDocument : Data := .object [("components", .object [("schemas", .object
  [("rating", .object [("enum", .list (ratings.map .scalar))])])])]

theorem values_stay_ratings : ∃ name a t u, ∃ e : EnumDeclaration,
    Runs (Schema.refWith ratingDocument (fun _ => pure .any) (Schema.refTo "#/components/schemas/rating")) {}
      (.reference name (some "#/components/schemas/rating")) t ∧ t.aliases = [a] ∧
    Runs ((Scope.writer default).declaration a) {} (.enumeration e) u ∧
    e.members.map Prod.snd = ["\"_1\"", "2", "\"mro\"", "-3"] ∧ ¬ Clash ratings := by
  obtain ⟨name, a, t, href, haliases, -, hdeclared⟩ := (@values_stay_iff ratings ratingDocument
    (Schema.refTo "#/components/schemas/rating") _ _ {} rfl rfl rfl rfl (by decide) (fun _ => pure .any)).1
    (by decide +kernel)
  obtain ⟨e, hrun, -, hall, -⟩ := hdeclared default (TypeWriter.depthLimit - 1) {} rfl List.not_mem_nil
  have hclash : ¬ Clash ratings := by decide +kernel
  have hliterals : (ratings.map Literal.spelling).eraseDups = ["\"_1\"", "2", "\"mro\"", "-3"] := by decide +kernel
  exact ⟨name, a, t, _, e, href, haliases, hrun, (hall hclash).trans hliterals, hclash⟩

/-- The text `_1` takes the name of the number 1, which gets lost. -/
theorem exists_value_lost : ∃ values : List Scalar, (∀ v ∈ values, Enumerable v) ∧
    ∃ v ∈ values, Literal.spelling v ∉ (ofMembers "Order" (values.map member) .null).members.map Prod.snd :=
  ⟨[.str "_1", .int 1], by decide, .int 1, by decide, by decide +kernel⟩

end EnumDeclaration
end ClientBindings
