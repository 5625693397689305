import ClientBindings.Proofs.Binding.StylerCalls
import ClientBindings.Proofs.Wire.JsonText

/-! Parameters that are sent as JSON. Wherever such a parameter travels, its call names the layout for JSON and
passes the name and the value, so what it yields is the name, an equals sign and the encoded text of the value,
in a path and in a header just as in a query. The text reads back as the value. -/

namespace ClientBindings

/-! ## What a call yields -/

namespace Styling

/-- The layout that takes a call. -/
def layout? (c : Styling) : Option Wire.Style :=
  Wire.Style.all.find? fun s => decide (c.function = .str s.name) && s.signatures.contains (c.arguments.map Prod.fst)

/-- What a call yields if its arguments stand for a name and a value; nothing if no layout takes it. -/
def result? (c : Styling) (name : String) (v : Value) : Option (Result (Option String)) :=
  c.layout?.map fun s => s.apply name v ((c.arguments.map Prod.fst).contains .explode)

theorem layout?_eq_some_iff {c : Styling} {s : Wire.Style} :
    c.layout? = some s ↔ c.function = .str s.name ∧ c.arguments.map Prod.fst ∈ s.signatures := by
  constructor
  · intro h
    simpa using List.find?_some h
  · intro h
    obtain ⟨t, ht⟩ : ∃ t, c.layout? = some t :=
      Option.isSome_iff_exists.mp (List.find?_isSome.mpr ⟨s, s.mem_all, by simpa using h⟩)
    -- No other layout has the name.
    have hfits := List.find?_some ht
    have hname : c.function = .str t.name := of_decide_eq_true (Bool.and_eq_true_iff.mp hfits).1
    rw [ht, Wire.Style.name_injective (Scalar.str.inj (h.1.symm.trans hname))]

end Styling

/-! ## Calls for JSON -/

namespace StyledMember

/-- A call that writes JSON: the text that is printed for it, and what it yields. -/
structure WritesJson (naming : Naming) (m : StyledMember) : Prop where
  printed : Expression.ofMember naming m =
    Expression.styled naming Wire.Style.json.name [Literal.spellingOf m.name, Expression.access m]
  result : ∀ name v, m.styling.result? name v = some (Wire.Layout.json name v)
  /-- What JSON has is written behind the name, and reads back. -/
  readsBack : ∀ v, Wire.isJson v = true → v.isNull = false → ∃ text encoded d, Wire.toJson v = .ok text ∧
    m.styling.result? m.name.text v = some (.ok (some (m.name.text ++ "=" ++ encoded))) ∧
    Percent.decode encoded.toList = text.toList ∧ Json.parse text = .ok d ∧ Wire.ReadsBack v d

theorem styling_of_json {m : StyledMember} (hstyle : m.style = .str Wire.Style.json.name) (hexplode : m.explode = false) :
    m.styling = ⟨.str Wire.Style.json.name, [(.name, Literal.spellingOf m.name), (.value, Expression.access m)]⟩ := by
  rw [styling, isNamed_of_style hstyle, passesExplode_of_style hstyle, hexplode, hstyle]
  rfl

theorem result?_of_json {m : StyledMember} (hstyle : m.style = .str Wire.Style.json.name) (hexplode : m.explode = false)
    (name : String) (v : Value) : m.styling.result? name v = some (Wire.Layout.json name v) := by
  have hlayout : m.styling.layout? = some .json := by
    rw [styling_of_json hstyle hexplode, Styling.layout?_eq_some_iff]
    exact ⟨rfl, List.mem_singleton.mpr rfl⟩
  rw [Styling.result?, hlayout]
  rfl

theorem writesJson {m : StyledMember} (naming : Naming) (hstyle : m.style = .str Wire.Style.json.name)
    (hexplode : m.explode = false) : m.WritesJson naming where
  printed := by
    rw [m.ofMember_eq_text, styling_of_json hstyle hexplode]
    rfl
  result := result?_of_json hstyle hexplode
  readsBack := by
    intro v hv hnull
    obtain ⟨cs, d, hcs, hdenotes, hreads⟩ := Wire.chars_denotes v hv
    have htext : Wire.toJson v = .ok (String.ofList cs) := Result.bind_eq_ok_iff.mpr ⟨cs, hcs, rfl⟩
    refine ⟨String.ofList cs, Text.onChars Percent.component (String.ofList cs), d, htext, ?_, ?_, ?_, hreads⟩
    · rw [result?_of_json hstyle hexplode, Wire.Layout.json_eq _ hv hnull htext]
    · rw [Text.onChars, String.toList_ofList, Percent.decode_component]
    · apply Json.parse_of_denotes
      rw [String.toList_ofList]
      exact Wire.element_of_value hdenotes

end StyledMember

/-! ## Parameters for JSON -/

namespace Parameters
variable {ps : Parameters} {key : GroupKey} {name p : Data}

/-- The first of the parameters of a place that has a name. -/
def first? (placed : List Data) (name : Data) : Option Data := placed.find? fun p => (p.said "name").same name

theorem ofParameter_of_hasJsonContent (h : StyleSpec.hasJsonContent (p.said "content") = true) :
    StyleSpec.ofParameter p = .ok ⟨.str Wire.Style.json.name, false⟩ := by
  have hcontent : (p.orElse (.map [])).get "content" = .ok (p.said "content") := by
    cases p with
    | map es =>
      cases es with
      | nil => cases h
      | cons e es => rfl
    | _ => cases h
  rw [StyleSpec.ofParameter, Result.bind_eq_ok_iff]
  exact ⟨_, hcontent, if_pos h⟩

theorem style_of_hasJsonContent (hkey : IsPlace key) (hfirst : first? (ps.placed key) name = some p)
    (h : StyleSpec.hasJsonContent (p.said "content") = true) :
    ps.style key name = ⟨.str Wire.Style.json.name, false⟩ := by
  refine style_eq_of_styleOf hkey ?_
  show StyleSpec.ofParameter ((first? (ps.placed key) name).getD .null) = _
  rw [hfirst]
  exact ofParameter_of_hasJsonContent h

end Parameters

/-! ## The calls that are made for them -/

namespace OperationBinding
variable {document operation pathItem : Data} {naming : Naming} {security : List SecurityBinding} {ps : Parameters}
  {b : OperationBinding}

open Parameters

theorem mem_urlOf_path {scanned : String × List (String × String)} {found : String × String} (hfound : found ∈ scanned.2)
    (schemes : List (Scalar × SecurityBinding)) :
    (.path, .member (memberCall ps naming .path (.str found.1))) ∈
      (urlOf ps naming scanned schemes).spans.flatMap fun span => span.call.placed := by
  have hspan : ⟨.member (memberCall ps naming .path (.str found.1)), found.2⟩ ∈ spansOf ps naming scanned.2 :=
    List.mem_map_of_mem hfound
  refine List.mem_flatMap.mpr ⟨⟨.member (memberCall ps naming .path (.str found.1)), found.2⟩, ?_, List.mem_singleton.mpr rfl⟩
  unfold urlOf urlWith
  dsimp only
  split
  · exact hspan
  · exact List.mem_append_left _ hspan

theorem mem_urlOf_query {name : Data} (hname : name ∈ ps.names .query) (scanned : String × List (String × String))
    (schemes : List (Scalar × SecurityBinding)) :
    (.query, .member (memberCall ps naming .query name)) ∈
      (urlOf ps naming scanned schemes).spans.flatMap fun span => span.call.placed := by
  have hpart : .member (memberCall ps naming .query name) ∈ queryOf ps naming schemes :=
    List.mem_append_left _ (List.mem_map_of_mem hname)
  refine List.mem_flatMap.mpr ⟨⟨.query (queryOf ps naming schemes), ""⟩, ?_, List.mem_map_of_mem hpart⟩
  unfold urlOf urlWith
  dsimp only
  rw [if_neg (by simpa using List.ne_nil_of_mem hpart)]
  exact List.mem_append_right _ (List.mem_singleton_self _)

/-- Each parameter of an operation is written, in a path as far as it has a placeholder. -/
theorem Bound.exists_call (hb : b.Bound document naming security operation pathItem ps) {key : GroupKey}
    (hkey : IsPlace key) {p : Data} (hp : p ∈ ps.placed key)
    (hpath : key = .path → ∃ found ∈ (Placeholder.scan b.path).2, p.said "name" = .str found.1) :
    ∃ m, (key, .member m) ∈ b.calls ∧ m.name = p.said "name" := by
  have hname : p.said "name" ∈ ps.names key := by
    obtain ⟨m, hm, hmember⟩ := exists_of_mem_forall₂ (hb.grouped.membersOf hkey).flip hp
    rw [Data.said_of_get hmember.name]
    exact List.mem_map_of_mem hm
  refine ⟨memberCall ps naming key (p.said "name"), ?_, rfl⟩
  unfold calls
  rw [hb.url, hb.headers]
  cases key with
  | path =>
    obtain ⟨found, hfound, heq⟩ := hpath rfl
    rw [heq]
    exact List.mem_append_left _ (mem_urlOf_path hfound _)
  | query => exact List.mem_append_left _ (mem_urlOf_query hname _ _)
  | header =>
    refine List.mem_append_right _ (List.mem_map.mpr ⟨⟨p.said "name", _⟩, ?_, rfl⟩)
    exact List.mem_append_left _ (List.mem_map_of_mem hname)
  | body | config => cases hkey

/-- How the parameters with JSON content are sent that are the first ones of their names: there is a call for
each, and each call of its name writes JSON. -/
def SendsJson (naming : Naming) (declared : List Data) (b : OperationBinding) : Prop :=
  ∀ key, IsPlace key → ∀ p ∈ declared.filter (isAt (.str key.name)),
    StyleSpec.hasJsonContent (p.said "content") = true →
    first? (declared.filter (isAt (.str key.name))) (p.said "name") = some p →
    ((key = .path → ∃ found ∈ (Placeholder.scan b.path).2, p.said "name" = .str found.1) →
      ∃ m, (key, .member m) ∈ b.calls ∧ m.name = p.said "name") ∧
    ∀ m, (key, .member m) ∈ b.calls → m.name = p.said "name" → m.WritesJson naming

theorem Bound.sendsJson (hb : b.Bound document naming security operation pathItem ps) :
    b.SendsJson naming ps.declared := by
  intro key hkey p hp hjson hfirst
  refine ⟨hb.exists_call hkey hp, ?_⟩
  intro m hm hname
  rcases hb.mem_calls hm with ⟨_, name, heq⟩ | ⟨_, _, _, ⟨_, heq⟩ | heq⟩
  · cases heq
    obtain rfl : name = p.said "name" := hname
    refine StyledMember.writesJson naming ?_ ?_
    all_goals
      unfold memberCall
      dsimp only
      rw [style_of_hasJsonContent hkey hfirst hjson]
  all_goals cases heq

end OperationBinding

def jsonParameter (name place : String) : Data := .object [
  ("name", .str name), ("in", .str place), ("content", .object [("application/json", .object [])])]

/-- A document with one operation that has given parameters. -/
def bookShelf (parameters : List Data) : Data := .object [
  ("openapi", .str "3.0.0"),
  ("paths", .object [("/books/{id}", .object [("get", .object [
    ("operationId", .str "books"), ("parameters", .list parameters)])])])]

def jsonShelf : Data := bookShelf [jsonParameter "id" "path", jsonParameter "X-Filter" "header"]

/-- What the call of a member yields for a value, if it does not fail. -/
def Call.yields? (c : Call) (v : Value) : Option (Option String) :=
  match c with
  | .member m => (m.styling.result? m.name.text v).bind Except.toOption
  | .token _ => none

end ClientBindings
