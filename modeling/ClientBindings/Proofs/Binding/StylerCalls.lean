import ClientBindings.Proofs.Binding.Operations
import ClientBindings.Source.Expression

/-! Calls of the layouts in generated code. A layout is a function of the library that takes the value and,
as the case may be, the parameter's name before it and a mark for the exploded form behind it. What a
document says about a style is printed as it stands, so a call names a layout, and gives it the arguments
it takes, exactly if the document asks for a style that the library knows and does not ask for exploded
JSON. -/

namespace ClientBindings

/-! ## What the layouts take -/

namespace Wire.Style

inductive Role where
  | name | value | explode
deriving DecidableEq, Repr

def isExplodable : Style → Bool
  | .deep | .json => false
  | _ => true

def signatures (s : Style) : List (List Role) :=
  let plain := if s.isNamed then [.name, .value] else [.value]
  if s.isExplodable then [plain, plain ++ [.explode]] else [plain]

theorem mem_all (s : Style) : s ∈ all := by
  cases s <;> decide

theorem name_injective : Function.Injective name := by
  intro s t h
  cases s <;> cases t <;> first | rfl | exact absurd h (by decide)

/-- The layouts that take a name are those that show it. -/
theorem isNamed_iff {s : Style} : s.isNamed = true ↔ ∃ n n' v e, s.apply n v e ≠ s.apply n' v e := by
  constructor
  · intro h
    refine ⟨"a", "b", .bool true, false, fun heq => ?_⟩
    have hsome := congrArg (Option.join ∘ Except.toOption) heq
    revert h hsome
    cases s <;> decide +kernel
  · rintro ⟨n, n', v, e, hne⟩
    cases s with
    | simple | label => exact absurd rfl hne
    | _ => rfl

/-- The layouts that take a mark are those that it changes. -/
theorem isExplodable_iff {s : Style} : s.isExplodable = true ↔ ∃ n v, s.apply n v true ≠ s.apply n v false := by
  constructor
  · intro h
    refine ⟨"a", .map [(.str "k", .bool true)], fun heq => ?_⟩
    have hsome := congrArg (Option.join ∘ Except.toOption) heq
    revert h hsome
    cases s <;> decide +kernel
  · rintro ⟨n, v, hne⟩
    cases s with
    | deep | json => exact absurd rfl hne
    | _ => rfl

end Wire.Style

open Wire.Style (Role)

/-! ## Calls as they are printed -/

/-- A call of a layout: the name that is printed, and the arguments with what they are. -/
structure Styling where
  function : Scalar
  arguments : List (Role × String)
deriving Repr

namespace Styling

def text (naming : Naming) (c : Styling) : String :=
  Expression.styled naming c.function.text (c.arguments.map Prod.snd)

def Fits (c : Styling) : Prop :=
  ∃ s : Wire.Style, c.function = .str s.name ∧ c.arguments.map Prod.fst ∈ s.signatures

instance (c : Styling) : Decidable c.Fits :=
  decidable_of_iff (∃ s ∈ Wire.Style.all, c.function = .str s.name ∧ c.arguments.map Prod.fst ∈ s.signatures)
    ⟨fun ⟨s, _, h⟩ => ⟨s, h⟩, fun ⟨s, h⟩ => ⟨s, s.mem_all, h⟩⟩

end Styling

namespace StyledMember

def styling (m : StyledMember) : Styling where
  function := m.style
  arguments := (if m.isNamed then [(.name, Literal.spellingOf m.name)] else []) ++ [(.value, Expression.access m)] ++
    if m.passesExplode then [(.explode, "True")] else []

theorem ofMember_eq_text (naming : Naming) (m : StyledMember) :
    Expression.ofMember naming m = m.styling.text naming := by
  unfold Expression.ofMember Styling.text styling
  cases m.isNamed <;> cases m.passesExplode <;> rfl

theorem isNamed_of_style {m : StyledMember} {s : Wire.Style} (h : m.style = .str s.name) : m.isNamed = s.isNamed := by
  unfold isNamed
  rw [h]
  cases s <;> decide

theorem passesExplode_of_style {m : StyledMember} {s : Wire.Style} (h : m.style = .str s.name) :
    m.passesExplode = (m.explode && s != .deep) := by
  have hdeep : (Scalar.str s.name).same (.str Wire.Style.deep.name) = (s == .deep) := by
    cases s <;> decide
  unfold passesExplode
  rw [h, hdeep]
  rfl

/-- A member's call fails to fit if its style is none of the library's, or if it is JSON to be exploded. -/
theorem fits_iff {m : StyledMember} :
    m.styling.Fits ↔ ∃ s : Wire.Style, m.style = .str s.name ∧ (s = .json → m.explode = false) := by
  -- Of a style that the library knows, only the roles of the arguments are left to compare.
  refine exists_congr fun s => and_congr_right fun hstyle => ?_
  have hroles : m.styling.arguments.map Prod.fst =
      (if s.isNamed then [.name] else []) ++ [.value] ++ if (m.explode && s != .deep) then [.explode] else [] := by
    show List.map _ ((if m.isNamed then _ else _) ++ _ ++ if m.passesExplode then _ else _) = _
    rw [isNamed_of_style hstyle, passesExplode_of_style hstyle]
    cases s.isNamed <;> cases m.explode && s != .deep <;> rfl
  rw [hroles]
  cases m.explode <;> cases s <;> decide

end StyledMember

namespace TokenCall

/-- The call that styles a token; none for tokens that are sent as they are. -/
def styling? (naming : Naming) (t : TokenCall) : Option Styling :=
  t.style.map fun style =>
    { function := .str style
      arguments := (if t.parameter.isNull then [] else [(.name, Literal.spellingOf t.parameter)]) ++
        [(.value, Expression.ofToken naming { t with style := none })] }

theorem ofToken_eq_text {naming : Naming} {t : TokenCall} {c : Styling} (h : t.styling? naming = some c) :
    Expression.ofToken naming t = c.text naming := by
  obtain ⟨style, hstyle, rfl⟩ := Option.map_eq_some_iff.mp h
  unfold Expression.ofToken Styling.text
  rw [hstyle]
  cases t.parameter.isNull <;> rfl

theorem fits_iff {naming : Naming} {t : TokenCall} {c : Styling} (hstyle : t.style = some Wire.Style.form.name)
    (h : t.styling? naming = some c) : c.Fits ↔ t.parameter.isNull = false := by
  rw [styling?, hstyle] at h
  cases h
  have hfits : ∀ arguments : List (Role × String), Styling.Fits ⟨.str Wire.Style.form.name, arguments⟩ ↔
      arguments.map Prod.fst ∈ Wire.Style.form.signatures := by
    intro arguments
    constructor
    · rintro ⟨s, hname, hroles⟩
      rwa [Wire.Style.name_injective (Scalar.str.inj hname)]
    · exact fun hroles => ⟨.form, rfl, hroles⟩
  rw [hfits]
  cases t.parameter.isNull
  · exact iff_of_true (by simp [Wire.Style.signatures, Wire.Style.isNamed, Wire.Style.isExplodable]) rfl
  · exact iff_of_false (by simp [Wire.Style.signatures, Wire.Style.isNamed, Wire.Style.isExplodable]) Bool.noConfusion

end TokenCall

/-- The calls that write a part of a URL, each with the place it writes to. -/
def UrlCall.placed : UrlCall → List (GroupKey × Call)
  | .member m => [(.path, .member m)]
  | .query parts => parts.map fun part => (.query, part)

/-- All calls of an operation, each with the place it writes to. -/
def OperationBinding.calls (b : OperationBinding) : List (GroupKey × Call) :=
  b.url.spans.flatMap (fun span => span.call.placed) ++ b.headers.map fun h => (.header, h.call)

/-! ## Styles that documents ask for -/

namespace Parameters

/-- Whether a parameter asks for a style that the library has: it is sent as JSON, or it leaves the style
open, or it names one by the library's or by the documents' name and does not ask for exploded JSON. -/
def AsksKnown (p : Data) : Prop :=
  StyleSpec.hasJsonContent (p.said "content") = true ∨ (p.said "style").isNull = true ∨
    ∃ (text : String) (s : Wire.Style), p.said "style" = .str text ∧
      (text = s.name ∨ (text, s) ∈ StyleSpec.aliases) ∧ (s = .json → (p.said "explode").truthy = false)

theorem said_orElse (p : Data) (key : String) : (p.orElse (.map [])).said key = p.said key := by
  unfold Data.orElse
  split
  · rfl
  case isFalse hfalse =>
    cases p with
    | map es =>
      cases es with
      | nil => rfl
      | cons e es => exact absurd rfl hfalse
    | _ => rfl

theorem lookup_aliases_name (s : Wire.Style) : StyleSpec.aliases.lookup s.name = none := by
  cases s <;> decide

theorem ofName_eq_iff {name : Scalar} {s : Wire.Style} : StyleSpec.ofName name = .str s.name ↔
    ∃ text, name = .str text ∧ (text = s.name ∨ (text, s) ∈ StyleSpec.aliases) := by
  constructor
  · intro h
    cases name with
    | str text =>
      refine ⟨text, rfl, ?_⟩
      have htext : ((StyleSpec.aliases.lookup text).map Wire.Style.name).getD text = s.name := Scalar.str.inj h
      cases hlookup : StyleSpec.aliases.lookup text with
      | none => exact Or.inl (by simpa [hlookup] using htext)
      | some other =>
        rw [hlookup] at htext
        have hsame : other = s := Wire.Style.name_injective htext
        exact Or.inr (Entries.mem_of_lookup (hsame ▸ hlookup))
    | _ => cases h
  · rintro ⟨text, rfl, rfl | halias⟩
    · rw [StyleSpec.ofName, lookup_aliases_name]
      rfl
    · have hlookup : StyleSpec.aliases.lookup text = some s := Entries.lookup_of_mem (by decide) halias
      rw [StyleSpec.ofName, hlookup]
      rfl

/-- Only what is said counts for JSON, since nothing is exploded there by default. -/
theorem exploded_json_iff {text : String} (h : text = Wire.Style.json.name ∨ (text, Wire.Style.json) ∈ StyleSpec.aliases)
    {explode : Data} :
    (if explode.isNull = true then (Data.str text).same (StyleSpec.named .form) else explode.truthy) = false ↔
      explode.truthy = false := by
  have htext : text = Wire.Style.json.name := h.resolve_right fun halias => by simp [StyleSpec.aliases] at halias
  cases hnull : explode.isNull with
  | false => rw [if_neg Bool.false_ne_true]
  | true =>
    have hexplode : explode = .null := by
      cases explode with
      | scalar e => cases e <;> first | rfl | cases hnull
      | _ => cases hnull
    subst htext hexplode
    decide

theorem given_iff {given : Scalar} {explode : Data} :
    (∃ s : Wire.Style, StyleSpec.ofName given = .str s.name ∧ (s = .json →
      (if explode.isNull = true then (Data.scalar given).same (StyleSpec.named .form) else explode.truthy) = false)) ↔
    ∃ (text : String) (s : Wire.Style), Data.scalar given = .str text ∧
      (text = s.name ∨ (text, s) ∈ StyleSpec.aliases) ∧ (s = .json → explode.truthy = false) := by
  constructor
  · rintro ⟨s, hname, hplain⟩
    obtain ⟨text, rfl, htext⟩ := ofName_eq_iff.mp hname
    refine ⟨text, s, rfl, htext, ?_⟩
    rintro rfl
    exact (exploded_json_iff htext).mp (hplain rfl)
  · rintro ⟨text, s, hgiven, htext, hplain⟩
    cases hgiven
    refine ⟨s, ofName_eq_iff.mpr ⟨text, rfl, htext⟩, ?_⟩
    rintro rfl
    exact (exploded_json_iff htext).mpr (hplain rfl)

theorem asksKnown_iff {p : Data} {spec : StyleSpec} (h : StyleSpec.ofParameter p = .ok spec) :
    (∃ s : Wire.Style, spec.style = .str s.name ∧ (s = .json → spec.explode = false)) ↔ AsksKnown p := by
  simp only [StyleSpec.ofParameter, Result.bind_eq_ok_iff] at h
  obtain ⟨content, hcontent, h⟩ := h
  have hcontent : p.said "content" = content := (said_orElse p _).symm.trans (Data.said_of_get hcontent)
  unfold AsksKnown
  rw [hcontent]
  split at h
  case isTrue hjson =>
    obtain rfl := Result.pure_eq_ok_iff.mp h
    exact ⟨fun _ => Or.inl hjson, fun _ => ⟨.json, rfl, fun _ => rfl⟩⟩
  case isFalse hjson =>
  simp only [Result.bind_eq_ok_iff, Result.pure_eq_ok_iff] at h
  obtain ⟨style, hstyle, place, _, explode, hexplode, key, hkey, rfl⟩ := h
  have hstyle : p.said "style" = style := (said_orElse p _).symm.trans (Data.said_of_get hstyle)
  have hexplode : p.said "explode" = explode := (said_orElse p _).symm.trans (Data.said_of_get hexplode)
  rw [hstyle, hexplode]
  by_cases hnull : style.isNull = true
  -- The default for the place is a style of the library, and never JSON.
  · refine ⟨fun _ => Or.inr (Or.inl hnull), fun _ => ?_⟩
    rw [if_pos hnull] at hkey
    obtain rfl := Result.pure_eq_ok_iff.mp hkey
    refine ⟨StyleSpec.styleFor place, ofName_eq_iff.mpr ⟨_, rfl, Or.inl rfl⟩, ?_⟩
    unfold StyleSpec.styleFor
    split <;> rintro ⟨⟩
  · rw [if_neg hnull] at hkey ⊢
    cases style with
    | scalar given =>
      obtain rfl := Result.pure_eq_ok_iff.mp hkey
      simp only [hjson, hnull, Bool.false_eq_true, false_or]
      exact given_iff
    | _ => exact absurd hkey Result.throw_ne_ok

end Parameters

/-! ## The calls of a compiled operation -/

namespace OperationBinding
variable {document operation pathItem : Data} {naming : Naming} {security : List SecurityBinding} {ps : Parameters}
  {b : OperationBinding}

theorem mem_urlOf {scanned : String × List (String × String)} {schemes : List (Scalar × SecurityBinding)}
    {key : GroupKey} {c : Call}
    (h : (key, c) ∈ (urlOf ps naming scanned schemes).spans.flatMap fun span => span.call.placed) :
    (Parameters.IsPlace key ∧ ∃ name, c = .member (memberCall ps naming key name)) ∨
      ∃ name scheme, (name, scheme) ∈ schemes ∧ scheme.inQuery = true ∧
        c = .token ⟨name, some Wire.Style.form.name, scheme.parameter⟩ := by
  obtain ⟨span, hspan, hc⟩ := List.mem_flatMap.mp h
  have hpath : span ∈ spansOf ps naming scanned.2 →
      Parameters.IsPlace key ∧ ∃ name, c = .member (memberCall ps naming key name) := by
    intro hspan
    obtain ⟨⟨name, literal⟩, _, rfl⟩ := List.mem_map.mp hspan
    cases List.mem_singleton.mp hc
    exact ⟨rfl, .str name, rfl⟩
  unfold urlOf urlWith at hspan
  dsimp only at hspan
  split at hspan
  · exact Or.inl (hpath hspan)
  rcases List.mem_append.mp hspan with hspan | hspan
  · exact Or.inl (hpath hspan)
  rw [List.mem_singleton.mp hspan] at hc
  obtain ⟨part, hpart, heq⟩ := List.mem_map.mp hc
  cases heq
  rcases List.mem_append.mp hpart with hpart | hpart
  · obtain ⟨name, _, rfl⟩ := List.mem_map.mp hpart
    exact Or.inl ⟨rfl, name, rfl⟩
  · obtain ⟨⟨name, scheme⟩, hscheme, hsome⟩ := List.mem_filterMap.mp hpart
    dsimp only at hsome
    split at hsome
    case isTrue hquery =>
      cases hsome
      exact Or.inr ⟨name, scheme, hscheme, hquery, rfl⟩
    case isFalse => cases hsome

/-- A call writes a member in its place, or it sends the token of a scheme that the operation names. -/
theorem Bound.mem_calls (hb : b.Bound document naming security operation pathItem ps) {key : GroupKey} {c : Call}
    (hc : (key, c) ∈ b.calls) :
    (Parameters.IsPlace key ∧ ∃ name, c = .member (memberCall ps naming key name)) ∨
      ∃ name scheme, (name, scheme) ∈ b.schemes security ∧
        (scheme.inQuery = true ∧ c = .token ⟨name, some Wire.Style.form.name, scheme.parameter⟩ ∨
          c = .token ⟨name, none, .null⟩) := by
  unfold calls at hc
  rw [hb.url, hb.headers] at hc
  rcases List.mem_append.mp hc with hc | hc
  · rcases mem_urlOf hc with hmember | ⟨name, scheme, hscheme, hquery, rfl⟩
    · exact Or.inl hmember
    · exact Or.inr ⟨name, scheme, hscheme, Or.inl ⟨hquery, rfl⟩⟩
  · obtain ⟨header, hheader, heq⟩ := List.mem_map.mp hc
    cases heq
    rcases mem_headersOf hheader with ⟨name, rfl⟩ | ⟨name, scheme, hscheme, _, rfl⟩
    · exact Or.inl ⟨rfl, name, rfl⟩
    · exact Or.inr ⟨name, scheme, hscheme, Or.inr rfl⟩

/-- How the calls of an operation are printed, and which of them are calls that the layouts take: those of
parameters that ask for a known style, and those of query tokens that have a name. -/
structure StyledFrom (naming : Naming) (security : List SecurityBinding) (declared : List Data)
    (b : OperationBinding) : Prop where
  member : ∀ key m, (key, .member m) ∈ b.calls → Expression.ofMember naming m = m.styling.text naming ∧
    ∃ p, Parameters.Describes (declared.filter (Parameters.isAt (.str key.name))) m.name p ∧
      StyleSpec.ofParameter p = .ok ⟨m.style, m.explode⟩ ∧ (m.styling.Fits ↔ Parameters.AsksKnown p)
  token : ∀ key t c, (key, .token t) ∈ b.calls → t.styling? naming = some c →
    Expression.ofToken naming t = c.text naming ∧ c.function = .str Wire.Style.form.name ∧
    ∃ scheme ∈ security, scheme.name.same t.security = true ∧ scheme.inQuery = true ∧
      (c.Fits ↔ scheme.parameter.isNull = false)

theorem Bound.styledFrom (hb : b.Bound document naming security operation pathItem ps) :
    b.StyledFrom naming security ps.declared where
  member := by
    intro key m hm
    refine ⟨m.ofMember_eq_text naming, ?_⟩
    rcases hb.mem_calls hm with ⟨hkey, name, heq⟩ | ⟨_, _, _, ⟨_, heq⟩ | heq⟩
    · cases heq
      obtain ⟨p, hp, hstyle⟩ := Parameters.exists_describes hkey name
      exact ⟨p, hp, hstyle, StyledMember.fits_iff.trans (Parameters.asksKnown_iff hstyle)⟩
    all_goals cases heq
  token := by
    intro key t c ht hc
    refine ⟨TokenCall.ofToken_eq_text hc, ?_⟩
    rcases hb.mem_calls ht with ⟨_, name, heq⟩ | ⟨name, scheme, hscheme, ⟨hquery, heq⟩ | heq⟩
    · cases heq
    · cases heq
      obtain ⟨_, hmem, hsame⟩ := mem_schemes hscheme
      refine ⟨?_, scheme, hmem, hsame, hquery, TokenCall.fits_iff rfl hc⟩
      cases hc
      rfl
    · cases heq
      cases hc

end OperationBinding

/-- Calls in the operations of a compiled document fit the layouts exactly if the document says so. -/
theorem Api.calls_styledFrom {document : Data} {item : Option Item} {naming : Naming} {api : Api}
    (h : Api.compile document item naming = .ok api) {b : OperationBinding} (hb : b ∈ api.operations) :
    ∃ pathItem operation declared, Paths.Holds document (.str b.path) b.method pathItem operation ∧
      Parameters.DeclaredFor document operation pathItem b.path declared ∧
      b.StyledFrom naming api.security declared := by
  obtain ⟨pathItem, operation, ps, hholds, hbound⟩ := Api.operation_bound h hb
  exact ⟨pathItem, operation, ps.declared, hholds, hbound.declared, hbound.styledFrom⟩

/-- Operations whose parameters are sent in a path, a query, a header and as a token. -/
def styledMenu : Data := .object [
  ("openapi", .str "3.0.0"),
  ("paths", .object [("/dishes/{id}", .object [("get", .object [
    ("operationId", .str "dishes"),
    ("security", .list [.object [("key", .list [])]]),
    ("parameters", .list [
      .object [("name", .str "filter"), ("in", .str "query"), ("style", .str "deepObject"), ("explode", .bool true)],
      .object [("name", .str "tags"), ("in", .str "query"), ("style", .str "pipeDelimited"), ("explode", .bool true)],
      .object [("name", .str "trace"), ("in", .str "header")]])])])]),
  ("components", .object [("securitySchemes", .object [
    ("key", .object [("type", .str "apiKey"), ("in", .str "query"), ("name", .str "api_key")])])])]

theorem calls_styledFrom_menu : ∃ api b, Api.compile styledMenu none {} = .ok api ∧ b ∈ api.operations ∧
    b.calls.map (fun c => Expression.ofCall {} c.2) = ["_s.simple(paths[\"id\"])",
      "_s.deep(\"filter\", query.get(\"filter\"))", "_s.pipe(\"tags\", query.get(\"tags\"), True)",
      "_s.form(\"api_key\", await _su.token(\"key\"))", "_s.simple(headers.get(\"trace\"))"] ∧
    ∃ pathItem operation declared, Paths.Holds styledMenu (.str b.path) b.method pathItem operation ∧
      Parameters.DeclaredFor styledMenu operation pathItem b.path declared ∧ b.StyledFrom {} api.security declared := by
  have hrun : ((Api.compile styledMenu none {}).toOption.map fun api => api.operations.map fun b =>
      b.calls.map fun c => Expression.ofCall {} c.2) = some [["_s.simple(paths[\"id\"])",
      "_s.deep(\"filter\", query.get(\"filter\"))", "_s.pipe(\"tags\", query.get(\"tags\"), True)",
      "_s.form(\"api_key\", await _su.token(\"key\"))", "_s.simple(headers.get(\"trace\"))"]] := by decide +kernel
  obtain ⟨api, b, hcompile, hb, htexts⟩ := Api.exists_operation hrun
  exact ⟨api, b, hcompile, hb, htexts, Api.calls_styledFrom hcompile hb⟩

/-- The styling of a member that no function of the library takes. -/
def Call.isUnfit : Call → Bool
  | .member m => decide (¬ m.styling.Fits)
  | .token _ => false

/-- A style that no layout has, and JSON that is to be exploded. -/
def strangeStyles : Data := .object [
  ("openapi", .str "3.0.0"),
  ("paths", .object [("/dishes", .object [("get", .object [
    ("operationId", .str "dishes"),
    ("parameters", .list [
      .object [("name", .str "q"), ("in", .str "query"), ("style", .str "form or print")],
      .object [("name", .str "r"), ("in", .str "query"), ("style", .str "json"), ("explode", .bool true)]])])])])]

theorem exists_call_not_fits : ∃ api b, Api.compile strangeStyles none {} = .ok api ∧ b ∈ api.operations ∧
    b.calls.map (fun c => Expression.ofCall {} c.2) =
      ["_s.form or print(\"q\", query.get(\"q\"))", "_s.json(\"r\", query.get(\"r\"), True)"] ∧
    ∀ key m, (key, .member m) ∈ b.calls → ¬ m.styling.Fits := by
  have hrun : ((Api.compile strangeStyles none {}).toOption.map fun api => api.operations.map fun b =>
      (b.calls.map (fun c => Expression.ofCall {} c.2), b.calls.all fun c => c.2.isUnfit)) =
      some [(["_s.form or print(\"q\", query.get(\"q\"))", "_s.json(\"r\", query.get(\"r\"), True)"], true)] := by
    decide +kernel
  obtain ⟨api, b, hcompile, hb, hcomputed⟩ := Api.exists_operation hrun
  obtain ⟨htexts, hall⟩ := Prod.mk.inj hcomputed
  refine ⟨api, b, hcompile, hb, htexts, ?_⟩
  intro key m hm
  exact of_decide_eq_true (List.all_eq_true.mp hall (key, .member m) hm)

end ClientBindings
