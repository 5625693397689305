import ClientBindings.Proofs.Binding.Coherence

/-! Tokens in the query of a URL. Each security requirement counts for the name that it gives first, and behind
the query parameters stands a token for each requirement whose name is that of a query scheme. Nothing is
dropped for having been there before, so a scheme is sent as often as requirements give its name first. -/

namespace ClientBindings
namespace OperationBinding
variable {document operation pathItem : Data} {naming : Naming} {security : List SecurityBinding} {ps : Parameters}
  {b : OperationBinding} {s t : Compilation}

/-! ## What requirements are read as -/

/-- The name that a requirement gives first, unless it counts as none. -/
def firstName? (requirement : Data) : Option Scalar :=
  match (requirement.orElse (.map [])).elements with
  | .ok (.scalar name :: _) => if name.truthy then some name else none
  | _ => none

theorem firstName?_of_none {requirement : Data} (h : firstScheme requirement = .ok none) :
    firstName? requirement = none := by
  obtain ⟨elements, helements, h⟩ := Result.bind_eq_ok_iff.mp h
  rw [Result.pure_eq_ok_iff] at h
  unfold firstName?
  rw [helements]
  cases elements with
  | nil => rfl
  | cons first rest =>
    cases first with
    | scalar name => exact if_neg (by simpa [Data.truthy] using h)
    | _ => rfl

theorem firstName?_of_some {requirement first : Data} {name : Scalar} (h : firstScheme requirement = .ok (some first))
    (hname : first.asKey = .ok name) : firstName? requirement = some name := by
  obtain ⟨elements, helements, h⟩ := Result.bind_eq_ok_iff.mp h
  rw [Result.pure_eq_ok_iff] at h
  obtain ⟨hhead, htruthy⟩ := Option.filter_eq_some_iff.mp h
  obtain ⟨rest, rfl⟩ := List.head?_eq_some_iff.mp hhead
  cases first with
  | scalar found =>
    obtain rfl := Result.pure_eq_ok_iff.mp hname
    unfold firstName?
    rw [helements]
    exact if_pos htruthy
  | _ => exact absurd hname Result.throw_ne_ok

theorem names_eq {requirements found : List Data} {names : List Scalar}
    (hfound : requirements.filterMapM firstScheme = .ok found) (hnames : found.mapM Data.asKey = .ok names) :
    names = requirements.filterMap firstName? := by
  induction requirements generalizing found names with
  | nil =>
    rw [List.filterMapM_nil, Result.pure_eq_ok_iff] at hfound
    subst hfound
    exact Result.mapM_nil_eq_ok_iff.mp hnames
  | cons requirement requirements ih =>
    rw [List.filterMapM_cons, Result.bind_eq_ok_iff] at hfound
    obtain ⟨first, hfirst, hfound⟩ := hfound
    cases first with
    | none =>
      rw [List.filterMap_cons_none (firstName?_of_none hfirst)]
      exact ih hfound hnames
    | some first =>
      obtain ⟨rest, hrest, hfound⟩ := Result.bind_eq_ok_iff.mp hfound
      obtain rfl := Result.pure_eq_ok_iff.mp hfound
      obtain ⟨name, others, hname, hothers, rfl⟩ := Result.mapM_cons_eq_ok_iff.mp hnames
      rw [List.filterMap_cons_some (firstName?_of_some hfirst hname), ← ih hrest hothers]

/-- The security requirements of an operation; none if nothing is said. -/
def Requires (operation : Data) (requirements : List Data) : Prop :=
  ((operation.said "security").orElse (.list [])).elements = .ok requirements

theorem bind_security {site : Site}
    (h : Runs (OperationBinding.bind document naming security site operation pathItem) s b t) :
    ∃ requirements, Requires operation requirements ∧ b.security = requirements.filterMap firstName? := by
  simp only [OperationBinding.bind, Runs.bind_iff, Runs.lift_iff, Runs.pure_iff] at h
  obtain ⟨_, _, _, found, _, ⟨hfound, _⟩, _, _, _, _, _, _, names, _, ⟨hnames, _⟩, _, _, _, _, _, _, _, _, _, _, _, _, _,
    _, _, _, _, _, _, _, _, rfl, _⟩ := h
  obtain ⟨given, hgiven, hfound⟩ := Result.bind_eq_ok_iff.mp hfound
  obtain ⟨requirements, hrequirements, hfound⟩ := Result.bind_eq_ok_iff.mp hfound
  refine ⟨requirements, ?_, names_eq hfound hnames⟩
  rwa [Requires, Data.said_of_get hgiven]

/-! ## Tokens for names -/

/-- The scheme that a name stands for. -/
def scheme? (security : List SecurityBinding) (name : Scalar) : Option SecurityBinding :=
  security.find? fun scheme => scheme.name.same name

def namesQuery (security : List SecurityBinding) (name : Scalar) : Bool :=
  (scheme? security name).any SecurityBinding.inQuery

/-- The call for a name, if it is that of a scheme whose token is sent in the query. -/
def queryToken? (security : List SecurityBinding) (name : Scalar) : Option TokenCall :=
  ((scheme? security name).filter SecurityBinding.inQuery).map fun scheme =>
    ⟨name, some Wire.Style.form.name, scheme.parameter⟩

theorem namesQuery_congr {name other : Scalar} (h : name.same other = true) :
    namesQuery security name = namesQuery security other := by
  have hsame : (fun scheme : SecurityBinding => scheme.name.same name) = fun scheme => scheme.name.same other := by
    funext scheme
    rw [Bool.eq_iff_iff]
    constructor
    · exact fun hname => Scalar.same_equivalence.trans hname h
    · exact fun hname => Scalar.same_equivalence.trans hname (Scalar.same_equivalence.symm h)
  rw [namesQuery, namesQuery, scheme?, scheme?, hsame]

theorem security_queryToken? (name : Scalar) :
    (queryToken? security name).map TokenCall.security = Option.guard (namesQuery security) name := by
  rw [queryToken?, Option.guard, namesQuery]
  cases scheme? security name with
  | none => rfl
  | some scheme => cases hquery : scheme.inQuery <;> simp [Option.filter, hquery]

theorem map_security_queryTokens (names : List Scalar) :
    (names.filterMap (queryToken? security)).map TokenCall.security = names.filter (namesQuery security) := by
  rw [List.map_filterMap, List.filterMap_congr fun name _ => security_queryToken? name, List.filterMap_eq_filter]

/-- A scheme has as many tokens as it is named. -/
theorem count_queryTokens (names : List Scalar) (name : Scalar) :
    ((names.filterMap (queryToken? security)).countP fun token => token.security.same name) =
      if namesQuery security name then names.countP fun other => other.same name else 0 := by
  have hnames : ((names.filterMap (queryToken? security)).countP fun token => token.security.same name) =
      names.countP fun other => other.same name && namesQuery security other := by
    rw [← List.countP_filter, ← map_security_queryTokens, List.countP_map]
    rfl
  rw [hnames]
  split
  case isTrue hquery =>
    refine List.countP_congr fun other _ => ?_
    simp only [Bool.and_eq_true]
    exact and_iff_left_of_imp fun hsame => (namesQuery_congr hsame).trans hquery
  case isFalse hquery =>
    refine List.countP_eq_zero.mpr fun other _ hboth => hquery ?_
    obtain ⟨hsame, hother⟩ := Bool.and_eq_true_iff.mp hboth
    exact (namesQuery_congr hsame).symm.trans hother

theorem queryTokens_schemes (b : OperationBinding) :
    queryTokens (b.schemes security) = b.security.filterMap (queryToken? security) := by
  unfold queryTokens schemes
  rw [List.filterMap_filterMap]
  refine List.filterMap_congr fun name _ => ?_
  show Option.bind ((scheme? security name).map _) _ = queryToken? security name
  rw [queryToken?]
  cases scheme? security name with
  | none => rfl
  | some scheme => cases hquery : scheme.inQuery <;> simp [Option.filter, hquery]

/-! ## The whole query -/

/-- How tokens are sent in the query of a URL: behind the query parameters comes one call for each name of a
query scheme among the names that the operation has, in their order. -/
structure SendsQueryTokens (security : List SecurityBinding) (b : OperationBinding) : Prop where
  url : ∃ spans, b.url = urlWith (Placeholder.scan b.path).1 spans
      ((b.callsOf .query).map Call.member ++ (b.security.filterMap (queryToken? security)).map Call.token) ∧
    List.Forall₂ b.WritesPlaceholder (Placeholder.scan b.path).2 spans
  names : (b.security.filterMap (queryToken? security)).map TokenCall.security =
    b.security.filter (namesQuery security)
  count : ∀ name, ((b.security.filterMap (queryToken? security)).countP fun token => token.security.same name) =
    if namesQuery security name then b.security.countP fun other => other.same name else 0

theorem Bound.sendsQueryTokens (hb : b.Bound document naming security operation pathItem ps) :
    b.SendsQueryTokens security where
  url := by
    refine ⟨spansOf ps naming (Placeholder.scan b.path).2, ?_, hb.writesPlaceholders⟩
    rw [hb.url, urlOf, queryOf_eq, queryTokens_schemes, hb.callsOf_eq isPlace_query]
  names := map_security_queryTokens b.security
  count := count_queryTokens b.security

/-- The names of an operation are those that its requirements give first, and their tokens are sent. -/
theorem bind_sendsQueryTokens {site : Site}
    (h : Runs (OperationBinding.bind document naming security site operation pathItem) s b t) :
    ∃ requirements, Requires operation requirements ∧ b.security = requirements.filterMap firstName? ∧
      b.SendsQueryTokens security := by
  obtain ⟨requirements, hrequires, hsecurity⟩ := bind_security h
  obtain ⟨_, _, ps, hb⟩ := bind_runs h
  exact ⟨requirements, hrequires, hsecurity, hb.sendsQueryTokens⟩

end OperationBinding

/-- A key that is sent in the query and one that is sent as a header. -/
def searchKeys (queryName headerName : String) : List SecurityBinding :=
  [⟨.str queryName, .query, .str "api_key"⟩, ⟨.str headerName, .header, .str "X-Key"⟩]

def requirement (names : List String) : Data := .object (names.map fun name => (name, .list []))

/-- An operation with a query parameter and some security requirements. -/
def search (requirements : List Data) : Data := .object [
  ("parameters", .list [.object [("name", .str "limit"), ("in", .str "query")]]), ("security", .list requirements)]

def searchSite : OperationBinding.Site := ⟨.str "search", .str "/search", "get"⟩

theorem bind_sendsQueryTokens_search : ∃ b t,
    Runs (OperationBinding.bind (.object []) {} (searchKeys "key" "other") searchSite
      (search [requirement ["other"], requirement ["key", "other"]]) .null) {} b t ∧
    b.calls.map (fun c => Expression.ofCall {} c.2) = ["_s.form(\"limit\", query.get(\"limit\"), True)",
      "_s.form(\"api_key\", await _su.token(\"key\"))", "await _su.token(\"other\")"] ∧
    b.security = [.str "other", .str "key"] ∧ b.SendsQueryTokens (searchKeys "key" "other") := by
  have hcomputed : ((Id.run ((OperationBinding.bind (.object []) {} (searchKeys "key" "other") searchSite
      (search [requirement ["other"], requirement ["key", "other"]]) .null).run {})).1.toOption.map
      fun b => b.calls.map fun c => Expression.ofCall {} c.2) =
      some ["_s.form(\"limit\", query.get(\"limit\"), True)", "_s.form(\"api_key\", await _su.token(\"key\"))",
        "await _su.token(\"other\")"] := by decide +kernel
  obtain ⟨b, t, hrun, htexts⟩ := Runs.exists_of_toOption hcomputed
  obtain ⟨requirements, hrequires, hsecurity, hsends⟩ := OperationBinding.bind_sendsQueryTokens hrun
  cases hrequires
  exact ⟨b, t, hrun, htexts, hsecurity, hsends⟩

theorem exists_token_repeated :
    (∃ b t, Runs (OperationBinding.bind (.object []) {} (searchKeys "key" "other") searchSite
        (search [requirement ["key"], requirement ["key", "other"]]) .null) {} b t ∧
      b.calls.map (fun c => Expression.ofCall {} c.2) = ["_s.form(\"limit\", query.get(\"limit\"), True)",
        "_s.form(\"api_key\", await _su.token(\"key\"))", "_s.form(\"api_key\", await _su.token(\"key\"))"]) ∧
    ∃ b t, Runs (OperationBinding.bind (.object []) {} (searchKeys "" "other") searchSite
        (search [requirement [""]]) .null) {} b t ∧
      b.calls.map (fun c => Expression.ofCall {} c.2) = ["_s.form(\"limit\", query.get(\"limit\"), True)"] := by
  constructor
  · refine Runs.exists_of_toOption ?_
    decide +kernel
  · refine Runs.exists_of_toOption ?_
    decide +kernel

end ClientBindings
