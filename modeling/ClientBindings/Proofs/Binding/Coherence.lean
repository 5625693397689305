import ClientBindings.Proofs.Binding.StylerCalls

/-! What the parts of an operation have to do with each other. Its parameters are its own and those of its
path item that have a new name and place; its groups are made of them and of the placeholders that none of
them declares; and each call in its URL and its headers writes a member of one of these groups. -/

namespace ClientBindings

/-! ## Parameters -/

namespace Parameters

def hasName (p : Data) : Bool := (p.said "name").truthy

/-- The parameters whose name and place do not occur before them. -/
def unseen (before parameters : List Data) : List Data :=
  (parameters.zipIdx.filter fun (p, i) => !(before ++ parameters.take i).any fun q => collides q p).map Prod.fst

theorem unseen_cons (before : List Data) (p : Data) (rest : List Data) :
    unseen before (p :: rest) =
      (if before.any fun q => collides q p then [] else [p]) ++ unseen (before ++ [p]) rest := by
  have hrest : ((rest.zipIdx.map (Prod.map id (· + 1))).filter fun (q, i) =>
      !(before ++ (p :: rest).take i).any fun r => collides r q).map Prod.fst = unseen (before ++ [p]) rest := by
    rw [List.filter_map, List.map_map, unseen]
    refine congrArg₂ List.map (funext fun _ => rfl) (List.filter_congr fun e _ => ?_)
    simp [Prod.map]
  unfold unseen at hrest ⊢
  rw [List.zipIdx_cons', List.filter_cons]
  by_cases hp : (before.any fun q => collides q p) = true
  · simpa [hp] using hrest
  · simpa [hp] using hrest

theorem collides_trans {p q r : Data} (hpq : collides p q = true) (hqr : collides q r = true) : collides p r = true := by
  unfold collides at hpq hqr ⊢
  rw [Bool.and_eq_true] at hpq hqr ⊢
  exact ⟨Data.same_trans hpq.1 hqr.1, Data.same_trans hpq.2 hqr.2⟩

theorem withNames_eq_filter {parameters named : List Data} (h : withNames parameters = .ok named) :
    named = parameters.filter hasName := by
  refine Result.filterM_eq_filter (fun p b hb => ?_) h
  obtain ⟨name, hname, hb⟩ := Result.bind_eq_ok_iff.mp hb
  rw [hasName, Data.said_of_get hname]
  exact (Result.pure_eq_ok_iff.mp hb).symm

/-- A parameter that is passed over collides with nothing that the kept ones do not collide with. -/
theorem addShared_eq {before own shared merged : List Data}
    (hbefore : ∀ p, (own.any fun q => collides q p) = before.any fun q => collides q p)
    (h : addShared own shared = .ok merged) : merged = own ++ unseen before (shared.filter hasName) := by
  induction shared generalizing own before with
  | nil =>
    rw [addShared, Result.pure_eq_ok_iff] at h
    rw [← h, List.filter_nil]
    exact (List.append_nil _).symm
  | cons p rest ih =>
    rw [addShared, Result.bind_eq_ok_iff] at h
    obtain ⟨name, hname, h⟩ := h
    have hhas : hasName p = name.truthy := congrArg Data.truthy (Data.said_of_get hname)
    rw [List.filter_cons, hhas]
    cases hnamed : name.truthy with
    | false =>
      rw [hnamed] at h
      exact ih hbefore h
    | true =>
      rw [if_pos rfl, unseen_cons, ← hbefore p]
      cases hp : own.any fun q => collides q p with
      | true =>
        rw [hnamed, hp] at h
        rw [if_pos rfl, List.nil_append]
        refine ih (fun r => ?_) h
        have hr : collides p r = true → (own.any fun q => collides q r) = true := by
          intro hpr
          obtain ⟨q, hq, hqp⟩ := List.any_eq_true.mp hp
          exact List.any_eq_true.mpr ⟨q, hq, collides_trans hqp hpr⟩
        rw [List.any_append, ← hbefore r, List.any_cons, List.any_nil, Bool.or_false, Bool.eq_iff_iff, Bool.or_eq_true]
        exact (or_iff_left_of_imp hr).symm
      | false =>
        rw [hnamed, hp] at h
        rw [if_neg Bool.false_ne_true, ← List.append_assoc]
        exact ih (fun r => by rw [List.any_append, List.any_append, hbefore r]) h

/-- The parameters of an operation: those of its own that have a name, then those of its path item that have
a name which, with the place, does not occur before them. -/
def UsedFor (document operation pathItem : Data) (parameters : List Data) : Prop :=
  ∃ ownNode own sharedNode shared, operation.get "parameters" = .ok ownNode ∧
    Reference.resolveAll document ownNode = .ok own ∧
    (pathItem.orElse (.map [])).get "parameters" = .ok sharedNode ∧
    Reference.resolveAll document sharedNode = .ok shared ∧
    parameters = own.filter hasName ++ unseen (own.filter hasName) (shared.filter hasName)

theorem Listed.usedFor {document operation pathItem : Data} {parameters : List Data}
    (h : Listed document operation pathItem parameters) : UsedFor document operation pathItem parameters := by
  obtain ⟨ownNode, sharedNode, hown, hshared, hmerge⟩ := h
  simp only [merge, Result.bind_eq_ok_iff] at hmerge
  obtain ⟨own, hresolved, named, hnamed, shared, hresolvedShared, hmerge⟩ := hmerge
  obtain rfl := withNames_eq_filter hnamed
  exact ⟨ownNode, own, sharedNode, shared, hown, hresolved, hshared, hresolvedShared,
    addShared_eq (fun _ => rfl) hmerge⟩

/-- The groups in the order of the arguments are found by their keys as before. -/
theorem find?_ordered (ps : Parameters) (key : GroupKey) :
    (ps.ordered.find? fun g => g.key == key) = ps.group? key := by
  have hkey : ∀ k, ((ps.group? k).any fun g => g.key == key) = (k == key && (ps.group? key).isSome) := by
    intro k
    cases hk : ps.group? k with
    | none => by_cases heq : k = key <;> simp_all
    | some g =>
      have hg : g.key = k := by simpa using List.find?_some hk
      by_cases heq : k = key <;> simp_all
  rw [ordered, select, List.find?_filterMap]
  simp only [hkey]
  cases hgroup : ps.group? key with
  | none => rw [List.find?_eq_none.mpr (by simp), Option.bind_none]
  | some g =>
    have hfirst : (GroupKey.all.find? fun k => k == key && (some g).isSome) = some key := by
      cases key <;> rfl
    rw [hfirst]
    exact hgroup

end Parameters

/-! ## Calls -/

namespace OperationBinding
variable {document operation pathItem : Data} {naming : Naming} {security : List SecurityBinding} {ps : Parameters}
  {b : OperationBinding} {s t : Compilation}

open Parameters

def group? (b : OperationBinding) (key : GroupKey) : Option Group := b.groups.find? fun g => g.key == key

/-- The calls of all members of a group, in their order. -/
def callsOf (b : OperationBinding) (key : GroupKey) : List StyledMember :=
  (b.group? key).elim [] fun g => g.members.map g.call

theorem mem_callsOf {key : GroupKey} {call : StyledMember} (h : call ∈ b.callsOf key) :
    ∃ g ∈ b.groups, g.key = key ∧ ∃ m ∈ g.members, call = g.call m := by
  unfold callsOf at h
  cases hg : b.group? key with
  | none =>
    rw [hg] at h
    exact absurd h List.not_mem_nil
  | some g =>
    rw [hg] at h
    obtain ⟨m, hm, rfl⟩ := List.mem_map.mp h
    exact ⟨g, List.mem_of_find?_eq_some hg, by simpa using List.find?_some hg, m, hm, rfl⟩

theorem Bound.group?_eq (hb : b.Bound document naming security operation pathItem ps) (key : GroupKey) :
    b.group? key = ps.group? key := by
  rw [group?, hb.groups, find?_ordered]

theorem Bound.callsOf_eq (hb : b.Bound document naming security operation pathItem ps) {key : GroupKey}
    (hkey : IsPlace key) : b.callsOf key = (ps.names key).map (memberCall ps naming key) := by
  rw [callsOf, hb.group?_eq, names, members]
  cases hg : ps.group? key with
  | none => rfl
  | some g =>
    show g.members.map g.call = (g.members.map Member.name).map _
    rw [List.map_map]
    exact List.map_congr_left fun m hm => (memberCall_eq hb.grouped hkey hg hm).symm

theorem Bound.memberCall_mem (hb : b.Bound document naming security operation pathItem ps) {key : GroupKey}
    (hkey : IsPlace key) {m : Member} (hm : m ∈ ps.members key) :
    memberCall ps naming key m.name ∈ b.callsOf key := by
  rw [hb.callsOf_eq hkey]
  exact List.mem_map_of_mem (List.mem_map_of_mem hm)

/-! ## The URL and the headers -/

/-- A span that writes a placeholder as a required member. -/
def WritesPlaceholder (b : OperationBinding) (found : String × String) (span : UrlSpan) : Prop :=
  span.literal = found.2 ∧
    ∃ call ∈ b.callsOf .path, call.name = .str found.1 ∧ call.required = true ∧ span.call = .member call

/-- A URL with a call for each placeholder, then calls of all query members, then tokens. -/
def WritesUrl (b : OperationBinding) : Prop := ∃ (spans : List UrlSpan) (tokens : List TokenCall),
  b.url = urlWith (Placeholder.scan b.path).1 spans ((b.callsOf .query).map Call.member ++ tokens.map Call.token) ∧
    List.Forall₂ b.WritesPlaceholder (Placeholder.scan b.path).2 spans

/-- Headers for all header members, then for tokens. -/
def WritesHeaders (b : OperationBinding) : Prop := ∃ tokens : List (Data × TokenCall),
  b.headers = (b.callsOf .header).map (fun call => ⟨call.name, .member call⟩) ++
    tokens.map fun token => ⟨token.1, .token token.2⟩

theorem Bound.placeholder_member (hb : b.Bound document naming security operation pathItem ps)
    {found : String × String} (hfound : found ∈ (Placeholder.scan b.path).2) :
    DeclaresPath ps.declared found.1 ∧ ∃ m ∈ ps.members .path, m.name = .str found.1 := by
  obtain ⟨listed, added, _, hcompletes, hdeclared⟩ := hb.completed
  have hdeclares : DeclaresPath ps.declared found.1 := hdeclared ▸ hcompletes.declaresPath (List.mem_map_of_mem hfound)
  exact ⟨hdeclares, (declaresPath_iff_member hb.grouped).mp hdeclares⟩

/-- The calls that send tokens in a query. -/
def queryTokens (schemes : List (Scalar × SecurityBinding)) : List TokenCall := schemes.filterMap fun e =>
  if e.2.inQuery then some ⟨e.1, some Wire.Style.form.name, e.2.parameter⟩ else none

theorem queryOf_eq (ps : Parameters) (naming : Naming) (schemes : List (Scalar × SecurityBinding)) :
    queryOf ps naming schemes = ((ps.names .query).map (memberCall ps naming .query)).map Call.member ++
      (queryTokens schemes).map Call.token := by
  unfold queryOf queryTokens
  rw [List.map_map, List.map_filterMap]
  refine congrArg₂ List.append rfl (List.filterMap_congr fun e _ => ?_)
  dsimp only
  split <;> rfl

theorem headersOf_eq (ps : Parameters) (naming : Naming) (schemes : List (Scalar × SecurityBinding)) : ∃ tokens : List (Data × TokenCall),
    headersOf ps naming schemes = ((ps.names .header).map (memberCall ps naming .header)).map
        (fun call => ⟨call.name, .member call⟩) ++ tokens.map fun token => ⟨token.1, .token token.2⟩ := by
  refine ⟨schemes.filterMap fun e => if e.2.inQuery then none else some (e.2.parameter, ⟨e.1, none, .null⟩), ?_⟩
  unfold headersOf
  rw [List.map_map, List.map_filterMap]
  refine congrArg₂ List.append rfl (List.filterMap_congr fun e _ => ?_)
  dsimp only
  split <;> rfl

theorem Bound.writesPlaceholders (hb : b.Bound document naming security operation pathItem ps) :
    List.Forall₂ b.WritesPlaceholder (Placeholder.scan b.path).2 (spansOf ps naming (Placeholder.scan b.path).2) := by
  refine List.forall₂_map_right_iff.mpr (List.forall₂_same.mpr fun found hfound => ⟨rfl, ?_⟩)
  obtain ⟨hdeclares, m, hm, hname⟩ := hb.placeholder_member hfound
  refine ⟨_, hname ▸ hb.memberCall_mem isPlace_path hm, rfl, ?_, rfl⟩
  rw [memberCall_path hb.grouped hdeclares]

theorem Bound.writesUrl (hb : b.Bound document naming security operation pathItem ps) : b.WritesUrl := by
  refine ⟨spansOf ps naming (Placeholder.scan b.path).2, queryTokens (b.schemes security), ?_, hb.writesPlaceholders⟩
  rw [hb.url, urlOf, queryOf_eq, hb.callsOf_eq isPlace_query]

theorem Bound.writesHeaders (hb : b.Bound document naming security operation pathItem ps) : b.WritesHeaders := by
  obtain ⟨tokens, htokens⟩ := headersOf_eq ps naming (b.schemes security)
  exact ⟨tokens, by rw [hb.headers, htokens, hb.callsOf_eq isPlace_header]⟩

theorem WritesUrl.mem_callsOf (h : b.WritesUrl) {key : GroupKey} {call : StyledMember}
    (hcall : (key, .member call) ∈ b.url.spans.flatMap fun span => span.call.placed) : call ∈ b.callsOf key := by
  obtain ⟨spans, tokens, hurl, hspans⟩ := h
  obtain ⟨span, hspan, hplaced⟩ := List.mem_flatMap.mp hcall
  have hpath : span ∈ spans → call ∈ b.callsOf key := by
    intro hspan
    obtain ⟨found, _, _, written, hwritten, _, _, heq⟩ := exists_of_mem_forall₂ hspans hspan
    rw [heq, UrlCall.placed, List.mem_singleton] at hplaced
    cases hplaced
    exact hwritten
  rw [hurl, urlWith] at hspan
  dsimp only at hspan
  split at hspan
  · exact hpath hspan
  rcases List.mem_append.mp hspan with hspan | hspan
  · exact hpath hspan
  rw [List.mem_singleton.mp hspan] at hplaced
  obtain ⟨part, hpart, heq⟩ := List.mem_map.mp hplaced
  cases heq
  rcases List.mem_append.mp hpart with hpart | hpart
  · obtain ⟨written, hwritten, heq⟩ := List.mem_map.mp hpart
    cases heq
    exact hwritten
  · obtain ⟨_, _, heq⟩ := List.mem_map.mp hpart
    cases heq

theorem WritesHeaders.mem_callsOf (h : b.WritesHeaders) {header : HeaderCall} (hheader : header ∈ b.headers)
    {call : StyledMember} (hcall : header.call = .member call) : call ∈ b.callsOf .header := by
  obtain ⟨tokens, hheaders⟩ := h
  rw [hheaders] at hheader
  rcases List.mem_append.mp hheader with hheader | hheader
  · obtain ⟨written, hwritten, rfl⟩ := List.mem_map.mp hheader
    cases hcall
    exact hwritten
  · obtain ⟨_, _, rfl⟩ := List.mem_map.mp hheader
    cases hcall

/-! ## The whole operation -/

/-- How the parts of an operation belong together. -/
structure Coherent (document : Data) (naming : Naming) (operation pathItem : Data) (b : OperationBinding) : Prop where
  /-- The groups are made of the parameters and of the placeholders that none of them declares. -/
  groups : ∃ used added, UsedFor document operation pathItem used ∧
    Completes used ((Placeholder.scan b.path).2.map Prod.fst) added ∧
    MadeOf naming (used ++ added.map implied) { groups := b.groups }
  placeholders : ∀ found ∈ (Placeholder.scan b.path).2, ∃ g ∈ b.groups, g.key = .path ∧ g.required = true ∧
    ∃ m ∈ g.members, m.name = .str found.1 ∧ m.required = true
  url : b.WritesUrl
  headers : b.WritesHeaders
  calls : ∀ key call, (key, .member call) ∈ b.calls →
    ∃ g ∈ b.groups, g.key = key ∧ ∃ m ∈ g.members, call = g.call m

theorem Bound.coherent (hb : b.Bound document naming security operation pathItem ps) :
    b.Coherent document naming operation pathItem where
  groups := by
    obtain ⟨listed, added, hlisted, hcompletes, hdeclared⟩ := hb.completed
    refine ⟨listed, added, hlisted.usedFor, hcompletes, ?_⟩
    intro key hkey
    obtain ⟨members, hmembers, hgroup⟩ := hb.grouped key hkey
    exact ⟨members, hdeclared ▸ hmembers, (hb.group?_eq key).trans hgroup⟩
  placeholders := by
    intro found hfound
    obtain ⟨_, m, hm, hname⟩ := hb.placeholder_member hfound
    have hgroup := (hb.group?_eq .path).trans (hb.grouped.group?_eq isPlace_path hm)
    obtain ⟨p, _, hmember⟩ := exists_of_mem_forall₂ (hb.grouped.membersOf isPlace_path) hm
    exact ⟨_, List.mem_of_find?_eq_some hgroup, rfl, rfl, m, hm, hname, hmember.required⟩
  url := hb.writesUrl
  headers := hb.writesHeaders
  calls := by
    intro key call hcall
    refine mem_callsOf ?_
    rcases List.mem_append.mp hcall with hcall | hcall
    · exact hb.writesUrl.mem_callsOf hcall
    · obtain ⟨header, hheader, heq⟩ := List.mem_map.mp hcall
      obtain ⟨rfl, hmember⟩ := Prod.mk.inj heq
      exact hb.writesHeaders.mem_callsOf hheader hmember

theorem bind_coherent {site : Site}
    (h : Runs (OperationBinding.bind document naming security site operation pathItem) s b t) :
    b.Coherent document naming operation pathItem := by
  obtain ⟨_, _, ps, hps⟩ := bind_runs h
  exact hps.coherent

end OperationBinding

/-- A parameter that operations refer to. -/
def shelves : Data := .object [("components", .object [("parameters", .object [
  ("Trace", .object [("name", .str "trace"), ("in", .str "header")])])])]

/-- An operation that restyles a parameter of its path item. -/
def listBooks : Data := .object [
  ("security", .list [.object [("key", .list [])]]),
  ("parameters", .list [
    .object [("name", .str "sort"), ("in", .str "query"), ("style", .str "deepObject")],
    .object [("in", .str "query")],
    .object [("$ref", .str "#/components/parameters/Trace")]])]

def booksItem : Data := .object [("parameters", .list [
  .object [("name", .str "sort"), ("in", .str "query")],
  .object [("name", .str "id"), ("in", .str "path"), ("style", .str "label")],
  .object [("name", .str "page"), ("in", .str "query"), ("required", .bool true)]])]

theorem bind_coherent_books : ∃ b t,
    Runs (OperationBinding.bind shelves {} [⟨.str "key", .query, .str "api_key"⟩]
      ⟨.str "listBooks", .str "/shelves/{id}/rows/{row}", "get"⟩ listBooks booksItem) {} b t ∧
    b.calls.map (fun c => Expression.ofCall {} c.2) = ["_s.label(paths[\"id\"])", "_s.simple(paths[\"row\"])",
      "_s.deep(\"sort\", query.get(\"sort\"))", "_s.form(\"page\", query[\"page\"], True)",
      "_s.form(\"api_key\", await _su.token(\"key\"))", "_s.simple(headers.get(\"trace\"))"] ∧
    b.Coherent shelves {} listBooks booksItem := by
  have hcomputed : ((Id.run ((OperationBinding.bind shelves {} [⟨.str "key", .query, .str "api_key"⟩]
      ⟨.str "listBooks", .str "/shelves/{id}/rows/{row}", "get"⟩ listBooks booksItem).run {})).1.toOption.map fun b =>
      b.calls.map fun c => Expression.ofCall {} c.2) =
      some ["_s.label(paths[\"id\"])", "_s.simple(paths[\"row\"])",
        "_s.deep(\"sort\", query.get(\"sort\"))", "_s.form(\"page\", query[\"page\"], True)",
        "_s.form(\"api_key\", await _su.token(\"key\"))", "_s.simple(headers.get(\"trace\"))"] := by decide +kernel
  obtain ⟨b, t, hrun, htexts⟩ := Runs.exists_of_toOption hcomputed
  exact ⟨b, t, hrun, htexts, OperationBinding.bind_coherent hrun⟩

end ClientBindings
