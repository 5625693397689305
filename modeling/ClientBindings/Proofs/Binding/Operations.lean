import ClientBindings.Binding.Api
import ClientBindings.Proofs.Binding.Placeholders
import Mathlib.Data.List.ReduceOption

/-! Where the operations of a compiled document come from. Each one is bound from an operation that the
document holds; its URL and its headers are written from the parameters that this operation and its path
item list and from the security schemes that it names. -/

namespace ClientBindings

/-- The schemes among those of a document that an operation names, in its order. -/
def OperationBinding.schemes (security : List SecurityBinding) (b : OperationBinding) : List (Scalar × SecurityBinding) :=
  b.security.filterMap fun name => (security.find? fun scheme => scheme.name.same name).map fun scheme => (name, scheme)

section
variable {document : Data} {naming : Naming} {item : Option Item} {security : List SecurityBinding} {s t : Compilation}

/-! ## One operation -/

/-- The parameters of an operation: those that it and its path item list, then one for each placeholder of
the path that none of them declares. -/
def Parameters.DeclaredFor (document operation pathItem : Data) (path : String) (declared : List Data) : Prop :=
  ∃ (listed : List Data) (added : List String), Parameters.Listed document operation pathItem listed ∧
    (∀ name ∈ added, name ∈ (Placeholder.scan path).2.map Prod.fst) ∧
    declared = listed ++ added.map Parameters.implied

/-- A binding and the parameters it is made from. -/
structure OperationBinding.Bound (document : Data) (naming : Naming) (security : List SecurityBinding)
    (operation pathItem : Data) (ps : Parameters) (b : OperationBinding) : Prop where
  completed : ∃ listed added, Parameters.Listed document operation pathItem listed ∧
    Completes listed ((Placeholder.scan b.path).2.map Prod.fst) added ∧
    ps.declared = listed ++ added.map Parameters.implied
  grouped : ps.Grouped naming
  groups : b.groups = ps.ordered
  url : b.url = urlOf ps naming (Placeholder.scan b.path) (b.schemes security)
  headers : b.headers = headersOf ps naming (b.schemes security)

theorem OperationBinding.Bound.declared {operation pathItem : Data} {ps : Parameters} {b : OperationBinding}
    (hb : b.Bound document naming security operation pathItem ps) :
    Parameters.DeclaredFor document operation pathItem b.path ps.declared := by
  obtain ⟨listed, added, hlisted, hcompletes, hdeclared⟩ := hb.completed
  exact ⟨listed, added, hlisted, fun name hname => hcompletes.sublist.subset hname, hdeclared⟩

theorem OperationBinding.bind_runs {site : Site} {operation pathItem : Data} {b : OperationBinding}
    (h : Runs (OperationBinding.bind document naming security site operation pathItem) s b t) :
    site.path = .str b.path ∧ site.method = b.method ∧
      ∃ ps, b.Bound document naming security operation pathItem ps := by
  simp only [OperationBinding.bind, Runs.bind_iff, Runs.lift_iff, Runs.pure_iff] at h
  obtain ⟨listed, _, hlisted, _, _, ⟨_, rfl⟩, path, _, ⟨hpath, rfl⟩, ⟨ps, spans⟩, _, hspans, _, _, ⟨_, rfl⟩, _, _,
    ⟨_, rfl⟩, _, _, ⟨_, rfl⟩, _, _, _, _, _, ⟨_, rfl⟩, _, _, ⟨_, rfl⟩, _, _, ⟨_, rfl⟩, _, _, ⟨_, rfl⟩, rfl, rfl⟩ := h
  obtain ⟨hgrouped, hdeclared⟩ := Parameters.classify_runs hlisted
  obtain ⟨hgrouped, hspans, added, hadded, hcompletes⟩ := pathSpans_runs hgrouped hspans
  dsimp only at hgrouped hspans hadded
  refine ⟨?_, rfl, ps, ⟨listed.declared, added, hdeclared, hcompletes, hadded⟩, hgrouped, rfl, ?_, rfl⟩
  case refine_2 =>
    rw [hspans]
    rfl
  show site.path = .str path
  cases hsite : site.path with
  | str text =>
    rw [hsite] at hpath
    exact congrArg Scalar.str (Result.pure_eq_ok_iff.mp hpath)
  | _ =>
    rw [hsite] at hpath
    exact absurd hpath Result.throw_ne_ok

namespace OperationBinding
variable {ps : Parameters} {b : OperationBinding}

theorem mem_schemes {name : Scalar} {scheme : SecurityBinding} (h : (name, scheme) ∈ b.schemes security) :
    name ∈ b.security ∧ scheme ∈ security ∧ scheme.name.same name = true := by
  obtain ⟨other, hother, hfound⟩ := List.mem_filterMap.mp h
  obtain ⟨found, hfind, heq⟩ := Option.map_eq_some_iff.mp hfound
  cases heq
  exact ⟨hother, List.mem_of_find?_eq_some hfind, by simpa using List.find?_some hfind⟩

theorem mem_headersOf {schemes : List (Scalar × SecurityBinding)} {header : HeaderCall}
    (h : header ∈ headersOf ps naming schemes) :
    (∃ name, header = ⟨name, .member (memberCall ps naming .header name)⟩) ∨
      ∃ name scheme, (name, scheme) ∈ schemes ∧ scheme.inQuery = false ∧
        header = ⟨scheme.parameter, .token ⟨name, none, .null⟩⟩ := by
  rcases List.mem_append.mp h with h | h
  · obtain ⟨name, _, rfl⟩ := List.mem_map.mp h
    exact Or.inl ⟨name, rfl⟩
  · obtain ⟨⟨name, scheme⟩, hscheme, hsome⟩ := List.mem_filterMap.mp h
    dsimp only at hsome
    split at hsome
    case isTrue => cases hsome
    case isFalse hheader =>
      cases hsome
      exact Or.inr ⟨name, scheme, hscheme, Bool.eq_false_iff.mpr hheader, rfl⟩

end OperationBinding

/-! ## All operations -/

namespace Paths

/-- Whether a document has an operation under a path and a method. The path item may be a reference. -/
structure Holds (document : Data) (path : Scalar) (method : String) (pathItem operation : Data) : Prop where
  listed : ∃ paths entries node, document.get "paths" = .ok paths ∧ (paths.orElse (.map [])).entries = .ok entries ∧
    (path, node) ∈ entries ∧ node.isNull = false ∧ Reference.resolve document node = .ok pathItem
  known : method ∈ methods
  operation : pathItem.get method = .ok operation

theorem bindMethod_runs {path : Scalar} {pathItem : Data} {method : String} {b : OperationBinding}
    (h : Runs (bindMethod document naming item security path pathItem method) s (some b) t) :
    ∃ site operation u, site.path = path ∧ site.method = method ∧ pathItem.get method = .ok operation ∧
      Runs (OperationBinding.bind document naming security site operation pathItem) u b t := by
  have hnone : ∀ {u : Compilation}, ¬ Runs (pure none : Compilation.M (Option OperationBinding)) u (some b) t := by
    intro u hpure
    cases (Runs.pure_iff.mp hpure).1
  simp only [bindMethod, Runs.bind_iff, Runs.lift_iff] at h
  obtain ⟨operation, _, ⟨hoperation, rfl⟩, h⟩ := h
  split at h
  · exact absurd h hnone
  simp only [Runs.bind_iff, Runs.lift_iff] at h
  obtain ⟨skipped, _, ⟨_, rfl⟩, h⟩ := h
  split at h
  · exact absurd h hnone
  simp only [Runs.bind_iff, Runs.lift_iff] at h
  obtain ⟨_, _, ⟨_, rfl⟩, id, u, _, h⟩ := h
  cases id with
  | none => exact absurd h hnone
  | some id =>
    obtain ⟨_, hbind, heq⟩ := Runs.map_iff.mp h
    cases heq
    exact ⟨⟨id, path, method⟩, operation, u, rfl, rfl, hoperation, hbind⟩

theorem bindAll_runs {bs : List OperationBinding} {b : OperationBinding} (hb : b ∈ bs)
    (h : Runs (bindAll document naming item security) s bs t) :
    ∃ pathItem operation ps, Holds document (.str b.path) b.method pathItem operation ∧
      b.Bound document naming security operation pathItem ps := by
  simp only [bindAll, Runs.bind_iff, Runs.lift_iff, Runs.pure_iff, Result.bind_eq_ok_iff] at h
  obtain ⟨entries, _, ⟨⟨paths, hpaths, hentries⟩, rfl⟩, found, _, hfound, rfl, rfl⟩ := h
  obtain ⟨bs, hbs, hb⟩ := List.mem_flatten.mp hb
  obtain ⟨⟨path, node⟩, hentry, u, v, hrun⟩ := Runs.exists_of_mem_mapM hfound hbs
  unfold bindPath at hrun
  split at hrun
  · rw [(Runs.pure_iff.mp hrun).1] at hb
    exact absurd hb List.not_mem_nil
  case isFalse hnull =>
  simp only [Runs.bind_iff, Runs.lift_iff, Runs.pure_iff] at hrun
  obtain ⟨pathItem, _, ⟨hresolve, rfl⟩, methods, _, hmethods, rfl, rfl⟩ := hrun
  obtain ⟨method, hmethod, u, v, hrun⟩ := Runs.exists_of_mem_mapM hmethods (List.reduceOption_mem_iff.mp hb)
  obtain ⟨site, operation, u, rfl, rfl, hoperation, hbind⟩ := bindMethod_runs hrun
  obtain ⟨hpath, hsiteMethod, ps, hps⟩ := OperationBinding.bind_runs hbind
  refine ⟨pathItem, operation, ps, ⟨⟨paths, entries, node, hpaths, hentries, ?_, ?_, hresolve⟩, ?_, ?_⟩, hps⟩
  · exact hpath ▸ hentry
  · exact Bool.eq_false_iff.mpr hnull
  · exact hsiteMethod ▸ hmethod
  · exact hsiteMethod ▸ hoperation

end Paths

theorem Api.operation_bound {api : Api} (h : Api.compile document item naming = .ok api) {b : OperationBinding}
    (hb : b ∈ api.operations) :
    ∃ pathItem operation ps, Paths.Holds document (.str b.path) b.method pathItem operation ∧
      b.Bound document naming api.security operation pathItem ps := by
  simp only [Api.compile, Result.bind_eq_ok_iff] at h
  obtain ⟨_, _, hbind⟩ := h
  obtain ⟨t, hrun⟩ : ∃ t, Runs (Api.bind document item naming) {} api t := ⟨_, Prod.ext hbind rfl⟩
  simp only [Api.bind, Runs.bind_iff, Runs.lift_iff, Runs.get_iff, Runs.pure_iff] at hrun
  obtain ⟨_, _, ⟨_, rfl⟩, _, _, ⟨_, rfl⟩, security, _, _, operations, _, hoperations, _, _, ⟨_, rfl⟩, _, _, ⟨_, rfl⟩,
    _, _, ⟨rfl, rfl⟩, rfl, rfl⟩ := hrun
  exact Paths.bindAll_runs hb hoperations

end

/-- Documents that have one operation may be evaluated to find it. -/
theorem Api.exists_operation {α : Type} {document : Data} {f : Api → OperationBinding → α} {x : α}
    (h : ((Api.compile document none {}).toOption.map fun api => api.operations.map (f api)) = some [x]) :
    ∃ api b, Api.compile document none {} = .ok api ∧ b ∈ api.operations ∧ f api b = x := by
  obtain ⟨api, hcompile, hcomputed⟩ := Option.map_eq_some_iff.mp h
  obtain ⟨b, hb, hx⟩ := List.mem_map.mp (hcomputed ▸ List.mem_singleton_self x)
  exact ⟨api, b, Result.eq_ok_of_toOption hcompile, hb, hx⟩

end ClientBindings
