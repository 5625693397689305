import ClientBindings.Proofs.Schema.Interrupted

/-! Syntheses end, whatever the references of a document do: they may lead to themselves, to each other, to what
stands around them or into the middle of another schema. A call goes no deeper than the pointers that are left
and the size of its schema allow, and of each pointer at most one alias is ever made. -/

namespace ClientBindings.Schema

section
variable {document : Data} {s t : State} {c : Call} {pending broken : List (Option String × String)}
  {done : List (Call × Except Failure TypeNode)} {result : Except Failure TypeNode} {texts : List String}

/-- What a call adds: pointers that were not registered, each of them once, and aliases of some of these. -/
structure Adds (document : Data) (c : Call) (s t : State) (entered : List (String × String)) (emitted : List Alias) :
    Prop where
  refs : t.refs = s.refs ++ entered
  aliases : t.aliases = s.aliases ++ emitted
  distinct : (entered.map Prod.fst).Nodup
  unmet : ∀ r ∈ entered, s.refs.lookup r.1 = none
  texts : ∀ r ∈ entered, r.1 ∈ document.pointers ++ c.pointers
  once : (emitted.map Alias.pointer).Nodup
  entered : ∀ a ∈ emitted, ∃ r ∈ entered, a.ref = (some r.1, r.2)

/-- What is emitted was entered: an alias of a pointer that was registered before is there already, or pending. -/
theorem Sound.entered_of_emitted (hs : Sound s pending) (ht : Sound t (broken ++ pending)) {entered : List (String × String)}
    {emitted : List Alias} (hrefs : t.refs = s.refs ++ entered) (haliases : t.aliases = s.aliases ++ emitted)
    {a : Alias} (ha : a ∈ emitted) : ∃ r ∈ entered, a.ref = (some r.1, r.2) := by
  have hmem : a ∈ t.aliases := haliases ▸ List.mem_append_right _ ha
  obtain ⟨hpending, hdistinct, hapart⟩ := List.nodup_append.mp ht.pointers_nodup
  obtain ⟨r, hr, href⟩ := List.mem_map.mp (ht.emitted.mem_iff.mpr (List.mem_append_right _ (List.mem_map_of_mem hmem)))
  rw [hrefs] at hr
  rcases List.mem_append.mp hr with hr | hr
  · have hplace := hs.emitted.mem_iff.mp (List.mem_map.mpr ⟨r, hr, href⟩)
    rcases List.mem_append.mp hplace with hplace | hplace
    · have hfst : a.pointer ∈ (broken ++ pending).map Prod.fst := by
        rw [List.map_append]
        exact List.mem_append_right _ (List.mem_map_of_mem hplace)
      exact absurd rfl (hapart _ hfst _ (List.mem_map_of_mem hmem))
    · obtain ⟨b, hb, hbref⟩ := List.mem_map.mp hplace
      rw [haliases, List.map_append] at hdistinct
      have hsame : b.pointer = a.pointer := congrArg Prod.fst hbref
      exact absurd hsame ((List.nodup_append.mp hdistinct).2.2 _ (List.mem_map_of_mem hb) _ (List.mem_map_of_mem ha))
  · exact ⟨r, hr, href.symm⟩

theorem Call.adds (hs : Sound s pending) (h : Id.run ((c.run document).run s) = (result, t)) :
    ∃ entered emitted, Adds document c s t entered emitted := by
  obtain ⟨broken, ht, hafter, -⟩ := (Calls.call .none h).invariant hs
  obtain ⟨entered, hrefs⟩ := hafter.refs
  obtain ⟨emitted, haliases⟩ := hafter.aliases
  have hdistinct := ht.distinctPointers
  rw [← hrefs, List.map_append] at hdistinct
  obtain ⟨-, hentered, hapart⟩ := List.nodup_append.mp hdistinct
  have hunmet : ∀ r ∈ entered, r.1 ∉ s.refs.map Prod.fst :=
    fun r hr hmem => hapart _ hmem _ (List.mem_map_of_mem hr) rfl
  have honce := (List.nodup_append.mp ht.pointers_nodup).2.1
  rw [← haliases, List.map_append] at honce
  refine ⟨entered, emitted, ?_⟩
  constructor
  case refs => exact hrefs.symm
  case aliases => exact haliases.symm
  case distinct => exact hentered
  case unmet =>
    intro r hr
    apply List.lookup_eq_none_iff.mpr
    intro e he
    have hne : r.1 ≠ e.1 := fun heq => hunmet r hr (heq ▸ List.mem_map_of_mem he)
    simpa using hne
  case texts =>
    intro r hr
    have hmet := hafter.met r.1 (List.mem_map_of_mem (hrefs ▸ List.mem_append_right _ hr))
    simpa [textsOf] using hmet.resolve_left (hunmet r hr)
  case once => exact (List.nodup_append.mp honce).2.1
  case entered => exact fun a ha => hs.entered_of_emitted ht hrefs.symm haliases.symm ha

/-- What is so of the next call, whatever calls there were. -/
structure Terminates (document : Data) (done : List (Call × Except Failure TypeNode)) (s : State) : Prop where
  /-- From the reach on the depth allowed makes no difference, and it is never used up. -/
  types : ∀ schema depth, s.reach document schema ≤ depth →
    EndsAs (typeOfAt document depth schema) (typeOf document schema) s
  bases : ∀ schema depth, s.reach document schema ≤ depth →
    EndsAs (baseWith document (typeOfAt document depth) schema) (baseTypeOf document schema) s
  references : ∀ ref depth, ref.isReference = true → s.reach document ref ≤ depth →
    EndsAs (refWith document (typeOfAt document depth) ref) (baseTypeOf document ref) s
  records : ∀ properties required additional depth, s.reach document (.list [properties, additional]) ≤ depth →
    EndsAs (recordWith (typeOfAt document depth) properties required additional)
      (recordOf document properties required additional) s
  reach : ∀ schema, s.reach document schema ≤ depthFor document schema
  adds : ∀ c result t, Id.run ((c.run document).run s) = (result, t) → ∃ entered emitted, Adds document c s t entered emitted
  once : (s.aliases.map Alias.pointer).Nodup
  /-- Schemas of the document have aliases of its pointers alone. -/
  met : (∀ call ∈ done, call.1.pointers ⊆ document.pointers) → s.aliases.map Alias.pointer ⊆ document.pointers.map some

theorem synthesis_ends (h : Calls document {} done s) : Terminates document done s := by
  obtain ⟨pending, hs, hafter, -⟩ := h.invariant .start
  constructor
  case types => exact fun schema depth hdepth => typeOfAt_ends hdepth
  case bases => exact fun schema depth hdepth => baseWith_ends hdepth
  case references =>
    intro ref depth href hdepth
    rw [← baseWith_of_isReference href]
    exact baseWith_ends hdepth
  case records => exact fun properties required additional depth hdepth => recordWith_ends hdepth
  case reach => exact fun schema => reach_le_depthFor s
  case adds => exact fun c result t hrun => Call.adds hs hrun
  case once => exact (List.nodup_append.mp hs.pointers_nodup).2.1
  case met =>
    intro hdocument q hq
    obtain ⟨a, ha, rfl⟩ := List.mem_map.mp hq
    have hplace := hs.pointers_perm.mem_iff.mpr (List.mem_append_right _ (List.mem_map_of_mem ha))
    obtain ⟨p, hp, heq⟩ := List.mem_map.mp hplace
    rw [← heq]
    apply List.mem_map_of_mem
    rcases hafter.met p hp with hp | hp
    · exact absurd hp List.not_mem_nil
    · rcases List.mem_append.mp hp with hp | hp
      · exact hp
      · obtain ⟨call, hcall, hp⟩ := List.mem_flatMap.mp hp
        exact hdocument call hcall hp

end

/-! ## An example -/

/-- A schema that holds itself, one that stands for another and back, and one inside the first. -/
def loops : Data := .object [
  ("A", .object [("type", .str "object"), ("properties", .object [("x", refTo "#/A"), ("y", refTo "#/B")])]),
  ("B", refTo "#/C"), ("C", refTo "#/B"), ("D", refTo "#/A/properties/y")]

def loopsState : State where
  refs := [("#/A", "A"), ("#/B", "B"), ("#/C", "C")]
  names := ["C", "B", "A"]
  aliases := [
    .synonym "C" (some "#/C") (.reference "B" (some "#/B")) .null,
    .synonym "B" (some "#/B") (.reference "C" (some "#/C")) .null,
    .synonym "A" (some "#/A") (.object [
      { name := .str "x", type := .reference "A" (some "#/A") },
      { name := .str "y", type := .reference "B" (some "#/B") }] none) .null]

theorem synthesis_ends_loops :
    Calls loops {} [(.typeOf (refTo "#/A"), .ok (.reference "A" (some "#/A")))] loopsState ∧
    Terminates loops [(.typeOf (refTo "#/A"), .ok (.reference "A" (some "#/A")))] loopsState :=
  have hcalls := .call .none rfl
  ⟨hcalls, synthesis_ends hcalls⟩

end ClientBindings.Schema
