import ClientBindings.Proofs.Schema.Below
import ClientBindings.Proofs.Schema.Order
import Mathlib.Logic.Relation

/-! Dependencies come first. An alias is emitted once everything below its target is, so the aliases stand in the
post-order of a search: what an alias refers to stands before it or is still being synthesized around it, and then
the alias is reached from there. The invariant: all that a run emits is reached from the type that it yields. -/

namespace ClientBindings.Schema

namespace Plan

/-! ## What a plan keeps of its parts -/

/-- The leaves of the types of all parts are leaves of the type made. -/
def Covers (plan : Plan) : Prop :=
  ∀ ts : List TypeNode, ts.length = plan.parts.length → ∀ t ∈ ts, ∀ leaf ∈ t.leaves, leaf ∈ (plan.build ts).leaves

theorem covers_leaf (t : TypeNode) : Covers (leaf t) := by
  intro ts hlength u hu
  rw [List.eq_nil_of_length_eq_zero hlength] at hu
  exact absurd hu List.not_mem_nil

theorem mem_leaves_of_mem_unionOf {ts : List TypeNode} {t leaf : TypeNode} (ht : t ∈ ts) (hleaf : leaf ∈ t.leaves) :
    leaf ∈ (TypeNode.unionOf ts).leaves := by
  match ts with
  | [u] =>
    obtain rfl := List.mem_singleton.mp ht
    exact hleaf
  | u :: v :: rest => exact TypeNode.mem_leavesOfAll.mpr ⟨t, ht, hleaf⟩

theorem covers_union (parts : List Data) : Covers ⟨parts, .unionOf⟩ :=
  fun _ _ _ ht _ hleaf => mem_leaves_of_mem_unionOf ht hleaf

theorem covers_intersection (parts : List Data) : Covers ⟨parts, .intersection⟩ :=
  fun _ _ t ht _ hleaf => TypeNode.mem_leavesOfAll.mpr ⟨t, ht, hleaf⟩

theorem covers_array (items : Option Data) : Covers (array items) := by
  cases items with
  | none => exact covers_leaf _
  | some items =>
    intro ts hlength t ht leaf hleaf
    obtain ⟨u, rfl⟩ := List.length_eq_one_iff.mp hlength
    obtain rfl := List.mem_singleton.mp ht
    exact hleaf

theorem exists_field_of_mem {shapes : List (TypeNode → Field)} (h : Shapes shapes) {ts : List TypeNode} {t : TypeNode}
    (ht : t ∈ ts.take shapes.length) : ∃ f ∈ List.zipWith (fun shape t => shape t) shapes ts, f.type = t := by
  induction shapes generalizing ts with
  | nil => exact absurd ht (by simp)
  | cons shape shapes ih =>
    cases ts with
    | nil => exact absurd ht (by simp)
    | cons u ts =>
      rcases List.mem_cons.mp ht with rfl | ht
      · exact ⟨shape t, List.mem_cons_self, (h shape List.mem_cons_self t).1⟩
      · obtain ⟨f, hf, htype⟩ := ih (fun other hmem => h other (List.mem_cons_of_mem shape hmem)) ht
        exact ⟨f, List.mem_cons_of_mem _ hf, htype⟩

theorem covers_record {properties required additional : Data} {plan : Plan}
    (h : record properties required additional = .ok plan) : Covers plan := by
  simp only [record, Result.bind_eq_ok_iff, Result.pure_eq_ok_iff] at h
  obtain ⟨entries, -, shapes, hshapes, rfl⟩ := h
  have hcount := Result.mapM_length hshapes
  intro ts hlength t ht leaf hleaf
  simp only [recordType, TypeNode.leaves, List.mem_append, TypeNode.mem_leavesOfFields, TypeNode.mem_leavesOfIndex]
  rw [← List.take_append_drop shapes.length ts] at ht
  rcases List.mem_append.mp ht with ht | ht
  · obtain ⟨f, hf, rfl⟩ := exists_field_of_mem (fieldShapes_type hshapes) ht
    exact .inl ⟨f, hf, hleaf⟩
  · right
    refine ⟨t, ?_, hleaf⟩
    have hrest : (ts.drop shapes.length).length = (furtherParts additional).length := by
      rw [List.length_drop, hlength, List.length_append, List.length_map]
      omega
    unfold furtherParts at hrest
    unfold furtherType
    split at hrest
    · exact absurd ht (List.eq_nil_of_length_eq_zero hrest ▸ List.not_mem_nil)
    split at hrest
    · exact absurd ht (List.eq_nil_of_length_eq_zero hrest ▸ List.not_mem_nil)
    · obtain ⟨u, hu⟩ := List.length_eq_one_iff.mp hrest
      rw [hu] at ht ⊢
      obtain rfl := List.mem_singleton.mp ht
      simp_all

/-- How the plan of a schema that is no reference comes about. -/
inductive Arises (schema : Data) : Plan → Prop
  | leaf (t : TypeNode) : Arises schema (leaf t)
  | union {key : String} {value : Data} {parts : List Data} : key ∈ ["oneOf", "anyOf", "allOf"] →
      schema.find? key = some value → value.elements = .ok parts → Arises schema ⟨parts, .unionOf⟩
  | intersection {key : String} {value : Data} {parts : List Data} : key ∈ ["oneOf", "anyOf", "allOf"] →
      schema.find? key = some value → value.elements = .ok parts → Arises schema ⟨parts, .intersection⟩
  | array {items : Data} : schema.find? "items" = some items → Arises schema (array (some items))
  | record {plan : Plan} : record (((schema.find? "properties").getD .null).orElse (.map []))
      ((schema.find? "required").getD .null) ((schema.find? "additionalProperties").getD .null) = .ok plan →
      Arises schema plan

theorem parts_of_members {schema : Data} {key : String} {build : List TypeNode → TypeNode} {plan : Plan}
    (h : members schema key build = .ok plan) :
    ∃ value parts, schema.find? key = some value ∧ value.elements = .ok parts ∧ plan = ⟨parts, build⟩ := by
  simp only [members, Result.bind_eq_ok_iff, Result.pure_eq_ok_iff] at h
  obtain ⟨value, hvalue, parts, hparts, rfl⟩ := h
  exact ⟨value, parts, Data.find?_of_require hvalue, hparts, rfl⟩

theorem arises_named {schema : Data} {plan : Plan} (h : named schema = .ok plan) : Arises schema plan := by
  simp only [named, Result.bind_eq_ok_iff] at h
  obtain ⟨type, -, h⟩ := h
  unfold typed at h
  split at h
  case h_6 => exact .record h
  all_goals obtain rfl := Result.pure_eq_ok_iff.mp h
  case h_1 =>
    cases hitems : schema.find? "items" with
    | none => exact .leaf _
    | some items => exact .array hitems
  case h_5 =>
    unfold text
    split <;> exact .leaf _
  all_goals exact .leaf _

theorem arises_base {schema : Data} {plan : Plan} (h : base schema = .ok plan) : Arises schema plan := by
  unfold base at h
  split at h
  · obtain rfl := Result.pure_eq_ok_iff.mp h
    exact .leaf _
  obtain ⟨isOneOf, -, h⟩ := Result.bind_eq_ok_iff.mp h
  split at h
  · obtain ⟨value, parts, hvalue, hparts, rfl⟩ := parts_of_members h
    exact .union (by simp) hvalue hparts
  obtain ⟨isAnyOf, -, h⟩ := Result.bind_eq_ok_iff.mp h
  split at h
  · obtain ⟨value, parts, hvalue, hparts, rfl⟩ := parts_of_members h
    exact .union (by simp) hvalue hparts
  obtain ⟨isAllOf, -, h⟩ := Result.bind_eq_ok_iff.mp h
  split at h
  · obtain ⟨value, parts, hvalue, hparts, rfl⟩ := parts_of_members h
    exact .intersection (by simp) hvalue hparts
  obtain ⟨isEnum, -, h⟩ := Result.bind_eq_ok_iff.mp h
  split at h
  · simp only [Result.bind_eq_ok_iff, Result.pure_eq_ok_iff] at h
    obtain ⟨_, _, values, _, rfl⟩ := h
    exact .leaf _
  · exact arises_named h

theorem covers_of {schema : Data} {plan : Plan} (h : of schema = .ok plan) : Covers plan := by
  simp only [of, Result.bind_eq_ok_iff, Result.pure_eq_ok_iff] at h
  obtain ⟨inner, hinner, rfl⟩ := h
  have hcovers : Covers inner := by
    cases arises_base hinner with
    | leaf t => exact covers_leaf t
    | union => exact covers_union _
    | intersection => exact covers_intersection _
    | array => exact covers_array _
    | record hrecord => exact covers_record hrecord
  intro ts hlength t ht leaf hleaf
  have hmem := hcovers ts hlength t ht leaf hleaf
  unfold withNull
  dsimp only
  split
  · exact mem_leaves_of_mem_unionOf List.mem_cons_self hmem
  · exact hmem

/-- A plan asks for schemas in its own alone. -/
theorem asks_of_mem_parts {schema part : Data} {plan : Plan} (h : of schema = .ok plan) (hpart : part ∈ plan.parts) :
    Asks schema part := by
  simp only [of, Result.bind_eq_ok_iff, Result.pure_eq_ok_iff] at h
  obtain ⟨inner, hinner, rfl⟩ := h
  cases arises_base hinner with
  | leaf t => exact absurd hpart List.not_mem_nil
  | union hkey hvalue hparts | intersection hkey hvalue hparts => exact .member hkey hvalue hparts hpart
  | array hitems => exact List.mem_singleton.mp hpart ▸ .items hitems
  | record hrecord =>
    simp only [record, Result.bind_eq_ok_iff, Result.pure_eq_ok_iff] at hrecord
    obtain ⟨entries, hentries, shapes, -, rfl⟩ := hrecord
    rcases List.mem_append.mp hpart with hpart | hpart
    · obtain ⟨e, he, rfl⟩ := List.mem_map.mp hpart
      exact asks_property (Data.eq_map_of_entries hentries) he
    · unfold furtherParts at hpart
      split at hpart
      · exact absurd hpart List.not_mem_nil
      split at hpart
      · exact absurd hpart List.not_mem_nil
      · rename_i hcounts _
        obtain rfl := List.mem_singleton.mp hpart
        exact asks_further (by simpa using hcounts)

end Plan

/-! ## References between aliases -/

section
variable {document : Data} {typeOf : Data → M TypeNode} {s t u : State} {pending : List (Option String × String)}
  {pointer name : String} {type : TypeNode}

/-- One alias refers to another one. -/
def Refers (s : State) (a b : Alias) : Prop :=
  a ∈ s.aliases ∧ b ∈ s.aliases ∧ TypeNode.reference b.name b.pointer ∈ a.leaves

/-- An alias is reached from what a type refers to. -/
def Reached (s : State) (leaves : List TypeNode) (b : Alias) : Prop :=
  ∃ c ∈ s.aliases, TypeNode.reference c.name c.pointer ∈ leaves ∧ Relation.ReflTransGen (Refers s) c b

/-- What an alias refers to stands before it, leads back to it, or is pending. -/
def Ordered (s : State) (pending : List (Option String × String)) : Prop :=
  ∀ before a after, s.aliases = before ++ a :: after → ∀ name pointer, .reference name pointer ∈ a.leaves →
    (pointer, name) ∈ pending ∨
      ∃ b ∈ s.aliases, b.ref = (pointer, name) ∧ (b ∈ before ∨ Relation.TransGen (Refers s) b a)

theorem Refers.mono {a b : Alias} (hsub : s.aliases <+: t.aliases) (h : Refers s a b) : Refers t a b :=
  ⟨hsub.subset h.1, hsub.subset h.2.1, h.2.2⟩

theorem Reached.mono {leaves more : List TypeNode} {b : Alias} (hsub : s.aliases <+: t.aliases) (hleaves : leaves ⊆ more)
    (h : Reached s leaves b) : Reached t more b := by
  obtain ⟨c, hc, hleaf, hpath⟩ := h
  exact ⟨c, hsub.subset hc, hleaves hleaf, Relation.ReflTransGen.mono (fun _ _ => Refers.mono hsub) _ _ hpath⟩

/-- From an alias with these leaves the reached one is reached in at least one step. -/
theorem Reached.transGen {a b : Alias} (ha : a ∈ s.aliases) (h : Reached s a.leaves b) : Relation.TransGen (Refers s) a b := by
  obtain ⟨c, hc, hleaf, hpath⟩ := h
  exact .head' ⟨ha, hc, hleaf⟩ hpath

theorem Ordered.entered (h : Ordered s pending) (ref : Option String × String) :
    Ordered (s.entered pointer name) (ref :: pending) := by
  intro before a after hsplit name' pointer' hleaf
  rcases h before a after hsplit name' pointer' hleaf with hpending | hfound
  · exact .inl (List.mem_cons_of_mem _ hpending)
  · exact .inr hfound

/-- An alias is emitted after what it refers to. Those before it that wait for it were emitted on its way. -/
theorem Ordered.emitted {x : Alias} (h : Ordered t (x.ref :: pending)) (hsound : Sound t (x.ref :: pending))
    (hx : Settled t.refs x.leaves)
    (hwaits : ∀ a ∈ t.aliases, TypeNode.reference x.name x.pointer ∈ a.leaves → Reached t x.leaves a) :
    Ordered (t.emitted x) pending := by
  have hgrows : t.aliases <+: (t.emitted x).aliases := List.prefix_append _ _
  have hlast : x ∈ (t.emitted x).aliases := List.mem_append_right _ (List.mem_singleton_self x)
  intro before a after hsplit name pointer hleaf
  rcases List.eq_nil_or_concat after with rfl | ⟨rest, y, rfl⟩
  · -- the alias is the new one
    obtain ⟨rfl, rfl⟩ : before = t.aliases ∧ a = x := by
      have heq := List.append_inj' hsplit rfl
      exact ⟨heq.1.symm, (List.cons.inj heq.2).1.symm⟩
    obtain ⟨p, rfl, hmem⟩ := hx _ hleaf
    have hplace := hsound.emitted.mem_iff.mp (List.mem_map.mpr ⟨(p, name), hmem, rfl⟩)
    rcases List.mem_append.mp hplace with hpending | halias
    · rcases List.mem_cons.mp hpending with heq | hpending
      · right
        refine ⟨a, hlast, heq.symm, .inr (.single ⟨hlast, hlast, ?_⟩)⟩
        obtain ⟨hpointer, hname⟩ := Prod.mk.inj heq
        rw [← hpointer, ← hname]
        exact hleaf
      · exact .inl hpending
    · obtain ⟨b, hb, href⟩ := List.mem_map.mp halias
      exact .inr ⟨b, hgrows.subset hb, href, .inl hb⟩
  · -- the alias was there before
    have hold : t.aliases = before ++ a :: rest := by
      have heq : t.aliases ++ [x] = (before ++ a :: rest) ++ [y] := by simpa [State.emitted] using hsplit
      exact (List.append_inj' heq rfl).1
    rcases h before a rest hold name pointer hleaf with hpending | ⟨b, hb, href, hbefore | hpath⟩
    · rcases List.mem_cons.mp hpending with heq | hpending
      · right
        have ha : a ∈ t.aliases := hold ▸ List.mem_append_right _ List.mem_cons_self
        obtain ⟨hpointer, hname⟩ := Prod.mk.inj heq
        have hreached := hwaits a ha (by rw [← hpointer, ← hname]; exact hleaf)
        exact ⟨x, hlast, heq.symm, .inr ((hreached.mono hgrows (List.Subset.refl _)).transGen hlast)⟩
      · exact .inl hpending
    · exact .inr ⟨b, hgrows.subset hb, href, .inl hbefore⟩
    · exact .inr ⟨b, hgrows.subset hb, href, .inr (Relation.TransGen.mono (fun _ _ => Refers.mono hgrows) _ _ hpath)⟩

/-! ## The order through a synthesis -/

/-- What a run does to the order: it is kept, and what is emitted is reached from the types yielded. -/
structure Search (s t : State) (pending : List (Option String × String)) (types : List TypeNode) : Prop where
  ordered : Ordered t pending
  grows : s.aliases <+: t.aliases
  reached : ∀ b ∈ t.aliases, b ∈ s.aliases ∨ ∃ type ∈ types, Reached t type.leaves b

def Searches (typeOf : Data → M TypeNode) : Prop :=
  ∀ schema s type t pending, Sound s pending → Ordered s pending → Runs (typeOf schema) s type t →
    Search s t pending [type]

theorem Search.refl (hs : Ordered s pending) (types : List TypeNode) : Search s s pending types :=
  ⟨hs, List.prefix_refl _, fun _ hb => .inl hb⟩

theorem Search.trans {ts us : List TypeNode} (hst : Search s t pending ts) (htu : Search t u pending us) :
    Search s u pending (ts ++ us) where
  ordered := htu.ordered
  grows := hst.grows.trans htu.grows
  reached b hb := by
    rcases htu.reached b hb with hb | ⟨type, htype, hreached⟩
    · rcases hst.reached b hb with hb | ⟨type, htype, hreached⟩
      · exact .inl hb
      · exact .inr ⟨type, List.mem_append_left _ htype, hreached.mono htu.grows (List.Subset.refl _)⟩
    · exact .inr ⟨type, List.mem_append_right _ htype, hreached⟩

theorem Search.cover {ts : List TypeNode} (h : Search s t pending ts) (hcovers : ∀ u ∈ ts, u.leaves ⊆ type.leaves) :
    Search s t pending [type] where
  ordered := h.ordered
  grows := h.grows
  reached b hb := by
    rcases h.reached b hb with hb | ⟨u, hu, hreached⟩
    · exact .inl hb
    · exact .inr ⟨type, List.mem_singleton_self type, hreached.mono (List.prefix_refl _) (hcovers u hu)⟩

theorem Searches.parts (h : Searches typeOf) (hkeeps : Keeps typeOf) {parts : List Data} {ts : List TypeNode}
    (hs : Sound s pending) (hordered : Ordered s pending) (hrun : Runs (parts.mapM typeOf) s ts t) :
    Search s t pending ts := by
  induction parts generalizing s ts with
  | nil =>
    obtain ⟨rfl, rfl⟩ := Runs.mapM_nil_iff.mp hrun
    exact .refl hordered []
  | cons part parts ih =>
    obtain ⟨type, u, rest, hpart, hrest, rfl⟩ := Runs.mapM_cons_iff.mp hrun
    have hfirst := h part s type u pending hs hordered hpart
    exact hfirst.trans (ih (hkeeps part s type u pending hs hpart).1 hfirst.ordered hrest)

/-- A new alias of a pointer stands last; what was emitted on the way is reached from it. -/
theorem Search.emitted {x : Alias} {types : List TypeNode} (hs : Sound s pending) (hnew : s.refs.lookup pointer = none)
    (hx : x.ref = (some pointer, name)) (ht : Sound t (x.ref :: pending)) (hsettled : Settled t.refs x.leaves)
    (h : Search (s.entered pointer name) t (x.ref :: pending) types) (hleaves : ∀ u ∈ types, u.leaves ⊆ x.leaves) :
    Search s (t.emitted x) pending [.reference name (some pointer)] := by
  have hgrows : t.aliases <+: (t.emitted x).aliases := List.prefix_append _ _
  have hlast : x ∈ (t.emitted x).aliases := List.mem_append_right _ (List.mem_singleton_self x)
  obtain ⟨hpointer, hname⟩ := Prod.mk.inj hx
  have hway : ∀ a ∈ t.aliases, a ∈ s.aliases ∨ Reached t x.leaves a := by
    intro a ha
    rcases h.reached a ha with ha | ⟨u, hu, hreached⟩
    · exact .inl ha
    · exact .inr (hreached.mono (List.prefix_refl _) (hleaves u hu))
  have hwaits : ∀ a ∈ t.aliases, TypeNode.reference x.name x.pointer ∈ a.leaves → Reached t x.leaves a := by
    intro a ha hleaf
    refine (hway a ha).resolve_left fun hold => ?_
    obtain ⟨p, hp, hmem⟩ := hs.settled a hold _ hleaf
    obtain rfl : pointer = p := Option.some.inj (hpointer.symm.trans hp)
    have hfound := Entries.lookup_of_mem hs.distinctPointers hmem
    rw [hnew] at hfound
    cases hfound
  refine ⟨h.ordered.emitted ht hsettled hwaits, h.grows.trans hgrows, ?_⟩
  have hself : TypeNode.reference x.name x.pointer ∈ (TypeNode.reference name (some pointer)).leaves := by
    rw [hpointer, hname]
    exact List.mem_singleton_self _
  intro b hb
  rcases List.mem_append.mp hb with hb | hb
  · rcases hway b hb with hb | hreached
    · exact .inl hb
    · have hpath := ((hreached.mono hgrows (List.Subset.refl _)).transGen hlast).to_reflTransGen
      exact .inr ⟨_, List.mem_singleton_self _, x, hlast, hself, hpath⟩
  · obtain rfl := List.mem_singleton.mp hb
    exact .inr ⟨_, List.mem_singleton_self _, b, hlast, hself, .refl⟩

theorem Searches.refStep (h : Searches typeOf) (hkeeps : Keeps typeOf) (hs : Sound s pending) (hordered : Ordered s pending)
    (hstep : RefStep document typeOf pointer s name t) : Search s t pending [.reference name (some pointer)] := by
  cases hstep with
  | known => exact .refl hordered _
  | @enumeration e members hnew hentry hmembers =>
    have hentered := hs.entered hnew e.base
    exact Search.emitted (x := .enumeration _ (some pointer) members e.comment) hs hnew rfl hentered
      (fun _ hleaf => absurd hleaf List.not_mem_nil) (.refl (hordered.entered _) []) (by simp)
  | @synonym u e type hnew hentry hmembers hinner =>
    have hentered := hs.entered hnew e.base
    obtain ⟨ht, hsettled⟩ := hkeeps _ _ _ _ _ hentered hinner
    have hsearch := h _ _ _ _ _ hentered (hordered.entered _) hinner
    exact Search.emitted (x := .synonym _ (some pointer) type e.comment) hs hnew rfl ht hsettled hsearch
      (by simp [Alias.leaves])

theorem typeOfAt_searches (document : Data) (depth : Nat) : Searches (typeOfAt document depth) := by
  induction depth with
  | zero => exact fun _ _ _ _ _ _ _ hrun => absurd hrun Runs.throw_iff
  | succ depth ih =>
    intro schema s type t pending hs hordered hrun
    have hkeeps := typeOfAt_keeps document depth
    rcases runs_typeOfAt_succ_iff.mp hrun with ⟨_, pointer, name, _, rfl, hstep⟩ | ⟨_, plan, hplan, ts, hts, rfl⟩
    · exact ih.refStep hkeeps hs hordered hstep
    · apply (ih.parts hkeeps hs hordered hts).cover
      exact fun u hu leaf hleaf => Plan.covers_of hplan ts (Runs.mapM_length hts) u hu leaf hleaf

theorem Session.ordered {done : List (Call × TypeNode)} (h : Session document done s) : Ordered s [] := by
  induction h with
  | start => exact fun before a after hsplit => absurd hsplit (by simp)
  | @call done s t c type hdone hrun ih =>
    obtain ⟨hs, -⟩ := hdone.invariant
    cases c with
    | typeOf schema => exact (typeOfAt_searches document _ schema s type t [] hs ih hrun).ordered
    | recordOf properties required additional =>
      obtain ⟨_, _, ts, hts, _⟩ := (follows_record _ _ _ s type t).mp hrun
      exact ((typeOfAt_searches document _).parts (typeOfAt_keeps document _) hs ih hts).ordered

/-! ## References in a document -/

/-- The schema that a pointer stands for has a reference to another pointer somewhere in it. -/
def Mentions (document : Data) (p q : String) : Prop :=
  ∃ d place, Reference.lookup document p = .ok d ∧ Leads document (targetOf d) [] place ∧
    place.find? "$ref" = some (.str q)

theorem Leads.within {schema place : Data} {pointers : List String} (h : Leads document schema pointers place)
    (hnone : pointers = []) : place.Within schema := by
  induction h with
  | here => exact .refl _
  | part hasks _ ih => exact (ih hnone).trans hasks.within.2
  | enter => cases hnone

theorem Mentions.mem_pointers {p q : String} (h : Mentions document p q) :
    ∃ d, Reference.lookup document p = .ok d ∧ q ∈ d.pointers := by
  obtain ⟨d, place, hlookup, hleads, hfind⟩ := h
  have hplace := (hleads.within rfl).trans (within_targetOf d)
  exact ⟨d, hlookup, hplace.pointers (Data.mem_pointers_of_find? hfind)⟩

/-- A type refers to what its schema has references to. -/
theorem leads_of_leaf {depth : Nat} {schema : Data} {p : String}
    (h : Runs (typeOfAt document depth schema) s type t) (hleaf : .reference name (some p) ∈ type.leaves) :
    ∃ place, Leads document schema [] place ∧ place.find? "$ref" = some (.str p) := by
  induction depth generalizing schema s type t with
  | zero => exact absurd h Runs.throw_iff
  | succ depth ih =>
    rcases runs_typeOfAt_succ_iff.mp h with ⟨_, pointer, name', hfind, rfl, _⟩ | ⟨_, plan, hplan, ts, hts, rfl⟩
    · obtain ⟨_, rfl⟩ : name = name' ∧ p = pointer := by simpa [TypeNode.leaves] using hleaf
      exact ⟨schema, .here, hfind⟩
    · rcases (Plan.regular_of hplan).leaves ts _ hleaf with hplain | ⟨type, htype, hleaf⟩
      · exact absurd hplain (by simp [Plan.IsPlainLeaf])
      · obtain ⟨part, hpart, u, v, hrun⟩ := Runs.exists_of_mem_mapM hts htype
        obtain ⟨place, hleads, hfind⟩ := ih hrun hleaf
        exact ⟨place, .part (Plan.asks_of_mem_parts hplan hpart) hleads, hfind⟩

/-- Aliases refer to each other as their pointers do in the document. -/
theorem Session.mentions {done : List (Call × TypeNode)} (h : Session document done s) {a b : Alias} (hab : Refers s a b) :
    Mentions document (a.pointer.getD "") (b.pointer.getD "") := by
  obtain ⟨ha, hb, hleaf⟩ := hab
  cases h.described a ha with
  | enumeration => exact absurd hleaf List.not_mem_nil
  | @synonym _ pointer e type depth hentry hmembers hrun =>
    obtain ⟨q, hq, -⟩ := h.invariant.1.settled _ ha _ hleaf
    rw [hq] at hleaf ⊢
    obtain ⟨d, -, hd, -, -, htarget, -⟩ := entryOf_eq_ok_iff.mp hentry
    obtain ⟨place, hleads, hfind⟩ := leads_of_leaf hrun hleaf
    rw [htarget] at hleads
    exact ⟨d, place, hd, hleads, hfind⟩

/-- What an alias refers to stands before it, unless it lies on a circle with it; and there are no circles where
the document has none. -/
theorem aliases_dependencies_first {done : List (Call × TypeNode)} (h : Session document done s) :
    ∀ before a after, s.aliases = before ++ a :: after → ∀ name pointer, .reference name pointer ∈ a.leaves →
      ∃ b ∈ s.aliases, b.ref = (pointer, name) ∧ (b ∈ before ∨ Relation.TransGen (Refers s) b a) ∧
        ((∀ p, ¬ Relation.TransGen (Mentions document) p p) → b ∈ before) := by
  intro before a after hsplit name pointer hleaf
  rcases h.ordered before a after hsplit name pointer hleaf with hpending | ⟨b, hb, href, hplace⟩
  · exact absurd hpending List.not_mem_nil
  · refine ⟨b, hb, href, hplace, fun hacyclic => hplace.resolve_right fun hpath => ?_⟩
    have ha : a ∈ s.aliases := hsplit ▸ List.mem_append_right _ List.mem_cons_self
    obtain ⟨hpointer, hname⟩ := Prod.mk.inj href
    have hback : Refers s a b := ⟨ha, hb, hpointer ▸ hname ▸ hleaf⟩
    exact hacyclic _ (Relation.TransGen.lift (fun x : Alias => x.pointer.getD "") (fun _ _ => h.mentions) _ _ (hpath.tail hback))

end

/-! ## An example -/

/-- A schema that refers to another one, which refers to nothing. -/
def chain : Data := .object [
  ("a", .object [("type", .str "array"), ("items", refTo "#/b")]), ("b", .object [("type", .str "string")])]

def chainState : State where
  refs := [("#/a", "A"), ("#/b", "B")]
  names := ["B", "A"]
  aliases := [.synonym "B" (some "#/b") .string .null, .synonym "A" (some "#/a") (.array (.reference "B" (some "#/b"))) .null]

theorem chain_acyclic (p : String) : ¬ Relation.TransGen (Mentions chain) p p := by
  have hpointers : chain.pointers = ["#/b"] := by decide
  have hend : ∀ {q}, ¬ Mentions chain "#/b" q := by
    intro q h
    obtain ⟨d, hlookup, hq⟩ := h.mem_pointers
    obtain rfl : .object [("type", .str "string")] = d := Except.ok.inj hlookup
    exact List.not_mem_nil hq
  have hlast : ∀ {p q}, Mentions chain p q → q = "#/b" := by
    intro p q h
    obtain ⟨d, hlookup, hq⟩ := h.mem_pointers
    have hmem := (Data.within_lookup hlookup).pointers hq
    rw [hpointers] at hmem
    exact List.mem_singleton.mp hmem
  intro hcircle
  obtain ⟨q, hstep, -⟩ := Relation.TransGen.head'_iff.mp hcircle
  obtain ⟨r, -, hback⟩ := Relation.TransGen.tail'_iff.mp hcircle
  rw [hlast hback] at hstep
  exact hend hstep

theorem aliases_dependencies_first_chain :
    Session chain [(.typeOf (refTo "#/a"), .reference "A" (some "#/a"))] chainState ∧
    (∀ p, ¬ Relation.TransGen (Mentions chain) p p) ∧
    ∃ b ∈ chainState.aliases.take 1, b.ref = (some "#/b", "B") := by
  have hsession : Session chain [(.typeOf (refTo "#/a"), .reference "A" (some "#/a"))] chainState := .call .start rfl
  obtain ⟨b, -, href, -, hfirst⟩ := aliases_dependencies_first hsession (chainState.aliases.take 1) _ [] rfl "B" (some "#/b")
    List.mem_cons_self
  exact ⟨hsession, chain_acyclic, b, hfirst chain_acyclic, href⟩

end ClientBindings.Schema
