import ClientBindings.Proofs.Entries
import ClientBindings.Proofs.FreshName
import ClientBindings.Proofs.Schema.Steps

/-! One alias for every pointer. While types are synthesized a pointer is registered before its alias
is emitted, so the invariant carries the pointers whose aliases are still pending; between calls none
is. A call that is repeated finds everything registered and changes nothing. -/

namespace ClientBindings

/-- The pointer and the name that an alias is emitted for. -/
def Alias.ref (a : Alias) : Option String × String := (a.pointer, a.name)

/-- The leaves of the type that an alias stands for. -/
def Alias.leaves : Alias → List TypeNode
  | .synonym _ _ type _ => type.leaves
  | .enumeration .. => []

namespace Schema

/-- References stand for registered pointers under their names; nothing else is named. -/
def Anchored (refs : List (String × String)) : TypeNode → Prop
  | .reference name pointer => ∃ p, pointer = some p ∧ (p, name) ∈ refs
  | leaf => Plan.IsPlainLeaf leaf

def Settled (refs : List (String × String)) (leaves : List TypeNode) : Prop :=
  ∀ leaf ∈ leaves, Anchored refs leaf

theorem Anchored.mono {refs more : List (String × String)} {leaf : TypeNode} (hsub : refs <+: more)
    (h : Anchored refs leaf) : Anchored more leaf := by
  cases leaf with
  | reference name pointer =>
    obtain ⟨p, rfl, hmem⟩ := h
    exact ⟨p, rfl, hsub.subset hmem⟩
  | _ => exact h

theorem Settled.mono {refs more : List (String × String)} {leaves : List TypeNode} (hsub : refs <+: more)
    (h : Settled refs leaves) : Settled more leaves :=
  fun leaf hleaf => (h leaf hleaf).mono hsub

theorem anchored_of_isPlainLeaf {refs : List (String × String)} {leaf : TypeNode}
    (h : Plan.IsPlainLeaf leaf) : Anchored refs leaf := by
  cases leaf with
  | reference => exact absurd h (by simp [Plan.IsPlainLeaf])
  | _ => exact h

/-- What holds of a state in which the aliases of some pointers are pending. -/
structure Sound (s : State) (pending : List (Option String × String)) : Prop where
  names : s.names = (s.refs.map Prod.snd).reverse
  distinctNames : s.names.Nodup
  distinctPointers : (s.refs.map Prod.fst).Nodup
  emitted : (s.refs.map fun r => (some r.1, r.2)).Perm (pending ++ s.aliases.map Alias.ref)
  settled : ∀ a ∈ s.aliases, Settled s.refs a.leaves

namespace Sound

theorem start : Sound {} [] where
  names := rfl
  distinctNames := List.nodup_nil
  distinctPointers := List.nodup_nil
  emitted := .refl _
  settled _ h := absurd h List.not_mem_nil

variable {s : State} {pending : List (Option String × String)} {pointer : String}

theorem entered (h : Sound s pending) (hnew : s.refs.lookup pointer = none) (base : String) :
    Sound (s.entered pointer (freshName s.names base)) ((some pointer, freshName s.names base) :: pending) where
  names := by simp [State.entered, h.names]
  distinctNames := List.nodup_cons.mpr ⟨freshName_not_mem s.names base, h.distinctNames⟩
  distinctPointers := by
    have hnot : pointer ∉ s.refs.map Prod.fst := by
      intro hmem
      obtain ⟨r, hr, rfl⟩ := List.mem_map.mp hmem
      have hne := List.lookup_eq_none_iff.mp hnew r hr
      simp at hne
    simp only [State.entered, List.map_append, List.map_cons, List.map_nil]
    exact List.nodup_append.mpr ⟨h.distinctPointers, by simp, by
      intro p hp q hq heq
      obtain rfl : q = pointer := by simpa using hq
      exact hnot (heq ▸ hp)⟩
  emitted := by
    simp only [State.entered, List.map_append, List.map_cons, List.map_nil]
    exact (List.perm_append_singleton _ _).trans (h.emitted.cons _)
  settled a ha := (h.settled a ha).mono (List.prefix_append _ _)

theorem emit {a : Alias} (h : Sound s (a.ref :: pending)) (ha : Settled s.refs a.leaves) :
    Sound (s.emitted a) pending where
  names := h.names
  distinctNames := h.distinctNames
  distinctPointers := h.distinctPointers
  emitted := by
    refine h.emitted.trans ?_
    simp only [State.emitted, List.map_append, List.map_cons, List.map_nil, List.cons_append]
    rw [← List.append_assoc]
    exact (List.perm_append_singleton _ _).symm
  settled b hb := by
    rcases List.mem_append.mp hb with hb | hb
    · exact h.settled b hb
    · obtain rfl : b = a := by simpa using hb
      exact ha

end Sound

/-! ## Registered pointers stay -/

/-- Runs that keep every registered pointer. -/
def Grows (typeOf : Data → M TypeNode) : Prop :=
  ∀ schema s type t, Runs (typeOf schema) s type t → s.refs <+: t.refs

section
variable {document : Data} {typeOf : Data → M TypeNode} {s t u : State} {pointer name : String}

theorem Grows.parts (h : Grows typeOf) {parts : List Data} {ts : List TypeNode}
    (hrun : Runs (parts.mapM typeOf) s ts t) : s.refs <+: t.refs := by
  induction parts generalizing s ts with
  | nil =>
    obtain ⟨_, rfl⟩ := Runs.mapM_nil_iff.mp hrun
    exact List.prefix_refl _
  | cons part parts ih =>
    obtain ⟨type, u, rest, hpart, hrest, rfl⟩ := Runs.mapM_cons_iff.mp hrun
    exact (h _ _ _ _ hpart).trans (ih hrest)

/-- Once a reference is served its pointer is registered under the name it was given. -/
theorem Grows.refStep (h : Grows typeOf) (hstep : RefStep document typeOf pointer s name t) :
    s.refs <+: t.refs ∧ t.refs.lookup pointer = some name := by
  have hentered : ∀ {s : State} {name : String}, s.refs.lookup pointer = none →
      (s.entered pointer name).refs.lookup pointer = some name := by
    intro s name hnew
    simp [State.entered, List.lookup_append, hnew]
  cases hstep with
  | known hname => exact ⟨List.prefix_refl _, hname⟩
  | enumeration hnew _ _ => exact ⟨List.prefix_append _ _, hentered hnew⟩
  | synonym hnew _ _ hinner =>
    have hgrows := h _ _ _ _ hinner
    exact ⟨(List.prefix_append _ _).trans hgrows, hgrows.lookup_eq_some (hentered hnew)⟩

theorem typeOfAt_grows (document : Data) (depth : Nat) : Grows (typeOfAt document depth) := by
  induction depth with
  | zero => exact fun _ _ _ _ hrun => absurd hrun Runs.throw_iff
  | succ depth ih =>
    intro schema s type t hrun
    rcases runs_typeOfAt_succ_iff.mp hrun with ⟨_, _, _, _, _, hstep⟩ | ⟨_, _, _, _, hts, _⟩
    · exact (ih.refStep hstep).1
    · exact ih.parts hts

/-! ## The invariant through a synthesis -/

/-- Runs that keep the invariant, whatever is pending, and yield settled types. -/
def Keeps (typeOf : Data → M TypeNode) : Prop :=
  ∀ schema s type t pending, Sound s pending → Runs (typeOf schema) s type t →
    Sound t pending ∧ Settled t.refs type.leaves

theorem Keeps.parts (h : Keeps typeOf) (hgrows : Grows typeOf) {pending : List (Option String × String)}
    {parts : List Data} {ts : List TypeNode} (hs : Sound s pending)
    (hrun : Runs (parts.mapM typeOf) s ts t) :
    Sound t pending ∧ ∀ type ∈ ts, Settled t.refs type.leaves := by
  obtain ⟨ht, _, hsettled⟩ := Runs.mapM_induct (fun u => Sound u pending)
    State.refs (fun u type => Settled u.refs type.leaves) (fun _ _ _ huv => Settled.mono huv)
    (fun part _ u type v hu hpart =>
      ⟨(h part u type v pending hu hpart).1, hgrows part u type v hpart,
        (h part u type v pending hu hpart).2⟩)
    hs hrun
  exact ⟨ht, hsettled⟩

theorem Keeps.refStep (h : Keeps typeOf) {pending : List (Option String × String)} (hs : Sound s pending)
    (hstep : RefStep document typeOf pointer s name t) : Sound t pending := by
  cases hstep with
  | known => exact hs
  | enumeration hnew _ _ => exact (hs.entered hnew _).emit (fun _ hleaf => absurd hleaf List.not_mem_nil)
  | synonym hnew _ _ hinner =>
    obtain ⟨ht, hsettled⟩ := h _ _ _ _ _ (hs.entered hnew _) hinner
    exact ht.emit hsettled

theorem settled_build {plan : Plan} (h : plan.Regular) {refs : List (String × String)}
    {ts : List TypeNode} (hts : ∀ type ∈ ts, Settled refs type.leaves) :
    Settled refs (plan.build ts).leaves := by
  intro leaf hleaf
  rcases h.leaves ts leaf hleaf with hplain | ⟨type, htype, hleaf⟩
  · exact anchored_of_isPlainLeaf hplain
  · exact hts type htype leaf hleaf

theorem typeOfAt_keeps (document : Data) (depth : Nat) : Keeps (typeOfAt document depth) := by
  induction depth with
  | zero => exact fun _ _ _ _ _ _ hrun => absurd hrun Runs.throw_iff
  | succ depth ih =>
    intro schema s type t pending hs hrun
    rcases runs_typeOfAt_succ_iff.mp hrun with
      ⟨_, pointer, name, _, rfl, hstep⟩ | ⟨_, plan, hplan, ts, hts, rfl⟩
    · refine ⟨ih.refStep hs hstep, ?_⟩
      intro leaf hleaf
      obtain rfl : leaf = .reference name (some pointer) := by simpa [TypeNode.leaves] using hleaf
      have hlookup := ((typeOfAt_grows document depth).refStep hstep).2
      exact ⟨pointer, rfl, Entries.mem_of_lookup hlookup⟩
    · obtain ⟨ht, hsettled⟩ := ih.parts (typeOfAt_grows document depth) hs hts
      exact ⟨ht, settled_build (Plan.regular_of hplan) hsettled⟩

/-! ## Repeated calls -/

/-- Runs that can be repeated, to no effect, wherever their outcome is registered. -/
def Repeats (typeOf : Data → M TypeNode) : Prop :=
  ∀ schema s type t u, Runs (typeOf schema) s type t → t.refs <+: u.refs → Runs (typeOf schema) u type u

theorem Repeats.parts (h : Repeats typeOf) (hgrows : Grows typeOf) {parts : List Data}
    {ts : List TypeNode} (hrun : Runs (parts.mapM typeOf) s ts t) (hseen : t.refs <+: u.refs) :
    Runs (parts.mapM typeOf) u ts u := by
  induction parts generalizing s ts with
  | nil =>
    obtain ⟨rfl, _⟩ := Runs.mapM_nil_iff.mp hrun
    exact Runs.mapM_nil_iff.mpr ⟨rfl, rfl⟩
  | cons part parts ih =>
    obtain ⟨type, v, rest, hpart, hrest, rfl⟩ := Runs.mapM_cons_iff.mp hrun
    have hagain := h _ _ _ _ u hpart ((hgrows.parts hrest).trans hseen)
    exact Runs.mapM_cons_iff.mpr ⟨type, u, rest, hagain, ih hrest, rfl⟩

theorem typeOfAt_repeats (document : Data) (depth : Nat) : Repeats (typeOfAt document depth) := by
  induction depth with
  | zero => exact fun _ _ _ _ _ hrun => absurd hrun Runs.throw_iff
  | succ depth ih =>
    intro schema s type t u hrun hseen
    have hgrows := typeOfAt_grows document depth
    apply runs_typeOfAt_succ_iff.mpr
    rcases runs_typeOfAt_succ_iff.mp hrun with
      ⟨href, pointer, name, hfind, rfl, hstep⟩ | ⟨href, plan, hplan, ts, hts, rfl⟩
    · have hknown := hseen.lookup_eq_some (hgrows.refStep hstep).2
      exact .inl ⟨href, pointer, name, hfind, rfl, .known hknown⟩
    · exact .inr ⟨href, plan, hplan, ts, ih.parts hgrows hts hseen, rfl⟩

end

/-! ## Sessions -/

/-- A question asked of a synthesis: for the type of a schema or for the record of some properties. -/
inductive Call where
  | typeOf (schema : Data)
  | recordOf (properties required additional : Data)

def Call.run (document : Data) : Call → M TypeNode
  | .typeOf schema => Schema.typeOf document schema
  | .recordOf properties required additional => Schema.recordOf document properties required additional

/-- Calls that all succeed, one after the other from the empty state, with their answers. -/
inductive Session (document : Data) : List (Call × TypeNode) → State → Prop where
  | start : Session document [] {}
  | call {done : List (Call × TypeNode)} {s t : State} {c : Call} {type : TypeNode} :
      Session document done s → Runs (c.run document) s type t → Session document (done ++ [(c, type)]) t

section
variable {document : Data} {s t u : State} {c : Call} {type : TypeNode} {done : List (Call × TypeNode)}

theorem Call.grows (h : Runs (c.run document) s type t) : s.refs <+: t.refs := by
  cases c with
  | typeOf schema => exact typeOfAt_grows document _ schema s type t h
  | recordOf properties required additional =>
    obtain ⟨_, _, _, hts, _⟩ := (follows_record _ _ _ s type t).mp h
    exact (typeOfAt_grows document _).parts hts

theorem Call.keeps {pending : List (Option String × String)} (hs : Sound s pending)
    (h : Runs (c.run document) s type t) : Sound t pending ∧ Settled t.refs type.leaves := by
  cases c with
  | typeOf schema => exact typeOfAt_keeps document _ schema s type t pending hs h
  | recordOf properties required additional =>
    obtain ⟨plan, hplan, ts, hts, rfl⟩ := (follows_record _ _ _ s type t).mp h
    obtain ⟨ht, hsettled⟩ := (typeOfAt_keeps document _).parts (typeOfAt_grows document _) hs hts
    exact ⟨ht, settled_build (Plan.regular_record hplan) hsettled⟩

theorem Call.repeats (h : Runs (c.run document) s type t) (hseen : t.refs <+: u.refs) :
    Runs (c.run document) u type u := by
  cases c with
  | typeOf schema => exact typeOfAt_repeats document _ schema s type t u h hseen
  | recordOf properties required additional =>
    obtain ⟨plan, hplan, ts, hts, rfl⟩ := (follows_record _ _ _ s type t).mp h
    have hagain := (typeOfAt_repeats document _).parts (typeOfAt_grows document _) hts hseen
    exact (follows_record _ _ _ u _ u).mpr ⟨plan, hplan, ts, hagain, rfl⟩

/-- Between calls nothing is pending, every answer is settled and every call can be repeated. -/
theorem Session.invariant (h : Session document done s) :
    Sound s [] ∧ ∀ call ∈ done, Settled s.refs call.2.leaves ∧ Runs (call.1.run document) s call.2 s := by
  induction h with
  | start => exact ⟨.start, by simp⟩
  | @call done s t c type hdone hrun ih =>
    obtain ⟨hs, hbefore⟩ := ih
    obtain ⟨ht, hsettled⟩ := Call.keeps hs hrun
    refine ⟨ht, ?_⟩
    intro call hcall
    rcases List.mem_append.mp hcall with hcall | hcall
    · obtain ⟨hold, hagain⟩ := hbefore call hcall
      exact ⟨hold.mono (Call.grows hrun), Call.repeats hagain (Call.grows hrun)⟩
    · obtain rfl : call = (c, type) := by simpa using hcall
      exact ⟨hsettled, Call.repeats hrun (List.prefix_refl _)⟩

/-- A reference stands for a registered pointer under its name, and one alias defines it. -/
def IsDefined (s : State) (name : String) (pointer : Option String) : Prop :=
  ∃ p, pointer = some p ∧ s.refs.lookup p = some name ∧ ∃! a, a ∈ s.aliases ∧ a.ref = (some p, name)

namespace Sound

theorem aliases_nodup {pending : List (Option String × String)} (h : Sound s pending) :
    (s.aliases.map Alias.ref).Nodup := by
  have hrefs : (s.refs.map fun r => (some r.1, r.2)).Nodup := by
    apply List.Nodup.of_map Prod.fst
    rw [List.map_map]
    have hsome := h.distinctPointers.map (Option.some_injective String)
    rwa [List.map_map] at hsome
  exact (List.nodup_append.mp (h.emitted.nodup_iff.mp hrefs)).2.1

/-- Once nothing is pending, the aliases have the names of the registered pointers. -/
theorem aliasNames_perm (h : Sound s []) : (s.aliases.map Alias.name).Perm (s.refs.map Prod.snd) := by
  have hsnd := h.emitted.symm.map Prod.snd
  simpa only [List.nil_append, List.map_map, Function.comp_def, Alias.ref] using hsnd

theorem aliasNames_nodup (h : Sound s []) : (s.aliases.map Alias.name).Nodup := by
  apply h.aliasNames_perm.nodup_iff.mpr
  rw [← List.nodup_reverse, ← h.names]
  exact h.distinctNames

theorem isDefined (h : Sound s []) {name : String} {pointer : Option String}
    (hanchored : Anchored s.refs (.reference name pointer)) : IsDefined s name pointer := by
  obtain ⟨p, rfl, hmem⟩ := hanchored
  refine ⟨p, rfl, Entries.lookup_of_mem h.distinctPointers hmem, ?_⟩
  have halias : (some p, name) ∈ s.aliases.map Alias.ref :=
    h.emitted.mem_iff.mp (List.mem_map.mpr ⟨(p, name), hmem, rfl⟩)
  obtain ⟨a, ha, href⟩ := List.mem_map.mp halias
  refine ⟨a, ⟨ha, href⟩, ?_⟩
  rintro b ⟨hb, hbref⟩
  exact List.inj_on_of_nodup_map h.aliases_nodup hb ha (hbref.trans href.symm)

end Sound

/-- What is promised between calls. -/
structure Consistent (document : Data) (done : List (Call × TypeNode)) (s : State) : Prop where
  distinctNames : (s.aliases.map Alias.name).Nodup
  distinctPointers : (s.refs.map Prod.fst).Nodup
  /-- The registered pointers and the emitted aliases are the same, with the same names. -/
  oneToOne : (s.aliases.map Alias.ref).Perm (s.refs.map fun r => (some r.1, r.2))
  answers : ∀ call ∈ done, ∀ name pointer, .reference name pointer ∈ call.2.leaves → IsDefined s name pointer
  aliases : ∀ a ∈ s.aliases, ∀ name pointer, .reference name pointer ∈ a.leaves → IsDefined s name pointer
  /-- Asking again gives the same answer and leaves the state as it is. -/
  repeatable : ∀ call ∈ done, Runs (call.1.run document) s call.2 s

theorem session_consistent (h : Session document done s) : Consistent document done s := by
  obtain ⟨hs, hdone⟩ := h.invariant
  have hperm : (s.aliases.map Alias.ref).Perm (s.refs.map fun r => (some r.1, r.2)) := by
    simpa using hs.emitted.symm
  constructor
  case distinctNames => exact hs.aliasNames_nodup
  case distinctPointers => exact hs.distinctPointers
  case oneToOne => exact hperm
  case answers =>
    intro call hcall name pointer hleaf
    exact hs.isDefined ((hdone call hcall).1 _ hleaf)
  case aliases =>
    intro a ha name pointer hleaf
    exact hs.isDefined (hs.settled a ha _ hleaf)
  case repeatable => exact fun call hcall => (hdone call hcall).2

end

/-! ## An example -/

def refTo (pointer : String) : Data := .object [("$ref", .str pointer)]

/-- Two schemas in a circle, and a third whose name collides with that of the first. -/
def circle : Data := .object [
  ("a", .object [("type", .str "array"), ("items", refTo "#/b")]),
  ("b", .object [("anyOf", .list [refTo "#/a", refTo "#/A"])]),
  ("A", .object [("enum", .list [.str "x", .int 1])])]

def circleState : State where
  refs := [("#/a", "A"), ("#/b", "B"), ("#/A", "A2")]
  names := ["A2", "B", "A"]
  aliases := [
    .enumeration "A2" (some "#/A") [⟨"x", .str "x"⟩, ⟨"_1", .int 1⟩] .null,
    .synonym "B" (some "#/b") (.union [.reference "A" (some "#/a"), .reference "A2" (some "#/A")]) .null,
    .synonym "A" (some "#/a") (.array (.reference "B" (some "#/b"))) .null]

def circleCalls : List (Call × TypeNode) := [
  (.typeOf (refTo "#/a"), .reference "A" (some "#/a")),
  (.recordOf (.object [("p", refTo "#/A")]) (.list [.str "p"]) (.bool true),
    .object [{ name := .str "p", type := .reference "A2" (some "#/A"), required := true }] (some .any))]

theorem session_consistent_circle :
    Session circle circleCalls circleState ∧ Consistent circle circleCalls circleState := by
  have hfirst : Session circle (circleCalls.take 1) circleState := .call .start rfl
  have hsecond : Session circle circleCalls circleState := .call hfirst rfl
  exact ⟨hsecond, session_consistent hsecond⟩

end Schema
end ClientBindings
