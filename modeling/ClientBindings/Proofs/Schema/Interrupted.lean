import ClientBindings.Proofs.Schema.Aliases
import ClientBindings.Proofs.Schema.Depth

/-! Syntheses that fail. On the way to the place where one stops every reference that is entered has its pointer
registered, and none of these pointers gets an alias any more: the pointer is known from then on. So pointers
and aliases stay in step just as long as no call that fails enters a reference. -/

namespace ClientBindings.Schema

section
variable {document schema target place : Data} {texts : List String} {s t u : State} {pointer name : String}
  {pending : List (Option String × String)} {failure : Failure}

/-! ## What a failure leaves behind -/

theorem Sound.perm {more : List (Option String × String)} (h : Sound s pending) (hperm : pending.Perm more) :
    Sound s more :=
  { h with emitted := h.emitted.trans (hperm.append_right _) }

/-- A state that comes after another one: what was registered or emitted stays, and only given pointers are added. -/
structure After (texts : List String) (s t : State) : Prop where
  refs : s.refs <+: t.refs
  aliases : s.aliases <+: t.aliases
  met : ∀ p ∈ t.refs.map Prod.fst, p ∈ s.refs.map Prod.fst ∨ p ∈ texts

namespace After

theorem refl (s : State) : After texts s s := ⟨List.prefix_refl _, List.prefix_refl _, fun _ hp => .inl hp⟩

theorem trans (hst : After texts s t) (htu : After texts t u) : After texts s u where
  refs := hst.refs.trans htu.refs
  aliases := hst.aliases.trans htu.aliases
  met p hp := by
    rcases htu.met p hp with hp | hp
    · exact hst.met p hp
    · exact .inr hp

theorem entered (hpointer : pointer ∈ texts) : After texts s (s.entered pointer name) where
  refs := List.prefix_append _ _
  aliases := List.prefix_refl _
  met p hp := by
    simp only [State.entered, List.map_append, List.mem_append, List.map_cons, List.map_nil, List.mem_singleton] at hp
    rcases hp with hp | rfl
    · exact .inl hp
    · exact .inr hpointer

theorem emitted (a : Alias) : After texts s (s.emitted a) where
  refs := List.prefix_refl _
  aliases := List.prefix_append _ _
  met _ hp := .inl hp

/-- What is not registered now was not before. -/
theorem lookup_eq_none (h : After texts s t) {p : String} (hnone : t.refs.lookup p = none) : s.refs.lookup p = none := by
  obtain ⟨more, hmore⟩ := h.refs
  rw [← hmore, List.lookup_append, Option.or_eq_none_iff] at hnone
  exact hnone.1

end After

/-- The state is sound, with the aliases of the same pointers pending. -/
structure Kept (texts : List String) (pending : List (Option String × String)) (s t : State) : Prop where
  sound : Sound t pending
  after : After texts s t

/-- Where a synthesis stops and what it leaves: the pointers entered on the way are registered, without aliases. -/
structure Broken (document : Data) (texts : List String) (pending : List (Option String × String)) (s : State)
    (schema : Data) (failure : Failure) (t : State) (opened : List (String × String)) (place : Data) : Prop where
  leads : Leads document schema (opened.map Prod.fst) place
  stops : Stops document place failure
  sound : Sound t ((opened.map fun r => (some r.1, r.2)) ++ pending)
  after : After texts s t
  unmet : ∀ r ∈ opened, s.refs.lookup r.1 = none

theorem Broken.part {part : Data} {opened : List (String × String)} (h : Broken document texts pending u part failure t opened place)
    (hasks : Asks schema part) (hu : After texts s u) : Broken document texts pending s schema failure t opened place where
  leads := .part hasks h.leads
  stops := h.stops
  sound := h.sound
  after := hu.trans h.after
  unmet r hr := hu.lookup_eq_none (h.unmet r hr)

theorem Broken.enter {d : Data} {opened : List (String × String)}
    (h : Broken document texts ((some pointer, name) :: pending) (u.entered pointer name) (targetOf d) failure t opened place)
    (hfind : schema.find? "$ref" = some (.str pointer)) (hlookup : Reference.lookup document pointer = .ok d)
    (hnew : u.refs.lookup pointer = none) (hpointer : pointer ∈ texts) (hu : After texts s u) :
    Broken document texts pending s schema failure t ((pointer, name) :: opened) place where
  leads := .enter hfind hlookup h.leads
  stops := h.stops
  sound := h.sound.perm List.perm_middle
  after := (hu.trans (.entered hpointer)).trans h.after
  unmet r hr := by
    rcases List.mem_cons.mp hr with rfl | hr
    · exact hu.lookup_eq_none hnew
    · exact (hu.trans (.entered hpointer)).lookup_eq_none (h.unmet r hr)

/-- Induction on the depth; entering a target makes its pointer pending. -/
theorem typeOfAt_broken (hdocument : document.pointers ⊆ texts) (depth : Nat) (hschema : schema.pointers ⊆ texts)
    (hs : Sound s pending) :
    Alike (fun _ t => Kept texts pending s t)
      (fun failure t => Faulty failure → ∃ opened place, Broken document texts pending s schema failure t opened place)
      (typeOfAt document depth schema) (typeOfAt document depth schema) s := by
  induction depth generalizing schema s pending with
  | zero => exact Alike.throw nofun
  | succ depth ih =>
    refine keep_typeOfAt (keep_baseWith (P := Kept texts pending s) ?_ ?_ ?_) s ⟨hs, .refl s⟩
    · intro failure u hstops hu _
      exact ⟨[], schema, .here, hstops, hu.sound, hu.after, by simp⟩
    · intro part hasks u hu
      apply (ih (List.Subset.trans hasks.within.2.pointers hschema) hu.sound).mono
      · exact fun _ t ht => ⟨ht.sound, hu.after.trans ht.after⟩
      · intro failure t hbroken hfaulty
        obtain ⟨opened, place, hbroken⟩ := hbroken hfaulty
        exact ⟨opened, place, hbroken.part hasks hu.after⟩
    · intro u pointer d base hu hfind hnew hlookup _ name
      have hpointer := hschema (Data.mem_pointers_of_find? hfind)
      have hentered := hu.sound.entered hnew (Text.onChars Unicode.upperFirst base)
      have hafter : After texts s (u.entered pointer name) := hu.after.trans (.entered hpointer)
      constructor
      case refused =>
        intro failure henum _
        have hhere : Broken document texts ((some pointer, name) :: pending) (u.entered pointer name) (targetOf d) failure
            (u.entered pointer name) [] (targetOf d) :=
          ⟨.here, .enumeration henum, hentered, .refl _, by simp⟩
        exact ⟨_, _, hhere.enter hfind hlookup hnew hpointer hu.after⟩
      case enumeration =>
        intro members comment _
        exact ⟨hentered.emit (a := .enumeration name (some pointer) members comment) (fun _ hleaf => absurd hleaf List.not_mem_nil),
          hafter.trans (.emitted _)⟩
      case synonym =>
        intro _
        have htarget := (within_targetOf d).trans (Data.within_lookup hlookup)
        apply (ih (List.Subset.trans htarget.pointers hdocument) hentered).and_runs.mono
        · rintro type t ⟨ht, hruns⟩ comment
          have hsettled := (typeOfAt_keeps document depth _ _ _ _ _ hentered hruns).2
          exact ⟨ht.sound.emit (a := .synonym name (some pointer) type comment) hsettled,
            (hafter.trans ht.after).trans (.emitted _)⟩
        · intro failure t hbroken hfaulty
          obtain ⟨opened, place, hbroken⟩ := hbroken hfaulty
          exact ⟨_, _, hbroken.enter hfind hlookup hnew hpointer hu.after⟩

/-! ## Calls -/

/-- The schemas whose types a call asks for. -/
inductive Call.Asks : Call → Data → Prop
  | schema {schema : Data} : Call.Asks (.typeOf schema) schema
  | property {entries : Data.Fields} {required additional part : Data} {name : Scalar} : (name, part) ∈ entries →
      Call.Asks (.recordOf (.map entries) required additional) part
  | further {properties required additional : Data} : Call.Asks (.recordOf properties required additional) additional

/-- How a call comes to stop: at a place below a schema that it asks for, with the pointers entered on the way, or
at the record it makes. -/
inductive Call.Stops (document : Data) : Call → List String → Failure → Prop
  | below {c : Call} {part place : Data} {opened : List String} {failure : Failure} : c.Asks part →
      Leads document part opened place → Schema.Stops document place failure → Call.Stops document c opened failure
  | record {properties required additional : Data} {failure : Failure} :
      Plan.record properties required additional = .error failure →
      Call.Stops document (.recordOf properties required additional) [] failure

def Call.pointers : Call → List String
  | .typeOf schema => schema.pointers
  | .recordOf properties _ additional => properties.pointers ++ additional.pointers

/-- What a failing call leaves. -/
structure Call.Broken (document : Data) (texts : List String) (pending : List (Option String × String)) (s : State)
    (c : Call) (failure : Failure) (t : State) (opened : List (String × String)) : Prop where
  stops : c.Stops document (opened.map Prod.fst) failure
  sound : Sound t ((opened.map fun r => (some r.1, r.2)) ++ pending)
  after : After texts s t
  unmet : ∀ r ∈ opened, s.refs.lookup r.1 = none

theorem Call.asks_pointers {c : Call} {part : Data} (h : c.Asks part) : part.pointers ⊆ c.pointers := by
  cases h with
  | schema => exact List.Subset.refl _
  | property hmem => exact List.Subset.trans (Data.within_entry hmem).2.pointers (List.subset_append_left _ _)
  | further => exact List.subset_append_right _ _

theorem Call.faulty {c : Call} (h : Id.run ((c.run document).run s) = (.error failure, t)) : Faulty failure := by
  cases c with
  | typeOf schema => exact (typeOfAt_ends (reach_le_depthFor s)).2 failure t h
  | recordOf properties required additional => exact (recordWith_ends (reach_le_depthFor s)).2 failure t h

theorem Call.outcome (hs : Sound s pending) (c : Call) :
    Alike (fun _ t => Kept (document.pointers ++ c.pointers) pending s t)
      (fun failure t => Faulty failure →
        ∃ opened, c.Broken document (document.pointers ++ c.pointers) pending s failure t opened)
      (c.run document) (c.run document) s := by
  have hpart : ∀ {part depth u}, c.Asks part → Kept (document.pointers ++ c.pointers) pending s u →
      Alike (fun _ t => Kept (document.pointers ++ c.pointers) pending s t)
        (fun failure t => Faulty failure →
          ∃ opened, c.Broken document (document.pointers ++ c.pointers) pending s failure t opened)
        (typeOfAt document depth part) (typeOfAt document depth part) u := by
    intro part depth u hasks hu
    have htexts := List.Subset.trans (Call.asks_pointers hasks) (List.subset_append_right document.pointers c.pointers)
    apply (typeOfAt_broken (List.subset_append_left _ _) depth htexts hu.sound).mono
    · exact fun _ t ht => ⟨ht.sound, hu.after.trans ht.after⟩
    · intro failure t hbroken hfaulty
      obtain ⟨opened, place, h⟩ := hbroken hfaulty
      exact ⟨opened, .below hasks h.leads h.stops, h.sound, hu.after.trans h.after,
        fun r hr => hu.after.lookup_eq_none (h.unmet r hr)⟩
  cases c with
  | typeOf schema => exact hpart .schema ⟨hs, .refl s⟩
  | recordOf properties required additional =>
    refine tracks_record ?_ ?_ ?_ s ⟨hs, .refl s⟩
    · intro entries heq e he u hu
      subst heq
      exact hpart (.property he) hu
    · exact fun _ u hu => hpart .further hu
    · intro failure u hplan hu _
      exact ⟨[], .record hplan, hu.sound, hu.after, by simp⟩

/-- A call that succeeds leaves nothing new pending. -/
theorem Call.kept {c : Call} {type : TypeNode} (hs : Sound s pending) (h : Runs (c.run document) s type t) :
    Kept (document.pointers ++ c.pointers) pending s t :=
  (Call.outcome hs c).of_runs h

theorem Call.broken {c : Call} (hs : Sound s pending) (h : Id.run ((c.run document).run s) = (.error failure, t)) :
    ∃ opened, c.Broken document (document.pointers ++ c.pointers) pending s failure t opened :=
  (Call.outcome hs c).of_fails h (Call.faulty h)

/-! ## Pointers that have no alias -/

/-- The registered pointers that no alias was emitted for. -/
def State.lost (s : State) : List String :=
  (s.refs.map Prod.fst).filter fun p => s.aliases.all fun a => a.pointer ≠ some p

/-- Registered pointers and emitted aliases are the same, with the same names. -/
def OneToOne (s : State) : Prop := (s.aliases.map Alias.ref).Perm (s.refs.map fun r => (some r.1, r.2))

theorem mem_lost {p : String} : p ∈ s.lost ↔ p ∈ s.refs.map Prod.fst ∧ ∀ a ∈ s.aliases, a.pointer ≠ some p := by
  simp [State.lost]

namespace Sound

theorem pointers_perm (h : Sound s pending) :
    ((s.refs.map Prod.fst).map some).Perm (pending.map Prod.fst ++ s.aliases.map Alias.pointer) := by
  have hfst := h.emitted.map Prod.fst
  simpa [List.map_append, Function.comp_def, Alias.ref] using hfst

theorem pointers_nodup (h : Sound s pending) : (pending.map Prod.fst ++ s.aliases.map Alias.pointer).Nodup :=
  h.pointers_perm.nodup_iff.mp (h.distinctPointers.map (Option.some_injective _))

theorem mem_lost_iff (h : Sound s pending) {p : String} : p ∈ s.lost ↔ some p ∈ pending.map Prod.fst := by
  have hmem := h.pointers_perm.mem_iff (a := some p)
  rw [List.mem_append, List.mem_map_of_injective (Option.some_injective _)] at hmem
  rw [mem_lost, hmem]
  constructor
  · rintro ⟨hp | hp, hno⟩
    · exact hp
    · obtain ⟨a, ha, heq⟩ := List.mem_map.mp hp
      exact absurd heq (hno a ha)
  · intro hp
    refine ⟨.inl hp, ?_⟩
    intro a ha heq
    exact (List.nodup_append.mp h.pointers_nodup).2.2 _ hp _ (List.mem_map_of_mem ha) heq.symm

/-- What is pending is what has no alias. -/
theorem lost_perm (h : Sound s pending) : (s.lost.map some).Perm (pending.map Prod.fst) := by
  have hlost : (s.lost.map some).Nodup := (h.distinctPointers.filter _).map (Option.some_injective _)
  apply (List.perm_ext_iff_of_nodup hlost (List.nodup_append.mp h.pointers_nodup).1).mpr
  intro q
  constructor
  · intro hq
    obtain ⟨p, hp, rfl⟩ := List.mem_map.mp hq
    exact h.mem_lost_iff.mp hp
  · intro hq
    obtain ⟨r, hr, rfl⟩ := List.mem_map.mp hq
    have hrefs := h.emitted.mem_iff.mpr (List.mem_append_left _ hr)
    obtain ⟨p, -, rfl⟩ := List.mem_map.mp hrefs
    exact List.mem_map_of_mem (h.mem_lost_iff.mpr hq)

theorem oneToOne_iff (h : Sound s pending) : OneToOne s ↔ s.lost = [] := by
  have hlength := h.lost_perm.length_eq
  have hemitted := h.emitted.length_eq
  simp only [List.length_map, List.length_append] at hlength hemitted
  constructor
  · intro hperm
    have heq := hperm.length_eq
    simp only [List.length_map] at heq
    exact List.eq_nil_of_length_eq_zero (by omega)
  · intro hnone
    obtain rfl : pending = [] := by
      apply List.eq_nil_of_length_eq_zero
      rw [← hlength, hnone, List.length_nil]
    exact h.emitted.symm

/-- A reference to a registered pointer is defined unless the pointer is lost. -/
theorem isDefined_iff (h : Sound s pending) {p : String} (hmem : (p, name) ∈ s.refs) :
    IsDefined s name (some p) ↔ p ∉ s.lost := by
  constructor
  · rintro ⟨q, heq, -, a, ⟨ha, href⟩, -⟩ hlost
    obtain rfl := Option.some.inj heq
    exact (mem_lost.mp hlost).2 a ha (congrArg Prod.fst href)
  · intro hfound
    have hplace := h.emitted.mem_iff.mp (List.mem_map.mpr ⟨(p, name), hmem, rfl⟩)
    rcases List.mem_append.mp hplace with hpending | halias
    · exact absurd (h.mem_lost_iff.mpr (List.mem_map_of_mem hpending)) hfound
    · obtain ⟨a, ha, href⟩ := List.mem_map.mp halias
      refine ⟨p, rfl, Entries.lookup_of_mem h.distinctPointers hmem, a, ⟨ha, href⟩, ?_⟩
      rintro b ⟨hb, hbref⟩
      exact List.inj_on_of_nodup_map h.aliases_nodup hb ha (hbref.trans href.symm)

end Sound

/-! ## Calls of which some fail -/

/-- Calls from one state to another, with their outcomes; a call is made whatever came of those before. -/
inductive Calls (document : Data) (s : State) : List (Call × Except Failure TypeNode) → State → Prop
  | none : Calls document s [] s
  | call {done : List (Call × Except Failure TypeNode)} {t u : State} {c : Call} {result : Except Failure TypeNode} :
      Calls document s done t → Id.run ((c.run document).run t) = (result, u) →
      Calls document s (done ++ [(c, result)]) u

variable {done more : List (Call × Except Failure TypeNode)}

theorem Calls.append (hst : Calls document s done t) (htu : Calls document t more u) : Calls document s (done ++ more) u := by
  induction htu with
  | none => rwa [List.append_nil]
  | call _ hrun ih =>
    rw [← List.append_assoc]
    exact .call ih hrun

/-- The pointers that calls may meet. -/
def textsOf (document : Data) (done : List (Call × Except Failure TypeNode)) : List String :=
  document.pointers ++ done.flatMap fun call => call.1.pointers

theorem After.mono {more : List String} (h : After texts s t) (hsub : texts ⊆ more) : After more s t :=
  { h with met := fun p hp => (h.met p hp).imp_right fun hp => hsub hp }

/-- What calls keep: some more aliases may be pending, and what they answer is settled. -/
theorem Calls.invariant (h : Calls document s done t) (hs : Sound s pending) :
    ∃ broken, Sound t (broken ++ pending) ∧ After (textsOf document done) s t ∧
      ∀ call ∈ done, ∀ type, call.2 = .ok type → Settled t.refs type.leaves := by
  induction h with
  | none => exact ⟨[], hs, .refl s, by simp⟩
  | @call done t u c result _ hrun ih =>
    obtain ⟨broken, ht, hafter, hanswers⟩ := ih
    have hdone : textsOf document done ⊆ textsOf document (done ++ [(c, result)]) := by
      simp [textsOf]
    have hcall : document.pointers ++ c.pointers ⊆ textsOf document (done ++ [(c, result)]) := by
      simp [textsOf]
    have hbefore : ∀ {u : State}, t.refs <+: u.refs → ∀ call ∈ done, ∀ type, call.2 = .ok type → Settled u.refs type.leaves :=
      fun hgrows call hmem type htype => (hanswers call hmem type htype).mono hgrows
    cases result with
    | ok type =>
      have hkept := Call.kept ht hrun
      refine ⟨broken, hkept.sound, (hafter.mono hdone).trans (hkept.after.mono hcall), ?_⟩
      intro call hmem type' htype
      rcases List.mem_append.mp hmem with hmem | hmem
      · exact hbefore hkept.after.refs call hmem type' htype
      · obtain rfl := List.mem_singleton.mp hmem
        obtain rfl := Except.ok.inj htype
        exact (Call.keeps ht hrun).2
    | error failure =>
      obtain ⟨opened, hbroken⟩ := Call.broken ht hrun
      refine ⟨_, (List.append_assoc _ _ _).symm ▸ hbroken.sound, (hafter.mono hdone).trans (hbroken.after.mono hcall), ?_⟩
      intro call hmem type htype
      rcases List.mem_append.mp hmem with hmem | hmem
      · exact hbefore hbroken.after.refs call hmem type htype
      · obtain rfl := List.mem_singleton.mp hmem
        cases htype

/-- Calls that succeed lose nothing. -/
theorem Calls.kept (h : Calls document s done t) (hs : Sound s pending) (hok : ∀ call ∈ done, ∃ type, call.2 = .ok type) :
    Sound t pending := by
  induction h with
  | none => exact hs
  | @call done t u c result _ hrun ih =>
    have ht := ih fun call hmem => hok call (List.mem_append_left _ hmem)
    obtain ⟨type, rfl⟩ := hok (c, result) (by simp)
    exact (Call.kept ht hrun).sound

/-- What is lost is never emitted. -/
theorem Calls.lost_subset (h : Calls document s done t) (hs : Sound s pending) : s.lost ⊆ t.lost := by
  intro p hp
  obtain ⟨broken, ht, -, -⟩ := h.invariant hs
  apply ht.mem_lost_iff.mpr
  rw [List.map_append]
  exact List.mem_append_right _ (hs.mem_lost_iff.mp hp)

/-- From the beginning on: what is pending is what failing calls left. -/
theorem Calls.sound (h : Calls document {} done t) : ∃ broken, Sound t broken ∧
    ∀ call ∈ done, ∀ type, call.2 = .ok type → Settled t.refs type.leaves := by
  obtain ⟨broken, ht, -, hanswers⟩ := h.invariant .start
  rw [List.append_nil] at ht
  exact ⟨broken, ht, hanswers⟩

namespace Call.Broken

variable {c : Call} {opened : List (String × String)}

theorem lost_perm (h : c.Broken document texts pending s failure t opened) (hs : Sound s pending) :
    t.lost.Perm (opened.map Prod.fst ++ s.lost) := by
  apply (List.map_perm_map_iff (Option.some_injective _)).mp
  apply h.sound.lost_perm.trans
  simp only [List.map_append, List.map_map, Function.comp_def]
  exact hs.lost_perm.symm.append_left _

theorem oneToOne_iff (h : c.Broken document texts pending s failure t opened) (hs : Sound s pending) :
    OneToOne t ↔ OneToOne s ∧ opened.map Prod.fst = [] := by
  have hlost := h.lost_perm hs
  rw [h.sound.oneToOne_iff, hs.oneToOne_iff]
  constructor
  · intro hnone
    rw [hnone] at hlost
    have hnil := List.append_eq_nil_iff.mp hlost.symm.eq_nil
    exact ⟨hnil.2, hnil.1⟩
  · rintro ⟨hnone, hopened⟩
    rw [hnone, hopened] at hlost
    exact hlost.eq_nil

end Call.Broken

/-- What a failing call does to the synthesis that goes on after it. -/
structure Interruption (document : Data) (done : List (Call × Except Failure TypeNode)) (s : State) (c : Call)
    (failure : Failure) (t : State) (opened : List String) : Prop where
  stops : c.Stops document opened failure
  unmet : ∀ p ∈ opened, s.refs.lookup p = none
  /-- The pointers that were entered are lost, and none besides. -/
  lost : t.lost.Perm (opened ++ s.lost)
  distinct : t.lost.Nodup
  oneToOne : OneToOne t ↔ OneToOne s ∧ opened = []
  succeeding : ∀ more u, Calls document t more u → (∀ call ∈ more, ∃ type, call.2 = .ok type) → u.lost.Perm t.lost
  /-- What is lost stays so, whatever is called. -/
  stays : ∀ more u, Calls document t more u → t.lost ⊆ u.lost
  dangling : ∀ more u, Calls document t more u → ∀ p ∈ u.lost, ∀ ref, ref.find? "$ref" = some (.str p) →
    ∃ name, Runs (typeOf document ref) u (.reference name (some p)) u ∧ ¬ IsDefined u name (some p)
  answers : ∀ more u, Calls document t more u → ∀ call ∈ done ++ more, ∀ type name pointer, call.2 = .ok type →
    .reference name pointer ∈ type.leaves → ∃ p, pointer = some p ∧ (IsDefined u name pointer ↔ p ∉ u.lost)
  aliases : ∀ more u, Calls document t more u → ∀ a ∈ u.aliases, ∀ name pointer, .reference name pointer ∈ a.leaves →
    ∃ p, pointer = some p ∧ (IsDefined u name pointer ↔ p ∉ u.lost)

theorem typeOf_known (hknown : s.refs.lookup pointer = some name) (hfind : schema.find? "$ref" = some (.str pointer)) :
    Runs (typeOf document schema) s (.reference name (some pointer)) s := by
  obtain ⟨depth, hdepth⟩ : ∃ depth, depthFor document schema = depth + 1 := by
    have hfor : s.reach document schema ≤ depthFor document schema := reach_le_depthFor s
    have hsize := schema.one_le_size
    unfold State.reach at hfor
    exact ⟨depthFor document schema - 1, by omega⟩
  unfold typeOf
  rw [hdepth]
  exact runs_typeOfAt_succ_iff.mpr (.inl ⟨Reference.isReference_of_find? hfind, pointer, name, hfind, rfl, .known hknown⟩)

theorem Sound.defined_or_lost (h : Sound s pending) {leaves : List TypeNode} (hleaves : Settled s.refs leaves)
    {pointer : Option String} (hleaf : .reference name pointer ∈ leaves) :
    ∃ p, pointer = some p ∧ (IsDefined s name pointer ↔ p ∉ s.lost) := by
  obtain ⟨p, rfl, hmem⟩ := hleaves _ hleaf
  exact ⟨p, rfl, h.isDefined_iff hmem⟩

/-- A failing call loses the pointers that it enters on the way to where it stops: registered pointers and aliases
are one to one after it just as before if it enters none, and else they never are again. -/
theorem calls_interrupted {c : Call} (hbefore : Calls document {} done s)
    (hrun : Id.run ((c.run document).run s) = (.error failure, t)) :
    ∃ opened, Interruption document done s c failure t opened := by
  obtain ⟨pending, hs, -⟩ := hbefore.sound
  obtain ⟨opened, h⟩ := Call.broken hs hrun
  have hall : ∀ {more u}, Calls document t more u → ∃ broken, Sound u broken ∧
      ∀ call ∈ done ++ more, ∀ type, call.2 = .ok type → Settled u.refs type.leaves := by
    intro more u hmore
    obtain ⟨broken, hu, hanswers⟩ := ((hbefore.call hrun).append hmore).sound
    refine ⟨broken, hu, ?_⟩
    intro call hmem
    apply hanswers call
    rcases List.mem_append.mp hmem with hmem | hmem
    · exact List.mem_append_left _ (List.mem_append_left _ hmem)
    · exact List.mem_append_right _ hmem
  refine ⟨opened.map Prod.fst, ?_⟩
  constructor
  case stops => exact h.stops
  case unmet =>
    intro p hp
    obtain ⟨r, hr, rfl⟩ := List.mem_map.mp hp
    exact h.unmet r hr
  case lost => exact h.lost_perm hs
  case distinct => exact h.sound.distinctPointers.filter _
  case oneToOne => exact h.oneToOne_iff hs
  case succeeding =>
    intro more u hmore hok
    have hu := hmore.kept h.sound hok
    exact (List.map_perm_map_iff (Option.some_injective _)).mp (hu.lost_perm.trans h.sound.lost_perm.symm)
  case stays => exact fun more u hmore => hmore.lost_subset h.sound
  case dangling =>
    intro more u hmore p hp ref hfind
    obtain ⟨broken, hu, -⟩ := hall hmore
    obtain ⟨⟨q, name⟩, hmem, rfl⟩ := List.mem_map.mp (mem_lost.mp hp).1
    refine ⟨name, typeOf_known (Entries.lookup_of_mem hu.distinctPointers hmem) hfind, ?_⟩
    exact fun hdefined => (hu.isDefined_iff hmem).mp hdefined hp
  case answers =>
    intro more u hmore call hmem type name pointer htype hleaf
    obtain ⟨broken, hu, hanswers⟩ := hall hmore
    exact hu.defined_or_lost (hanswers call hmem type htype) hleaf
  case aliases =>
    intro more u hmore a ha name pointer hleaf
    obtain ⟨broken, hu, -⟩ := hall hmore
    exact hu.defined_or_lost (hu.settled a ha) hleaf

end

/-! ## An example -/

/-- A record whose property leads nowhere. -/
def torn : Data := .object [
  ("A", .object [("type", .str "object"), ("properties", .object [("x", refTo "#/missing")])])]

def tornState : State where
  refs := [("#/A", "A")]
  names := ["A"]

theorem run_torn : Id.run (((Call.typeOf (refTo "#/A")).run torn).run {}) =
    (.error (.unresolvedReference "#/missing"), tornState) := rfl

theorem calls_interrupted_torn : Calls torn {} [] {} ∧
    Id.run (((Call.typeOf (refTo "#/A")).run torn).run {}) = (.error (.unresolvedReference "#/missing"), tornState) ∧
    ∃ opened, Interruption torn [] {} (.typeOf (refTo "#/A")) (.unresolvedReference "#/missing") tornState opened :=
  ⟨.none, run_torn, calls_interrupted .none run_torn⟩

/-- After a call that fails the same call succeeds, with a reference that is never defined. -/
theorem exists_dangling : Calls torn {} [(.typeOf (refTo "#/A"), .error (.unresolvedReference "#/missing"))] tornState ∧
    ¬ OneToOne tornState ∧ Runs ((Call.typeOf (refTo "#/A")).run torn) tornState (.reference "A" (some "#/A")) tornState ∧
    ∀ more u, Calls torn tornState more u → ¬ IsDefined u "A" (some "#/A") := by
  refine ⟨.call .none run_torn, ?_, rfl, ?_⟩
  · intro hperm
    exact absurd hperm.length_eq (by decide)
  · rintro more u hmore ⟨p, heq, -, a, ⟨ha, href⟩, -⟩
    obtain rfl := Option.some.inj heq
    have htorn : Sound tornState [(some "#/A", "A")] := Sound.start.entered rfl "A"
    have hlost : "#/A" ∈ u.lost := hmore.lost_subset htorn (by decide)
    exact (mem_lost.mp hlost).2 a ha (congrArg Prod.fst href)

end ClientBindings.Schema
