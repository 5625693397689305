import ClientBindings.Proofs.Schema.Aliases

/-! The order of calls shows in names only. Which call meets a pointer first decides how its alias is
numbered and where it stands; the types, read with pointers in place of names, are those that the
document describes. The invariant: whatever an alias says, asking again for its target says the same. -/

namespace ClientBindings

/-- The alias with every name of an alias forgotten, its own among them. -/
def Alias.anonymous : Alias → Alias
  | .synonym _ pointer type comment => .synonym "" pointer type.anonymous comment
  | .enumeration _ pointer members comment => .enumeration "" pointer members comment

namespace Schema

section
variable {document : Data} {typeOf other : Data → M TypeNode} {s t u v : State}

/-! ## Types do not depend on the state -/

/-- Whatever the states, both yield the same type up to names. -/
def Agree (typeOf other : Data → M TypeNode) : Prop :=
  ∀ schema s t type u v type', Runs (typeOf schema) s type t → Runs (other schema) u type' v →
    type.anonymous = type'.anonymous

theorem Agree.parts (h : Agree typeOf other) {parts : List Data} {ts us : List TypeNode}
    (hts : Runs (parts.mapM typeOf) s ts t) (hus : Runs (parts.mapM other) u us v) :
    ts.map TypeNode.anonymous = us.map TypeNode.anonymous := by
  induction parts generalizing s u ts us with
  | nil =>
    obtain ⟨rfl, _⟩ := Runs.mapM_nil_iff.mp hts
    obtain ⟨rfl, _⟩ := Runs.mapM_nil_iff.mp hus
    rfl
  | cons part parts ih =>
    obtain ⟨type, _, _, hpart, hrest, rfl⟩ := Runs.mapM_cons_iff.mp hts
    obtain ⟨type', _, _, hpart', hrest', rfl⟩ := Runs.mapM_cons_iff.mp hus
    simp only [List.map_cons, h _ _ _ _ _ _ _ hpart hpart', ih hrest hrest']

theorem typeOfAt_agree (document : Data) (depth depth' : Nat) :
    Agree (typeOfAt document depth) (typeOfAt document depth') := by
  induction depth generalizing depth' with
  | zero => exact fun _ _ _ _ _ _ _ hrun => absurd hrun Runs.throw_iff
  | succ depth ih =>
    intro schema s t type u v type' hrun hrun'
    cases depth' with
    | zero => exact absurd hrun' Runs.throw_iff
    | succ depth' =>
      rcases runs_typeOfAt_succ_iff.mp hrun with
        ⟨href, pointer, name, hfind, rfl, _⟩ | ⟨href, plan, hplan, ts, hts, rfl⟩
      · rcases runs_typeOfAt_succ_iff.mp hrun' with
          ⟨_, pointer', name', hfind', rfl, _⟩ | ⟨hnot, _⟩
        · obtain rfl : pointer = pointer' := by simpa [hfind] using hfind'
          rfl
        · simp [href] at hnot
      · rcases runs_typeOfAt_succ_iff.mp hrun' with ⟨hnot, _⟩ | ⟨_, plan', hplan', us, hus, rfl⟩
        · simp [href] at hnot
        · obtain rfl : plan = plan' := by simpa [hplan] using hplan'
          exact (Plan.regular_of hplan).anonymous ts us ((ih depth').parts hts hus)

theorem Call.agree {c : Call} {type type' : TypeNode} (h : Runs (c.run document) s type t)
    (h' : Runs (c.run document) u type' v) : type.anonymous = type'.anonymous := by
  cases c with
  | typeOf schema => exact typeOfAt_agree document _ _ schema _ _ _ _ _ _ h h'
  | recordOf properties required additional =>
    obtain ⟨plan, hplan, ts, hts, rfl⟩ := (follows_record _ _ _ s type t).mp h
    obtain ⟨plan', hplan', us, hus, rfl⟩ := (follows_record _ _ _ u type' v).mp h'
    obtain rfl : plan = plan' := by simpa [hplan] using hplan'
    exact (Plan.regular_record hplan).anonymous ts us ((typeOfAt_agree document _ _).parts hts hus)

/-! ## Aliases say what their targets say -/

/-- The alias is what the document has at its pointer; its type is the answer to asking again. -/
inductive Described (document : Data) (s : State) : Alias → Prop where
  | enumeration {name pointer : String} {e : Entry} {members : List EnumMember} :
      entryOf document pointer = .ok e → e.members = some members →
      Described document s (.enumeration name (some pointer) members e.comment)
  | synonym {name pointer : String} {e : Entry} {type : TypeNode} {depth : Nat} :
      entryOf document pointer = .ok e → e.members = none →
      Runs (typeOfAt document depth e.target) s type s →
      Described document s (.synonym name (some pointer) type e.comment)

theorem Described.mono {a : Alias} (h : Described document s a) (hseen : s.refs <+: t.refs) :
    Described document t a := by
  cases h with
  | enumeration hentry hmembers => exact .enumeration hentry hmembers
  | synonym hentry hmembers hrun =>
    exact .synonym hentry hmembers (typeOfAt_repeats document _ _ _ _ _ t hrun hseen)

theorem described_agree {a b : Alias} (ha : Described document s a) (hb : Described document t b)
    (hpointer : a.pointer = b.pointer) : a.anonymous = b.anonymous := by
  cases ha with
  | @enumeration _ pointer e members hentry hmembers =>
    cases hb with
    | enumeration hentry' hmembers' =>
      obtain rfl : pointer = _ := by simpa [Alias.pointer] using hpointer
      obtain rfl := Except.ok.inj (hentry.symm.trans hentry')
      obtain rfl := Option.some.inj (hmembers.symm.trans hmembers')
      rfl
    | synonym hentry' hmembers' _ =>
      obtain rfl : pointer = _ := by simpa [Alias.pointer] using hpointer
      obtain rfl := Except.ok.inj (hentry.symm.trans hentry')
      simp [hmembers] at hmembers'
  | @synonym _ pointer e type depth hentry hmembers hrun =>
    cases hb with
    | enumeration hentry' hmembers' =>
      obtain rfl : pointer = _ := by simpa [Alias.pointer] using hpointer
      obtain rfl := Except.ok.inj (hentry.symm.trans hentry')
      simp [hmembers] at hmembers'
    | synonym hentry' _ hrun' =>
      obtain rfl : pointer = _ := by simpa [Alias.pointer] using hpointer
      obtain rfl := Except.ok.inj (hentry.symm.trans hentry')
      have hsame := typeOfAt_agree document _ _ _ _ _ _ _ _ _ hrun hrun'
      simp only [Alias.anonymous, hsame]

/-- Runs that emit nothing but described aliases. -/
def Describes (document : Data) (typeOf : Data → M TypeNode) : Prop :=
  ∀ schema s type t, Runs (typeOf schema) s type t → (∀ a ∈ s.aliases, Described document s a) →
    ∀ a ∈ t.aliases, Described document t a

theorem Describes.parts (h : Describes document typeOf) {parts : List Data} {ts : List TypeNode}
    (hrun : Runs (parts.mapM typeOf) s ts t) (hs : ∀ a ∈ s.aliases, Described document s a) :
    ∀ a ∈ t.aliases, Described document t a := by
  induction parts generalizing s ts with
  | nil =>
    obtain ⟨_, rfl⟩ := Runs.mapM_nil_iff.mp hrun
    exact hs
  | cons part parts ih =>
    obtain ⟨type, u, rest, hpart, hrest, rfl⟩ := Runs.mapM_cons_iff.mp hrun
    exact ih hrest (h _ _ _ _ hpart hs)

theorem typeOfAt_describes (document : Data) (depth : Nat) : Describes document (typeOfAt document depth) := by
  induction depth with
  | zero => exact fun _ _ _ _ hrun => absurd hrun Runs.throw_iff
  | succ depth ih =>
    intro schema s type t hrun hs
    have hgrows := typeOfAt_grows document depth
    rcases runs_typeOfAt_succ_iff.mp hrun with ⟨_, pointer, name, _, _, hstep⟩ | ⟨_, _, _, _, hts, _⟩
    · have hseen := (hgrows.refStep hstep).1
      cases hstep with
      | known => exact hs
      | enumeration hnew hentry hmembers =>
        intro a ha
        rcases List.mem_append.mp ha with ha | ha
        · exact (hs a ha).mono hseen
        · obtain rfl : a = _ := by simpa using ha
          exact .enumeration hentry hmembers
      | synonym hnew hentry hmembers hinner =>
        intro a ha
        rcases List.mem_append.mp ha with ha | ha
        · exact (ih _ _ _ _ hinner (fun b hb => (hs b hb).mono (List.prefix_append _ _)) a ha).mono
            (List.prefix_refl _)
        · obtain rfl : a = _ := by simpa using ha
          exact .synonym hentry hmembers
            (typeOfAt_repeats document depth _ _ _ _ _ hinner (List.prefix_refl _))
    · exact ih.parts hts hs

theorem Session.described {done : List (Call × TypeNode)} (h : Session document done s) :
    ∀ a ∈ s.aliases, Described document s a := by
  induction h with
  | start => exact fun a ha => absurd ha List.not_mem_nil
  | @call done s t c type _ hrun ih =>
    cases c with
    | typeOf schema => exact typeOfAt_describes document _ schema s type t hrun ih
    | recordOf properties required additional =>
      obtain ⟨_, _, _, hts, _⟩ := (follows_record _ _ _ s type t).mp hrun
      exact (typeOfAt_describes document _).parts hts ih

/-! ## Which pointers are met -/

/-- Pointers that contain, with each of them, all that is met below its target. -/
def Closed (document : Data) (met : String → Prop) : Prop :=
  ∀ p, met p → ∃ e, entryOf document p = .ok e ∧ (e.members = none →
    ∃ depth s type t, Runs (typeOfAt document depth e.target) s type t ∧ ∀ r ∈ t.refs, met r.1)

/-- A run meets nothing outside a closed set that holds what another run over the same schema met. -/
def Within (met : String → Prop) (typeOf other : Data → M TypeNode) : Prop :=
  ∀ schema s t type u v type', Runs (typeOf schema) s type t → Runs (other schema) u type' v →
    (∀ r ∈ v.refs, met r.1) → (∀ r ∈ s.refs, met r.1) → ∀ r ∈ t.refs, met r.1

theorem Within.parts {met : String → Prop} (h : Within met typeOf other) (hgrows : Grows other)
    {parts : List Data} {ts us : List TypeNode} (hts : Runs (parts.mapM typeOf) s ts t)
    (hus : Runs (parts.mapM other) u us v) (hv : ∀ r ∈ v.refs, met r.1) (hs : ∀ r ∈ s.refs, met r.1) :
    ∀ r ∈ t.refs, met r.1 := by
  induction parts generalizing s u ts us with
  | nil =>
    obtain ⟨_, rfl⟩ := Runs.mapM_nil_iff.mp hts
    exact hs
  | cons part parts ih =>
    obtain ⟨type, s', _, hpart, hrest, rfl⟩ := Runs.mapM_cons_iff.mp hts
    obtain ⟨type', u', _, hpart', hrest', rfl⟩ := Runs.mapM_cons_iff.mp hus
    have hseen := hgrows.parts hrest'
    exact ih hrest hrest' (h _ _ _ _ _ _ _ hpart hpart' (fun r hr => hv r (hseen.subset hr)) hs)

theorem typeOfAt_within {met : String → Prop} (hmet : Closed document met) (depth depth' : Nat) :
    Within met (typeOfAt document depth) (typeOfAt document depth') := by
  induction depth generalizing depth' with
  | zero => exact fun _ _ _ _ _ _ _ hrun => absurd hrun Runs.throw_iff
  | succ depth ih =>
    intro schema s t type u v type' hrun hrun' hv hs
    cases depth' with
    | zero => exact absurd hrun' Runs.throw_iff
    | succ depth' =>
      have hgrows' := typeOfAt_grows document depth'
      rcases runs_typeOfAt_succ_iff.mp hrun with
        ⟨href, pointer, name, hfind, rfl, hstep⟩ | ⟨href, plan, hplan, ts, hts, rfl⟩
      · rcases runs_typeOfAt_succ_iff.mp hrun' with
          ⟨_, pointer', name', hfind', rfl, hstep'⟩ | ⟨hnot, _⟩
        · obtain rfl : pointer = pointer' := by simpa [hfind] using hfind'
          have hpointer : met pointer := hv _ (Entries.mem_of_lookup (hgrows'.refStep hstep').2)
          have hentered : ∀ name, ∀ r ∈ (s.entered pointer name).refs, met r.1 := by
            intro name r hr
            rcases List.mem_append.mp hr with hr | hr
            · exact hs r hr
            · obtain rfl : r = (pointer, name) := by simpa using hr
              exact hpointer
          cases hstep with
          | known => exact hs
          | enumeration => exact hentered _
          | synonym hnew hentry hmembers hinner =>
            obtain ⟨e, hentry', hbelow⟩ := hmet pointer hpointer
            obtain rfl := Except.ok.inj (hentry.symm.trans hentry')
            obtain ⟨depth'', s', type'', t', hother, ht'⟩ := hbelow hmembers
            have hinside := ih depth'' _ _ _ _ _ _ _ hinner hother ht' (hentered _)
            exact hinside
        · simp [href] at hnot
      · rcases runs_typeOfAt_succ_iff.mp hrun' with ⟨hnot, _⟩ | ⟨_, plan', hplan', us, hus, rfl⟩
        · simp [href] at hnot
        · obtain rfl : plan = plan' := by simpa [hplan] using hplan'
          exact (ih depth').parts hgrows' hts hus hv hs

theorem Call.within {met : String → Prop} (hmet : Closed document met) {c : Call} {type type' : TypeNode}
    (h : Runs (c.run document) s type t) (h' : Runs (c.run document) u type' v)
    (hv : ∀ r ∈ v.refs, met r.1) (hs : ∀ r ∈ s.refs, met r.1) : ∀ r ∈ t.refs, met r.1 := by
  cases c with
  | typeOf schema => exact typeOfAt_within hmet _ _ schema _ _ _ _ _ _ h h' hv hs
  | recordOf properties required additional =>
    obtain ⟨plan, hplan, ts, hts, _⟩ := (follows_record _ _ _ s type t).mp h
    obtain ⟨plan', hplan', us, hus, _⟩ := (follows_record _ _ _ u type' v).mp h'
    obtain rfl : plan = plan' := by simpa [hplan] using hplan'
    exact (typeOfAt_within hmet _ _).parts (typeOfAt_grows document _) hts hus hv hs

/-- The pointers of a session are closed. -/
theorem Session.closed {done : List (Call × TypeNode)} (h : Session document done s) :
    Closed document fun p => ∃ name, (p, name) ∈ s.refs := by
  rintro p ⟨name, hmem⟩
  obtain ⟨q, hq, _, a, ⟨ha, href⟩, _⟩ := h.invariant.1.isDefined ⟨p, rfl, hmem⟩
  obtain rfl : p = q := Option.some.inj hq
  cases h.described a ha with
  | enumeration hentry hmembers =>
    obtain ⟨rfl, _⟩ : _ = p ∧ _ = name := by simpa [Alias.ref, Alias.pointer, Alias.name] using href
    exact ⟨_, hentry, fun hnone => by simp [hmembers] at hnone⟩
  | synonym hentry hmembers hrun =>
    obtain ⟨rfl, _⟩ : _ = p ∧ _ = name := by simpa [Alias.ref, Alias.pointer, Alias.name] using href
    exact ⟨_, hentry, fun _ => ⟨_, s, _, s, hrun, fun r hr => ⟨r.2, hr⟩⟩⟩

/-! ## Two sessions -/

variable {done done' : List (Call × TypeNode)}

/-- Whether a pointer has an alias. -/
def Aliased (s : State) (pointer : String) : Prop := ∃ a ∈ s.aliases, a.pointer = some pointer

theorem Session.aliased_iff (h : Session document done s) (p : String) :
    Aliased s p ↔ ∃ name, (p, name) ∈ s.refs := by
  have hperm := h.invariant.1.emitted
  constructor
  · rintro ⟨a, ha, hpointer⟩
    have hmem := hperm.mem_iff.mpr (List.mem_map_of_mem (f := Alias.ref) ha)
    obtain ⟨r, hr, heq⟩ := List.mem_map.mp hmem
    obtain ⟨hfst, hsnd⟩ : some r.1 = a.pointer ∧ r.2 = a.name := by simpa [Alias.ref] using heq
    obtain rfl : r.1 = p := by simpa [hpointer] using hfst
    exact ⟨r.2, hr⟩
  · rintro ⟨name, hmem⟩
    have halias := hperm.mem_iff.mp (List.mem_map.mpr ⟨(p, name), hmem, rfl⟩)
    obtain ⟨a, ha, heq⟩ := List.mem_map.mp halias
    exact ⟨a, ha, congrArg Prod.fst heq⟩

/-- What is met by calls that another session makes too is met there. -/
theorem Session.refs_within (h : Session document done s) (h' : Session document done' t)
    (hcalls : ∀ call ∈ done, ∃ type, (call.1, type) ∈ done') :
    ∀ r ∈ s.refs, ∃ name, (r.1, name) ∈ t.refs := by
  have hclosed := h'.closed
  induction h with
  | start => exact fun r hr => absurd hr List.not_mem_nil
  | @call done s u c type _ hrun ih =>
    obtain ⟨type', hmem⟩ := hcalls (c, type) (by simp)
    have hagain := (h'.invariant.2 _ hmem).2
    exact Call.within hclosed hrun hagain (fun r hr => ⟨r.2, hr⟩)
      (ih fun call hcall => hcalls call (List.mem_append_left _ hcall))

/-- Two sessions on one document agree. A call that both make gets the same type and a pointer that both
alias the same content, names of aliases apart. Pointers met by calls of the first that the second makes
too are aliased in both; so two sessions that make the same calls in different orders alias the same
pointers. -/
theorem sessions_agree (h : Session document done s) (h' : Session document done' t) :
    (∀ c type type', (c, type) ∈ done → (c, type') ∈ done' → type.anonymous = type'.anonymous) ∧
    (∀ a ∈ s.aliases, ∀ b ∈ t.aliases, a.pointer = b.pointer → a.anonymous = b.anonymous) ∧
    (done.map Prod.fst ⊆ done'.map Prod.fst → ∀ p, Aliased s p → Aliased t p) ∧
    ((done.map Prod.fst).Perm (done'.map Prod.fst) → ∀ p, Aliased s p ↔ Aliased t p) := by
  have hincl : ∀ {done done' : List (Call × TypeNode)} {s t : State}, Session document done s →
      Session document done' t → done.map Prod.fst ⊆ done'.map Prod.fst → ∀ p, Aliased s p → Aliased t p := by
    intro done done' s t h h' hsub p hp
    obtain ⟨name, hmem⟩ := (h.aliased_iff p).mp hp
    apply (h'.aliased_iff p).mpr
    refine h.refs_within h' ?_ (p, name) hmem
    intro call hcall
    obtain ⟨⟨c, type⟩, hother, heq⟩ := List.mem_map.mp (hsub (List.mem_map_of_mem hcall))
    exact ⟨type, heq ▸ hother⟩
  refine ⟨?_, ?_, hincl h h', ?_⟩
  · intro c type type' hmem hmem'
    exact Call.agree (h.invariant.2 _ hmem).2 (h'.invariant.2 _ hmem').2
  · intro a ha b hb hpointer
    exact described_agree (h.described a ha) (h'.described b hb) hpointer
  · intro hperm p
    exact ⟨hincl h h' hperm.subset p, hincl h' h hperm.symm.subset p⟩

end

/-! ## An example -/

def circleForth : List (Call × TypeNode) := [
  (.typeOf (refTo "#/a"), .reference "A" (some "#/a")), (.typeOf (refTo "#/A"), .reference "A2" (some "#/A"))]

def circleBack : List (Call × TypeNode) := [
  (.typeOf (refTo "#/A"), .reference "A" (some "#/A")), (.typeOf (refTo "#/a"), .reference "A2" (some "#/a"))]

def circleBackState : State where
  refs := [("#/A", "A"), ("#/a", "A2"), ("#/b", "B")]
  names := ["B", "A2", "A"]
  aliases := [
    .enumeration "A" (some "#/A") [⟨"x", .str "x"⟩, ⟨"_1", .int 1⟩] .null,
    .synonym "B" (some "#/b") (.union [.reference "A2" (some "#/a"), .reference "A" (some "#/A")]) .null,
    .synonym "A2" (some "#/a") (.array (.reference "B" (some "#/b"))) .null]

theorem sessions_agree_circle :
    Session circle circleForth circleState ∧ Session circle circleBack circleBackState ∧
    (circleForth.map Prod.fst).Perm (circleBack.map Prod.fst) ∧
    (∀ a ∈ circleState.aliases, ∀ b ∈ circleBackState.aliases, a.pointer = b.pointer →
      a.anonymous = b.anonymous) ∧
    ∀ p, Aliased circleState p ↔ Aliased circleBackState p := by
  have hforth₁ : Session circle (circleForth.take 1) circleState := .call .start rfl
  have hforth : Session circle circleForth circleState := .call hforth₁ rfl
  have hback₁ : Session circle (circleBack.take 1) ⟨[("#/A", "A")], circleBackState.aliases.take 1, ["A"]⟩ :=
    .call .start rfl
  have hback : Session circle circleBack circleBackState := .call hback₁ rfl
  have hperm : (circleForth.map Prod.fst).Perm (circleBack.map Prod.fst) := .swap _ _ _
  obtain ⟨_, haliases, _, hpointers⟩ := sessions_agree hforth hback
  exact ⟨hforth, hback, hperm, haliases, hpointers hperm⟩

end Schema
end ClientBindings
