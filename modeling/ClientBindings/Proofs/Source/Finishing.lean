import ClientBindings.Proofs.Source.Opening
import ClientBindings.Proofs.Source.Bases

/-! Whether types are written at all, however deep writing may nest. -/

namespace ClientBindings

open Draft

/-- What stops a writer that does not go too deep: the name of a field that is no text, or a value that has none. -/
def Unwritable (f : Failure) : Prop := f = .noMember ∨ f = .wrongKind ∨ f = .badValue

theorem unwritable_guarded {α : Type} {condition : Bool} {a : α} {e : Failure}
    (h : Result.guarded condition a = .error e) : Unwritable e := by
  cases condition with
  | true => cases h
  | false => exact .inr (.inr (Except.error.inj h).symm)

theorem unwritable_noted {text : Data} {deprecated : Bool} {e : Failure}
    (h : Remark.noted text deprecated = .error e) : Unwritable e := by
  unfold Remark.noted at h
  split at h
  · cases h
  split at h
  · rcases Result.bind_eq_error_iff.mp h with h | ⟨_, _, h⟩
    · exact unwritable_guarded h
    · cases h
  · cases h

namespace Field

theorem unwritable_isAttribute {f : Field} {e : Failure} (h : f.isAttribute = .error e) : Unwritable e := by
  unfold isAttribute at h
  split at h
  · cases h
  · exact Or.inl (Except.error.inj h).symm

theorem unwritable_hintPart {f : Field} {e : Failure} (h : f.hintPart = .error e) : Unwritable e := by
  unfold hintPart at h
  split at h
  · cases h
  split at h
  · cases h
  · exact .inr (.inl (Except.error.inj h).symm)

theorem unwritable_allAttributes {fields : List Field} {e : Failure} (h : allAttributes fields = .error e) :
    Unwritable e := by
  induction fields with
  | nil => cases h
  | cons f fields ih =>
    rw [allAttributes, Result.bind_eq_error_iff] at h
    rcases h with h | ⟨isAttribute, _, h⟩
    · exact unwritable_isAttribute h
    · split at h
      · exact ih h
      · cases h

theorem unwritable_distinct {fields : List Field} {e : Failure} (h : distinct fields = .error e) : Unwritable e := by
  rw [distinct, Result.bind_eq_error_iff] at h
  rcases h with h | ⟨_, _, h⟩
  swap
  · cases h
  obtain ⟨f, _, h⟩ := Result.exists_of_mapM_eq_error h
  rcases Result.bind_eq_error_iff.mp h with h | ⟨_, _, h⟩
  swap
  · cases h
  unfold Data.asKey at h
  split at h
  · cases h
  · exact .inr (.inl (Except.error.inj h).symm)

theorem allAttributes_eq_ok_true_iff {fields : List Field} :
    allAttributes fields = .ok true ↔ ∀ f ∈ fields, f.isAttribute = .ok true := by
  induction fields with
  | nil => simp [allAttributes]
  | cons f fields ih =>
    rw [allAttributes, Result.bind_eq_ok_iff, List.forall_mem_cons, ← ih]
    constructor
    · rintro ⟨isAttribute, hf, h⟩
      cases isAttribute with
      | true => exact ⟨hf, h⟩
      | false => cases h
    · rintro ⟨hf, h⟩
      exact ⟨true, hf, h⟩

end Field

/-! ## Drafts from some draft on -/

/-- The aliases that are neither declared nor being declared. -/
def Scope.untouched (scope : Scope) (s : Draft) : List String :=
  (scope.aliases.map Prod.fst).filter fun key => (s.declared.lookup key).isNone && !s.declaring.contains key

/-- In the types of the aliases that are still to be declared, every intersection leads to others only so often. -/
def Scope.Pending (scope : Scope) (s : Draft) : Prop := ∀ key name pointer type comment,
  scope.aliases.lookup key = some (.synonym name pointer type comment) → s.declared.lookup key = none →
    key ∉ s.declaring → scope.Ends s type

/-- What is true of the drafts after `s` while some aliases are being declared and at most `n` are untouched:
nothing is declared anew, and what was certain stays so. -/
structure Draft.After (scope : Scope) (s : Draft) (declaring : List String) (n : Nat) (u : Draft) : Prop where
  declared : ∀ key d, s.declared.lookup key = some d → u.declared.lookup key = some d
  forms : ∀ key b, scope.form s key = some b → scope.form u key = some b
  barred : s.declaring ⊆ declaring
  declaring : u.declaring = declaring
  untouched : (scope.untouched u).length ≤ n

section
variable {scope : Scope} {s u v : Draft} {declaring : List String} {n : Nat}

theorem Scope.form_eq {key : String} {a : Alias} (hlookup : scope.aliases.lookup key = some a) :
    scope.form u key = (u.declared.lookup key).elim a.form fun d => some (a.formAs d) := by
  rw [Scope.form, hlookup]

namespace Draft.After

theorem congr (h : After scope s declaring n u) (hdeclared : v.declared = u.declared)
    (hdeclaring : v.declaring = u.declaring) : After scope s declaring n v where
  declared := by
    rw [hdeclared]
    exact h.declared
  forms key b hform := by
    rw [Scope.form, hdeclared]
    exact h.forms key b hform
  barred := h.barred
  declaring := hdeclaring.trans h.declaring
  untouched := by
    rw [Scope.untouched, hdeclared, hdeclaring]
    exact h.untouched

/-- An alias that starts being declared is one less untouched. -/
theorem start (h : After scope s declaring n u) {key : String} {a : Alias}
    (hlookup : scope.aliases.lookup key = some a) (hnew : u.declared.lookup key = none) (hclosed : key ∉ u.declaring) :
    ∃ m < n, After scope s (key :: declaring) m { u with declaring := key :: u.declaring } := by
  refine ⟨_, ?_, ?declared, ?forms, ?barred, ?declaring, Nat.le_refl _⟩
  case declared => exact h.declared
  case forms => exact h.forms
  case barred => exact fun other hother => List.mem_cons_of_mem _ (h.barred hother)
  case declaring => exact congrArg (key :: ·) h.declaring
  refine Nat.lt_of_lt_of_le (length_filter_lt (x := key) ?_ ?_ ?_ ?_) h.untouched
  · intro other hother
    simp only [List.contains_cons, Bool.not_or, Bool.and_eq_true] at hother ⊢
    exact ⟨hother.1, hother.2.2⟩
  · exact List.mem_map_of_mem (f := Prod.fst) (Entries.mem_of_lookup hlookup)
  · simp [hnew, hclosed]
  · simp

/-- An alias that has been declared is untouched no more. -/
theorem finish {m : Nat} {key : String} {a : Alias} {d : Declaration} (h : After scope s (key :: declaring) m u)
    (hless : m ≤ n) (hbarred : s.declaring ⊆ declaring) (hlookup : scope.aliases.lookup key = some a)
    (hnew : s.declared.lookup key = none) (hclosed : key ∉ declaring) (hd : ∀ b, a.form = some b → a.formAs d = b) :
    After scope s declaring n
      { u with declared := (key, d) :: u.declared, declaring := u.declaring.filter (· != key) } where
  declared other d' hother := by
    have hne : other ≠ key := by
      rintro rfl
      exact absurd (hnew.symm.trans hother) (by simp)
    simp only [List.lookup_cons, beq_eq_false_iff_ne.mpr hne]
    exact h.declared other d' hother
  forms other b hform := by
    by_cases hkey : other = key
    · subst hkey
      rw [Scope.form_eq hlookup, hnew] at hform
      rw [Scope.form_eq hlookup, List.lookup_cons, beq_self_eq_true]
      exact congrArg some (hd b hform)
    · rw [Scope.form, List.lookup_cons, beq_eq_false_iff_ne.mpr hkey]
      exact h.forms other b hform
  barred := hbarred
  declaring := by
    rw [h.declaring, List.filter_cons_of_neg (by simp), List.filter_eq_self]
    intro other hother
    simpa using fun heq : other = key => hclosed (heq ▸ hother)
  untouched := by
    refine Nat.le_trans (List.Sublist.length_le (List.monotone_filter_right _ ?_)) (Nat.le_trans h.untouched hless)
    intro other hother
    by_cases hkey : other = key
    · subst hkey
      simp at hother
    · rw [List.lookup_cons, beq_eq_false_iff_ne.mpr hkey, Bool.and_eq_true] at hother
      rw [Bool.and_eq_true]
      refine ⟨hother.1, ?_⟩
      have hout := hother.2
      simp only [Bool.not_eq_true', List.contains_eq_mem, decide_eq_false_iff_not, List.mem_filter, not_and] at hout ⊢
      exact fun hmem => hout hmem (by simpa using hkey)

end Draft.After

end

/-! ## Each part of writing settles -/

namespace TypeWriter

variable {scope : Scope} {s : Draft} {declaring : List String} {n : Nat} {w : Nat → TypeWriter}

/-- What settles from all drafts after `s` in which at most `n` aliases are untouched, and leads to such. -/
abbrev Finishes (scope : Scope) (s : Draft) (declaring : List String) (n : Nat) {α : Type} (A : Nat → M α) : Prop :=
  ∀ u, After scope s declaring n u → Settles (fun _ v => After scope s declaring n v) Unwritable A u

/-- A family of writers that comes to an end with every alias, as certain as its form was. -/
def Declares (scope : Scope) (s : Draft) (declaring : List String) (n : Nat) (w : Nat → TypeWriter) : Prop :=
  ∀ key a, scope.aliases.lookup key = some a → ∀ u, After scope s declaring n u →
    Settles (fun d v => After scope s declaring n v ∧ ∀ b, scope.form s key = some b → a.formAs d = b) Unwritable
      (fun depth => (w depth).declaration a) u

theorem finishes_claim (name : String) : Finishes scope s declaring n fun _ => claim name :=
  fun _ hu => Settles.get_bind (Settles.set_bind (.pure (hu.congr rfl rfl)))

theorem finishes_declareInline (d : RecordDeclaration) : Finishes scope s declaring n fun _ => declareInline d :=
  fun _ hu => Settles.modify_bind (.pure (hu.congr rfl rfl))

theorem finishes_field {f : Field}
    (hf : ∀ hint, Finishes scope s declaring n fun depth => (w depth).render f.type hint) (owner : String)
    (isQuoted : Bool) : Finishes scope s declaring n fun depth => (w depth).field owner isQuoted f := by
  intro u hu
  refine Settles.lift_bind (fun part _ => ?_) fun e he => Field.unwritable_hintPart he
  refine Settles.bind (hf _ u hu) fun text v hv => ?_
  exact Settles.lift_bind (fun doc _ => .pure hv) fun e he => unwritable_noted he

theorem settles_record {fields : List Field}
    (hfields : ∀ f ∈ fields, ∀ hint, Finishes scope s declaring n fun depth => (w depth).render f.type hint)
    (name : String) (doc : Data) (bases : List String) {u : Draft} (hu : After scope s declaring n u) :
    Settles (fun d v => After scope s declaring n v ∧ Field.allAttributes fields = .ok (!d.functional)) Unwritable
      (fun depth => (w depth).record name fields doc bases) u := by
  refine Settles.lift_bind (fun isClass hclass => ?_) fun e he => Field.unwritable_allAttributes he
  refine Settles.bind (Settles.mapM (fun f hf v hv => finishes_field (hfields f hf) name (!isClass) v hv) hu) ?_
  intro written v hv
  exact .pure ⟨hv, by rw [hclass, Bool.not_not]⟩

theorem finishes_union {members : List TypeNode} {hint : String}
    (hmembers : ∀ t ∈ TypeNode.flattenAll members, Finishes scope s declaring n fun depth => (w depth).render t hint) :
    Finishes scope s declaring n fun depth => (w depth).union members hint := by
  intro u hu
  refine Settles.bind (Settles.foldlM (P := After scope s declaring n) ?_ hu) fun _ v hv => .pure hv
  intro t ht a v hv
  split
  · exact .lift (fun _ _ => hv) fun e he => unwritable_guarded he
  · exact Settles.bind (hmembers t ht v hv) fun _ x hx => .pure hx

theorem settles_isBase (hdeclares : Declares scope s declaring n w) (t : TypeNode) {u : Draft}
    (hu : After scope s declaring n u) :
    Settles (fun isBase v => After scope s declaring n v ∧ ∀ b, scope.formOf s t = some b → isBase = b) Unwritable
      (fun depth => (w depth).isBase scope t) u := by
  unfold isBase
  split
  case h_2 hother =>
    refine .pure ⟨hu, fun b hb => ?_⟩
    cases t with
    | reference name pointer => exact absurd rfl (hother name pointer)
    | _ => exact Option.some.inj hb
  rename_i name pointer
  split
  case h_2 hother =>
    refine .pure ⟨hu, fun b hb => ?_⟩
    change scope.form s name = some b at hb
    cases hlookup : scope.aliases.lookup name with
    | none => simpa [Scope.form, hlookup] using hb
    | some a =>
      rw [Scope.form_eq hlookup] at hb
      cases a with
      | synonym key pointer type comment => exact absurd hlookup (hother _ _ _ _)
      | enumeration => cases hfound : s.declared.lookup name <;> simpa [hfound, Alias.form, Alias.formAs] using hb
  rename_i a key pointer' type comment hlookup
  refine Settles.bind (hdeclares name _ hlookup u hu) ?_
  rintro d v ⟨hv, hform⟩
  cases d with
  | record r => exact .pure ⟨hv, hform⟩
  | enumeration | synonym => exact .pure ⟨hv, hform⟩

/-- What an intersection is taken apart into, as certain as the forms of its members were. -/
structure SplitAs (scope : Scope) (s : Draft) (ts : List TypeNode) (found : Option (List String × List Field)) :
    Prop where
  may : ∀ bases fields, found = some (bases, fields) → scope.MayCompose s ts ∧
    ∀ f ∈ fields, ∃ own index, .object own index ∈ ts ∧ f ∈ own
  sure : (∀ t ∈ ts, scope.formOf s t = some true ∨
      ∃ fields index, t = .object fields index ∧ Field.allAttributes fields = .ok true) →
    ∃ bases fields, found = some (bases, fields) ∧ Field.allAttributes fields = .ok true ∧
      ((∃ t ∈ ts, scope.formOf s t = some true ∨ ∃ f fields index, t = .object (f :: fields) index) →
        bases ≠ [] ∨ fields ≠ [])

namespace SplitAs
variable {ts : List TypeNode} {found : Option (List String × List Field)}

theorem nil : SplitAs scope s [] (some ([], [])) where
  may := by
    rintro _ _ ⟨⟩
    exact ⟨fun t ht => absurd ht List.not_mem_nil, fun f hf => absurd hf List.not_mem_nil⟩
  sure _ := by
    refine ⟨[], [], rfl, rfl, ?_⟩
    rintro ⟨t, ht, _⟩
    exact absurd ht List.not_mem_nil

theorem consBase (h : SplitAs scope s ts found) {t : TypeNode} (base : String) (ht : scope.formOf s t ≠ some false) :
    SplitAs scope s (t :: ts) (found.map fun p => (base :: p.1, p.2)) where
  may bases fields hmap := by
    obtain ⟨p, rfl, hp⟩ := Option.map_eq_some_iff.mp hmap
    obtain ⟨rfl, rfl⟩ := Prod.mk.inj hp
    obtain ⟨hmay, hfields⟩ := h.may _ _ rfl
    refine ⟨List.forall_mem_cons.mpr ⟨Or.inl ht, hmay⟩, fun f hf => ?_⟩
    obtain ⟨own, index, hmem, hf⟩ := hfields f hf
    exact ⟨own, index, List.mem_cons_of_mem t hmem, hf⟩
  sure hsure := by
    obtain ⟨bases, fields, rfl, hclass, _⟩ := h.sure (List.forall_mem_cons.mp hsure).2
    exact ⟨base :: bases, fields, rfl, hclass, fun _ => Or.inl (List.cons_ne_nil _ _)⟩

theorem consFields (h : SplitAs scope s ts found) (own : List Field) (index : Option TypeNode) :
    SplitAs scope s (.object own index :: ts) (found.map fun p => (p.1, own ++ p.2)) where
  may bases fields hmap := by
    obtain ⟨p, rfl, hp⟩ := Option.map_eq_some_iff.mp hmap
    obtain ⟨rfl, rfl⟩ := Prod.mk.inj hp
    obtain ⟨hmay, hfields⟩ := h.may _ _ rfl
    refine ⟨List.forall_mem_cons.mpr ⟨Or.inr ⟨own, index, rfl⟩, hmay⟩, fun f hf => ?_⟩
    rcases List.mem_append.mp hf with hf | hf
    · exact ⟨own, index, List.mem_cons_self, hf⟩
    · obtain ⟨own', index', hmem, hf⟩ := hfields f hf
      exact ⟨own', index', List.mem_cons_of_mem _ hmem, hf⟩
  sure hsure := by
    obtain ⟨hobject, hrest⟩ := List.forall_mem_cons.mp hsure
    obtain ⟨bases, fields, rfl, hclass, hnonempty⟩ := h.sure hrest
    obtain ⟨own', index', heq, hown⟩ := hobject.resolve_left fun h => nomatch h
    cases heq
    rw [Field.allAttributes_eq_ok_true_iff] at hown hclass
    refine ⟨bases, own ++ fields, rfl, ?_, ?_⟩
    · exact Field.allAttributes_eq_ok_true_iff.mpr (List.forall_mem_append.mpr ⟨hown, hclass⟩)
    rintro ⟨t, ht, hsome⟩
    rcases List.mem_cons.mp ht with rfl | ht
    · obtain ⟨f, fields', index', heq⟩ := hsome.resolve_left fun h => nomatch h
      cases heq
      exact Or.inr (List.cons_ne_nil _ _)
    · exact (hnonempty ⟨t, ht, hsome⟩).imp_right fun hne heq => hne (List.append_eq_nil_iff.mp heq).2

theorem neither {t : TypeNode} (ht : scope.formOf s t ≠ some true) (hobject : ∀ own index, t ≠ .object own index) :
    SplitAs scope s (t :: ts) none where
  may _ _ hnone := nomatch hnone
  sure hsure := by
    rcases (List.forall_mem_cons.mp hsure).1 with hform | ⟨own, index, heq, _⟩
    · exact absurd hform ht
    · exact absurd heq (hobject own index)

end SplitAs

theorem settles_split (hdeclares : Declares scope s declaring n w) (ts : List TypeNode) {u : Draft}
    (hu : After scope s declaring n u) :
    Settles (fun found v => After scope s declaring n v ∧ SplitAs scope s ts found) Unwritable
      (fun depth => (w depth).split scope ts) u := by
  induction ts generalizing u with
  | nil => exact .pure ⟨hu, .nil⟩
  | cons t ts ih =>
    refine Settles.bind (settles_isBase hdeclares t hu) ?_
    rintro isBase v ⟨hv, hform⟩
    cases isBase with
    | true =>
      have hmay : scope.formOf s t ≠ some false := fun h => nomatch hform false h
      cases t with
      | reference name pointer =>
        refine Settles.bind (ih hv) ?_
        rintro below x ⟨hx, hbelow⟩
        exact .pure ⟨hx, hbelow.consBase _ hmay⟩
      | _ => exact absurd rfl hmay
    | false =>
      have hnot : scope.formOf s t ≠ some true := fun h => nomatch hform true h
      cases t with
      | object own index =>
        refine Settles.bind (ih hv) ?_
        rintro below x ⟨hx, hbelow⟩
        exact .pure ⟨hx, hbelow.consFields own index⟩
      | _ => exact .pure ⟨hv, .neither hnot fun _ _ h => nomatch h⟩

theorem finishes_merged {ts : List TypeNode} (hnot : ¬ scope.Composes s ts)
    (hopens : ∀ type : TypeNode, (∀ us ∈ type.intersections, scope.Opens s ts us) → ∀ hint,
      Finishes scope s declaring n fun depth => (w depth).render type hint) (name : String) (doc : Data) :
    Finishes scope s declaring n fun depth => (w depth).merged scope name (.intersection ts) doc := by
  intro u hu
  refine Settles.get_bind ?_
  split
  case h_3 fields _ hfields =>
    refine Settles.lift_bind (fun kept hkept => ?_) fun e he => Field.unwritable_distinct he
    refine Settles.bind (settles_record (fun f hf => hopens f.type fun us hus => ?_) name doc [] hu)
      fun d v hv => .pure hv.1
    rw [hu.declaring] at hfields
    exact .merged hnot (Scope.fieldsFor_mono hu.barred hfields) hkept hf hus
  all_goals exact .pure hu

/-- An intersection is written if the types are whose intersections it leads to. -/
theorem finishes_compose (hdeclares : Declares scope s declaring n w) {ts : List TypeNode}
    (hopens : ∀ type : TypeNode, (∀ us ∈ type.intersections, scope.Opens s ts us) → ∀ hint,
      Finishes scope s declaring n fun depth => (w depth).render type hint) (name : String) (doc : Data) :
    Finishes scope s declaring n fun depth => (w depth).compose scope name ts doc := by
  intro u hu
  refine Settles.bind (settles_split hdeclares ts hu) ?_
  rintro found v ⟨hv, hsplit⟩
  have hcomposes : scope.Composes s ts → ∃ bases fields, found = some (bases, fields) ∧
      Field.allAttributes fields = .ok true ∧ (bases ≠ [] ∨ fields ≠ []) := by
    intro h
    obtain ⟨bases, fields, hfound, hclass, hnonempty⟩ := hsplit.sure h.members
    exact ⟨bases, fields, hfound, hclass, hnonempty h.nonempty⟩
  split
  case h_1 =>
    refine finishes_merged (fun h => ?_) hopens name doc v hv
    obtain ⟨_, _, heq, _⟩ := hcomposes h
    cases heq
  case h_2 =>
    refine finishes_merged (fun h => ?_) hopens name doc v hv
    obtain ⟨_, _, heq, _, hne⟩ := hcomposes h
    cases heq
    exact hne.elim (absurd rfl) (absurd rfl)
  case h_3 bases fields _ =>
    obtain ⟨hmay, hown⟩ := hsplit.may bases fields rfl
    have hfields : ∀ f ∈ fields, ∀ hint, Finishes scope s declaring n fun depth => (w depth).render f.type hint := by
      intro f hf
      obtain ⟨own, index, hmem, hf⟩ := hown f hf
      exact hopens f.type fun us hus => .own hmay hmem hf hus
    refine Settles.bind (settles_record hfields name doc bases hv) ?_
    rintro d x ⟨hx, hclass⟩
    by_cases hfunctional : d.functional = true
    · simp only [hfunctional, if_true]
      refine finishes_merged (fun h => ?_) hopens name doc x hx
      obtain ⟨_, _, heq, hattributes, _⟩ := hcomposes h
      cases heq
      rw [hclass, hfunctional] at hattributes
      cases hattributes
    · simp only [hfunctional]
      exact .pure hx

/-! ## From intersections to types -/

theorem isEmpty_extend {hint part : String} (h : hint.isEmpty = true) : (TypeText.extend hint part).isEmpty = true := by
  rw [TypeText.extend, if_pos h]
  rfl

theorem finishes_of_flatten {t : TypeNode} {hint : String}
    (h : ∀ part ∈ t.flatten, Finishes scope s declaring n fun depth => (atDepth scope depth).render part hint) :
    Finishes scope s declaring n fun depth => (atDepth scope depth).render t hint := by
  cases t with
  | union members => exact fun u hu => Settles.succ (finishes_union h u hu)
  | _ => exact h _ (List.mem_singleton_self _)

/-- What is written under a hint: an intersection of the type under any hint that is there only if that one is. -/
abbrev Reached (scope : Scope) (s : Draft) (declaring : List String) (n : Nat) (hint : String)
    (intersections : List (List TypeNode)) : Prop :=
  ∀ ts ∈ intersections, ∀ more, (hint.isEmpty = true → more.isEmpty = true) →
    Finishes scope s declaring n fun depth => (atDepth scope depth).render (.intersection ts) more

theorem Reached.extend {hint part : String} {intersections : List (List TypeNode)}
    (h : Reached scope s declaring n hint intersections) :
    Reached scope s declaring n (TypeText.extend hint part) intersections :=
  fun ts hts more hmore => h ts hts more fun hhint => hmore (isEmpty_extend hhint)

mutual

theorem finishes_flatten : ∀ (t : TypeNode) (hint : String), Reached scope s declaring n hint t.intersections →
    ∀ part ∈ t.flatten, Finishes scope s declaring n fun depth => (atDepth scope depth).render part hint
  | .union ts, hint, h, part, hpart => finishes_flattenAll ts hint h part hpart
  | .array items, hint, h, part, hpart => by
    obtain rfl := List.mem_singleton.mp hpart
    intro u hu
    refine Settles.succ (Settles.bind (finishes_of_flatten ?_ u hu) fun _ v hv => .pure hv)
    exact finishes_flatten items _ h.extend
  | .object [] none, hint, h, part, hpart => by
    obtain rfl := List.mem_singleton.mp hpart
    exact fun u hu => Settles.succ (.pure hu)
  | .object [] (some values), hint, h, part, hpart => by
    obtain rfl := List.mem_singleton.mp hpart
    intro u hu
    refine Settles.succ (Settles.bind (finishes_of_flatten ?_ u hu) fun _ v hv => .pure hv)
    exact finishes_flatten values _ h.extend
  | .object (f :: fields) index, hint, h, part, hpart => by
    obtain rfl := List.mem_singleton.mp hpart
    intro u hu
    refine Settles.succ ?_
    change Settles _ _ (fun depth => (atDepth scope depth).renderWith scope (.object (f :: fields) index) hint) u
    by_cases hhint : hint.isEmpty = true
    · simp only [renderWith, hhint, if_true]
      exact .pure hu
    simp only [renderWith, hhint]
    refine Settles.bind (finishes_claim _ u hu) fun name v hv => ?_
    have hfields : ∀ g ∈ f :: fields, ∀ hint, Finishes scope s declaring n fun depth =>
        (atDepth scope depth).render g.type hint :=
      finishes_fields (f :: fields) fun ts hts more => h ts hts more fun hempty => absurd hempty hhint
    refine Settles.bind (settles_record hfields name .null [] hv) ?_
    rintro d x ⟨hx, _⟩
    exact finishes_declareInline d x hx
  | .intersection ts, hint, h, part, hpart => by
    obtain rfl := List.mem_singleton.mp hpart
    exact h ts (List.mem_singleton_self ts) hint id
  | .literal v, _, _, part, hpart => by
    obtain rfl := List.mem_singleton.mp hpart
    exact fun u hu => Settles.succ (.lift (fun _ _ => hu) fun e he => unwritable_guarded he)
  | .any, _, _, part, hpart | .never, _, _, part, hpart | .primitive _, _, _, part, hpart
  | .reference _ _, _, _, part, hpart | .supplied _, _, _, part, hpart => by
    obtain rfl := List.mem_singleton.mp hpart
    exact fun u hu => Settles.succ (.pure hu)

theorem finishes_flattenAll : ∀ (ts : List TypeNode) (hint : String),
    Reached scope s declaring n hint (TypeNode.intersectionsOfAll ts) →
    ∀ part ∈ TypeNode.flattenAll ts, Finishes scope s declaring n fun depth => (atDepth scope depth).render part hint
  | [], _, _, part, hpart => absurd hpart List.not_mem_nil
  | t :: ts, hint, h, part, hpart => by
    rw [TypeNode.flattenAll, List.mem_append] at hpart
    rcases hpart with hpart | hpart
    · exact finishes_flatten t hint (fun us hus => h us (List.mem_append_left _ hus)) part hpart
    · exact finishes_flattenAll ts hint (fun us hus => h us (List.mem_append_right _ hus)) part hpart

theorem finishes_fields : ∀ (fields : List Field), (∀ ts ∈ TypeNode.intersectionsOfFields fields, ∀ more,
      Finishes scope s declaring n fun depth => (atDepth scope depth).render (.intersection ts) more) →
    ∀ f ∈ fields, ∀ hint, Finishes scope s declaring n fun depth => (atDepth scope depth).render f.type hint
  | [], _, f, hf => absurd hf List.not_mem_nil
  | ⟨name, t, required, comment, deprecated⟩ :: fields, h, f, hf => by
    rcases List.mem_cons.mp hf with rfl | hf
    · intro hint
      refine finishes_of_flatten (finishes_flatten t hint fun us hus more _ => ?_)
      exact h us (List.mem_append_left _ hus) more
    · exact finishes_fields fields (fun us hus => h us (List.mem_append_right _ hus)) f hf

end

theorem finishes_render {t : TypeNode} {hint : String} (h : Reached scope s declaring n hint t.intersections) :
    Finishes scope s declaring n fun depth => (atDepth scope depth).render t hint :=
  finishes_of_flatten (finishes_flatten t hint h)

/-! ## The whole writer -/

/-- Without a hint an intersection is written as any mapping is. -/
theorem finishes_intersection_of_isEmpty {ts : List TypeNode} {hint : String} (hhint : hint.isEmpty = true) :
    Finishes scope s declaring n fun depth => (atDepth scope depth).render (.intersection ts) hint := by
  intro u hu
  refine Settles.succ ?_
  change Settles _ _ (fun depth => (atDepth scope depth).renderWith scope (.intersection ts) hint) u
  simp only [renderWith, hhint, if_true]
  exact .pure hu

theorem finishes_intersection (hdeclares : Declares scope s declaring n (atDepth scope)) {ts : List TypeNode}
    (hends : Acc (fun us ts => scope.Opens s ts us) ts) :
    ∀ hint, Finishes scope s declaring n fun depth => (atDepth scope depth).render (.intersection ts) hint := by
  induction hends with
  | intro ts _ ih =>
    intro hint u hu
    by_cases hhint : hint.isEmpty = true
    · exact finishes_intersection_of_isEmpty hhint u hu
    refine Settles.succ ?_
    change Settles _ _ (fun depth => (atDepth scope depth).renderWith scope (.intersection ts) hint) u
    simp only [renderWith, hhint]
    refine Settles.bind (finishes_claim _ u hu) fun name v hv => ?_
    have hopens : ∀ type : TypeNode, (∀ us ∈ type.intersections, scope.Opens s ts us) → ∀ hint,
        Finishes scope s declaring n fun depth => (atDepth scope depth).render type hint :=
      fun type htype hint => finishes_render fun us hus more _ => ih us (htype us hus) more
    refine Settles.bind (finishes_compose hdeclares hopens name .null v hv) fun found x hx => ?_
    cases found with
    | none => exact .pure hx
    | some d => exact finishes_declareInline d x hx

/-- The types that an intersection leads to are written if its own chains of intersections end. -/
theorem finishes_opened (hdeclares : Declares scope s declaring n (atDepth scope)) {ts : List TypeNode}
    (hends : Acc (fun us ts => scope.Opens s ts us) ts) (type : TypeNode)
    (htype : ∀ us ∈ type.intersections, scope.Opens s ts us) (hint : String) :
    Finishes scope s declaring n fun depth => (atDepth scope depth).render type hint :=
  finishes_render fun us hus more _ => finishes_intersection hdeclares (hends.inv (htype us hus)) more

theorem settles_placeholder (name : String) (a : Alias) (u : Draft) :
    Settles (fun d v => v = u ∧ ∀ b, a.form = some b → a.formAs d = b) Unwritable (fun _ => placeholder name a) u := by
  unfold placeholder
  split
  case h_1 f fields index comment =>
    refine Settles.lift_bind (fun isClass hclass => .pure ⟨rfl, fun b hb => ?_⟩) fun e he => Field.unwritable_allAttributes he
    simpa [Alias.form, hclass, Except.toOption, Alias.formAs, Declaration.isClass] using hb
  case h_2 hother =>
    refine .pure ⟨rfl, fun b hb => ?_⟩
    rw [Alias.eq_false_of_form (fun _ _ _ _ _ _ heq => hother _ _ _ _ _ _ heq) hb]
    cases a <;> rfl

theorem settles_make (hdeclares : Declares scope s declaring n (atDepth scope)) (name : String) {a : Alias}
    (hends : ∀ key pointer type comment, a = .synonym key pointer type comment → scope.Ends s type) {u : Draft}
    (hu : After scope s declaring n u) :
    Settles (fun d v => After scope s declaring n v ∧ ∀ b, a.form = some b → a.formAs d = b) Unwritable
      (fun depth => (atDepth scope depth).make scope name a) u := by
  unfold make
  split
  case h_1 =>
    exact Settles.lift_bind (fun d _ => .pure ⟨hu, fun b hb => Option.some.inj hb⟩) fun e he => unwritable_guarded he
  case h_2 key pointer f fields index comment =>
    have hfields : ∀ g ∈ f :: fields, ∀ hint, Finishes scope s declaring n fun depth =>
        (atDepth scope depth).render g.type hint :=
      finishes_fields (f :: fields) fun ts hts more => finishes_intersection hdeclares (hends _ _ _ _ rfl ts hts) more
    refine Settles.bind (settles_record hfields name comment [] hu) ?_
    rintro d v ⟨hv, hclass⟩
    refine .pure ⟨hv, fun b hb => ?_⟩
    simpa [Alias.form, hclass, Except.toOption, Alias.formAs, Declaration.isClass] using hb
  case h_3 key pointer members comment =>
    have hmembers := hends _ _ _ _ rfl members (List.mem_singleton_self members)
    refine Settles.bind (finishes_compose hdeclares (finishes_opened hdeclares hmembers) name comment u hu) ?_
    intro found v hv
    cases found with
    | none => exact .pure ⟨hv, fun b hb => by cases hb⟩
    | some d => exact .pure ⟨hv, fun b hb => by cases hb⟩
  case h_4 key pointer type comment hobject hintersection =>
    have htype : Finishes scope s declaring n fun depth => (atDepth scope depth).render type name :=
      finishes_render fun ts hts more _ => finishes_intersection hdeclares (hends _ _ _ _ rfl ts hts) more
    refine Settles.bind (htype u hu) fun text v hv => .pure ⟨hv, fun b hb => ?_⟩
    rw [Alias.eq_false_of_form (fun _ _ f fields index _ heq => ?_) hb]
    · rfl
    · cases heq
      exact hobject f fields index rfl

theorem settles_whileDeclaring {α : Type} {Q : α → Draft → Prop} {E : Failure → Prop} {A : Nat → M α} {key : String}
    {u : Draft} (h : Settles Q E A { u with declaring := key :: u.declaring }) :
    Settles (fun a v => ∃ x, Q a x ∧ v = { x with declaring := x.declaring.filter (· != key) }) E
      (fun depth => whileDeclaring key (A depth)) u := by
  obtain ⟨depth, result, x, hrun, hwanted⟩ := h
  refine ⟨depth, result, { x with declaring := x.declaring.filter (· != key) }, fun more hmore => ?_, ?_⟩
  · show (match Id.run ((A more).run { u with declaring := key :: u.declaring }) with
      | (result, x) => (result, { x with declaring := x.declaring.filter (· != key) })) = _
    rw [hrun more hmore]
  · cases result with
    | ok a => exact ⟨x, hwanted, rfl⟩
    | error e => exact hwanted

/-- Declaring an alias leaves less aliases untouched for what is declared inside of it. -/
theorem settles_declare (hkeyed : scope.Keyed) (hpending : scope.Pending s)
    (hinner : ∀ m < n, ∀ inner, Declares scope s inner m (atDepth scope)) :
    Declares scope s declaring n (atDepth scope) := by
  intro key a hlookup u hu
  obtain rfl := hkeyed key a hlookup
  refine Settles.succ (Settles.get_bind ?_)
  have hform : ∀ b, scope.form s a.name = some b → (u.declared.lookup a.name).elim a.form (fun d => some (a.formAs d)) = some b :=
    fun b hb => Scope.form_eq hlookup ▸ hu.forms a.name b hb
  cases hfound : u.declared.lookup a.name with
  | some d =>
    rw [hfound] at hform
    exact .pure ⟨hu, fun b hb => Option.some.inj (hform b hb)⟩
  | none =>
    rw [hfound] at hform
    have hnew : s.declared.lookup a.name = none := by
      rw [Option.eq_none_iff_forall_ne_some]
      intro d hd
      exact absurd (hfound.symm.trans (hu.declared a.name d hd)) (by simp)
    by_cases hopen : u.declaring.contains a.name = true
    · simp only [hopen, if_true]
      refine (settles_placeholder (scope.nameOf a.name) a u).mono ?_ fun _ he => he
      rintro d _ ⟨rfl, hd⟩
      exact ⟨hu, fun b hb => hd b (hform b hb)⟩
    · simp only [hopen]
      have hclosed : a.name ∉ u.declaring := fun hmem => hopen (List.contains_iff_mem.mpr hmem)
      obtain ⟨m, hless, hstart⟩ := hu.start hlookup hfound hclosed
      have hends : ∀ key pointer type comment, a = .synonym key pointer type comment → scope.Ends s type :=
        fun _ _ _ _ heq => hpending _ _ _ _ _ (hlookup.trans (congrArg some heq)) hnew fun hmem =>
          hclosed (hu.declaring ▸ hu.barred hmem)
      refine Settles.bind (settles_whileDeclaring (settles_make (hinner m hless _) _ hends hstart)) ?_
      rintro d _ ⟨x, ⟨hx, hd⟩, rfl⟩
      refine Settles.modify_bind (.pure ⟨?_, fun b hb => hd b (hform b hb)⟩)
      exact hx.finish (Nat.le_of_lt hless) hu.barred hlookup hnew (hu.declaring ▸ hclosed) hd

theorem declares_atDepth (hkeyed : scope.Keyed) (hpending : scope.Pending s) :
    Declares scope s declaring n (atDepth scope) := by
  induction n using Nat.strongRecOn generalizing declaring with
  | _ n ih => exact settles_declare hkeyed hpending fun m hless inner => ih m hless

theorem after_self (scope : Scope) (s : Draft) : After scope s s.declaring (scope.untouched s).length s :=
  ⟨fun _ _ h => h, fun _ _ h => h, List.Subset.refl _, rfl, Nat.le_refl _⟩

end TypeWriter

end ClientBindings
