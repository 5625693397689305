import ClientBindings.Proofs.Outcome
import ClientBindings.Proofs.Source.RecordKeys

/-! Records made of intersections while a module is drafted. A base is offered before its own declaration is
finished, and a draft may be left in the middle of one by a failure. So what is said of a record is said of the
names it is based on, which nothing changes afterwards, and apart from it that these names get declared. -/

namespace ClientBindings

open Draft

/-- The name of a declared record, or of a plain alias that is being declared. -/
def Scope.Supported (scope : Scope) (s : Draft) (base : String) : Prop :=
  ∃ name, base = scope.nameOf name ∧ ((∃ r, (name, .record r) ∈ s.declared) ∨
    name ∈ s.declaring ∧ ∃ a, scope.aliases.lookup name = some a ∧ a.IsPlain)

/-- The bases of all declared records are supported. -/
def Scope.Upheld (scope : Scope) (s : Draft) : Prop :=
  ∀ name r, (name, .record r) ∈ s.declared → ∀ base ∈ r.bases, scope.Supported s base

namespace Scope

variable {scope : Scope} {s t : Draft} {base : String}

theorem Supported.mono (h : scope.Supported s base) (hdeclared : s.declared ⊆ t.declared)
    (hdeclaring : s.declaring ⊆ t.declaring) : scope.Supported t base := by
  obtain ⟨name, rfl, ⟨r, hr⟩ | ⟨hopen, hplain⟩⟩ := h
  · exact ⟨name, rfl, .inl ⟨r, hdeclared hr⟩⟩
  · exact ⟨name, rfl, .inr ⟨hdeclaring hopen, hplain⟩⟩

theorem Supported.leads (h : scope.Supported s base) (hst : Leads scope s t) :
    scope.Supported t base :=
  h.mono hst.declared.subset (hst.declaring ▸ List.Subset.refl _)

end Scope

namespace TypeWriter

variable {scope : Scope} {w : TypeWriter} {s t u : Draft} {name : String} {doc : Data}

/-! ## What is made of an intersection -/

theorem names_of_runs_record {fields : List Field} {bases : List String} {d : RecordDeclaration}
    (hrun : Runs (w.record name fields doc bases) s d t) :
    d.fields.map FieldDeclaration.name = fields.map FieldOf.name := by
  simp only [TypeWriter.record, Runs.bind_iff, Runs.pure_iff, Runs.lift_iff] at hrun
  obtain ⟨_, _, ⟨_, rfl⟩, declared, _, hdeclared, rfl, rfl⟩ := hrun
  refine Runs.mapM_map (fun _ => True) ?_ trivial hdeclared
  intro f _ u d v _ hfield
  obtain ⟨_, _, _, -, -, rfl⟩ := runs_field hfield
  exact ⟨trivial, rfl⟩

theorem name_of_runs_record {fields : List Field} {bases : List String} {d : RecordDeclaration}
    (hrun : Runs (w.record name fields doc bases) s d t) : d.name = name := by
  simp only [TypeWriter.record, Runs.bind_iff, Runs.pure_iff, Runs.lift_iff] at hrun
  obtain ⟨_, _, ⟨_, rfl⟩, declared, _, -, rfl, rfl⟩ := hrun
  rfl

theorem allAttributes_of_runs_record {fields : List Field} {bases : List String} {d : RecordDeclaration}
    (hrun : Runs (w.record name fields doc bases) s d t) : Field.allAttributes fields = .ok (!d.functional) := by
  simp only [TypeWriter.record, Runs.bind_iff, Runs.pure_iff, Runs.lift_iff] at hrun
  obtain ⟨_, _, ⟨hall, rfl⟩, declared, _, -, rfl, rfl⟩ := hrun
  rw [hall, Bool.not_not]

section
variable (h : w.Builds scope)
include h

theorem Builds.supported_isBase {type : TypeNode} (hrun : Runs (w.isBase scope type) s true t) :
    ∃ name pointer given target held comment, type = .reference name pointer ∧
      scope.aliases.lookup name = some (.synonym given target held comment) ∧ scope.Supported t (scope.nameOf name) := by
  unfold TypeWriter.isBase at hrun
  split at hrun
  case h_2 => cases (Runs.pure_iff.mp hrun).1
  rename_i name pointer
  split at hrun
  case h_2 => cases (Runs.pure_iff.mp hrun).1
  rename_i a given target held comment hlookup
  obtain ⟨d, u, hd, hrun⟩ := Runs.bind_iff.mp hrun
  obtain ⟨hsu, hoffered⟩ := h.declaration name _ hlookup s d u hd
  split at hrun
  case h_2 => cases (Runs.pure_iff.mp hrun).1
  rename_i r
  obtain ⟨hclass, rfl⟩ := Runs.pure_iff.mp hrun
  refine ⟨name, pointer, given, target, held, comment, rfl, hlookup, name, rfl, ?_⟩
  rcases hoffered with hdeclared | ⟨hopen, hplain⟩
  · exact .inl ⟨r, hdeclared⟩
  · exact .inr ⟨hsu.declaring ▸ hopen, _, hlookup, hplain r rfl (by simpa using hclass.symm)⟩

theorem Builds.splits {members : List TypeNode} {bases : List String} {fields : List Field}
    (hrun : Runs (w.split scope members) s (some (bases, fields)) t) :
    scope.Splits members bases fields ∧ ∀ base ∈ bases, scope.Supported t base := by
  induction members generalizing s bases fields with
  | nil =>
    obtain ⟨⟨⟩, rfl⟩ := Runs.pure_iff.mp hrun
    exact ⟨.nil, fun base hbase => absurd hbase List.not_mem_nil⟩
  | cons m ms ih =>
    obtain ⟨isBase, u, hbase, hrun⟩ := Runs.bind_iff.mp hrun
    cases isBase with
    | true =>
      obtain ⟨name, pointer, given, target, held, comment, rfl, hlookup, hsupported⟩ := h.supported_isBase hbase
      obtain ⟨below, v, hbelow, hpure⟩ := Runs.bind_iff.mp hrun
      obtain ⟨heq, rfl⟩ := Runs.pure_iff.mp hpure
      obtain ⟨⟨bases, fields⟩, rfl, hparts⟩ := Option.map_eq_some_iff.mp heq.symm
      obtain ⟨rfl, rfl⟩ := Prod.mk.inj hparts
      obtain ⟨hsplits, hbases⟩ := ih hbelow
      refine ⟨.base hlookup hsplits, ?_⟩
      intro base hmem
      rcases List.mem_cons.mp hmem with rfl | hmem
      · exact hsupported.leads (h.split hbelow).1
      · exact hbases base hmem
    | false =>
      cases m with
      | object own index =>
        obtain ⟨below, v, hbelow, hpure⟩ := Runs.bind_iff.mp hrun
        obtain ⟨heq, rfl⟩ := Runs.pure_iff.mp hpure
        obtain ⟨⟨bases, fields⟩, rfl, hparts⟩ := Option.map_eq_some_iff.mp heq.symm
        obtain ⟨rfl, rfl⟩ := Prod.mk.inj hparts
        obtain ⟨hsplits, hbases⟩ := ih hbelow
        exact ⟨.fields hsplits, hbases⟩
      | _ => cases (Runs.pure_iff.mp hrun).1

/-- A merged record has all keys of its type and no bases. -/
theorem Builds.makes_merged {type : TypeNode} {d : RecordDeclaration}
    (hrun : Runs (w.merged scope name type doc) s (some d) t) :
    d.bases = [] ∧ ∀ key, d.Owns key ↔ scope.HasKey type key := by
  refine ⟨((h.merged hrun).2 d rfl).2, fun key => ?_⟩
  simp only [TypeWriter.merged, Runs.bind_iff, Runs.get_iff] at hrun
  obtain ⟨_, _, ⟨rfl, rfl⟩, hrun⟩ := hrun
  split at hrun
  case h_3 fields _ hfields =>
    simp only [Runs.bind_iff, Runs.pure_iff, Runs.lift_iff] at hrun
    obtain ⟨kept, _, ⟨hkept, rfl⟩, _, _, hrecord, ⟨⟩, rfl⟩ := hrun
    calc d.Owns key ↔ Field.Keyed kept key := RecordDeclaration.owns_iff (names_of_runs_record hrecord) key
      _ ↔ Field.Keyed fields key := Field.keyed_distinct hkept key
      _ ↔ scope.HasKey type key := Scope.keyed_fieldsFor hfields key
  all_goals cases (Runs.pure_iff.mp hrun).1

theorem Builds.makes_compose {members : List TypeNode} {d : RecordDeclaration}
    (hrun : Runs (w.compose scope name members doc) s (some d) t) :
    scope.Makes d (.intersection members) ∧ ∀ base ∈ d.bases, scope.Supported t base := by
  obtain ⟨parts, u, hsplit, hrun⟩ := Runs.bind_iff.mp hrun
  have hmerged : ∀ {v : Draft}, Runs (w.merged scope name (.intersection members) doc) v (some d) t →
      scope.Makes d (.intersection members) ∧ ∀ base ∈ d.bases, scope.Supported t base := by
    intro v hrun
    obtain ⟨hbases, hkeys⟩ := h.makes_merged hrun
    refine ⟨.whole hbases hkeys, ?_⟩
    rw [hbases]
    exact fun base hbase => absurd hbase List.not_mem_nil
  split at hrun
  case h_3 =>
    obtain ⟨r, v, hrecord, hrun⟩ := Runs.bind_iff.mp hrun
    split at hrun
    · exact hmerged hrun
    · obtain ⟨⟨⟩, rfl⟩ := Runs.pure_iff.mp hrun
      obtain ⟨huv, _, rfl, _⟩ := h.record hrecord
      obtain ⟨hsplits, hbases⟩ := h.splits hsplit
      refine ⟨.based hsplits (RecordDeclaration.owns_iff (names_of_runs_record hrecord)), ?_⟩
      exact fun base hbase => (hbases base hbase).leads huv
  all_goals exact hmerged hrun

theorem Builds.makes_make {a : Alias} {r : RecordDeclaration} (hrun : Runs (w.make scope name a) s (.record r) t) :
    (∃ given target type comment, a = .synonym given target type comment ∧ scope.Makes r type) ∧
      ∀ base ∈ r.bases, scope.Supported t base := by
  unfold TypeWriter.make at hrun
  split at hrun
  case h_1 => cases (runs_enumeration hrun).1
  case h_2 given target f fields index comment =>
    simp only [Runs.bind_iff, Runs.pure_iff] at hrun
    obtain ⟨_, _, hrecord, ⟨⟩, rfl⟩ := hrun
    obtain ⟨_, _, hbases, _⟩ := h.record hrecord
    refine ⟨⟨given, target, _, comment, rfl, .whole hbases fun key => ?_⟩, ?_⟩
    · rw [RecordDeclaration.owns_iff (names_of_runs_record hrecord), Scope.hasKey_object_iff]
    · rw [hbases]
      exact fun base hbase => absurd hbase List.not_mem_nil
  case h_3 given target members comment =>
    obtain ⟨found, u, hcompose, hrun⟩ := Runs.bind_iff.mp hrun
    cases found with
    | none => cases (Runs.pure_iff.mp hrun).1
    | some d =>
      obtain ⟨⟨⟩, rfl⟩ := Runs.pure_iff.mp hrun
      obtain ⟨hmakes, hbases⟩ := h.makes_compose hcompose
      exact ⟨⟨given, target, _, comment, rfl, hmakes⟩, hbases⟩
  case h_4 =>
    obtain ⟨text, u, _, hrun⟩ := Runs.bind_iff.mp hrun
    cases (Runs.pure_iff.mp hrun).1

end
end TypeWriter

/-! ## From one draft to a later one -/

namespace Draft

/-- What is declared stays and what is true of the records as well. If nothing failed on the way, their bases are
supported still. -/
structure Onward (scope : Scope) (clean : Bool) (s t : Draft) : Prop where
  declared : s.declared ⊆ t.declared
  declaring : t.declaring = s.declaring
  recorded : scope.Recorded s.declared → scope.Recorded t.declared
  upheld : clean = true → scope.Upheld s → scope.Upheld t

/-- The action leads onward from every draft, and also where it fails. -/
def Advances (scope : Scope) {α : Type} (m : M α) : Prop :=
  ∀ s, Alike (fun _ t => Onward scope true s t) (fun _ t => Onward scope false s t) m m s

section
variable {scope : Scope} {s t u : Draft} {clean clean' : Bool} {α β : Type}

theorem Onward.of_eq (hdeclared : t.declared = s.declared) (hdeclaring : t.declaring = s.declaring) :
    Onward scope clean s t where
  declared := hdeclared ▸ List.Subset.refl _
  declaring := hdeclaring
  recorded h := hdeclared ▸ h
  upheld _ h name r hr base hbase :=
    (h name r (hdeclared ▸ hr) base hbase).mono (hdeclared ▸ List.Subset.refl _) (hdeclaring ▸ List.Subset.refl _)

theorem Onward.refl : Onward scope clean s s := .of_eq rfl rfl

theorem Onward.trans (hst : Onward scope true s t) (htu : Onward scope clean t u) : Onward scope clean s u where
  declared := List.Subset.trans hst.declared htu.declared
  declaring := htu.declaring.trans hst.declaring
  recorded h := htu.recorded (hst.recorded h)
  upheld hclean h := htu.upheld hclean (hst.upheld rfl h)

namespace Advances

theorem pure {a : α} : Advances scope (pure a : M α) := fun _ => .pure .refl

theorem lift {r : Result α} : Advances scope (liftM r : M α) := fun _ => .lift (fun _ _ => .refl) fun _ _ => .refl

theorem bind {m : M α} {k : α → M β} (h : Advances scope m) (hk : ∀ a, Advances scope (k a)) :
    Advances scope (m >>= k) := by
  intro s
  apply Alike.bind (h s)
  intro a t hst
  exact (hk a t).mono (fun _ _ => hst.trans) fun _ _ => hst.trans

theorem get : Advances scope (get : M Draft) := fun _ => ⟨rfl, .refl⟩

theorem claim {name : String} : Advances scope (claim name) := fun _ => ⟨rfl, .of_eq rfl rfl⟩

theorem addInline {d : Declaration} : Advances scope (addInline d) := fun _ => ⟨rfl, .of_eq rfl rfl⟩

theorem mapM {f : α → M β} {xs : List α} (h : ∀ x, Advances scope (f x)) : Advances scope (xs.mapM f) := by
  intro s
  apply Alike.mapM (P := fun t => Onward scope true s t) _ .refl
  intro x _ t hst
  exact (h x t).mono (fun _ _ => hst.trans) fun _ _ => hst.trans

theorem foldlM {f : β → α → M β} {xs : List α} {b : β} (h : ∀ b x, Advances scope (f b x)) :
    Advances scope (xs.foldlM f b) := by
  intro s
  apply Alike.foldlM (P := fun t => Onward scope true s t) _ .refl
  intro x _ b t hst
  exact (h b x t).mono (fun _ _ => hst.trans) fun _ _ => hst.trans

/-- Whatever the outcome of an action, the draft that it leaves is a later one. -/
theorem onward {m : M α} (h : Advances scope m) (s : Draft) :
    Onward scope (Id.run (m.run s)).1.isOk s (Id.run (m.run s)).2 := by
  have hjudged := (h s).2
  revert hjudged
  rcases Id.run (m.run s) with ⟨result, t⟩
  cases result with
  | ok a => exact fun hst => hst
  | error f => exact fun hst => hst

end Advances

/-- What was being declared is so no more, however the declaration ended. -/
theorem alike_whileDeclaring {target : String} {act : M α} {Q : α → Draft → Prop} {E : Failure → Draft → Prop}
    (h : Alike (fun a u => Q a { u with declaring := u.declaring.filter (· != target) })
      (fun f u => E f { u with declaring := u.declaring.filter (· != target) }) act act
      { s with declaring := target :: s.declaring }) :
    Alike Q E (whileDeclaring target act) (whileDeclaring target act) s := by
  refine ⟨rfl, ?_⟩
  have hrun : Id.run ((whileDeclaring target act).run s) =
      match Id.run (act.run { s with declaring := target :: s.declaring }) with
      | (result, u) => (result, { u with declaring := u.declaring.filter (· != target) }) := rfl
  rw [hrun]
  have hjudged := h.2
  revert hjudged
  rcases Id.run (act.run { s with declaring := target :: s.declaring }) with ⟨result, u⟩
  cases result with
  | ok a => exact fun hu => hu
  | error f => exact fun hu => hu

/-- A failure inside of a declaration leaves what was declared before it. -/
theorem Onward.abandon {name : String} (hclosed : name ∉ s.declaring)
    (h : Onward scope clean { s with declaring := name :: s.declaring } u) :
    Onward scope false s { u with declaring := u.declaring.filter (· != name) } where
  declared := h.declared
  declaring := filter_opened hclosed h.declaring
  recorded := h.recorded
  upheld hclean := absurd hclean Bool.false_ne_true

/-- A declaration that is finished supports what is based on it. -/
theorem supported_close {name base : String} {a : Alias} {d : Declaration} (h : scope.Supported u base)
    (hdeclaring : u.declaring = name :: s.declaring) (hrecords : scope.Records name a d) :
    scope.Supported { u with declared := (name, d) :: u.declared, declaring := s.declaring } base := by
  obtain ⟨name', rfl, ⟨r, hr⟩ | ⟨hopen, b, hlookup, hplain⟩⟩ := h
  · exact ⟨name', rfl, .inl ⟨r, List.mem_cons_of_mem _ hr⟩⟩
  · rcases List.mem_cons.mp (hdeclaring ▸ hopen) with rfl | hopen
    · obtain rfl : a = b := Option.some.inj (hrecords.lookup.symm.trans hlookup)
      obtain ⟨r, rfl⟩ := hrecords.plain hplain
      exact ⟨name', rfl, .inl ⟨r, List.mem_cons_self⟩⟩
    · exact ⟨name', rfl, .inr ⟨hopen, b, hlookup, hplain⟩⟩

theorem Onward.close {name : String} {a : Alias} {d : Declaration} (hclosed : name ∉ s.declaring)
    (h : Onward scope true { s with declaring := name :: s.declaring } u) (hrecords : scope.Records name a d)
    (hbases : ∀ r, d = .record r → ∀ base ∈ r.bases, scope.Supported u base) :
    Onward scope true s { u with declared := (name, d) :: u.declared, declaring := u.declaring.filter (· != name) } := by
  rw [filter_opened hclosed h.declaring]
  constructor
  case declared => exact List.subset_cons_of_subset _ h.declared
  case declaring => rfl
  case recorded => exact fun hs => List.forall_mem_cons.mpr ⟨⟨a, hrecords⟩, h.recorded hs⟩
  case upheld =>
    intro _ hs name' r hr base hbase
    have hopen : scope.Upheld { s with declaring := name :: s.declaring } := fun name r hr base hbase =>
      (hs name r hr base hbase).mono (List.Subset.refl _) (List.subset_cons_self _ _)
    have hbase : scope.Supported u base := by
      rcases List.mem_cons.mp hr with heq | hr
      · exact hbases r (Prod.mk.inj heq).2.symm base hbase
      · exact h.upheld rfl hopen name' r hr base hbase
    exact supported_close hbase h.declaring hrecords

end
end Draft

namespace TypeWriter

variable {scope : Scope} {w : TypeWriter} {name : String} {doc : Data}

/-- What is used at a place inside of a type leads onward. -/
structure Advancing (scope : Scope) (w : TypeWriter) : Prop where
  render : ∀ type hint, Advances scope (w.render type hint)
  declaration : ∀ key a, scope.aliases.lookup key = some a → Advances scope (w.declaration a)

section
variable (h : w.Advancing scope)
include h

theorem Advancing.record {fields : List Field} {bases : List String} : Advances scope (w.record name fields doc bases) := by
  apply Advances.lift.bind
  intro attributes
  apply Advances.bind
  · apply Advances.mapM
    intro f
    apply Advances.lift.bind
    intro part
    exact (h.render _ _).bind fun text => Advances.lift.bind fun doc => .pure
  · exact fun fields => .pure

theorem Advancing.isBase {t : TypeNode} : Advances scope (w.isBase scope t) := by
  unfold TypeWriter.isBase
  split
  case h_2 => exact .pure
  split
  case h_2 => exact .pure
  rename_i hlookup
  apply (h.declaration _ _ hlookup).bind
  intro d
  split
  · exact .pure
  · exact .pure

theorem Advancing.split {members : List TypeNode} : Advances scope (w.split scope members) := by
  induction members with
  | nil => exact .pure
  | cons m ms ih =>
    apply h.isBase.bind
    intro isBase
    split
    · split
      · exact ih.bind fun below => .pure
      · exact .pure
    · split
      · exact ih.bind fun below => .pure
      · exact .pure

theorem Advancing.merged {type : TypeNode} : Advances scope (w.merged scope name type doc) := by
  apply Advances.get.bind
  intro s
  split
  case h_3 => exact Advances.lift.bind fun kept => h.record.bind fun d => .pure
  all_goals exact .pure

theorem Advancing.compose {members : List TypeNode} : Advances scope (w.compose scope name members doc) := by
  apply h.split.bind
  intro parts
  split
  case h_3 =>
    apply h.record.bind
    intro d
    split
    · exact h.merged
    · exact .pure
  all_goals exact h.merged

theorem Advancing.union {members : List TypeNode} {hint : String} : Advances scope (w.union members hint) := by
  apply Advances.bind
  · apply Advances.foldlM
    intro u m
    split
    · exact .lift
    · exact (h.render _ _).bind fun part => .pure
  · exact fun u => .pure

theorem Advancing.renderWith {t : TypeNode} {hint : String} : Advances scope (w.renderWith scope t hint) := by
  have hinline : ∀ d, Advances scope (declareInline d) := fun d => Advances.addInline.bind fun _ => .pure
  unfold TypeWriter.renderWith
  split
  case h_4 => exact .lift
  case h_5 => exact (h.render _ _).bind fun items => .pure
  case h_6 => exact (h.render _ _).bind fun values => .pure
  case h_8 =>
    split
    · exact .pure
    · apply Advances.claim.bind
      intro name
      exact h.record.bind hinline
  case h_9 =>
    split
    · exact .pure
    · apply Advances.claim.bind
      intro name
      apply h.compose.bind
      intro found
      split
      · exact hinline _
      · exact .pure
  case h_10 => exact h.union
  all_goals exact .pure

theorem Advancing.make {a : Alias} : Advances scope (w.make scope name a) := by
  unfold TypeWriter.make
  split
  case h_1 => exact Advances.lift.bind fun e => .pure
  case h_2 => exact h.record.bind fun d => .pure
  case h_3 =>
    apply h.compose.bind
    intro found
    split
    · exact .pure
    · exact .pure
  case h_4 => exact (h.render _ _).bind fun text => .pure

/-- What a declaration is made of decides what it keeps; if it is not made, nothing is declared. -/
theorem Advancing.declare (hbuilds : w.Builds scope) (hkeyed : scope.Keyed) {key : String} {a : Alias}
    (hlookup : scope.aliases.lookup key = some a) : Advances scope (w.declare scope a) := by
  intro s
  obtain rfl := hkeyed key a hlookup
  apply Alike.get_bind
  dsimp only
  split
  · exact .pure .refl
  split
  case isTrue =>
    unfold placeholder
    split
    · exact (Advances.lift.bind fun attributes => .pure) s
    · exact .pure .refl
  case isFalse hopen =>
    have hclosed : a.name ∉ s.declaring := by simpa using hopen
    have hmake : Advances scope (w.make scope (scope.nameOf a.name) a) := h.make
    apply Alike.bind (Q := fun d v => Onward scope true s { v with declared := (a.name, d) :: v.declared })
    · apply alike_whileDeclaring
      apply (hmake _).and_runs.mono
      · rintro d u ⟨hu, hrun⟩
        obtain ⟨_, _, hplain, _⟩ := hbuilds.make hrun
        apply hu.close hclosed
        · refine ⟨hlookup, fun ha => ?_, ?_⟩
          · obtain ⟨r, rfl, _⟩ := hplain ha
            exact ⟨r, rfl⟩
          · rintro r rfl
            exact (hbuilds.makes_make hrun).1
        · rintro r rfl
          exact (hbuilds.makes_make hrun).2
      · exact fun _ u hu => hu.abandon hclosed
    · intro d v hv
      apply Alike.modify_bind
      exact .pure hv

end

theorem atDepth_advancing (hkeyed : scope.Keyed) (depth : Nat) : (atDepth scope depth).Advancing scope := by
  induction depth with
  | zero => exact ⟨fun _ _ _ => .throw .refl, fun _ _ _ _ => .throw .refl⟩
  | succ depth ih =>
    constructor
    · exact fun _ _ => ih.renderWith
    · exact fun _ _ hlookup => ih.declare (atDepth_builds hkeyed depth) hkeyed hlookup

end TypeWriter
end ClientBindings
