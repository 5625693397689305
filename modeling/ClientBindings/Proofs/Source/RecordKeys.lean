import ClientBindings.Proofs.Entries
import ClientBindings.Proofs.Source.Bases
import ClientBindings.Proofs.Source.Writer
import Mathlib.Logic.Relation

/-! The keys of records. A type says by itself which keys its values have: a record those of its fields, an
intersection those of its members, an alias those of the type that it stands for. A declaration has its own
fields and those of the declarations it is based on. Whether an intersection is built on its aliases or merged
into one record, these are the same keys. -/

namespace ClientBindings

open Draft

/-! ## Keys of types -/

/-- Some field has this key. -/
def Field.Keyed (fields : List Field) (key : Data) : Prop := ∃ f ∈ fields, f.name.same key = true

namespace Scope

/-- A value of the type has this key. -/
inductive HasKey (scope : Scope) : TypeNode → Data → Prop
  | field {fields : List Field} {index : Option TypeNode} {key : Data} : Field.Keyed fields key →
      HasKey scope (.object fields index) key
  | member {ts : List TypeNode} {t : TypeNode} {key : Data} : t ∈ ts → HasKey scope t key →
      HasKey scope (.intersection ts) key
  | follow {name given : String} {pointer target : Option String} {type : TypeNode} {comment key : Data} :
      scope.aliases.lookup name = some (.synonym given target type comment) → HasKey scope type key →
      HasKey scope (.reference name pointer) key

section
variable {scope : Scope} {key : Data}

theorem hasKey_object_iff {fields : List Field} {index : Option TypeNode} :
    scope.HasKey (.object fields index) key ↔ Field.Keyed fields key := by
  constructor
  · intro h
    cases h with
    | field hkeyed => exact hkeyed
  · exact .field

theorem hasKey_intersection_iff {ts : List TypeNode} :
    scope.HasKey (.intersection ts) key ↔ ∃ t ∈ ts, scope.HasKey t key := by
  constructor
  · intro h
    cases h with
    | member ht hkey => exact ⟨_, ht, hkey⟩
  · rintro ⟨t, ht, hkey⟩
    exact .member ht hkey

theorem hasKey_reference_iff {name given : String} {pointer target : Option String} {type : TypeNode} {comment : Data}
    (hlookup : scope.aliases.lookup name = some (.synonym given target type comment)) :
    scope.HasKey (.reference name pointer) key ↔ scope.HasKey type key := by
  constructor
  · intro h
    cases h with
    | follow hother hkey =>
      rw [hlookup] at hother
      cases hother
      exact hkey
  · exact .follow hlookup

/-! ## Merged fields -/

theorem keyed_append {fields more : List Field} : Field.Keyed (fields ++ more) key ↔ Field.Keyed fields key ∨ Field.Keyed more key := by
  unfold Field.Keyed
  constructor
  · rintro ⟨f, hf, hkey⟩
    rcases List.mem_append.mp hf with hf | hf
    · exact .inl ⟨f, hf, hkey⟩
    · exact .inr ⟨f, hf, hkey⟩
  · rintro (⟨f, hf, hkey⟩ | ⟨f, hf, hkey⟩)
    · exact ⟨f, List.mem_append_left _ hf, hkey⟩
    · exact ⟨f, List.mem_append_right _ hf, hkey⟩

mutual
theorem keyed_fieldsWith {follow : String → Option (List Field)}
    (hfollow : ∀ name pointer fields, follow name = some fields →
      ∀ key, Field.Keyed fields key ↔ scope.HasKey (.reference name pointer) key) :
    ∀ (t : TypeNode) (fields : List Field), t.fieldsWith follow = some fields →
      ∀ key, Field.Keyed fields key ↔ scope.HasKey t key
  | .object own _, fields, h, key => by
    rw [TypeNode.fieldsWith, Option.some.injEq] at h
    rw [hasKey_object_iff, h]
  | .intersection ts, fields, h, key => by
    rw [TypeNode.fieldsWith] at h
    rw [hasKey_intersection_iff]
    exact keyed_fieldsOfAll hfollow ts fields h key
  | .reference name pointer, fields, h, key => by
    rw [TypeNode.fieldsWith] at h
    exact hfollow name pointer fields h key
  | .any, _, h, _ | .never, _, h, _ | .primitive _, _, h, _ | .literal _, _, h, _ | .array _, _, h, _
  | .union _, _, h, _ | .supplied _, _, h, _ => by simp [TypeNode.fieldsWith] at h
theorem keyed_fieldsOfAll {follow : String → Option (List Field)}
    (hfollow : ∀ name pointer fields, follow name = some fields →
      ∀ key, Field.Keyed fields key ↔ scope.HasKey (.reference name pointer) key) :
    ∀ (ts : List TypeNode) (fields : List Field), TypeNode.fieldsOfAll follow ts = some fields →
      ∀ key, Field.Keyed fields key ↔ ∃ t ∈ ts, scope.HasKey t key
  | [], fields, h, key => by
    rw [TypeNode.fieldsOfAll, Option.some.injEq] at h
    subst h
    simp [Field.Keyed]
  | t :: ts, fields, h, key => by
    simp only [TypeNode.fieldsOfAll, Option.bind_eq_bind, Option.bind_eq_some_iff, Option.pure_def,
      Option.some.injEq] at h
    obtain ⟨first, hfirst, rest, hrest, rfl⟩ := h
    rw [keyed_append, keyed_fieldsWith hfollow t first hfirst key, keyed_fieldsOfAll hfollow ts rest hrest key]
    simp
end

/-- The fields that are found for a type have its keys. -/
theorem keyed_fieldsFor {barred : List String} {turns : Nat} {t : TypeNode} {fields : List Field}
    (h : scope.fieldsFor barred turns t = some fields) (key : Data) : Field.Keyed fields key ↔ scope.HasKey t key := by
  induction turns generalizing barred t fields key with
  | zero => cases h
  | succ turns ih =>
    refine keyed_fieldsWith ?_ t fields h key
    intro name pointer found hfound key
    split at hfound
    · cases hfound
    split at hfound
    · rename_i hlookup
      rw [hasKey_reference_iff hlookup]
      exact ih hfound key
    · cases hfound

end
end Scope

/-- Fields with their names as keys. -/
theorem Field.of_keyed {fields : List Field} {named : List (Scalar × Field)}
    (h : (fields.mapM fun f => return (← f.name.asKey, f) : Result _) = .ok named) :
    named.map Prod.snd = fields ∧ ∀ e ∈ named, e.2.name = .scalar e.1 := by
  have hround : ∀ (f : Field) (e : Scalar × Field), (return (← f.name.asKey, f) : Result _) = .ok e →
      e.2 = f ∧ f.name = .scalar e.1 := by
    intro f e he
    simp only [Result.bind_eq_ok_iff, Result.pure_eq_ok_iff] at he
    obtain ⟨key, hkey, rfl⟩ := he
    refine ⟨rfl, ?_⟩
    unfold Data.asKey at hkey
    split at hkey
    · rename_i heq
      rw [heq, Result.pure_eq_ok_iff.mp hkey]
    · cases hkey
  constructor
  · rw [Result.mapM_map (fun f e he => (hround f e he).1) h, List.map_id']
  · intro e he
    obtain ⟨f, _, hf⟩ := Result.exists_of_mem_mapM h he
    obtain ⟨rfl, hname⟩ := hround f e hf
    exact hname

/-- Leaving out earlier fields of the same name loses no keys. -/
theorem Field.keyed_distinct {fields kept : List Field} (h : Field.distinct fields = .ok kept) (key : Data) :
    Field.Keyed kept key ↔ Field.Keyed fields key := by
  constructor
  · rintro ⟨f, hf, hkey⟩
    exact ⟨f, Field.mem_of_mem_distinct h hf, hkey⟩
  · rintro ⟨f, hf, hkey⟩
    obtain ⟨named, hnamed, hkept⟩ := Result.bind_eq_ok_iff.mp h
    obtain rfl := Result.pure_eq_ok_iff.mp hkept
    obtain ⟨rfl, hnames⟩ := Field.of_keyed hnamed
    obtain ⟨e, he, rfl⟩ := List.mem_map.mp hf
    obtain ⟨name, g, hmem, hsame, hlookup⟩ := Entries.exists_find?_ofList Scalar.same_equivalence he
    obtain ⟨_, hg, _⟩ := Entries.mem_of_find? hlookup
    refine ⟨g, List.mem_map_of_mem hg, Data.same_trans ?_ hkey⟩
    rw [hnames _ hmem, hnames _ he, Data.same]
    exact hsame

/-! ## Keys of declarations -/

/-- The declaration itself has a field of this key. -/
def RecordDeclaration.Owns (d : RecordDeclaration) (key : Data) : Prop := ∃ f ∈ d.fields, f.name.same key = true

theorem RecordDeclaration.owns_iff {d : RecordDeclaration} {fields : List Field}
    (h : d.fields.map FieldDeclaration.name = fields.map FieldOf.name) (key : Data) :
    d.Owns key ↔ Field.Keyed fields key := by
  have hnames : ∀ n, n ∈ d.fields.map FieldDeclaration.name ↔ n ∈ fields.map FieldOf.name := fun n => by rw [h]
  simp only [List.mem_map] at hnames
  constructor
  · rintro ⟨f, hf, hkey⟩
    obtain ⟨g, hg, hname⟩ := (hnames f.name).mp ⟨f, hf, rfl⟩
    exact ⟨g, hg, hname ▸ hkey⟩
  · rintro ⟨f, hf, hkey⟩
    obtain ⟨g, hg, hname⟩ := (hnames f.name).mpr ⟨f, hf, rfl⟩
    exact ⟨g, hg, hname ▸ hkey⟩

namespace Scope

/-- A declaration has its own keys and those of its bases, which are looked up among the declarations of aliases. -/
inductive DeclaresKey (scope : Scope) (declared : List (String × Declaration)) : RecordDeclaration → Data → Prop
  | own {d : RecordDeclaration} {key : Data} : d.Owns key → DeclaresKey scope declared d key
  | base {d r : RecordDeclaration} {name : String} {key : Data} : scope.nameOf name ∈ d.bases →
      (name, .record r) ∈ declared → DeclaresKey scope declared r key → DeclaresKey scope declared d key

/-- One declaration is a base of the other. -/
def BuiltOn (scope : Scope) (declared : List (String × Declaration)) (d r : RecordDeclaration) : Prop :=
  ∃ name, scope.nameOf name ∈ d.bases ∧ (name, .record r) ∈ declared

/-- All bases are declared, and theirs as well. -/
def Resolved (scope : Scope) (declared : List (String × Declaration)) (d : RecordDeclaration) : Prop :=
  ∀ r, Relation.ReflTransGen (scope.BuiltOn declared) d r → ∀ base ∈ r.bases,
    ∃ name q, base = scope.nameOf name ∧ (name, .record q) ∈ declared

/-- How the members of an intersection become bases and fields. -/
inductive Splits (scope : Scope) : List TypeNode → List String → List Field → Prop
  | nil : Splits scope [] [] []
  | base {name given : String} {pointer target : Option String} {type : TypeNode} {comment : Data} {ts : List TypeNode}
      {bases : List String} {fields : List Field} :
      scope.aliases.lookup name = some (.synonym given target type comment) → Splits scope ts bases fields →
      Splits scope (.reference name pointer :: ts) (scope.nameOf name :: bases) fields
  | fields {own : List Field} {index : Option TypeNode} {ts : List TypeNode} {bases : List String}
      {fields : List Field} : Splits scope ts bases fields →
      Splits scope (.object own index :: ts) bases (own ++ fields)

/-- A record that can be made of a type: with all keys in it, or based on the aliases of an intersection. -/
inductive Makes (scope : Scope) (d : RecordDeclaration) : TypeNode → Prop
  | whole {t : TypeNode} : d.bases = [] → (∀ key, d.Owns key ↔ scope.HasKey t key) → Makes scope d t
  | based {ts : List TypeNode} {fields : List Field} : scope.Splits ts d.bases fields →
      (∀ key, d.Owns key ↔ Field.Keyed fields key) → Makes scope d (.intersection ts)

/-- What is declared for an alias. Only a synonym becomes a record, and a plain one always does. -/
structure Records (scope : Scope) (name : String) (a : Alias) (d : Declaration) : Prop where
  lookup : scope.aliases.lookup name = some a
  plain : a.IsPlain → ∃ r, d = .record r
  makes : ∀ r, d = .record r → ∃ given target type comment, a = .synonym given target type comment ∧ scope.Makes r type

def Recorded (scope : Scope) (declared : List (String × Declaration)) : Prop :=
  ∀ e ∈ declared, ∃ a, scope.Records e.1 a e.2

/-- Different aliases have different names. -/
def NamesApart (scope : Scope) : Prop := ∀ name a name' a', scope.aliases.lookup name = some a →
  scope.aliases.lookup name' = some a' → scope.nameOf name = scope.nameOf name' → name = name'

section
variable {scope : Scope} {declared : List (String × Declaration)} {d r : RecordDeclaration} {key : Data}

theorem Resolved.base (h : scope.Resolved declared d) (hbase : scope.BuiltOn declared d r) : scope.Resolved declared r :=
  fun q hq => h q (.head hbase hq)

section
variable {ts : List TypeNode} {bases : List String} {fields : List Field}

theorem Splits.exists_reference (h : scope.Splits ts bases fields) {base : String} (hbase : base ∈ bases) :
    ∃ name pointer given target type comment, .reference name pointer ∈ ts ∧ base = scope.nameOf name ∧
      scope.aliases.lookup name = some (.synonym given target type comment) := by
  induction h with
  | nil => exact absurd hbase List.not_mem_nil
  | base hlookup _ ih =>
    rcases List.mem_cons.mp hbase with rfl | hbase
    · exact ⟨_, _, _, _, _, _, List.mem_cons_self, rfl, hlookup⟩
    · obtain ⟨name, pointer, given, target, type, comment, hmem, hrest⟩ := ih hbase
      exact ⟨name, pointer, given, target, type, comment, List.mem_cons_of_mem _ hmem, hrest⟩
  | fields _ ih =>
    obtain ⟨name, pointer, given, target, type, comment, hmem, hrest⟩ := ih hbase
    exact ⟨name, pointer, given, target, type, comment, List.mem_cons_of_mem _ hmem, hrest⟩

theorem Splits.exists_object (h : scope.Splits ts bases fields) {f : Field} (hf : f ∈ fields) :
    ∃ own index, .object own index ∈ ts ∧ f ∈ own := by
  induction h with
  | nil => exact absurd hf List.not_mem_nil
  | base _ _ ih =>
    obtain ⟨own, index, hmem, hf⟩ := ih hf
    exact ⟨own, index, List.mem_cons_of_mem _ hmem, hf⟩
  | fields _ ih =>
    rcases List.mem_append.mp hf with hf | hf
    · exact ⟨_, _, List.mem_cons_self, hf⟩
    · obtain ⟨own, index, hmem, hf⟩ := ih hf
      exact ⟨own, index, List.mem_cons_of_mem _ hmem, hf⟩

theorem Splits.member (h : scope.Splits ts bases fields) {t : TypeNode} (ht : t ∈ ts) :
    (∃ own index, t = .object own index ∧ own ⊆ fields) ∨
      ∃ name pointer a, t = .reference name pointer ∧ scope.aliases.lookup name = some a ∧ scope.nameOf name ∈ bases := by
  induction h with
  | nil => exact absurd ht List.not_mem_nil
  | base hlookup _ ih =>
    rcases List.mem_cons.mp ht with rfl | ht
    · exact .inr ⟨_, _, _, rfl, hlookup, List.mem_cons_self⟩
    · refine (ih ht).imp_right ?_
      rintro ⟨name, pointer, a, rfl, hlookup, hbase⟩
      exact ⟨name, pointer, a, rfl, hlookup, List.mem_cons_of_mem _ hbase⟩
  | fields _ ih =>
    rcases List.mem_cons.mp ht with rfl | ht
    · exact .inl ⟨_, _, rfl, List.subset_append_left _ _⟩
    · refine (ih ht).imp_left ?_
      rintro ⟨own, index, rfl, hsub⟩
      exact ⟨own, index, rfl, List.Subset.trans hsub (List.subset_append_right _ _)⟩

end

/-! ## The same keys -/

variable (hrecorded : scope.Recorded declared) (hapart : scope.NamesApart)
include hrecorded hapart

/-- A declaration has no keys that its type lacks. -/
theorem hasKey_of_declaresKey {t : TypeNode} (hmakes : scope.Makes d t) (hkey : scope.DeclaresKey declared d key) :
    scope.HasKey t key := by
  induction hkey generalizing t with
  | own howns =>
    cases hmakes with
    | whole _ hkeys => exact (hkeys _).mp howns
    | based hsplits hkeys =>
      obtain ⟨f, hf, hkey⟩ := (hkeys _).mp howns
      obtain ⟨own, index, hmem, hf⟩ := hsplits.exists_object hf
      exact .member hmem (.field ⟨f, hf, hkey⟩)
  | base hbase hdeclared _ ih =>
    cases hmakes with
    | whole hbases _ =>
      rw [hbases] at hbase
      exact absurd hbase List.not_mem_nil
    | based hsplits _ =>
      obtain ⟨name, pointer, given, target, type, comment, hmem, hname, hlookup⟩ := hsplits.exists_reference hbase
      obtain ⟨a, hrecords⟩ := hrecorded _ hdeclared
      obtain rfl := hapart _ _ _ _ hrecords.lookup hlookup hname
      obtain ⟨_, _, _, _, rfl, hmakes⟩ := hrecords.makes _ rfl
      exact .member hmem (.follow hrecords.lookup (ih hmakes))

/-- A declaration lacks no key of its type when all that it is built on is declared. The induction is on the way
to the key, which for a reference leads through the type of its alias. -/
theorem declares_of_hasKey {t : TypeNode} (hkey : scope.HasKey t key) :
    (∀ d, scope.Makes d t → scope.Resolved declared d → scope.DeclaresKey declared d key) ∧
      ∀ name pointer, t = .reference name pointer → ∀ d, (name, .record d) ∈ declared →
        scope.Resolved declared d → scope.DeclaresKey declared d key := by
  induction hkey with
  | field hkeyed =>
    refine ⟨fun d hmakes _ => ?_, fun _ _ h => nomatch h⟩
    cases hmakes with
    | whole _ hkeys => exact .own ((hkeys _).mpr (.field hkeyed))
  | member ht hkey ih =>
    refine ⟨fun d hmakes hresolved => ?_, fun _ _ h => nomatch h⟩
    cases hmakes with
    | whole _ hkeys => exact .own ((hkeys _).mpr (.member ht hkey))
    | based hsplits hkeys =>
      rcases hsplits.member ht with ⟨own, index, rfl, hsub⟩ | ⟨name, pointer, a, rfl, hlookup, hbase⟩
      · obtain ⟨f, hf, hname⟩ := hasKey_object_iff.mp hkey
        exact .own ((hkeys _).mpr ⟨f, hsub hf, hname⟩)
      · obtain ⟨name', r, hname, hdeclared⟩ := hresolved d .refl _ hbase
        obtain ⟨_, hrecords⟩ := hrecorded _ hdeclared
        obtain rfl := hapart _ _ _ _ hlookup hrecords.lookup hname
        exact .base hbase hdeclared (ih.2 name pointer rfl r hdeclared (hresolved.base ⟨name, hbase, hdeclared⟩))
  | follow hlookup hkey ih =>
    refine ⟨fun d hmakes _ => ?_, ?_⟩
    · cases hmakes with
      | whole _ hkeys => exact .own ((hkeys _).mpr (.follow hlookup hkey))
    · rintro _ _ ⟨⟩ d hdeclared hresolved
      obtain ⟨a, hrecords⟩ := hrecorded _ hdeclared
      obtain ⟨_, _, _, _, rfl, hmakes⟩ := hrecords.makes _ rfl
      obtain ⟨⟩ := Option.some.inj (hlookup.symm.trans hrecords.lookup)
      exact ih.1 d hmakes hresolved

theorem Makes.declaresKey_iff {t : TypeNode} (hmakes : scope.Makes d t) (hresolved : scope.Resolved declared d) :
    scope.DeclaresKey declared d key ↔ scope.HasKey t key := by
  constructor
  · exact hasKey_of_declaresKey hrecorded hapart hmakes
  · intro hkey
    exact (declares_of_hasKey hrecorded hapart hkey).1 d hmakes hresolved

end
end Scope
end ClientBindings
