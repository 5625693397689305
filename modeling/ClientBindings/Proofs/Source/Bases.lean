import ClientBindings.Proofs.Source.Drafting

/-! Records that are built on others. While aliases are declared inside of each other, a base is either a
plain alias, which has the same shape once it is declared, or an alias that is declared already. So the
aliases declared so far form a stack in which everything stands above its bases, and nothing is ever taken
from it. -/

namespace ClientBindings

open Draft

/-- An alias of a record in class form with fields of its own. Its declaration has no bases, and what stands
in for it until it is declared has the same form. -/
def Alias.IsPlain (a : Alias) : Prop := ∃ name pointer f fields index comment,
  a = .synonym name pointer (.object (f :: fields) index) comment ∧ Field.allAttributes (f :: fields) = .ok true

namespace Scope

/-- A name that can be a base: that of a plain alias, or of a declared one in class form. -/
def Based (scope : Scope) (declared : List (String × Declaration)) (base : String) : Prop :=
  ∃ key a, scope.aliases.lookup key = some a ∧ base = scope.nameOf key ∧
    (a.IsPlain ∨ ∃ r, (key, .record r) ∈ declared ∧ r.functional = false)

/-- Every declaration is built on what was declared before it. -/
def Layered (scope : Scope) : List (String × Declaration) → Prop
  | [] => True
  | e :: before => (∀ base ∈ e.2.bases, scope.Based before base) ∧ Layered scope before

/-- What the declaration of an alias is like. -/
structure Declares (scope : Scope) (key : String) (a : Alias) (d : Declaration) : Prop where
  name : d.name = scope.nameOf key
  plain : a.IsPlain → ∃ r, d = .record r ∧ r.functional = false ∧ r.bases = []

def Keyed (scope : Scope) : Prop := ∀ key a, scope.aliases.lookup key = some a → a.name = key

theorem keyed_of_aliases {scope : Scope} {aliases : List Alias} (h : scope.aliases = aliases.map fun a => (a.name, a)) :
    scope.Keyed := by
  intro key a hlookup
  obtain ⟨b, _, heq⟩ := List.mem_map.mp (h ▸ Entries.mem_of_lookup hlookup)
  cases heq
  rfl

theorem Based.mono {scope : Scope} {declared more : List (String × Declaration)} (hsub : declared ⊆ more) {base : String}
    (h : scope.Based declared base) : scope.Based more base := by
  obtain ⟨key, a, hlookup, hname, hbase⟩ := h
  exact ⟨key, a, hlookup, hname, hbase.imp_right fun ⟨r, hr, hfunctional⟩ => ⟨r, hsub hr, hfunctional⟩⟩

end Scope

namespace Draft

/-- What holds of a draft in which some names are used for other things than its declarations. -/
structure Stacked (scope : Scope) (s : Draft) (used : List String) : Prop where
  distinct : (used ++ s.inline.map Declaration.name).Nodup
  taken : ∀ n ∈ used ++ s.inline.map Declaration.name, n ∈ s.taken
  keys : (s.declared.map Prod.fst).Nodup
  /-- What is being declared is not declared yet. -/
  apart : ∀ key ∈ s.declaring, key ∉ s.declared.map Prod.fst
  declared : ∀ e ∈ s.declared, ∃ a, scope.aliases.lookup e.1 = some a ∧ scope.Declares e.1 a e.2
  layered : scope.Layered s.declared
  inline : ∀ d ∈ s.inline, ∀ base ∈ d.bases, scope.Based s.declared base

/-- From one draft to a later one. -/
structure Leads (scope : Scope) (s t : Draft) : Prop where
  declared : s.declared <:+ t.declared
  declaring : t.declaring = s.declaring
  stacked : ∀ used, Stacked scope s used → Stacked scope t used

section
variable {scope : Scope} {s t u : Draft} {used : List String}

theorem Leads.refl (scope : Scope) (s : Draft) : Leads scope s s := ⟨List.suffix_refl _, rfl, fun _ h => h⟩

theorem Leads.trans (hst : Leads scope s t) (htu : Leads scope t u) : Leads scope s u where
  declared := hst.declared.trans htu.declared
  declaring := htu.declaring.trans hst.declaring
  stacked used h := htu.stacked used (hst.stacked used h)

theorem Leads.based (h : Leads scope s t) {base : String} (hbase : scope.Based s.declared base) :
    scope.Based t.declared base := hbase.mono h.declared.subset

theorem Stacked.drop {n : String} (h : Stacked scope s (n :: used)) : Stacked scope s used where
  distinct := (List.nodup_cons.mp h.distinct).2
  taken m hm := h.taken m (List.mem_cons_of_mem n hm)
  keys := h.keys
  apart := h.apart
  declared := h.declared
  layered := h.layered
  inline := h.inline

theorem runs_claim_state {name n : String} (h : Runs (claim name) s n t) :
    t = { s with taken := n :: s.taken } ∧ n ∉ s.taken := by
  simp only [claim, Runs.bind_iff, Runs.get_iff, Runs.set_iff, Runs.pure_iff] at h
  obtain ⟨_, s, ⟨rfl, rfl⟩, _, _, rfl, rfl, rfl⟩ := h
  exact ⟨rfl, freshName_not_mem s.taken name⟩

theorem stacked_claim {name n : String} (hs : Stacked scope s used) (h : Runs (claim name) s n t) :
    Stacked scope t (n :: used) := by
  obtain ⟨rfl, hfresh⟩ := runs_claim_state h
  constructor
  case distinct => exact List.nodup_cons.mpr ⟨fun hn => hfresh (hs.taken n hn), hs.distinct⟩
  case taken =>
    intro m hm
    rcases List.mem_cons.mp hm with rfl | hm
    · exact List.mem_cons_self
    · exact List.mem_cons_of_mem n (hs.taken m hm)
  case keys => exact hs.keys
  case apart => exact hs.apart
  case declared => exact hs.declared
  case layered => exact hs.layered
  case inline => exact hs.inline

theorem leads_claim {name n : String} (h : Runs (claim name) s n t) : Leads scope s t where
  declared := (runs_claim_state h).1 ▸ List.suffix_refl _
  declaring := (runs_claim_state h).1 ▸ rfl
  stacked _ hs := (stacked_claim hs h).drop

theorem stacked_addInline {d : Declaration} (hs : Stacked scope s (d.name :: used))
    (hbases : ∀ base ∈ d.bases, scope.Based s.declared base) :
    Stacked scope { s with inline := s.inline ++ [d] } used := by
  have hperm : (used ++ (s.inline ++ [d]).map Declaration.name).Perm
      (d.name :: used ++ s.inline.map Declaration.name) := by
    rw [List.map_append, List.map_singleton, ← List.append_assoc]
    exact List.perm_append_singleton _ _
  constructor
  case distinct => exact hperm.nodup_iff.mpr hs.distinct
  case taken => exact fun n hn => hs.taken n (hperm.mem_iff.mp hn)
  case keys => exact hs.keys
  case apart => exact hs.apart
  case declared => exact hs.declared
  case layered => exact hs.layered
  case inline =>
    intro e he
    rcases List.mem_append.mp he with he | he
    · exact hs.inline e he
    · rwa [List.mem_singleton.mp he]

/-- A record that is declared where it stands: its name is claimed first, then its fields are written. -/
theorem leads_declareInline {hint name text : String} {d : RecordDeclaration} {v : Draft}
    (hclaim : Runs (TypeWriter.claimHint hint) s name u) (huv : Leads scope u v) (hname : d.name = name)
    (hbases : ∀ base ∈ d.bases, scope.Based v.declared base) (h : Runs (TypeWriter.declareInline d) v text t) :
    Leads scope s t := by
  obtain ⟨_, _, hadd, hpure⟩ := Runs.bind_iff.mp h
  obtain ⟨rfl, rfl⟩ := Runs.pure_iff.mp hpure
  obtain rfl := Runs.modify_iff.mp hadd
  have hsv : Leads scope s v := (leads_claim hclaim).trans huv
  refine ⟨hsv.declared, hsv.declaring, fun used hs => ?_⟩
  subst hname
  exact stacked_addInline (huv.stacked _ (stacked_claim hs hclaim)) hbases

/-- What was opened last is taken away again. -/
theorem filter_opened {key : String} {declaring opened : List String} (hclosed : key ∉ declaring)
    (h : opened = key :: declaring) : opened.filter (· != key) = declaring := by
  have hkept : declaring.filter (· != key) = declaring := by
    rw [List.filter_eq_self]
    intro other hother
    simpa using fun heq : other = key => hclosed (heq ▸ hother)
  rw [h, List.filter_cons_of_neg (by simp), hkept]

/-- An alias is declared when what was declared inside of it is. -/
theorem leads_declared {key : String} {a : Alias} {d : Declaration} (hlookup : scope.aliases.lookup key = some a)
    (hnew : s.declared.lookup key = none) (hclosed : key ∉ s.declaring)
    (h : Leads scope { s with declaring := key :: s.declaring } u) (hd : scope.Declares key a d)
    (hbases : ∀ base ∈ d.bases, scope.Based u.declared base) :
    Leads scope s { u with declared := (key, d) :: u.declared, declaring := u.declaring.filter (· != key) } := by
  have hdeclaring := filter_opened hclosed h.declaring
  refine ⟨h.declared.trans (List.suffix_cons _ _), hdeclaring, fun used hs => ?_⟩
  have hopen : Stacked scope { s with declaring := key :: s.declaring } used := by
    constructor
    case apart =>
      intro other hother
      rcases List.mem_cons.mp hother with rfl | hother
      · intro hmem
        obtain ⟨e, he, hkey⟩ := List.mem_map.mp hmem
        have hne := List.lookup_eq_none_iff.mp hnew e he
        simp [hkey] at hne
      · exact hs.apart other hother
    case distinct => exact hs.distinct
    case taken => exact hs.taken
    case keys => exact hs.keys
    case declared => exact hs.declared
    case layered => exact hs.layered
    case inline => exact hs.inline
  have hu := h.stacked used hopen
  have hfresh : key ∉ u.declared.map Prod.fst := hu.apart key (h.declaring ▸ List.mem_cons_self)
  constructor
  case distinct => exact hu.distinct
  case taken => exact hu.taken
  case keys => exact List.nodup_cons.mpr ⟨hfresh, hu.keys⟩
  case apart =>
    intro other hother hmem
    obtain ⟨hother, hne⟩ := List.mem_filter.mp hother
    rcases List.mem_cons.mp hmem with rfl | hmem
    · simp at hne
    · exact hu.apart other hother hmem
  case declared =>
    intro e he
    rcases List.mem_cons.mp he with rfl | he
    · exact ⟨a, hlookup, hd⟩
    · exact hu.declared e he
  case layered => exact ⟨hbases, hu.layered⟩
  case inline => exact fun e he base hbase => (hu.inline e he base hbase).mono (List.subset_cons_self _ _)

end

end Draft

namespace TypeWriter

variable {scope : Scope} {w : TypeWriter} {s t : Draft}

/-- A writer that takes nothing from the stack and offers nothing as a base that cannot be one. -/
structure Builds (scope : Scope) (w : TypeWriter) : Prop where
  render : ∀ type hint s text t, Runs (w.render type hint) s text t → Leads scope s t
  declaration : ∀ key a, scope.aliases.lookup key = some a → ∀ s d t, Runs (w.declaration a) s d t →
    Leads scope s t ∧ ((key, d) ∈ t.declared ∨
      key ∈ s.declaring ∧ ∀ r, d = .record r → r.functional = false → a.IsPlain)

/-- What stands in for an alias has the form of the alias. -/
theorem runs_placeholder_plain {name : String} {a : Alias} {d : Declaration} (hrun : Runs (placeholder name a) s d t) :
    t = s ∧ ∀ r, d = .record r → r.functional = false → a.IsPlain := by
  unfold placeholder at hrun
  split at hrun
  · rename_i f fields index comment
    simp only [Runs.bind_iff, Runs.pure_iff, Runs.lift_iff] at hrun
    obtain ⟨attributes, _, ⟨hattributes, rfl⟩, rfl, rfl⟩ := hrun
    refine ⟨rfl, ?_⟩
    rintro _ ⟨⟩ hclass
    refine ⟨_, _, _, _, _, _, rfl, ?_⟩
    rw [hattributes]
    simpa using hclass
  · obtain ⟨rfl, rfl⟩ := Runs.pure_iff.mp hrun
    refine ⟨rfl, ?_⟩
    rintro _ ⟨⟩

section
variable (h : w.Builds scope)
include h

theorem Builds.record {name : String} {fields : List Field} {doc : Data} {bases : List String}
    {d : RecordDeclaration} (hrun : Runs (w.record name fields doc bases) s d t) :
    Leads scope s t ∧ d.name = name ∧ d.bases = bases ∧ Field.allAttributes fields = .ok (!d.functional) := by
  simp only [TypeWriter.record, Runs.bind_iff, Runs.pure_iff, Runs.lift_iff] at hrun
  obtain ⟨attributes, s, ⟨hattributes, rfl⟩, declared, _, hdeclared, rfl, rfl⟩ := hrun
  refine ⟨?_, rfl, rfl, by rw [hattributes, Bool.not_not]⟩
  refine Runs.mapM_keeps (Leads scope s) ?_ (.refl scope s) hdeclared
  intro f _ u d v hu hfield
  obtain ⟨part, text, doc, -, hrender, rfl⟩ := runs_field hfield
  exact hu.trans (h.render _ _ _ _ _ hrender)

theorem Builds.isBase {type : TypeNode} {found : Bool} (hrun : Runs (w.isBase scope type) s found t) :
    Leads scope s t ∧ (found = true → ∀ key pointer, type = .reference key pointer →
      scope.Based t.declared (scope.nameOf key)) := by
  unfold TypeWriter.isBase at hrun
  split at hrun
  case h_2 =>
    obtain ⟨rfl, rfl⟩ := Runs.pure_iff.mp hrun
    exact ⟨.refl scope _, fun hfound => nomatch hfound⟩
  rename_i key pointer
  split at hrun
  case h_2 =>
    obtain ⟨rfl, rfl⟩ := Runs.pure_iff.mp hrun
    exact ⟨.refl scope _, fun hfound => nomatch hfound⟩
  rename_i a _ _ _ _ hlookup
  obtain ⟨d, u, hd, hrun⟩ := Runs.bind_iff.mp hrun
  obtain ⟨hsu, hoffered⟩ := h.declaration key _ hlookup s d u hd
  split at hrun
  case h_2 =>
    obtain ⟨rfl, rfl⟩ := Runs.pure_iff.mp hrun
    exact ⟨hsu, fun hfound => nomatch hfound⟩
  rename_i r
  obtain ⟨rfl, rfl⟩ := Runs.pure_iff.mp hrun
  refine ⟨hsu, fun hclass => ?_⟩
  rintro _ _ ⟨⟩
  have hclass : r.functional = false := by simpa using hclass
  refine ⟨key, _, hlookup, rfl, ?_⟩
  rcases hoffered with hdeclared | ⟨_, hplain⟩
  · exact Or.inr ⟨r, hdeclared, hclass⟩
  · exact Or.inl (hplain r rfl hclass)

theorem Builds.split {members : List TypeNode} {found : Option (List String × List Field)}
    (hrun : Runs (w.split scope members) s found t) : Leads scope s t ∧
      ∀ bases fields, found = some (bases, fields) → ∀ base ∈ bases, scope.Based t.declared base := by
  induction members generalizing s found with
  | nil =>
    obtain ⟨rfl, rfl⟩ := Runs.pure_iff.mp hrun
    refine ⟨.refl scope _, ?_⟩
    rintro _ _ ⟨⟩ base hbase
    exact absurd hbase List.not_mem_nil
  | cons m ms ih =>
    obtain ⟨isBase, u, hbase, hrun⟩ := Runs.bind_iff.mp hrun
    obtain ⟨hsu, hbased⟩ := h.isBase hbase
    split at hrun
    case isTrue hfound =>
      split at hrun
      case h_2 =>
        obtain ⟨rfl, rfl⟩ := Runs.pure_iff.mp hrun
        exact ⟨hsu, fun _ _ heq => nomatch heq⟩
      obtain ⟨below, v, hbelow, hpure⟩ := Runs.bind_iff.mp hrun
      obtain ⟨rfl, rfl⟩ := Runs.pure_iff.mp hpure
      obtain ⟨hut, hrest⟩ := ih hbelow
      refine ⟨hsu.trans hut, ?_⟩
      intro bases fields hsome base hmem
      obtain ⟨p, rfl, hparts⟩ := Option.map_eq_some_iff.mp hsome
      obtain ⟨rfl, rfl⟩ := Prod.mk.inj hparts
      rcases List.mem_cons.mp hmem with rfl | hmem
      · exact hut.based (hbased hfound _ _ rfl)
      · exact hrest _ _ rfl base hmem
    case isFalse =>
      split at hrun
      · obtain ⟨below, v, hbelow, hpure⟩ := Runs.bind_iff.mp hrun
        obtain ⟨rfl, rfl⟩ := Runs.pure_iff.mp hpure
        obtain ⟨hut, hrest⟩ := ih hbelow
        refine ⟨hsu.trans hut, ?_⟩
        intro bases fields hsome base hmem
        obtain ⟨p, rfl, hparts⟩ := Option.map_eq_some_iff.mp hsome
        obtain ⟨rfl, rfl⟩ := Prod.mk.inj hparts
        exact hrest _ _ rfl base hmem
      · obtain ⟨rfl, rfl⟩ := Runs.pure_iff.mp hrun
        exact ⟨hsu, fun _ _ heq => nomatch heq⟩

theorem Builds.merged {name : String} {type : TypeNode} {doc : Data} {found : Option RecordDeclaration}
    (hrun : Runs (w.merged scope name type doc) s found t) :
    Leads scope s t ∧ ∀ d, found = some d → d.name = name ∧ d.bases = [] := by
  simp only [TypeWriter.merged, Runs.bind_iff, Runs.get_iff] at hrun
  obtain ⟨_, _, ⟨rfl, rfl⟩, hrun⟩ := hrun
  split at hrun
  case h_3 =>
    simp only [Runs.bind_iff, Runs.pure_iff, Runs.lift_iff] at hrun
    obtain ⟨kept, _, ⟨_, rfl⟩, d, _, hrecord, rfl, rfl⟩ := hrun
    obtain ⟨hst, hname, hbases, _⟩ := h.record hrecord
    refine ⟨hst, ?_⟩
    rintro _ ⟨⟩
    exact ⟨hname, hbases⟩
  all_goals
    obtain ⟨rfl, rfl⟩ := Runs.pure_iff.mp hrun
    refine ⟨.refl scope _, ?_⟩
    rintro _ ⟨⟩

/-- What bases are offered while the members are read stay bases while the fields are written. -/
theorem Builds.compose {name : String} {members : List TypeNode} {doc : Data} {found : Option RecordDeclaration}
    (hrun : Runs (w.compose scope name members doc) s found t) : Leads scope s t ∧
      ∀ d, found = some d → d.name = name ∧ ∀ base ∈ d.bases, scope.Based t.declared base := by
  obtain ⟨parts, u, hsplit, hrun⟩ := Runs.bind_iff.mp hrun
  obtain ⟨hsu, hparts⟩ := h.split hsplit
  have hmerged : ∀ {v : Draft}, Leads scope s v → Runs (w.merged scope name (.intersection members) doc) v found t →
      Leads scope s t ∧ ∀ d, found = some d → d.name = name ∧ ∀ base ∈ d.bases, scope.Based t.declared base := by
    intro v hsv hrun
    obtain ⟨hvt, hfound⟩ := h.merged hrun
    refine ⟨hsv.trans hvt, fun d hd => ⟨(hfound d hd).1, fun base hbase => ?_⟩⟩
    rw [(hfound d hd).2] at hbase
    exact absurd hbase List.not_mem_nil
  split at hrun
  case h_3 =>
    rename_i bases fields _
    obtain ⟨d, v, hrecord, hrun⟩ := Runs.bind_iff.mp hrun
    obtain ⟨huv, hname, hbases, _⟩ := h.record hrecord
    split at hrun
    · exact hmerged (hsu.trans huv) hrun
    · obtain ⟨rfl, rfl⟩ := Runs.pure_iff.mp hrun
      refine ⟨hsu.trans huv, ?_⟩
      rintro _ ⟨⟩
      exact ⟨hname, fun base hbase => huv.based (hparts bases fields rfl base (hbases ▸ hbase))⟩
  all_goals exact hmerged hsu hrun

theorem Builds.union {members : List TypeNode} {hint text : String} (hrun : Runs (w.union members hint) s text t) :
    Leads scope s t := by
  obtain ⟨_, _, hrun, hpure⟩ := Runs.bind_iff.mp hrun
  obtain ⟨rfl, rfl⟩ := Runs.pure_iff.mp hpure
  refine Runs.foldlM_keeps (Leads scope s) ?_ (.refl scope s) hrun
  intro m _ a u b v hu hstep
  split at hstep
  · obtain ⟨-, rfl, rfl⟩ := Runs.guarded_iff.mp hstep
    exact hu
  · simp only [Runs.bind_iff, Runs.pure_iff] at hstep
    obtain ⟨part, _, hrender, rfl, rfl⟩ := hstep
    exact hu.trans (h.render _ _ _ _ _ hrender)

theorem Builds.renderWith {type : TypeNode} {hint text : String} (hrun : Runs (w.renderWith scope type hint) s text t) :
    Leads scope s t := by
  have hplain : ∀ {u : Draft} {name : String}, Leads scope s u → Runs (pure name : M String) u text t →
      Leads scope s t := fun hsu hrun => (Runs.pure_iff.mp hrun).2 ▸ hsu
  have hpart : ∀ {part : TypeNode} {partHint : String} {wrap : String → String},
      Runs (do return wrap (← w.render part partHint) : M String) s text t → Leads scope s t := by
    intro part partHint wrap hrun
    obtain ⟨inner, u, hinner, hrun⟩ := Runs.bind_iff.mp hrun
    exact hplain (h.render _ _ _ _ _ hinner) hrun
  unfold TypeWriter.renderWith at hrun
  split at hrun
  case h_4 => exact (Runs.lift_iff.mp hrun).2 ▸ .refl scope s
  case h_5 => exact hpart hrun
  case h_6 => exact hpart hrun
  case h_8 =>
    split at hrun
    · exact hplain (.refl scope s) hrun
    · simp only [Runs.bind_iff] at hrun
      obtain ⟨name, u, hclaim, d, v, hrecord, hdeclare⟩ := hrun
      obtain ⟨huv, hname, hbases, _⟩ := h.record hrecord
      exact leads_declareInline hclaim huv hname (fun base hbase => by simp [hbases] at hbase) hdeclare
  case h_9 =>
    split at hrun
    · exact hplain (.refl scope s) hrun
    · simp only [Runs.bind_iff] at hrun
      obtain ⟨name, u, hclaim, found, v, hcompose, hrun⟩ := hrun
      obtain ⟨huv, hfound⟩ := h.compose hcompose
      cases found with
      | none => exact hplain ((leads_claim hclaim).trans huv) hrun
      | some d =>
        obtain ⟨hname, hbases⟩ := hfound d rfl
        exact leads_declareInline hclaim huv hname hbases hrun
  case h_10 => exact h.union hrun
  all_goals exact hplain (.refl scope s) hrun

theorem Builds.make {name : String} {a : Alias} {d : Declaration} (hrun : Runs (w.make scope name a) s d t) :
    Leads scope s t ∧ d.name = name ∧ (a.IsPlain → ∃ r, d = .record r ∧ r.functional = false ∧ r.bases = []) ∧
      ∀ base ∈ d.bases, scope.Based t.declared base := by
  unfold TypeWriter.make at hrun
  split at hrun
  case h_1 =>
    obtain ⟨rfl, rfl⟩ := runs_enumeration hrun
    refine ⟨.refl scope _, rfl, ?_, fun base hbase => absurd hbase List.not_mem_nil⟩
    rintro ⟨_, _, _, _, _, _, heq, _⟩
    cases heq
  case h_2 f fields index comment =>
    simp only [Runs.bind_iff, Runs.pure_iff] at hrun
    obtain ⟨r, _, hrecord, rfl, rfl⟩ := hrun
    obtain ⟨hst, hname, hbases, hattributes⟩ := h.record hrecord
    refine ⟨hst, hname, ?_, fun base hbase => ?_⟩
    · rintro ⟨_, _, _, _, _, _, heq, hplain⟩
      cases heq
      have hclass : (!r.functional) = true := Except.ok.inj (hattributes.symm.trans hplain)
      exact ⟨r, rfl, by simpa using hclass, hbases⟩
    · rw [Declaration.bases, hbases] at hbase
      exact absurd hbase List.not_mem_nil
  case h_3 members comment =>
    have hnotPlain : ∀ name pointer, ¬ Alias.IsPlain (.synonym name pointer (.intersection members) comment) := by
      rintro _ _ ⟨_, _, _, _, _, _, heq, _⟩
      cases heq
    simp only [Runs.bind_iff] at hrun
    obtain ⟨found, u, hcompose, hrun⟩ := hrun
    obtain ⟨hsu, hfound⟩ := h.compose hcompose
    cases found with
    | none =>
      obtain ⟨rfl, rfl⟩ := Runs.pure_iff.mp hrun
      exact ⟨hsu, rfl, fun hplain => absurd hplain (hnotPlain _ _), fun base hbase => absurd hbase List.not_mem_nil⟩
    | some r =>
      obtain ⟨rfl, rfl⟩ := Runs.pure_iff.mp hrun
      obtain ⟨hname, hbases⟩ := hfound r rfl
      exact ⟨hsu, hname, fun hplain => absurd hplain (hnotPlain _ _), hbases⟩
  case h_4 type comment hobject _ =>
    simp only [Runs.bind_iff, Runs.pure_iff] at hrun
    obtain ⟨text, _, hrender, rfl, rfl⟩ := hrun
    refine ⟨h.render _ _ _ _ _ hrender, rfl, ?_, fun base hbase => absurd hbase List.not_mem_nil⟩
    rintro ⟨_, _, _, _, _, _, heq, _⟩
    cases heq
    exact absurd rfl (hobject _ _ _)

theorem Builds.declare (hkeyed : scope.Keyed) {key : String} {a : Alias} {d : Declaration}
    (hlookup : scope.aliases.lookup key = some a) (hrun : Runs (w.declare scope a) s d t) :
    Leads scope s t ∧ ((key, d) ∈ t.declared ∨
      key ∈ s.declaring ∧ ∀ r, d = .record r → r.functional = false → a.IsPlain) := by
  obtain rfl := hkeyed key a hlookup
  obtain ⟨_, s, hget, hdeclare⟩ := Runs.bind_iff.mp hrun
  obtain ⟨rfl, rfl⟩ := Runs.get_iff.mp hget
  split at hdeclare
  · rename_i hfound
    obtain ⟨rfl, rfl⟩ := Runs.pure_iff.mp hdeclare
    exact ⟨.refl scope _, Or.inl (Entries.mem_of_lookup hfound)⟩
  rename_i hnew
  split at hdeclare
  case isTrue hopen =>
    have hplaceholder : Runs (placeholder (scope.nameOf a.name) a) s d t := hdeclare
    obtain ⟨rfl, hplain⟩ := runs_placeholder_plain hplaceholder
    exact ⟨.refl scope _, Or.inr ⟨by simpa using hopen, hplain⟩⟩
  case isFalse hclosed =>
    simp only [Runs.bind_iff, Runs.modify_iff, Runs.pure_iff] at hdeclare
    obtain ⟨made, _, hmake, _, _, rfl, rfl, rfl⟩ := hdeclare
    obtain ⟨u, hinner, rfl⟩ := runs_whileDeclaring_iff.mp hmake
    obtain ⟨hsu, hname, hplain, hbases⟩ := h.make hinner
    exact ⟨leads_declared hlookup hnew (by simpa using hclosed) hsu ⟨hname, hplain⟩ hbases, Or.inl List.mem_cons_self⟩

end

theorem atDepth_builds (hkeyed : scope.Keyed) (depth : Nat) : (atDepth scope depth).Builds scope := by
  induction depth with
  | zero => exact ⟨fun _ _ _ _ _ h => absurd h Runs.throw_iff, fun _ _ _ _ _ _ h => absurd h Runs.throw_iff⟩
  | succ depth ih =>
    constructor
    · exact fun _ _ _ _ _ hrun => ih.renderWith hrun
    · exact fun _ _ hlookup _ _ _ hrun => ih.declare hkeyed hlookup hrun

end TypeWriter

end ClientBindings
