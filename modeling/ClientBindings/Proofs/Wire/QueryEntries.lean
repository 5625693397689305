import ClientBindings.Proofs.Wire.DeepObject

/-! Queries fall apart into the entries they are made of. What comes from a value is encoded before it stands
between the marks of a query, so no value brings in an entry of its own. The keys of deep objects are the
exception: they are written as they are. -/

namespace ClientBindings
namespace Wire

/-- A text without the marks of a query. -/
def IsPlain (text : String) : Prop := '&' ∉ text.toList ∧ '=' ∉ text.toList

instance (text : String) : Decidable (IsPlain text) := inferInstanceAs (Decidable (_ ∧ _))

namespace IsPlain
variable {a b separator : String} {texts : List String}

theorem append (ha : IsPlain a) (hb : IsPlain b) : IsPlain (a ++ b) := by
  unfold IsPlain at ha hb ⊢
  rw [String.toList_append, List.mem_append, List.mem_append]
  exact ⟨not_or.mpr ⟨ha.1, hb.1⟩, not_or.mpr ⟨ha.2, hb.2⟩⟩

theorem component (text : String) : IsPlain (Text.onChars Percent.component text) := by
  unfold IsPlain
  rw [Text.onChars, String.toList_ofList]
  exact ⟨Percent.not_mem_component (by decide) (by decide) _, Percent.not_mem_component (by decide) (by decide) _⟩

theorem encoding (v : Value) : IsPlain (Wire.encoding v) := component _

theorem join (hseparator : IsPlain separator) (h : ∀ text ∈ texts, IsPlain text) :
    IsPlain (Layout.join separator texts) := by
  induction texts with
  | nil => exact ⟨List.not_mem_nil, List.not_mem_nil⟩
  | cons text texts ih =>
    obtain ⟨htext, hrest⟩ := List.forall_mem_cons.mp h
    by_cases hne : texts = []
    · rw [hne, Layout.join, String.intercalate_singleton]
      exact htext
    · rw [Layout.join, String.intercalate_cons_of_ne_nil hne]
      exact (htext.append hseparator).append (ih hrest)

end IsPlain

/-! ## Entries -/

/-- What stands between the marks of a query. -/
def entriesIn (query : String) : List (List Char) := Text.splitOn '&' query.toList

/-- Whether a query has so many entries, each with one sign. -/
def HasEntries (query : String) (n : Nat) : Prop :=
  (entriesIn query).length = n ∧ ∀ entry ∈ entriesIn query, entry.count '=' = 1

instance (query : String) (n : Nat) : Decidable (HasEntries query n) := inferInstanceAs (Decidable (_ ∧ _))

/-- A query that is put together from so many names and values, both without marks. -/
def Assigns (query : String) (n : Nat) : Prop := ∃ pairs : List (String × String),
  pairs ≠ [] ∧ pairs.length = n ∧ (∀ p ∈ pairs, IsPlain p.1 ∧ IsPlain p.2) ∧
    query = Layout.join "&" (Layout.flattenPairs "=" pairs)

theorem Assigns.hasEntries {query : String} {n : Nat} (h : Assigns query n) : HasEntries query n := by
  obtain ⟨pairs, hne, hlength, hplain, rfl⟩ := h
  have hentries : entriesIn (Layout.join "&" (Layout.flattenPairs "=" pairs)) =
      pairs.map fun p => (p.1 ++ "=" ++ p.2).toList := by
    rw [entriesIn, Layout.join, Layout.flattenPairs, String.toList_intercalate, List.map_map]
    apply Text.splitOn_join (mt List.map_eq_nil_iff.mp hne)
    intro piece hpiece
    obtain ⟨p, hp, rfl⟩ := List.mem_map.mp hpiece
    obtain ⟨hname, hvalue⟩ := hplain p hp
    show '&' ∉ (p.1 ++ "=" ++ p.2).toList
    rw [String.toList_append, String.toList_append, List.mem_append, List.mem_append]
    exact not_or.mpr ⟨not_or.mpr ⟨hname.1, by decide⟩, hvalue.1⟩
  rw [HasEntries, hentries, List.length_map]
  refine ⟨hlength, ?_⟩
  intro entry hentry
  obtain ⟨p, hp, rfl⟩ := List.mem_map.mp hentry
  obtain ⟨hname, hvalue⟩ := hplain p hp
  rw [String.toList_append, String.toList_append, List.count_append, List.count_append,
    List.count_eq_zero.mpr hname.2, List.count_eq_zero.mpr hvalue.2]
  rfl

theorem assigns_one {name value : String} (hname : IsPlain name) (hvalue : IsPlain value) :
    Assigns (name ++ "=" ++ value) 1 := by
  refine ⟨[(name, value)], List.cons_ne_nil _ _, rfl, ?_, String.intercalate_singleton.symm⟩
  intro p hp
  obtain rfl := List.mem_singleton.mp hp
  exact ⟨hname, hvalue⟩

theorem assigns_map {α : Type} {xs : List α} {name value : α → String} (hne : xs ≠ [])
    (hname : ∀ x ∈ xs, IsPlain (name x)) (hvalue : ∀ x ∈ xs, IsPlain (value x)) :
    Assigns (Layout.join "&" (xs.map fun x => name x ++ "=" ++ value x)) xs.length := by
  refine ⟨xs.map fun x => (name x, value x), mt List.map_eq_nil_iff.mp hne, List.length_map _, ?_, ?_⟩
  · intro p hp
    obtain ⟨x, hx, rfl⟩ := List.mem_map.mp hp
    exact ⟨hname x hx, hvalue x hx⟩
  · rw [Layout.flattenPairs, List.map_map]
    rfl

/-! ## Styles that list members -/

def memberCount : Value → Nat
  | .list xs | .tuple xs => xs.length
  | .map es => es.length
  | _ => 1

theorem parts_cases {v : Value} {parts : Layout.Parts} (h : Layout.partsOf? v = some parts) :
    parts = .one (encoding v) ∧ memberCount v = 1 ∨
      (∃ xs : List Value, xs ≠ [] ∧ parts = .items (xs.map encoding) ∧ memberCount v = xs.length) ∨
      ∃ es : Value.Fields, es ≠ [] ∧ parts = .pairs (encodings es) ∧ memberCount v = es.length := by
  unfold Layout.partsOf? at h
  split at h
  case h_1 =>
    split at h
    · obtain rfl := Option.some.inj h
      exact .inl ⟨rfl, rfl⟩
    · cases h
  case h_2 xs | h_3 xs =>
    split at h
    · cases h
    · rename_i hne
      obtain rfl := Option.some.inj h
      exact .inr (.inl ⟨xs, by simpa using hne, rfl, rfl⟩)
  case h_4 es =>
    split at h
    · cases h
    · rename_i hne
      obtain rfl := Option.some.inj h
      exact .inr (.inr ⟨es, by simpa using hne, rfl, rfl⟩)
  case h_5 => cases h

theorem isPlain_flattenPairs {delimiter : String} (hdelimiter : IsPlain delimiter) (es : Value.Fields) :
    ∀ text ∈ Layout.flattenPairs delimiter (encodings es), IsPlain text := by
  intro text htext
  rw [Layout.flattenPairs, encodings, List.map_map] at htext
  obtain ⟨e, -, rfl⟩ := List.mem_map.mp htext
  exact ((IsPlain.encoding e.1).append hdelimiter).append (IsPlain.encoding e.2)

theorem delimited_assigns {delimiter name text : String} {v : Value} {explode : Bool} (hdelimiter : IsPlain delimiter)
    (hname : IsPlain name) (h : Layout.delimited delimiter name v explode = .ok (some text)) :
    Assigns text (if explode then memberCount v else 1) := by
  obtain ⟨parts, hparts, h⟩ := Result.bind_eq_ok_iff.mp h
  rw [Layout.parts?_eq, Result.guarded_eq_ok_iff] at hparts
  obtain ⟨-, rfl⟩ := hparts
  obtain ⟨parts, hparts, rfl⟩ := Option.map_eq_some_iff.mp (Result.pure_eq_ok_iff.mp h)
  rcases parts_cases hparts with ⟨rfl, hcount⟩ | ⟨xs, hne, rfl, hcount⟩ | ⟨es, hne, rfl, hcount⟩
  · rw [hcount, ite_self]
    exact assigns_one hname (.encoding v)
  · cases explode with
    | true =>
      show Assigns (Layout.join "&" ((xs.map encoding).map (name ++ "=" ++ ·))) (memberCount v)
      rw [hcount, List.map_map]
      exact assigns_map hne (fun _ _ => hname) fun x _ => .encoding x
    | false =>
      refine assigns_one hname (.join hdelimiter ?_)
      intro piece hpiece
      obtain ⟨x, -, rfl⟩ := List.mem_map.mp hpiece
      exact .encoding x
  · cases explode with
    | true =>
      show Assigns (Layout.join "&" (Layout.flattenPairs "=" (encodings es))) (memberCount v)
      rw [hcount, Layout.flattenPairs, encodings, List.map_map]
      exact assigns_map hne (fun e _ => .encoding e.1) fun e _ => .encoding e.2
    | false => exact assigns_one hname (.join hdelimiter (isPlain_flattenPairs hdelimiter es))

theorem json_assigns {name text : String} {v : Value} (hname : IsPlain name)
    (h : Layout.json name v = .ok (some text)) : Assigns text 1 := by
  unfold Layout.json at h
  split at h
  · cases Result.pure_eq_ok_iff.mp h
  · cases Result.pure_eq_ok_iff.mp h
  · obtain ⟨encoded, -, h⟩ := Result.bind_eq_ok_iff.mp h
    obtain rfl := Option.some.inj (Result.pure_eq_ok_iff.mp h)
    exact assigns_one hname (.component encoded)

/-! ## Deep objects -/

/-- Whether the keys that lead to the leaves of a value have no marks in their texts. -/
def HasPlainKeys (v : Value) : Prop := ∀ l ∈ leaves v, ∀ key ∈ l.path, IsPlain (spelling key)

instance (v : Value) : Decidable (HasPlainKeys v) := List.decidableBAll _ _

section
variable {name text : String} {v : Value}

theorem isPlain_target {l : Leaf} (hname : IsPlain name) (hkeys : ∀ key ∈ l.path, IsPlain (spelling key)) :
    IsPlain (l.target name) := by
  obtain ⟨path, scalar⟩ := l
  unfold Leaf.target
  induction path generalizing name with
  | nil => exact hname
  | cons key path ih =>
    obtain ⟨hkey, hrest⟩ := List.forall_mem_cons.mp hkeys
    exact ih (((hname.append (by decide)).append hkey).append (by decide)) hrest

theorem laid_assigns (hname : IsPlain name) (hsolid : isSolid v = true) (hkeys : HasPlainKeys v)
    (h : laid name v = some text) : Assigns text (leaves v).length := by
  rw [laid_of_isSolid hsolid, expansion, joined?] at h
  split at h
  · cases h
  · rename_i hne
    obtain rfl := Option.some.inj h
    exact assigns_map (by simpa using hne) (fun l hl => isPlain_target hname (hkeys l hl)) fun l _ => .encoding _

/-- As many entries as leaves leave no room for gaps, nor for marks in the keys. -/
theorem isSolid_of_length_entries (h : laid name v = some text)
    (hlength : (entriesIn text).length = (leaves v).length) :
    isSolid v = true ∧ ∀ l ∈ leaves v, '&' ∉ (l.assignment name).toList := by
  have hcount := count_laid h
  rw [entriesIn, Text.length_splitOn] at hlength
  have hsum : ((leaves v).map fun l => (l.assignment name).toList.count '&' + 1).sum =
      ((leaves v).map fun l => (l.assignment name).toList.count '&').sum + (leaves v).length := by
    induction leaves v with
    | nil => rfl
    | cons l ls ih =>
      simp only [List.map_cons, List.sum_cons, List.length_cons, ih]
      omega
  have hgaps : (pieces v).countP Option.isNone = 0 := by omega
  have hmarks : ((leaves v).map fun l => (l.assignment name).toList.count '&').sum = 0 := by omega
  refine ⟨isSolid_iff.mpr hgaps, ?_⟩
  rw [List.sum_eq_zero_iff_forall_eq_nat, List.forall_mem_map] at hmarks
  exact fun l hl => List.count_eq_zero.mp (hmarks l hl)

theorem laid_hasEntries_iff (hname : IsPlain name) (h : laid name v = some text) :
    HasEntries text (leaves v).length ↔ isSolid v = true ∧ HasPlainKeys v := by
  constructor
  · rintro ⟨hlength, hsigns⟩
    obtain ⟨hsolid, hmarks⟩ := isSolid_of_length_entries h hlength
    refine ⟨hsolid, ?_⟩
    intro l hl key hkey
    have hentry : (l.assignment name).toList ∈ entriesIn text := by
      rw [entriesIn, splitOn_expansion ((laid_of_isSolid hsolid name).symm.trans h) hmarks]
      exact List.mem_map_of_mem hl
    have hand := List.count_eq_zero.mpr (hmarks l hl)
    have hsign := hsigns _ hentry
    rw [Leaf.count_and_assignment] at hand
    rw [Leaf.count_sign_assignment] at hsign
    exact ⟨Leaf.countKeys_eq_zero_iff.mp (by omega) key hkey, Leaf.countKeys_eq_zero_iff.mp (by omega) key hkey⟩
  · rintro ⟨hsolid, hkeys⟩
    exact (laid_assigns hname hsolid hkeys h).hasEntries

end

/-! ## All styles of queries -/

namespace Style

def isQuery : Style → Bool
  | .form | .space | .pipe | .deep | .json => true
  | .simple | .label | .matrix => false

/-- The entries that a style makes of a value. -/
def entryCount (style : Style) (v : Value) (explode : Bool) : Nat :=
  match style with
  | .deep => (leaves v).length
  | .json => 1
  | _ => if explode then memberCount v else 1

/-- Values bring in no entries and no signs, except by the keys of deep objects; and deep objects have an
empty entry for each container that has members and is left out. -/
theorem hasEntries_iff (style : Style) (name : String) (v : Value) (explode : Bool) (text : String)
    (hquery : style.isQuery = true) (hname : IsPlain name) (h : style.apply name v explode = .ok (some text)) :
    HasEntries text (style.entryCount v explode) ↔ (style = .deep → isSolid v = true ∧ HasPlainKeys v) := by
  have hdelimited : ∀ delimiter, IsPlain delimiter → Layout.delimited delimiter name v explode = .ok (some text) →
      HasEntries text (if explode then memberCount v else 1) :=
    fun delimiter hdelimiter h => (delimited_assigns hdelimiter hname h).hasEntries
  cases style with
  | form => exact iff_of_true (hdelimited "," (by decide) h) Style.noConfusion
  | space => exact iff_of_true (hdelimited "%20" (by decide) h) Style.noConfusion
  | pipe => exact iff_of_true (hdelimited "|" (by decide) h) Style.noConfusion
  | deep =>
    have htext := (Result.guarded_eq_ok_iff.mp ((deep_eq name v).symm.trans h)).2
    have hiff := laid_hasEntries_iff hname htext
    exact ⟨fun hcount _ => hiff.mp hcount, fun hkeys => hiff.mpr (hkeys rfl)⟩
  | json => exact iff_of_true (json_assigns hname h).hasEntries Style.noConfusion
  | simple => cases hquery
  | label => cases hquery
  | matrix => cases hquery

theorem hasEntries_dimensions : Style.deep.isQuery = true ∧ IsPlain "f" ∧ HasPlainKeys dimensions ∧
    Style.deep.apply "f" dimensions false = .ok (some "f[size][0]=1&f[size][1][label]=x%26y") ∧
    HasEntries "f[size][0]=1&f[size][1][label]=x%26y" (Style.deep.entryCount dimensions false) := by
  have hname : IsPlain "f" := by decide
  have hkeys : HasPlainKeys dimensions := by decide +kernel
  have hiff := hasEntries_iff .deep "f" dimensions false _ rfl hname deep_dimensions
  exact ⟨rfl, hname, hkeys, deep_dimensions, hiff.mpr fun _ => ⟨isSolid_dimensions, hkeys⟩⟩

/-- A key with marks brings in an entry, and a member that is null leaves an empty one behind. -/
theorem exists_not_hasEntries :
    (Style.deep.apply "f" (.map [(.str "a&b=c", .int 1)]) false = .ok (some "f[a&b=c]=1") ∧
      ¬ HasEntries "f[a&b=c]=1" (Style.deep.entryCount (.map [(.str "a&b=c", .int 1)]) false)) ∧
    Style.deep.apply "f" (.map [(.str "a", .map [(.str "b", .null)]), (.str "c", .int 1)]) false =
      .ok (some "&f[c]=1") ∧
    ¬ HasEntries "&f[c]=1" (Style.deep.entryCount (.map [(.str "a", .map [(.str "b", .null)]), (.str "c", .int 1)]) false) := by
  exact ⟨⟨rfl, by decide +kernel⟩, rfl, by decide +kernel⟩

end Style
end Wire
end ClientBindings
