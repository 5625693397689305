import ClientBindings.Proofs.Combining
import ClientBindings.Proofs.Keys
import ClientBindings.Proofs.Outcome
import ClientBindings.Wire.Config

/-! Merged configurations. Merging lays one configuration over another: what it says of a key counts from then on,
and what it says of headers is laid over the headers, name by name. A null says nothing of a key. Of a header name
it does. -/

namespace ClientBindings.Wire.Config

variable {c v : Value} {configs : List Value} {es fs : Value.Fields} {r : Config}

/-! ## Configurations -/

/-- Entries whose keys can be keys and occur once. -/
structure IsMapping (es : Value.Fields) : Prop where
  keys : ∀ e ∈ es, e.1.isKey = true
  distinct : Entries.Distinct Value.same es

inductive AreHeaders : Value → Prop
  | null : AreHeaders .null
  | map {names : Value.Fields} : IsMapping names → AreHeaders (.map names)

inductive IsConfig : Value → Prop
  | null : IsConfig .null
  | map {es : Value.Fields} : IsMapping es → (∀ e ∈ es, isHeaders e.1 = true → AreHeaders e.2) → IsConfig (.map es)

/-- The entries of a mapping; null has none. -/
def entries : Value → Value.Fields
  | .map es => es
  | _ => []

/-- The value that a configuration gives to a key, if it is not null. -/
def given (key config : Value) : Option Value :=
  (Entries.find? Value.same (entries config) key).filter (!·.isNull)

def headersOf (config : Value) : Value.Fields := entries (Value.getD (entries config) "headers")

/-- The value that a configuration gives to a header, null or not. -/
def givenHeader (name config : Value) : Option Value := Entries.find? Value.same (headersOf config) name

theorem isHeaders_iff {key : Value} : isHeaders key = true ↔ key = .str "headers" := by
  unfold isHeaders
  split
  case h_1 s => rw [beq_iff_eq, Value.scalar.injEq, Scalar.str.injEq]
  case h_2 h =>
    constructor
    · intro hfalse
      cases hfalse
    · intro heq
      exact absurd heq (h _)

theorem isHeaders_congr {key k : Value} (h : key.same k = true) : isHeaders key = isHeaders k := by
  rw [Bool.eq_iff_iff, isHeaders_iff, isHeaders_iff]
  constructor
  · rintro rfl
    exact Value.same_str_left.mp h
  · rintro rfl
    exact Value.same_str_right.mp h

theorem IsMapping.nil : IsMapping [] := ⟨nofun, .nil⟩

theorem IsMapping.separates (h : IsMapping es) : ∀ e ∈ es, Entries.Separates Value.same e.1 :=
  fun e he => Value.separates_of_isKey (h.keys e he)

/-! ## Layers -/

/-- What stands under a key when a value is laid over another one. -/
def overlay (key lower upper : Value) : Value :=
  if isHeaders key then
    match lower, upper with
    | .map names, .map more => .map (Entries.merge Value.same names more)
    | _, upper => upper
  else upper

/-- Whether an entry is merged at all: neither null nor headers without names are. -/
def counts (e : Value × Value) : Bool := if isHeaders e.1 then e.2.truthy else !e.2.isNull

/-- A configuration over what was merged so far. -/
def layer (r : Config) (config : Value) : Config :=
  Entries.amendAll Value.same overlay r ((entries config).filter counts)

/-- An entry that can stand in a merged configuration. -/
structure Stands (key value : Value) : Prop where
  isKey : key.isKey = true
  counts : counts (key, value) = true
  headers : isHeaders key = true → ∃ names, value = .map names ∧ IsMapping names

theorem overlay_of_not_isHeaders {key : Value} (h : ¬ isHeaders key = true) (lower upper : Value) :
    overlay key lower upper = upper := if_neg h

theorem overlay_map {key : Value} (h : isHeaders key = true) (names more : Value.Fields) :
    overlay key (.map names) (.map more) = .map (Entries.merge Value.same names more) := if_pos h

theorem overlay_of_not_map {lower : Value} (h : ∀ names, lower ≠ .map names) (key upper : Value) :
    overlay key lower upper = upper := by
  unfold overlay
  split
  · split
    · exact absurd rfl (h _)
    · rfl
  · rfl

theorem isMapping_merge (hes : IsMapping es) (hfs : IsMapping fs) : IsMapping (Entries.merge Value.same es fs) where
  keys := Entries.forall_key_merge (p := (Value.isKey · = true)) hes.keys hfs.keys
  distinct := hes.distinct.merge

theorem merge_ne_nil (h : es ≠ []) : Entries.merge Value.same es fs ≠ [] := by
  induction fs generalizing es with
  | nil => exact h
  | cons f fs ih =>
    apply ih
    cases es with
    | nil => exact absurd rfl h
    | cons e es =>
      show Entries.put Value.same (e :: es) f.1 f.2 ≠ []
      rw [Entries.put]
      split <;> exact List.cons_ne_nil _ _

theorem Stands.exists_names {key value : Value} (h : Stands key value) (hkey : isHeaders key = true) :
    ∃ names, value = .map names ∧ IsMapping names ∧ names ≠ [] := by
  obtain ⟨names, rfl, hnames⟩ := h.headers hkey
  refine ⟨names, rfl, hnames, ?_⟩
  rintro rfl
  have hcounts := h.counts
  rw [Config.counts, if_pos hkey] at hcounts
  cases hcounts

theorem combines_overlay : Entries.Combines Value.same overlay Stands where
  separates h := Value.separates_of_isKey h.isKey
  combined := by
    intro key k u v hsame hu hv
    by_cases hk : isHeaders k = true
    · have hkey : isHeaders key = true := by rwa [isHeaders_congr hsame]
      obtain ⟨names, rfl, hnames, hne⟩ := hu.exists_names hkey
      obtain ⟨more, rfl, hmore, -⟩ := hv.exists_names hk
      rw [overlay_map hk]
      refine ⟨hu.isKey, ?_, fun _ => ⟨_, rfl, isMapping_merge hnames hmore⟩⟩
      rw [counts, if_pos hkey, Value.truthy, Bool.not_eq_true', List.isEmpty_eq_false_iff]
      exact merge_ne_nil hne
    · have hkey : ¬ isHeaders key = true := by rwa [isHeaders_congr hsame]
      have hcounts := hv.counts
      rw [overlay_of_not_isHeaders hk]
      rw [counts, if_neg hk] at hcounts
      refine ⟨hu.isKey, ?_, fun h => absurd h hkey⟩
      rwa [counts, if_neg hkey]
  assoc := by
    intro key k u v hsame hu hv t
    by_cases hk : isHeaders k = true
    · have hkey : isHeaders key = true := by rwa [isHeaders_congr hsame]
      obtain ⟨names, rfl, hnames, -⟩ := hu.exists_names hkey
      obtain ⟨more, rfl, hmore, -⟩ := hv.exists_names hk
      rw [overlay_map hk]
      by_cases ht : ∃ below, t = .map below
      · obtain ⟨below, rfl⟩ := ht
        rw [overlay_map hkey, overlay_map hk, overlay_map hkey,
          Entries.merge_merge hnames.separates hnames.distinct hmore.separates]
      · have hnone : ∀ below, t ≠ .map below := fun below heq => ht ⟨below, heq⟩
        rw [overlay_of_not_map hnone, overlay_of_not_map hnone, overlay_map hk]
    · rw [overlay_of_not_isHeaders hk, overlay_of_not_isHeaders hk, overlay_of_not_isHeaders]
      rwa [isHeaders_congr hsame]

/-! ## Merging -/

/-- What is merged so far. -/
structure IsMerged (r : Config) : Prop where
  stands : ∀ e ∈ r, Stands e.1 e.2
  distinct : Entries.Distinct Value.same r

theorem IsMerged.nil : IsMerged [] := ⟨nofun, .nil⟩

theorem IsConfig.stands (h : IsConfig c) {e : Value × Value} (he : e ∈ (entries c).filter counts) :
    Stands e.1 e.2 := by
  obtain ⟨hmem, hcounts⟩ := List.mem_filter.mp he
  cases h with
  | null => exact absurd hmem List.not_mem_nil
  | map hes hheaders =>
    refine ⟨hes.keys e hmem, hcounts, ?_⟩
    intro hkey
    have hvalue := hheaders e hmem hkey
    rw [counts, if_pos hkey] at hcounts
    generalize e.2 = value at hcounts hvalue
    cases hvalue with
    | null => cases hcounts
    | map hnames => exact ⟨_, rfl, hnames⟩

theorem IsMerged.layer (hr : IsMerged r) (hc : IsConfig c) : IsMerged (layer r c) where
  stands := combines_overlay.good_amendAll hr.stands fun _ he => hc.stands he
  distinct := hr.distinct.amendAll

theorem headers_of_isMerged (hr : IsMerged r) :
    (Entries.find? Value.same r (.str "headers") = none ∧ r.get "headers" = .null) ∨
    ∃ names, Entries.find? Value.same r (.str "headers") = some (.map names) ∧ r.get "headers" = .map names ∧
      IsMapping names ∧ names ≠ [] := by
  cases hfind : Entries.find? Value.same r (.str "headers") with
  | none => exact .inl ⟨rfl, by rw [get, Value.getD, Value.find?, hfind]; rfl⟩
  | some v =>
    right
    obtain ⟨key, hmem, hkey⟩ := Entries.mem_of_find? hfind
    obtain ⟨names, rfl, hnames, hne⟩ :=
      (hr.stands _ hmem).exists_names (isHeaders_iff.mpr (Value.same_str_right.mp hkey))
    exact ⟨names, rfl, by rw [get, Value.getD, Value.find?, hfind]; rfl, hnames, hne⟩

theorem headersOver_map {names more : Value.Fields} (h : names ≠ []) :
    headersOver (.map names) (.map more) = .ok (Entries.merge Value.same names more) := by
  cases names with
  | nil => exact absurd rfl h
  | cons => rfl

theorem mergeEntry_eq (hr : IsMerged r) {e : Value × Value} (he : isHeaders e.1 = true → AreHeaders e.2) :
    mergeEntry r e = .ok (if counts e then Entries.amend Value.same overlay r e.1 e.2 else r) := by
  obtain ⟨key, value⟩ := e
  by_cases hkey : isHeaders key = true
  · rw [mergeEntry, if_pos hkey, counts, if_pos hkey]
    obtain rfl := isHeaders_iff.mp hkey
    have hvalue : AreHeaders value := he hkey
    cases hvalue with
    | null => rfl
    | @map more hmore =>
      cases more with
      | nil => rfl
      | cons first rest =>
        show (do return r.put "headers" (.map (← headersOver (r.get "headers") (.map (first :: rest))))) =
          .ok (Entries.amend Value.same overlay r (.str "headers") (.map (first :: rest)))
        rcases headers_of_isMerged hr with ⟨hfind, hget⟩ | ⟨names, hfind, hget, -, hne⟩
        · have hfresh := Entries.find?_eq_none_iff.mp hfind
          rw [hget]
          show Except.ok (Entries.put Value.same r (.str "headers") (.map (first :: rest))) = _
          rw [Entries.put_eq_append hfresh, Entries.amend_eq_append hfresh]
        · rw [hget, headersOver_map hne]
          show Except.ok (Entries.put Value.same r (.str "headers")
            (.map (Entries.merge Value.same names (first :: rest)))) = _
          rw [← overlay_map hkey, Entries.put_combine hfind]
  · rw [mergeEntry, if_neg hkey, counts, if_neg hkey]
    cases hnull : value.isNull with
    | true => rfl
    | false =>
      show Except.ok (Entries.put Value.same r key value) = _
      rw [← Entries.amend_eq_put (overlay_of_not_isHeaders hkey · value), Bool.not_false, if_pos rfl]

/-- One configuration is merged entry by entry. -/
theorem foldlM_mergeEntry (hr : IsMerged r) (hes : ∀ e ∈ es, isHeaders e.1 = true → AreHeaders e.2)
    (hstands : ∀ e ∈ es.filter counts, Stands e.1 e.2) :
    es.foldlM mergeEntry r = .ok (Entries.amendAll Value.same overlay r (es.filter counts)) := by
  induction es generalizing r with
  | nil => rfl
  | cons e es ih =>
    obtain ⟨he, hrest⟩ := List.forall_mem_cons.mp hes
    rw [List.foldlM_cons, mergeEntry_eq hr he]
    show es.foldlM mergeEntry _ = _
    by_cases hcounts : counts e = true
    · rw [List.filter_cons_of_pos hcounts] at hstands ⊢
      obtain ⟨hstand, hstands⟩ := List.forall_mem_cons.mp hstands
      rw [if_pos hcounts, Entries.amendAll_cons]
      exact ih ⟨combines_overlay.good_amend hr.stands hstand, hr.distinct.amend⟩ hrest hstands
    · rw [List.filter_cons_of_neg hcounts] at hstands ⊢
      rw [if_neg hcounts]
      exact ih hr hrest hstands

theorem mergeConfig_eq (hr : IsMerged r) (hc : IsConfig c) :
    (do (← entriesOf c).foldlM mergeEntry r) = .ok (layer r c) := by
  have hentries : entriesOf c = .ok (entries c) := by
    cases hc with
    | null => rfl
    | @map es => cases es <;> rfl
  have hheaders : ∀ e ∈ entries c, isHeaders e.1 = true → AreHeaders e.2 := by
    cases hc with
    | null => exact nofun
    | map _ hheaders => exact hheaders
  rw [hentries]
  exact foldlM_mergeEntry hr hheaders fun _ he => hc.stands he

/-- Any number of configurations is merged one over the other. -/
theorem foldlM_layers (hr : IsMerged r) (h : ∀ c ∈ configs, IsConfig c) :
    configs.foldlM (fun result config => do (← entriesOf config).foldlM mergeEntry result) r =
      .ok (configs.foldl layer r) := by
  induction configs generalizing r with
  | nil => rfl
  | cons c configs ih =>
    obtain ⟨hc, hrest⟩ := List.forall_mem_cons.mp h
    rw [List.foldlM_cons, mergeConfig_eq hr hc]
    exact ih (hr.layer hc) hrest

theorem merge_eq (h : ∀ c ∈ configs, IsConfig c) : merge configs = .ok (configs.foldl layer []) :=
  foldlM_layers .nil h

theorem isMerged_foldl (hr : IsMerged r) (h : ∀ c ∈ configs, IsConfig c) : IsMerged (configs.foldl layer r) := by
  induction configs generalizing r with
  | nil => exact hr
  | cons c configs ih =>
    obtain ⟨hc, hrest⟩ := List.forall_mem_cons.mp h
    exact ih (hr.layer hc) hrest

theorem IsMerged.isConfig (hr : IsMerged r) : IsConfig (.map r) :=
  .map ⟨fun e he => (hr.stands e he).isKey, hr.distinct⟩ fun e he hkey => by
    obtain ⟨names, hvalue, hnames⟩ := (hr.stands e he).headers hkey
    rw [hvalue]
    exact .map hnames

theorem IsMerged.filter_counts (hr : IsMerged r) : r.filter counts = r :=
  List.filter_eq_self.mpr fun e he => (hr.stands e he).counts

/-! ## What stands under a key -/

theorem overlay_congr {key k : Value} (h : key.same k = true) : overlay key = overlay k := by
  unfold overlay
  rw [isHeaders_congr h]

theorem IsConfig.distinct (hc : IsConfig c) : Entries.Distinct Value.same (entries c) := by
  cases hc with
  | null => exact .nil
  | map hes _ => exact hes.distinct

theorem find?_counts (hc : IsConfig c) {key : Value} (hkey : key.isKey = true) :
    Entries.find? Value.same ((entries c).filter counts) key =
      (Entries.find? Value.same (entries c) key).filter fun v => if isHeaders key then v.truthy else !v.isNull :=
  Entries.find?_filter (Value.separates_of_isKey hkey) hc.distinct fun e _ he => by rw [counts, isHeaders_congr he]

theorem find?_layer (hc : IsConfig c) {key : Value} (hkey : key.isKey = true) (hheaders : isHeaders key = false) :
    Entries.find? Value.same (layer r c) key = (given key c).or (Entries.find? Value.same r key) := by
  have hreplaces : ∀ k, k.same key = true → ∀ lower upper, overlay k lower upper = upper := by
    intro k hk
    apply overlay_of_not_isHeaders
    rw [isHeaders_congr hk, hheaders]
    exact Bool.false_ne_true
  rw [layer, Entries.find?_amendAll_of_replaces (Value.separates_of_isKey hkey) hreplaces (hc.distinct.filter counts),
    find?_counts hc hkey, given, hheaders]
  rfl

/-- Headers that are merged are those of a mapping with names; else there are none. -/
theorem headers_of_isConfig (hc : IsConfig c) :
    (Entries.find? Value.same ((entries c).filter counts) (.str "headers") = none ∧ headersOf c = []) ∨
    ∃ names, Entries.find? Value.same ((entries c).filter counts) (.str "headers") = some (.map names) ∧
      headersOf c = names ∧ IsMapping names := by
  rw [find?_counts hc rfl, headersOf, Value.getD, Value.find?]
  cases hfind : Entries.find? Value.same (entries c) (.str "headers") with
  | none => exact .inl ⟨rfl, rfl⟩
  | some v =>
    obtain ⟨key, hmem, hkey⟩ := Entries.mem_of_find? hfind
    have hv : AreHeaders v := by
      cases hc with
      | null => exact absurd hmem List.not_mem_nil
      | map _ hheaders => exact hheaders _ hmem (isHeaders_iff.mpr (Value.same_str_right.mp hkey))
    cases hv with
    | null => exact .inl ⟨rfl, rfl⟩
    | @map names hnames =>
      cases names with
      | nil => exact .inl ⟨rfl, rfl⟩
      | cons first rest => exact .inr ⟨first :: rest, rfl, rfl, hnames⟩

theorem headersOf_map {key : Option Value} (h : Entries.find? Value.same r (.str "headers") = key) :
    headersOf (.map r) = entries (key.getD .null) := by
  rw [headersOf, Value.getD, Value.find?, entries, h]

theorem find?_headers_layer (hc : IsConfig c) : Entries.find? Value.same (layer r c) (.str "headers") =
    ((Entries.find? Value.same ((entries c).filter counts) (.str "headers")).map fun v =>
      (Entries.find? Value.same r (.str "headers")).elim v (overlay (.str "headers") · v)).or
        (Entries.find? Value.same r (.str "headers")) :=
  Entries.find?_amendAll (Value.separates_str "headers") (fun _ hkey u v => congrFun₂ (overlay_congr hkey) u v)
    (hc.distinct.filter counts)

theorem givenHeader_layer (hr : IsMerged r) (hc : IsConfig c) {name : Value} (hname : name.isKey = true) :
    givenHeader name (.map (layer r c)) = (givenHeader name c).or (givenHeader name (.map r)) := by
  have hfind := find?_headers_layer (r := r) hc
  unfold givenHeader
  rcases headers_of_isConfig hc with ⟨hcounts, hheaders⟩ | ⟨more, hcounts, hheaders, hmore⟩
  · rw [hcounts] at hfind
    rw [hheaders, headersOf_map hfind, headersOf_map rfl]
    rfl
  · rw [hcounts] at hfind
    rw [hheaders]
    rcases headers_of_isMerged hr with ⟨hnone, -⟩ | ⟨names, hsome, -⟩
    · rw [hnone] at hfind
      rw [headersOf_map hfind, headersOf_map hnone]
      exact Option.or_none.symm
    · rw [hsome] at hfind
      rw [headersOf_map hfind, headersOf_map hsome]
      show Entries.find? Value.same (Entries.merge Value.same names more) name = _
      rw [Entries.merge_eq_amendAll]
      exact Entries.find?_amendAll_of_replaces (Value.separates_of_isKey hname) (fun _ _ _ _ => rfl) hmore.distinct

/-! ## What all configurations come to -/

theorem getLast?_filterMap_cons {α β : Type} (f : α → Option β) (x : α) (xs : List α) :
    ((x :: xs).filterMap f).getLast? = (xs.filterMap f).getLast?.or (f x) := by
  rw [List.filterMap_cons]
  cases f x with
  | none => exact Option.or_none.symm
  | some b => rw [List.getLast?_cons]; cases (xs.filterMap f).getLast? <;> rfl

theorem find?_foldl_layer (hr : IsMerged r) (h : ∀ c ∈ configs, IsConfig c) {key : Value} (hkey : key.isKey = true)
    (hheaders : isHeaders key = false) : Entries.find? Value.same (configs.foldl layer r) key =
      (configs.filterMap (given key)).getLast?.or (Entries.find? Value.same r key) := by
  induction configs generalizing r with
  | nil => rfl
  | cons c configs ih =>
    obtain ⟨hc, hrest⟩ := List.forall_mem_cons.mp h
    rw [List.foldl_cons, ih (hr.layer hc) hrest, find?_layer hc hkey hheaders, getLast?_filterMap_cons, Option.or_assoc]

theorem givenHeader_foldl_layer (hr : IsMerged r) (h : ∀ c ∈ configs, IsConfig c) {name : Value}
    (hname : name.isKey = true) : givenHeader name (.map (configs.foldl layer r)) =
      (configs.filterMap (givenHeader name)).getLast?.or (givenHeader name (.map r)) := by
  induction configs generalizing r with
  | nil => rfl
  | cons c configs ih =>
    obtain ⟨hc, hrest⟩ := List.forall_mem_cons.mp h
    rw [List.foldl_cons, ih (hr.layer hc) hrest, givenHeader_layer hr hc hname, getLast?_filterMap_cons,
      Option.or_assoc]

theorem isNull_iff : v.isNull = true ↔ v = .null := by
  unfold Value.isNull
  split
  · exact iff_of_true rfl rfl
  · rename_i h
    exact iff_of_false Bool.false_ne_true h

theorem getLast?_filter_iff {α : Type} {p : α → Bool} {x : α} {xs : List α} (h : (xs.filter p).getLast? = some x) :
    xs.getLast? = some x ↔ ∀ y, xs.getLast? = some y → p y = true := by
  have hx : p x = true := (List.mem_filter.mp (List.mem_of_getLast? h)).2
  constructor
  · intro hlast y hy
    obtain rfl := Option.some.inj (hlast.symm.trans hy)
    exact hx
  · intro hlast
    rcases List.eq_nil_or_concat xs with rfl | ⟨front, last, rfl⟩
    · cases h
    · rw [List.concat_eq_append, List.getLast?_concat] at hlast ⊢
      rw [List.concat_eq_append, List.filter_append, List.filter_singleton, hlast last rfl] at h
      simpa using h

/-- What requests have by default, and what one of them sets. -/
def defaults : Value :=
  .map [(.str "headers", .map [(.str "A", .str "1"), (.str "B", .null)]), (.str "timeout", .int 5)]

def request : Value :=
  .map [(.str "timeout", .null), (.str "method", .str "GET"), (.str "headers", .map [(.str "B", .str "2")])]

theorem isMapping_texts (fields : List (String × Value)) (h : (fields.map Prod.fst).Nodup) :
    IsMapping (fields.map fun f => (.str f.1, f.2)) where
  keys := by
    intro e he
    obtain ⟨f, -, rfl⟩ := List.mem_map.mp he
    rfl
  distinct := by
    apply List.pairwise_map.mpr
    apply (List.pairwise_map.mp h).imp
    intro f g hne hsame
    exact hne (by simpa using (Value.same_str_right.mp hsame))

theorem isConfig_defaults : IsConfig defaults := by
  refine .map (isMapping_texts [("headers", _), ("timeout", _)] (by decide)) ?_
  refine List.forall_mem_cons.mpr ⟨fun _ => ?_, List.forall_mem_singleton.mpr nofun⟩
  exact .map (isMapping_texts [("A", _), ("B", _)] (by decide))

theorem isConfig_request : IsConfig request := by
  refine .map (isMapping_texts [("timeout", _), ("method", _), ("headers", _)] (by decide)) ?_
  refine List.forall_mem_cons.mpr ⟨nofun, List.forall_mem_cons.mpr ⟨nofun, List.forall_mem_singleton.mpr fun _ => ?_⟩⟩
  exact .map (isMapping_texts [("B", _)] (by decide))

/-- Whatever the configurations are, under a key the last value stands that is not null. Under a header name the last
value stands, null or not, so the last one that is not null does if and only if no null was given after it. -/
theorem merged_holds_last (h : ∀ c ∈ configs, IsConfig c) : ∃ merged, merge configs = .ok merged ∧
    (∀ key, key.isKey = true → isHeaders key = false →
      Entries.find? Value.same merged key = (configs.filterMap (given key)).getLast?) ∧
    ∀ name, name.isKey = true →
      givenHeader name (.map merged) = (configs.filterMap (givenHeader name)).getLast? ∧
      ∀ v, ((configs.filterMap (givenHeader name)).filter (!·.isNull)).getLast? = some v →
        (givenHeader name (.map merged) = some v ↔ (configs.filterMap (givenHeader name)).getLast? ≠ some .null) := by
  refine ⟨_, merge_eq h, fun key hkey hheaders => ?_, fun name hname => ?_⟩
  · rw [find?_foldl_layer .nil h hkey hheaders]
    exact Option.or_none
  · have hlast : givenHeader name (.map (configs.foldl layer [])) = (configs.filterMap (givenHeader name)).getLast? := by
      rw [givenHeader_foldl_layer .nil h hname]
      exact Option.or_none
    refine ⟨hlast, fun v hv => ?_⟩
    rw [hlast, getLast?_filter_iff hv]
    constructor
    · intro hall hnull
      exact absurd (hall _ hnull) (by decide)
    · intro hnull y hy
      rw [hy, ne_eq, Option.some.injEq, ← isNull_iff] at hnull
      simpa using hnull

theorem merged_holds_last_timeout : (∀ c ∈ [defaults, .null, request], IsConfig c) ∧
    ∃ merged, merge [defaults, .null, request] = .ok merged ∧
      Entries.find? Value.same merged (.str "timeout") = some (.int 5) ∧
      givenHeader (.str "A") (.map merged) = some (.str "1") ∧
      givenHeader (.str "B") (.map merged) = some (.str "2") := by
  have hconfigs : ∀ c ∈ [defaults, .null, request], IsConfig c := List.forall_mem_cons.mpr
    ⟨isConfig_defaults, List.forall_mem_cons.mpr ⟨.null, List.forall_mem_singleton.mpr isConfig_request⟩⟩
  obtain ⟨merged, hmerged, hkeys, hheaders⟩ := merged_holds_last hconfigs
  exact ⟨hconfigs, merged, hmerged, hkeys (.str "timeout") rfl rfl, (hheaders (.str "A") rfl).1,
    (hheaders (.str "B") rfl).1⟩

/-- A null takes a header away from the configurations before. -/
theorem exists_header_overridden : ∃ first last merged, IsConfig first ∧ IsConfig last ∧
    merge [first, last] = .ok merged ∧ givenHeader (.str "A") first = some (.str "1") ∧
    givenHeader (.str "A") last = some .null ∧ givenHeader (.str "A") (.map merged) = some .null := by
  have hconfig : ∀ v : Value, IsConfig (.map [(.str "headers", .map [(.str "A", v)])]) := by
    intro v
    refine .map ⟨List.forall_mem_singleton.mpr rfl, List.pairwise_singleton _ _⟩ (List.forall_mem_singleton.mpr ?_)
    exact fun _ => .map ⟨List.forall_mem_singleton.mpr rfl, List.pairwise_singleton _ _⟩
  exact ⟨_, _, _, hconfig (.str "1"), hconfig .null, rfl, rfl, rfl, rfl⟩

/-! ## Merging what was merged -/

theorem foldl_layer_eq (configs : List Value) (r : Config) : configs.foldl layer r =
    Entries.amendAll Value.same overlay r (configs.flatMap fun c => (entries c).filter counts) := by
  induction configs generalizing r with
  | nil => rfl
  | cons c configs ih => rw [List.foldl_cons, ih, List.flatMap_cons, Entries.amendAll_append, layer]

/-- What configurations come to is laid over others as they are one by one. -/
theorem layer_foldl (h : ∀ c ∈ configs, IsConfig c) (r : Config) :
    layer r (.map (configs.foldl layer [])) = configs.foldl layer r := by
  have hentries : ∀ e ∈ configs.flatMap fun c => (entries c).filter counts, Stands e.1 e.2 := by
    intro e he
    obtain ⟨c, hc, he⟩ := List.mem_flatMap.mp he
    exact (h c hc).stands he
  have hmerged := isMerged_foldl .nil h
  rw [layer, entries, hmerged.filter_counts, foldl_layer_eq, foldl_layer_eq,
    combines_overlay.amendAll_amendAll IsMerged.nil.stands IsMerged.nil.distinct hentries]
  rfl

theorem layer_nil (h : ∀ c ∈ configs, IsConfig c) :
    layer [] (.map (configs.foldl layer [])) = configs.foldl layer [] := layer_foldl h []

/-- A key, and names of headers, that are the same as themselves, as all but numbers are that are none. -/
def SelfSame (e : Value × Value) : Prop :=
  e.1.same e.1 = true ∧ (isHeaders e.1 = true → ∀ name ∈ entries e.2, name.1.same name.1 = true)

theorem combines_overlay_selfSame :
    Entries.Combines Value.same overlay fun key value => Stands key value ∧ SelfSame (key, value) where
  separates h := combines_overlay.separates h.1
  combined := by
    rintro key k u v hsame ⟨hu, hukey, hunames⟩ ⟨hv, -, hvnames⟩
    refine ⟨combines_overlay.combined hsame hu hv, hukey, ?_⟩
    intro hkey
    have hk : isHeaders k = true := by rwa [← isHeaders_congr hsame]
    obtain ⟨names, rfl, -⟩ := hu.headers hkey
    obtain ⟨more, rfl, -⟩ := hv.headers hk
    rw [overlay_map hk]
    exact Entries.forall_key_merge (p := fun name : Value => name.same name = true) (hunames hkey) (hvnames hk)
  assoc hsame hu hv := combines_overlay.assoc hsame hu.1 hv.1

theorem selfSame_foldl (h : ∀ c ∈ configs, IsConfig c) (hself : ∀ c ∈ configs, ∀ e ∈ entries c, SelfSame e) :
    ∀ e ∈ configs.foldl layer [], SelfSame e := by
  have hentries : ∀ e ∈ configs.flatMap fun c => (entries c).filter counts, Stands e.1 e.2 ∧ SelfSame e := by
    intro e he
    obtain ⟨c, hc, he⟩ := List.mem_flatMap.mp he
    exact ⟨(h c hc).stands he, hself c hc e (List.mem_of_mem_filter he)⟩
  rw [foldl_layer_eq]
  exact fun e he =>
    (combines_overlay_selfSame.good_amendAll (fun e he => absurd he List.not_mem_nil) hentries e he).2

theorem overlay_self {key value : Value} (h : Stands key value) (hself : SelfSame (key, value)) :
    overlay key value value = value := by
  by_cases hkey : isHeaders key = true
  · obtain ⟨names, rfl, hmapping⟩ := h.headers hkey
    rw [overlay_map hkey, Entries.merge_eq_amendAll, Entries.amendAll_self hmapping.distinct]
    exact fun e he => ⟨hself.2 hkey e he, rfl⟩
  · exact overlay_of_not_isHeaders hkey value value

theorem layer_self (hr : IsMerged r) (h : ∀ e ∈ r, SelfSame e) : layer r (.map r) = r := by
  rw [layer, entries, hr.filter_counts]
  exact Entries.amendAll_self hr.distinct fun e he => ⟨(h e he).1, overlay_self (hr.stands e he) (h e he)⟩

/-- Configurations are merged with the same result, keys and names of headers in the same order, whether all at once
or in two parts whose results are merged. So merging is associative, a configuration without entries changes nothing,
and neither does merging a result again, alone or with itself. -/
theorem merge_composes :
    (∀ xs ys, (∀ c ∈ xs, IsConfig c) → (∀ c ∈ ys, IsConfig c) → ∃ x y xy,
      merge xs = .ok x ∧ merge ys = .ok y ∧ merge (xs ++ ys) = .ok xy ∧ merge [.map x, .map y] = .ok xy) ∧
    (∀ a b c, IsConfig a → IsConfig b → IsConfig c → ∃ ab bc abc,
      merge [a, b] = .ok ab ∧ merge [b, c] = .ok bc ∧ merge [.map ab, c] = .ok abc ∧ merge [a, .map bc] = .ok abc) ∧
    ∀ xs, (∀ c ∈ xs, IsConfig c) → ∃ x, merge xs = .ok x ∧
      merge (.map [] :: xs) = .ok x ∧ merge (xs ++ [.map []]) = .ok x ∧
      merge [.map [], .map x] = .ok x ∧ merge [.map x, .map []] = .ok x ∧
      merge [.map x] = .ok x ∧
      ((∀ c ∈ xs, ∀ e ∈ entries c, SelfSame e) → merge [.map x, .map x] = .ok x) := by
  have hempty : IsConfig (.map []) := IsMerged.nil.isConfig
  have hone : ∀ {a : Value}, IsConfig a → ∀ c ∈ [a], IsConfig c := fun ha => List.forall_mem_singleton.mpr ha
  have htwo : ∀ {a b : Value}, IsConfig a → IsConfig b → ∀ c ∈ [a, b], IsConfig c :=
    fun ha hb => List.forall_mem_cons.mpr ⟨ha, hone hb⟩
  refine ⟨fun xs ys hxs hys => ?_, fun a b c ha hb hc => ?_, fun xs hxs => ?_⟩
  · have hx := (isMerged_foldl .nil hxs).isConfig
    have hy := (isMerged_foldl .nil hys).isConfig
    refine ⟨_, _, _, merge_eq hxs, merge_eq hys, merge_eq (List.forall_mem_append.mpr ⟨hxs, hys⟩), ?_⟩
    rw [merge_eq (htwo hx hy), List.foldl_append, List.foldl_cons, List.foldl_cons, layer_nil hxs, layer_foldl hys]
    rfl
  · have hab := (isMerged_foldl .nil (htwo ha hb)).isConfig
    have hbc := (isMerged_foldl .nil (htwo hb hc)).isConfig
    refine ⟨_, _, [a, b, c].foldl layer [], merge_eq (htwo ha hb), merge_eq (htwo hb hc), ?_, ?_⟩
    · rw [merge_eq (htwo hab hc), List.foldl_cons, layer_nil (htwo ha hb)]
      rfl
    · rw [merge_eq (htwo ha hbc), List.foldl_cons, List.foldl_cons, layer_foldl (htwo hb hc)]
      rfl
  · have hmerged := isMerged_foldl .nil hxs
    have hx := hmerged.isConfig
    have halone := layer_nil hxs
    refine ⟨_, merge_eq hxs, merge_eq (List.forall_mem_cons.mpr ⟨hempty, hxs⟩), ?_, ?_, ?_, ?_, fun hself => ?_⟩
    · rw [merge_eq (List.forall_mem_append.mpr ⟨hxs, hone hempty⟩), List.foldl_append]
      rfl
    · rw [merge_eq (htwo hempty hx)]
      exact congrArg Except.ok halone
    · rw [merge_eq (htwo hx hempty)]
      exact congrArg Except.ok halone
    · rw [merge_eq (hone hx)]
      exact congrArg Except.ok halone
    · rw [merge_eq (htwo hx hx), List.foldl_cons, List.foldl_cons, halone,
        layer_self hmerged (selfSame_foldl hxs hself)]
      rfl

theorem merge_composes_defaults : IsConfig defaults ∧ IsConfig request ∧ ∃ x y xy,
    merge [defaults] = .ok x ∧ merge [.null, request] = .ok y ∧ merge [defaults, .null, request] = .ok xy ∧
    merge [.map x, .map y] = .ok xy ∧ xy.map Prod.fst = [.str "headers", .str "timeout", .str "method"] := by
  obtain ⟨x, y, xy, hx, hy, hxy, hparts⟩ := merge_composes.1 [defaults] [.null, request]
    (List.forall_mem_singleton.mpr isConfig_defaults)
    (List.forall_mem_cons.mpr ⟨.null, List.forall_mem_singleton.mpr isConfig_request⟩)
  refine ⟨isConfig_defaults, isConfig_request, x, y, xy, hx, hy, hxy, hparts, ?_⟩
  have hkeys : (merge [defaults, .null, request]).toOption.map (·.map Prod.fst) =
      some [.str "headers", .str "timeout", .str "method"] := rfl
  have hyields : merge [defaults, .null, request] = .ok xy := hxy
  rw [hyields] at hkeys
  exact Option.some.inj hkeys

end ClientBindings.Wire.Config
