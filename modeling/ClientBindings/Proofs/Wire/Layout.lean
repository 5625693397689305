import ClientBindings.Proofs.Percent
import ClientBindings.Proofs.Pointer
import ClientBindings.Proofs.Runs
import ClientBindings.Wire.Style
import Mathlib.Algebra.Group.Int.Defs

/-! Laid out containers read back. Encoding leaves no mark of a layout in a piece, so a text falls apart
at its marks into the pieces it was joined from, and each of them decodes to the text it encodes. A value that
holds an integer without a text is not laid out at all. -/

namespace ClientBindings

/-- Powers of ten are the first integers of their length. -/
theorem Numeral.not_isShort_pow {k : Nat} (h : mostDigits ≤ k) : isShort (10 ^ k) = false := by
  apply decide_eq_false
  rw [Int.natAbs_pow, Nat.length_toDigits_le_iff (by decide) (by decide)]
  exact Nat.not_lt.mpr (Nat.pow_le_pow_right (by decide) h)

namespace Value
variable {xs : List Value} {es : Fields}

theorem areSpellable_eq_all (xs : List Value) : areSpellable xs = xs.all isSpellable := by
  induction xs with
  | nil => rfl
  | cons x xs ih => rw [areSpellable, List.all_cons, ih]

theorem holdSpellable_eq_all (es : Fields) :
    holdSpellable es = es.all fun e => e.1.isSpellable && e.2.isSpellable := by
  induction es with
  | nil => rfl
  | cons e es ih => rw [holdSpellable, List.all_cons, ih, Bool.and_assoc]

end Value

namespace Wire

/-! ## Values that have a text -/

/-- The encoded text of a value that has one. -/
def encoding (v : Value) : String := Text.onChars Percent.component (spelling v)

theorem stringify_of_isSpellable {v : Value} (h : v.isSpellable = true) : stringify v = .ok (spelling v) :=
  Result.guarded_of_true h

theorem encode_eq (v : Value) : encode v = Result.guarded v.isSpellable (encoding v) := Result.guarded_pure _

theorem mapM_stringify (xs : List Value) :
    xs.mapM stringify = Result.guarded (Value.areSpellable xs) (xs.map spelling) := by
  rw [Value.areSpellable_eq_all, ← Result.mapM_guarded]
  rfl

theorem mapM_encode (xs : List Value) : xs.mapM encode = Result.guarded (Value.areSpellable xs) (xs.map encoding) := by
  rw [Value.areSpellable_eq_all, ← Result.mapM_guarded, funext encode_eq]

/-- The texts of keys and values. -/
def stringifyEntries (es : Value.Fields) : Result (List (String × String)) :=
  es.mapM fun (k, v) => return (← stringify k, ← stringify v)

theorem stringifyEntries_eq (es : Value.Fields) : stringifyEntries es =
    Result.guarded (Value.holdSpellable es) (es.map fun e => (spelling e.1, spelling e.2)) := by
  rw [Value.holdSpellable_eq_all, ← Result.mapM_guarded]
  exact congrArg es.mapM (funext fun _ => Result.guarded_pure₂ Prod.mk)

/-- The encoded keys and values of entries that have texts. -/
def encodings (es : Value.Fields) : List (String × String) := es.map fun e => (encoding e.1, encoding e.2)

theorem encodeEntries_eq (es : Value.Fields) :
    encodeEntries es = Result.guarded (Value.holdSpellable es) (encodings es) := by
  rw [Value.holdSpellable_eq_all, encodings, ← Result.mapM_guarded, encodeEntries, funext encode_eq]
  exact congrArg es.mapM (funext fun _ => Result.guarded_pure₂ Prod.mk)

namespace Layout

/-- The parts of a value that has texts. -/
def partsOf? : Value → Option Parts
  | .scalar s => if isScalar (.scalar s) then some (.one (encoding (.scalar s))) else none
  | .list items | .tuple items => if items.isEmpty then none else some (.items (items.map encoding))
  | .map entries => if entries.isEmpty then none else some (.pairs (encodings entries))
  | _ => none

theorem isSpellable_of_not_isScalar {s : Scalar} (h : ¬ isScalar (.scalar s) = true) : s.isSpellable = true := by
  cases s with
  | int n => exact absurd rfl h
  | null | bool | float | str | bytes | moment => rfl

theorem parts?_eq (v : Value) : parts? v = Result.guarded v.isSpellable (partsOf? v) := by
  have hitems : ∀ items : List Value,
      (if items.isEmpty then return none else return some (.items (← items.mapM encode)) : Result (Option Parts)) =
        Result.guarded (Value.areSpellable items)
          (if items.isEmpty then none else some (.items (items.map encoding))) := by
    intro items
    cases items with
    | nil => rfl
    | cons item items =>
      rw [mapM_encode]
      exact Result.guarded_pure _
  cases v with
  | scalar s =>
    rw [partsOf?]
    show (if isScalar (.scalar s) then return some (.one (← encode (.scalar s))) else return none : Result (Option Parts)) = _
    by_cases hs : isScalar (.scalar s) = true
    · rw [if_pos hs, if_pos hs, encode_eq]
      exact Result.guarded_pure _
    · rw [if_neg hs, if_neg hs]
      exact (Result.guarded_of_true (isSpellable_of_not_isScalar hs)).symm
  | list items | tuple items => exact hitems items
  | map entries =>
    cases entries with
    | nil => rfl
    | cons e entries =>
      rw [parts?, encodeEntries_eq]
      exact Result.guarded_pure _
  | source | signal | multipart => rfl

end Layout

/-- Pairs joined inside and outside by one text are their parts joined by it. -/
theorem Layout.join_flattenPairs (separator : String) (pairs : List (String × String)) :
    join separator (flattenPairs separator pairs) = join separator (pairs.flatMap fun p => [p.1, p.2]) := by
  induction pairs with
  | nil => rfl
  | cons pair pairs ih =>
    show separator.intercalate ((pair.1 ++ separator ++ pair.2) :: flattenPairs separator pairs) =
      separator.intercalate (pair.1 :: pair.2 :: pairs.flatMap fun p => [p.1, p.2])
    rw [String.intercalate_cons_append, String.intercalate_cons_cons]
    cases pairs with
    | nil => rfl
    | cons next pairs =>
      have hpieces : (flattenPairs separator (next :: pairs)) ≠ [] := List.cons_ne_nil _ _
      have hparts : ((next :: pairs).flatMap fun p => [p.1, p.2]) ≠ [] := List.cons_ne_nil _ _
      rw [String.intercalate_cons_of_ne_nil hpieces, String.intercalate_cons_of_ne_nil hparts]
      exact congrArg (fun text => pair.1 ++ separator ++ (pair.2 ++ separator ++ text)) ih

/-- Neighbours in pairs; none if one is left over. -/
def paired? {α : Type} : List α → Option (List (α × α))
  | [] => some []
  | [_] => none
  | a :: b :: rest => (paired? rest).map ((a, b) :: ·)

theorem paired?_flatMap {α : Type} (pairs : List (α × α)) :
    paired? (pairs.flatMap fun p => [p.1, p.2]) = some pairs := by
  induction pairs with
  | nil => rfl
  | cons pair pairs ih =>
    show (paired? (pairs.flatMap fun p => [p.1, p.2])).map (pair :: ·) = some (pair :: pairs)
    rw [ih, Option.map_some]

namespace Style

/-- Whether a text of the style shows where its pieces end. -/
def isReadable : Style → Bool → Bool
  | .simple, _ | .matrix, _ | .form, _ | .pipe, _ => true
  | .label, explode => !explode
  | .space, _ | .deep, _ | .json, _ => false

def nameSign (name : String) : String := name ++ "="

/-- What stands in front of all pieces. -/
def opening (style : Style) (name : String) (explode : Bool) : String :=
  match style with
  | .simple => ""
  | .label => "."
  | .matrix => if explode then ";" else ";" ++ nameSign name
  | _ => if explode then "" else nameSign name

/-- What stands in front of each element; where a style shows names, each exploded element has one. -/
def lead (style : Style) (name : String) (explode : Bool) : String :=
  if explode && style.isNamed then nameSign name else ""

/-- The mark between pieces. -/
def mark (style : Style) (explode : Bool) : Char :=
  match style, explode with
  | .label, true => '.'
  | .matrix, true => ';'
  | .simple, _ | .label, _ | .matrix, _ => ','
  | .pipe, false => '|'
  | _, false => ','
  | _, true => '&'

/-- The mark between the key and the value of an entry. -/
def keyMark (style : Style) (explode : Bool) : Char := if explode then '=' else style.mark explode

/-! ### Reading a text -/

/-- A text without its opening, split at the marks. -/
def pieces? (style : Style) (name : String) (explode : Bool) (text : String) : Option (List (List Char)) :=
  (text.toList.dropPrefix? (style.opening name explode).toList).map (Text.splitOn (style.mark explode))

def decoded (piece : List Char) : String := String.ofList (Percent.decode piece)

def element? (style : Style) (name : String) (explode : Bool) (piece : List Char) : Option String :=
  (piece.dropPrefix? (style.lead name explode).toList).map decoded

def assignment? (piece : List Char) : Option (String × String) :=
  match Text.splitOn '=' piece with
  | [key, value] => some (decoded key, decoded value)
  | _ => none

def readItems? (style : Style) (name : String) (explode : Bool) (text : String) : Option (List String) := do
  let pieces ← style.pieces? name explode text
  pieces.mapM (style.element? name explode)

/-- Exploded entries are assignments; otherwise keys and values alternate. -/
def readEntries? (style : Style) (name : String) (explode : Bool) (text : String) :
    Option (List (String × String)) := do
  let pieces ← style.pieces? name explode text
  if explode then pieces.mapM assignment? else paired? (pieces.map decoded)

variable {style : Style} {name : String} {explode : Bool} {v : Value}

/-! ### The text of a container -/

theorem apply_items {texts : List String} (hread : style.isReadable explode = true)
    (hparts : Layout.parts? v = .ok (some (.items texts))) :
    style.apply name v explode = .ok (some (style.opening name explode ++
      Layout.join (String.singleton (style.mark explode)) (texts.map (style.lead name explode ++ ·)))) := by
  cases style with
  | simple => cases explode <;> simp [apply, Layout.simple, hparts, opening, lead, mark, isNamed]
  | label => cases explode <;> simp [apply, Layout.label, hparts, opening, lead, mark, isNamed]
  | matrix =>
    cases explode <;>
      simp [apply, Layout.matrix, hparts, opening, lead, mark, isNamed, nameSign, String.append_assoc]
  | form => cases explode <;> simp [apply, Layout.delimited, hparts, opening, lead, mark, isNamed, nameSign]
  | pipe => cases explode <;> simp [apply, Layout.delimited, hparts, opening, lead, mark, isNamed, nameSign]
  | space => cases hread
  | deep => cases hread
  | json => cases hread

theorem apply_pairs {pairs : List (String × String)} (hread : style.isReadable explode = true)
    (hparts : Layout.parts? v = .ok (some (.pairs pairs))) :
    style.apply name v explode = .ok (some (style.opening name explode ++
      Layout.join (String.singleton (style.mark explode))
        (Layout.flattenPairs (String.singleton (style.keyMark explode)) pairs))) := by
  cases style with
  | simple => cases explode <;> simp [apply, Layout.simple, hparts, opening, keyMark, mark]
  | label => cases explode <;> simp [apply, Layout.label, hparts, opening, keyMark, mark]
  | matrix =>
    cases explode <;> simp [apply, Layout.matrix, hparts, opening, keyMark, mark, nameSign, String.append_assoc]
  | form => cases explode <;> simp [apply, Layout.delimited, hparts, opening, keyMark, mark, nameSign]
  | pipe => cases explode <;> simp [apply, Layout.delimited, hparts, opening, keyMark, mark, nameSign]
  | space => cases hread
  | deep => cases hread
  | json => cases hread

/-! ### Its pieces -/

theorem dropPrefix?_append (start rest : List Char) : (start ++ rest).dropPrefix? start = some rest :=
  List.dropPrefix?_eq_some_iff.mpr ⟨start, rfl, beq_self_eq_true start⟩

theorem pieces?_joined {texts : List String} (hne : texts ≠ [])
    (hmark : ∀ text ∈ texts, style.mark explode ∉ text.toList) :
    style.pieces? name explode (style.opening name explode ++
      Layout.join (String.singleton (style.mark explode)) texts) = some (texts.map String.toList) := by
  have hpieces : ∀ piece ∈ texts.map String.toList, style.mark explode ∉ piece := by
    intro piece hpiece
    obtain ⟨text, htext, rfl⟩ := List.mem_map.mp hpiece
    exact hmark text htext
  have hsplit := Text.splitOn_join (mt List.map_eq_nil_iff.mp hne) hpieces
  rw [pieces?, String.toList_append, dropPrefix?_append, Option.map_some, Layout.join, String.toList_intercalate,
    String.toList_singleton]
  exact congrArg some hsplit

theorem decoded_encoding (v : Value) : decoded (encoding v).toList = spelling v := by
  rw [decoded, encoding, Text.onChars, String.toList_ofList, Percent.decode_component, String.ofList_toList]

theorem not_mem_encoding {c : Char} (hc : Percent.isUnreserved c = false) (hpercent : c ≠ '%') (v : Value) :
    c ∉ (encoding v).toList := by
  rw [encoding, Text.onChars, String.toList_ofList]
  exact Percent.not_mem_component hc hpercent _

theorem mark_not_mem_encoding (hread : style.isReadable explode = true) (v : Value) :
    style.mark explode ∉ (encoding v).toList := by
  apply not_mem_encoding
  all_goals cases style <;> cases explode <;> first | decide | cases hread

/-- Names stand between the marks of exploded elements only. -/
theorem mark_not_mem_lead (hread : style.isReadable explode = true)
    (hname : ∀ c ∈ name.toList, c ≠ '&' ∧ c ≠ ';' ∧ c ≠ '=') :
    style.mark explode ∉ (style.lead name explode).toList := by
  intro hmem
  rw [lead] at hmem
  split at hmem
  · rename_i hlead
    rw [Bool.and_eq_true] at hlead
    have hmark : style.mark explode = '&' ∨ style.mark explode = ';' := by
      cases style <;> simp_all [isReadable, isNamed, mark]
    rw [nameSign, String.toList_append] at hmem
    rcases List.mem_append.mp hmem with hmem | hmem
    · obtain ⟨hand, hsemicolon, -⟩ := hname _ hmem
      exact hmark.elim hand hsemicolon
    · rw [List.mem_singleton.mp hmem] at hmark
      revert hmark
      decide
  · cases hmem

theorem mapM_eq_some_map {α β : Type} {f : α → Option β} {g : α → β} {xs : List α} (h : ∀ x ∈ xs, f x = some (g x)) :
    xs.mapM f = some (xs.map g) := by
  induction xs with
  | nil => rfl
  | cons x xs ih =>
    rw [List.mapM_cons, h x List.mem_cons_self, ih fun y hy => h y (List.mem_cons_of_mem x hy)]
    rfl

theorem items_read {items : List Value} (hread : style.isReadable explode = true)
    (hname : ∀ c ∈ name.toList, c ≠ '&' ∧ c ≠ ';' ∧ c ≠ '=') (hne : items ≠ [])
    (hparts : Layout.parts? v = .ok (some (.items (items.map encoding)))) :
    ∃ text, style.apply name v explode = .ok (some text) ∧
      style.readItems? name explode text = some (items.map spelling) := by
  have hmark : ∀ text ∈ (items.map encoding).map (style.lead name explode ++ ·),
      style.mark explode ∉ text.toList := by
    intro text htext
    rw [List.map_map] at htext
    obtain ⟨item, -, rfl⟩ := List.mem_map.mp htext
    show style.mark explode ∉ (style.lead name explode ++ encoding item).toList
    rw [String.toList_append, List.mem_append]
    exact not_or.mpr ⟨mark_not_mem_lead hread hname, mark_not_mem_encoding hread item⟩
  have helement : ∀ item ∈ items,
      style.element? name explode (style.lead name explode ++ encoding item).toList = some (spelling item) := by
    intro item _
    rw [element?, String.toList_append, dropPrefix?_append, Option.map_some, decoded_encoding]
  refine ⟨_, apply_items hread hparts, ?_⟩
  rw [readItems?, pieces?_joined (by simpa using hne) hmark, List.map_map, List.map_map]
  show (List.map _ items).mapM (style.element? name explode) = _
  rw [List.mapM_map]
  exact mapM_eq_some_map helement

theorem assignment?_encoding (key v : Value) :
    assignment? (encoding key ++ String.singleton '=' ++ encoding v).toList = some (spelling key, spelling v) := by
  have hkey : '=' ∉ (encoding key).toList := not_mem_encoding (by decide) (by decide) key
  have hvalue : '=' ∉ (encoding v).toList := not_mem_encoding (by decide) (by decide) v
  have hsplit : Text.splitOn '=' (encoding key ++ String.singleton '=' ++ encoding v).toList =
      [(encoding key).toList, (encoding v).toList] := by
    rw [String.append_assoc, String.toList_append, String.toList_append, String.toList_singleton, List.singleton_append,
      Text.splitOn_append hkey, Text.splitOn_of_not_mem hvalue]
  rw [assignment?, hsplit]
  exact congrArg some (Prod.ext (decoded_encoding key) (decoded_encoding v))

theorem exploded_read {entries : Value.Fields} (hread : style.isReadable true = true) (hne : entries ≠ []) :
    style.readEntries? name true (style.opening name true ++ Layout.join (String.singleton (style.mark true))
      (Layout.flattenPairs (String.singleton '=') (encodings entries))) =
      some (entries.map fun e => (spelling e.1, spelling e.2)) := by
  have hsign : style.mark true ≠ '=' := by
    cases style <;> decide
  have hmark : ∀ text ∈ Layout.flattenPairs (String.singleton '=') (encodings entries),
      style.mark true ∉ text.toList := by
    intro text htext
    rw [Layout.flattenPairs, encodings, List.map_map] at htext
    obtain ⟨e, -, rfl⟩ := List.mem_map.mp htext
    show style.mark true ∉ (encoding e.1 ++ String.singleton '=' ++ encoding e.2).toList
    rw [String.toList_append, String.toList_append, String.toList_singleton, List.mem_append, List.mem_append]
    rintro ((hmem | hmem) | hmem)
    · exact mark_not_mem_encoding hread e.1 hmem
    · exact hsign (List.mem_singleton.mp hmem)
    · exact mark_not_mem_encoding hread e.2 hmem
  have hpieces : Layout.flattenPairs (String.singleton '=') (encodings entries) ≠ [] := by
    simpa [Layout.flattenPairs, encodings] using hne
  have hchars : (Layout.flattenPairs (String.singleton '=') (encodings entries)).map String.toList =
      entries.map fun e => (encoding e.1 ++ String.singleton '=' ++ encoding e.2).toList := by
    rw [Layout.flattenPairs, encodings, List.map_map, List.map_map]
    rfl
  rw [readEntries?, pieces?_joined hpieces hmark, Option.bind_eq_bind, Option.bind_some, if_pos rfl, hchars,
    List.mapM_map]
  apply mapM_eq_some_map
  intro e _
  rw [Function.comp_apply, assignment?_encoding]

theorem alternating_read {entries : Value.Fields} (hread : style.isReadable false = true) (hne : entries ≠ []) :
    style.readEntries? name false (style.opening name false ++ Layout.join (String.singleton (style.mark false))
      (Layout.flattenPairs (String.singleton (style.mark false)) (encodings entries))) =
      some (entries.map fun e => (spelling e.1, spelling e.2)) := by
  have hmark : ∀ text ∈ (encodings entries).flatMap fun p => [p.1, p.2], style.mark false ∉ text.toList := by
    intro text htext
    rw [encodings, List.flatMap_map] at htext
    obtain ⟨e, -, hmem⟩ := List.mem_flatMap.mp htext
    rcases List.mem_cons.mp hmem with rfl | hmem
    · exact mark_not_mem_encoding hread e.1
    · rw [List.mem_singleton.mp hmem]
      exact mark_not_mem_encoding hread e.2
  have hpieces : ((encodings entries).flatMap fun p => [p.1, p.2]) ≠ [] := by
    obtain ⟨e, rest, rfl⟩ := List.exists_cons_of_ne_nil hne
    exact List.cons_ne_nil _ _
  have hdecoded : (((encodings entries).flatMap fun p => [p.1, p.2]).map String.toList).map decoded =
      (entries.map fun e => (spelling e.1, spelling e.2)).flatMap fun p => [p.1, p.2] := by
    rw [encodings, List.map_map, List.flatMap_map, List.flatMap_map, List.map_flatMap]
    simp [decoded_encoding]
  rw [Layout.join_flattenPairs, readEntries?, pieces?_joined hpieces hmark]
  show paired? ((List.map String.toList _).map decoded) = _
  rw [hdecoded, paired?_flatMap]

theorem entries_read {entries : Value.Fields} (hread : style.isReadable explode = true) (hne : entries ≠ [])
    (hparts : Layout.parts? v = .ok (some (.pairs (encodings entries)))) :
    ∃ text, style.apply name v explode = .ok (some text) ∧
      style.readEntries? name explode text = some (entries.map fun e => (spelling e.1, spelling e.2)) := by
  refine ⟨_, apply_pairs hread hparts, ?_⟩
  cases explode with
  | true => exact exploded_read hread hne
  | false => exact alternating_read hread hne

theorem apply_refused (hread : style.isReadable explode = true) (h : v.isSpellable = false) :
    style.apply name v explode = .error .badValue := by
  have hparts : Layout.parts? v = .error .badValue := by rw [Layout.parts?_eq, Result.guarded_of_false h]
  cases style with
  | simple | label | matrix | form | pipe =>
    simp only [apply, Layout.simple, Layout.label, Layout.matrix, Layout.delimited, hparts]
    rfl
  | space | deep | json => cases hread

/-- The text of a container gives back what its elements, or its keys and values, are written as. There is such a
text unless some integer inside has none; then nothing is laid out. -/
theorem containers_read_back (style : Style) (name : String) (explode : Bool)
    (hread : style.isReadable explode = true) (hname : ∀ c ∈ name.toList, c ≠ '&' ∧ c ≠ ';' ∧ c ≠ '=') :
    (∀ items v, items ≠ [] → (v = .list items ∨ v = .tuple items) → v.isSpellable = true → ∃ text texts,
      style.apply name v explode = .ok (some text) ∧ items.mapM stringify = .ok texts ∧
        style.readItems? name explode text = some texts) ∧
    (∀ entries : Value.Fields, entries ≠ [] → (Value.map entries).isSpellable = true → ∃ text texts,
      style.apply name (.map entries) explode = .ok (some text) ∧ stringifyEntries entries = .ok texts ∧
        style.readEntries? name explode text = some texts) ∧
    ∀ v : Value, v.isSpellable = false → style.apply name v explode = .error .badValue := by
  refine ⟨?_, ?_, fun v => apply_refused hread⟩
  · intro items v hne hv hspellable
    have hitems : Value.areSpellable items = true := by rcases hv with rfl | rfl <;> exact hspellable
    have hparts : Layout.parts? v = .ok (some (.items (items.map encoding))) := by
      rw [Layout.parts?_eq, Result.guarded_of_true hspellable]
      rcases hv with rfl | rfl
      · rw [Layout.partsOf?, if_neg (by simpa using hne)]
      · rw [Layout.partsOf?, if_neg (by simpa using hne)]
    obtain ⟨text, htext, hback⟩ := items_read hread hname hne hparts
    exact ⟨text, _, htext, (mapM_stringify items).trans (Result.guarded_of_true hitems), hback⟩
  · intro entries hne hspellable
    have hparts : Layout.parts? (.map entries) = .ok (some (.pairs (encodings entries))) := by
      rw [Layout.parts?_eq, Result.guarded_of_true hspellable, Layout.partsOf?, if_neg (by simpa using hne)]
    obtain ⟨text, htext, hback⟩ := entries_read hread hne hparts
    exact ⟨text, _, htext, (stringifyEntries_eq entries).trans (Result.guarded_of_true hspellable), hback⟩

theorem containers_read_back_basket :
    (∃ text, Style.matrix.apply "id" (.list [.str "a;id=b", .str "", .int 7]) true = .ok (some text) ∧
      Style.matrix.readItems? "id" true text = some ["a;id=b", "", "7"]) ∧
    (∃ text, Style.matrix.apply "id" (.map [(.str "k=,", .bool true), (.int 1, .str "ü")]) true = .ok (some text) ∧
      Style.matrix.readEntries? "id" true text = some [("k=,", "true"), ("1", "ü")]) := by
  obtain ⟨hitems, hentries, -⟩ := containers_read_back .matrix "id" true (by decide) (by simp)
  constructor
  · obtain ⟨text, texts, htext, htexts, hback⟩ := hitems [.str "a;id=b", .str "", .int 7] _ (by decide) (.inl rfl) rfl
    obtain rfl := Except.ok.inj htexts
    exact ⟨text, htext, hback⟩
  · obtain ⟨text, texts, htext, htexts, hback⟩ := hentries [(.str "k=,", .bool true), (.int 1, .str "ü")] (by decide) rfl
    obtain rfl := Except.ok.inj htexts
    exact ⟨text, htext, hback⟩

theorem long_integer_refused {n : Int} (h : Numeral.isShort n = false) :
    Style.simple.apply "id" (.list [.int n]) false = .error .badValue := by
  apply apply_refused rfl
  rw [Value.isSpellable, Value.areSpellable, Bool.and_eq_false_iff]
  exact .inl h

/-- A list that is not empty and has no text. -/
theorem power_of_ten_not_laid_out : Style.simple.apply "id" (.list [.int (10 ^ 4300)]) false = .error .badValue :=
  long_integer_refused (Numeral.not_isShort_pow (Nat.le_refl 4300))

end Style
end Wire
end ClientBindings
