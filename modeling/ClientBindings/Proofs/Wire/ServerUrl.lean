import ClientBindings.Proofs.Entries
import ClientBindings.Proofs.Wire.Layout
import ClientBindings.Wire.Server

/-! The URL of a server. Its placeholders are replaced one after the other in a text that has values in it already.
An encoded value has no braces, so it is no part of a placeholder, and what is left of the URL is of the same kind:
the order of the variables does not count. An integer without a text is refused, whether the URL asks for it or not. -/

namespace ClientBindings.Wire.Server

def BraceFree (cs : List Char) : Prop := '\x7b' ∉ cs ∧ '\x7d' ∉ cs

instance (cs : List Char) : Decidable (BraceFree cs) := inferInstanceAs (Decidable (_ ∧ _))

/-- A piece of a URL: text, or a placeholder that stands for a variable. -/
inductive Part where
  | literal (text : List Char)
  | placeholder (name : String)

/-- What a variable is replaced with, if its value is a scalar. -/
def text? (values : String → Option Value) (name : String) : Option (List Char) :=
  (values name).bind fun v => if isScalar v then some (encoding v).toList else none

namespace Part

def chars : Part → List Char
  | .literal text => text
  | .placeholder name => '\x7b' :: (name.toList ++ ['\x7d'])

/-- The text of a literal, or the name in a placeholder. -/
def inner : Part → List Char
  | .literal text => text
  | .placeholder name => name.toList

def name? : Part → Option String
  | .literal _ => none
  | .placeholder name => some name

def fill (values : String → Option Value) : Part → Part
  | .literal text => .literal text
  | .placeholder name => ((text? values name).map .literal).getD (.placeholder name)

end Part

/-- A URL of literals and placeholders, without other braces and with distinct names. -/
@[ext]
structure Template where
  parts : List Part
  braceFree : ∀ part ∈ parts, BraceFree part.inner
  distinct : (parts.filterMap Part.name?).Nodup

/-- Values of variables whose names are distinct and have no braces. -/
structure Variables where
  entries : List (String × Value)
  braceFree : ∀ e ∈ entries, BraceFree e.1.toList
  distinct : (entries.map Prod.fst).Nodup

variable {values more : String → Option Value} {name : String} {cs new rest : List Char} {v : Value}

theorem braceFree_encoding (v : Value) : BraceFree (encoding v).toList :=
  ⟨Style.not_mem_encoding (by decide) (by decide) v, Style.not_mem_encoding (by decide) (by decide) v⟩

theorem exists_of_text? {text : List Char} (h : text? values name = some text) : ∃ v, text = (encoding v).toList := by
  obtain ⟨v, -, hv⟩ := Option.bind_eq_some_iff.mp h
  split at hv
  · exact ⟨v, (Option.some.inj hv).symm⟩
  · cases hv

namespace Part

theorem fill_literal (text : List Char) : fill values (.literal text) = .literal text := rfl

theorem fill_of_some {text : List Char} (h : text? values name = some text) :
    fill values (.placeholder name) = .literal text := by
  rw [fill, h]
  rfl

theorem fill_of_none (h : text? values name = none) : fill values (.placeholder name) = .placeholder name := by
  rw [fill, h]
  rfl

theorem braceFree_fill {part : Part} (h : BraceFree part.inner) : BraceFree (part.fill values).inner := by
  cases part with
  | literal text => exact h
  | placeholder name =>
    cases htext : text? values name with
    | none => rwa [fill_of_none htext]
    | some text =>
      obtain ⟨v, rfl⟩ := exists_of_text? htext
      rw [fill_of_some htext]
      exact braceFree_encoding v

/-- Filling takes away the names that have a text. -/
theorem name?_fill (part : Part) : (part.fill values).name? = part.name?.filter fun name => (text? values name).isNone := by
  cases part with
  | literal text => rfl
  | placeholder name =>
    cases htext : text? values name with
    | none =>
      rw [fill_of_none htext, name?, Option.filter_some, htext]
      rfl
    | some text =>
      rw [fill_of_some htext, name?, name?, Option.filter_some, htext]
      rfl

end Part

namespace Template

def names (t : Template) : List String := t.parts.filterMap Part.name?

def text (t : Template) : String := String.ofList (t.parts.flatMap Part.chars)

theorem filterMap_fill (parts : List Part) : (parts.map (Part.fill values)).filterMap Part.name? =
    (parts.filterMap Part.name?).filter fun name => (text? values name).isNone := by
  rw [List.filterMap_map, List.filter_filterMap]
  exact List.filterMap_congr fun part _ => Part.name?_fill part

/-- All placeholders replaced at once. -/
def fill (values : String → Option Value) (t : Template) : Template where
  parts := t.parts.map (Part.fill values)
  braceFree := List.forall_mem_map.mpr fun part hpart => Part.braceFree_fill (t.braceFree part hpart)
  distinct := by
    rw [filterMap_fill]
    exact t.distinct.filter _

theorem names_fill (values : String → Option Value) (t : Template) :
    (t.fill values).names = t.names.filter fun name => (text? values name).isNone :=
  filterMap_fill t.parts

/-- Replacing some variables and then others is replacing all of them. -/
theorem fill_fill (h : ∀ name, values name ≠ none → more name = none) (t : Template) :
    (t.fill values).fill more = t.fill fun name => (values name).or (more name) := by
  ext1
  show (t.parts.map _).map _ = t.parts.map _
  rw [List.map_map]
  apply List.map_congr_left
  intro part _
  cases part with
  | literal text => rfl
  | placeholder name =>
    rw [Function.comp_apply]
    cases hvalue : values name with
    | none =>
      have htext : text? (fun name => (values name).or (more name)) name = text? more name := by
        rw [text?, text?, hvalue, Option.none_or]
      rw [Part.fill_of_none (by rw [text?, hvalue]; rfl), Part.fill, Part.fill, htext]
    | some v =>
      have hmore : text? more name = none := by
        rw [text?, h name (by rw [hvalue]; exact Option.some_ne_none v)]
        rfl
      have htext : text? (fun name => (values name).or (more name)) name = text? values name := by
        rw [text?, text?, hvalue, Option.some_or]
      rw [Part.fill, Part.fill, htext]
      cases hone : text? values name with
      | none => exact Part.fill_of_none hmore
      | some text => rfl

end Template

/-! ## One replacement -/

theorem eq_of_begins {other : String} (hname : BraceFree name.toList) (hother : BraceFree other.toList)
    (h : (Part.placeholder name).chars <+: (Part.placeholder other).chars ++ rest) : name = other := by
  obtain ⟨tail, htail⟩ := h
  have hinner : name.toList ++ '\x7d' :: tail = other.toList ++ '\x7d' :: rest := by
    simpa [Part.chars] using htail
  have hcut := congrArg (Text.cut '\x7d') hinner
  rw [Text.cut_append hname.2, Text.cut_append hother.2] at hcut
  exact String.toList_inj.mp (Prod.mk.inj hcut).1

theorem map_fill_of_none {parts : List Part} (h : ∀ name ∈ parts.filterMap Part.name?, text? values name = none) :
    parts.map (Part.fill values) = parts := by
  refine Text.map_eq_self fun part hpart => ?_
  cases part with
  | literal text => rfl
  | placeholder name => exact Part.fill_of_none (h name (List.mem_filterMap.mpr ⟨_, hpart, rfl⟩))

/-- The first text that looks like a placeholder is the placeholder. -/
theorem replaceFirst_parts {parts : List Part} (hbraces : ∀ part ∈ parts, BraceFree part.inner)
    (hdistinct : (parts.filterMap Part.name?).Nodup) (hname : BraceFree name.toList) (htext : text? values name = some new)
    (hothers : ∀ other ≠ name, text? values other = none) :
    Text.replaceFirst (Part.placeholder name).chars new (parts.flatMap Part.chars) =
      (parts.map (Part.fill values)).flatMap Part.chars := by
  have hopen : '\x7b' ∉ ['\x7d'] := by decide
  induction parts with
  | nil => rfl
  | cons part parts ih =>
    obtain ⟨hpart, hrest⟩ := List.forall_mem_cons.mp hbraces
    rw [List.flatMap_cons, List.map_cons, List.flatMap_cons]
    cases part with
    | literal text =>
      rw [← ih hrest hdistinct, Part.fill_literal]
      exact Text.replaceFirst_append hpart.1 _
    | placeholder other =>
      obtain ⟨hfresh, hdistinct⟩ := List.nodup_cons.mp hdistinct
      by_cases heq : other = name
      · subst heq
        -- The names are distinct, so nothing behind this placeholder is filled.
        have hsame : parts.map (Part.fill values) = parts :=
          map_fill_of_none fun found hfound => hothers found fun heq => hfresh (heq ▸ hfound)
        rw [Part.fill_of_some htext, hsame]
        exact Text.replaceFirst_front (List.cons_ne_nil _ _) _
      · rw [Part.fill_of_none (hothers other heq), ← ih hrest hdistinct]
        show Text.replaceFirst _ new ('\x7b' :: (other.toList ++ ['\x7d'] ++ parts.flatMap Part.chars)) = _
        rw [Text.replaceFirst, if_neg]
        · exact congrArg ('\x7b' :: ·) (Text.replaceFirst_append (mt List.mem_append.mp (not_or.mpr ⟨hpart.1, hopen⟩)) _)
        · rw [List.isPrefixOf_iff_prefix]
          exact fun hprefix => heq (eq_of_begins hname hpart hprefix).symm

theorem lookup_singleton_of_ne {other : String} (h : other ≠ name) (v : Value) : [(name, v)].lookup other = none :=
  List.lookup_eq_none_iff.mpr (by simpa using h)

/-- Whether a variable can have such a value: an integer has to have a text. -/
def isFillable : Value → Bool
  | .int n => Numeral.isShort n
  | _ => true

theorem isSpellable_of_isScalar (h : isScalar v = true) : v.isSpellable = isFillable v := by
  cases v with
  | scalar s =>
    cases s with
    | int | bool | float | str => rfl
    | null | bytes | moment => cases h
  | list | tuple | map | source | signal | multipart => cases h

theorem isFillable_of_not_isScalar (h : ¬ isScalar v = true) : isFillable v = true := by
  unfold isFillable
  split
  · exact absurd rfl h
  · rfl

/-- One round of the loop fills the placeholder of one variable. -/
theorem fill_eq (t : Template) (hname : BraceFree name.toList) (v : Value) : Server.fill (.str t.text) (.str name) v =
    Result.guarded (isFillable v) (.str (t.fill fun n => [(name, v)].lookup n).text) := by
  have hothers : ∀ other ≠ name, text? (fun n => [(name, v)].lookup n) other = none := by
    intro other hother
    rw [text?, lookup_singleton_of_ne hother, Option.bind_none]
  have hself : text? (fun n => [(name, v)].lookup n) name = if isScalar v then some (encoding v).toList else none := by
    rw [text?, List.lookup_cons_self, Option.bind_some]
  by_cases hscalar : isScalar v = true
  · rw [if_pos hscalar] at hself
    have hfilled : Text.onChars (Text.replaceFirst (Part.placeholder name).chars (encoding v).toList) t.text =
        (t.fill fun n => [(name, v)].lookup n).text := by
      rw [Text.onChars, Template.text, String.toList_ofList,
        replaceFirst_parts t.braceFree t.distinct hname hself hothers]
      rfl
    rw [← hfilled, ← isSpellable_of_isScalar hscalar, Server.fill, if_neg (by simp [hscalar])]
    show (do return Value.str (Text.onChars (Text.replaceFirst (Part.placeholder name).chars (← encode v).toList) t.text) :
      Result Value) = _
    rw [encode_eq]
    exact Result.guarded_pure _
  · rw [if_neg hscalar] at hself
    have hsame : (t.fill fun n => [(name, v)].lookup n).parts = t.parts := by
      apply map_fill_of_none
      intro other _
      by_cases heq : other = name
      · rwa [heq]
      · exact hothers other heq
    rw [Server.fill, if_pos (by simp [hscalar]), Result.guarded_of_true (isFillable_of_not_isScalar hscalar),
      Template.text, Template.text, hsame]
    rfl

/-! ## The loop -/

/-- An entry of a mapping from names. -/
def keyed (e : String × Value) : Value × Value := (.str e.1, e.2)

theorem foldlM_fill (es : List (String × Value)) (hbraces : ∀ e ∈ es, BraceFree e.1.toList)
    (hdistinct : (es.map Prod.fst).Nodup) (t : Template) :
    (es.map keyed).foldlM (fun url e => Server.fill url e.1 e.2) (.str t.text) =
      Result.guarded (es.all fun e => isFillable e.2) (.str (t.fill fun name => es.lookup name).text) := by
  induction es generalizing t with
  | nil =>
    have hsame : (t.fill fun name => ([] : List (String × Value)).lookup name).parts = t.parts :=
      map_fill_of_none fun name _ => rfl
    rw [Template.text, Template.text, hsame]
    rfl
  | cons e es ih =>
    obtain ⟨he, hes⟩ := List.forall_mem_cons.mp hbraces
    obtain ⟨hfresh, hdistinct⟩ := List.nodup_cons.mp hdistinct
    have hstep : Server.fill (.str t.text) (keyed e).1 (keyed e).2 =
        Result.guarded (isFillable e.2) (.str (t.fill fun n => [e].lookup n).text) := fill_eq t he e.2
    -- No later round is about this variable, so the rounds together are one.
    have hapart : ∀ name, [e].lookup name ≠ none → es.lookup name = none := by
      intro name hname
      have heq : name = e.1 := by
        by_contra hne
        exact hname (lookup_singleton_of_ne hne e.2)
      rw [heq, List.lookup_eq_none_iff]
      intro f hf
      have hne : f.1 ≠ e.1 := ne_of_mem_of_not_mem (List.mem_map_of_mem hf) hfresh
      simpa using hne.symm
    have hlookup : (fun name => ([e].lookup name).or (es.lookup name)) = fun name => (e :: es).lookup name := by
      funext name
      rw [List.lookup_cons, List.lookup_cons]
      cases name == e.1 <;> rfl
    rw [List.map_cons, List.foldlM_cons, hstep, List.all_cons]
    cases isFillable e.2 with
    | false => rfl
    | true =>
      show (es.map keyed).foldlM _ (Value.str (t.fill fun n => [e].lookup n).text) = _
      rw [ih hes hdistinct, Template.fill_fill hapart, hlookup, Bool.true_and]

theorem put_keyed (es : List (String × Value)) (name : String) (v : Value) :
    Entries.put Value.same (es.map keyed) (.str name) v = (Entries.put (· == ·) es name v).map keyed := by
  induction es with
  | nil => rfl
  | cons e es ih =>
    have hsame : Value.same (.str e.1) (.str name) = (e.1 == name) := by
      rw [Bool.eq_iff_iff, Value.same_str_right, beq_iff_eq]
      simp
    rw [List.map_cons, Entries.put, Entries.put, ih]
    show (if Value.same (.str e.1) (.str name) = true then _ else _) = _
    rw [hsame]
    split <;> rfl

theorem merge_keyed (es fs : List (String × Value)) :
    Entries.merge Value.same (es.map keyed) (fs.map keyed) = (Entries.merge (· == ·) es fs).map keyed := by
  induction fs generalizing es with
  | nil => rfl
  | cons f fs ih =>
    rw [List.map_cons, Entries.merge_cons, Entries.merge_cons, ← ih]
    exact congrArg (fun base => Entries.merge Value.same base (fs.map keyed)) (put_keyed es f.1 f.2)

/-- That a value has the variables for its entries, in whatever order. -/
def Variables.IsIn (vars : Variables) (v : Value) : Prop :=
  ∃ es : List (String × Value), es.Perm vars.entries ∧ spread v = .ok (es.map keyed)

/-- The value of a variable: the given one, or else the default. -/
def chosen (defaults given : Variables) (name : String) : Option Value :=
  (given.entries.lookup name).or (defaults.entries.lookup name)

/-- The names in braces, from left to right. -/
def namesIn : List Char → List String
  | [] => []
  | c :: cs => if c = '\x7b' then String.ofList (cs.takeWhile (· != '\x7d')) :: namesIn cs else namesIn cs

theorem namesIn_append (h : '\x7b' ∉ cs) (rest : List Char) : namesIn (cs ++ rest) = namesIn rest := by
  induction cs with
  | nil => rfl
  | cons c cs ih =>
    obtain ⟨hc, hcs⟩ := not_or.mp (mt List.mem_cons.mpr h)
    rw [List.cons_append, namesIn, if_neg (Ne.symm hc), ih hcs]

theorem namesIn_chars {parts : List Part} (hbraces : ∀ part ∈ parts, BraceFree part.inner) :
    namesIn (parts.flatMap Part.chars) = parts.filterMap Part.name? := by
  induction parts with
  | nil => rfl
  | cons part parts ih =>
    obtain ⟨hpart, hrest⟩ := List.forall_mem_cons.mp hbraces
    rw [List.flatMap_cons, List.filterMap_cons, ← ih hrest]
    cases part with
    | literal text => exact namesIn_append hpart.1 _
    | placeholder name =>
      have hclose : '\x7b' ∉ name.toList ++ ['\x7d'] := mt List.mem_append.mp (not_or.mpr ⟨hpart.1, by decide⟩)
      have hcut : (name.toList ++ '\x7d' :: parts.flatMap Part.chars).takeWhile (· != '\x7d') = name.toList :=
        congrArg Prod.fst (Text.cut_append hpart.2 _)
      show namesIn ('\x7b' :: (name.toList ++ ['\x7d'] ++ parts.flatMap Part.chars)) = name :: _
      rw [namesIn, if_pos rfl, namesIn_append hclose, List.append_assoc, List.singleton_append, hcut, String.ofList_toList]

theorem namesIn_text (t : Template) : namesIn t.text.toList = t.names := by
  rw [Template.text, String.toList_ofList, namesIn_chars t.braceFree, Template.names]

theorem resolve_eq {configs : List Value} {index overrides url : Value} {config ds es : Value.Fields}
    (hconfig : element configs index = .ok (.map config)) (hurl : Value.find? config "url" = some url)
    (hdefaults : spread (Value.getD config "variables") = .ok ds) (hgiven : spread overrides = .ok es) :
    resolve configs index overrides =
      (Entries.merge Value.same ds es).foldlM (fun url e => Server.fill url e.1 e.2) url := by
  rw [resolve, hconfig]
  dsimp only [bind, Except.bind]
  rw [hurl]
  dsimp only
  rw [hdefaults]
  dsimp only
  rw [hgiven]

def regional : Template where
  parts := [.literal "https://".toList, .placeholder "region", .literal ".example.test/".toList, .placeholder "version",
    .placeholder "", .literal "/~".toList, .placeholder "no value"]
  braceFree := by decide
  distinct := by decide

def regionalDefaults : Variables where
  entries := [("region", .str "eu"), ("version", .str "\x7bregion\x7d"), ("no value", .str "x"), ("", .bool true)]
  braceFree := by decide
  distinct := by decide

def regionalGiven : Variables where
  entries := [("region", .str "\x7bversion\x7d\x7b"), ("no value", .null), ("other", .int 1)]
  braceFree := by decide
  distinct := by decide

/-- The defaults come in another order. -/
def regionalConfig : Value.Fields :=
  [(.str "url", .str regional.text), (.str "variables", .map (regionalDefaults.entries.reverse.map keyed))]

/-- A server with one variable. -/
def sized (size : Value) : Value :=
  .map [(.str "url", .str "/\x7bsize\x7d"), (.str "variables", .map [(.str "size", size)])]

theorem long_integer_refused {n : Int} (h : Numeral.isShort n = false) :
    resolve [sized (.int n)] (.int 0) .null = .error .badValue := by
  have hencode : encode (.int n) = .error .badValue := (encode_eq _).trans (Result.guarded_of_false h)
  rw [sized, resolve_eq rfl rfl rfl rfl]
  show (do pure (Value.str (Text.onChars (Text.replaceFirst _ (← encode (.int n)).toList) _))) >>= pure = _
  rw [hencode]
  rfl

end ClientBindings.Wire.Server
