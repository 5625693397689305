import ClientBindings.Proofs.Json.Number

/-! The grammar of JSON, each text together with what it denotes, and the reader: it reads every text of
the grammar as that. Integers of more digits than are read have no place in the grammar here. -/

namespace ClientBindings.Json

/-- What stands between quotes for one character. -/
inductive CharText : List Char → Char → Prop
  | plain {c : Char} (hprintable : 32 ≤ c.toNat) (hquote : c ≠ '"') (hbackslash : c ≠ '\\') : CharText [c] c
  | short {mark c : Char} (h : shortEscape? mark = some c) : CharText ['\\', mark] c
  | code {x y z w : Char} {n : Nat} (h : hexCode? x y z w = some n) (hwhole : ¬ (0xd800 ≤ n ∧ n < 0xe000)) :
    CharText ['\\', 'u', x, y, z, w] (Char.ofNat n)
  | halves {x y z w x' y' z' w' : Char} {high low : Nat} (hhigh : hexCode? x y z w = some high)
    (hlow : hexCode? x' y' z' w' = some low) (h : Surrogate.isHigh high = true) (h' : Surrogate.isLow low = true) :
    CharText ['\\', 'u', x, y, z, w, '\\', 'u', x', y', z', w'] (Char.ofNat (Surrogate.pair high low))

inductive StringText : List Char → List Char → Prop
  | nil : StringText [] []
  | cons {cs ds s : List Char} {c : Char} (head : CharText cs c) (tail : StringText ds s) :
    StringText (cs ++ ds) (c :: s)

/-- What a stretch of text can denote. -/
inductive Part where
  | value (d : Data)
  /-- A value with white space around it. -/
  | element (d : Data)
  | items (xs : List Data)
  | member (key : String) (d : Data)
  | members (es : List (Scalar × Data))

def IsBlank (cs : List Char) : Prop := ∀ c ∈ cs, isBlank c = true

inductive Denotes : List Char → Part → Prop
  | null : Denotes "null".toList (.value .null)
  | true : Denotes "true".toList (.value (.bool true))
  | false : Denotes "false".toList (.value (.bool false))
  | number (n : Number) (h : n.isTooLong = .false) : Denotes n.chars (.value (.scalar n.scalar))
  | string {cs s : List Char} (h : StringText cs s) : Denotes ('"' :: (cs ++ ['"'])) (.value (.str (String.ofList s)))
  | emptyList {cs : List Char} (h : IsBlank cs) : Denotes ('[' :: (cs ++ [']'])) (.value (.list []))
  | list {cs : List Char} {xs : List Data} (h : Denotes cs (.items xs)) :
    Denotes ('[' :: (cs ++ [']'])) (.value (.list xs))
  | emptyMap {cs : List Char} (h : IsBlank cs) : Denotes ('\x7b' :: (cs ++ ['\x7d'])) (.value (.map []))
  | map {cs : List Char} {es : List (Scalar × Data)} (h : Denotes cs (.members es)) :
    Denotes ('\x7b' :: (cs ++ ['\x7d'])) (.value (.map (Entries.ofList Scalar.same es)))
  | element {before cs after : List Char} {d : Data} (hbefore : IsBlank before) (h : Denotes cs (.value d))
    (hafter : IsBlank after) : Denotes (before ++ (cs ++ after)) (.element d)
  | item {cs : List Char} {d : Data} (h : Denotes cs (.element d)) : Denotes cs (.items [d])
  | items {cs rest : List Char} {d : Data} {xs : List Data} (h : Denotes cs (.element d))
    (hrest : Denotes rest (.items xs)) : Denotes (cs ++ ',' :: rest) (.items (d :: xs))
  | assign {before key after cs : List Char} {s : List Char} {d : Data} (hbefore : IsBlank before)
    (hkey : StringText key s) (hafter : IsBlank after) (h : Denotes cs (.element d)) :
    Denotes (before ++ '"' :: (key ++ '"' :: (after ++ ':' :: cs))) (.member (String.ofList s) d)
  | member {cs : List Char} {key : String} {d : Data} (h : Denotes cs (.member key d)) :
    Denotes cs (.members [(.str key, d)])
  | members {cs rest : List Char} {key : String} {d : Data} {es : List (Scalar × Data)} (h : Denotes cs (.member key d))
    (hrest : Denotes rest (.members es)) : Denotes (cs ++ ',' :: rest) (.members ((.str key, d) :: es))

/-! ## Strings read -/

/-- A character in front of what the rest of a string yields. -/
def withChar (c : Char) (r : Option (List Char × List Char)) : Option (List Char × List Char) :=
  r.map fun p => (c :: p.1, p.2)

theorem bind_cons (c : Char) (r : Option (List Char × List Char)) :
    (r >>= fun p => match p with | (s, after) => pure (c :: s, after)) = withChar c r := by
  cases r <;> rfl

theorem stringFrom_plain {c : Char} (hprintable : 32 ≤ c.toNat) (hquote : c ≠ '"') (hbackslash : c ≠ '\\')
    (rest : List Char) : stringFrom none (c :: rest) = withChar c (stringFrom none rest) := by
  have hplain : ¬ (decide (c.toNat < 32) || c == '\\') = true := by
    rw [Bool.or_eq_true, decide_eq_true_eq, beq_iff_eq]
    exact not_or.mpr ⟨Nat.not_lt.mpr hprintable, hbackslash⟩
  rw [stringFrom.eq_5 none c rest hquote (fun _ _ _ _ _ h => absurd h hbackslash) (fun _ _ h => absurd h hbackslash),
    if_neg hplain]
  exact bind_cons c _

theorem stringFrom_short {mark c : Char} (h : shortEscape? mark = some c) (rest : List Char) :
    stringFrom none ('\\' :: mark :: rest) = withChar c (stringFrom none rest) := by
  have hmark : mark ≠ 'u' := by
    rintro rfl
    cases h
  rw [stringFrom.eq_4 none mark rest (fun _ _ _ _ _ h => absurd h hmark), h]
  exact bind_cons c _

theorem stringFrom_first {x y z w : Char} {n : Nat} (h : hexCode? x y z w = some n) (rest : List Char) :
    stringFrom none ('\\' :: 'u' :: x :: y :: z :: w :: rest) =
      if Surrogate.isHigh n && (lowHalf? rest).isSome then stringFrom (some n) rest
      else withChar (Utf8.charOfCode n) (stringFrom none rest) := by
  rw [← bind_cons]
  show (hexCode? x y z w >>= _) = _
  rw [h]
  rfl

theorem stringFrom_second {x y z w : Char} {high low : Nat} (h : hexCode? x y z w = some low) (rest : List Char) :
    stringFrom (some high) ('\\' :: 'u' :: x :: y :: z :: w :: rest) =
      withChar (Char.ofNat (Surrogate.pair high low)) (stringFrom none rest) := by
  rw [← bind_cons]
  show (hexCode? x y z w >>= _) = _
  rw [h]
  rfl

theorem stringFrom_code {x y z w : Char} {n : Nat} (h : hexCode? x y z w = some n)
    (hwhole : ¬ (0xd800 ≤ n ∧ n < 0xe000)) (rest : List Char) :
    stringFrom none ('\\' :: 'u' :: x :: y :: z :: w :: rest) = withChar (Char.ofNat n) (stringFrom none rest) := by
  have hhigh : Surrogate.isHigh n = false := by
    rw [Surrogate.isHigh, Bool.and_eq_false_iff, decide_eq_false_iff_not, decide_eq_false_iff_not]
    omega
  rw [stringFrom_first h, hhigh, Bool.false_and, if_neg Bool.false_ne_true, Utf8.charOfCode, if_neg hwhole]

theorem stringFrom_halves {x y z w x' y' z' w' : Char} {high low : Nat} (hhigh : hexCode? x y z w = some high)
    (hlow : hexCode? x' y' z' w' = some low) (h : Surrogate.isHigh high = true) (h' : Surrogate.isLow low = true)
    (rest : List Char) :
    stringFrom none ('\\' :: 'u' :: x :: y :: z :: w :: '\\' :: 'u' :: x' :: y' :: z' :: w' :: rest) =
      withChar (Char.ofNat (Surrogate.pair high low)) (stringFrom none rest) := by
  have hnext : (lowHalf? ('\\' :: 'u' :: x' :: y' :: z' :: w' :: rest)).isSome = true := by
    rw [lowHalf?, hlow, Option.filter_some, if_pos h']
    rfl
  rw [stringFrom_first hhigh, h, hnext, Bool.true_and, if_pos rfl, stringFrom_second hlow]

theorem stringFrom_append {cs : List Char} {c : Char} (h : CharText cs c) (rest : List Char) :
    stringFrom none (cs ++ rest) = withChar c (stringFrom none rest) := by
  cases h with
  | plain hprintable hquote hbackslash => exact stringFrom_plain hprintable hquote hbackslash rest
  | short h => exact stringFrom_short h rest
  | code h hwhole => exact stringFrom_code h hwhole rest
  | halves hhigh hlow h h' => exact stringFrom_halves hhigh hlow h h' rest

theorem string_append {cs s : List Char} (h : StringText cs s) (rest : List Char) :
    string (cs ++ '"' :: rest) = some (String.ofList s, rest) := by
  have hread : stringFrom none (cs ++ '"' :: rest) = some (s, rest) := by
    induction h with
    | nil => rfl
    | cons head _ ih =>
      rw [List.append_assoc, stringFrom_append head, ih]
      rfl
  rw [string, hread]
  rfl

/-! ## White space -/

variable {cs rest : List Char} {c : Char} {fuel : Nat}

theorem stops_of_isBlank (h : isBlank c = true) : isDigit c = false ∧ c ≠ '.' ∧ isExponentMark c = false := by
  rw [isBlank, Bool.or_eq_true, Bool.or_eq_true, Bool.or_eq_true, beq_iff_eq, beq_iff_eq, beq_iff_eq, beq_iff_eq] at h
  rcases h with ((rfl | rfl) | rfl) | rfl
  all_goals decide

theorem stops_append (h : IsBlank cs) (hrest : Stops rest) : Stops (cs ++ rest) := by
  cases cs with
  | nil => exact hrest
  | cons c cs => exact stops_cons (stops_of_isBlank (h c List.mem_cons_self)) _

theorem skipBlank_append (h : IsBlank cs) (rest : List Char) : skipBlank (cs ++ rest) = skipBlank rest :=
  List.dropWhile_append_of_pos h

theorem skipBlank_cons (h : isBlank c = false) (cs : List Char) : skipBlank (c :: cs) = c :: cs :=
  List.dropWhile_cons_of_neg (by simp [h])

/-- A value or a key begins here, not an end. -/
def Opens (cs : List Char) : Prop := ∃ c rest, cs = c :: rest ∧ isBlank c = false ∧ c ≠ ']' ∧ c ≠ '\x7d'

theorem Opens.append (h : Opens cs) (rest : List Char) : Opens (cs ++ rest) := by
  obtain ⟨c, tail, rfl, hc⟩ := h
  exact ⟨c, tail ++ rest, rfl, hc⟩

theorem Opens.skipBlank_eq (h : Opens cs) : skipBlank cs = cs := by
  obtain ⟨c, tail, rfl, hc, -⟩ := h
  exact skipBlank_cons hc tail

/-! ## One step of the reader -/

variable {behind after : List Char} {d : Data} {xs : List Data} {es : List (Scalar × Data)} {key : String}

theorem value_plain (hquote : c ≠ '"') (hlist : c ≠ '[') (hmap : c ≠ '\x7b') (cs : List Char) :
    value (fuel + 1) (c :: cs) = (plain (c :: cs)).map fun p => (.scalar p.1, p.2) := by
  rw [value.eq_5 (c :: cs) fuel (fun _ h => hquote (List.cons.inj h).1) (fun _ h => hlist (List.cons.inj h).1)
    fun _ h => hmap (List.cons.inj h).1]
  cases plain (c :: cs) <;> rfl

theorem value_quote (fuel : Nat) (cs : List Char) : value (fuel + 1) ('"' :: cs) = (do
    let (text, after) ← expect (string cs)
    return (.str text, after)) := rfl

theorem value_string {text : String} (h : string cs = some (text, after)) :
    value (fuel + 1) ('"' :: cs) = .ok (.str text, after) := by
  rw [value_quote, h]
  rfl

theorem value_bracket (fuel : Nat) (cs : List Char) : value (fuel + 1) ('[' :: cs) =
    match skipBlank cs with
    | ']' :: after => return (.list [], after)
    | cs => do
      let (xs, after) ← items fuel cs
      return (.list xs, after) := rfl

theorem value_emptyList (h : skipBlank cs = ']' :: after) : value (fuel + 1) ('[' :: cs) = .ok (.list [], after) := by
  rw [value_bracket, h]
  rfl

theorem value_list (hopens : Opens (skipBlank cs)) (h : items fuel (skipBlank cs) = .ok (xs, after)) :
    value (fuel + 1) ('[' :: cs) = .ok (.list xs, after) := by
  obtain ⟨c, tail, hcs, -, hclose, -⟩ := hopens
  rw [value_bracket]
  split
  · rename_i heq
    rw [hcs] at heq
    exact absurd (List.cons.inj heq).1 hclose
  · rw [h]
    rfl

theorem value_brace (fuel : Nat) (cs : List Char) : value (fuel + 1) ('\x7b' :: cs) =
    match skipBlank cs with
    | '\x7d' :: after => return (.map [], after)
    | cs => do
      let (es, after) ← members fuel cs
      return (.map (Entries.ofList Scalar.same es), after) := rfl

theorem value_emptyMap (h : skipBlank cs = '\x7d' :: after) :
    value (fuel + 1) ('\x7b' :: cs) = .ok (.map [], after) := by
  rw [value_brace, h]
  rfl

theorem value_map (hopens : Opens (skipBlank cs)) (h : members fuel (skipBlank cs) = .ok (es, after)) :
    value (fuel + 1) ('\x7b' :: cs) = .ok (.map (Entries.ofList Scalar.same es), after) := by
  obtain ⟨c, tail, hcs, -, -, hclose⟩ := hopens
  rw [value_brace]
  split
  · rename_i heq
    rw [hcs] at heq
    exact absurd (List.cons.inj heq).1 hclose
  · rw [h]
    rfl

theorem items_of_value (h : value fuel cs = .ok (d, behind)) : items (fuel + 1) cs =
    match skipBlank behind with
    | ',' :: rest => do
      let (xs, after) ← items fuel (skipBlank rest)
      return (d :: xs, after)
    | ']' :: after => return ([d], after)
    | _ => throw .invalidJson := by
  show (value fuel cs >>= _) = _
  rw [h]
  rfl

theorem items_last (h : value fuel cs = .ok (d, behind)) (hclose : skipBlank behind = ']' :: after) :
    items (fuel + 1) cs = .ok ([d], after) := by
  rw [items_of_value h, hclose]
  rfl

theorem items_more (h : value fuel cs = .ok (d, behind)) (hcomma : skipBlank behind = ',' :: rest)
    (hrest : items fuel (skipBlank rest) = .ok (xs, after)) : items (fuel + 1) cs = .ok (d :: xs, after) := by
  rw [items_of_value h, hcomma]
  exact Result.bind_eq_ok_iff.mpr ⟨(xs, after), hrest, rfl⟩

/-- A key, a colon and a value are read off a text; what is behind them begins like the rest. -/
inductive Assigns (fuel : Nat) (rest : List Char) (key : String) (d : Data) : List Char → Prop
  | read {quoted colon value behind : List Char} (hkey : string quoted = some (key, colon))
    (hcolon : skipBlank colon = ':' :: value) (h : Json.value fuel (skipBlank value) = .ok (d, behind))
    (hbehind : skipBlank behind = skipBlank rest) : Assigns fuel rest key d ('"' :: quoted)

theorem members_of_assigns (h : Assigns fuel rest key d cs) : members (fuel + 1) cs =
    match skipBlank rest with
    | ',' :: rest => do
      let (es, after) ← members fuel (skipBlank rest)
      return ((.str key, d) :: es, after)
    | '\x7d' :: after => return ([(.str key, d)], after)
    | _ => throw .invalidJson := by
  obtain ⟨hkey, hcolon, hvalue, hbehind⟩ := h
  show (expect (string _) >>= _) = _
  rw [hkey, expect, pure_bind]
  dsimp only
  rw [hcolon]
  show (value fuel (skipBlank _) >>= _) = _
  rw [hvalue, ← hbehind]
  rfl

theorem members_last (h : Assigns fuel ('\x7d' :: after) key d cs) :
    members (fuel + 1) cs = .ok ([(.str key, d)], after) := by
  rw [members_of_assigns h, skipBlank_cons rfl]
  rfl

theorem members_more (h : Assigns fuel (',' :: rest) key d cs)
    (hrest : members fuel (skipBlank rest) = .ok (es, after)) : members (fuel + 1) cs = .ok ((.str key, d) :: es, after) := by
  rw [members_of_assigns h, skipBlank_cons rfl]
  exact Result.bind_eq_ok_iff.mpr ⟨(es, after), hrest, rfl⟩

/-! ## Every text of the grammar -/

/-- How a stretch of text is read in front of any other that can follow it. -/
def Reads (cs : List Char) : Part → Prop
  | .value d => Opens cs ∧ ∀ fuel rest, cs.length ≤ fuel → Stops rest → value fuel (cs ++ rest) = .ok (d, rest)
  | .element d => (∀ rest, Opens (skipBlank (cs ++ rest))) ∧ ∀ fuel rest, cs.length ≤ fuel → Stops rest →
      ∃ behind, value fuel (skipBlank (cs ++ rest)) = .ok (d, behind) ∧ skipBlank behind = skipBlank rest
  | .items xs => (∀ rest, Opens (skipBlank (cs ++ rest))) ∧ ∀ fuel rest, cs.length < fuel →
      items fuel (skipBlank (cs ++ ']' :: rest)) = .ok (xs, rest)
  | .member key d => (∀ rest, Opens (skipBlank (cs ++ rest))) ∧ ∀ fuel rest, cs.length ≤ fuel → Stops rest →
      Assigns fuel rest key d (skipBlank (cs ++ rest))
  | .members es => (∀ rest, Opens (skipBlank (cs ++ rest))) ∧ ∀ fuel rest, cs.length < fuel →
      members fuel (skipBlank (cs ++ '\x7d' :: rest)) = .ok (es, rest)

theorem reads_scalar {s : Scalar} (hopens : Opens cs) (hhead : ∀ c ∈ cs.head?, c ≠ '"' ∧ c ≠ '[' ∧ c ≠ '\x7b')
    (hplain : ∀ rest, Stops rest → plain (cs ++ rest) = .ok (s, rest)) : Reads cs (.value (.scalar s)) := by
  refine ⟨hopens, ?_⟩
  intro fuel rest hfuel hrest
  obtain ⟨c, tail, rfl, -⟩ := hopens
  obtain ⟨hquote, hlist, hmap⟩ := hhead c rfl
  cases fuel with
  | zero => cases hfuel
  | succ fuel =>
    have hread := hplain rest hrest
    rw [List.cons_append] at hread ⊢
    rw [value_plain hquote hlist hmap, hread]
    rfl

theorem number_opens (n : Number) : Opens n.chars ∧ ∀ c ∈ n.chars.head?, c ≠ '"' ∧ c ≠ '[' ∧ c ≠ '\x7b' := by
  obtain ⟨c, tail, hchars, hc⟩ := n.exists_head
  have hne : ∀ d, d ≠ '-' → isDigit d = false → c ≠ d := by
    intro d hminus hdigit
    rcases hc with rfl | hc
    · exact hminus.symm
    · exact ne_of_isDigit hc hdigit
  have hblank : isBlank c = false := by
    rw [← Bool.not_eq_true]
    intro hblank
    rcases hc with rfl | hc
    · cases hblank
    · rw [(stops_of_isBlank hblank).1] at hc
      cases hc
  constructor
  · exact ⟨c, tail, hchars, hblank, hne ']' (by decide) rfl, hne '\x7d' (by decide) rfl⟩
  · intro d hd
    rw [hchars] at hd
    rw [← Option.some.inj hd]
    exact ⟨hne '"' (by decide) rfl, hne '[' (by decide) rfl, hne '\x7b' (by decide) rfl⟩

theorem reads_number (n : Number) (h : n.isTooLong = false) : Reads n.chars (.value (.scalar n.scalar)) := by
  obtain ⟨hopens, hhead⟩ := number_opens n
  apply reads_scalar hopens hhead
  intro rest hrest
  rw [plain_append n hrest, h]
  rfl

theorem reads_string {s : List Char} (h : StringText cs s) :
    Reads ('"' :: (cs ++ ['"'])) (.value (.str (String.ofList s))) := by
  refine ⟨⟨'"', _, rfl, by decide⟩, ?_⟩
  intro fuel rest hfuel _
  cases fuel with
  | zero => cases hfuel
  | succ fuel =>
    rw [List.cons_append, List.append_assoc, List.singleton_append]
    exact value_string (string_append h rest)

theorem reads_emptyList (h : IsBlank cs) : Reads ('[' :: (cs ++ [']'])) (.value (.list [])) := by
  refine ⟨⟨'[', _, rfl, by decide⟩, ?_⟩
  intro fuel rest hfuel _
  cases fuel with
  | zero => cases hfuel
  | succ fuel =>
    rw [List.cons_append, List.append_assoc, List.singleton_append]
    exact value_emptyList ((skipBlank_append h _).trans (skipBlank_cons rfl rest))

theorem reads_list (h : Reads cs (.items xs)) : Reads ('[' :: (cs ++ [']'])) (.value (.list xs)) := by
  refine ⟨⟨'[', _, rfl, by decide⟩, ?_⟩
  intro fuel rest hfuel _
  rw [List.length_cons, List.length_append, List.length_singleton] at hfuel
  cases fuel with
  | zero => cases hfuel
  | succ fuel =>
    rw [List.cons_append, List.append_assoc, List.singleton_append]
    exact value_list (h.1 _) (h.2 fuel rest (Nat.le_of_succ_le_succ hfuel))

theorem reads_emptyMap (h : IsBlank cs) : Reads ('\x7b' :: (cs ++ ['\x7d'])) (.value (.map [])) := by
  refine ⟨⟨'\x7b', _, rfl, by decide⟩, ?_⟩
  intro fuel rest hfuel _
  cases fuel with
  | zero => cases hfuel
  | succ fuel =>
    rw [List.cons_append, List.append_assoc, List.singleton_append]
    exact value_emptyMap ((skipBlank_append h _).trans (skipBlank_cons rfl rest))

theorem reads_map (h : Reads cs (.members es)) :
    Reads ('\x7b' :: (cs ++ ['\x7d'])) (.value (.map (Entries.ofList Scalar.same es))) := by
  refine ⟨⟨'\x7b', _, rfl, by decide⟩, ?_⟩
  intro fuel rest hfuel _
  rw [List.length_cons, List.length_append, List.length_singleton] at hfuel
  cases fuel with
  | zero => cases hfuel
  | succ fuel =>
    rw [List.cons_append, List.append_assoc, List.singleton_append]
    exact value_map (h.1 _) (h.2 fuel rest (Nat.le_of_succ_le_succ hfuel))

theorem reads_element {before : List Char} (hbefore : IsBlank before) (h : Reads cs (.value d))
    (hafter : IsBlank after) : Reads (before ++ (cs ++ after)) (.element d) := by
  have hskip : ∀ rest, skipBlank (before ++ (cs ++ after) ++ rest) = cs ++ (after ++ rest) := by
    intro rest
    rw [List.append_assoc, skipBlank_append hbefore, List.append_assoc, (h.1.append _).skipBlank_eq]
  constructor
  · intro rest
    rw [hskip]
    exact h.1.append _
  · intro fuel rest hfuel hrest
    rw [List.length_append, List.length_append] at hfuel
    refine ⟨after ++ rest, ?_, skipBlank_append hafter rest⟩
    rw [hskip]
    exact h.2 fuel (after ++ rest) (by omega) (stops_append hafter hrest)

theorem reads_item (h : Reads cs (.element d)) : Reads cs (.items [d]) := by
  refine ⟨h.1, ?_⟩
  intro fuel rest hfuel
  cases fuel with
  | zero => cases hfuel
  | succ fuel =>
    obtain ⟨behind, hread, hbehind⟩ := h.2 fuel (']' :: rest) (Nat.le_of_lt_succ hfuel) (stops_cons (by decide) rest)
    exact items_last hread (hbehind.trans (skipBlank_cons rfl rest))

theorem reads_items (h : Reads cs (.element d)) (hrest : Reads rest (.items xs)) :
    Reads (cs ++ ',' :: rest) (.items (d :: xs)) := by
  constructor
  · intro tail
    rw [List.append_assoc]
    exact h.1 _
  · intro fuel tail hfuel
    rw [List.length_append, List.length_cons] at hfuel
    cases fuel with
    | zero => cases hfuel
    | succ fuel =>
      obtain ⟨behind, hread, hbehind⟩ :=
        h.2 fuel (',' :: (rest ++ ']' :: tail)) (by omega) (stops_cons (by decide) _)
      rw [List.append_assoc, List.cons_append]
      exact items_more hread (hbehind.trans (skipBlank_cons rfl _)) (hrest.2 fuel tail (by omega))

theorem reads_assign {before quoted s : List Char} (hbefore : IsBlank before) (hkey : StringText quoted s)
    (hafter : IsBlank after) (h : Reads cs (.element d)) :
    Reads (before ++ '"' :: (quoted ++ '"' :: (after ++ ':' :: cs))) (.member (String.ofList s) d) := by
  have hskip : ∀ rest, skipBlank (before ++ '"' :: (quoted ++ '"' :: (after ++ ':' :: cs)) ++ rest) =
      '"' :: (quoted ++ '"' :: (after ++ ':' :: (cs ++ rest))) := by
    intro rest
    rw [List.append_assoc, skipBlank_append hbefore, List.cons_append, skipBlank_cons rfl]
    simp only [List.append_assoc, List.cons_append]
  constructor
  · intro rest
    rw [hskip]
    exact ⟨'"', _, rfl, by decide⟩
  · intro fuel rest hfuel hrest
    simp only [List.length_append, List.length_cons] at hfuel
    obtain ⟨behind, hread, hbehind⟩ := h.2 fuel rest (by omega) hrest
    rw [hskip]
    exact .read (string_append hkey _) ((skipBlank_append hafter _).trans (skipBlank_cons rfl _)) hread hbehind

theorem reads_member (h : Reads cs (.member key d)) : Reads cs (.members [(.str key, d)]) := by
  refine ⟨h.1, ?_⟩
  intro fuel rest hfuel
  cases fuel with
  | zero => cases hfuel
  | succ fuel => exact members_last (h.2 fuel ('\x7d' :: rest) (Nat.le_of_lt_succ hfuel) (stops_cons (by decide) rest))

theorem reads_members (h : Reads cs (.member key d)) (hrest : Reads rest (.members es)) :
    Reads (cs ++ ',' :: rest) (.members ((.str key, d) :: es)) := by
  constructor
  · intro tail
    rw [List.append_assoc]
    exact h.1 _
  · intro fuel tail hfuel
    rw [List.length_append, List.length_cons] at hfuel
    cases fuel with
    | zero => cases hfuel
    | succ fuel =>
      have hassigns := h.2 fuel (',' :: (rest ++ '\x7d' :: tail)) (by omega) (stops_cons (by decide) _)
      rw [List.append_assoc, List.cons_append]
      exact members_more hassigns (hrest.2 fuel tail (by omega))

theorem Denotes.reads {part : Part} (h : Denotes cs part) : Reads cs part := by
  induction h with
  | null => exact reads_scalar ⟨'n', _, rfl, by decide⟩ (by rintro _ ⟨rfl⟩; decide) fun _ _ => rfl
  | true => exact reads_scalar ⟨'t', _, rfl, by decide⟩ (by rintro _ ⟨rfl⟩; decide) fun _ _ => rfl
  | false => exact reads_scalar ⟨'f', _, rfl, by decide⟩ (by rintro _ ⟨rfl⟩; decide) fun _ _ => rfl
  | number n h => exact reads_number n h
  | string h => exact reads_string h
  | emptyList h => exact reads_emptyList h
  | list _ ih => exact reads_list ih
  | emptyMap h => exact reads_emptyMap h
  | map _ ih => exact reads_map ih
  | element hbefore _ hafter ih => exact reads_element hbefore ih hafter
  | item _ ih => exact reads_item ih
  | items _ _ ih ihrest => exact reads_items ih ihrest
  | assign hbefore hkey hafter _ ih => exact reads_assign hbefore hkey hafter ih
  | member _ ih => exact reads_member ih
  | members _ _ ih ihrest => exact reads_members ih ihrest

/-- The reader reads every text of the grammar as what it denotes. -/
theorem parse_of_denotes {text : String} (h : Denotes text.toList (.element d)) : parse text = .ok d := by
  obtain ⟨behind, hread, hbehind⟩ := h.reads.2 (2 * text.toList.length + 2) [] (by omega) stops_nil
  rw [List.append_nil] at hread
  rw [parse, Result.bind_eq_ok_iff]
  refine ⟨(d, behind), hread, ?_⟩
  dsimp only
  rw [hbehind]
  rfl

theorem parse_tooLong (n : Number) (h : n.isTooLong = true) : parse (String.ofList n.chars) = .error .badValue := by
  have hplain := plain_append n stops_nil
  obtain ⟨hopens, hhead⟩ := number_opens n
  rw [h, List.append_nil] at hplain
  rw [parse, String.toList_ofList, hopens.skipBlank_eq]
  obtain ⟨c, tail, hchars, -⟩ := hopens
  rw [hchars] at hplain hhead ⊢
  obtain ⟨hquote, hlist, hmap⟩ := hhead c rfl
  rw [value_plain hquote hlist hmap, hplain]
  rfl

end ClientBindings.Json
