import ClientBindings.Proofs.Wire.Layout
import Mathlib.Data.List.ReduceOption

/-! Deep objects. Each scalar inside a value is assigned to the name with the keys that lead to it, one
assignment behind the other. A container whose members are all left out is laid out as an empty text, not
left out itself, so next to the assignments there may be empty pieces: just as many as there are such
containers. -/

namespace ClientBindings
namespace Wire

/-- A scalar inside a value, and the keys that lead to it. -/
structure Leaf where
  path : List Value
  scalar : Scalar
deriving Repr

namespace Leaf

def under (key : Value) (l : Leaf) : Leaf := { l with path := key :: l.path }

/-- The name with the keys in brackets. -/
def target (name : String) (l : Leaf) : String :=
  l.path.foldl (fun name key => name ++ "[" ++ spelling key ++ "]") name

def assignment (name : String) (l : Leaf) : String := l.target name ++ "=" ++ encoding (.scalar l.scalar)

end Leaf

/-! ## What a value consists of -/

mutual
/-- The scalars in a value that are laid out, in their order. -/
def leaves : Value → List Leaf
  | .scalar s => if isScalar (.scalar s) then [⟨[], s⟩] else []
  | .list xs | .tuple xs => itemLeaves 0 xs
  | .map es => entryLeaves es
  | _ => []
def itemLeaves (index : Nat) : List Value → List Leaf
  | [] => []
  | x :: xs => (leaves x).map (Leaf.under (.int index)) ++ itemLeaves (index + 1) xs
def entryLeaves : List (Value × Value) → List Leaf
  | [] => []
  | (k, v) :: es => (leaves v).map (Leaf.under k) ++ entryLeaves es
end

mutual
/-- Whether each container in a value that has members has a leaf. -/
def isSolid : Value → Bool
  | .list xs | .tuple xs => (xs.isEmpty || !(itemLeaves 0 xs).isEmpty) && areSolid xs
  | .map es => (es.isEmpty || !(entryLeaves es).isEmpty) && holdSolid es
  | _ => true
def areSolid : List Value → Bool
  | [] => true
  | x :: xs => isSolid x && areSolid xs
def holdSolid : List (Value × Value) → Bool
  | [] => true
  | (_, v) :: es => isSolid v && holdSolid es
end

/-- A gap for members that leave nothing behind; none if there are no members. -/
def orGap {α : Type} (members : List α) (pieces : List (Option Leaf)) : List (Option Leaf) :=
  if members.isEmpty then [] else if pieces.isEmpty then [none] else pieces

mutual
/-- The leaves of a value, and a gap for each container that has members of which none is laid out. -/
def pieces : Value → List (Option Leaf)
  | .scalar s => if isScalar (.scalar s) then [some ⟨[], s⟩] else []
  | .list xs | .tuple xs => orGap xs (itemPieces 0 xs)
  | .map es => orGap es (entryPieces es)
  | _ => []
def itemPieces (index : Nat) : List Value → List (Option Leaf)
  | [] => []
  | x :: xs => (pieces x).map (Option.map (Leaf.under (.int index))) ++ itemPieces (index + 1) xs
def entryPieces : List (Value × Value) → List (Option Leaf)
  | [] => []
  | (k, v) :: es => (pieces v).map (Option.map (Leaf.under k)) ++ entryPieces es
end

theorem reduceOption_under (key : Value) (ps : List (Option Leaf)) :
    (ps.map (Option.map (Leaf.under key))).reduceOption = ps.reduceOption.map (Leaf.under key) := by
  rw [List.reduceOption_map]

theorem reduceOption_orGap {α : Type} {members : List α} {ps : List (Option Leaf)}
    (h : members = [] → ps = []) : (orGap members ps).reduceOption = ps.reduceOption := by
  unfold orGap
  split
  case isTrue hempty => rw [h (List.isEmpty_iff.mp hempty)]
  case isFalse =>
  split
  case isTrue hempty => rw [List.isEmpty_iff.mp hempty]; rfl
  case isFalse => rfl

mutual
theorem reduceOption_pieces : ∀ v : Value, (pieces v).reduceOption = leaves v
  | .scalar s => by
    rw [pieces, leaves]
    split <;> rfl
  | .list xs => by
    rw [pieces, leaves, reduceOption_orGap (by rintro rfl; rfl), reduceOption_itemPieces]
  | .tuple xs => by
    rw [pieces, leaves, reduceOption_orGap (by rintro rfl; rfl), reduceOption_itemPieces]
  | .map es => by
    rw [pieces, leaves, reduceOption_orGap (by rintro rfl; rfl), reduceOption_entryPieces]
  | .source .. => rfl
  | .signal _ => rfl
  | .multipart _ => rfl
theorem reduceOption_itemPieces (index : Nat) : ∀ xs : List Value,
    (itemPieces index xs).reduceOption = itemLeaves index xs
  | [] => rfl
  | x :: xs => by
    rw [itemPieces, itemLeaves, List.reduceOption_append, reduceOption_under, reduceOption_pieces x,
      reduceOption_itemPieces (index + 1) xs]
theorem reduceOption_entryPieces : ∀ es : List (Value × Value), (entryPieces es).reduceOption = entryLeaves es
  | [] => rfl
  | (k, v) :: es => by
    rw [entryPieces, entryLeaves, List.reduceOption_append, reduceOption_under, reduceOption_pieces v,
      reduceOption_entryPieces es]
end

/-! ## Where the gaps are -/

theorem none_mem_under {key : Value} {ps : List (Option Leaf)} :
    none ∈ ps.map (Option.map (Leaf.under key)) ↔ none ∈ ps := by
  simp

/-- Pieces without leaves are gaps. -/
theorem none_mem_of_reduceOption {ps : List (Option Leaf)} (hne : ps ≠ []) (h : ps.reduceOption = []) : none ∈ ps := by
  obtain ⟨p, hp⟩ := List.exists_mem_of_ne_nil ps hne
  cases p with
  | none => exact hp
  | some l =>
    have hl : l ∈ ps.reduceOption := List.reduceOption_mem_iff.mpr hp
    rw [h] at hl
    exact absurd hl List.not_mem_nil

theorem none_mem_orGap {α : Type} {members : List α} {ps : List (Option Leaf)} (hempty : members = [] → ps = []) :
    none ∈ orGap members ps ↔ (members.isEmpty || !ps.reduceOption.isEmpty) = false ∨ none ∈ ps := by
  unfold orGap
  by_cases hmembers : members = []
  · rw [hempty hmembers, hmembers]
    simp
  · rw [if_neg (by simpa using hmembers)]
    by_cases hps : ps = []
    · simp [hps, hmembers]
    · rw [if_neg (by simpa using hps)]
      refine (or_iff_right_of_imp fun hnone => ?_).symm
      exact none_mem_of_reduceOption hps (by simpa [hmembers] using hnone)

mutual
theorem none_mem_pieces : ∀ v : Value, none ∈ pieces v ↔ isSolid v = false
  | .scalar s => by
    unfold pieces isSolid
    split <;> simp
  | .list xs => by
    rw [pieces, isSolid, none_mem_orGap (by rintro rfl; rfl), Bool.and_eq_false_iff, reduceOption_itemPieces,
      none_mem_itemPieces]
  | .tuple xs => by
    rw [pieces, isSolid, none_mem_orGap (by rintro rfl; rfl), Bool.and_eq_false_iff, reduceOption_itemPieces,
      none_mem_itemPieces]
  | .map es => by
    rw [pieces, isSolid, none_mem_orGap (by rintro rfl; rfl), Bool.and_eq_false_iff, reduceOption_entryPieces,
      none_mem_entryPieces]
  | .source .. => by simp [pieces, isSolid]
  | .signal _ => by simp [pieces, isSolid]
  | .multipart _ => by simp [pieces, isSolid]
theorem none_mem_itemPieces (index : Nat) : ∀ xs : List Value, none ∈ itemPieces index xs ↔ areSolid xs = false
  | [] => by simp [itemPieces, areSolid]
  | x :: xs => by
    rw [itemPieces, areSolid, List.mem_append, none_mem_under, none_mem_pieces x, none_mem_itemPieces (index + 1) xs,
      Bool.and_eq_false_iff]
theorem none_mem_entryPieces : ∀ es : List (Value × Value), none ∈ entryPieces es ↔ holdSolid es = false
  | [] => by simp [entryPieces, holdSolid]
  | (k, v) :: es => by
    rw [entryPieces, holdSolid, List.mem_append, none_mem_under, none_mem_pieces v, none_mem_entryPieces es,
      Bool.and_eq_false_iff]
end

/-! ## How they are joined -/

/-- Texts with a mark between them; none if there are no texts. -/
def joined? (texts : List String) : Option String := if texts.isEmpty then none else some (Layout.join "&" texts)

/-- Joining is done piece by piece. -/
theorem joined?_append (ts us : List String) :
    joined? (ts ++ us) = Option.merge (fun t u => t ++ "&" ++ u) (joined? ts) (joined? us) := by
  by_cases hts : ts = []
  · subst hts
    rw [List.nil_append]
    cases joined? us <;> rfl
  by_cases hus : us = []
  · subst hus
    rw [List.append_nil]
    cases joined? ts <;> rfl
  have hboth : (ts ++ us).isEmpty = false := by simp [hts]
  rw [joined?, joined?, joined?, hboth, List.isEmpty_eq_false_iff.mpr hts, List.isEmpty_eq_false_iff.mpr hus]
  exact congrArg some (String.intercalate_append_of_ne_nil hts hus)

theorem joined?_toList (text : Option String) : joined? text.toList = text := by
  cases text with
  | none => rfl
  | some text => exact congrArg some String.intercalate_singleton

theorem join_eq (ts : List String) : Layout.join "&" ts = (joined? ts).getD "" := by
  cases ts <;> rfl

theorem spelling_index (index : Nat) : spelling (.int index) = toString index := String.ofList_toList

def pieceText (name : String) (piece : Option Leaf) : String := (piece.map (Leaf.assignment name)).getD ""

theorem pieceText_under (name : String) (key : Value) (ps : List (Option Leaf)) :
    (ps.map (Option.map (Leaf.under key))).map (pieceText name) =
      ps.map (pieceText (name ++ "[" ++ spelling key ++ "]")) := by
  rw [List.map_map]
  apply List.map_congr_left
  intro p _
  cases p <;> rfl

theorem joined?_orGap {α : Type} {members : List α} {ps : List (Option Leaf)} (name : String) :
    joined? ((orGap members ps).map (pieceText name)) =
      if members.isEmpty then none else some ((joined? (ps.map (pieceText name))).getD "") := by
  unfold orGap
  split
  · rfl
  split
  case isTrue hps =>
    rw [List.isEmpty_iff.mp hps]
    rfl
  case isFalse hps =>
    cases ps with
    | nil => exact absurd rfl hps
    | cons p ps => rfl

/-- The pieces of a value that has texts, joined. -/
def laid (name : String) (v : Value) : Option String := joined? ((pieces v).map (pieceText name))

mutual
theorem deep_eq (name : String) : ∀ v : Value, Layout.deep name v = Result.guarded v.isSpellable (laid name v)
  | .scalar s => by
    rw [Layout.deep, laid, pieces]
    by_cases hs : isScalar (.scalar s) = true
    · rw [if_pos hs, if_pos hs, encode_eq]
      exact (Result.guarded_pure _).trans
        (congrArg (Result.guarded _) (congrArg some String.intercalate_singleton.symm))
    · rw [if_neg hs, if_neg hs]
      exact (Result.guarded_of_true (Layout.isSpellable_of_not_isScalar hs)).symm
  | .list xs => by
    obtain ⟨ts, hts, hjoined⟩ := deepItems_eq name 0 xs
    rw [Layout.deep, laid, pieces, joined?_orGap, ← hjoined, ← join_eq, hts]
    cases xs with
    | nil => rfl
    | cons x xs => exact Result.guarded_pure _
  | .tuple xs => by
    obtain ⟨ts, hts, hjoined⟩ := deepItems_eq name 0 xs
    rw [Layout.deep, laid, pieces, joined?_orGap, ← hjoined, ← join_eq, hts]
    cases xs with
    | nil => rfl
    | cons x xs => exact Result.guarded_pure _
  | .map es => by
    obtain ⟨ts, hts, hjoined⟩ := deepEntries_eq name es
    rw [Layout.deep, laid, pieces, joined?_orGap, ← hjoined, ← join_eq, hts]
    cases es with
    | nil => rfl
    | cons e es => exact Result.guarded_pure _
  | .source .. => rfl
  | .signal _ => rfl
  | .multipart _ => rfl
theorem deepItems_eq (name : String) (index : Nat) : ∀ xs : List Value, ∃ ts,
    Layout.deepItems name index xs = Result.guarded (Value.areSpellable xs) ts ∧
      joined? ts = joined? ((itemPieces index xs).map (pieceText name))
  | [] => ⟨[], rfl, rfl⟩
  | x :: xs => by
    obtain ⟨ts, hts, hjoined⟩ := deepItems_eq name (index + 1) xs
    refine ⟨(laid (name ++ "[" ++ toString index ++ "]") x).toList ++ ts, ?_, ?_⟩
    · rw [Layout.deepItems, deep_eq _ x, hts]
      exact Result.guarded_pure₂ fun part rest => Option.toList part ++ rest
    · rw [itemPieces, List.map_append, joined?_append, joined?_append, joined?_toList, hjoined, laid, pieceText_under,
        spelling_index]
theorem deepEntries_eq (name : String) : ∀ es : List (Value × Value), ∃ ts,
    Layout.deepEntries name es = Result.guarded (Value.holdSpellable es) ts ∧
      joined? ts = joined? ((entryPieces es).map (pieceText name))
  | [] => ⟨[], rfl, rfl⟩
  | (k, v) :: es => by
    obtain ⟨ts, hts, hjoined⟩ := deepEntries_eq name es
    refine ⟨(laid (name ++ "[" ++ spelling k ++ "]") v).toList ++ ts, ?_, ?_⟩
    · rw [Layout.deepEntries, Value.holdSpellable, stringify]
      cases k.isSpellable with
      | false => rfl
      | true =>
        show (Layout.deep (name ++ "[" ++ spelling k ++ "]") v >>= fun part => _) = _
        rw [deep_eq _ v, hts]
        exact Result.guarded_pure₂ fun part rest => Option.toList part ++ rest
    · rw [entryPieces, List.map_append, joined?_append, joined?_append, joined?_toList, hjoined, laid, pieceText_under]
end

/-! ## Laid out as a whole -/

/-- The assignments of all leaves. -/
def expansion (name : String) (v : Value) : Option String := joined? ((leaves v).map (Leaf.assignment name))

theorem eq_map_some_of_none_not_mem {ps : List (Option Leaf)} (h : none ∉ ps) : ps = ps.reduceOption.map some := by
  induction ps with
  | nil => rfl
  | cons p ps ih =>
    obtain ⟨hp, hps⟩ := not_or.mp (mt List.mem_cons.mpr h)
    cases p with
    | none => exact absurd rfl hp
    | some l => rw [List.reduceOption_cons_of_some, List.map_cons, ← ih hps]

theorem none_not_mem_pieces {v : Value} (h : isSolid v = true) : none ∉ pieces v := by
  rw [none_mem_pieces, h]
  exact Bool.noConfusion

theorem laid_of_isSolid {v : Value} (h : isSolid v = true) (name : String) : laid name v = expansion name v := by
  rw [laid, eq_map_some_of_none_not_mem (none_not_mem_pieces h), reduceOption_pieces, List.map_map]
  rfl

/-! ## Marks in the text -/

theorem count_joined {ts : List String} {text : String} (h : joined? ts = some text) :
    text.toList.count '&' + 1 = (ts.map fun t => t.toList.count '&' + 1).sum := by
  have hne : ts ≠ [] := by
    rintro rfl
    cases h
  rw [joined?, if_neg (by simpa using hne)] at h
  obtain rfl := Option.some.inj h
  have hjoin := Text.count_join '&' (mt List.map_eq_nil_iff.mp hne : ts.map String.toList ≠ [])
  rw [Layout.join, String.toList_intercalate]
  rwa [List.map_map] at hjoin

/-- Each gap makes one more piece, and nothing else. -/
theorem sum_pieces (name : String) (ps : List (Option Leaf)) :
    (ps.map fun p => (pieceText name p).toList.count '&' + 1).sum =
      (ps.reduceOption.map fun l => (l.assignment name).toList.count '&' + 1).sum + ps.countP Option.isNone := by
  induction ps with
  | nil => rfl
  | cons p ps ih =>
    rw [List.map_cons, List.sum_cons, ih]
    cases p with
    | none =>
      rw [List.reduceOption_cons_of_none, List.countP_cons_of_pos rfl]
      show 0 + 1 + _ = _
      omega
    | some l =>
      rw [List.reduceOption_cons_of_some, List.countP_cons_of_neg (by simp), List.map_cons, List.sum_cons]
      show (l.assignment name).toList.count '&' + 1 + _ = _
      omega

/-- The marks in a deep object: those that stand inside assignments, and one in front of each piece but
the first. -/
theorem count_laid {name : String} {v : Value} {text : String} (h : laid name v = some text) :
    text.toList.count '&' + 1 =
      ((leaves v).map fun l => (l.assignment name).toList.count '&' + 1).sum + (pieces v).countP Option.isNone := by
  have hcount := count_joined h
  rw [List.map_map] at hcount
  rw [hcount, ← reduceOption_pieces v, ← sum_pieces]
  rfl

theorem isSolid_iff {v : Value} : isSolid v = true ↔ (pieces v).countP Option.isNone = 0 := by
  rw [List.countP_eq_zero, ← Bool.not_eq_false, ← none_mem_pieces]
  constructor
  · intro h p hp hnone
    exact h (Option.isNone_iff_eq_none.mp hnone ▸ hp)
  · intro h hnone
    exact h none hnone rfl

theorem isSolid_of_laid {name : String} {v : Value} (h : laid name v = expansion name v) : isSolid v = true := by
  by_contra hsolid
  have hnone : none ∈ pieces v := none_mem_pieces v |>.mpr (Bool.eq_false_iff.mpr hsolid)
  obtain ⟨text, htext⟩ : ∃ text, laid name v = some text := by
    rw [laid, joined?, if_neg]
    · exact ⟨_, rfl⟩
    · intro hempty
      rw [List.map_eq_nil_iff.mp (List.isEmpty_iff.mp hempty)] at hnone
      exact List.not_mem_nil hnone
  have hlaid := count_laid htext
  have hleaves := count_joined (h.symm.trans htext)
  rw [List.map_map] at hleaves
  have hgaps : (pieces v).countP Option.isNone = 0 := by
    have hsame : ((leaves v).map ((fun t : String => t.toList.count '&' + 1) ∘ Leaf.assignment name)).sum =
        ((leaves v).map fun l => (l.assignment name).toList.count '&' + 1).sum := rfl
    omega
  exact hsolid (isSolid_iff.mpr hgaps)

/-! ## Keys without marks -/

namespace Leaf

theorem toList_target (name : String) (l : Leaf) :
    (l.target name).toList = name.toList ++ l.path.flatMap fun key => '[' :: ((spelling key).toList ++ [']']) := by
  obtain ⟨path, scalar⟩ := l
  unfold target
  induction path generalizing name with
  | nil => exact (List.append_nil _).symm
  | cons key path ih =>
    rw [List.foldl_cons, ih, List.flatMap_cons]
    simp

/-- Whether a character is in none of the keys that lead to a leaf. -/
def Avoids (c : Char) (l : Leaf) : Prop := ∀ key ∈ l.path, c ∉ (spelling key).toList

instance (c : Char) (l : Leaf) : Decidable (l.Avoids c) := List.decidableBAll _ _

/-- How often a character is in the keys that lead to a leaf. -/
def countKeys (c : Char) (l : Leaf) : Nat := (l.path.map fun key => (spelling key).toList.count c).sum

theorem countKeys_eq_zero_iff {c : Char} {l : Leaf} : l.countKeys c = 0 ↔ l.Avoids c := by
  rw [countKeys, List.sum_eq_zero_iff_forall_eq_nat, List.forall_mem_map]
  exact forall₂_congr fun key _ => List.count_eq_zero

theorem count_target {c : Char} (hopen : '[' ≠ c) (hclose : ']' ≠ c) (name : String) (l : Leaf) :
    (l.target name).toList.count c = name.toList.count c + l.countKeys c := by
  have hkey : ∀ key : Value, ('[' :: ((spelling key).toList ++ [']'])).count c = (spelling key).toList.count c := by
    intro key
    rw [List.count_cons_of_ne hopen, List.count_append, List.count_cons_of_ne hclose]
    rfl
  rw [toList_target, List.count_append, List.count_flatMap, countKeys]
  congr 2
  exact List.map_congr_left fun key _ => hkey key

/-- A mark that encoding escapes is in an assignment where the name or a key brings it in, or as its sign. -/
theorem count_assignment {c : Char} (hopen : '[' ≠ c) (hclose : ']' ≠ c) (hc : Percent.isUnreserved c = false)
    (hpercent : c ≠ '%') (name : String) (l : Leaf) :
    (l.assignment name).toList.count c = name.toList.count c + l.countKeys c + ['='].count c := by
  have hencoding : (encoding (.scalar l.scalar)).toList.count c = 0 :=
    List.count_eq_zero.mpr (Style.not_mem_encoding hc hpercent _)
  rw [assignment, String.toList_append, String.toList_append, List.count_append, List.count_append, hencoding,
    count_target hopen hclose]
  rfl

theorem count_and_assignment (name : String) (l : Leaf) :
    (l.assignment name).toList.count '&' = name.toList.count '&' + l.countKeys '&' :=
  count_assignment (by decide) (by decide) (by decide) (by decide) name l

theorem count_sign_assignment (name : String) (l : Leaf) :
    (l.assignment name).toList.count '=' = name.toList.count '=' + l.countKeys '=' + 1 :=
  count_assignment (by decide) (by decide) (by decide) (by decide) name l

theorem not_mem_assignment {name : String} {l : Leaf} (hname : '&' ∉ name.toList) (hl : l.Avoids '&') :
    '&' ∉ (l.assignment name).toList := by
  rw [← List.count_eq_zero, count_and_assignment, List.count_eq_zero.mpr hname, countKeys_eq_zero_iff.mpr hl]

end Leaf

/-- The texts of an expansion fall apart again at the marks between them. -/
theorem splitOn_expansion {name : String} {v : Value} {text : String} (htext : expansion name v = some text)
    (h : ∀ l ∈ leaves v, '&' ∉ (l.assignment name).toList) :
    Text.splitOn '&' text.toList = (leaves v).map fun l => (l.assignment name).toList := by
  have hne : leaves v ≠ [] := by
    intro hnil
    rw [expansion, hnil] at htext
    cases htext
  rw [expansion, joined?, if_neg (by simpa using hne)] at htext
  obtain rfl := Option.some.inj htext
  have hsplit : Text.splitOn '&' (Text.join ['&'] ((leaves v).map fun l => (l.assignment name).toList)) =
      (leaves v).map fun l => (l.assignment name).toList := by
    apply Text.splitOn_join (mt List.map_eq_nil_iff.mp hne)
    intro piece hpiece
    obtain ⟨l, hl, rfl⟩ := List.mem_map.mp hpiece
    exact h l hl
  rw [Layout.join, String.toList_intercalate, List.map_map]
  exact hsplit

/-- A value is laid out as the assignments of its leaves exactly if each of its containers that has members
has a leaf. Otherwise there is an empty piece for each container whose members are all left out. What holds an
integer without a text is refused. -/
theorem deep_expansion (name : String) (v : Value) :
    Layout.deep name v = Result.guarded v.isSpellable (joined? ((pieces v).map (pieceText name))) ∧
    (pieces v).reduceOption = leaves v ∧
    (v.isSpellable = true → (Layout.deep name v = .ok (expansion name v) ↔ isSolid v = true)) ∧
    (isSolid v = true → '&' ∉ name.toList → (∀ l ∈ leaves v, l.Avoids '&') →
      ∀ text, Layout.deep name v = .ok (some text) → Text.MarksApart '&' text.toList) := by
  refine ⟨deep_eq name v, reduceOption_pieces v, fun hspellable => ?_, ?_⟩
  · rw [deep_eq, Result.guarded_of_true hspellable, Except.ok.injEq]
    exact ⟨isSolid_of_laid, fun h => laid_of_isSolid h name⟩
  intro hsolid hname hkeys text htext
  rw [deep_eq, Result.guarded_eq_ok_iff, laid_of_isSolid hsolid] at htext
  apply Text.marksApart_of_nil_not_mem
  rw [splitOn_expansion htext.2 fun l hl => Leaf.not_mem_assignment hname (hkeys l hl)]
  intro hnil
  obtain ⟨l, _, hl⟩ := List.mem_map.mp hnil
  have hsign : '=' ∈ (l.assignment name).toList := by simp [Leaf.assignment]
  rw [hl] at hsign
  exact List.not_mem_nil hsign

def dimensions : Value :=
  .map [(.str "size", .list [.int 1, .map [(.str "unit", .null), (.str "label", .str "x&y")]]), (.str "tags", .list [])]

theorem isSolid_dimensions : isSolid dimensions = true := by decide

theorem deep_dimensions : Layout.deep "f" dimensions = .ok (some "f[size][0]=1&f[size][1][label]=x%26y") := by rfl

theorem deep_expansion_dimensions : isSolid dimensions = true ∧
    Layout.deep "f" dimensions = .ok (some "f[size][0]=1&f[size][1][label]=x%26y") ∧
    Layout.deep "f" dimensions = .ok (expansion "f" dimensions) ∧
    Text.MarksApart '&' "f[size][0]=1&f[size][1][label]=x%26y".toList := by
  have hkeys : ∀ l ∈ leaves dimensions, l.Avoids '&' := by decide +kernel
  obtain ⟨-, -, hiff, happart⟩ := deep_expansion "f" dimensions
  exact ⟨isSolid_dimensions, deep_dimensions, (hiff rfl).mpr isSolid_dimensions,
    happart isSolid_dimensions (by decide) hkeys _ deep_dimensions⟩

/-- A container without leaves, alone and in front of a leaf. -/
theorem exists_deep_ne_expansion :
    (Layout.deep "f" (.map [(.str "tags", .list [])]) = .ok (some "") ∧
      expansion "f" (.map [(.str "tags", .list [])]) = none) ∧
    Layout.deep "f" (.map [(.str "tags", .map [(.str "any", .list [])]), (.str "size", .int 1)]) =
      .ok (some "&f[size]=1") ∧
    expansion "f" (.map [(.str "tags", .map [(.str "any", .list [])]), (.str "size", .int 1)]) = some "f[size]=1" :=
  ⟨⟨rfl, by decide +kernel⟩, rfl, by decide +kernel⟩

end Wire
end ClientBindings
