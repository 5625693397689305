import ClientBindings.Text.Chars
import Mathlib.Algebra.GroupWithZero.Nat
import Mathlib.Data.List.TakeWhile

/-! Texts cut into pieces at a mark, and joined again; letters and digits are ASCII. -/

namespace ClientBindings.Text

variable {mark : Char} {cs rest before last : List Char}

theorem bounds_of_isAlphanum {c : Char} (h : c.isAlphanum = true) : 48 ≤ c.toNat ∧ c.toNat ≤ 122 := by
  unfold Char.isAlphanum Char.isAlpha Char.isUpper Char.isLower at h
  simp only [Char.isDigit, Bool.or_eq_true, Bool.and_eq_true, decide_eq_true_eq, ge_iff_le,
    UInt32.le_iff_toNat_le] at h
  rcases h with (⟨hlow, hhigh⟩ | ⟨hlow, hhigh⟩) | ⟨hlow, hhigh⟩
  · exact ⟨Nat.le_trans (by decide) hlow, Nat.le_trans hhigh (by decide)⟩
  · exact ⟨Nat.le_trans (by decide) hlow, Nat.le_trans hhigh (by decide)⟩
  · exact ⟨Nat.le_trans (by decide) hlow, Nat.le_trans hhigh (by decide)⟩

theorem toNat_lt_of_isAlphanum {c : Char} (h : c.isAlphanum = true) : c.toNat < 128 :=
  Nat.lt_of_le_of_lt (bounds_of_isAlphanum h).2 (by decide)

theorem map_eq_self {α : Type} {f : α → α} {xs : List α} (h : ∀ x ∈ xs, f x = x) : xs.map f = xs :=
  (List.map_congr_left h).trans (List.map_id' xs)

theorem splitOn_of_not_mem (h : mark ∉ cs) : splitOn mark cs = [cs] := by
  induction cs with
  | nil => rfl
  | cons c cs ih =>
    have hc : c ≠ mark := fun heq => h (heq ▸ List.mem_cons_self)
    rw [splitOn, if_neg hc, ih fun hmem => h (List.mem_cons_of_mem c hmem)]

/-- Pieces on either side of a mark. -/
theorem splitOn_append_cons (cs rest : List Char) :
    splitOn mark (cs ++ mark :: rest) = splitOn mark cs ++ splitOn mark rest := by
  induction cs with
  | nil => simp [splitOn]
  | cons c cs ih =>
    rw [List.cons_append, splitOn, splitOn]
    by_cases hc : c = mark
    · rw [if_pos hc, if_pos hc, ih]
      rfl
    · rw [if_neg hc, if_neg hc, ih]
      cases hpieces : splitOn mark cs with
      | nil => exact absurd hpieces (splitOn_ne_nil mark cs)
      | cons piece pieces => rfl

theorem splitOn_append (h : mark ∉ cs) (rest : List Char) :
    splitOn mark (cs ++ mark :: rest) = cs :: splitOn mark rest := by
  rw [splitOn_append_cons, splitOn_of_not_mem h]
  rfl

/-- What is in front of the first mark belongs to the first piece. -/
theorem splitOn_append_of_not_mem (h : mark ∉ before) (cs : List Char) :
    splitOn mark (before ++ cs) = (splitOn mark cs).modifyHead (before ++ ·) := by
  induction before with
  | nil =>
    rw [List.nil_append]
    cases splitOn mark cs with
    | nil => rfl
    | cons piece pieces => rfl
  | cons c before ih =>
    have hc : c ≠ mark := fun heq => h (heq ▸ List.mem_cons_self)
    rw [List.cons_append, splitOn, if_neg hc, ih fun hmem => h (List.mem_cons_of_mem c hmem)]
    cases hpieces : splitOn mark cs with
    | nil => exact absurd hpieces (splitOn_ne_nil mark cs)
    | cons piece pieces => rfl

theorem not_mem_of_mem_splitOn {piece : List Char} (h : piece ∈ splitOn mark cs) : mark ∉ piece := by
  induction cs generalizing piece with
  | nil =>
    obtain rfl : piece = [] := by simpa [splitOn] using h
    exact List.not_mem_nil
  | cons c cs ih =>
    rw [splitOn] at h
    by_cases hc : c = mark
    · rw [if_pos hc] at h
      rcases List.mem_cons.mp h with rfl | h
      · exact List.not_mem_nil
      · exact ih h
    · rw [if_neg hc] at h
      cases hpieces : splitOn mark cs with
      | nil => exact absurd hpieces (splitOn_ne_nil mark cs)
      | cons first pieces =>
        rw [hpieces] at h ih
        rcases List.mem_cons.mp h with rfl | h
        · exact mt List.mem_cons.mp (not_or.mpr ⟨Ne.symm hc, ih List.mem_cons_self⟩)
        · exact ih (List.mem_cons_of_mem first h)

theorem join_cons_cons (separator piece next : List Char) (pieces : List (List Char)) :
    join separator (piece :: next :: pieces) = piece ++ separator ++ join separator (next :: pieces) :=
  List.intercalate_cons_cons

theorem infix_join {separator piece : List Char} {pieces : List (List Char)} (h : piece ∈ pieces) :
    piece <:+: join separator pieces := by
  induction pieces with
  | nil => exact absurd h List.not_mem_nil
  | cons first pieces ih =>
    cases pieces with
    | nil =>
      exact ⟨[], [], by
        rw [List.mem_singleton.mp h, join, List.intercalate_singleton, List.nil_append, List.append_nil]⟩
    | cons next pieces =>
      rw [join_cons_cons]
      rcases List.mem_cons.mp h with rfl | h
      · rw [List.append_assoc]
        exact (List.prefix_append _ _).isInfix
      · exact (ih h).trans (List.suffix_append _ _).isInfix

theorem splitOn_join {pieces : List (List Char)} (hne : pieces ≠ []) (h : ∀ piece ∈ pieces, mark ∉ piece) :
    splitOn mark (join [mark] pieces) = pieces := by
  induction pieces with
  | nil => exact absurd rfl hne
  | cons piece pieces ih =>
    have hpiece := h piece List.mem_cons_self
    cases pieces with
    | nil =>
      rw [join, List.intercalate_singleton]
      exact splitOn_of_not_mem hpiece
    | cons next pieces =>
      have hrest := ih (List.cons_ne_nil _ _) fun p hp => h p (List.mem_cons_of_mem _ hp)
      rw [join_cons_cons, List.append_assoc, List.singleton_append, splitOn_append hpiece, hrest]

theorem join_concat {separator piece : List Char} {pieces : List (List Char)} (h : pieces ≠ []) :
    join separator (pieces ++ [piece]) = join separator pieces ++ separator ++ piece := by
  induction pieces with
  | nil => exact absurd rfl h
  | cons first pieces ih =>
    cases pieces with
    | nil =>
      rw [List.singleton_append, join_cons_cons, join, join, List.intercalate_singleton, List.intercalate_singleton]
    | cons next pieces =>
      have hrest := ih (List.cons_ne_nil _ _)
      rw [List.cons_append] at hrest
      rw [List.cons_append, List.cons_append, join_cons_cons, hrest, join_cons_cons]
      simp only [List.append_assoc]

theorem join_splitOn (mark : Char) (cs : List Char) : join [mark] (splitOn mark cs) = cs := by
  induction cs with
  | nil => rfl
  | cons c cs ih =>
    rw [splitOn]
    split
    case isTrue hc =>
      obtain ⟨piece, pieces, hpieces⟩ := List.exists_cons_of_ne_nil (splitOn_ne_nil mark cs)
      rw [hpieces] at ih ⊢
      rw [join_cons_cons, ih, hc]
      rfl
    case isFalse hc =>
      split
      case h_1 hpieces => exact absurd hpieces (splitOn_ne_nil mark cs)
      case h_2 piece pieces hpieces =>
        rw [hpieces] at ih
        rw [← ih]
        cases pieces with
        | nil => rw [join, join, List.intercalate_singleton, List.intercalate_singleton]
        | cons next pieces => rw [join_cons_cons, join_cons_cons, List.cons_append, List.cons_append]

theorem mem_join_iff {mark c : Char} {pieces : List (List Char)} :
    c ∈ join [mark] pieces ↔ c = mark ∧ 1 < pieces.length ∨ ∃ piece ∈ pieces, c ∈ piece := by
  induction pieces with
  | nil => simp [join]
  | cons piece pieces ih =>
    cases pieces with
    | nil => simp [join]
    | cons next pieces =>
      rw [join_cons_cons, List.mem_append, List.mem_append, ih]
      simp
      grind

theorem mem_of_mem_splitOn {c : Char} {piece : List Char} (h : piece ∈ splitOn mark cs) (hc : c ∈ piece) :
    c ∈ cs := by
  rw [← join_splitOn mark cs, mem_join_iff]
  exact .inr ⟨piece, h, hc⟩

theorem forall_mem_splitOn_eq_nil_iff : (∀ piece ∈ splitOn mark cs, piece = []) ↔ ∀ c ∈ cs, c = mark := by
  constructor
  · intro hall c hc
    rw [← join_splitOn mark cs, mem_join_iff] at hc
    rcases hc with ⟨hmark, -⟩ | ⟨piece, hpiece, hc⟩
    · exact hmark
    · rw [hall piece hpiece] at hc
      cases hc
  · intro hall piece hpiece
    refine List.eq_nil_iff_forall_not_mem.mpr fun c hc => not_mem_of_mem_splitOn hpiece ?_
    rwa [← hall c (mem_of_mem_splitOn hpiece hc)]

theorem length_splitOn (mark : Char) (cs : List Char) : (splitOn mark cs).length = cs.count mark + 1 := by
  induction cs with
  | nil => rfl
  | cons c cs ih =>
    rw [splitOn]
    split
    case isTrue hc => rw [List.length_cons, ih, hc, List.count_cons_self]
    case isFalse hc =>
      rw [List.count_cons_of_ne hc, ← ih]
      split
      case h_1 hpieces => exact absurd hpieces (splitOn_ne_nil mark cs)
      case h_2 hpieces =>
        rw [hpieces]
        rfl

theorem count_join (mark : Char) {pieces : List (List Char)} (hne : pieces ≠ []) :
    (join [mark] pieces).count mark + 1 = (pieces.map fun piece => piece.count mark + 1).sum := by
  induction pieces with
  | nil => exact absurd rfl hne
  | cons piece pieces ih =>
    cases pieces with
    | nil =>
      rw [join, List.intercalate_singleton]
      rfl
    | cons next pieces =>
      have hrest := ih (List.cons_ne_nil _ _)
      rw [join_cons_cons, List.count_append, List.count_append, List.count_singleton_self, List.map_cons, List.sum_cons]
      omega

/-- A text that is not empty and whose marks stand between other characters. -/
structure MarksApart (mark : Char) (cs : List Char) : Prop where
  ne_nil : cs ≠ []
  head : cs.head? ≠ some mark
  last : cs.getLast? ≠ some mark
  doubled : ¬ [mark, mark] <:+: cs

theorem marksApart_of_nil_not_mem (h : [] ∉ splitOn mark cs) : MarksApart mark cs where
  ne_nil := by
    rintro rfl
    exact h (List.mem_singleton_self [])
  head := by
    intro hhead
    obtain ⟨rest, rfl⟩ := List.head?_eq_some_iff.mp hhead
    apply h
    rw [← List.nil_append (mark :: rest), splitOn_append_cons]
    exact List.mem_append_left _ (List.mem_singleton_self [])
  last := by
    intro hlast
    obtain ⟨before, rfl⟩ := List.getLast?_eq_some_iff.mp hlast
    apply h
    rw [splitOn_append_cons]
    exact List.mem_append_right _ (List.mem_singleton_self [])
  doubled := by
    rintro ⟨before, after, rfl⟩
    apply h
    rw [List.append_assoc, List.cons_append, splitOn_append_cons, List.singleton_append,
      ← List.nil_append (mark :: after), splitOn_append_cons]
    exact List.mem_append_right _ (List.mem_append_left _ (List.mem_singleton_self []))

theorem takeWhile_reverse_append (h : mark ∉ last) (rest : List Char) :
    (last.reverse ++ rest).takeWhile (· != mark) = last.reverse ++ rest.takeWhile (· != mark) := by
  apply List.takeWhile_append_of_pos
  intro c hc
  exact bne_iff_ne.mpr fun heq => h (heq ▸ List.mem_reverse.mp hc)

theorem cutLast_of_not_mem (h : mark ∉ last) : cutLast mark last = (none, last) := by
  have htail := takeWhile_reverse_append h []
  rw [List.append_nil, List.takeWhile_nil, List.append_nil] at htail
  simp only [cutLast, htail, List.reverse_reverse, if_pos]

theorem cutLast_append (h : mark ∉ last) : cutLast mark (before ++ mark :: last) = (some before, last) := by
  have htail : (before ++ mark :: last).reverse.takeWhile (· != mark) = last.reverse := by
    rw [List.reverse_append, List.reverse_cons, List.append_assoc, takeWhile_reverse_append h]
    simp
  have hlength : (before ++ mark :: last).length - last.length - 1 = before.length := by
    rw [List.length_append, List.length_cons]
    omega
  simp only [cutLast, htail, List.reverse_reverse, hlength, List.take_left]
  rw [if_neg]
  rw [List.length_append, List.length_cons]
  omega

theorem cut_append (h : mark ∉ cs) (rest : List Char) : cut mark (cs ++ mark :: rest) = (cs, rest) := by
  have hpass : ∀ c ∈ cs, (c != mark) = true := fun c hc => bne_iff_ne.mpr (ne_of_mem_of_not_mem hc h)
  rw [cut, List.takeWhile_append_of_pos hpass, List.dropWhile_append_of_pos hpass]
  simp

theorem cut_of_not_mem (h : mark ∉ cs) : cut mark cs = (cs, []) := by
  have hpass : ∀ c ∈ cs, (c != mark) = true := fun c hc => bne_iff_ne.mpr (ne_of_mem_of_not_mem hc h)
  rw [cut, List.takeWhile_eq_self_iff.mpr hpass, List.dropWhile_eq_nil_iff.mpr hpass, List.drop_nil]

/-! ## What is replaced -/

section
variable {pattern new : List Char}

theorem replaceFirst_append (h : mark ∉ cs) (rest : List Char) :
    replaceFirst (mark :: pattern) new (cs ++ rest) = cs ++ replaceFirst (mark :: pattern) new rest := by
  induction cs with
  | nil => rfl
  | cons c cs ih =>
    obtain ⟨hc, hcs⟩ := not_or.mp (mt List.mem_cons.mpr h)
    rw [List.cons_append, replaceFirst, if_neg, ih hcs, List.cons_append]
    rw [List.isPrefixOf_iff_prefix, List.cons_prefix_cons]
    exact fun hprefix => hc hprefix.1

theorem replaceFirst_front (h : pattern ≠ []) (rest : List Char) :
    replaceFirst pattern new (pattern ++ rest) = new ++ rest := by
  obtain ⟨c, cs, rfl⟩ := List.exists_cons_of_ne_nil h
  have hprefix : (c :: cs).isPrefixOf (c :: (cs ++ rest)) = true :=
    List.isPrefixOf_iff_prefix.mpr (List.prefix_append (c :: cs) rest)
  rw [List.cons_append, replaceFirst, if_pos hprefix, ← List.cons_append, List.drop_left]

end

/-! ## What is trimmed off -/

section
variable {drop : Char → Bool} {blanks : List Char}

theorem trimEnd_eq_self (h : ∀ c ∈ cs.getLast?, drop c = false) : trimEnd drop cs = cs := by
  have hkept : cs.reverse.dropWhile drop = cs.reverse := by
    rw [List.getLast?_eq_head?_reverse] at h
    cases hreverse : cs.reverse with
    | nil => rfl
    | cons c rest => exact List.dropWhile_cons_of_neg (by simp [h c (by rw [hreverse]; rfl)])
  rw [trimEnd, hkept, List.reverse_reverse]

theorem trimEnd_append (h : ∀ c ∈ blanks, drop c = true) (cs : List Char) :
    trimEnd drop (cs ++ blanks) = trimEnd drop cs := by
  rw [trimEnd, List.reverse_append, List.dropWhile_append_of_pos fun c hc => h c (List.mem_reverse.mp hc), trimEnd]

theorem trimEnd_append_of_ne_nil (h : trimEnd drop cs ≠ []) (before : List Char) :
    trimEnd drop (before ++ cs) = before ++ trimEnd drop cs := by
  rw [trimEnd, List.reverse_append, List.dropWhile_append, if_neg, List.reverse_append, List.reverse_reverse, trimEnd]
  simpa [trimEnd] using h

/-- What is in front of something kept is kept. -/
theorem trimEnd_append_cons {c : Char} (h : drop c = false) (before cs : List Char) :
    trimEnd drop (before ++ c :: cs) = before ++ c :: trimEnd drop cs := by
  have hstop : (c :: before.reverse).dropWhile drop = c :: before.reverse := List.dropWhile_cons_of_neg (by simp [h])
  rw [trimEnd, trimEnd, List.reverse_append, List.reverse_cons, List.append_assoc, List.singleton_append,
    List.dropWhile_append, hstop]
  split
  case isTrue hnone =>
    rw [List.isEmpty_iff.mp hnone]
    simp
  case isFalse => simp

/-- What is trimmed off is to be dropped, and what is left does not end so. -/
theorem exists_trimEnd (drop : Char → Bool) (cs : List Char) : ∃ blanks, cs = trimEnd drop cs ++ blanks ∧
    (∀ c ∈ blanks, drop c = true) ∧ ∀ c ∈ (trimEnd drop cs).getLast?, drop c = false := by
  refine ⟨(cs.reverse.takeWhile drop).reverse, ?_, ?_, ?_⟩
  · rw [trimEnd, ← List.reverse_append, List.takeWhile_append_dropWhile, List.reverse_reverse]
  · intro c hc
    exact List.mem_takeWhile_imp (List.mem_reverse.mp hc)
  · intro c hc
    have hnot := List.head?_dropWhile_not drop cs.reverse
    rw [trimEnd, List.getLast?_reverse] at hc
    rw [Option.mem_def.mp hc] at hnot
    simpa using hnot

theorem mem_of_mem_trimEnd {c : Char} (h : c ∈ trimEnd drop cs) : c ∈ cs := by
  obtain ⟨blanks, hcs, -⟩ := exists_trimEnd drop cs
  rw [hcs]
  exact List.mem_append_left blanks h

end

end ClientBindings.Text
