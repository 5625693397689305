import ClientBindings.Document.Location
import ClientBindings.Proofs.Text

/-! File paths as their names: tidying keeps them, joining appends them, and a tidy path ends with the
last of them. -/

namespace ClientBindings.Location

open Text

variable {cs base path name : List Char} {front : List (List Char)}

/-! ## Segments -/

def isSegment (s : List Char) : Bool := !(s.isEmpty || s == ['.'])

def segments (cs : List Char) : List (List Char) := (splitOn '/' cs).filter isSegment

def IsAbsolute (cs : List Char) : Prop := cs.head? = some '/'

theorem not_isAbsolute_nil : ¬ IsAbsolute [] := by
  intro h
  cases h

theorem segments_append_cons (cs rest : List Char) : segments (cs ++ '/' :: rest) = segments cs ++ segments rest := by
  rw [segments, splitOn_append_cons, List.filter_append, ← segments, ← segments]

theorem segments_cons_slash (cs : List Char) : segments ('/' :: cs) = segments cs := segments_append_cons [] cs

theorem segments_of_isSegment (hslash : '/' ∉ name) (h : isSegment name = true) : segments name = [name] := by
  rw [segments, splitOn_of_not_mem hslash, List.filter_cons_of_pos h, List.filter_nil]

theorem of_mem_segments (h : name ∈ segments cs) : '/' ∉ name ∧ isSegment name = true :=
  ⟨not_mem_of_mem_splitOn (List.mem_filter.mp h).1, (List.mem_filter.mp h).2⟩

theorem segments_join (h : ∀ name ∈ front, '/' ∉ name ∧ isSegment name = true) :
    segments (join ['/'] front) = front := by
  by_cases hne : front = []
  · subst hne
    rfl
  · rw [segments, splitOn_join hne fun name hname => (h name hname).1]
    exact List.filter_eq_self.mpr fun name hname => (h name hname).2

theorem leadingSlashes_cases (cs : List Char) : leadingSlashes cs = [] ∧ ¬ IsAbsolute cs ∨
    (leadingSlashes cs = ['/'] ∨ leadingSlashes cs = ['/', '/']) ∧ IsAbsolute cs := by
  unfold IsAbsolute leadingSlashes
  split
  · simp
  · simp
  · simp
  · rename_i hne
    left
    refine ⟨rfl, ?_⟩
    cases cs with
    | nil => simp
    | cons c cs =>
      intro h
      obtain rfl := Option.some.inj h
      exact hne cs rfl

theorem segments_leadingSlashes_append (cs rest : List Char) :
    segments (leadingSlashes cs ++ rest) = segments rest := by
  rcases leadingSlashes_cases cs with ⟨h, -⟩ | ⟨h | h, -⟩
  · rw [h, List.nil_append]
  · rw [h, List.singleton_append, segments_cons_slash]
  · rw [h, List.cons_append, List.singleton_append, segments_cons_slash, segments_cons_slash]

/-! ## Tidy paths -/

theorem tidyPath_eq (cs : List Char) : tidyPath cs =
    if (leadingSlashes cs ++ join ['/'] (segments cs)).isEmpty then ['.']
    else leadingSlashes cs ++ join ['/'] (segments cs) := rfl

theorem segments_tidyPath (cs : List Char) : segments (tidyPath cs) = segments cs := by
  have hspelled : segments (leadingSlashes cs ++ join ['/'] (segments cs)) = segments cs := by
    rw [segments_leadingSlashes_append, segments_join fun _ => of_mem_segments]
  rw [tidyPath_eq]
  split
  · rename_i hempty
    rw [List.isEmpty_iff] at hempty
    rw [← hspelled, hempty]
    rfl
  · exact hspelled

theorem join_ne_nil (hne : front ≠ []) (h : ∀ name ∈ front, '/' ∉ name ∧ isSegment name = true) :
    join ['/'] front ≠ [] := by
  intro hjoin
  have hfront := segments_join h
  rw [hjoin] at hfront
  exact hne hfront.symm

/-- A path with names is spelled with its slashes and them. -/
theorem tidyPath_of_ne_nil (h : segments cs ≠ []) : tidyPath cs = leadingSlashes cs ++ join ['/'] (segments cs) := by
  have hjoin := join_ne_nil h fun _ => of_mem_segments
  have hne : ¬ (leadingSlashes cs ++ join ['/'] (segments cs)).isEmpty = true := fun hempty =>
    hjoin (List.append_eq_nil_iff.mp (List.isEmpty_iff.mp hempty)).2
  rw [tidyPath_eq, if_neg hne]

theorem not_isAbsolute_join (h : ∀ name ∈ front, '/' ∉ name ∧ isSegment name = true) :
    ¬ IsAbsolute (join ['/'] front) := by
  cases front with
  | nil => exact not_isAbsolute_nil
  | cons first front =>
    obtain ⟨hslash, hsegment⟩ := h first List.mem_cons_self
    have hjoin : ∃ rest, join ['/'] (first :: front) = first ++ rest := by
      cases front with
      | nil => exact ⟨[], by rw [join, List.intercalate_singleton, List.append_nil]⟩
      | cons next front => exact ⟨_, (join_cons_cons _ _ _ _).trans (List.append_assoc _ _ _)⟩
    obtain ⟨rest, hjoin⟩ := hjoin
    cases first with
    | nil => cases hsegment
    | cons c first =>
      rw [IsAbsolute, hjoin]
      intro hhead
      exact hslash (Option.some.inj hhead ▸ List.mem_cons_self)

theorem isAbsolute_leadingSlashes_append (h : ∀ name ∈ front, '/' ∉ name ∧ isSegment name = true) :
    IsAbsolute (leadingSlashes cs ++ join ['/'] front) ↔ IsAbsolute cs := by
  rcases leadingSlashes_cases cs with ⟨hslashes, habsolute⟩ | ⟨hslashes | hslashes, habsolute⟩
  · rw [iff_false_right habsolute, hslashes, List.nil_append]
    exact not_isAbsolute_join h
  · rw [iff_true_right habsolute, hslashes]
    rfl
  · rw [iff_true_right habsolute, hslashes]
    rfl

theorem isAbsolute_tidyPath : IsAbsolute (tidyPath cs) ↔ IsAbsolute cs := by
  have hspelled : IsAbsolute (leadingSlashes cs ++ join ['/'] (segments cs)) ↔ IsAbsolute cs :=
    isAbsolute_leadingSlashes_append fun _ => of_mem_segments
  rw [tidyPath_eq]
  split
  · rename_i hempty
    rw [List.isEmpty_iff] at hempty
    rw [← hspelled, hempty]
    exact ⟨nofun, nofun⟩
  · exact hspelled

/-- The directory part of a path. -/
def folder (cs : List Char) : List Char :=
  match (cutLast '/' cs).1 with
  | some [] => ['/']
  | some cs => cs
  | none => []

theorem folder_of_cutLast (h : (cutLast '/' cs).1 = some path) (hne : path ≠ []) : folder cs = path := by
  rw [folder, h]
  cases path with
  | nil => exact absurd rfl hne
  | cons c path => rfl

/-- The last name of a tidy path stands behind its last slash, the others in the directory part. -/
theorem cutLast_tidyPath (h : segments cs = front ++ [name]) : (cutLast '/' (tidyPath cs)).2 = name ∧
    segments (folder (tidyPath cs)) = front ∧ (IsAbsolute (folder (tidyPath cs)) ↔ IsAbsolute cs) := by
  have hsegments : ∀ s ∈ front ++ [name], '/' ∉ s ∧ isSegment s = true := fun s hs => of_mem_segments (h ▸ hs)
  have hslash := (hsegments name (List.mem_append_right front List.mem_cons_self)).1
  have hfronts : ∀ s ∈ front, '/' ∉ s ∧ isSegment s = true := fun s hs => hsegments s (List.mem_append_left _ hs)
  rw [tidyPath_of_ne_nil (by simp [h]), h]
  by_cases hfront : front = []
  · subst hfront
    rw [List.nil_append, join, List.intercalate_singleton]
    rcases leadingSlashes_cases cs with ⟨hslashes, habsolute⟩ | ⟨hslashes | hslashes, habsolute⟩
    · rw [hslashes, List.nil_append, folder, cutLast_of_not_mem hslash, iff_false_right habsolute]
      exact ⟨rfl, rfl, not_isAbsolute_nil⟩
    · rw [hslashes, iff_true_right habsolute, show ['/'] ++ name = [] ++ '/' :: name from rfl, folder,
        cutLast_append hslash]
      exact ⟨rfl, rfl, rfl⟩
    · rw [hslashes, iff_true_right habsolute, show ['/', '/'] ++ name = ['/'] ++ '/' :: name from rfl, folder,
        cutLast_append hslash]
      exact ⟨rfl, rfl, rfl⟩
  · have hspelled : leadingSlashes cs ++ join ['/'] (front ++ [name]) =
        (leadingSlashes cs ++ join ['/'] front) ++ '/' :: name := by
      rw [join_concat hfront]
      simp
    have hne : leadingSlashes cs ++ join ['/'] front ≠ [] := mt List.append_eq_nil_iff.mp fun hnil =>
      join_ne_nil hfront hfronts hnil.2
    have hcut : cutLast '/' ((leadingSlashes cs ++ join ['/'] front) ++ '/' :: name) = _ := cutLast_append hslash
    rw [hspelled, folder_of_cutLast (congrArg Prod.fst hcut) hne, hcut]
    refine ⟨rfl, ?_, isAbsolute_leadingSlashes_append hfronts⟩
    rw [segments_leadingSlashes_append, segments_join hfronts]

/-! ## Joined paths -/

theorem segments_appendPath (h : ¬ IsAbsolute path) :
    segments (appendPath base path) = segments base ++ segments path := by
  rw [appendPath, if_neg (mt beq_iff_eq.mp h)]
  by_cases hbase : base = []
  · subst hbase
    rfl
  by_cases hslash : base.getLast? = some '/'
  · obtain ⟨front, rfl⟩ := List.getLast?_eq_some_iff.mp hslash
    have hfront : segments (front ++ ['/']) = segments front :=
      (segments_append_cons front []).trans (List.append_nil _)
    rw [if_pos (by simp), List.append_assoc, List.singleton_append, segments_append_cons, hfront]
  · rw [if_neg (by simp [hbase, hslash]), segments_append_cons]

theorem isAbsolute_appendPath (h : ¬ IsAbsolute path) : IsAbsolute (appendPath base path) ↔ IsAbsolute base := by
  rw [appendPath, if_neg (mt beq_iff_eq.mp h)]
  cases base with
  | nil => exact iff_of_false h not_isAbsolute_nil
  | cons c base =>
    split
    · exact Iff.rfl
    · exact Iff.rfl

end ClientBindings.Location
