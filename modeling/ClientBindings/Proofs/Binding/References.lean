import ClientBindings.Proofs.Binding.Operations
import ClientBindings.Proofs.Reference

/-! Components put in the place of what they equal. Parameters, request bodies, responses, path items and
security schemes are read through their references, and all readers take one step. So a reference that
designates such a node itself can stand for it everywhere, while one that designates a further reference
cannot. -/

namespace ClientBindings

/-! ## Lists of computations -/

theorem mapM_eq_of_forall₂ {m : Type → Type} [Monad m] [LawfulMonad m] {α β γ : Type} {f : α → m γ} {g : β → m γ}
    {xs : List α} {ys : List β} (h : List.Forall₂ (fun x y => f x = g y) xs ys) : xs.mapM f = ys.mapM g := by
  induction h with
  | nil => rw [List.mapM_nil, List.mapM_nil]
  | cons hxy _ ih => rw [List.mapM_cons, List.mapM_cons, hxy, ih]

namespace Result

/-- Two computations fail alike, or they yield what is related. -/
def Both {α β : Type} (R : α → β → Prop) : Result α → Result β → Prop
  | .ok a, .ok b => R a b
  | .error e, .error f => e = f
  | _, _ => False

section
variable {σ α β γ δ : Type} {R : α → β → Prop} {S : γ → δ → Prop} {r : Result α} {r' : Result β}

theorem Both.refl {R : α → α → Prop} (hR : ∀ a, R a a) : Both R r r := by
  cases r with
  | error e => rfl
  | ok a => exact hR a

theorem Both.elim {P : Result α → Result β → Prop} (h : Both R r r') (hok : ∀ a b, R a b → P (.ok a) (.ok b))
    (herror : ∀ e, P (.error e) (.error e)) : P r r' := by
  cases r with
  | error e =>
    cases r' with
    | error e' =>
      obtain rfl : e = e' := h
      exact herror e
    | ok b => exact False.elim h
  | ok a =>
    cases r' with
    | error e' => exact False.elim h
    | ok b => exact hok a b h

theorem Both.bind {f : α → Result γ} {g : β → Result δ} (h : Both R r r') (hfg : ∀ a b, R a b → Both S (f a) (g b)) :
    Both S (r >>= f) (r' >>= g) :=
  h.elim (P := fun r r' => Both S (r >>= f) (r' >>= g)) hfg fun _ => rfl

theorem Both.bind_eq {f : α → Result γ} {g : β → Result γ} (h : Both R r r') (hfg : ∀ a b, R a b → f a = g b) :
    r >>= f = r' >>= g :=
  h.elim (P := fun r r' => r >>= f = r' >>= g) hfg fun _ => rfl

/-- What related yields are used for alike is the same computation. -/
theorem Both.lift_bind_eq {f : α → Action σ γ} {g : β → Action σ γ} (h : Both R r r') (hfg : ∀ a b, R a b → f a = g b) :
    (liftM r >>= f : Action σ γ) = liftM r' >>= g :=
  h.elim (P := fun r r' => (liftM r >>= f : Action σ γ) = liftM r' >>= g) hfg fun _ => rfl

theorem mapM_both {f : γ → Result α} {g : γ → Result β} (h : ∀ x, Both R (f x) (g x)) (xs : List γ) :
    Both (List.Forall₂ R) (xs.mapM f) (xs.mapM g) := by
  induction xs with
  | nil => exact .nil
  | cons x xs ih =>
    rw [List.mapM_cons, List.mapM_cons]
    exact (h x).bind fun a b hab => ih.bind fun as bs has => .cons hab has

end

end Result

/-! ## Nodes that stand for others -/

section
variable (document : Data)

/-- A node stands for itself, and a reference stands for what it designates unless that is a reference too. -/
inductive Stands : Data → Data → Prop where
  | refl (x : Data) : Stands x x
  | reference {x y : Data} : x.isNull = false → Reference.Leads document 1 y x → Stands x y

inductive ItemsStand : Data → Data → Prop where
  | refl (x : Data) : ItemsStand x x
  | list {xs ys : List Data} : List.Forall₂ (Stands document) xs ys → ItemsStand (.list xs) (.list ys)

/-- Entries with the same keys of which the ones stand for the others. -/
abbrev FieldsStand : Data.Fields → Data.Fields → Prop :=
  List.Forall₂ fun e f => e.1 = f.1 ∧ Stands document e.2 f.2

inductive EntriesStand : Data → Data → Prop where
  | refl (x : Data) : EntriesStand x x
  | map {es fs : Data.Fields} : FieldsStand document es fs → EntriesStand (.map es) (.map fs)

/-- Operations that differ in what stands for their parameters, their body and their responses. -/
inductive OperationStands : Data → Data → Prop where
  | refl (x : Data) : OperationStands x x
  | map {es fs : Data.Fields} :
      ItemsStand document ((Data.map es).said "parameters") ((Data.map fs).said "parameters") →
      Stands document ((Data.map es).said "requestBody") ((Data.map fs).said "requestBody") →
      EntriesStand document ((Data.map es).said "responses") ((Data.map fs).said "responses") →
      (∀ key, key ∉ ["parameters", "requestBody", "responses"] → (Data.map es).said key = (Data.map fs).said key) →
      OperationStands (.map es) (.map fs)

/-- Path items that differ in what stands for the parameters they share, and in their operations. -/
inductive PathItemStands : Data → Data → Prop where
  | refl (x : Data) : PathItemStands x x
  | map {es fs : Data.Fields} : (Data.map es).isReference = false → (Data.map fs).isReference = false →
      ItemsStand document ((Data.map es).said "parameters") ((Data.map fs).said "parameters") →
      (∀ method ∈ Paths.methods, OperationStands document ((Data.map es).said method) ((Data.map fs).said method)) →
      PathItemStands (.map es) (.map fs)

end

section
variable {document : Data} {x y : Data}

theorem Stands.resolve_eq (h : Stands document x y) : Reference.resolve document x = Reference.resolve document y := by
  cases h with
  | refl => rfl
  | reference _ h =>
    rw [h.resolve_eq_ok_iff.mpr (Nat.le_refl 1), Reference.resolve_of_not_isReference h.isReference_eq_false]

theorem Stands.isNull_eq (h : Stands document x y) : x.isNull = y.isNull := by
  cases h with
  | refl => rfl
  | reference hx h =>
    have hy := h.isReference_of_succ
    cases y with
    | map es => exact hx
    | _ => cases hy

theorem get_orElse_map (es : Data.Fields) (key : String) :
    ((Data.map es).orElse (.map [])).get key = .ok ((Data.map es).said key) := by
  cases es <;> rfl

/-! ## Parameters -/

theorem ItemsStand.resolveAll_eq (h : ItemsStand document x y) :
    Reference.resolveAll document x = Reference.resolveAll document y := by
  cases h with
  | refl => rfl
  | list h =>
    have hmap := mapM_eq_of_forall₂ (h.imp fun _ _ hxy => hxy.resolve_eq)
    cases h with
    | nil => rfl
    | cons _ _ => exact hmap

theorem Parameters.merge_eq {own own' shared shared' : Data} (hown : ItemsStand document own own')
    (hshared : ItemsStand document shared shared') : merge document own shared = merge document own' shared' := by
  unfold merge
  rw [hown.resolveAll_eq, hshared.resolveAll_eq]

/-! ## Responses -/

theorem FieldsStand.find? {es fs : Data.Fields} (h : FieldsStand document es fs) (key : Scalar) :
    (Entries.find? Scalar.same es key = none ∧ Entries.find? Scalar.same fs key = none) ∨
      ∃ v w, Entries.find? Scalar.same es key = some v ∧ Entries.find? Scalar.same fs key = some w ∧
        Stands document v w := by
  induction h with
  | nil => exact Or.inl ⟨rfl, rfl⟩
  | @cons e f es fs hef _ ih =>
    rw [Entries.find?_cons, Entries.find?_cons, ← hef.1]
    by_cases hkey : e.1.same key = true
    · rw [if_pos hkey, if_pos hkey]
      exact Or.inr ⟨e.2, f.2, rfl, rfl, hef.2⟩
    · rw [if_neg hkey, if_neg hkey]
      exact ih

theorem FieldsStand.said {es fs : Data.Fields} (h : FieldsStand document es fs) (key : String) :
    Stands document ((Data.map es).said key) ((Data.map fs).said key) := by
  show Stands document ((Entries.find? Scalar.same es (.str key)).getD .null)
    ((Entries.find? Scalar.same fs (.str key)).getD .null)
  rcases h.find? (.str key) with ⟨hes, hfs⟩ | ⟨v, w, hes, hfs, hvw⟩
  · rw [hes, hfs]
    exact .refl _
  · rw [hes, hfs]
    exact hvw

theorem FieldsStand.item {es fs : Data.Fields} (h : FieldsStand document es fs) (key : Data) :
    Result.Both (Stands document) ((Data.map es).item key) ((Data.map fs).item key) := by
  cases key with
  | scalar k =>
    rcases h.find? k with ⟨hes, hfs⟩ | ⟨v, w, hes, hfs, hvw⟩
    · simp only [Data.item, Data.asKey, pure_bind, hes, hfs]
      rfl
    · simp only [Data.item, Data.asKey, pure_bind, hes, hfs]
      exact hvw
  | _ => rfl

theorem FieldsStand.elements_eq {es fs : Data.Fields} (h : FieldsStand document es fs) :
    (Data.map es).elements = (Data.map fs).elements := by
  have hkeys : es.map (fun e => Data.scalar e.1) = fs.map fun f => Data.scalar f.1 := by
    induction h with
    | nil => rfl
    | cons hef _ ih => rw [List.map_cons, List.map_cons, ih, hef.1]
  exact congrArg Except.ok hkeys

theorem FieldsStand.relevant {es fs : Data.Fields} (h : FieldsStand document es fs) :
    Result.Both (List.Forall₂ (Stands document)) (Response.relevant (.map es)) (Response.relevant (.map fs)) := by
  have hkeys : Response.successKeys (.map es) = Response.successKeys (.map fs) := by
    unfold Response.successKeys
    rw [h.elements_eq]
  unfold Response.relevant
  rw [hkeys]
  cases Response.successKeys (.map fs) with
  | error e => rfl
  | ok keys =>
    cases keys with
    -- Without a successful response the default one counts, if there is one.
    | nil =>
      have hdefault := h.said "default"
      show List.Forall₂ _ (if ((Data.map es).said "default").isNull then [] else _)
        (if ((Data.map fs).said "default").isNull then [] else _)
      rw [hdefault.isNull_eq]
      split
      · exact .nil
      · exact .cons hdefault .nil
    | cons key keys => exact Result.mapM_both h.item (key :: keys)

theorem EntriesStand.orElse (h : EntriesStand document x y) :
    EntriesStand document (x.orElse (.map [])) (y.orElse (.map [])) := by
  cases h with
  | refl => exact .refl _
  | map h =>
    cases h with
    | nil => exact .refl _
    | cons hef h => exact .map (.cons hef h)

theorem Stands.target_eq (h : Stands document x y) : Response.target document x = Response.target document y := by
  unfold Response.target
  rw [h.resolve_eq]

theorem Response.kind_eq (h : EntriesStand document x y) : kind document x = kind document y := by
  cases h with
  | refl => rfl
  | map h =>
    unfold kind
    refine h.relevant.bind_eq ?_
    intro as bs hab
    rw [mapM_eq_of_forall₂ (hab.imp fun _ _ hxy => hxy.target_eq)]

theorem Response.type_eq (h : EntriesStand document x y) : type document x = type document y := by
  cases h with
  | refl => rfl
  | map h =>
    unfold type
    refine h.relevant.lift_bind_eq ?_
    intro as bs hab
    have hone : ∀ a b, Stands document a b → typeOfOne document a = typeOfOne document b := by
      intro a b hab
      unfold typeOfOne
      rw [hab.target_eq]
    rw [mapM_eq_of_forall₂ (hab.imp hone)]

/-! ## Operations -/

/-- Readers of an operation get the same, or what stands for it. -/
structure OperationStands.Gets (document x y : Data) : Prop where
  parameters : Result.Both (ItemsStand document) (x.get "parameters") (y.get "parameters")
  body : Result.Both (Stands document) (x.get "requestBody") (y.get "requestBody")
  responses : Result.Both (EntriesStand document) (x.get "responses") (y.get "responses")
  other : ∀ key, key ∉ ["parameters", "requestBody", "responses"] → x.get key = y.get key

theorem OperationStands.gets (h : OperationStands document x y) : Gets document x y := by
  cases h with
  | refl => exact ⟨.refl .refl, .refl .refl, .refl .refl, fun _ _ => rfl⟩
  | map hparameters hbody hresponses hother =>
    exact ⟨hparameters, hbody, hresponses, fun key hkey => congrArg Except.ok (hother key hkey)⟩

theorem OperationStands.isNull_eq (h : OperationStands document x y) : x.isNull = y.isNull := by
  cases h <;> rfl

theorem PathItemStands.get_parameters (h : PathItemStands document x y) :
    Result.Both (ItemsStand document) ((x.orElse (.map [])).get "parameters") ((y.orElse (.map [])).get "parameters") := by
  cases h with
  | refl => exact .refl .refl
  | map _ _ hparameters _ =>
    rw [get_orElse_map, get_orElse_map]
    exact hparameters

theorem PathItemStands.get_method (h : PathItemStands document x y) {method : String} (hmethod : method ∈ Paths.methods) :
    Result.Both (OperationStands document) (x.get method) (y.get method) := by
  cases h with
  | refl => exact .refl .refl
  | map _ _ _ hoperations => exact hoperations method hmethod

variable {naming : Naming} {item : Option Item} {security : List SecurityBinding} {operation operation' pathItem pathItem' : Data}

theorem Parameters.classify_eq (hop : OperationStands document operation operation')
    (hitem : PathItemStands document pathItem pathItem') (location : String) :
    classify document naming location operation pathItem = classify document naming location operation' pathItem' := by
  have hbody : (do Reference.resolve document (← operation.get "requestBody")) =
      (do Reference.resolve document (← operation'.get "requestBody")) :=
    hop.gets.body.bind_eq fun _ _ h => h.resolve_eq
  unfold classify
  rw [hbody]
  refine hitem.get_parameters.lift_bind_eq fun shared shared' hshared => ?_
  refine hop.gets.parameters.lift_bind_eq fun own own' hown => ?_
  rw [merge_eq hown hshared]

theorem OperationBinding.bind_eq (hop : OperationStands document operation operation')
    (hitem : PathItemStands document pathItem pathItem') (site : Site) :
    bind document naming security site operation pathItem = bind document naming security site operation' pathItem' := by
  have hsecurity : securityOf operation = securityOf operation' := by
    unfold securityOf
    rw [hop.gets.other "security" (by decide)]
  have hresponses : Result.Both (EntriesStand document)
      (do return (← operation.get "responses").orElse (.map []))
      (do return (← operation'.get "responses").orElse (.map [])) :=
    hop.gets.responses.bind fun _ _ h => h.orElse
  unfold bind
  rw [Parameters.classify_eq hop hitem, hsecurity, hop.gets.other "summary" (by decide),
    hop.gets.other "description" (by decide), hop.gets.other "deprecated" (by decide), hop.gets.other "tags" (by decide)]
  -- Both operations have the same parameters, and what else is read of them are their responses.
  refine bind_congr fun ps => bind_congr fun required => bind_congr fun path => bind_congr fun ps => bind_congr fun names => ?_
  refine hresponses.lift_bind_eq fun responses responses' h => ?_
  rw [Response.kind_eq h, Response.type_eq h]

/-! ## Paths -/

namespace Paths

theorem bindMethod_eq (h : PathItemStands document pathItem pathItem') {method : String} (hmethod : method ∈ methods)
    (path : Scalar) :
    bindMethod document naming item security path pathItem method =
      bindMethod document naming item security path pathItem' method := by
  unfold bindMethod
  refine (h.get_method hmethod).lift_bind_eq fun operation operation' hop => ?_
  have hskipped : isSkipped item operation = isSkipped item operation' := by
    unfold isSkipped
    rw [hop.gets.other "tags" (by decide)]
  have hid : claimId operation = claimId operation' := by
    funext location
    unfold claimId
    rw [hop.gets.other "operationId" (by decide)]
  rw [hop.isNull_eq, hskipped, hid]
  simp only [OperationBinding.bind_eq hop h]

/-- One path of which the path item is replaced, or what it holds. -/
def EntryStands (document : Data) (e f : Scalar × Data) : Prop :=
  e.1 = f.1 ∧ (Stands document e.2 f.2 ∨ PathItemStands document e.2 f.2)

theorem bindPath_eq {e f : Scalar × Data} (h : EntryStands document e f) :
    bindPath document naming item security e = bindPath document naming item security f := by
  obtain ⟨path, node⟩ := e
  obtain ⟨path', node'⟩ := f
  obtain ⟨rfl, h | h⟩ := h
  · unfold bindPath
    rw [h.isNull_eq, h.resolve_eq]
  · cases h with
    | refl => rfl
    | map hes hfs hparameters hoperations =>
      have hmethods : methods.mapM (bindMethod document naming item security path _) =
          methods.mapM (bindMethod document naming item security path _) :=
        mapM_eq_of_forall₂ (List.forall₂_same.mpr fun method hmethod =>
          bindMethod_eq (.map hes hfs hparameters hoperations) hmethod path)
      unfold bindPath
      simp only [Reference.resolve_of_not_isReference hes, Reference.resolve_of_not_isReference hfs]
      exact congrArg (fun found => List.reduceOption <$> found) hmethods

end Paths

/-! ## Security schemes -/

namespace SecurityBinding

/-- The schemes that a document lists, some of them as references. -/
def listed (document : Data) : Result Data.Fields := do
  let components := (← document.get "components").orElse (.map [])
  ((← components.get "securitySchemes").orElse (.map [])).entries

theorem ofDocument_eq {other : Data} {es fs : Data.Fields} (hes : listed document = .ok es) (hfs : listed other = .ok fs)
    (h : List.Forall₂ (fun e f => e.1 = f.1 ∧
      Reference.resolve document e.2 = Reference.resolve other f.2) es fs) : ofDocument document = ofDocument other := by
  have hdeclared : ∀ d, declared d = (do
      (← listed d).mapM fun (e : Scalar × Data) => do return (e.1, ← Reference.resolve d e.2)) := by
    intro d
    unfold declared listed
    simp only [bind_assoc]
  have hresolved := mapM_eq_of_forall₂ (m := Result)
    (f := fun (e : Scalar × Data) => do return (e.1, ← Reference.resolve document e.2))
    (g := fun (f : Scalar × Data) => do return (f.1, ← Reference.resolve other f.2))
    (h.imp fun e f hef => by rw [hef.1, hef.2])
  have heq : declared document = declared other := by
    rw [hdeclared, hdeclared, hes, hfs]
    exact hresolved
  unfold ofDocument
  rw [heq]

end SecurityBinding

end

/-- Resolving gives what a node leads to exactly if at most one reference is on the way. So nothing changes
where a reference that designates a component itself is put in the component's place. -/
theorem Reference.resolve_transparent (document : Data) :
    (∀ n node v, Leads document n node v → (resolve document node = .ok v ↔ n ≤ 1)) ∧
    (∀ own own' shared shared', ItemsStand document own own' → ItemsStand document shared shared' →
      Parameters.merge document own shared = Parameters.merge document own' shared') ∧
    (∀ responses responses', EntriesStand document responses responses' →
      Response.kind document responses = Response.kind document responses') ∧
    (∀ naming security site operation operation' pathItem pathItem', OperationStands document operation operation' →
      PathItemStands document pathItem pathItem' →
      OperationBinding.bind document naming security site operation pathItem =
        OperationBinding.bind document naming security site operation' pathItem') ∧
    (∀ naming item security entries entries', List.Forall₂ (Paths.EntryStands document) entries entries' →
      entries.mapM (Paths.bindPath document naming item security) =
        entries'.mapM (Paths.bindPath document naming item security)) ∧
    (∀ other es fs, SecurityBinding.listed document = .ok es → SecurityBinding.listed other = .ok fs →
      List.Forall₂ (fun e f => e.1 = f.1 ∧
        ∃ v n m, n ≤ 1 ∧ m ≤ 1 ∧ Leads document n e.2 v ∧ Leads other m f.2 v) es fs →
      SecurityBinding.ofDocument document = SecurityBinding.ofDocument other) := by
  refine ⟨fun _ _ _ h => h.resolve_eq_ok_iff, fun _ _ _ _ => Parameters.merge_eq, fun _ _ => Response.kind_eq, ?_, ?_, ?_⟩
  · intro naming security site operation operation' pathItem pathItem' hop hitem
    exact OperationBinding.bind_eq hop hitem site
  · intro naming item security entries entries' h
    exact mapM_eq_of_forall₂ (h.imp fun _ _ => Paths.bindPath_eq)
  · intro other es fs hes hfs h
    refine SecurityBinding.ofDocument_eq hes hfs (h.imp ?_)
    rintro e f ⟨hkey, v, n, m, hn, hm, hev, hfv⟩
    exact ⟨hkey, (hev.resolve_eq_ok_iff.mpr hn).trans (hfv.resolve_eq_ok_iff.mpr hm).symm⟩

def refNode (ref : String) : Data := .object [("$ref", .str ref)]

def limitParameter : Data := .object [("name", .str "limit"), ("in", .str "query")]

/-- A parameter under one pointer, and under another one a reference to it. -/
def chained : Data := .object [("a", refNode "#/b"), ("b", limitParameter)]

theorem leads_chained : Reference.Leads chained 1 (refNode "#/b") limitParameter :=
  .follow rfl rfl (.arrived rfl)

theorem resolve_transparent_chained :
    Reference.resolve chained (refNode "#/b") = .ok limitParameter ∧
    Parameters.merge chained (.list [limitParameter]) .null = .ok [limitParameter] ∧
    Parameters.merge chained (.list [refNode "#/b"]) .null = .ok [limitParameter] := by
  obtain ⟨hresolve, hmerge, _⟩ := Reference.resolve_transparent chained
  have hstands : ItemsStand chained (.list [limitParameter]) (.list [refNode "#/b"]) :=
    .list (.cons (.reference rfl leads_chained) .nil)
  have hown : Parameters.merge chained (.list [limitParameter]) .null = .ok [limitParameter] := by rfl
  exact ⟨(hresolve 1 _ _ leads_chained).mpr (Nat.le_refl 1), hown,
    (hmerge _ _ .null .null hstands (.refl _)).symm.trans hown⟩

theorem exists_resolve_ne_target : ∃ document node v, Reference.Leads document 2 node v ∧
    Reference.resolve document node ≠ .ok v ∧
    Parameters.merge document (.list [v]) .null = .ok [v] ∧ Parameters.merge document (.list [node]) .null = .ok [] := by
  have hleads : Reference.Leads chained 2 (refNode "#/a") limitParameter := .follow rfl rfl leads_chained
  refine ⟨chained, refNode "#/a", limitParameter, hleads, ?_, by rfl, by rfl⟩
  rw [Ne, hleads.resolve_eq_ok_iff]
  omega

end ClientBindings
