import ClientBindings.Proofs.Binding.Operations
import ClientBindings.Wire.Request

/-! Tokens in the headers of a request. An operation writes its headers into one record, a later entry of a
key in the place of an earlier one, and what is null is left out of the request. So a token is lost exactly
if a scheme that is listed behind its own uses the same header and has no token. -/

namespace ClientBindings

/-! ## Records of headers -/

/-- What the values of headers depend on when a request is configured: the headers that the caller gives, which
have texts, the styled values of members and the tokens of schemes, as far as there are such. -/
structure HeaderInputs where
  given : Value.Fields
  member : StyledMember → Option String
  token : Scalar → Option String
  given_distinct : Entries.Distinct Value.same given
  given_spellable : ∀ e ∈ given, e.2.isSpellable = true
  token_congr : ∀ {a b : Scalar}, a.same b = true → token a = token b

namespace HeaderInputs

def optional (text : Option String) : Value := (text.map Value.str).getD .null

def value (env : HeaderInputs) : Call → Value
  | .member m => optional (env.member m)
  | .token t => optional (env.token t.security)

def entry (env : HeaderInputs) (h : HeaderCall) : Value × Value := (.ofData h.key, env.value h.call)

/-- The given headers with the entries of the calls put in, one after the other. -/
def merged (env : HeaderInputs) (calls : List HeaderCall) : Value.Fields :=
  Entries.merge Value.same env.given (calls.map env.entry)

def Keyed (calls : List HeaderCall) : Prop := ∀ h ∈ calls, (Value.ofData h.key).isKey = true

instance (calls : List HeaderCall) : Decidable (Keyed calls) := List.decidableBAll _ _

/-- The headers of the request: those of the record that are not null. -/
def sent (env : HeaderInputs) (calls : List HeaderCall) : Result Value.Fields := do
  if ¬ Keyed calls then throw .wrongKind
  Wire.Request.headersOf (.map (env.merged calls))

def Carries (env : HeaderInputs) (calls : List HeaderCall) (header : String) : Prop :=
  ∃ headers text, env.sent calls = .ok headers ∧ Value.find? headers header = some (.str text)

/-- Only one scheme has a token, and no headers are given. -/
def only (scheme : Scalar) (text : String) : HeaderInputs where
  given := []
  member _ := none
  token name := if name.same scheme then some text else none
  given_distinct := List.Pairwise.nil
  given_spellable := nofun
  token_congr := by
    intro a b hab
    have hiff : a.same scheme = b.same scheme :=
      (Entries.separates_of_equivalence Scalar.same_equivalence).congr hab
    rw [hiff]

end HeaderInputs

namespace Value

theorem ofData_eq_str {d : Data} {text : String} : ofData d = .str text ↔ d = .str text := by
  cases d with
  | scalar s => rw [ofData, Value.scalar.injEq, Data.scalar.injEq]
  | _ => exact ⟨fun h => (nomatch h), fun h => (nomatch h)⟩

end Value

namespace HeaderInputs
variable {env : HeaderInputs} {calls : List HeaderCall} {header : String}

theorem find?_withoutNulls {fields : Value.Fields} (h : Entries.Distinct Value.same fields) :
    Value.find? ((fields.filter fun e => !e.2.isNull).map fun (name, v) => (name, .str v.text)) header =
      ((Value.find? fields header).filter fun v => !v.isNull).map fun v => .str v.text := by
  unfold Value.find?
  induction fields with
  | nil => rfl
  | cons e fields ih =>
    obtain ⟨hhead, htail⟩ := List.pairwise_cons.mp h
    rw [Entries.find?_cons, List.filter_cons]
    by_cases hkey : e.1.same (.str header) = true
    · rw [if_pos hkey]
      cases hnull : e.2.isNull with
      | false => simp [Entries.find?_cons, hkey, hnull, Option.filter_some]
      | true =>
        -- The entry is left out, and no other entry has its key.
        have hnone : Entries.find? Value.same fields (.str header) = none := by
          rw [Entries.find?_eq_none_iff]
          intro f hf hfkey
          exact hhead f hf ((Value.separates_str header).join hkey hfkey)
        simp [ih htail, hnone, hnull, Option.filter_some]
    · rw [if_neg hkey, ← ih htail]
      split
      · rw [List.map_cons, Entries.find?_cons, if_neg hkey]
      · rfl

theorem headersOf_map {fields : Value.Fields} (h : ∀ e ∈ fields, e.2.isSpellable = true) :
    Wire.Request.headersOf (.map fields) =
      .ok ((fields.filter fun e => !e.2.isNull).map fun (name, v) => (name, .str v.text)) := by
  have hall : ((fields.filter fun e => !e.2.isNull).all fun e => e.2.isSpellable) = true := by
    rw [List.all_eq_true]
    exact fun e he => h e (List.mem_of_mem_filter he)
  rw [← Result.guarded_of_true hall, ← Result.mapM_guarded]
  have hentries : Wire.entriesOf (.map fields) = .ok fields := by cases fields <;> rfl
  rw [Wire.Request.headersOf, hentries]
  exact congrArg (List.mapM · _) (funext fun _ => Result.guarded_pure _)

theorem isSpellable_value (env : HeaderInputs) (call : Call) : (env.value call).isSpellable = true := by
  have hoptional : ∀ text : Option String, (optional text).isSpellable = true := by
    intro text
    cases text <;> rfl
  cases call with
  | member m => exact hoptional _
  | token t => exact hoptional _

theorem isSpellable_merged (env : HeaderInputs) (calls : List HeaderCall) :
    ∀ e ∈ env.merged calls, e.2.isSpellable = true := by
  intro e he
  have hvalue := Entries.snd_mem_of_mem_merge he
  rw [List.map_append, List.mem_append] at hvalue
  rcases hvalue with hvalue | hvalue
  · obtain ⟨f, hf, hfe⟩ := List.mem_map.mp hvalue
    rw [← hfe]
    exact env.given_spellable f hf
  · rw [List.map_map] at hvalue
    obtain ⟨h, -, hentry⟩ := List.mem_map.mp hvalue
    rw [← hentry]
    exact env.isSpellable_value h.call

theorem carries_iff : env.Carries calls header ↔ Keyed calls ∧
    ∃ v, Value.find? (env.merged calls) header = some v ∧ v.isNull = false := by
  unfold Carries sent
  by_cases hkeyed : Keyed calls
  · have hdistinct : Entries.Distinct Value.same (env.merged calls) := env.given_distinct.merge
    simp only [hkeyed, not_true_eq_false, if_false, headersOf_map (env.isSpellable_merged calls), true_and]
    constructor
    · rintro ⟨headers, text, heq, hfound⟩
      cases heq
      rw [find?_withoutNulls hdistinct] at hfound
      obtain ⟨v, hv, _⟩ := Option.map_eq_some_iff.mp hfound
      obtain ⟨hv, hnull⟩ := Option.filter_eq_some_iff.mp hv
      exact ⟨v, hv, by simpa using hnull⟩
    · rintro ⟨v, hv, hnull⟩
      refine ⟨_, v.text, rfl, ?_⟩
      rw [find?_withoutNulls hdistinct, hv]
      simp [hnull, Option.filter_some]
  · refine iff_of_false ?_ fun h => hkeyed h.1
    rintro ⟨headers, text, heq, _⟩
    rw [if_pos hkeyed] at heq
    exact Result.throw_ne_ok (Result.bind_eq_ok_iff.mp heq).choose_spec.1

end HeaderInputs

/-! ## Headers of tokens -/

/-- The header that a scheme's token goes into, if its name is a text. -/
def SecurityBinding.header? (scheme : SecurityBinding) : Option String :=
  if scheme.inQuery then none else
  match scheme.parameter with
  | .str header => some header
  | _ => none

theorem SecurityBinding.header?_eq_some_iff {scheme : SecurityBinding} {header : String} :
    scheme.header? = some header ↔ scheme.inQuery = false ∧ scheme.parameter = .str header := by
  unfold header?
  cases scheme.inQuery with
  | true => simp
  | false =>
    rw [if_neg Bool.false_ne_true]
    split
    case h_1 text heq => simp [heq]
    case h_2 hother => exact iff_of_false (fun h => nomatch h) fun h => hother header h.2

namespace OperationBinding

/-- The schemes that an operation names and whose tokens go into headers, each with its header. -/
def tokenHeaders (security : List SecurityBinding) (b : OperationBinding) : List (Scalar × String) :=
  (b.schemes security).filterMap fun e => e.2.header?.map fun header => (e.1, header)

/-- The entry that sends a token. -/
def tokenEntry (e : Scalar × SecurityBinding) : Option HeaderCall :=
  if e.2.inQuery then none else some ⟨e.2.parameter, .token ⟨e.1, none, .null⟩⟩

/-- The scheme whose entry is the last one under a header. -/
def lastToken (security : List SecurityBinding) (b : OperationBinding) (header : String) : Option Scalar :=
  ((b.tokenHeaders security).reverse.find? fun e => e.2 == header).map Prod.fst

/-- No two different schemes share a header, and where tokens are sent all headers are possible keys. -/
def HeadersApart (security : List SecurityBinding) (b : OperationBinding) : Prop :=
  ∀ name header, (name, header) ∈ b.tokenHeaders security → HeaderInputs.Keyed b.headers ∧
    ∀ other, (other, header) ∈ b.tokenHeaders security → other.same name = true

variable {document operation pathItem : Data} {naming : Naming} {security : List SecurityBinding} {ps : Parameters}
  {b : OperationBinding} {env : HeaderInputs} {name : Scalar} {header : String}

theorem exists_lastToken (h : (name, header) ∈ b.tokenHeaders security) :
    ∃ last, b.lastToken security header = some last ∧ (last, header) ∈ b.tokenHeaders security := by
  unfold lastToken
  cases hfind : (b.tokenHeaders security).reverse.find? fun e => e.2 == header with
  | none => exact absurd (List.find?_eq_none.mp hfind _ (List.mem_reverse.mpr h)) (by simp)
  | some e =>
    have hheader : e.2 = header := by simpa using List.find?_some hfind
    exact ⟨e.1, rfl, hheader ▸ List.mem_reverse.mp (List.mem_of_find?_eq_some hfind)⟩

theorem find?_tokens (env : HeaderInputs) (header : String) (schemes : List (Scalar × SecurityBinding)) :
    Value.find? ((schemes.filterMap tokenEntry).map env.entry) header =
      ((schemes.filterMap fun e => e.2.header?.map fun header => (e.1, header)).find? fun e => e.2 == header).map
        fun e => HeaderInputs.optional (env.token e.1) := by
  unfold Value.find?
  induction schemes with
  | nil => rfl
  | cons e schemes ih =>
    by_cases hquery : e.2.inQuery = true
    · have hentry : tokenEntry e = none := if_pos hquery
      have hheader : e.2.header? = none := if_pos hquery
      rw [List.filterMap_cons_none hentry, List.filterMap_cons_none (by rw [hheader, Option.map_none]), ih]
    have hentry : tokenEntry e = some ⟨e.2.parameter, .token ⟨e.1, none, .null⟩⟩ := if_neg hquery
    rw [List.filterMap_cons_some hentry, List.map_cons, Entries.find?_cons]
    by_cases hheader : e.2.header? = some header
    · obtain ⟨_, hparameter⟩ := SecurityBinding.header?_eq_some_iff.mp hheader
      have hkey : (Value.ofData e.2.parameter).same (.str header) = true := by
        rw [hparameter]
        exact Value.same_str_right.mpr rfl
      rw [HeaderInputs.entry, if_pos hkey, List.filterMap_cons_some (by rw [hheader, Option.map_some]),
        List.find?_cons, beq_self_eq_true]
      rfl
    · have hkey : ¬ (Value.ofData e.2.parameter).same (.str header) = true := by
        intro hsame
        have hparameter := Value.ofData_eq_str.mp (Value.same_str_right.mp hsame)
        exact hheader (SecurityBinding.header?_eq_some_iff.mpr ⟨Bool.eq_false_iff.mpr hquery, hparameter⟩)
      rw [HeaderInputs.entry, if_neg hkey, ih]
      cases hother : e.2.header? with
      | none => rw [List.filterMap_cons_none (by rw [hother, Option.map_none])]
      | some text =>
        have hne : (text == header) = false := beq_eq_false_iff_ne.mpr fun heq => hheader (heq ▸ hother)
        rw [List.filterMap_cons_some (by rw [hother, Option.map_some]), List.find?_cons, hne]

theorem Bound.find?_merged (hb : b.Bound document naming security operation pathItem ps)
    (h : b.lastToken security header = some name) :
    Value.find? (env.merged b.headers) header = some (HeaderInputs.optional (env.token name)) := by
  obtain ⟨e, he, rfl⟩ := Option.map_eq_some_iff.mp h
  -- Entries of tokens come behind those of members, and the last one of a key counts.
  have htokens := find?_tokens env header (b.schemes security).reverse
  rw [List.filterMap_reverse, List.filterMap_reverse, List.map_reverse] at htokens
  unfold tokenHeaders at he
  rw [he] at htokens
  unfold Value.find? at htokens ⊢
  unfold HeaderInputs.merged
  rw [Entries.find?_merge_last (Value.separates_str header), hb.headers]
  show (Entries.find? Value.same ((_ ++ (b.schemes security).filterMap tokenEntry).map env.entry).reverse _).or _ = _
  rw [List.map_append, List.reverse_append, Entries.find?_append, htokens]
  rfl

theorem Bound.carries_iff (hb : b.Bound document naming security operation pathItem ps)
    (h : b.lastToken security header = some name) :
    env.Carries b.headers header ↔ HeaderInputs.Keyed b.headers ∧ env.token name ≠ none := by
  rw [HeaderInputs.carries_iff, hb.find?_merged h]
  refine and_congr_right fun _ => ?_
  cases htoken : env.token name with
  | none => simp [HeaderInputs.optional, Value.isNull]
  | some text => simp [HeaderInputs.optional, Value.isNull]

/-- The request in which only one of the schemes has a token shows that this scheme is the last one. -/
theorem Bound.headersApart_of_carried (hb : b.Bound document naming security operation pathItem ps)
    (h : ∀ (env : HeaderInputs) (name : Scalar) (header : String), (name, header) ∈ b.tokenHeaders security →
      env.token name ≠ none → env.Carries b.headers header) : b.HeadersApart security := by
  intro name header hmem
  obtain ⟨last, hlast, _⟩ := exists_lastToken hmem
  have honly : ∀ other, (other, header) ∈ b.tokenHeaders security →
      HeaderInputs.Keyed b.headers ∧ last.same other = true := by
    intro other hother
    have htoken : (HeaderInputs.only other "").token other ≠ none := by simp [HeaderInputs.only]
    obtain ⟨hkeyed, hsome⟩ := (hb.carries_iff hlast).mp (h (.only other "") other header hother htoken)
    refine ⟨hkeyed, ?_⟩
    by_contra hne
    exact hsome (if_neg hne)
  have hname := honly name hmem
  refine ⟨hname.1, fun other hother => ?_⟩
  exact Scalar.same_equivalence.trans (Scalar.same_equivalence.symm (honly other hother).2) hname.2

theorem Bound.carries_of_headersApart (hb : b.Bound document naming security operation pathItem ps)
    (hapart : b.HeadersApart security) (hmem : (name, header) ∈ b.tokenHeaders security)
    (htoken : env.token name ≠ none) : env.Carries b.headers header := by
  obtain ⟨hkeyed, hsame⟩ := hapart name header hmem
  obtain ⟨last, hlast, hlastmem⟩ := exists_lastToken hmem
  refine (hb.carries_iff hlast).mpr ⟨hkeyed, ?_⟩
  rwa [env.token_congr (hsame last hlastmem)]

end OperationBinding

/-- Under a header goes the token of the scheme that is listed last for it. Hence no token is ever lost
exactly if no two of the schemes share a header. -/
theorem Api.tokens_carried_iff {document : Data} {item : Option Item} {naming : Naming} {api : Api}
    (h : Api.compile document item naming = .ok api) {b : OperationBinding} (hb : b ∈ api.operations) :
    (∀ (env : HeaderInputs) (name : Scalar) (header : String), (name, header) ∈ b.tokenHeaders api.security →
      ∃ last, b.lastToken api.security header = some last ∧
        (env.Carries b.headers header ↔ HeaderInputs.Keyed b.headers ∧ env.token last ≠ none)) ∧
    ((∀ (env : HeaderInputs) (name : Scalar) (header : String), (name, header) ∈ b.tokenHeaders api.security →
      env.token name ≠ none → env.Carries b.headers header) ↔ b.HeadersApart api.security) := by
  obtain ⟨pathItem, operation, ps, _, hbound⟩ := Api.operation_bound h hb
  refine ⟨?_, hbound.headersApart_of_carried, ?_⟩
  · intro env name header hmem
    obtain ⟨last, hlast, _⟩ := OperationBinding.exists_lastToken hmem
    exact ⟨last, hlast, hbound.carries_iff hlast⟩
  · intro hapart env name header hmem htoken
    exact hbound.carries_of_headersApart hapart hmem htoken

/-- An operation with two alternative schemes, whose declarations are given. -/
def guardedShop (first second : Data) : Data := .object [
  ("openapi", .str "3.0.0"),
  ("paths", .object [("/orders", .object [("get", .object [
    ("operationId", .str "orders"),
    ("security", .list [.object [("first", .list [])], .object [("second", .list [])]]),
    ("parameters", .list [.object [("name", .str "X-Trace"), ("in", .str "header")]])])])]),
  ("components", .object [("securitySchemes", .object [("first", first), ("second", second)])])]

def bearerScheme : Data := .object [("type", .str "http"), ("scheme", .str "bearer")]
def basicScheme : Data := .object [("type", .str "http"), ("scheme", .str "basic")]
def keyScheme : Data := .object [("type", .str "apiKey"), ("in", .str "header"), ("name", .str "X-Key")]

theorem tokens_carried_shop : ∃ api b, Api.compile (guardedShop bearerScheme keyScheme) none {} = .ok api ∧
    b ∈ api.operations ∧
    b.tokenHeaders api.security = [(.str "first", "Authorization"), (.str "second", "X-Key")] ∧
    ∀ (env : HeaderInputs) (name : Scalar) (header : String), (name, header) ∈ b.tokenHeaders api.security →
      env.token name ≠ none → env.Carries b.headers header := by
  have hrun : ((Api.compile (guardedShop bearerScheme keyScheme) none {}).toOption.map fun api =>
      api.operations.map fun b => (b.tokenHeaders api.security, decide (HeaderInputs.Keyed b.headers))) =
      some [([(.str "first", "Authorization"), (.str "second", "X-Key")], true)] := by decide +kernel
  obtain ⟨api, b, hcompile, hb, hcomputed⟩ := Api.exists_operation hrun
  obtain ⟨htokens, hkeyed⟩ := Prod.mk.inj hcomputed
  refine ⟨api, b, hcompile, hb, htokens, (Api.tokens_carried_iff hcompile hb).2.mpr ?_⟩
  intro name header hmem
  refine ⟨of_decide_eq_true hkeyed, fun other hother => ?_⟩
  rw [htokens] at hmem hother
  simp only [List.mem_cons, Prod.mk.injEq, List.not_mem_nil, or_false] at hmem hother
  rcases hmem with ⟨rfl, rfl⟩ | ⟨rfl, rfl⟩ <;> rcases hother with ⟨rfl, hheader⟩ | ⟨rfl, hheader⟩
  · rfl
  · exact absurd hheader (by decide)
  · exact absurd hheader (by decide)
  · rfl

theorem exists_token_lost : ∃ api b, Api.compile (guardedShop bearerScheme basicScheme) none {} = .ok api ∧
    b ∈ api.operations ∧ (.str "first", "Authorization") ∈ b.tokenHeaders api.security ∧
    (HeaderInputs.only (.str "first") "Bearer t").token (.str "first") = some "Bearer t" ∧
    ¬ (HeaderInputs.only (.str "first") "Bearer t").Carries b.headers "Authorization" := by
  have hrun : ((Api.compile (guardedShop bearerScheme basicScheme) none {}).toOption.map fun api =>
      api.operations.map fun b => (b.tokenHeaders api.security,
        ((HeaderInputs.only (.str "first") "Bearer t").sent b.headers).toOption.map List.length)) =
      some [([(.str "first", "Authorization"), (.str "second", "Authorization")], some 0)] := by decide +kernel
  obtain ⟨api, b, hcompile, hb, hcomputed⟩ := Api.exists_operation hrun
  obtain ⟨htokens, hsent⟩ := Prod.mk.inj hcomputed
  refine ⟨api, b, hcompile, hb, htokens ▸ List.mem_cons_self, by decide, ?_⟩
  rintro ⟨headers, text, heq, hfound⟩
  rw [heq] at hsent
  obtain rfl : headers = [] := List.length_eq_zero_iff.mp (Option.some.inj hsent)
  cases hfound

end ClientBindings
