import ClientBindings.Schema.Synthesis

/-! Responses: which of them count, how their bodies are decoded and which type they have. -/

namespace ClientBindings

inductive ResponseKind where
  | json | text | blob
deriving DecidableEq, Repr, Inhabited

namespace ResponseKind

def name : ResponseKind → String
  | .json => "json"
  | .text => "text"
  | .blob => "blob"

end ResponseKind

namespace Response

/-- The integer a key starts with, after white space and a sign. -/
def statusCode? (key : Data) : Result (Option Int) := do
  let cs := (← key.toText).toList
  let blank := cs.takeWhile Unicode.isBlank
  let sign := ((cs.drop blank.length).take 1).filter fun c => c == '+' || c == '-'
  let digits := (cs.drop (blank.length + sign.length)).takeWhile Unicode.isDecimal
  if digits.isEmpty then return none
  match Numeral.int? 10 (blank ++ sign ++ digits) with
  | some code => return some code
  | none => throw .badValue

def isSuccess (key : Data) : Result Bool := do
  return (← statusCode? key).any fun code => 200 ≤ code && code < 300

/-- The keys of successful responses, ordered as texts. -/
def successKeys (responses : Data) : Result (List Data) := do
  return (← (← responses.elements).filterM isSuccess).mergeSort fun a b => !decide (b.text < a.text)

/-- The responses that count: the successful ones, else the default one. -/
def relevant (responses : Data) : Result (List Data) := do
  match ← successKeys responses with
  | [] =>
    let fallback ← responses.get "default"
    return if fallback.isNull then [] else [fallback]
  | keys => keys.mapM responses.item

/-- A response with its reference followed. -/
def target (document response : Data) : Result Data := do
  return (← Reference.resolve document response).orElse (.map [])

def hasContent (response : Data) : Result Bool := do
  let content ← response.get "content"
  return content.isMap && content.truthy

def mediaTypes (response : Data) : Result (List Data) := do
  match ← response.get "content" with
  | .map entries => return entries.map fun e => .scalar e.1
  | _ => return []

def offersJson (response : Data) : Result Bool := do
  return (← mediaTypes response).any fun m => m.same (.str Schema.jsonMediaType)

def offersText (response : Data) : Result Bool := do
  (← mediaTypes response).anyM fun m =>
    match m with
    | .str s => return s.startsWith "text/"
    | _ => throw .noMember

/-- How successful responses are decoded: as JSON if one of them offers it. -/
def kind (document responses : Data) : Result ResponseKind := do
  let candidates ← (← relevant responses).mapM (target document)
  if !(← candidates.anyM hasContent) then return .text
  if ← candidates.anyM offersJson then return .json
  if ← candidates.anyM offersText then return .text
  return .blob

def typeOfOne (document response : Data) : Schema.M TypeNode := do
  let content ← ((do (← target document response).get "content") : Result _)
  if content.isNull then return .any
  Schema.typeOf document (← (Schema.ofContent content : Result _))

/-- The union of the types of the responses that count. -/
def type (document responses : Data) : Schema.M TypeNode := do
  let responses ← (relevant responses : Result _)
  return .unionOf (TypeNode.dedup (← responses.mapM (typeOfOne document)))

end Response
end ClientBindings
