/-! Ordered entries of a mapping. A repeated key keeps its first place and takes its last value. -/

namespace ClientBindings.Entries

variable {κ ν : Type} (same : κ → κ → Bool)

def find? (entries : List (κ × ν)) (key : κ) : Option ν :=
  (entries.find? fun e => same e.1 key).map Prod.snd

def contains (entries : List (κ × ν)) (key : κ) : Bool := entries.any fun e => same e.1 key

def put : List (κ × ν) → κ → ν → List (κ × ν)
  | [], key, value => [(key, value)]
  | e :: rest, key, value => if same e.1 key then (e.1, value) :: rest else e :: put rest key value

/-- Every entry of the second list put into the first, in order. -/
def merge (base update : List (κ × ν)) : List (κ × ν) :=
  update.foldl (fun acc e => put same acc e.1 e.2) base

def ofList (entries : List (κ × ν)) : List (κ × ν) := merge same [] entries

def erase (entries : List (κ × ν)) (key : κ) : List (κ × ν) := entries.filter fun e => !same e.1 key

@[simp] theorem put_nil (key : κ) (value : ν) : put same [] key value = [(key, value)] := rfl

@[simp] theorem merge_nil (base : List (κ × ν)) : merge same base [] = base := rfl

@[simp] theorem merge_cons (base update : List (κ × ν)) (e : κ × ν) :
    merge same base (e :: update) = merge same (put same base e.1 e.2) update := rfl

theorem merge_append (base first second : List (κ × ν)) :
    merge same base (first ++ second) = merge same (merge same base first) second := by
  simp [merge, List.foldl_append]

end ClientBindings.Entries
