/-! Association lists kept in the order of their keys, each key once. -/

namespace LoopAudit.Table

def insert {κ α : Type} [DecidableEq κ] [LT κ] [DecidableLT κ] (key : κ) (value : α) :
    List (κ × α) → List (κ × α)
  | [] => [(key, value)]
  | (k, v) :: rest =>
    if key = k then (key, value) :: rest
    else if key < k then (key, value) :: (k, v) :: rest
    else (k, v) :: insert key value rest

def ofList {κ α : Type} [DecidableEq κ] [LT κ] [DecidableLT κ] (entries : List (κ × α)) :
    List (κ × α) :=
  entries.foldl (fun table e => insert e.1 e.2 table) []

end LoopAudit.Table
