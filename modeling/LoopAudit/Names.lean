/-! Lists of names: sets kept in name order, and lists kept in order of first appearance. -/

namespace LoopAudit.Names

def insert (x : String) : List String → List String
  | [] => [x]
  | y :: ys => if x = y then y :: ys else if x < y then x :: y :: ys else y :: insert x ys

def ofList (xs : List String) : List String := xs.foldl (fun acc x => insert x acc) []

def union (xs ys : List String) : List String := ys.foldl (fun acc y => insert y acc) xs

def extend (xs ys : List String) : List String :=
  ys.foldl (fun acc y => if acc.contains y then acc else acc ++ [y]) xs

def firstRepeated? (seen : List String) : List String → Option String
  | [] => none
  | x :: xs => if seen.contains x then some x else firstRepeated? (x :: seen) xs

theorem mem_insert {x y : String} {xs : List String} : y ∈ insert x xs ↔ y = x ∨ y ∈ xs := by
  induction xs with
  | nil => simp [insert]
  | cons z xs ih =>
    unfold insert
    split
    · next heq => simp [heq]
    · split
      · exact List.mem_cons
      · rw [List.mem_cons, ih, List.mem_cons, or_left_comm]

theorem sorted_insert {x : String} {xs : List String} (h : xs.Pairwise (· < ·)) :
    (insert x xs).Pairwise (· < ·) := by
  induction xs with
  | nil => exact List.pairwise_singleton ..
  | cons y xs ih =>
    obtain ⟨hy, hxs⟩ := List.pairwise_cons.mp h
    unfold insert
    split
    · exact h
    · split
      · next hlt =>
        refine List.pairwise_cons.mpr ⟨fun z hz => ?_, h⟩
        rcases List.mem_cons.mp hz with rfl | hz
        · exact hlt
        · exact String.lt_trans hlt (hy z hz)
      · next hne hlt =>
        refine List.pairwise_cons.mpr ⟨fun z hz => ?_, ih hxs⟩
        rcases mem_insert.mp hz with rfl | hz
        · exact Std.lt_of_le_of_ne (String.not_lt.mp hlt) (Ne.symm hne)
        · exact hy z hz

theorem sorted_ofList (xs : List String) : (ofList xs).Pairwise (· < ·) :=
  List.foldlRecOn xs _ .nil fun _ h _ _ => sorted_insert h

end LoopAudit.Names
