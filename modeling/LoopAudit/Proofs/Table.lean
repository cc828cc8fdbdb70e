import LoopAudit.Table
import LoopAudit.Proofs.Space
import Mathlib.Data.String.Basic

/-! Tables and lists of names in order: building one from its own entries changes nothing. -/

namespace LoopAudit

namespace Table

variable {κ α : Type} {key : κ} {value : α} {table entries : List (κ × α)} {e : κ × α}

def Sorted [LT κ] (table : List (κ × α)) : Prop := (table.map Prod.fst).Pairwise (· < ·)

theorem sorted_cons [LT κ] : Sorted (e :: table) ↔ (∀ d ∈ table, e.1 < d.1) ∧ Sorted table := by
  rw [Sorted, List.map_cons, List.pairwise_cons, List.forall_mem_map]
  rfl

variable [LinearOrder κ] [DecidableEq κ] [DecidableLT κ]

theorem mem_insert (h : e ∈ insert key value table) : e = (key, value) ∨ e ∈ table := by
  induction table with
  | nil => exact .inl (List.mem_singleton.mp h)
  | cons head table ih =>
    unfold insert at h
    split_ifs at h with heq hlt
    · exact (List.mem_cons.mp h).imp_right (List.mem_cons_of_mem _)
    · exact List.mem_cons.mp h
    · rcases List.mem_cons.mp h with h | h
      · exact .inr (h ▸ List.mem_cons_self ..)
      · exact (ih h).imp_right (List.mem_cons_of_mem _)

theorem sorted_insert (h : Sorted table) : Sorted (insert key value table) := by
  induction table with
  | nil => exact List.pairwise_singleton _ _
  | cons head table ih =>
    have ⟨hhead, htable⟩ := sorted_cons.mp h
    unfold insert
    split_ifs with heq hlt
    · refine sorted_cons.mpr ⟨fun d hd => ?_, htable⟩
      rw [heq]
      exact hhead d hd
    · refine sorted_cons.mpr ⟨fun d hd => ?_, h⟩
      rcases List.mem_cons.mp hd with rfl | hd
      · exact hlt
      · exact lt_trans hlt (hhead d hd)
    · refine sorted_cons.mpr ⟨fun d hd => ?_, ih htable⟩
      rcases mem_insert hd with rfl | hd
      · exact lt_of_le_of_ne (not_lt.mp hlt) fun hkey => heq hkey.symm
      · exact hhead d hd

theorem insert_last (h : ∀ d ∈ table, d.1 < key) :
    insert key value table = table ++ [(key, value)] := by
  induction table with
  | nil => rfl
  | cons head table ih =>
    have ⟨hhead, htable⟩ := List.forall_mem_cons.mp h
    rw [insert, if_neg (ne_of_gt hhead), if_neg (lt_asymm hhead), ih htable, List.cons_append]

theorem sorted_ofList (entries : List (κ × α)) : Sorted (ofList entries) := by
  suffices h : ∀ table : List (κ × α), Sorted table →
      Sorted (entries.foldl (fun table e => insert e.1 e.2 table) table) from h [] .nil
  induction entries with
  | nil => exact fun _ h => h
  | cons e entries ih => exact fun table h => ih _ (sorted_insert h)

theorem mem_of_mem_ofList (h : e ∈ ofList entries) : e ∈ entries := by
  suffices hfold : ∀ table : List (κ × α),
      e ∈ entries.foldl (fun table e => insert e.1 e.2 table) table → e ∈ table ∨ e ∈ entries from
    (hfold [] h).resolve_left List.not_mem_nil
  clear h
  induction entries with
  | nil => exact fun _ h => .inl h
  | cons d entries ih =>
    intro table h
    rcases ih _ h with h | h
    · rcases mem_insert h with rfl | h
      · exact .inr (List.mem_cons_self ..)
      · exact .inl h
    · exact .inr (List.mem_cons_of_mem _ h)

theorem ofList_of_sorted (h : Sorted entries) : ofList entries = entries := by
  suffices hfold : ∀ table : List (κ × α), (∀ d ∈ table, ∀ e ∈ entries, d.1 < e.1) →
      entries.foldl (fun table e => insert e.1 e.2 table) table = table ++ entries by
    exact hfold [] fun _ hd => absurd hd List.not_mem_nil
  induction entries with
  | nil => simp
  | cons e entries ih =>
    intro table htable
    have ⟨he, hentries⟩ := sorted_cons.mp h
    have hlast : insert e.1 e.2 table = table ++ [e] :=
      insert_last fun d hd => htable d hd e (List.mem_cons_self ..)
    rw [List.foldl_cons, hlast, ih hentries, List.append_assoc, List.singleton_append]
    intro d hd c hc
    rcases List.mem_append.mp hd with hd | hd
    · exact htable d hd c (List.mem_cons_of_mem _ hc)
    · obtain rfl := List.mem_singleton.mp hd
      exact he c hc

end Table

namespace Names

variable {x : String} {xs : List String}

theorem insert_eq_table : insert x xs = (Table.insert x () (xs.map (·, ()))).map Prod.fst := by
  induction xs with
  | nil => rfl
  | cons y ys ih =>
    rw [insert, List.map_cons, Table.insert]
    split_ifs with heq hlt
    · simp [heq, Function.comp_def]
    · simp [Function.comp_def]
    · simp [ih]

theorem ofList_eq_table : ofList xs = (Table.ofList (xs.map (·, ()))).map Prod.fst := by
  suffices h : ∀ table : List (String × Unit),
      xs.foldl (fun acc x => insert x acc) (table.map Prod.fst) =
        ((xs.map (·, ())).foldl (fun table e => Table.insert e.1 e.2 table) table).map Prod.fst from
    h []
  induction xs with
  | nil => exact fun _ => rfl
  | cons x xs ih =>
    intro table
    have hkeys : (table.map Prod.fst).map (·, ()) = table := by simp [Function.comp_def]
    rw [List.foldl_cons, List.map_cons, List.foldl_cons, insert_eq_table, hkeys]
    exact ih _

theorem ofList_of_sorted (h : xs.Pairwise (· < ·)) : ofList xs = xs := by
  have hsorted : Table.Sorted (xs.map (·, ())) := by simpa [Table.Sorted, Function.comp_def] using h
  rw [ofList_eq_table, Table.ofList_of_sorted hsorted]
  simp [Function.comp_def]

end Names

end LoopAudit
