import LoopAudit.Expr.Evaluation
import LoopAudit.Proofs.Admission

/-! Write races. The value of an expression, or the reason why it has none, depends only on the
variables it reads. A reported race therefore names loop variables that run at the same time, share
the storage that is written, and have no part in which element that is. -/

namespace LoopAudit

open Fallible

def Assignment.DifferOnlyOn (names : List String) (σ τ : Assignment) : Prop :=
  ∀ y, y ∉ names → σ.get? y = τ.get? y

namespace Expr

variable {σ τ : Assignment}

mutual

theorem evaluate_congr : ∀ e : Expr, (∀ x ∈ e.reads, σ.get? x = τ.get? x) →
    evaluate σ e = evaluate τ e
  | int _, _ => by rw [evaluate, evaluate]
  | var x, h => by rw [evaluate, evaluate, h x (List.mem_singleton.mpr rfl)]
  | sum xs, h => by rw [evaluate, evaluate, evaluateSum_congr xs h]
  | product xs, h => by rw [evaluate, evaluate, evaluateProduct_congr xs h]
  | neg x, h => by rw [evaluate, evaluate, evaluate_congr x h]
  | floorDiv a b, h => by
    obtain ⟨ha, hb⟩ := List.forall_mem_append.mp h
    rw [evaluate, evaluate, evaluate_congr a ha, evaluate_congr b hb]
  | remainder a b, h => by
    obtain ⟨ha, hb⟩ := List.forall_mem_append.mp h
    rw [evaluate, evaluate, evaluate_congr a ha, evaluate_congr b hb]
  -- Nothing inside of a subscript or a call is evaluated.
  | subscript _ _, _ => by rw [evaluate, evaluate]
  | call _ _, _ => by rw [evaluate, evaluate]

theorem evaluateSum_congr : ∀ (xs : List Expr) {acc : Int},
    (∀ x ∈ readsAll xs, σ.get? x = τ.get? x) → evaluateSum σ acc xs = evaluateSum τ acc xs
  | [], _, _ => by rw [evaluateSum, evaluateSum]
  | x :: xs, acc, h => by
    obtain ⟨hx, hxs⟩ := List.forall_mem_append.mp h
    rw [evaluateSum, evaluateSum, evaluate_congr x hx]
    refine bind_congr fun v => bind_congr fun total => evaluateSum_congr xs hxs

theorem evaluateProduct_congr : ∀ (xs : List Expr) {acc : Int},
    (∀ x ∈ readsAll xs, σ.get? x = τ.get? x) → evaluateProduct σ acc xs = evaluateProduct τ acc xs
  | [], _, _ => by rw [evaluateProduct, evaluateProduct]
  | x :: xs, acc, h => by
    obtain ⟨hx, hxs⟩ := List.forall_mem_append.mp h
    rw [evaluateProduct, evaluateProduct, evaluate_congr x hx]
    refine bind_congr fun v => bind_congr fun total => evaluateProduct_congr xs hxs

end

theorem evaluate_eq_of_unread {names : List String} {e : Expr}
    (hunread : ∀ x ∈ names, x ∉ e.dependencies) (h : Assignment.DifferOnlyOn names σ τ) :
    evaluate σ e = evaluate τ e :=
  evaluate_congr e fun x hx => h x fun hmem => hunread x hmem (Names.mem_ofList.mpr hx)

end Expr

inductive Scope.Separates : Scope → Tag → Prop
  | groups (n : Nat) : Separates .perGroup (.groupAxis n)
  | itemGroups (n : Nat) : Separates .perItem (.groupAxis n)
  | items (n : Nat) : Separates .perItem (.localAxis n)
  | autoItems : Separates .perItem .autoLocal

namespace Check

variable {k : Kernel} {insn : Instruction} {name x : String} {tag : Tag} {racing : List String}

theorem mayRace_iff : MayRace k name tag ↔ tag.isParallel = true ∧
    ∀ t, k.temporary? name = some t → ¬ t.scope.Separates tag := by
  refine and_congr_right fun _ => forall₂_congr fun t _ => ?_
  generalize t.scope = scope
  constructor
  · rintro ⟨hgroup, hitem⟩ hown
    cases hown with
    | groups n => exact hgroup rfl rfl
    | itemGroups n => cases hitem rfl
    | items n => cases hitem rfl
    | autoItems => cases hitem rfl
  · intro hshared
    refine ⟨?_, ?_⟩
    · rintro rfl
      cases tag with
      | groupAxis n => exact absurd (.groups n) hshared
      | _ => simp [Tag.axisKind?]
    · rintro rfl
      cases tag with
      | groupAxis n => exact absurd (.itemGroups n) hshared
      | localAxis n => exact absurd (.items n) hshared
      | autoLocal => exact absurd .autoItems hshared
      | _ => rfl

structure RacesAcross (k : Kernel) (insn : Instruction) (x : String) : Prop where
  around : x ∈ insn.inames
  shared : ∃ name tag, insn.assignee.assigneeName? = some name ∧ k.tag? x = some tag ∧
    tag.isParallel = true ∧ ∀ t, k.temporary? name = some t → ¬ t.scope.Separates tag
  unread : ∀ e ∈ insn.assignee.assigneeIndex, x ∉ e.dependencies

theorem not_racesAcross_of_eq_ok (h : insnWriteRace k insn = .ok ()) : ¬ RacesAcross k insn x := by
  rintro ⟨hx, ⟨name, tag, hname, htag, hshared⟩, hunread⟩
  obtain ⟨-, name', place, hname', hplace, hdecided, hraces⟩ := insnWriteRace_eq_ok.mp h
  obtain rfl : name = name' := Option.some.inj (hname.symm.trans hname')
  have hmay := (sharedAcross_iff hplace hdecided).mpr (mayRace_iff.mpr hshared)
  obtain ⟨-, e, he, hread⟩ := hraces x hx tag htag hmay
  exact hunread e he hread

theorem insnWriteRace_cases (k : Kernel) (insn : Instruction) :
    (∃ failure, insnWriteRace k insn = .error failure ∧ ∀ id xs, failure ≠ .writeRace id xs) ∨
    ∃ name place, insn.assignee.assigneeName? = some name ∧ storage k name = .ok place ∧
      place ≠ .temporary .undecided ∧
      insnWriteRace k insn = if (racingInames k insn place).isEmpty then .ok ()
        else .error (.writeRace insn.id (racingInames k insn place)) := by
  unfold insnWriteRace
  dsimp only
  split
  · exact .inl ⟨_, rfl, by simp⟩
  · rcases hname : insn.assignee.assigneeName? with _ | name
    · have hwritten : written insn = .error (.writeDestination insn.id insn.assignee.text
          .unresolved) := by rw [written, hname]
      rw [hwritten]
      exact .inl ⟨_, rfl, by simp⟩
    · rw [written_eq_ok.mpr hname]
      simp only [bind, Except.bind]
      rcases hplace : storage k name with fault | place
      · exact .inl ⟨_, rfl, by simp⟩
      · rcases place with _ | scope
        · exact .inr ⟨name, .argument, rfl, hplace, by simp, rfl⟩
        · cases scope with
          | undecided => exact .inl ⟨_, rfl, by simp⟩
          | perGroup => exact .inr ⟨name, .temporary .perGroup, rfl, hplace, by simp, rfl⟩
          | perItem => exact .inr ⟨name, .temporary .perItem, rfl, hplace, by simp, rfl⟩

theorem mem_racingInames {place : Storage} (hinames : ∀ x ∈ insn.inames, x ∈ k.declaredInames)
    (hname : insn.assignee.assigneeName? = some name) (hplace : storage k name = .ok place)
    (hdecided : place ≠ .temporary .undecided) :
    x ∈ racingInames k insn place ↔ RacesAcross k insn x := by
  have hshared (tag : Tag) : sharedAcross tag place = true ↔ tag.isParallel = true ∧
      ∀ t, k.temporary? name = some t → ¬ t.scope.Separates tag :=
    (sharedAcross_iff hplace hdecided).trans mayRace_iff
  have hunread : (!(assigneeInames k insn).contains x) = true ↔
      ¬ (x ∈ k.declaredInames ∧ Indexes insn x) := by
    rw [Bool.not_eq_true', ← Bool.not_eq_true, List.contains_iff_mem, mem_assigneeInames]
  rw [racingInames, List.mem_filter, Bool.and_eq_true, Option.any_eq_true, hunread]
  constructor
  · rintro ⟨hx, ⟨tag, htag, hmay⟩, hout⟩
    exact ⟨hx, ⟨name, tag, hname, htag, (hshared tag).mp hmay⟩,
      fun e he hread => hout ⟨hinames x hx, e, he, hread⟩⟩
  · rintro ⟨hx, ⟨name', tag, hname', htag, hmay⟩, hout⟩
    obtain rfl : name = name' := Option.some.inj (hname.symm.trans hname')
    refine ⟨hx, ⟨tag, htag, (hshared tag).mpr hmay⟩, ?_⟩
    rintro ⟨-, e, he, hread⟩
    exact hout e he hread

/-- A reported race is real. Its instruction races across exactly the reported loop variables, which
come in name order, and instances that differ in them alone write the same element: the indices have
the same values, or fail alike. No instruction before it races across any loop variable. -/
theorem writeRaces_real {id : String} (hk : k.validate = .ok ())
    (h : writeRaces k = .error (.writeRace id racing)) :
    ∃ before insn after, k.instructions = before ++ insn :: after ∧ insn.id = id ∧
      racing ≠ [] ∧ racing.Pairwise (· < ·) ∧ (∀ x, x ∈ racing ↔ RacesAcross k insn x) ∧
      (∀ σ τ, Assignment.DifferOnlyOn racing σ τ → ∀ e ∈ insn.assignee.assigneeIndex,
        Expr.evaluate σ e = Expr.evaluate τ e) ∧
      ∀ earlier ∈ before, ∀ x, ¬ RacesAcross k earlier x := by
  obtain ⟨before, insn, after, hsplit, hbefore, hinsn⟩ := exists_first_of_forM h
  have hmem : insn ∈ k.instructions := by simp [hsplit]
  obtain ⟨failure, hfailure, hother⟩ | ⟨name, place, hname, hplace, hdecided, hreport⟩ :=
    insnWriteRace_cases k insn
  · rw [hinsn] at hfailure
    exact absurd (Except.error.inj hfailure).symm (hother id racing)
  · rw [hinsn] at hreport
    split_ifs at hreport with hempty
    obtain ⟨rfl, rfl⟩ := CheckFailure.writeRace.inj (Except.error.inj hreport)
    have hraces (x : String) : x ∈ racingInames k insn place ↔ RacesAcross k insn x :=
      mem_racingInames (fun y hy => inames_declared hk hmem hy) hname hplace hdecided
    refine ⟨before, insn, after, hsplit, rfl, by simpa using hempty,
      insn.sorted.filter _, hraces, fun σ τ hdiffer e he => ?_, fun earlier hearlier x =>
        not_racesAcross_of_eq_ok (hbefore earlier hearlier)⟩
    exact Expr.evaluate_eq_of_unread (fun x hx => ((hraces x).mp hx).unread e he) hdiffer

/-- After `t[j] = b[i, j]`, all work items `j` of a group write to `t[n % 16]`, with `t` in local
memory. -/
def colliding : Kernel :=
  { staged .perGroup with
    instructions :=
      [⟨"load", .subscript "t" [.var "j"], .subscript "b" [.var "i", .var "j"], ["i", "j"], false,
          tile_sorted⟩,
        ⟨"mark", .subscript "t" [.remainder (.var "n") (.int 16)], .int 0, ["i", "j"], false,
          tile_sorted⟩] }

theorem colliding_writeRaces :
    colliding.validate = .ok () ∧ writeRaces colliding = .error (.writeRace "mark" ["j"]) ∧
      ∃ insn ∈ colliding.instructions, insn.id = "mark" ∧ RacesAcross colliding insn "j" ∧
        ¬ RacesAcross colliding insn "i" ∧ ∀ σ τ, Assignment.DifferOnlyOn ["j"] σ τ →
          ∀ e ∈ insn.assignee.assigneeIndex, Expr.evaluate σ e = Expr.evaluate τ e := by
  have hvalid : colliding.validate = .ok () := rfl
  have hreport : writeRaces colliding = .error (.writeRace "mark" ["j"]) := rfl
  obtain ⟨before, insn, after, hsplit, hid, -, -, hraces, hsame, -⟩ :=
    writeRaces_real hvalid hreport
  refine ⟨hvalid, hreport, insn, by simp [hsplit], hid, (hraces "j").mp (by simp),
    mt (hraces "i").mpr (by simp), hsame⟩

end Check

end LoopAudit
