import LoopAudit.Check.Suite
import LoopAudit.Proofs.Bounds
import LoopAudit.Proofs.Scanning

/-! The suite of checks as one condition on a kernel. Each pass decides a part of the condition, and
no pass fails for a reason that is not part of it. -/

namespace LoopAudit

open Fallible

namespace Tag

variable {t u : Tag} {key : String}

def axis : AxisKind → Nat → Tag
  | .group, n => .groupAxis n
  | .item, n => .localAxis n

inductive Clashes : Tag → Tag → Prop
  | group (n : Nat) : Clashes (.groupAxis n) (.groupAxis n)
  | item (n : Nat) : Clashes (.localAxis n) (.localAxis n)
  | vector : Clashes .vector .vector
  | unique (key : String) : Clashes (.unique key) (.unique key)

theorem decimal_inj {m n : Nat} (h : Decimal.text m = Decimal.text n) : m = n := by
  have hvalue (k : Nat) : Decimal.value (Decimal.text k).toList = k := by
    rw [Decimal.text, if_neg (by omega), Int.natAbs_natCast, Nat.repr_eq_ofList_toDigits,
      String.toList_ofList, Decimal.value_toDigits]
  rw [← hvalue m, h, hvalue]

theorem clashes_of_uniqueKey? (ht : t.uniqueKey? = some key) (hu : u.uniqueKey? = some key) :
    t.Clashes u := by
  have h : t.uniqueKey?.map String.toList = u.uniqueKey?.map String.toList := by rw [ht, hu]
  -- Keys of two kinds differ in one of their first characters.
  rcases t with m | m | _ | _ | _ | a <;> rcases u with n | n | _ | _ | _ | b <;>
    simp [uniqueKey?] at ht hu h
  · rw [decimal_inj (String.toList_inj.mp h)]
    exact .group n
  · rw [decimal_inj (String.toList_inj.mp h)]
    exact .item n
  · exact .vector
  · rw [String.toList_inj.mp h]
    exact .unique b

theorem Clashes.uniqueKey? (h : t.Clashes u) : ∃ key, t.uniqueKey? = some key ∧
    u.uniqueKey? = some key := by
  cases h <;> exact ⟨_, rfl, rfl⟩

end Tag

namespace Check

variable {k : Kernel} {insn : Instruction} {kind : AxisKind} {name x : String} {n : Nat}

section Axes

structure CoversGrid (k : Kernel) (insn : Instruction) : Prop where
  resolved : ∀ x ∈ insn.inames, k.tag? x ≠ some .autoLocal
  group : ∀ n, (∃ x ∈ insn.inames, k.tag? x = some (.groupAxis n)) ↔ n < k.grid.group.length
  item : ∀ n, (∃ x ∈ insn.inames, k.tag? x = some (.localAxis n)) ↔ n < k.grid.item.length

theorem nodup_eraseDups (xs : List Nat) : xs.eraseDups.Nodup := by
  match xs with
  | [] => exact List.nodup_nil
  | x :: xs =>
    rw [List.eraseDups_cons, List.nodup_cons]
    refine ⟨fun hx => ?_, nodup_eraseDups _⟩
    have hfilter := List.mem_filter.mp (List.mem_eraseDups.mp hx)
    simp at hfilter
termination_by xs.length
decreasing_by exact Nat.lt_succ_of_le (List.length_filter_le ..)

theorem mem_usedAxes :
    n ∈ usedAxes k kind insn ↔ ∃ x ∈ insn.inames, k.tag? x = some (.axis kind n) := by
  simp only [usedAxes, List.mem_mergeSort, List.mem_eraseDups, List.mem_filterMap,
    Option.bind_eq_some_iff]
  refine exists_congr fun x => and_congr_right fun _ => ?_
  constructor
  · rintro ⟨t, ht, hindex⟩
    cases t <;> cases kind <;> simp_all [Tag.axisKind?, Tag.axisIndex?, Tag.axis]
  · exact fun h => ⟨_, h, by cases kind <;> rfl⟩

theorem usedAxes_sorted : (usedAxes k kind insn).Pairwise (· < ·) := by
  have hle : (usedAxes k kind insn).Pairwise (· ≤ ·) := by
    have hsorted := @List.pairwise_mergeSort Nat (fun a b => decide (a ≤ b))
      (fun a b c hab hbc => by simp at hab hbc ⊢; omega) (fun a b => by simp; omega)
    simpa [usedAxes] using hsorted _
  have hnodup : (usedAxes k kind insn).Nodup :=
    (List.mergeSort_perm _ _).nodup_iff.mpr (nodup_eraseDups _)
  exact (hle.and hnodup).imp fun h => lt_of_le_of_ne h.1 h.2

theorem usesAll_eq_ok : usesAll insn kind (List.range n) (usedAxes k kind insn) = .ok () ↔
    ∀ i, i ∈ usedAxes k kind insn ↔ i < n := by
  have hrange (i : Nat) : i ∈ List.range n ↔ i < n := List.mem_range
  unfold usesAll
  split_ifs with heq
  · simp [heq]
  · simp only [false_iff]
    intro hmem
    apply heq
    exact usedAxes_sorted.eq_of_mem_iff List.pairwise_lt_range fun i => by rw [hmem, hrange]

theorem insnAxisCoverage_eq_ok : insnAxisCoverage k insn = .ok () ↔ CoversGrid k insn := by
  unfold insnAxisCoverage
  split
  · next x hx =>
    have hmem := List.mem_of_find?_eq_some hx
    have htag := List.find?_some hx
    simp only [reduceCtorEq, false_iff]
    exact fun h => h.resolved x hmem (of_decide_eq_true htag)
  · next hnone =>
    have hresolved : ∀ x ∈ insn.inames, k.tag? x ≠ some .autoLocal := fun x hx => by
      simpa using List.find?_eq_none.mp hnone x hx
    have hgroup : usesAll insn .group (List.range k.grid.group.length) (usedAxes k .group insn) =
        .ok () ↔ _ := usesAll_eq_ok
    have hitem : usesAll insn .item (List.range k.grid.item.length) (usedAxes k .item insn) =
        .ok () ↔ _ := usesAll_eq_ok
    simp only [mem_usedAxes] at hgroup hitem
    rw [bind_eq_ok]
    constructor
    · rintro ⟨_, hfirst, hsecond⟩
      exact ⟨hresolved, hgroup.mp hfirst, hitem.mp hsecond⟩
    · intro h
      exact ⟨(), hgroup.mpr h.group, hitem.mpr h.item⟩

theorem axisCoverage_eq_ok : axisCoverage k = .ok () ↔
    ∀ insn ∈ k.instructions, insn.boostable = false → CoversGrid k insn := by
  simp only [axisCoverage, forM_eq_ok, List.mem_filter, insnAxisCoverage_eq_ok, and_imp,
    Bool.not_eq_true']

def AxesApart (k : Kernel) (insn : Instruction) : Prop :=
  ∀ x ∈ insn.inames, ∀ y ∈ insn.inames, x ≠ y →
    ∀ t u, k.tag? x = some t → k.tag? y = some u → ¬ t.Clashes u

def keyOf? (k : Kernel) (x : String) : Option String := (k.tag? x).bind Tag.uniqueKey?

theorem firstConflict?_cons {seen : List (String × String)} {xs : List String} :
    firstConflict? k seen (x :: xs) = none ↔
      keyOf? k x = none ∧ firstConflict? k seen xs = none ∨
        ∃ key, keyOf? k x = some key ∧ seen.lookup key = none ∧
          firstConflict? k ((key, x) :: seen) xs = none := by
  rw [firstConflict?, keyOf?]
  rcases k.tag? x with _ | tag
  · simp
  · rcases hkey : tag.uniqueKey? with _ | key
    · simp [hkey]
    · rcases hseen : seen.lookup key with _ | first <;>
        simp [hkey, hseen, -List.lookup_eq_none_iff]

theorem firstConflict?_eq_none {seen : List (String × String)} {xs : List String} :
    firstConflict? k seen xs = none ↔
      (∀ x ∈ xs, ∀ key, keyOf? k x = some key → seen.lookup key = none) ∧
        xs.Pairwise fun x y => ∀ key, keyOf? k x = some key → keyOf? k y ≠ some key := by
  induction xs generalizing seen with
  | nil => simp [firstConflict?]
  | cons x xs ih =>
    rw [firstConflict?_cons, List.pairwise_cons, List.forall_mem_cons]
    rcases hkey : keyOf? k x with _ | key
    · simp [ih]
    · have hlookup (key' : String) : ((key, x) :: seen).lookup key' = none ↔
          key' ≠ key ∧ seen.lookup key' = none := by
        rw [List.lookup_cons]
        by_cases heq : key' = key
        · simp [heq]
        · simp only [beq_eq_false_iff_ne.mpr heq, ne_eq, heq, not_false_eq_true, true_and]
      simp only [reduceCtorEq, false_and, false_or, Option.some.injEq, exists_eq_left', ih,
        forall_eq', hlookup]
      constructor
      · rintro ⟨hseen, hrest, hpairs⟩
        refine ⟨⟨hseen, fun y hy key' hy' => (hrest y hy key' hy').2⟩, fun y hy heq => ?_, hpairs⟩
        exact (hrest y hy key heq).1 rfl
      · rintro ⟨⟨hseen, hrest⟩, hfirst, hpairs⟩
        refine ⟨hseen, fun y hy key' hy' => ⟨?_, hrest y hy key' hy'⟩, hpairs⟩
        rintro rfl
        exact hfirst y hy hy'

theorem clash_iff_key {y : String} :
    (∃ key, keyOf? k x = some key ∧ keyOf? k y = some key) ↔
      ∃ t u, k.tag? x = some t ∧ k.tag? y = some u ∧ t.Clashes u := by
  simp only [keyOf?, Option.bind_eq_some_iff]
  constructor
  · rintro ⟨key, ⟨t, ht, hkey⟩, u, hu, hkey'⟩
    exact ⟨t, u, ht, hu, Tag.clashes_of_uniqueKey? hkey hkey'⟩
  · rintro ⟨t, u, ht, hu, hclash⟩
    have ⟨key, hkey, hkey'⟩ := hclash.uniqueKey?
    exact ⟨key, ⟨t, ht, hkey⟩, u, hu, hkey'⟩

theorem firstConflict?_inames :
    firstConflict? k [] insn.inames = none ↔ AxesApart k insn := by
  have hpair (x y : String) : (∀ key, keyOf? k x = some key → keyOf? k y ≠ some key) ↔
      ∀ t u, k.tag? x = some t → k.tag? y = some u → ¬ t.Clashes u := by
    have hclash := not_congr (clash_iff_key (k := k) (x := x) (y := y))
    push Not at hclash
    exact hclash
  rw [firstConflict?_eq_none]
  simp only [hpair]
  constructor
  · rintro ⟨-, hpairs⟩
    have : Std.Symm fun x y => ∀ t u, k.tag? x = some t → k.tag? y = some u → ¬ t.Clashes u :=
      ⟨fun x y hxy t u ht hu hclash => hxy u t hu ht (by cases hclash <;> constructor)⟩
    exact fun x hx y hy hne => hpairs.forall hx hy hne
  · have hnodup : insn.inames.Nodup := insn.sorted.imp ne_of_lt
    exact fun h => ⟨fun _ _ _ _ => rfl, hnodup.pairwise_of_forall_ne h⟩

theorem axisConflicts_eq_ok :
    axisConflicts k = .ok () ↔ ∀ insn ∈ k.instructions, AxesApart k insn := by
  rw [axisConflicts, forM_eq_ok]
  refine forall₂_congr fun insn hinsn => ?_
  rw [← firstConflict?_inames]
  rcases firstConflict? k [] insn.inames with _ | ⟨tag, first, second⟩ <;> simp

end Axes

section Accesses

theorem mem_inames : x ∈ k.inames ↔ x ∈ k.declaredInames := Names.mem_ofList

def Indexes (insn : Instruction) (x : String) : Prop :=
  ∃ e ∈ insn.assignee.assigneeIndex, x ∈ e.dependencies

def ReadsActive (k : Kernel) (insn : Instruction) : Prop :=
  ∀ x ∈ k.declaredInames, x ∈ insn.expression.dependencies ∨ Indexes insn x → x ∈ insn.inames

theorem strayInames_eq_nil {names : List String} :
    (strayInames k insn names).isEmpty = true ↔
      ∀ x ∈ names, x ∈ k.declaredInames → x ∈ insn.inames := by
  rw [List.isEmpty_iff, strayInames, List.filter_eq_nil_iff]
  simp [mem_inames]

theorem inactiveReads_eq_ok : inactiveReads k = .ok () ↔ ∀ insn ∈ k.instructions,
    ∀ x ∈ insn.expression.dependencies, x ∈ k.declaredInames → x ∈ insn.inames := by
  rw [inactiveReads, forM_eq_ok]
  refine forall₂_congr fun insn _ => ?_
  rw [← strayInames_eq_nil]
  exact ite_eq_ok

theorem mem_assigneeInames :
    x ∈ assigneeInames k insn ↔ x ∈ k.declaredInames ∧ Indexes insn x := by
  simp [assigneeInames, Indexes, Names.mem_ofList, mem_inames, and_comm]

end Accesses

section Writes

variable {place : Storage} {tag : Tag} {domain : IntegerSet}

theorem written_eq_ok : written insn = .ok name ↔ insn.assignee.assigneeName? = some name := by
  unfold written
  rcases insn.assignee.assigneeName? with _ | x <;> simp

theorem assigneeName?_eq_some {e : Expr} : e.assigneeName? = some name ↔
    e = .var name ∨ ∃ index, e = .subscript name index := by
  cases e <;> simp [Expr.assigneeName?]

theorem storage_eq_ok : storage k name = .ok place ↔
    place = .argument ∧ (k.argument? name).isSome ∧ k.temporary? name = none ∨
      ∃ t, place = .temporary t.scope ∧ k.argument? name = none ∧ k.temporary? name = some t := by
  unfold storage
  rcases k.argument? name with _ | a <;> rcases k.temporary? name with _ | t <;> simp [eq_comm]

def DeclaredOnce (k : Kernel) (name : String) : Prop :=
  Xor (k.isTemporary name = true) ((k.argument? name).isSome = true)

theorem exists_storage : (∃ place, storage k name = .ok place) ↔ DeclaredOnce k name := by
  unfold storage DeclaredOnce Kernel.isTemporary
  rcases k.argument? name with _ | a <;> rcases k.temporary? name with _ | t <;> simp

/-- Instances of the instruction that differ in a loop variable with the tag run at the same time
and share the element: work groups share no temporary of a group, work items none of their own. -/
def MayRace (k : Kernel) (name : String) (tag : Tag) : Prop :=
  tag.isParallel = true ∧ ∀ t, k.temporary? name = some t →
    (t.scope = .perGroup → tag.axisKind? ≠ some .group) ∧
      (t.scope = .perItem → tag.axisKind? = none)

theorem sharedAcross_iff (hplace : storage k name = .ok place)
    (hdecided : place ≠ .temporary .undecided) :
    sharedAcross tag place = true ↔ MayRace k name tag := by
  rcases storage_eq_ok.mp hplace with ⟨rfl, -, hnone⟩ | ⟨t, rfl, -, ht⟩
  · simp [sharedAcross, MayRace, hnone]
  · rcases hscope : t.scope with _ | _ | _
    · simp [sharedAcross, MayRace, ht, hscope]
    · simp [sharedAcross, MayRace, ht, hscope]
    · exact absurd (by rw [hscope]) hdecided

theorem insnWriteRace_eq_ok : insnWriteRace k insn = .ok () ↔
    (∀ x ∈ k.declaredInames, Indexes insn x → x ∈ insn.inames) ∧
      ∃ name place, insn.assignee.assigneeName? = some name ∧ storage k name = .ok place ∧
        place ≠ .temporary .undecided ∧
        ∀ x ∈ insn.inames, ∀ tag, k.tag? x = some tag → sharedAcross tag place = true →
          x ∈ k.declaredInames ∧ Indexes insn x := by
  have hstray : (strayInames k insn (assigneeInames k insn)).isEmpty = true ↔
      ∀ x ∈ k.declaredInames, Indexes insn x → x ∈ insn.inames := by
    simp only [strayInames_eq_nil, mem_assigneeInames]
    exact ⟨fun h x hx hix => h x ⟨hx, hix⟩ hx, fun h x hx _ => h x hx.1 hx.2⟩
  have hracing (place : Storage) : (racingInames k insn place).isEmpty = true ↔
        ∀ x ∈ insn.inames, ∀ tag, k.tag? x = some tag → sharedAcross tag place = true →
          x ∈ k.declaredInames ∧ Indexes insn x := by
    rw [List.isEmpty_iff, racingInames, List.filter_eq_nil_iff]
    refine forall₂_congr fun x _ => ?_
    rcases k.tag? x with _ | tag <;> simp [mem_assigneeInames]
  rw [insnWriteRace, ← hstray]
  dsimp only
  by_cases hempty : (strayInames k insn (assigneeInames k insn)).isEmpty = true
  · rw [if_neg (by simp [hempty])]
    simp only [hempty, true_and, bind_eq_ok, written_eq_ok, exists_and_left]
    refine exists_congr fun name => and_congr_right fun _ => ?_
    rcases storage k name with fault | place
    · simp
    · simp only [Except.ok.injEq, exists_eq_left']
      by_cases hundecided : place = .temporary .undecided
      · simp [hundecided]
      · rw [and_iff_right hundecided, ← hracing place]
        rcases place with _ | _ | _ | _
        · exact ite_eq_ok
        · exact ite_eq_ok
        · exact ite_eq_ok
        · exact absurd rfl hundecided
  · rw [if_pos (by simp [hempty])]
    simp [hempty]

theorem mem_params : name ∈ k.params ↔
    (∃ d ∈ k.domains, name ∈ d.space.params) ∧ name ∉ k.declaredInames := by
  simp [Kernel.params, Names.mem_ofList]

theorem intersect_space {s t u : IntegerSet} (h : s.intersect t = .ok u) :
    u.space = s.space.align t.space := by
  refine foldlM_invariant (I := fun u => u.space = s.space.align t.space) ?_ rfl h
  intro v p w _ hv hw
  have ⟨b, _, hadd⟩ := bind_eq_ok.mp hw
  unfold IntegerSet.addPiece at hadd
  split_ifs at hadd
  · cases hadd
    exact hv
  · have ⟨_, _, hpiece⟩ := bind_eq_ok.mp hadd
    cases hpiece
    exact hv

theorem params_domainFor {inames : List String} (h : k.domainFor inames = .ok domain)
    (hname : name ∈ domain.space.params) : ∃ d ∈ k.domains, name ∈ d.space.params := by
  revert hname
  refine foldlM_invariant (I := fun s : IntegerSet => name ∈ s.space.params →
    ∃ d ∈ k.domains, name ∈ d.space.params) ?_ (fun h => absurd h List.not_mem_nil) h
  intro s d t hd hs ht hname
  rw [intersect_space ht] at hname
  have halign : name ∈ s.space.params ∨ name ∈ d.space.params := by
    have hmem := Names.mem_extend.mp hname
    simp only [List.not_mem_nil, List.mem_filter, List.mem_append, false_or] at hmem
    exact hmem.1
  rcases halign with hparam | hparam
  · exact hs hparam
  · have ⟨i, _, hi⟩ := List.mem_filterMap.mp hd
    exact ⟨d, List.mem_of_getElem? hi, hparam⟩

theorem insnDestination_eq_ok (hdomain : k.domainFor insn.inames = .ok domain) :
    insnDestination k insn = .ok () ↔ ∃ name, insn.assignee.assigneeName? = some name ∧
      name ∉ k.declaredInames ∧ (name ∈ k.params → k.isTemporary name = true ∧
        name ∉ domain.space.params) ∧ DeclaredOnce k name := by
  rw [insnDestination, bind_eq_ok]
  simp only [written_eq_ok]
  refine exists_congr fun name => and_congr_right fun _ => ?_
  rw [← exists_storage]
  have hdeclared : k.inames.contains name = true ↔ name ∈ k.declaredInames := by
    rw [List.contains_iff_mem, mem_inames]
  have hparam : k.params.contains name = true ↔ name ∈ k.params := List.contains_iff_mem
  by_cases hiname : name ∈ k.declaredInames
  · rw [if_pos (hdeclared.mpr hiname)]
    simp [hiname]
  · rw [if_neg (mt hdeclared.mp hiname)]
    by_cases hmem : name ∈ k.params
    · rw [if_pos (hparam.mpr hmem)]
      by_cases htemp : k.isTemporary name = true
      · rw [if_neg (by simp [htemp]), algebra_bind_eq_ok]
        simp only [hdomain, Except.ok.injEq, exists_eq_left', List.contains_iff_mem]
        by_cases hown : name ∈ domain.space.params
        · rw [if_pos hown]
          simp [hmem, hown, bind, Except.bind]
        · rw [if_neg hown]
          rcases storage k name with fault | place <;> simp [hiname, htemp, hown]
      · rw [if_pos (by simp [htemp])]
        simp [hmem, htemp, bind, Except.bind]
    · rw [if_neg (mt hparam.mp hmem)]
      rcases storage k name with fault | place <;> simp [hiname, hmem]

structure MayWrite (k : Kernel) (insn : Instruction) (name : String) : Prop where
  target : insn.assignee = .var name ∨ ∃ index, insn.assignee = .subscript name index
  once : DeclaredOnce k name
  not_iname : name ∉ k.declaredInames
  param : ∀ d ∈ k.domains, name ∈ d.space.params → k.isTemporary name = true
  not_own : ∀ domain, k.domainFor insn.inames = .ok domain → name ∉ domain.space.params
  decided : ∀ t, k.temporary? name = some t → t.scope ≠ .undecided
  apart : ∀ x ∈ insn.inames, ∀ tag, k.tag? x = some tag → MayRace k name tag → Indexes insn x

theorem mayWrite_iff (hinames : ∀ x ∈ insn.inames, x ∈ k.declaredInames)
    (hdomain : k.domainFor insn.inames = .ok domain) :
    insnWriteRace k insn = .ok () ∧ insnDestination k insn = .ok () ↔
      (∀ x ∈ k.declaredInames, Indexes insn x → x ∈ insn.inames) ∧
        ∃ name, MayWrite k insn name := by
  rw [insnWriteRace_eq_ok, insnDestination_eq_ok hdomain, and_assoc]
  refine and_congr_right fun _ => ?_
  constructor
  · rintro ⟨⟨name, place, htarget, hplace, hdecided, hraces⟩,
      name', htarget', hiname, hparam, honce⟩
    obtain rfl : name = name' := Option.some.inj (htarget.symm.trans htarget')
    refine ⟨name, assigneeName?_eq_some.mp htarget, honce, hiname, fun d hd hmem => ?_,
      fun d hd hmem => ?_, fun t ht hscope => ?_, fun x hx tag htag hmay => ?_⟩
    · exact (hparam (mem_params.mpr ⟨⟨d, hd, hmem⟩, hiname⟩)).1
    · obtain rfl : domain = d := Except.ok.inj (hdomain.symm.trans hd)
      exact (hparam (mem_params.mpr ⟨params_domainFor hdomain hmem, hiname⟩)).2 hmem
    · rcases storage_eq_ok.mp hplace with ⟨-, -, hnone⟩ | ⟨t', rfl, -, ht'⟩
      · exact absurd (hnone.symm.trans ht) (by simp)
      · obtain rfl : t' = t := Option.some.inj (ht'.symm.trans ht)
        exact hdecided (by rw [hscope])
    · exact (hraces x hx tag htag ((sharedAcross_iff hplace hdecided).mpr hmay)).2
  · rintro ⟨name, h⟩
    have htarget := assigneeName?_eq_some.mpr h.target
    obtain ⟨place, hplace⟩ := exists_storage.mpr h.once
    have hdecided : place ≠ .temporary .undecided := by
      rcases storage_eq_ok.mp hplace with ⟨rfl, -, -⟩ | ⟨t, rfl, -, ht⟩
      · exact nofun
      · exact fun heq => h.decided t ht (Storage.temporary.inj heq)
    refine ⟨⟨name, place, htarget, hplace, hdecided, fun x hx tag htag hshared => ?_⟩,
      name, htarget, h.not_iname, fun hmem => ?_, h.once⟩
    · exact ⟨hinames x hx, h.apart x hx tag htag ((sharedAcross_iff hplace hdecided).mp hshared)⟩
    · obtain ⟨⟨d, hd, hparam⟩, -⟩ := mem_params.mp hmem
      exact ⟨h.param d hd hparam, h.not_own domain hdomain⟩

end Writes

section Suite

def ParallelBoundsFixed (k : Kernel) (domain : IntegerSet) : Prop :=
  (∃ x ∈ domain.space.dims, ∃ tag, k.tag? x = some tag ∧ tag.isParallel = true) →
    ∀ p ∈ domain.space.params, k.isTemporary p = false

theorem dataDependentBounds_eq_ok :
    dataDependentBounds k = .ok () ↔ ∀ d ∈ k.domains, ParallelBoundsFixed k d := by
  have hzip {P : IntegerSet → Prop} :
      (∀ p ∈ k.domains.zipIdx, P p.1) ↔ ∀ d ∈ k.domains, P d := by
    rw [← List.forall_mem_map (f := Prod.fst) (P := P), List.zipIdx_map_fst]
  rw [dataDependentBounds, forM_eq_ok, ← hzip]
  refine forall₂_congr fun ⟨d, index⟩ _ => ?_
  have hparallel : (Names.ofList (d.space.dims.filter fun x =>
      (k.tag? x).any Tag.isParallel)).isEmpty = true ↔
        ¬ ∃ x ∈ d.space.dims, ∃ tag, k.tag? x = some tag ∧ tag.isParallel = true := by
    rw [List.isEmpty_iff, List.eq_nil_iff_forall_not_mem]
    simp [Names.mem_ofList, Option.any_eq_false]
  dsimp only
  split_ifs with hempty
  · simp [ParallelBoundsFixed, hparallel.mp hempty]
  · have hsome := not_not.mp (mt hparallel.mpr hempty)
    rcases hfind : d.space.params.find? k.isTemporary with _ | p
    · simp only [true_iff]
      intro _ p hp
      simpa using List.find?_eq_none.mp hfind p hp
    · simp only [reduceCtorEq, false_iff]
      intro h
      have hfixed := h hsome p (List.mem_of_find?_eq_some hfind)
      exact Bool.false_ne_true (hfixed.symm.trans (List.find?_some hfind))

theorem declared_of_validateInstructions {declared seen : List String} {insns : List Instruction}
    (h : Kernel.validateInstructions declared seen insns = .ok ()) :
    ∀ i ∈ insns, ∀ x ∈ i.inames, x ∈ declared := by
  induction insns generalizing seen with
  | nil => exact nofun
  | cons i insns ih =>
    unfold Kernel.validateInstructions at h
    split_ifs at h
    split at h
    · cases h
    · next hnone =>
      refine List.forall_mem_cons.mpr ⟨fun x hx => ?_, ih h⟩
      simpa using List.find?_eq_none.mp hnone x hx

theorem inames_declared (hk : k.validate = .ok ()) (hinsn : insn ∈ k.instructions)
    (hx : x ∈ insn.inames) : x ∈ k.declaredInames := by
  unfold Kernel.validate at hk
  split at hk
  · cases hk
  · have ⟨_, hinsns, _⟩ := bind_eq_ok.mp hk
    exact declared_of_validateInstructions hinsns insn hinsn x hx

theorem domainFor_of_arrayBounds (h : arrayBounds k = .ok ()) (hinsn : insn ∈ k.instructions) :
    ∃ domain, k.domainFor insn.inames = .ok domain := by
  have hbounds := forM_eq_ok.mp h insn hinsn
  have ⟨domain, hdomain, _⟩ := algebra_bind_eq_ok.mp hbounds
  exact ⟨domain, hdomain⟩

structure Admissible (k : Kernel) : Prop where
  covers : ∀ insn ∈ k.instructions, insn.boostable = false → CoversGrid k insn
  apart : ∀ insn ∈ k.instructions, AxesApart k insn
  active : ∀ insn ∈ k.instructions, ReadsActive k insn
  writes : ∀ insn ∈ k.instructions, ∃ name, MayWrite k insn name
  fixed : ∀ d ∈ k.domains, ParallelBoundsFixed k d

theorem run_eq_ok : run k = .ok () ↔ axisCoverage k = .ok () ∧ axisConflicts k = .ok () ∧
    inactiveReads k = .ok () ∧ writeRaces k = .ok () ∧ dataDependentBounds k = .ok () ∧
    arrayBounds k = .ok () ∧ writeDestinations k = .ok () := by
  rw [run, forM_eq_ok]
  simp [suite]

/-- The suite passes exactly those kernels whose subscripts stay within bounds and that are
admissible. -/
theorem run_ok_iff_admissible (hk : k.validate = .ok ()) :
    run k = .ok () ↔ arrayBounds k = .ok () ∧ Admissible k := by
  have hwrites (hbounds : arrayBounds k = .ok ()) : writeRaces k = .ok () ∧
      writeDestinations k = .ok () ↔ ∀ insn ∈ k.instructions,
        (∀ x ∈ k.declaredInames, Indexes insn x → x ∈ insn.inames) ∧
        ∃ name, MayWrite k insn name := by
    rw [writeRaces, writeDestinations, forM_eq_ok, forM_eq_ok, ← forall₂_and]
    refine forall₂_congr fun insn hinsn => ?_
    have ⟨domain, hdomain⟩ := domainFor_of_arrayBounds hbounds hinsn
    exact mayWrite_iff (fun x hx => inames_declared hk hinsn hx) hdomain
  rw [run_eq_ok, axisCoverage_eq_ok, axisConflicts_eq_ok, inactiveReads_eq_ok,
    dataDependentBounds_eq_ok]
  constructor
  · rintro ⟨hcovers, hapart, hreads, hraces, hfixed, hbounds, hdestinations⟩
    have hwrite := (hwrites hbounds).mp ⟨hraces, hdestinations⟩
    refine ⟨hbounds, hcovers, hapart, fun insn hinsn x hx hread => ?_,
      fun insn hinsn => (hwrite insn hinsn).2, hfixed⟩
    rcases hread with hread | hindex
    · exact hreads insn hinsn x hread hx
    · exact (hwrite insn hinsn).1 x hx hindex
  · rintro ⟨hbounds, h⟩
    have hwrite := (hwrites hbounds).mpr fun insn hinsn =>
      ⟨fun x hx hindex => h.active insn hinsn x hx (.inr hindex), h.writes insn hinsn⟩
    exact ⟨h.covers, h.apart, fun insn hinsn x hread hx => h.active insn hinsn x hx (.inl hread),
      hwrite.1, h.fixed, hbounds, hwrite.2⟩

def tile : IntegerSet :=
  let space : Space := ⟨["n"], ["i", "j"]⟩
  ⟨space, [⟨space, [.ge ⟨[("i", 1)], 0⟩, .ge ⟨[("i", -1), ("n", 1)], -1⟩, .ge ⟨[("j", 1)], 0⟩,
    .ge ⟨[("j", -1)], 15⟩], false⟩]⟩

theorem tile_sorted : tile.space.dims.Pairwise (· < ·) := by decide

/-- The statements `t[j] = b[i, j]` and `a[i, j] = t[j]`, for work groups `i` of work items `j`. -/
def staged (scope : Scope) : Kernel :=
  { Kernel.blank with
    domains := [tile]
    instructions :=
      [⟨"load", .subscript "t" [.var "j"], .subscript "b" [.var "i", .var "j"], ["i", "j"], false,
          tile_sorted⟩,
        ⟨"store", .subscript "a" [.var "i", .var "j"], .subscript "t" [.var "j"], ["i", "j"], false,
          tile_sorted⟩]
    tags := [("i", .groupAxis 0), ("j", .localAxis 0)]
    temporaries := [⟨"t", [.int 16], .float32, scope⟩]
    args := [⟨"a", some [.var "n", .int 16], .float32, .global⟩,
      ⟨"b", some [.var "n", .int 16], .float32, .global⟩]
    grid := ⟨[.var "n"], [.int 16]⟩ }

theorem staged_axisCoverage (scope : Scope) : axisCoverage (staged scope) = .ok () := by
  refine axisCoverage_eq_ok.mpr fun insn hinsn _ => ?_
  have hinames : insn.inames = ["i", "j"] := by
    rcases List.mem_pair.mp hinsn with rfl | rfl <;> rfl
  have hi : (staged scope).tag? "i" = some (.groupAxis 0) := rfl
  have hj : (staged scope).tag? "j" = some (.localAxis 0) := rfl
  have hgroup : (staged scope).grid.group.length = 1 := rfl
  have hitem : (staged scope).grid.item.length = 1 := rfl
  constructor <;> simp [hinames, hi, hj, hgroup, hitem, eq_comm]

theorem staged_run :
    (run (staged .perGroup) = .ok () ∧ Admissible (staged .perGroup)) ∧
      writeRaces (staged .undecided) = .error (.undecidedScope "load" "t") ∧
        arrayBounds (staged .undecided) = .ok () ∧ ¬ Admissible (staged .undecided) := by
  have hpass : run (staged .perGroup) = .ok () :=
    run_eq_ok.mpr ⟨staged_axisCoverage .perGroup, rfl, rfl, rfl, rfl, rfl, rfl⟩
  have hraces : writeRaces (staged .undecided) = .error (.undecidedScope "load" "t") := rfl
  have hbounds : arrayBounds (staged .undecided) = .ok () := rfl
  have hiff (scope : Scope) := run_ok_iff_admissible (k := staged scope) rfl
  refine ⟨⟨hpass, ((hiff _).mp hpass).2⟩, hraces, hbounds, fun h => ?_⟩
  have hrun := run_eq_ok.mp ((hiff _).mpr ⟨hbounds, h⟩)
  exact absurd (hraces.symm.trans hrun.2.2.2.1) (by simp)

end Suite

end Check

end LoopAudit
