import LoopAudit.Proofs.Bounds

/-! The domain of a group of loop variables. It is the intersection of the domains that declare them
and of those these depend on, over any number of steps and also where domains depend on each other
in a circle: what has left the worklist has its parents on it or behind it, and the worklist comes
to its end. -/

namespace LoopAudit.Kernel

variable {k : Kernel} {inames : List String} {n m : Nat} {x : String}
  {d domain : IntegerSet}

/-- The least family of domains that has each domain which declares one of the loop variables and,
with each member, every domain that declares one of its parameters. -/
inductive DependsOn (k : Kernel) (inames : List String) : IntegerSet → Prop
  | home {x : String} {d : IntegerSet} :
      x ∈ inames → d ∈ k.domains → x ∈ d.space.dims → DependsOn k inames d
  | parent {x : String} {d e : IntegerSet} : DependsOn k inames d → x ∈ d.space.params →
      e ∈ k.domains → x ∈ e.space.dims → DependsOn k inames e

theorem declaredInames_nodup (hk : k.validate = .ok ()) : k.declaredInames.Nodup := by
  unfold validate at hk
  split at hk
  · cases hk
  · next hnone => exact (Names.nodup_of_firstRepeated? hnone).1

section Home

theorem lt_of_homeIndex? (h : k.homeIndex? x = some n) : n < k.domains.length :=
  (List.findIdx?_eq_some_iff_getElem.mp h).1

theorem mem_dims_of_homeIndex? (h : k.homeIndex? x = some n) (hd : k.domains[n]? = some d) :
    x ∈ d.space.dims := by
  obtain ⟨hlt, hx, -⟩ := List.findIdx?_eq_some_iff_getElem.mp h
  obtain rfl := Option.some.inj ((List.getElem?_eq_getElem hlt).symm.trans hd)
  exact List.contains_iff_mem.mp hx

theorem homeIndex?_eq (hk : k.declaredInames.Nodup) (hd : k.domains[n]? = some d)
    (hx : x ∈ d.space.dims) : k.homeIndex? x = some n := by
  obtain ⟨hlt, rfl⟩ := List.getElem?_eq_some_iff.mp hd
  have hdisjoint := List.pairwise_iff_getElem.mp (List.nodup_flatMap.mp hk).2
  refine List.findIdx?_eq_some_iff_getElem.mpr ⟨hlt, List.contains_iff_mem.mpr hx, ?_⟩
  intro j hj hmem
  exact hdisjoint j n (hj.trans hlt) hlt hj (List.contains_iff_mem.mp hmem) hx

end Home

section Worklist

inductive Reached (k : Kernel) (inames : List String) : Nat → Prop
  | home {x : String} {n : Nat} : x ∈ inames → k.homeIndex? x = some n → Reached k inames n
  | parent {m n : Nat} : Reached k inames m → n ∈ k.parents m → Reached k inames n

theorem mem_parents : m ∈ k.parents n ↔
    ∃ d, k.domains[n]? = some d ∧ ∃ x ∈ d.space.params, k.homeIndex? x = some m := by
  rw [parents, List.mem_filterMap]
  cases k.domains[n]? <;> simp

theorem Reached.lt (h : k.Reached inames n) : n < k.domains.length := by
  cases h with
  | home _ hx => exact lt_of_homeIndex? hx
  | parent _ hn =>
    obtain ⟨d, -, x, -, hx⟩ := mem_parents.mp hn
    exact lt_of_homeIndex? hx

namespace Worklist

variable {w : Worklist} {i turns : Nat}

theorem note_spec (w : Worklist) (i : Nat) :
    (∀ n, n ∈ (w.note i).wanted ↔ n ∈ w.wanted ∨ n = i) ∧
    (∀ n, n ∈ (w.note i).queue ↔ n ∈ w.queue ∨ n = i ∧ n ∉ w.wanted) ∧
    (w.wanted.Nodup → (w.note i).wanted.Nodup) ∧
    (w.note i).queue.length + w.wanted.length = w.queue.length + (w.note i).wanted.length := by
  unfold note
  split_ifs with hi <;> rw [List.contains_iff_mem] at hi <;> grind

theorem foldl_note_spec (w : Worklist) (js : List Nat) :
    (∀ n, n ∈ (js.foldl note w).wanted ↔ n ∈ w.wanted ∨ n ∈ js) ∧
    (∀ n, n ∈ (js.foldl note w).queue ↔ n ∈ w.queue ∨ n ∈ js ∧ n ∉ w.wanted) ∧
    (w.wanted.Nodup → (js.foldl note w).wanted.Nodup) ∧
    (js.foldl note w).queue.length + w.wanted.length =
      w.queue.length + (js.foldl note w).wanted.length := by
  induction js generalizing w with
  | nil => simp
  | cons j js ih =>
    obtain ⟨hwanted, hqueue, hnodup, hlength⟩ := note_spec w j
    obtain ⟨hwanted', hqueue', hnodup', hlength'⟩ := ih (w.note j)
    rw [List.foldl_cons]
    refine ⟨fun n => ?_, fun n => ?_, fun h => hnodup' (hnodup h), by omega⟩
    · rw [hwanted', hwanted, or_assoc, List.mem_cons]
    · rw [hqueue', hqueue, hwanted, List.mem_cons]
      tauto

/-- Everything found is reached, and what has left the queue has its parents among what is found. -/
structure Sound (k : Kernel) (inames : List String) (w : Worklist) : Prop where
  nodup : w.wanted.Nodup
  reached : ∀ n ∈ w.wanted, k.Reached inames n
  homes : ∀ x ∈ inames, ∀ n, k.homeIndex? x = some n → n ∈ w.wanted
  within : ∀ n ∈ w.queue, n ∈ w.wanted
  closed : ∀ n ∈ w.wanted, n ∈ w.queue ∨ ∀ m ∈ k.parents n, m ∈ w.wanted

theorem Sound.turn {queue : List Nat} (h : w.Sound k inames) (hqueue : w.queue = i :: queue) :
    ((k.parents i).foldl note ⟨w.wanted, queue⟩).Sound k inames := by
  obtain ⟨hwanted, hrest, hnodup, -⟩ := foldl_note_spec ⟨w.wanted, queue⟩ (k.parents i)
  have hi : k.Reached inames i := h.reached i (h.within i (by simp [hqueue]))
  refine ⟨hnodup h.nodup, fun n hn => ?_, fun x hx n hn => ?_, fun n hn => ?_, fun n hn => ?_⟩
  · rcases (hwanted n).mp hn with hn | hn
    · exact h.reached n hn
    · exact .parent hi hn
  · exact (hwanted n).mpr (.inl (h.homes x hx n hn))
  · rcases (hrest n).mp hn with hn | ⟨hn, -⟩
    · exact (hwanted n).mpr (.inl (h.within n (by simp [hqueue, hn])))
    · exact (hwanted n).mpr (.inr hn)
  · -- A domain that is new waits in the queue, and the one that was taken has its parents noted.
    by_cases hold : n ∈ w.wanted
    · rcases h.closed n hold with hn | hclosed
      · rw [hqueue, List.mem_cons] at hn
        rcases hn with rfl | hn
        · exact .inr fun m hm => (hwanted m).mpr (.inr hm)
        · exact .inl ((hrest n).mpr (.inl hn))
      · exact .inr fun m hm => (hwanted m).mpr (.inl (hclosed m hm))
    · exact .inl ((hrest n).mpr (.inr ⟨((hwanted n).mp hn).resolve_left hold, hold⟩))

theorem Sound.length_le (h : w.Sound k inames) : w.wanted.length ≤ k.domains.length := by
  have hsub : w.wanted ⊆ List.range k.domains.length :=
    fun n hn => List.mem_range.mpr (h.reached n hn).lt
  exact (h.nodup.subperm hsub).length_le.trans List.length_range.le

theorem Sound.run (h : w.Sound k inames)
    (hturns : w.queue.length + k.domains.length ≤ turns + w.wanted.length) :
    (run k turns w).Sound k inames ∧ (run k turns w).queue = [] := by
  induction turns generalizing w with
  | zero =>
    -- All that is found are domains, so the bound leaves nothing in the queue.
    have hle := h.length_le
    have hqueue : w.queue.length = 0 := by omega
    exact ⟨h, List.length_eq_zero_iff.mp hqueue⟩
  | succ turns ih =>
    unfold Worklist.run
    split
    · next hqueue => exact ⟨h, hqueue⟩
    · next i queue hqueue =>
      obtain ⟨-, -, -, hlength⟩ := foldl_note_spec ⟨w.wanted, queue⟩ (k.parents i)
      rw [hqueue, List.length_cons] at hturns
      exact ih (h.turn hqueue) (by simp only at hlength; omega)

end Worklist

theorem mem_wantedDomains_iff : n ∈ k.wantedDomains inames ↔ k.Reached inames n := by
  have hdirect (n : Nat) : n ∈ ((List.range k.domains.length).filter
      (inames.filterMap k.homeIndex?).contains).reverse ↔
        ∃ x ∈ inames, k.homeIndex? x = some n := by
    rw [List.mem_reverse, List.mem_filter, List.mem_range, List.contains_iff_mem,
      List.mem_filterMap]
    refine and_iff_right_of_imp ?_
    rintro ⟨x, -, hx⟩
    exact lt_of_homeIndex? hx
  have hstart : Worklist.Sound k inames ⟨_, _⟩ :=
    { nodup := List.nodup_reverse.mpr (List.nodup_range.filter _)
      reached := fun n hn => by
        obtain ⟨x, hx, hhome⟩ := (hdirect n).mp hn
        exact .home hx hhome
      homes := fun x hx n hn => (hdirect n).mpr ⟨x, hx, hn⟩
      within := fun _ => id
      closed := fun _ => .inl }
  obtain ⟨hsound, hqueue⟩ := hstart.run (Nat.add_comm _ k.domains.length).le
  rw [wantedDomains, List.mem_filter, List.mem_range, List.contains_iff_mem]
  constructor
  · exact fun h => hsound.reached n h.2
  · intro h
    refine ⟨h.lt, ?_⟩
    induction h with
    | home hx hn => exact hsound.homes _ hx _ hn
    | parent _ hn ih =>
      refine (hsound.closed _ ih).resolve_left ?_ _ hn
      rw [hqueue]
      exact List.not_mem_nil

end Worklist

section Closure

theorem Reached.dependsOn (hn : k.Reached inames n) (hd : k.domains[n]? = some d) :
    k.DependsOn inames d := by
  induction hn generalizing d with
  | home hx hhome => exact .home hx (List.mem_of_getElem? hd) (mem_dims_of_homeIndex? hhome hd)
  | parent _ hn ih =>
    obtain ⟨e, he, x, hx, hhome⟩ := mem_parents.mp hn
    exact .parent (ih he) hx (List.mem_of_getElem? hd) (mem_dims_of_homeIndex? hhome hd)

theorem DependsOn.reached (hk : k.declaredInames.Nodup) (h : k.DependsOn inames d) :
    ∃ n, k.Reached inames n ∧ k.domains[n]? = some d := by
  induction h with
  | home hx hd hdim =>
    obtain ⟨n, hn⟩ := List.mem_iff_getElem?.mp hd
    exact ⟨n, .home hx (homeIndex?_eq hk hn hdim), hn⟩
  | parent _ hx he hdim ih =>
    obtain ⟨n, hn, hd⟩ := ih
    obtain ⟨m, hm⟩ := List.mem_iff_getElem?.mp he
    exact ⟨m, .parent hn (mem_parents.mpr ⟨_, hd, _, hx, homeIndex?_eq hk hm hdim⟩), hm⟩

theorem mem_wantedDomains (hk : k.declaredInames.Nodup) :
    d ∈ (k.wantedDomains inames).filterMap (fun n => k.domains[n]?) ↔ k.DependsOn inames d := by
  simp only [List.mem_filterMap, mem_wantedDomains_iff]
  constructor
  · rintro ⟨n, hn, hd⟩
    exact hn.dependsOn hd
  · exact DependsOn.reached hk

theorem DependsOn.mem_domains (h : k.DependsOn inames d) : d ∈ k.domains := by
  cases h with
  | home _ hd _ => exact hd
  | parent _ _ hd _ => exact hd

theorem domainFor_spec (hk : k.declaredInames.Nodup) (hdomains : ∀ d ∈ k.domains, d.WellFormed)
    (h : k.domainFor inames = .ok domain) :
    domain.WellFormed ∧
      (∀ x, x ∈ domain.space.dims ↔ ∃ d, k.DependsOn inames d ∧ x ∈ d.space.dims) ∧
      (∀ x, x ∈ domain.space.names ↔ ∃ d, k.DependsOn inames d ∧ x ∈ d.space.names) ∧
      ∀ ρ, domain.Mem ρ ↔ ∀ d, k.DependsOn inames d → d.Mem ρ := by
  have hempty : Space.empty.Distinct := List.nodup_nil
  obtain ⟨hwf, hdims, hnames, hmem⟩ := IntegerSet.intersectAll_spec (.univ hempty)
    (fun d hd => hdomains d ((mem_wantedDomains hk).mp hd).mem_domains) h
  simp only [mem_wantedDomains hk] at hdims hnames hmem
  exact ⟨hwf, fun x => (hdims x).trans (or_iff_right List.not_mem_nil),
    fun x => (hnames x).trans (or_iff_right List.not_mem_nil),
    fun ρ => (hmem ρ).trans (and_iff_right IntegerSet.mem_univ)⟩

theorem DependsOn.param_iff (h : k.DependsOn inames d) (hx : x ∈ d.space.params) :
    (∃ e, k.DependsOn inames e ∧ x ∈ e.space.dims) ↔ x ∈ k.inames := by
  have hinames : x ∈ k.inames ↔ ∃ e ∈ k.domains, x ∈ e.space.dims :=
    Names.mem_ofList.trans List.mem_flatMap
  rw [hinames]
  constructor
  · rintro ⟨e, he, hdim⟩
    exact ⟨e, he.mem_domains, hdim⟩
  · rintro ⟨e, he, hdim⟩
    exact ⟨e, .parent h hx he hdim, hdim⟩

/-- The domain of a group of loop variables has the points that all domains it depends on share. Its
dimensions are theirs, each once, and of their parameters it keeps those that no domain declares. -/
theorem domainFor_exact (hk : k.validate = .ok ()) (hdomains : ∀ d ∈ k.domains, d.Built)
    (h : k.domainFor inames = .ok domain) :
    (∀ ρ, domain.Mem ρ ↔ ∀ d, k.DependsOn inames d → d.Mem ρ) ∧
      domain.space.dims.Nodup ∧
      (∀ x, x ∈ domain.space.dims ↔ ∃ d, k.DependsOn inames d ∧ x ∈ d.space.dims) ∧
      domain.space.params.Nodup ∧
      ∀ x, x ∈ domain.space.params ↔
        (∃ d, k.DependsOn inames d ∧ x ∈ d.space.params) ∧ x ∉ k.inames := by
  obtain ⟨hwf, hdims, hnames, hmem⟩ := domainFor_spec (declaredInames_nodup hk)
    (fun d hd => (hdomains d hd).wellFormed) h
  obtain ⟨hparamsNodup, hdimsNodup, hdisjoint⟩ := Space.distinct_iff.mp hwf.distinct
  refine ⟨hmem, hdimsNodup, hdims, hparamsNodup, fun x => ?_⟩
  constructor
  · intro hx
    have hnot : ¬ ∃ e, k.DependsOn inames e ∧ x ∈ e.space.dims :=
      mt (hdims x).mpr (hdisjoint x hx)
    obtain ⟨d, hd, hxd⟩ := (hnames x).mp (List.mem_append_left _ hx)
    have hparam : x ∈ d.space.params :=
      (List.mem_append.mp hxd).resolve_right fun hdim => hnot ⟨d, hd, hdim⟩
    exact ⟨⟨d, hd, hparam⟩, mt (hd.param_iff hparam).mpr hnot⟩
  · rintro ⟨⟨d, hd, hparam⟩, hx⟩
    have hname := (hnames x).mpr ⟨d, hd, List.mem_append_left _ hparam⟩
    refine (List.mem_append.mp hname).resolve_right fun hdim => hx ?_
    exact (hd.param_iff hparam).mp ((hdims x).mp hdim)

def entangled : Kernel :=
  { blank with
    domains :=
      [⟨⟨["j"], ["i"]⟩, [⟨⟨["j"], ["i"]⟩,
          [.ge ⟨[("i", 1)], 0⟩, .ge ⟨[("i", -1), ("j", 1)], 0⟩], false⟩]⟩,
        ⟨⟨["i", "n"], ["j"]⟩, [⟨⟨["i", "n"], ["j"]⟩,
          [.ge ⟨[("i", -1), ("j", 1)], 0⟩, .ge ⟨[("j", -1), ("n", 1)], -1⟩], false⟩]⟩,
        ⟨⟨["m"], ["k"]⟩, [⟨⟨["m"], ["k"]⟩,
          [.ge ⟨[("k", 1)], 0⟩, .ge ⟨[("k", -1), ("m", 1)], -1⟩], false⟩]⟩] }

theorem entangled_built : ∀ d ∈ entangled.domains, d.Built := by
  simp only [entangled, List.forall_mem_cons]
  exact ⟨.remade (by decide) (by decide) rfl, .remade (by decide) (by decide) rfl,
    .remade (by decide) (by decide) rfl, fun _ hd => absurd hd List.not_mem_nil⟩

theorem entangled_domainFor :
    ∃ domain, entangled.validate = .ok () ∧ entangled.domainFor ["i", "x"] = .ok domain ∧
      domain.space = ⟨["n"], ["i", "j"]⟩ ∧
      (∀ ρ, domain.Mem ρ ↔ ∀ d, entangled.DependsOn ["i", "x"] d → d.Mem ρ) ∧
      (∃ d, entangled.DependsOn ["i", "x"] d ∧ "j" ∈ d.space.dims) ∧
      ∀ d, entangled.DependsOn ["i", "x"] d → "k" ∉ d.space.dims := by
  have hk : entangled.validate = .ok () := rfl
  obtain ⟨domain, h, hspace⟩ : ∃ domain, entangled.domainFor ["i", "x"] = .ok domain ∧
      domain.space = ⟨["n"], ["i", "j"]⟩ := ⟨_, rfl, rfl⟩
  obtain ⟨hmem, -, hdims, -, -⟩ := domainFor_exact hk entangled_built h
  rw [hspace] at hdims
  refine ⟨domain, hk, h, hspace, hmem, (hdims "j").mp (by decide), fun d hd hdim => ?_⟩
  exact absurd ((hdims "k").mpr ⟨d, hd, hdim⟩) (by decide)

end Closure

end LoopAudit.Kernel
