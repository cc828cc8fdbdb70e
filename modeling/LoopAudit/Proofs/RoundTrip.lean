import LoopAudit.Proofs.Representation
import LoopAudit.Proofs.Rereading

/-! The text of a set reads back as the same set: the same names in order and the same pieces with
the same constraints in order. What the reader adds to a congruence is trivial, and normal
constraints that are not parallel are kept as they are. -/

namespace LoopAudit

open Fallible

namespace Constraint

variable {V : String → Prop} {c : Constraint} {m k : Int}

theorem normalize_ge_const (hk : 0 ≤ k) : (ge (.const k)).normalize = .ok .trivial := by
  rw [normalize_of_isConstant rfl]
  exact congrArg _ (if_pos (decide_eq_true hk))

theorem normalize_residue (hc : c.IsNormal V) (hm : c.relation = .mod m) (hfits : Word.Fits m) :
    normalize ⟨.mod m, ⟨c.form.terms, -residue c.form m⟩⟩ = .ok (.proper c) := by
  obtain ⟨-, -, hcancel⟩ := residue_spec hc hm hfits
  obtain ⟨-, hnonneg, hlt⟩ := hc.mod_range hm
  have hfixed := hc.fixed
  have hne := hc.terms_ne_nil
  obtain ⟨relation, e⟩ := c
  subst hm
  -- The constant enters a normal form only through its residue.
  have hsame : -residue e m % m = e.constant % m := by
    rw [hcancel, Int.emod_eq_of_lt hnonneg hlt]
  have hmod : normalizeMod ⟨e.terms, -residue e m⟩ m = normalizeMod e m := by
    simp only [normalizeMod, hsame]
  have hnormalize : normalize ⟨.mod m, ⟨e.terms, -residue e m⟩⟩ =
      normalizeMod ⟨e.terms, -residue e m⟩ m := normalize_mod_of_terms_ne_nil hne
  rw [normalize_mod_of_terms_ne_nil hne] at hfixed
  exact hnormalize.trans (hmod.trans hfixed)

end Constraint

namespace Conjunction

open IntegerSet.Reader (restated)

variable {space : Space} {b : Conjunction} {c : Constraint} {s kept : System}

theorem merge_append (h : ∀ d ∈ s, ¬ d.parallel c = true) : s.merge c = some (s ++ [c]) := by
  induction s with
  | nil => rfl
  | cons d s ih =>
    obtain ⟨hd, hs⟩ := List.forall_mem_cons.mp h
    rw [System.merge_of_not_parallel hd, ih hs]
    rfl

theorem addConstraint_of_insert {t : System} (h : ∀ x ∈ c.form.vars, x ∈ space.names)
    (ht : kept.insert c = .ok (some t)) :
    addConstraint ⟨space, kept, false⟩ c = .ok ⟨space, t, false⟩ :=
  addConstraint_eq_ok.mpr ⟨h, .inr ⟨rfl, .inr ⟨t, ht, rfl⟩⟩⟩

theorem addConstraints_restated (hc : c.IsNormal (· ∈ space.names)) (hm : c.Moderate)
    (hapart : ∀ d ∈ kept, ¬ d.parallel c = true) :
    addConstraints ⟨space, kept, false⟩ (restated c) = .ok ⟨space, kept ++ [c], false⟩ := by
  have hinsert {d : Constraint} (hd : d.normalize = .ok (.proper c)) :
      kept.insert d = .ok (some (kept ++ [c])) := by
    rw [System.insert, hd, ← merge_append hapart]
    rfl
  have hproper (hr : restated c = [c]) :
      addConstraints ⟨space, kept, false⟩ (restated c) = .ok ⟨space, kept ++ [c], false⟩ := by
    rw [hr, addConstraints, List.foldlM_cons,
      addConstraint_of_insert hc.form.within (hinsert hc.fixed)]
    rfl
  cases hr : c.relation with
  | eq => exact hproper (by simp [restated, hr])
  | ge => exact hproper (by simp [restated, hr])
  | mod m =>
    have hfits := hm.modulus m hr
    obtain ⟨hnonneg, hlt, -⟩ := Constraint.residue_spec hc hr hfits
    -- The range of the residue is true of its constants and adds nothing.
    have htrivial {k : Int} (hk : 0 ≤ k) (system : System) :
        addConstraint ⟨space, system, false⟩ (.ge (.const k)) = .ok ⟨space, system, false⟩ := by
      refine addConstraint_of_insert (fun _ hx => absurd hx List.not_mem_nil) ?_
      rw [System.insert, Constraint.normalize_ge_const hk]
      rfl
    have hfirst : addConstraint ⟨space, kept, false⟩
          ⟨.mod m, ⟨c.form.terms, -Constraint.residue c.form m⟩⟩ =
        .ok ⟨space, kept ++ [c], false⟩ :=
      addConstraint_of_insert hc.form.within (hinsert (Constraint.normalize_residue hc hr hfits))
    have hbelow : 0 ≤ m - Constraint.residue c.form m - 1 := by omega
    simp only [restated, hr, addConstraints, List.foldlM_cons, List.foldlM_nil, hfirst,
      htrivial hnonneg, htrivial hbelow, bind, Except.bind, pure, Except.pure]

theorem ofConstraints_restated (hs : s.WellFormed (· ∈ space.names)) (hm : ∀ c ∈ s, c.Moderate) :
    ofConstraints space (s.flatMap restated) = .ok ⟨space, s, false⟩ := by
  -- The induction goes along a split of the system into what is kept already and what is to come.
  suffices h : ∀ kept rest : System, kept ++ rest = s →
      addConstraints ⟨space, kept, false⟩ (rest.flatMap restated) = .ok ⟨space, s, false⟩ from
    h [] s rfl
  intro kept rest hsplit
  induction rest generalizing kept with
  | nil =>
    obtain rfl : kept = s := by simpa using hsplit
    rfl
  | cons c rest ih =>
    have hmem : c ∈ s := by simp [← hsplit]
    have hapart : ∀ d ∈ kept, ¬ d.parallel c = true := by
      have hpairs := hs.apart
      rw [← hsplit, List.pairwise_append] at hpairs
      exact fun d hd => hpairs.2.2 d hd c (List.mem_cons_self ..)
    have hone := addConstraints_restated (hs.normal c hmem) (hm c hmem) hapart
    rw [addConstraints] at hone ⊢
    rw [List.flatMap_cons, List.foldlM_append, hone]
    exact ih (kept ++ [c]) (by simpa using hsplit)

end Conjunction

namespace IntegerSet.Reader

open Reading

variable {space : Space} {s : IntegerSet} {b : Conjunction} {c : Constraint} {ts rest : List Token}

theorem tokens_head (c : Constraint) :
    ∃ kind kinds, c.tokens = kind :: kinds ∧ kind ∉ [.kwFalse, .kwTrue] := by
  have hform (e : Affine) (kinds : List TokenKind) :
      ∃ kind kinds', e.tokens ++ kinds = kind :: kinds' ∧ kind ∉ [.kwFalse, .kwTrue] := by
    obtain ⟨_ | ⟨t, ts⟩, k⟩ := e
    · exact ⟨_, _, rfl, by simp⟩
    · simp only [Affine.tokens, Affine.termTokens]
      split_ifs
      · exact ⟨_, _, rfl, by simp⟩
      · exact ⟨_, _, rfl, by simp⟩
  obtain ⟨_ | _ | m, e⟩ := c
  · exact hform e.positivePart _
  · exact hform e.positivePart _
  · simp only [Constraint.tokens, Constraint.shownTokens]
    split
    · exact ⟨_, _, rfl, by simp⟩
    · exact ⟨_, _, rfl, by simp⟩

theorem conjunct_reads (hc : c.IsNormal (· ∈ space.names)) (hm : c.Moderate) :
    Reads (conjunct space) c.tokens stops (some (restated c)) := by
  intro ts rest hts hrest
  have hchain := chain_reads hc hm ts rest hts hrest
  have hfollows : ∀ kind ∈ [.kwFalse, .kwTrue], eat? kind (ts ++ rest) = none := by
    intro kind hkind
    obtain ⟨first, kinds, htokens, hfirst⟩ := tokens_head c
    obtain ⟨t, us, rfl, ht, -⟩ := List.map_eq_cons_iff.mp (hts.trans htokens)
    exact if_neg fun heq : t.kind = kind => hfirst (ht ▸ heq ▸ hkind)
  simp only [conjunct, hfollows .kwFalse (by simp), hfollows .kwTrue (by simp), hchain, bind,
    Except.bind]

theorem conjunct_word {kind : TokenKind} {o : Option (List Constraint)}
    (h : ∀ span rest, conjunct space (⟨kind, span⟩ :: rest) = .ok (o, rest)) :
    Reads (conjunct space) [kind] stops o := by
  intro ts rest hts _
  obtain ⟨span, rfl⟩ := eq_singleton_of_kinds hts
  exact h span rest

def found (b : Conjunction) : Option (List Constraint) := some (b.constraints.flatMap restated)

theorem conjunction_reads (hb : ∀ c ∈ b.constraints, c.IsNormal (· ∈ space.names))
    (hm : ∀ c ∈ b.constraints, c.Moderate) :
    Reads (conjunction space) (pieceTokens b) [.kwOr, .rbrace] (found b) := by
  unfold pieceTokens found
  cases hcs : b.constraints with
  | nil =>
    exact Reads.single (by decide) (conjunct_word fun _ _ => by simp [conjunct, eat?])
  | cons c cs =>
    rw [hcs] at hb hm
    have hfold (cs : List Constraint) (ds : List Constraint) :
        cs.foldl (fun found c => both found (some (restated c))) (some ds) =
          some (ds ++ cs.flatMap restated) := by
      induction cs generalizing ds with
      | nil => simp
      | cons c cs ih =>
        change cs.foldl _ (some (ds ++ restated c)) = _
        rw [ih, List.flatMap_cons, List.append_assoc]
    rw [List.flatMap_cons, ← hfold]
    exact Reads.list (by decide) fun c hc => conjunct_reads (hb c hc) (hm c hc)

theorem disjunction_reads {bs : List Conjunction}
    (hbs : ∀ p ∈ b :: bs, ∀ c ∈ p.constraints, c.IsNormal (· ∈ space.names))
    (hm : ∀ p ∈ b :: bs, ∀ c ∈ p.constraints, c.Moderate) :
    Reads (disjunction space) (Token.joined .kwOr ((b :: bs).map pieceTokens)) [.rbrace]
      ((b :: bs).map found) :=
  Reads.collect (by decide) fun p hp => conjunction_reads (hbs p hp) (hm p hp)

theorem disjunction_false : Reads (disjunction space) [.kwFalse] [.rbrace] [none] := by
  have hword : Reads (conjunct space) [.kwFalse] stops none :=
    conjunct_word fun _ _ => by simp [conjunct, eat?]
  have hconjunction : Reads (conjunction space) [.kwFalse] [.kwOr, .rbrace] none :=
    Reads.single (by decide) hword
  unfold disjunction collect
  exact Reads.single (by decide) hconjunction

theorem nameList_reads {names : List String} (hne : names ≠ [])
    (hts : ts.map Token.kind = nameListTokens names) (rest : List Token) :
    ∃ span, nameList (ts ++ rest) = .ok ((names, span), rest) := by
  obtain ⟨x, names, rfl⟩ := List.exists_cons_of_ne_nil hne
  obtain ⟨⟨_, span⟩, ts', rfl, rfl, hts'⟩ := List.map_eq_cons_iff.mp hts
  obtain ⟨us, vs, rfl, hus, hvs⟩ := List.map_eq_append_iff.mp hts'
  obtain ⟨span', rfl⟩ := eq_singleton_of_kinds hvs
  have hname (x : String) : Reads expectName [.ident x] [.comma, .rbracket] x := by
    intro ts rest hts _
    obtain ⟨span, rfl⟩ := eq_singleton_of_kinds hts
    rfl
  have hnames : Reads (collect .comma expectName)
      (Token.joined .comma ((x :: names).map fun x => [.ident x])) [.rbracket]
      ((x :: names).map id) :=
    Reads.collect (by decide) fun x _ => hname x
  rw [List.map_id] at hnames
  have hread := hnames us _ hus ⟨⟨.rbracket, span'⟩, rest, rfl, by simp⟩
  have hfirst : nextIs .rbracket (us ++ ⟨.rbracket, span'⟩ :: rest) = false := by
    obtain ⟨t, us', rfl, ht, -⟩ := List.map_eq_cons_iff.mp hus
    exact beq_eq_false_iff_ne.mpr (by simp [ht])
  refine ⟨span', ?_⟩
  simp [nameList, expect_cons, hfirst, hread, bind, Except.bind]

theorem ofConjunctions_found (hs : s.WellFormed)
    (hm : ∀ b ∈ s.pieces, ∀ c ∈ b.constraints, c.Moderate) :
    ofConjunctions s.space (s.pieces.map found) = .ok s := by
  obtain ⟨space, pieces⟩ := s
  have hpieces : (pieces.map fun b => b.constraints.flatMap restated).mapM
      (Conjunction.ofConstraints space) = .ok pieces := by
    rw [mapM_eq_ok, List.forall₂_map_left_iff, List.forall₂_same]
    intro b hb
    obtain ⟨hwf, hspace⟩ := hs.pieces b hb
    have hfeasible := hs.feasible b hb
    have hmoderate := hm b hb
    obtain ⟨_, system, contradictory⟩ := b
    obtain rfl : _ = space := hspace
    obtain rfl : contradictory = false := hfeasible
    exact Conjunction.ofConstraints_restated hwf.system hmoderate
  have hmap : (pieces.map found).filterMap id =
      pieces.map fun b => b.constraints.flatMap restated := by
    simp [found, List.filterMap_map, Function.comp_def]
  rw [ofConjunctions, hmap, hpieces]
  exact addPieces_append (fun b hb => (hs.pieces b hb).2) hs.feasible

theorem univ_of_isEmpty (hs : s.WellFormed) (hpieces : s.pieces = [b])
    (hb : b.constraints.isEmpty = true) : .univ s.space = s := by
  obtain ⟨space, pieces⟩ := s
  obtain rfl : pieces = [b] := hpieces
  have hspace := (hs.pieces b (List.mem_singleton.mpr rfl)).2
  have hfeasible := hs.feasible b (List.mem_singleton.mpr rfl)
  obtain ⟨_, system, contradictory⟩ := b
  obtain rfl : _ = space := hspace
  obtain rfl : contradictory = false := hfeasible
  obtain rfl : system = [] := List.isEmpty_iff.mp hb
  rfl

theorem body_reads (hs : s.WellFormed) (hm : ∀ b ∈ s.pieces, ∀ c ∈ b.constraints, c.Moderate) :
    Reads (body s.space) (bodyTokens s) [.rbrace] s := by
  intro ts rest hts hrest
  have hnormal : ∀ b ∈ s.pieces, ∀ c ∈ b.constraints, c.IsNormal (· ∈ s.space.names) := by
    intro b hb c hc
    obtain ⟨hwf, hspace⟩ := hs.pieces b hb
    exact hspace ▸ hwf.constraint hc
  have hcolon {kinds : List TokenKind} {os : List (Option (List Constraint))}
      (hkinds : bodyTokens s = .colon :: kinds)
      (hreads : Reads (disjunction s.space) kinds [.rbrace] os)
      (hos : ofConjunctions s.space os = .ok s) : body s.space (ts ++ rest) = .ok (s, rest) := by
    obtain ⟨t, us, rfl, ht, hus⟩ := List.map_eq_cons_iff.mp (hts.trans hkinds)
    have hset (span : Span) : located span (ofConjunctions s.space os) = .ok s :=
      located_eq_ok.mpr hos
    simp only [body, List.cons_append, ht ▸ eat?_cons, hreads us rest hus hrest, hset, bind,
      Except.bind]
  have hfound := ofConjunctions_found hs hm
  unfold bodyTokens at hts hcolon
  cases hpieces : s.pieces with
  | nil =>
    refine hcolon (by rw [hpieces]) disjunction_false ?_
    rwa [hpieces] at hfound
  | cons b bs =>
    rw [hpieces] at hnormal hm hfound
    have hreads := disjunction_reads hnormal hm
    cases bs with
    | cons b' bs => exact hcolon (by rw [hpieces]) hreads hfound
    | nil =>
      by_cases hempty : b.constraints.isEmpty = true
      · obtain rfl : ts = [] := by simpa [hpieces, hempty] using hts
        have huniv : .univ s.space = s := univ_of_isEmpty hs hpieces hempty
        have hnone : eat? .colon rest = none := hrest.eat?_eq_none (by decide)
        simp only [List.nil_append, body, hnone, huniv]
      · have hkinds : Reads (disjunction s.space) (pieceTokens b) [.rbrace] ([b].map found) := by
          simpa [Token.joined] using hreads
        exact hcolon (by simp only [hpieces, if_neg hempty]) hkinds hfound

theorem parameters_reads : Reads parameters (paramsTokens space) [.lbrace] space.params := by
  intro ts rest hts hrest
  unfold paramsTokens at hts
  split_ifs at hts with hempty
  · obtain rfl : ts = [] := by simpa using hts
    have hnext : nextIs .lbracket rest = false := hrest.nextIs_eq_false (by decide)
    rw [List.nil_append, parameters, hnext, List.isEmpty_iff.mp hempty]
    rfl
  · obtain ⟨us, vs, rfl, hus, hvs⟩ := List.map_eq_append_iff.mp hts
    obtain ⟨span, rfl⟩ := eq_singleton_of_kinds hvs
    obtain ⟨last, hnames⟩ :=
      nameList_reads (mt List.isEmpty_iff.mpr hempty) hus (⟨.arrow, span⟩ :: rest)
    have hnext : nextIs .lbracket (us ++ ⟨.arrow, span⟩ :: rest) = true := by
      obtain ⟨t, us', rfl, ht, -⟩ := List.map_eq_cons_iff.mp hus
      exact beq_iff_eq.mpr ht
    simp [parameters, hnext, hnames, expect_cons, bind, Except.bind]

theorem dimensions_reads (opening : Span) (hts : ts.map Token.kind = dimsTokens space)
    (hrest : Follows [.colon, .rbrace] rest) :
    ∃ span, dimensions opening (ts ++ rest) = .ok ((space.dims, span), rest) := by
  unfold dimsTokens at hts
  split_ifs at hts with hempty
  · obtain rfl : ts = [] := by simpa using hts
    have hnext : nextIs .lbracket rest = false := hrest.nextIs_eq_false (by decide)
    refine ⟨opening, ?_⟩
    rw [List.nil_append, dimensions, hnext, List.isEmpty_iff.mp hempty]
    rfl
  · obtain ⟨last, hnames⟩ := nameList_reads (mt List.isEmpty_iff.mpr hempty) hts rest
    have hnext : nextIs .lbracket (ts ++ rest) = true := by
      obtain ⟨t, us, rfl, ht, -⟩ := List.map_eq_cons_iff.mp hts
      exact beq_iff_eq.mpr ht
    refine ⟨last, ?_⟩
    rw [dimensions, if_pos hnext]
    exact hnames

theorem bodyTokens_head : bodyTokens s = [] ∨ ∃ kinds, bodyTokens s = .colon :: kinds := by
  unfold bodyTokens
  split
  · exact .inr ⟨_, rfl⟩
  · split_ifs
    · exact .inl rfl
    · exact .inr ⟨_, rfl⟩
  · exact .inr ⟨_, rfl⟩

theorem set_reads (hs : s.WellFormed) (hw : s.Writable)
    (hts : ts.map Token.kind = s.tokens ++ [.eof]) : ∃ rest, set ts = .ok (s, rest) := by
  simp only [tokens, List.append_assoc, List.cons_append, List.nil_append] at hts
  obtain ⟨ps, ts₁, rfl, hps, hts₁⟩ := List.map_eq_append_iff.mp hts
  obtain ⟨⟨_, opening⟩, ts₂, rfl, rfl, hts₂⟩ := List.map_eq_cons_iff.mp hts₁
  obtain ⟨ds, ts₃, rfl, hds, hts₃⟩ := List.map_eq_append_iff.mp hts₂
  obtain ⟨bs, ts₄, rfl, hbs, hts₄⟩ := List.map_eq_append_iff.mp hts₃
  obtain ⟨⟨_, closing⟩, ts₅, rfl, rfl, hts₅⟩ := List.map_eq_cons_iff.mp hts₄
  obtain ⟨last, rfl⟩ := eq_singleton_of_kinds hts₅
  have hbody := body_reads hs hw.number bs [⟨.rbrace, closing⟩, ⟨.eof, last⟩] hbs
    ⟨_, _, rfl, List.mem_cons_self ..⟩
  have hfollows : Follows [.colon, .rbrace] (bs ++ [⟨.rbrace, closing⟩, ⟨.eof, last⟩]) := by
    rcases bodyTokens_head (s := s) with hnil | ⟨kinds, hcolon⟩
    · obtain rfl : bs = [] := by simpa using hbs.trans hnil
      exact ⟨_, _, rfl, by simp⟩
    · obtain ⟨t, us, rfl, ht, -⟩ := List.map_eq_cons_iff.mp (hbs.trans hcolon)
      exact ⟨t, _, rfl, by simp [ht]⟩
  have hparams := parameters_reads ps
    (⟨.lbrace, opening⟩ :: (ds ++ (bs ++ [⟨.rbrace, closing⟩, ⟨.eof, last⟩]))) hps
    ⟨_, _, rfl, List.mem_cons_self ..⟩
  obtain ⟨span, hdims⟩ := dimensions_reads opening hds hfollows
  have hspace : located span (Space.ofNames s.space.params s.space.dims) = .ok s.space :=
    located_eq_ok.mpr (Space.ofNames_of_distinct hs.distinct)
  refine ⟨[⟨.eof, last⟩], ?_⟩
  simp [set, hparams, expect_cons, hdims, hspace, hbody, expectEnd, nextIs, bind, Except.bind]

end IntegerSet.Reader

namespace IntegerSet

theorem parse_text_of_wellFormed {s : IntegerSet} (hs : s.WellFormed) (hw : s.Writable) :
    parse s.text = .ok s := by
  obtain ⟨ts, hscan, hkinds⟩ := scan_text hs hw
  obtain ⟨rest, hset⟩ := Reader.set_reads hs hw hkinds
  rw [parse, hscan]
  simp only [hset, bind, Except.bind]

/-- The text of a set whose names and numbers can be written reads back as the set. -/
theorem parse_text {s : IntegerSet} (hs : s.Built) (hw : s.Writable) : parse s.text = .ok s :=
  parse_text_of_wellFormed hs.wellFormed hw

def lineOrResidues : IntegerSet :=
  ⟨⟨["n"], ["i", "j"]⟩,
    [⟨⟨["n"], ["i", "j"]⟩,
        [.eq ⟨[("i", 1), ("j", -3)], 5⟩, .ge ⟨[("i", -2), ("n", 3)], -1⟩], false⟩,
      ⟨⟨["n"], ["i", "j"]⟩, [⟨.mod 3, ⟨[("i", 1), ("j", 2)], 1⟩⟩], false⟩]⟩

theorem lineOrResidues_built : lineOrResidues.Built := .remade (by decide) (by decide) rfl

theorem lineOrResidues_writable : lineOrResidues.Writable where
  name := by
    simp only [lineOrResidues, Space.names, List.singleton_append, List.forall_mem_cons]
    refine ⟨?_, ?_, ?_, by simp⟩
    · exact ⟨⟨'n', [], rfl, rfl, rfl⟩, by decide⟩
    · exact ⟨⟨'i', [], rfl, rfl, rfl⟩, by decide⟩
    · exact ⟨⟨'j', [], rfl, rfl, rfl⟩, by decide⟩
  number b hb c hc := by
    have hform : ∀ b ∈ lineOrResidues.pieces, ∀ c ∈ b.constraints, c.form.Moderate := by
      unfold Affine.Moderate
      decide
    refine ⟨hform b hb c hc, fun m hm => ?_⟩
    obtain rfl : m = 3 := by
      revert b c
      simp [lineOrResidues, Constraint.eq, Constraint.ge, eq_comm]
    decide

theorem lineOrResidues_parse :
    lineOrResidues.text =
      "[n] -> \x7b [i, j] : i + 5 = 3j and 3n >= 2i + 1 or (i + 2j) mod 3 = 2 \x7d" ∧
    parse "[n] -> \x7b [i, j] : i + 5 = 3j and 3n >= 2i + 1 or (i + 2j) mod 3 = 2 \x7d" =
      .ok lineOrResidues := by
  have htext : lineOrResidues.text =
      "[n] -> \x7b [i, j] : i + 5 = 3j and 3n >= 2i + 1 or (i + 2j) mod 3 = 2 \x7d" := by
    decide
  exact ⟨htext, htext ▸ parse_text lineOrResidues_built lineOrResidues_writable⟩

end IntegerSet

end LoopAudit
