import LoopAudit.Proofs.Decoding
import LoopAudit.Proofs.JsonText
import LoopAudit.Proofs.Meaning
import LoopAudit.Proofs.Numerals
import LoopAudit.Proofs.Reparsing
import LoopAudit.Proofs.Respelling
import LoopAudit.Proofs.RoundTrip
import LoopAudit.Proofs.Table
import LoopAudit.Proofs.Tag

/-! Snapshots of kernels that were read from snapshots. Such a snapshot is read again, as a kernel
with the same dump and the same snapshot, unless the least word stands in it: alone as an
expression, or as a number of a set. Its text is a sign and a number that no word holds. -/

namespace LoopAudit

open Fallible JsonText

open Token (IsName)

namespace JsonText

variable {α β ι κ σ : Type} {P Q : Prop} {v : JsonValue} {d : Decoder α} {a : α}

def Hinges {ε : Type} (P : Prop) (a : α) (r : Except ε α) : Prop :=
  P ∧ r = .ok a ∨ ¬ P ∧ ∃ fault, r = .error fault

namespace Hinges

variable {ε : Type} {r : Except ε α}

theorem ok : Hinges True a (.ok a : Except ε α) := .inl ⟨trivial, rfl⟩

theorem iff (h : Hinges P a r) (hPQ : P ↔ Q) : Hinges Q a r := by
  rwa [← propext hPQ]

theorem bind {f : α → Except ε β} {b : β} (h : Hinges P a r) (hf : Hinges Q b (f a)) :
    Hinges (P ∧ Q) b (r >>= f) := by
  rcases h with ⟨hP, rfl⟩ | ⟨hP, fault, rfl⟩
  · rcases hf with ⟨hQ, hf⟩ | ⟨hQ, fault, hf⟩
    · exact .inl ⟨⟨hP, hQ⟩, hf⟩
    · exact .inr ⟨fun h => hQ h.2, fault, hf⟩
  · exact .inr ⟨fun h => hP h.1, fault, rfl⟩

theorem map (f : α → β) (h : Hinges P a r) : Hinges P (f a) (f <$> r) := by
  rcases h with ⟨hP, rfl⟩ | ⟨hP, fault, rfl⟩
  · exact .inl ⟨hP, rfl⟩
  · exact .inr ⟨hP, fault, rfl⟩

theorem mapM {is : List ι} {r : ι → Except ε α} {a : ι → α} {P : ι → Prop}
    (h : ∀ i ∈ is, Hinges (P i) (a i) (r i)) :
    Hinges (∀ i ∈ is, P i) (is.map a) (is.mapM r) := by
  induction is with
  | nil => exact ok.iff (by simp)
  | cons i is ih =>
    have ⟨hi, his⟩ := List.forall_mem_cons.mp h
    have htail : Hinges ((∀ i ∈ is, P i) ∧ True) (a i :: is.map a)
        (is.mapM r >>= fun bs => .ok (a i :: bs)) := (ih his).bind ok
    rw [List.mapM_cons]
    refine (hi.bind htail).iff ?_
    rw [List.forall_mem_cons, and_true]

end Hinges

def Rereads (P : Prop) (d : Decoder α) (v : JsonValue) (a : α) : Prop :=
  ∃ r, Gives d v r ∧ Hinges P a r

namespace Rereads

theorem of_gives (h : Gives d v (.ok a)) : Rereads True d v a := ⟨_, h, .ok⟩

theorem iff (h : Rereads P d v a) (hPQ : P ↔ Q) : Rereads Q d v a :=
  h.imp fun _ hr => ⟨hr.1, hr.2.iff hPQ⟩

section Lists

variable {is : List ι} {value : ι → JsonValue} {condition : ι → Prop} {again : ι → α}

theorem exists_results (h : ∀ i ∈ is, Rereads (condition i) d (value i) (again i)) :
    ∃ r : ι → Except Fault α,
      ∀ i ∈ is, Gives d (value i) (r i) ∧ Hinges (condition i) (again i) (r i) := by
  have hchoice : ∀ i, ∃ r, i ∈ is → Gives d (value i) r ∧ Hinges (condition i) (again i) r := by
    intro i
    by_cases hi : i ∈ is
    · exact (h i hi).imp fun _ hr _ => hr
    · exact ⟨.ok (again i), fun hi' => absurd hi' hi⟩
  choose r hr using hchoice
  exact ⟨r, hr⟩

theorem array (h : ∀ i ∈ is, Rereads (condition i) d (value i) (again i)) :
    Rereads (∀ i ∈ is, condition i) (JsonText.array d) (.array (is.map value)) (is.map again) := by
  have ⟨r, hr⟩ := exists_results h
  exact ⟨is.mapM r, array_gives fun i hi => (hr i hi).1, .mapM fun i hi => (hr i hi).2⟩

theorem entries {key : Decoder κ} {name : ι → String} {k : ι → κ}
    (hkey : ∀ i ∈ is, ∀ rest, key (escaped (name i) ++ '"' :: rest) = .ok (k i, rest))
    (h : ∀ i ∈ is, Rereads (condition i) d (value i) (again i)) :
    Rereads (∀ i ∈ is, condition i) (JsonText.entries key d)
      (.object (is.map fun i => (name i, value i))) (is.map fun i => (k i, again i)) := by
  have ⟨r, hr⟩ := exists_results h
  refine ⟨_, entries_gives hkey fun i hi => (hr i hi).1, .mapM fun i hi => ?_⟩
  exact (hr i hi).2.map (k i, ·)

end Lists

end Rereads

end JsonText

namespace IntegerSet

variable {s s' : IntegerSet} {src : String}

structure Legible (s : IntegerSet) : Prop where
  wellFormed : s.WellFormed
  name : ∀ x ∈ s.space.names, IsName x

theorem ident_mem_nameTokens {x : String} {names : List String} (h : x ∈ names) :
    .ident x ∈ Formula.nameTokens names := by
  refine List.mem_cons_of_mem _ (List.mem_append_left _ ?_)
  cases names with
  | nil => cases h
  | cons y ys =>
    rw [List.map_cons, Token.joined]
    rcases List.mem_cons.mp h with rfl | h
    · exact List.mem_append_left _ (List.mem_singleton_self _)
    · refine List.mem_append_right _ (List.mem_flatMap.mpr ⟨[.ident x], ?_, ?_⟩)
      · exact List.mem_map_of_mem h
      · exact List.mem_cons_of_mem _ (List.mem_singleton_self _)

theorem ident_mem_tokens {x : String} {d : Formula.Description} (h : x ∈ d.space.names) :
    .ident x ∈ d.tokens := by
  obtain ⟨params, dims, body⟩ := d
  rcases List.mem_append.mp h with h | h
  · cases params with
    | none => cases h
    | some names =>
      exact List.mem_append_left _ (List.mem_append_left _ (ident_mem_nameTokens h))
  · cases dims with
    | none => cases h
    | some names =>
      refine List.mem_append_right _ (List.mem_cons_of_mem _ ?_)
      exact List.mem_append_left _ (ident_mem_nameTokens h)

theorem parse_legible (h : parse src = .ok s) : s.Legible := by
  refine ⟨parse_wellFormed h, fun x hx => ?_⟩
  have ⟨ts, hts, hset⟩ := bind_eq_ok.mp h
  have ⟨⟨s', rest⟩, hset', hresult⟩ := bind_eq_ok.mp hset
  obtain rfl : s' = s := by simpa using hresult
  have ⟨kinds, hkinds, hsegments, _⟩ := Token.scanFrom_segments hts
  have ⟨d, kinds', hd, hspace, _⟩ := Reader.set_recognizes hset'
  have hmem : .ident x ∈ ts.map Token.kind := by
    rw [hd]
    exact List.mem_append_left _ (ident_mem_tokens (hspace ▸ hx))
  rw [hkinds] at hmem
  rcases List.mem_append.mp hmem with hmem | hmem
  · exact hsegments.isName hmem
  · simp at hmem

theorem Legible.hinges (h : s.Legible) : Hinges s.Moderate s (parse s.text) := by
  by_cases hm : s.Moderate
  · exact .inl ⟨hm, parse_text_of_wellFormed h.wellFormed ⟨h.name, hm⟩⟩
  · refine .inr ⟨hm, ?_⟩
    cases hparse : parse s.text with
    | error fault => exact ⟨fault, rfl⟩
    | ok s' =>
      obtain ⟨ts, hts, _⟩ := bind_eq_ok.mp hparse
      exact absurd (moderate_of_scan h.wellFormed h.name hts) hm

end IntegerSet

namespace Kernel.Snapshot

variable {α β σ : Type} {P Q : Prop} {v : JsonValue} {d : Decoder α} {a : α} {b : β}
  {e : Expr} {es : List Expr} {k : Kernel}

def Admitted (e : Expr) : Prop := e.Legible ∨ e = .int Word.least

section Rereading

theorem refine_gives {r : Except Fault α} (h : Gives d v r) (f : α → Except String β) :
    Gives (refine d f) v (r >>= fun a => (f a).mapError .mismatch) := by
  intro level pad rest hpad
  rw [refine, h level pad rest hpad]
  cases r with
  | error fault => rfl
  | ok a =>
    cases hf : f a <;> simp [hf, bind, Except.bind, Functor.map, Except.map, Except.mapError]

theorem refine_rereads {f : α → Except String β} (h : Rereads P d v a) (hf : Hinges Q b (f a)) :
    Rereads (P ∧ Q) (refine d f) v b := by
  have ⟨r, hgives, hr⟩ := h
  have herror : Hinges Q b ((f a).mapError Fault.mismatch) := by
    rcases hf with ⟨hQ, hf⟩ | ⟨hQ, fault, hf⟩
    · exact .inl ⟨hQ, by rw [hf]; rfl⟩
    · exact .inr ⟨hQ, .mismatch fault, by rw [hf]; rfl⟩
  exact ⟨_, refine_gives hgives f, hr.bind herror⟩

inductive Rewrites : Prop → List (RecordField σ) → List (String × JsonValue) → σ → σ → Prop
  | nil {s : σ} : Rewrites True [] [] s s
  | cons {α : Type} {name : String} {required : Bool} {d : Decoder α} {put : σ → α → σ}
      {v : JsonValue} {a : α} {P Q : Prop} {fields : List (RecordField σ)}
      {members : List (String × JsonValue)} {s t : σ} (h : Rereads P d v a)
      (hrest : Rewrites Q fields members (put s a) t) :
      Rewrites (P ∧ Q) (part name required d put :: fields) ((name, v) :: members) s t

theorem part_gives {name : String} {required : Bool} {put : σ → α → σ} {r : Except Fault α}
    (h : Gives d v r) (s : σ) : Gives ((part name required d put).read s) v ((put s ·) <$> r) := by
  intro level pad rest hpad
  simp only [part, h level pad rest hpad]
  cases r <;> rfl

theorem Rewrites.exists_filled {fields : List (RecordField σ)} {members : List (String × JsonValue)}
    {s t : σ} (h : Rewrites P fields members s t) :
    ∃ parts : List (Filled σ), parts.map Filled.field = fields ∧
      (parts.map fun p => (p.name, p.value)) = members ∧
      Hinges P t (parts.foldlM (fun s p => p.next s) s) := by
  induction h with
  | nil => exact ⟨[], rfl, rfl, .ok⟩
  | @cons α name required d put v a P Q fields members s t h _ ih =>
    have ⟨r, hgives, hr⟩ := h
    have ⟨parts, hfields, hmembers, hparts⟩ := ih
    let first : Filled σ :=
      ⟨part name required d put, v, fun s => (put s ·) <$> r, part_gives hgives⟩
    refine ⟨first :: parts, ?_, ?_, ?_⟩
    · rw [List.map_cons, hfields]
    · rw [List.map_cons, hmembers]
      rfl
    · rw [List.foldlM_cons]
      exact (hr.map (put s ·)).bind hparts

theorem record_rereads {name : String} {fields : List (RecordField σ)}
    {members : List (String × JsonValue)} {s t : σ} (h : Rewrites P fields members s t)
    (hnodup : (fields.map RecordField.name).Nodup) :
    Rereads P (record name fields s) (.object members) t := by
  have ⟨parts, hfields, hmembers, hparts⟩ := h.exists_filled
  have hnames : (parts.map Filled.name).Nodup := by
    have hsame : parts.map Filled.name = fields.map RecordField.name := by
      rw [← hfields, List.map_map]
      rfl
    rwa [hsame]
  refine ⟨_, ?_, hparts⟩
  rw [← hmembers]
  exact record_gives hfields hnames

theorem exprText_hinges (he : Admitted e) :
    Hinges (e ≠ .int Word.least) e.spliced (exprText e.text) := by
  rcases he with he | rfl
  · refine .inl ⟨?_, ?_⟩
    · rintro rfl
      cases he with
      | int _ hleast => exact hleast rfl
    · rw [exprText, Expr.parse_of_legible he]
      rfl
  -- The digits after the sign are read first, and they exceed every word.
  · refine .inr ⟨fun h => h rfl, ?_⟩
    have hrefused : (exprText (Expr.int Word.least).text).toOption.isNone = true := by
      decide +kernel
    cases hparse : exprText (Expr.int Word.least).text with
    | error fault => exact ⟨fault, rfl⟩
    | ok e =>
      rw [hparse] at hrefused
      cases hrefused

theorem expr_rereads (level : Nat) (hlevel : level < maxDepth) (he : Admitted e) :
    Rereads (e ≠ .int Word.least) (expr level) (exprValue e) e.spliced := by
  obtain ⟨depth, hdepth⟩ : ∃ depth, maxDepth - level = depth + 1 := ⟨maxDepth - level - 1, by omega⟩
  rw [expr, hdepth]
  exact (refine_rereads (.of_gives (atom_gives e.text)) (exprText_hinges he)).iff (by simp)

theorem exprs_rereads (level : Nat) (hlevel : level < maxDepth) (hes : ∀ e ∈ es, Admitted e) :
    Rereads (∀ e ∈ es, e ≠ .int Word.least) (array (expr level)) (exprsValue es)
      (es.map Expr.spliced) :=
  .array fun e he => expr_rereads level hlevel (hes e he)

theorem string_rereads (s : String) : Rereads True string (.text s) s := .of_gives (string_gives s)

theorem setText_hinges {s : IntegerSet} (h : s.Legible) : Hinges s.Moderate s (setText s.text) := by
  rcases h.hinges with ⟨hm, hparse⟩ | ⟨hm, fault, hparse⟩
  · exact .inl ⟨hm, by rw [setText, hparse]; rfl⟩
  · exact .inr ⟨hm, fault.message, by rw [setText, hparse]; rfl⟩

theorem set_rereads {s : IntegerSet} (h : s.Legible) : Rereads s.Moderate set (.text s.text) s :=
  (refine_rereads (string_rereads s.text) (setText_hinges h)).iff (by simp)

theorem sets_rereads {ss : List IntegerSet} (h : ∀ s ∈ ss, s.Legible) :
    Rereads (∀ s ∈ ss, s.Moderate) sets (.array (ss.map fun s => .text s.text)) ss := by
  have htexts : Rereads (∀ s ∈ ss, True) (array string) (.array (ss.map fun s => .text s.text))
      (ss.map IntegerSet.text) := .array fun s _ => string_rereads s.text
  have hsets : Hinges (∀ s ∈ ss, s.Moderate) ss ((ss.map IntegerSet.text).mapM setText) := by
    have hall := Hinges.mapM fun s hs => setText_hinges (h s hs)
    rw [List.map_id'] at hall
    rwa [List.mapM_map]
  exact (refine_rereads htexts hsets).iff (by simp)

theorem parsed_rereads {parse : String → Except KernelError α} {src : String}
    (h : parse src = .ok a) :
    Rereads True (refine string fun src => (parse src).mapError KernelError.message) (.text src)
      a := by
  have hparse : Hinges True a ((parse src).mapError KernelError.message) := by
    rw [h]
    exact .ok
  have hread := refine_rereads (f := fun src => (parse src).mapError KernelError.message)
    (string_rereads src) hparse
  exact hread.iff (by simp)

theorem tag_rereads {t : Tag} (h : Tag.parse? t.text = some t) :
    Rereads True tag (.text t.text) t := by
  have hparse : Tag.parse t.text = .ok t := by simp only [Tag.parse, h]
  exact parsed_rereads hparse

theorem scalarType_rereads (t : ScalarType) : Rereads True scalarType (.text t.text) t := by
  have hparse : ScalarType.parse t.text = .ok t := by
    simp only [ScalarType.parse, ScalarType.parse?_text]
  exact parsed_rereads hparse

theorem scope_rereads (s : Scope) : Rereads True scope (.text s.text) s := by
  cases s <;> exact .of_gives (variant_gives rfl)

theorem argKind_rereads (a : ArgKind) : Rereads True argKind (.text a.text) a := by
  cases a <;> exact .of_gives (variant_gives rfl)

theorem instruction_rereads {i : Instruction} (h : ∀ e ∈ i.exprs, Admitted e) :
    Rereads (∀ e ∈ i.exprs, e ≠ .int Word.least) instruction (instructionValue i) i.spliced := by
  have ⟨hassignee, hexpression⟩ := Instruction.forall_mem_exprs.mp h
  have hnames : Rereads (∀ x ∈ i.inames, True) (array string) (.array (i.inames.map .text))
      (i.inames.map id) := .array fun x _ => string_rereads x
  rw [List.map_id] at hnames
  have hrecord : Rereads (∀ e ∈ i.exprs, e ≠ .int Word.least) instruction (instructionValue i)
      { i.spliced with
        inames := Names.ofList i.inames, sorted := Names.sorted_ofList i.inames } := by
    refine (record_rereads (.cons (string_rereads i.id)
      (.cons (expr_rereads 3 (by decide) hassignee)
      (.cons (expr_rereads 3 (by decide) hexpression) (.cons hnames
        (.cons (.of_gives (boolean_gives i.boostable)) .nil))))) (by decide)).iff ?_
    simp [Instruction.forall_mem_exprs]
  simp only [Names.ofList_of_sorted i.sorted] at hrecord
  exact hrecord

theorem temporary_rereads {t : Temporary} (h : ∀ e ∈ t.shape, Admitted e) :
    Rereads (∀ e ∈ t.shape, e ≠ .int Word.least) temporary (temporaryValue t) t.spliced := by
  refine (record_rereads (.cons (string_rereads t.name) (.cons (exprs_rereads 4 (by decide) h)
    (.cons (scalarType_rereads t.dtype) (.cons (scope_rereads t.scope) .nil)))) (by decide)).iff ?_
  simp

theorem shape_rereads {a : Argument} (h : ∀ e ∈ a.exprs, Admitted e) :
    Rereads (∀ e ∈ a.exprs, e ≠ .int Word.least) (nullable (array (expr 4)))
      (a.shape.elim .null exprsValue) (a.shape.map (List.map Expr.spliced)) := by
  obtain ⟨name, shape, dtype, kind⟩ := a
  cases shape with
  | none => exact (Rereads.of_gives nullable_null).iff (by simp [Argument.exprs])
  | some es =>
    have ⟨r, hgives, hr⟩ := exprs_rereads 4 (by decide) h
    exact ⟨some <$> r, nullable_array hgives, hr.map some⟩

theorem argument_rereads {a : Argument} (h : ∀ e ∈ a.exprs, Admitted e) :
    Rereads (∀ e ∈ a.exprs, e ≠ .int Word.least) argument (argumentValue a) a.spliced := by
  refine (record_rereads (.cons (string_rereads a.name) (.cons (shape_rereads h)
    (.cons (scalarType_rereads a.dtype) (.cons (argKind_rereads a.kind) .nil)))) (by decide)).iff ?_
  simp

theorem grid_rereads {g : Grid} (h : ∀ e ∈ g.exprs, Admitted e) :
    Rereads (∀ e ∈ g.exprs, e ≠ .int Word.least) grid
      (.object [("group", exprsValue g.group), ("local", exprsValue g.item)]) g.spliced := by
  have ⟨hgroup, hitem⟩ := List.forall_mem_append.mp h
  refine (record_rereads (.cons (exprs_rereads 3 (by decide) hgroup)
    (.cons (exprs_rereads 3 (by decide) hitem) .nil)) (by decide)).iff ?_
  rw [Grid.exprs, List.forall_mem_append, and_true]

theorem byName_of_sorted {ts : List Temporary}
    (h : Table.Sorted (ts.map fun t => (t.name, t))) : byName ts = .ok ts := by
  have hnodup : (ts.map Temporary.name).Nodup := by
    have hkeys : (ts.map fun t => (t.name, t)).map Prod.fst = ts.map Temporary.name := by
      rw [List.map_map]
      rfl
    rw [← hkeys]
    exact h.imp fun hlt => ne_of_lt hlt
  have hnone : Names.firstRepeated? [] (ts.map Temporary.name) = none :=
    Names.firstRepeated?_of_nodup hnodup fun _ _ => List.not_mem_nil
  simp only [byName, hnone]
  rw [Table.ofList_of_sorted h, List.map_map]
  exact congrArg Except.ok (List.map_id ts)

theorem temporaries_rereads {ts : List Temporary}
    (hsorted : Table.Sorted (ts.map fun t => (t.name, t)))
    (h : ∀ t ∈ ts, ∀ e ∈ t.shape, Admitted e) :
    Rereads (∀ t ∈ ts, ∀ e ∈ t.shape, e ≠ .int Word.least) (refine (array temporary) byName)
      (.array (ts.map temporaryValue)) (ts.map Temporary.spliced) := by
  have hsorted' : Table.Sorted ((ts.map Temporary.spliced).map fun t => (t.name, t)) := by
    unfold Table.Sorted at *
    rw [List.map_map] at hsorted ⊢
    rw [List.map_map]
    exact hsorted
  have hname : Hinges True (ts.map Temporary.spliced) (byName (ts.map Temporary.spliced)) := by
    rw [byName_of_sorted hsorted']
    exact .ok
  exact (refine_rereads (.array fun t ht => temporary_rereads (h t ht)) hname).iff (by simp)

theorem tags_rereads {tags : List (String × Tag)} (h : ∀ t ∈ tags, Tag.parse? t.2.text = some t.2) :
    Rereads True (entries stringTail tag) (.object (tags.map fun t => (t.1, .text t.2.text)))
      tags := by
  have hentries : Rereads (∀ t ∈ tags, True) (entries stringTail tag)
      (.object (tags.map fun t => (t.1, .text t.2.text))) (tags.map fun t => (t.1, t.2)) :=
    .entries (fun t _ _ => stringTail_escaped t.1) fun t ht => tag_rereads (h t ht)
  rw [List.map_id'] at hentries
  exact hentries.iff (by simp)

theorem localSizes_rereads {sizes : List (Nat × Expr)}
    (h : ∀ s ∈ sizes, s.1 < Tag.axisBound ∧ Admitted s.2) :
    Rereads (∀ s ∈ sizes, s.2 ≠ .int Word.least) (entries (numericKey Tag.axisBound "u32") (expr 2))
      (.object (sizes.map fun s => (Decimal.text s.1, exprValue s.2)))
      (sizes.map fun s => (s.1, s.2.spliced)) := by
  have hbound : Tag.axisBound ≤ 0x10000000000000000 := by decide
  refine .entries (fun s hs rest => ?_) fun s hs => expr_rereads 2 (by decide) (h s hs).2
  exact numericKey_text (h s hs).1 hbound

structure Recorded (k : Kernel) : Prop where
  assumptions : k.assumptions.Legible
  domains : ∀ s ∈ k.domains, s.Legible
  instructions : ∀ i ∈ k.instructions, ∀ e ∈ i.exprs, Admitted e
  tags : Table.Sorted k.tags ∧ ∀ t ∈ k.tags, Tag.parse? t.2.text = some t.2
  temporaries : Table.Sorted (k.temporaries.map fun t => (t.name, t)) ∧
    ∀ t ∈ k.temporaries, ∀ e ∈ t.shape, Admitted e
  args : ∀ a ∈ k.args, ∀ e ∈ a.exprs, Admitted e
  grid : ∀ e ∈ k.grid.exprs, Admitted e
  localSizes : Table.Sorted k.localSizes ∧
    ∀ s ∈ k.localSizes, s.1 < Tag.axisBound ∧ Admitted s.2

theorem kernel_rereads (h : Recorded k) :
    Rereads ((∀ s ∈ k.sets, s.Moderate) ∧ ∀ e ∈ k.exprs, e ≠ .int Word.least) kernel
      (kernelValue k) k.spliced := by
  have htags : Table.ofList k.tags = k.tags := Table.ofList_of_sorted h.tags.1
  have hsizes : Table.ofList k.spliced.localSizes = k.spliced.localSizes := by
    apply Table.ofList_of_sorted
    have hsorted := h.localSizes.1
    unfold Table.Sorted at *
    rw [spliced, List.map_map]
    exact hsorted
  have hrecord : Rereads ((∀ s ∈ k.sets, s.Moderate) ∧ ∀ e ∈ k.exprs, e ≠ .int Word.least) kernel
      (kernelValue k) { k.spliced with
        tags := Table.ofList k.tags, localSizes := Table.ofList k.spliced.localSizes } := by
    refine (record_rereads (.cons (string_rereads k.name) (.cons (set_rereads h.assumptions)
      (.cons (sets_rereads h.domains)
      (.cons (.array fun i hi => instruction_rereads (h.instructions i hi))
      (.cons (tags_rereads h.tags.2) (.cons (temporaries_rereads h.temporaries.1 h.temporaries.2)
      (.cons (.array fun a ha => argument_rereads (h.args a ha)) (.cons (grid_rereads h.grid)
      (.cons (localSizes_rereads h.localSizes.2) .nil))))))))) (by decide)).iff ?_
    simp only [Kernel.sets, Kernel.exprs, List.forall_mem_cons, List.forall_mem_append,
      List.forall_mem_flatMap, List.forall_mem_map]
    tauto
  rwa [htags, hsizes] at hrecord

end Rereading

section Reading

theorem refine_delivers {A : α → Prop} {B : β → Prop} {f : α → Except String β}
    (h : Delivers A d) (hf : ∀ a b, A a → f a = .ok b → B b) : Delivers B (refine d f) := by
  intro cs b rest hread
  have ⟨⟨a, us⟩, ha, hread⟩ := bind_eq_ok.mp hread
  dsimp only at hread
  split at hread <;> cases hread
  next hb => exact hf a b (h cs a _ ha) hb

theorem delivers_any : Delivers (fun _ => True) d := fun _ _ _ _ => trivial

theorem part_maintains {A : α → Prop} {I : σ → Prop} {name : String} {required : Bool}
    {put : σ → α → σ} (h : Delivers A d) (hput : ∀ s a, I s → A a → I (put s a)) :
    Maintains I (part name required d put).read := by
  intro s hs cs t rest hread
  have ⟨⟨a, us⟩, ha, hread⟩ := bind_eq_ok.mp hread
  cases hread
  exact hput s a hs (h cs a _ ha)

theorem expr_delivers (level : Nat) : Delivers Admitted (expr level) := by
  refine refine_delivers (atom_delivers _) fun a e ha he => ?_
  cases a with
  | integer n =>
    cases he
    by_cases hleast : n = Word.least
    · exact .inr (congrArg Expr.int hleast)
    · exact .inl (.int (ha n rfl) hleast)
  | text src => exact .inl (Expr.parse_legible (mapError_eq_ok.mp he))
  | other => cases he

theorem exprs_delivers (level : Nat) :
    Delivers (fun es => ∀ e ∈ es, Admitted e) (array (expr level)) :=
  array_delivers (expr_delivers level)

theorem set_delivers : Delivers IntegerSet.Legible set :=
  refine_delivers delivers_any fun _ _ _ hs => IntegerSet.parse_legible (mapError_eq_ok.mp hs)

theorem sets_delivers : Delivers (fun ss => ∀ s ∈ ss, s.Legible) sets := by
  refine refine_delivers delivers_any fun srcs ss _ hss s hs => ?_
  have ⟨src, _, hsrc⟩ := exists_of_mapM_mem hss hs
  exact IntegerSet.parse_legible (mapError_eq_ok.mp hsrc)

theorem tag_delivers : Delivers (fun t => Tag.parse? t.text = some t) tag := by
  refine refine_delivers delivers_any fun src t _ ht => ?_
  have hparse := mapError_eq_ok.mp ht
  unfold Tag.parse at hparse
  split at hparse <;> cases hparse
  next h => exact Tag.parse?_text h

theorem temporary_delivers : Delivers (fun t => ∀ e ∈ t.shape, Admitted e) temporary := by
  refine record_delivers ?_ nofun
  simp only [List.forall_mem_cons]
  exact ⟨part_maintains delivers_any fun _ _ hs _ => hs,
    part_maintains (exprs_delivers 4) fun _ _ _ ha => ha,
    part_maintains delivers_any fun _ _ hs _ => hs,
    part_maintains delivers_any fun _ _ hs _ => hs, nofun⟩

theorem argument_delivers : Delivers (fun a => ∀ e ∈ a.exprs, Admitted e) argument := by
  refine record_delivers ?_ nofun
  simp only [List.forall_mem_cons]
  refine ⟨part_maintains delivers_any fun _ _ hs _ => hs,
    part_maintains (nullable_delivers (exprs_delivers 4)) fun a shape _ ha => ?_,
    part_maintains delivers_any fun _ _ hs _ => hs,
    part_maintains delivers_any fun _ _ hs _ => hs, nofun⟩
  cases shape with
  | none => nofun
  | some es => exact ha es rfl

theorem instruction_delivers :
    Delivers (fun i => ∀ e ∈ i.exprs, Admitted e) instruction := by
  have hzero : Admitted (.int 0) := .inl (.int (by decide) (by decide))
  simp only [Instruction.forall_mem_exprs]
  refine record_delivers ?_ ⟨hzero, hzero⟩
  simp only [List.forall_mem_cons]
  exact ⟨part_maintains delivers_any fun _ _ hs _ => hs,
    part_maintains (expr_delivers 3) fun _ _ hs ha => ⟨ha, hs.2⟩,
    part_maintains (expr_delivers 3) fun _ _ hs ha => ⟨hs.1, ha⟩,
    part_maintains delivers_any fun _ _ hs _ => hs,
    part_maintains delivers_any fun _ _ hs _ => hs, by simp⟩

theorem grid_delivers : Delivers (fun g => ∀ e ∈ g.exprs, Admitted e) grid := by
  simp only [Grid.exprs, List.forall_mem_append]
  refine record_delivers ?_ ⟨nofun, nofun⟩
  simp only [List.forall_mem_cons]
  exact ⟨part_maintains (exprs_delivers 3) fun _ _ hs ha => ⟨ha, hs.2⟩,
    part_maintains (exprs_delivers 3) fun _ _ hs ha => ⟨hs.1, ha⟩, nofun⟩

theorem temporaries_delivers :
    Delivers (fun ts => Table.Sorted (ts.map fun t => (t.name, t)) ∧
      ∀ t ∈ ts, ∀ e ∈ t.shape, Admitted e) (refine (array temporary) byName) := by
  refine refine_delivers (array_delivers temporary_delivers) fun ts us hts hus => ?_
  unfold byName at hus
  split at hus <;> cases hus
  have hmem : ∀ e ∈ Table.ofList (ts.map fun t => (t.name, t)), e.2 ∈ ts ∧ (e.2.name, e.2) = e := by
    intro e he
    obtain ⟨t, ht, rfl⟩ := List.mem_map.mp (Table.mem_of_mem_ofList he)
    exact ⟨ht, rfl⟩
  have hkeys : ((Table.ofList (ts.map fun t => (t.name, t))).map Prod.snd).map
      (fun t => (t.name, t)) = Table.ofList (ts.map fun t => (t.name, t)) := by
    rw [List.map_map]
    exact (List.map_congr_left fun e he => (hmem e he).2).trans (List.map_id _)
  refine ⟨?_, List.forall_mem_map.mpr fun e he => hts _ (hmem e he).1⟩
  rw [hkeys]
  exact Table.sorted_ofList _

theorem kernel_delivers : Delivers Recorded kernel := by
  refine record_delivers ?_ ?_
  · simp only [List.forall_mem_cons]
    refine ⟨part_maintains delivers_any fun _ _ hs _ => { hs with },
      part_maintains set_delivers fun _ _ hs ha => { hs with assumptions := ha },
      part_maintains sets_delivers fun _ _ hs ha => { hs with domains := ha },
      part_maintains (array_delivers instruction_delivers)
        fun _ _ hs ha => { hs with instructions := ha },
      part_maintains (entries_delivers delivers_any tag_delivers)
        fun _ _ hs ha => { hs with tags := ?_ },
      part_maintains temporaries_delivers fun _ _ hs ha => { hs with temporaries := ha },
      part_maintains (array_delivers argument_delivers) fun _ _ hs ha => { hs with args := ha },
      part_maintains grid_delivers fun _ _ hs ha => { hs with grid := ha },
      part_maintains (entries_delivers numericKey_delivers (expr_delivers 2))
        fun _ _ hs ha => { hs with localSizes := ?_ }, nofun⟩
    · exact ⟨Table.sorted_ofList _, fun t ht => (ha t (Table.mem_of_mem_ofList ht)).2⟩
    · exact ⟨Table.sorted_ofList _, fun s hs => ha s (Table.mem_of_mem_ofList hs)⟩
  · exact {
      assumptions := ⟨.univ .nil, nofun⟩
      domains := nofun
      instructions := nofun
      tags := ⟨.nil, nofun⟩
      temporaries := ⟨.nil, nofun⟩
      args := nofun
      grid := nofun
      localSizes := ⟨.nil, nofun⟩ }

end Reading

end Kernel.Snapshot

namespace Kernel

variable {k k' : Kernel} {src : String}

theorem read_recorded (h : read src = .ok k) : Snapshot.Recorded k := by
  have ⟨⟨k', rest⟩, hkernel, hwhole⟩ := bind_eq_ok.mp (mapError_eq_ok.mp h)
  dsimp only at hwhole
  split_ifs at hwhole
  cases hwhole
  exact Snapshot.kernel_delivers _ k rest hkernel

theorem read_toJson (h : Snapshot.Recorded k) :
    Hinges ((∀ s ∈ k.sets, s.Moderate) ∧ ∀ e ∈ k.exprs, e ≠ .int Word.least) k.spliced
      (read k.toJson) := by
  have ⟨r, hgives, hr⟩ := Snapshot.kernel_rereads h
  rw [read, toJson, whole_gives hgives]
  rcases hr with ⟨hP, rfl⟩ | ⟨hP, fault, rfl⟩
  · exact .inl ⟨hP, rfl⟩
  · exact .inr ⟨hP, .json fault, rfl⟩

theorem read_of_load (h : load src = .ok k) : read src = .ok k ∧ k.validate = .ok () := by
  have ⟨k', hread, hvalidate⟩ := bind_eq_ok.mp h
  have ⟨_, hvalid, hresult⟩ := bind_eq_ok.mp hvalidate
  obtain rfl : k' = k := by simpa using hresult
  exact ⟨hread, hvalid⟩

/-- A kernel that was loaded is loaded again from its own snapshot, with the same dump and the same
snapshot, exactly if the least word is neither an expression nor a number of a set in it. -/
theorem load_toJson_iff (h : load src = .ok k) :
    (∃ k', load k.toJson = .ok k' ∧ k'.dump = k.dump ∧ k'.toJson = k.toJson) ↔
      (∀ s ∈ k.sets, s.Moderate) ∧ ∀ e ∈ k.exprs, e ≠ .int Word.least := by
  have ⟨hread, hvalid⟩ := read_of_load h
  rcases read_toJson (read_recorded hread) with ⟨hP, hagain⟩ | ⟨hP, fault, hagain⟩
  · refine iff_of_true ⟨k.spliced, ?_, dump_spliced, toJson_spliced⟩ hP
    simp only [load, hagain, validate_spliced, hvalid, bind, Except.bind]
  · refine iff_of_false ?_ hP
    rintro ⟨k', hload, -⟩
    have hread' := (read_of_load hload).1
    rw [hagain] at hread'
    cases hread'

/-- A tag with blanks, a sign and a leading zero, and temporaries in another order, without the
names of their fields and with bare integers. -/
def tiledText : String :=
  "\x7b\"name\": \"tiled\", \"domains\": [\"\x7b[i]: 1<=i<5\x7d\"], " ++
    "\"iname_to_tag\": \x7b\"i\": \" g.+01 \"\x7d, \"temporaries\": [" ++
    "[\"t\", [16, \"(n + 1) + i\"], \"float\", \"private\"], [\"b\", [-4], \"int\", \"local\"]]\x7d"

theorem tiled_reloaded : ∃ k, load tiledText = .ok k ∧
    ∃ k', load k.toJson = .ok k' ∧ k'.dump = k.dump ∧ k'.toJson = k.toJson := by
  have hfacts : (load tiledText).toOption.any (fun k => decide ((∀ s ∈ k.sets, s.Moderate) ∧
      ∀ e ∈ k.exprs, e.text ≠ (Expr.int Word.least).text)) = true := by
    decide +kernel
  have ⟨k, hload, hk⟩ := exists_of_any hfacts
  have ⟨hsets, hexprs⟩ := of_decide_eq_true hk
  refine ⟨k, hload, (load_toJson_iff hload).mpr ⟨hsets, fun e he heq => ?_⟩⟩
  exact hexprs e he (congrArg Expr.text heq)

theorem eq_int_of_same {e : Expr} {n : Int} (h : e.same (.int n) = true) : e = .int n := by
  cases e with
  | int m =>
    rw [Expr.same, beq_iff_eq] at h
    rw [h]
  | _ => simp [Expr.same] at h

def leastText : String :=
  "\x7b\"name\": \"k\", \"grid\": \x7b\"group\": [-9223372036854775808]\x7d\x7d"

theorem least_not_reloaded : ∃ k, load leastText = .ok k ∧ ¬ ∃ k', load k.toJson = .ok k' := by
  have hfacts : (load leastText).toOption.any
      (fun k => k.exprs.any fun e => e.same (.int Word.least)) = true := by
    decide +kernel
  have ⟨k, hload, hk⟩ := exists_of_any hfacts
  have ⟨e, he, hsame⟩ := List.any_eq_true.mp hk
  refine ⟨k, hload, ?_⟩
  rintro ⟨k', hagain⟩
  have hread := (read_of_load hload).1
  have hread' := (read_of_load hagain).1
  rcases read_toJson (read_recorded hread) with ⟨⟨_, hexprs⟩, _⟩ | ⟨_, fault, hfault⟩
  · exact hexprs e he (eq_int_of_same hsame)
  · rw [hfault] at hread'
    cases hread'

end Kernel

end LoopAudit
