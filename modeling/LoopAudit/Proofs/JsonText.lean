import LoopAudit.JsonText.Decoder
import LoopAudit.Proofs.Fallible
import LoopAudit.Proofs.Scanning

/-! What decoders make of written JSON. A written value says itself where it ends, so that a decoder
answers the same in front of everything. -/

namespace LoopAudit.JsonText

variable {α β ι σ : Type} {c : Char} {cs pad rest : List Char} {v : JsonValue} {level : Nat}

/-- On the text of the value, after blanks, the decoder gives this result and stops at its end. -/
def Gives (d : Decoder α) (v : JsonValue) (r : Except Fault α) : Prop :=
  ∀ level pad rest, (∀ c ∈ pad, isBlank c = true) →
    d (pad ++ ((valueText level v).toList ++ rest)) = (·, rest) <$> r

section Blanks

theorem skipBlank_append (h : ∀ c ∈ pad, isBlank c = true) :
    skipBlank (pad ++ cs) = skipBlank cs :=
  List.dropWhile_append_of_pos h

theorem skipBlank_cons (h : isBlank c = false) : skipBlank (c :: cs) = c :: cs := by
  simp [skipBlank, h]

theorem blank_newline : ∀ c ∈ (newline level).toList, isBlank c = true := by
  intro c hc
  have hchars : (newline level).toList = '\n' :: List.replicate (2 * level) ' ' := by
    simp [newline]
  rw [hchars] at hc
  rcases List.mem_cons.mp hc with rfl | hc
  · rfl
  · obtain rfl : c = ' ' := List.eq_of_mem_replicate hc
    rfl

end Blanks

section Strings

def escaped (s : String) : List Char := s.toList.flatMap escapedChar

theorem stringText_toList (s : String) :
    (stringText s).toList = '"' :: (escaped s ++ ['"']) := by
  simp [stringText, escaped]

theorem codeUnit_control : ∀ n < 0x20,
    codeUnit ['0', '0', hexDigit (n / 16), hexDigit (n % 16)] = .ok n := by
  decide

theorem stringChars_escape (es : List Char) (h : escape true (es ++ cs) = .ok (c, es.length)) :
    stringChars true ('\\' :: (es ++ cs)) = (fun p => (c :: p.1, p.2)) <$> stringChars true cs := by
  rw [stringChars, if_neg (by decide), if_pos rfl, h]
  simp only [bind, Except.bind, List.drop_left]
  cases stringChars true cs <;> rfl

theorem stringChars_escapedChar (c : Char) (cs : List Char) :
    stringChars true (escapedChar c ++ cs) =
      (fun p => (c :: p.1, p.2)) <$> stringChars true cs := by
  unfold escapedChar
  split_ifs with hquote hslash hb hf hn hr ht hcontrol
  · subst hquote
    exact stringChars_escape ['"'] rfl
  · subst hslash
    exact stringChars_escape ['\\'] rfl
  · subst hb
    exact stringChars_escape ['b'] rfl
  · subst hf
    exact stringChars_escape ['f'] rfl
  · subst hn
    exact stringChars_escape ['n'] rfl
  · subst hr
    exact stringChars_escape ['r'] rfl
  · subst ht
    exact stringChars_escape ['t'] rfl
  · refine stringChars_escape ['u', '0', '0', hexDigit (c.toNat / 16), hexDigit (c.toNat % 16)] ?_
    have hunit : codeUnit (['0', '0', hexDigit (c.toNat / 16), hexDigit (c.toNat % 16)] ++ cs) =
        .ok c.toNat := codeUnit_control c.toNat hcontrol
    have hescape : unicodeEscape true (['0', '0', hexDigit (c.toNat / 16),
        hexDigit (c.toNat % 16)] ++ cs) = .ok (c, 4) := by
      have hlow : ¬ (0xDC00 ≤ c.toNat && c.toNat ≤ 0xDFFF) = true := by
        simp
        omega
      have hplain : (c.toNat < 0xD800 || 0xDBFF < c.toNat) = true := by
        simp
        omega
      simp only [unicodeEscape, hunit, bind, Except.bind]
      rw [if_neg (by decide), if_neg hlow, if_pos hplain, Char.ofNat_toNat]
    simp only [List.cons_append, escape] at hescape ⊢
    rw [hescape]
    rfl
  · rw [List.singleton_append, stringChars, if_neg hquote, if_neg hslash, if_neg hcontrol]
    cases stringChars true cs <;> rfl

theorem stringTail_escaped (s : String) :
    stringTail (escaped s ++ '"' :: rest) = .ok (s, rest) := by
  have hchars (es : List Char) :
      stringChars true (es.flatMap escapedChar ++ '"' :: rest) = .ok (es, rest) := by
    induction es with
    | nil => rw [List.flatMap_nil, List.nil_append, stringChars, if_pos rfl]
    | cons c es ih =>
      rw [List.flatMap_cons, List.append_assoc, stringChars_escapedChar, ih]
      rfl
  rw [stringTail, escaped, hchars]
  simp [bind, Except.bind]

theorem skipBlank_text (s : String) (hpad : ∀ c ∈ pad, isBlank c = true) :
    skipBlank (pad ++ ((valueText level (.text s)).toList ++ rest)) =
      '"' :: (escaped s ++ '"' :: rest) := by
  rw [valueText, stringText_toList, skipBlank_append hpad, List.cons_append, skipBlank_cons rfl,
    List.append_assoc, List.singleton_append]

theorem string_gives (s : String) : Gives string (.text s) (.ok s) := by
  intro level pad rest hpad
  rw [string, skipBlank_text s hpad]
  exact stringTail_escaped s

end Strings

section Scalars

theorem boolean_gives (b : Bool) : Gives boolean (.bool b) (.ok b) := by
  intro level pad rest hpad
  cases b
  · have htext : (valueText level (.bool false)).toList = ['f', 'a', 'l', 's', 'e'] := by
      rw [valueText]
      rfl
    rw [htext, boolean, skipBlank_append hpad, List.cons_append, skipBlank_cons rfl]
    rfl
  · have htext : (valueText level (.bool true)).toList = ['t', 'r', 'u', 'e'] := by
      rw [valueText]
      rfl
    rw [htext, boolean, skipBlank_append hpad, List.cons_append, skipBlank_cons rfl]
    rfl

theorem nullable_null {item : Decoder α} : Gives (nullable item) .null (.ok none) := by
  intro level pad rest hpad
  have htext : (valueText level .null).toList = ['n', 'u', 'l', 'l'] := by
    rw [valueText]
    rfl
  rw [htext, nullable, skipBlank_append hpad, List.cons_append, skipBlank_cons rfl]
  rfl

theorem atom_gives {depth : Nat} (s : String) :
    Gives (atom (depth + 1)) (.text s) (.ok (.text s)) := by
  intro level pad rest hpad
  rw [atom, skipBlank_text s hpad]
  simp only [stringTail_escaped s, bind, Except.bind]
  rfl

theorem variant_gives {options : List (String × α)} {s : String} {a : α}
    (h : options.lookup s = some a) : Gives (variant options) (.text s) (.ok a) := by
  intro level pad rest hpad
  rw [variant, skipBlank_text s hpad]
  simp only [stringTail_escaped s, h, bind, Except.bind]
  rfl

end Scalars

section Lines

def lines (level : Nat) (first : Bool) : List (List Char) → List Char
  | [] => []
  | t :: ts =>
    (if first then [] else [',']) ++ ((newline level).toList ++ (t ++ lines level false ts))

theorem length_lines (level : Nat) (first : Bool) (ts : List (List Char)) :
    ts.length ≤ (lines level first ts).length := by
  induction ts generalizing first with
  | nil => exact Nat.zero_le _
  | cons t ts ih =>
    have hline : 1 ≤ (newline level).toList.length := by simp [newline]
    have htail := ih false
    simp only [lines, List.length_append, List.length_cons]
    omega

theorem itemsText_toList : ∀ vs : List JsonValue,
    (itemsText level vs).toList = lines level true (vs.map fun v => (valueText level v).toList)
  | [] => rfl
  | [v] => by simp [itemsText, lines]
  | v :: w :: vs => by
    rw [itemsText, String.toList_append, itemsText_toList (w :: vs)]
    · simp [lines]
    · exact List.cons_ne_nil w vs

def memberChars (level : Nat) (m : String × JsonValue) : List Char :=
  '"' :: (escaped m.1 ++ '"' :: ':' :: ' ' :: (valueText level m.2).toList)

theorem membersText_toList : ∀ ms : List (String × JsonValue),
    (membersText level ms).toList = lines level true (ms.map (memberChars level))
  | [] => rfl
  | [(k, v)] => by simp [membersText, lines, memberChars, stringText_toList]
  | (k, v) :: m :: ms => by
    rw [membersText, String.toList_append, membersText_toList (m :: ms)]
    · simp [lines, memberChars, stringText_toList]
    · exact List.cons_ne_nil m ms

theorem valueText_head (level : Nat) (v : JsonValue) :
    ∃ c cs, (valueText level v).toList = c :: cs ∧ isBlank c = false ∧ c ≠ ']' := by
  rcases v with _ | (_ | _) | s | (_ | ⟨i, is⟩) | (_ | ⟨m, ms⟩)
  · exact ⟨'n', ['u', 'l', 'l'], by rw [valueText]; rfl, rfl, by decide⟩
  · exact ⟨'f', ['a', 'l', 's', 'e'], by rw [valueText]; rfl, rfl, by decide⟩
  · exact ⟨'t', ['r', 'u', 'e'], by rw [valueText]; rfl, rfl, by decide⟩
  · exact ⟨'"', escaped s ++ ['"'], by rw [valueText, stringText_toList], rfl, by decide⟩
  · exact ⟨'[', [']'], by rw [valueText]; rfl, rfl, by decide⟩
  · exact ⟨'[', _, by simp [valueText]; rfl, rfl, by decide⟩
  · exact ⟨'\x7b', ['\x7d'], by rw [valueText]; rfl, rfl, by decide⟩
  · exact ⟨'\x7b', _, by simp [valueText]; rfl, rfl, by decide⟩

end Lines

section Arrays

variable {item : Decoder α}

theorem nextItem_line {first : Bool} :
    nextItem first ((if first then [] else [',']) ++ ((newline level).toList ++
      ((valueText level v).toList ++ rest))) = .ok (some ((valueText level v).toList ++ rest)) := by
  have ⟨c, cs, hcs, hblank, hclose⟩ := valueText_head level v
  have hskip : skipBlank ((newline level).toList ++ ((valueText level v).toList ++ rest)) =
      c :: (cs ++ rest) := by
    rw [skipBlank_append blank_newline, hcs, List.cons_append, skipBlank_cons hblank]
  cases first with
  | true =>
    rw [if_pos rfl, List.nil_append, nextItem, hskip, hcs]
    split
    · next heq => cases heq
    · next heq =>
      cases heq
      exact absurd rfl hclose
    · next heq =>
      cases heq
      rfl
  | false =>
    rw [if_neg (by decide), List.singleton_append, nextItem, skipBlank_cons rfl]
    simp only [↓Char.isValue, Char.reduceEq, imp_self, Bool.false_eq_true, ↓reduceIte]
    rw [hskip, hcs]
    split
    · next heq => cases heq
    · next heq =>
      cases heq
      exact absurd rfl hclose
    · rfl

theorem nextItem_close (first : Bool) (rest : List Char) (hpad : ∀ c ∈ pad, isBlank c = true) :
    nextItem first (pad ++ ']' :: rest) = .ok none := by
  rw [nextItem, skipBlank_append hpad, skipBlank_cons rfl]
  rfl

theorem nullable_array {vs : List JsonValue} {r : Except Fault (List α)}
    (h : Gives (array item) (.array vs) r) :
    Gives (nullable (array item)) (.array vs) (some <$> r) := by
  intro level pad rest hpad
  have hopen : ∃ cs, (valueText level (.array vs)).toList ++ rest = '[' :: cs := by
    cases vs with
    | nil => exact ⟨']' :: rest, by rw [valueText]; rfl⟩
    | cons v vs => exact ⟨_, by simp [valueText]; rfl⟩
  have ⟨cs, hcs⟩ := hopen
  have hitems := h level [] rest nofun
  rw [List.nil_append, hcs] at hitems
  rw [hcs, nullable, skipBlank_append hpad, skipBlank_cons rfl]
  change (array item ('[' :: cs) >>= fun p => .ok (some p.1, p.2)) = _
  rw [hitems]
  cases r <;> rfl

theorem items_lines {is : List ι} {value : ι → JsonValue} {r : ι → Except Fault α} {n : Nat}
    {first : Bool} (h : ∀ i ∈ is, Gives item (value i) (r i)) (hn : is.length < n)
    (hpad : ∀ c ∈ pad, isBlank c = true) :
    items item n first (lines level first (is.map fun i => (valueText level (value i)).toList) ++
      (pad ++ ']' :: rest)) = (·, rest) <$> is.mapM r := by
  induction is generalizing n first with
  | nil =>
    obtain ⟨n, rfl⟩ : ∃ m, n = m + 1 := ⟨n - 1, by simp at hn; omega⟩
    have hclose := nextItem_close first rest hpad
    simp [lines, items, hclose, skipBlank_append hpad, skipBlank_cons, isBlank, bind, Except.bind,
      pure, Except.pure]
  | cons i is ih =>
    have ⟨hi, his⟩ := List.forall_mem_cons.mp h
    obtain ⟨n, rfl⟩ : ∃ m, n = m + 1 := ⟨n - 1, by simp at hn; omega⟩
    have htail := @ih n false his (by simpa using hn)
    have hitem (rest : List Char) := hi level [] rest nofun
    simp only [List.nil_append] at hitem
    rw [List.map_cons, lines, items]
    simp only [List.append_assoc, nextItem_line, hitem, List.mapM_cons, bind, Except.bind]
    cases r i with
    | error _ => rfl
    | ok a =>
      simp only [Functor.map, Except.map] at htail ⊢
      rw [htail]
      cases is.mapM r <;> rfl

theorem array_gives {is : List ι} {value : ι → JsonValue} {r : ι → Except Fault α}
    (h : ∀ i ∈ is, Gives item (value i) (r i)) :
    Gives (array item) (.array (is.map value)) (is.mapM r) := by
  intro level pad rest hpad
  cases is with
  | nil =>
    have htext : (valueText level (.array [])).toList = ['[', ']'] := by
      rw [valueText]
      rfl
    have hitems : items item (rest.length + 2) true (']' :: rest) = .ok ([], rest) := rfl
    rw [List.map_nil, htext, array, skipBlank_append hpad, List.cons_append, skipBlank_cons rfl]
    exact hitems
  | cons i is =>
    have htext : (valueText level (.array ((i :: is).map value))).toList ++ rest = '[' :: (lines
        (level + 1) true ((i :: is).map fun i => (valueText (level + 1) (value i)).toList) ++
          ((newline level).toList ++ ']' :: rest)) := by
      rw [List.map_cons, valueText]
      · simp [itemsText_toList, Function.comp_def]
      · exact List.cons_ne_nil _ _
    rw [htext, array, skipBlank_append hpad, skipBlank_cons rfl]
    refine items_lines h ?_ blank_newline
    have hlength := length_lines (level + 1) true
      ((i :: is).map fun i => (valueText (level + 1) (value i)).toList)
    rw [List.length_map] at hlength
    rw [List.length_append]
    omega

end Arrays

section Objects

variable {member : σ → Decoder σ}

def Takes (member : σ → Decoder σ) (m : String × JsonValue) (s : σ) (r : Except Fault σ) : Prop :=
  ∀ level rest,
    member s (escaped m.1 ++ '"' :: ':' :: ' ' :: ((valueText level m.2).toList ++ rest)) =
      (·, rest) <$> r

theorem nextKey_line {first : Bool} {m : String × JsonValue} :
    nextKey first ((if first then [] else [',']) ++ ((newline level).toList ++
      (memberChars level m ++ rest))) =
      .ok (some (escaped m.1 ++ '"' :: ':' :: ' ' :: ((valueText level m.2).toList ++ rest))) := by
  have hskip : skipBlank ((newline level).toList ++ (memberChars level m ++ rest)) =
      '"' :: (escaped m.1 ++ '"' :: ':' :: ' ' :: ((valueText level m.2).toList ++ rest)) := by
    rw [skipBlank_append blank_newline, memberChars, List.cons_append, skipBlank_cons rfl]
    simp
  cases first with
  | true =>
    rw [if_pos rfl, List.nil_append, nextKey, hskip]
    rfl
  | false =>
    rw [if_neg (by decide), List.singleton_append, nextKey, skipBlank_cons rfl]
    simp only [↓Char.isValue, Char.reduceEq, imp_self, Bool.false_eq_true, ↓reduceIte]
    rw [hskip]
    rfl

theorem nextKey_close (first : Bool) (rest : List Char) (hpad : ∀ c ∈ pad, isBlank c = true) :
    nextKey first (pad ++ '\x7d' :: rest) = .ok none := by
  rw [nextKey, skipBlank_append hpad, skipBlank_cons rfl]
  rfl

theorem members_lines {is : List ι} {entry : ι → String × JsonValue}
    {next : σ → ι → Except Fault σ} {n : Nat} {first : Bool} {s : σ}
    (h : ∀ s, ∀ i ∈ is, Takes member (entry i) s (next s i)) (hn : is.length < n)
    (hpad : ∀ c ∈ pad, isBlank c = true) :
    members member n first s (lines level first (is.map fun i => memberChars level (entry i)) ++
      (pad ++ '\x7d' :: rest)) = (·, rest) <$> is.foldlM next s := by
  induction is generalizing n first s with
  | nil =>
    obtain ⟨n, rfl⟩ : ∃ m, n = m + 1 := ⟨n - 1, by simp at hn; omega⟩
    have hclose := nextKey_close first rest hpad
    simp [lines, members, hclose, skipBlank_append hpad, skipBlank_cons, isBlank, bind, Except.bind,
      pure, Except.pure]
  | cons i is ih =>
    have hi := h s i (List.mem_cons_self ..) level
    have his : ∀ s, ∀ j ∈ is, Takes member (entry j) s (next s j) :=
      fun s j hj => h s j (List.mem_cons_of_mem i hj)
    obtain ⟨n, rfl⟩ : ∃ m, n = m + 1 := ⟨n - 1, by simp at hn; omega⟩
    rw [List.map_cons, lines, members]
    simp only [List.append_assoc, nextKey_line, hi, List.foldlM_cons, bind, Except.bind]
    cases next s i with
    | error _ => rfl
    | ok t => exact @ih n false t his (by simpa using hn)

theorem objectTail_gives {is : List ι} {entry : ι → String × JsonValue}
    {next : σ → ι → Except Fault σ} {s : σ}
    (h : ∀ s, ∀ i ∈ is, Takes member (entry i) s (next s i)) (level : Nat) (rest : List Char) :
    ∃ cs, (valueText level (.object (is.map entry))).toList ++ rest = '\x7b' :: cs ∧
      objectTail member s cs = (·, rest) <$> is.foldlM next s := by
  cases is with
  | nil =>
    refine ⟨'\x7d' :: rest, ?_, rfl⟩
    rw [List.map_nil, valueText]
    rfl
  | cons i is =>
    refine ⟨lines (level + 1) true ((i :: is).map fun i => memberChars (level + 1) (entry i)) ++
      ((newline level).toList ++ '\x7d' :: rest), ?_, ?_⟩
    · rw [List.map_cons, valueText]
      · simp [membersText_toList, Function.comp_def]
      · exact List.cons_ne_nil _ _
    · refine members_lines h ?_ blank_newline
      have hlength := length_lines (level + 1) true
        ((i :: is).map fun i => memberChars (level + 1) (entry i))
      rw [List.length_map] at hlength
      rw [List.length_append]
      omega

theorem colon_cons : colon (':' :: cs) = .ok cs := by
  rw [colon, skipBlank_cons rfl]
  rfl

theorem Gives.after_colon {d : Decoder α} {r : Except Fault α} (h : Gives d v r) (level : Nat)
    (rest : List Char) : d (' ' :: ((valueText level v).toList ++ rest)) = (·, rest) <$> r := by
  have hblank : ∀ c ∈ [' '], isBlank c = true := by simp [isBlank]
  exact h level [' '] rest hblank

end Objects

section Entries

variable {κ : Type} {key : Decoder κ} {value : Decoder α}

theorem foldlM_push {f : ι → Except Fault β} (is : List ι) (found : List β) :
    is.foldlM (fun found i => (fun b => found ++ [b]) <$> f i) found =
      (found ++ ·) <$> is.mapM f := by
  induction is generalizing found with
  | nil => simp
  | cons i is ih =>
    rw [List.foldlM_cons, List.mapM_cons]
    cases f i with
    | error _ => rfl
    | ok b =>
      change is.foldlM _ (found ++ [b]) = _
      rw [ih]
      cases is.mapM f with
      | error _ => simp [bind, Except.bind, Functor.map, Except.map]
      | ok bs => simp [bind, Except.bind, Functor.map, Except.map, pure, Except.pure]

theorem entryMember_takes {name : String} {k : κ} {r : Except Fault α} {found : List (κ × α)}
    (hkey : ∀ rest, key (escaped name ++ '"' :: rest) = .ok (k, rest)) (hvalue : Gives value v r) :
    Takes (entryMember key value) (name, v) found
      ((fun e => found ++ [e]) <$> (k, ·) <$> r) := by
  intro level rest
  simp only [entryMember, hkey, colon_cons, hvalue.after_colon, bind, Except.bind]
  cases r <;> rfl

theorem entries_gives {is : List ι} {name : ι → String} {k : ι → κ} {v : ι → JsonValue}
    {r : ι → Except Fault α}
    (hkey : ∀ i ∈ is, ∀ rest, key (escaped (name i) ++ '"' :: rest) = .ok (k i, rest))
    (hvalue : ∀ i ∈ is, Gives value (v i) (r i)) :
    Gives (entries key value) (.object (is.map fun i => (name i, v i)))
      (is.mapM fun i => (k i, ·) <$> r i) := by
  intro level pad rest hpad
  have ⟨cs, htext, hmembers⟩ := objectTail_gives (s := [])
    (fun _ i hi => entryMember_takes (hkey i hi) (hvalue i hi)) level rest
  have hpush := foldlM_push (f := fun i => (k i, ·) <$> r i) is []
  rw [htext, entries, skipBlank_append hpad, skipBlank_cons rfl]
  change objectTail (entryMember key value) [] cs = _
  rw [hmembers, hpush]
  simp

end Entries

section Records

structure Filled (σ : Type) where
  field : RecordField σ
  value : JsonValue
  next : σ → Except Fault σ
  gives : ∀ s, Gives (field.read s) value (next s)

variable {fields : List (RecordField σ)}

def Filled.name (p : Filled σ) : String := p.field.name

def Filled.step (state : σ × List String) (p : Filled σ) : Except Fault (σ × List String) :=
  if state.2.contains p.name then .error (.mismatch ("duplicate field `" ++ p.name ++ "`"))
  else (·, p.name :: state.2) <$> p.next state.1

theorem fieldMember_takes {p : Filled σ} (hp : fields.find? (·.name == p.name) = some p.field)
    (state : σ × List String) :
    Takes (fieldMember fields) (p.name, p.value) state (p.step state) := by
  intro level rest
  simp only [fieldMember, stringTail_escaped, hp, bind, Except.bind, Filled.step]
  split_ifs
  · rfl
  · simp only [colon_cons, (p.gives state.1).after_colon]
    cases p.next state.1 <;> rfl

theorem find?_name {f : RecordField σ} (hnodup : (fields.map RecordField.name).Nodup)
    (hf : f ∈ fields) : fields.find? (·.name == f.name) = some f := by
  induction fields with
  | nil => cases hf
  | cons g fields ih =>
    have ⟨hg, hnodup⟩ := List.nodup_cons.mp hnodup
    rcases List.mem_cons.mp hf with rfl | hf
    · simp
    · have hne : g.name ≠ f.name := fun heq => hg (heq ▸ List.mem_map_of_mem hf)
      rw [List.find?_cons_of_neg (by simpa using hne)]
      exact ih hnodup hf

theorem foldlM_step {parts : List (Filled σ)} {seen : List String} {s : σ}
    (hnodup : (parts.map Filled.name).Nodup) (hseen : ∀ p ∈ parts, p.name ∉ seen) :
    parts.foldlM Filled.step (s, seen) =
      (·, (parts.map Filled.name).reverse ++ seen) <$> parts.foldlM (fun s p => p.next s) s := by
  induction parts generalizing s seen with
  | nil => rfl
  | cons p parts ih =>
    have ⟨hp, hparts⟩ := List.forall_mem_cons.mp hseen
    have ⟨hfresh, hnodup⟩ := List.nodup_cons.mp hnodup
    have hstep : Filled.step (s, seen) p = (·, p.name :: seen) <$> p.next s :=
      if_neg (by simpa using hp)
    rw [List.foldlM_cons, List.foldlM_cons, hstep]
    cases p.next s with
    | error _ => rfl
    | ok t =>
      have hseen' : ∀ q ∈ parts, q.name ∉ p.name :: seen := by
        intro q hq hmem
        rcases List.mem_cons.mp hmem with heq | hmem
        · exact hfresh (heq ▸ List.mem_map_of_mem hq)
        · exact hparts q hq hmem
      have htail := ih (s := t) hnodup hseen'
      rw [List.map_cons, List.reverse_cons, List.append_assoc, List.singleton_append]
      exact htail

theorem record_gives {name : String} {parts : List (Filled σ)} {start : σ}
    (hfields : parts.map Filled.field = fields)
    (hnodup : (parts.map Filled.name).Nodup) :
    Gives (record name fields start) (.object (parts.map fun p => (p.name, p.value)))
      (parts.foldlM (fun s p => p.next s) start) := by
  intro level pad rest hpad
  have hnames : fields.map RecordField.name = parts.map Filled.name := by
    rw [← hfields, List.map_map]
    rfl
  have htakes (state : σ × List String) (p : Filled σ) (hp : p ∈ parts) :
      Takes (fieldMember fields) (p.name, p.value) state (p.step state) :=
    fieldMember_takes (find?_name (hnames ▸ hnodup) (hfields ▸ List.mem_map_of_mem hp)) state
  have ⟨cs, htext, hmembers⟩ := objectTail_gives (s := (start, [])) htakes level rest
  rw [foldlM_step hnodup fun _ _ => List.not_mem_nil] at hmembers
  rw [htext, record, skipBlank_append hpad, skipBlank_cons rfl]
  simp only [hmembers]
  have hall (s : List String) (hs : ∀ f ∈ fields, f.name ∈ s) :
      fields.find? (fun f => f.required && !s.contains f.name) = none := by
    rw [List.find?_eq_none]
    intro f hf
    simp [hs f hf]
  have hseen : ∀ f ∈ fields, f.name ∈ (parts.map Filled.name).reverse ++ [] := by
    intro f hf
    rw [List.append_nil, List.mem_reverse, ← hnames]
    exact List.mem_map_of_mem hf
  cases parts.foldlM (fun s p => p.next s) start with
  | error _ => rfl
  | ok s =>
    simp only [Functor.map, Except.map, bind, Except.bind, hall _ hseen]

end Records

section Keys

theorem escapedChar_of_isDigit (h : Decimal.isDigit c = true) : escapedChar c = [c] := by
  rw [Decimal.isDigit_iff] at h
  have hne (d : Char) (hd : d.toNat < 48 ∨ 57 < d.toNat) : c ≠ d := by
    rintro rfl
    omega
  rw [escapedChar, if_neg (hne _ (by decide)), if_neg (hne _ (by decide)),
    if_neg (hne _ (by decide)), if_neg (hne _ (by decide)), if_neg (hne _ (by decide)),
    if_neg (hne _ (by decide)), if_neg (hne _ (by decide)), if_neg (by omega)]

theorem escaped_repr (n : Nat) : escaped (Nat.repr n) = Nat.toDigits 10 n := by
  rw [escaped, Nat.repr_eq_ofList_toDigits, String.toList_ofList]
  have hdigits : ∀ c ∈ Nat.toDigits 10 n, escapedChar c = [c] :=
    fun c hc => escapedChar_of_isDigit (Decimal.isDigit_of_mem_toDigits hc)
  rw [List.flatMap_congr hdigits, List.flatMap_singleton']

theorem head_toDigits {n : Nat} (h : 0 < n) : (Nat.toDigits 10 n).head? ≠ some '0' := by
  induction n using Nat.strongRecOn with
  | ind n ih =>
    by_cases hsmall : n < 10
    · rw [Nat.toDigits_of_lt_base hsmall]
      have hdigits : ∀ d < 10, 0 < d → [d.digitChar].head? ≠ some '0' := by decide
      exact hdigits n hsmall h
    · have hsplit := Nat.toDigits_append_toDigits (b := 10) (n := n / 10) (d := n % 10)
        (by decide) (by omega) (by omega)
      rw [Nat.div_add_mod] at hsplit
      rw [← hsplit, List.head?_append_of_ne_nil _ Nat.toDigits_ne_nil]
      exact ih (n / 10) (by omega) (by omega)

theorem wholeDigits_toDigits (n : Nat) : wholeDigits true (Nat.toDigits 10 n ++ '"' :: rest) =
    .ok (Nat.toDigits 10 n, '"' :: rest) := by
  have hdigits : ∀ c ∈ Nat.toDigits 10 n, Decimal.isDigit c = true :=
    fun c hc => Decimal.isDigit_of_mem_toDigits hc
  have htake :
      (Nat.toDigits 10 n ++ '"' :: rest).takeWhile Decimal.isDigit = Nat.toDigits 10 n := by
    rw [List.takeWhile_append_of_pos hdigits]
    simp [Decimal.isDigit]
  have hone : digits1 true (Nat.toDigits 10 n ++ '"' :: rest) =
      .ok (Nat.toDigits 10 n, '"' :: rest) := by
    simp [digits1, htake, Nat.toDigits_ne_nil]
  simp only [wholeDigits, hone, bind, Except.bind]
  split
  · next heq =>
    rcases Nat.eq_zero_or_pos n with rfl | hpos
    · cases heq
    · exact absurd (by rw [heq]; rfl) (head_toDigits hpos)
  · rfl

theorem assemble_whole {ds : List Char} {n : Nat} (hn : n < 0x10000000000000000)
    (hds : Decimal.value ds = n) : assemble false ds none none = .integer n := by
  have hbound : (n : Int) < 0x10000000000000000 := by omega
  simp only [assemble, hds, Bool.false_eq_true, if_false, hbound, if_true]

theorem magnitude_integer {matters negative : Bool} {us vs ds : List Char}
    {fraction : Option (List Char)} {exp : Option Int} {n : Int}
    (hwhole : wholeDigits matters cs = .ok (ds, us))
    (hfraction : fractionDigits matters us = .ok (fraction, vs))
    (hexponent : exponent matters vs = .ok (exp, rest))
    (hn : assemble negative ds fraction exp = .integer n) :
    magnitude matters negative cs = .ok (.integer n, rest) := by
  simp only [magnitude, hwhole, hfraction, hexponent, hn, bind, Except.bind]

theorem number_toDigits {n : Nat} (rest : List Char) (hn : n < 0x10000000000000000) :
    number true (Nat.toDigits 10 n ++ '"' :: rest) = .ok (.integer n, '"' :: rest) := by
  unfold number
  split
  · next cs heq =>
    have hminus : '-' ∈ Nat.toDigits 10 n := by
      cases hds : Nat.toDigits 10 n with
      | nil => exact absurd hds Nat.toDigits_ne_nil
      | cons d ds =>
        rw [hds, List.cons_append] at heq
        exact (List.cons.inj heq).1 ▸ List.mem_cons_self ..
    exact absurd (Decimal.isDigit_of_mem_toDigits hminus) (by decide)
  · exact magnitude_integer (wholeDigits_toDigits n) rfl rfl
      (assemble_whole hn Decimal.value_toDigits)

theorem numericKey_text {bound n : Nat} {expected : String} (hn : n < bound)
    (hbound : bound ≤ 0x10000000000000000) :
    numericKey bound expected (escaped (Decimal.text n) ++ '"' :: rest) = .ok (n, rest) := by
  have htext : Decimal.text n = Nat.repr n := by
    rw [Decimal.text, if_neg (by omega), Int.natAbs_natCast]
  have hnumber := number_toDigits rest (Nat.lt_of_lt_of_le hn hbound)
  rw [htext, escaped_repr]
  cases hds : Nat.toDigits 10 n with
  | nil => exact absurd hds Nat.toDigits_ne_nil
  | cons d ds =>
    have hdigit : Decimal.isDigit d = true :=
      Decimal.isDigit_of_mem_toDigits (n := n) (hds ▸ List.mem_cons_self ..)
    have hrange : ¬ ((n : Int) < 0 ∨ (bound : Int) ≤ n) := by omega
    rw [hds, List.cons_append] at hnumber
    simp only [List.cons_append, numericKey, hdigit, Bool.or_true, if_true, hnumber, bind,
      Except.bind, hrange, if_false]
    rfl

end Keys

theorem whole_gives {d : Decoder α} {r : Except Fault α} (h : Gives d v r) :
    whole d v.pretty = r := by
  have hvalue := h 0 [] [] nofun
  rw [List.nil_append, List.append_nil] at hvalue
  rw [whole, JsonValue.pretty, hvalue]
  cases r <;> rfl

end LoopAudit.JsonText
