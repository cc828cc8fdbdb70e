import LoopAudit.Proofs.Lexemes

/-! Where tokens stand in a text. The scanner puts each token at the bytes of its word, one after
the other, and leaves out nothing but blanks. -/

namespace LoopAudit

open Fallible

namespace Span

def Within (n : Nat) (span : Span) : Prop := span.offset + span.length ≤ n

def Covers (span : Span) (i : Nat) : Prop := span.offset ≤ i ∧ i < span.offset + span.length

def bytes (src : String) (span : Span) : ByteArray :=
  src.toByteArray.extract span.offset (span.offset + span.length)

end Span

namespace Token

variable {c : Char} {cs cs' w read text before after : List Char} {t : Token} {ts : List Token}
  {src : String} {i : Nat}

theorem byteLength_eq_size : byteLength cs = cs.utf8Encode.size := by
  suffices h : ∀ n, cs.foldl (fun n c => n + c.utf8Size) n = n + cs.utf8Encode.size by
    rw [byteLength, h, Nat.zero_add]
  induction cs with
  | nil => simp
  | cons c cs ih =>
    intro n
    rw [List.foldl_cons, ih, List.utf8Encode_cons, ByteArray.size_append,
      List.utf8Encode_singleton, List.size_toByteArray, String.length_utf8EncodeChar,
      Nat.add_assoc]

@[simp] theorem byteLength_append : byteLength (cs ++ cs') = byteLength cs + byteLength cs' := by
  simp [byteLength_eq_size]

theorem byteLength_singleton : byteLength [c] = c.utf8Size := by simp [byteLength]

theorem byteLength_toList : byteLength src.toList = src.utf8ByteSize := by
  rw [byteLength_eq_size, String.utf8Encode_toList, String.size_toByteArray]

theorem byteLength_pos (h : cs ≠ []) : 0 < byteLength cs := by
  rw [byteLength_eq_size, Nat.pos_iff_ne_zero, Ne, ByteArray.size_eq_zero_iff]
  simpa using h

/-- Tokens at the bytes of their words, with blanks between them, in a text that comes after the
characters `read`. -/
inductive Layout : List Char → List Char → List Token → Prop
  | nil {read : List Char} : Layout read [] []
  | blank {read text : List Char} {c : Char} {ts : List Token} (hc : isBlank c = true)
      (h : Layout (read ++ [c]) text ts) : Layout read (c :: text) ts
  | word {read w text : List Char} {kind : TokenKind} {ts : List Token} (hw : Denotes w kind)
      (h : Layout (read ++ w) text ts) :
      Layout read (w ++ text) (⟨kind, ⟨byteLength read, byteLength w⟩⟩ :: ts)

theorem isBlank_utf8Size (hc : isBlank c = true) : c.utf8Size = 1 := by
  simp only [isBlank, Bool.or_eq_true, beq_iff_eq] at hc
  rcases hc with (((rfl | rfl) | rfl) | rfl) | rfl <;> rfl

theorem scanFrom_layout {read text : List Char} {ts : List Token}
    (h : scanFrom (byteLength read) text = .ok ts) :
    ∃ words, ts = words ++ [⟨.eof, ⟨byteLength (read ++ text), 0⟩⟩] ∧ Layout read text words := by
  -- What a step takes from the text it adds to the characters read, so the whole stays the same.
  cases htext : text with
  | nil =>
    rw [htext, scanFrom] at h
    cases h
    exact ⟨[], by simp, .nil⟩
  | cons c cs =>
    rw [htext] at h
    by_cases hc : isBlank c = true
    · rw [scanFrom, if_pos hc, ← byteLength_singleton, ← byteLength_append] at h
      obtain ⟨words, rfl, hlayout⟩ := scanFrom_layout h
      exact ⟨words, by simp, .blank hc hlayout⟩
    · obtain ⟨kind, n, rest, hnext, hrest, rfl⟩ := scanFrom_cons (by simpa using hc) h
      rw [← byteLength_append] at hrest
      obtain ⟨words, rfl, hlayout⟩ := scanFrom_layout hrest
      have hsplit : c :: cs = (c :: cs.take n) ++ cs.drop n := by simp
      refine ⟨⟨kind, ⟨byteLength read, byteLength (c :: cs.take n)⟩⟩ :: words, ?_, ?_⟩
      · rw [hsplit, ← List.append_assoc, List.cons_append]
      · rw [hsplit]
        exact .word (next_denotes hnext) hlayout
termination_by text.length
decreasing_by all_goals (simp only [htext, List.length_drop, List.length_cons]; omega)

theorem scanFrom_error {text : List Char} {offset : Nat} {e : SyntaxError}
    (h : scanFrom offset text = .error e) : e.span.Within (offset + byteLength text) := by
  cases htext : text with
  | nil =>
    rw [htext, scanFrom] at h
    cases h
  | cons c cs =>
    rw [htext, scanFrom] at h
    split_ifs at h with hc
    · have hrest := scanFrom_error h
      rwa [← byteLength_singleton, Nat.add_assoc, ← byteLength_append] at hrest
    · have hsplit : c :: cs = (c :: cs.take (next c cs).2) ++ cs.drop (next c cs).2 := by simp
      rw [hsplit, byteLength_append, ← Nat.add_assoc]
      simp only at h
      split at h
      · cases h
        exact Nat.le_add_right ..
      · rcases bind_eq_error.mp h with h | ⟨rest, -, h⟩
        · exact scanFrom_error h
        · cases h
termination_by text.length
decreasing_by all_goals (simp only [htext, List.length_drop, List.length_cons]; omega)

theorem scan_layout (h : scan src = .ok ts) : ∃ words,
    ts = words ++ [⟨.eof, ⟨src.utf8ByteSize, 0⟩⟩] ∧ Layout [] src.toList words := by
  have hstart : scanFrom (byteLength []) src.toList = .ok ts := h
  have hlayout := scanFrom_layout hstart
  rwa [List.nil_append, byteLength_toList] at hlayout

theorem scan_error {e : SyntaxError} (h : scan src = .error e) :
    e.span.Within src.utf8ByteSize := by
  have hwithin := scanFrom_error h
  rwa [Nat.zero_add, byteLength_toList] at hwithin

namespace Layout

theorem read_le (h : Layout read text ts) (ht : t ∈ ts) : byteLength read ≤ t.span.offset := by
  induction h with
  | nil => cases ht
  | blank _ _ ih =>
    have hle := ih ht
    rw [byteLength_append] at hle
    omega
  | word _ _ ih =>
    rcases List.mem_cons.mp ht with rfl | ht
    · exact Nat.le_refl _
    · have hle := ih ht
      rw [byteLength_append] at hle
      omega

theorem pairwise (h : Layout read text ts) :
    ts.Pairwise fun s t => s.span.offset + s.span.length ≤ t.span.offset := by
  induction h with
  | nil => exact .nil
  | blank _ _ ih => exact ih
  | word _ h ih =>
    refine List.pairwise_cons.mpr ⟨fun t ht => ?_, ih⟩
    rw [← byteLength_append]
    exact h.read_le ht

theorem exists_word (h : Layout read text ts) (ht : t ∈ ts) : ∃ before w after,
    read ++ text = before ++ (w ++ after) ∧ Denotes w t.kind ∧
      t.span = ⟨byteLength before, byteLength w⟩ := by
  induction h with
  | nil => cases ht
  | blank _ _ ih => simpa using ih ht
  | @word read w text kind ts hw _ ih =>
    rcases List.mem_cons.mp ht with rfl | ht
    · exact ⟨read, w, text, rfl, hw, rfl⟩
    · simpa using ih ht

theorem within (h : Layout read text ts) (ht : t ∈ ts) :
    t.span.Within (byteLength (read ++ text)) := by
  obtain ⟨before, w, after, htext, -, hspan⟩ := h.exists_word ht
  rw [htext, hspan, byteLength_append, byteLength_append, ← Nat.add_assoc]
  exact Nat.le_add_right ..

theorem length_pos (h : Layout read text ts) (ht : t ∈ ts) : 0 < t.span.length := by
  obtain ⟨_, w, _, _, hw, hspan⟩ := h.exists_word ht
  obtain ⟨c, cs, rfl, -⟩ := hw.eq_cons
  rw [hspan]
  exact byteLength_pos (List.cons_ne_nil c cs)

theorem exists_blank (h : Layout read text ts) (hread : byteLength read ≤ i)
    (hi : i < byteLength (read ++ text)) (hfree : ∀ t ∈ ts, ¬ t.span.Covers i) :
    ∃ before c after, read ++ text = before ++ c :: after ∧ isBlank c = true ∧
      i = byteLength before := by
  induction h with
  | nil =>
    rw [List.append_nil] at hi
    omega
  | @blank read text c ts hc _ ih =>
    by_cases heq : i = byteLength read
    · exact ⟨read, c, text, rfl, hc, heq⟩
    · have hnext : byteLength (read ++ [c]) ≤ i := by
        rw [byteLength_append, byteLength_singleton, isBlank_utf8Size hc]
        omega
      simpa using ih hnext (by simpa using hi) hfree
  | @word read w text kind ts _ _ ih =>
    obtain ⟨hword, hfree⟩ := List.forall_mem_cons.mp hfree
    have hnext : byteLength (read ++ w) ≤ i := by
      simp only [Span.Covers] at hword
      rw [byteLength_append]
      omega
    simpa using ih hnext (by simpa using hi) hfree

end Layout

section Bytes

theorem bytes_word (h : src.toList = before ++ (w ++ after)) :
    Span.bytes src ⟨byteLength before, byteLength w⟩ = w.utf8Encode := by
  have hbytes : src.toByteArray = before.utf8Encode ++ (w.utf8Encode ++ after.utf8Encode) := by
    rw [← String.utf8Encode_toList, h, List.utf8Encode_append, List.utf8Encode_append]
  rw [Span.bytes, hbytes, byteLength_eq_size, byteLength_eq_size]
  have hword := ByteArray.extract_append_size_add (a := before.utf8Encode)
    (b := w.utf8Encode ++ after.utf8Encode) (i := 0) (j := w.utf8Encode.size)
  rw [Nat.add_zero] at hword
  rw [hword, ByteArray.extract_append_eq_left rfl]

def blankBytes : List UInt8 := [0x20, 0x09, 0x0D, 0x0A, 0x0C]

theorem getElem_blank (h : src.toList = before ++ c :: after) (hc : isBlank c = true)
    (hi : byteLength before < src.toByteArray.size) :
    src.toByteArray[byteLength before] ∈ blankBytes := by
  have hbytes : src.toByteArray =
      before.utf8Encode ++ ((String.utf8EncodeChar c).toByteArray ++ after.utf8Encode) := by
    rw [← String.utf8Encode_toList, h, List.utf8Encode_append, List.utf8Encode_cons,
      List.utf8Encode_singleton]
  have hbyte : src.toByteArray[byteLength before] = c.val.toUInt8 := by
    have hchar : String.utf8EncodeChar c = [c.val.toUInt8] :=
      String.utf8EncodeChar_eq_singleton (isBlank_utf8Size hc)
    simp only [hbytes, byteLength_eq_size]
    rw [ByteArray.getElem_append_right (Nat.le_refl _)]
    simp only [Nat.sub_self, hchar]
    rw [ByteArray.getElem_append_left (by simp)]
    rfl
  rw [hbyte]
  simp only [isBlank, Bool.or_eq_true, beq_iff_eq] at hc
  rcases hc with (((rfl | rfl) | rfl) | rfl) | rfl <;> decide

end Bytes

end Token

end LoopAudit
